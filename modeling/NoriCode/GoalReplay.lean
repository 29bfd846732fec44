/-
**Replaying the goal.**

The goal of a live agent and its checkpoints can be rebuilt from the log: every operation writes
what restoring the record needs.  There are three exceptions.  A checkpoint that is prepared and
belongs to no prompt yet is discarded at the end of a replay, with what has happened to the goal
since, because the process may have ended before the prompt was submitted.  The clock is read twice
when a goal is resumed, for the new interval and for the record.  And the record of an undo rewinds
the goal when it is restored, also if the undo has raised an error in the live agent and has not
rewound the goal; an undo of an empty history writes no record, but rewinds the goal.

Main definitions:

* `SameGoal` — the same goal, without the running interval, and the same checkpoints;
* `LiveAgent.Replayable` — the condition on a step.

Main results:

* `goal_replays_to_live` — **the log replays to the goal of the live agent**.
-/

import NoriCode.LiveAgent

namespace NoriCode

open LiveAgent

/-- **The same goal and the same checkpoints.**  An active interval may have begun at another
time. -/
structure SameGoal (a b : GoalMode) : Prop where
  goal : a.state.map GoalState.accumulated = b.state.map GoalState.accumulated
  checkpoints : a.rewindCheckpoints = b.rewindCheckpoints

instance SameGoal.decidable (a b : GoalMode) : Decidable (SameGoal a b) :=
  decidable_of_iff (_ ∧ _) ⟨fun h => ⟨h.1, h.2⟩, fun h => ⟨h.goal, h.checkpoints⟩⟩

/-- Also the same checkpoint is prepared. -/
structure Mirrors (a b : GoalMode) : Prop extends SameGoal a b where
  prepared : a.rewindCheckpointPrepared = b.rewindCheckpointPrepared

/-! ### Restoring a record -/

/-- What an update makes of the goal without the running interval. -/
def GoalRewindSnapshot.update (snapshot : GoalRewindSnapshot) (u : GoalUpdate) :
    GoalRewindSnapshot :=
  { snapshot with
    status := u.status.getD snapshot.status
    turnsUsed := u.turnsUsed.getD snapshot.turnsUsed
    tokensUsed := u.tokensUsed.getD snapshot.tokensUsed
    wallClockMs := u.wallClockMs.getD snapshot.wallClockMs
    budgetLimits := u.budgetLimits.getD snapshot.budgetLimits
    terminalReason :=
      match u.status with
      | none => snapshot.terminalReason
      | some status => if status = .active then none else u.reason }

theorem accumulated_restoreUpdate (state : GoalState) (u : GoalUpdate) :
    (state.restoreUpdate u).accumulated = state.accumulated.update u := rfl

/-- A goal that is taken back from a checkpoint is the goal of the checkpoint. -/
theorem accumulated_stateFromRewindSnapshot (checkpoint : GoalRewindCheckpoint) (now : ℤ) :
    (stateFromRewindSnapshot checkpoint now).map GoalState.accumulated = checkpoint := by
  cases checkpoint <;> rfl

namespace Mirrors

variable {a b : GoalMode}

theorem initial : Mirrors {} {} := ⟨⟨rfl, rfl⟩, rfl⟩

theorem withState (h : Mirrors a b) {state state' : Option GoalState}
    (hstate : state.map GoalState.accumulated = state'.map GoalState.accumulated) :
    Mirrors { a with state } { b with state := state' } :=
  ⟨⟨hstate, h.checkpoints⟩, h.prepared⟩

theorem update (h : Mirrors a b) {state state' : GoalState} (hb : b.state = some state)
    {u : GoalUpdate} (hu : state'.accumulated = state.accumulated.update u) :
    Mirrors { a with state := a.state.map (·.restoreUpdate u) }
      { b with state := some state' } := by
  refine h.withState ?_
  have hgoal := h.goal
  rw [hb] at hgoal
  cases ha : a.state with
  | none =>
    rw [ha] at hgoal
    cases hgoal
  | some old =>
    rw [ha] at hgoal
    have hold : old.accumulated = state.accumulated := Option.some.inj hgoal
    simp [accumulated_restoreUpdate, hold, hu]

theorem pushCheckpoint (h : Mirrors a b) (checkpoint : GoalRewindCheckpoint) (prepared : Bool) :
    Mirrors (a.pushCheckpoint checkpoint prepared) (b.pushCheckpoint checkpoint prepared) :=
  ⟨⟨h.goal, congrArg (· ++ [checkpoint]) h.checkpoints⟩, rfl⟩

theorem discard (h : Mirrors a b) (now now' : ℤ) :
    Mirrors (a.restoreRewindCheckpointDiscard now) (b.restoreRewindCheckpointDiscard now') := by
  refine ⟨⟨?_, congrArg List.dropLast h.checkpoints⟩, rfl⟩
  simp only [GoalMode.restoreRewindCheckpointDiscard, h.checkpoints]
  cases b.rewindCheckpoints.getLast? with
  | none => exact h.goal
  | some checkpoint => simp only [accumulated_stateFromRewindSnapshot]

theorem rewind (h : Mirrors a b) (count now now' : ℤ) :
    Mirrors (a.rewind count now) (b.rewind count now') := by
  unfold GoalMode.rewind
  rw [h.checkpoints]
  split_ifs
  · exact h
  · cases b.rewindCheckpoints[b.rewindCheckpoints.length - count.toNat]? with
    | none => exact h
    | some checkpoint =>
      exact ⟨⟨by simp only [accumulated_stateFromRewindSnapshot], rfl⟩, rfl⟩

end Mirrors

theorem GoalMode.rewind_eq_self {g : GoalMode} {count : ℤ}
    (h : count ≤ 0 ∨ (g.rewindCheckpoints.length : ℤ) < count) (now : ℤ) :
    g.rewind count now = g := if_pos h

/-! ### Replaying a log -/

theorem replayGoal_append (clock : ℕ → ℤ) (records : List GoalRecord) (record : GoalRecord) :
    replayGoal clock (records ++ [record]) =
      (replayGoal clock records).restore record (clock records.length) := by
  simp [replayGoal, List.zipIdx_append]

/-- Whatever becomes of the legacy checkpoint, a record is restored into the same goal. -/
theorem GoalReplay.restore_mirrors {r : GoalReplay} {b : GoalMode} (h : Mirrors r.mode b)
    (record : GoalRecord) (now : ℤ) :
    ∃ a useLegacy,
      Mirrors a b ∧ (r.restore record now).mode = a.restoreRecord useLegacy now record := by
  have hdiscard : Mirrors r.mode.discardLegacyRewindCheckpoint b :=
    ⟨⟨h.goal, h.checkpoints⟩, h.prepared⟩
  have hprepare : ∀ {a : GoalMode},
      Mirrors a b → Mirrors (a.prepareLegacyRewindCheckpoint now) b := by
    intro a ha
    unfold GoalMode.prepareLegacyRewindCheckpoint
    split_ifs
    · exact ha
    · exact ⟨⟨ha.goal, ha.checkpoints⟩, ha.prepared⟩
  refine ⟨_, _, ?_, rfl⟩
  split_ifs
  · exact hprepare h
  · exact hprepare hdiscard
  · exact hdiscard
  · exact h

/-- **The log replays to the goal**; a checkpoint that is prepared is there. -/
structure ReplaysGoal (clock : ℕ → ℤ) (s : GoalSession) : Prop where
  mirrors : Mirrors (replayGoal clock s.records).mode s.mode
  nonempty : s.mode.rewindCheckpointPrepared = true → s.mode.rewindCheckpoints ≠ []

namespace ReplaysGoal

variable {clock : ℕ → ℤ} {s : GoalSession}

theorem initial (clock : ℕ → ℤ) : ReplaysGoal clock {} :=
  ⟨Mirrors.initial, fun h => Bool.noConfusion h⟩

/-- A record is written, and restoring it does to any goal like the live one what has been done to
the live one. -/
theorem log (h : ReplaysGoal clock s) (record : GoalRecord) {mode : GoalMode}
    (hmode : ∀ a useLegacy now, Mirrors a s.mode →
      Mirrors (a.restoreRecord useLegacy now record) mode)
    (hne : mode.rewindCheckpointPrepared = true → mode.rewindCheckpoints ≠ []) :
    ReplaysGoal clock { mode, records := s.records ++ [record] } := by
  refine ⟨?_, hne⟩
  obtain ⟨a, useLegacy, ha, heq⟩ :=
    GoalReplay.restore_mirrors h.mirrors record (clock s.records.length)
  rw [replayGoal_append, heq]
  exact hmode a useLegacy _ ha

theorem logOther (h : ReplaysGoal clock s) : ReplaysGoal clock (s.logRecord .other) :=
  h.log .other (fun _ _ _ ha => ha) h.nonempty

theorem logOthers (h : ReplaysGoal clock s) (n : ℕ) :
    ReplaysGoal clock { s with records := s.records ++ List.replicate n .other } := by
  induction n with
  | zero => simpa using h
  | succ n ih =>
    have hone := ih.logOther
    simpa [GoalSession.logRecord, List.replicate_succ'] using hone

variable {state : GoalState}

theorem logUpdate (h : ReplaysGoal clock s) {state' : GoalState}
    (hs : s.mode.state = some state) {u : GoalUpdate}
    (hu : state'.accumulated = state.accumulated.update u) :
    ReplaysGoal clock ((s.persistState (some state')).logRecord (.update u)) :=
  h.log (.update u) (fun _ _ _ ha => ha.update hs hu) h.nonempty

theorem clearInternal (h : ReplaysGoal clock s) : ReplaysGoal clock s.clearInternal := by
  unfold GoalSession.clearInternal
  cases s.mode.state with
  | none => exact h
  | some state => exact h.log .clear (fun _ _ _ ha => ha.withState rfl) h.nonempty

/-! ### Checkpoints -/

theorem prepareRewindCheckpoint (h : ReplaysGoal clock s) (now : ℤ) :
    ReplaysGoal clock (s.prepareRewindCheckpoint now) := by
  unfold GoalSession.prepareRewindCheckpoint
  split_ifs with hprepared
  · exact h
  · refine h.log (.rewindCheckpoint _) (fun a useLegacy t ha => ?_) (fun _ => by
      simp [GoalMode.pushCheckpoint])
    have hfree : a.rewindCheckpointPrepared = false := by
      rw [ha.prepared]
      exact Bool.eq_false_iff.2 hprepared
    simp only [GoalMode.restoreRecord, GoalMode.restoreRewindCheckpoint, hfree]
    exact ha.pushCheckpoint _ true

variable {record : GoalRecord} {origin : PromptOrigin}

section

variable (h : ReplaysGoal clock s)
  (hrecord : record = .turnPrompt origin ∨ record = .turnSteer origin)

include h hrecord

theorem logPrompt (huser : origin.kind = .user) (hprepared : s.mode.rewindCheckpointPrepared = true)
    : ReplaysGoal clock (s.beginPrompt.logRecord record) := by
  refine h.log record (fun a useLegacy t ha => ?_) fun hfalse => Bool.noConfusion hfalse
  have hset : a.rewindCheckpointPrepared = true := ha.prepared.trans hprepared
  have hrestore : a.restoreRecord useLegacy t record = a.restorePrompt useLegacy t := by
    rcases hrecord with rfl | rfl <;> exact if_pos huser
  rw [hrestore]
  simp only [GoalMode.restorePrompt, hset, if_true]
  exact ⟨⟨ha.goal, ha.checkpoints⟩, rfl⟩

theorem beginRewindablePrompt (huser : origin.kind = .user) (now : ℤ) :
    ReplaysGoal clock ((s.beginRewindablePrompt now).logRecord record) := by
  unfold GoalSession.beginRewindablePrompt
  split_ifs with hprepared
  · exact h.logPrompt hrecord huser hprepared
  · -- on the side of the log the checkpoint is prepared, and the prompt begins with it
    have hprepare := h.prepareRewindCheckpoint now
    rw [GoalSession.prepareRewindCheckpoint, if_neg hprepared] at hprepare
    exact hprepare.logPrompt hrecord huser rfl

theorem logOtherPrompt (huser : origin.kind ≠ .user) : ReplaysGoal clock (s.logRecord record) := by
  refine h.log record (fun a useLegacy t ha => ?_) h.nonempty
  have hrestore : a.restoreRecord useLegacy t record = a := by
    rcases hrecord with rfl | rfl <;> exact if_neg huser
  rwa [hrestore]

end

theorem discardRewindCheckpoint (h : ReplaysGoal clock s) (now : ℤ) :
    ReplaysGoal clock (s.discardRewindCheckpoint now) := by
  unfold GoalSession.discardRewindCheckpoint
  split_ifs with hprepared hempty
  · exact absurd (List.isEmpty_iff.1 hempty) (h.nonempty hprepared)
  · exact h.log .rewindCheckpointDiscard (fun a _ t ha => ha.discard t now)
      fun hfalse => Bool.noConfusion hfalse
  · exact h

/-! ### Operations on the goal -/

variable {now : ℤ}

theorem liveWallClockMs_eq (h : state.status = .active → ∀ t ∈ state.wallClockResumedAt, now ≤ t) :
    state.liveWallClockMs now = state.wallClockMs := by
  unfold GoalState.liveWallClockMs
  split
  · rename_i t hactive hresumed
    have hle := h hactive t hresumed
    omega
  · rfl

variable {later : ℤ}

/-- A change of the status logs what the goal has become, if the clock stands still meanwhile. -/
theorem accumulated_changeStatus (state : GoalState) {status : GoalStatus}
    {terminalReason reason : Option String}
    (hreason : terminalReason = if status = .active then none else reason)
    (hclock : status = .active → later ≤ now) :
    let state' : GoalState := { state.applyStatus status now with terminalReason }
    state'.accumulated = state.accumulated.update
      { status := some state'.status, reason
        wallClockMs := some (state'.liveWallClockMs later) } := by
  intro state'
  have hlive : state'.liveWallClockMs later = state'.wallClockMs := by
    refine liveWallClockMs_eq fun hactive t ht => ?_
    have hstatus : status = .active := hactive
    simp only [state', GoalState.applyStatus, hstatus, if_true, Option.mem_def,
      Option.some.injEq] at ht
    have hle := hclock hstatus
    omega
  have hfold : (state.foldInterval now).goalId = state.goalId ∧
      (state.foldInterval now).objective = state.objective ∧
      (state.foldInterval now).completionCriterion = state.completionCriterion ∧
      (state.foldInterval now).turnsUsed = state.turnsUsed ∧
      (state.foldInterval now).tokensUsed = state.tokensUsed ∧
      (state.foldInterval now).budgetLimits = state.budgetLimits := by
    unfold GoalState.foldInterval
    split <;> exact ⟨rfl, rfl, rfl, rfl, rfl, rfl⟩
  obtain ⟨hid, hobjective, hcriterion, hturns, htokens, hlimits⟩ := hfold
  rw [hlive]
  simp [state', GoalState.accumulated, GoalState.snapshot, GoalRewindSnapshot.update,
    GoalState.applyStatus, hid, hobjective, hcriterion, hturns, htokens, hlimits, hreason]

theorem changeStatus (h : ReplaysGoal clock s)
    (hs : s.mode.state = some state) {status : GoalStatus} {terminalReason reason : Option String}
    (hreason : terminalReason = if status = .active then none else reason)
    (hclock : status = .active → later ≤ now) :
    ReplaysGoal clock (s.changeStatus state status terminalReason reason now later) :=
  h.logUpdate hs (accumulated_changeStatus state hreason hclock)

theorem ifActive (h : ReplaysGoal clock s) {f : GoalState → GoalSession}
    (hf : ∀ state, s.mode.state = some state → ReplaysGoal clock (f state)) :
    ReplaysGoal clock (s.ifActive f) := by
  unfold GoalSession.ifActive
  cases hs : s.mode.state with
  | none => exact h
  | some state =>
    dsimp only
    split_ifs
    · exact hf state hs
    · exact h

theorem configuredGoalBudget_eq {maxTurns : Option ℤ}
    (h : (configuredGoalBudget maxTurns).turnBudget.isSome = false) :
    configuredGoalBudget maxTurns = {} := by
  unfold configuredGoalBudget at h ⊢
  cases maxTurns with
  | none => rfl
  | some turns =>
    dsimp only at h ⊢
    split_ifs at h ⊢
    · simp at h
    · rfl

/-- A new goal has no budget when its record is restored; an update gives it the one that is
configured. -/
theorem storeGoal (h : ReplaysGoal clock s) (input : CreateGoalInput) (goalId : String)
    (maxTurns : Option ℤ) (now : ℤ) :
    ReplaysGoal clock (s.storeGoal (newGoal input goalId maxTurns now)) := by
  have hcreate : ReplaysGoal clock ((s.persistState (some
      { newGoal input goalId maxTurns now with budgetLimits := {} })).logRecord
        (.create goalId (trim input.objective)
          (normalizeCompletionCriterion input.completionCriterion))) :=
    h.log _ (fun a _ _ ha => ha.withState rfl) h.nonempty
  unfold GoalSession.storeGoal
  by_cases hbudget : (newGoal input goalId maxTurns now).budgetLimits.turnBudget.isSome = true
  · rw [if_pos hbudget]
    exact hcreate.logUpdate rfl rfl
  · rw [if_neg hbudget]
    have hnone : ({ newGoal input goalId maxTurns now with budgetLimits := {} } : GoalState) =
        newGoal input goalId maxTurns now := by
      simp [newGoal, configuredGoalBudget_eq (Bool.eq_false_iff.2 hbudget)]
    rwa [hnone] at hcreate

theorem createGoal (h : ReplaysGoal clock s) {input : CreateGoalInput} {goalId : String}
    {maxTurns : Option ℤ} {u : GoalSession}
    (hu : s.createGoal input goalId maxTurns now = .ok u) : ReplaysGoal clock u := by
  unfold GoalSession.createGoal at hu
  split_ifs at hu
  cases hu
  exact h.clearInternal.storeGoal input goalId maxTurns now

theorem perform (h : ReplaysGoal clock s) {op : GoalOp}
    (hclock : ∀ reason, op = .resumeGoal reason → later ≤ now) {u : GoalSession}
    (hu : s.perform now later op = .ok u) : ReplaysGoal clock u := by
  cases op with
  | createGoal input goalId maxTurns =>
    exact h.createGoal hu
  | pauseGoal reason =>
    simp only [GoalSession.perform, GoalSession.pauseGoal] at hu
    cases hs : s.mode.state with
    | none =>
      rw [hs] at hu
      cases hu
    | some state =>
      simp only [hs] at hu
      split at hu
      · cases hu
        exact h
      · cases hu
        exact h.changeStatus hs rfl fun hactive => GoalStatus.noConfusion hactive
      · cases hu
  | pauseActiveGoal | markBlocked =>
    cases hu
    exact h.ifActive fun state hs =>
      h.changeStatus hs rfl fun hactive => GoalStatus.noConfusion hactive
  | resumeGoal reason =>
    simp only [GoalSession.perform, GoalSession.resumeGoal] at hu
    cases hs : s.mode.state with
    | none =>
      rw [hs] at hu
      cases hu
    | some state =>
      simp only [hs] at hu
      split at hu
      · cases hu
        exact h
      · cases hu
        exact h.changeStatus hs rfl fun _ => hclock reason rfl
      · cases hu
        exact h.changeStatus hs rfl fun _ => hclock reason rfl
      · cases hu
  | markComplete reason =>
    cases hu
    exact h.ifActive fun state hs =>
      (h.changeStatus hs rfl fun hactive => GoalStatus.noConfusion hactive).clearInternal
  | setBudgetLimits budgetLimits =>
    simp only [GoalSession.perform, GoalSession.setBudgetLimits] at hu
    cases hs : s.mode.state with
    | none =>
      rw [hs] at hu
      cases hu
    | some state =>
      simp only [hs] at hu
      cases hu
      exact h.logUpdate hs rfl
  | cancelGoal =>
    simp only [GoalSession.perform] at hu
    split_ifs at hu
    cases hu
    exact h.clearInternal
  | recordTokenUsage | incrementTurn =>
    cases hu
    exact h.ifActive fun state hs => h.logUpdate hs rfl

/-! ### Undoing -/

theorem undo (h : ReplaysGoal clock s) (count now : ℤ) :
    ReplaysGoal clock { s.logRecord (.undo count) with mode := s.mode.rewind count now } := by
  refine h.log (.undo count) (fun a _ t ha => ha.rewind count t now) ?_
  unfold GoalMode.rewind
  split_ifs
  · exact h.nonempty
  · cases s.mode.rewindCheckpoints[s.mode.rewindCheckpoints.length - count.toNat]? with
    | none => exact h.nonempty
    | some checkpoint => exact fun hfalse => Bool.noConfusion hfalse

theorem undoNothing (h : ReplaysGoal clock s) {count : ℤ}
    (hcount : count ≤ 0 ∨ (s.mode.rewindCheckpoints.length : ℤ) < count) :
    ReplaysGoal clock (s.logRecord (.undo count)) := by
  refine h.log (.undo count) (fun a _ t ha => ?_) h.nonempty
  have hnone : a.rewind count t = a := GoalMode.rewind_eq_self (by rwa [ha.checkpoints]) t
  simp only [GoalMode.restoreRecord, hnone]
  exact ha

end ReplaysGoal

/-! ### Runs -/

/-- **The condition on a step.**  When a goal is resumed, the clock stands still between its two
readings; and an undo that has checkpoints to go back to raises no error and finds a history. -/
def LiveAgent.Replayable (s : LiveAgent) : LiveStep → Prop
  | .goal (.resumeGoal _) now later => later ≤ now
  | .undoHistory count _ =>
    (count ≤ 0 ∨ (s.goal.mode.rewindCheckpoints.length : ℤ) < count) ∨
      s.context.canUndo count = true ∧ s.undoError count = none
  | _ => True

namespace ReplaysGoal

variable {clock : ℕ → ℤ} {s u : LiveAgent}

variable (h : ReplaysGoal clock s.goal)

include h

theorem others {n : ℕ}
    (hu : u.goal = { s.goal with records := s.goal.records ++ List.replicate n .other }) :
    ReplaysGoal clock u.goal := by
  rw [hu]
  exact h.logOthers n

theorem beginInput (steer : BufferedSteer) {record : GoalRecord}
    (hrecord : record = .turnPrompt steer.origin ∨ record = .turnSteer steer.origin) (now : ℤ) :
    ReplaysGoal clock ((s.beginInput steer now).logRecord record).goal := by
  unfold LiveAgent.beginInput LiveAgent.logRecord
  split_ifs with huser
  · exact h.beginRewindablePrompt hrecord huser now
  · exact h.logOtherPrompt hrecord huser

theorem undoHistory {count now : ℤ} (hok : s.Replayable (.undoHistory count now)) :
    ReplaysGoal clock (s.undoHistory count now).goal := by
  rcases hok with hnone | ⟨hcan, herror⟩
  · -- the goal stays as it is, whether the history is undone or not
    have hcontext : ReplaysGoal clock (s.undoContext count).goal ∧
        (s.undoContext count).goal.mode = s.goal.mode := by
      unfold LiveAgent.undoContext
      split_ifs
      · exact ⟨h.undoNothing hnone, rfl⟩
      · exact ⟨h, rfl⟩
    unfold LiveAgent.undoHistory
    cases s.undoError count with
    | some e => exact hcontext.1
    | none =>
      simp only [LiveAgent.rewindGoal, hcontext.2, GoalMode.rewind_eq_self hnone]
      rw [← hcontext.2]
      exact hcontext.1
  · unfold LiveAgent.undoHistory LiveAgent.undoContext
    rw [herror, if_pos hcan]
    exact h.undo count now

theorem step {a : LiveStep} (hok : s.Replayable a) (hu : s.step a = some u) :
    ReplaysGoal clock u.goal := by
  cases step_cases hu with
  | prompt steer now => exact h.beginInput steer (Or.inl rfl) now
  | steer x now =>
    have hbegin := h.beginInput x (Or.inr rfl) now
    unfold steer
    dsimp only
    split_ifs <;> exact hbegin
  | cancel | compactionBegins | compactionCancelled => exact h.others (n := 1) rfl
  | turnStarts | flush | turnEnds => exact h
  | compactionFinishes frees =>
    have hsame : (s.compactionFinishes frees).goal = s.goal := by
      unfold compactionFinishes onCompactionFinished
      split_ifs <;> rfl
    rw [hsame]
    exact h
  | captureRewindCheckpoint now => exact h.prepareRewindCheckpoint now
  | discardRewindCheckpoint now => exact h.discardRewindCheckpoint now
  | goal op now later =>
    unfold onGoal
    cases hperform : s.goal.perform now later op with
    | error e => exact h
    | ok goal =>
      refine h.perform ?_ hperform
      rintro reason rfl
      exact hok
  | @context op =>
    refine h.others (n := (s.context.logged op).length) ?_
    simp [onContext]
  | undoHistory count now => exact h.undoHistory hok

end ReplaysGoal

/-- **The log replays to the goal of the live agent**, and to its checkpoints, in every run whose
steps meet the condition.  At the end of the replay a checkpoint that is prepared is discarded, as
the live agent would discard it. -/
theorem goal_replays_to_live {s : LiveAgent} {steps : List LiveStep}
    (h : LibRun.Run step LiveAgent.Replayable {} steps s) (clock : ℕ → ℤ)
    (now now' : ℤ) :
    SameGoal (replayGoal clock s.goal.records).mode s.goal.mode ∧
      SameGoal ((replayGoal clock s.goal.records).mode.finishReplay now)
        (if s.goal.mode.rewindCheckpointPrepared then
          s.goal.mode.restoreRewindCheckpointDiscard now'
        else s.goal.mode) := by
  have hinv := h.invariant (I := fun s => ReplaysGoal clock s.goal) (ReplaysGoal.initial clock)
    fun _ _ _ ht hok hu => ht.step hok hu
  have hmirrors := hinv.mirrors
  refine ⟨hmirrors.toSameGoal, ?_⟩
  simp only [GoalMode.finishReplay, GoalMode.discardLegacyRewindCheckpoint, hmirrors.prepared]
  split_ifs
  · exact (Mirrors.discard (b := s.goal.mode) ⟨⟨hmirrors.goal, hmirrors.checkpoints⟩,
      hmirrors.prepared⟩ now now').toSameGoal
  · exact ⟨hmirrors.goal, hmirrors.checkpoints⟩

/-! ### Examples -/

instance LiveAgent.Replayable.decidable (s : LiveAgent) (a : LiveStep) :
    Decidable (s.Replayable a) :=
  match a with
  | .goal (.resumeGoal _) now later => inferInstanceAs (Decidable (later ≤ now))
  | .undoHistory count _ => inferInstanceAs (Decidable
      ((count ≤ 0 ∨ (s.goal.mode.rewindCheckpoints.length : ℤ) < count) ∨
        s.context.canUndo count = true ∧ s.undoError count = none))
  | .goal (.createGoal _ _ _) _ _ | .goal (.pauseGoal _) _ _ | .goal (.pauseActiveGoal _) _ _
  | .goal (.markBlocked _) _ _ | .goal (.markComplete _) _ _ | .goal (.setBudgetLimits _) _ _
  | .goal .cancelGoal _ _ | .goal (.recordTokenUsage _) _ _ | .goal .incrementTurn _ _
  | .prompt _ _ | .steer _ _ | .cancel _ | .turnStarts | .flush | .turnEnds | .compactionBegins
  | .compactionCancelled | .compactionFinishes _ | .captureRewindCheckpoint _
  | .discardRewindCheckpoint _ | .context _ => inferInstanceAs (Decidable True)

/-- A checkpoint is captured, and a goal is created for the prompt that follows. -/
def promptWithGoal : List LiveStep :=
  [.captureRewindCheckpoint 10,
    .goal (.createGoal { objective := "Port the parser" } "goal" (some 20)) 11 11]

/-- The prompt begins, and the goal is pursued, stopped and resumed. -/
def pursueGoal : List LiveStep :=
  [.prompt (userInput "Port the parser") 12, .turnStarts, .goal .incrementTurn 13 13,
    .goal (.recordTokenUsage 700) 20 20, .goal (.pauseActiveGoal (some "Interrupted")) 25 26,
    .turnEnds, .goal (.resumeGoal none) 40 40, .captureRewindCheckpoint 50,
    .goal (.setBudgetLimits { tokenBudget := some 9000 }) 51 51, .discardRewindCheckpoint 52]

theorem goal_replays_to_live_pursueGoal : ∃ s : LiveAgent,
    s.goal.mode.state.map (·.tokensUsed) = some 700 ∧
      SameGoal (replayGoal (fun _ => 100) s.goal.records).mode s.goal.mode := by
  have hrun : ∃ s, LibRun.Run step LiveAgent.Replayable {}
      (promptWithGoal ++ pursueGoal) s ∧ s.goal.mode.state.map (·.tokensUsed) = some 700 :=
    ⟨_, LibRun.run_of_exec rfl (by decide +kernel), by decide +kernel⟩
  obtain ⟨s, hs, htokens⟩ := hrun
  exact ⟨s, htokens, (goal_replays_to_live hs (fun _ => 100) 101 101).1⟩

/-- **A prepared checkpoint does not survive a replay.**  A goal is created for a prompt that has
not begun yet; the replay takes the checkpoint, and with it the goal, back. -/
theorem prepared_checkpoint_discarded : ∃ s : LiveAgent,
    LibRun.Run step LibRun.always {} promptWithGoal s ∧
      ¬SameGoal ((replayGoal (fun _ => 100) s.goal.records).mode.finishReplay 101) s.goal.mode :=
  ⟨_, LibRun.run_of_exec rfl (LibRun.legal_always _ _), by decide +kernel⟩

end NoriCode
