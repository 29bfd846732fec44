/-
**What becomes of buffered input.**

Input that the steer buffer has accepted leaves it in the order it came: a flush appends all of it
to the context, and the end of a turn or of a compaction launches a turn with the first of it.  Only
a cancel drops input, and only input of the user.  Input without content is accepted like any other,
but a flush appends nothing for it.  While input waits, something is under way that will take it: a
turn, or the worker of a compaction, which may have been cancelled.

Main definitions:

* `Accounted` — the accepted input has settled, was dropped or waits;
* `SteersAccounted` — what holds of the buffer in every state;
* `SettlesInto` — what a step does with the input that leaves the buffer.

Main results:

* `steers_settle_in_order` — **every accepted input leaves the buffer once and in order**.
-/

import NoriCode.ContextDeferred
import NoriCode.LiveAgent

namespace NoriCode

open List LiveAgent LibRun

/-! ### Accounts -/

/-- **What becomes of accepted input**: it has settled or waits, in the order it was accepted, and
whatever is missing was dropped. -/
structure Accounted (accepted dropped : List BufferedSteer) (settled : List Settled)
    (buffer : List BufferedSteer) : Prop where
  inOrder : (settled.map Settled.input ++ buffer).Sublist accepted
  counted : ∀ x, accepted.count x =
    (settled.map Settled.input).count x + dropped.count x + buffer.count x
  droppedUser : ∀ x ∈ dropped, x.origin.kind = .user

namespace Accounted

variable {accepted dropped buffer rest : List BufferedSteer} {settled : List Settled}
  {x : BufferedSteer}

theorem initial : Accounted [] [] [] [] := ⟨List.Sublist.refl _, by simp, by simp⟩

theorem accept (h : Accounted accepted dropped settled buffer) (x : BufferedSteer) :
    Accounted (accepted ++ [x]) dropped settled (buffer ++ [x]) := by
  refine ⟨?_, fun y => ?_, h.droppedUser⟩
  · rw [← append_assoc]
    exact h.inOrder.append (List.Sublist.refl _)
  · have hy := h.counted y
    rw [count_append, count_append]
    omega

theorem settle (h : Accounted accepted dropped settled (buffer ++ rest)) {new : List Settled}
    (hnew : new.map Settled.input = buffer) :
    Accounted accepted dropped (settled ++ new) rest := by
  refine ⟨?_, fun y => ?_, h.droppedUser⟩
  · rw [map_append, hnew, append_assoc]
    exact h.inOrder
  · have hy := h.counted y
    rw [count_append] at hy
    rw [map_append, hnew, count_append]
    omega

theorem drop (h : Accounted accepted dropped settled buffer) :
    Accounted accepted (dropped ++ buffer.filter (·.origin.kind = .user)) settled
      (buffer.filter (·.origin.kind ≠ .user)) := by
  refine ⟨?_, fun y => ?_, fun y hy => ?_⟩
  · exact ((List.Sublist.refl _).append filter_sublist).trans h.inOrder
  · have hperm := (filter_append_perm (fun x : BufferedSteer =>
      decide (x.origin.kind = .user)) buffer).count_eq y
    have hnot : (fun x : BufferedSteer => !decide (x.origin.kind = .user)) =
        fun x => decide (x.origin.kind ≠ .user) := by
      funext x
      exact (decide_not).symm
    have hy := h.counted y
    rw [hnot, count_append] at hperm
    rw [count_append]
    omega
  · rcases mem_append.1 hy with hy | hy
    · exact h.droppedUser y hy
    · exact of_decide_eq_true (List.mem_filter.1 hy).2

end Accounted

/-! ### Settled input -/

/-- The message that a flush appends. -/
def Settled.message : Settled → Option ContextMessage
  | .appended steer => some (NoriCode.appended steer)
  | .launched _ | .skipped _ => none

/-- The input that a turn was launched with. -/
def Settled.turnInput : Settled → Option BufferedSteer
  | .launched steer => some steer
  | .appended _ | .skipped _ => none

/-- Only input without content is passed over. -/
def Settled.Fits : Settled → Prop
  | .appended steer => steer.input ≠ []
  | .launched _ => True
  | .skipped steer => steer.input = []

namespace Settled

theorem flushed_input (steer : BufferedSteer) : (flushed steer).input = steer := by
  unfold flushed
  split_ifs <;> rfl

theorem flushed_fits (steer : BufferedSteer) : (flushed steer).Fits := by
  unfold flushed
  split_ifs with hempty
  · exact length_eq_zero_iff.1 hempty
  · exact fun h => hempty (congrArg List.length h)

theorem flushed_turnInput (steer : BufferedSteer) : (flushed steer).turnInput = none := by
  unfold flushed
  split_ifs <;> rfl

theorem filterMap_message_flushed (steers : List BufferedSteer) :
    (steers.map flushed).filterMap message = messagesOf steers := by
  induction steers with
  | nil => rfl
  | cons steer steers ih =>
    by_cases hempty : steer.input.length = 0
    · rw [map_cons, flushed, if_pos hempty, filterMap_cons_none (by rfl), ih]
      simp [messagesOf, hempty]
    · rw [map_cons, flushed, if_neg hempty, filterMap_cons_some (by rfl), ih]
      simp [messagesOf, hempty]

end Settled

/-! ### The state between two steps -/

/-- What holds of the input, whatever is under way. -/
structure InputAccounted (s : LiveAgent) : Prop where
  accounted : Accounted s.accepted s.dropped s.settled s.flow.steerBuffer
  fits : ∀ e ∈ s.settled, e.Fits
  turns : (s.settled.filterMap Settled.turnInput).Sublist s.flow.launched
  /-- A live agent is not being restored. -/
  live : s.flow.activeTurn ≠ .resuming
  worker : s.flow.isCompacting = true → 0 < s.compactionWorkers
  flushed : s.context.Flushed

/-- **What holds of the buffer.** -/
structure SteersAccounted (s : LiveAgent) : Prop extends InputAccounted s where
  /-- While input waits, a turn runs or a compaction is still to come to its end. -/
  underWay : s.flow.steerBuffer ≠ [] → s.flow.activeTurn ≠ .idle ∨ 0 < s.compactionWorkers

namespace SteersAccounted

variable {s : LiveAgent} {x : BufferedSteer}

theorem initial : SteersAccounted {} where
  accounted := Accounted.initial
  fits := by simp
  turns := List.Sublist.refl _
  live := by simp
  worker := by simp
  underWay := by simp
  flushed := fun _ => rfl

theorem logRecord (h : SteersAccounted s) (r : GoalRecord) : SteersAccounted (s.logRecord r) :=
  { h with }

section

variable (h : SteersAccounted s) (x : BufferedSteer)

include h

theorem beginInput (now : ℤ) : SteersAccounted (s.beginInput x now) := by
  unfold LiveAgent.beginInput
  split_ifs
  · exact { h with }
  · exact h

theorem buffer (hbusy : s.flow.activeTurn ≠ .idle ∨ s.flow.isCompacting = true) :
    SteersAccounted (s.buffer x) where
  accounted := h.accounted.accept x
  fits := h.fits
  turns := h.turns
  live := h.live
  worker := h.worker
  underWay _ := hbusy.imp id h.worker
  flushed := h.flushed

theorem launch : SteersAccounted (s.launch x) := by
  by_cases hidle : s.flow.activeTurn = .idle
  · by_cases hcompacting : s.flow.isCompacting = true
    · have hwaits : s.launch x = s.buffer x := by
        simp [LiveAgent.launch, LiveAgent.buffer, TurnFlow.launch, hidle, hcompacting]
      rw [hwaits]
      exact h.buffer x (Or.inr hcompacting)
    · have hlaunched : s.launch x = { s with
          flow := { s.flow with
            turnId := s.flow.turnId + 1
            activeTurn := .running (s.flow.turnId + 1)
            launched := s.flow.launched ++ [x] } } := by
        simp [LiveAgent.launch, TurnFlow.launch, hidle, hcompacting]
      rw [hlaunched]
      exact { h with
        turns := h.turns.trans (sublist_append_left _ _)
        live := by simp
        underWay := fun _ => Or.inl (by simp) }
  · -- the input is lost
    have hlost : s.launch x = s := by
      simp [LiveAgent.launch, TurnFlow.launch, hidle]
    rwa [hlost]

theorem prompt (now : ℤ) : SteersAccounted (s.prompt x now) :=
  ((h.beginInput x now).logRecord _).launch x

theorem steer (now : ℤ) : SteersAccounted (LiveAgent.steer s x now) := by
  have hbegun := (h.beginInput x now).logRecord (.turnSteer x.origin)
  simp only [LiveAgent.steer]
  split_ifs with hbusy
  · exact hbegun.buffer x hbusy
  · exact hbegun.launch x

end

theorem cancel (h : SteersAccounted s) (turnId : Option ℤ) : SteersAccounted (s.cancel turnId) := by
  by_cases hother : turnId.any (· ≠ s.flow.turnId) = true
  · have hsame : s.cancel turnId = s.logRecord .other := by
      simp only [LiveAgent.cancel, TurnFlow.cancel, if_pos hother]
      rfl
    rw [hsame]
    exact h.logRecord _
  · -- the turn that runs is only told to stop
    have hcancel : s.cancel turnId = { s.logRecord .other with
        flow := { s.flow with steerBuffer := s.flow.steerBuffer.filter (·.origin.kind ≠ .user) }
        dropped := s.dropped ++ s.flow.steerBuffer.filter (·.origin.kind = .user) } := by
      simp only [LiveAgent.cancel, TurnFlow.cancel, if_neg hother, if_neg h.live]
    rw [hcancel]
    exact { h.logRecord .other with
      accounted := h.accounted.drop
      underWay := fun hwaits => h.underWay fun hnil => hwaits (by simp [hnil]) }

/-! ### The buffer is emptied -/

theorem flushSteerBuffer (h : InputAccounted s) : SteersAccounted s.flushSteerBuffer where
  accounted := by
    have hall : Accounted s.accepted s.dropped s.settled (s.flow.steerBuffer ++ []) := by
      rw [append_nil]
      exact h.accounted
    exact hall.settle (by simp [Function.comp_def, Settled.flushed_input])
  fits e he := by
    rcases mem_append.1 he with he | he
    · exact h.fits e he
    · obtain ⟨x, -, rfl⟩ := mem_map.1 he
      exact Settled.flushed_fits x
  turns := by
    have hnone : (s.flow.steerBuffer.map Settled.flushed).filterMap Settled.turnInput = [] := by
      simp [Settled.flushed_turnInput]
    simpa [LiveAgent.flushSteerBuffer, hnone] using h.turns
  live := h.live
  worker := h.worker
  underWay hwaits := absurd rfl hwaits
  flushed := h.flushed.foldl_appendUser _

/-- An agent without a turn launches one with the first input that waits, unless a compaction holds
the context. -/
theorem launchBufferedSteerIfIdle (h : InputAccounted s) (hidle : s.flow.activeTurn = .idle) :
    SteersAccounted s.launchBufferedSteerIfIdle := by
  by_cases hcompacting : s.flow.isCompacting = true
  · have hsame : s.launchBufferedSteerIfIdle = s := by
      simp [LiveAgent.launchBufferedSteerIfIdle, TurnFlow.launchBufferedSteerIfIdle, hcompacting]
    rw [hsame]
    exact { h with underWay := fun _ => Or.inr (h.worker hcompacting) }
  · cases hbuffer : s.flow.steerBuffer with
    | nil =>
      have hsame : s.launchBufferedSteerIfIdle = s := by
        simp [LiveAgent.launchBufferedSteerIfIdle, TurnFlow.launchBufferedSteerIfIdle, hidle,
          hbuffer]
      rw [hsame]
      exact { h with underWay := fun hwaits => absurd hbuffer hwaits }
    | cons next rest =>
      have hnext : s.launchBufferedSteerIfIdle = { s with
          flow := { s.flow with
            steerBuffer := rest
            turnId := s.flow.turnId + 1
            activeTurn := .running (s.flow.turnId + 1)
            launched := s.flow.launched ++ [next] }
          settled := s.settled ++ [.launched next] } := by
        simp [LiveAgent.launchBufferedSteerIfIdle, TurnFlow.launchBufferedSteerIfIdle,
          TurnFlow.launch, hidle, hcompacting, hbuffer]
      have hfront : Accounted s.accepted s.dropped s.settled ([next] ++ rest) := by
        rw [singleton_append, ← hbuffer]
        exact h.accounted
      rw [hnext]
      exact
        { accounted := Accounted.settle hfront rfl
          fits := by
            intro e he
            rcases mem_append.1 he with he | he
            · exact h.fits e he
            · rw [mem_singleton.1 he]
              trivial
          turns := by
            rw [filterMap_append]
            exact h.turns.append (List.Sublist.refl _)
          live := by simp
          worker := h.worker
          flushed := h.flushed
          underWay := fun _ => Or.inl (by simp) }

theorem onCompactionFinished (h : InputAccounted s) : SteersAccounted s.onCompactionFinished := by
  unfold LiveAgent.onCompactionFinished
  split_ifs with hempty hactive
  · exact { h with underWay := fun hwaits => absurd (length_eq_zero_iff.1 hempty) hwaits }
  · exact flushSteerBuffer h
  · exact launchBufferedSteerIfIdle h (not_not.1 hactive)

/-! ### Steps -/

variable (h : SteersAccounted s)

include h

theorem turnEnds : SteersAccounted s.turnEnds :=
  launchBufferedSteerIfIdle { h.toInputAccounted with live := by simp } rfl

theorem compactionBegins : SteersAccounted s.compactionBegins :=
  { h with
    worker := fun _ => Nat.succ_pos _
    underWay := fun _ => Or.inr (Nat.succ_pos _) }

theorem compactionCancelled : SteersAccounted s.compactionCancelled :=
  { h with worker := fun hcompacting => Bool.noConfusion hcompacting }

/-- A worker that does not free the context leaves the one that holds it. -/
theorem compactionFinishes (frees : Bool) (hother : ¬(s.compactionWorkers = 0 ∨
      (frees = false ∧ s.flow.isCompacting = true ∧ s.compactionWorkers = 1))) :
    SteersAccounted (s.compactionFinishes frees) := by
  refine onCompactionFinished { h.toInputAccounted with worker := ?_ }
  intro hheld
  obtain ⟨hcompacting, hfrees⟩ : s.flow.isCompacting = true ∧ frees = false := by
    simpa using hheld
  have hone : s.compactionWorkers ≠ 1 := fun hone => hother (Or.inr ⟨hfrees, hcompacting, hone⟩)
  have hpos := h.worker hcompacting
  show 0 < s.compactionWorkers - 1
  omega

theorem onGoal (op : GoalOp) (now later : ℤ) : SteersAccounted (s.onGoal op now later) := by
  unfold LiveAgent.onGoal
  cases s.goal.perform now later op with
  | ok goal => exact { h with }
  | error e => exact h

theorem onContext (op : ContextOp) : SteersAccounted (s.onContext op) :=
  { h with flushed := h.flushed.performed op }

theorem undoHistory (count now : ℤ) : SteersAccounted (s.undoHistory count now) := by
  have hundone : SteersAccounted (s.undoContext count) := by
    have hflushed := h.flushed.performed (.undo count)
    unfold LiveAgent.undoContext
    split_ifs <;> exact { h with flushed := hflushed }
  unfold LiveAgent.undoHistory
  cases s.undoError count with
  | some error => exact hundone
  | none => exact { hundone with }

theorem step {t : LiveAgent} {a : LiveStep} (ht : s.step a = some t) : SteersAccounted t := by
  cases step_cases ht with
  | prompt x now => exact h.prompt x now
  | steer x now => exact h.steer x now
  | cancel turnId => exact h.cancel turnId
  | @turnStarts x => exact { h with flushed := h.flushed.appendUser x }
  | flush => exact flushSteerBuffer h.toInputAccounted
  | turnEnds => exact h.turnEnds
  | compactionBegins => exact h.compactionBegins
  | compactionCancelled => exact h.compactionCancelled
  | compactionFinishes frees hworker => exact h.compactionFinishes frees hworker
  | captureRewindCheckpoint | discardRewindCheckpoint => exact { h with }
  | goal op now later => exact h.onGoal op now later
  | @context op => exact h.onContext op
  | undoHistory count now => exact h.undoHistory count now

end SteersAccounted

/-! ### What a step does with input -/

/-- The input for which `prompt` or `steer` answers that it waits. -/
def LiveStep.accepted (s : LiveAgent) : LiveStep → List BufferedSteer
  | .prompt x _ => if s.flow.activeTurn = .idle ∧ s.flow.isCompacting = true then [x] else []
  | .steer x _ => if s.flow.activeTurn ≠ .idle ∨ s.flow.isCompacting = true then [x] else []
  | _ => []

/-- The steps that write to the context something else than input that leaves the buffer. -/
def LiveStep.writesOther : LiveStep → Bool
  | .turnStarts | .context _ | .undoHistory _ _ => true
  | _ => false

/-- The steps that bring what is under way to an end. -/
def LiveStep.brings : LiveStep → Bool
  | .flush | .turnEnds | .compactionFinishes _ => true
  | _ => false

/-- **What a step does with input**, where `new` is what settles. -/
structure SettlesInto (s : LiveAgent) (a : LiveStep) (t : LiveAgent) (new : List Settled) :
    Prop where
  accepts : t.accepted = s.accepted ++ a.accepted s
  settles : t.settled = s.settled ++ new
  drops : (∀ turnId, a ≠ .cancel turnId) → t.dropped = s.dropped
  /-- Every input that settles as appended is appended once, and nothing else is. -/
  appends : a.writesOther = false →
    t.context.timeline = s.context.timeline ++ new.filterMap Settled.message
  /-- Input leaves the buffer at every end that finds the context free. -/
  brings : a.brings = true → s.flow.steerBuffer ≠ [] →
    new ≠ [] ∨ t.flow.isCompacting = true

namespace SettlesInto

variable {s t : LiveAgent} {a : LiveStep}

section

variable (s : LiveAgent) (x : BufferedSteer) (now : ℤ)

theorem beginInput : ∃ goal inputs, s.beginInput x now = { s with goal, inputs } := by
  unfold LiveAgent.beginInput
  split_ifs <;> exact ⟨_, _, rfl⟩

theorem prompt : SettlesInto s (.prompt x now) (s.prompt x now) [] := by
  obtain ⟨goal, inputs, hbegun⟩ := beginInput s x now
  refine ⟨?_, ?_, fun _ => ?_, fun _ => ?_, fun h => Bool.noConfusion h⟩
  · simp only [LiveAgent.prompt, hbegun, LiveAgent.logRecord, LiveAgent.launch, LiveStep.accepted]
    split_ifs <;> simp
  · simp [LiveAgent.prompt, hbegun, LiveAgent.logRecord, LiveAgent.launch]
  · simp [LiveAgent.prompt, hbegun, LiveAgent.logRecord, LiveAgent.launch]
  · simp [LiveAgent.prompt, hbegun, LiveAgent.logRecord, LiveAgent.launch]

theorem steer : SettlesInto s (.steer x now) (LiveAgent.steer s x now) [] := by
  obtain ⟨goal, inputs, hbegun⟩ := beginInput s x now
  refine ⟨?_, ?_, fun _ => ?_, fun _ => ?_, fun h => Bool.noConfusion h⟩
  all_goals
    simp only [LiveAgent.steer, hbegun, LiveAgent.logRecord, LiveStep.accepted]
    split_ifs with hbusy
  · rfl
  · -- the agent is idle, so the input is not lost
    have hfree : ¬(s.flow.activeTurn = .idle ∧ s.flow.isCompacting = true) :=
      fun h => hbusy (Or.inr h.2)
    simp [LiveAgent.launch, hfree]
  all_goals simp [LiveAgent.buffer, LiveAgent.launch]

end

theorem launchBufferedSteerIfIdle (s : LiveAgent) (hidle : s.flow.activeTurn = .idle) :
    ∃ new, s.launchBufferedSteerIfIdle.settled = s.settled ++ new ∧
      new.filterMap Settled.message = [] ∧
      (s.flow.steerBuffer ≠ [] → new ≠ [] ∨
        s.launchBufferedSteerIfIdle.flow.isCompacting = true) := by
  by_cases hcompacting : s.flow.isCompacting = true
  · refine ⟨[], ?_, rfl, fun _ => Or.inr ?_⟩
    · simp [LiveAgent.launchBufferedSteerIfIdle, hcompacting]
    · simp [LiveAgent.launchBufferedSteerIfIdle, TurnFlow.launchBufferedSteerIfIdle, hcompacting]
  · refine ⟨(s.flow.steerBuffer.head?.map Settled.launched).toList, ?_, ?_, fun hwaits => ?_⟩
    · simp [LiveAgent.launchBufferedSteerIfIdle, hidle, hcompacting]
    · cases s.flow.steerBuffer <;> rfl
    · cases hbuffer : s.flow.steerBuffer with
      | nil => exact absurd hbuffer hwaits
      | cons next rest => exact Or.inl (by simp)

theorem turnEnds (s : LiveAgent) : ∃ new, SettlesInto s .turnEnds s.turnEnds new := by
  obtain ⟨new, hsettled, hmessages, hbrings⟩ :=
    launchBufferedSteerIfIdle { s with flow := { s.flow with activeTurn := .idle } } rfl
  refine ⟨new, (append_nil _).symm, hsettled, fun _ => rfl, fun _ => ?_, fun _ => hbrings⟩
  rw [hmessages, append_nil]
  rfl

section

variable (s : LiveAgent) (hflushed : s.context.Flushed)

include hflushed

theorem flushSteerBuffer :
    s.flushSteerBuffer.context.timeline = s.context.timeline ++
      (s.flow.steerBuffer.map Settled.flushed).filterMap Settled.message := by
  rw [Settled.filterMap_message_flushed]
  exact hflushed.timeline_foldl_appendUser _

theorem flush :
    SettlesInto s .flush s.flushSteerBuffer (s.flow.steerBuffer.map Settled.flushed) where
  accepts := (append_nil _).symm
  settles := rfl
  drops _ := rfl
  appends _ := flushSteerBuffer s hflushed
  brings _ hwaits := Or.inl (by simpa using hwaits)

theorem compactionFinishes (frees : Bool) :
    ∃ new, SettlesInto s (.compactionFinishes frees) (s.compactionFinishes frees) new := by
  unfold LiveAgent.compactionFinishes LiveAgent.onCompactionFinished
  split_ifs with hempty hactive
  · refine ⟨[], ?_, ?_, fun _ => rfl, fun _ => ?_, fun _ hwaits => ?_⟩
    · exact (append_nil _).symm
    · exact (append_nil _).symm
    · exact (append_nil _).symm
    · exact absurd (length_eq_zero_iff.1 hempty) hwaits
  · refine ⟨s.flow.steerBuffer.map Settled.flushed, ?_, rfl, fun _ => rfl, fun _ => ?_,
      fun _ hwaits => ?_⟩
    · exact (append_nil _).symm
    · exact flushSteerBuffer { s with
        flow := { s.flow with isCompacting := s.flow.isCompacting && !frees }
        compactionWorkers := s.compactionWorkers - 1 } hflushed
    · exact Or.inl (by simpa using hwaits)
  · obtain ⟨new, hsettled, hmessages, hbrings⟩ := launchBufferedSteerIfIdle { s with
        flow := { s.flow with isCompacting := s.flow.isCompacting && !frees }
        compactionWorkers := s.compactionWorkers - 1 } (not_not.1 hactive)
    refine ⟨new, (append_nil _).symm, hsettled, fun _ => rfl, fun _ => ?_, fun _ => hbrings⟩
    rw [hmessages, append_nil]
    rfl

end

theorem of_same (haccepted : t.accepted = s.accepted) (hnone : a.accepted s = [])
    (hsettled : t.settled = s.settled) (hdropped : t.dropped = s.dropped)
    (htimeline : a.writesOther = false → t.context.timeline = s.context.timeline)
    (hbrings : a.brings = false) : SettlesInto s a t [] where
  accepts := by rw [hnone, append_nil, haccepted]
  settles := by rw [append_nil, hsettled]
  drops _ := hdropped
  appends h := by rw [filterMap_nil, append_nil, htimeline h]
  brings h := by rw [hbrings] at h; cases h

theorem cancel (s : LiveAgent) (turnId : Option ℤ) :
    SettlesInto s (.cancel turnId) (s.cancel turnId) [] where
  accepts := (append_nil _).symm
  settles := (append_nil _).symm
  drops h := absurd rfl (h turnId)
  appends _ := (append_nil _).symm
  brings h := Bool.noConfusion h

theorem onGoal (s : LiveAgent) (op : GoalOp) (now later : ℤ) :
    SettlesInto s (.goal op now later) (s.onGoal op now later) [] := by
  unfold LiveAgent.onGoal
  cases s.goal.perform now later op with
  | ok | error => exact of_same rfl rfl rfl rfl (fun _ => rfl) rfl

theorem undoHistory (s : LiveAgent) (count now : ℤ) :
    SettlesInto s (.undoHistory count now) (s.undoHistory count now) [] := by
  have hundone : SettlesInto s (.undoHistory count now) (s.undoContext count) [] := by
    unfold LiveAgent.undoContext
    split_ifs <;> exact of_same rfl rfl rfl rfl (fun h => Bool.noConfusion h) rfl
  unfold LiveAgent.undoHistory
  cases s.undoError count with
  | some error => exact hundone
  | none => exact { hundone with appends := fun h => Bool.noConfusion h }

theorem of_step (hflushed : s.context.Flushed) (ht : s.step a = some t) :
    ∃ new, SettlesInto s a t new := by
  cases step_cases ht with
  | prompt x now => exact ⟨[], prompt s x now⟩
  | steer x now => exact ⟨[], steer s x now⟩
  | cancel turnId => exact ⟨[], cancel s turnId⟩
  | turnStarts | context => exact ⟨[], of_same rfl rfl rfl rfl (fun h => Bool.noConfusion h) rfl⟩
  | flush => exact ⟨_, flush s hflushed⟩
  | turnEnds => exact turnEnds s
  | compactionBegins | compactionCancelled | captureRewindCheckpoint | discardRewindCheckpoint =>
    exact ⟨[], of_same rfl rfl rfl rfl (fun _ => rfl) rfl⟩
  | compactionFinishes frees => exact compactionFinishes s hflushed frees
  | goal op now later => exact ⟨[], onGoal s op now later⟩
  | undoHistory count now => exact ⟨[], undoHistory s count now⟩

end SettlesInto

/-! ### Runs -/

theorem steersAccounted_of_run {steps : List LiveStep} {s : LiveAgent}
    (h : LibRun.Run step always {} steps s) : SteersAccounted s :=
  h.invariant SteersAccounted.initial fun _ _ _ ht _ hu => ht.step hu

/-- **Every accepted input leaves the buffer once and in order.**  In every state reached, the
accepted input has settled or waits, in the order it was accepted, and what is missing is input of
the user that a cancel has dropped.  Settled input with content was appended, or a turn was launched
with it.  While input waits, something is under way, and every end that finds the context free takes
input from the buffer. -/
theorem steers_settle_in_order {steps : List LiveStep} {s : LiveAgent}
    (h : LibRun.Run step always {} steps s) :
    SteersAccounted s ∧ ∀ a t, s.step a = some t → ∃ new, SettlesInto s a t new :=
  have hs := steersAccounted_of_run h
  ⟨hs, fun _ _ ht => SettlesInto.of_step hs.flushed ht⟩

/-- Guidance is given while a turn runs; the turn takes the first, a second turn the last. -/
def guideTurn : List LiveStep :=
  [.prompt (userInput "Port the parser") 1, .turnStarts, .steer (userInput "Keep the tests") 2,
    .flush, .steer (userInput "And the docs") 3, .turnEnds, .turnStarts]

theorem steers_settle_in_order_guideTurn : ∃ s : LiveAgent,
    s.settled = [.appended (userInput "Keep the tests"), .launched (userInput "And the docs")] ∧
      SteersAccounted s ∧ ∀ a t, s.step a = some t → ∃ new, SettlesInto s a t new := by
  have hrun : ∃ s, LibRun.Run step always {} guideTurn s ∧
      s.settled = [.appended (userInput "Keep the tests"), .launched (userInput "And the docs")] :=
    ⟨_, run_of_exec rfl (legal_always _ _), by decide +kernel⟩
  obtain ⟨s, hs, hsettled⟩ := hrun
  exact ⟨s, hsettled, steers_settle_in_order hs⟩

/-- **Input without content is accepted and vanishes.**  It leaves the buffer with a flush, but is
neither appended nor launches a turn, and no cancel dropped it. -/
theorem empty_steer_vanishes : ∃ s : LiveAgent,
    LibRun.Run step always {} [.prompt (userInput "Port the parser") 1,
      .turnStarts, .steer ⟨[], ⟨.user, none⟩⟩ 2, .flush, .turnEnds] s ∧
    s.accepted = [⟨[], ⟨.user, none⟩⟩] ∧ s.dropped = [] ∧ s.flow.steerBuffer = [] ∧
    s.flow.launched = [userInput "Port the parser"] ∧
    s.context.timeline = [appended (userInput "Port the parser")] :=
  ⟨_, run_of_exec rfl (legal_always _ _), by decide +kernel⟩

end NoriCode
