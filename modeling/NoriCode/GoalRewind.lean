/-
**Undoing prompts takes the goal back.**

A checkpoint of the goal begins every input of the user, and undo removes user input from the
history.  In between, input waits: in the buffer, with a launched turn, or among the deferred
messages.  What waits comes into the history in the order in which it was given, so the user input
that can be undone, and behind it the input that waits, are the last inputs that have begun.  When
nothing waits, the last checkpoints are those of the last user input of the history, and undoing
some of it takes the goal back to what it was in front of the oldest one that is removed.

Inputs of other origins that count as user input for undo, and inputs of the user that never come
into the history, break the correspondence.

Main definitions:

* `LiveAgent.pipeline` — the user input that can be undone or waits;
* `LiveAgent.Rewindable` — the condition on a step;
* `InputsMatch` — the invariant.

Main results:

* `undoHistory_rewinds_goal` — **the goal becomes what it was in front of the inputs that
  are undone**;
* `discard_takes_back` — a checkpoint that is discarded.
-/

import NoriCode.ContextMarks
import NoriCode.LiveAgent

namespace NoriCode

open List Option ContextMemory LiveAgent GoalSession

/-! ### Input of the user -/

/-- The messages that the input of the user among these becomes. -/
def userMessages (steers : List BufferedSteer) : List ContextMessage :=
  (steers.filter (·.origin.kind = .user)).map appended

/-- Input that undo counts as user input is input of the user, and it has content. -/
def BufferedSteer.Plain (steer : BufferedSteer) : Prop :=
  isRealUserInput (appended steer) = true → steer.origin.kind = .user ∧ steer.input ≠ []

theorem userMessages_append (steers steers' : List BufferedSteer) :
    userMessages (steers ++ steers') = userMessages steers ++ userMessages steers' := by
  rw [userMessages, filter_append, map_append]
  rfl

theorem isRealUserInput_appended {steer : BufferedSteer} (h : steer.origin.kind = .user) :
    isRealUserInput (appended steer) = true := by
  simp [isRealUserInput, appended, ContextMessage.originKind, h, compactionUserMessageDisposition]

theorem filter_messagesOf {steers : List BufferedSteer} (h : ∀ x ∈ steers, x.Plain) :
    (messagesOf steers).filter isRealUserInput = userMessages steers := by
  induction steers with
  | nil => rfl
  | cons x steers ih =>
    obtain ⟨hx, hrest⟩ := forall_mem_cons.1 h
    have hcons : messagesOf (x :: steers) = messagesOf [x] ++ messagesOf steers := by
      rw [messagesOf, messagesOf, messagesOf, ← map_append, ← filter_append]
      rfl
    have hfirst : (messagesOf [x]).filter isRealUserInput = userMessages [x] := by
      by_cases huser : x.origin.kind = .user
      · have hreal := isRealUserInput_appended huser
        have hcontent : x.input ≠ [] := (hx hreal).2
        simp [messagesOf, userMessages, huser, hreal, hcontent]
      · have hreal : isRealUserInput (appended x) = false :=
          Bool.eq_false_iff.2 fun hreal => huser (hx hreal).1
        by_cases hcontent : x.input = []
        · simp [messagesOf, userMessages, huser, hcontent]
        · simp [messagesOf, userMessages, huser, hcontent, hreal]
    rw [hcons, filter_append, hfirst, ih hrest, ← userMessages_append]
    rfl

namespace LiveAgent

/-- The input of launched turns whose workers have not appended it yet. -/
def starting (s : LiveAgent) : List BufferedSteer := s.flow.launched.drop s.startedTurns

/-- **The user input on its way**: what can be undone, and what waits. -/
def pipeline (s : LiveAgent) : List ContextMessage :=
  undoableInputs s.context.timeline ++ userMessages s.starting ++ userMessages s.flow.steerBuffer

/-- **The condition on a step.**  Input that undo counts as user input is input of the user, and
comes into the history: it has content, a prompt of the user is not refused, and no cancel drops it.
A turn is not launched before input that waits, and what waits is not appended before the input of a
turn.  History is undone when no user input waits and no checkpoint is prepared, and there is enough
of it. -/
def Rewindable (s : LiveAgent) : LiveStep → Prop
  | .prompt steer _ => steer.Plain ∧ (steer.origin.kind = .user → s.flow.activeTurn = .idle ∧
      (s.flow.isCompacting = true ∨ userMessages s.flow.steerBuffer = []))
  | .steer steer _ => steer.Plain ∧ (steer.origin.kind = .user → s.flow.activeTurn ≠ .idle ∨
      s.flow.isCompacting = true ∨ userMessages s.flow.steerBuffer = [])
  | .cancel turnId =>
    turnId.any (· ≠ s.flow.turnId) = true ∨ userMessages s.flow.steerBuffer = []
  | .compactionFinishes _ =>
    userMessages s.starting = [] ∨ userMessages s.flow.steerBuffer = []
  | .context op => op.AddsNoInput
  | .undoHistory count _ => count ≤ 0 ∨
      (s.context.canUndo count = true ∧ s.undoError count = none ∧
        s.goal.mode.rewindCheckpointPrepared = false ∧ marks s.context.deferredMessages = [] ∧
        userMessages s.starting = [] ∧ userMessages s.flow.steerBuffer = [])
  | _ => True

end LiveAgent

open LiveAgent

/-! ### The invariant -/

/-- The checkpoints are those of the inputs, and behind them the prepared one. -/
def CheckpointsMatch (s : LiveAgent) : Prop :=
  ∃ prepared : List GoalRewindCheckpoint,
    s.goal.mode.rewindCheckpoints = s.inputs.map (·.2) ++ prepared ∧
      prepared.length = if s.goal.mode.rewindCheckpointPrepared then 1 else 0

/-- **The invariant**: the user input on its way is the end of the inputs. -/
structure InputsMatch (s : LiveAgent) : Prop where
  flushed : s.context.Flushed
  steps : StepEntries s.context
  started : s.startedTurns ≤ s.flow.launched.length
  plain : ∀ x ∈ s.starting ++ s.flow.steerBuffer, x.Plain
  checkpoints : CheckpointsMatch s
  pipeline : s.pipeline <:+ s.inputs.map fun e => appended e.1

/-- The checkpoints stay as they are. -/
structure KeepsCheckpoints (s t : LiveAgent) : Prop where
  checkpoints : t.goal.mode.rewindCheckpoints = s.goal.mode.rewindCheckpoints
  prepared : t.goal.mode.rewindCheckpointPrepared = s.goal.mode.rewindCheckpointPrepared
  inputs : t.inputs = s.inputs

theorem KeepsCheckpoints.refl (s : LiveAgent) : KeepsCheckpoints s s := ⟨rfl, rfl, rfl⟩

theorem CheckpointsMatch.keep {s t : LiveAgent} (h : CheckpointsMatch s)
    (hkeep : KeepsCheckpoints s t) : CheckpointsMatch t := by
  obtain ⟨prepared, hcheckpoints, hlength⟩ := h
  refine ⟨prepared, ?_, ?_⟩
  · rw [hkeep.checkpoints, hkeep.inputs, hcheckpoints]
  · rw [hkeep.prepared, hlength]

namespace InputsMatch

variable {s t : LiveAgent}

theorem initial : InputsMatch {} := by
  refine ⟨fun _ => rfl, StepEntries.initial, le_rfl, ?_, ⟨[], rfl, rfl⟩, nil_suffix⟩
  intro x hx
  cases hx

theorem move (h : InputsMatch s) (hkeep : KeepsCheckpoints s t) (hflushed : t.context.Flushed)
    (hsteps : StepEntries t.context) (hstarted : t.startedTurns ≤ t.flow.launched.length)
    (hplain : ∀ x ∈ t.starting ++ t.flow.steerBuffer, x ∈ s.starting ++ s.flow.steerBuffer)
    (hpipeline : t.pipeline <:+ s.pipeline) : InputsMatch t := by
  refine ⟨hflushed, hsteps, hstarted, fun x hx => h.plain x (hplain x hx),
    h.checkpoints.keep hkeep, ?_⟩
  rw [hkeep.inputs]
  exact hpipeline.trans h.pipeline

theorem stay (h : InputsMatch s) (hkeep : KeepsCheckpoints s t) (hcontext : t.context = s.context)
    (hlaunched : t.flow.launched = s.flow.launched) (hstarted : t.startedTurns = s.startedTurns)
    (hbuffer : t.flow.steerBuffer = s.flow.steerBuffer) : InputsMatch t := by
  have hstarting : t.starting = s.starting := by
    rw [LiveAgent.starting, LiveAgent.starting, hlaunched, hstarted]
  refine h.move hkeep (hcontext ▸ h.flushed) (hcontext ▸ h.steps) ?_ ?_ ?_
  · rw [hlaunched, hstarted]
    exact h.started
  · rw [hstarting, hbuffer]
    exact fun x hx => hx
  · have hsame : t.pipeline = s.pipeline := by
      rw [LiveAgent.pipeline, LiveAgent.pipeline, hcontext, hstarting, hbuffer]
    exact hsame ▸ suffix_rfl

/-! ### The buffer and the turns -/

variable {c : ContextMemory}

theorem suffix_appended {d : ContextMemory} {steers : List BufferedSteer}
    (hplain : ∀ x ∈ steers, x.Plain) (h : d.timeline = c.timeline ++ messagesOf steers) :
    undoableInputs d.timeline <:+ undoableInputs c.timeline ++ userMessages steers := by
  rw [h, ← filter_messagesOf hplain]
  exact undoableInputs_append _ _

theorem appendUser_steps (h : StepEntries c) (x : BufferedSteer) :
    StepEntries (c.appendUser x) := by
  unfold appendUser
  split_ifs
  · exact h
  · exact h.append _

theorem foldl_appendUser_steps (h : StepEntries c)
    (steers : List BufferedSteer) : StepEntries (steers.foldl appendUser c) := by
  induction steers generalizing c with
  | nil => exact h
  | cons x steers ih => exact ih (appendUser_steps h x)

variable {x : BufferedSteer}

/-- **The worker of a turn** appends the input of the turn. -/
theorem turnStarts (h : InputsMatch s) (hx : s.flow.launched[s.startedTurns]? = some x) :
    InputsMatch
      { s with context := s.context.appendUser x, startedTurns := s.startedTurns + 1 } := by
  obtain ⟨hlt, hget⟩ := List.getElem?_eq_some_iff.1 hx
  have hstarting : s.starting = x :: s.flow.launched.drop (s.startedTurns + 1) := by
    rw [LiveAgent.starting, List.drop_eq_getElem_cons hlt, hget]
  have hplain : ∀ y ∈ [x], y.Plain := by
    intro y hy
    rw [List.mem_singleton.1 hy]
    refine h.plain x (List.mem_append_left _ ?_)
    rw [hstarting]
    exact (.head _)
  refine h.move ⟨rfl, rfl, rfl⟩ (h.flushed.appendUser x) (appendUser_steps h.steps x) hlt
    (fun y hy => ?_) ?_
  · rw [hstarting]
    rcases List.mem_append.1 hy with hrest | hbuffer
    · exact List.mem_append_left _ (List.mem_cons_of_mem x hrest)
    · exact List.mem_append_right _ hbuffer
  · obtain ⟨front, hfront⟩ := suffix_appended hplain (h.flushed.timeline_appendUser x)
    have hsplit : userMessages s.starting =
        userMessages [x] ++ userMessages (s.flow.launched.drop (s.startedTurns + 1)) := by
      rw [hstarting, ← userMessages_append]
      rfl
    refine ⟨front, ?_⟩
    rw [LiveAgent.pipeline, LiveAgent.pipeline, hsplit, ← List.append_assoc, ← List.append_assoc,
      ← List.append_assoc, hfront]
    rfl

/-- **The buffer is flushed**, behind the input of the turn that runs. -/
theorem flushSteerBuffer (h : InputsMatch s)
    (horder : userMessages s.starting = [] ∨ userMessages s.flow.steerBuffer = []) :
    InputsMatch s.flushSteerBuffer := by
  have hplain : ∀ x ∈ s.flow.steerBuffer, x.Plain := fun x hx =>
    h.plain x (mem_append_right _ hx)
  refine h.move ⟨rfl, rfl, rfl⟩ (h.flushed.foldl_appendUser _) (foldl_appendUser_steps h.steps _)
    h.started (fun x hx => ?_) ?_
  · rcases mem_append.1 hx with hstarting | hnil
    · exact mem_append_left _ hstarting
    · cases hnil
  · obtain ⟨front, hfront⟩ :=
      suffix_appended hplain (h.flushed.timeline_foldl_appendUser s.flow.steerBuffer)
    refine ⟨front, ?_⟩
    change front ++ (undoableInputs (s.flow.steerBuffer.foldl appendUser
      s.context).timeline ++ userMessages s.starting ++ []) = s.pipeline
    rw [LiveAgent.pipeline, append_nil, ← append_assoc, hfront]
    rcases horder with hnil | hnil
    · rw [hnil, append_nil, append_nil]
    · rw [hnil, append_nil, append_nil]

/-- An agent without a turn launches one with the first input that waits. -/
theorem launchBufferedSteerIfIdle (h : InputsMatch s) :
    InputsMatch s.launchBufferedSteerIfIdle := by
  by_cases hbusy : s.flow.activeTurn ≠ .idle ∨ s.flow.isCompacting = true
  · have hsame : s.launchBufferedSteerIfIdle = s := by
      simp [LiveAgent.launchBufferedSteerIfIdle, TurnFlow.launchBufferedSteerIfIdle, if_pos hbusy]
    rwa [hsame]
  · obtain ⟨hidle, hfree⟩ := not_or.1 hbusy
    rw [not_not] at hidle
    cases hbuffer : s.flow.steerBuffer with
    | nil =>
      have hsame : s.launchBufferedSteerIfIdle = s := by
        simp [LiveAgent.launchBufferedSteerIfIdle, TurnFlow.launchBufferedSteerIfIdle, hidle,
          hfree, hbuffer]
      rwa [hsame]
    | cons next rest =>
      have hlaunched : s.launchBufferedSteerIfIdle.flow.launched = s.flow.launched ++ [next] ∧
          s.launchBufferedSteerIfIdle.flow.steerBuffer = rest := by
        simp [LiveAgent.launchBufferedSteerIfIdle, TurnFlow.launchBufferedSteerIfIdle,
          TurnFlow.launch, hidle, hfree, hbuffer]
      have hstarting : s.launchBufferedSteerIfIdle.starting = s.starting ++ [next] := by
        rw [LiveAgent.starting, hlaunched.1]
        exact drop_append_of_le_length h.started
      have hsame : s.launchBufferedSteerIfIdle.starting ++
          s.launchBufferedSteerIfIdle.flow.steerBuffer = s.starting ++ s.flow.steerBuffer := by
        rw [hstarting, hlaunched.2, hbuffer, append_assoc]
        rfl
      refine h.move ⟨rfl, rfl, rfl⟩ h.flushed h.steps ?_ (fun x hx => hsame ▸ hx) ?_
      · rw [hlaunched.1, length_append]
        exact h.started.trans (Nat.le_add_right _ _)
      · rw [LiveAgent.pipeline, LiveAgent.pipeline, append_assoc, ← userMessages_append,
          hsame, userMessages_append, ← append_assoc]
        exact suffix_rfl

/-! ### Input -/

theorem beginInput_frame (s : LiveAgent) (x : BufferedSteer) (now : ℤ) :
    (s.beginInput x now).flow = s.flow ∧ (s.beginInput x now).context = s.context ∧
      (s.beginInput x now).startedTurns = s.startedTurns := by
  unfold beginInput
  split_ifs <;> exact ⟨rfl, rfl, rfl⟩

theorem beginRewindablePrompt_prepared (g : GoalSession) (now : ℤ) :
    (g.beginRewindablePrompt now).mode.rewindCheckpointPrepared = false := by
  unfold beginRewindablePrompt
  split_ifs <;> rfl

/-- **Input of the user begins** with a checkpoint: the prepared one, or a new one. -/
theorem beginInput_checkpoints (h : CheckpointsMatch s) (x : BufferedSteer) (now : ℤ) :
    CheckpointsMatch (s.beginInput x now) ∧
      (s.beginInput x now).inputs.map (fun e => appended e.1) =
        (s.inputs.map fun e => appended e.1) ++ userMessages [x] := by
  unfold beginInput
  split_ifs with huser
  · refine ⟨⟨[], ?_, ?_⟩, by simp [userMessages, huser]⟩
    · obtain ⟨prepared, hcheckpoints, hlength⟩ := h
      unfold nextCheckpoint GoalSession.beginRewindablePrompt
      split_ifs at hlength ⊢ with hprepared
      · obtain ⟨checkpoint, rfl⟩ := length_eq_one_iff.1 hlength
        simp [GoalSession.beginPrompt, hcheckpoints]
      · obtain rfl := length_eq_zero_iff.1 hlength
        simp [GoalSession.beginPrompt, GoalMode.pushCheckpoint, GoalSession.logRecord, hcheckpoints]
    · simp [beginRewindablePrompt_prepared]
  · exact ⟨h, by simp [userMessages, huser]⟩

/-- What becomes of input: it waits, a turn is launched with it when no input of the user waits, or
it is not input of the user. -/
inductive Accepts (flow flow' : TurnFlow) (x : BufferedSteer) : Prop
  | buffered (launched : flow'.launched = flow.launched)
      (buffer : flow'.steerBuffer = flow.steerBuffer ++ [x])
  | launched (launched : flow'.launched = flow.launched ++ [x])
      (buffer : flow'.steerBuffer = flow.steerBuffer)
      (first : x.origin.kind = .user → userMessages flow.steerBuffer = [])
  | refused (launched : flow'.launched = flow.launched)
      (buffer : flow'.steerBuffer = flow.steerBuffer) (other : x.origin.kind ≠ .user)

theorem accepted_pipeline (h : InputsMatch s) (hcontext : t.context = s.context)
    (hstarted : t.startedTurns = s.startedTurns) (haccepts : Accepts s.flow t.flow x) :
    t.pipeline = s.pipeline ++ userMessages [x] ∧ t.startedTurns ≤ t.flow.launched.length ∧
      ∀ y ∈ t.starting ++ t.flow.steerBuffer, y = x ∨ y ∈ s.starting ++ s.flow.steerBuffer := by
  cases haccepts with
  | buffered hlaunched hbuffer =>
    have hstarting : t.starting = s.starting := by
      rw [LiveAgent.starting, LiveAgent.starting, hlaunched, hstarted]
    refine ⟨?_, ?_, fun y hy => ?_⟩
    · rw [LiveAgent.pipeline, LiveAgent.pipeline, hcontext, hstarting, hbuffer,
        userMessages_append, ← append_assoc]
    · rw [hlaunched, hstarted]
      exact h.started
    · rw [hstarting, hbuffer, ← append_assoc] at hy
      rcases mem_append.1 hy with hold | hnew
      · exact Or.inr hold
      · exact Or.inl (mem_singleton.1 hnew)
  | launched hlaunched hbuffer hfirst =>
    have hstarting : t.starting = s.starting ++ [x] := by
      rw [LiveAgent.starting, hlaunched, hstarted]
      exact drop_append_of_le_length h.started
    refine ⟨?_, ?_, fun y hy => ?_⟩
    · rw [LiveAgent.pipeline, LiveAgent.pipeline, hcontext, hstarting, hbuffer, userMessages_append]
      by_cases huser : x.origin.kind = .user
      · rw [hfirst huser, append_nil, append_nil, ← append_assoc]
      · have hnone : userMessages [x] = [] := by simp [userMessages, huser]
        rw [hnone, append_nil, append_nil]
    · rw [hlaunched, hstarted, length_append]
      exact h.started.trans (Nat.le_add_right _ _)
    · rw [hstarting, hbuffer] at hy
      simp only [mem_append, mem_singleton] at hy ⊢
      rcases hy with (hold | hnew) | hold
      · exact Or.inr (Or.inl hold)
      · exact Or.inl hnew
      · exact Or.inr (Or.inr hold)
  | refused hlaunched hbuffer hother =>
    have hstarting : t.starting = s.starting := by
      rw [LiveAgent.starting, LiveAgent.starting, hlaunched, hstarted]
    have hnone : userMessages [x] = [] := by simp [userMessages, hother]
    refine ⟨?_, ?_, fun y hy => ?_⟩
    · rw [LiveAgent.pipeline, LiveAgent.pipeline, hcontext, hstarting, hbuffer, hnone, append_nil]
    · rw [hlaunched, hstarted]
      exact h.started
    · rw [hstarting, hbuffer] at hy
      exact Or.inr hy

/-- **Input begins and is accepted.** -/
theorem take (h : InputsMatch s) (now : ℤ) (hx : x.Plain)
    (hkeep : KeepsCheckpoints (s.beginInput x now) t) (hcontext : t.context = s.context)
    (hstarted : t.startedTurns = s.startedTurns) (haccepts : Accepts s.flow t.flow x) :
    InputsMatch t := by
  obtain ⟨hcheckpoints, hinputs⟩ := beginInput_checkpoints h.checkpoints x now
  obtain ⟨hpipeline, hle, hmem⟩ := h.accepted_pipeline hcontext hstarted haccepts
  refine ⟨hcontext ▸ h.flushed, hcontext ▸ h.steps, hle, fun y hy => ?_,
    hcheckpoints.keep hkeep, ?_⟩
  · rcases hmem y hy with rfl | hold
    · exact hx
    · exact h.plain y hold
  · obtain ⟨front, hfront⟩ := h.pipeline
    rw [hkeep.inputs, hinputs, hpipeline, ← hfront]
    exact ⟨front, (append_assoc _ _ _).symm⟩

/-- What `launch` does with input. -/
theorem launch_accepts (flow : TurnFlow) (h : x.origin.kind = .user → flow.activeTurn = .idle ∧
      (flow.isCompacting = true ∨ userMessages flow.steerBuffer = [])) :
    Accepts flow (flow.launch x) x := by
  unfold TurnFlow.launch
  split_ifs with hactive hcompacting
  · exact Accepts.refused rfl rfl fun huser => hactive (h huser).1
  · exact Accepts.buffered rfl rfl
  · exact Accepts.launched rfl rfl fun huser => (h huser).2.resolve_left hcompacting

variable {now : ℤ}

theorem prompt (h : InputsMatch s)
    (hok : s.Rewindable (.prompt x now)) : InputsMatch (s.prompt x now) := by
  obtain ⟨hflow, hcontext, hstarted⟩ := beginInput_frame s x now
  refine h.take now hok.1 ⟨rfl, rfl, rfl⟩ hcontext hstarted ?_
  change Accepts s.flow ((s.beginInput x now).flow.launch x) x
  rw [hflow]
  exact launch_accepts s.flow hok.2

theorem steer (h : InputsMatch s)
    (hok : s.Rewindable (.steer x now)) : InputsMatch (LiveAgent.steer s x now) := by
  obtain ⟨hflow, hcontext, hstarted⟩ := beginInput_frame s x now
  have hbegun : ((s.beginInput x now).logRecord (.turnSteer x.origin)).flow = s.flow := hflow
  unfold LiveAgent.steer
  dsimp only
  rw [hbegun]
  split_ifs with hbusy
  · refine h.take now hok.1 ⟨rfl, rfl, rfl⟩ hcontext hstarted ?_
    change Accepts s.flow ((s.beginInput x now).flow.buffer x) x
    rw [hflow]
    exact Accepts.buffered rfl rfl
  · refine h.take now hok.1 ⟨rfl, rfl, rfl⟩ hcontext hstarted ?_
    change Accepts s.flow ((s.beginInput x now).flow.launch x) x
    rw [hflow]
    obtain ⟨hidle, hfree⟩ := not_or.1 hbusy
    refine launch_accepts s.flow fun huser => ⟨not_not.1 hidle, ?_⟩
    exact (hok.2 huser).resolve_left hidle

/-! ### The goal and the context -/

/-- The checkpoints of two goals are the same. -/
def SameCheckpoints (g g' : GoalSession) : Prop :=
  g'.mode.rewindCheckpoints = g.mode.rewindCheckpoints ∧
    g'.mode.rewindCheckpointPrepared = g.mode.rewindCheckpointPrepared

theorem clearInternal_checkpoints (g : GoalSession) : SameCheckpoints g g.clearInternal := by
  unfold clearInternal
  cases g.mode.state with
  | none | some => exact ⟨rfl, rfl⟩

theorem ifActive_checkpoints (g : GoalSession) {f : GoalState → GoalSession}
    (hf : ∀ state, SameCheckpoints g (f state)) : SameCheckpoints g (g.ifActive f) := by
  unfold ifActive
  cases g.mode.state with
  | none => exact ⟨rfl, rfl⟩
  | some state =>
    dsimp only
    split_ifs
    · exact hf state
    · exact ⟨rfl, rfl⟩

theorem createGoal_checkpoints {g g' : GoalSession} {input : CreateGoalInput} {goalId : String}
    {maxTurns : Option ℤ} (h : g.createGoal input goalId maxTurns now = .ok g') :
    SameCheckpoints g g' := by
  unfold createGoal at h
  split_ifs at h
  cases h
  unfold storeGoal
  split_ifs <;> exact clearInternal_checkpoints g

/-- **An operation on the goal** changes no checkpoint. -/
theorem perform_checkpoints {g g' : GoalSession} {later : ℤ} {op : GoalOp}
    (h : g.perform now later op = .ok g') : SameCheckpoints g g' := by
  cases op with
  | createGoal input goalId maxTurns => exact createGoal_checkpoints h
  | pauseGoal reason =>
    simp only [GoalSession.perform, GoalSession.pauseGoal] at h
    split at h
    · cases h
    · split at h
      · cases h
        exact ⟨rfl, rfl⟩
      · cases h
        exact ⟨rfl, rfl⟩
      · cases h
  | resumeGoal reason =>
    simp only [GoalSession.perform, GoalSession.resumeGoal] at h
    split at h
    · cases h
    · split at h
      · cases h
        exact ⟨rfl, rfl⟩
      · cases h
        exact ⟨rfl, rfl⟩
      · cases h
        exact ⟨rfl, rfl⟩
      · cases h
  | pauseActiveGoal | markBlocked | recordTokenUsage | incrementTurn =>
    cases h
    exact ifActive_checkpoints g fun state => ⟨rfl, rfl⟩
  | markComplete reason =>
    cases h
    exact ifActive_checkpoints g fun state => clearInternal_checkpoints _
  | setBudgetLimits budgetLimits =>
    simp only [GoalSession.perform, GoalSession.setBudgetLimits] at h
    split at h <;> cases h
    exact ⟨rfl, rfl⟩
  | cancelGoal =>
    simp only [GoalSession.perform] at h
    split_ifs at h
    cases h
    exact clearInternal_checkpoints g

theorem goal (h : InputsMatch s) (op : GoalOp) (now later : ℤ) :
    InputsMatch (s.onGoal op now later) := by
  unfold onGoal
  cases hperform : s.goal.perform now later op with
  | error e => exact h
  | ok goal =>
    obtain ⟨hcheckpoints, hprepared⟩ := perform_checkpoints hperform
    exact h.stay ⟨hcheckpoints, hprepared, rfl⟩ rfl rfl rfl rfl

theorem prepare (h : InputsMatch s) (now : ℤ) :
    InputsMatch { s with goal := s.goal.prepareRewindCheckpoint now } := by
  obtain ⟨prepared, hcheckpoints, hlength⟩ := h.checkpoints
  unfold prepareRewindCheckpoint
  split_ifs at hlength ⊢ with hprepared
  · exact h
  · obtain rfl := length_eq_zero_iff.1 hlength
    refine ⟨h.flushed, h.steps, h.started, h.plain, ⟨[s.goal.mode.rewindSnapshot now], ?_, rfl⟩,
      h.pipeline⟩
    simp [GoalMode.pushCheckpoint, hcheckpoints]

theorem discard (h : InputsMatch s) (now : ℤ) :
    InputsMatch { s with goal := s.goal.discardRewindCheckpoint now } := by
  obtain ⟨prepared, hcheckpoints, hlength⟩ := h.checkpoints
  unfold discardRewindCheckpoint
  split_ifs at hlength ⊢ with hprepared hempty
  · -- there is a prepared checkpoint
    obtain ⟨checkpoint, rfl⟩ := length_eq_one_iff.1 hlength
    simp [hcheckpoints] at hempty
  · obtain ⟨checkpoint, rfl⟩ := length_eq_one_iff.1 hlength
    refine ⟨h.flushed, h.steps, h.started, h.plain, ⟨[], ?_, rfl⟩, h.pipeline⟩
    simp [GoalMode.restoreRewindCheckpointDiscard, hcheckpoints]
  · exact h

/-- **An operation on the context** that adds no user input. -/
theorem context (h : InputsMatch s) {op : ContextOp} (hop : op.AddsNoInput)
    (hother : op.isOther = true) : InputsMatch (s.onContext op) := by
  have hundo : ∀ count, op ≠ .undo count := by
    rintro count rfl
    cases hother
  obtain ⟨front, hfront⟩ := undoableInputs_performed h.steps h.flushed hop hundo
  refine h.move ⟨rfl, rfl, rfl⟩ (h.flushed.performed op) (h.steps.performed op) h.started
    (fun x hx => hx) ⟨front, ?_⟩
  rw [LiveAgent.pipeline, LiveAgent.pipeline, ← hfront]
  simp only [append_assoc]
  rfl

/-! ### Undo -/

theorem split_inputs {inputs : List (BufferedSteer × GoalRewindCheckpoint)}
    {kept removed : List ContextMessage} {n : ℕ}
    (hmap : inputs.map (fun e => appended e.1) = kept ++ removed) (hlength : removed.length = n)
    (hpos : 0 < n) :
    ∃ x checkpoint later, inputs = inputs.take (inputs.length - n) ++ (x, checkpoint) :: later ∧
      later.length + 1 = n ∧
      (inputs.take (inputs.length - n)).map (fun e => appended e.1) = kept ∧
      appended x :: later.map (fun e => appended e.1) = removed := by
  have hcount : inputs.length - n = kept.length := by
    have hsum := congrArg List.length hmap
    rw [length_map, length_append, hlength] at hsum
    omega
  have hlast : (inputs.drop (inputs.length - n)).map (fun e => appended e.1) = removed := by
    rw [map_drop, hmap, hcount, drop_left]
  obtain ⟨⟨x, checkpoint⟩, later, hdrop⟩ :
      ∃ e later, inputs.drop (inputs.length - n) = e :: later := by
    refine exists_cons_of_length_pos ?_
    rw [← length_map (f := fun e => appended e.1), hlast, hlength]
    exact hpos
  rw [hdrop] at hlast
  refine ⟨x, checkpoint, later, ?_, ?_, ?_, hlast⟩
  · rw [← hdrop, take_append_drop]
  · rw [← hlength, ← hlast, map_cons, length_cons, length_map]
  · rw [map_take, hmap, hcount, take_left]

/-- **The goal is rewound** to the checkpoint of the oldest input that goes. -/
theorem rewind_inputs {g : GoalMode} {kept later : List (BufferedSteer × GoalRewindCheckpoint)}
    {x : BufferedSteer} {checkpoint : GoalRewindCheckpoint} {count : ℤ} (now : ℤ)
    (hcheckpoints : g.rewindCheckpoints = (kept ++ (x, checkpoint) :: later).map (·.2))
    (hlength : later.length + 1 = count.toNat) :
    g.rewind count now =
      { state := stateFromRewindSnapshot checkpoint now
        rewindCheckpoints := kept.map (·.2)
        rewindCheckpointPrepared := false
        legacyRewindCheckpoint := none } := by
  rw [map_append, map_cons] at hcheckpoints
  have hall : g.rewindCheckpoints.length = (kept.map (·.2)).length + count.toNat := by
    rw [hcheckpoints, length_append, length_cons, length_map, length_map, hlength]
  have henough : ¬ (count ≤ 0 ∨ (g.rewindCheckpoints.length : ℤ) < count) := by
    omega
  have hrest : g.rewindCheckpoints.length - count.toNat = (kept.map (·.2)).length := by
    omega
  have hget : g.rewindCheckpoints[(kept.map (·.2)).length]? = some checkpoint := by
    rw [hcheckpoints, getElem?_append_right le_rfl, Nat.sub_self]
    rfl
  have htake : g.rewindCheckpoints.take (kept.map (·.2)).length = kept.map (·.2) := by
    rw [hcheckpoints, take_left]
  rw [GoalMode.rewind, if_neg henough, hrest, hget, htake]

theorem undoHistory_eq {count : ℤ} (hcan : s.context.canUndo count = true)
    (herror : s.undoError count = none) (now : ℤ) :
    s.undoHistory count now =
      { s with
        context := s.context.undone count
        goal := ⟨s.goal.mode.rewind count now, s.goal.records ++ [.undo count]⟩
        inputs := s.inputs.take (s.inputs.length - count.toNat) } := by
  simp only [undoHistory, herror, rewindGoal, undoContext, if_pos hcan]
  rfl

/-- **What an undo does.**  It removes the last inputs from the history, and the goal goes back to
the checkpoint of the oldest one of them. -/
theorem undone (h : InputsMatch s) {count now : ℤ} (hpos : 0 < count)
    (hok : s.Rewindable (.undoHistory count now)) :
    InputsMatch (s.undoHistory count now) ∧
      ∃ kept x checkpoint later, s.inputs = kept ++ (x, checkpoint) :: later ∧
        (s.undoHistory count now).inputs = kept ∧ later.length + 1 = count.toNat ∧
        s.context.messages.filter isRealUserInput =
          (s.undoHistory count now).context.messages.filter isRealUserInput ++
            (appended x :: later.map fun e => appended e.1) ∧
        s.goal.mode.rewindCheckpoints =
          (s.undoHistory count now).goal.mode.rewindCheckpoints ++ checkpoint :: later.map (·.2) ∧
        (s.undoHistory count now).goal.mode.state = stateFromRewindSnapshot checkpoint now := by
  rcases hok with hle | ⟨hcan, herror, hprepared, hdeferred, hstarting, hbuffer⟩
  · omega
  obtain ⟨removed, hlength, hundoable, hreal⟩ := undone_inputs hcan herror
  -- no checkpoint is prepared, so the checkpoints are those of the inputs
  obtain ⟨checkpoints, hcheckpoints, hnone⟩ := h.checkpoints
  rw [hprepared] at hnone
  obtain rfl := length_eq_zero_iff.1 hnone
  rw [append_nil] at hcheckpoints
  -- nothing is on its way, so the last inputs are those in the history
  have hpipeline : s.pipeline = undoableInputs (s.context.undone count).messages ++ removed := by
    have htimeline : marks s.context.timeline = marks s.context.messages := by
      rw [marks_timeline, hdeferred, append_nil]
    rw [LiveAgent.pipeline, hstarting, hbuffer, append_nil, append_nil,
      undoableInputs_congr htimeline, hundoable]
  obtain ⟨front, hfront⟩ := h.pipeline
  rw [hpipeline, ← append_assoc] at hfront
  obtain ⟨x, checkpoint, later, hinputs, hcount, hkept, hlast⟩ :=
    split_inputs hfront.symm hlength (by omega)
  have hrewind := rewind_inputs (g := s.goal.mode) now (hinputs ▸ hcheckpoints) hcount
  rw [undoHistory_eq hcan herror now, hrewind]
  refine ⟨⟨h.flushed.performed (.undo count), h.steps.undone count, h.started, h.plain,
    ⟨[], (append_nil _).symm, rfl⟩, ?_⟩, _, x, checkpoint, later, hinputs, rfl, hcount, ?_, ?_,
    rfl⟩
  · have htimeline : (s.context.undone count).timeline = (s.context.undone count).messages := by
      rw [ContextMemory.timeline, ContextMemory.undone, if_pos hcan]
      exact append_nil _
    change undoableInputs (s.context.undone count).timeline ++ userMessages s.starting ++
      userMessages s.flow.steerBuffer <:+ _
    rw [htimeline, hstarting, hbuffer, append_nil, append_nil, hkept]
    exact List.suffix_append _ _
  · rw [hreal, hlast]
  · conv_lhs => rw [hcheckpoints, hinputs]
    rw [map_append]
    rfl

theorem undone_nothing (h : InputsMatch s) {count : ℤ} (hle : count ≤ 0) :
    InputsMatch (s.undoHistory count now) := by
  have hcan : s.context.canUndo count = false := by simp [canUndo, hle]
  have herror : s.undoError count = none := by
    rw [LiveAgent.undoError, undo]
    simp [hcan]
  have hsame : s.undoHistory count now = s := by
    have hzero : count.toNat = 0 := by omega
    simp [LiveAgent.undoHistory, herror, rewindGoal, undoContext, hcan, GoalMode.rewind, hzero,
      undone_of_not_canUndo hcan]
  rwa [hsame]

/-! ### Steps -/

theorem cancel (h : InputsMatch s) {turnId : Option ℤ} (hok : s.Rewindable (.cancel turnId)) :
    InputsMatch (s.cancel turnId) := by
  by_cases hother : turnId.any (· ≠ s.flow.turnId) = true
  · have hflow : s.flow.cancel turnId = s.flow := by rw [TurnFlow.cancel, if_pos hother]
    refine h.stay ⟨rfl, rfl, rfl⟩ rfl ?_ rfl ?_
    · change (s.flow.cancel turnId).launched = _
      rw [hflow]
    · change (s.flow.cancel turnId).steerBuffer = _
      rw [hflow]
  · have hbuffer : (s.cancel turnId).flow.steerBuffer =
        s.flow.steerBuffer.filter (·.origin.kind ≠ .user) := by
      simp only [LiveAgent.cancel, TurnFlow.cancel, if_neg hother]
    have hlaunched : (s.cancel turnId).flow.launched = s.flow.launched := by
      simp only [LiveAgent.cancel, TurnFlow.cancel, if_neg hother]
    have hstarting : (s.cancel turnId).starting = s.starting := by
      rw [LiveAgent.starting, hlaunched]
      rfl
    refine h.move ⟨rfl, rfl, rfl⟩ h.flushed h.steps (hlaunched ▸ h.started) (fun x hx => ?_) ?_
    · rw [hstarting, hbuffer] at hx
      rcases List.mem_append.1 hx with hold | hkept
      · exact List.mem_append_left _ hold
      · exact List.mem_append_right _ (List.mem_filter.1 hkept).1
    · -- no input of the user waits in the buffer
      have hnone : userMessages (s.flow.steerBuffer.filter (·.origin.kind ≠ .user)) = [] := by
        simp [userMessages, List.filter_filter]
      rw [LiveAgent.pipeline, LiveAgent.pipeline, hstarting, hbuffer, hnone,
        hok.resolve_left hother]
      exact List.suffix_rfl

/-- **Every step** that meets the condition keeps the invariant. -/
theorem step (h : InputsMatch s) {a : LiveStep} (hok : s.Rewindable a)
    (ht : s.step a = some t) : InputsMatch t := by
  cases step_cases ht with
  | prompt x now => exact h.prompt hok
  | steer x now => exact h.steer hok
  | cancel turnId => exact h.cancel hok
  | turnStarts hsteer => exact h.turnStarts hsteer
  | flush hrunning =>
    refine h.flushSteerBuffer (Or.inl ?_)
    rw [running, Bool.and_eq_true, beq_iff_eq] at hrunning
    rw [starting, hrunning.2, drop_length]
    rfl
  | turnEnds => exact launchBufferedSteerIfIdle (h.stay ⟨rfl, rfl, rfl⟩ rfl rfl rfl rfl)
  | compactionBegins | compactionCancelled => exact h.stay ⟨rfl, rfl, rfl⟩ rfl rfl rfl rfl
  | compactionFinishes frees =>
    have hfreed : InputsMatch { s with
        flow := { s.flow with isCompacting := s.flow.isCompacting && !frees }
        compactionWorkers := s.compactionWorkers - 1 } :=
      h.stay ⟨rfl, rfl, rfl⟩ rfl rfl rfl rfl
    unfold compactionFinishes onCompactionFinished
    split_ifs
    · exact hfreed
    · exact hfreed.flushSteerBuffer hok
    · exact hfreed.launchBufferedSteerIfIdle
  | captureRewindCheckpoint now => exact h.prepare now
  | discardRewindCheckpoint now => exact h.discard now
  | goal op now later => exact h.goal op now later
  | context hother => exact h.context hok hother
  | undoHistory count now =>
    by_cases hpos : 0 < count
    · exact (h.undone hpos hok).1
    · exact h.undone_nothing (Int.not_lt.1 hpos)

end InputsMatch

/-! ### What a checkpoint saves -/

/-- **A checkpoint is the goal in front of an input**: as it was when the input began, or when the
checkpoint was captured that the input began with. -/
def SavedFor (ok : LiveAgent → LiveStep → Prop) (steps : List LiveStep) (x : BufferedSteer)
    (checkpoint : GoalRewindCheckpoint) : Prop :=
  ∃ before a after s now, steps = before ++ a :: after ∧
    LibRun.Run step ok {} before s ∧ checkpoint = s.goal.mode.rewindSnapshot now ∧
    (a = .prompt x now ∨ a = .steer x now ∨
      a = .captureRewindCheckpoint now ∧ ∃ later, .prompt x later ∈ after ∨ .steer x later ∈ after)

/-- The prepared checkpoint is the goal as it was captured. -/
def PreparedIn (ok : LiveAgent → LiveStep → Prop) (steps : List LiveStep) (s : LiveAgent) : Prop :=
  s.goal.mode.rewindCheckpointPrepared = true → ∃ before after t now,
    steps = before ++ .captureRewindCheckpoint now :: after ∧
      LibRun.Run step ok {} before t ∧
      s.goal.mode.rewindCheckpoints.getLast? = some (t.goal.mode.rewindSnapshot now)

/-- Every other step leaves the checkpoints as they are. -/
def LiveStep.keepsCheckpoints : LiveStep → Bool
  | .prompt _ _ | .steer _ _ | .captureRewindCheckpoint _ | .discardRewindCheckpoint _
  | .undoHistory _ _ => false
  | _ => true

theorem step_keeps {s t : LiveAgent} {a : LiveStep} (ht : s.step a = some t)
    (ha : a.keepsCheckpoints = true) : KeepsCheckpoints s t := by
  cases step_cases ht with
  | prompt | steer | captureRewindCheckpoint | discardRewindCheckpoint | undoHistory => cases ha
  | cancel | turnStarts | flush | turnEnds | compactionBegins | compactionCancelled | context =>
    exact ⟨rfl, rfl, rfl⟩
  | compactionFinishes frees =>
    unfold compactionFinishes onCompactionFinished
    split_ifs <;> exact ⟨rfl, rfl, rfl⟩
  | goal op now later =>
    unfold onGoal
    cases hperform : s.goal.perform now later op with
    | error e => exact ⟨rfl, rfl, rfl⟩
    | ok goal =>
      obtain ⟨hcheckpoints, hprepared⟩ := InputsMatch.perform_checkpoints hperform
      exact ⟨hcheckpoints, hprepared, rfl⟩

/-- The checkpoints of a state reached, and what they save. -/
structure CheckpointsSaved (ok : LiveAgent → LiveStep → Prop) (steps : List LiveStep)
    (s : LiveAgent) : Prop where
  inputs : ∀ e ∈ s.inputs, SavedFor ok steps e.1 e.2
  prepared : PreparedIn ok steps s

theorem SavedFor.snoc {ok : LiveAgent → LiveStep → Prop} {steps : List LiveStep}
    {x : BufferedSteer} {checkpoint : GoalRewindCheckpoint} (h : SavedFor ok steps x checkpoint)
    (a : LiveStep) : SavedFor ok (steps ++ [a]) x checkpoint := by
  obtain ⟨before, b, after, s, now, rfl, hrun, hcheckpoint, hbegins⟩ := h
  refine ⟨before, b, after ++ [a], s, now, append_assoc _ _ _, hrun, hcheckpoint, ?_⟩
  rcases hbegins with hprompt | hsteer | ⟨hcapture, later, hlater⟩
  · exact Or.inl hprompt
  · exact Or.inr (Or.inl hsteer)
  · exact Or.inr (Or.inr ⟨hcapture, later, hlater.imp (mem_append_left _) (mem_append_left _)⟩)

namespace CheckpointsSaved

variable {ok : LiveAgent → LiveStep → Prop} {steps : List LiveStep} {s t : LiveAgent}

section

variable (h : CheckpointsSaved ok steps s)

include h

theorem keep (hinputs : ∀ e ∈ t.inputs, e ∈ s.inputs)
    (hmode : t.goal.mode.rewindCheckpointPrepared = true →
      s.goal.mode.rewindCheckpointPrepared = true ∧
        t.goal.mode.rewindCheckpoints = s.goal.mode.rewindCheckpoints) (a : LiveStep) :
    CheckpointsSaved ok (steps ++ [a]) t := by
  refine ⟨fun e he => (h.inputs e (hinputs e he)).snoc a, fun hprepared => ?_⟩
  obtain ⟨hprepared, hsame⟩ := hmode hprepared
  obtain ⟨before, after, u, now, rfl, hrun, hlast⟩ := h.prepared hprepared
  refine ⟨before, after ++ [a], u, now, append_assoc _ _ _, hrun, ?_⟩
  rw [hsame]
  exact hlast

theorem other (hkeep : KeepsCheckpoints s t) (a : LiveStep) :
    CheckpointsSaved ok (steps ++ [a]) t :=
  h.keep (fun _ he => hkeep.inputs ▸ he)
    (fun hprepared => ⟨hkeep.prepared ▸ hprepared, hkeep.checkpoints⟩) a

/-- **An input begins.** -/
theorem input (hrun : LibRun.Run step ok {} steps s) {x : BufferedSteer} {now : ℤ} {a : LiveStep}
    (ha : a = .prompt x now ∨ a = .steer x now) (hkeep : KeepsCheckpoints (s.beginInput x now) t) :
    CheckpointsSaved ok (steps ++ [a]) t := by
  by_cases huser : x.origin.kind = .user
  · have hinputs : t.inputs = s.inputs ++ [(x, s.nextCheckpoint now)] := by
      rw [hkeep.inputs, beginInput, if_pos huser]
    have hnone : t.goal.mode.rewindCheckpointPrepared = false := by
      rw [hkeep.prepared, beginInput, if_pos huser]
      exact InputsMatch.beginRewindablePrompt_prepared _ _
    refine ⟨fun e he => ?_, fun hfalse => ?_⟩
    · rw [hinputs] at he
      rcases mem_append.1 he with hold | hnew
      · exact (h.inputs e hold).snoc a
      · rw [mem_singleton.1 hnew]
        unfold nextCheckpoint
        split_ifs with hprepared
        · obtain ⟨before, after, u, now', rfl, hbefore, hlast⟩ := h.prepared hprepared
          rw [hlast]
          refine ⟨before, _, after ++ [a], u, now', append_assoc _ _ _, hbefore, rfl,
            Or.inr (Or.inr ⟨rfl, now, ?_⟩)⟩
          rcases ha with rfl | rfl
          · exact Or.inl (mem_append_right _ (.head _))
          · exact Or.inr (mem_append_right _ (.head _))
        · exact ⟨steps, a, [], s, now, rfl, hrun, rfl, ha.imp id Or.inl⟩
    · rw [hnone] at hfalse
      cases hfalse
  · have hsame : s.beginInput x now = s := by rw [beginInput, if_neg huser]
    rw [hsame] at hkeep
    exact h.other hkeep a

/-- **A checkpoint is captured.** -/
theorem capture (hrun : LibRun.Run step ok {} steps s) (now : ℤ) :
    CheckpointsSaved ok (steps ++ [.captureRewindCheckpoint now])
      { s with goal := s.goal.prepareRewindCheckpoint now } := by
  unfold prepareRewindCheckpoint
  split_ifs with hprepared
  · exact h.other (KeepsCheckpoints.refl s) _
  · refine ⟨fun e he => (h.inputs e he).snoc _, fun _ => ⟨steps, [], s, now, rfl, hrun, ?_⟩⟩
    exact getLast?_concat

theorem discard (now : ℤ) :
    CheckpointsSaved ok (steps ++ [.discardRewindCheckpoint now])
      { s with goal := s.goal.discardRewindCheckpoint now } := by
  refine h.keep (fun e he => ?_) (fun hprepared => ?_) _
  · exact he
  · -- afterwards nothing is prepared
    have hnone : (s.goal.discardRewindCheckpoint now).mode.rewindCheckpointPrepared = false := by
      unfold discardRewindCheckpoint
      split_ifs with hold
      · rfl
      · rfl
      · exact Bool.eq_false_iff.2 hold
    rw [hnone] at hprepared
    cases hprepared

theorem undo (count now : ℤ) :
    CheckpointsSaved ok (steps ++ [.undoHistory count now]) (s.undoHistory count now) := by
  have hcontext : (s.undoContext count).goal.mode = s.goal.mode ∧
      (s.undoContext count).inputs = s.inputs := by
    unfold undoContext
    split_ifs <;> exact ⟨rfl, rfl⟩
  unfold undoHistory
  cases s.undoError count with
  | some e =>
    exact h.keep (fun e he => hcontext.2 ▸ he) (fun hprepared =>
      ⟨hcontext.1 ▸ hprepared, congrArg GoalMode.rewindCheckpoints hcontext.1⟩) _
  | none =>
    refine h.keep (fun e he => ?_) (fun hprepared => ?_) _
    · rw [← hcontext.2]
      exact mem_of_mem_take he
    · -- a checkpoint that is gone back to leaves nothing prepared
      change ((s.undoContext count).goal.mode.rewind count now).rewindCheckpointPrepared = true
        at hprepared
      change s.goal.mode.rewindCheckpointPrepared = true ∧
        ((s.undoContext count).goal.mode.rewind count now).rewindCheckpoints = _
      rw [hcontext.1] at hprepared ⊢
      unfold GoalMode.rewind at hprepared ⊢
      split_ifs at hprepared ⊢
      · exact ⟨hprepared, rfl⟩
      · split at hprepared
        · exact ⟨hprepared, rfl⟩
        · cases hprepared

/-- **Every step**: the checkpoints of a state reached save what they should. -/
theorem step (hrun : LibRun.Run step ok {} steps s) {a : LiveStep} (ht : s.step a = some t) :
    CheckpointsSaved ok (steps ++ [a]) t := by
  cases step_cases ht with
  | prompt x now =>
    refine h.input hrun (Or.inl rfl) ?_
    exact ⟨rfl, rfl, rfl⟩
  | steer x now =>
    refine h.input hrun (Or.inr rfl) ?_
    unfold steer
    dsimp only
    split_ifs <;> exact ⟨rfl, rfl, rfl⟩
  | captureRewindCheckpoint now => exact h.capture hrun now
  | discardRewindCheckpoint now => exact h.discard now
  | undoHistory count now => exact h.undo count now
  | cancel | turnStarts | flush | turnEnds | compactionBegins | compactionCancelled
  | compactionFinishes | goal | context => exact h.other (step_keeps ht rfl) _

end

/-- **Every run.** -/
theorem of_run (h : LibRun.Run LiveAgent.step ok {} steps s) : CheckpointsSaved ok steps s := by
  induction h with
  | nil =>
    refine ⟨fun e he => ?_, fun hfalse => ?_⟩
    · cases he
    · cases hfalse
  | snoc hrun _ hu ih => exact ih.step hrun hu

end CheckpointsSaved

/-! ### The goal after an undo -/

/-- The goal, whose clock went on until it was saved and goes on now. -/
def GoalState.restartedAt (state : GoalState) (saved now : ℤ) : GoalState :=
  { state with
    wallClockMs := state.liveWallClockMs saved
    wallClockResumedAt := if state.status = .active then some now else none }

theorem stateFromRewindSnapshot_rewindSnapshot (g : GoalMode) (saved now : ℤ) :
    stateFromRewindSnapshot (g.rewindSnapshot saved) now =
      g.state.map (·.restartedAt saved now) := by
  rw [stateFromRewindSnapshot, GoalMode.rewindSnapshot, Option.map_map]
  rfl

/-- **The goal becomes what it was in front of the inputs that are undone**, in every run whose
steps meet the condition.  An undo that succeeds removes the last user inputs from the history, as
many as there are checkpoints that go; and the goal is the one from the beginning of the oldest of
these inputs, or from when the checkpoint was captured that this input began with. -/
theorem undoHistory_rewinds_goal {s : LiveAgent} {steps : List LiveStep} {count now : ℤ}
    (h : LibRun.Run LiveAgent.step LiveAgent.Rewindable {} steps s) (hpos : 0 < count)
    (hok : s.Rewindable (.undoHistory count now)) :
    ∃ kept x checkpoint later, s.inputs = kept ++ (x, checkpoint) :: later ∧
      (s.undoHistory count now).inputs = kept ∧ later.length + 1 = count.toNat ∧
      s.context.messages.filter isRealUserInput =
        (s.undoHistory count now).context.messages.filter isRealUserInput ++
          (appended x :: later.map fun e => appended e.1) ∧
      s.goal.mode.rewindCheckpoints =
        (s.undoHistory count now).goal.mode.rewindCheckpoints ++ checkpoint :: later.map (·.2) ∧
      ∃ before a after t saved, steps = before ++ a :: after ∧
        LibRun.Run LiveAgent.step LiveAgent.Rewindable {} before t ∧
        (a = .prompt x saved ∨ a = .steer x saved ∨ a = .captureRewindCheckpoint saved ∧
          ∃ began, .prompt x began ∈ after ∨ .steer x began ∈ after) ∧
        (s.undoHistory count now).goal.mode.state =
          t.goal.mode.state.map (·.restartedAt saved now) := by
  have hmatch : InputsMatch s := h.invariant InputsMatch.initial fun _ _ _ ht hok hu =>
    ht.step hok hu
  obtain ⟨-, kept, x, checkpoint, later, hinputs, hkept, hlength, hmessages, hcheckpoints,
      hstate⟩ :=
    hmatch.undone hpos hok
  obtain ⟨before, a, after, t, saved, hsteps, ht, hsaved, ha⟩ :=
    (CheckpointsSaved.of_run h).inputs (x, checkpoint) (by rw [hinputs]; simp)
  refine ⟨kept, x, checkpoint, later, hinputs, hkept, hlength, hmessages, hcheckpoints, before, a,
    after, t, saved, hsteps, ht, ha, ?_⟩
  dsimp only at hsaved
  rw [hstate, hsaved, stateFromRewindSnapshot_rewindSnapshot]

/-! ### A checkpoint that is discarded -/

/-- What operations leave of the goal; one that throws changes nothing. -/
def GoalSession.performAll (g : GoalSession) (ops : List (GoalOp × ℤ × ℤ)) : GoalSession :=
  ops.foldl (fun g op => (g.perform op.2.1 op.2.2 op.1).toOption.getD g) g

theorem performAll_checkpoints (g : GoalSession) (ops : List (GoalOp × ℤ × ℤ)) :
    InputsMatch.SameCheckpoints g (g.performAll ops) := by
  induction ops generalizing g with
  | nil => exact ⟨rfl, rfl⟩
  | cons op ops ih =>
    have hrest := ih ((g.perform op.2.1 op.2.2 op.1).toOption.getD g)
    cases hop : g.perform op.2.1 op.2.2 op.1 with
    | error e =>
      rw [hop] at hrest
      rwa [GoalSession.performAll, foldl_cons, hop]
    | ok g' =>
      rw [hop] at hrest
      have hone := InputsMatch.perform_checkpoints hop
      rw [GoalSession.performAll, foldl_cons, hop]
      exact ⟨hrest.1.trans hone.1, hrest.2.trans hone.2⟩

/-- **A checkpoint that is discarded takes the goal back**, whatever was done to it since. -/
theorem discard_takes_back {g : GoalSession} (hnot : g.mode.rewindCheckpointPrepared = false)
    (saved now : ℤ) (ops : List (GoalOp × ℤ × ℤ)) :
    (((g.prepareRewindCheckpoint saved).performAll ops).discardRewindCheckpoint now).mode =
      { g.mode with
        state := g.mode.state.map (·.restartedAt saved now)
        legacyRewindCheckpoint := none } := by
  obtain ⟨hcheckpoints, hprepared⟩ := performAll_checkpoints (g.prepareRewindCheckpoint saved) ops
  generalize (g.prepareRewindCheckpoint saved).performAll ops = g' at *
  rw [prepareRewindCheckpoint, hnot, if_neg Bool.false_ne_true] at hcheckpoints hprepared
  have hlast : g'.mode.rewindCheckpoints =
    g.mode.rewindCheckpoints ++ [g.mode.rewindSnapshot saved] := hcheckpoints
  have htrue : g'.mode.rewindCheckpointPrepared = true := hprepared
  rw [discardRewindCheckpoint, if_pos htrue, hlast, if_neg (by simp)]
  simp [GoalMode.restoreRewindCheckpointDiscard, hlast, stateFromRewindSnapshot_rewindSnapshot,
    ← hnot]

/-- A goal that a turn pursues. -/
def pursued : GoalSession :=
  { mode := { state := newGoal { objective := "Port the parser" } "goal" none 10 } }

theorem discard_takes_back_pursued :
    (((pursued.prepareRewindCheckpoint 20).performAll [(.recordTokenUsage 5, 21, 21)]
      ).discardRewindCheckpoint 22).mode.state = pursued.mode.state.map (·.restartedAt 20 22) :=
  congrArg GoalMode.state (discard_takes_back (g := pursued) rfl 20 22 _)

/-- The usage that the turn has recorded is lost. -/
theorem discard_loses_usage :
    (((pursued.prepareRewindCheckpoint 20).performAll [(.recordTokenUsage 5, 21, 21)]
      ).discardRewindCheckpoint 22).mode.state.map (·.tokensUsed) = some 0 ∧
    (pursued.performAll [(.recordTokenUsage 5, 21, 21)]).mode.state.map (·.tokensUsed) = some 5 := by
  decide

/-! ### Examples -/

instance ContextOp.AddsNoInput.decidable (op : ContextOp) : Decidable op.AddsNoInput :=
  match op with
  | .appendMessage message => inferInstanceAs (Decidable (isRealUserInput message = false))
  | .importMigratedHistory messages | .useProjectedHistoryFrom messages =>
    inferInstanceAs (Decidable (∀ m ∈ messages, isRealUserInput m = false))
  | .appendTranscriptMessage _ | .setTransientSystemReminder _ _ | .clearTransientSystemReminder
  | .turnPrompt _ | .loopEvent _ | .popMatchedMessage _ | .undo _ | .clear
  | .applyCompaction _ _ _ _ _ | .finishResume => inferInstanceAs (Decidable True)

instance BufferedSteer.Plain.decidable (steer : BufferedSteer) : Decidable steer.Plain :=
  inferInstanceAs (Decidable (isRealUserInput (appended steer) = true →
    steer.origin.kind = .user ∧ steer.input ≠ []))

instance LiveAgent.Rewindable.decidable (s : LiveAgent) (a : LiveStep) :
    Decidable (s.Rewindable a) :=
  match a with
  | .prompt steer _ => inferInstanceAs (Decidable (steer.Plain ∧ (steer.origin.kind = .user →
      s.flow.activeTurn = .idle ∧
        (s.flow.isCompacting = true ∨ userMessages s.flow.steerBuffer = []))))
  | .steer steer _ => inferInstanceAs (Decidable (steer.Plain ∧ (steer.origin.kind = .user →
      s.flow.activeTurn ≠ .idle ∨ s.flow.isCompacting = true ∨
        userMessages s.flow.steerBuffer = [])))
  | .cancel turnId => inferInstanceAs (Decidable
      (turnId.any (· ≠ s.flow.turnId) = true ∨ userMessages s.flow.steerBuffer = []))
  | .compactionFinishes _ => inferInstanceAs (Decidable
      (userMessages s.starting = [] ∨ userMessages s.flow.steerBuffer = []))
  | .context op => inferInstanceAs (Decidable op.AddsNoInput)
  | .undoHistory count _ => inferInstanceAs (Decidable (count ≤ 0 ∨
      (s.context.canUndo count = true ∧ s.undoError count = none ∧
        s.goal.mode.rewindCheckpointPrepared = false ∧ marks s.context.deferredMessages = [] ∧
        userMessages s.starting = [] ∧ userMessages s.flow.steerBuffer = [])))
  | .turnStarts | .flush | .turnEnds | .compactionBegins | .compactionCancelled
  | .captureRewindCheckpoint _ | .discardRewindCheckpoint _ | .goal _ _ _ =>
    inferInstanceAs (Decidable True)

/-- A goal is created for a prompt, in front of it. -/
def goalBeforePrompt : List LiveStep :=
  [.captureRewindCheckpoint 10,
    .goal (.createGoal { objective := "Port the parser" } "goal" none) 11 11,
    .prompt (userInput "Port the parser") 12]

/-- The turn is steered, and the agent is prompted again. -/
def steeredTurn : List LiveStep :=
  [.turnStarts, .goal .incrementTurn 13 13, .steer (userInput "Keep the old tests") 14, .flush,
    .goal .incrementTurn 15 15, .turnEnds, .prompt (userInput "Run the tests") 30, .turnStarts]

theorem undoHistory_rewinds_goal_steered : ∃ s : LiveAgent,
    s.goal.mode.state.map (·.turnsUsed) = some 2 ∧
      (s.undoHistory 2 40).goal.mode.state.map (·.turnsUsed) = some 1 ∧
      ∃ kept x checkpoint later, s.inputs = kept ++ (x, checkpoint) :: later ∧
        (s.undoHistory 2 40).inputs = kept ∧ later.length + 1 = 2 := by
  have hrun : ∃ s, LibRun.Run step LiveAgent.Rewindable {}
      (goalBeforePrompt ++ steeredTurn) s ∧ s.Rewindable (.undoHistory 2 40) ∧
        s.goal.mode.state.map (·.turnsUsed) = some 2 ∧
        (s.undoHistory 2 40).goal.mode.state.map (·.turnsUsed) = some 1 :=
    LibRun.exists_run (by decide +kernel) (by decide +kernel)
  obtain ⟨s, hs, hok, hbefore, hafter⟩ := hrun
  obtain ⟨kept, x, checkpoint, later, hinputs, hkept, hlength, -⟩ :=
    undoHistory_rewinds_goal hs (by decide) hok
  exact ⟨s, hbefore, hafter, kept, x, checkpoint, later, hinputs, hkept, hlength⟩

/-- **The goal of a prompt is undone with it**, though it is there before the prompt is appended. -/
theorem goal_of_the_prompt_is_undone : ∃ s : LiveAgent,
    LibRun.Run step LibRun.always {} goalBeforePrompt s ∧
      s.goal.mode.state.map (·.objective) = some "Port the parser" ∧
      ∃ t ∈ s.turnStarts, t.undoError 1 = none ∧
        (t.undoHistory 1 40).context.messages = s.context.messages ∧
        (t.undoHistory 1 40).goal.mode.state = none :=
  LibRun.exists_run (by decide +kernel) (LibRun.legal_always _ _)

end NoriCode
