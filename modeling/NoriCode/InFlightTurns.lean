/-
**The turns in flight of every agent.**

A client that joins in the middle of a turn gets the text streamed so far from a snapshot, and
aligns the later deltas by the offset that is stamped on each.  The tracker keeps one accumulator
for each agent of each session.  Deltas, steps and started calls of a turn other than the one it
tracks are ignored; the end of a turn and the result of a call are taken whatever turn they name.

The module embeds `services/gateway/inFlightTurnTracker.ts`, but for `clear`, which nothing calls.
A text is the list of its code units, so its length is the offset that is stamped.

Main definitions:

* `InFlightTurns.Tracker.apply`, `InFlightTurns.Tracker.get` — the tracker;
* `InFlightTurns.IsCurrent` — the turn of an agent that has started and not ended;
* `InFlightTurns.IsRunning` — a call of the turn that has started and has no result;
* `InFlightTurns.Describes` — what a snapshot owes to the events of an agent;
* `InFlightTurns.Fits` — an end or a result is of the turn that is tracked.

Main results:

* `InFlightTurns.find_apply` — an event moves its own agent and no other;
* `InFlightTurns.tracker_describes` — **the snapshot is what was streamed**.
-/

import NoriCode.LibOrdMap
import NoriCode.LibRun

namespace NoriCode.InFlightTurns

open LibOrdMap List Option

/-- The code units of a text. -/
abbrev CodeUnits := List UInt16

-- `V` is the type of the values that are only carried along
variable {V : Type}

/-! ### The events -/

inductive ToolUpdateKind
  | stdout
  | stderr
  | progress
  | status
  | custom
  deriving DecidableEq

structure ToolUpdate (V : Type) where
  kind : ToolUpdateKind
  text : Option CodeUnits
  percent : Option V
  deriving DecidableEq

structure ToolCallStarted (V : Type) where
  toolCallId : String
  name : String
  args : V
  description : Option String
  display : Option V
  deriving DecidableEq

/-- The events of a turn that the tracker looks at, and one for all others. -/
inductive TurnEvent (V : Type)
  | turnStarted (turnId : ℕ)
  | turnStepStarted (turnId : ℕ)
  | turnEnded (turnId : ℕ)
  | assistantDelta (turnId : ℕ) (delta : CodeUnits)
  | thinkingDelta (turnId : ℕ) (delta : CodeUnits)
  | toolCallStarted (turnId : ℕ) (call : ToolCallStarted V)
  | toolProgress (turnId : ℕ) (toolCallId : String) (update : ToolUpdate V)
  | toolResult (turnId : ℕ) (toolCallId : String)
  | other
  deriving DecidableEq

structure Event (V : Type) where
  agentId : String
  event : TurnEvent V

/-! ### The tracker -/

structure ToolAccum (V : Type) where
  call : ToolCallStarted V
  lastProgress : Option (ToolUpdate V)

structure TurnAccum (V : Type) where
  turnId : ℕ
  assistantText : CodeUnits
  thinkingText : CodeUnits
  stepAssistantText : CodeUnits
  stepThinkingText : CodeUnits
  tools : OrdMap String (ToolAccum V)

structure Tracker (V : Type) where
  bySession : OrdMap String (OrdMap String (TurnAccum V))

def Tracker.empty : Tracker V := ⟨OrdMap.empty⟩

structure VolatileAnnotation where
  offset : Option ℕ

/-- `this.bySession.get(sessionId) ?? new Map()` -/
def Tracker.turns (tracker : Tracker V) (sessionId : String) : OrdMap String (TurnAccum V) :=
  (tracker.bySession.get sessionId).getD OrdMap.empty

/-- Store what has become of the turn of an agent. -/
def Tracker.setTurn (tracker : Tracker V) (sessionId agentId : String) (turn : TurnAccum V) :
    Tracker V :=
  ⟨tracker.bySession.set sessionId ((tracker.turns sessionId).set agentId turn)⟩

/-- Forget the turn of an agent, and the session with its last turn. -/
def Tracker.deleteTurn (tracker : Tracker V) (sessionId agentId : String) : Tracker V :=
  let turns := (tracker.turns sessionId).erase agentId
  if turns.entries = [] then ⟨tracker.bySession.erase sessionId⟩
  else ⟨tracker.bySession.set sessionId turns⟩

def TurnAccum.start (turnId : ℕ) : TurnAccum V := ⟨turnId, [], [], [], [], OrdMap.empty⟩

/-- The turn of an agent, if it is the one that an event names. -/
def Tracker.turnOf (tracker : Tracker V) (sessionId agentId : String) (turnId : ℕ) :
    Option (TurnAccum V) :=
  ((tracker.turns sessionId).get agentId).filter fun turn => turn.turnId = turnId

def Tracker.apply (tracker : Tracker V) (sessionId : String) (event : Event V) :
    Tracker V × VolatileAnnotation :=
  let agentId := event.agentId
  match event.event with
  | .turnStarted turnId => (tracker.setTurn sessionId agentId (TurnAccum.start turnId), ⟨none⟩)
  | .turnStepStarted turnId =>
    match tracker.turnOf sessionId agentId turnId with
    | none => (tracker, ⟨none⟩)
    | some turn =>
      (tracker.setTurn sessionId agentId
        { turn with stepAssistantText := [], stepThinkingText := [] }, ⟨none⟩)
  | .turnEnded _ => (tracker.deleteTurn sessionId agentId, ⟨none⟩)
  | .assistantDelta turnId delta =>
    match tracker.turnOf sessionId agentId turnId with
    | none => (tracker, ⟨none⟩)
    | some turn =>
      (tracker.setTurn sessionId agentId
        { turn with
          assistantText := turn.assistantText ++ delta
          stepAssistantText := turn.stepAssistantText ++ delta },
        ⟨some turn.assistantText.length⟩)
  | .thinkingDelta turnId delta =>
    match tracker.turnOf sessionId agentId turnId with
    | none => (tracker, ⟨none⟩)
    | some turn =>
      (tracker.setTurn sessionId agentId
        { turn with
          thinkingText := turn.thinkingText ++ delta
          stepThinkingText := turn.stepThinkingText ++ delta },
        ⟨some turn.thinkingText.length⟩)
  | .toolCallStarted turnId call =>
    match tracker.turnOf sessionId agentId turnId with
    | none => (tracker, ⟨none⟩)
    | some turn =>
      (tracker.setTurn sessionId agentId
        { turn with tools := turn.tools.set call.toolCallId ⟨call, none⟩ }, ⟨none⟩)
  | .toolProgress _ toolCallId update =>
    match (tracker.turns sessionId).get agentId with
    | none => (tracker, ⟨none⟩)
    | some turn =>
      match turn.tools.get toolCallId with
      | none => (tracker, ⟨none⟩)
      | some tool =>
        if update.kind = .custom then (tracker, ⟨none⟩)
        else
          (tracker.setTurn sessionId agentId
            { turn with
              tools := turn.tools.set toolCallId { tool with lastProgress := some update } },
            ⟨none⟩)
  -- the turn that the result names is not looked at
  | .toolResult _ toolCallId =>
    match (tracker.turns sessionId).get agentId with
    | none => (tracker, ⟨none⟩)
    | some turn =>
      (tracker.setTurn sessionId agentId { turn with tools := turn.tools.erase toolCallId },
        ⟨none⟩)
  | .other => (tracker, ⟨none⟩)

structure InFlightTurn (V : Type) where
  turnId : ℕ
  assistantText : CodeUnits
  thinkingText : CodeUnits
  stepAssistantText : CodeUnits
  stepThinkingText : CodeUnits
  runningTools : List (ToolAccum V)

def Tracker.get (tracker : Tracker V) (sessionId agentId : String) : Option (InFlightTurn V) :=
  ((tracker.bySession.get sessionId).bind (·.get agentId)).map fun turn =>
    { turnId := turn.turnId
      assistantText := turn.assistantText
      thinkingText := turn.thinkingText
      stepAssistantText := turn.stepAssistantText
      stepThinkingText := turn.stepThinkingText
      runningTools := turn.tools.values }

/-! ### One agent -/

/-- The turn that is tracked for an agent. -/
def Tracker.find (tracker : Tracker V) (sessionId agentId : String) : Option (TurnAccum V) :=
  (tracker.turns sessionId).get agentId

/-- What an event of an agent makes of its turn. -/
def advance (turn : Option (TurnAccum V)) : TurnEvent V → Option (TurnAccum V)
  | .turnStarted turnId => some (TurnAccum.start turnId)
  | .turnStepStarted turnId => turn.map fun turn =>
    if turn.turnId = turnId then { turn with stepAssistantText := [], stepThinkingText := [] }
    else turn
  | .turnEnded _ => none
  | .assistantDelta turnId delta => turn.map fun turn =>
    if turn.turnId = turnId then
      { turn with
        assistantText := turn.assistantText ++ delta
        stepAssistantText := turn.stepAssistantText ++ delta }
    else turn
  | .thinkingDelta turnId delta => turn.map fun turn =>
    if turn.turnId = turnId then
      { turn with
        thinkingText := turn.thinkingText ++ delta
        stepThinkingText := turn.stepThinkingText ++ delta }
    else turn
  | .toolCallStarted turnId call => turn.map fun turn =>
    if turn.turnId = turnId then
      { turn with tools := turn.tools.set call.toolCallId ⟨call, none⟩ }
    else turn
  | .toolProgress _ toolCallId update => turn.map fun turn =>
    match turn.tools.get toolCallId with
    | none => turn
    | some tool =>
      if update.kind = .custom then turn
      else
        { turn with
          tools := turn.tools.set toolCallId { tool with lastProgress := some update } }
  | .toolResult _ toolCallId => turn.map fun turn =>
    { turn with tools := turn.tools.erase toolCallId }
  | .other => turn

section

variable (tracker : Tracker V)

theorem bind_get_eq_find (s a : String) :
    (tracker.bySession.get s).bind (·.get a) = tracker.find s a := by
  unfold Tracker.find Tracker.turns
  cases tracker.bySession.get s <;> rfl

theorem turns_setTurn (s a s' : String) (turn : TurnAccum V) :
    (tracker.setTurn s a turn).turns s' =
      if s' = s then (tracker.turns s).set a turn else tracker.turns s' := by
  unfold Tracker.setTurn
  by_cases hs : s' = s <;> simp [Tracker.turns, hs]

theorem turns_deleteTurn (s a s' : String) :
    (tracker.deleteTurn s a).turns s' =
      if s' = s then (tracker.turns s).erase a else tracker.turns s' := by
  simp only [Tracker.deleteTurn]
  by_cases hempty : ((tracker.turns s).erase a).entries = []
  · -- the session is forgotten, and an unknown session has no turns
    have hturns : (tracker.turns s).erase a = OrdMap.empty := OrdMap.eq_empty hempty
    rw [if_pos hempty, hturns]
    by_cases hs : s' = s <;> simp [Tracker.turns, hs]
  · rw [if_neg hempty]
    by_cases hs : s' = s <;> simp [Tracker.turns, hs]

theorem find_setTurn (s a s' a' : String) (turn : TurnAccum V) :
    (tracker.setTurn s a turn).find s' a' =
      if s' = s ∧ a' = a then some turn else tracker.find s' a' := by
  unfold Tracker.find
  rw [turns_setTurn]
  by_cases hs : s' = s <;> simp [hs]

theorem find_deleteTurn (s a s' a' : String) :
    (tracker.deleteTurn s a).find s' a' = if s' = s ∧ a' = a then none else tracker.find s' a' := by
  unfold Tracker.find
  rw [turns_deleteTurn]
  by_cases hs : s' = s <;> simp [hs]

end

/-- The offset that is stamped on an event. -/
def stamp (turn : Option (TurnAccum V)) : TurnEvent V → Option ℕ
  | .assistantDelta turnId _ =>
    (turn.filter fun turn => turn.turnId = turnId).map (·.assistantText.length)
  | .thinkingDelta turnId _ =>
    (turn.filter fun turn => turn.turnId = turnId).map (·.thinkingText.length)
  | _ => none

variable {tracker : Tracker V}

theorem find_update {tracker' : Tracker V} {s a : String}
    {f : TurnAccum V → TurnAccum V} (hnone : tracker.find s a = none → tracker' = tracker)
    (hsome : ∀ turn, tracker.find s a = some turn →
      tracker' = tracker.setTurn s a (f turn) ∨ tracker' = tracker ∧ f turn = turn)
    (s' a' : String) : tracker'.find s' a' =
      if s' = s ∧ a' = a then (tracker.find s a).map f else tracker.find s' a' := by
  cases hfind : tracker.find s a with
  | none =>
    rw [hnone hfind]
    split_ifs with hkey
    · rw [hkey.1, hkey.2, hfind]
      rfl
    · rfl
  | some turn =>
    rcases hsome turn hfind with rfl | ⟨rfl, hf⟩
    · exact find_setTurn tracker s a s' a' (f turn)
    · split_ifs with hkey
      · rw [hkey.1, hkey.2, hfind, map_some, hf]
      · rfl

theorem find_turnOf {s a : String} {f : TurnAccum V → TurnAccum V} (turnId : ℕ) (s' a' : String) :
    (match tracker.turnOf s a turnId with
      | none => tracker
      | some turn => tracker.setTurn s a (f turn)).find s' a' =
    if s' = s ∧ a' = a then
      (tracker.find s a).map fun turn => if turn.turnId = turnId then f turn else turn
    else tracker.find s' a' := by
  have hof : tracker.turnOf s a turnId =
      (tracker.find s a).filter fun turn => turn.turnId = turnId := rfl
  refine find_update (fun hfind => ?_) (fun turn hfind => ?_) s' a'
  · rw [hof, hfind]
    rfl
  · by_cases hid : turn.turnId = turnId
    · have hsome : tracker.turnOf s a turnId = some turn := by simp [hof, hfind, hid]
      rw [hsome, if_pos hid]
      exact .inl rfl
    · have hnone : tracker.turnOf s a turnId = none := by simp [hof, hfind, hid]
      rw [hnone, if_neg hid]
      exact .inr ⟨rfl, rfl⟩

/-- **An event moves its own agent and no other.** -/
theorem find_apply (tracker : Tracker V) (s : String) (e : Event V) (s' a' : String) :
    (tracker.apply s e).1.find s' a' =
      if s' = s ∧ a' = e.agentId then advance (tracker.find s e.agentId) e.event
      else tracker.find s' a' := by
  obtain ⟨a, e⟩ := e
  cases e with
  | turnStarted turnId => exact find_setTurn tracker s a s' a' _
  | turnEnded turnId => exact find_deleteTurn tracker s a s' a'
  | turnStepStarted turnId | assistantDelta turnId delta | thinkingDelta turnId delta
  | toolCallStarted turnId call =>
    refine Eq.trans ?_ (find_turnOf turnId s' a')
    simp only [Tracker.apply]
    cases tracker.turnOf s a turnId <;> rfl
  | toolProgress turnId toolCallId update =>
    refine find_update (fun hfind => ?_) (fun turn hfind => ?_) s' a'
    · unfold Tracker.find at hfind
      simp [Tracker.apply, hfind]
    · unfold Tracker.find at hfind
      simp only [Tracker.apply, hfind]
      cases turn.tools.get toolCallId with
      | none => exact .inr ⟨rfl, rfl⟩
      | some tool =>
        by_cases hkind : update.kind = .custom <;> simp [hkind]
  | toolResult turnId toolCallId =>
    refine find_update (fun hfind => ?_) (fun turn hfind => ?_) s' a'
    · unfold Tracker.find at hfind
      simp [Tracker.apply, hfind]
    · unfold Tracker.find at hfind
      simp [Tracker.apply, hfind]
  | other =>
    by_cases hkey : s' = s ∧ a' = a
    · rw [if_pos hkey, hkey.1, hkey.2]
      rfl
    · rw [if_neg hkey]
      rfl

theorem apply_offset (tracker : Tracker V) (s : String) (e : Event V) :
    (tracker.apply s e).2.offset = stamp (tracker.find s e.agentId) e.event := by
  obtain ⟨a, e⟩ := e
  have hof : ∀ turnId, tracker.turnOf s a turnId =
      (tracker.find s a).filter fun turn => turn.turnId = turnId := fun _ => rfl
  cases e with
  | turnStarted | turnEnded | other => rfl
  | turnStepStarted turnId | toolCallStarted turnId call =>
    simp only [Tracker.apply, stamp]
    cases tracker.turnOf s a turnId <;> rfl
  | assistantDelta turnId delta | thinkingDelta turnId delta =>
    simp only [Tracker.apply, stamp, ← hof]
    cases tracker.turnOf s a turnId <;> rfl
  | toolProgress turnId toolCallId update =>
    simp only [Tracker.apply, stamp]
    cases (tracker.turns s).get a with
    | none => rfl
    | some turn =>
      simp only
      cases turn.tools.get toolCallId with
      | none => rfl
      | some tool => split_ifs <;> rfl
  | toolResult turnId toolCallId =>
    simp only [Tracker.apply, stamp]
    cases (tracker.turns s).get a <;> rfl

/-! ### What was streamed -/

/-- The last turn that started, unless it has ended, with the events since. -/
def IsCurrent (events : List (TurnEvent V)) (turnId : ℕ) (since : List (TurnEvent V)) : Prop :=
  ∃ before, events = before ++ .turnStarted turnId :: since ∧
    (∀ turnId', .turnStarted turnId' ∉ since) ∧ .turnEnded turnId ∉ since

def assistantDelta (turnId : ℕ) : TurnEvent V → CodeUnits
  | .assistantDelta turnId' delta => if turnId' = turnId then delta else []
  | _ => []

def thinkingDelta (turnId : ℕ) : TurnEvent V → CodeUnits
  | .thinkingDelta turnId' delta => if turnId' = turnId then delta else []
  | _ => []

/-- The event starts the call again or brings its result. -/
def Supersedes (turnId : ℕ) (toolCallId : String) (e : TurnEvent V) : Prop :=
  (∃ call : ToolCallStarted V, call.toolCallId = toolCallId ∧ e = .toolCallStarted turnId call) ∨
    e = .toolResult turnId toolCallId

/-- A call that the turn has started, with no result so far. -/
def IsRunning (turnId : ℕ) (since : List (TurnEvent V)) (call : ToolCallStarted V) : Prop :=
  ∃ before behind, since = before ++ .toolCallStarted turnId call :: behind ∧
    ∀ e ∈ behind, ¬Supersedes turnId call.toolCallId e

/-- What came since the last step of the turn began, if one did. -/
def IsStep (turnId : ℕ) (since inStep : List (TurnEvent V)) : Prop :=
  ∃ before, since = before ++ inStep ∧ .turnStepStarted turnId ∉ inStep ∧
    (before = [] ∨ ∃ front, before = front ++ [.turnStepStarted turnId])

/-- What a snapshot owes to the events of the agent. -/
structure Describes (events : List (TurnEvent V)) (turn : InFlightTurn V) : Prop where
  current : ∃ since, IsCurrent events turn.turnId since ∧
    turn.assistantText = since.flatMap (assistantDelta turn.turnId) ∧
    turn.thinkingText = since.flatMap (thinkingDelta turn.turnId) ∧
    (∃ inStep, IsStep turn.turnId since inStep ∧
      turn.stepAssistantText = inStep.flatMap (assistantDelta turn.turnId) ∧
      turn.stepThinkingText = inStep.flatMap (thinkingDelta turn.turnId)) ∧
    ∀ call, call ∈ turn.runningTools.map (·.call) ↔ IsRunning turn.turnId since call
  once : (turn.runningTools.map (·.call.toolCallId)).Nodup

variable {l since : List (TurnEvent V)} {e : TurnEvent V} {t : ℕ}

theorem isCurrent_concat :
    IsCurrent (l ++ [e]) t since ↔ (e = .turnStarted t ∧ since = []) ∨
      ∃ since', IsCurrent l t since' ∧ since = since' ++ [e] ∧ (∀ t', e ≠ .turnStarted t') ∧
        e ≠ .turnEnded t := by
  constructor
  · rintro ⟨before, hl, hstarts, hend⟩
    rcases eq_nil_or_concat' since with rfl | ⟨since', last, rfl⟩
    · obtain ⟨-, hlast⟩ := append_inj' hl rfl
      exact .inl ⟨(List.cons.inj hlast).1, rfl⟩
    · have hsplit : l ++ [e] = (before ++ .turnStarted t :: since') ++ [last] := by
        rw [hl, append_assoc, cons_append]
      obtain ⟨rfl, hlast⟩ := append_inj' hsplit rfl
      obtain rfl := (List.cons.inj hlast).1
      refine .inr ⟨since', ⟨before, rfl, ?_, ?_⟩, rfl, ?_, ?_⟩
      · exact fun t' h => hstarts t' (mem_append_left _ h)
      · exact fun h => hend (mem_append_left _ h)
      · rintro t' rfl
        exact hstarts t' (mem_append_right _ (.head _))
      · rintro rfl
        exact hend (mem_append_right _ (.head _))
  · rintro (⟨rfl, rfl⟩ | ⟨since', ⟨before, rfl, hstarts, hend⟩, rfl, hstart, hnot⟩)
    · exact ⟨l, rfl, fun _ => not_mem_nil, not_mem_nil⟩
    · refine ⟨before, by rw [append_assoc, cons_append], fun t' h => ?_, fun h => ?_⟩
      · rcases mem_append.1 h with h | h
        · exact hstarts t' h
        · exact hstart t' (mem_singleton.1 h).symm
      · rcases mem_append.1 h with h | h
        · exact hend h
        · exact hnot (mem_singleton.1 h).symm

theorem not_isCurrent_nil : ¬IsCurrent [] t since := by
  rintro ⟨before, h, -⟩
  exact absurd h.symm (append_ne_nil_of_right_ne_nil _ (cons_ne_nil _ _))

theorem IsCurrent.unique {since' : List (TurnEvent V)} {t' : ℕ}
    (h : IsCurrent l t since) (h' : IsCurrent l t' since') : t = t' ∧ since = since' := by
  induction l using reverseRecOn generalizing since since' with
  | nil => exact absurd h not_isCurrent_nil
  | append_singleton l e ih =>
    rcases isCurrent_concat.1 h with ⟨rfl, rfl⟩ | ⟨s, hs, rfl, hstart, -⟩
    · rcases isCurrent_concat.1 h' with ⟨he, rfl⟩ | ⟨s', -, -, hstart', -⟩
      · exact ⟨TurnEvent.turnStarted.inj he, rfl⟩
      · exact absurd rfl (hstart' t)
    · rcases isCurrent_concat.1 h' with ⟨he, -⟩ | ⟨s', hs', rfl, -, -⟩
      · exact absurd he (hstart t')
      · obtain ⟨ht, rfl⟩ := ih hs hs'
        exact ⟨ht, rfl⟩

theorem isRunning_concat {call : ToolCallStarted V} : IsRunning t (l ++ [e]) call ↔
      e = .toolCallStarted t call ∨ IsRunning t l call ∧ ¬Supersedes t call.toolCallId e := by
  constructor
  · rintro ⟨before, behind, hl, hbehind⟩
    rcases eq_nil_or_concat' behind with rfl | ⟨behind', last, rfl⟩
    · obtain ⟨-, hlast⟩ := append_inj' hl rfl
      exact .inl (List.cons.inj hlast).1
    · have hsplit : l ++ [e] = (before ++ .toolCallStarted t call :: behind') ++ [last] := by
        rw [hl, append_assoc, cons_append]
      obtain ⟨rfl, hlast⟩ := append_inj' hsplit rfl
      obtain rfl := (List.cons.inj hlast).1
      refine .inr ⟨⟨before, behind', rfl, fun e' h => ?_⟩, ?_⟩
      · exact hbehind e' (mem_append_left _ h)
      · exact hbehind e (mem_append_right _ (.head _))
  · rintro (rfl | ⟨⟨before, behind, rfl, hbehind⟩, hnot⟩)
    · exact ⟨l, [], rfl, fun _ h => absurd h not_mem_nil⟩
    · refine ⟨before, behind ++ [e], by rw [append_assoc, cons_append], fun e' h => ?_⟩
      rcases mem_append.1 h with h | h
      · exact hbehind e' h
      · rw [mem_singleton.1 h]
        exact hnot

theorem not_isRunning_nil {call : ToolCallStarted V} : ¬IsRunning t [] call := by
  rintro ⟨before, behind, h, -⟩
  exact absurd h.symm (append_ne_nil_of_right_ne_nil _ (cons_ne_nil _ _))

theorem IsStep.concat {inStep : List (TurnEvent V)}
    (h : IsStep t l inStep) (he : e ≠ .turnStepStarted t) :
    IsStep t (l ++ [e]) (inStep ++ [e]) := by
  obtain ⟨before, rfl, hnot, hbefore⟩ := h
  refine ⟨before, append_assoc _ _ _, fun hmem => ?_, hbefore⟩
  rcases mem_append.1 hmem with hmem | hmem
  · exact hnot hmem
  · exact he (mem_singleton.1 hmem).symm

theorem isStep_started (t : ℕ) (l : List (TurnEvent V)) : IsStep t (l ++ [.turnStepStarted t]) [] :=
  ⟨l ++ [.turnStepStarted t], (append_nil _).symm, not_mem_nil, .inr ⟨l, rfl⟩⟩

/-! ### What one event preserves -/

/-- The accumulator of a turn against the events since its start. -/
structure Streamed (turn : TurnAccum V) (since : List (TurnEvent V)) : Prop where
  assistant : turn.assistantText = since.flatMap (assistantDelta turn.turnId)
  thinking : turn.thinkingText = since.flatMap (thinkingDelta turn.turnId)
  step : ∃ inStep, IsStep turn.turnId since inStep ∧
    turn.stepAssistantText = inStep.flatMap (assistantDelta turn.turnId) ∧
    turn.stepThinkingText = inStep.flatMap (thinkingDelta turn.turnId)
  running : ∀ id call, (turn.tools.get id).map (·.call) = some call ↔
    call.toolCallId = id ∧ IsRunning turn.turnId since call

/-- The turn that is tracked is the current one. -/
def Matches (events : List (TurnEvent V)) : Option (TurnAccum V) → Prop
  | none => ∀ t since, ¬IsCurrent events t since
  | some turn => ∃ since, IsCurrent events turn.turnId since ∧ Streamed turn since

/-- **The end of a turn and the result of a running call are of the turn that is tracked.** -/
def Fits (turn : Option (TurnAccum V)) : TurnEvent V → Prop
  | .turnEnded turnId => ∀ t ∈ turn, t.turnId = turnId
  | .toolResult turnId toolCallId =>
    ∀ t ∈ turn, (t.tools.get toolCallId).isSome = true → t.turnId = turnId
  | _ => True

theorem streamed_start (turnId : ℕ) : Streamed (V := V) (TurnAccum.start turnId) [] where
  assistant := rfl
  thinking := rfl
  step := ⟨[], ⟨[], rfl, not_mem_nil, .inl rfl⟩, rfl, rfl⟩
  running := fun id call => by
    constructor
    · intro h
      cases h
    · exact fun h => absurd h.2 not_isRunning_nil

section

variable {turn turn' : TurnAccum V} {since : List (TurnEvent V)} {e : TurnEvent V}

/-- An event that begins no step: what each part of the accumulator has to make of it. -/
theorem Streamed.concat (h : Streamed turn since) (hid : turn'.turnId = turn.turnId)
    (hstep : e ≠ .turnStepStarted turn.turnId)
    (ha : turn'.assistantText = turn.assistantText ++ assistantDelta turn.turnId e)
    (ht : turn'.thinkingText = turn.thinkingText ++ thinkingDelta turn.turnId e)
    (hsa : turn'.stepAssistantText = turn.stepAssistantText ++ assistantDelta turn.turnId e)
    (hst : turn'.stepThinkingText = turn.stepThinkingText ++ thinkingDelta turn.turnId e)
    (hrunning : ∀ id call, (turn'.tools.get id).map (·.call) = some call ↔
      call.toolCallId = id ∧ e = .toolCallStarted turn.turnId call ∨
        (turn.tools.get id).map (·.call) = some call ∧ ¬Supersedes turn.turnId id e) :
    Streamed turn' (since ++ [e]) := by
  have hone : ∀ f : TurnEvent V → CodeUnits, ∀ l, (l ++ [e]).flatMap f = l.flatMap f ++ f e := by
    intro f l
    rw [flatMap_append, flatMap_singleton]
  obtain ⟨inStep, hin, hsa', hst'⟩ := h.step
  refine ⟨?_, ?_, ⟨inStep ++ [e], ?_, ?_, ?_⟩, fun id call => ?_⟩
  · rw [hid, hone, ha, h.assistant]
  · rw [hid, hone, ht, h.thinking]
  · rw [hid]
    exact hin.concat hstep
  · rw [hid, hone, hsa, hsa']
  · rw [hid, hone, hst, hst']
  · rw [hrunning, hid, isRunning_concat, h.running]
    constructor
    · rintro (⟨rfl, he⟩ | ⟨⟨rfl, hrun⟩, hnot⟩)
      · exact ⟨rfl, .inl he⟩
      · exact ⟨rfl, .inr ⟨hrun, hnot⟩⟩
    · rintro ⟨rfl, he | ⟨hrun, hnot⟩⟩
      · exact .inl ⟨rfl, he⟩
      · exact .inr ⟨⟨rfl, hrun⟩, hnot⟩

theorem Streamed.stepStarted (h : Streamed turn since) :
    Streamed { turn with stepAssistantText := [], stepThinkingText := [] }
      (since ++ [.turnStepStarted turn.turnId]) where
  assistant := by
    rw [flatMap_append, flatMap_singleton, ← h.assistant]
    exact (append_nil _).symm
  thinking := by
    rw [flatMap_append, flatMap_singleton, ← h.thinking]
    exact (append_nil _).symm
  step := ⟨[], isStep_started turn.turnId since, rfl, rfl⟩
  running := fun id call => by
    rw [h.running, isRunning_concat]
    refine and_congr_right fun _ => ⟨fun hrun => .inr ⟨hrun, ?_⟩, ?_⟩
    · rintro (⟨_, -, he⟩ | he) <;> cases he
    · rintro (he | ⟨hrun, -⟩)
      · cases he
      · exact hrun

/-- An event that is none of the turn's own. -/
def IsForeign (turn : TurnAccum V) : TurnEvent V → Prop
  | .turnStarted _ | .turnEnded _ => False
  | .turnStepStarted turnId | .assistantDelta turnId _ | .thinkingDelta turnId _
  | .toolCallStarted turnId _ => turn.turnId ≠ turnId
  | .toolResult turnId id => turn.turnId ≠ turnId ∧ turn.tools.get id = none
  | .toolProgress _ _ _ | .other => True

theorem IsForeign.ignored (h : IsForeign turn e) :
    e ≠ .turnStepStarted turn.turnId ∧ assistantDelta turn.turnId e = [] ∧
      thinkingDelta turn.turnId e = [] ∧ (∀ call, e ≠ .toolCallStarted turn.turnId call) ∧
      ∀ id, e ≠ .toolResult turn.turnId id := by
  cases e with
  | turnStarted | turnEnded => exact h.elim
  | turnStepStarted t =>
    refine ⟨fun he => h (TurnEvent.turnStepStarted.inj he).symm, rfl, rfl, ?_, ?_⟩
    · intro call he
      cases he
    · intro id he
      cases he
  | assistantDelta | thinkingDelta | toolCallStarted =>
    simp [assistantDelta, thinkingDelta, Ne.symm h]
  | toolProgress | other => simp [assistantDelta, thinkingDelta]
  | toolResult t id => simp [assistantDelta, thinkingDelta, Ne.symm h.1]

section

variable (h : Streamed turn since)

include h

theorem Streamed.foreign (he : IsForeign turn e) : Streamed turn (since ++ [e]) := by
  obtain ⟨hstep, ha, ht, hstart, hresult⟩ := he.ignored
  refine h.concat rfl hstep ?_ ?_ ?_ ?_ fun id call => ?_
  · rw [ha, append_nil]
  · rw [ht, append_nil]
  · rw [ha, append_nil]
  · rw [ht, append_nil]
  · constructor
    · refine fun hget => .inr ⟨hget, ?_⟩
      rintro (⟨again, -, he⟩ | he)
      · exact hstart again he
      · exact hresult id he
    · rintro (⟨-, he⟩ | ⟨hget, -⟩)
      · exact absurd he (hstart call)
      · exact hget

theorem Streamed.delta (delta : CodeUnits) :
    Streamed { turn with
      assistantText := turn.assistantText ++ delta
      stepAssistantText := turn.stepAssistantText ++ delta }
      (since ++ [.assistantDelta turn.turnId delta]) := by
  refine h.concat rfl (by intro he; cases he) ?_ (append_nil _).symm ?_
    (append_nil _).symm fun id call => ?_
  · rw [assistantDelta, if_pos rfl]
  · rw [assistantDelta, if_pos rfl]
  · simp [Supersedes]

theorem Streamed.thought (delta : CodeUnits) :
    Streamed { turn with
      thinkingText := turn.thinkingText ++ delta
      stepThinkingText := turn.stepThinkingText ++ delta }
      (since ++ [.thinkingDelta turn.turnId delta]) := by
  refine h.concat rfl (by intro he; cases he) (append_nil _).symm ?_
    (append_nil _).symm ?_ fun id call => ?_
  · rw [thinkingDelta, if_pos rfl]
  · rw [thinkingDelta, if_pos rfl]
  · simp [Supersedes]

theorem Streamed.callStarted (call : ToolCallStarted V) :
    Streamed { turn with tools := turn.tools.set call.toolCallId ⟨call, none⟩ }
      (since ++ [.toolCallStarted turn.turnId call]) := by
  refine h.concat rfl (by intro he; cases he) (append_nil _).symm (append_nil _).symm
    (append_nil _).symm (append_nil _).symm fun id again => ?_
  rw [OrdMap.get_set]
  by_cases hid : id = call.toolCallId
  · subst hid
    simp only [if_true, map_some, some.injEq, TurnEvent.toolCallStarted.injEq, true_and]
    constructor
    · rintro rfl
      exact .inl ⟨rfl, rfl⟩
    · rintro (⟨-, rfl⟩ | ⟨-, hnot⟩)
      · rfl
      · exact absurd (.inl ⟨call, rfl, rfl⟩) hnot
  · rw [if_neg hid]
    constructor
    · refine fun hget => .inr ⟨hget, ?_⟩
      rintro (⟨third, rfl, he⟩ | he)
      · exact hid (congrArg _ (TurnEvent.toolCallStarted.inj he).2.symm)
      · cases he
    · rintro (⟨rfl, he⟩ | ⟨hget, -⟩)
      · exact absurd (congrArg _ (TurnEvent.toolCallStarted.inj he).2.symm) hid
      · exact hget

theorem Streamed.result (id : String) : Streamed { turn with tools := turn.tools.erase id }
      (since ++ [.toolResult turn.turnId id]) := by
  refine h.concat rfl (by intro he; cases he) (append_nil _).symm (append_nil _).symm
    (append_nil _).symm (append_nil _).symm fun id' call => ?_
  rw [OrdMap.get_erase]
  by_cases hid : id' = id
  · simp [hid, Supersedes]
  · simp [hid, Supersedes, Ne.symm hid]

theorem Streamed.progress {id : String} {tool : ToolAccum V} (hget : turn.tools.get id = some tool)
    (turnId : ℕ) (update : ToolUpdate V) :
    Streamed { turn with tools := turn.tools.set id { tool with lastProgress := some update } }
      (since ++ [.toolProgress turnId id update]) := by
  refine h.concat rfl (by intro he; cases he) (append_nil _).symm (append_nil _).symm
    (append_nil _).symm (append_nil _).symm fun id' call => ?_
  rw [OrdMap.get_set]
  by_cases hid : id' = id
  · simp [hid, hget, Supersedes]
  · simp [hid, Supersedes]

/-- **The step lemma of a turn**: whatever comes, but its end and the start of another one. -/
theorem Streamed.advances (hfits : Fits (some turn) e) (hstart : ∀ t, e ≠ .turnStarted t)
    (hend : ∀ t, e ≠ .turnEnded t) :
    ∃ turn', advance (some turn) e = some turn' ∧ turn'.turnId = turn.turnId ∧
      Streamed turn' (since ++ [e]) := by
  cases e with
  | turnStarted t => exact absurd rfl (hstart t)
  | turnEnded t => exact absurd rfl (hend t)
  | turnStepStarted t =>
    by_cases hid : turn.turnId = t
    · subst hid
      exact ⟨_, congrArg some (if_pos rfl), rfl, h.stepStarted⟩
    · exact ⟨turn, congrArg some (if_neg hid), rfl, h.foreign hid⟩
  | assistantDelta t delta =>
    by_cases hid : turn.turnId = t
    · subst hid
      exact ⟨_, congrArg some (if_pos rfl), rfl, h.delta delta⟩
    · exact ⟨turn, congrArg some (if_neg hid), rfl, h.foreign hid⟩
  | thinkingDelta t delta =>
    by_cases hid : turn.turnId = t
    · subst hid
      exact ⟨_, congrArg some (if_pos rfl), rfl, h.thought delta⟩
    · exact ⟨turn, congrArg some (if_neg hid), rfl, h.foreign hid⟩
  | toolCallStarted t call =>
    by_cases hid : turn.turnId = t
    · subst hid
      exact ⟨_, congrArg some (if_pos rfl), rfl, h.callStarted call⟩
    · exact ⟨turn, congrArg some (if_neg hid), rfl, h.foreign hid⟩
  | toolProgress t id update =>
    cases hget : turn.tools.get id with
    | none => exact ⟨turn, by simp [advance, hget], rfl, h.foreign trivial⟩
    | some tool =>
      by_cases hkind : update.kind = .custom
      · exact ⟨turn, by simp [advance, hget, hkind], rfl, h.foreign trivial⟩
      · refine ⟨{ turn with
            tools := turn.tools.set id { tool with lastProgress := some update } },
          ?_, rfl, h.progress hget t update⟩
        simp [advance, hget, if_neg hkind]
  | toolResult t id =>
    refine ⟨{ turn with tools := turn.tools.erase id }, rfl, rfl, ?_⟩
    by_cases hid : turn.turnId = t
    · subst hid
      exact h.result id
    · -- the result of another turn is of no call that runs, and erases nothing
      have hnone : turn.tools.get id = none := by
        by_contra hsome
        exact hid (hfits turn rfl (isSome_iff_ne_none.2 hsome))
      rw [OrdMap.erase_of_get_eq_none hnone]
      exact h.foreign ⟨hid, hnone⟩
  | other => exact ⟨turn, rfl, rfl, h.foreign trivial⟩

end

/-- **What one event of the agent preserves.** -/
theorem Matches.step {l : List (TurnEvent V)} {turn : Option (TurnAccum V)}
    (h : Matches l turn) (hfits : Fits turn e) : Matches (l ++ [e]) (advance turn e) := by
  by_cases hstarted : ∃ t, e = .turnStarted t
  · obtain ⟨t, rfl⟩ := hstarted
    exact ⟨[], isCurrent_concat.2 (.inl ⟨rfl, rfl⟩), streamed_start t⟩
  have hstart : ∀ t, e ≠ .turnStarted t := not_exists.1 hstarted
  cases turn with
  | none =>
    have hnone : advance (none : Option (TurnAccum V)) e = none := by
      cases e with
      | turnStarted t => exact absurd rfl (hstart t)
      | _ => rfl
    rw [hnone]
    intro t since hcurrent
    rcases isCurrent_concat.1 hcurrent with ⟨he, -⟩ | ⟨since', hcurrent', -⟩
    · exact hstart t he
    · exact h t since' hcurrent'
  | some turn =>
    obtain ⟨since, hcurrent, hstreamed⟩ := h
    by_cases hended : ∃ t, e = .turnEnded t
    · obtain ⟨t, rfl⟩ := hended
      obtain rfl : turn.turnId = t := hfits turn rfl
      intro t' since' hcurrent'
      rcases isCurrent_concat.1 hcurrent' with ⟨he, -⟩ | ⟨since'', hcurrent'', -, -, hnot⟩
      · cases he
      · exact hnot (by rw [(hcurrent.unique hcurrent'').1])
    · have hend : ∀ t, e ≠ .turnEnded t := not_exists.1 hended
      obtain ⟨turn', hturn', hid, hstreamed'⟩ := hstreamed.advances hfits hstart hend
      rw [hturn']
      refine ⟨since ++ [e], ?_, hstreamed'⟩
      rw [hid]
      exact isCurrent_concat.2 (.inr ⟨since, hcurrent, rfl, hstart, hend turn.turnId⟩)

end

/-! ### Runs -/

/-- An event of a session. -/
abbrev SessionEvent (V : Type) := String × Event V

def step (tracker : Tracker V) (e : SessionEvent V) : Option (Tracker V) :=
  some (tracker.apply e.1 e.2).1

/-- The condition on a step, for the agent the event is of. -/
def StepFits (tracker : Tracker V) (e : SessionEvent V) : Prop :=
  Fits (tracker.find e.1 e.2.agentId) e.2.event

/-- The events of one agent of one session. -/
def eventsOf (sessionId agentId : String) (events : List (SessionEvent V)) : List (TurnEvent V) :=
  (events.filter fun e => e.1 = sessionId ∧ e.2.agentId = agentId).map (·.2.event)

theorem matches_of_run {events : List (SessionEvent V)}
    (h : LibRun.Run step StepFits Tracker.empty events tracker) (s a : String) :
    Matches (eventsOf s a events) (tracker.find s a) := by
  induction h generalizing s a with
  | nil => exact fun t since => not_isCurrent_nil
  | @snoc tracker tracker' events e _ hfits hstep ih =>
    cases hstep
    rw [find_apply]
    by_cases hkey : s = e.1 ∧ a = e.2.agentId
    · obtain ⟨rfl, rfl⟩ := hkey
      have hevents : eventsOf e.1 e.2.agentId (events ++ [e]) =
          eventsOf e.1 e.2.agentId events ++ [e.2.event] := by
        simp [eventsOf]
      rw [if_pos ⟨rfl, rfl⟩, hevents]
      exact (ih e.1 e.2.agentId).step hfits
    · have hevents : eventsOf s a (events ++ [e]) = eventsOf s a events := by
        have hnot : ¬(e.1 = s ∧ e.2.agentId = a) := fun h => hkey ⟨h.1.symm, h.2.symm⟩
        simp [eventsOf, hnot]
      rw [if_neg hkey, hevents]
      exact ih s a

theorem Streamed.map_toolCallId {turn : TurnAccum V}
    (h : Streamed turn since) : turn.tools.values.map (·.call.toolCallId) = turn.tools.keys := by
  unfold OrdMap.values OrdMap.keys
  rw [List.map_map]
  refine List.map_congr_left fun e he => ?_
  have hget := OrdMap.get_eq_some.2 he
  exact ((h.running e.1 e.2.call).1 (by rw [hget]; rfl)).1

theorem Streamed.mem_values {turn : TurnAccum V}
    (h : Streamed turn since) (call : ToolCallStarted V) :
    call ∈ turn.tools.values.map (·.call) ↔ IsRunning turn.turnId since call := by
  constructor
  · intro hmem
    obtain ⟨tool, htool, rfl⟩ := mem_map.1 hmem
    obtain ⟨id, hget⟩ := OrdMap.mem_values.1 htool
    exact ((h.running id tool.call).1 (by rw [hget]; rfl)).2
  · intro hrun
    obtain ⟨tool, hget, rfl⟩ := map_eq_some_iff.1 ((h.running _ call).2 ⟨rfl, hrun⟩)
    exact mem_map_of_mem (OrdMap.mem_values.2 ⟨_, hget⟩)

/-- The offset that an event gets: the length of the text its turn had streamed before it. -/
def IsOffset (events : List (TurnEvent V)) (e : TurnEvent V) (offset : ℕ) : Prop :=
  ∃ turnId since, IsCurrent events turnId since ∧
    ((∃ delta, e = .assistantDelta turnId delta ∧
        offset = (since.flatMap (assistantDelta turnId)).length) ∨
      ∃ delta, e = .thinkingDelta turnId delta ∧
        offset = (since.flatMap (thinkingDelta turnId)).length)

theorem Matches.stamp_eq_some {turn : Option (TurnAccum V)}
    (h : Matches l turn) {n : ℕ} : stamp turn e = some n ↔ IsOffset l e n := by
  constructor
  · intro hstamp
    cases turn with
    | none => cases e <;> cases hstamp
    | some turn =>
      obtain ⟨since, hcurrent, hstreamed⟩ := h
      refine ⟨turn.turnId, since, hcurrent, ?_⟩
      cases e with
      | assistantDelta t delta =>
        obtain ⟨turn', hturn', rfl⟩ := map_eq_some_iff.1 hstamp
        obtain ⟨heq, hid⟩ := filter_eq_some_iff.1 hturn'
        cases heq
        obtain rfl := of_decide_eq_true hid
        exact .inl ⟨delta, rfl, congrArg List.length hstreamed.assistant⟩
      | thinkingDelta t delta =>
        obtain ⟨turn', hturn', rfl⟩ := map_eq_some_iff.1 hstamp
        obtain ⟨heq, hid⟩ := filter_eq_some_iff.1 hturn'
        cases heq
        obtain rfl := of_decide_eq_true hid
        exact .inr ⟨delta, rfl, congrArg List.length hstreamed.thinking⟩
      | _ => cases hstamp
  · rintro ⟨t, since, hcurrent, hdelta⟩
    cases turn with
    | none => exact absurd hcurrent (h t since)
    | some turn =>
      obtain ⟨since', hcurrent', hstreamed⟩ := h
      obtain ⟨rfl, rfl⟩ := hcurrent.unique hcurrent'
      rcases hdelta with ⟨delta, rfl, rfl⟩ | ⟨delta, rfl, rfl⟩
      · simp [stamp, hstreamed.assistant]
      · simp [stamp, hstreamed.thinking]

/-- **The snapshot of an agent is what was streamed since its turn started**, there is one exactly
when a turn has started and not ended, and a delta is stamped with the length of the text of its
turn. -/
theorem tracker_describes {events : List (SessionEvent V)} {tracker : Tracker V}
    (h : LibRun.Run step StepFits Tracker.empty events tracker) (s a : String) :
    ((tracker.get s a).isSome = true ↔
        ∃ turnId since, IsCurrent (eventsOf s a events) turnId since) ∧
      (∀ turn ∈ tracker.get s a, Describes (eventsOf s a events) turn) ∧
      ∀ e n, (tracker.apply s ⟨a, e⟩).2.offset = some n ↔ IsOffset (eventsOf s a events) e n := by
  have hmatches := matches_of_run h s a
  have hget : tracker.get s a = (tracker.find s a).map fun turn =>
      { turnId := turn.turnId
        assistantText := turn.assistantText
        thinkingText := turn.thinkingText
        stepAssistantText := turn.stepAssistantText
        stepThinkingText := turn.stepThinkingText
        runningTools := turn.tools.values } := by
    rw [Tracker.get, bind_get_eq_find]
  refine ⟨?_, fun turn hturn => ?_, fun e n => ?_⟩
  · rw [hget, Option.isSome_map]
    cases hfind : tracker.find s a with
    | none =>
      rw [hfind] at hmatches
      simp only [Option.isSome_none, Bool.false_eq_true, false_iff, not_exists]
      exact hmatches
    | some turn =>
      rw [hfind] at hmatches
      obtain ⟨since, hcurrent, -⟩ := hmatches
      exact iff_of_true rfl ⟨_, since, hcurrent⟩
  · rw [hget] at hturn
    obtain ⟨accum, hfind, rfl⟩ := Option.map_eq_some_iff.1 hturn
    rw [hfind] at hmatches
    obtain ⟨since, hcurrent, hstreamed⟩ := hmatches
    refine ⟨⟨since, hcurrent, hstreamed.assistant, hstreamed.thinking, hstreamed.step,
      hstreamed.mem_values⟩, ?_⟩
    rw [hstreamed.map_toolCallId]
    exact accum.tools.nodup
  · rw [apply_offset]
    exact hmatches.stamp_eq_some

def readCall : ToolCallStarted Unit := ⟨"t", "Read", (), none, none⟩

/-- A turn with a running call and some text. -/
def startedCall : List (SessionEvent Unit) :=
  [("s", ⟨"main", .turnStarted 2⟩), ("s", ⟨"main", .toolCallStarted 2 readCall⟩),
    ("s", ⟨"main", .assistantDelta 2 [104, 105]⟩)]

theorem tracker_describes_startedCall : ∃ tracker,
    LibRun.exec step Tracker.empty startedCall = some tracker ∧
      (tracker.apply "s" ⟨"main", .assistantDelta 2 [33]⟩).2.offset = some 2 ∧
      IsOffset (eventsOf "s" "main" startedCall) (.assistantDelta 2 [33]) 2 := by
  have hlegal : LibRun.Legal step StepFits (Tracker.empty (V := Unit)) startedCall :=
    ⟨trivial, fun _ _ => ⟨trivial, fun _ _ => ⟨trivial, fun _ _ => trivial⟩⟩⟩
  refine ⟨_, rfl, by decide, ?_⟩
  exact ((tracker_describes (LibRun.run_of_exec rfl hlegal) "s" "main").2.2 _ _).1 (by decide)

/-- **The result of another turn's call ends the call that runs**, if the two have one id. -/
theorem result_of_another_turn : ¬∀ (events : List (SessionEvent Unit)) (tracker : Tracker Unit),
    LibRun.Run step LibRun.always Tracker.empty events tracker → ∀ s a,
      ∀ turn ∈ tracker.get s a, Describes (eventsOf s a events) turn := by
  intro h
  have hdescribes := h (startedCall ++ [("s", ⟨"main", .toolResult 1 "t"⟩)]) _
    (LibRun.run_of_exec rfl (LibRun.legal_always _ _)) "s" "main" _ rfl
  obtain ⟨⟨since, hcurrent, -, -, -, hrunning⟩, -⟩ := hdescribes
  have hsince : IsCurrent
      (eventsOf "s" "main" (startedCall ++ [("s", ⟨"main", .toolResult 1 "t"⟩)]))
      2 [.toolCallStarted 2 readCall, .assistantDelta 2 [104, 105], .toolResult 1 "t"] :=
    ⟨[], rfl, fun t ht => by simp at ht, by decide⟩
  obtain ⟨hid, rfl⟩ := hcurrent.unique hsince
  rw [hid] at hrunning
  refine List.not_mem_nil ((hrunning readCall).2 ⟨[], _, rfl, ?_⟩)
  rintro e he (⟨call, -, rfl⟩ | rfl)
  · simp at he
  · simp [readCall] at he

end NoriCode.InFlightTurns
