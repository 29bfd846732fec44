/-
**The exchanges of a history.**

A tool call is answered by a tool message in the run of tool messages behind its assistant message.
The comment of the class `ContextMemory` states its invariant: *the history contains no unresolved
tool call exchange except at the tail, and then the pending ids are the missing ones*.  Every
operation keeps it, except a tool call that is written to a step which is no longer the tail, or
that has its result already, histories that are copied in with calls that wait, and the restored
compaction of an old version that cuts such an exchange off its pending ids.

Main definitions:

* `ResolvedBeforeTail`, `tailUnanswered` — the two halves of the invariant;
* `ExchangeInvariant` — the invariant of the class;
* `MemoryOp`, `KeepsExchange` — the operations, live and while a log is restored,
  and the condition on them.

Main results:

* `ExchangeState.operate` — one operation;
* `exchange_invariant` — **the invariant holds in every state that is reached**.
-/

import NoriCode.ContextSteps

namespace NoriCode

open LibOrdSet List Option ContextMemory ContextMessage

/-! ### Exchanges -/

namespace ContextMessage

def isTool (m : ContextMessage) : Bool := m.role == .tool

/-- The calls of an assistant message. -/
def calls (m : ContextMessage) : List String := if m.role = .assistant then m.callIds else []

/-- The call a tool message answers. -/
def answers (m : ContextMessage) : Option String := if m.role = .tool then m.toolCallId else none

/-- A message that neither calls nor answers. -/
def IsPlain (m : ContextMessage) : Prop := m.role ≠ .tool ∧ m.calls = []

instance (m : ContextMessage) : Decidable m.IsPlain :=
  inferInstanceAs (Decidable (m.role ≠ .tool ∧ m.calls = []))

end ContextMessage

open ContextMessage

/-- The calls of a message that none of the results answers. -/
def unanswered (m : ContextMessage) (results : List ContextMessage) : List String :=
  m.calls.filter fun id => id ∉ results.filterMap answers

/-- **The calls of the tail exchange that have no result.**  The tail exchange is the last message
that is no tool message, with the tool messages behind it. -/
def tailUnanswered : List ContextMessage → List String
  | [] => []
  | m :: rest => if rest.all isTool then unanswered m rest else tailUnanswered rest

/-- **Every call in front of the tail exchange is answered**, by the run of tool messages behind
its message. -/
def ResolvedBeforeTail : List ContextMessage → Prop
  | [] => True
  | m :: rest =>
    (rest.all isTool = true ∨ unanswered m (rest.takeWhile isTool) = []) ∧ ResolvedBeforeTail rest

/-- Every call is answered. -/
def AllAnswered : List ContextMessage → Prop
  | [] => True
  | m :: rest => unanswered m (rest.takeWhile isTool) = [] ∧ AllAnswered rest

instance ResolvedBeforeTail.decidable : (ms : List ContextMessage) →
    Decidable (ResolvedBeforeTail ms)
  | [] => inferInstanceAs (Decidable True)
  | m :: rest =>
    have := ResolvedBeforeTail.decidable rest
    inferInstanceAs (Decidable ((rest.all isTool = true ∨
      unanswered m (rest.takeWhile isTool) = []) ∧ ResolvedBeforeTail rest))

instance AllAnswered.decidable : (ms : List ContextMessage) → Decidable (AllAnswered ms)
  | [] => inferInstanceAs (Decidable True)
  | m :: rest =>
    have := AllAnswered.decidable rest
    inferInstanceAs (Decidable (unanswered m (rest.takeWhile isTool) = [] ∧ AllAnswered rest))

/-! ### Small facts about exchanges -/

variable {m x : ContextMessage} {ms rs : List ContextMessage}

theorem calls_of_isTool (h : m.isTool = true) : m.calls = [] := by
  have hrole : m.role = .tool := by simpa [isTool] using h
  simp [calls, hrole]

theorem unanswered_of_calls_eq_nil (h : m.calls = []) (rs : List ContextMessage) :
    unanswered m rs = [] := by
  simp [unanswered, h]

theorem ContextMessage.IsPlain.not_isTool (h : m.IsPlain) : m.isTool = false := by
  simp [isTool, h.1]

theorem unanswered_append (m : ContextMessage) (rs rs' : List ContextMessage) :
    unanswered m (rs ++ rs') = (unanswered m rs).filter fun id => id ∉ rs'.filterMap answers := by
  simp only [unanswered, List.filterMap_append, List.filter_filter, List.mem_append, not_or,
    Bool.decide_and]
  refine List.filter_congr fun id _ => ?_
  rw [Bool.and_comm]

theorem unanswered_append_eq_nil (h : unanswered m rs = []) (rs' : List ContextMessage) :
    unanswered m (rs ++ rs') = [] := by
  simp [unanswered_append, h]

theorem tailUnanswered_of_all_isTool (h : ms.all isTool = true) : tailUnanswered ms = [] := by
  cases ms with
  | nil => rfl
  | cons m rest =>
    obtain ⟨hm, hrest⟩ := Bool.and_eq_true_iff.1 h
    rw [tailUnanswered, if_pos hrest]
    exact unanswered_of_calls_eq_nil (calls_of_isTool hm) rest

theorem takeWhile_append_of_all (h : ms.all isTool = true)
    (rs : List ContextMessage) :
    (ms ++ rs).takeWhile isTool = ms ++ rs.takeWhile isTool := by
  induction ms with
  | nil => rfl
  | cons m rest ih =>
    obtain ⟨hm, hrest⟩ := Bool.and_eq_true_iff.1 h
    rw [cons_append, takeWhile_cons_of_pos hm, ih hrest, cons_append]

theorem takeWhile_append_of_not_all (h : ms.all isTool = false) :
    (ms ++ rs).takeWhile isTool = ms.takeWhile isTool := by
  induction ms with
  | nil => cases h
  | cons m rest ih =>
    cases hm : m.isTool with
    | false => rw [cons_append, takeWhile_cons_of_neg, takeWhile_cons_of_neg] <;>
        simp [hm]
    | true =>
      have hrest : rest.all isTool = false := by simpa [hm] using h
      rw [cons_append, takeWhile_cons_of_pos hm, takeWhile_cons_of_pos hm, ih hrest]

theorem takeWhile_of_all (h : ms.all isTool = true) : ms.takeWhile isTool = ms := by
  simpa using takeWhile_append_of_all h []

theorem allAnswered_iff : AllAnswered ms ↔ ResolvedBeforeTail ms ∧ tailUnanswered ms = [] := by
  induction ms with
  | nil => simp [AllAnswered, ResolvedBeforeTail, tailUnanswered]
  | cons m rest ih =>
    rw [AllAnswered, ResolvedBeforeTail, tailUnanswered, ih]
    cases hall : rest.all isTool with
    | true =>
      simp only [takeWhile_of_all hall, tailUnanswered_of_all_isTool hall, if_true, true_or,
        true_and, and_true]
      exact and_comm
    | false => simp [and_assoc]

theorem AllAnswered.append (h : AllAnswered ms) (h' : AllAnswered rs) : AllAnswered (ms ++ rs) := by
  induction ms with
  | nil => exact h'
  | cons m rest ih =>
    obtain ⟨hm, hrest⟩ := h
    refine ⟨?_, ih hrest⟩
    cases hall : rest.all isTool with
    | true =>
      rw [takeWhile_of_all hall] at hm
      rw [append_eq, takeWhile_append_of_all hall]
      exact unanswered_append_eq_nil hm _
    | false => rwa [append_eq, takeWhile_append_of_not_all hall]

theorem AllAnswered.of_plain (h : ∀ m ∈ ms, m.IsPlain) : AllAnswered ms := by
  induction ms with
  | nil => trivial
  | cons m rest ih =>
    obtain ⟨hm, hrest⟩ := forall_mem_cons.1 h
    exact ⟨unanswered_of_calls_eq_nil hm.2 _, ih hrest⟩

theorem ResolvedBeforeTail.front_of_append (h : ResolvedBeforeTail (ms ++ rs)) :
    ResolvedBeforeTail ms := by
  induction ms with
  | nil => trivial
  | cons m rest ih =>
    obtain ⟨hm, hrest⟩ := h
    refine ⟨?_, ih hrest⟩
    cases hall : rest.all isTool with
    | true => exact Or.inl rfl
    | false =>
      have hrun := hm.resolve_left (by simp [hall])
      rw [append_eq, takeWhile_append_of_not_all hall] at hrun
      exact Or.inr hrun

theorem AllAnswered.drop (h : AllAnswered ms) (n : ℕ) : AllAnswered (ms.drop n) := by
  induction n generalizing ms with
  | zero => exact h
  | succ n ih =>
    cases ms with
    | nil => trivial
    | cons m rest => exact ih h.2

/-- Everything in front of a message that is no tool message is answered. -/
theorem ResolvedBeforeTail.front {post : List ContextMessage}
    (h : ResolvedBeforeTail (ms ++ x :: post)) (hx : x.isTool = false) : AllAnswered ms := by
  induction ms with
  | nil => trivial
  | cons m rest ih =>
    obtain ⟨hm, hrest⟩ := h
    refine ⟨?_, ih hrest⟩
    have hrun := hm.resolve_left (by simp [hx])
    cases hall : rest.all isTool with
    | true =>
      rw [append_eq, takeWhile_append_of_all hall,
        takeWhile_cons_of_neg (by simp [hx]), append_nil] at hrun
      rwa [takeWhile_of_all hall]
    | false => rwa [append_eq, takeWhile_append_of_not_all hall] at hrun

theorem tailUnanswered_append_tool (hx : x.isTool = true) :
    tailUnanswered (ms ++ [x]) = (tailUnanswered ms).filter fun id => id ∉ x.answers.toList := by
  induction ms with
  | nil => simp [tailUnanswered, unanswered_of_calls_eq_nil (calls_of_isTool hx)]
  | cons m rest ih =>
    rw [cons_append, tailUnanswered, tailUnanswered, ih]
    cases hall : rest.all isTool with
    | true =>
      have hx' : [x].filterMap answers = x.answers.toList := by
        cases ha : x.answers <;> simp [ha]
      rw [if_pos (by simp [hall, hx]), if_pos rfl, unanswered_append, hx']
    | false => rw [if_neg (by simp [hall]), if_neg Bool.false_ne_true]

theorem ResolvedBeforeTail.append_tool (h : ResolvedBeforeTail ms) (hx : x.isTool = true) :
    ResolvedBeforeTail (ms ++ [x]) := by
  induction ms with
  | nil => exact ⟨Or.inl rfl, trivial⟩
  | cons m rest ih =>
    obtain ⟨hm, hrest⟩ := h
    refine ⟨?_, ih hrest⟩
    cases hall : rest.all isTool with
    | true => exact Or.inl (by simp [hall, hx])
    | false =>
      refine Or.inr ?_
      rw [append_eq, takeWhile_append_of_not_all hall]
      exact hm.resolve_left (by simp [hall])

theorem tailUnanswered_append_cons (hx : x.isTool = false)
    (hrs : rs.all isTool = true) :
    tailUnanswered (ms ++ x :: rs) = unanswered x rs := by
  induction ms with
  | nil => rw [nil_append, tailUnanswered, if_pos hrs]
  | cons m rest ih => rw [cons_append, tailUnanswered, if_neg (by simp [hx]), ih]

/-- The message of the tail exchange may change, as long as it stays no tool message. -/
theorem ResolvedBeforeTail.replace {y : ContextMessage} (h : ResolvedBeforeTail (ms ++ x :: rs))
    (hx : x.isTool = false) (hy : y.isTool = false)
    (hrs : rs.all isTool = true) : ResolvedBeforeTail (ms ++ y :: rs) := by
  induction ms with
  | nil => exact ⟨Or.inl hrs, h.2⟩
  | cons m rest ih =>
    obtain ⟨hm, hrest⟩ := h
    refine ⟨Or.inr ?_, ih hrest⟩
    have hrun := hm.resolve_left (by simp [hx])
    cases hall : rest.all isTool with
    | true =>
      rw [append_eq, takeWhile_append_of_all hall, takeWhile_cons_of_neg (by simp [hx])] at hrun
      rwa [append_eq, takeWhile_append_of_all hall, takeWhile_cons_of_neg (by simp [hy])]
    | false =>
      rw [append_eq, takeWhile_append_of_not_all hall] at hrun ⊢
      exact hrun

/-- What the exchanges depend on. -/
def ContextMessage.shape (m : ContextMessage) : Bool × List String × Option String :=
  (m.isTool, m.calls, m.answers)

theorem exchanges_congr {ms' : List ContextMessage}
    (h : ms.map shape = ms'.map shape) :
    (ResolvedBeforeTail ms ↔ ResolvedBeforeTail ms') ∧ tailUnanswered ms = tailUnanswered ms' := by
  have hall : ∀ {l l' : List ContextMessage},
      l.map shape = l'.map shape → l.all isTool = l'.all isTool := by
    intro l l' hl
    have hp := congrArg (List.all · Prod.fst) hl
    simpa [List.all_map, Function.comp_def, shape] using hp
  have htake : ∀ {l l' : List ContextMessage},
      l.map shape = l'.map shape →
        (l.takeWhile isTool).map shape = (l'.takeWhile isTool).map shape := by
    intro l l' hl
    have hp := congrArg (List.takeWhile Prod.fst) hl
    simpa [List.takeWhile_map, Function.comp_def, shape] using hp
  have hun : ∀ {m m' : ContextMessage} {l l' : List ContextMessage}, m.shape = m'.shape →
      l.map shape = l'.map shape → unanswered m l = unanswered m' l' := by
    intro m m' l l' hm hl
    have hcalls : m.calls = m'.calls := congrArg (fun s => s.2.1) hm
    have hanswers := congrArg (List.filterMap fun s => s.2.2) hl
    rw [List.filterMap_map, List.filterMap_map] at hanswers
    rw [unanswered, unanswered, hcalls]
    exact congrArg (fun l => m'.calls.filter fun id => decide (id ∉ l)) hanswers
  induction ms generalizing ms' with
  | nil =>
    obtain rfl : ms' = [] := List.map_eq_nil_iff.1 h.symm
    exact ⟨Iff.rfl, rfl⟩
  | cons m rest ih =>
    cases ms' with
    | nil => simp at h
    | cons m' rest' =>
      obtain ⟨hm, hrest⟩ := List.cons_eq_cons.1 h
      obtain ⟨ih₁, ih₂⟩ := ih hrest
      rw [ResolvedBeforeTail, ResolvedBeforeTail, tailUnanswered, tailUnanswered, hall hrest,
        hun hm (htake hrest), hun hm hrest, ih₁, ih₂]
      exact ⟨Iff.rfl, rfl⟩

theorem origin_of_isInjection (h : m.isInjection = true) : m.origin ≠ none := by
  intro hnone
  simp [isInjection, originKind, hnone] at h

theorem origin_of_isCompactionSummary (h : m.isCompactionSummary = true) : m.origin ≠ none := by
  intro hnone
  simp [isCompactionSummary, originKind, hnone] at h

theorem isPlain_of_isRealUserInput (h : isRealUserInput m = true) : m.IsPlain := by
  simp only [isRealUserInput, Bool.and_eq_true, beq_iff_eq] at h
  simp [ContextMessage.IsPlain, calls, h.1]

/-! ### The invariant -/

/-- **The invariant of the class.** -/
structure ExchangeInvariant (c : ContextMemory) : Prop where
  resolved : ResolvedBeforeTail c.messages
  pending : ∀ id, id ∈ c.pendingToolResultIds ↔ id ∈ tailUnanswered c.messages

/-- **What every operation keeps**: the invariant, and what it rests on.  Messages with an origin
and deferred messages neither call nor answer. -/
structure ExchangeState (c : ContextMemory) : Prop extends ExchangeInvariant c, StepEntries c where
  origins : ∀ m ∈ c.messages, m.origin ≠ none → m.IsPlain
  deferred : ∀ m ∈ c.deferredMessages, m.IsPlain

namespace ExchangeState

variable {c d : ContextMemory}

theorem allAnswered (h : ExchangeState c) (hc : c.hasOpenToolExchange = false) :
    AllAnswered c.messages := by
  refine allAnswered_iff.2 ⟨h.resolved, eq_nil_iff_forall_not_mem.2 fun id hid => ?_⟩
  have hempty : c.pendingToolResultIds.isEmpty = true := by
    simpa [hasOpenToolExchange] using hc
  exact OrdSet.isEmpty_iff.1 hempty id ((h.pending id).2 hid)

theorem of_allAnswered (h : AllAnswered c.messages) (hc : c.hasOpenToolExchange = false) :
    ExchangeInvariant c := by
  obtain ⟨hres, htail⟩ := allAnswered_iff.1 h
  have hempty : c.pendingToolResultIds.isEmpty = true := by
    simpa [hasOpenToolExchange] using hc
  refine ⟨hres, fun id => ?_⟩
  rw [htail]
  simpa using OrdSet.isEmpty_iff.1 hempty id

theorem core_messages (h : d.history.map HistoryEntry.core = c.history.map HistoryEntry.core) :
    d.messages = c.messages := by
  have hm := congrArg (List.map Prod.fst) h
  simpa [messages, HistoryEntry.core, Function.comp_def] using hm

/-- Estimates, the counts, the open steps and the transient reminder do not matter. -/
theorem congr (h : ExchangeState c)
    (hcore : d.history.map HistoryEntry.core = c.history.map HistoryEntry.core)
    (hpending : d.pendingToolResultIds = c.pendingToolResultIds)
    (hdeferred : d.deferredMessages = c.deferredMessages) (hnext : d.nextStep = c.nextStep) :
    ExchangeState d where
  resolved := core_messages hcore ▸ h.resolved
  pending := by rw [hpending, core_messages hcore]; exact h.pending
  origins := by rw [core_messages hcore]; exact h.origins
  deferred := hdeferred ▸ h.deferred
  toStepEntries := h.toStepEntries.congr hcore hnext

/-- A history of old messages and of messages that neither call nor answer, with nothing
deferred. -/
theorem of_subset (h : ExchangeState c) {extra : List ContextMessage}
    (hextra : ∀ m ∈ extra, m.IsPlain) (hmsgs : ∀ m ∈ d.messages, m ∈ extra ∨ m ∈ c.messages)
    (hdef : d.deferredMessages = []) (hsteps : StepEntries d) (hinv : ExchangeInvariant d) :
    ExchangeState d :=
  { hinv, hsteps with
    origins := fun m hm ho => (hmsgs m hm).elim (hextra m) fun hc => h.origins m hc ho
    deferred := by simp [hdef] }

/-! ### Appending and results -/

section

variable (h : ExchangeState c)

include h

theorem pushHistory (hc : c.hasOpenToolExchange = false) {ms : List ContextMessage}
    (hms : AllAnswered ms) (horigins : ∀ m ∈ ms, m.origin ≠ none → m.IsPlain) :
    ExchangeState (c.pushHistory ms) where
  toExchangeInvariant := by
    refine of_allAnswered ?_ hc
    rw [messages_pushHistory]
    exact (h.allAnswered hc).append hms
  origins := by
    rw [messages_pushHistory]
    exact fun m hm => (mem_append.1 hm).elim (h.origins m) (horigins m)
  deferred := h.deferred
  toStepEntries := h.toStepEntries.pushHistory ms

theorem flush : ExchangeState c.flushDeferredMessagesIfToolExchangeClosed := by
  unfold flushDeferredMessagesIfToolExchangeClosed
  split_ifs with hopen
  · exact h
  · have hpush := h.pushHistory (by simpa using hopen) (AllAnswered.of_plain h.deferred)
      fun m hm _ => h.deferred m hm
    exact { hpush with deferred := by simp }

theorem append (hm : m.IsPlain) : ExchangeState (c.append m) := by
  unfold ContextMemory.append
  split_ifs with hopen
  · refine { h with deferred := ?_ }
    intro x hx
    rcases mem_append.1 hx with hx | hx
    · exact h.deferred x hx
    · exact mem_singleton.1 hx ▸ hm
  · refine h.pushHistory (by simpa using hopen) (AllAnswered.of_plain ?_) ?_ <;> simp [hm]

theorem answer (id : String) (result : ExecutableToolResult) :
    ExchangeState (c.answer id result) := by
  have htool : (toolResultMessage id result).isTool = true := rfl
  have hanswers : (toolResultMessage id result).answers = some id := rfl
  have hmsgs : (c.answer id result).messages = c.messages ++ [toolResultMessage id result] :=
    messages_pushHistory c _
  refine {
    resolved := hmsgs ▸ h.resolved.append_tool htool
    pending := fun x => ?_
    origins := fun m hm horigin => ?_
    deferred := h.deferred
    toStepEntries := h.toStepEntries.answer id result }
  · have hpending : (c.answer id result).pendingToolResultIds = c.pendingToolResultIds.erase id :=
      rfl
    rw [hpending, hmsgs, tailUnanswered_append_tool htool, hanswers]
    simp [h.pending]
  · rw [hmsgs, mem_append, mem_singleton] at hm
    rcases hm with hm | rfl
    · exact h.origins m hm horigin
    · exact absurd rfl horigin

theorem toolResult (id : String) (result : ExecutableToolResult) :
    ExchangeState (c.toolResult id result) := by
  unfold ContextMemory.toolResult
  split_ifs
  · exact (h.answer id result).flush
  · exact h

theorem closePending : ExchangeState c.closePending :=
  closePending_rule h fun _ h id => h.toolResult id interruptedResult

end

/-! ### Steps -/

theorem beginStep (h : ExchangeState c) (hc : c.hasOpenToolExchange = false) (uuid : String) :
    ExchangeState (c.beginStep uuid) := by
  have hmsgs : (c.beginStep uuid).messages = c.messages ++ [stepMessage] := by
    simp [ContextMemory.messages, ContextMemory.beginStep]
  have hplain : ∀ m ∈ [stepMessage], m.IsPlain := by decide
  refine {
    toExchangeInvariant := ?_
    toStepEntries := h.toStepEntries.beginStep uuid
    origins := fun m hm horigin => ?_
    deferred := h.deferred }
  · refine of_allAnswered ?_ hc
    rw [hmsgs]
    exact (h.allAnswered hc).append (AllAnswered.of_plain hplain)
  · rw [hmsgs, mem_append] at hm
    exact hm.elim (fun hm => h.origins m hm horigin) (hplain m)

theorem updateStep (h : ExchangeState c) (n : ℕ) {f : ContextMessage → ContextMessage}
    (hf : ∀ m, (f m).role = m.role ∧ (f m).origin = m.origin)
    (hhist : d.history = (c.updateStep n f).history)
    (hdeferred : d.deferredMessages = c.deferredMessages) (hnext : d.nextStep = c.nextStep)
    (hinv : ExchangeInvariant d) : ExchangeState d := by
  refine { hinv with
    toStepEntries := (h.toStepEntries.updateStep n hf).congr (by rw [hhist]) hnext
    origins := fun m hm ho => ?_
    deferred := hdeferred ▸ h.deferred }
  rw [messages, hhist] at hm
  obtain ⟨e, he, rfl⟩ := mem_map.1 hm
  obtain ⟨e', he', rfl⟩ := mem_map.1 he
  by_cases hn : e'.step = some n
  · rw [if_pos hn, (hf _).2, (h.roles e' he' (by simp [hn])).2] at ho
    exact absurd rfl ho
  · rw [if_neg hn] at ho ⊢
    exact h.origins _ (mem_map_of_mem he') ho

theorem contentPart (h : ExchangeState c) (n : ℕ) (part : ContentPart) :
    ExchangeState (c.updateStep n (addContent part)) := by
  refine h.updateStep n (f := addContent part) (fun _ => ⟨rfl, rfl⟩) rfl rfl rfl ?_
  have hshape : (c.updateStep n (addContent part)).messages.map shape = c.messages.map shape := by
    unfold ContextMemory.messages ContextMemory.updateStep
    simp only [List.map_map]
    refine List.map_congr_left fun e _ => ?_
    by_cases he : e.step = some n
    · simp [he, shape, addContent, isTool, calls, answers, Message.callIds]
    · simp [he]
  obtain ⟨hres, htail⟩ := exchanges_congr hshape
  exact ⟨hres.2 h.resolved, fun id => by rw [htail]; exact h.pending id⟩

end ExchangeState

def HistoryEntry.isTool (e : HistoryEntry) : Bool := e.message.isTool

/-- The step of the message of the tail exchange. -/
def ContextMemory.tailStep (c : ContextMemory) : Option ℕ :=
  (c.history.rdropWhile HistoryEntry.isTool).getLast?.bind (·.step)

/-- The calls that the tail exchange has a result for. -/
def ContextMemory.tailAnswers (c : ContextMemory) : List String :=
  (c.history.rtakeWhile HistoryEntry.isTool).filterMap (·.message.answers)

namespace ExchangeState

variable {c d : ContextMemory}

theorem exists_of_tailStep {n : ℕ} (h : c.tailStep = some n) :
    ∃ pre e, e.step = some n ∧
      c.history = pre ++ e :: c.history.rtakeWhile HistoryEntry.isTool := by
  obtain ⟨e, he, hn⟩ := bind_eq_some_iff.1 h
  obtain ⟨pre, hpre⟩ := getLast?_eq_some_iff.1 he
  refine ⟨pre, e, hn, ?_⟩
  have hsplit : c.history.rdropWhile HistoryEntry.isTool ++
      c.history.rtakeWhile HistoryEntry.isTool = c.history := rdropWhile_append_rtakeWhile
  rw [hpre, append_assoc] at hsplit
  exact hsplit.symm

theorem messages_updateStep (h : ExchangeState c) {n : ℕ} {pre run : List HistoryEntry}
    {e : HistoryEntry} (hn : e.step = some n) (hhist : c.history = pre ++ e :: run)
    (f : ContextMessage → ContextMessage) :
    (c.updateStep n f).messages = pre.map (·.message) ++ f e.message :: run.map (·.message) := by
  -- no other entry belongs to the step
  have hnodup := h.nodup
  rw [ContextMemory.steps, hhist, filterMap_append, filterMap_cons_some hn,
    nodup_append, nodup_cons] at hnodup
  obtain ⟨-, ⟨hrun, -⟩, hpre⟩ := hnodup
  have hkeep : ∀ l : List HistoryEntry, n ∉ l.filterMap (·.step) →
      (l.map fun x => if x.step = some n then { x with message := f x.message } else x) = l := by
    intro l hl
    refine (map_congr_left fun x hx => ?_).trans (map_id l)
    rw [if_neg fun hx' => hl (mem_filterMap.2 ⟨x, hx, hx'⟩), id]
  have hfront := hkeep pre fun hmem => hpre n hmem n (.head _) rfl
  have hback := hkeep run hrun
  unfold ContextMemory.messages ContextMemory.updateStep
  simp [hhist, hfront, hback, hn]

theorem toolCall (h : ExchangeState c) {n : ℕ} (call : ToolCall) (htail : c.tailStep = some n)
    (hnew : call.id ∉ c.tailAnswers)
    (hhist : d.history = (c.updateStep n (addToolCall call)).history)
    (hpending : d.pendingToolResultIds = c.pendingToolResultIds.insert call.id)
    (hdeferred : d.deferredMessages = c.deferredMessages) (hnext : d.nextStep = c.nextStep) :
    ExchangeState d := by
  refine h.updateStep n (f := addToolCall call) (fun _ => ⟨rfl, rfl⟩) hhist hdeferred hnext ?_
  obtain ⟨pre, e, hn, hsplit⟩ := exists_of_tailStep htail
  have hrole := (h.roles e (by rw [hsplit]; simp) (by simp [hn])).1
  have hall : ((c.history.rtakeWhile HistoryEntry.isTool).map (·.message)).all isTool = true := by
    rw [List.all_map, List.all_eq_true]
    exact fun x hx => List.mem_rtakeWhile_imp hx
  rw [tailAnswers] at hnew
  generalize c.history.rtakeWhile HistoryEntry.isTool = run at hsplit hnew hall
  have hmsgs : c.messages = pre.map (·.message) ++ e.message :: run.map (·.message) := by
    simp [messages, hsplit]
  have hupd : d.messages =
      pre.map (·.message) ++ e.message.addToolCall call :: run.map (·.message) := by
    rw [messages, hhist]
    exact h.messages_updateStep hn hsplit _
  have hnot : e.message.isTool = false := by simp [isTool, hrole]
  have hcalls : (e.message.addToolCall call).calls = e.message.calls ++ [call.id] := by
    simp [calls, addToolCall, hrole, Message.callIds]
  have hres := h.resolved
  have hold := h.pending
  rw [hmsgs] at hres hold
  rw [tailUnanswered_append_cons hnot hall] at hold
  constructor
  · rw [hupd]
    exact hres.replace hnot hnot hall
  · intro id
    have hfresh : call.id ∉ (run.map (·.message)).filterMap answers := by
      rwa [List.filterMap_map]
    rw [hpending, hupd, tailUnanswered_append_cons (x := e.message.addToolCall call) hnot hall]
    simp only [OrdSet.mem_insert, hold, unanswered, hcalls, List.mem_filter, List.mem_append,
      List.mem_singleton, decide_eq_true_eq]
    constructor
    · rintro (⟨hid, hun⟩ | rfl)
      · exact ⟨Or.inl hid, hun⟩
      · exact ⟨Or.inr rfl, hfresh⟩
    · rintro ⟨hid | hid, hun⟩
      · exact Or.inl ⟨hid, hun⟩
      · exact Or.inr hid

theorem account (h : ExchangeState c) (usage : TokenUsage) (n : ℕ) :
    ExchangeState (c.account usage n) := by
  obtain ⟨hpending, hdeferred, -, hnext⟩ := c.account_rest usage n
  exact h.congr (c.account_core usage n) hpending hdeferred hnext

theorem endStep (h : ExchangeState c) (uuid : String) (usage : Option TokenUsage) :
    ExchangeState (c.endStep uuid usage) := by
  have hclosed : ExchangeState { c with openSteps := mapDelete c.openSteps uuid } :=
    h.congr rfl rfl rfl rfl
  cases usage with
  | none => exact hclosed.flush
  | some usage => exact (hclosed.account usage _).flush

/-! ### Undo and compaction -/

/-- What an undo keeps is answered: it ends in front of a message that is no tool message, up to
messages that neither call nor answer. -/
theorem undoFrom_allAnswered (count : ℤ) (l : List HistoryEntry) (s : UndoState)
    (hres : ResolvedBeforeTail (l.reverse.map (·.message)))
    (hl : ∀ e ∈ l, e.message.origin ≠ none → e.message.IsPlain)
    (hkept : ∀ e ∈ s.kept, e.message.IsPlain) :
    AllAnswered ((undoFrom count l s).kept.map (·.message)) := by
  induction l generalizing s with
  | nil => exact AllAnswered.of_plain (forall_mem_map.2 hkept)
  | cons e l ih =>
    rw [reverse_cons, map_append, map_singleton] at hres
    have hl' : ∀ e ∈ l, e.message.origin ≠ none → e.message.IsPlain := fun x hx => hl x (.tail _ hx)
    have hremove : (s.remove l.length e).kept = s.kept := by
      unfold UndoState.remove
      split_ifs <;> rfl
    have hkept' : ∀ x ∈ (s.remove l.length e).kept, x.message.IsPlain := hremove ▸ hkept
    unfold undoFrom
    split_ifs with hinj hsum hreal hcount
    · have hplain := hl e (.head _) (origin_of_isInjection hinj)
      exact ih _ hres.front_of_append hl' (forall_mem_cons.2 ⟨hplain, hkept⟩)
    · have hplain := hl e (.head _) (origin_of_isCompactionSummary hsum)
      have hfront := hres.front hplain.not_isTool
      have hall : ∀ x ∈ e :: s.kept, x.message.IsPlain := forall_mem_cons.2 ⟨hplain, hkept⟩
      have happ := hfront.append (AllAnswered.of_plain (forall_mem_map.2 hall))
      simpa [UndoState.keepAll] using happ
    · have hfront := hres.front (isPlain_of_isRealUserInput hreal).not_isTool
      have happ := hfront.append (AllAnswered.of_plain (forall_mem_map.2 hkept))
      simpa [UndoState.keepAll, UndoState.countUser, hremove] using happ
    · exact ih _ hres.front_of_append hl' hkept'
    · exact ih _ hres.front_of_append hl' hkept'

theorem undone (h : ExchangeState c) (count : ℤ) : ExchangeState (c.undone count) := by
  have hsteps := h.toStepEntries.undone count
  unfold ContextMemory.undone at hsteps ⊢
  split_ifs at hsteps ⊢
  · have hsub := StepEntries.undoFrom_sublist count c.history.reverse
      { kept := [], covered := c.tokenCountCoveredMessageCount, tokenCount := c.tokenCount }
    have hall := undoFrom_allAnswered count c.history.reverse
      { kept := [], covered := c.tokenCountCoveredMessageCount, tokenCount := c.tokenCount }
      (by rw [reverse_reverse]; exact h.resolved)
      (fun e he => h.origins _ (mem_map_of_mem (mem_reverse.1 he))) (by simp)
    rw [reverse_reverse, append_nil] at hsub
    refine h.of_subset (forall_mem_nil _) (fun m hm => Or.inr ?_) rfl hsteps
      (of_allAnswered hall rfl)
    exact (hsub.map (·.message)).subset hm
  · exact h

theorem cleared (h : ExchangeState c) : ExchangeState c.cleared :=
  h.of_subset (forall_mem_nil _) (fun _ hm => absurd hm not_mem_nil) rfl
    h.toStepEntries.cleared (of_allAnswered trivial rfl)

theorem isPlain_summaryMessage (text : String) : (summaryMessage text).IsPlain := by
  simp [ContextMessage.IsPlain, summaryMessage, calls]

/-- A compaction cuts the history; an old one keeps its tail, where nothing may wait. -/
theorem compact (h : ExchangeState c) (isLegacy : Bool) (input : CompactionInput)
    (hc : isLegacy = true → c.hasOpenToolExchange = false) :
    ExchangeState (c.compact isLegacy input) := by
  have hsteps := h.toStepEntries.compact isLegacy input
  have hsummary := isPlain_summaryMessage (input.contextSummary.getD input.summary)
  cases isLegacy with
  | true =>
    have hmsgs : (c.compact true input).messages =
        [summaryMessage (input.contextSummary.getD input.summary)] ++
          c.messages.drop input.compactedCount := by
      simp [ContextMemory.messages, ContextMemory.compact, compactedHistory]
    have hfirst : ∀ m ∈ [summaryMessage (input.contextSummary.getD input.summary)],
        m.IsPlain := by simpa using hsummary
    refine h.of_subset hfirst (fun m hm => ?_) rfl hsteps (of_allAnswered ?_ rfl)
    · rw [hmsgs] at hm
      exact (mem_append.1 hm).imp_right mem_of_mem_drop
    · rw [hmsgs]
      exact (AllAnswered.of_plain hfirst).append ((h.allAnswered (hc rfl)).drop _)
  | false =>
    have hmsgs : (c.compact false input).messages = c.keptUserMessages ++
        [summaryMessage (input.contextSummary.getD input.summary)] := by
      simp [ContextMemory.messages, ContextMemory.compact, compactedHistory, Function.comp_def]
    have hall : ∀ m ∈ (c.compact false input).messages, m.IsPlain := by
      intro m hm
      rw [hmsgs] at hm
      rcases mem_append.1 hm with hm | hm
      · exact isPlain_of_isRealUserInput (selectRecentUserMessages_kept _ _ m hm)
      · exact mem_singleton.1 hm ▸ hsummary
    exact h.of_subset hall (fun _ hm => Or.inl hm) rfl hsteps
      (of_allAnswered (AllAnswered.of_plain hall) rfl)

/-! ### All operations -/

theorem popMatched (h : ExchangeState c) (r : Reminder) :
    ExchangeState (c.popMatched r.matches) := by
  unfold ContextMemory.popMatched dropLastMessage
  split_ifs with hmatch hdef
  · refine { h with deferred := ?_ }
    exact fun m hm => h.deferred m ((dropLast_sublist _).subset hm)
  · have hnil : c.deferredMessages = [] := by
      cases hd : c.deferredMessages with
      | nil => rfl
      | cons m ms => simp [hd] at hdef
    obtain ⟨m, hlast, hm⟩ := (any_eq_true _ _).1 hmatch
    rw [lastMessage, hnil, getLast?_nil, none_or] at hlast
    obtain ⟨e, he, rfl⟩ := map_eq_some_iff.1 hlast
    obtain ⟨pre, hpre⟩ := getLast?_eq_some_iff.1 he
    -- a message that is taken back has an origin, so it neither calls nor answers
    have horigin : e.message.origin ≠ none := by
      intro hnone
      rw [hnone] at hm
      cases r <;> exact Bool.false_ne_true hm
    have hmem : e.message ∈ c.messages := mem_map_of_mem (by rw [hpre]; simp)
    have hplain := h.origins _ hmem horigin
    have hmsgs : c.messages = pre.map (·.message) ++ [e.message] := by
      simp [ContextMemory.messages, hpre]
    have hclosed : c.hasOpenToolExchange = false := by
      rw [ContextMemory.hasOpenToolExchange, Bool.not_eq_false', OrdSet.isEmpty_iff]
      intro id hid
      have htail := (h.pending id).1 hid
      rw [hmsgs, tailUnanswered_append_cons hplain.not_isTool rfl,
        unanswered_of_calls_eq_nil hplain.2] at htail
      exact not_mem_nil htail
    have hres := h.resolved
    rw [hmsgs] at hres
    have hdrop : (c.history.dropLast).map (·.message) = pre.map (·.message) := by
      rw [hpre, dropLast_concat]
    refine h.of_subset (forall_mem_nil _) (fun x hx => Or.inr ?_) hnil
      (h.toStepEntries.of_sublist [] [] (dropLast_sublist _) (by simp) (by simp)
        (append_nil _).symm rfl) (of_allAnswered ?_ hclosed)
    · exact ((dropLast_sublist c.history).map HistoryEntry.message).subset hx
    · rw [ContextMemory.messages, hdrop]
      exact hres.front hplain.not_isTool
  · exact h

theorem finishResume (h : ExchangeState c) :
    ExchangeState { c with openSteps := [] }.closePending :=
  closePending (h.congr rfl rfl rfl rfl)

end ExchangeState

/-- A tool call is written to the message of the tail exchange, which has no result for it yet. -/
def ContextMemory.KeepsEvent (c : ContextMemory) : LoopRecordedEvent → Prop
  | .toolCall stepUuid toolCallId _ _ =>
    ∀ n ∈ c.openStep stepUuid, c.tailStep = some n ∧ toolCallId ∉ c.tailAnswers
  | _ => True

instance ContextMemory.KeepsEvent.decidable (c : ContextMemory) :
    (e : LoopRecordedEvent) → Decidable (c.KeepsEvent e)
  | .toolCall stepUuid toolCallId _ _ => inferInstanceAs (Decidable
      (∀ n ∈ c.openStep stepUuid, c.tailStep = some n ∧ toolCallId ∉ c.tailAnswers))
  | .stepBegin _ _ | .stepEnd _ _ | .contentPart _ _ | .toolResult _ _ =>
    inferInstanceAs (Decidable True)

/-- Messages copied in: every call is answered, and those with an origin neither call nor answer. -/
def CopiedIn (messages : List ContextMessage) : Prop :=
  AllAnswered messages ∧ ∀ m ∈ messages, m.origin ≠ none → m.IsPlain

instance (messages : List ContextMessage) : Decidable (CopiedIn messages) :=
  inferInstanceAs (Decidable (_ ∧ _))

theorem ExchangeState.loopEvent {c : ContextMemory} (h : ExchangeState c) {e : LoopRecordedEvent}
    (he : c.KeepsEvent e) : ExchangeState (c.loopEvent e) := by
  cases e with
  | stepBegin uuid turnId =>
    refine h.closePending.beginStep ?_ uuid
    simp [ContextMemory.hasOpenToolExchange, closePending_pending]
  | stepEnd uuid usage => exact h.endStep uuid usage
  | contentPart stepUuid part =>
    simp only [ContextMemory.loopEvent]
    cases c.openStep stepUuid with
    | none => exact h
    | some n => exact h.contentPart n part
  | toolCall stepUuid toolCallId name args =>
    simp only [ContextMemory.loopEvent]
    cases hopen : c.openStep stepUuid with
    | none => exact h
    | some n =>
      obtain ⟨htail, hnew⟩ := he n hopen
      exact h.toolCall ⟨toolCallId, name, args⟩ htail hnew rfl rfl rfl rfl
  | toolResult toolCallId result => exact h.toolResult toolCallId result

/-- An operation of the context, live or while a log is restored. -/
inductive MemoryOp where
  | live (op : ContextOp)
  | restored (record : AgentRecord)

def operate (a : Agent) : MemoryOp → Agent
  | .live op => perform a op
  | .restored record => (restore a record).1

/-- **The condition under which an operation keeps the invariant.** -/
def KeepsExchange (a : Agent) : MemoryOp → Prop
  | .live (.appendMessage m) => m.IsPlain
  | .live (.loopEvent e) => a.context.KeepsEvent e
  | .live (.importMigratedHistory messages) =>
    messages = [] ∨ a.context.hasOpenToolExchange = false ∧ CopiedIn messages
  | .live (.useProjectedHistoryFrom messages) => CopiedIn messages
  | .restored (.appendMessage m) => m.IsPlain
  | .restored (.appendLoopEvent e) => a.context.KeepsEvent e
  | .restored (.applyCompaction input) =>
    input.keptUserMessageCount = none → input.compactedCount < a.context.history.length →
      a.context.hasOpenToolExchange = false
  | _ => True

instance KeepsExchange.decidable (a : Agent) : (op : MemoryOp) → Decidable (KeepsExchange a op)
  | .live (.appendMessage m) => inferInstanceAs (Decidable m.IsPlain)
  | .live (.loopEvent e) => inferInstanceAs (Decidable (a.context.KeepsEvent e))
  | .live (.importMigratedHistory messages) => inferInstanceAs (Decidable
      (messages = [] ∨ a.context.hasOpenToolExchange = false ∧ CopiedIn messages))
  | .live (.useProjectedHistoryFrom messages) => inferInstanceAs (Decidable (CopiedIn messages))
  | .restored (.appendMessage m) => inferInstanceAs (Decidable m.IsPlain)
  | .restored (.appendLoopEvent e) => inferInstanceAs (Decidable (a.context.KeepsEvent e))
  | .restored (.applyCompaction input) => inferInstanceAs (Decidable
      (input.keptUserMessageCount = none → input.compactedCount < a.context.history.length →
        a.context.hasOpenToolExchange = false))
  | .live (.appendTranscriptMessage _) | .live (.setTransientSystemReminder _ _)
  | .live .clearTransientSystemReminder | .live (.turnPrompt _) | .live (.popMatchedMessage _)
  | .live (.undo _) | .live .clear | .live (.applyCompaction _ _ _ _ _) | .live .finishResume
  | .restored (.forked _) | .restored (.turnPrompt _) | .restored (.appendTranscriptMessage _)
  | .restored .clear | .restored (.undo _) => inferInstanceAs (Decidable True)

namespace ExchangeState

variable {c : ContextMemory} {a : Agent}

theorem performed (h : ExchangeState a.context) {op : ContextOp}
    (hop : KeepsExchange a (.live op)) : ExchangeState (a.context.performed op) := by
  cases op with
  | appendMessage m => exact h.append hop
  | appendTranscriptMessage | turnPrompt => exact h
  | setTransientSystemReminder | clearTransientSystemReminder => exact h.congr rfl rfl rfl rfl
  | loopEvent e => exact h.loopEvent hop
  | popMatchedMessage reminder => exact h.popMatched reminder
  | undo count => exact h.undone count
  | clear => exact h.cleared
  | applyCompaction summary contextSummary compactedCount tokensBefore droppedCount =>
    exact h.compact false _ fun hlegacy => absurd hlegacy Bool.false_ne_true
  | finishResume => exact h.finishResume
  | importMigratedHistory messages =>
    rcases hop with rfl | ⟨hclosed, hall, horigins⟩
    · exact h.congr (by simp [ContextMemory.performed, ContextMemory.pushHistory]) rfl rfl rfl
    · exact h.pushHistory hclosed hall horigins
  | useProjectedHistoryFrom messages => exact h.cleared.pushHistory rfl hop.1 hop.2

theorem restored (h : ExchangeState a.context) {r : AgentRecord}
    (hr : KeepsExchange a (.restored r)) : ExchangeState (a.context.restored r) := by
  cases r with
  | forked hadGoal =>
    simp only [ContextMemory.restored]
    split_ifs
    · exact h.append (by
        simp [ContextMessage.IsPlain, systemReminderMessage, calls])
    · exact h
  | turnPrompt | appendTranscriptMessage => exact h
  | appendMessage m => exact h.append hr
  | appendLoopEvent e => exact h.loopEvent hr
  | clear => exact h.cleared
  | applyCompaction input =>
    refine h.compact _ input fun hlegacy => ?_
    obtain ⟨hnone, hlt⟩ := Bool.and_eq_true_iff.1 hlegacy
    exact hr (isNone_iff_eq_none.1 hnone) (of_decide_eq_true hlt)
  | undo count => exact h.undone count

end ExchangeState

theorem ExchangeState.operate {a : Agent} (ha : a.restoring = false)
    (h : ExchangeState a.context) {op : MemoryOp} (hop : KeepsExchange a op) :
    (operate a op).restoring = false ∧ ExchangeState (operate a op).context := by
  cases op with
  | live op =>
    rw [NoriCode.operate, perform_context a ha]
    exact ⟨perform_restoring ha op, h.performed hop⟩
  | restored record =>
    rw [NoriCode.operate, restore_context]
    exact ⟨rfl, h.restored hop⟩

theorem ExchangeState.initial : ExchangeState {} :=
  { StepEntries.initial with
    resolved := trivial
    pending := fun id => by simp [messages, tailUnanswered]
    origins := by decide
    deferred := by decide }

/-- **The invariant holds in every state that is reached** by operations that meet the
condition. -/
theorem exchange_invariant {ops : List MemoryOp} {a : Agent}
    (h : LibRun.Run (fun a op => some (operate a op)) KeepsExchange {} ops a) :
    ExchangeInvariant a.context := by
  have hstate : a.restoring = false ∧ ExchangeState a.context := by
    refine h.invariant (I := fun a => a.restoring = false ∧ ExchangeState a.context)
      ⟨rfl, ExchangeState.initial⟩ fun t op u ht hop hu => ?_
    cases hu
    exact ht.2.operate ht.1 hop
  exact hstate.2.toExchangeInvariant

def exchangeOps : List MemoryOp :=
  [.live (.loopEvent (.stepBegin "s" "0")), .live (.loopEvent (.toolCall "s" "a" "Read" none)),
    .live (.loopEvent (.toolCall "s" "b" "Read" none)),
    .live (.loopEvent (.toolResult "a" ⟨.text "done", none⟩))]

/-- The theorem at a run that ends in an exchange with a waiting call. -/
theorem exchange_invariant_exchangeOps : ExchangeInvariant (exchangeOps.foldl operate {}).context :=
  exchange_invariant (LibRun.run_of_exec (l := exchangeOps) rfl (by decide +kernel))

/-- A command typed by the user while a step is open. -/
def shellInput : ContextMessage where
  role := .user
  content := [.text "ls"]
  toolCalls := []
  origin := some ⟨.shellCommand .input false, none⟩

def shellInputOps : List MemoryOp :=
  [.live (.loopEvent (.stepBegin "s" "0")), .live (.appendMessage shellInput),
    .live (.loopEvent (.toolCall "s" "a" "Read" none))]

/-- The call of the step is unresolved in front of the command, and waits for a result although
there is no exchange at the tail. -/
theorem shellInput_breaks_exchange :
    ¬ ResolvedBeforeTail (shellInputOps.foldl operate {}).context.messages ∧
      "a" ∈ (shellInputOps.foldl operate {}).context.pendingToolResultIds ∧
      tailUnanswered (shellInputOps.foldl operate {}).context.messages = [] := by
  decide +kernel

end NoriCode
