/-
**User input and summaries in a context.**

Compaction and undo look at the *marks* of a history alone: the user input and the summaries.  No
operation of a live context makes a mark or takes one away, but for those that are meant to.  Undo
removes user input from the end, back to the last summary: if it succeeds, it has removed as much as
it was told to.

Main definitions:

* `undoableInputs` — the user input behind the last summary.

Main results:

* `undoableInputs_performed` — what an operation leaves of it;
* `undone_inputs` — **an undo that succeeds removes the last user input**.
-/

import NoriCode.ContextDeferred
import NoriCode.ContextSteps
import NoriCode.TranscriptUndo

namespace NoriCode

open LibOrdSet List Option ContextMemory ContextMessage

/-! ### Marks of a history -/

variable {c : ContextMemory}

theorem marks_eq_nil {ms : List ContextMessage} (h : ∀ m ∈ ms, isMark m = false) : marks ms = [] :=
  filter_eq_nil_iff.2 fun m hm => Bool.eq_false_iff.1 (h m hm)

theorem isMark_eq_false {m : ContextMessage} (hrole : m.role ≠ .user)
    (hsum : m.isCompactionSummary = false) : isMark m = false := by
  simp [isMark, isRealUserInput, hrole, hsum]

theorem isMark_of_origin_none {m : ContextMessage} (hrole : m.role ≠ .user)
    (horigin : m.origin = none) : isMark m = false :=
  isMark_eq_false hrole (by
    simp [isCompactionSummary, originKind, horigin])

theorem marks_pushHistory (c : ContextMemory) (ms : List ContextMessage) :
    marks (c.pushHistory ms).messages = marks c.messages ++ marks ms := by
  simp [messages, pushHistory, Function.comp_def, marks_append]

theorem marks_updateStep (h : StepEntries c) (n : ℕ) {f : ContextMessage → ContextMessage}
    (hf : ∀ m, (f m).role = m.role ∧ (f m).origin = m.origin) :
    marks (c.updateStep n f).messages = marks c.messages := by
  have hlist : ∀ l : List HistoryEntry, (∀ e ∈ l, e.step ≠ none →
      e.message.role = .assistant ∧ e.message.origin = none) →
      marks ((l.map fun e => if e.step = some n then { e with message := f e.message } else e).map
        (·.message)) = marks (l.map (·.message)) := by
    intro l
    induction l with
    | nil => intro _; rfl
    | cons e l ih =>
      intro hl
      obtain ⟨he, hrest⟩ := forall_mem_cons.1 hl
      rw [map_cons, map_cons, map_cons, marks_cons, marks_cons, ih hrest]
      by_cases hn : e.step = some n
      · obtain ⟨hrole, horigin⟩ := he (by simp [hn])
        have hold : isMark e.message = false := isMark_of_origin_none (by simp [hrole]) horigin
        have hnew : isMark (f e.message) = false :=
          isMark_of_origin_none (by simp [hf, hrole]) ((hf _).2.trans horigin)
        rw [if_pos hn, hold, hnew]
        rfl
      · rw [if_neg hn]
  exact hlist c.history h.roles

theorem marks_undone {count : ℤ} (hcan : c.canUndo count = true) :
    marks (c.undone count).messages = (undoKept id count 0 (marks c.messages).reverse) := by
  have hkept : (c.undone count).history = undoKept (·.message) count 0 c.history.reverse := by
    rw [undone, if_pos hcan]
    exact (undoFrom_kept count _ _).trans (append_nil _)
  have hrev : marks (c.history.reverse.map (·.message)) = (marks c.messages).reverse := by
    simp [marks, messages]
  rw [messages, hkept, marks_undoKept, hrev]

theorem marks_popMatched (c : ContextMemory) (r : Reminder) :
    marks (c.popMatched r.matches).messages = marks c.messages ∧
      marks (c.popMatched r.matches).deferredMessages = marks c.deferredMessages := by
  have hlast : ∀ (ms : List ContextMessage) (m : ContextMessage), ms.getLast? = some m →
      r.matches m.origin = true → marks ms.dropLast = marks ms := by
    intro ms m hms hm
    obtain ⟨pre, rfl⟩ := getLast?_eq_some_iff.1 hms
    have hmark : isMark m = false := by
      cases horigin : m.origin with
      | none =>
        rw [horigin] at hm
        cases r <;> cases hm
      | some o =>
        obtain ⟨kind, speaker⟩ := o
        rw [horigin] at hm
        cases kind <;> cases r <;>
          simp [Reminder.matches, isMark, isRealUserInput, isCompactionSummary,
            originKind, horigin, compactionUserMessageDisposition] at hm ⊢
    have hnone : marks [m] = [] := by simp [marks, hmark]
    rw [dropLast_concat, marks_append, hnone, append_nil]
  unfold popMatched dropLastMessage
  split_ifs with hmatch hdef
  · obtain ⟨m, hm, hmatches⟩ := (any_eq_true _ _).1 hmatch
    refine ⟨rfl, hlast _ m ?_ hmatches⟩
    cases hd : c.deferredMessages.getLast? with
    | none => simp [getLast?_eq_none_iff.1 hd] at hdef
    | some x => simpa [lastMessage, hd] using hm
  · obtain ⟨m, hm, hmatches⟩ := (any_eq_true _ _).1 hmatch
    have hnil : c.deferredMessages = [] := length_eq_zero_iff.1 (by omega)
    have hmsgs : c.messages.getLast? = some m := by
      rw [lastMessage, hnil, getLast?_nil, none_or] at hm
      rw [messages, getLast?_map, hm]
    refine ⟨?_, rfl⟩
    rw [messages, map_dropLast]
    exact hlast _ m hmsgs hmatches
  · exact ⟨rfl, rfl⟩

/-! ### Marks of a timeline -/

theorem marks_timeline (c : ContextMemory) :
    marks c.timeline = marks c.messages ++ marks c.deferredMessages :=
  marks_append _ _

theorem timeline_flush (c : ContextMemory) :
    c.flushDeferredMessagesIfToolExchangeClosed.timeline = c.timeline := by
  unfold flushDeferredMessagesIfToolExchangeClosed
  split_ifs
  · rfl
  · rw [timeline, timeline]
    exact (append_nil _).trans (messages_pushHistory _ _)

theorem marks_toolResult (c : ContextMemory) (id : String) (result : ExecutableToolResult) :
    marks (c.toolResult id result).timeline = marks c.timeline := by
  have hresult : marks [toolResultMessage id result] = [] :=
    marks_eq_nil fun m hm => by
      rw [mem_singleton.1 hm]
      exact isMark_of_origin_none (by simp [toolResultMessage, createToolMessage]) rfl
  unfold toolResult
  split_ifs
  · rw [timeline_flush, marks_timeline, marks_timeline]
    change marks (c.pushHistory [toolResultMessage id result]).messages ++ _ = _
    rw [marks_pushHistory, hresult, append_nil]
    rfl
  · rfl

theorem marks_closePending (c : ContextMemory) :
    marks c.closePending.timeline = marks c.timeline := by
  unfold closePending
  induction c.pendingToolResultIds.toList using reverseRecOn with
  | nil => rfl
  | append_singleton ids id ih =>
    rw [foldl_append, foldl_cons, foldl_nil, marks_toolResult, ih]

theorem marks_endStep (c : ContextMemory) (uuid : String) (usage : Option TokenUsage) :
    marks (c.endStep uuid usage).timeline = marks c.timeline := by
  unfold endStep
  rw [timeline_flush]
  cases usage with
  | none => rfl
  | some usage =>
    rw [marks_timeline, account_messages, (account_rest _ _ _).2.1]
    exact (marks_timeline c).symm

/-- **An event of the loop** makes no mark. -/
theorem marks_loopEvent (h : StepEntries c) (e : LoopRecordedEvent) :
    marks (c.loopEvent e).timeline = marks c.timeline := by
  cases e with
  | stepBegin uuid turnId =>
    have hstep : isMark stepMessage = false := isMark_of_origin_none (by simp [stepMessage]) rfl
    have hmessages : (c.closePending.beginStep uuid).messages =
        c.closePending.messages ++ [stepMessage] := by
      simp [messages, beginStep]
    rw [← marks_closePending c, loopEvent, marks_timeline, hmessages,
      marks_append, marks_cons, hstep, marks_timeline]
    simp [marks, beginStep]
  | stepEnd uuid usage => exact marks_endStep c uuid usage
  | contentPart stepUuid part =>
    simp only [loopEvent]
    cases c.openStep stepUuid with
    | none => rfl
    | some step =>
      have hupdate := marks_updateStep h step (f := addContent part) fun m => ⟨rfl, rfl⟩
      rw [marks_timeline, marks_timeline, ← hupdate]
      rfl
  | toolCall stepUuid toolCallId name args =>
    simp only [loopEvent]
    cases c.openStep stepUuid with
    | none => rfl
    | some step =>
      have hupdate := marks_updateStep h step
        (f := addToolCall ⟨toolCallId, name, args⟩) fun m => ⟨rfl, rfl⟩
      rw [marks_timeline, marks_timeline, ← hupdate]
      rfl
  | toolResult toolCallId result => exact marks_toolResult c toolCallId result

/-! ### User input that can be undone -/

def notSummary (m : ContextMessage) : Bool := !m.isCompactionSummary

/-- **The user input behind the last summary.** -/
def undoableInputs (ms : List ContextMessage) : List ContextMessage :=
  ((marks ms).reverse.takeWhile notSummary).reverse

theorem undoableInputs_congr {ms ms' : List ContextMessage} (h : marks ms = marks ms') :
    undoableInputs ms = undoableInputs ms' := by
  rw [undoableInputs, undoableInputs, h]

theorem undoableInputs_snoc (ms : List ContextMessage) (m : ContextMessage) :
    undoableInputs (ms ++ [m]) =
      if isRealUserInput m then undoableInputs ms ++ [m]
      else if m.isCompactionSummary then [] else undoableInputs ms := by
  unfold undoableInputs
  rw [marks_append, marks_cons]
  cases hreal : isRealUserInput m with
  | true =>
    have hsum := isCompactionSummary_of_isRealUserInput hreal
    simp [isMark, hreal, marks, notSummary, hsum]
  | false =>
    cases hsum : m.isCompactionSummary with
    | true => simp [isMark, hreal, hsum, marks, notSummary]
    | false => simp [isMark, hreal, hsum, marks]

theorem undoableInputs_append (ms ms' : List ContextMessage) :
    undoableInputs (ms ++ ms') <:+ undoableInputs ms ++ ms'.filter isRealUserInput := by
  induction ms' using reverseRecOn with
  | nil => simp
  | append_singleton ms' m ih =>
    rw [← append_assoc, undoableInputs_snoc, filter_append, ← append_assoc]
    obtain ⟨front, hfront⟩ := ih
    split_ifs with hreal hsum
    · rw [filter_singleton, hreal, cond_true, ← hfront]
      exact ⟨front, (append_assoc _ _ _).symm⟩
    · exact nil_suffix
    · rw [filter_singleton, Bool.eq_false_iff.2 hreal, cond_false, append_nil, ← hfront]
      exact ⟨front, rfl⟩

/-- Messages without user input, wherever they come, leave a part of it. -/
theorem undoableInputs_insert (ms ms' : List ContextMessage) {new : List ContextMessage}
    (hnew : ∀ m ∈ new, isRealUserInput m = false) :
    undoableInputs (ms ++ new ++ ms') <:+ undoableInputs (ms ++ ms') := by
  induction ms' using reverseRecOn with
  | nil =>
    have hnone : new.filter isRealUserInput = [] :=
      filter_eq_nil_iff.2 fun m hm => Bool.eq_false_iff.1 (hnew m hm)
    have happend := undoableInputs_append ms new
    rw [hnone, append_nil] at happend
    rwa [append_nil, append_nil]
  | append_singleton ms' m ih =>
    rw [← append_assoc, ← append_assoc ms, undoableInputs_snoc, undoableInputs_snoc]
    obtain ⟨front, hfront⟩ := ih
    split_ifs
    · rw [← hfront]
      exact ⟨front, (append_assoc _ _ _).symm⟩
    · exact suffix_rfl
    · exact ⟨front, hfront⟩

/-- Only operations that append user input add to what can be undone. -/
def ContextOp.AddsNoInput : ContextOp → Prop
  | .appendMessage message => isRealUserInput message = false
  | .importMigratedHistory messages => ∀ m ∈ messages, isRealUserInput m = false
  | .useProjectedHistoryFrom messages => ∀ m ∈ messages, isRealUserInput m = false
  | _ => True

/-- **What an operation leaves** of the user input that can be undone. -/
theorem undoableInputs_performed (hsteps : StepEntries c) (hflushed : c.Flushed) {op : ContextOp}
    (hop : op.AddsNoInput) (hundo : ∀ count, op ≠ .undo count) :
    undoableInputs (c.performed op).timeline <:+ undoableInputs c.timeline := by
  have hsame : ∀ {d : ContextMemory}, marks d.timeline = marks c.timeline →
      undoableInputs d.timeline <:+ undoableInputs c.timeline := fun h =>
    (undoableInputs_congr h).symm ▸ suffix_rfl
  cases op with
  | appendMessage m =>
    rw [performed, hflushed.timeline_append]
    have hinsert : undoableInputs (c.timeline ++ [m] ++ []) <:+ undoableInputs (c.timeline ++ []) :=
      undoableInputs_insert _ _ fun m' hm => by
        rw [mem_singleton.1 hm]
        exact hop
    rwa [append_nil, append_nil] at hinsert
  | appendTranscriptMessage | setTransientSystemReminder | clearTransientSystemReminder
  | turnPrompt => exact suffix_rfl
  | loopEvent e => exact hsame (marks_loopEvent hsteps e)
  | popMatchedMessage reminder =>
    obtain ⟨hmessages, hdeferred⟩ := marks_popMatched c reminder
    refine hsame ?_
    rw [performed, marks_timeline, hmessages, hdeferred, ← marks_timeline]
  | undo count => exact absurd rfl (hundo count)
  | clear => exact nil_suffix
  | applyCompaction summary contextSummary compactedCount tokensBefore droppedCount =>
    -- the summary comes last
    have htimeline : (c.performed (.applyCompaction summary contextSummary compactedCount
        tokensBefore droppedCount)).timeline =
          c.keptUserMessages ++ [summaryMessage contextSummary] := by
      simp [timeline, messages, performed,
        compact, compactedHistory, liveCompaction, Function.comp_def]
    rw [htimeline, undoableInputs_snoc]
    exact nil_suffix
  | finishResume => exact hsame (marks_closePending _)
  | importMigratedHistory messages =>
    rw [performed, timeline, messages_pushHistory]
    exact undoableInputs_insert _ _ hop
  | useProjectedHistoryFrom messages =>
    have hnone : messages.filter isRealUserInput = [] :=
      filter_eq_nil_iff.2 fun m hm => Bool.eq_false_iff.1 (hop m hm)
    have htimeline : (c.performed (.useProjectedHistoryFrom messages)).timeline =
        [] ++ messages := by
      rw [performed, timeline, messages_pushHistory]
      exact append_nil _
    have happend := undoableInputs_append [] messages
    rw [hnone] at happend
    rw [htimeline]
    exact happend.trans nil_suffix

/-! ### Undo -/

/-- An undo that has removed enough has found it behind the last summary. -/
theorem undoFrom_removed {count : ℤ} {l : List HistoryEntry} {s : UndoState}
    (hs : s.removedUserCount < count) (hstop : (undoFrom count l s).stoppedAtBoundary = false)
    (hcount : count ≤ (undoFrom count l s).removedUserCount) :
    (count - s.removedUserCount).toNat ≤
      ((marks (l.map (·.message))).takeWhile notSummary).length := by
  induction l generalizing s with
  | nil =>
    rw [undoFrom] at hcount
    omega
  | cons e l ih =>
    have hremove : (s.remove l.length e).removedUserCount = s.removedUserCount := by
      unfold UndoState.remove
      split_ifs <;> rfl
    rw [map_cons, marks_cons]
    unfold undoFrom at hstop hcount
    split_ifs at hstop hcount with hinj hsum hreal henough
    · have hmark : isMark e.message = false := by
        rw [Bool.eq_false_iff]
        intro hmark
        rw [isInjection_of_isMark hmark] at hinj
        cases hinj
      rw [hmark]
      exact ih (s := { s with kept := e :: s.kept }) hs hstop hcount
    · have hnext : notSummary e.message = true := by
        rw [notSummary, Bool.eq_false_iff.2 hsum]
        rfl
      have hmark : isMark e.message = true := by simp [isMark, hreal]
      rw [hmark, if_pos rfl, takeWhile_cons, hnext, if_pos rfl, length_cons]
      omega
    · have hnext : notSummary e.message = true := by
        rw [notSummary, Bool.eq_false_iff.2 hsum]
        rfl
      have hmark : isMark e.message = true := by simp [isMark, hreal]
      have hrest := ih (s := (s.remove l.length e).countUser)
        (by simp only [UndoState.countUser, hremove]; omega) hstop hcount
      rw [hmark, if_pos rfl, takeWhile_cons, hnext, if_pos rfl, length_cons]
      simp only [UndoState.countUser, hremove] at hrest
      omega
    · have hmark : isMark e.message = false := by
        simp [isMark, hreal, hsum]
      have hrest := ih (s := s.remove l.length e) (by rwa [hremove]) hstop hcount
      rw [hremove] at hrest
      rwa [hmark]

theorem undoKept_eq_drop {count removed : ℤ} {l : List ContextMessage}
    (hmarks : ∀ m ∈ l, isMark m = true) (h : removed < count)
    (hlength : (count - removed).toNat ≤ (l.takeWhile notSummary).length) :
    undoKept id count removed l = (l.drop (count - removed).toNat).reverse := by
  induction l generalizing removed with
  | nil =>
    rw [drop_nil]
    rfl
  | cons m l ih =>
    obtain ⟨hm, hrest⟩ := forall_mem_cons.1 hmarks
    rw [takeWhile_cons] at hlength
    cases hsum : m.isCompactionSummary with
    | true =>
      rw [notSummary, hsum] at hlength
      simp at hlength
      omega
    | false =>
      have hreal : isRealUserInput m = true := by simpa [isMark, hsum] using hm
      have hinj : m.isInjection = false := isInjection_of_isRealUserInput hreal
      rw [notSummary, hsum] at hlength
      simp only [Bool.not_false, if_true, length_cons] at hlength
      simp only [undoKept, id, hinj, hsum, hreal, Bool.false_eq_true, if_false, if_true]
      split_ifs with henough
      · rw [show (count - removed).toNat = 1 by omega]
        rfl
      · rw [ih hrest (by omega) (by omega),
          show (count - removed).toNat = (count - (removed + 1)).toNat + 1 by omega]
        rfl

/-- Dropping a part of the front of a list drops that part of the front. -/
theorem takeWhile_drop_of_le {α : Type} {p : α → Bool} {l : List α} {n : ℕ}
    (h : n ≤ (l.takeWhile p).length) : (l.drop n).takeWhile p = (l.takeWhile p).drop n := by
  induction n generalizing l with
  | zero => rfl
  | succ n ih =>
    cases l with
    | nil => rfl
    | cons a l =>
      cases ha : p a with
      | false => simp [ha] at h
      | true =>
        rw [takeWhile_cons, ha, if_pos rfl, length_cons] at h
        rw [takeWhile_cons, ha, if_pos rfl, drop_succ_cons, drop_succ_cons]
        exact ih (Nat.le_of_succ_le_succ h)

theorem filter_marks (ms : List ContextMessage) :
    (marks ms).filter isRealUserInput = ms.filter isRealUserInput := by
  rw [marks, List.filter_filter]
  refine List.filter_congr fun m _ => ?_
  cases hreal : isRealUserInput m with
  | true => simp [isMark, hreal]
  | false => rfl

/-- **An undo that succeeds removes the last user input**, as much as it was told to. -/
theorem undone_inputs {count : ℤ} (hcan : c.canUndo count = true)
    (herror : (undo { context := c } count).2 = none) : ∃ removed : List ContextMessage,
      removed.length = count.toNat ∧
      undoableInputs c.messages = undoableInputs (c.undone count).messages ++ removed ∧
      c.messages.filter isRealUserInput =
        (c.undone count).messages.filter isRealUserInput ++ removed := by
  have hpos : 0 < count := by
    simp only [canUndo, Bool.not_eq_true', Bool.or_eq_false_iff, decide_eq_false_iff_not] at hcan
    omega
  -- the loop has removed enough
  have hloop : (c.undoLoop count).stoppedAtBoundary = false ∧
      count ≤ (c.undoLoop count).removedUserCount := by
    have hnone : undoError { context := c } count = none := by
      rw [← herror, undo, if_pos hcan]
    unfold undoError at hnone
    simp only at hnone
    split_ifs at hnone with hfail
    rw [not_and_or, not_or] at hfail
    rcases hfail with hfalse | ⟨hstop, hless⟩
    · exact absurd trivial hfalse
    · exact ⟨Bool.eq_false_iff.2 hstop, Int.not_lt.1 hless⟩
  set newest := (marks c.messages).reverse with hnewest
  have hrev : marks (c.history.reverse.map (·.message)) = newest := by
    simp [hnewest, marks, messages]
  have hlength : (count - 0).toNat ≤ (newest.takeWhile notSummary).length := by
    rw [← hrev]
    exact undoFrom_removed hpos hloop.1 hloop.2
  have hmarks : ∀ m ∈ newest, isMark m = true := fun m hm =>
    (List.mem_filter.1 (mem_reverse.1 hm)).2
  have hundone : marks (c.undone count).messages = (newest.drop (count - 0).toNat).reverse := by
    rw [marks_undone hcan, ← hnewest, undoKept_eq_drop hmarks hpos hlength]
  rw [Int.sub_zero] at hlength hundone
  have htake : newest.take count.toNat = (newest.takeWhile notSummary).take count.toNat := by
    obtain ⟨rest, hrest⟩ := takeWhile_prefix (l := newest) notSummary
    have hfront : (newest.takeWhile notSummary ++ rest).take count.toNat =
        (newest.takeWhile notSummary).take count.toNat := take_append_of_le_length hlength
    rw [← hfront, hrest]
  refine ⟨(newest.take count.toNat).reverse, ?_, ?_, ?_⟩
  · rw [length_reverse, htake, length_take, min_eq_left hlength]
  · rw [undoableInputs, undoableInputs, hundone, reverse_reverse,
      takeWhile_drop_of_le hlength, htake, ← reverse_append, take_append_drop]
  · have hsplit : marks c.messages = marks (c.undone count).messages ++
        (newest.take count.toNat).reverse := by
      rw [hundone, ← reverse_append, take_append_drop, hnewest, reverse_reverse]
    have hreal : ∀ m ∈ (newest.take count.toNat).reverse, isRealUserInput m = true := by
      intro m hm
      rw [mem_reverse, htake] at hm
      have hwhile := mem_of_mem_take hm
      have hnot := mem_takeWhile_imp hwhile
      have hmark := hmarks m ((takeWhile_subset _) hwhile)
      rw [isMark, Bool.or_eq_true] at hmark
      rw [notSummary, Bool.not_eq_true'] at hnot
      exact hmark.resolve_right (Bool.eq_false_iff.1 hnot)
    rw [← filter_marks, hsplit, filter_append, filter_eq_self.2 hreal, filter_marks]

end NoriCode
