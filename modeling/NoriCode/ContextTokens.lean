/-
**The token count of a context.**

The context keeps a count of the tokens its front takes up, as the provider reported it, and the
number of messages that count covers.  What comes behind is estimated.  The estimate of a message is
memoized when it is first made, also while a step still writes to the message.

Taking messages back subtracts their estimates from what the provider reported, so the count can
become negative; taking back the last message does not look at the covered number at all; and an
estimate made too early stays.

Main definitions:

* `ContextMemory.tokenCountWithPending` — the count of the whole context;
* `CountsHold` — what the counters are to mean;
* `KeepsCounts` — the condition on a step.

Main results:

* `token_counts_hold` — **the counters hold in every run whose steps meet the condition**.
-/

import NoriCode.ContextSteps

namespace NoriCode

open List ContextMemory HistoryEntry

namespace ContextMemory

/-- The getter `tokenCountWithPending`: what is not covered is estimated. -/
def tokenCountWithPending (c : ContextMemory) : ℤ :=
  c.tokenCount +
    ((c.history.drop c.tokenCountCoveredMessageCount).map estimate).sum

/-- The messages from an index on are estimated: all of them by a compaction, those not covered by
`tokenCountWithPending`. -/
def estimateFrom (c : ContextMemory) (start : ℕ) : ContextMemory :=
  { c with history := c.history.mapIdx fun i e => if start ≤ i then e.memoize else e }

/-- What `undo` subtracts: the estimates of the covered messages it removes.  The list is the rest
of the history, from its end, and the number counts the user messages removed so far. -/
def undoEstimate (covered : ℕ) (count : ℤ) : List HistoryEntry → ℤ → ℕ
  | [], _ => 0
  | e :: older, removed =>
    let estimate := if older.length < covered then e.estimate else 0
    if e.message.isInjection then undoEstimate covered count older removed
    else if e.message.isCompactionSummary then 0
    else if isRealUserInput e.message then
      if removed + 1 ≥ count then estimate
      else estimate + undoEstimate covered count older (removed + 1)
    else estimate + undoEstimate covered count older removed

end ContextMemory

open ContextMemory

/-! ### Steps -/

/-- An operation of the context, or a reading that estimates its messages. -/
inductive CountStep where
  | operate (op : ContextOp)
  | estimateFrom (start : ℕ)

def CountStep.apply (a : Agent) : CountStep → Option Agent
  | .operate op => some (perform a op)
  | .estimateFrom start => some { a with context := a.context.estimateFrom start }

/-- **What the counters mean.**  The covered messages are messages of the history, the count is not
negative, and the count of the whole context adds the estimate of every other message, as it is
now. -/
structure CountsHold (c : ContextMemory) : Prop where
  covered : c.tokenCountCoveredMessageCount ≤ c.history.length
  nonneg : 0 ≤ c.tokenCount
  withPending : c.tokenCountWithPending = c.tokenCount +
    estimateTokensForMessages
      ((c.messages.drop c.tokenCountCoveredMessageCount).map (·.toMessage))

/-- **The condition on a step.**  An undo subtracts no more than the count; the last message that is
taken back is deferred or not covered; and no message is written to that has been estimated. -/
def KeepsCounts (a : Agent) : CountStep → Prop
  | .operate (.undo count) =>
    (undoEstimate a.context.tokenCountCoveredMessageCount count
      a.context.history.reverse 0 : ℤ) ≤ a.context.tokenCount
  | .operate (.popMatchedMessage reminder) =>
    a.context.lastMessage.any (fun m => reminder.matches m.origin) = true →
      a.context.deferredMessages = [] →
        a.context.tokenCountCoveredMessageCount < a.context.history.length
  | .operate (.loopEvent event) =>
    ∀ uuid ∈ event.writesTo, ∀ step ∈ a.context.openStep uuid, ∀ e ∈ a.context.history,
      e.step = some step → e.tokens = none
  | _ => True

/-! ### Estimates -/

/-- The memo of an entry, if there is one, is the estimate of its message. -/
def HistoryEntry.Fresh (e : HistoryEntry) : Prop :=
  ∀ n ∈ e.tokens, n = estimateTokensForMessage e.message.toMessage

namespace HistoryEntry

variable {e : HistoryEntry}

theorem Fresh.estimate (h : e.Fresh) :
    e.estimate = estimateTokensForMessage e.message.toMessage := by
  unfold HistoryEntry.estimate
  cases htokens : e.tokens with
  | none => rfl
  | some n => exact h n htokens

theorem Fresh.memoize (h : e.Fresh) : e.memoize.Fresh := by
  intro n hn
  cases hn
  exact h.estimate

theorem fresh_of_none (h : e.tokens = none) : e.Fresh := by
  intro n hn
  rw [h] at hn
  cases hn

end HistoryEntry

/-- **The invariant.** -/
structure Counts (c : ContextMemory) : Prop where
  covered : c.tokenCountCoveredMessageCount ≤ c.history.length
  nonneg : 0 ≤ c.tokenCount
  fresh : ∀ e ∈ c.history, e.Fresh

namespace Counts

variable {c d : ContextMemory}

theorem initial : Counts {} := ⟨by simp, by simp, by simp⟩

section

variable (h : Counts c)

include h

theorem withPending : c.tokenCountWithPending = c.tokenCount +
    estimateTokensForMessages
      ((c.messages.drop c.tokenCountCoveredMessageCount).map (·.toMessage)) := by
  unfold tokenCountWithPending estimateTokensForMessages messages
  rw [← map_drop, map_map, map_map]
  have hestimates : ∀ e ∈ c.history.drop c.tokenCountCoveredMessageCount,
      e.estimate = estimateTokensForMessage e.message.toMessage :=
    fun e he => (h.fresh e (mem_of_mem_drop he)).estimate
  rw [map_congr_left hestimates]
  rfl

theorem holds : CountsHold c := ⟨h.covered, h.nonneg, h.withPending⟩

theorem grow (added : List HistoryEntry) (hhistory : d.history = c.history ++ added)
    (hadded : ∀ e ∈ added, e.tokens = none) (hcount : d.tokenCount = c.tokenCount)
    (hcovered : d.tokenCountCoveredMessageCount = c.tokenCountCoveredMessageCount) : Counts d := by
  refine ⟨?_, hcount ▸ h.nonneg, fun e he => ?_⟩
  · have hle := h.covered
    rw [hcovered, hhistory, length_append]
    omega
  · rw [hhistory] at he
    rcases mem_append.1 he with he | he
    · exact h.fresh e he
    · exact fresh_of_none (hadded e he)

theorem pushHistory (ms : List ContextMessage) : Counts (c.pushHistory ms) := by
  refine h.grow _ rfl (fun e he => ?_) rfl rfl
  obtain ⟨m, -, rfl⟩ := mem_map.1 he
  rfl

theorem flush : Counts c.flushDeferredMessagesIfToolExchangeClosed := by
  unfold flushDeferredMessagesIfToolExchangeClosed
  split_ifs
  · exact h
  · exact (h.pushHistory _).grow [] (append_nil _).symm (by simp) rfl rfl

theorem append (m : ContextMessage) : Counts (c.append m) := by
  unfold ContextMemory.append
  split_ifs
  · exact h.grow [] (append_nil _).symm (by simp) rfl rfl
  · exact h.pushHistory [m]

theorem toolResult (id : String) (result : ExecutableToolResult) :
    Counts (c.toolResult id result) := by
  unfold ContextMemory.toolResult
  split_ifs
  · exact ((h.pushHistory [toolResultMessage id result]).grow (d := c.answer id result) []
      (append_nil _).symm (by simp) rfl rfl).flush
  · exact h

theorem closePending : Counts c.closePending :=
  closePending_rule h fun _ h id => h.toolResult id interruptedResult

end

/-! ### Loop events -/

theorem coveredCount_le (c : ContextMemory) (uuid : String) :
    c.coveredCount uuid ≤ c.history.length := by
  unfold coveredCount
  cases c.openStep uuid with
  | none => exact Nat.le_refl _
  | some step =>
    dsimp only
    cases hindex : c.history.findIdx? (·.step == some step) with
    | none => exact Nat.le_refl _
    | some i =>
      obtain ⟨hlt, -⟩ := findIdx?_eq_some_iff_getElem.1 hindex
      exact hlt

theorem memoize (h : Counts c) (p : ℕ → Prop) [DecidablePred p] {e : HistoryEntry}
    (he : e ∈ c.history.mapIdx fun i e => if p i then e.memoize else e) : e.Fresh := by
  obtain ⟨i, hi, rfl⟩ := mem_mapIdx.1 he
  have hfresh := h.fresh _ (getElem_mem hi)
  split_ifs
  · exact hfresh.memoize
  · exact hfresh

theorem account (h : Counts c) (usage : TokenUsage) {n : ℕ} (hn : n ≤ c.history.length) :
    Counts (c.account usage n) := by
  unfold ContextMemory.account
  split_ifs
  · exact ⟨hn, Int.natCast_nonneg _, h.fresh⟩
  · refine ⟨?_, ?_, fun e he => h.memoize _ he⟩
    · simpa using hn
    · have hnonneg := h.nonneg
      dsimp only
      omega

theorem endStep (h : Counts c) (uuid : String) (usage : Option TokenUsage) :
    Counts (c.endStep uuid usage) := by
  have hclosed : Counts { c with openSteps := mapDelete c.openSteps uuid } :=
    h.grow [] (append_nil _).symm (by simp) rfl rfl
  cases usage with
  | none => exact hclosed.flush
  | some usage => exact (hclosed.account usage (coveredCount_le c uuid)).flush

theorem updateStep (h : Counts c) {step : ℕ} (f : ContextMessage → ContextMessage)
    (hnone : ∀ e ∈ c.history, e.step = some step → e.tokens = none) :
    Counts (c.updateStep step f) := by
  refine ⟨?_, h.nonneg, fun e he => ?_⟩
  · exact h.covered.trans_eq (length_map _).symm
  · obtain ⟨e', he', rfl⟩ := mem_map.1 he
    split_ifs with hstep
    · exact fresh_of_none (hnone e' he' hstep)
    · exact h.fresh e' he'

theorem loopEvent (h : Counts c) {event : LoopRecordedEvent}
    (hok : ∀ uuid ∈ event.writesTo, ∀ step ∈ c.openStep uuid, ∀ e ∈ c.history,
      e.step = some step → e.tokens = none) : Counts (c.loopEvent event) := by
  cases event with
  | stepBegin uuid turnId =>
    refine h.closePending.grow [_] rfl ?_ rfl rfl
    simp
  | stepEnd uuid usage => exact h.endStep uuid usage
  | contentPart stepUuid part =>
    simp only [ContextMemory.loopEvent]
    cases hopen : c.openStep stepUuid with
    | none => exact h
    | some step => exact h.updateStep _ (hok stepUuid rfl step hopen)
  | toolCall stepUuid toolCallId name args =>
    simp only [ContextMemory.loopEvent]
    cases hopen : c.openStep stepUuid with
    | none => exact h
    | some step =>
      exact (h.updateStep _ (hok stepUuid rfl step hopen)).grow [] (append_nil _).symm
        (by simp) rfl rfl
  | toolResult toolCallId result => exact h.toolResult toolCallId result

/-! ### Taking messages back -/

section

variable (s : UndoState) (i : ℕ) (e : HistoryEntry)

theorem covered_remove :
    (s.remove i e).covered = if i < s.covered then s.covered - 1 else s.covered := by
  unfold UndoState.remove
  split_ifs <;> rfl

theorem kept_remove : (s.remove i e).kept = s.kept := by
  unfold UndoState.remove
  split_ifs <;> rfl

theorem removedUserCount_remove : (s.remove i e).removedUserCount = s.removedUserCount := by
  unfold UndoState.remove
  split_ifs <;> rfl

end

theorem covered_undoFrom (count : ℤ) (l : List HistoryEntry) (s : UndoState)
    (h : s.covered ≤ l.length + s.kept.length) :
    (undoFrom count l s).covered ≤ (undoFrom count l s).kept.length := by
  induction l generalizing s with
  | nil => simpa [undoFrom] using h
  | cons e older ih =>
    rw [length_cons] at h
    have hremove : (s.remove older.length e).covered ≤ older.length + s.kept.length := by
      rw [covered_remove]
      split_ifs <;> omega
    unfold undoFrom
    split_ifs
    · refine ih _ ?_
      simp only [length_cons]
      omega
    · simp only [UndoState.keepAll, length_append, length_reverse, length_cons]
      omega
    · simp only [UndoState.keepAll, UndoState.countUser, length_append, length_reverse, kept_remove]
      exact hremove
    · refine ih _ ?_
      simpa only [UndoState.countUser, kept_remove] using hremove
    · refine ih _ ?_
      simpa only [kept_remove] using hremove

/-- What the loop of `undo` subtracts.  Its covered number always tells apart what the number at
the start does. -/
theorem tokenCount_undoFrom (covered : ℕ) (count : ℤ) (l : List HistoryEntry) (s : UndoState)
    (h : ∀ i < l.length, i < s.covered ↔ i < covered) :
    (undoFrom count l s).tokenCount =
      s.tokenCount - undoEstimate covered count l s.removedUserCount := by
  induction l generalizing s with
  | nil => simp [undoFrom, undoEstimate]
  | cons e older ih =>
    have hlast := h older.length (by simp)
    have htail : ∀ i < older.length, i < s.covered ↔ i < covered := fun i hi =>
      h i (by simp only [length_cons]; omega)
    have hremove : ∀ i < older.length, i < (s.remove older.length e).covered ↔ i < covered := by
      intro i hi
      rw [covered_remove]
      have hsame := htail i hi
      split_ifs <;> omega
    have hcount : (s.remove older.length e).tokenCount =
        s.tokenCount - if older.length < covered then (e.estimate : ℤ) else 0 := by
      unfold UndoState.remove
      by_cases hcovered : older.length < covered
      · rw [if_pos (hlast.2 hcovered), if_pos hcovered]
      · rw [if_neg (fun hlt => hcovered (hlast.1 hlt)), if_neg hcovered, Int.sub_zero]
    unfold undoFrom undoEstimate
    by_cases hinjection : e.message.isInjection = true
    · rw [if_pos hinjection, if_pos hinjection]
      exact ih _ htail
    rw [if_neg hinjection, if_neg hinjection]
    by_cases hsummary : e.message.isCompactionSummary = true
    · simp [hsummary, UndoState.keepAll]
    rw [if_neg hsummary, if_neg hsummary]
    by_cases huser : isRealUserInput e.message = true
    · rw [if_pos huser, if_pos huser]
      by_cases hdone : s.removedUserCount + 1 ≥ count
      · rw [if_pos hdone, if_pos hdone]
        change (s.remove older.length e).tokenCount = _
        rw [hcount]
        split_ifs <;> rfl
      · rw [if_neg hdone, if_neg hdone, ih (s.remove older.length e).countUser hremove]
        change (s.remove older.length e).tokenCount -
          undoEstimate covered count older ((s.remove older.length e).removedUserCount + 1) = _
        rw [hcount, removedUserCount_remove]
        split_ifs <;> omega
    · rw [if_neg huser, if_neg huser, ih _ hremove, hcount, removedUserCount_remove]
      split_ifs <;> omega

/-- The undone context keeps the counters if the count is at least what is subtracted. -/
theorem undone (h : Counts c) {count : ℤ}
    (hcount : (undoEstimate c.tokenCountCoveredMessageCount count
      c.history.reverse 0 : ℤ) ≤ c.tokenCount) : Counts (c.undone count) := by
  unfold ContextMemory.undone
  split_ifs
  · refine ⟨covered_undoFrom count _ _ ?_, ?_, fun e he => h.fresh e ?_⟩
    · simpa using h.covered
    · have htokens : (c.undoLoop count).tokenCount = c.tokenCount -
          undoEstimate c.tokenCountCoveredMessageCount count c.history.reverse 0 :=
        tokenCount_undoFrom c.tokenCountCoveredMessageCount count _ _ fun i _ => Iff.rfl
      change 0 ≤ (c.undoLoop count).tokenCount
      omega
    · have hsub := StepEntries.undoFrom_sublist count c.history.reverse
        { kept := [], covered := c.tokenCountCoveredMessageCount, tokenCount := c.tokenCount }
      rw [reverse_reverse, append_nil] at hsub
      exact hsub.subset he
  · exact h

theorem popMatched (h : Counts c) (matcher : Option PromptOrigin → Bool)
    (hcovered : c.lastMessage.any (fun m => matcher m.origin) = true → c.deferredMessages = [] →
      c.tokenCountCoveredMessageCount < c.history.length) :
    Counts (c.popMatched matcher) := by
  unfold ContextMemory.popMatched dropLastMessage
  split_ifs with hmatches hdeferred
  · exact h.grow [] (append_nil _).symm (by simp) rfl rfl
  · refine ⟨?_, h.nonneg, fun e he => h.fresh e (dropLast_subset _ he)⟩
    have hlt := hcovered hmatches (length_eq_zero_iff.1 (by omega))
    change c.tokenCountCoveredMessageCount ≤ c.history.dropLast.length
    rw [length_dropLast]
    omega
  · exact h

/-! ### The other operations -/

theorem cleared (c : ContextMemory) : Counts c.cleared :=
  ⟨Nat.le_refl _, Int.le_refl _, by simp [ContextMemory.cleared]⟩

theorem compact (c : ContextMemory) (input : CompactionInput) : Counts (c.compact false input) := by
  refine ⟨Nat.le_refl _, Int.natCast_nonneg _, fun e he => fresh_of_none ?_⟩
  rcases mem_append.1 he with he | he
  · obtain ⟨m, -, rfl⟩ := mem_map.1 he
    rfl
  · rw [mem_singleton.1 he]

theorem estimateFrom (h : Counts c) (start : ℕ) : Counts (c.estimateFrom start) := by
  refine ⟨?_, h.nonneg, fun e he => h.memoize _ he⟩
  exact h.covered.trans_eq (length_mapIdx).symm

end Counts

/-! ### Runs -/

theorem Counts.step {a b : Agent} (ha : a.restoring = false) (h : Counts a.context) {s : CountStep}
    (hok : KeepsCounts a s) (hb : s.apply a = some b) :
    b.restoring = false ∧ Counts b.context := by
  cases s with
  | estimateFrom start =>
    cases hb
    exact ⟨ha, h.estimateFrom start⟩
  | operate op =>
    cases hb
    refine ⟨perform_restoring ha op, ?_⟩
    rw [perform_context a ha]
    cases op with
    | appendMessage m => exact h.append m
    | appendTranscriptMessage | turnPrompt => exact h
    | setTransientSystemReminder | clearTransientSystemReminder =>
      exact h.grow [] (append_nil _).symm (by simp) rfl rfl
    | loopEvent event => exact h.loopEvent hok
    | popMatchedMessage reminder => exact h.popMatched _ hok
    | undo count => exact h.undone hok
    | clear => exact Counts.cleared _
    | applyCompaction summary contextSummary compactedCount tokensBefore droppedCount =>
      exact Counts.compact _ _
    | finishResume =>
      refine Counts.closePending ?_
      exact h.grow [] (append_nil _).symm (by simp) rfl rfl
    | importMigratedHistory messages => exact h.pushHistory messages
    | useProjectedHistoryFrom messages => exact (Counts.cleared _).pushHistory messages

/-- **The counters hold in every state** of a run whose steps meet the condition. -/
theorem token_counts_hold {a : Agent} {steps : List CountStep}
    (h : LibRun.Run CountStep.apply KeepsCounts {} steps a) :
    CountsHold a.context := by
  have hinv := h.invariant (I := fun a => a.restoring = false ∧ Counts a.context)
    ⟨rfl, Counts.initial⟩ fun _ _ _ ht hok hu => ht.2.step ht.1 hok hu
  exact hinv.2.holds

/-! ### Examples -/

instance KeepsCounts.decidable (a : Agent) (s : CountStep) : Decidable (KeepsCounts a s) :=
  match s with
  | .operate (.undo _) => inferInstanceAs (Decidable ((_ : ℤ) ≤ _))
  | .operate (.popMatchedMessage _) =>
    inferInstanceAs (Decidable (_ = true → a.context.deferredMessages = [] → _ < _))
  | .operate (.loopEvent event) => inferInstanceAs (Decidable
      (∀ uuid ∈ event.writesTo, ∀ step ∈ a.context.openStep uuid, ∀ e ∈ a.context.history,
        e.step = some step → e.tokens = none))
  | .operate (.appendMessage _) | .operate (.appendTranscriptMessage _)
  | .operate (.setTransientSystemReminder _ _) | .operate .clearTransientSystemReminder
  | .operate (.turnPrompt _) | .operate .clear | .operate (.applyCompaction _ _ _ _ _)
  | .operate .finishResume | .operate (.importMigratedHistory _)
  | .operate (.useProjectedHistoryFrom _) | .estimateFrom _ => inferInstanceAs (Decidable True)

/-- A prompt, and a step that answers it with the given usage. -/
def promptAndStep (usage : TokenUsage) : List CountStep :=
  [.operate (.appendMessage
      { role := .user, content := [.text "What is left to do?"], toolCalls := []
        origin := some ⟨.user, none⟩ }),
    .operate (.loopEvent (.stepBegin "step" "0")),
    .operate (.loopEvent (.contentPart "step" (.text "Nothing."))),
    .operate (.loopEvent (.stepEnd "step" (some usage)))]

theorem token_counts_hold_undo : ∃ a : Agent, a.context.history = [] ∧ CountsHold a.context := by
  have hrun : ∃ a, LibRun.Run CountStep.apply KeepsCounts {}
      (promptAndStep ⟨40, 5, 0, 0⟩ ++ [.estimateFrom 0, .operate (.undo 1)]) a ∧
        a.context.history = [] :=
    ⟨_, LibRun.run_of_exec rfl (by decide +kernel), by decide +kernel⟩
  obtain ⟨a, ha, hhistory⟩ := hrun
  exact ⟨a, hhistory, token_counts_hold ha⟩

/-- **The count becomes negative.**  The provider reports one token for a step; the undo of its
prompt subtracts the estimates of the prompt and of the answer. -/
theorem undo_below_usage : ∃ a : Agent,
    LibRun.Run CountStep.apply LibRun.always {}
      (promptAndStep ⟨1, 0, 0, 0⟩ ++ [.operate (.undo 1)]) a ∧ a.context.tokenCount < 0 :=
  ⟨_, LibRun.run_of_exec rfl (LibRun.legal_always _ _), by decide +kernel⟩

end NoriCode
