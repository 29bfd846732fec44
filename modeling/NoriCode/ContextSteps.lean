/-
**The messages that steps write to.**

A step writes to the message it has opened, wherever that message has come to stand.  Whatever a
context goes through, live or while a log is restored, only assistant messages without an origin
belong to a step, and each belongs to a step of its own.

Main definitions:

* `StepEntries` — the invariant.

Main results:

* `StepEntries.performed`, `StepEntries.restored` — **every operation and every
  record keeps it**.
-/

import NoriCode.ContextReplay

namespace NoriCode

open List ContextMemory HistoryEntry

/-- The steps that messages of the history belong to. -/
def ContextMemory.steps (c : ContextMemory) : List ℕ := c.history.filterMap (·.step)

/-- **Steps and their messages.**  Only assistant messages without an origin belong to a step, and
each to its own. -/
structure StepEntries (c : ContextMemory) : Prop where
  roles : ∀ e ∈ c.history, e.step ≠ none → e.message.role = .assistant ∧ e.message.origin = none
  bound : ∀ n ∈ c.steps, n < c.nextStep
  nodup : c.steps.Nodup

namespace StepEntries

variable {c d : ContextMemory}

theorem initial : StepEntries {} := ⟨by simp, by simp [ContextMemory.steps], nodup_nil⟩

/-! ### Changes of the history -/

theorem steps_congr (h : d.history.map core = c.history.map core) : d.steps = c.steps := by
  have hm := congrArg (filterMap Prod.snd) h
  simpa [ContextMemory.steps, core, filterMap_map, Function.comp_def] using hm

section

variable (h : StepEntries c)

include h

theorem congr (hcore : d.history.map core = c.history.map core) (hnext : d.nextStep = c.nextStep) :
    StepEntries d where
  roles := by
    intro e he hstep
    obtain ⟨e', he', heq⟩ := mem_map.1 (hcore ▸ mem_map_of_mem he)
    obtain ⟨hmsg, hst⟩ := Prod.mk.inj heq
    rw [← hmsg]
    exact h.roles e' he' (hst ▸ hstep)
  bound := by rw [steps_congr hcore, hnext]; exact h.bound
  nodup := by rw [steps_congr hcore]; exact h.nodup

theorem of_sublist (front back : List HistoryEntry) {hist : List HistoryEntry}
    (hsub : hist.Sublist c.history) (hfront : ∀ e ∈ front, e.step = none)
    (hback : ∀ e ∈ back, e.step = none) (hd : d.history = front ++ hist ++ back)
    (hnext : d.nextStep = c.nextStep) : StepEntries d := by
  have hsteps : d.steps.Sublist c.steps := by
    rw [ContextMemory.steps, hd, filterMap_append, filterMap_append,
      filterMap_eq_nil_iff.2 hfront, filterMap_eq_nil_iff.2 hback, append_nil]
    exact hsub.filterMap _
  refine ⟨fun e he hstep => ?_, fun n hn => hnext ▸ h.bound n (hsteps.subset hn),
    h.nodup.sublist hsteps⟩
  rw [hd, mem_append, mem_append] at he
  rcases he with (he | he) | he
  · exact absurd (hfront e he) hstep
  · exact h.roles e (hsub.subset he) hstep
  · exact absurd (hback e he) hstep

theorem pushHistory (ms : List ContextMessage) : StepEntries (c.pushHistory ms) := by
  refine h.of_sublist [] _ (List.Sublist.refl _) (by simp) ?_ rfl rfl
  intro e he
  obtain ⟨m, hm, rfl⟩ := mem_map.1 he
  rfl

theorem flush : StepEntries c.flushDeferredMessagesIfToolExchangeClosed := by
  unfold flushDeferredMessagesIfToolExchangeClosed
  split_ifs
  · exact h
  · exact (h.pushHistory _).congr rfl rfl

theorem append (m : ContextMessage) : StepEntries (c.append m) := by
  unfold ContextMemory.append
  split_ifs
  · exact h.congr rfl rfl
  · exact h.pushHistory [m]

theorem answer (id : String) (result : ExecutableToolResult) : StepEntries (c.answer id result) :=
  (h.pushHistory [toolResultMessage id result]).congr rfl rfl

theorem toolResult (id : String) (result : ExecutableToolResult) :
    StepEntries (c.toolResult id result) := by
  unfold ContextMemory.toolResult
  split_ifs
  · exact (h.answer id result).flush
  · exact h

theorem closePending : StepEntries c.closePending :=
  closePending_rule h fun _ h id => h.toolResult id interruptedResult

end

/-! ### Loop events -/

theorem beginStep (h : StepEntries c) (uuid : String) : StepEntries (c.beginStep uuid) := by
  have hsteps : (c.beginStep uuid).steps = c.steps ++ [c.nextStep] := by
    simp [ContextMemory.steps, ContextMemory.beginStep, filterMap_append]
  have hnext : (c.beginStep uuid).nextStep = c.nextStep + 1 := rfl
  refine ⟨fun e he hstep => ?_, fun n hn => ?_, ?_⟩
  · rcases mem_append.1 he with he | he
    · exact h.roles e he hstep
    · rw [mem_singleton.1 he]
      exact ⟨rfl, rfl⟩
  · rw [hsteps, mem_append, mem_singleton] at hn
    rcases hn with hn | rfl
    · have hlt := h.bound n hn
      omega
    · omega
  · rw [hsteps, nodup_append]
    refine ⟨h.nodup, nodup_singleton _, ?_⟩
    rintro n hn m hm rfl
    have hlt := h.bound n hn
    rw [mem_singleton.1 hm] at hlt
    omega

theorem steps_updateStep (c : ContextMemory) (n : ℕ) (f : ContextMessage → ContextMessage) :
    (c.updateStep n f).steps = c.steps := by
  unfold ContextMemory.steps updateStep
  rw [filterMap_map]
  refine filterMap_congr fun e _ => ?_
  by_cases he : e.step = some n <;> simp [he]

theorem updateStep (h : StepEntries c) (n : ℕ) {f : ContextMessage → ContextMessage}
    (hf : ∀ m, (f m).role = m.role ∧ (f m).origin = m.origin) : StepEntries (c.updateStep n f) := by
  refine ⟨fun e he hstep => ?_, ?_, ?_⟩
  · obtain ⟨e', he', rfl⟩ := mem_map.1 he
    by_cases hn : e'.step = some n
    · rw [if_pos hn, (hf _).1, (hf _).2]
      exact h.roles e' he' (by simp [hn])
    · rw [if_neg hn] at hstep ⊢
      exact h.roles e' he' hstep
  · rw [steps_updateStep]
    exact h.bound
  · rw [steps_updateStep]
    exact h.nodup

theorem account (h : StepEntries c) (usage : TokenUsage) (n : ℕ) :
    StepEntries (c.account usage n) :=
  h.congr (c.account_core usage n) (c.account_rest usage n).2.2.2

theorem endStep (h : StepEntries c) (uuid : String) (usage : Option TokenUsage) :
    StepEntries (c.endStep uuid usage) := by
  have hclosed : StepEntries { c with openSteps := mapDelete c.openSteps uuid } := h.congr rfl rfl
  cases usage with
  | none => exact hclosed.flush
  | some usage => exact (hclosed.account usage _).flush

theorem loopEvent (h : StepEntries c) (e : LoopRecordedEvent) : StepEntries (c.loopEvent e) := by
  refine loopEvent_rule h h.closePending.beginStep h.endStep
    (fun n _ => h.updateStep n fun _ => ⟨rfl, rfl⟩) (fun n toolCall => ?_) h.toolResult e
  have hupd := h.updateStep n (f := ContextMessage.addToolCall toolCall) fun _ => ⟨rfl, rfl⟩
  exact hupd.congr rfl rfl

/-! ### The other operations -/

theorem undoFrom_sublist (count : ℤ) (l : List HistoryEntry) (s : UndoState) :
    (undoFrom count l s).kept.Sublist (l.reverse ++ s.kept) := by
  induction l generalizing s with
  | nil => exact List.Sublist.refl _
  | cons e l ih =>
    have hremove : (s.remove l.length e).kept = s.kept := by
      unfold UndoState.remove
      split_ifs <;> rfl
    unfold undoFrom
    split_ifs
    · simpa using ih { s with kept := e :: s.kept }
    · exact List.Sublist.refl _
    · simp [UndoState.keepAll, UndoState.countUser, hremove]
    · refine (ih _).trans ?_
      simp [UndoState.countUser, hremove]
    · refine (ih _).trans ?_
      simp [hremove]

section

variable (h : StepEntries c)

include h

theorem undone (count : ℤ) : StepEntries (c.undone count) := by
  unfold ContextMemory.undone
  split_ifs
  · have hsub := undoFrom_sublist count c.history.reverse
      { kept := [], covered := c.tokenCountCoveredMessageCount, tokenCount := c.tokenCount }
    rw [reverse_reverse, append_nil] at hsub
    exact h.of_sublist [] [] hsub (by simp) (by simp) (append_nil _).symm rfl
  · exact h

theorem cleared : StepEntries c.cleared :=
  h.of_sublist [] [] (nil_sublist _) (by simp) (by simp) rfl rfl

theorem compact (isLegacy : Bool) (input : CompactionInput) :
    StepEntries (c.compact isLegacy input) := by
  cases isLegacy with
  | true =>
    refine h.of_sublist [_] [] (drop_sublist input.compactedCount _)
      (by simp) (by simp) (append_nil _).symm rfl
  | false =>
    refine h.of_sublist [] (c.compact false input).history
      (nil_sublist _) (by simp) (fun e he => ?_) rfl rfl
    simp only [ContextMemory.compact, ContextMemory.compactedHistory, Bool.false_eq_true,
      if_false, mem_append, mem_map, mem_singleton] at he
    rcases he with ⟨m, hm, rfl⟩ | rfl <;> rfl

theorem popMatched (matcher : Option PromptOrigin → Bool) : StepEntries (c.popMatched matcher) := by
  unfold ContextMemory.popMatched ContextMemory.dropLastMessage
  split_ifs
  · exact h.congr rfl rfl
  · exact h.of_sublist [] [] (dropLast_sublist _) (by simp) (by simp) (append_nil _).symm rfl
  · exact h

/-- **Every live operation keeps steps and messages apart.** -/
theorem performed (op : ContextOp) : StepEntries (c.performed op) := by
  cases op with
  | appendMessage m => exact h.append m
  | appendTranscriptMessage | turnPrompt => exact h
  | setTransientSystemReminder | clearTransientSystemReminder => exact h.congr rfl rfl
  | loopEvent e => exact h.loopEvent e
  | popMatchedMessage reminder => exact h.popMatched _
  | undo count => exact h.undone count
  | clear => exact h.cleared
  | applyCompaction summary contextSummary compactedCount tokensBefore droppedCount =>
    exact h.compact false _
  | finishResume => exact closePending (h.congr rfl rfl)
  | importMigratedHistory messages => exact h.pushHistory messages
  | useProjectedHistoryFrom messages => exact h.cleared.pushHistory messages

/-- **Every restored record keeps them apart.** -/
theorem restored (r : AgentRecord) : StepEntries (c.restored r) :=
  restored_rule h h.append h.loopEvent h.cleared h.compact h.undone r

end

theorem replayed (rs : List AgentRecord) : StepEntries (rs.foldl ContextMemory.restored {}) := by
  induction rs using reverseRecOn with
  | nil => exact initial
  | append_singleton rs r ih =>
    rw [foldl_append]
    exact ih.restored r

end StepEntries

end NoriCode
