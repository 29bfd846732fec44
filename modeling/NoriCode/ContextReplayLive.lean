/-
**The replayed context is the live one.**

Every operation of a live agent logs a record before it changes the context, and restoring the
record makes the same change, with two exceptions: a message that is taken back by
`popMatchedMessage` leaves no trace in the log, and an event that writes to a step that is not open
is logged before it fails, so it stops the replay.  Without these, the replayed context and the
live one are similar: they differ at most in the estimates of message sizes, which a live agent has
made of messages that were still being written.

Main definitions:

* `Similar` — contexts that differ in estimates and in the transient reminder only;
* `Recorded` — an operation whose whole effect is in the log.

Main results:

* `Similar.restored` — restoring a record keeps contexts similar;
* `replay_rebuilds` — **after a run of recorded operations the log replays to the
  history and the token coverage of the live agent**.
-/

import NoriCode.ContextReplay

namespace NoriCode

open LibOrdSet ContextMemory HistoryEntry

/-! ### Similar contexts -/

/-- **Contexts that differ in estimates and in the transient reminder only.** -/
structure Similar (c d : ContextMemory) : Prop where
  history : c.history.map core = d.history.map core
  covered : c.tokenCountCoveredMessageCount = d.tokenCountCoveredMessageCount
  openSteps : c.openSteps = d.openSteps
  pending : c.pendingToolResultIds = d.pendingToolResultIds
  deferred : c.deferredMessages = d.deferredMessages
  nextStep : c.nextStep = d.nextStep

namespace Similar

theorem refl (c : ContextMemory) : Similar c c := ⟨rfl, rfl, rfl, rfl, rfl, rfl⟩

variable {c d : ContextMemory}

section

variable (h : Similar c d)

include h

theorem trans {e : ContextMemory} (h' : Similar d e) : Similar c e :=
  ⟨h.history.trans h'.history, h.covered.trans h'.covered, h.openSteps.trans h'.openSteps,
    h.pending.trans h'.pending, h.deferred.trans h'.deferred, h.nextStep.trans h'.nextStep⟩

theorem messages : c.messages = d.messages := by
  have hm := congrArg (List.map Prod.fst) h.history
  simpa [ContextMemory.messages, core, Function.comp_def] using hm

theorem length : c.history.length = d.history.length := by
  have hl := congrArg List.length h.history
  simpa using hl

theorem hasOpenToolExchange : c.hasOpenToolExchange = d.hasOpenToolExchange := by
  simp [ContextMemory.hasOpenToolExchange, h.pending]

theorem openStep (uuid : String) : c.openStep uuid = d.openStep uuid := by
  simp [ContextMemory.openStep, h.openSteps]

theorem pushHistory (ms : List ContextMessage) : Similar (c.pushHistory ms) (d.pushHistory ms) where
  history := by simp [ContextMemory.pushHistory, h.history]
  covered := h.covered
  openSteps := h.openSteps
  pending := h.pending
  deferred := h.deferred
  nextStep := h.nextStep

theorem flush : Similar c.flushDeferredMessagesIfToolExchangeClosed
    d.flushDeferredMessagesIfToolExchangeClosed := by
  unfold flushDeferredMessagesIfToolExchangeClosed
  rw [← h.hasOpenToolExchange, ← h.deferred]
  split_ifs
  · exact h
  · have hp := h.pushHistory c.deferredMessages
    exact ⟨hp.history, hp.covered, hp.openSteps, hp.pending, rfl, hp.nextStep⟩

theorem append (m : ContextMessage) : Similar (c.append m) (d.append m) := by
  unfold ContextMemory.append
  rw [← h.hasOpenToolExchange]
  split_ifs
  · exact ⟨h.history, h.covered, h.openSteps, h.pending, by simp [h.deferred], h.nextStep⟩
  · exact h.pushHistory [m]

theorem toolResult (id : String) (result : ExecutableToolResult) :
    Similar (c.toolResult id result) (d.toolResult id result) := by
  unfold ContextMemory.toolResult
  rw [← h.pending]
  split_ifs
  · have hp := h.pushHistory [toolResultMessage id result]
    exact flush ⟨hp.history, hp.covered, hp.openSteps, congrArg (·.erase id) hp.pending,
      hp.deferred, hp.nextStep⟩
  · exact h

theorem closePending : Similar c.closePending d.closePending := by
  have hfold : ∀ (ids : List String) {c d : ContextMemory}, Similar c d →
      Similar (ids.foldl (fun c id => c.toolResult id interruptedResult) c)
        (ids.foldl (fun c id => c.toolResult id interruptedResult) d) := by
    intro ids
    induction ids with
    | nil => intro c d h; exact h
    | cons id ids ih => intro c d h; exact ih (h.toolResult id interruptedResult)
  unfold ContextMemory.closePending
  rw [← h.pending]
  exact hfold _ h

theorem beginStep (uuid : String) : Similar (c.beginStep uuid) (d.beginStep uuid) where
  history := by simp [ContextMemory.beginStep, h.history, h.nextStep]
  covered := h.covered
  openSteps := by simp [ContextMemory.beginStep, h.openSteps, h.nextStep]
  pending := h.pending
  deferred := h.deferred
  nextStep := by simp [ContextMemory.beginStep, h.nextStep]

theorem updateStep (step : ℕ) (f : ContextMessage → ContextMessage) :
    Similar (c.updateStep step f) (d.updateStep step f) where
  history := by
    have hcore : ∀ e : HistoryEntry,
        (if e.step = some step then { e with message := f e.message } else e).core =
          if e.core.2 = some step then (f e.core.1, e.core.2) else e.core := by
      intro e
      by_cases he : e.step = some step <;> simp [core, he]
    have hmap : ∀ l : List HistoryEntry,
        (l.map fun e => if e.step = some step then { e with message := f e.message } else e).map
            core =
          (l.map core).map fun p =>
            if p.2 = some step then (f p.1, p.2) else p := by
      intro l
      rw [List.map_map, List.map_map]
      exact List.map_congr_left fun e _ => hcore e
    simp [ContextMemory.updateStep, hmap, h.history]
  covered := h.covered
  openSteps := h.openSteps
  pending := h.pending
  deferred := h.deferred
  nextStep := h.nextStep

theorem coveredCount (uuid : String) : c.coveredCount uuid = d.coveredCount uuid := by
  unfold ContextMemory.coveredCount
  rw [← h.openStep, ← h.length]
  cases c.openStep uuid with
  | none => rfl
  | some step =>
    have hfind : ∀ l : List HistoryEntry, l.findIdx? (·.step == some step) =
        (l.map core).findIdx? (·.2 == some step) := by
      intro l
      rw [List.findIdx?_map]
      rfl
    simp [hfind, h.history]

theorem account (usage : TokenUsage) (n : ℕ) : Similar (c.account usage n) (d.account usage n) := by
  unfold ContextMemory.account
  split_ifs
  · exact ⟨h.history, rfl, h.openSteps, h.pending, h.deferred, h.nextStep⟩
  · refine ⟨?_, rfl, h.openSteps, h.pending, h.deferred, h.nextStep⟩
    simp [core_memoize, h.history]

theorem endStep (uuid : String) (usage : Option TokenUsage) :
    Similar (c.endStep uuid usage) (d.endStep uuid usage) := by
  have hopen : Similar { c with openSteps := mapDelete c.openSteps uuid }
      { d with openSteps := mapDelete d.openSteps uuid } :=
    ⟨h.history, h.covered, by simp [h.openSteps], h.pending, h.deferred, h.nextStep⟩
  unfold ContextMemory.endStep
  rw [← h.coveredCount]
  cases usage with
  | none => exact hopen.flush
  | some usage => exact (hopen.account usage _).flush

theorem loopEvent (e : LoopRecordedEvent) : Similar (c.loopEvent e) (d.loopEvent e) := by
  cases e with
  | stepBegin uuid turnId => exact h.closePending.beginStep uuid
  | stepEnd uuid usage => exact h.endStep uuid usage
  | contentPart stepUuid part =>
    simp only [ContextMemory.loopEvent, ← h.openStep]
    cases c.openStep stepUuid with
    | none => exact h
    | some step => exact h.updateStep step _
  | toolCall stepUuid toolCallId name args =>
    simp only [ContextMemory.loopEvent, ← h.openStep]
    cases c.openStep stepUuid with
    | none => exact h
    | some step =>
      have hu := h.updateStep step (ContextMessage.addToolCall ⟨toolCallId, name, args⟩)
      exact ⟨hu.history, hu.covered, hu.openSteps, by simp [h.pending], hu.deferred,
        hu.nextStep⟩
  | toolResult toolCallId result => exact h.toolResult toolCallId result

end

/-- What the loop of `undo` has decided, without estimates. -/
def UndoCore (s t : UndoState) : Prop :=
  s.kept.map core = t.kept.map core ∧ s.covered = t.covered ∧
    s.removedUserCount = t.removedUserCount

variable {s t : UndoState}

theorem UndoCore.remove (h : UndoCore s t) (index : ℕ) (e e' : HistoryEntry) :
    UndoCore (s.remove index e) (t.remove index e') := by
  obtain ⟨hkept, hcov, hrem⟩ := h
  unfold UndoState.remove
  rw [← hcov]
  split_ifs
  · exact ⟨hkept, by simp, hrem⟩
  · exact ⟨hkept, hcov, hrem⟩

theorem UndoCore.countUser (h : UndoCore s t) : UndoCore s.countUser t.countUser :=
  ⟨h.1, h.2.1, by simp [UndoState.countUser, h.2.2]⟩

theorem UndoCore.keepAll (h : UndoCore s t) {l l' : List HistoryEntry}
    (hl : l.map core = l'.map core) : UndoCore (s.keepAll l) (t.keepAll l') :=
  ⟨by simp [UndoState.keepAll, h.1, hl], h.2.1, h.2.2⟩

theorem undoFrom_core (count : ℤ) {l l' : List HistoryEntry} (hl : l.map core = l'.map core)
    (hs : UndoCore s t) : UndoCore (undoFrom count l s) (undoFrom count l' t) := by
  induction l generalizing l' s t with
  | nil =>
    obtain rfl : l' = [] := List.map_eq_nil_iff.1 hl.symm
    exact hs
  | cons e l ih =>
    obtain ⟨e', l', rfl⟩ : ∃ e' l'', l' = e' :: l'' := by
      cases l' with
      | nil => simp at hl
      | cons e' l' => exact ⟨e', l', rfl⟩
    obtain ⟨hcore, hrest⟩ := List.cons_eq_cons.1 hl
    have hmsg : e.message = e'.message := congrArg Prod.fst hcore
    have hlen : l.length = l'.length := by simpa using congrArg List.length hrest
    unfold undoFrom
    rw [← hmsg, ← hlen, ← hs.2.2]
    split_ifs
    · exact ih hrest ⟨by simp [hcore, hs.1], hs.2.1, rfl⟩
    · exact ⟨(hs.keepAll hl).1, hs.2⟩
    · exact (hs.remove l.length e e').countUser.keepAll hrest
    · exact ih hrest (hs.remove l.length e e').countUser
    · exact ih hrest (hs.remove l.length e e')

theorem undone (h : Similar c d) (count : ℤ) : Similar (c.undone count) (d.undone count) := by
  unfold ContextMemory.undone
  have hcan : c.canUndo count = d.canUndo count := by
    simp [ContextMemory.canUndo, h.length]
  rw [← hcan]
  split_ifs
  · have hrev : c.history.reverse.map core = d.history.reverse.map core := by
      simp [h.history]
    obtain ⟨hkept, hcov, -⟩ := undoFrom_core count hrev
      (s := { kept := [], covered := c.tokenCountCoveredMessageCount, tokenCount := c.tokenCount })
      (t := { kept := [], covered := d.tokenCountCoveredMessageCount, tokenCount := d.tokenCount })
      ⟨rfl, h.covered, rfl⟩
    exact ⟨hkept, hcov, rfl, rfl, rfl, h.nextStep⟩
  · exact h

theorem keptUserMessages (h : Similar c d) : c.keptUserMessages = d.keptUserMessages := by
  simp [ContextMemory.keptUserMessages, h.messages]

theorem compact (h : Similar c d) (isLegacy : Bool) (input : CompactionInput) :
    Similar (c.compact isLegacy input) (d.compact isLegacy input) := by
  have hhist : (c.compactedHistory isLegacy input).map core =
      (d.compactedHistory isLegacy input).map core := by
    unfold compactedHistory
    rw [← h.keptUserMessages]
    split_ifs
    · simp [h.history]
    · rfl
  have hlen : (c.compactedHistory isLegacy input).length =
      (d.compactedHistory isLegacy input).length := by
    simpa using congrArg List.length hhist
  exact ⟨hhist, hlen, rfl, rfl, rfl, h.nextStep⟩

/-- **Restoring a record keeps contexts similar.** -/
theorem restored (h : Similar c d) (r : AgentRecord) : Similar (c.restored r) (d.restored r) := by
  cases r with
  | forked hadGoal =>
    simp only [ContextMemory.restored]
    split_ifs
    · exact h.append _
    · exact h
  | turnPrompt | appendTranscriptMessage => exact h
  | appendMessage m => exact h.append m
  | appendLoopEvent e => exact h.loopEvent e
  | clear => exact ⟨rfl, rfl, rfl, rfl, rfl, h.nextStep⟩
  | applyCompaction i =>
    simp only [ContextMemory.restored, ← h.length]
    exact h.compact _ i
  | undo n => exact h.undone n

end Similar

/-! ### Live runs -/

/-- **An operation whose whole effect is in the log.**  A reminder is taken back only when it is
not the last message, an event writes to an open step, and nothing is copied in; a step left open
at the end of a resume would be open again after the next one. -/
def Recorded (a : Agent) : ContextOp → Prop
  | .loopEvent event => ∀ uuid ∈ event.writesTo, a.context.openStep uuid ≠ none
  | .popMatchedMessage reminder =>
    ∀ m ∈ a.context.lastMessage, reminder.matches m.origin = false
  | .finishResume => a.context.openSteps = []
  | .importMigratedHistory messages => messages = []
  | .useProjectedHistoryFrom messages => messages = []
  | _ => True

instance Recorded.decidable (a : Agent) : (op : ContextOp) → Decidable (Recorded a op)
  | .loopEvent event =>
    inferInstanceAs (Decidable (∀ uuid ∈ event.writesTo, a.context.openStep uuid ≠ none))
  | .popMatchedMessage reminder =>
    inferInstanceAs (Decidable (∀ m ∈ a.context.lastMessage, reminder.matches m.origin = false))
  | .finishResume => inferInstanceAs (Decidable (a.context.openSteps = []))
  | .importMigratedHistory messages => inferInstanceAs (Decidable (messages = []))
  | .useProjectedHistoryFrom messages => inferInstanceAs (Decidable (messages = []))
  | .appendMessage _ | .appendTranscriptMessage _ | .setTransientSystemReminder _ _
  | .clearTransientSystemReminder | .turnPrompt _ | .undo _ | .clear
  | .applyCompaction _ _ _ _ _ => inferInstanceAs (Decidable True)

/-- The log of a live agent replays to a context similar to its own. -/
def ReplaysToLive (a : Agent) : Prop :=
  a.restoring = false ∧ ∃ c, Replays a.records c ∧ Similar c a.context

variable {a : Agent}

theorem Similar.accepts {c d : ContextMemory} (h : Similar c d) {r : AgentRecord}
    (hd : d.accepts r) : c.accepts r := by
  cases r with
  | appendLoopEvent e =>
    intro uuid huuid
    rw [h.openStep]
    exact hd uuid huuid
  | _ => trivial

theorem ReplaysToLive.log (h : ReplaysToLive a) {b : Agent} {r : AgentRecord}
    (hrestoring : b.restoring = a.restoring) (hrecords : b.records = a.records ++ [r])
    (hr : a.context.accepts r)
    (hcontext : Similar (a.context.restored r) b.context) :
    ReplaysToLive b := by
  obtain ⟨ha, c, hc, hsim⟩ := h
  refine ⟨hrestoring.trans ha, _, hrecords ▸ hc.snoc (hsim.accepts hr), ?_⟩
  exact (hsim.restored r).trans hcontext

theorem ReplaysToLive.unlogged (h : ReplaysToLive a) {b : Agent}
    (hrestoring : b.restoring = a.restoring) (hrecords : b.records = a.records)
    (hcontext : Similar a.context b.context) : ReplaysToLive b := by
  obtain ⟨ha, c, hc, hsim⟩ := h
  exact ⟨hrestoring.trans ha, c, hrecords ▸ hc, hsim.trans hcontext⟩

/-- A step that begins is logged in front of the interruptions it causes; they have been made
when their records are restored. -/
theorem ReplaysToLive.loopEvent (h : ReplaysToLive a) {e : LoopRecordedEvent}
    (he : ∀ uuid ∈ e.writesTo, a.context.openStep uuid ≠ none) :
    ReplaysToLive (appendLoopEvent a e).1 := by
  obtain ⟨ha, c, hc, hsim⟩ := h
  have hone := hc.snoc (r := .appendLoopEvent e) (hsim.accepts (r := .appendLoopEvent e) he)
  refine ⟨(appendLoopEvent_restoring a e).trans ha, c.loopEvent e, ?_, ?_⟩
  · rw [appendLoopEvent_records ha]
    cases e with
    | stepBegin uuid turnId =>
      have hpending : (c.loopEvent (.stepBegin uuid turnId)).pendingToolResultIds = .empty :=
        closePending_pending c
      have hall := hone.interruptions a.context.pendingToolResultIds.toList
      rw [restored, foldl_toolResult_of_empty hpending] at hall
      simpa [eventRecords, closingRecords] using hall
    | _ => exact hone
  · rw [appendLoopEvent_context]
    exact hsim.loopEvent e

theorem ReplaysToLive.applyCompaction (h : ReplaysToLive a) (input : CompactionInput) :
    ReplaysToLive (applyCompaction a input).1 := by
  have ha := h.1
  refine h.log (r := .applyCompaction (a.context.compactionResult input)) ?_
    (Agent.logRecord_records ha _) trivial ?_
  · exact Agent.logRecord_restoring _ _
  · have hlive : isLegacyRestore a input = false := by simp [isLegacyRestore, ha]
    simp only [NoriCode.applyCompaction, hlive, restored]
    have hcounted : (a.context.compactionResult input).keptUserMessageCount.isNone = false := rfl
    rw [hcounted, Bool.false_and]
    exact ⟨rfl, rfl, rfl, rfl, rfl, rfl⟩

theorem popMatchedMessage_of_not_matches {reminder : Reminder}
    (h : ∀ m ∈ a.context.lastMessage, reminder.matches m.origin = false) :
    (popMatchedMessage a reminder.matches).1 = a := by
  unfold popMatchedMessage
  cases hlast : a.context.lastMessage with
  | none => rfl
  | some last => simp [h last hlast]

section

variable (h : ReplaysToLive a)

include h

theorem ReplaysToLive.clear : ReplaysToLive (clear a) := by
  refine h.log (r := .clear) ?_ (Agent.logRecord_records h.1 _) trivial ?_
  · exact Agent.logRecord_restoring _ _
  · simpa [NoriCode.clear, restored] using Similar.refl _

theorem ReplaysToLive.appendTranscriptMessage (m : ContextMessage) :
    ReplaysToLive (appendTranscriptMessage a m) := by
  refine h.log (r := .appendTranscriptMessage m) ?_ (Agent.logRecord_records h.1 _) trivial ?_
  · exact Agent.logRecord_restoring _ _
  · simpa [NoriCode.appendTranscriptMessage, restored] using Similar.refl _

theorem ReplaysToLive.undo (count : ℤ) : ReplaysToLive (undo a count).1 := by
  have hrecords := undo_records h.1 count
  cases hcan : a.context.canUndo count with
  | true =>
    rw [hcan, if_pos rfl] at hrecords
    refine h.log (r := .undo count) (undo_restoring a count) hrecords trivial ?_
    rw [undo_context]
    exact Similar.refl _
  | false =>
    rw [hcan, if_neg Bool.false_ne_true, List.append_nil] at hrecords
    refine h.unlogged (undo_restoring a count) hrecords ?_
    rw [undo_context, undone_of_not_canUndo hcan]
    exact Similar.refl _

theorem ReplaysToLive.finishResume (hopen : a.context.openSteps = []) :
    ReplaysToLive (finishResume a) := by
  obtain ⟨ha, c, hc, hsim⟩ := h
  have hsame : { a with context := { a.context with openSteps := [] } } = a := by
    rw [← hopen]
  unfold NoriCode.finishResume
  rw [hsame]
  refine ⟨(closePendingToolResults_restoring a).trans ha, c.closePending, ?_, ?_⟩
  · rw [closePendingToolResults_records ha, closingRecords, ← hsim.pending]
    exact hc.interruptions _
  · rw [closePendingToolResults_context]
    exact hsim.closePending

/-- **One recorded operation.** -/
theorem ReplaysToLive.perform {op : ContextOp} (hop : Recorded a op) :
    ReplaysToLive (perform a op) := by
  have ha := h.1
  cases op with
  | appendMessage m =>
    refine h.log (r := .appendMessage m) ?_ (Agent.logRecord_records ha _) trivial ?_
    · exact Agent.logRecord_restoring _ _
    · simpa [NoriCode.perform, NoriCode.appendMessage, restored] using Similar.refl _
  | appendTranscriptMessage m => exact h.appendTranscriptMessage m
  | setTransientSystemReminder content origin =>
    have hset : ReplaysToLive { a with context :=
        { a.context with
          transientSystemReminder := some (systemReminderMessage content origin) } } :=
      h.unlogged rfl rfl ⟨rfl, rfl, rfl, rfl, rfl, rfl⟩
    unfold NoriCode.perform NoriCode.setTransientSystemReminder
    simp only
    split_ifs
    · exact hset
    · exact hset.appendTranscriptMessage _
  | clearTransientSystemReminder => exact h.unlogged rfl rfl ⟨rfl, rfl, rfl, rfl, rfl, rfl⟩
  | turnPrompt origin =>
    refine h.log (r := .turnPrompt origin) ?_ (Agent.logRecord_records ha _) trivial ?_
    · exact Agent.logRecord_restoring _ _
    · simpa [NoriCode.perform, restored] using Similar.refl _
  | loopEvent e => exact h.loopEvent hop
  | popMatchedMessage reminder =>
    rw [NoriCode.perform, popMatchedMessage_of_not_matches hop]
    exact h
  | undo count => exact h.undo count
  | clear => exact h.clear
  | applyCompaction summary contextSummary compactedCount tokensBefore droppedCount =>
    exact h.applyCompaction _
  | finishResume => exact h.finishResume hop
  | importMigratedHistory messages =>
    obtain rfl : messages = [] := hop
    exact h
  | useProjectedHistoryFrom messages =>
    obtain rfl : messages = [] := hop
    exact h.clear

end

/-- **After a run of recorded operations the log replays to the live history.**  The log of a fresh
agent that performs operations whose whole effect is recorded replays without an error, and to the
same messages, in the same order, with the same token coverage. -/
theorem replay_rebuilds {ops : List ContextOp} {a : Agent}
    (h : LibRun.Run (fun a op => some (perform a op)) Recorded {} ops a) :
    ∃ b, replay a.records = .ok b ∧ b.context.messages = a.context.messages ∧
      b.context.tokenCountCoveredMessageCount = a.context.tokenCountCoveredMessageCount := by
  have hlive : ReplaysToLive a := by
    refine h.invariant ⟨rfl, {}, Replays.nil, Similar.refl _⟩ ?_
    intro t op u ht hop hu
    cases hu
    exact ht.perform hop
  obtain ⟨-, c, ⟨b, hb, rfl⟩, hsim⟩ := hlive
  exact ⟨b, hb, hsim.messages, hsim.covered⟩

def goPrompt : ContextMessage where
  role := .user
  content := [.text "go"]
  toolCalls := []
  origin := some ⟨.user, none⟩

def reviewGateReminder : ContextMessage where
  role := .user
  content := [.text "review"]
  toolCalls := []
  origin := some ⟨.systemTrigger "nori_review_gate", none⟩

/-- A prompt, a step with a tool call and its result, and a reminder that is not taken back. -/
def recordedOps : List ContextOp :=
  [.appendMessage goPrompt, .loopEvent (.stepBegin "s" "0"),
    .loopEvent (.toolCall "s" "a" "Read" none),
    .loopEvent (.toolResult "a" ⟨.text "done", none⟩), .loopEvent (.stepEnd "s" none),
    .appendMessage reviewGateReminder, .popMatchedMessage .goalOutcome]

/-- The agent after some operations. -/
def performAll (ops : List ContextOp) : Agent := ops.foldl perform {}

/-- The theorem at a run with a tool exchange and a reminder that is not taken back. -/
theorem replay_rebuilds_recordedOps :
    ∃ b, replay (performAll recordedOps).records = .ok b ∧
      b.context.messages = (performAll recordedOps).context.messages ∧
      b.context.tokenCountCoveredMessageCount =
        (performAll recordedOps).context.tokenCountCoveredMessageCount :=
  replay_rebuilds (LibRun.run_of_exec (l := recordedOps) rfl (by decide +kernel))

/-- A reminder is appended and taken back, when no step is left for it. -/
def poppedReminder : List ContextOp :=
  [.appendMessage reviewGateReminder, .popMatchedMessage .noriReviewGate]

/-- The live history is empty, but the log brings the reminder back. -/
theorem popped_reminder_comes_back :
    (performAll poppedReminder).context.messages = [] ∧
      ∃ b, replay (performAll poppedReminder).records = .ok b ∧
        b.context.messages = [reviewGateReminder] := by
  refine ⟨by decide +kernel, _, rfl, by decide +kernel⟩

end NoriCode
