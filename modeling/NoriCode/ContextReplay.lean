/-
**Replaying a log into a fresh agent.**

A session is resumed by replaying the records of its log, one after the other, into a fresh agent.
Restoring a record calls the operation that logged it, with logging disabled, so an operation that
changes the context without a record, or whose record does something else when it is restored,
makes the resumed session differ from the live one.

The module embeds `restoreAgentRecord` of `agent/records/index.ts` as far as the context is
concerned.  A fork clears the goal and leaves a reminder if there was one.

Main definitions:

* `ContextOp`, `perform` — the operations of a live agent;
* `restore`, `replay` — restoring a record, and replaying a log;
* `Replays` — the context a log replays to.

Main results:

* `Replays.snoc` — one more record;
* `closePending_pending` — after an interruption nothing waits.
-/

import NoriCode.ContextMemory
import NoriCode.LibRun

namespace NoriCode

open LibOrdSet ContextMemory List

/-! ### Restoring -/

def GOAL_FORK_CLEARED_REMINDER : String :=
  "This fork does not have a current goal. " ++
    "Ignore earlier active-goal reminders from the source session. " ++
    "Handle requests normally unless the user starts a new goal."

def goalForkClearedOrigin : PromptOrigin := ⟨.systemTrigger "goal_fork_cleared", none⟩

def restoreAgentRecord (a : Agent) : AgentRecord → Agent × Option ContextError
  | .forked hadGoal =>
    (if hadGoal then appendSystemReminder a GOAL_FORK_CLEARED_REMINDER goalForkClearedOrigin
      else a, none)
  | .turnPrompt _ => (a, none)
  | .appendMessage message => (appendMessage a message, none)
  | .appendTranscriptMessage message => (appendTranscriptMessage a message, none)
  | .appendLoopEvent event => appendLoopEvent a event
  | .clear => (clear a, none)
  | .applyCompaction result => ((applyCompaction a result).1, none)
  | .undo count => undo a count

/-- `AgentRecords.restore`: logging is disabled while the record is restored. -/
def restore (a : Agent) (record : AgentRecord) : Agent × Option ContextError :=
  let r := restoreAgentRecord { a with restoring := true } record
  ({ r.1 with restoring := false }, r.2)

/-- The replay of records into an agent; it stops at the first error. -/
def replayFrom : Agent → List AgentRecord → Except ContextError Agent
  | a, [] => .ok a
  | a, r :: rs =>
    match (restore a r).2 with
    | none => replayFrom (restore a r).1 rs
    | some e => .error e

/-- **Replaying a log into a fresh agent.** -/
def replay (records : List AgentRecord) : Except ContextError Agent := replayFrom {} records

/-! ### Live operations -/

/-- The reminders that a turn may take back. -/
inductive Reminder where
  | goalOutcome
  | noriReviewGate

/-- `isGoalOutcomeReminderOrigin` and `isNoriReviewGateReminderOrigin`. -/
def Reminder.matches (r : Reminder) (origin : Option PromptOrigin) : Bool :=
  match r, origin.map PromptOrigin.kind with
  | .goalOutcome, some (.systemTrigger name) => name == "goal_completion" || name == "goal_blocked"
  | .noriReviewGate, some (.systemTrigger name) => name == "nori_review_gate"
  | _, _ => false

/-- What a live agent does to its context.  The last three operations end a resume and copy a
history in. -/
inductive ContextOp where
  | appendMessage (message : ContextMessage)
  | appendTranscriptMessage (message : ContextMessage)
  | setTransientSystemReminder (content : String) (origin : PromptOrigin)
  | clearTransientSystemReminder
  | turnPrompt (origin : PromptOrigin)
  | loopEvent (event : LoopRecordedEvent)
  | popMatchedMessage (reminder : Reminder)
  | undo (count : ℤ)
  | clear
  | applyCompaction (summary contextSummary : String) (compactedCount tokensBefore : ℕ)
      (droppedCount : Option ℕ)
  | finishResume
  | importMigratedHistory (messages : List ContextMessage)
  | useProjectedHistoryFrom (messages : List ContextMessage)

/-- The input of a live compaction: everything else is derived from the history. -/
def liveCompaction (summary contextSummary : String) (compactedCount tokensBefore : ℕ)
    (droppedCount : Option ℕ) : CompactionInput where
  summary := summary
  contextSummary := some contextSummary
  compactedCount := compactedCount
  tokensBefore := tokensBefore
  droppedCount := droppedCount

/-- **One operation of a live agent.** -/
def perform (a : Agent) : ContextOp → Agent
  | .appendMessage message => appendMessage a message
  | .appendTranscriptMessage message => appendTranscriptMessage a message
  | .setTransientSystemReminder content origin => setTransientSystemReminder a content origin
  | .clearTransientSystemReminder => clearTransientSystemReminder a
  | .turnPrompt origin => a.logRecord (.turnPrompt origin)
  | .loopEvent event => (appendLoopEvent a event).1
  | .popMatchedMessage reminder => (popMatchedMessage a reminder.matches).1
  | .undo count => (undo a count).1
  | .clear => clear a
  | .applyCompaction summary contextSummary compactedCount tokensBefore droppedCount =>
    (applyCompaction a
      (liveCompaction summary contextSummary compactedCount tokensBefore droppedCount)).1
  | .finishResume => finishResume a
  | .importMigratedHistory messages => importMigratedHistory a messages
  | .useProjectedHistoryFrom messages => importMigratedHistory (clear a) messages

/-- What an operation does to the context. -/
def ContextMemory.performed (c : ContextMemory) : ContextOp → ContextMemory
  | .appendMessage message => c.append message
  | .appendTranscriptMessage _ => c
  | .setTransientSystemReminder content origin =>
    { c with transientSystemReminder := some (systemReminderMessage content origin) }
  | .clearTransientSystemReminder => { c with transientSystemReminder := none }
  | .turnPrompt _ => c
  | .loopEvent event => c.loopEvent event
  | .popMatchedMessage reminder => c.popMatched reminder.matches
  | .undo count => c.undone count
  | .clear => c.cleared
  | .applyCompaction summary contextSummary compactedCount tokensBefore droppedCount =>
    c.compact false (liveCompaction summary contextSummary compactedCount tokensBefore droppedCount)
  | .finishResume => { c with openSteps := [] }.closePending
  | .importMigratedHistory messages => c.pushHistory messages
  | .useProjectedHistoryFrom messages => c.cleared.pushHistory messages

theorem importMigratedHistory_context (a : Agent) (messages : List ContextMessage) :
    (importMigratedHistory a messages).context = a.context.pushHistory messages := by
  unfold importMigratedHistory
  split_ifs with h
  · obtain rfl := length_eq_zero_iff.1 h
    simp [pushHistory]
  · rfl

theorem perform_context (a : Agent) (ha : a.restoring = false) (op : ContextOp) :
    (perform a op).context = a.context.performed op := by
  cases op with
  | appendMessage m => simp [perform, appendMessage, performed]
  | appendTranscriptMessage m => simp [perform, appendTranscriptMessage, performed]
  | setTransientSystemReminder content origin =>
    simp only [perform, setTransientSystemReminder, performed]
    split_ifs <;> simp [appendTranscriptMessage]
  | clearTransientSystemReminder => rfl
  | turnPrompt origin => simp [perform, performed]
  | loopEvent e => exact appendLoopEvent_context a e
  | popMatchedMessage reminder => exact popMatchedMessage_context a _
  | undo count => exact undo_context a count
  | clear => simp [perform, clear, performed]
  | applyCompaction summary contextSummary compactedCount tokensBefore droppedCount =>
    simp [perform, applyCompaction, isLegacyRestore, ha, performed]
  | finishResume => exact closePendingToolResults_context _
  | importMigratedHistory messages => exact importMigratedHistory_context a messages
  | useProjectedHistoryFrom messages =>
    rw [perform, importMigratedHistory_context]
    simp [clear, performed]

/-- The records an operation writes. -/
def ContextMemory.logged (c : ContextMemory) : ContextOp → List AgentRecord
  | .appendMessage message => [.appendMessage message]
  | .appendTranscriptMessage message => [.appendTranscriptMessage message]
  | .setTransientSystemReminder content origin =>
    if c.transientSystemReminder.bind transientReminderText = some (systemReminderText content)
    then []
    else [.appendTranscriptMessage (systemReminderMessage content origin)]
  | .clearTransientSystemReminder => []
  | .turnPrompt origin => [.turnPrompt origin]
  | .loopEvent event => c.eventRecords event
  | .popMatchedMessage _ => []
  | .undo count => if c.canUndo count then [.undo count] else []
  | .clear => [.clear]
  | .applyCompaction summary contextSummary compactedCount tokensBefore droppedCount =>
    [.applyCompaction (c.compactionResult
      (liveCompaction summary contextSummary compactedCount tokensBefore droppedCount))]
  | .finishResume => c.closingRecords
  | .importMigratedHistory _ => []
  | .useProjectedHistoryFrom _ => [.clear]

theorem importMigratedHistory_records (a : Agent) (messages : List ContextMessage) :
    (importMigratedHistory a messages).records = a.records := by
  unfold importMigratedHistory
  split_ifs <;> rfl

variable {a : Agent}

theorem appendTranscriptMessage_records (ha : a.restoring = false) (m : ContextMessage) :
    (appendTranscriptMessage a m).records = a.records ++ [.appendTranscriptMessage m] :=
  Agent.logRecord_records ha _

theorem perform_records (ha : a.restoring = false) (op : ContextOp) :
    (perform a op).records = a.records ++ a.context.logged op := by
  cases op with
  | setTransientSystemReminder content origin =>
    simp only [perform, setTransientSystemReminder, logged]
    split_ifs
    · exact (append_nil _).symm
    · exact appendTranscriptMessage_records (by exact ha) _
  | clearTransientSystemReminder => exact (append_nil _).symm
  | loopEvent e => exact appendLoopEvent_records ha e
  | popMatchedMessage reminder =>
    exact (popMatchedMessage_records a _).1.trans (append_nil _).symm
  | undo count => exact undo_records ha count
  | finishResume =>
    exact closePendingToolResults_records (a :=
      { a with context := { a.context with openSteps := [] } }) ha
  | importMigratedHistory messages =>
    exact (importMigratedHistory_records a messages).trans (append_nil _).symm
  | useProjectedHistoryFrom messages =>
    exact (importMigratedHistory_records _ messages).trans (Agent.logRecord_records ha _)
  | appendMessage | appendTranscriptMessage | turnPrompt | clear | applyCompaction =>
    exact Agent.logRecord_records ha _

theorem perform_restoring (ha : a.restoring = false) (op : ContextOp) :
    (perform a op).restoring = false := by
  cases op with
  | setTransientSystemReminder content origin =>
    simp only [perform, setTransientSystemReminder]
    split_ifs <;> simp [appendTranscriptMessage, ha]
  | loopEvent e => exact (appendLoopEvent_restoring a e).trans ha
  | popMatchedMessage reminder => exact (popMatchedMessage_records a _).2.trans ha
  | undo count => exact (undo_restoring a count).trans ha
  | finishResume => exact (closePendingToolResults_restoring _).trans ha
  | importMigratedHistory messages =>
    simp only [perform, importMigratedHistory]
    split_ifs <;> exact ha
  | useProjectedHistoryFrom messages =>
    simp only [perform, importMigratedHistory]
    split_ifs <;> simp [clear, ha]
  | _ =>
    simp [perform, appendMessage, appendTranscriptMessage, clearTransientSystemReminder, clear,
      applyCompaction, ha]

/-! ### Restoring on contexts -/

/-- What restoring a record does to the context. -/
def ContextMemory.restored (c : ContextMemory) : AgentRecord → ContextMemory
  | .forked hadGoal =>
    if hadGoal then
      c.append (systemReminderMessage GOAL_FORK_CLEARED_REMINDER goalForkClearedOrigin)
    else c
  | .turnPrompt _ => c
  | .appendMessage message => c.append message
  | .appendTranscriptMessage _ => c
  | .appendLoopEvent event => c.loopEvent event
  | .clear => c.cleared
  | .applyCompaction input =>
    c.compact (input.keptUserMessageCount.isNone &&
      decide (input.compactedCount < c.history.length)) input
  | .undo count => c.undone count

/-- A restored record does nothing, or one of these. -/
theorem ContextMemory.restored_rule {P : ContextMemory → Prop} {c : ContextMemory} (h : P c)
    (happend : ∀ message, P (c.append message)) (hevent : ∀ event, P (c.loopEvent event))
    (hclear : P c.cleared) (hcompact : ∀ isLegacy input, P (c.compact isLegacy input))
    (hundo : ∀ count, P (c.undone count)) (r : AgentRecord) : P (c.restored r) := by
  cases r with
  | forked hadGoal =>
    simp only [restored]
    split
    · exact happend _
    · exact h
  | turnPrompt | appendTranscriptMessage => exact h
  | appendMessage message => exact happend message
  | appendLoopEvent event => exact hevent event
  | clear => exact hclear
  | applyCompaction input => exact hcompact _ input
  | undo count => exact hundo count

/-- Whether a record can be restored: its event writes to an open step. -/
def ContextMemory.accepts (c : ContextMemory) : AgentRecord → Prop
  | .appendLoopEvent event => ∀ uuid ∈ event.writesTo, c.openStep uuid ≠ none
  | _ => True

theorem restore_context (a : Agent) (r : AgentRecord) :
    (restore a r).1.context = a.context.restored r := by
  cases r with
  | forked hadGoal =>
    simp only [restore, restoreAgentRecord, restored]
    split_ifs <;> simp [appendSystemReminder, appendMessage]
  | turnPrompt origin => rfl
  | appendMessage m => simp [restore, restoreAgentRecord, restored, appendMessage]
  | appendTranscriptMessage m =>
    simp [restore, restoreAgentRecord, restored, appendTranscriptMessage]
  | appendLoopEvent e =>
    simp [restore, restoreAgentRecord, restored, appendLoopEvent_context]
  | clear => simp [restore, restoreAgentRecord, restored, clear]
  | applyCompaction i =>
    simp [restore, restoreAgentRecord, restored, applyCompaction, isLegacyRestore]
  | undo n => simp [restore, restoreAgentRecord, restored, undo_context]

theorem restore_error (a : Agent) (r : AgentRecord) :
    (restore a r).2 = none ↔ a.context.accepts r := by
  cases r with
  | appendLoopEvent e =>
    exact appendLoopEvent_error _ e
  | undo n =>
    simp only [restore, restoreAgentRecord, accepts, iff_true]
    -- while restoring, `undo` raises no error
    unfold undo undoError
    split_ifs <;> simp
  | _ => simp [restore, restoreAgentRecord, accepts]

/-- **The context a log replays to.** -/
def Replays (records : List AgentRecord) (c : ContextMemory) : Prop :=
  ∃ b, replay records = .ok b ∧ b.context = c

theorem Replays.nil : Replays [] {} := ⟨{}, rfl, rfl⟩

theorem replayFrom_append (a : Agent) (rs rs' : List AgentRecord) :
    replayFrom a (rs ++ rs') =
      match replayFrom a rs with
      | .ok b => replayFrom b rs'
      | .error e => .error e := by
  induction rs generalizing a with
  | nil => rfl
  | cons r rs ih =>
    simp only [cons_append, replayFrom]
    cases (restore a r).2 with
    | some e => rfl
    | none => exact ih _

variable {c : ContextMemory}

theorem Replays.snoc {records : List AgentRecord} (h : Replays records c)
    {r : AgentRecord} (hr : c.accepts r) : Replays (records ++ [r]) (c.restored r) := by
  obtain ⟨b, hb, rfl⟩ := h
  refine ⟨(restore b r).1, ?_, restore_context _ _⟩
  have herr := (restore_error b r).2 hr
  rw [replay] at hb ⊢
  rw [replayFrom_append, hb]
  simp [replayFrom, herr]

/-! ### Interruptions -/

theorem flush_of_open (h : c.hasOpenToolExchange = true) :
    c.flushDeferredMessagesIfToolExchangeClosed = c := if_pos h

theorem flush_pending (c : ContextMemory) :
    c.flushDeferredMessagesIfToolExchangeClosed.pendingToolResultIds = c.pendingToolResultIds := by
  unfold flushDeferredMessagesIfToolExchangeClosed
  split_ifs <;> rfl

theorem mem_toolResult_pending {id x : String} {result : ExecutableToolResult} :
    x ∈ (c.toolResult id result).pendingToolResultIds ↔ x ∈ c.pendingToolResultIds ∧ x ≠ id := by
  unfold toolResult
  split_ifs with h
  · simp [flush_pending, answer]
  · constructor
    · exact fun hx => ⟨hx, fun hxid => h (hxid ▸ hx)⟩
    · exact fun hx => hx.1

theorem mem_foldl_toolResult_pending {result : ExecutableToolResult} {x : String}
    (ids : List String) (c : ContextMemory) :
    x ∈ (ids.foldl (fun c id => c.toolResult id result) c).pendingToolResultIds ↔
      x ∈ c.pendingToolResultIds ∧ x ∉ ids := by
  induction ids generalizing c with
  | nil => simp
  | cons id ids ih =>
    rw [foldl_cons, ih, mem_toolResult_pending, mem_cons, not_or, and_assoc]

theorem closePending_pending (c : ContextMemory) :
    c.closePending.pendingToolResultIds = .empty := by
  apply OrdSet.eq_empty_of_isEmpty
  rw [OrdSet.isEmpty_iff]
  intro x hx
  rw [closePending, mem_foldl_toolResult_pending] at hx
  exact hx.2 (OrdSet.mem_def.1 hx.1)

theorem toolResult_of_notMem {id : String} (h : id ∉ c.pendingToolResultIds)
    (result : ExecutableToolResult) : c.toolResult id result = c := by
  simp [toolResult, h]

theorem foldl_toolResult_of_empty (hc : c.pendingToolResultIds = .empty)
    (result : ExecutableToolResult) (ids : List String) :
    ids.foldl (fun c id => c.toolResult id result) c = c := by
  induction ids with
  | nil => rfl
  | cons id ids ih => rw [foldl_cons, toolResult_of_notMem (by simp [hc]), ih]

theorem Replays.interruptions {records : List AgentRecord}
    (h : Replays records c) (ids : List String) :
    Replays (records ++ ids.map fun id => .appendLoopEvent (.toolResult id interruptedResult))
      (ids.foldl (fun c id => c.toolResult id interruptedResult) c) := by
  induction ids using reverseRecOn with
  | nil => simpa using h
  | append_singleton ids id ih =>
    have hnext := ih.snoc (r := .appendLoopEvent (.toolResult id interruptedResult))
      (by simp [accepts, LoopRecordedEvent.writesTo])
    simpa [restored, loopEvent] using hnext

end NoriCode
