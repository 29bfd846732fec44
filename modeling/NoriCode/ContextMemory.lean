/-
**The context of an agent.**

The context holds the history of the conversation.  It is written by appended messages and by the
events of the agent loop: a step opens an assistant message, which later events of the step fill in
place, and every tool call of the message waits for a result.  While calls wait, appended messages
are deferred.  Every operation first writes a record to the log of the agent; while the agent is
being restored from a log, nothing is written.

The module embeds `agent/context/index.ts`.  An assistant message that a step still writes to is an
object shared between the history and the table of open steps; the sharing is modelled by a number
(`HistoryEntry.step`) that is given to the message when the step begins.  The estimate of a message
is memoized on the object, also while a step still writes to it; `HistoryEntry.tokens` is that memo.
Telemetry, events for the user interface and timestamps are left out.

Main definitions:

* `ContextMemory`, `Agent`, `AgentRecord` — the state and its log;
* `appendMessage`, `appendLoopEvent`, `popMatchedMessage`,
  `undo`, `clear`, `applyCompaction`, `finishResume`,
  `importMigratedHistory` — the operations.
-/

import NoriCode.Handoff
import NoriCode.LibOrdSet

namespace NoriCode

open LibOrdSet ContextMessage

/-! ### Events and records -/

inductive ToolOutput where
  | text (output : String)
  | parts (output : List ContentPart)
  deriving DecidableEq

structure ExecutableToolResult where
  output : ToolOutput
  isError : Option Bool := none
  deriving DecidableEq

structure TokenUsage where
  inputOther : ℕ
  output : ℕ
  inputCacheRead : ℕ
  inputCacheCreation : ℕ
  deriving DecidableEq

/-- The events of the agent loop that are recorded.  The arguments of a call are given as the text
`JSON.stringify` makes of them. -/
inductive LoopRecordedEvent where
  | stepBegin (uuid turnId : String)
  | stepEnd (uuid : String) (usage : Option TokenUsage)
  | contentPart (stepUuid : String) (part : ContentPart)
  | toolCall (stepUuid toolCallId name : String) (args : Option String)
  | toolResult (toolCallId : String) (result : ExecutableToolResult)
  deriving DecidableEq

structure CompactionInput where
  summary : String
  contextSummary : Option String := none
  compactedCount : ℕ
  tokensBefore : ℕ
  tokensAfter : Option ℕ := none
  keptUserMessageCount : Option ℕ := none
  droppedCount : Option ℕ := none
  deriving DecidableEq

/-- The records of the log that concern the context, and the mark of a fork.  Whether a goal is
set in front of that mark is decided by the records of the goal mode, which are left out; the mark
carries it here. -/
inductive AgentRecord where
  | forked (hadGoal : Bool)
  | turnPrompt (origin : PromptOrigin)
  | appendMessage (message : ContextMessage)
  | appendTranscriptMessage (message : ContextMessage)
  | appendLoopEvent (event : LoopRecordedEvent)
  | clear
  | applyCompaction (result : CompactionInput)
  | undo (count : ℤ)
  deriving DecidableEq

/-! ### State -/

/-- A message of the history: the message, the step that may still write to it, and the memoized
estimate of its size. -/
structure HistoryEntry where
  message : ContextMessage
  step : Option ℕ := none
  tokens : Option ℕ := none

namespace HistoryEntry

/-- `estimateTokensForMessage` of the message object, through the memo. -/
def estimate (e : HistoryEntry) : ℕ :=
  e.tokens.getD (estimateTokensForMessage e.message.toMessage)

/-- The object after its size has been estimated. -/
def memoize (e : HistoryEntry) : HistoryEntry := { e with tokens := some e.estimate }

/-- What the entry is without the memo. -/
def core (e : HistoryEntry) : ContextMessage × Option ℕ := (e.message, e.step)

end HistoryEntry

structure ContextMemory where
  history : List HistoryEntry := []
  transientSystemReminder : Option ContextMessage := none
  tokenCount : ℤ := 0
  tokenCountCoveredMessageCount : ℕ := 0
  openSteps : List (String × ℕ) := []
  pendingToolResultIds : OrdSet String := .empty
  deferredMessages : List ContextMessage := []
  /-- The number the next step will get. -/
  nextStep : ℕ := 0

namespace ContextMemory

/-- The messages of the history. -/
def messages (c : ContextMemory) : List ContextMessage := c.history.map (·.message)

/-- `openSteps.get(uuid)`. -/
def openStep (c : ContextMemory) (uuid : String) : Option ℕ := c.openSteps.lookup uuid

def hasOpenToolExchange (c : ContextMemory) : Bool := !c.pendingToolResultIds.isEmpty

end ContextMemory

/-- `map.delete(key)`. -/
def mapDelete (m : List (String × ℕ)) (key : String) : List (String × ℕ) :=
  m.filter (·.1 != key)

/-- `map.set(key, value)`. -/
def mapSet (m : List (String × ℕ)) (key : String) (value : ℕ) : List (String × ℕ) :=
  (key, value) :: mapDelete m key

/-- An agent, as far as its context is concerned: the context, the records logged so far, and
whether the agent is being restored. -/
structure Agent where
  context : ContextMemory := {}
  records : List AgentRecord := []
  restoring : Bool := false

namespace Agent

/-- `records.logRecord`: nothing is logged while restoring. -/
def logRecord (a : Agent) (record : AgentRecord) : Agent :=
  if a.restoring then a else { a with records := a.records ++ [record] }

end Agent

inductive ContextError where
  /-- An event of a step that is not open, with the text of the error. -/
  | unknownStep (message : String)
  /-- Not enough prompts to undo. -/
  | undoLimit (message : String) (requestedCount undoableCount : ℤ) (stoppedAtCompaction : Bool)
  deriving DecidableEq

/-! ### Tool results for the model -/

def TOOL_ERROR_STATUS : String := "<system>ERROR: Tool execution failed.</system>"

def TOOL_EMPTY_STATUS : String := "<system>Tool output is empty.</system>"

def TOOL_EMPTY_ERROR_STATUS : String :=
  "<system>ERROR: Tool execution failed. Tool output is empty.</system>"

def TOOL_OUTPUT_EMPTY_TEXT : String := "Tool output is empty."

def TOOL_INTERRUPTED_ON_RESUME_OUTPUT : String :=
  "Tool execution was interrupted before its result was recorded. " ++
    "Do not assume the tool completed successfully."

def isEmptyOutputText (output : String) : Bool :=
  isBlank output || trim output == TOOL_OUTPUT_EMPTY_TEXT

def isEmptyEquivalentContentArray (output : List ContentPart) : Bool :=
  output.all ContentPart.isBlank

def toolResultOutputForModel (result : ExecutableToolResult) : ToolOutput :=
  match result.output with
  | .text output =>
    if result.isError = some true then
      if output.toList.length = 0 then .text TOOL_EMPTY_ERROR_STATUS
      else if startsWith (trimStart output) "<system>ERROR:" then .text output
      else .text (TOOL_ERROR_STATUS ++ "\n" ++ output)
    else if isEmptyOutputText output then .text TOOL_EMPTY_STATUS
    else .text output
  | .parts output =>
    if isEmptyEquivalentContentArray output then
      .parts [.text
        (if result.isError = some true then TOOL_EMPTY_ERROR_STATUS else TOOL_EMPTY_STATUS)]
    else if result.isError = some true then .parts (.text TOOL_ERROR_STATUS :: output)
    else .parts output

def createToolMessage (toolCallId : String) (output : ToolOutput) : Message where
  role := .tool
  content :=
    match output with
    | .text output => [.text output]
    | .parts output => output
  toolCalls := []
  toolCallId := some toolCallId

/-- The message a tool result becomes. -/
def toolResultMessage (toolCallId : String) (result : ExecutableToolResult) : ContextMessage where
  toMessage := createToolMessage toolCallId (toolResultOutputForModel result)
  isError := result.isError

/-! ### Appending -/

def ContextMemory.pushHistory (c : ContextMemory) (messages : List ContextMessage) :
    ContextMemory :=
  { c with history := c.history ++ messages.map fun m => { message := m } }

theorem ContextMemory.messages_pushHistory (c : ContextMemory) (messages : List ContextMessage) :
    (c.pushHistory messages).messages = c.messages ++ messages := by
  simp [ContextMemory.messages, ContextMemory.pushHistory, Function.comp_def]

def ContextMemory.flushDeferredMessagesIfToolExchangeClosed (c : ContextMemory) : ContextMemory :=
  if c.hasOpenToolExchange then c
  else { c.pushHistory c.deferredMessages with deferredMessages := [] }

/-- The context after a message is appended: it is deferred while calls wait for results. -/
def ContextMemory.append (c : ContextMemory) (message : ContextMessage) : ContextMemory :=
  if c.hasOpenToolExchange then { c with deferredMessages := c.deferredMessages ++ [message] }
  else c.pushHistory [message]

def appendMessage (a : Agent) (message : ContextMessage) : Agent :=
  let a := a.logRecord (.appendMessage message)
  { a with context := a.context.append message }

def appendUserMessage (a : Agent) (content : List ContentPart) (origin : PromptOrigin) : Agent :=
  if content.length = 0 then a
  else appendMessage a { role := .user, content, toolCalls := [], origin := some origin }

def systemReminderText (content : String) : String :=
  "<system-reminder>\n" ++ trim content ++ "\n</system-reminder>"

def systemReminderMessage (content : String) (origin : PromptOrigin) : ContextMessage where
  role := .user
  content := [.text (systemReminderText content)]
  toolCalls := []
  origin := some origin

def appendSystemReminder (a : Agent) (content : String) (origin : PromptOrigin) : Agent :=
  appendMessage a (systemReminderMessage content origin)

/-- `appendTranscriptMessage`: only the record is written. -/
def appendTranscriptMessage (a : Agent) (message : ContextMessage) : Agent :=
  a.logRecord (.appendTranscriptMessage message)

/-- The text of a message that is a single text part. -/
def transientReminderText (message : ContextMessage) : Option String :=
  match message.content with
  | [.text text] => some text
  | _ => none

def setTransientSystemReminder (a : Agent) (content : String) (origin : PromptOrigin) : Agent :=
  let message := systemReminderMessage content origin
  let unchanged :=
    a.context.transientSystemReminder.bind transientReminderText = some (systemReminderText content)
  let a := { a with context := { a.context with transientSystemReminder := some message } }
  if unchanged then a else appendTranscriptMessage a message

def clearTransientSystemReminder (a : Agent) : Agent :=
  { a with context := { a.context with transientSystemReminder := none } }

/-- `importMigratedHistory`: a prior transcript is copied in, without a record. -/
def importMigratedHistory (a : Agent) (messages : List ContextMessage) : Agent :=
  if messages.length = 0 then a else { a with context := a.context.pushHistory messages }

/-! ### Loop events -/

/-- The message object that a step writes to, changed in place. -/
def ContextMemory.updateStep (c : ContextMemory) (step : ℕ) (f : ContextMessage → ContextMessage) :
    ContextMemory :=
  { c with history := c.history.map fun e =>
      if e.step = some step then { e with message := f e.message } else e }

/-- The message of a result is pushed, and the call no longer waits. -/
def ContextMemory.answer (c : ContextMemory) (toolCallId : String)
    (result : ExecutableToolResult) : ContextMemory :=
  { c.pushHistory [toolResultMessage toolCallId result] with
    pendingToolResultIds := c.pendingToolResultIds.erase toolCallId }

/-- The event `tool.result`: a result that nothing waits for is dropped. -/
def ContextMemory.toolResult (c : ContextMemory) (toolCallId : String)
    (result : ExecutableToolResult) : ContextMemory :=
  if toolCallId ∈ c.pendingToolResultIds then
    (c.answer toolCallId result).flushDeferredMessagesIfToolExchangeClosed
  else c

def appendToolResult (a : Agent) (toolCallId : String) (result : ExecutableToolResult) : Agent :=
  let a := a.logRecord (.appendLoopEvent (.toolResult toolCallId result))
  { a with context := a.context.toolResult toolCallId result }

def interruptedResult : ExecutableToolResult where
  output := .text TOOL_INTERRUPTED_ON_RESUME_OUTPUT
  isError := some true

/-- `closePendingToolResults`: every waiting call gets the result of an interruption. -/
def closePendingToolResults (a : Agent) : Agent :=
  a.context.pendingToolResultIds.toList.foldl
    (fun a toolCallId => appendToolResult a toolCallId interruptedResult) a

/-- The new assistant message of a step. -/
def stepMessage : ContextMessage where
  role := .assistant
  content := []
  toolCalls := []

def ContextMemory.beginStep (c : ContextMemory) (uuid : String) : ContextMemory :=
  { c with
    history := c.history ++ [{ message := stepMessage, step := some c.nextStep }]
    openSteps := mapSet c.openSteps uuid c.nextStep
    nextStep := c.nextStep + 1 }

def TokenUsage.total (usage : TokenUsage) : ℕ :=
  usage.inputCacheRead + usage.inputCacheCreation + usage.inputOther + usage.output

/-- The number of messages a finished step accounts for: those up to its own message, if that is
in the history. -/
def ContextMemory.coveredCount (c : ContextMemory) (uuid : String) : ℕ :=
  match c.openStep uuid with
  | none => c.history.length
  | some step =>
    match c.history.findIdx? (·.step == some step) with
    | none => c.history.length
    | some i => i + 1

/-- The accounting of `step.end`.  A usage of zero is no count, so the newly covered messages are
estimated instead. -/
def ContextMemory.account (c : ContextMemory) (usage : TokenUsage) (coveredCount : ℕ) :
    ContextMemory :=
  if usage.total > 0 then
    { c with tokenCount := usage.total, tokenCountCoveredMessageCount := coveredCount }
  else
    let previous := c.tokenCountCoveredMessageCount
    let newly := (c.history.take coveredCount).drop previous
    { c with
      tokenCount := c.tokenCount + (newly.map HistoryEntry.estimate).sum
      history := c.history.mapIdx fun i e =>
        if previous ≤ i ∧ i < coveredCount then e.memoize else e
      tokenCountCoveredMessageCount := coveredCount }

def ContextMemory.endStep (c : ContextMemory) (uuid : String) (usage : Option TokenUsage) :
    ContextMemory :=
  let coveredCount := c.coveredCount uuid
  let c := { c with openSteps := mapDelete c.openSteps uuid }
  let c :=
    match usage with
    | none => c
    | some usage => c.account usage coveredCount
  c.flushDeferredMessagesIfToolExchangeClosed

def ContextMessage.addContent (part : ContentPart) (m : ContextMessage) : ContextMessage :=
  { m with content := m.content ++ [part] }

def ContextMessage.addToolCall (call : ToolCall) (m : ContextMessage) : ContextMessage :=
  { m with toolCalls := m.toolCalls ++ [call] }

def unknownStepError (what stepUuid : String) : ContextError :=
  .unknownStep ("Received " ++ what ++ " for unknown step_uuid '" ++ stepUuid ++
    "' (no open step_begin)")

/-- **`appendLoopEvent`**, with the error it raises. -/
def appendLoopEvent (a : Agent) (event : LoopRecordedEvent) : Agent × Option ContextError :=
  match event with
  | .stepBegin uuid _ =>
    let a := closePendingToolResults (a.logRecord (.appendLoopEvent event))
    ({ a with context := a.context.beginStep uuid }, none)
  | .stepEnd uuid usage =>
    let a := a.logRecord (.appendLoopEvent event)
    ({ a with context := a.context.endStep uuid usage }, none)
  | .contentPart stepUuid part =>
    let a := a.logRecord (.appendLoopEvent event)
    match a.context.openStep stepUuid with
    | none => (a, some (unknownStepError "content_part" stepUuid))
    | some step =>
      ({ a with context := a.context.updateStep step (addContent part) }, none)
  | .toolCall stepUuid toolCallId name args =>
    let a := a.logRecord (.appendLoopEvent event)
    match a.context.openStep stepUuid with
    | none => (a, some (unknownStepError "tool_call" stepUuid))
    | some step =>
      let c := a.context.updateStep step (addToolCall ⟨toolCallId, name, args⟩)
      ({ a with context :=
          { c with pendingToolResultIds := c.pendingToolResultIds.insert toolCallId } }, none)
  | .toolResult toolCallId result => (appendToolResult a toolCallId result, none)

/-- `finishResume`: no step goes on, and no call will get its result. -/
def finishResume (a : Agent) : Agent :=
  closePendingToolResults { a with context := { a.context with openSteps := [] } }

/-! ### Taking messages back -/

/-- The last message, which may be taken back: the last deferred one, or the last of the history. -/
def ContextMemory.lastMessage (c : ContextMemory) : Option ContextMessage :=
  c.deferredMessages.getLast?.or (c.history.getLast?.map (·.message))

/-- The context without its last message. -/
def ContextMemory.dropLastMessage (c : ContextMemory) : ContextMemory :=
  if c.deferredMessages.length > 0 then
    { c with deferredMessages := c.deferredMessages.dropLast }
  else { c with history := c.history.dropLast }

/-- `popMatchedMessage`: the last message is taken back, if its origin matches; whether it was. -/
def popMatchedMessage (a : Agent) (matcher : Option PromptOrigin → Bool) : Agent × Bool :=
  match a.context.lastMessage with
  | none => (a, false)
  | some last =>
    if matcher last.origin then ({ a with context := a.context.dropLastMessage }, true)
    else (a, false)

/-- An empty context. -/
def ContextMemory.cleared (c : ContextMemory) : ContextMemory := { nextStep := c.nextStep }

def clear (a : Agent) : Agent :=
  let a := a.logRecord .clear
  { a with context := a.context.cleared }

/-- The loop of `undo`: what it has decided so far, from the end of the history. -/
structure UndoState where
  /-- The messages that stay, of those the loop has passed. -/
  kept : List HistoryEntry
  covered : ℕ
  tokenCount : ℤ
  removedUserCount : ℤ := 0
  stoppedAtBoundary : Bool := false

/-- The message at the index is removed. -/
def UndoState.remove (s : UndoState) (index : ℕ) (e : HistoryEntry) : UndoState :=
  if index < s.covered then
    { s with covered := s.covered - 1, tokenCount := s.tokenCount - e.estimate }
  else s

/-- One more user message has been removed. -/
def UndoState.countUser (s : UndoState) : UndoState :=
  { s with removedUserCount := s.removedUserCount + 1 }

/-- The messages of the rest of the loop stay as well. -/
def UndoState.keepAll (s : UndoState) (older : List HistoryEntry) : UndoState :=
  { s with kept := older.reverse ++ s.kept }

/-- The loop of `undo` over the history from its end: injections stay, a summary ends the loop,
everything else is removed until enough user input has been. -/
def undoFrom (count : ℤ) : List HistoryEntry → UndoState → UndoState
  | [], s => s
  | e :: older, s =>
    if e.message.isInjection then undoFrom count older { s with kept := e :: s.kept }
    else if e.message.isCompactionSummary then
      { s.keepAll (e :: older) with stoppedAtBoundary := true }
    else if isRealUserInput e.message then
      if s.removedUserCount + 1 ≥ count then
        (s.remove older.length e).countUser.keepAll older
      else undoFrom count older (s.remove older.length e).countUser
    else undoFrom count older (s.remove older.length e)

def formatPromptCount (count : ℤ) : String :=
  toString count ++ " " ++ if count = 1 then "prompt" else "prompts"

def formatUndoUnavailableMessage (requestedCount undoableCount : ℤ) (stoppedAtCompaction : Bool) :
    String :=
  "Cannot undo " ++ formatPromptCount requestedCount ++ "; only " ++
    formatPromptCount undoableCount ++ " can be undone in the active context" ++
    (if stoppedAtCompaction then " after the last compaction" else "") ++ "."

def ContextMemory.undoLoop (c : ContextMemory) (count : ℤ) : UndoState :=
  undoFrom count c.history.reverse
    { kept := [], covered := c.tokenCountCoveredMessageCount, tokenCount := c.tokenCount }

/-- The context after the loop of `undo`. -/
def ContextMemory.afterUndo (c : ContextMemory) (count : ℤ) : ContextMemory :=
  let s := c.undoLoop count
  { history := s.kept, tokenCount := s.tokenCount, tokenCountCoveredMessageCount := s.covered
    nextStep := c.nextStep }

/-- The error of `undo` when the loop could not remove enough; none while restoring. -/
def undoError (a : Agent) (count : ℤ) : Option ContextError :=
  let s := a.context.undoLoop count
  if a.restoring = false ∧ (s.stoppedAtBoundary = true ∨ s.removedUserCount < count) then
    some (.undoLimit (formatUndoUnavailableMessage count s.removedUserCount s.stoppedAtBoundary)
      count s.removedUserCount s.stoppedAtBoundary)
  else none

/-- An undo does something when it counts and there is a history. -/
def ContextMemory.canUndo (c : ContextMemory) (count : ℤ) : Bool :=
  !(decide (count ≤ 0) || c.history.length == 0)

/-- **`undo`**, with the error it raises after it has removed what can be removed. -/
def undo (a : Agent) (count : ℤ) : Agent × Option ContextError :=
  if a.context.canUndo count then
    ({ a.logRecord (.undo count) with context := a.context.afterUndo count }, undoError a count)
  else (a, none)

/-! ### Compaction -/

def summaryMessage (contextSummary : String) : ContextMessage where
  role := .user
  content := [.text contextSummary]
  toolCalls := []
  origin := some ⟨.compactionSummary, none⟩

/-- The user messages compaction keeps. -/
def ContextMemory.keptUserMessages (c : ContextMemory) : List ContextMessage :=
  selectRecentUserMessages (collectCompactableUserMessages c.messages)
    COMPACT_USER_MESSAGE_MAX_TOKENS

/-- The result of a compaction: what the input leaves open is derived from the history. -/
def ContextMemory.compactionResult (c : ContextMemory) (input : CompactionInput) :
    CompactionInput :=
  let contextSummary := input.contextSummary.getD input.summary
  { input with
    contextSummary := some contextSummary
    tokensAfter := some (input.tokensAfter.getD (estimateTokens contextSummary +
      estimateTokensForMessages (c.keptUserMessages.map (·.toMessage))))
    keptUserMessageCount := some (input.keptUserMessageCount.getD c.keptUserMessages.length) }

/-- A record from before the number of kept messages was recorded. -/
def isLegacyRestore (a : Agent) (input : CompactionInput) : Bool :=
  a.restoring && input.keptUserMessageCount.isNone &&
    decide (input.compactedCount < a.context.history.length)

/-- The history after a compaction. -/
def ContextMemory.compactedHistory (c : ContextMemory) (isLegacy : Bool)
    (input : CompactionInput) : List HistoryEntry :=
  let summary : HistoryEntry :=
    { message := summaryMessage (input.contextSummary.getD input.summary) }
  if isLegacy then summary :: c.history.drop input.compactedCount
  else c.keptUserMessages.map (fun m => { message := m }) ++ [summary]

/-- The context after a compaction. -/
def ContextMemory.compact (c : ContextMemory) (isLegacy : Bool) (input : CompactionInput) :
    ContextMemory :=
  { c with
    history := c.compactedHistory isLegacy input
    openSteps := []
    pendingToolResultIds := .empty
    deferredMessages := []
    tokenCount := ((c.compactionResult input).tokensAfter.getD 0 : ℕ)
    tokenCountCoveredMessageCount := (c.compactedHistory isLegacy input).length }

/-- **`applyCompaction`.** -/
def applyCompaction (a : Agent) (input : CompactionInput) : Agent × CompactionInput :=
  let result := a.context.compactionResult input
  let context := a.context.compact (isLegacyRestore a input) input
  ({ a.logRecord (.applyCompaction result) with context }, result)

/-! ### What every operation does to the context and to the log -/

namespace Agent

@[simp] theorem logRecord_context (a : Agent) (r : AgentRecord) :
    (a.logRecord r).context = a.context := by
  unfold logRecord
  split_ifs <;> rfl

@[simp] theorem logRecord_restoring (a : Agent) (r : AgentRecord) :
    (a.logRecord r).restoring = a.restoring := by
  unfold logRecord
  split_ifs <;> rfl

theorem logRecord_records {a : Agent} (h : a.restoring = false) (r : AgentRecord) :
    (a.logRecord r).records = a.records ++ [r] := by
  simp [logRecord, h]

end Agent

theorem core_memoize (l : List HistoryEntry) (p : ℕ → Prop) [DecidablePred p] :
    (l.mapIdx fun i e => if p i then e.memoize else e).map HistoryEntry.core =
      l.map HistoryEntry.core := by
  refine List.ext_getElem? fun i => ?_
  rw [List.getElem?_map, List.getElem?_mapIdx, List.getElem?_map]
  cases l[i]? with
  | none => rfl
  | some e =>
    by_cases hp : p i
    · simp [hp, HistoryEntry.core, HistoryEntry.memoize]
    · simp [hp]

section

variable (c : ContextMemory) (usage : TokenUsage) (n : ℕ)

theorem ContextMemory.account_core :
    (c.account usage n).history.map HistoryEntry.core = c.history.map HistoryEntry.core := by
  unfold account
  split_ifs
  · rfl
  · exact core_memoize _ _

theorem ContextMemory.account_messages : (c.account usage n).messages = c.messages := by
  simpa [messages, HistoryEntry.core, Function.comp_def] using
    congrArg (List.map Prod.fst) (c.account_core usage n)

theorem ContextMemory.account_rest :
    (c.account usage n).pendingToolResultIds = c.pendingToolResultIds ∧
      (c.account usage n).deferredMessages = c.deferredMessages ∧
      (c.account usage n).openSteps = c.openSteps ∧
      (c.account usage n).nextStep = c.nextStep := by
  unfold account
  split_ifs <;> exact ⟨rfl, rfl, rfl, rfl⟩

end

/-- Every waiting call gets the result of an interruption. -/
def ContextMemory.closePending (c : ContextMemory) : ContextMemory :=
  c.pendingToolResultIds.toList.foldl (fun c id => c.toolResult id interruptedResult) c

/-- What an event of the loop does to the context; an event of an unknown step does nothing. -/
def ContextMemory.loopEvent (c : ContextMemory) : LoopRecordedEvent → ContextMemory
  | .stepBegin uuid _ => c.closePending.beginStep uuid
  | .stepEnd uuid usage => c.endStep uuid usage
  | .contentPart stepUuid part =>
    match c.openStep stepUuid with
    | none => c
    | some step => c.updateStep step (addContent part)
  | .toolCall stepUuid toolCallId name args =>
    match c.openStep stepUuid with
    | none => c
    | some step =>
      { c.updateStep step (addToolCall ⟨toolCallId, name, args⟩) with
        pendingToolResultIds := c.pendingToolResultIds.insert toolCallId }
  | .toolResult toolCallId result => c.toolResult toolCallId result

section

variable {c : ContextMemory} {P : ContextMemory → Prop}

/-- What a result keeps holds behind the results of all interrupted calls. -/
theorem ContextMemory.closePending_rule (h : P c)
    (hresult : ∀ c, P c → ∀ id, P (c.toolResult id interruptedResult)) : P c.closePending := by
  unfold closePending
  generalize c.pendingToolResultIds.toList = ids
  induction ids generalizing c with
  | nil => exact h
  | cons id ids ih => exact ih (hresult c h id)

/-- An event of the loop does nothing, or one of these. -/
theorem ContextMemory.loopEvent_rule (h : P c) (hbegin : ∀ uuid, P (c.closePending.beginStep uuid))
    (hend : ∀ uuid usage, P (c.endStep uuid usage))
    (hpart : ∀ n part, P (c.updateStep n (addContent part)))
    (hcall : ∀ (n : ℕ) (toolCall : ToolCall), P
      { c.updateStep n (addToolCall toolCall) with
        pendingToolResultIds := c.pendingToolResultIds.insert toolCall.id })
    (hresult : ∀ id result, P (c.toolResult id result)) (e : LoopRecordedEvent) :
    P (c.loopEvent e) := by
  cases e with
  | stepBegin uuid turnId => exact hbegin uuid
  | stepEnd uuid usage => exact hend uuid usage
  | contentPart stepUuid part =>
    simp only [loopEvent]
    cases c.openStep stepUuid with
    | none => exact h
    | some n => exact hpart n part
  | toolCall stepUuid toolCallId name args =>
    simp only [loopEvent]
    cases c.openStep stepUuid with
    | none => exact h
    | some n => exact hcall n ⟨toolCallId, name, args⟩
  | toolResult toolCallId result => exact hresult toolCallId result

end

/-- The step an event writes to. -/
def LoopRecordedEvent.writesTo : LoopRecordedEvent → Option String
  | .contentPart stepUuid _ => some stepUuid
  | .toolCall stepUuid _ _ _ => some stepUuid
  | _ => none

theorem foldl_appendToolResult (ids : List String) (a : Agent) :
    (ids.foldl (fun a id => appendToolResult a id interruptedResult) a).context =
        ids.foldl (fun c id => c.toolResult id interruptedResult) a.context ∧
      (ids.foldl (fun a id => appendToolResult a id interruptedResult) a).restoring = a.restoring ∧
      (a.restoring = false →
        (ids.foldl (fun a id => appendToolResult a id interruptedResult) a).records =
          a.records ++ ids.map fun id => .appendLoopEvent (.toolResult id interruptedResult)) := by
  induction ids generalizing a with
  | nil => simp
  | cons id ids ih =>
    obtain ⟨h₁, h₂, h₃⟩ := ih (appendToolResult a id interruptedResult)
    refine ⟨?_, ?_, fun ha => ?_⟩
    · simpa [appendToolResult] using h₁
    · simpa [appendToolResult] using h₂
    · have hrec := h₃ (by simpa [appendToolResult] using ha)
      rw [List.foldl_cons, hrec]
      simp [appendToolResult, Agent.logRecord, ha]

variable (a : Agent)

theorem closePendingToolResults_context :
    (closePendingToolResults a).context = a.context.closePending :=
  (foldl_appendToolResult _ a).1

theorem closePendingToolResults_restoring : (closePendingToolResults a).restoring = a.restoring :=
  (foldl_appendToolResult _ a).2.1

/-- The records of interruptions that close a context. -/
def ContextMemory.closingRecords (c : ContextMemory) : List AgentRecord :=
  c.pendingToolResultIds.toList.map fun id => .appendLoopEvent (.toolResult id interruptedResult)

theorem closePendingToolResults_records {a : Agent} (h : a.restoring = false) :
    (closePendingToolResults a).records = a.records ++ a.context.closingRecords :=
  (foldl_appendToolResult _ a).2.2 h

theorem appendLoopEvent_context (e : LoopRecordedEvent) :
    (appendLoopEvent a e).1.context = a.context.loopEvent e := by
  cases e with
  | stepBegin uuid turnId =>
    simp [appendLoopEvent, ContextMemory.loopEvent, closePendingToolResults_context]
  | stepEnd uuid usage => simp [appendLoopEvent, ContextMemory.loopEvent]
  | contentPart stepUuid part =>
    simp only [appendLoopEvent, ContextMemory.loopEvent, Agent.logRecord_context]
    cases a.context.openStep stepUuid <;> simp
  | toolCall stepUuid toolCallId name args =>
    simp only [appendLoopEvent, ContextMemory.loopEvent, Agent.logRecord_context]
    cases a.context.openStep stepUuid <;> simp [ContextMemory.updateStep]
  | toolResult toolCallId result =>
    simp [appendLoopEvent, appendToolResult, ContextMemory.loopEvent]

theorem appendLoopEvent_restoring (e : LoopRecordedEvent) :
    (appendLoopEvent a e).1.restoring = a.restoring := by
  cases e with
  | stepBegin uuid turnId => simp [appendLoopEvent, closePendingToolResults_restoring]
  | stepEnd uuid usage => simp [appendLoopEvent]
  | contentPart stepUuid part | toolCall stepUuid toolCallId name args =>
    simp only [appendLoopEvent, Agent.logRecord_context]
    cases a.context.openStep stepUuid <;> simp
  | toolResult toolCallId result => simp [appendLoopEvent, appendToolResult]

/-- The records an event writes: its own, and those of the calls it interrupts. -/
def ContextMemory.eventRecords (c : ContextMemory) (e : LoopRecordedEvent) : List AgentRecord :=
  .appendLoopEvent e ::
    match e with
    | .stepBegin _ _ => c.closingRecords
    | _ => []

theorem appendLoopEvent_records {a : Agent} (h : a.restoring = false) (e : LoopRecordedEvent) :
    (appendLoopEvent a e).1.records = a.records ++ a.context.eventRecords e := by
  cases e with
  | stepBegin uuid turnId =>
    simp [appendLoopEvent, closePendingToolResults_records, h, Agent.logRecord_records,
      ContextMemory.eventRecords]
  | stepEnd uuid usage =>
    simp [appendLoopEvent, h, Agent.logRecord_records, ContextMemory.eventRecords]
  | contentPart stepUuid part | toolCall stepUuid toolCallId name args =>
    simp only [appendLoopEvent, Agent.logRecord_context]
    cases a.context.openStep stepUuid <;>
      simp [h, Agent.logRecord_records, ContextMemory.eventRecords]
  | toolResult toolCallId result =>
    simp [appendLoopEvent, appendToolResult, h, Agent.logRecord_records, ContextMemory.eventRecords]

theorem appendLoopEvent_error (e : LoopRecordedEvent) :
    (appendLoopEvent a e).2 = none ↔ ∀ uuid ∈ e.writesTo, a.context.openStep uuid ≠ none := by
  cases e with
  | stepBegin | stepEnd | toolResult => simp [appendLoopEvent, LoopRecordedEvent.writesTo]
  | contentPart stepUuid part | toolCall stepUuid toolCallId name args =>
    simp only [appendLoopEvent, Agent.logRecord_context, LoopRecordedEvent.writesTo]
    cases h : a.context.openStep stepUuid <;> simp [h]

/-- The context after its last message is taken back, if its origin matches. -/
def ContextMemory.popMatched (c : ContextMemory) (matcher : Option PromptOrigin → Bool) :
    ContextMemory :=
  if c.lastMessage.any (fun m => matcher m.origin) then c.dropLastMessage else c

theorem popMatchedMessage_context (matcher : Option PromptOrigin → Bool) :
    (popMatchedMessage a matcher).1.context = a.context.popMatched matcher := by
  unfold popMatchedMessage ContextMemory.popMatched
  cases a.context.lastMessage with
  | none => rfl
  | some last =>
    simp only [Option.any_some]
    split_ifs <;> rfl

theorem popMatchedMessage_records (matcher : Option PromptOrigin → Bool) :
    (popMatchedMessage a matcher).1.records = a.records ∧
      (popMatchedMessage a matcher).1.restoring = a.restoring := by
  unfold popMatchedMessage
  cases a.context.lastMessage with
  | none => exact ⟨rfl, rfl⟩
  | some last =>
    simp only
    split_ifs <;> exact ⟨rfl, rfl⟩

/-- The context after an undo. -/
def ContextMemory.undone (c : ContextMemory) (count : ℤ) : ContextMemory :=
  if c.canUndo count then c.afterUndo count else c

theorem ContextMemory.undone_of_not_canUndo {c : ContextMemory} {count : ℤ}
    (h : c.canUndo count = false) : c.undone count = c := by
  rw [undone, h, if_neg Bool.false_ne_true]

theorem undo_context (count : ℤ) : (undo a count).1.context = a.context.undone count := by
  unfold undo ContextMemory.undone
  split_ifs <;> rfl

theorem undo_restoring (count : ℤ) : (undo a count).1.restoring = a.restoring := by
  unfold undo
  split_ifs
  · exact Agent.logRecord_restoring _ _
  · rfl

theorem undo_records {a : Agent} (h : a.restoring = false) (count : ℤ) :
    (undo a count).1.records =
      a.records ++ if a.context.canUndo count then [.undo count] else [] := by
  unfold undo
  split_ifs
  · exact Agent.logRecord_records h _
  · exact (List.append_nil _).symm

end NoriCode
