/-
**The transcript of a session.**

The message service shows the whole conversation, also the part that compaction has folded away.
It does not ask the agent: it reduces the records of the log once more, to a transcript that keeps
everything, and to the length the history of the live context has after the same records.

The module embeds `reduceWireRecords` of `services/message/transcript.ts`.  Entries of the
transcript are objects that an open step and the list of entries without a turn still write to; as
in the context, such an object is known by a number (`MutableEntry.ref`).  The times of the records
are left out.

Main definitions:

* `WireTranscript` — the state of the reducer;
* `WireTranscript.reduce`, `reduceWireRecords` — one record, and a log.
-/

import NoriCode.ContextMemory

namespace NoriCode

/-! ### State -/

structure MutableEntry where
  message : ContextMessage
  turnId : Option String
  ref : ℕ
  deriving DecidableEq

structure WireTranscript where
  transcript : List MutableEntry := []
  /-- What the length of the live history would be right now. -/
  foldedLength : ℕ := 0
  /-- The index that `context.undo` may not cross. -/
  clearFloor : ℕ := 0
  openSteps : List (String × ℕ) := []
  pendingToolResults : List (String × Option String) := []
  deferred : List MutableEntry := []
  transcriptOnlyDeferred : List MutableEntry := []
  currentTurnId : Option String := none
  pendingTurnEntries : List ℕ := []
  nextRef : ℕ := 0

/-- `map.set(key, value)` for a map whose order matters: a key keeps its place. -/
def orderedMapSet (m : List (String × Option String)) (key : String) (value : Option String) :
    List (String × Option String) :=
  if (m.map Prod.fst).contains key then m.map fun p => if p.1 = key then (key, value) else p
  else m ++ [(key, value)]

/-- `map.delete(key)`. -/
def orderedMapDelete (m : List (String × Option String)) (key : String) :
    List (String × Option String) :=
  m.filter (·.1 != key)

/-! ### Tool results -/

def toolResultContent (result : ExecutableToolResult) : List ContentPart :=
  match result.output with
  | .text output =>
    if result.isError = some true then
      if output.toList.length = 0 then [.text TOOL_EMPTY_ERROR_STATUS]
      else if startsWith (trimStart output) "<system>ERROR:" then [.text output]
      else [.text (TOOL_ERROR_STATUS ++ "\n" ++ output)]
    else if output.toList.length = 0 ∨ trim output = TOOL_OUTPUT_EMPTY_TEXT then
      [.text TOOL_EMPTY_STATUS]
    else [.text output]
  | .parts output =>
    if output.length = 0 then
      [.text (if result.isError = some true then TOOL_EMPTY_ERROR_STATUS else TOOL_EMPTY_STATUS)]
    else if result.isError = some true then .text TOOL_ERROR_STATUS :: output
    else output

def transcriptToolMessage (toolCallId : String) (result : ExecutableToolResult) :
    ContextMessage where
  role := .tool
  content := toolResultContent result
  toolCalls := []
  toolCallId := some toolCallId
  isError := result.isError

namespace WireTranscript

/-! ### Entries -/

/-- A new entry, with the number it gets. -/
def newEntry (t : WireTranscript) (message : ContextMessage) (turnId : Option String) :
    MutableEntry :=
  { message, turnId, ref := t.nextRef }

def push (t : WireTranscript) (entries : List MutableEntry) : WireTranscript :=
  { t with
    transcript := t.transcript ++ entries
    foldedLength := t.foldedLength + entries.length }

def flushDeferredIfToolExchangeClosed (t : WireTranscript) : WireTranscript :=
  if t.pendingToolResults.length > 0 then t
  else
    let t := { t.push t.deferred with deferred := [] }
    { t with
      transcript := t.transcript ++ t.transcriptOnlyDeferred
      transcriptOnlyDeferred := [] }

/-- One interrupted call is closed. -/
def closeOne (t : WireTranscript) (p : String × Option String) : WireTranscript :=
  let entry := t.newEntry (transcriptToolMessage p.1 interruptedResult) p.2
  { t.push [entry] with
    pendingToolResults := orderedMapDelete t.pendingToolResults p.1
    nextRef := t.nextRef + 1 }

def closePendingToolResults (t : WireTranscript) : WireTranscript :=
  if t.pendingToolResults.length = 0 then t
  else (t.pendingToolResults.foldl closeOne t).flushDeferredIfToolExchangeClosed

def resetOpenState (t : WireTranscript) : WireTranscript :=
  { t with
    openSteps := []
    pendingToolResults := []
    deferred := []
    transcriptOnlyDeferred := []
    pendingTurnEntries := []
    currentTurnId := none }

/-- The object with the number is changed in place. -/
def updateEntry (ref : ℕ) (f : MutableEntry → MutableEntry) (es : List MutableEntry) :
    List MutableEntry :=
  es.map fun e => if e.ref = ref then f e else e

/-- The entries without a turn get one, wherever they are. -/
def assignTurn (t : WireTranscript) (turnId : String) : WireTranscript :=
  let assign (es : List MutableEntry) := es.map fun e =>
    if e.ref ∈ t.pendingTurnEntries then { e with turnId := some turnId } else e
  { t with
    transcript := assign t.transcript
    deferred := assign t.deferred
    transcriptOnlyDeferred := assign t.transcriptOnlyDeferred
    pendingTurnEntries := [] }

/-! ### Loop events -/

def beginStep (t : WireTranscript) (uuid turnId : String) : WireTranscript :=
  let t := { t with currentTurnId := some turnId }.assignTurn turnId
  let entry := t.newEntry stepMessage (some turnId)
  { t.push [entry] with
    openSteps := mapSet t.openSteps uuid entry.ref
    nextRef := t.nextRef + 1 }

/-- The message object of an open step, changed in place. -/
def updateStep (t : WireTranscript) (ref : ℕ) (f : ContextMessage → ContextMessage) :
    WireTranscript :=
  { t with transcript := updateEntry ref (fun e => { e with message := f e.message }) t.transcript }

/-- The turn of the object. -/
def turnOf (t : WireTranscript) (ref : ℕ) : Option String :=
  (t.transcript.find? (·.ref == ref)).bind (·.turnId)

def toolResult (t : WireTranscript) (toolCallId : String) (result : ExecutableToolResult) :
    WireTranscript :=
  match t.pendingToolResults.lookup toolCallId with
  | none => t
  | some turnId =>
    let entry := t.newEntry (transcriptToolMessage toolCallId result) turnId
    let t := { t.push [entry] with
      pendingToolResults := orderedMapDelete t.pendingToolResults toolCallId
      nextRef := t.nextRef + 1 }
    t.flushDeferredIfToolExchangeClosed

def applyLoopEvent (t : WireTranscript) : LoopRecordedEvent → WireTranscript
  | .stepBegin uuid turnId => t.closePendingToolResults.beginStep uuid turnId
  | .stepEnd uuid _ =>
    { t with openSteps := mapDelete t.openSteps uuid }.flushDeferredIfToolExchangeClosed
  | .contentPart stepUuid part =>
    match t.openSteps.lookup stepUuid with
    | none => t
    | some ref => t.updateStep ref (ContextMessage.addContent part)
  | .toolCall stepUuid toolCallId name args =>
    match t.openSteps.lookup stepUuid with
    | none => t
    | some ref =>
      { t.updateStep ref (ContextMessage.addToolCall ⟨toolCallId, name, args⟩) with
        pendingToolResults := orderedMapSet t.pendingToolResults toolCallId (t.turnOf ref) }
  | .toolResult toolCallId result => t.toolResult toolCallId result

/-! ### Undo -/

/-- The loop of `applyUndo` over the entries behind the floor, from the newest: the entries that
stay, and the folded length. -/
def undoEntries (count : ℤ) : List MutableEntry → List MutableEntry → ℤ → ℕ → List MutableEntry × ℕ
  | [], kept, _, foldedLength => (kept, foldedLength)
  | e :: older, kept, removedUserCount, foldedLength =>
    if e.message.isInjection then
      undoEntries count older (e :: kept) removedUserCount foldedLength
    else if e.message.isCompactionSummary then ((e :: older).reverse ++ kept, foldedLength)
    else if isRealUserInput e.message then
      if removedUserCount + 1 ≥ count then (older.reverse ++ kept, foldedLength - 1)
      else undoEntries count older kept (removedUserCount + 1) (foldedLength - 1)
    else undoEntries count older kept removedUserCount (foldedLength - 1)

def applyUndo (t : WireTranscript) (count : ℤ) : WireTranscript :=
  if count ≤ 0 then t
  else
    let undone := undoEntries count (t.transcript.drop t.clearFloor).reverse [] 0 t.foldedLength
    { t with
      transcript := t.transcript.take t.clearFloor ++ undone.1
      foldedLength := undone.2 }.resetOpenState

/-! ### Records -/

def appendMessage (t : WireTranscript) (message : ContextMessage) : WireTranscript :=
  let realUserInput := isRealUserInput message
  let t := if realUserInput then { t with currentTurnId := none } else t
  let entry := t.newEntry message t.currentTurnId
  let t := { t with nextRef := t.nextRef + 1 }
  let t :=
    if t.currentTurnId = none ∧ realUserInput = false then
      { t with pendingTurnEntries := t.pendingTurnEntries ++ [entry.ref] }
    else t
  if t.pendingToolResults.length > 0 then { t with deferred := t.deferred ++ [entry] }
  else t.push [entry]

def appendTranscriptMessage (t : WireTranscript) (message : ContextMessage) : WireTranscript :=
  let entry := t.newEntry message t.currentTurnId
  let t := { t with nextRef := t.nextRef + 1 }
  let t :=
    if t.currentTurnId = none then
      { t with pendingTurnEntries := t.pendingTurnEntries ++ [entry.ref] }
    else t
  if t.pendingToolResults.length > 0 then
    { t with transcriptOnlyDeferred := t.transcriptOnlyDeferred ++ [entry] }
  else { t with transcript := t.transcript ++ [entry] }

/-- The length of the live history after a compaction. -/
def compactedLength (t : WireTranscript) (input : CompactionInput) : ℕ :=
  match input.keptUserMessageCount with
  | some keptUserMessageCount => keptUserMessageCount + 1
  | none =>
    if input.compactedCount < t.foldedLength then 1 + (t.foldedLength - input.compactedCount)
    else
      (selectRecentUserMessages
        (collectCompactableUserMessages ((t.transcript.drop t.clearFloor).map (·.message)))
        COMPACT_USER_MESSAGE_MAX_TOKENS).length + 1

def applyCompaction (t : WireTranscript) (input : CompactionInput) : WireTranscript :=
  let t := { t with
    transcript := t.transcript ++ [t.newEntry (summaryMessage input.summary) none]
    nextRef := t.nextRef + 1 }
  { t with foldedLength := t.compactedLength input }.resetOpenState

def reduce (t : WireTranscript) : AgentRecord → WireTranscript
  | .forked _ => t
  | .turnPrompt _ => { t with currentTurnId := none, pendingTurnEntries := [] }
  | .appendMessage message => t.appendMessage message
  | .appendTranscriptMessage message => t.appendTranscriptMessage message
  | .appendLoopEvent event => t.applyLoopEvent event
  | .applyCompaction input => t.applyCompaction input
  | .undo count => t.applyUndo count
  | .clear => { t with clearFloor := t.transcript.length, foldedLength := 0 }.resetOpenState

end WireTranscript

/-- **`reduceWireRecords`.** -/
def reduceWireRecords (records : List AgentRecord) : WireTranscript :=
  records.foldl WireTranscript.reduce {}

end NoriCode
