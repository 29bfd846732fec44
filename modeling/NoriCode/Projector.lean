/-
**Projection of a history onto the wire.**

The stored history of an agent is not what the provider receives: it is projected first.  The
projection drops what must not be sent, merges adjacent user prompts, and moves every tool result
next to the call it answers; four options make it strict, for the case where a provider has
already rejected the ordinary projection.

The module embeds `agent/context/projector.ts`, one definition for each of its functions.  The
sink for anomalies only reports what was repaired and is left out.

Main definitions:

* `mergeAdjacentUserMessages`, `repairToolExchangeAdjacency`,
  `mergeConsecutiveAssistantMessages`, `dropOrphanToolResults`,
  `dropLeadingNonUserMessages` — the passes;
* `project`, `strictOptions` — the projection;
* `trimTrailingOpenToolExchange`.
-/

import NoriCode.LibAdjacent
import NoriCode.LibOrdSet
import NoriCode.Message

namespace NoriCode

open LibOrdSet

structure ProjectOptions where
  synthesizeMissing : Bool := false
  dropOrphanResults : Bool := false
  dropLeadingNonUser : Bool := false
  mergeConsecutiveAssistants : Bool := false

/-- The options of the strict resend. -/
def strictOptions : ProjectOptions where
  synthesizeMissing := true
  dropOrphanResults := true
  dropLeadingNonUser := true
  mergeConsecutiveAssistants := true

inductive ErrorCode where
  | requestInvalid
  deriving DecidableEq

/-- The error the projection can raise, with its details. -/
structure ProjectionError where
  code : ErrorCode
  message : String
  toolCallId : Option String
  deriving DecidableEq

/-! ### Preparing messages -/

def emptyToolResultError (toolCallId : Option String) : ProjectionError where
  code := .requestInvalid
  message := "Tool result message content cannot be empty after removing empty text blocks."
  toolCallId := toolCallId

/-- A message with its blank text parts removed; `none` when nothing is left to send. -/
def prepareMessageForProjection (message : ContextMessage) :
    Except ProjectionError (Option ContextMessage) :=
  if message.isPartial then .ok none
  else
    let next := { message with content := message.content.filter (!·.isBlank) }
    if next.role = .tool ∧ next.content.length = 0 then
      .error (emptyToolResultError next.toolCallId)
    else if next.content.length = 0 ∧ next.toolCalls.length = 0 then .ok none
    else .ok (some next)

def canMergeUserMessage (message : ContextMessage) : Bool :=
  message.role == .user && message.originKind == some .user

def extractTextOnly (message : ContextMessage) : String :=
  String.join (message.content.filterMap ContentPart.text?)

def mergeTwoUserMessages (a b : ContextMessage) : ContextMessage where
  role := .user
  content := .text (extractTextOnly a ++ "\n\n" ++ extractTextOnly b) ::
    (a.content.filter (!·.isText) ++ b.content.filter (!·.isText))
  toolCalls := []
  origin := a.origin

/-- The merge of two adjacent user prompts, if they are two user prompts. -/
def mergeUser? (previous message : ContextMessage) : Option ContextMessage :=
  if canMergeUserMessage message && canMergeUserMessage previous then
    some (mergeTwoUserMessages previous message)
  else none

def stripContextMetadata (message : ContextMessage) : Message := message.toMessage

def mergeAdjacentUserMessages (history : List ContextMessage) :
    Except ProjectionError (List Message) := do
  let out ← history.foldlM (fun out source => do
    match ← prepareMessageForProjection source with
    | none => return out
    | some message => return LibAdjacent.appendMerging mergeUser? out message) []
  return out.map stripContextMetadata

/-! ### Tool exchanges -/

def SYNTHETIC_TOOL_RESULT_TEXT : String :=
  "Tool result is not available in the current context. " ++
    "Do not assume the tool completed successfully."

def makeSyntheticToolResult (toolCallId : String) : Message where
  role := .tool
  content := [.text SYNTHETIC_TOOL_RESULT_TEXT]
  toolCalls := []
  toolCallId := some toolCallId

/-- The results a call has collected so far in the search for its results. -/
structure Pulled where
  /-- The results found, in the order of the history. -/
  results : List Message
  /-- The positions of all results that have been moved. -/
  consumed : List ℕ
  /-- The ids of the calls whose result was not found. -/
  pending : OrdSet String

/-- The id of the call in `pending` that a message answers. -/
def answers? (pending : OrdSet String) (next : Message) : Option String :=
  if next.role = .tool then next.toolCallId.filter (· ∈ pending) else none

/-- The search for the results of one assistant message through the rest of the history, whose
first message stands at position `j`. -/
def pullResults : ℕ → List ℕ → OrdSet String → List Message → Pulled
  | _, consumed, pending, [] => ⟨[], consumed, pending⟩
  | j, consumed, pending, next :: rest =>
    if pending.isEmpty then ⟨[], consumed, pending⟩
    else if j ∈ consumed then pullResults (j + 1) consumed pending rest
    else
      match answers? pending next with
      | some toolCallId =>
        let r := pullResults (j + 1) (j :: consumed) (pending.erase toolCallId) rest
        { r with results := next :: r.results }
      | none => pullResults (j + 1) consumed pending rest

/-- The loop of the repair over the rest of the history, whose first message stands at position
`i`.  Every message before `midHistoryEnd` has a later message that is no tool result. -/
def repairFrom (synthesizeMissing : Bool) (midHistoryEnd : ℕ) :
    ℕ → List ℕ → List Message → List Message
  | _, _, [] => []
  | i, consumed, message :: rest =>
    if i ∈ consumed then repairFrom synthesizeMissing midHistoryEnd (i + 1) consumed rest
    else if message.role ≠ .assistant ∨ message.toolCalls.length = 0 then
      message :: repairFrom synthesizeMissing midHistoryEnd (i + 1) consumed rest
    else
      let r := pullResults (i + 1) consumed (.ofList message.callIds) rest
      let isMidHistory : Bool := i < midHistoryEnd
      let synthetic :=
        if synthesizeMissing || isMidHistory then r.pending.toList.map makeSyntheticToolResult
        else []
      message :: (r.results ++ synthetic ++
        repairFrom synthesizeMissing midHistoryEnd (i + 1) r.consumed rest)

/-- The position of the last message that is no tool result.  Without such a message no position
is before it, as with the position `0`. -/
def lastNonToolIndex (messages : List Message) : ℕ :=
  (messages.rdropWhile (·.role == .tool)).length - 1

/-- Every call is followed by its results, wherever they were; a call without a result is closed
by a synthetic one, unless it may still be running. -/
def repairToolExchangeAdjacency (messages : List Message) (options : ProjectOptions) :
    List Message :=
  repairFrom options.synthesizeMissing (lastNonToolIndex messages) 0 [] messages

/-- The ids of all calls of assistant messages. -/
def toolUseIds (messages : List Message) : List String :=
  (messages.filter (·.role == .assistant)).flatMap Message.callIds

/-- A result whose id no assistant message calls. -/
def isOrphan (ids : List String) (message : Message) : Bool :=
  message.role == .tool &&
    match message.toolCallId with
    | none => false
    | some toolCallId => !ids.contains toolCallId

def dropOrphanToolResults (messages : List Message) : List Message :=
  messages.filter fun message => !isOrphan (toolUseIds messages) message

/-- The merge of two adjacent assistant messages, if they are assistant messages. -/
def mergeAssistant? (previous message : Message) : Option Message :=
  if previous.role = .assistant ∧ message.role = .assistant then
    some { previous with
      content := previous.content ++ message.content
      toolCalls := previous.toolCalls ++ message.toolCalls }
  else none

def mergeConsecutiveAssistantMessages (messages : List Message) : List Message :=
  LibAdjacent.mergeAdjacent mergeAssistant? messages

def dropLeadingNonUserMessages (messages : List Message) : List Message :=
  messages.dropWhile (·.role != .user)

/-- **The projection of a history.** -/
def project (history : List ContextMessage) (options : ProjectOptions) :
    Except ProjectionError (List Message) := do
  let merged ← mergeAdjacentUserMessages history
  let result := repairToolExchangeAdjacency merged options
  let result :=
    if options.mergeConsecutiveAssistants then mergeConsecutiveAssistantMessages result
    else result
  let result := if options.dropOrphanResults then dropOrphanToolResults result else result
  return if options.dropLeadingNonUser then dropLeadingNonUserMessages result else result

/-- Drop a trailing exchange that is still open. -/
def trimTrailingOpenToolExchange (history : List Message) : List Message :=
  let trailing := history.rtakeWhile (·.role == .tool)
  match (history.rdropWhile (·.role == .tool)).getLast? with
  | none => []
  | some assistant =>
    if assistant.role ≠ .assistant ∨ assistant.toolCalls.length = 0 then history
    else
      let trailingToolCallIds := trailing.filterMap (·.toolCallId)
      if assistant.callIds.all trailingToolCallIds.contains then history
      else (history.rdropWhile (·.role == .tool)).dropLast

end NoriCode
