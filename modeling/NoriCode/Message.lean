/-
**Messages of a conversation.**

The data the context of an agent is made of: a message of the wire protocol has a role, content
parts, tool calls (of an assistant) or the id of the call it answers (of a tool); a context
message also has the origin that says who produced it and what happens to it on compaction.

Main definitions:

* `Role`, `ContentPart`, `ToolCall`, `Message`;
* `OriginKind`, `PromptOrigin`, `ContextMessage`.
-/

import NoriCode.JsText

namespace NoriCode

inductive Role where
  | system
  | user
  | assistant
  | tool
  deriving DecidableEq

/-- A single piece of content within a message. -/
inductive ContentPart where
  | text (text : String)
  | think (think : String) (encrypted : Option String)
  | imageUrl (url : String) (id : Option String)
  | audioUrl (url : String) (id : Option String)
  | videoUrl (url : String) (id : Option String)
  deriving DecidableEq

namespace ContentPart

def isText : ContentPart → Bool
  | .text _ => true
  | _ => false

/-- The text of a text part. -/
def text? : ContentPart → Option String
  | .text t => some t
  | _ => none

/-- A text part with nothing but white space in it. -/
def isBlank : ContentPart → Bool
  | .text t => NoriCode.isBlank t
  | _ => false

end ContentPart

/-- A tool call.  The arguments are the JSON text the model produced. -/
structure ToolCall where
  id : String
  name : String
  arguments : Option String
  deriving DecidableEq

/-- A single message in a conversation. -/
structure Message where
  role : Role
  name : Option String := none
  content : List ContentPart
  toolCalls : List ToolCall
  toolCallId : Option String := none
  isPartial : Bool := false
  deriving DecidableEq

namespace Message

/-- The ids of the tool calls of a message. -/
def callIds (m : Message) : List String := m.toolCalls.map (·.id)

/-- An assistant message with at least one tool call. -/
def opensExchange (m : Message) : Bool := m.role == .assistant && !m.toolCalls.isEmpty

end Message

/-! ### Origins -/

inductive ActivationTrigger where
  | userSlash
  | modelTool
  | nestedSkill
  deriving DecidableEq

inductive ShellPhase where
  | input
  | output
  deriving DecidableEq

/-- Who produced a message, with the fields the lifecycle of the message depends on. -/
inductive OriginKind where
  | user
  | skillActivation (skillName : String) (trigger : ActivationTrigger)
  | pluginCommand (commandName : String)
  | injection (variant : String)
  | shellCommand (phase : ShellPhase) (isError : Bool)
  | compactionSummary
  | systemTrigger (name : String)
  | backgroundTask (taskId status notificationId : String)
  | cronJob (jobId : String)
  | cronMissed (count : ℕ)
  | hookResult (event : String)
  | retry (trigger : Option String)
  deriving DecidableEq

inductive SpeakerKind where
  | user
  | lead
  | team
  | sub
  | system
  deriving DecidableEq

/-- The participant a message is attributed to. -/
structure SpeakerOrigin where
  origin : SpeakerKind
  speakerId : Option String := none
  speakerName : Option String := none
  deriving DecidableEq

structure PromptOrigin where
  kind : OriginKind
  speaker : Option SpeakerOrigin := none
  deriving DecidableEq

/-- A message of the context, with its origin. -/
structure ContextMessage extends Message where
  origin : Option PromptOrigin := none
  isError : Option Bool := none
  deriving DecidableEq

namespace ContextMessage

/-- The origin kind of a message that has an origin. -/
def originKind (m : ContextMessage) : Option OriginKind := m.origin.map (·.kind)

def isInjection (m : ContextMessage) : Bool :=
  match m.originKind with
  | some (.injection _) => true
  | _ => false

def isCompactionSummary (m : ContextMessage) : Bool := m.originKind == some .compactionSummary

end ContextMessage

end NoriCode
