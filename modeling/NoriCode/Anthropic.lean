/-
**Messages for the Messages API.**

A request carries every message of the projected history in the form of the provider.  A message
that has no such form makes the whole request fail: a tool result without the id of its call, media
of a type the provider does not take, and a call whose arguments are not an object.

The module embeds `convertMessage` and what it calls of `providers/anthropic.ts`.  Whether thinking
without a signature is kept depends on the model only, and is a parameter.  Cache marks, and the
renaming of ids that a provider would refuse, come after or before and are left out.

Main definitions:

* `imageUrlPartToAnthropic`, `videoUrlPartToAnthropic`,
  `toolResultToBlock`, `convertMessage` — the conversion;
* `Converts` — the conversion does not throw.

Main results:

* `converts_iff` — when a message converts;
* `toolInput_ok_iff` — which arguments convert.
-/

import NoriCode.Message
import NoriCode.ToolArgs

namespace NoriCode

open LibJson

/-! ### Blocks -/

structure ChatProviderError where
  message : String

inductive MediaSource where
  | base64 (mediaType data : String)
  | url (url : String)
  deriving DecidableEq

/-- The blocks a tool result is made of. -/
inductive ResultBlock where
  | text (text : String)
  | image (source : MediaSource)
  | video (source : MediaSource)
  deriving DecidableEq

inductive ContentBlockParam where
  | plain (block : ResultBlock)
  | thinking (thinking : String) (signature : Option String)
  | toolUse (id name : String) (input : List (List Char × Json))
  | toolResult (toolUseId : String) (content : List ResultBlock)

inductive ParamRole where
  | user
  | assistant
  deriving DecidableEq

structure MessageParam where
  role : ParamRole
  content : List ContentBlockParam

/-! ### Media -/

/-- What stands before and after the first occurrence of a separator. -/
def splitAtFirst (separator : List Char) : List Char → Option (List Char × List Char)
  | [] => if separator.isEmpty then some ([], []) else none
  | c :: s =>
    if separator.isPrefixOf (c :: s) then some ([], (c :: s).drop separator.length)
    else (splitAtFirst separator s).map fun p => (c :: p.1, p.2)

/-- `withoutScheme.split(';base64,', 2)`, when it has two parts. -/
def splitDataUrl (withoutScheme : List Char) : Option (String × String) :=
  (splitAtFirst ";base64,".toList withoutScheme).map fun p =>
    (String.ofList p.1, String.ofList (((splitAtFirst ";base64,".toList p.2).map (·.1)).getD p.2))

/-- The source of a part with media of a kind, of which some types are supported. -/
def mediaSource (kind : String) (supported : List String) (url : String) :
    Except ChatProviderError MediaSource :=
  if startsWith url "data:" then
    match splitDataUrl (url.toList.drop 5) with
    | none => .error ⟨"Invalid data URL for " ++ kind ++ ": " ++ url⟩
    | some (mediaType, data) =>
      if mediaType ∈ supported then .ok (.base64 mediaType data)
      else .error ⟨"Unsupported media type for base64 " ++ kind ++ ": " ++ mediaType ++
        ", url: " ++ url⟩
  else .ok (.url url)

def SUPPORTED_B64_MEDIA_TYPES : List String :=
  ["image/png", "image/jpeg", "image/gif", "image/webp"]

def SUPPORTED_B64_VIDEO_TYPES : List String :=
  ["video/mp4", "video/mpeg", "video/quicktime", "video/webm", "video/x-matroska",
    "video/x-msvideo", "video/x-flv", "video/3gpp"]

def imageUrlPartToAnthropic (url : String) : Except ChatProviderError ResultBlock :=
  (mediaSource "image" SUPPORTED_B64_MEDIA_TYPES url).map .image

def videoUrlPartToAnthropic (url : String) : Except ChatProviderError ResultBlock :=
  (mediaSource "video" SUPPORTED_B64_VIDEO_TYPES url).map .video

def OMITTED_AUDIO_PLACEHOLDER : String := "(audio omitted: not supported by this provider)"

/-! ### Tool results -/

/-- The blocks of a tool result with one more part. -/
def addResultPart (blocks : List ResultBlock) (part : ContentPart) :
    Except ChatProviderError (List ResultBlock) :=
  match part with
  | .text text => .ok (if text.toList.length = 0 then blocks else blocks ++ [.text text])
  | .imageUrl url _ => (imageUrlPartToAnthropic url).map fun b => blocks ++ [b]
  | .videoUrl url _ => (videoUrlPartToAnthropic url).map fun b => blocks ++ [b]
  | .audioUrl _ _ =>
    .ok (if blocks.getLast? = some (.text OMITTED_AUDIO_PLACEHOLDER) then blocks
      else blocks ++ [.text OMITTED_AUDIO_PLACEHOLDER])
  | .think _ _ => .ok blocks

def toolResultToBlock (toolCallId : String) (content : List ContentPart) :
    Except ChatProviderError ContentBlockParam :=
  (content.foldlM addResultPart []).map (.toolResult toolCallId)

/-! ### Messages -/

section Convert

variable (preserveUnsignedThinking : Bool) (printNumber : NumberText → Option NumberText)

/-- The block is the placeholder of an audio part. -/
def isAudioPlaceholder : ContentBlockParam → Bool
  | .plain (.text text) => text == OMITTED_AUDIO_PLACEHOLDER
  | _ => false

/-- The blocks of a user or assistant message with one more part. -/
def addPart (blocks : List ContentBlockParam) (part : ContentPart) :
    Except ChatProviderError (List ContentBlockParam) :=
  match part with
  | .text text => .ok (blocks ++ [.plain (.text text)])
  | .imageUrl url _ => (imageUrlPartToAnthropic url).map fun b => blocks ++ [.plain b]
  | .think think (some encrypted) => .ok (blocks ++ [.thinking think (some encrypted)])
  | .think think none =>
    .ok (if think.toList.length ≠ 0 ∧ preserveUnsignedThinking = true then
      blocks ++ [.thinking think none]
    else blocks)
  | .videoUrl url _ => (videoUrlPartToAnthropic url).map fun b => blocks ++ [.plain b]
  | .audioUrl _ _ =>
    .ok (if blocks.getLast?.any isAudioPlaceholder then blocks
      else blocks ++ [.plain (.text OMITTED_AUDIO_PLACEHOLDER)])

/-- The input of a call; no arguments are an empty object. -/
def toolInput (arguments : Option String) : Except ChatProviderError (List (List Char × Json)) :=
  match arguments with
  | none => .ok []
  | some text =>
    if text.toList.length = 0 then .ok []
    else
      match jsonParse printNumber text with
      | some (.obj fields) => .ok fields
      | some _ => .error ⟨"Tool call arguments must be a JSON object."⟩
      | none => .error ⟨"Tool call arguments must be valid JSON."⟩

/-- The blocks of a message with one more call. -/
def addToolUse (blocks : List ContentBlockParam) (tc : ToolCall) :
    Except ChatProviderError (List ContentBlockParam) :=
  (toolInput printNumber tc.arguments).map fun input => blocks ++ [.toolUse tc.id tc.name input]

/-- The message a system message is wrapped in. -/
def systemText (content : List ContentPart) : String :=
  "<system>" ++ String.intercalate "\n" (content.filterMap ContentPart.text?) ++ "</system>"

/-- **`convertMessage`.** -/
def convertMessage (message : Message) : Except ChatProviderError MessageParam :=
  match message.role with
  | .system => .ok ⟨.user, [.plain (.text (systemText message.content))]⟩
  | .tool =>
    match message.toolCallId with
    | none => .error ⟨"Tool message missing `toolCallId`."⟩
    | some toolCallId =>
      (toolResultToBlock toolCallId message.content).map fun block => ⟨.user, [block]⟩
  | .user => do
      let blocks ← message.content.foldlM (addPart preserveUnsignedThinking) []
      let blocks ← message.toolCalls.foldlM (addToolUse printNumber) blocks
      return ⟨.user, blocks⟩
  | .assistant => do
      let blocks ← message.content.foldlM (addPart preserveUnsignedThinking) []
      let blocks ← message.toolCalls.foldlM (addToolUse printNumber) blocks
      return ⟨.assistant, blocks⟩

/-- The conversion of a message does not throw. -/
def Converts (message : Message) : Prop :=
  ∃ param, convertMessage preserveUnsignedThinking printNumber message = .ok param

end Convert

/-! ### When a message converts -/

/-- A fold that can throw succeeds when every step of it does, whatever it starts from. -/
theorem foldlM_ok_iff {α β ε : Type} {f : β → α → Except ε β} {P : α → Prop}
    (hf : ∀ b a, (∃ b', f b a = .ok b') ↔ P a) (l : List α) (b : β) :
    (∃ b', l.foldlM f b = .ok b') ↔ ∀ a ∈ l, P a := by
  induction l generalizing b with
  | nil => exact ⟨fun _ a ha => absurd ha List.not_mem_nil, fun _ => ⟨b, rfl⟩⟩
  | cons a l ih =>
    rw [List.foldlM_cons, List.forall_mem_cons, ← hf b a]
    cases hstep : f b a with
    | error e =>
      constructor
      · rintro ⟨b', h⟩
        cases h
      · rintro ⟨⟨b', h⟩, -⟩
        cases h
    | ok b' =>
      exact (ih b').trans ⟨fun h => ⟨⟨b', rfl⟩, h⟩, fun h => h.2⟩

theorem map_ok_iff {α β ε : Type} (x : Except ε α) (f : α → β) :
    (∃ b, x.map f = .ok b) ↔ ∃ a, x = .ok a := by
  cases x with
  | error e =>
    constructor
    · rintro ⟨b, h⟩
      cases h
    · rintro ⟨a, h⟩
      cases h
  | ok a => exact ⟨fun _ => ⟨a, rfl⟩, fun _ => ⟨f a, rfl⟩⟩

/-- A part whose media the provider takes. -/
def SendablePart : ContentPart → Prop
  | .imageUrl url _ => ∃ b, imageUrlPartToAnthropic url = .ok b
  | .videoUrl url _ => ∃ b, videoUrlPartToAnthropic url = .ok b
  | _ => True

theorem addResultPart_ok_iff (blocks : List ResultBlock) (part : ContentPart) :
    (∃ blocks', addResultPart blocks part = .ok blocks') ↔ SendablePart part := by
  cases part with
  | text | think | audioUrl => exact ⟨fun _ => trivial, fun _ => ⟨_, rfl⟩⟩
  | imageUrl | videoUrl => exact map_ok_iff _ _

theorem addPart_ok_iff (preserve : Bool) (blocks : List ContentBlockParam) (part : ContentPart) :
    (∃ blocks', addPart preserve blocks part = .ok blocks') ↔ SendablePart part := by
  cases part with
  | text | audioUrl => exact ⟨fun _ => trivial, fun _ => ⟨_, rfl⟩⟩
  | think think encrypted => cases encrypted <;> exact ⟨fun _ => trivial, fun _ => ⟨_, rfl⟩⟩
  | imageUrl | videoUrl => exact map_ok_iff _ _

/-- Arguments that can be sent: none, or the text of an object. -/
def SendableArguments (arguments : Option String) : Prop :=
  ∀ text ∈ arguments, text.toList.length ≠ 0 → (parse text.toList).any isObject = true

/-- **Which arguments convert.** -/
theorem toolInput_ok_iff (printNumber : NumberText → Option NumberText)
    (arguments : Option String) :
    (∃ input, toolInput printNumber arguments = .ok input) ↔ SendableArguments arguments := by
  cases arguments with
  | none => exact ⟨fun _ text h => absurd h (by simp), fun _ => ⟨[], rfl⟩⟩
  | some text =>
    rw [toolInput]
    split_ifs with hempty
    · refine ⟨fun _ text' h hne => ?_, fun _ => ⟨[], rfl⟩⟩
      rw [Option.mem_some_iff.1 h] at hempty
      exact absurd hempty hne
    · have hall : SendableArguments (some text) ↔ (parse text.toList).any isObject = true :=
        ⟨fun h => h text rfl hempty, fun h text' h' _ => Option.mem_some_iff.1 h' ▸ h⟩
      rw [hall, jsonParse]
      cases parse text.toList with
      | none =>
        constructor
        · rintro ⟨input, h⟩
          cases h
        · intro h
          cases h
      | some value =>
        rw [Option.map_some, Option.any_some, ← isObject_jsonValue printNumber]
        cases jsonValue printNumber value with
        | obj fields => exact ⟨fun _ => rfl, fun _ => ⟨fields, rfl⟩⟩
        | null | bool | num | str | arr =>
          constructor
          · rintro ⟨input, h⟩
            cases h
          · intro h
            cases h

theorem addToolUse_ok_iff (printNumber : NumberText → Option NumberText)
    (blocks : List ContentBlockParam) (tc : ToolCall) :
    (∃ blocks', addToolUse printNumber blocks tc = .ok blocks') ↔
      SendableArguments tc.arguments := by
  rw [addToolUse, map_ok_iff, toolInput_ok_iff]

/-- A message whose every part and every call can be sent; a system message always can. -/
def SendableMessage (m : Message) : Prop :=
  match m.role with
  | .system => True
  | .tool => m.toolCallId ≠ none ∧ ∀ part ∈ m.content, SendablePart part
  | .user | .assistant =>
    (∀ part ∈ m.content, SendablePart part) ∧
      ∀ tc ∈ m.toolCalls, SendableArguments tc.arguments

theorem blocks_ok_iff (preserve : Bool) (printNumber : NumberText → Option NumberText)
    (role : ParamRole) (content : List ContentPart) (toolCalls : List ToolCall) :
    (∃ param, (do
        let blocks ← content.foldlM (addPart preserve) []
        let blocks ← toolCalls.foldlM (addToolUse printNumber) blocks
        return (⟨role, blocks⟩ : MessageParam) : Except ChatProviderError MessageParam) =
          .ok param) ↔
      (∀ part ∈ content, SendablePart part) ∧ ∀ tc ∈ toolCalls, SendableArguments tc.arguments := by
  rw [← foldlM_ok_iff (addPart_ok_iff preserve) content []]
  cases content.foldlM (addPart preserve) [] with
  | error e =>
    constructor
    · rintro ⟨param, h⟩
      cases h
    · rintro ⟨⟨blocks, h⟩, -⟩
      cases h
  | ok blocks =>
    rw [← foldlM_ok_iff (addToolUse_ok_iff printNumber) toolCalls blocks]
    refine (map_ok_iff (toolCalls.foldlM (addToolUse printNumber) blocks)
      fun blocks => (⟨role, blocks⟩ : MessageParam)).trans ?_
    exact ⟨fun h => ⟨⟨blocks, rfl⟩, h⟩, fun h => h.2⟩

/-- **When a message converts.** -/
theorem converts_iff (preserve : Bool) (printNumber : NumberText → Option NumberText)
    (m : Message) : Converts preserve printNumber m ↔ SendableMessage m := by
  unfold Converts convertMessage SendableMessage
  cases m.role with
  | system => exact ⟨fun _ => trivial, fun _ => ⟨_, rfl⟩⟩
  | tool =>
    cases hid : m.toolCallId with
    | none =>
      constructor
      · rintro ⟨param, h⟩
        cases h
      · rintro ⟨h, -⟩
        exact absurd rfl h
    | some id =>
      simp only [toolResultToBlock, map_ok_iff, ne_eq, reduceCtorEq, not_false_eq_true, true_and]
      exact foldlM_ok_iff addResultPart_ok_iff m.content []
  | user => exact blocks_ok_iff preserve printNumber .user m.content m.toolCalls
  | assistant => exact blocks_ok_iff preserve printNumber .assistant m.content m.toolCalls

end NoriCode
