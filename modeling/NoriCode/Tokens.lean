/-
**Token estimates.**

The character-based heuristic of `utils/tokens.ts`: a token is four ASCII characters or one other
character, and a media part counts a fixed number of tokens.

Main definitions:

* `estimateTokens`, `estimateTokensForMessage`,
  `estimateTokensForMessages`;
* `truncateTextToTokens` — the longest prefix within a budget.
-/

import NoriCode.LibJson
import NoriCode.Message

namespace NoriCode

/-- `Math.ceil(asciiCount / 4) + nonAsciiCount`. -/
def tokensOf (asciiCount nonAsciiCount : ℕ) : ℕ := (asciiCount + 3) / 4 + nonAsciiCount

def isAscii (c : Char) : Bool := c.toNat ≤ 127

def estimateTokensOfChars (text : List Char) : ℕ :=
  tokensOf (text.countP isAscii) (text.countP (!isAscii ·))

def estimateTokens (text : String) : ℕ := estimateTokensOfChars text.toList

def MEDIA_TOKEN_ESTIMATE : ℕ := 2000

def estimateTokensForContentPart : ContentPart → ℕ
  | .text text => estimateTokens text
  | .think think _ => estimateTokens think
  | .imageUrl _ _ => MEDIA_TOKEN_ESTIMATE
  | .audioUrl _ _ => MEDIA_TOKEN_ESTIMATE
  | .videoUrl _ _ => MEDIA_TOKEN_ESTIMATE

def estimateTokensForContentParts (parts : List ContentPart) : ℕ :=
  (parts.map estimateTokensForContentPart).sum

/-- The text of a role on the wire. -/
def Role.text : Role → String
  | .system => "system"
  | .user => "user"
  | .assistant => "assistant"
  | .tool => "tool"

/-- `JSON.stringify(arguments)`, where the arguments are a string or null. -/
def stringifyArguments : Option String → List Char
  | none => ['n', 'u', 'l', 'l']
  | some text => LibJson.quote text.toList

def estimateTokensForToolCall (call : ToolCall) : ℕ :=
  estimateTokens call.name + estimateTokensOfChars (stringifyArguments call.arguments)

def estimateTokensForMessage (message : Message) : ℕ :=
  estimateTokens message.role.text + estimateTokensForContentParts message.content +
    (message.toolCalls.map estimateTokensForToolCall).sum

def estimateTokensForMessages (messages : List Message) : ℕ :=
  (messages.map estimateTokensForMessage).sum

/-- The characters of a text in front of the first that would exceed the budget. -/
def takeTokens (maxTokens : ℕ) : ℕ → ℕ → List Char → List Char
  | _, _, [] => []
  | asciiCount, nonAsciiCount, c :: text =>
    let asciiCount := if isAscii c then asciiCount + 1 else asciiCount
    let nonAsciiCount := if isAscii c then nonAsciiCount else nonAsciiCount + 1
    if tokensOf asciiCount nonAsciiCount > maxTokens then []
    else c :: takeTokens maxTokens asciiCount nonAsciiCount text

/-- The longest prefix of a text within the budget. -/
def truncateTextToTokens (text : String) (maxTokens : ℕ) : String :=
  if maxTokens = 0 then "" else String.ofList (takeTokens maxTokens 0 0 text.toList)

end NoriCode
