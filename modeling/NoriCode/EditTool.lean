/-
**The Edit tool: line operations on a tagged file.**

An edit names the tag of the content it was made for and a list of operations on the lines of that
content.  All of them are checked before anything is written: the lines exist, the replaced ranges
do not overlap, and no insertion falls inside a range.  Then the lines are written out in one pass.

The module embeds `tools/builtin/file/edit.ts`.  An input has passed the schema, so line numbers are
at least one.  The report of a change, which only a user interface reads, is left out.

Main definitions:

* `EditLineOperation`, `applyLineOperations`;
* `editLines` — the lines that the operations count;
* `editExecution` — what a call writes and answers.
-/

import Mathlib.Data.List.Sort
import NoriCode.ContentTag
import NoriCode.LineEndings

namespace NoriCode

open LibUtf8

inductive EditLineOperation
  | swap (start stop : ℕ) (content : List Char)
  | del (start stop : ℕ)
  | insertPre (line : ℕ) (content : List Char)
  | insertPost (line : ℕ) (content : List Char)

/-- Lines that are replaced; none for a deletion. -/
structure RangeOperation where
  start : ℕ
  stop : ℕ
  lines : List (List Char)
  deriving DecidableEq

/-- Insertions by line, in the order in which the lines were first named. -/
abbrev Insertions := List (ℕ × List (List (List Char)))

/-- The operations of a call, sorted by kind. -/
structure OperationGroups where
  ranges : List RangeOperation := []
  insertBefore : Insertions := []
  insertAfter : Insertions := []

/-- The lines of an operation's content. -/
def splitOperationContent (content : List Char) : List (List Char) :=
  if endsWithNewline content then (splitLines content).dropLast else splitLines content

def validateLine (line lineCount : ℕ) : Except String Unit :=
  if lineCount < line then
    .error s!"line {line} is outside the original file (1-{lineCount})."
  else .ok ()

def validateRange (start stop lineCount : ℕ) : Except String Unit := do
  if stop < start then throw s!"range start {start} is greater than end {stop}."
  validateLine start lineCount
  validateLine stop lineCount

/-- An entry is pushed for a line. -/
def pushInsertion (line : ℕ) (lines : List (List Char)) : Insertions → Insertions
  | [] => [(line, [lines])]
  | (key, entries) :: rest =>
    if key = line then (key, entries ++ [lines]) :: rest
    else (key, entries) :: pushInsertion line lines rest

/-- One operation is checked and put with its kind. -/
def groupOperation (lineCount : ℕ) (groups : OperationGroups) :
    EditLineOperation → Except String OperationGroups
  | .swap start stop content => do
      validateRange start stop lineCount
      let range : RangeOperation := ⟨start, stop, splitOperationContent content⟩
      return { groups with ranges := groups.ranges ++ [range] }
  | .del start stop => do
      validateRange start stop lineCount
      return { groups with ranges := groups.ranges ++ [⟨start, stop, []⟩] }
  | .insertPre line content => do
      validateLine line lineCount
      let entries := pushInsertion line (splitOperationContent content) groups.insertBefore
      return { groups with insertBefore := entries }
  | .insertPost line content => do
      validateLine line lineCount
      let entries := pushInsertion line (splitOperationContent content) groups.insertAfter
      return { groups with insertAfter := entries }

/-- The first two neighbouring ranges that overlap. -/
def overlapError : List RangeOperation → Option String
  | previous :: current :: rest =>
    if current.start ≤ previous.stop then
      some s!"ranges {previous.start}-{previous.stop} and {current.start}-{current.stop} overlap."
    else overlapError (current :: rest)
  | _ => none

/-- The first insertion that falls inside a range. -/
def insideError (groups : OperationGroups) (ranges : List RangeOperation) : Option String :=
  ranges.findSome? fun range =>
    (groups.insertBefore.findSome? fun (line, _) =>
      if range.start < line ∧ line ≤ range.stop then
        some s!"insert_pre line {line} falls inside range {range.start}-{range.stop}."
      else none) <|>
    (groups.insertAfter.findSome? fun (line, _) =>
      if range.start ≤ line ∧ line < range.stop then
        some s!"insert_post line {line} falls inside range {range.start}-{range.stop}."
      else none)

/-- The lines inserted at a line. -/
def insertionsAt (insertions : Insertions) (line : ℕ) : List (List Char) :=
  ((insertions.find? (·.1 == line)).map (·.2.flatten)).getD []

/-- The pass over the original lines. `line` is the number of the first of them, and lines before
`resume` belong to a range that was written already. -/
def writeLines (insertBefore insertAfter : Insertions) (ranges : List RangeOperation)
    (line resume : ℕ) : List (List Char) → List (List Char)
  | [] => []
  | original :: rest =>
    if line < resume then writeLines insertBefore insertAfter ranges (line + 1) resume rest
    else
      insertionsAt insertBefore line ++
        match ranges.find? (·.start == line) with
        | some range =>
          range.lines ++ (insertionsAt insertAfter range.stop ++
            writeLines insertBefore insertAfter ranges (line + 1) (range.stop + 1) rest)
        | none =>
          original :: (insertionsAt insertAfter line ++
            writeLines insertBefore insertAfter ranges (line + 1) resume rest)

/-- The lines that the operations count. -/
def editLines (content : List Char) : List (List Char) := splitFileLines (stripBom content)

/-- The lines written back: with a final line feed if there was one, behind a mark if there was
one. -/
def joinLines (content : List Char) (lines : List (List Char)) : List Char :=
  let joined := List.intercalate ['\n'] lines
  let nextBody :=
    if endsWithNewline (stripBom content) && 0 < lines.length then joined ++ ['\n'] else joined
  if content.head? == some bom then bom :: nextBody else nextBody

def applyLineOperations (content : List Char) (operations : List EditLineOperation) :
    Except String (List Char) := do
  let originalLines := editLines content
  if originalLines.length = 0 then
    throw "the file is empty; use Write to replace an empty file."
  let groups ← operations.foldlM (groupOperation originalLines.length) {}
  let ranges := groups.ranges.insertionSort (fun left right => left.start ≤ right.start)
  if let some message := overlapError ranges then throw message
  if let some message := insideError groups ranges then throw message
  return joinLines content (writeLines groups.insertBefore groups.insertAfter ranges 1 1 originalLines)

/-! ### A call -/

structure EditInput where
  path : String
  expectedTag : String
  lineOps : List EditLineOperation

/-- What a call does: it answers with an error and writes nothing, or it writes a new content. -/
inductive EditOutcome
  | error (output : String)
  | written (content : List Char) (output : String)

/-- `text.toUpperCase()` of hexadecimal digits. -/
def upperCase (tag : String) : String := String.ofList (tag.toList.map Char.toUpper)

/-- The call once the file has been read as `raw`. -/
def editExecution (sha256 : List UInt8 → String) (args : EditInput) (raw : List Char) :
    EditOutcome :=
  let currentTag := computeContentTag sha256 (encode raw)
  if currentTag ≠ upperCase args.expectedTag then
    let expected := upperCase args.expectedTag
    .error (s!"Content tag mismatch for {args.path}: expected {expected}, " ++
      s!"current {currentTag}. Re-read the file and retry with the new tag and line numbers.")
  else
    let modelView := toModelTextView raw
    match applyLineOperations modelView.text args.lineOps with
    | .error message => .error s!"Invalid line_ops for {args.path}: {message}"
    | .ok newContent =>
      if newContent = modelView.text then .error s!"No changes to make in {args.path}."
      else
        let materialized := materializeModelText newContent modelView.lineEndingStyle
        let newTag := computeContentTag sha256 (encode materialized)
        let count := args.lineOps.length
        let operationWord := if count = 1 then "operation" else "operations"
        .written materialized (s!"[{args.path}#{newTag}]\n" ++
          s!"Applied {count} line {operationWord} to {args.path}.")

end NoriCode
