/-
**The Read tool: numbered lines and the tag of the file.**

A file is shown as a window of its lines, forwards from a line or back from the end.  Every shown
line carries its number, and the output starts with the tag of the whole file.  A backend that can
scan a file is asked for a scan and for the window alone; from any other one the tool takes all
lines and hashes them as they come.

The module embeds `tools/builtin/file/read.ts`.  What `stat` and the sniffing of the first bytes say
about the path is a parameter.  Half of a surrogate pair, where a line is cut inside one, is written
as the replacement character it becomes when the text is encoded.

Main definitions:

* `renderLine`, `renderEntries` — the shown lines;
* `readForward`, `readTail` — the two windows, for each backend;
* `ReadResult`, `finishReadResult` — what is shown, and its text;
* `readExecution`.

Main results:

* `mem_renderEntries`, `mem_tailCandidates` — only lines of the window are shown.
-/

import Mathlib.Algebra.GroupWithZero.Nat
import NoriCode.KaosRead

namespace NoriCode

open LibUtf8 LibLines List Option

def MAX_LINES : ℕ := 1000

def MAX_LINE_LENGTH : ℕ := 2000

def MAX_BYTES : ℕ := 100 * 1024

/-! ### A shown line -/

structure ReadLineEntry where
  lineNo : ℕ
  rawContent : List Char

/-- A line as it is shown, with the entry it shows and the content before it is cut. -/
structure RenderedLine where
  entry : ReadLineEntry
  modelContent : List Char
  line : List Char
  wasTruncated : Bool

/-- The code units of a character. -/
def codeUnits (c : Char) : ℕ := if c.toNat < 0x10000 then 1 else 2

/-- `text.length`. -/
def codeUnitLength (text : List Char) : ℕ := (text.map codeUnits).sum

/-- `text.slice(0, n)`. -/
def sliceUnits : ℕ → List Char → List Char
  | _, [] => []
  | n, c :: text =>
    if codeUnits c ≤ n then c :: sliceUnits (n - codeUnits c) text
    else if n = 0 then []
    else [Char.ofNat 0xfffd]

def truncateLine (line : List Char) (maxLength : ℕ) : List Char :=
  if codeUnitLength line ≤ maxLength then line
  else sliceUnits (max maxLength 3 - 3) line ++ ['.', '.', '.']

def makeCarriageReturnsVisible (text : List Char) : List Char :=
  text.flatMap fun c => if c = '\r' then ['\\', 'r'] else [c]

/-- The content of a line as the model is to see it. -/
def modelContent (style : LineEndingStyle) (rawContent : List Char) : List Char :=
  if style = .crlf ∧ rawContent.getLast? = some '\r' then rawContent.dropLast else rawContent

def renderLine (entry : ReadLineEntry) (style : LineEndingStyle) : RenderedLine :=
  let content := modelContent style entry.rawContent
  let truncated := truncateLine content MAX_LINE_LENGTH
  let rendered := if style = .mixed then makeCarriageReturnsVisible truncated else truncated
  { entry
    modelContent := content
    line := (toString entry.lineNo).toList ++ '\t' :: rendered
    wasTruncated := truncated != content }

def renderedLineBytes (line : List Char) (isFirst : Bool) : ℕ :=
  (if isFirst then 0 else 1) + (encode line).length

/-- The loop of `renderEntries`, with the lines and bytes so far; it stops when the bytes are used
up, and says so. -/
def renderEntriesFrom (style : LineEndingStyle) :
    List RenderedLine → ℕ → List ReadLineEntry → List RenderedLine × Bool
  | lines, _, [] => (lines, false)
  | lines, bytes, entry :: entries =>
    let rendered := renderLine entry style
    let lineBytes := renderedLineBytes rendered.line lines.isEmpty
    if !lines.isEmpty && MAX_BYTES < bytes + lineBytes then (lines, true)
    else if MAX_BYTES ≤ bytes + lineBytes then (lines ++ [rendered], true)
    else renderEntriesFrom style (lines ++ [rendered]) (bytes + lineBytes) entries

def renderEntries (entries : List ReadLineEntry) (style : LineEndingStyle) :
    List RenderedLine × Bool :=
  renderEntriesFrom style [] 0 entries

/-! ### The result -/

/-- What goes into the output, with the lines that are shown. -/
structure ReadResult where
  displayPath : String
  contentTag : String
  renderedLines : List RenderedLine
  maxLinesReached : Bool
  maxBytesReached : Bool
  lineEndingStyle : LineEndingStyle
  startLine : ℕ
  totalLines : ℕ
  requestedLines : ℕ

/-- The numbers of the lines that were cut. -/
def ReadResult.truncatedLineNumbers (input : ReadResult) : List ℕ :=
  (input.renderedLines.filter (·.wasTruncated)).map (·.entry.lineNo)

def finishMessage (input : ReadResult) : String :=
  let lineCount := input.renderedLines.length
  let lineWord := if lineCount = 1 then "line" else "lines"
  let start := input.startLine
  let total := input.totalLines
  let first :=
    if 0 < lineCount then
      s!"{lineCount} {lineWord} read from file starting from line {start}."
    else "No lines read from file."
  let reached :=
    if input.maxLinesReached then [s!"Max {MAX_LINES} lines reached."]
    else if input.maxBytesReached then [s!"Max {MAX_BYTES} bytes reached."]
    else if lineCount < input.requestedLines then ["End of file reached."]
    else []
  let numbers := ", ".intercalate (input.truncatedLineNumbers.map toString)
  let truncated :=
    if input.truncatedLineNumbers.isEmpty then [] else [s!"Lines [{numbers}] were truncated."]
  let mixed :=
    if input.lineEndingStyle = .mixed then
      ["Mixed or lone carriage-return line endings are shown as \\r. Preserve those explicit \\r " ++
        "characters in Edit.line_ops content when replacing affected lines."]
    else []
  " ".intercalate ([first, s!"Total lines in file: {total}."] ++ reached ++ truncated ++ mixed)

/-- The output of a successful call. -/
def finishReadResult (input : ReadResult) : String :=
  let path := input.displayPath
  let tag := input.contentTag
  let rendered := "\n".intercalate (input.renderedLines.map fun l => String.ofList l.line)
  let message := finishMessage input
  let status := s!"<system>{message}</system>"
  if rendered = "" then s!"[{path}#{tag}]\n{status}" else s!"[{path}#{tag}]\n{rendered}\n{status}"

def notReadableFileOutput (path : String) : String :=
  s!"\"{path}\" is not readable as UTF-8 text. " ++
    "If it is an image or video, use ReadMediaFile. " ++
    "For other binary formats, use Bash or an MCP tool if available."

/-! ### Forwards -/

/-- A file as a backend delivers it: the local one in reads of any length. -/
inductive KaosFile (bytes : List UInt8)
  | localKaos (reads : FileReads bytes)
  | sshKaos

/-- The lines numbered from a line on, without their line feeds. -/
def numbered (lineNo : ℕ) : List (List Char) → List ReadLineEntry
  | [] => []
  | line :: lines => ⟨lineNo, stripTrailingLf line⟩ :: numbered (lineNo + 1) lines

/-- What the tool keeps while it goes through the lines of a stream. -/
structure StreamState where
  tagHasher : ContentTagHasher := {}
  flags : Breaks := {}
  currentLineNo : ℕ := 0
  selectedEntries : List ReadLineEntry := []
  collectionClosed : Bool := false
  maxLinesReached : Bool := false

/-- A line of the stream, hashed, counted and looked at; `none` if it holds a NUL. -/
def StreamState.take (s : StreamState) (rawLine : List Char) : Option StreamState :=
  if Char.ofNat 0 ∈ rawLine then none
  else
    some { s with
      tagHasher := s.tagHasher.update (encode rawLine)
      flags := updateLineEndingFlags s.flags rawLine
      currentLineNo := s.currentLineNo + 1 }

/-- The line just taken is selected if it is in the window. -/
def StreamState.select (lineOffset effectiveLimit : ℕ) (rawLine : List Char) (s : StreamState) :
    StreamState :=
  if s.collectionClosed then
    if MAX_LINES ≤ effectiveLimit ∧ lineOffset ≤ s.currentLineNo then
      { s with maxLinesReached := true }
    else s
  else if s.currentLineNo < lineOffset then s
  else if effectiveLimit ≤ s.selectedEntries.length then
    { s with
      maxLinesReached := s.maxLinesReached || decide (MAX_LINES ≤ effectiveLimit)
      collectionClosed := true }
  else
    let selected := s.selectedEntries ++ [⟨s.currentLineNo, stripTrailingLf rawLine⟩]
    { s with
      selectedEntries := selected
      collectionClosed := decide (effectiveLimit ≤ selected.length) }

/-- A line of a forward stream. -/
def StreamState.forward (lineOffset effectiveLimit : ℕ) (s : StreamState) (rawLine : List Char) :
    Option StreamState :=
  (s.take rawLine).map fun s => s.select lineOffset effectiveLimit rawLine

/-- The answer to a file that is no text: a NUL, or bytes that are not UTF-8. -/
def orNotReadable {α : Type} (displayPath : String) : Option α → Except String α
  | none => .error (notReadableFileOutput displayPath)
  | some a => .ok a

variable (sha256 : List UInt8 → String)

def readForward {bytes : List UInt8} (file : KaosFile bytes) (displayPath : String)
    (lineOffset effectiveLimit requestedLines : ℕ) : Except String ReadResult :=
  match file with
  | .localKaos reads => do
      let scan ← orNotReadable displayPath (scanTextFile sha256 reads)
      if scan.hasNul then throw (notReadableFileOutput displayPath)
      let lines ← orNotReadable displayPath (readLineRange bytes lineOffset effectiveLimit)
      let selectedEntries := numbered lineOffset lines
      let lineEndingStyle := lineEndingStyleFromFlags scan.lineEndingFlags
      let rendered := renderEntries selectedEntries lineEndingStyle
      return { scan with
        displayPath
        renderedLines := rendered.1
        maxLinesReached :=
          decide (MAX_LINES ≤ effectiveLimit ∧ lineOffset + MAX_LINES ≤ scan.totalLines)
        maxBytesReached := rendered.2
        lineEndingStyle
        startLine := if selectedEntries.isEmpty then 0 else lineOffset
        requestedLines }
  | .sshKaos => do
      let lines ← orNotReadable displayPath (sshReadLines bytes)
      let s ← orNotReadable displayPath
        (lines.foldlM (StreamState.forward lineOffset effectiveLimit) {})
      let lineEndingStyle := lineEndingStyleFromFlags s.flags
      let rendered := renderEntries s.selectedEntries lineEndingStyle
      return {
        displayPath
        contentTag := s.tagHasher.digest sha256
        renderedLines := rendered.1
        maxLinesReached := s.maxLinesReached
        maxBytesReached := rendered.2
        lineEndingStyle
        startLine := if s.selectedEntries.isEmpty then 0 else lineOffset
        totalLines := s.currentLineNo
        requestedLines }

/-! ### Back from the end -/

/-- The lines that are kept from the end while the bytes last, latest first. -/
def keepFromEnd (kept : List RenderedLine) (bytes : ℕ) : List RenderedLine → List RenderedLine
  | [] => kept
  | candidate :: rest =>
    let lineBytes := renderedLineBytes candidate.line kept.isEmpty
    if MAX_BYTES < bytes + lineBytes then kept
    else keepFromEnd (candidate :: kept) (bytes + lineBytes) rest

/-- The bytes of all candidates. -/
def candidateBytes : List RenderedLine → ℕ
  | [] => 0
  | first :: rest =>
    renderedLineBytes first.line true + (rest.map fun l => renderedLineBytes l.line false).sum

/-- The shown lines of a window at the end, and whether the bytes were used up. -/
def tailCandidates (entries : List ReadLineEntry) (effectiveLimit : ℕ) (style : LineEndingStyle) :
    List RenderedLine × Bool :=
  let candidates := (entries.take effectiveLimit).map fun entry => renderLine entry style
  if MAX_BYTES < candidateBytes candidates then (keepFromEnd [] 0 candidates.reverse, true)
  else (candidates, false)

def finishTailEntries (displayPath contentTag : String) (entries : List ReadLineEntry)
    (lineEndingFlags : Breaks) (effectiveLimit totalLines requestedLines : ℕ) : ReadResult :=
  let lineEndingStyle := lineEndingStyleFromFlags lineEndingFlags
  let rendered := tailCandidates entries effectiveLimit lineEndingStyle
  { displayPath
    contentTag
    renderedLines := rendered.1
    maxLinesReached := false
    maxBytesReached := rendered.2
    lineEndingStyle
    startLine := (rendered.1.head?.map (·.entry.lineNo)).getD 0
    totalLines
    requestedLines }

/-- A line of a stream of which the last ones are kept. -/
def StreamState.tail (tailCount : ℕ) (s : StreamState) (rawLine : List Char) : Option StreamState :=
  (s.take rawLine).map fun s =>
    let entries := s.selectedEntries ++ [⟨s.currentLineNo, stripTrailingLf rawLine⟩]
    { s with selectedEntries := if tailCount < entries.length then entries.tail else entries }

def readTail {bytes : List UInt8} (file : KaosFile bytes) (displayPath : String)
    (tailCount effectiveLimit requestedLines : ℕ) : Except String ReadResult :=
  match file with
  | .localKaos reads => do
      let scan ← orNotReadable displayPath (scanTextFile sha256 reads)
      if scan.hasNul then throw (notReadableFileOutput displayPath)
      let rawLines ← orNotReadable displayPath (readTailLines bytes tailCount)
      let startLine := max 1 (scan.totalLines + 1 - rawLines.length)
      return finishTailEntries displayPath scan.contentTag (numbered startLine rawLines)
        scan.lineEndingFlags effectiveLimit scan.totalLines requestedLines
  | .sshKaos => do
      let lines ← orNotReadable displayPath (sshReadLines bytes)
      let s ← orNotReadable displayPath (lines.foldlM (StreamState.tail tailCount) {})
      return finishTailEntries displayPath (s.tagHasher.digest sha256) s.selectedEntries s.flags
        effectiveLimit s.currentLineNo requestedLines

/-! ### A call -/

/-- Where a call starts to read: at a line, or at a number of lines from the end. -/
inductive LineOffset
  | forward (line : ℕ)
  | tail (count : ℕ)

structure ReadInput where
  path : String
  lineOffset : LineOffset := .forward 1
  nLines : ℕ := MAX_LINES

/-- What the schema of the input asks for. -/
def ReadInput.Valid (args : ReadInput) : Prop :=
  0 < args.nLines ∧
    match args.lineOffset with
    | .forward line => 0 < line
    | .tail count => 0 < count ∧ count ≤ MAX_LINES

/-- What is found at a path. -/
inductive FileKind
  | missing
  | notFile
  | text
  | image
  | video
  | unknown

def readExecution {bytes : List UInt8} (args : ReadInput) (kind : FileKind)
    (file : KaosFile bytes) : Except String ReadResult :=
  let path := args.path
  let media (kind : String) := s!"\"{path}\" is a {kind} file. " ++
    "Use ReadMediaFile to read image or video files."
  match kind with
  | .missing => .error s!"\"{path}\" does not exist."
  | .notFile => .error s!"\"{path}\" is not a file."
  | .image => .error (media "image")
  | .video => .error (media "video")
  | .unknown => .error (notReadableFileOutput path)
  | .text =>
    let effectiveLimit := min args.nLines MAX_LINES
    match args.lineOffset with
    | .forward line => readForward sha256 file path line effectiveLimit args.nLines
    | .tail count => readTail sha256 file path count effectiveLimit args.nLines

/-! ### What is shown -/

variable {style : LineEndingStyle} {entries : List ReadLineEntry} {line : RenderedLine}

theorem mem_renderEntriesFrom {lines : List RenderedLine} {bytes : ℕ}
 (h : line ∈ (renderEntriesFrom style lines bytes entries).1) :
    line ∈ lines ∨ ∃ entry ∈ entries, line = renderLine entry style := by
  induction entries generalizing lines bytes with
  | nil => exact Or.inl h
  | cons entry entries ih =>
    have happend : ∀ {line : RenderedLine}, line ∈ lines ++ [renderLine entry style] →
        line ∈ lines ∨ ∃ e ∈ entry :: entries, line = renderLine e style := by
      intro line hline
      rcases mem_append.1 hline with hline | hline
      · exact Or.inl hline
      · exact Or.inr ⟨entry, (.head _), mem_singleton.1 hline⟩
    unfold renderEntriesFrom at h
    dsimp only at h
    split at h
    · exact Or.inl h
    · split at h
      · exact happend h
      · rcases ih h with hline | ⟨e, he, rfl⟩
        · exact happend hline
        · exact Or.inr ⟨e, .tail _ he, rfl⟩

theorem mem_renderEntries (h : line ∈ (renderEntries entries style).1) :
    ∃ entry ∈ entries, line = renderLine entry style :=
  (mem_renderEntriesFrom h).resolve_left not_mem_nil

theorem mem_renderEntries_first (style : LineEndingStyle) (entry : ReadLineEntry)
    (entries : List ReadLineEntry) :
    renderLine entry style ∈ (renderEntries (entry :: entries) style).1 := by
  have hkeep : ∀ (entries : List ReadLineEntry) (lines : List RenderedLine) (bytes : ℕ),
      ∀ line ∈ lines, line ∈ (renderEntriesFrom style lines bytes entries).1 := by
    intro entries
    induction entries with
    | nil => exact fun _ _ _ h => h
    | cons e es ih =>
      intro lines bytes line hline
      unfold renderEntriesFrom
      dsimp only
      split
      · exact hline
      · split
        · exact mem_append_left _ hline
        · exact ih _ _ _ (mem_append_left _ hline)
  unfold renderEntries renderEntriesFrom
  simp only [isEmpty_nil, Bool.not_true, Bool.false_and, Bool.false_eq_true, if_false, nil_append]
  split
  · exact mem_singleton_self _
  · exact hkeep _ _ _ _ (mem_singleton_self _)

theorem mem_keepFromEnd {kept candidates : List RenderedLine} {bytes : ℕ}
    (h : line ∈ keepFromEnd kept bytes candidates) : line ∈ kept ∨ line ∈ candidates := by
  induction candidates generalizing kept bytes with
  | nil => exact Or.inl h
  | cons candidate rest ih =>
    unfold keepFromEnd at h
    dsimp only at h
    split at h
    · exact Or.inl h
    · rcases ih h with hline | hline
      · rcases mem_cons.1 hline with rfl | hline
        · exact Or.inr (.head _)
        · exact Or.inl hline
      · exact Or.inr (.tail _ hline)

theorem mem_tailCandidates {effectiveLimit : ℕ}
 (h : line ∈ (tailCandidates entries effectiveLimit style).1) :
    ∃ entry ∈ entries, line = renderLine entry style := by
  have hcandidate : ∀ line ∈ (entries.take effectiveLimit).map fun e => renderLine e style,
      ∃ entry ∈ entries, line = renderLine entry style := by
    intro line hline
    obtain ⟨entry, hentry, rfl⟩ := mem_map.1 hline
    exact ⟨entry, mem_of_mem_take hentry, rfl⟩
  unfold tailCandidates at h
  dsimp only at h
  split at h
  · rcases mem_keepFromEnd h with hline | hline
    · cases hline
    · exact hcandidate line (mem_reverse.1 hline)
  · exact hcandidate line h

theorem mem_numbered {lineNo : ℕ} {lines : List (List Char)} {entry : ReadLineEntry}
    (h : entry ∈ numbered lineNo lines) :
    ∃ i line, lines[i]? = some line ∧ entry = ⟨lineNo + i, stripTrailingLf line⟩ := by
  induction lines generalizing lineNo with
  | nil => cases h
  | cons first rest ih =>
    rcases mem_cons.1 h with rfl | h
    · exact ⟨0, first, rfl, rfl⟩
    · obtain ⟨i, line, hline, rfl⟩ := ih h
      exact ⟨i + 1, line, hline, by rw [Nat.add_right_comm, Nat.add_assoc]⟩

/-! ### A stream of lines -/

namespace StreamState

/-- What one line of a stream does: it is hashed and counted, and only it can be selected. -/
structure Took (s : StreamState) (rawLine : List Char) (s' : StreamState) : Prop where
  tagHasher : s'.tagHasher = s.tagHasher.update (encode rawLine)
  flags : s'.flags = updateLineEndingFlags s.flags rawLine
  currentLineNo : s'.currentLineNo = s.currentLineNo + 1
  selected : ∀ e ∈ s'.selectedEntries, e ∈ s.selectedEntries ∨
    e = ⟨s.currentLineNo + 1, stripTrailingLf rawLine⟩

/-- A step that takes every line without a NUL, and no other one. -/
structure Takes (step : StreamState → List Char → Option StreamState) : Prop where
  took : ∀ s rawLine, Char.ofNat 0 ∉ rawLine → ∃ s', step s rawLine = some s' ∧ s.Took rawLine s'
  nul : ∀ s rawLine, Char.ofNat 0 ∈ rawLine → step s rawLine = none

theorem takes_forward (lineOffset effectiveLimit : ℕ) :
    Takes (StreamState.forward lineOffset effectiveLimit) where
  took s rawLine hnul := by
    refine ⟨_, by rw [StreamState.forward, take, if_neg hnul, map_some], ?_⟩
    unfold select
    split
    · split <;> exact ⟨rfl, rfl, rfl, fun e he => Or.inl he⟩
    · split
      · exact ⟨rfl, rfl, rfl, fun e he => Or.inl he⟩
      · split
        · exact ⟨rfl, rfl, rfl, fun e he => Or.inl he⟩
        · refine ⟨rfl, rfl, rfl, fun e he => ?_⟩
          exact (mem_append.1 he).imp id mem_singleton.1
  nul s rawLine hnul := by rw [StreamState.forward, take, if_pos hnul, map_none]

theorem takes_tail (tailCount : ℕ) : Takes (StreamState.tail tailCount) where
  took s rawLine hnul := by
    refine ⟨_, by rw [StreamState.tail, take, if_neg hnul, map_some], rfl, rfl, rfl, ?_⟩
    intro e he
    have hmem : e ∈ s.selectedEntries ++ [⟨s.currentLineNo + 1, stripTrailingLf rawLine⟩] := by
      dsimp only at he
      split at he
      · exact mem_of_mem_tail he
      · exact he
    exact (mem_append.1 hmem).imp id mem_singleton.1
  nul s rawLine hnul := by rw [StreamState.tail, take, if_pos hnul, map_none]

variable {step : StreamState → List Char → Option StreamState}

theorem Takes.foldlM_nul (h : Takes step) {lines : List (List Char)} {rawLine : List Char}
    (hmem : rawLine ∈ lines) (hnul : Char.ofNat 0 ∈ rawLine) (s : StreamState) :
    lines.foldlM step s = none := by
  induction lines generalizing s with
  | nil => cases hmem
  | cons first rest ih =>
    rw [foldlM_cons]
    by_cases hfirst : Char.ofNat 0 ∈ first
    · rw [h.nul s first hfirst]
      rfl
    · obtain ⟨s', hs', -⟩ := h.took s first hfirst
      rw [hs']
      rcases mem_cons.1 hmem with rfl | hmem
      · exact absurd hnul hfirst
      · exact ih hmem s'

/-- **A whole stream.** -/
theorem Takes.foldlM (h : Takes step) {lines : List (List Char)}
    (hnul : ∀ rawLine ∈ lines, Char.ofNat 0 ∉ rawLine) (s : StreamState) :
    ∃ s', lines.foldlM step s = some s' ∧
      s'.tagHasher = (lines.map encode).foldl ContentTagHasher.update s.tagHasher ∧
      s'.flags = lines.foldl updateLineEndingFlags s.flags ∧
      ∀ e ∈ s'.selectedEntries, e ∈ s.selectedEntries ∨ ∃ i line, lines[i]? = some line ∧
        e = ⟨s.currentLineNo + 1 + i, stripTrailingLf line⟩ := by
  induction lines generalizing s with
  | nil => exact ⟨s, rfl, rfl, rfl, fun e he => Or.inl he⟩
  | cons first rest ih =>
    obtain ⟨s₁, hs₁, htook⟩ := h.took s first (hnul first (.head _))
    obtain ⟨s', hs', hhasher, hflags, hselected⟩ := ih (fun l hl => hnul l (.tail _ hl)) s₁
    refine ⟨s', ?_, ?_, ?_, fun e he => ?_⟩
    · rw [foldlM_cons, hs₁]
      exact hs'
    · rw [hhasher, htook.tagHasher]
      rfl
    · rw [hflags, htook.flags]
      rfl
    · rcases hselected e he with he | ⟨i, line, hline, rfl⟩
      · rcases htook.selected e he with he | rfl
        · exact Or.inl he
        · exact Or.inr ⟨0, first, rfl, rfl⟩
      · refine Or.inr ⟨i + 1, line, hline, ?_⟩
        rw [htook.currentLineNo, Nat.add_right_comm _ 1 i, Nat.add_assoc _ i 1]

end StreamState

end NoriCode
