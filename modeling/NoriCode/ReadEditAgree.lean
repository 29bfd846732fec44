/-
**Read and Edit on one file.**

What Read shows is meant for Edit: its tag is the tag that Edit computes, and line `k` of its output
is the line that operation `k` replaces.  Read takes both from the bytes or the lines of the
backend, Edit from the decoded text.

The local backend hashes the raw bytes and drops one byte order mark, Edit hashes the decoded text,
which lost one mark already, and drops another one.  The remote backend hands out lines without
their line breaks, so nothing of them is hashed.

Main definitions:

* `ReadMatchesEdit` — the property of a file;
* `KeepsContent` — the files that a backend keeps as they are.

Main results:

* `editLines_toModelTextView` — the lines of Edit from the pieces of the text;
* `readMatchesEdit_iff` — **Read and Edit agree on exactly the files that the backend keeps
  or that Read refuses**.
-/

import NoriCode.EditTool
import NoriCode.ReadTool

namespace NoriCode

open LibUtf8 LibLines List Option

/-! ### The property -/

inductive KaosBackend
  | localKaos
  | sshKaos

def KaosFile.backend {bytes : List UInt8} : KaosFile bytes → KaosBackend
  | .localKaos _ => .localKaos
  | .sshKaos => .sshKaos

/-- What Read shows is what Edit takes `raw` for. -/
structure Agrees (sha256 : List UInt8 → String) (raw : List Char) (result : ReadResult) :
    Prop where
  tag : result.contentTag = computeContentTag sha256 (encode raw)
  lines : ∀ line ∈ result.renderedLines, 1 ≤ line.entry.lineNo ∧
    (editLines (toModelTextView raw).text)[line.entry.lineNo - 1]? = some line.modelContent

/-- **The property of a file**: whatever Read shows of it agrees with Edit. -/
def ReadMatchesEdit (backend : KaosBackend) (bytes : List UInt8) : Prop :=
  ∀ (sha256 : List UInt8 → String) (args : ReadInput) (kind : FileKind) (file : KaosFile bytes)
    (result : ReadResult) (raw : List Char), file.backend = backend → args.Valid →
    readExecution sha256 args kind file = .ok result → readText bytes = some raw →
    Agrees sha256 raw result

/-- The files that a backend keeps as they are. -/
def KeepsContent : KaosBackend → List Char → Prop
  | .localKaos, text => text ≠ [bom] ∧ ¬ [bom, bom] <+: text
  | .sshKaos, text => (∀ c ∈ text, isBreak c = false) ∧ ¬ [bom, bom] <+: text

/-! ### The lines of Edit -/

theorem modelContent_cons {c : Char} (hc : c ≠ '\r') (line : List Char) :
    modelContent .crlf (c :: line) = c :: modelContent .crlf line := by
  rcases line with _ | ⟨d, line⟩
  · rw [modelContent, if_neg fun h => hc (some.inj h.2)]
    rfl
  · rw [modelContent, modelContent, getLast?_cons_cons]
    split <;> rfl

variable {text : List Char}

/-- With uniform CRLF, Read cuts off the carriage returns that Edit replaced. -/
theorem map_pieces_replaceCrLf (h : Uniform '\r' '\n' text) :
    (pieces '\n' (replaceCrLf text)).map stripTrailingLf =
      (pieces '\n' text).map fun p => modelContent .crlf (stripTrailingLf p) := by
  induction h with
  | nil => rfl
  | @plain c text hc _ ih =>
    rw [replaceCrLf_cons hc.1, pieces, pieces, if_neg hc.2, if_neg hc.2]
    cases hleft : pieces '\n' (replaceCrLf text) with
    | nil =>
      rw [hleft] at ih
      rw [map_eq_nil_iff.1 ih.symm]
      change [stripTrailingLf [c]] = [modelContent .crlf (stripTrailingLf [c])]
      rw [stripTrailingLf_singleton hc.2, modelContent_cons hc.1]
      rfl
    | cons piece rest =>
      cases hright : pieces '\n' text with
      | nil =>
        rw [hleft, hright] at ih
        exact absurd ih (cons_ne_nil _ _)
      | cons piece' rest' =>
        rw [hleft, hright] at ih
        obtain ⟨hfirst, hrest⟩ := List.cons.inj ih
        have hne : piece ≠ [] := ne_nil_of_mem_pieces (hleft ▸ mem_cons_self)
        have hne' : piece' ≠ [] := ne_nil_of_mem_pieces (hright ▸ mem_cons_self)
        change stripTrailingLf (c :: piece) :: rest.map _ =
          modelContent .crlf (stripTrailingLf (c :: piece')) :: rest'.map _
        rw [stripTrailingLf_cons c hne, stripTrailingLf_cons c hne',
          modelContent_cons hc.1, hfirst, hrest]
  | @crlf text _ ih =>
    rw [replaceCrLf, if_pos ⟨rfl, rfl⟩, pieces, if_pos rfl, pieces, if_neg (by decide), pieces,
      if_pos rfl, map_cons, map_cons, ih]
    rfl

theorem stripBom_cons_of_ne {c : Char} (hc : c ≠ bom) (text : List Char) :
    stripBom (c :: text) = c :: text := if_neg hc

theorem stripBom_bom_cons (text : List Char) : stripBom (bom :: text) = text := by
  rw [stripBom, if_pos rfl]

theorem stripBom_toModelTextView (raw : List Char) :
    stripBom (toModelTextView raw).text = (toModelTextView (stripBom raw)).text := by
  rcases raw with _ | ⟨c, raw⟩
  · rfl
  · by_cases hc : c = bom
    · subst hc
      rw [toModelTextView_cons plain_bom, stripBom_bom_cons, stripBom_bom_cons]
    · have hkeep : stripBom (replaceCrLf (c :: raw)) = replaceCrLf (c :: raw) := by
        rcases raw with _ | ⟨d, raw⟩
        · exact stripBom_cons_of_ne hc []
        · rw [replaceCrLf]
          split
          · exact stripBom_cons_of_ne (by decide) _
          · exact stripBom_cons_of_ne hc _
      rw [stripBom_cons_of_ne hc, toModelTextView]
      cases detectLineEndingStyle (c :: raw) with
      | crlf => exact hkeep
      | lf | mixed => exact stripBom_cons_of_ne hc raw

/-- **The lines of Edit**, from the pieces of the text behind the mark. -/
theorem editLines_toModelTextView (raw : List Char) :
    editLines (toModelTextView raw).text =
      (pieces '\n' (stripBom raw)).map fun p =>
        modelContent (detectLineEndingStyle (stripBom raw)) (stripTrailingLf p) := by
  rw [editLines, stripBom_toModelTextView, splitFileLines_eq_pieces]
  generalize stripBom raw = body
  have hsame : ∀ style, style ≠ .crlf →
      (pieces '\n' body).map stripTrailingLf =
        (pieces '\n' body).map fun p => modelContent style (stripTrailingLf p) := by
    intro style hstyle
    refine map_congr_left fun p _ => ?_
    rw [modelContent, if_neg fun h => hstyle h.1]
  rw [toModelTextView]
  cases hstyle : detectLineEndingStyle body with
  | crlf => exact map_pieces_replaceCrLf (uniform_of_crlf hstyle)
  | lf => exact hsame .lf (by decide)
  | mixed => exact hsame .mixed (by decide)

/-! ### The lines of the local backend -/

theorem pieces_stripBom (hnil : text ≠ []) (hbom : text ≠ [bom]) :
    ∃ first rest, pieces '\n' text = first :: rest ∧
      pieces '\n' (stripBom text) = stripBom first :: rest := by
  rcases text with _ | ⟨c, text⟩
  · exact absurd rfl hnil
  · by_cases hc : c = bom
    · subst hc
      have hne : text ≠ [] := by
        rintro rfl
        exact hbom rfl
      have hpieces : pieces '\n' text ≠ [] := fun h => hne (pieces_eq_nil.1 h)
      obtain ⟨first, rest, hfirst⟩ := exists_cons_of_ne_nil hpieces
      refine ⟨bom :: first, rest, ?_, ?_⟩
      · rw [pieces, if_neg plain_bom.2, hfirst]
      · rw [stripBom_bom_cons, stripBom_bom_cons, hfirst]
    · have hpieces : pieces '\n' (c :: text) ≠ [] := fun h => hnil (pieces_eq_nil.1 h)
      obtain ⟨first, rest, hfirst⟩ := exists_cons_of_ne_nil hpieces
      obtain ⟨m, hm, -, -⟩ := exists_of_pieces_eq_cons hfirst
      have hne : first ≠ [] := ne_nil_of_mem_pieces (hfirst ▸ mem_cons_self)
      obtain ⟨d, line, rfl⟩ := exists_cons_of_ne_nil hne
      have hd : d = c := (List.cons.inj hm).1.symm
      refine ⟨d :: line, rest, hfirst, ?_⟩
      rw [stripBom_cons_of_ne hc, hfirst, stripBom_cons_of_ne (hd ▸ hc)]

theorem localLines_eq_pieces (hbom : text ≠ [bom]) :
    localLines text = pieces '\n' (stripBom text) := by
  by_cases hnil : text = []
  · subst hnil
    rfl
  · obtain ⟨first, rest, hfirst, hstrip⟩ := pieces_stripBom hnil hbom
    rw [localLines, hfirst, hstrip]

/-! ### A call on the local backend -/

theorem contains_zero_encode (text : List Char) :
    (encode text).contains 0 = true ↔ Char.ofNat 0 ∈ text := by
  rw [contains_iff_mem, encode, mem_flatMap]
  constructor
  · rintro ⟨c, hc, hzero⟩
    have hascii : c.toNat < 0x80 := by
      by_contra hhigh
      exact absurd (le_of_mem_encodeChar (Nat.not_lt.1 hhigh) hzero) (by decide)
    rw [encodeChar_ascii hascii, mem_singleton] at hzero
    have hnat := congrArg UInt8.toNat hzero
    rw [UInt8.toNat_ofNat', Nat.mod_eq_of_lt (by omega)] at hnat
    rw [← Char.ofNat_toNat c, ← hnat] at hc
    exact hc
  · exact fun h => ⟨_, h, by decide⟩

theorem lineEndingStyle_of_flags {flags : Breaks} (h : flags = breaksFrom '\r' '\n' {} false text) :
    lineEndingStyleFromFlags flags = detectLineEndingStyle text := by
  rw [detectLineEndingStyle_eq, h]

/-- The last lines of a file as the local backend hands them out. -/
def tailWindow (text : List Char) (tailCount : ℕ) : List (List Char) :=
  if (pieces '\n' text).length ≤ tailCount then pieces '\n' (stripBom text)
  else (pieces '\n' text).drop ((pieces '\n' text).length - tailCount)

/-- The number of the first of them. -/
def tailStart (text : List Char) (tailCount : ℕ) : ℕ :=
  max 1 ((pieces '\n' text).length + 1 - (tailWindow text tailCount).length)

section Local

variable (sha256 : List UInt8 → String) {text : List Char} (reads : FileReads (encode text))
  (path : String) {limit requested : ℕ}

theorem readForward_local (hlimit : 0 < limit) (lineOffset : ℕ) :
    (Char.ofNat 0 ∈ text → ∃ message,
      readForward sha256 (.localKaos reads) path lineOffset limit requested = .error message) ∧
    (Char.ofNat 0 ∉ text → ∃ result,
      readForward sha256 (.localKaos reads) path lineOffset limit requested = .ok result ∧
        result.contentTag = streamTag sha256 (encode (normalizedText text)) ∧
        result.renderedLines = (renderEntries (numbered lineOffset
          (((localLines text).drop (lineOffset - 1)).take limit))
            (detectLineEndingStyle text)).1) := by
  obtain ⟨scan, hscan, -, hnul, hflags, htag⟩ := scanTextFile_encode sha256 reads
  rw [← lineEndingStyle_of_flags hflags]
  simp only [readForward, hscan, readLineRange_encode hlimit, orNotReadable]
  constructor
  · intro hmem
    have hhas : scan.hasNul = true := hnul.trans ((contains_zero_encode text).2 hmem)
    exact ⟨notReadableFileOutput path, by simp only [bind, Except.bind, hhas]; rfl⟩
  · intro hmem
    have hhas : scan.hasNul = false := by
      rw [hnul, ← Bool.not_eq_true, contains_zero_encode]
      exact hmem
    exact ⟨_, by simp only [bind, Except.bind, hhas]; rfl, htag, rfl⟩

theorem readTail_local {tailCount : ℕ} (hpos : 0 < tailCount) :
    (Char.ofNat 0 ∈ text → ∃ message,
      readTail sha256 (.localKaos reads) path tailCount limit requested = .error message) ∧
    (Char.ofNat 0 ∉ text → ∃ result,
      readTail sha256 (.localKaos reads) path tailCount limit requested = .ok result ∧
        result.contentTag = streamTag sha256 (encode (normalizedText text)) ∧
        result.renderedLines =
          (tailCandidates (numbered (tailStart text tailCount) (tailWindow text tailCount)) limit
            (detectLineEndingStyle text)).1) := by
  obtain ⟨scan, hscan, htotal, hnul, hflags, htag⟩ := scanTextFile_encode sha256 reads
  rw [← lineEndingStyle_of_flags hflags, tailStart, ← htotal]
  simp only [readTail, hscan, readTailLines_encode hpos, orNotReadable]
  constructor
  · intro hmem
    have hhas : scan.hasNul = true := hnul.trans ((contains_zero_encode text).2 hmem)
    exact ⟨notReadableFileOutput path, by simp only [bind, Except.bind, hhas]; rfl⟩
  · intro hmem
    have hhas : scan.hasNul = false := by
      rw [hnul, ← Bool.not_eq_true, contains_zero_encode]
      exact hmem
    exact ⟨_, by simp only [bind, Except.bind, hhas]; rfl, htag, rfl⟩

end Local

/-! ### A call on the remote backend -/

section Ssh

variable (sha256 : List UInt8 → String) {text : List Char} (path : String) {limit requested : ℕ}

theorem sshReadLines_encode (text : List Char) :
    sshReadLines (encode text) = some (sshLines (stripBom text)) := by
  rw [sshReadLines, readText, decodeTextWithErrors_encode]
  rfl

theorem mem_stripBom {c : Char} (hc : c ≠ bom) :
    c ∈ stripBom text ↔ c ∈ text := by
  rcases text with _ | ⟨d, text⟩
  · rfl
  · rw [stripBom]
    split
    · rename_i hd
      rw [mem_cons, hd]
      exact ⟨Or.inr, fun h => h.resolve_left hc⟩
    · rfl

theorem exists_line_of_nul (h : Char.ofNat 0 ∈ text) :
    ∃ line ∈ sshLines (stripBom text), Char.ofNat 0 ∈ line := by
  have hflat : Char.ofNat 0 ∈ (sshLines (stripBom text)).flatten := by
    rw [flatten_sshLines]
    exact List.mem_filter.2 ⟨(mem_stripBom (by decide)).2 h, by decide⟩
  exact mem_flatten.1 hflat

theorem nul_notMem_line (h : Char.ofNat 0 ∉ text) :
    ∀ line ∈ sshLines (stripBom text), Char.ofNat 0 ∉ line := by
  intro line hline hnul
  have hflat : Char.ofNat 0 ∈ (sshLines (stripBom text)).flatten :=
    mem_flatten.2 ⟨line, hline, hnul⟩
  rw [flatten_sshLines] at hflat
  exact h ((mem_stripBom (by decide)).1 (List.mem_filter.1 hflat).1)

theorem digest_lines (lines : List (List Char)) :
    ((lines.map encode).foldl ContentTagHasher.update {}).digest sha256 =
      streamTag sha256 (encode (normalizedText lines.flatten)) := by
  have hflatten : (lines.map encode).flatten = encode lines.flatten := by
    induction lines with
    | nil => rfl
    | cons line lines ih =>
      rw [map_cons, flatten_cons, flatten_cons, encode_append, ih]
  rw [digest_foldl_update, hflatten, normalizedBytes_encode]

/-- What is shown of the lines of a stream. -/
def ShowsLines (result : ReadResult) (style : LineEndingStyle) (lines : List (List Char)) : Prop :=
  ∀ shown ∈ result.renderedLines, ∃ i line, lines[i]? = some line ∧
    shown = renderLine ⟨1 + i, stripTrailingLf line⟩ style

/-- The style of the lines of a stream. -/
def streamStyle (lines : List (List Char)) : LineEndingStyle :=
  lineEndingStyleFromFlags (lines.foldl updateLineEndingFlags {})

/-- What a call returns that reads the lines of the text. -/
def ReadsStream (text : List Char) (outcome : Except String ReadResult) : Prop :=
  (Char.ofNat 0 ∈ text → ∃ message, outcome = .error message) ∧
  (Char.ofNat 0 ∉ text → ∃ result, outcome = .ok result ∧
    result.contentTag = streamTag sha256
      (encode (normalizedText ((stripBom text).filter fun c => !isBreak c))) ∧
    ShowsLines result (streamStyle (sshLines (stripBom text))) (sshLines (stripBom text)))

theorem readsStream {step : StreamState → List Char → Option StreamState}
    (htakes : StreamState.Takes step) {outcome : Except String ReadResult}
    {result : StreamState → ReadResult}
    (hnone : (sshLines (stripBom text)).foldlM step {} = none → ∃ message, outcome = .error message)
    (hsome : ∀ s, (sshLines (stripBom text)).foldlM step {} = some s → outcome = .ok (result s))
    (htag : ∀ s, (result s).contentTag = s.tagHasher.digest sha256)
    (hshown : ∀ s, ∀ shown ∈ (result s).renderedLines, ∃ entry ∈ s.selectedEntries,
      shown = renderLine entry (lineEndingStyleFromFlags s.flags)) :
    ReadsStream sha256 text outcome := by
  refine ⟨fun hnul => hnone ?_, fun hnul => ?_⟩
  · obtain ⟨line, hline, hmem⟩ := exists_line_of_nul hnul
    exact htakes.foldlM_nul hline hmem {}
  · obtain ⟨s, hs, hhasher, hflags, hselected⟩ := htakes.foldlM (nul_notMem_line hnul) {}
    refine ⟨_, hsome s hs, ?_, fun shown hmem => ?_⟩
    · rw [htag, hhasher, ← flatten_sshLines]
      exact digest_lines sha256 _
    · obtain ⟨entry, hentry, rfl⟩ := hshown s shown hmem
      rcases hselected entry hentry with hnil | ⟨i, line, hline, rfl⟩
      · cases hnil
      · refine ⟨i, line, hline, ?_⟩
        rw [hflags]
        rfl

theorem readForward_ssh (lineOffset : ℕ) : ReadsStream sha256 text (readForward sha256
    (.sshKaos : KaosFile (encode text)) path lineOffset limit requested) := by
  simp only [readForward, sshReadLines_encode, orNotReadable]
  exact readsStream sha256 (StreamState.takes_forward lineOffset limit)
    (fun hnone => ⟨notReadableFileOutput path, by simp only [bind, Except.bind, hnone]⟩)
    (fun s hs => by simp only [bind, Except.bind, hs]; rfl) (fun _ => rfl)
    fun _ _ => mem_renderEntries

theorem readTail_ssh (tailCount : ℕ) : ReadsStream sha256 text (readTail sha256
    (.sshKaos : KaosFile (encode text)) path tailCount limit requested) := by
  simp only [readTail, sshReadLines_encode, orNotReadable]
  exact readsStream sha256 (StreamState.takes_tail tailCount)
    (fun hnone => ⟨notReadableFileOutput path, by simp only [bind, Except.bind, hnone]⟩)
    (fun s hs => by simp only [bind, Except.bind, hs]; rfl) (fun _ => rfl)
    fun _ _ => mem_tailCandidates

end Ssh

/-! ### Agreement -/

theorem stripBom_stripBom (h : ¬ [bom, bom] <+: text) :
    stripBom (stripBom text) = stripBom text := by
  rcases text with _ | ⟨c, text⟩
  · rfl
  · by_cases hc : c = bom
    · subst hc
      rw [stripBom_bom_cons]
      rcases text with _ | ⟨d, text⟩
      · rfl
      · refine stripBom_cons_of_ne ?_ text
        rintro rfl
        exact h ⟨text, rfl⟩
    · rw [stripBom_cons_of_ne hc, stripBom_cons_of_ne hc]

theorem detectLineEndingStyle_stripBom (text : List Char) :
    detectLineEndingStyle (stripBom text) = detectLineEndingStyle text := by
  rcases text with _ | ⟨c, text⟩
  · rfl
  · rw [stripBom]
    split
    · rename_i hc
      rw [hc, detectLineEndingStyle_cons plain_bom]
    · rfl

theorem readText_encode (text : List Char) : readText (encode text) = some (stripBom text) := by
  rw [readText, decodeTextWithErrors_encode]
  rfl

theorem getElem?_editLines {raw piece : List Char} {n : ℕ}
    (hpiece : (pieces '\n' (stripBom raw))[n]? = some piece) :
    (editLines (toModelTextView raw).text)[n]? =
      some (modelContent (detectLineEndingStyle (stripBom raw)) (stripTrailingLf piece)) := by
  rw [editLines_toModelTextView, getElem?_map, hpiece]
  rfl

variable {sha256 : List UInt8 → String} {result : ReadResult}

theorem agrees_of_window {lineNo : ℕ} {lines : List (List Char)} (hbom : ¬ [bom, bom] <+: text)
    (htag : result.contentTag = streamTag sha256 (encode (normalizedText text)))
    (hshown : ∀ shown ∈ result.renderedLines, ∃ entry ∈ numbered lineNo lines,
      shown = renderLine entry (detectLineEndingStyle text)) (hpos : 1 ≤ lineNo)
    (hlines : ∀ i line, lines[i]? = some line →
      (pieces '\n' (stripBom text))[lineNo + i - 1]? = some line) :
    Agrees sha256 (stripBom text) result := by
  have hstrip := stripBom_stripBom hbom
  constructor
  · rw [htag, computeContentTag_encode, normalizedText, normalizedText, hstrip]
  · intro shown hmem
    obtain ⟨entry, hentry, rfl⟩ := hshown shown hmem
    obtain ⟨i, line, hline, rfl⟩ := mem_numbered hentry
    refine ⟨Nat.le_add_right_of_le hpos, ?_⟩
    have hpiece := hlines i line hline
    rw [← hstrip] at hpiece
    rw [renderLine, getElem?_editLines hpiece, hstrip, detectLineEndingStyle_stripBom]

theorem getElem?_tailWindow {piece : List Char} (hbom : text ≠ [bom]) {count i : ℕ}
    (h : (tailWindow text count)[i]? = some piece) :
    (pieces '\n' (stripBom text))[tailStart text count + i - 1]? = some piece := by
  rw [tailStart]
  by_cases hnil : text = []
  · subst hnil
    have hempty : tailWindow [] count = [] := if_pos (Nat.zero_le count)
    rw [hempty] at h
    cases h
  · obtain ⟨first, rest, hfirst, hstrip⟩ := pieces_stripBom hnil hbom
    rw [tailWindow, hfirst, hstrip] at h
    rw [tailWindow, hfirst, hstrip]
    by_cases hfew : (first :: rest).length ≤ count
    · rw [if_pos hfew] at h
      rw [if_pos hfew, ← h]
      congr 1
      simp only [length_cons]
      omega
    · rw [if_neg hfew, getElem?_drop] at h
      rw [if_neg hfew, length_drop, ← h]
      rw [length_cons] at hfew ⊢
      rw [show max 1 (rest.length + 1 + 1 - (rest.length + 1 - (rest.length + 1 - count))) + i - 1 =
          rest.length - count + i + 1 by omega,
        show rest.length + 1 - count + i = rest.length - count + i + 1 by omega,
        getElem?_cons_succ, getElem?_cons_succ]

variable {args : ReadInput}

theorem agrees_local (hkeep : KeepsContent .localKaos text) (hvalid : args.Valid)
    {reads : FileReads (encode text)}
    (h : readExecution sha256 args .text (.localKaos reads) = .ok result) :
    Char.ofNat 0 ∈ text ∨ Agrees sha256 (stripBom text) result := by
  obtain ⟨hone, htwo⟩ := hkeep
  refine or_iff_not_imp_left.2 fun hnul => ?_
  have hlimit : 0 < min args.nLines MAX_LINES := lt_min hvalid.1 (by decide)
  have hoffset := hvalid.2
  simp only [readExecution] at h
  cases hwhere : args.lineOffset with
  | forward line =>
    rw [hwhere] at h hoffset
    obtain ⟨result', hresult, htag, hrendered⟩ :=
      (readForward_local sha256 reads args.path hlimit line).2 hnul
    obtain rfl : result' = result := Except.ok.inj (hresult.symm.trans h)
    have hshown : ∀ shown ∈ result'.renderedLines, ∃ entry ∈ numbered line
        (((localLines text).drop (line - 1)).take (min args.nLines MAX_LINES)),
        shown = renderLine entry (detectLineEndingStyle text) := by
      intro shown hmem
      rw [hrendered] at hmem
      exact mem_renderEntries hmem
    have hpos : 0 < line := hoffset
    refine agrees_of_window htwo htag hshown hpos fun i piece hpiece => ?_
    have hlt : i < min args.nLines MAX_LINES := by
      by_contra hge
      rw [getElem?_take_eq_none (Nat.not_lt.1 hge)] at hpiece
      cases hpiece
    rw [localLines_eq_pieces hone, getElem?_take_of_lt hlt, getElem?_drop] at hpiece
    rw [← hpiece, show line + i - 1 = line - 1 + i by omega]
  | tail count =>
    rw [hwhere] at h hoffset
    obtain ⟨result', hresult, htag, hrendered⟩ :=
      (readTail_local sha256 reads args.path hoffset.1).2 hnul
    obtain rfl : result' = result := Except.ok.inj (hresult.symm.trans h)
    have hshown : ∀ shown ∈ result'.renderedLines, ∃ entry ∈
        numbered (tailStart text count) (tailWindow text count),
        shown = renderLine entry (detectLineEndingStyle text) := by
      intro shown hmem
      rw [hrendered] at hmem
      exact mem_tailCandidates hmem
    refine agrees_of_window htwo htag hshown (Nat.le_max_left 1 _) fun i piece hpiece => ?_
    exact getElem?_tailWindow hone hpiece

theorem pieces_of_no_break {text : List Char} (hnil : text ≠ [])
    (h : ∀ c ∈ text, isBreak c = false) : pieces '\n' text = [text] := by
  have hnoLf : ∀ c ∈ text, c ≠ '\n' := by
    rintro c hc rfl
    exact absurd (h _ hc) (by decide)
  have hpieces := pieces_plain_append hnil hnoLf []
  rwa [append_nil] at hpieces

theorem modelContent_stripTrailingLf {line : List Char} (h : ∀ c ∈ line, isBreak c = false)
    (style : LineEndingStyle) : modelContent style (stripTrailingLf line) = line := by
  have hlf : line.getLast? ≠ some '\n' := fun hlast =>
    absurd (h _ (mem_of_getLast? hlast)) (by decide)
  have hcr : line.getLast? ≠ some '\r' := fun hlast =>
    absurd (h _ (mem_of_getLast? hlast)) (by decide)
  rw [stripTrailingLf, if_neg hlf, modelContent, if_neg fun hstyle => hcr hstyle.2]

theorem isBreak_stripBom {text : List Char} (h : ∀ c ∈ text, isBreak c = false) :
    ∀ c ∈ stripBom text, isBreak c = false := by
  intro c hc
  by_cases hbom : c = bom
  · rw [hbom]
    decide
  · exact h c ((mem_stripBom hbom).1 hc)

theorem agrees_ssh (hkeep : KeepsContent .sshKaos text)
    (h : readExecution sha256 args .text (.sshKaos : KaosFile (encode text)) = .ok result) :
    Char.ofNat 0 ∈ text ∨ Agrees sha256 (stripBom text) result := by
  obtain ⟨hbreak, htwo⟩ := hkeep
  refine or_iff_not_imp_left.2 fun hnul => ?_
  have hbody := isBreak_stripBom hbreak
  have hresult : result.contentTag = streamTag sha256
      (encode (normalizedText ((stripBom text).filter fun c => !isBreak c))) ∧
      ShowsLines result (streamStyle (sshLines (stripBom text))) (sshLines (stripBom text)) := by
    simp only [readExecution] at h
    cases hwhere : args.lineOffset with
    | forward line =>
      rw [hwhere] at h
      obtain ⟨result', hread, hfacts⟩ := (readForward_ssh sha256 args.path line).2 hnul
      obtain rfl : result' = result := Except.ok.inj (hread.symm.trans h)
      exact hfacts
    | tail count =>
      rw [hwhere] at h
      obtain ⟨result', hread, hfacts⟩ := (readTail_ssh sha256 args.path count).2 hnul
      obtain rfl : result' = result := Except.ok.inj (hread.symm.trans h)
      exact hfacts
  obtain ⟨htag, hshown⟩ := hresult
  constructor
  · rw [htag, computeContentTag_encode, filter_eq_self.2 fun c hc => by rw [hbody c hc]; rfl]
  · intro shown hmem
    obtain ⟨i, line, hline, rfl⟩ := hshown shown hmem
    rw [sshLines_of_no_break hbody] at hline
    by_cases hnil : stripBom text = []
    · rw [if_pos hnil] at hline
      cases hline
    · rw [if_neg hnil] at hline
      obtain ⟨rfl, rfl⟩ : i = 0 ∧ stripBom text = line := by
        rcases i with _ | i
        · exact ⟨rfl, some.inj hline⟩
        · cases hline
      refine ⟨Nat.le_refl 1, ?_⟩
      have hpiece : (pieces '\n' (stripBom (stripBom text)))[0]? = some (stripBom text) := by
        rw [stripBom_stripBom htwo, pieces_of_no_break hnil hbody]
        rfl
      have hline := getElem?_editLines hpiece
      rw [modelContent_stripTrailingLf hbody] at hline
      rw [renderLine, modelContent_stripTrailingLf hbody]
      exact hline

/-! ### Where they do not agree -/

/-- A file read in one piece. -/
def FileReads.whole (bytes : List UInt8) : FileReads bytes :=
  if h : bytes = [] then ⟨[], by simp, h.symm⟩
  else ⟨[bytes], by simpa using h, List.flatten_singleton⟩

theorem exists_streamTag_ne {s t : List UInt8} (h : s ≠ t) :
    ∃ sha256, streamTag sha256 s ≠ streamTag sha256 t := by
  refine ⟨fun x => if x = s then "0000" else "1111", ?_⟩
  rw [streamTag, streamTag, if_pos rfl, if_neg h.symm]
  decide

theorem normalizedText_ne_of_two_marks (text : List Char) :
    normalizedText (bom :: bom :: text) ≠ normalizedText (stripBom (bom :: bom :: text)) := by
  have hplain := plain_bom
  rw [stripBom_bom_cons, normalizedText, normalizedText, stripBom_bom_cons, stripBom_bom_cons,
    normalizeFrom, if_neg hplain.1]
  exact cons_ne_self _ _

theorem normalizedText_ne_of_break {text : List Char} {c : Char} (hc : c ∈ text)
    (hbreak : isBreak c = true) :
    normalizedText ((stripBom text).filter fun c => !isBreak c) ≠
      normalizedText (stripBom text) := by
  have hbom : c ≠ bom := by
    rintro rfl
    exact absurd hbreak (by decide)
  have hmem : c ∈ stripBom (stripBom text) := (mem_stripBom hbom).2 ((mem_stripBom hbom).2 hc)
  have hlf : '\n' ∈ normalizedText (stripBom text) :=
    lf_mem_normalizeFrom hmem (isBreak_iff.1 hbreak) false
  intro heq
  rw [← heq, normalizedText] at hlf
  have hkept : ∀ d ∈ stripBom ((stripBom text).filter fun c => !isBreak c), isBreak d = false := by
    refine isBreak_stripBom fun d hd => ?_
    have := (List.mem_filter.1 hd).2
    simpa using this
  rw [normalizeFrom_of_notMem fun hcr => absurd (hkept _ hcr) (by decide)] at hlf
  exact absurd (hkept _ hlf) (by decide)

/-- The call that reads a file from its first line on. -/
def readAll : ReadInput := { path := "file" }

theorem readAll_valid : readAll.Valid := ⟨by decide, Nat.one_pos⟩

theorem not_matches_local (hnul : Char.ofNat 0 ∉ text)
    (hkeep : ¬ KeepsContent .localKaos text) : ¬ ReadMatchesEdit .localKaos (encode text) := by
  intro hmatch
  have hagrees : ∀ sha256, ∃ result, Agrees sha256 (stripBom text) result ∧
      result.contentTag = streamTag sha256 (encode (normalizedText text)) ∧
      result.renderedLines = (renderEntries (numbered 1
        (((localLines text).drop (1 - 1)).take MAX_LINES)) (detectLineEndingStyle text)).1 := by
    intro sha256
    have hlimit : 0 < MAX_LINES := by decide
    obtain ⟨result, hread, htag, hlines⟩ :=
      (readForward_local sha256 (FileReads.whole (encode text)) "file" hlimit 1).2 hnul
    exact ⟨result, hmatch sha256 readAll .text (.localKaos (FileReads.whole (encode text))) result _
      rfl readAll_valid hread (readText_encode text), htag, hlines⟩
  by_cases hone : text = [bom]
  · -- One empty line is shown, and Edit counts none.
    subst hone
    obtain ⟨result, hagree, -, hlines⟩ := hagrees fun _ => ""
    have hfirst := mem_renderEntries_first (detectLineEndingStyle [bom]) ⟨1, []⟩ []
    obtain ⟨-, hline⟩ := hagree.lines _ (hlines ▸ hfirst)
    cases hline
  · have htwo : [bom, bom] <+: text := by
      by_contra hno
      exact hkeep ⟨hone, hno⟩
    obtain ⟨rest, rfl⟩ := htwo
    obtain ⟨sha256, hne⟩ := exists_streamTag_ne
      (encode_injective.ne (normalizedText_ne_of_two_marks rest))
    obtain ⟨result, hagree, htag, -⟩ := hagrees sha256
    have heq := hagree.tag
    rw [htag, computeContentTag_encode] at heq
    exact hne heq

theorem readForward_ssh_single {sha256 : List UInt8 → String} {text : List Char}
    (hnul : Char.ofNat 0 ∉ stripBom text) (hbreak : ∀ c ∈ stripBom text, isBreak c = false)
    (hnil : stripBom text ≠ []) :
    ∃ result style, readExecution sha256 readAll .text (.sshKaos : KaosFile (encode text)) =
        .ok result ∧
      renderLine ⟨1, stripTrailingLf (stripBom text)⟩ style ∈ result.renderedLines := by
  have hlines : sshReadLines (encode text) = some [stripBom text] := by
    rw [sshReadLines_encode, sshLines_of_no_break hbreak, if_neg hnil]
  have hstep : ∃ s, [stripBom text].foldlM (StreamState.forward 1 MAX_LINES) {} = some s ∧
      s.selectedEntries = [⟨1, stripTrailingLf (stripBom text)⟩] := by
    refine ⟨_, by rw [foldlM_cons, StreamState.forward, StreamState.take, if_neg hnul]; rfl,
      rfl⟩
  obtain ⟨s, hs, hselected⟩ := hstep
  have hread : readExecution sha256 readAll .text (.sshKaos : KaosFile (encode text)) =
      readForward sha256 .sshKaos "file" 1 MAX_LINES MAX_LINES := rfl
  rw [hread]
  simp only [readForward, hlines, orNotReadable, bind, Except.bind, hs]
  refine ⟨_, lineEndingStyleFromFlags s.flags, rfl, ?_⟩
  rw [hselected]
  exact mem_renderEntries_first _ _ _

theorem not_matches_ssh {text : List Char} (hnul : Char.ofNat 0 ∉ text)
    (hkeep : ¬ KeepsContent .sshKaos text) : ¬ ReadMatchesEdit .sshKaos (encode text) := by
  intro hmatch
  by_cases hbreak : ∀ c ∈ text, isBreak c = false
  · have htwo : [bom, bom] <+: text := by
      by_contra hno
      exact hkeep ⟨hbreak, hno⟩
    obtain ⟨rest, rfl⟩ := htwo
    -- The line is shown with the mark that Edit takes away.
    have hbody := isBreak_stripBom hbreak
    have hbodyNul : Char.ofNat 0 ∉ stripBom ([bom, bom] ++ rest) := fun h =>
      hnul ((mem_stripBom (by decide)).1 h)
    have hbodyEq : stripBom ([bom, bom] ++ rest) = bom :: rest := stripBom_bom_cons _
    obtain ⟨result, style, hread, hshown⟩ :=
      @readForward_ssh_single (fun _ => "") _ hbodyNul hbody (by rw [hbodyEq]; simp)
    have hagree := hmatch _ readAll .text .sshKaos result _ rfl readAll_valid hread
      (readText_encode _)
    obtain ⟨-, hline⟩ := hagree.lines _ hshown
    change (editLines (toModelTextView (stripBom ([bom, bom] ++ rest))).text)[0]? =
      some (modelContent style (stripTrailingLf (stripBom ([bom, bom] ++ rest)))) at hline
    rw [modelContent_stripTrailingLf hbody, hbodyEq] at hline
    have hrest := isBreak_stripBom hbody
    rw [hbodyEq, stripBom_bom_cons] at hrest
    by_cases hnil : rest = []
    · rw [hnil] at hline
      cases hline
    · have hpiece : (pieces '\n' (stripBom (bom :: rest)))[0]? = some rest := by
        rw [stripBom_bom_cons, pieces_of_no_break hnil hrest]
        rfl
      rw [getElem?_editLines hpiece, modelContent_stripTrailingLf hrest] at hline
      exact (cons_ne_self bom rest) (some.inj hline).symm
  · rw [not_forall] at hbreak
    obtain ⟨c, hbreak⟩ := hbreak
    rw [Classical.not_imp, Bool.not_eq_false] at hbreak
    obtain ⟨hc, hbreak⟩ := hbreak
    obtain ⟨sha256, hne⟩ := exists_streamTag_ne
      (encode_injective.ne (normalizedText_ne_of_break hc hbreak))
    obtain ⟨result, hread, htag, -⟩ := (readForward_ssh sha256 "file" 1).2 hnul
    have hagree := hmatch sha256 readAll .text .sshKaos result _ rfl readAll_valid hread
      (readText_encode text)
    have heq := hagree.tag
    rw [htag, computeContentTag_encode] at heq
    exact hne heq

theorem readExecution_nul (sha256 : List UInt8 → String)
    (hvalid : args.Valid) (file : KaosFile (encode text)) (hnul : Char.ofNat 0 ∈ text) :
    ∃ message, readExecution sha256 args .text file = .error message := by
  have hlimit : 0 < min args.nLines MAX_LINES := lt_min hvalid.1 (by decide)
  have hoffset := hvalid.2
  simp only [readExecution]
  cases hwhere : args.lineOffset with
  | forward line =>
    cases file with
    | localKaos reads => exact (readForward_local sha256 reads args.path hlimit line).1 hnul
    | sshKaos => exact (readForward_ssh sha256 args.path line).1 hnul
  | tail count =>
    rw [hwhere] at hoffset
    cases file with
    | localKaos reads => exact (readTail_local sha256 reads args.path hoffset.1).1 hnul
    | sshKaos => exact (readTail_ssh sha256 args.path count).1 hnul

/-- **Read and Edit agree on exactly the files that the backend keeps or that Read refuses.** -/
theorem readMatchesEdit_iff (backend : KaosBackend) (text : List Char) :
    ReadMatchesEdit backend (encode text) ↔ Char.ofNat 0 ∈ text ∨ KeepsContent backend text := by
  constructor
  · intro hmatch
    by_contra hno
    obtain ⟨hnul, hkeep⟩ := not_or.1 hno
    cases backend with
    | localKaos => exact not_matches_local hnul hkeep hmatch
    | sshKaos => exact not_matches_ssh hnul hkeep hmatch
  · intro h sha256 args kind file result raw hbackend hvalid hread hraw
    rw [readText_encode] at hraw
    cases hraw
    have hkind : kind = .text := by
      cases kind <;> first | rfl | cases hread
    subst hkind
    have hagrees : Char.ofNat 0 ∈ text ∨ Agrees sha256 (stripBom text) result := by
      rcases h with hnul | hkeep
      · exact Or.inl hnul
      · subst hbackend
        cases file with
        | localKaos reads => exact agrees_local hkeep hvalid hread
        | sshKaos => exact agrees_ssh hkeep hread
    refine hagrees.resolve_left fun hnul => ?_
    obtain ⟨message, herror⟩ := readExecution_nul sha256 hvalid file hnul
    rw [herror] at hread
    cases hread

/-- **Two lines on the remote backend**: Read hashes `ab`, Edit hashes `a`, a line feed and `b`. The
hash is any function with the SHA-256 of these two. -/
theorem remote_lines_disagree :
    ∃ sha256 : List UInt8 → String,
      sha256 (encode ['a', 'b']) =
        "fb8e20fc2e4c3f248c60c39bd652f3c1347298bb977b8b4d5903b85055620603" ∧
      sha256 (encode ['a', '\n', 'b']) =
        "7e18f737311b2dc3b2f269dd78396b0351f14fb66efa879f768cb23181883c78" ∧
      (∃ result, readExecution sha256 readAll .text
          (.sshKaos : KaosFile (encode ['a', '\n', 'b'])) = .ok result ∧
        result.contentTag = "FB8E" ∧
        readText (encode ['a', '\n', 'b']) = some ['a', '\n', 'b'] ∧
        computeContentTag sha256 (encode ['a', '\n', 'b']) = "7E18") ∧
      ¬ ReadMatchesEdit .sshKaos (encode ['a', '\n', 'b']) := by
  let sha256 : List UInt8 → String := fun bytes =>
    if bytes = encode ['a', 'b'] then
      "fb8e20fc2e4c3f248c60c39bd652f3c1347298bb977b8b4d5903b85055620603"
    else "7e18f737311b2dc3b2f269dd78396b0351f14fb66efa879f768cb23181883c78"
  have hnul : Char.ofNat 0 ∉ ['a', '\n', 'b'] := by decide
  obtain ⟨result, hread, htag, -⟩ := (readForward_ssh sha256 "file" 1).2 hnul
  have hshown : result.contentTag = "FB8E" := htag.trans (by decide)
  have hedit : computeContentTag sha256 (encode ['a', '\n', 'b']) = "7E18" := by
    rw [computeContentTag_encode]
    decide
  have hraw := readText_encode ['a', '\n', 'b']
  refine ⟨sha256, rfl, by decide, ⟨result, hread, hshown, hraw, hedit⟩, fun hmatch => ?_⟩
  have hagree := (hmatch sha256 readAll .text .sshKaos result _ rfl readAll_valid hread hraw).tag
  exact absurd (hshown.symm.trans (hagree.trans hedit)) (by decide)

end NoriCode
