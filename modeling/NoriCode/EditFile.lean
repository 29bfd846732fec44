/-
**The bytes of an edited file.**

An edit reads the bytes of a file, shows a text with uniform line breaks, applies the operations to
its lines and turns the new text into bytes again.  What no operation names is to stay as it was: a
byte order mark, the line breaks, and whether there is a last one.  The text that is read has lost
its mark, so the file is written without it.

The module joins what is embedded of `edit.ts`, `line-endings.ts` and the decoding of the backends.

Main definitions:

* `editFile` — the bytes that an edit writes;
* `preservedText` — the text with its lines edited and nothing else;
* `PreservesFile` — what an edit owes to a file.

Main results:

* `replaceCrLf_append_lf` — a line break that was folded, one line at a time;
* `editFile_eq` — **an edit writes what is preserved of the text without its mark**;
* `editFile_preserves_iff` — **when an edit preserves the rest of the file**.
-/

import NoriCode.EditLines
import NoriCode.KaosRead

namespace NoriCode

open LibUtf8 LibLines List Option

/-! ### An edit of a file -/

/-- The bytes that an edit writes, if it writes any. -/
def editFile (sha256 : List UInt8 → String) (args : EditInput) (data : List UInt8) :
    Option (List UInt8) :=
  (readText data).bind fun raw =>
    match editExecution sha256 args raw with
    | .error _ => none
    | .written content _ => some (encode content)

/-- A line as the operations see it, with the line break that the file has there. -/
def terminated (style : LineEndingStyle) (line : List Char) : List Char :=
  if style = .crlf then
    (if line.getLast? = some '\r' then line.dropLast else line) ++ ['\r', '\n']
  else line ++ ['\n']

/-- Lines with their line breaks; the last line has one if there is a `final` one. -/
def renderLines (style : LineEndingStyle) (final : Bool) : List (List Char) → List Char
  | [] => []
  | [line] => if final then terminated style line else line
  | line :: line' :: lines => terminated style line ++ renderLines style final (line' :: lines)

/-- The lines of a text behind its mark. -/
def fileLines (text : List Char) : List (List Char) :=
  splitFileLines (toModelTextView (stripBom text)).text

/-- **The text with its lines edited**, its mark, its line breaks and its last one as they were. -/
def preservedText (text : List Char) (ops : List EditLineOperation) : List Char :=
  markOf text ++ renderLines (detectLineEndingStyle text) (endsWithNewline (stripBom text))
    (expectedLines ops (fileLines text))

/-- What an edit owes to a file; where no line is left there is no last line break. -/
structure PreservesFile (text : List Char) (ops : List EditLineOperation) (after : List UInt8) :
    Prop where
  text_eq : after = encode (preservedText text ops)
  final : ∀ new, after = encode new → expectedLines ops (fileLines text) ≠ [] →
    endsWithNewline new = endsWithNewline text

/-! ### Line breaks -/

variable {line : List Char}

theorem replaceCrLf_append_lf (h : '\n' ∉ line) (rest : List Char) :
    replaceCrLf (line ++ '\n' :: rest) =
      (if line.getLast? = some '\r' then line.dropLast else line) ++ '\n' :: replaceCrLf rest := by
  induction line with
  | nil => exact replaceCrLf_cons (by decide) rest
  | cons c line ih =>
    obtain ⟨hc, hline⟩ := not_or.1 (mt mem_cons.2 h)
    cases line with
    | nil =>
      by_cases hcr : c = '\r'
      · subst hcr
        simp [replaceCrLf]
      · have hlf : replaceCrLf ('\n' :: rest) = '\n' :: replaceCrLf rest :=
          replaceCrLf_cons (by decide) rest
        simp [replaceCrLf_cons hcr, hlf, hcr]
    | cons d line =>
      have hd : d ≠ '\n' := fun hd => hline (hd ▸ (.head _))
      have hstep : replaceCrLf (c :: d :: (line ++ '\n' :: rest)) =
          c :: replaceCrLf (d :: (line ++ '\n' :: rest)) := by
        rw [replaceCrLf, if_neg fun h => hd h.2]
      have ih := ih hline
      rw [cons_append] at ih
      rw [cons_append, cons_append, hstep, ih, getLast?_cons_cons]
      split_ifs <;> rfl

theorem replaceCrLf_of_notMem (h : '\n' ∉ line) : replaceCrLf line = line := by
  induction line with
  | nil => rfl
  | cons c line ih =>
    obtain ⟨hc, hline⟩ := not_or.1 (mt mem_cons.2 h)
    cases line with
    | nil => rfl
    | cons d line =>
      have hd : d ≠ '\n' := fun hd => hline (hd ▸ (.head _))
      rw [replaceCrLf, if_neg fun h => hd h.2, ih hline]

theorem materialize_renderLines (style : LineEndingStyle) (final : Bool) {lines : List (List Char)}
    (h : ∀ line ∈ lines, '\n' ∉ line) :
    materializeModelText (renderLines .lf final lines) style = renderLines style final lines := by
  cases style with
  | lf => rfl
  | mixed =>
    have hsame : ∀ l, renderLines .lf final l = renderLines .mixed final l := by
      intro l
      induction l with
      | nil => rfl
      | cons line l ih =>
        cases l with
        | nil => rfl
        | cons line' l => exact congrArg (terminated .lf line ++ ·) ih
    exact hsame lines
  | crlf =>
    have hbreak : ∀ line, '\n' ∉ line → ∀ rest,
        replaceLf (replaceCrLf (terminated .lf line ++ rest)) =
          terminated .crlf line ++ replaceLf (replaceCrLf rest) := by
      intro line hline rest
      have hnot : '\n' ∉ if line.getLast? = some '\r' then line.dropLast else line := by
        split_ifs
        · exact fun hmem => hline (mem_of_mem_dropLast hmem)
        · exact hline
      have hcons : ∀ t, replaceLf ('\n' :: t) = ['\r', '\n'] ++ replaceLf t := fun t => rfl
      have hlf : terminated .lf line ++ rest = line ++ '\n' :: rest := append_assoc _ _ _
      rw [hlf, replaceCrLf_append_lf hline, replaceLf_append, replaceLf_of_notMem hnot, hcons,
        terminated, if_pos rfl, append_assoc]
    rw [materializeModelText, if_pos rfl]
    induction lines with
    | nil => rfl
    | cons line lines ih =>
      have hline := h line (.head _)
      cases lines with
      | nil =>
        cases final with
        | true =>
          have hlast := hbreak line hline []
          rwa [append_nil, show replaceLf (replaceCrLf []) = [] from rfl, append_nil] at hlast
        | false =>
          change replaceLf (replaceCrLf line) = line
          rw [replaceCrLf_of_notMem hline, replaceLf_of_notMem hline]
      | cons line' lines =>
        rw [renderLines, hbreak line hline, ih fun l hl => h l (.tail _ hl)]
        rfl

theorem joinBody_eq (content : List Char) (lines : List (List Char)) :
    joinBody content lines = renderLines .lf (endsWithNewline (stripBom content)) lines := by
  unfold joinBody
  induction lines with
  | nil => cases endsWithNewline (stripBom content) <;> rfl
  | cons line lines ih =>
    cases lines with
    | nil =>
      cases endsWithNewline (stripBom content) with
      | true => simp [renderLines, terminated]
      | false => simp [renderLines]
    | cons line' lines =>
      have hlf : terminated .lf line = line ++ ['\n'] := rfl
      rw [renderLines, ← ih, intercalate_cons_cons, hlf]
      cases endsWithNewline (stripBom content) with
      | true | false => simp

/-! ### The mark -/

theorem view_bom_cons (raw : List Char) :
    (toModelTextView (bom :: raw)).text = bom :: (toModelTextView raw).text :=
  toModelTextView_cons plain_bom raw

variable {text : List Char}

theorem getLast?_replaceCrLf (h : Uniform '\r' '\n' text) :
    (replaceCrLf text).getLast? = text.getLast? := by
  induction h with
  | nil => rfl
  | plain hc _ ih => rw [replaceCrLf_cons hc.1, getLast?_cons, getLast?_cons, ih]
  | crlf _ ih =>
    rw [replaceCrLf, if_pos ⟨rfl, rfl⟩, getLast?_cons_cons, getLast?_cons, getLast?_cons, ih]

theorem endsWithNewline_view (raw : List Char) :
    endsWithNewline (toModelTextView raw).text = endsWithNewline raw := by
  unfold endsWithNewline toModelTextView
  cases hstyle : detectLineEndingStyle raw with
  | lf | mixed => rfl
  | crlf => exact congrArg (· == some '\n') (getLast?_replaceCrLf (uniform_of_crlf hstyle))

theorem stripBom_of_head (h : text.head? ≠ some bom) : stripBom text = text := by
  cases text with
  | nil => rfl
  | cons c text => exact if_neg fun hc => h (congrArg some hc)

theorem head?_replaceCrLf (c : Char) (text : List Char) :
    (replaceCrLf (c :: text)).head? = some c ∨ (replaceCrLf (c :: text)).head? = some '\n' := by
  cases text with
  | nil => exact .inl rfl
  | cons d text =>
    rw [replaceCrLf]
    split_ifs
    · exact .inr rfl
    · exact .inl rfl

theorem head?_view (raw : List Char) :
    (toModelTextView raw).text.head? = some bom ↔ raw.head? = some bom := by
  unfold toModelTextView
  cases hstyle : detectLineEndingStyle raw with
  | lf | mixed => exact Iff.rfl
  | crlf =>
    cases raw with
    | nil => exact Iff.rfl
    | cons c raw =>
      by_cases hc : c = bom
      · subst hc
        exact iff_of_true (by rw [replaceCrLf_cons (by decide)]; rfl) rfl
      · refine iff_of_false (fun hhead => ?_) fun h => hc (some.inj h)
        rcases head?_replaceCrLf c raw with h | h
        · exact hc (some.inj (h.symm.trans hhead))
        · exact absurd (some.inj (h.symm.trans hhead)) (by decide)

theorem markOf_view (raw : List Char) : markOf (toModelTextView raw).text = markOf raw := by
  unfold markOf
  by_cases hmark : raw.head? = some bom
  · rw [if_pos hmark, if_pos ((head?_view raw).2 hmark)]
  · rw [if_neg hmark, if_neg fun h => hmark ((head?_view raw).1 h)]

theorem stripBom_view (raw : List Char) :
    stripBom (toModelTextView raw).text = (toModelTextView (stripBom raw)).text := by
  by_cases hmark : raw.head? = some bom
  · obtain ⟨rest, rfl⟩ := head?_eq_some_iff.1 hmark
    rw [view_bom_cons, stripBom, if_pos rfl, stripBom, if_pos rfl]
  · rw [stripBom_of_head hmark, stripBom_of_head fun h => hmark ((head?_view raw).1 h)]

theorem fileLines_eq (text : List Char) :
    fileLines text = editLines (toModelTextView text).text := by
  unfold editLines fileLines
  rw [stripBom_view]

theorem endsWithNewline_stripBom (text : List Char) :
    endsWithNewline (stripBom text) = endsWithNewline text := by
  by_cases hmark : text.head? = some bom
  · obtain ⟨rest, rfl⟩ := head?_eq_some_iff.1 hmark
    rw [stripBom, if_pos rfl]
    cases rest with
    | nil => decide
    | cons c rest =>
      unfold endsWithNewline
      rw [getLast?_cons_cons]
  · rw [stripBom_of_head hmark]

theorem lineEndingStyle_view (raw : List Char) :
    (toModelTextView raw).lineEndingStyle = detectLineEndingStyle raw := by
  unfold toModelTextView
  cases detectLineEndingStyle raw <;> rfl

theorem materialize_markOf (raw text : List Char) (style : LineEndingStyle) :
    materializeModelText (markOf raw ++ text) style =
      markOf raw ++ materializeModelText text style := by
  unfold markOf
  split_ifs
  · unfold materializeModelText
    split_ifs
    · rw [singleton_append, replaceCrLf_cons (by decide)]
      rfl
    · rfl
  · rfl

/-! ### What is written -/

variable {sha256 : List UInt8 → String} {args : EditInput}

/-- What is written is the new text of the shown one, with the line breaks of the file. -/
theorem editExecution_content {raw content : List Char} {output : String}
    (h : editExecution sha256 args raw = .written content output) :
    ∃ new, applyLineOperations (toModelTextView raw).text args.lineOps = .ok new ∧
      content = materializeModelText new (detectLineEndingStyle raw) := by
  unfold editExecution at h
  simp only at h
  by_cases htag : computeContentTag sha256 (encode raw) ≠ upperCase args.expectedTag
  · rw [if_pos htag] at h
    cases h
  rw [if_neg htag] at h
  cases happly : applyLineOperations (toModelTextView raw).text args.lineOps with
  | error e =>
    rw [happly] at h
    cases h
  | ok new =>
    rw [happly] at h
    simp only at h
    by_cases hsame : new = (toModelTextView raw).text
    · rw [if_pos hsame] at h
      cases h
    · rw [if_neg hsame] at h
      refine ⟨new, rfl, ?_⟩
      rw [← lineEndingStyle_view]
      exact (EditOutcome.written.inj h).1.symm

variable {ops : LineOps}

/-- **An edit writes what is preserved of the text without its mark.** -/
theorem editFile_eq {after : List UInt8} (hops : args.lineOps = ops.toList)
    (h : editFile sha256 args (encode text) = some after) :
    after = encode (preservedText (stripBom text) ops.toList) := by
  have hread : readText (encode text) = some (stripBom text) := by
    rw [readText, decodeTextWithErrors, decode_encode]
    rfl
  rw [editFile, hread, bind_some] at h
  generalize stripBom text = raw at h ⊢
  cases houtcome : editExecution sha256 args raw with
  | error output =>
    rw [houtcome] at h
    cases h
  | written content output =>
    rw [houtcome] at h
    obtain ⟨new, hnew, rfl⟩ := editExecution_content houtcome
    rw [hops] at hnew
    rcases applyLineOperations_spec (toModelTextView raw).text ops with
      ⟨-, e, he⟩ | ⟨-, hok⟩
    · rw [he] at hnew
      cases hnew
    · rw [hok] at hnew
      have hlf : ∀ line ∈ expectedLines ops.toList (editLines (toModelTextView raw).text),
          '\n' ∉ line := fun line => notMem_lf_of_mem_expectedLines
      rw [← some.inj h, ← Except.ok.inj hnew, joinLines_eq, joinBody_eq, markOf_view,
        materialize_markOf, materialize_renderLines _ _ hlf, stripBom_view,
        endsWithNewline_view]
      rw [preservedText, fileLines_eq]

/-- The operations of an edit that writes make sense for the text that is read. -/
theorem not_rejected_of_editFile {after : List UInt8} (hops : args.lineOps = ops.toList)
    (h : editFile sha256 args (encode text) = some after) :
    ¬Rejected ops.toList (fileLines (stripBom text)).length := by
  have hread : readText (encode text) = some (stripBom text) := by
    rw [readText, decodeTextWithErrors, decode_encode]
    rfl
  rw [editFile, hread, bind_some] at h
  cases houtcome : editExecution sha256 args (stripBom text) with
  | error output =>
    rw [houtcome] at h
    cases h
  | written content output =>
    obtain ⟨new, hnew, -⟩ := editExecution_content houtcome
    rw [hops] at hnew
    rcases applyLineOperations_spec (toModelTextView (stripBom text)).text ops with
      ⟨-, e, he⟩ | ⟨hnot, -⟩
    · rw [he] at hnew
      cases hnew
    · rwa [← fileLines_eq] at hnot

/-! ### The mark of the file -/

/-- **The mark is safe**: there is none, or there is a second one in the first line, and that line
is replaced. -/
def MarkSafe (text : List Char) (ops : List EditLineOperation) : Prop :=
  text.head? = some bom →
    (∃ rest, text = bom :: bom :: rest) ∧ ∃ r ∈ rangesOf ops, r.start ≤ 1 ∧ 1 ≤ r.stop

theorem terminated_bom_cons (style : LineEndingStyle) (line : List Char) :
    terminated style (bom :: line) = bom :: terminated style line := by
  unfold terminated
  cases line with
  | nil => cases style <;> rfl
  | cons c line =>
    rw [getLast?_cons_cons]
    split_ifs <;> rfl

theorem length_renderLines_bom (style : LineEndingStyle) (final : Bool)
    (before : List (List Char)) (line : List Char) (behind : List (List Char)) :
    (renderLines style final (before ++ (bom :: line) :: behind)).length =
      (renderLines style final (before ++ line :: behind)).length + 1 := by
  induction before with
  | nil =>
    cases behind with
    | nil =>
      cases final with
      | true => exact congrArg List.length (terminated_bom_cons style line)
      | false => rfl
    | cons line' behind =>
      rw [nil_append, nil_append, renderLines, renderLines, terminated_bom_cons]
      simp only [length_append, length_cons]
      omega
  | cons first before ih =>
    obtain ⟨line', lines, hlines⟩ : ∃ line' lines, before ++ line :: behind = line' :: lines := by
      cases before with
      | nil | cons => exact ⟨_, _, rfl⟩
    obtain ⟨line'', lines', hlines'⟩ :
        ∃ line' lines, before ++ (bom :: line) :: behind = line' :: lines := by
      cases before with
      | nil | cons => exact ⟨_, _, rfl⟩
    rw [cons_append, cons_append, hlines, hlines', renderLines, renderLines, ← hlines,
      ← hlines', length_append, length_append, ih]
    omega

theorem expectedLines_cons (ops : List EditLineOperation) (line : List Char)
    (lines : List (List Char)) : expectedLines ops (line :: lines) =
      linesBefore ops 1 ++ keptAt (rangesOf ops) 1 line ++ linesAfter ops 1 ++
        (lines.zipIdx 2).flatMap fun p => leftAt ops p.2 p.1 := by
  rw [expectedLines, zipIdx_cons, flatMap_cons, leftAt]

theorem splitLines_cons_of_ne {c : Char} (hc : c ≠ '\n') {first : List Char}
    {others : List (List Char)} (h : splitLines text = first :: others) :
    splitLines (c :: text) = (c :: first) :: others := by
  rw [splitLines, if_neg hc, h]

theorem splitFileLines_bom_cons (hne : text ≠ []) :
    ∃ first others, splitFileLines text = first :: others ∧
      splitFileLines (bom :: text) = (bom :: first) :: others := by
  obtain ⟨first, others, hlines⟩ := exists_cons_of_ne_nil (splitLines_ne_nil (stripTrailingLf text))
  refine ⟨first, others, by rw [splitFileLines_of_ne_nil hne, hlines], ?_⟩
  rw [splitFileLines_of_ne_nil (cons_ne_nil _ _), stripTrailingLf_cons bom hne]
  exact splitLines_cons_of_ne (by decide) hlines

/-- **The text without its mark is edited to the same text only if the mark is safe.** -/
theorem preservedText_stripBom_iff (h : ¬Rejected ops.toList (fileLines (stripBom text)).length) :
    preservedText (stripBom text) ops.toList = preservedText text ops.toList ↔
      MarkSafe text ops.toList := by
  have hapart : (rangesOf ops.toList).Pairwise Apart :=
    not_not.1 fun hnot => h (.inr (.inr (.inl hnot)))
  by_cases hmark : text.head? = some bom
  swap
  · exact iff_of_true (by rw [stripBom_of_head hmark]) fun hmark' => absurd hmark' hmark
  obtain ⟨body, rfl⟩ := head?_eq_some_iff.1 hmark
  have hstrip : ∀ t, stripBom (bom :: t) = t := fun t => by rw [stripBom, if_pos rfl]
  have htext : preservedText (bom :: body) ops.toList =
      bom :: renderLines (detectLineEndingStyle body) (endsWithNewline body)
        (expectedLines ops.toList (splitFileLines (toModelTextView body).text)) := by
    rw [preservedText, fileLines, hstrip, detectLineEndingStyle_cons plain_bom]
    rfl
  rw [hstrip] at h ⊢
  rw [htext, preservedText, endsWithNewline_stripBom]
  by_cases hsecond : body.head? = some bom
  · obtain ⟨rest, rfl⟩ := head?_eq_some_iff.1 hsecond
    have hrest : (toModelTextView rest).text ≠ [] := by
      intro hnil
      rw [fileLines, hstrip, hnil] at h
      exact h (rejected_zero ops)
    obtain ⟨first, others, hfirst, hmarked⟩ := splitFileLines_bom_cons hrest
    have hone : markOf (bom :: rest) = [bom] := if_pos rfl
    rw [hone, fileLines, hstrip, view_bom_cons, hfirst, hmarked, expectedLines_cons,
      expectedLines_cons, singleton_append, cons_inj_right]
    by_cases hcovers : ∃ r ∈ rangesOf ops.toList, r.start ≤ 1 ∧ 1 ≤ r.stop
    · obtain ⟨r, hr, hcovers⟩ := hcovers
      rw [keptAt_of_covers hapart hr hcovers, keptAt_of_covers hapart hr hcovers]
      exact iff_of_true rfl fun _ => ⟨⟨rest, rfl⟩, r, hr, hcovers⟩
    · -- the first line is there as it was, with the second mark in it
      have hnot : ∀ r ∈ rangesOf ops.toList, ¬(r.start ≤ 1 ∧ 1 ≤ r.stop) :=
        fun r hr h => hcovers ⟨r, hr, h⟩
      refine iff_of_false (fun heq => ?_) fun hsafe => hcovers (hsafe rfl).2
      rw [keptAt_of_not_covers hnot, keptAt_of_not_covers hnot] at heq
      have hlength := congrArg List.length heq
      simp only [append_assoc, cons_append] at hlength
      rw [length_renderLines_bom] at hlength
      omega
  · -- the only mark is lost, and the text is one character too short
    have hnone : markOf body = [] := if_neg hsecond
    refine iff_of_false (fun heq => ?_) fun hsafe => ?_
    · rw [hnone, fileLines, stripBom_of_head hsecond, nil_append] at heq
      have hlength := congrArg List.length heq
      rw [length_cons] at hlength
      omega
    · obtain ⟨⟨rest, hrest⟩, -⟩ := hsafe rfl
      rw [(List.cons.inj hrest).2] at hsecond
      exact hsecond rfl

/-! ### The last line break -/

/-- **The last line break is safe**: there is one, or what is left is not several lines of which the
last one is empty. -/
def EndSafe (text : List Char) (ops : List EditLineOperation) : Prop :=
  endsWithNewline text = true ∨
    ¬(EndsBlank ops (fileLines text) ∧ 2 ≤ (expectedLines ops (fileLines text)).length)

theorem renderLines_concat (style : LineEndingStyle) (final : Bool) (front : List (List Char))
    (last : List Char) : renderLines style final (front ++ [last]) =
      front.flatMap (terminated style) ++ if final then terminated style last else last := by
  induction front with
  | nil => rfl
  | cons first front ih =>
    obtain ⟨line, lines, hlines⟩ : ∃ line lines, front ++ [last] = line :: lines := by
      cases front with
      | nil | cons => exact ⟨_, _, rfl⟩
    rw [cons_append, hlines, renderLines, ← hlines, ih, flatMap_cons, append_assoc]

theorem getLast?_terminated (style : LineEndingStyle) (line : List Char) :
    (terminated style line).getLast? = some '\n' := by
  unfold terminated
  split_ifs <;> simp

theorem endsWithNewline_append_of_ne_nil {s t : List Char} (h : t ≠ []) :
    endsWithNewline (s ++ t) = endsWithNewline t := by
  unfold endsWithNewline
  rw [getLast?_append_of_ne_nil _ h]

theorem endsWithNewline_markOf (text : List Char) : endsWithNewline (markOf text) = false := by
  unfold markOf
  split_ifs <;> decide

theorem endsWithNewline_of_notMem (h : '\n' ∉ line) : endsWithNewline line = false := by
  refine beq_false_of_ne fun hlast => h (mem_of_getLast? hlast)

/-- **When the new text ends in a line break.** -/
theorem endsWithNewline_renderLines (text : List Char) (style : LineEndingStyle) (final : Bool)
    {lines : List (List Char)} (hne : lines ≠ []) (h : ∀ line ∈ lines, '\n' ∉ line) :
    endsWithNewline (markOf text ++ renderLines style final lines) = true ↔
      final = true ∨ lines.getLast? = some [] ∧ 2 ≤ lines.length := by
  obtain ⟨front, last, rfl⟩ := (eq_nil_or_concat' lines).resolve_left hne
  rw [renderLines_concat, getLast?_concat, some.injEq, length_append, length_singleton]
  have hterminated : ∀ line, endsWithNewline (terminated style line) = true :=
    fun line => beq_iff_eq.2 (getLast?_terminated style line)
  have hneterminated : ∀ line, terminated style line ≠ [] := by
    intro line hnil
    have hlast := getLast?_terminated style line
    rw [hnil] at hlast
    cases hlast
  cases final with
  | true =>
    refine iff_of_true ?_ (.inl rfl)
    rw [if_pos rfl, ← append_assoc, endsWithNewline_append_of_ne_nil (hneterminated last)]
    exact hterminated last
  | false =>
    have hlast := h last (mem_append_right _ (.head _))
    rw [if_neg Bool.false_ne_true]
    by_cases hempty : last = []
    · subst hempty
      rw [append_nil]
      rcases eq_nil_or_concat' front with rfl | ⟨front, line, rfl⟩
      · refine iff_of_false ?_ (by simp)
        rw [flatMap_nil, append_nil, endsWithNewline_markOf]
        exact Bool.false_ne_true
      · refine iff_of_true ?_ (.inr ⟨rfl, by simp⟩)
        rw [flatMap_append, flatMap_singleton, ← append_assoc,
          endsWithNewline_append_of_ne_nil (hneterminated line)]
        exact hterminated line
    · refine iff_of_false ?_ (by simp [hempty])
      rw [← append_assoc, endsWithNewline_append_of_ne_nil hempty, endsWithNewline_of_notMem hlast]
      exact Bool.false_ne_true

/-- **When an edit preserves the rest of the file**: its mark and its last line break are safe. -/
theorem editFile_preserves_iff {sha256 : List UInt8 → String} {args : EditInput} {text : List Char}
    {after : List UInt8} {ops : LineOps} (hops : args.lineOps = ops.toList)
    (h : editFile sha256 args (encode text) = some after) :
    PreservesFile text ops.toList after ↔ MarkSafe text ops.toList ∧ EndSafe text ops.toList := by
  have hafter := editFile_eq hops h
  have hmark := preservedText_stripBom_iff (not_rejected_of_editFile hops h)
  have hlf : ∀ line ∈ expectedLines ops.toList (fileLines text), '\n' ∉ line := by
    rw [fileLines_eq]
    exact fun line => notMem_lf_of_mem_expectedLines
  have hend : expectedLines ops.toList (fileLines text) ≠ [] →
      (endsWithNewline (preservedText text ops.toList) = true ↔ endsWithNewline text = true ∨
        EndsBlank ops.toList (fileLines text) ∧
          2 ≤ (expectedLines ops.toList (fileLines text)).length) := by
    intro hne
    rw [preservedText, endsWithNewline_renderLines text _ _ hne hlf, endsWithNewline_stripBom,
      endsBlank_iff]
  constructor
  · rintro ⟨htext, hfinal⟩
    refine ⟨hmark.1 (encode_injective (hafter.symm.trans htext)), ?_⟩
    by_cases hne : expectedLines ops.toList (fileLines text) = []
    · exact .inr fun hblank => by simp [hne] at hblank
    · refine (Bool.eq_false_or_eq_true (endsWithNewline text)).imp_right fun hfalse hblank => ?_
      have htrue := (hend hne).2 (.inr hblank)
      rw [hfinal _ htext hne, hfalse] at htrue
      cases htrue
  · rintro ⟨hsafe, hendsafe⟩
    have htext : after = encode (preservedText text ops.toList) := by rw [hafter, hmark.2 hsafe]
    refine ⟨htext, fun new hnew hne => ?_⟩
    rw [← encode_injective (htext.symm.trans hnew), Bool.eq_iff_iff, hend hne]
    exact ⟨fun hor => hor.elim id fun hblank => hendsafe.resolve_right (not_not.2 hblank), .inl⟩

/-! ### A file with a mark -/

/-- An insertion after the first line. -/
def insertOps : LineOps := ⟨[.insertPost 1 ['b']], List.cons_ne_nil _ _, by decide⟩

def insertInput : EditInput := ⟨"a.txt", "0000", insertOps.toList⟩

theorem editFile_preserves_unmarked :
    editFile (fun _ => "0000") insertInput (encode ['a', '\n']) =
        some (encode ['a', '\n', 'b', '\n']) ∧
      PreservesFile ['a', '\n'] insertOps.toList (encode ['a', '\n', 'b', '\n']) := by
  have hwritten : editFile (fun _ => "0000") insertInput (encode ['a', '\n']) =
      some (encode ['a', '\n', 'b', '\n']) := by
    rw [editFile, readText, decodeTextWithErrors, decode_encode]
    rfl
  refine ⟨hwritten, (@editFile_preserves_iff _ _ _ _ insertOps rfl hwritten).2 ⟨?_, .inl rfl⟩⟩
  exact fun hmark => absurd hmark (by decide)

/-- **A file with a mark is written without it.** -/
theorem mark_lost : ¬∀ (sha256 : List UInt8 → String) (args : EditInput) (text : List Char)
    (after : List UInt8) (ops : LineOps), args.lineOps = ops.toList →
      editFile sha256 args (encode text) = some after → PreservesFile text ops.toList after := by
  intro h
  have hwritten : editFile (fun _ => "0000") insertInput (encode [bom, 'a', '\n']) =
      some (encode ['a', '\n', 'b', '\n']) := by
    rw [editFile, readText, decodeTextWithErrors, decode_encode]
    rfl
  have htext := encode_injective (h _ _ _ _ insertOps rfl hwritten).text_eq
  have hmarked : preservedText [bom, 'a', '\n'] insertOps.toList =
      [bom, 'a', '\n', 'b', '\n'] := rfl
  rw [hmarked] at htext
  exact absurd htext (by decide)

end NoriCode
