/-
**Line endings, and the text the model sees.**

A file with uniform CRLF line breaks is shown with LF, any other file as it is.  A line of the shown
text ends at a line feed and nowhere else.

The module embeds `tools/builtin/file/line-endings.ts` and how `edit.ts` and the text streams of the
backends cut a text into lines.

Main definitions:

* `detectLineEndingStyle`, `toModelTextView`, `materializeModelText`;
* `splitLines`, `splitFileLines` — the lines of a text.

Main results:

* `updateLineEndingFlags_eq` — the flags of a text as they are met one character at a time;
* `toModelTextView_eq_normalize` — **without mixed line endings the shown text is the
  normalized one**;
* `splitFileLines_eq_pieces` — the lines are the pieces without their line feeds.
-/

import NoriCode.LibLines

namespace NoriCode

open LibLines List

inductive LineEndingStyle
  | lf
  | crlf
  | mixed
  deriving DecidableEq

/-- The loop that sets the flags; a carriage return looks at the next character. -/
def updateLineEndingFlags : Breaks → List Char → Breaks
  | flags, [] => flags
  | flags, [c] =>
    if c = '\r' then { flags with hasLoneCr := true }
    else if c = '\n' then { flags with hasLf := true }
    else flags
  | flags, c :: d :: text =>
    if c = '\r' then
      if d = '\n' then updateLineEndingFlags { flags with hasCrLf := true } text
      else updateLineEndingFlags { flags with hasLoneCr := true } (d :: text)
    else if c = '\n' then updateLineEndingFlags { flags with hasLf := true } (d :: text)
    else updateLineEndingFlags flags (d :: text)

def lineEndingStyleFromFlags (flags : Breaks) : LineEndingStyle :=
  if flags.hasLoneCr || (flags.hasCrLf && flags.hasLf) then .mixed
  else if flags.hasCrLf then .crlf
  else .lf

def detectLineEndingStyle (text : List Char) : LineEndingStyle :=
  lineEndingStyleFromFlags (updateLineEndingFlags {} text)

/-- `text.replaceAll('\r\n', '\n')`. -/
def replaceCrLf : List Char → List Char
  | [] => []
  | [c] => [c]
  | c :: d :: text =>
    if c = '\r' ∧ d = '\n' then '\n' :: replaceCrLf text else c :: replaceCrLf (d :: text)

/-- `text.replaceAll('\n', '\r\n')`. -/
def replaceLf (text : List Char) : List Char :=
  text.flatMap fun c => if c = '\n' then ['\r', '\n'] else [c]

structure ModelTextView where
  text : List Char
  lineEndingStyle : LineEndingStyle

def toModelTextView (raw : List Char) : ModelTextView :=
  match detectLineEndingStyle raw with
  | .crlf => ⟨replaceCrLf raw, .crlf⟩
  | style => ⟨raw, style⟩

def materializeModelText (text : List Char) (style : LineEndingStyle) : List Char :=
  if style = .crlf then replaceLf (replaceCrLf text) else text

/-- `content.split('\n')`. -/
def splitLines : List Char → List (List Char)
  | [] => [[]]
  | c :: text =>
    if c = '\n' then [] :: splitLines text
    else
      match splitLines text with
      | [] => [[c]]
      | line :: rest => (c :: line) :: rest

def endsWithNewline (text : List Char) : Bool := text.getLast? == some '\n'

/-- The lines of a file in `edit.ts`. -/
def splitFileLines (content : List Char) : List (List Char) :=
  if content = [] then []
  else if endsWithNewline content then (splitLines content).dropLast
  else splitLines content

/-- A line without its line feed. -/
def stripTrailingLf (line : List Char) : List Char :=
  if line.getLast? = some '\n' then line.dropLast else line

/-! ### The flags -/

theorem updateLineEndingFlags_eq (flags : Breaks) (text : List Char) :
    updateLineEndingFlags flags text = breaksFrom '\r' '\n' flags false text := by
  have hne : '\n' ≠ '\r' := by decide
  induction flags, text using updateLineEndingFlags.induct with
  | case1 flags => rfl
  | case2 flags => rfl
  | case3 flags => rfl
  | case4 flags c hcr hlf =>
    rw [updateLineEndingFlags, breaksFrom, if_neg hcr, if_neg hlf, if_neg hcr, if_neg hlf]
    rfl
  | case5 flags text ih =>
    rw [updateLineEndingFlags, if_pos rfl, if_pos rfl, ih, breaksFrom, if_pos rfl, breaksFrom,
      if_neg hne, if_pos rfl]
  | case6 flags d text hd ih =>
    rw [updateLineEndingFlags, if_pos rfl, if_neg hd, ih, breaksFrom.eq_def _ _ _ _ ('\r' :: _)]
    by_cases hcr : d = '\r'
    · simp [breaksFrom, if_pos hcr]
    · simp [breaksFrom, if_neg hcr, if_neg hd]
  | case7 flags d text hcr ih =>
    rw [updateLineEndingFlags, if_neg hne, if_pos rfl, ih, breaksFrom.eq_def _ _ _ _ ('\n' :: _)]
    simp
  | case8 flags c d text hcr hlf ih =>
    rw [updateLineEndingFlags, if_neg hcr, if_neg hlf, ih, breaksFrom.eq_def _ _ _ _ (c :: _)]
    simp [if_neg hcr, if_neg hlf]

theorem detectLineEndingStyle_eq (text : List Char) :
    detectLineEndingStyle text = lineEndingStyleFromFlags (breaksFrom '\r' '\n' {} false text) := by
  rw [detectLineEndingStyle, updateLineEndingFlags_eq]

/-! ### The styles -/

variable {text : List Char}

theorem uniform_of_crlf (h : detectLineEndingStyle text = .crlf) : Uniform '\r' '\n' text := by
  rw [detectLineEndingStyle_eq, lineEndingStyleFromFlags] at h
  split at h
  · exact absurd h (by decide)
  · rename_i hmixed
    split at h
    · rename_i hcrlf
      rw [hcrlf, Bool.true_and, Bool.or_eq_true, not_or, Bool.not_eq_true, Bool.not_eq_true]
        at hmixed
      exact uniform_of_breaksFrom hmixed.1 hmixed.2
    · exact absurd h (by decide)

theorem notMem_of_lf (h : detectLineEndingStyle text = .lf) : '\r' ∉ text := by
  rw [detectLineEndingStyle_eq, lineEndingStyleFromFlags] at h
  split at h
  · exact absurd h (by decide)
  · rename_i hmixed
    split at h
    · exact absurd h (by decide)
    · rename_i hcrlf
      rw [Bool.or_eq_true, not_or, Bool.not_eq_true] at hmixed
      exact notMem_of_breaksFrom hmixed.1 (Bool.eq_false_iff.2 hcrlf)

theorem mem_of_mixed (h : detectLineEndingStyle text = .mixed) : '\r' ∈ text := by
  by_contra hno
  obtain ⟨hlone, hcrlf⟩ := @breaksFrom_of_notMem _ _ _ '\n' _ hno {}
  rw [detectLineEndingStyle_eq, lineEndingStyleFromFlags, hlone, hcrlf] at h
  exact LineEndingStyle.noConfusion h

variable {c : Char}

theorem detectLineEndingStyle_cons (hc : Plain '\r' '\n' c) (text : List Char) :
    detectLineEndingStyle (c :: text) = detectLineEndingStyle text := by
  rw [detectLineEndingStyle_eq, detectLineEndingStyle_eq, breaksFrom, if_neg hc.1, if_neg hc.2]

/-! ### The shown text -/

theorem replaceCrLf_cons (hc : c ≠ '\r') (text : List Char) :
    replaceCrLf (c :: text) = c :: replaceCrLf text := by
  cases text with
  | nil => rfl
  | cons d text => rw [replaceCrLf, if_neg fun h => hc h.1]

theorem replaceCrLf_of_uniform (h : Uniform '\r' '\n' text) :
    replaceCrLf text = normalizeFrom '\r' '\n' false text := by
  induction h with
  | nil => rfl
  | plain hc _ ih => rw [replaceCrLf_cons hc.1, normalizeFrom, if_neg hc.1, ih]
  | crlf _ ih => rw [replaceCrLf, if_pos ⟨rfl, rfl⟩, normalizeFrom, if_pos rfl, normalizeFrom,
      if_pos rfl, ih]

/-- **Without mixed line endings the shown text is the normalized one.** -/
theorem toModelTextView_eq_normalize {raw : List Char} (h : detectLineEndingStyle raw ≠ .mixed) :
    (toModelTextView raw).text = normalizeFrom '\r' '\n' false raw := by
  cases hstyle : detectLineEndingStyle raw with
  | lf => rw [toModelTextView, hstyle, normalizeFrom_of_notMem (notMem_of_lf hstyle)]
  | crlf => rw [toModelTextView, hstyle, ← replaceCrLf_of_uniform (uniform_of_crlf hstyle)]
  | mixed => exact absurd hstyle h

theorem toModelTextView_of_mixed {raw : List Char} (h : detectLineEndingStyle raw = .mixed) :
    (toModelTextView raw).text = raw := by
  rw [toModelTextView, h]

theorem toModelTextView_cons (hc : Plain '\r' '\n' c) (raw : List Char) :
    (toModelTextView (c :: raw)).text = c :: (toModelTextView raw).text := by
  rw [toModelTextView, toModelTextView, detectLineEndingStyle_cons hc]
  cases detectLineEndingStyle raw with
  | crlf => exact replaceCrLf_cons hc.1 raw
  | lf => rfl
  | mixed => rfl

theorem replaceLf_append (s t : List Char) : replaceLf (s ++ t) = replaceLf s ++ replaceLf t :=
  flatMap_append

theorem replaceLf_of_notMem (h : '\n' ∉ text) : replaceLf text = text := by
  induction text with
  | nil => rfl
  | cons c text ih =>
    obtain ⟨hc, htext⟩ := not_or.1 (mt mem_cons.2 h)
    have hcons : replaceLf (c :: text) =
        (if c = '\n' then ['\r', '\n'] else [c]) ++ replaceLf text := flatMap_cons
    rw [hcons, if_neg (Ne.symm hc), ih htext]
    rfl

theorem plain_bom : Plain '\r' '\n' LibUtf8.bom := ⟨by decide, by decide⟩

/-! ### Lines -/

theorem splitLines_ne_nil (text : List Char) : splitLines text ≠ [] := by
  cases text with
  | nil => exact cons_ne_nil _ _
  | cons c text =>
    rw [splitLines]
    split
    · exact cons_ne_nil _ _
    · split <;> exact cons_ne_nil _ _

theorem intercalate_splitLines (text : List Char) :
    intercalate ['\n'] (splitLines text) = text := by
  induction text with
  | nil => rfl
  | cons c text ih =>
    obtain ⟨line, rest, hlines⟩ := exists_cons_of_ne_nil (splitLines_ne_nil text)
    rw [splitLines, hlines]
    rw [hlines] at ih
    split
    · rename_i hc
      rw [hc, ← ih]
      cases rest <;> rfl
    · rw [← ih]
      cases rest <;> rfl

theorem splitLines_injective : Function.Injective splitLines := by
  intro s t h
  rw [← intercalate_splitLines s, h, intercalate_splitLines]

theorem stripTrailingLf_singleton (hc : c ≠ '\n') : stripTrailingLf [c] = [c] :=
  if_neg fun h => hc (Option.some.inj h)

theorem stripTrailingLf_cons (c : Char) {line : List Char} (hne : line ≠ []) :
    stripTrailingLf (c :: line) = c :: stripTrailingLf line := by
  obtain ⟨d, line, rfl⟩ := exists_cons_of_ne_nil hne
  rw [stripTrailingLf, stripTrailingLf, getLast?_cons_cons]
  split <;> rfl

theorem splitLines_append_lf (text : List Char) :
    splitLines (text ++ ['\n']) = splitLines text ++ [[]] := by
  induction text with
  | nil => rfl
  | cons c text ih =>
    rw [cons_append, splitLines, splitLines, ih]
    split
    · rfl
    · obtain ⟨line, rest, hlines⟩ := exists_cons_of_ne_nil (splitLines_ne_nil text)
      rw [hlines]
      rfl

theorem eq_append_lf (h : text.getLast? = some '\n') :
    text = text.dropLast ++ ['\n'] := (dropLast_append_getLast? '\n' h).symm

/-- The lines of a file that is not empty are those of the text before a final line feed. -/
theorem splitFileLines_of_ne_nil (hne : text ≠ []) :
    splitFileLines text = splitLines (stripTrailingLf text) := by
  rw [splitFileLines, if_neg hne, stripTrailingLf]
  by_cases hend : text.getLast? = some '\n'
  · have hlines := splitLines_append_lf text.dropLast
    rw [← eq_append_lf hend] at hlines
    rw [if_pos (show endsWithNewline text = true from beq_iff_eq.2 hend), if_pos hend, hlines,
      dropLast_concat]
  · rw [if_neg (show ¬ endsWithNewline text = true from fun h => hend (beq_iff_eq.1 h)),
      if_neg hend]

/-- **The lines of a file are the pieces of its text without their line feeds.** -/
theorem splitFileLines_eq_pieces (text : List Char) :
    splitFileLines text = (pieces '\n' text).map stripTrailingLf := by
  induction text with
  | nil => rfl
  | cons c text ih =>
    rw [splitFileLines_of_ne_nil (cons_ne_nil c text), pieces]
    rcases text with _ | ⟨d, text⟩
    · by_cases hc : c = '\n'
      · subst hc
        rfl
      · rw [stripTrailingLf_singleton hc, if_neg hc, splitLines, if_neg hc]
        change [[c]] = [stripTrailingLf [c]]
        rw [stripTrailingLf_singleton hc]
    · have hne := cons_ne_nil d text
      rw [splitFileLines_of_ne_nil hne] at ih
      rw [stripTrailingLf_cons c hne, splitLines, ih]
      split
      · rename_i hc
        rw [hc]
        rfl
      · have hnil : pieces '\n' (d :: text) ≠ [] := fun h => hne (pieces_eq_nil.1 h)
        obtain ⟨piece, rest, hpieces⟩ := exists_cons_of_ne_nil hnil
        have hpiece : piece ≠ [] := ne_nil_of_mem_pieces (hpieces ▸ mem_cons_self)
        rw [hpieces]
        change (c :: stripTrailingLf piece) :: _ = stripTrailingLf (c :: piece) :: _
        rw [stripTrailingLf_cons c hpiece]

/-- Two files have the same lines when they are the same up to a final line feed. -/
theorem splitFileLines_eq_iff {s t : List Char} (hs : s ≠ []) (ht : t ≠ []) :
    splitFileLines s = splitFileLines t ↔ stripTrailingLf s = stripTrailingLf t := by
  rw [splitFileLines_of_ne_nil hs, splitFileLines_of_ne_nil ht]
  exact splitLines_injective.eq_iff

theorem splitFileLines_eq_nil : splitFileLines text = [] ↔ text = [] := by
  constructor
  · intro h
    by_contra hne
    rw [splitFileLines_of_ne_nil hne] at h
    exact splitLines_ne_nil _ h
  · rintro rfl
    rfl

end NoriCode
