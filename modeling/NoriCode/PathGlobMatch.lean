/-
**Patterns of permission rules.**

A rule names a tool and a pattern for the subject of its calls: a command, a search pattern, a path.
Text is matched by picomatch, once as it is and once without a leading `./` on either side.  A path
is matched in all its spellings, without regard to letter case.  A rule that is meant for one
subject only has the characters escaped that are special in a pattern.

The module embeds `tools/support/path-glob-match.ts`, `canonicalizePath` of
`tools/policies/path-access.ts`, and `tools/support/rule-match.ts`.  Picomatch and pathe are
parameters.  Whatever is thrown is no match, so errors have no text here.  The options that all
tools pass are always there.

Main definitions:

* `Picomatch`, `LiteralPicomatch` — the matcher, and what is assumed of it;
* `globMatch`, `pathGlobMatch` — how text and paths are matched;
* `literalRulePattern` — the rule for one subject.

Main results:

* `globMatch_literal` — **the text that an escaped literal matches**;
* `pathGlobMatch_plain` — **the paths that a path without special characters matches**.
-/

import Mathlib.Data.List.Basic

namespace NoriCode

open List

/-! ### Literals -/

/-- `GLOB_LITERAL_SPECIAL`. -/
def globLiteralSpecial : List Char :=
  ['\\', '*', '?', '[', ']', '{', '}', '(', ')', '!', '+', '@', '|']

def escapeRuleSubjectLiteral (subject : List Char) : List Char :=
  subject.flatMap fun c => if c ∈ globLiteralSpecial then ['\\', c] else [c]

def literalRulePattern (toolName subject : List Char) : List Char :=
  toolName ++ '(' :: (escapeRuleSubjectLiteral subject ++ [')'])

/-! ### Globs -/

/-- `picomatch.isMatch value pattern { nocase }`, which may throw, and what it takes for the same
letters without regard to case. -/
structure Picomatch where
  isMatch : List Char → List Char → Bool → Option Bool
  fold : List Char → List Char

/-- An escaped literal matches itself only, and there is no empty pattern. -/
structure LiteralPicomatch (p : Picomatch) : Prop where
  literal : ∀ (value subject : List Char), subject ≠ [] →
    p.isMatch value (escapeRuleSubjectLiteral subject) false = some (decide (value = subject))
  literal_nocase : ∀ (value subject : List Char), subject ≠ [] →
    p.isMatch value (escapeRuleSubjectLiteral subject) true =
      some (decide (p.fold value = p.fold subject))
  no_empty : ∀ (value : List Char) (nocase : Bool), p.isMatch value [] nocase = none

def stripLeadingDotSlash (value : List Char) : List Char :=
  match value with
  | '.' :: '/' :: rest => rest
  | _ => value

def globMatch (p : Picomatch) (value pattern : List Char) (nocase : Bool) : Option Bool :=
  (p.isMatch value pattern nocase).bind fun hit =>
    if hit then some true
    else
      let normalizedValue := stripLeadingDotSlash value
      let normalizedPattern := stripLeadingDotSlash pattern
      if normalizedValue = value ∧ normalizedPattern = pattern then some false
      else p.isMatch normalizedValue normalizedPattern nocase

/-! ### Spellings of a path -/

inductive PathClass
  | posix
  | win32
  deriving DecidableEq

/-- The functions of pathe. -/
structure Pathe where
  isAbsolute : List Char → Bool
  normalize : List Char → List Char
  resolve : List Char → List Char → List Char
  join : List Char → List Char → List Char

/-- `PermissionPathMatchOptions`, as the tools pass them. -/
structure PathMatchOptions where
  cwd : List Char
  pathClass : PathClass
  homeDir : List Char

def isWin32DriveRelative (path : List Char) : Bool :=
  match path with
  | [letter, ':'] => letter.isAlpha
  | letter :: ':' :: c :: _ => letter.isAlpha && c != '\\' && c != '/'
  | _ => false

/-- The drive and the rest behind it, if a path is one of the form `/c` or `/c/…`. -/
def driveOf (path : List Char) : Option (Char × List Char) :=
  match path with
  | ['/', letter] => if letter.isAlpha then some (letter, []) else none
  | '/' :: letter :: '/' :: rest => if letter.isAlpha then some (letter, '/' :: rest) else none
  | _ => none

def drivePath (letter : Char) (rest : List Char) : List Char :=
  letter.toUpper :: ':' :: if rest = [] then ['/'] else rest

def normalizeUserPath (path : List Char) (pathClass : PathClass) : List Char :=
  if pathClass ≠ .win32 then path
  else if path = ['/'] then ['/']
  else if ['/', '/'].isPrefixOf path then path
  else
    let cygdrive := "/cygdrive".toList
    match (if cygdrive.isPrefixOf path then driveOf (path.drop cygdrive.length) else none) with
    | some (letter, rest) => drivePath letter rest
    | none =>
      match driveOf path with
      | some (letter, rest) => drivePath letter rest
      | none => path

def canonicalizePath (pathe : Pathe) (path cwd : List Char) (pathClass : PathClass) :
    Option (List Char) :=
  if path = [] then none
  else
    let normalizedPath := normalizeUserPath path pathClass
    if pathClass = .win32 ∧ isWin32DriveRelative normalizedPath = true then none
    else if pathe.isAbsolute normalizedPath = false ∧ pathe.isAbsolute cwd = false then none
    else
      let abs :=
        if pathe.isAbsolute normalizedPath then normalizedPath
        else pathe.resolve cwd normalizedPath
      some (pathe.normalize abs)

def expandUserPath (pathe : Pathe) (value : List Char) (options : PathMatchOptions) : List Char :=
  match value with
  | ['~'] => options.homeDir
  | '~' :: '/' :: rest => pathe.join options.homeDir rest
  | '~' :: '\\' :: rest =>
    if options.pathClass = .win32 then pathe.join options.homeDir rest else value
  | _ => value

def stripLeadingDotPath (value : List Char) (pathClass : PathClass) : List Char :=
  match value with
  | '.' :: '/' :: rest => rest
  | '.' :: '\\' :: rest => if pathClass = .win32 then rest else value
  | _ => value

/-- `variants.add(value)`. -/
def addVariant (variants : List (List Char)) (value : List Char) : List (List Char) :=
  if value ∈ variants then variants else variants ++ [value]

def addPathVariant (variants : List (List Char)) (value : List Char) (pathClass : PathClass) :
    List (List Char) :=
  if pathClass = .win32 then
    addVariant (addVariant variants value) (value.map fun c => if c = '\\' then '/' else c)
  else addVariant variants value

def pathVariants (pathe : Pathe) (value : List Char) (options : PathMatchOptions) :
    List (List Char) :=
  let variants := addPathVariant (addPathVariant [] value options.pathClass)
    (stripLeadingDotPath value options.pathClass) options.pathClass
  match canonicalizePath pathe (expandUserPath pathe value options) options.cwd
      options.pathClass with
  | some canonical => addPathVariant variants canonical options.pathClass
  | none => variants

/-- The loops over the spellings: the first match ends them, and so does what is thrown. -/
def anyMatch : List (Option Bool) → Option Bool
  | [] => some false
  | none :: _ => none
  | some true :: _ => some true
  | some false :: rest => anyMatch rest

def pathGlobMatch (p : Picomatch) (pathe : Pathe) (value pattern : List Char)
    (options : PathMatchOptions) : Option Bool :=
  anyMatch (globMatch p value pattern true ::
    (pathVariants pathe value options).flatMap fun valueVariant =>
      (pathVariants pathe pattern options).map fun patternVariant =>
        globMatch p valueVariant patternVariant true)

/-! ### Subjects of rules -/

/-- `matchRuleSubjects` with one subject. -/
def matchRuleSubject (ruleArgs subject : List Char)
    (matchesPositivePattern : List Char → List Char → Option Bool) : Option Bool :=
  match ruleArgs with
  | [] => some true
  | '!' :: positivePattern => (matchesPositivePattern positivePattern subject).map (!·)
  | _ => matchesPositivePattern ruleArgs subject

def matchesGlobRuleSubject (p : Picomatch) (ruleArgs subject : List Char) : Option Bool :=
  matchRuleSubject ruleArgs subject fun pattern value => globMatch p value pattern false

def matchesPathRuleSubject (p : Picomatch) (pathe : Pathe) (ruleArgs subject : List Char)
    (options : PathMatchOptions) : Option Bool :=
  matchRuleSubject ruleArgs subject fun pattern value => pathGlobMatch p pathe value pattern options

/-! ### What a literal matches -/

variable {subject : List Char}

theorem escape_eq_nil : escapeRuleSubjectLiteral subject = [] ↔ subject = [] := by
  cases subject with
  | nil => exact iff_of_true rfl rfl
  | cons c rest =>
    refine iff_of_false (fun h => ?_) (by simp)
    unfold escapeRuleSubjectLiteral at h
    rw [flatMap_cons, append_eq_nil_iff] at h
    have hhead := h.1
    split at hhead <;> cases hhead

theorem escape_of_plain (h : ∀ c ∈ subject, c ∉ globLiteralSpecial) :
    escapeRuleSubjectLiteral subject = subject := by
  induction subject with
  | nil => rfl
  | cons c rest ih =>
    obtain ⟨hc, hrest⟩ := forall_mem_cons.1 h
    unfold escapeRuleSubjectLiteral at ih ⊢
    rw [flatMap_cons, if_neg hc, ih hrest]
    rfl

theorem head_escape (subject : List Char) : (escapeRuleSubjectLiteral subject).head? ≠ some '!' := by
  cases subject with
  | nil => simp [escapeRuleSubjectLiteral]
  | cons c rest =>
    unfold escapeRuleSubjectLiteral
    rw [flatMap_cons]
    split
    · simp
    · rename_i hc
      intro h
      obtain rfl : c = '!' := by simpa using h
      exact hc (by decide)

theorem escape_cons (c : Char) (rest : List Char) :
    escapeRuleSubjectLiteral (c :: rest) =
      (if c ∈ globLiteralSpecial then ['\\', c] else [c]) ++ escapeRuleSubjectLiteral rest :=
  flatMap_cons

variable {value : List Char}

theorem stripLeadingDotSlash_of_ne (h : ∀ rest, value ≠ '.' :: '/' :: rest) :
    stripLeadingDotSlash value = value := by
  unfold stripLeadingDotSlash
  split
  · rename_i rest
    exact absurd rfl (h rest)
  · rfl

/-- Escaping leaves a leading `./` alone, and makes none. -/
theorem stripLeadingDotSlash_escape (subject : List Char) :
    stripLeadingDotSlash (escapeRuleSubjectLiteral subject) =
      escapeRuleSubjectLiteral (stripLeadingDotSlash subject) := by
  by_cases hdot : ∃ rest, subject = '.' :: '/' :: rest
  · obtain ⟨rest, rfl⟩ := hdot
    rw [escape_cons, escape_cons, if_neg (by decide), if_neg (by decide)]
    rfl
  · rw [stripLeadingDotSlash_of_ne fun rest heq => hdot ⟨rest, heq⟩]
    refine stripLeadingDotSlash_of_ne fun rest heq => hdot ?_
    cases subject with
    | nil => cases heq
    | cons c subject =>
      rw [escape_cons] at heq
      by_cases hc : c ∈ globLiteralSpecial
      · rw [if_pos hc] at heq
        cases heq
      · rw [if_neg hc] at heq
        obtain ⟨hhead, htail⟩ := cons.inj heq
        cases subject with
        | nil => cases htail
        | cons d subject =>
          rw [escape_cons] at htail
          by_cases hd : d ∈ globLiteralSpecial
          · rw [if_pos hd] at htail
            cases htail
          · rw [if_neg hd] at htail
            rw [hhead, (cons.inj htail).1]
            exact ⟨subject, rfl⟩

theorem stripLeadingDotSlash_eq_nil :
    stripLeadingDotSlash value = [] ↔ value = [] ∨ value = ['.', '/'] := by
  by_cases hdot : ∃ rest, value = '.' :: '/' :: rest
  · obtain ⟨rest, rfl⟩ := hdot
    change rest = [] ↔ _
    simp
  · rw [stripLeadingDotSlash_of_ne fun rest heq => hdot ⟨rest, heq⟩]
    refine ⟨Or.inl, fun h => ?_⟩
    rcases h with h | h
    · exact h
    · exact absurd ⟨[], h⟩ hdot

variable {p : Picomatch}

variable {pattern : List Char}

/-- What `globMatch` answers where picomatch does not throw. -/
theorem globMatch_eq {nocase first second : Bool}
    (hfirst : p.isMatch value pattern nocase = some first)
    (hsecond : p.isMatch (stripLeadingDotSlash value) (stripLeadingDotSlash pattern) nocase =
      some second) : globMatch p value pattern nocase = some (first || second) := by
  unfold globMatch
  rw [hfirst, Option.bind_some]
  cases first with
  | true => rfl
  | false =>
    dsimp only
    rw [if_neg Bool.false_ne_true]
    split
    · rename_i hsame
      rw [hsame.1, hsame.2, hfirst] at hsecond
      rw [← Option.some.inj hsecond]
      rfl
    · rw [hsecond, Bool.false_or]

/-- **The text that an escaped literal matches**: itself, and what differs from it by a leading `./`
on either side. -/
theorem globMatch_literal (h : LiteralPicomatch p) (hsubject : subject ≠ []) (value : List Char) :
    globMatch p value (escapeRuleSubjectLiteral subject) false = some true ↔
      value = subject ∨
        (stripLeadingDotSlash value = stripLeadingDotSlash subject ∧ subject ≠ ['.', '/']) := by
  have hfirst := h.literal value subject hsubject
  by_cases hdot : subject = ['.', '/']
  · -- nothing is left of this subject, and picomatch takes no empty pattern
    subst hdot
    unfold globMatch
    rw [hfirst, Option.bind_some]
    have hempty : stripLeadingDotSlash (escapeRuleSubjectLiteral ['.', '/']) = [] := by decide
    by_cases heq : value = ['.', '/']
    · rw [decide_eq_true heq, if_pos rfl]
      exact iff_of_true rfl (Or.inl heq)
    · have hne : ([] : List Char) ≠ escapeRuleSubjectLiteral ['.', '/'] := by decide
      rw [decide_eq_false heq, if_neg Bool.false_ne_true]
      rw [hempty, if_neg fun hsame => hne hsame.2, h.no_empty]
      exact iff_of_false (by simp) fun hor => hor.elim heq fun hand => hand.2 rfl
  · have hstrip : stripLeadingDotSlash subject ≠ [] := by
      rw [ne_eq, stripLeadingDotSlash_eq_nil, not_or]
      exact ⟨hsubject, hdot⟩
    have hsecond := h.literal (stripLeadingDotSlash value) _ hstrip
    rw [← stripLeadingDotSlash_escape] at hsecond
    rw [globMatch_eq hfirst hsecond, Option.some.injEq, Bool.or_eq_true, decide_eq_true_eq,
      decide_eq_true_eq]
    exact or_congr_right (and_iff_left hdot).symm

/-! ### What a path matches -/

/-- A spelling without special characters, of which something is left without a leading `./`. -/
def PlainSpelling (spelling : List Char) : Prop :=
  (∀ c ∈ spelling, c ∉ globLiteralSpecial) ∧ stripLeadingDotSlash spelling ≠ []

/-- Two spellings are the same up to letter case and a leading `./`. -/
def SameSpelling (p : Picomatch) (a b : List Char) : Prop :=
  p.fold a = p.fold b ∨ p.fold (stripLeadingDotSlash a) = p.fold (stripLeadingDotSlash b)

instance (p : Picomatch) (a b : List Char) : Decidable (SameSpelling p a b) :=
  inferInstanceAs (Decidable (_ ∨ _))

theorem mem_stripLeadingDotSlash {c : Char} (h : c ∈ stripLeadingDotSlash value) : c ∈ value := by
  unfold stripLeadingDotSlash at h
  split at h
  · exact .tail _ (.tail _ h)
  · exact h

theorem globMatch_plain (h : LiteralPicomatch p)
    (hplain : PlainSpelling pattern) (value : List Char) :
    globMatch p value pattern true = some (decide (SameSpelling p value pattern)) := by
  obtain ⟨hchars, hstrip⟩ := hplain
  have hpattern : pattern ≠ [] := by
    rintro rfl
    exact hstrip rfl
  have hfirst := h.literal_nocase value pattern hpattern
  have hsecond := h.literal_nocase (stripLeadingDotSlash value) _ hstrip
  rw [escape_of_plain hchars] at hfirst
  rw [escape_of_plain fun c hc => hchars c (mem_stripLeadingDotSlash hc)] at hsecond
  rw [globMatch_eq hfirst hsecond]
  exact congrArg some (Bool.decide_or _ _).symm

theorem anyMatch_eq_true {answers : List Bool} :
    anyMatch (answers.map some) = some true ↔ true ∈ answers := by
  induction answers with
  | nil => exact iff_of_false (by simp [anyMatch]) not_mem_nil
  | cons answer rest ih =>
    rw [map_cons]
    cases answer with
    | true => exact iff_of_true rfl (.head _)
    | false =>
      rw [mem_cons, ← ih]
      exact ⟨Or.inr, fun hor => hor.resolve_left Bool.noConfusion⟩

theorem self_mem_pathVariants (pathe : Pathe) (value : List Char) (options : PathMatchOptions) :
    value ∈ pathVariants pathe value options := by
  have hone : ∀ (variants : List (List Char)) (new : List Char), value ∈ variants →
      value ∈ addVariant variants new := by
    intro variants new hmem
    unfold addVariant
    split
    · exact hmem
    · exact mem_append_left _ hmem
  have hadd : ∀ (variants : List (List Char)) (new : List Char), value ∈ variants →
      value ∈ addPathVariant variants new options.pathClass := by
    intro variants new hmem
    unfold addPathVariant
    split
    · exact hone _ _ (hone _ _ hmem)
    · exact hone _ _ hmem
  have hfirst : value ∈ addPathVariant [] value options.pathClass := by
    have hnew : value ∈ addVariant [] value := mem_singleton.2 rfl
    unfold addPathVariant
    split
    · exact hone _ _ hnew
    · exact hnew
  unfold pathVariants
  split
  · exact hadd _ _ (hadd _ _ hfirst)
  · exact hadd _ _ hfirst

/-- **The paths that a path without special characters matches**: those with a spelling that one of
its own spellings is the same as. -/
theorem pathGlobMatch_plain (h : LiteralPicomatch p) (pathe : Pathe) {options : PathMatchOptions}
    (hplain : ∀ spelling ∈ pathVariants pathe pattern options, PlainSpelling spelling)
    (value : List Char) :
    pathGlobMatch p pathe value pattern options = some true ↔
      ∃ a ∈ pathVariants pathe value options, ∃ b ∈ pathVariants pathe pattern options,
        SameSpelling p a b := by
  have hself := self_mem_pathVariants pathe value options
  have hself' := self_mem_pathVariants pathe pattern options
  have hanswers : (pathVariants pathe value options).flatMap (fun valueVariant =>
        (pathVariants pathe pattern options).map fun patternVariant =>
          globMatch p valueVariant patternVariant true) =
      ((pathVariants pathe value options).flatMap fun valueVariant =>
        (pathVariants pathe pattern options).map fun patternVariant =>
          decide (SameSpelling p valueVariant patternVariant)).map some := by
    rw [map_flatMap]
    refine congrArg flatten (map_congr_left fun a _ => ?_)
    rw [map_map]
    exact map_congr_left fun b hb => globMatch_plain h (hplain b hb) a
  unfold pathGlobMatch
  rw [hanswers, globMatch_plain h (hplain pattern hself') value, ← map_cons, anyMatch_eq_true]
  simp only [mem_cons, mem_flatMap, mem_map, eq_comm]
  constructor
  · rintro (hsame | ⟨a, ha, b, hb, hsame⟩)
    · exact ⟨value, hself, pattern, hself', of_decide_eq_true hsame.symm⟩
    · exact ⟨a, ha, b, hb, of_decide_eq_true hsame.symm⟩
  · rintro ⟨a, ha, b, hb, hsame⟩
    exact Or.inr ⟨a, ha, b, hb, (decide_eq_true hsame).symm⟩

end NoriCode
