/-
**The grammar of cron expressions.**

An expression is five fields between white space.  A field is a list of terms between commas; a
term is a star, a value or a range of values, with or without a step, and stands for a set of
numbers.  The parser reads exactly the expressions of this grammar whose numbers are within the
bounds of their fields, and what it reads for a field is the set that the field stands for; in the
days of the week, Sunday is 0 and 7.

Main definitions:

* `CronTerm`, `CronTerm.Text`, `CronTerm.Valid` — the terms, their texts,
  and those within the bounds of a field;
* `CronTerm.denote`, `fieldSet` — what a term and a field stand for;
* `CronFields.Text`, `CronFields.Denotes` — the expressions, and what is read.

Main results:

* `parseField_eq_ok` — one field;
* `parseCronExpression_grammar` — **the parser reads this grammar and nothing else**.
-/

import NoriCode.CronExpr

namespace NoriCode

open LibOrdSet OrdSet

/-! ### Terms -/

/-- A text of digits, and its value. -/
def Numeral (text : List Char) (n : ℕ) : Prop :=
  text ≠ [] ∧ (∀ c ∈ text, c.isDigit = true) ∧ digitsValue text = n

/-- What a term counts through. -/
inductive CronBase where
  | star
  | value (n : ℕ)
  | range (lo hi : ℕ)
  deriving DecidableEq

/-- A term of a field. -/
structure CronTerm where
  base : CronBase
  step : Option ℕ := none
  deriving DecidableEq

namespace CronBase

/-- The texts of a base. -/
inductive Text : CronBase → List Char → Prop
  | star : Text .star ['*']
  | value {text : List Char} {n : ℕ} : Numeral text n → Text (.value n) text
  | range {loText hiText : List Char} {lo hi : ℕ} : Numeral loText lo → Numeral hiText hi →
      Text (.range lo hi) (loText ++ '-' :: hiText)

/-- The numbers are within the bounds of the field, and a range ascends. -/
def Within (field : CronField) : CronBase → Prop
  | .star => True
  | .value n => field.min ≤ n ∧ n ≤ field.max
  | .range lo hi => field.min ≤ lo ∧ lo ≤ hi ∧ hi ≤ field.max

end CronBase

namespace CronTerm

/-- The texts of a term. -/
inductive Text : CronTerm → List Char → Prop
  | plain {base : CronBase} {text : List Char} : base.Text text → Text ⟨base, none⟩ text
  | stepped {base : CronBase} {text stepText : List Char} {step : ℕ} : base.Text text →
      Numeral stepText step → Text ⟨base, some step⟩ (text ++ '/' :: stepText)

/-- The numbers are within bounds, and a step is positive. -/
def Valid (field : CronField) (t : CronTerm) : Prop :=
  t.base.Within field ∧ ∀ step ∈ t.step, 0 < step

/-- **What a term stands for**: a single value, or every number of a range that a number of steps
leads to.  The range of a value with a step reaches to the end of the field. -/
def denote (field : CronField) : CronTerm → Set ℕ
  | ⟨.star, step⟩ => {v | ∃ i, v = field.min + i * step.getD 1 ∧ v ≤ field.max}
  | ⟨.value n, none⟩ => {n}
  | ⟨.value n, some step⟩ => {v | ∃ i, v = n + i * step ∧ v ≤ field.max}
  | ⟨.range lo hi, step⟩ => {v | ∃ i, v = lo + i * step.getD 1 ∧ v ≤ hi}

end CronTerm

/-! ### Fields and expressions -/

/-- The texts of a field: those of its terms, between commas. -/
def FieldText (terms : List CronTerm) (text : List Char) : Prop :=
  terms ≠ [] ∧ ∃ texts, List.Forall₂ CronTerm.Text terms texts ∧ text = [','].intercalate texts

/-- **What a field stands for.** -/
def fieldSet (field : CronField) (terms : List CronTerm) : Set ℕ :=
  {v | ∃ t ∈ terms, v ∈ t.denote field}

/-- The words of a text, between white space. -/
inductive Words : List Char → List (List Char) → Prop
  | nil {space : List Char} : (∀ c ∈ space, isWhiteSpace c = true) → Words space []
  | cons {space word rest : List Char} {words : List (List Char)} :
      (∀ c ∈ space, isWhiteSpace c = true) → word ≠ [] → (∀ c ∈ word, isWhiteSpace c = false) →
      (∀ c ∈ rest.head?, isWhiteSpace c = true) → Words rest words →
      Words (space ++ (word ++ rest)) (word :: words)

/-- The fields of an expression. -/
structure CronFields where
  minutes : List CronTerm
  hours : List CronTerm
  daysOfMonth : List CronTerm
  months : List CronTerm
  daysOfWeek : List CronTerm

namespace CronFields

/-- The texts of an expression. -/
def Text (f : CronFields) (text : List Char) : Prop :=
  ∃ minField hourField domField monthField dowField,
    Words text [minField, hourField, domField, monthField, dowField] ∧
      FieldText f.minutes minField ∧ FieldText f.hours hourField ∧
      FieldText f.daysOfMonth domField ∧ FieldText f.months monthField ∧
      FieldText f.daysOfWeek dowField

/-- Every term is within the bounds of its field. -/
structure Valid (f : CronFields) : Prop where
  minutes : ∀ t ∈ f.minutes, t.Valid MINUTE_RANGE
  hours : ∀ t ∈ f.hours, t.Valid HOUR_RANGE
  daysOfMonth : ∀ t ∈ f.daysOfMonth, t.Valid DOM_RANGE
  months : ∀ t ∈ f.months, t.Valid MONTH_RANGE
  daysOfWeek : ∀ t ∈ f.daysOfWeek, t.Valid DOW_RANGE

/-- **What is read for an expression**: the set of each field, with 0 for the weekday 7, and whether
a field of days is a star alone. -/
structure Denotes (f : CronFields) (expr : ParsedCronExpression) : Prop where
  minutes : ∀ v, v ∈ expr.minutes ↔ v ∈ fieldSet MINUTE_RANGE f.minutes
  hours : ∀ v, v ∈ expr.hours ↔ v ∈ fieldSet HOUR_RANGE f.hours
  daysOfMonth : ∀ v, v ∈ expr.daysOfMonth ↔ v ∈ fieldSet DOM_RANGE f.daysOfMonth
  months : ∀ v, v ∈ expr.months ↔ v ∈ fieldSet MONTH_RANGE f.months
  daysOfWeek : ∀ v, v ∈ expr.daysOfWeek ↔
    ∃ w ∈ fieldSet DOW_RANGE f.daysOfWeek, (if w = 7 then 0 else w) = v
  daysOfMonthWildcard : expr.daysOfMonthWildcard = true ↔ f.daysOfMonth = [⟨.star, none⟩]
  daysOfWeekWildcard : expr.daysOfWeekWildcard = true ↔ f.daysOfWeek = [⟨.star, none⟩]

end CronFields

/-! ### The values of a term -/

variable {v : ℕ}

theorem mem_stepValues {lo hi step : ℕ} :
    v ∈ stepValues lo hi step ↔ ∃ i, v = lo + i * step ∧ v ≤ hi := by
  rw [stepValues, List.mem_filter, List.mem_range, decide_eq_true_eq]
  constructor
  · rintro ⟨hv, hlo, hmod⟩
    obtain ⟨i, hi⟩ := Nat.dvd_of_mod_eq_zero hmod
    refine ⟨i, ?_, Nat.le_of_lt_succ hv⟩
    rw [Nat.mul_comm, ← hi]
    omega
  · rintro ⟨i, rfl, hle⟩
    refine ⟨Nat.lt_succ_of_le hle, Nat.le_add_right _ _, ?_⟩
    rw [Nat.add_sub_cancel_left, Nat.mul_mod_left]

/-- The bounds of a base; those of a value depend on whether there is a step. -/
def CronBase.bounds (field : CronField) (stepped : Bool) : CronBase → ℕ × ℕ
  | .star => (field.min, field.max)
  | .value n => (n, if stepped then field.max else n)
  | .range lo hi => (lo, hi)

/-- The values that a term adds. -/
def CronTerm.values (field : CronField) (t : CronTerm) : List ℕ :=
  stepValues (t.base.bounds field t.step.isSome).1 (t.base.bounds field t.step.isSome).2
    (t.step.getD 1)

variable {field : CronField} {t : CronTerm}

theorem CronTerm.mem_values : v ∈ t.values field ↔ v ∈ t.denote field := by
  obtain ⟨base, step⟩ := t
  rw [CronTerm.values, mem_stepValues]
  cases base with
  | star | range => exact Iff.rfl
  | value n =>
    cases step with
    | some step => exact Iff.rfl
    | none =>
      constructor
      · rintro ⟨i, rfl, hle⟩
        exact Nat.le_antisymm hle (Nat.le_add_right n _)
      · rintro rfl
        exact ⟨0, rfl, Nat.le_refl _⟩

theorem CronTerm.values_ne_nil (hfield : field.min ≤ field.max)
    (h : t.Valid field) : t.values field ≠ [] := by
  have hbounds : (t.base.bounds field t.step.isSome).1 ≤ (t.base.bounds field t.step.isSome).2 := by
    have hwithin := h.1
    cases hbase : t.base with
    | star => exact hfield
    | value n =>
      rw [hbase] at hwithin
      cases t.step with
      | none => exact Nat.le_refl n
      | some step => exact hwithin.2
    | range lo hi =>
      rw [hbase] at hwithin
      exact hwithin.2.1
  exact List.ne_nil_of_mem (mem_stepValues.2 ⟨0, by simp, hbounds⟩)

theorem CronTerm.le_max (h : t.Valid field) (hv : v ∈ t.denote field) : v ≤ field.max := by
  obtain ⟨base, step⟩ := t
  have hwithin := h.1
  cases base with
  | star => exact hv.choose_spec.2
  | range lo hi => exact hv.choose_spec.2.trans hwithin.2.2
  | value n =>
    cases step with
    | none => exact (Set.mem_singleton_iff.1 hv).le.trans hwithin.2
    | some step => exact hv.choose_spec.2

/-! ### Reading a term -/

variable {c : Char} {s : List Char}

theorem splitFirst_of_notMem (h : c ∉ s) : splitFirst c s = (s, none) := by
  have hnil : s.dropWhile (· ≠ c) = [] := by
    rw [List.dropWhile_eq_nil_iff]
    intro d hd
    exact decide_eq_true fun heq => h (heq ▸ hd)
  rw [splitFirst, hnil]

theorem splitFirst_append {a : List Char} (h : c ∉ a) (b : List Char) :
    splitFirst c (a ++ c :: b) = (a, some b) := by
  have hall : ∀ d ∈ a, decide (d ≠ c) = true := fun d hd =>
    decide_eq_true fun heq => h (heq ▸ hd)
  have hdrop : (a ++ c :: b).dropWhile (· ≠ c) = c :: b := by
    rw [List.dropWhile_append_of_pos hall, List.dropWhile_cons_of_neg (by simp)]
  have htake : (a ++ c :: b).takeWhile (· ≠ c) = a := by
    rw [List.takeWhile_append_of_pos hall, List.takeWhile_cons_of_neg (by simp), List.append_nil]
  rw [splitFirst, hdrop, htake]

theorem splitFirst_cases (c : Char) (s : List Char) :
    (c ∉ s ∧ splitFirst c s = (s, none)) ∨
      ∃ a b, s = a ++ c :: b ∧ c ∉ a ∧ splitFirst c s = (a, some b) := by
  by_cases h : c ∈ s
  · obtain ⟨a, b, rfl, ha⟩ := List.eq_append_cons_of_mem h
    exact .inr ⟨a, b, rfl, ha, splitFirst_append ha b⟩
  · exact .inl ⟨h, splitFirst_of_notMem h⟩

theorem isDigits_iff (s : List Char) :
    LibJson.isDigits s = true ↔ s ≠ [] ∧ ∀ c ∈ s, c.isDigit = true := by
  simp [LibJson.isDigits, List.all_eq_true]

/-- **A number is read** exactly when it is a text of digits. -/
theorem parseCronInt_eq_ok {raw : List Char} {name role : String} {n : ℕ} :
    parseCronInt raw name role = .ok n ↔ Numeral raw n := by
  unfold parseCronInt
  split_ifs with h
  · obtain ⟨hne, hdigits⟩ := (isDigits_iff raw).1 h
    refine ⟨fun heq => ?_, fun hn => ?_⟩
    · exact ⟨hne, hdigits, Except.ok.inj heq⟩
    · rw [hn.2.2]
  · refine ⟨fun heq => ?_, fun hn => ?_⟩
    · cases heq
    · exact absurd ((isDigits_iff raw).2 ⟨hn.1, hn.2.1⟩) h

variable {text : List Char}

theorem Numeral.notMem {n : ℕ} (h : Numeral text n) (hc : c.isDigit = false) : c ∉ text := by
  intro hmem
  rw [h.2.1 c hmem] at hc
  cases hc

variable {base : CronBase}

theorem CronBase.Text.ne_nil (h : base.Text text) : text ≠ [] := by
  cases h with
  | star => exact List.cons_ne_nil _ _
  | value h => exact h.1
  | range _ _ => simp

theorem CronBase.Text.notMem (h : base.Text text) (hc : c = ',' ∨ c = '/') : c ∉ text := by
  have hdigit : c.isDigit = false := by rcases hc with rfl | rfl <;> rfl
  have hother : c ≠ '*' ∧ c ≠ '-' := by rcases hc with rfl | rfl <;> decide
  cases h with
  | star =>
    intro hmem
    exact hother.1 (List.mem_singleton.1 hmem)
  | value h => exact h.notMem hdigit
  | range hlo hhi =>
    intro hmem
    rcases List.mem_append.1 hmem with hmem | hmem
    · exact hlo.notMem hdigit hmem
    · rcases List.mem_cons.1 hmem with heq | hmem
      · exact hother.2 heq
      · exact hhi.notMem hdigit hmem

theorem CronTerm.Text.ne_nil (h : t.Text text) : text ≠ [] := by
  cases h with
  | plain h => exact h.ne_nil
  | stepped _ _ => simp

theorem CronTerm.Text.notMem_comma (h : t.Text text) : ',' ∉ text := by
  cases h with
  | plain h => exact h.notMem (.inl rfl)
  | stepped h hstep =>
    intro hmem
    rcases List.mem_append.1 hmem with hmem | hmem
    · exact h.notMem (.inl rfl) hmem
    · rcases List.mem_cons.1 hmem with heq | hmem
      · exact absurd heq (by decide)
      · exact hstep.notMem rfl hmem

/-- **The bounds of a term** are read from the texts of its base. -/
theorem parseRange_eq_ok {rangePart : List Char} {step : Option ℕ}
    {bounds : ℕ × ℕ} : parseRange rangePart step field = .ok bounds ↔
      ∃ base : CronBase, base.Text rangePart ∧ base.Within field ∧
        base.bounds field step.isSome = bounds := by
  constructor
  · intro h
    unfold parseRange at h
    by_cases hstar : rangePart = ['*']
    · rw [if_pos hstar] at h
      exact ⟨.star, hstar ▸ .star, trivial, Except.ok.inj h⟩
    · rw [if_neg hstar] at h
      rcases splitFirst_cases '-' rangePart with ⟨-, hsplit⟩ | ⟨a, b, rfl, -, hsplit⟩
      · rw [hsplit] at h
        cases hsingle : parseCronInt rangePart field.name "value" with
        | error message =>
          rw [hsingle] at h
          cases h
        | ok n =>
          rw [hsingle] at h
          dsimp only at h
          split_ifs at h with hrange hstep
          · refine ⟨.value n, .value (parseCronInt_eq_ok.1 hsingle), ⟨by omega, by omega⟩, ?_⟩
            rw [CronBase.bounds, if_pos hstep]
            exact Except.ok.inj h
          · refine ⟨.value n, .value (parseCronInt_eq_ok.1 hsingle), ⟨by omega, by omega⟩, ?_⟩
            rw [CronBase.bounds, if_neg hstep]
            exact Except.ok.inj h
      · rw [hsplit] at h
        dsimp only at h
        cases hlo : parseCronInt a field.name "range lower bound" with
        | error message =>
          rw [hlo] at h
          cases h
        | ok lo =>
          rw [hlo] at h
          cases hhi : parseCronInt b field.name "range upper bound" with
          | error message =>
            rw [hhi] at h
            cases h
          | ok hi =>
            rw [hhi] at h
            dsimp only at h
            split_ifs at h with hrange
            exact ⟨.range lo hi, .range (parseCronInt_eq_ok.1 hlo) (parseCronInt_eq_ok.1 hhi),
              ⟨by omega, by omega, by omega⟩, Except.ok.inj h⟩
  · rintro ⟨base, htext, hwithin, rfl⟩
    unfold parseRange
    cases htext with
    | star => rfl
    | @value text n hn =>
      have hstar : rangePart ≠ ['*'] := fun heq =>
        hn.notMem (c := '*') rfl (heq ▸ List.mem_singleton_self _)
      rw [if_neg hstar, splitFirst_of_notMem (hn.notMem rfl)]
      rw [parseCronInt_eq_ok.2 hn]
      dsimp only
      rw [if_neg (by have := hwithin.1; have := hwithin.2; omega)]
      rfl
    | @range loText hiText lo hi hlo hhi =>
      have hstar : loText ++ '-' :: hiText ≠ ['*'] := by
        intro heq
        have hmem : '-' ∈ ['*'] := heq ▸ List.mem_append_right _ (.head _)
        exact absurd hmem (by decide)
      rw [if_neg hstar, splitFirst_append (hlo.notMem rfl)]
      dsimp only
      rw [parseCronInt_eq_ok.2 hlo]
      rw [parseCronInt_eq_ok.2 hhi]
      dsimp only
      rw [if_neg (by have := hwithin.1; have := hwithin.2; omega)]
      rfl

theorem parseStep_eq_ok {term rangePart stepStr : List Char} {name : String} {step : Option ℕ} :
    parseStep term rangePart name (some stepStr) = .ok step ↔
      rangePart ≠ [] ∧ ∃ n, Numeral stepStr n ∧ 0 < n ∧ step = some n := by
  unfold parseStep
  constructor
  · intro h
    dsimp only at h
    by_cases hempty : stepStr = []
    · rw [if_pos hempty] at h
      cases h
    rw [if_neg hempty] at h
    cases hn : parseCronInt stepStr name "step" with
    | error message =>
      rw [hn] at h
      cases h
    | ok n =>
      rw [hn] at h
      dsimp only at h
      split_ifs at h with hzero hrange
      exact ⟨hrange, n, parseCronInt_eq_ok.1 hn, Nat.pos_of_ne_zero hzero, (Except.ok.inj h).symm⟩
  · rintro ⟨hrange, n, hn, hpos, rfl⟩
    dsimp only
    rw [if_neg hn.1, parseCronInt_eq_ok.2 hn]
    dsimp only
    rw [if_neg (Nat.ne_of_gt hpos), if_neg hrange]

variable {out : OrdSet ℕ}

/-- **A term is read** exactly when it is in the grammar and within bounds. -/
theorem addTerm_eq_ok {out' : OrdSet ℕ} :
    addTerm out text field = .ok out' ↔ ∃ t : CronTerm, t.Text text ∧ t.Valid field ∧
      out' = (t.values field).foldl OrdSet.insert out := by
  unfold addTerm
  constructor
  · intro h
    rcases splitFirst_cases '/' text with ⟨-, hsplit⟩ | ⟨a, b, rfl, -, hsplit⟩
    · rw [hsplit] at h
      dsimp only [parseStep] at h
      cases hrange : parseRange text none field with
      | error message =>
        rw [hrange] at h
        cases h
      | ok bounds =>
        rw [hrange] at h
        obtain ⟨base, htext, hwithin, rfl⟩ := parseRange_eq_ok.1 hrange
        exact ⟨⟨base, none⟩, .plain htext, ⟨hwithin, fun step hstep => by cases hstep⟩,
          (Except.ok.inj h).symm⟩
    · rw [hsplit] at h
      dsimp only at h
      cases hstep : parseStep (a ++ '/' :: b) a field.name (some b) with
      | error message =>
        rw [hstep] at h
        cases h
      | ok step =>
        rw [hstep] at h
        dsimp only at h
        obtain ⟨-, n, hn, hpos, rfl⟩ := parseStep_eq_ok.1 hstep
        cases hrange : parseRange a (some n) field with
        | error message =>
          rw [hrange] at h
          cases h
        | ok bounds =>
          rw [hrange] at h
          obtain ⟨base, htext, hwithin, rfl⟩ := parseRange_eq_ok.1 hrange
          refine ⟨⟨base, some n⟩, .stepped htext hn, ⟨hwithin, fun step hstep => ?_⟩,
            (Except.ok.inj h).symm⟩
          rwa [← Option.some.inj hstep]
  · rintro ⟨t, htext, hvalid, rfl⟩
    cases htext with
    | @plain base text hbase =>
      rw [splitFirst_of_notMem (hbase.notMem (.inr rfl))]
      dsimp only [parseStep]
      rw [parseRange_eq_ok.2 ⟨base, hbase, hvalid.1, rfl⟩]
      rfl
    | @stepped base text stepText step hbase hstep =>
      rw [splitFirst_append (hbase.notMem (.inr rfl))]
      dsimp only
      rw [parseStep_eq_ok.2 ⟨hbase.ne_nil, step, hstep, hvalid.2 step rfl, rfl⟩]
      dsimp only
      rw [parseRange_eq_ok.2 ⟨base, hbase, hvalid.1, rfl⟩]
      rfl

/-! ### Reading a field -/

/-- The values of the terms, one after the other. -/
def addValues (field : CronField) (terms : List CronTerm) (out : OrdSet ℕ) : OrdSet ℕ :=
  terms.foldl (fun out t => (t.values field).foldl insert out) out

variable {terms : List CronTerm}

theorem mem_addValues : v ∈ addValues field terms out ↔ v ∈ out ∨ v ∈ fieldSet field terms := by
  induction terms generalizing out with
  | nil => simp [addValues, fieldSet]
  | cons t terms ih =>
    have hcons : addValues field (t :: terms) out =
        addValues field terms ((t.values field).foldl insert out) := rfl
    rw [hcons, ih, mem_foldl_insert, CronTerm.mem_values, or_assoc]
    refine or_congr_right ?_
    simp [fieldSet]

theorem addTerms_eq_ok {texts : List (List Char)} {out' : OrdSet ℕ} :
    addTerms field texts out = .ok out' ↔ ∃ terms, List.Forall₂ CronTerm.Text terms texts ∧
      (∀ t ∈ terms, t.Valid field) ∧ out' = addValues field terms out := by
  induction texts generalizing out with
  | nil =>
    constructor
    · intro h
      exact ⟨[], .nil, fun t ht => absurd ht List.not_mem_nil, (Except.ok.inj h).symm⟩
    · rintro ⟨terms, hterms, -, rfl⟩
      cases hterms
      rfl
  | cons text texts ih =>
    rw [addTerms]
    constructor
    · intro h
      split_ifs at h with hempty
      cases hterm : addTerm out text field with
      | error message =>
        rw [hterm] at h
        cases h
      | ok out₁ =>
        rw [hterm] at h
        obtain ⟨t, htext, hvalid, rfl⟩ := addTerm_eq_ok.1 hterm
        obtain ⟨terms, hterms, hall, rfl⟩ := ih.1 h
        exact ⟨t :: terms, .cons htext hterms, List.forall_mem_cons.2 ⟨hvalid, hall⟩, rfl⟩
    · rintro ⟨terms, hterms, hall, rfl⟩
      cases hterms with
      | @cons t _ terms _ htext hterms =>
        obtain ⟨hvalid, hall⟩ := List.forall_mem_cons.1 hall
        rw [if_neg htext.ne_nil, addTerm_eq_ok.2 ⟨t, htext, hvalid, rfl⟩]
        exact ih.2 ⟨terms, hterms, hall, rfl⟩

theorem notMem_comma_of_texts {texts : List (List Char)}
    (h : List.Forall₂ CronTerm.Text terms texts) : ∀ text ∈ texts, ',' ∉ text := by
  induction h with
  | nil => exact fun text htext => absurd htext List.not_mem_nil
  | cons htext _ ih => exact List.forall_mem_cons.2 ⟨htext.notMem_comma, ih⟩

theorem addValues_nonempty (hfield : field.min ≤ field.max)
    (hne : terms ≠ []) (hall : ∀ t ∈ terms, t.Valid field)
    (out : OrdSet ℕ) : (addValues field terms out).isEmpty = false := by
  obtain ⟨t, ht⟩ := List.exists_mem_of_ne_nil terms hne
  obtain ⟨v, hv⟩ := List.exists_mem_of_ne_nil _ (CronTerm.values_ne_nil hfield (hall t ht))
  rw [Bool.eq_false_iff, ne_eq, OrdSet.isEmpty_iff]
  exact fun hnone => hnone v (mem_addValues.2 (.inr ⟨t, ht, CronTerm.mem_values.1 hv⟩))

/-- **A field is read** exactly when it is in the grammar and within bounds. -/
theorem parseField_eq_ok (hfield : field.min ≤ field.max)
    : parseField text field = .ok out ↔ ∃ terms, FieldText terms text ∧
      (∀ t ∈ terms, t.Valid field) ∧ out = addValues field terms empty := by
  unfold parseField
  constructor
  · intro h
    split_ifs at h with hempty
    cases hterms : addTerms field (text.splitOn ',') empty with
    | error message =>
      rw [hterms] at h
      cases h
    | ok out₁ =>
      rw [hterms] at h
      dsimp only at h
      split_ifs at h with hnone
      obtain ⟨terms, htexts, hall, rfl⟩ := addTerms_eq_ok.1 hterms
      refine ⟨terms, ⟨?_, _, htexts, (List.intercalate_splitOn ',').symm⟩, hall,
        (Except.ok.inj h).symm⟩
      rintro rfl
      exact hnone rfl
  · rintro ⟨terms, ⟨hne, texts, htexts, rfl⟩, hall, rfl⟩
    have hcommas := notMem_comma_of_texts htexts
    have hsome : texts ≠ [] := by
      rintro rfl
      cases htexts
      exact hne rfl
    have htext : [','].intercalate texts ≠ [] := by
      intro heq
      have hsplit := List.splitOn_intercalate ',' hcommas hsome
      rw [heq] at hsplit
      have hone : texts = [[]] := hsplit.symm
      rw [hone] at htexts
      cases htexts with
      | cons ht _ => exact ht.ne_nil rfl
    rw [if_neg htext, List.splitOn_intercalate ',' hcommas hsome,
      addTerms_eq_ok.2 ⟨terms, htexts, hall, rfl⟩]
    dsimp only
    rw [addValues_nonempty hfield hne hall, if_neg Bool.false_ne_true]

/-! ### Words -/

theorem splitWhiteSpace_append_cons (s : List Char) (hc : isWhiteSpace c = true)
    (t : List Char) : splitWhiteSpace (s ++ c :: t) = splitWhiteSpace s ++ splitWhiteSpace t := by
  rw [splitWhiteSpace, List.splitOnP_append_cons s t hc, List.filter_append]
  rfl

theorem splitWhiteSpace_nil : splitWhiteSpace [] = [] := by
  rw [splitWhiteSpace, List.splitOnP_nil]
  rfl

theorem splitWhiteSpace_cons (hc : isWhiteSpace c = true) (s : List Char) :
    splitWhiteSpace (c :: s) = splitWhiteSpace s := by
  have h := splitWhiteSpace_append_cons [] hc s
  rwa [splitWhiteSpace_nil] at h

theorem splitWhiteSpace_word {word : List Char} (hne : word ≠ [])
    (hword : ∀ c ∈ word, isWhiteSpace c = false) : splitWhiteSpace word = [word] := by
  rw [splitWhiteSpace, List.splitOnP_eq_singleton hword, List.filter_cons_of_pos (by simpa using hne)]
  rfl

variable {space : List Char}

theorem splitWhiteSpace_space_append (hspace : ∀ c ∈ space, isWhiteSpace c = true) (s : List Char) :
    splitWhiteSpace (space ++ s) = splitWhiteSpace s := by
  induction space with
  | nil => rfl
  | cons c space ih =>
    obtain ⟨hc, hspace⟩ := List.forall_mem_cons.1 hspace
    rw [List.cons_append, splitWhiteSpace_cons hc, ih hspace]

theorem splitWhiteSpace_space (hspace : ∀ c ∈ space, isWhiteSpace c = true) :
    splitWhiteSpace space = [] := by
  have h := splitWhiteSpace_space_append hspace []
  rwa [List.append_nil, splitWhiteSpace_nil] at h

theorem splitWhiteSpace_append_space (s : List Char) (hspace : ∀ c ∈ space, isWhiteSpace c = true) :
    splitWhiteSpace (s ++ space) = splitWhiteSpace s := by
  cases space with
  | nil => rw [List.append_nil]
  | cons c space =>
    obtain ⟨hc, hspace⟩ := List.forall_mem_cons.1 hspace
    rw [splitWhiteSpace_append_cons s hc, splitWhiteSpace_space hspace, List.append_nil]

variable {words : List (List Char)}

/-- **The words of a text** are its parts between white space. -/
theorem Words.split (h : Words s words) : splitWhiteSpace s = words := by
  induction h with
  | nil hspace => exact splitWhiteSpace_space hspace
  | @cons space word rest words hspace hne hword hrest _ ih =>
    rw [splitWhiteSpace_space_append hspace]
    cases rest with
    | nil =>
      rw [splitWhiteSpace_nil] at ih
      rw [List.append_nil, splitWhiteSpace_word hne hword, ← ih]
    | cons c rest =>
      have hc : isWhiteSpace c = true := hrest c rfl
      rw [splitWhiteSpace_append_cons word hc, splitWhiteSpace_word hne hword,
        List.singleton_append, ← ih, splitWhiteSpace_cons hc]

theorem Words.front {word rest : List Char} (hne : word ≠ [])
    (hword : ∀ c ∈ word, isWhiteSpace c = false) (hrest : ∀ c ∈ rest.head?, isWhiteSpace c = true)
    (h : Words rest words) : Words (word ++ rest) (word :: words) :=
  @Words.cons [] word rest words (fun _ hc => absurd hc List.not_mem_nil) hne hword hrest h

theorem Words.space_cons (hc : isWhiteSpace c = true)
    (h : Words s words) : Words (c :: s) words := by
  cases h with
  | nil hspace => exact .nil (List.forall_mem_cons.2 ⟨hc, hspace⟩)
  | @cons space word rest words hspace hne hword hrest h =>
    exact @Words.cons (c :: space) word rest words (List.forall_mem_cons.2 ⟨hc, hspace⟩) hne hword
      hrest h

/-- A character in front goes on with the word, or is a word of its own. -/
theorem Words.char_cons (hc : isWhiteSpace c = false)
    (h : Words s words) : ∃ words', Words (c :: s) words' := by
  have hsingle : ∀ d ∈ [c], isWhiteSpace d = false := List.forall_mem_singleton.2 hc
  cases h with
  | nil hspace =>
    exact ⟨[[c]], Words.front (List.cons_ne_nil c []) hsingle
      (fun d hd => hspace d (List.mem_of_mem_head? hd)) (.nil hspace)⟩
  | @cons space word rest words hspace hne hword hrest h =>
    cases space with
    | nil =>
      exact ⟨(c :: word) :: words, Words.front (List.cons_ne_nil c word)
        (List.forall_mem_cons.2 ⟨hc, hword⟩) hrest h⟩
    | cons d space =>
      refine ⟨[c] :: word :: words, Words.front (List.cons_ne_nil c []) hsingle
        (fun e he => ?_) (.cons hspace hne hword hrest h)⟩
      cases he
      exact hspace _ (.head _)

theorem words_split (s : List Char) : Words s (splitWhiteSpace s) := by
  have hwords : ∃ words, Words s words := by
    induction s with
    | nil => exact ⟨[], .nil fun c hc => by cases hc⟩
    | cons c s ih =>
      obtain ⟨words, h⟩ := ih
      cases hc : isWhiteSpace c with
      | true => exact ⟨words, h.space_cons hc⟩
      | false => exact h.char_cons hc
  obtain ⟨words, h⟩ := hwords
  rwa [h.split]

theorem splitWhiteSpace_trim (expr : String) :
    splitWhiteSpace (trim expr).toList = splitWhiteSpace expr.toList := by
  have hstart : ∀ s : List Char,
      splitWhiteSpace (s.dropWhile isWhiteSpace) = splitWhiteSpace s := by
    intro s
    have hspace : ∀ c ∈ s.takeWhile isWhiteSpace, isWhiteSpace c = true := fun c hc =>
      List.mem_takeWhile_imp hc
    have h := splitWhiteSpace_space_append hspace (s.dropWhile isWhiteSpace)
    rw [List.takeWhile_append_dropWhile] at h
    exact h.symm
  have hend : ∀ s : List Char, splitWhiteSpace (s.rdropWhile isWhiteSpace) = splitWhiteSpace s := by
    intro s
    have hspace : ∀ c ∈ s.rtakeWhile isWhiteSpace, isWhiteSpace c = true := fun c hc =>
      List.mem_rtakeWhile_imp hc
    have h := splitWhiteSpace_append_space (s.rdropWhile isWhiteSpace) hspace
    rw [List.rdropWhile_append_rtakeWhile] at h
    exact h.symm
  rw [trim, trimEnd, trimStart, String.toList_ofList, String.toList_ofList, hend, hstart]

/-! ### The parser -/

theorem mem_foldSunday {values : OrdSet ℕ} :
    v ∈ foldSunday values ↔ ∃ w ∈ values, (if w = 7 then 0 else w) = v := by
  rw [foldSunday, mem_ofList, List.mem_map]
  exact Iff.rfl

theorem mem_addValues_empty : v ∈ addValues field terms empty ↔ v ∈ fieldSet field terms := by
  rw [mem_addValues]
  simp

theorem CronBase.Text.eq_star (h : base.Text text) (heq : text = ['*']) : base = .star := by
  cases h with
  | star => rfl
  | value hn => exact absurd (heq ▸ List.mem_singleton_self '*') (hn.notMem rfl)
  | range _ _ =>
    have hmem : '-' ∈ ['*'] := heq ▸ List.mem_append_right _ (.head _)
    exact absurd hmem (by decide)

theorem CronTerm.Text.eq_star (h : t.Text text) (heq : text = ['*']) : t = ⟨.star, none⟩ := by
  cases h with
  | plain hbase => rw [hbase.eq_star heq]
  | stepped _ _ =>
    have hmem : '/' ∈ ['*'] := heq ▸ List.mem_append_right _ (.head _)
    exact absurd hmem (by decide)

theorem eq_star_iff (h : FieldText terms text) : text = ['*'] ↔ terms = [⟨.star, none⟩] := by
  obtain ⟨hne, texts, htexts, rfl⟩ := h
  constructor
  · intro heq
    have hsplit := List.splitOn_intercalate ',' (notMem_comma_of_texts htexts) (by
      rintro rfl
      cases htexts
      exact hne rfl)
    have hone : texts = [['*']] := by
      rw [← hsplit, heq]
      exact List.splitOnP_eq_singleton (by simp)
    subst hone
    cases htexts with
    | cons ht hnil =>
      cases hnil
      rw [ht.eq_star rfl]
  · rintro rfl
    cases htexts with
    | cons ht hnil =>
      cases hnil
      cases ht with
      | plain hstar =>
        cases hstar
        rfl

/-- **What is read for the fields of an expression.** -/
def readFields (raw : String) (f : CronFields) : ParsedCronExpression where
  raw := raw
  minutes := addValues MINUTE_RANGE f.minutes empty
  hours := addValues HOUR_RANGE f.hours empty
  daysOfMonth := addValues DOM_RANGE f.daysOfMonth empty
  months := addValues MONTH_RANGE f.months empty
  daysOfWeek := foldSunday (addValues DOW_RANGE f.daysOfWeek empty)
  daysOfMonthWildcard := decide (f.daysOfMonth = [⟨.star, none⟩])
  daysOfWeekWildcard := decide (f.daysOfWeek = [⟨.star, none⟩])

theorem CronFields.denotes_readFields (raw : String) (f : CronFields) :
    f.Denotes (readFields raw f) where
  minutes := fun _ => mem_addValues_empty
  hours := fun _ => mem_addValues_empty
  daysOfMonth := fun _ => mem_addValues_empty
  months := fun _ => mem_addValues_empty
  daysOfWeek := fun v => by
    rw [readFields, mem_foldSunday]
    simp [mem_addValues_empty]
  daysOfMonthWildcard := decide_eq_true_iff
  daysOfWeekWildcard := decide_eq_true_iff

theorem except_bind_eq_ok {ε α β : Type} {x : Except ε α} {f : α → Except ε β} {b : β} :
    x >>= f = .ok b ↔ ∃ a, x = .ok a ∧ f a = .ok b := by
  cases x with
  | error e =>
    constructor
    · intro h
      cases h
    · rintro ⟨a, h, -⟩
      cases h
  | ok a =>
    constructor
    · exact fun h => ⟨a, rfl, h⟩
    · rintro ⟨a', h, hf⟩
      rwa [Except.ok.inj h]

/-- **An expression is read** exactly when it is in the grammar and within bounds. -/
theorem parseCronExpression_eq_ok {expr : String} {parsed : ParsedCronExpression} :
    parseCronExpression expr = .ok parsed ↔ ∃ f : CronFields, f.Text expr.toList ∧ f.Valid ∧
      parsed = readFields (trim expr) f := by
  obtain ⟨hminutes, hhours, hdom, hmonths, hdow⟩ :
      MINUTE_RANGE.min ≤ MINUTE_RANGE.max ∧ HOUR_RANGE.min ≤ HOUR_RANGE.max ∧
      DOM_RANGE.min ≤ DOM_RANGE.max ∧ MONTH_RANGE.min ≤ MONTH_RANGE.max ∧
      DOW_RANGE.min ≤ DOW_RANGE.max := by
    decide
  unfold parseCronExpression
  constructor
  · intro h
    dsimp only at h
    split_ifs at h with hempty
    split at h
    case h_2 => cases h
    case h_1 minField hourField domField monthField dowField hwords =>
      obtain ⟨minutes, hmin, h⟩ := except_bind_eq_ok.1 h
      obtain ⟨hours, hhour, h⟩ := except_bind_eq_ok.1 h
      obtain ⟨daysOfMonth, hday, h⟩ := except_bind_eq_ok.1 h
      obtain ⟨months, hmonth, h⟩ := except_bind_eq_ok.1 h
      obtain ⟨dowRaw, hweek, h⟩ := except_bind_eq_ok.1 h
      obtain ⟨ts₁, htext₁, hvalid₁, rfl⟩ := (parseField_eq_ok hminutes).1 hmin
      obtain ⟨ts₂, htext₂, hvalid₂, rfl⟩ := (parseField_eq_ok hhours).1 hhour
      obtain ⟨ts₃, htext₃, hvalid₃, rfl⟩ := (parseField_eq_ok hdom).1 hday
      obtain ⟨ts₄, htext₄, hvalid₄, rfl⟩ := (parseField_eq_ok hmonths).1 hmonth
      obtain ⟨ts₅, htext₅, hvalid₅, rfl⟩ := (parseField_eq_ok hdow).1 hweek
      rw [splitWhiteSpace_trim] at hwords
      refine ⟨⟨ts₁, ts₂, ts₃, ts₄, ts₅⟩, ⟨minField, hourField, domField, monthField, dowField,
        hwords ▸ words_split _, htext₁, htext₂, htext₃, htext₄, htext₅⟩,
        ⟨hvalid₁, hvalid₂, hvalid₃, hvalid₄, hvalid₅⟩, ?_⟩
      rw [← Except.ok.inj h, readFields, beq_eq_decide, beq_eq_decide]
      simp [eq_star_iff htext₃, eq_star_iff htext₅]
  · rintro ⟨f, ⟨minField, hourField, domField, monthField, dowField, hwords, htext₁, htext₂, htext₃,
      htext₄, htext₅⟩, hvalid, rfl⟩
    have hsplit := hwords.split
    rw [← splitWhiteSpace_trim] at hsplit
    have hempty : (trim expr).toList ≠ [] := by
      intro heq
      rw [heq, splitWhiteSpace_nil] at hsplit
      cases hsplit
    rw [if_neg hempty, hsplit]
    dsimp only
    rw [(parseField_eq_ok hminutes).2 ⟨f.minutes, htext₁, hvalid.minutes, rfl⟩,
      (parseField_eq_ok hhours).2 ⟨f.hours, htext₂, hvalid.hours, rfl⟩,
      (parseField_eq_ok hdom).2 ⟨f.daysOfMonth, htext₃, hvalid.daysOfMonth, rfl⟩,
      (parseField_eq_ok hmonths).2 ⟨f.months, htext₄, hvalid.months, rfl⟩,
      (parseField_eq_ok hdow).2 ⟨f.daysOfWeek, htext₅, hvalid.daysOfWeek, rfl⟩]
    refine congrArg Except.ok ?_
    rw [readFields, beq_eq_decide, beq_eq_decide]
    simp [eq_star_iff htext₃, eq_star_iff htext₅]

/-- **`parseCronExpression` reads this grammar and nothing else**, and gives each field what it
stands for. -/
theorem parseCronExpression_grammar (expr : String) :
    match parseCronExpression expr with
    | .ok parsed => (∃ f : CronFields, f.Text expr.toList ∧ f.Valid) ∧
        ∀ f : CronFields, f.Text expr.toList → f.Valid → f.Denotes parsed
    | .error _ => ¬∃ f : CronFields, f.Text expr.toList ∧ f.Valid := by
  cases hparse : parseCronExpression expr with
  | ok parsed =>
    obtain ⟨f, htext, hvalid, rfl⟩ := parseCronExpression_eq_ok.1 hparse
    refine ⟨⟨f, htext, hvalid⟩, fun g hg hgvalid => ?_⟩
    have hread := parseCronExpression_eq_ok.2 ⟨g, hg, hgvalid, rfl⟩
    rw [Except.ok.inj (hparse.symm.trans hread)]
    exact g.denotes_readFields _
  | error message =>
    rintro ⟨f, htext, hvalid⟩
    have hread := parseCronExpression_eq_ok.2 ⟨f, htext, hvalid, rfl⟩
    rw [hparse] at hread
    cases hread

end NoriCode
