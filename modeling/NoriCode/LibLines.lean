/-
**Line breaks, in characters and in bytes.**

Two marks, carriage return and line feed, break a list into lines.  What is computed from them alone
does not depend on what the other items are: the marks of a text can be read off its encoded bytes,
because an item that is no mark is encoded by a block without marks.

Main definitions:

* `LibLines.pieces` — a list cut behind every line feed;
* `LibLines.normalizeFrom` — every line break as one line feed, with a carriage return pending;
* `LibLines.Breaks`, `LibLines.breaksFrom` — which kinds of line breaks there are;
* `LibLines.Encodes` — a code that keeps the marks.

Main results:

* `LibLines.Encodes.pieces`, `LibLines.Encodes.normalizeFrom`, `LibLines.Encodes.breaksFrom` — **the
  three are the same before and after encoding**;
* `LibLines.encodes_utf8` — UTF-8 keeps the marks.
-/

import NoriCode.LibUtf8

namespace LibLines

open List

/-- Which kinds of line breaks have been met. -/
structure Breaks where
  hasCrLf : Bool := false
  hasLf : Bool := false
  hasLoneCr : Bool := false

variable {α : Type} [DecidableEq α] (cr lf : α)

/-- A list cut behind every line feed; what follows the last one is a piece if it is not empty. -/
def pieces : List α → List (List α)
  | [] => []
  | a :: l =>
    if a = lf then [a] :: pieces l
    else
      match pieces l with
      | [] => [[a]]
      | piece :: rest => (a :: piece) :: rest

/-- Every line break is written as one line feed. A carriage return is pending until it is known
whether a line feed follows it. -/
def normalizeFrom : Bool → List α → List α
  | false, [] => []
  | true, [] => [lf]
  | false, a :: l => if a = cr then normalizeFrom true l else a :: normalizeFrom false l
  | true, a :: l =>
    if a = lf then lf :: normalizeFrom false l
    else if a = cr then lf :: normalizeFrom true l
    else lf :: a :: normalizeFrom false l

/-- The kinds of line breaks, with those met so far and whether the item before is a carriage
return. -/
def breaksFrom : Breaks → Bool → List α → Breaks
  | breaks, false, [] => breaks
  | breaks, true, [] => { breaks with hasLoneCr := true }
  | breaks, false, a :: l =>
    if a = cr then breaksFrom breaks true l
    else if a = lf then breaksFrom { breaks with hasLf := true } false l
    else breaksFrom breaks false l
  | breaks, true, a :: l =>
    if a = cr then breaksFrom { breaks with hasLoneCr := true } true l
    else if a = lf then breaksFrom { breaks with hasCrLf := true } false l
    else breaksFrom { breaks with hasLoneCr := true } false l

/-- An item that is no mark. -/
def Plain (a : α) : Prop := a ≠ cr ∧ a ≠ lf

variable {cr lf}

/-! ### Pieces -/

theorem flatten_pieces (l : List α) : (pieces lf l).flatten = l := by
  induction l with
  | nil => rfl
  | cons a l ih =>
    rw [pieces]
    split
    · rw [flatten_cons, ih]
      rfl
    · revert ih
      cases pieces lf l with
      | nil | cons =>
        intro ih
        rw [← ih]
        rfl

variable {l : List α}

theorem ne_nil_of_mem_pieces {piece : List α} (h : piece ∈ pieces lf l) : piece ≠ [] := by
  induction l generalizing piece with
  | nil => cases h
  | cons a l ih =>
    rw [pieces] at h
    split at h
    · rcases mem_cons.1 h with rfl | h
      · exact cons_ne_nil _ _
      · exact ih h
    · revert h ih
      cases pieces lf l with
      | nil =>
        intro _ h
        rw [mem_singleton.1 h]
        exact cons_ne_nil _ _
      | cons first rest =>
        intro ih h
        rcases mem_cons.1 h with rfl | h
        · exact cons_ne_nil _ _
        · exact ih (.tail _ h)

theorem pieces_eq_nil : pieces lf l = [] ↔ l = [] := by
  constructor
  · intro h
    rw [← flatten_pieces l, h]
    rfl
  · rintro rfl
    rfl

/-- There is a piece for every line feed, and one for what follows the last one. -/
theorem length_pieces (l : List α) :
    (pieces lf l).length =
      if l = [] ∨ l.getLast? = some lf then l.count lf else l.count lf + 1 := by
  induction l with
  | nil => rfl
  | cons a l ih =>
    rw [pieces]
    rcases l with _ | ⟨b, l⟩
    · by_cases ha : a = lf <;> simp [ha, pieces]
    · have hne : b :: l ≠ [] := cons_ne_nil b l
      have hcons : a :: b :: l ≠ [] := cons_ne_nil a _
      simp only [hne, hcons, false_or, getLast?_cons_cons] at ih ⊢
      by_cases ha : a = lf
      · rw [if_pos ha, length_cons, ih, ha, count_cons_self]
        split <;> rfl
      · obtain ⟨piece, rest, hpieces⟩ := exists_cons_of_ne_nil fun h => hne (pieces_eq_nil.1 h)
        rw [count_cons_of_ne ha, ← ih, if_neg ha, hpieces]
        rfl

/-! ### Blocks without marks -/

variable {block : List α}

theorem pieces_plain_append (hne : block ≠ []) (hblock : ∀ a ∈ block, a ≠ lf) (l : List α) :
    pieces lf (block ++ l) =
      match pieces lf l with
      | [] => [block]
      | piece :: rest => (block ++ piece) :: rest := by
  induction block with
  | nil => exact absurd rfl hne
  | cons a block ih =>
    have ha : a ≠ lf := hblock a (.head _)
    rw [cons_append, pieces, if_neg ha]
    rcases block with _ | ⟨b, block⟩
    · rfl
    · rw [ih (cons_ne_nil _ _) fun c hc => hblock c (.tail _ hc)]
      cases pieces lf l <;> rfl

/-- A block without a line feed and the line feed that ends it are a piece. -/
theorem pieces_line_append (hblock : ∀ a ∈ block, a ≠ lf) (l : List α) :
    pieces lf (block ++ lf :: l) = (block ++ [lf]) :: pieces lf l := by
  have hhead : pieces lf (lf :: l) = [lf] :: pieces lf l := by rw [pieces, if_pos rfl]
  cases block with
  | nil => exact hhead
  | cons b block => rw [pieces_plain_append (cons_ne_nil b block) hblock, hhead]

theorem normalizeFrom_false_plain_append (hblock : ∀ a ∈ block, a ≠ cr) (l : List α) :
    normalizeFrom cr lf false (block ++ l) = block ++ normalizeFrom cr lf false l := by
  induction block with
  | nil => rfl
  | cons a block ih =>
    rw [cons_append, normalizeFrom, if_neg (hblock a (.head _)),
      ih fun c hc => hblock c (.tail _ hc), cons_append]

theorem breaksFrom_false_plain_append (hblock : ∀ a ∈ block, Plain cr lf a)
    (breaks : Breaks) (l : List α) :
    breaksFrom cr lf breaks false (block ++ l) = breaksFrom cr lf breaks false l := by
  induction block with
  | nil => rfl
  | cons a block ih =>
    obtain ⟨hcr, hlf⟩ := hblock a (.head _)
    rw [cons_append, breaksFrom, if_neg hcr, if_neg hlf, ih fun c hc => hblock c (.tail _ hc)]

theorem exists_of_pieces_eq_cons {piece : List α} {rest : List (List α)}
    (h : pieces lf l = piece :: rest) :
    ∃ m, l = piece ++ m ∧ pieces lf m = rest ∧ (m ≠ [] → ∃ block, piece = block ++ [lf]) := by
  induction l generalizing piece with
  | nil => exact absurd h (cons_ne_nil _ _).symm
  | cons a l ih =>
    rw [pieces] at h
    split at h
    · rename_i ha
      obtain ⟨rfl, rfl⟩ := List.cons.inj h
      exact ⟨l, rfl, rfl, fun _ => ⟨[], by rw [ha]; rfl⟩⟩
    · cases hl : pieces lf l with
      | nil =>
        rw [hl] at h
        obtain ⟨rfl, rfl⟩ := List.cons.inj h
        rw [pieces_eq_nil.1 hl]
        exact ⟨[], rfl, rfl, fun hne => absurd rfl hne⟩
      | cons first others =>
        rw [hl] at h
        obtain ⟨rfl, rfl⟩ := List.cons.inj h
        obtain ⟨m, hm, hrest, hend⟩ := ih hl
        refine ⟨m, by rw [hm]; rfl, hrest, fun hne => ?_⟩
        obtain ⟨block, hblock⟩ := hend hne
        exact ⟨a :: block, by rw [hblock]; rfl⟩

theorem exists_append_of_lt {n : ℕ} (hn : n < (pieces lf l).length) :
    ∃ front back, l = front ++ back ∧ pieces lf back = (pieces lf l).drop n ∧
      (0 < n → ∃ block, front = block ++ [lf]) := by
  induction n generalizing l with
  | zero => exact ⟨[], l, rfl, rfl, fun h => absurd h (Nat.lt_irrefl 0)⟩
  | succ n ih =>
    cases hl : pieces lf l with
    | nil =>
      rw [hl] at hn
      exact absurd hn (Nat.not_lt_zero _)
    | cons piece rest =>
      obtain ⟨m, hm, hrest, hend⟩ := exists_of_pieces_eq_cons hl
      rw [hl, length_cons, ← hrest] at hn
      have hlt : n < (pieces lf m).length := by omega
      obtain ⟨front, back, hback, hpieces, hfront⟩ := ih hlt
      have hne : m ≠ [] := by
        rintro rfl
        exact absurd hlt (Nat.not_lt_zero _)
      obtain ⟨block, hblock⟩ := hend hne
      refine ⟨piece ++ front, back, by rw [hm, hback, append_assoc],
        by rw [hpieces, hrest]; rfl, fun _ => ?_⟩
      rcases Nat.eq_zero_or_pos n with rfl | hpos
      · have hnil : front = [] := by
          have hlength := congrArg flatten hpieces
          rw [drop_zero, flatten_pieces, flatten_pieces, hback] at hlength
          exact self_eq_append_left.1 hlength
        exact ⟨block, by rw [hnil, append_nil, hblock]⟩
      · obtain ⟨last, hlast⟩ := hfront hpos
        exact ⟨piece ++ last, by rw [hlast, append_assoc]⟩

/-! ### What the flags say -/

theorem breaksFrom_mono (breaks : Breaks) (pending : Bool) (l : List α) :
    (breaks.hasLoneCr = true → (breaksFrom cr lf breaks pending l).hasLoneCr = true) ∧
      (breaks.hasCrLf = true → (breaksFrom cr lf breaks pending l).hasCrLf = true) ∧
      (breaks.hasLf = true → (breaksFrom cr lf breaks pending l).hasLf = true) := by
  induction l generalizing breaks pending with
  | nil => cases pending <;> exact ⟨fun h => by simp [breaksFrom, h], id, id⟩
  | cons a l ih =>
    have hnext : ∀ (breaks' : Breaks) (pending' : Bool),
        (breaks.hasLoneCr = true → breaks'.hasLoneCr = true) →
        (breaks.hasCrLf = true → breaks'.hasCrLf = true) →
        (breaks.hasLf = true → breaks'.hasLf = true) →
        (breaks.hasLoneCr = true → (breaksFrom cr lf breaks' pending' l).hasLoneCr = true) ∧
          (breaks.hasCrLf = true → (breaksFrom cr lf breaks' pending' l).hasCrLf = true) ∧
          (breaks.hasLf = true → (breaksFrom cr lf breaks' pending' l).hasLf = true) := by
      intro breaks' pending' hlone hcrlf hlf
      obtain ⟨h₁, h₂, h₃⟩ := ih breaks' pending'
      exact ⟨h₁ ∘ hlone, h₂ ∘ hcrlf, h₃ ∘ hlf⟩
    cases pending <;> rw [breaksFrom] <;> split <;> try split
    all_goals exact hnext _ _ (by simp +contextual) (by simp +contextual) (by simp +contextual)

variable {breaks : Breaks}

theorem lone_of_lone (h : breaks.hasLoneCr = true) (pending : Bool) (l : List α) :
    (breaksFrom cr lf breaks pending l).hasLoneCr ≠ false := by
  simp [(breaksFrom_mono breaks pending l).1 h]

theorem crlf_of_crlf (h : breaks.hasCrLf = true) (pending : Bool) (l : List α) :
    (breaksFrom cr lf breaks pending l).hasCrLf ≠ false := by
  simp [(breaksFrom_mono breaks pending l).2.1 h]

theorem lf_of_lf (h : breaks.hasLf = true) (pending : Bool) (l : List α) :
    (breaksFrom cr lf breaks pending l).hasLf ≠ false := by
  simp [(breaksFrom_mono breaks pending l).2.2 h]

variable (cr lf) in
/-- Every line break is a carriage return with its line feed. -/
inductive Uniform : List α → Prop
  | nil : Uniform []
  | plain {a : α} {l : List α} : Plain cr lf a → Uniform l → Uniform (a :: l)
  | crlf {l : List α} : Uniform l → Uniform (cr :: lf :: l)

theorem uniform_of_breaksFrom {pending : Bool}
    (hlone : (breaksFrom cr lf breaks pending l).hasLoneCr = false)
    (hlf : (breaksFrom cr lf breaks pending l).hasLf = false) :
    Uniform cr lf (if pending then cr :: l else l) := by
  induction l generalizing breaks pending with
  | nil =>
    cases pending with
    | false => exact Uniform.nil
    | true => exact absurd hlone (by simp [breaksFrom])
  | cons a l ih =>
    cases pending with
    | false =>
      rw [breaksFrom] at hlone hlf
      by_cases hcr : a = cr
      · rw [if_pos hcr] at hlone hlf
        exact hcr ▸ ih hlone hlf
      · rw [if_neg hcr] at hlone hlf
        by_cases ha : a = lf
        · rw [if_pos ha] at hlf
          exact absurd hlf (lf_of_lf rfl _ _)
        · rw [if_neg ha] at hlone hlf
          exact Uniform.plain ⟨hcr, ha⟩ (ih hlone hlf)
    | true =>
      rw [breaksFrom] at hlone hlf
      by_cases hcr : a = cr
      · rw [if_pos hcr] at hlone
        exact absurd hlone (lone_of_lone rfl _ _)
      · rw [if_neg hcr] at hlone hlf
        by_cases ha : a = lf
        · rw [if_pos ha] at hlone hlf
          subst ha
          exact Uniform.crlf (ih hlone hlf)
        · rw [if_neg ha] at hlone
          exact absurd hlone (lone_of_lone rfl _ _)

theorem notMem_of_breaksFrom {pending : Bool}
    (hlone : (breaksFrom cr lf breaks pending l).hasLoneCr = false)
    (hcrlf : (breaksFrom cr lf breaks pending l).hasCrLf = false) :
    cr ∉ (if pending then cr :: l else l) := by
  induction l generalizing breaks pending with
  | nil =>
    cases pending with
    | false => exact not_mem_nil
    | true => exact absurd hlone (by simp [breaksFrom])
  | cons a l ih =>
    cases pending with
    | false =>
      rw [breaksFrom] at hlone hcrlf
      by_cases hcr : a = cr
      · rw [if_pos hcr] at hlone hcrlf
        exact absurd (.head _) (ih hlone hcrlf)
      · rw [if_neg hcr] at hlone hcrlf
        have hrest : cr ∉ l := by
          split at hlone <;> rename_i ha
          · rw [if_pos ha] at hcrlf
            exact ih hlone hcrlf
          · rw [if_neg ha] at hcrlf
            exact ih hlone hcrlf
        exact fun h => (mem_cons.1 h).elim (fun h => hcr h.symm) hrest
    | true =>
      rw [breaksFrom] at hlone hcrlf
      split at hlone
      · exact absurd hlone (lone_of_lone rfl _ _)
      · rename_i hcr
        rw [if_neg hcr] at hcrlf
        split at hlone
        · rename_i ha
          rw [if_pos ha] at hcrlf
          exact absurd hcrlf (crlf_of_crlf rfl _ _)
        · exact absurd hlone (lone_of_lone rfl _ _)

theorem breaksFrom_of_notMem (h : cr ∉ l) (breaks : Breaks) :
    (breaksFrom cr lf breaks false l).hasLoneCr = breaks.hasLoneCr ∧
      (breaksFrom cr lf breaks false l).hasCrLf = breaks.hasCrLf := by
  induction l generalizing breaks with
  | nil => exact ⟨rfl, rfl⟩
  | cons a l ih =>
    have ha : a ≠ cr := fun heq => h (heq ▸ (.head _))
    have hrest : cr ∉ l := fun hmem => h (.tail _ hmem)
    rw [breaksFrom, if_neg ha]
    split <;> exact ih hrest _

/-! ### The normalized list -/

theorem normalizeFrom_of_notMem (h : cr ∉ l) : normalizeFrom cr lf false l = l := by
  have hblock : ∀ a ∈ l, a ≠ cr := by
    rintro a ha rfl
    exact h ha
  have hplain : normalizeFrom cr lf false (l ++ []) = l ++ [] :=
    normalizeFrom_false_plain_append hblock []
  rwa [append_nil] at hplain

theorem notMem_normalizeFrom (hne : cr ≠ lf) (pending : Bool) (l : List α) :
    cr ∉ normalizeFrom cr lf pending l := by
  induction l generalizing pending with
  | nil =>
    cases pending with
    | false => exact not_mem_nil
    | true => exact fun h => hne (mem_singleton.1 h)
  | cons a l ih =>
    cases pending with
    | false =>
      rw [normalizeFrom]
      split
      · exact ih true
      · rename_i ha
        exact fun h => (mem_cons.1 h).elim (fun h => ha h.symm) (ih false)
    | true =>
      have hcons : ∀ l' : List α, cr ∉ l' → cr ∉ lf :: l' := fun l' hl' h =>
        (mem_cons.1 h).elim hne hl'
      rw [normalizeFrom]
      split
      · exact hcons _ (ih false)
      · split
        · exact hcons _ (ih true)
        · rename_i ha
          exact hcons _ fun h => (mem_cons.1 h).elim (fun h => ha h.symm) (ih false)

theorem lf_mem_normalizeFrom {a : α} (ha : a ∈ l) (hmark : a = cr ∨ a = lf) :
    ∀ pending, lf ∈ normalizeFrom cr lf pending l := by
  induction l with
  | nil => cases ha
  | cons b l ih =>
    have hpending : ∀ m : List α, lf ∈ normalizeFrom cr lf true m := by
      intro m
      cases m with
      | nil => exact mem_singleton_self lf
      | cons c m =>
        rw [normalizeFrom]
        split
        · exact (.head _)
        · split <;> exact (.head _)
    intro pending
    cases pending with
    | true => exact hpending _
    | false =>
      rw [normalizeFrom]
      split
      · exact hpending l
      · rename_i hb
        rcases mem_cons.1 ha with rfl | hrest
        · rw [hmark.resolve_left hb]
          exact (.head _)
        · exact .tail _ (ih hrest false)

/-! ### Codes that keep the marks -/

variable {β : Type} [DecidableEq β]

variable (cr lf) in
/-- **A code that keeps the marks**: a mark is encoded by a mark, any other item by a block without
marks that is not empty. -/
structure Encodes (cr' lf' : β) (code : β → List α) : Prop where
  cr_ne_lf : cr ≠ lf
  cr_ne_lf' : cr' ≠ lf'
  code_cr : code cr' = [cr]
  code_lf : code lf' = [lf]
  code_ne_nil : ∀ b, code b ≠ []
  plain : ∀ b, Plain cr' lf' b → ∀ a ∈ code b, Plain cr lf a

namespace Encodes

variable {cr' lf' : β} {code : β → List α}

theorem pieces (h : Encodes cr lf cr' lf' code) (l : List β) :
    LibLines.pieces lf (l.flatMap code) = (LibLines.pieces lf' l).map (flatMap code) := by
  induction l with
  | nil => rfl
  | cons b l ih =>
    rw [flatMap_cons]
    by_cases hlf : b = lf'
    · subst hlf
      rw [h.code_lf, singleton_append, LibLines.pieces, LibLines.pieces, if_pos rfl,
        if_pos rfl, ih, map_cons, flatMap_cons, h.code_lf]
      rfl
    · have hblock : ∀ a ∈ code b, a ≠ lf := by
        intro a ha
        by_cases hcr : b = cr'
        · rw [hcr, h.code_cr, mem_singleton] at ha
          exact ha ▸ h.cr_ne_lf
        · exact (h.plain b ⟨hcr, hlf⟩ a ha).2
      rw [pieces_plain_append (h.code_ne_nil b) hblock, LibLines.pieces, if_neg hlf, ih]
      cases LibLines.pieces lf' l with
      | nil => simp only [map_nil, map_cons, flatMap_cons, flatMap_nil,
          append_nil]
      | cons piece rest => simp only [map_cons, flatMap_cons]

theorem normalizeFrom (h : Encodes cr lf cr' lf' code) (pending : Bool) (l : List β) :
    LibLines.normalizeFrom cr lf pending (l.flatMap code) =
      (LibLines.normalizeFrom cr' lf' pending l).flatMap code := by
  induction l generalizing pending with
  | nil =>
    cases pending with
    | false => rfl
    | true => rw [flatMap_nil, LibLines.normalizeFrom, LibLines.normalizeFrom,
        flatMap_cons, flatMap_nil, append_nil, h.code_lf]
  | cons b l ih =>
    rw [flatMap_cons]
    by_cases hcr : b = cr'
    · subst hcr
      rw [h.code_cr, singleton_append]
      cases pending with
      | false => rw [LibLines.normalizeFrom, LibLines.normalizeFrom, if_pos rfl, if_pos rfl, ih]
      | true =>
        rw [LibLines.normalizeFrom, LibLines.normalizeFrom, if_neg h.cr_ne_lf,
          if_neg h.cr_ne_lf', if_pos rfl, if_pos rfl, ih, flatMap_cons, h.code_lf]
        rfl
    · by_cases hlf : b = lf'
      · subst hlf
        rw [h.code_lf, singleton_append]
        cases pending with
        | false =>
          rw [LibLines.normalizeFrom, LibLines.normalizeFrom, if_neg h.cr_ne_lf.symm,
            if_neg h.cr_ne_lf'.symm, ih, flatMap_cons, h.code_lf]
          rfl
        | true =>
          rw [LibLines.normalizeFrom, LibLines.normalizeFrom, if_pos rfl, if_pos rfl, ih,
            flatMap_cons, h.code_lf]
          rfl
      · have hplain := h.plain b ⟨hcr, hlf⟩
        cases pending with
        | false =>
          rw [normalizeFrom_false_plain_append fun a ha => (hplain a ha).1,
            LibLines.normalizeFrom, if_neg hcr, ih, flatMap_cons]
        | true =>
          obtain ⟨a, block, hcode⟩ := exists_cons_of_ne_nil (h.code_ne_nil b)
          rw [hcode] at hplain
          obtain ⟨hacr, half⟩ := hplain a (.head _)
          rw [LibLines.normalizeFrom, if_neg hlf, if_neg hcr, flatMap_cons,
            flatMap_cons, h.code_lf, hcode, cons_append, LibLines.normalizeFrom,
            if_neg half, if_neg hacr, normalizeFrom_false_plain_append fun c hc =>
              (hplain c (.tail _ hc)).1, ih]
          rfl

theorem breaksFrom (h : Encodes cr lf cr' lf' code) (breaks : Breaks) (pending : Bool)
    (l : List β) :
    LibLines.breaksFrom cr lf breaks pending (l.flatMap code) =
      LibLines.breaksFrom cr' lf' breaks pending l := by
  induction l generalizing breaks pending with
  | nil => cases pending <;> rfl
  | cons b l ih =>
    rw [flatMap_cons]
    by_cases hcr : b = cr'
    · subst hcr
      rw [h.code_cr, singleton_append]
      cases pending <;> rw [LibLines.breaksFrom, LibLines.breaksFrom, if_pos rfl, if_pos rfl, ih]
    · by_cases hlf : b = lf'
      · subst hlf
        rw [h.code_lf, singleton_append]
        cases pending <;> rw [LibLines.breaksFrom, LibLines.breaksFrom, if_neg h.cr_ne_lf.symm,
          if_neg h.cr_ne_lf'.symm, if_pos rfl, if_pos rfl, ih]
      · have hplain := h.plain b ⟨hcr, hlf⟩
        cases pending with
        | false =>
          rw [breaksFrom_false_plain_append hplain, LibLines.breaksFrom, if_neg hcr, if_neg hlf, ih]
        | true =>
          obtain ⟨a, block, hcode⟩ := exists_cons_of_ne_nil (h.code_ne_nil b)
          rw [hcode] at hplain
          obtain ⟨hacr, half⟩ := hplain a (.head _)
          rw [hcode, cons_append, LibLines.breaksFrom, LibLines.breaksFrom, if_neg hacr,
            if_neg half, if_neg hcr, if_neg hlf, breaksFrom_false_plain_append fun c hc =>
              hplain c (.tail _ hc), ih]

end Encodes

/-- **UTF-8 keeps the marks.** -/
theorem encodes_utf8 : Encodes (0x0d : UInt8) 0x0a '\r' '\n' String.utf8EncodeChar where
  cr_ne_lf := by decide
  cr_ne_lf' := by decide
  code_cr := by decide
  code_lf := by decide
  code_ne_nil _ := String.utf8EncodeChar_ne_nil
  plain c hc b hb := by
    obtain ⟨hcr, hlf⟩ := hc
    by_cases hascii : c.toNat < 0x80
    · rw [LibUtf8.encodeChar_ascii hascii, mem_singleton] at hb
      have hbyte : b.toNat = c.toNat := by
        rw [hb, UInt8.toNat_ofNat']
        exact Nat.mod_eq_of_lt (by omega)
      refine ⟨fun h => hcr ?_, fun h => hlf ?_⟩ <;> rw [← Char.ofNat_toNat c, ← hbyte, h] <;> rfl
    · have hhigh := LibUtf8.le_of_mem_encodeChar (Nat.not_lt.1 hascii) hb
      refine ⟨?_, ?_⟩ <;> rintro rfl <;> exact absurd hhigh (by decide)

end LibLines
