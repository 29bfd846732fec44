/-
**The first that decides.**

Items are asked one after the other.  An item may decide, pass the question on, or fail, and the
first that does not pass settles it.

Main definitions:

* `LibFirst.first` — what the items come to.

Main results:

* `LibFirst.first_eq_pass_iff`, `LibFirst.first_eq_decided_iff` — when nobody decides, and when
  somebody does;
* `LibFirst.first_of_front` — what holds of the decisions of the first items, if one does not pass.
-/

import Mathlib.Data.List.Basic

namespace LibFirst

open List

variable {α β : Type} (ask : α → Option (Option β))

/-- **The first answer that is no pass**: an item fails with nothing, passes with `some none` and
decides with `some (some b)`. -/
def first : List α → Option (Option β)
  | [] => some none
  | a :: l =>
    match ask a with
    | none => none
    | some none => first l
    | some (some b) => some (some b)

variable {ask}

theorem first_cons_pass {a : α} (h : ask a = some none) (l : List α) :
    first ask (a :: l) = first ask l := by
  rw [first, h]

theorem first_cons_of_ne {a : α} (h : ask a ≠ some none) (l : List α) :
    first ask (a :: l) = ask a := by
  rw [first]
  split
  · rename_i hask
    exact hask.symm
  · rename_i hask
    exact absurd hask h
  · rename_i hask
    exact hask.symm

theorem first_append_of_pass {front : List α} (h : ∀ a ∈ front, ask a = some none) (back : List α) :
    first ask (front ++ back) = first ask back := by
  induction front with
  | nil => rfl
  | cons a front ih =>
    obtain ⟨ha, hrest⟩ := forall_mem_cons.1 h
    rw [cons_append, first_cons_pass ha, ih hrest]

theorem first_eq_pass_iff {l : List α} : first ask l = some none ↔ ∀ a ∈ l, ask a = some none := by
  induction l with
  | nil => exact iff_of_true rfl fun a ha => absurd ha not_mem_nil
  | cons a l ih =>
    by_cases h : ask a = some none
    · rw [first_cons_pass h, ih, forall_mem_cons]
      exact (and_iff_right h).symm
    · rw [first_cons_of_ne h, forall_mem_cons]
      exact iff_of_false h fun hall => h hall.1

/-- **Somebody decides**: an item does, and all before it pass. -/
theorem first_eq_decided_iff {l : List α} {b : β} :
    first ask l = some (some b) ↔ ∃ before a after, l = before ++ a :: after ∧
      (∀ x ∈ before, ask x = some none) ∧ ask a = some (some b) := by
  induction l with
  | nil =>
    refine iff_of_false (fun h => by cases h) ?_
    rintro ⟨before, a, after, hl, -⟩
    exact cons_ne_nil a after (append_eq_nil_iff.1 hl.symm).2
  | cons c l ih =>
    by_cases h : ask c = some none
    · rw [first_cons_pass h, ih]
      constructor
      · rintro ⟨before, a, after, rfl, hbefore, ha⟩
        exact ⟨c :: before, a, after, rfl, forall_mem_cons.2 ⟨h, hbefore⟩, ha⟩
      · rintro ⟨before, a, after, hl, hbefore, ha⟩
        cases before with
        | nil =>
          obtain ⟨rfl, -⟩ := cons.inj hl
          rw [h] at ha
          cases ha
        | cons d before =>
          obtain ⟨-, rfl⟩ := cons.inj hl
          exact ⟨before, a, after, rfl, (forall_mem_cons.1 hbefore).2, ha⟩
    · rw [first_cons_of_ne h]
      constructor
      · exact fun hc => ⟨[], c, l, rfl, fun x hx => absurd hx not_mem_nil, hc⟩
      · rintro ⟨before, a, after, hl, hbefore, ha⟩
        cases before with
        | nil =>
          obtain ⟨rfl, -⟩ := cons.inj hl
          exact ha
        | cons d before =>
          obtain ⟨rfl, -⟩ := cons.inj hl
          exact absurd (hbefore _ (.head _)) h

theorem first_ne_failed {l : List α} (h : ∀ a ∈ l, ask a ≠ none) : first ask l ≠ none := by
  induction l with
  | nil => exact fun hnone => by cases hnone
  | cons a l ih =>
    obtain ⟨ha, hrest⟩ := forall_mem_cons.1 h
    by_cases hpass : ask a = some none
    · rw [first_cons_pass hpass]
      exact ih hrest
    · rw [first_cons_of_ne hpass]
      exact ha

/-- **If one of the first items does not pass**, somebody of them fails or decides. -/
theorem first_of_front {front : List α} {P : β → Prop}
    (hfront : ∀ a ∈ front, ∀ b, ask a = some (some b) → P b)
    (h : ∃ a ∈ front, ask a ≠ some none) (back : List α) :
    first ask (front ++ back) = none ∨ ∃ b, first ask (front ++ back) = some (some b) ∧ P b := by
  induction front with
  | nil =>
    obtain ⟨a, ha, -⟩ := h
    cases ha
  | cons c front ih =>
    obtain ⟨hc, hrest⟩ := forall_mem_cons.1 hfront
    by_cases hpass : ask c = some none
    · rw [cons_append, first_cons_pass hpass]
      obtain ⟨a, ha, hne⟩ := h
      cases mem_cons.1 ha with
      | inl ha => exact absurd (ha ▸ hpass) hne
      | inr ha => exact ih hrest ⟨a, ha, hne⟩
    · rw [cons_append, first_cons_of_ne hpass]
      cases hask : ask c with
      | none => exact Or.inl rfl
      | some answer =>
        cases answer with
        | none => exact absurd hask hpass
        | some b => exact Or.inr ⟨b, rfl, hc b hask⟩

end LibFirst
