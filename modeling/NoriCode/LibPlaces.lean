/-
**Entries of a list, by their places.**

Lists that keep what is under way name an entry by its place.  A step puts an entry at the end,
changes one, or takes one away; these are the questions that a proof asks then: which entry is at a
place now, and where an entry went.

Main results:

* `LibPlaces.getElem?_append_singleton` — after an entry is put at the end;
* `LibPlaces.getElem?_set_cases`, `LibPlaces.getElem?_modify_some` — after one is changed;
* `LibPlaces.mem_eraseIdx_or_eq`, `LibPlaces.ne_of_mem_eraseIdx` — after one is taken away.
-/

import Mathlib.Data.List.Nodup

namespace LibPlaces

variable {α β : Type} {l : List α} {i j : ℕ} {a b : α}

theorem getElem?_append_singleton (h : (l ++ [a])[i]? = some b) :
    l[i]? = some b ∨ i = l.length ∧ a = b := by
  rcases Nat.lt_trichotomy i l.length with hlt | heq | hgt
  · rw [List.getElem?_append_left hlt] at h
    exact Or.inl h
  · subst heq
    rw [List.getElem?_concat_length] at h
    exact Or.inr ⟨rfl, Option.some.inj h⟩
  · rw [List.getElem?_eq_none (by rw [List.length_append]; exact hgt)] at h
    cases h

/-! ### Entries that are changed -/

theorem getElem?_modify_some {f : α → α} (h : (l.modify i f)[j]? = some b) :
    ∃ a, l[j]? = some a ∧ b = if i = j then f a else a := by
  rw [List.getElem?_modify] at h
  obtain ⟨a, ha, rfl⟩ := Option.map_eq_some_iff.1 h
  refine ⟨a, ha, ?_⟩
  split <;> rfl

theorem getElem?_modify_of_some (f : α → α) (i : ℕ) (h : l[j]? = some a) :
    (l.modify i f)[j]? = some (if i = j then f a else a) := by
  rw [List.getElem?_modify, h]
  split <;> rfl

theorem getElem?_set_cases (h : (l.set i a)[j]? = some b) :
    (j = i ∧ b = a) ∨ (j ≠ i ∧ l[j]? = some b) := by
  by_cases hij : j = i
  · subst hij
    have hlt : j < l.length := by
      simpa using (List.getElem?_eq_some_iff.1 h).1
    rw [List.getElem?_set_self hlt] at h
    exact .inl ⟨rfl, (Option.some.inj h).symm⟩
  · rw [List.getElem?_set_ne (Ne.symm hij)] at h
    exact .inr ⟨hij, h⟩

theorem getElem?_set_of_some (h : l[i]? = some a) : (l.set i b)[i]? = some b :=
  List.getElem?_set_self (List.getElem?_eq_some_iff.1 h).1

theorem map_set_of_eq {f : α → β} (h : l[i]? = some a) (heq : f b = f a) :
    (l.set i b).map f = l.map f := by
  obtain ⟨hlt, rfl⟩ := List.getElem?_eq_some_iff.1 h
  rw [List.map_set, heq, ← List.getElem_map f (h := by rwa [List.length_map]),
    List.set_getElem_self]

/-! ### Entries that are taken away -/

theorem mem_eraseIdx_or_eq (h : l[i]? = some a) (hb : b ∈ l) : b ∈ l.eraseIdx i ∨ b = a := by
  obtain ⟨j, hj⟩ := List.mem_iff_getElem?.1 hb
  by_cases hij : j = i
  · subst hij
    exact .inr (Option.some.inj (hj.symm.trans h))
  · exact .inl (List.mem_eraseIdx_iff_getElem?.2 ⟨j, hij, hj⟩)

/-- Where a function tells the entries apart, it tells one that was taken away from the rest. -/
theorem ne_of_mem_eraseIdx {f : α → β} (hnodup : (l.map f).Nodup) (h : l[i]? = some a)
    (hb : b ∈ l.eraseIdx i) : f b ≠ f a := by
  intro heq
  obtain ⟨j, hji, hj⟩ := List.mem_eraseIdx_iff_getElem?.1 hb
  have hlt : j < (l.map f).length := by
    rw [List.length_map]
    exact (List.getElem?_eq_some_iff.1 hj).1
  refine hji ((List.getElem?_inj hlt hnodup).1 ?_)
  rw [List.getElem?_map, List.getElem?_map, hj, h]
  exact congrArg some heq

end LibPlaces
