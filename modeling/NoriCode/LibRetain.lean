/-
**The latest entries of a log, up to a weight.**

A buffer keeps the latest entries of a log.  When their total weight is over a limit, the oldest
entries are dropped until it is not, but the last entry is kept whatever its weight.  What is kept
behind one more entry is therefore this entry and, before it, the longest suffix that fits together
with it.

Main definitions:

* `LibRetain.total` — the weight of a list;
* `LibRetain.dropOldest` — the entries that are kept.

Main results:

* `LibRetain.dropOldest_concat` — **what is kept behind one more entry**.
-/

import Mathlib.Algebra.GroupWithZero.Nat
import Mathlib.Data.List.Infix

namespace LibRetain

variable {α : Type} (weight : α → ℕ)

def total (l : List α) : ℕ := (l.map weight).sum

@[simp] theorem total_nil : total weight [] = 0 := rfl

@[simp] theorem total_cons (x : α) (l : List α) :
    total weight (x :: l) = weight x + total weight l := List.sum_cons

@[simp] theorem total_append (l m : List α) :
    total weight (l ++ m) = total weight l + total weight m := by
  unfold total
  rw [List.map_append, List.sum_append]

theorem total_le_of_suffix {l m : List α} (h : l <:+ m) : total weight l ≤ total weight m := by
  obtain ⟨front, rfl⟩ := h
  rw [total_append]
  exact Nat.le_add_left _ _

/-- The oldest entries are dropped while the weight is over the limit; one entry stays. -/
def dropOldest (limit : ℕ) : List α → List α
  | x :: y :: rest =>
    if limit < total weight (x :: y :: rest) then dropOldest limit (y :: rest)
    else x :: y :: rest
  | l => l

theorem dropOldest_cons {limit : ℕ} {x : α} {l : List α} (hl : l ≠ []) :
    dropOldest weight limit (x :: l) =
      if limit < total weight (x :: l) then dropOldest weight limit l else x :: l := by
  cases l with
  | nil => exact absurd rfl hl
  | cons y rest => rfl

/-- **What is kept behind one more entry**: before it, the longest suffix that fits with it. -/
theorem dropOldest_concat (limit : ℕ) (l : List α) (c : α) :
    ∃ kept, dropOldest weight limit (l ++ [c]) = kept ++ [c] ∧ kept <:+ l ∧
      (kept = [] ∨ total weight kept + weight c ≤ limit) ∧
      ∀ other, other <:+ l → total weight other + weight c ≤ limit → other <:+ kept := by
  induction l with
  | nil =>
    exact ⟨[], rfl, List.suffix_rfl, Or.inl rfl, fun other hother _ => hother⟩
  | cons x l ih =>
    rw [List.cons_append, dropOldest_cons weight (by simp)]
    by_cases hover : limit < total weight (x :: (l ++ [c]))
    · obtain ⟨kept, heq, hsuffix, hfits, hlongest⟩ := ih
      rw [if_pos hover]
      refine ⟨kept, heq, hsuffix.trans (List.suffix_cons x l), hfits, ?_⟩
      intro other hother hweight
      rcases List.suffix_cons_iff.1 hother with rfl | hother
      · simp only [total_cons, total_append, total_nil] at hover hweight
        omega
      · exact hlongest other hother hweight
    · rw [if_neg hover]
      simp only [total_cons, total_append, total_nil] at hover
      refine ⟨x :: l, rfl, List.suffix_rfl, Or.inr ?_, fun other hother _ => hother⟩
      rw [total_cons]
      omega

end LibRetain
