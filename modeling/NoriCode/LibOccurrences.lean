/-
**The occurrences of a partial step.**

A schedule is given by the next occurrence after an instant, if there is one.  The occurrences after
an instant are found by taking the next one again and again.  Where the next occurrence is later,
they increase, and what counts some of them and goes on from the last one counts each of them once.

Main definitions:

* `LibOccurrences.occurrences` — the first occurrences after an instant.

Main results:

* `LibOccurrences.occurrences_append` — going on from the last one;
* `LibOccurrences.mem_occurrences` — an occurrence is among the first ones or comes after the last
  of them;
* `LibOccurrences.mem_occurrences_iff` — no element of a set is passed over.
-/

import Mathlib.Order.Bounds.Basic
import Mathlib.Data.List.Basic

namespace LibOccurrences

open List

variable {α : Type} (next : α → Option α)

/-- The first `n` occurrences after `t`; fewer, where there are no more. -/
def occurrences : ℕ → α → List α
  | 0, _ => []
  | n + 1, t =>
    match next t with
    | none => []
    | some first => first :: occurrences n first

variable {next} {n m : ℕ} {t o : α}

theorem occurrences_of_none (h : next t = none) : occurrences next n t = [] := by
  cases n with
  | zero => rfl
  | succ n => rw [occurrences, h]

theorem occurrences_succ {first : α} (h : next t = some first) :
    occurrences next (n + 1) t = first :: occurrences next n first := by
  rw [occurrences, h]

/-- **Going on from the last one.** -/
theorem occurrences_append (h : (occurrences next n t).length = n) :
    occurrences next (n + m) t =
      occurrences next n t ++ occurrences next m ((occurrences next n t).getLastD t) := by
  induction n generalizing t with
  | zero =>
    rw [Nat.zero_add]
    rfl
  | succ n ih =>
    cases hnext : next t with
    | none =>
      rw [occurrences_of_none hnext] at h
      cases h
    | some first =>
      rw [occurrences_succ hnext, length_cons, Nat.add_right_cancel_iff] at h
      rw [Nat.succ_add, occurrences_succ hnext, occurrences_succ hnext, ih h, cons_append,
        getLastD_cons]

theorem occurrences_subset (h : m ≤ n) : occurrences next m t ⊆ occurrences next n t := by
  induction m generalizing n t with
  | zero => exact nil_subset _
  | succ m ih =>
    obtain ⟨n, rfl⟩ :=
      Nat.exists_eq_succ_of_ne_zero (Nat.ne_of_gt (Nat.lt_of_lt_of_le m.succ_pos h))
    cases hnext : next t with
    | none =>
      rw [occurrences_of_none hnext]
      exact nil_subset _
    | some first =>
      rw [occurrences_succ hnext, occurrences_succ hnext]
      exact cons_subset_cons first (ih (Nat.le_of_succ_le_succ h))

/-- **An occurrence is among the first ones, or comes after the last of them.** -/
theorem mem_occurrences (h : (occurrences next n t).length = n) (ho : o ∈ occurrences next m t) :
    o ∈ occurrences next n t ∨ ∃ k, o ∈ occurrences next k ((occurrences next n t).getLastD t) := by
  have hmore := occurrences_subset (Nat.le_add_left m n) ho
  rw [occurrences_append h] at hmore
  rcases mem_append.1 hmore with hfirst | hlater
  · exact Or.inl hfirst
  · exact Or.inr ⟨m, hlater⟩

section Order

variable [Preorder α]

variable (hnext : ∀ a b, next a = some b → a < b)

include hnext

theorem lt_of_mem_occurrences (ho : o ∈ occurrences next n t) : t < o := by
  induction n generalizing t with
  | zero => cases ho
  | succ n ih =>
    cases hfirst : next t with
    | none =>
      rw [occurrences_of_none hfirst] at ho
      cases ho
    | some first =>
      rw [occurrences_succ hfirst] at ho
      rcases mem_cons.1 ho with rfl | ho
      · exact hnext t o hfirst
      · exact (hnext t first hfirst).trans (ih ho)

/-- **The occurrences increase.** -/
theorem occurrences_pairwise : (occurrences next n t).Pairwise (· < ·) := by
  induction n generalizing t with
  | zero => exact List.Pairwise.nil
  | succ n ih =>
    cases hfirst : next t with
    | none =>
      rw [occurrences_of_none hfirst]
      exact List.Pairwise.nil
    | some first =>
      rw [occurrences_succ hfirst]
      exact List.Pairwise.cons (fun o ho => lt_of_mem_occurrences hnext ho) ih

theorem eq_or_le_of_mem_occurrences {first : α} (hfirst : next t = some first)
    (ho : o ∈ occurrences next n t) :
    o = first ∨ ∃ second, next first = some second ∧ second ≤ o := by
  cases n with
  | zero => cases ho
  | succ n =>
    rw [occurrences_succ hfirst] at ho
    rcases mem_cons.1 ho with rfl | ho
    · exact Or.inl rfl
    · refine Or.inr ?_
      cases n with
      | zero => cases ho
      | succ n =>
        cases hsecond : next first with
        | none =>
          rw [occurrences_of_none hsecond] at ho
          cases ho
        | some second =>
          rw [occurrences_succ hsecond] at ho
          rcases mem_cons.1 ho with rfl | ho
          · exact ⟨o, rfl, le_rfl⟩
          · exact ⟨second, rfl, (lt_of_mem_occurrences hnext ho).le⟩

end Order

/-- **No element of a set is passed over**, where the next one is always the least. -/
theorem mem_occurrences_iff [LinearOrder α] {S : Set α}
    (hnext : ∀ a b, next a = some b → IsLeast {o | a < o ∧ o ∈ S} b) :
    o ∈ occurrences next n t ↔ t < o ∧ o ≤ (occurrences next n t).getLastD t ∧ o ∈ S := by
  induction n generalizing t with
  | zero => exact iff_of_false not_mem_nil fun h => absurd h.2.1 (not_le.2 h.1)
  | succ n ih =>
    cases hfirst : next t with
    | none =>
      rw [occurrences_of_none hfirst]
      exact iff_of_false not_mem_nil fun h => absurd h.2.1 (not_le.2 h.1)
    | some first =>
      obtain ⟨⟨hlater, hmem⟩, hleast⟩ := hnext t first hfirst
      have hlast : first ≤ (occurrences next n first).getLastD first := by
        rw [getLastD_eq_getLast?]
        cases hl : (occurrences next n first).getLast? with
        | none => exact le_rfl
        | some last =>
          exact (lt_of_mem_occurrences (fun a b h => (hnext a b h).1.1) (mem_of_getLast? hl)).le
      rw [occurrences_succ hfirst, mem_cons, getLastD_cons, ih]
      constructor
      · rintro (rfl | ⟨hlt, hle, ho⟩)
        · exact ⟨hlater, hlast, hmem⟩
        · exact ⟨hlater.trans hlt, hle, ho⟩
      · rintro ⟨hlt, hle, ho⟩
        cases (hleast ⟨hlt, ho⟩).eq_or_lt with
        | inl heq => exact Or.inl heq.symm
        | inr hbehind => exact Or.inr ⟨hbehind, hle, ho⟩

end LibOccurrences
