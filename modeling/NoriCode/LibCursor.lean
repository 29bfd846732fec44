/-
**Cursors into a growing list.**

A reader of a list whose entries have increasing keys need not remember what it has read: the key of
the last entry is enough.  What it has read is then the part of the list up to its cursor, which no
later entry changes, and what it reads next is the rest.

Main definitions:

* `LibCursor.upTo`, `LibCursor.after` — the two parts of a list at a cursor;
* `LibCursor.lastKey` — the cursor after a reading.

Main results:

* `LibCursor.upTo_append_after` — **the parts make up the list**;
* `LibCursor.upTo_prefix` — what was read is a prefix of the list;
* `LibCursor.upTo_append` — later entries leave it alone;
* `LibCursor.upTo_lastKey` — after a reading everything was read.
-/

import Mathlib.Data.List.Basic

namespace LibCursor

open List

variable {α : Type} (key : α → ℕ)

/-- The keys increase. -/
def Increasing (l : List α) : Prop := l.Pairwise fun x y => key x < key y

/-- What was read at a cursor. -/
def upTo (c : ℕ) (l : List α) : List α := l.filter fun x => key x ≤ c

/-- What was not read. -/
def after (c : ℕ) (l : List α) : List α := l.filter fun x => c < key x

/-- The key of the last entry, or the cursor from before. -/
def lastKey (c : ℕ) (l : List α) : ℕ := (l.getLast?.map key).getD c

variable {key} {l : List α} {c d : ℕ}

theorem upTo_eq_self (h : ∀ x ∈ l, key x ≤ c) : upTo key c l = l :=
  filter_eq_self.2 fun x hx => decide_eq_true (h x hx)

theorem upTo_eq_nil (h : ∀ x ∈ l, c < key x) : upTo key c l = [] :=
  filter_eq_nil_iff.2 fun x hx => by simpa using h x hx

theorem after_eq_self (h : ∀ x ∈ l, c < key x) : after key c l = l :=
  filter_eq_self.2 fun x hx => decide_eq_true (h x hx)

theorem Increasing.filter (h : Increasing key l) (p : α → Bool) : Increasing key (l.filter p) :=
  List.Pairwise.filter p h

/-- **The parts at a cursor make up the list.** -/
theorem upTo_append_after (h : Increasing key l) (c : ℕ) : upTo key c l ++ after key c l = l := by
  induction l with
  | nil => rfl
  | cons x l ih =>
    obtain ⟨hx, hl⟩ := pairwise_cons.1 h
    by_cases hc : key x ≤ c
    · have hnot : ¬c < key x := by omega
      rw [upTo, after, filter_cons_of_pos (by simpa using hc),
        filter_cons_of_neg (by simpa using hnot), cons_append]
      exact congrArg (x :: ·) (ih hl)
    · have hall : ∀ y ∈ x :: l, c < key y := by
        intro y hy
        rcases mem_cons.1 hy with rfl | hy
        · omega
        · have := hx y hy
          omega
      rw [upTo_eq_nil hall, after_eq_self hall, nil_append]

theorem upTo_prefix (h : Increasing key l) (c : ℕ) : upTo key c l <+: l :=
  ⟨after key c l, upTo_append_after h c⟩

theorem upTo_upTo (h : c ≤ d) (l : List α) : upTo key c (upTo key d l) = upTo key c l := by
  rw [upTo, upTo, filter_filter]
  refine filter_congr fun x _ => ?_
  rw [← Bool.decide_and]
  exact decide_eq_decide.2 ⟨And.left, fun hc => ⟨hc, Nat.le_trans hc h⟩⟩

theorem upTo_append_after_upTo (h : Increasing key l) (hcd : c ≤ d) :
    upTo key c l ++ after key c (upTo key d l) = upTo key d l := by
  rw [← upTo_upTo hcd]
  exact upTo_append_after (h.filter _) c

/-- **Later entries do not change what was read.** -/
theorem upTo_append {new : List α} (h : ∀ x ∈ new, c < key x) :
    upTo key c (l ++ new) = upTo key c l := by
  have hnil : upTo key c new = [] := upTo_eq_nil h
  rw [upTo] at hnil
  rw [upTo, filter_append, hnil, append_nil, upTo]

theorem le_lastKey (h : Increasing key l) {x : α} (hx : x ∈ l) : key x ≤ lastKey key c l := by
  induction l generalizing x with
  | nil => cases hx
  | cons y l ih =>
    obtain ⟨hy, hl⟩ := pairwise_cons.1 h
    cases l with
    | nil =>
      rw [mem_singleton.1 hx]
      exact Nat.le_refl _
    | cons z l =>
      have hlast : lastKey key c (y :: z :: l) = lastKey key c (z :: l) := rfl
      rw [hlast]
      rcases mem_cons.1 hx with rfl | hx
      · exact Nat.le_trans (Nat.le_of_lt (hy z (.head _))) (ih hl (.head _))
      · exact ih hl hx

theorem lastKey_mem (key : α → ℕ) (c : ℕ) (l : List α) :
    lastKey key c l = c ∨ ∃ x ∈ l, lastKey key c l = key x := by
  cases hlast : l.getLast? with
  | none =>
    refine .inl ?_
    rw [lastKey, hlast]
    rfl
  | some x =>
    refine .inr ⟨x, mem_of_getLast? hlast, ?_⟩
    rw [lastKey, hlast]
    rfl

theorem le_lastKey_after (c : ℕ) (l : List α) : c ≤ lastKey key c (after key c l) := by
  rcases lastKey_mem key c (after key c l) with hc | ⟨x, hx, hc⟩
  · exact Nat.le_of_eq hc.symm
  · rw [hc]
    exact Nat.le_of_lt (of_decide_eq_true (List.mem_filter.1 hx).2)

/-- **After a reading everything was read.** -/
theorem upTo_lastKey (h : Increasing key l) (c : ℕ) :
    upTo key (lastKey key c (after key c l)) l = l := by
  refine upTo_eq_self fun x hx => ?_
  by_cases hc : key x ≤ c
  · exact Nat.le_trans hc (le_lastKey_after c l)
  · exact le_lastKey (h.filter _) (List.mem_filter.2 ⟨hx, decide_eq_true (Nat.not_le.1 hc)⟩)

end LibCursor
