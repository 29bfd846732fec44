/-
**Finite sets in order of insertion.**

The set that scripting languages iterate over in the order of insertion: a list without
repetitions, to which an element is added at the end, and only when it is not there yet.  The
absence of repetitions is a field, so every set that can be written down is a set.

Main definitions:

* `LibOrdSet.OrdSet` — the sets, with `empty`, `insert`, `erase`, `filter` and `ofList`.

Main results:

* `LibOrdSet.OrdSet.mem_insert`, `LibOrdSet.OrdSet.mem_erase`, `LibOrdSet.OrdSet.mem_ofList` — what
  is in the set after each operation.
-/

import Mathlib.Data.List.Nodup

namespace LibOrdSet

/-- A set whose elements are kept in the order of their insertion. -/
@[ext]
structure OrdSet (α : Type) where
  toList : List α
  nodup : toList.Nodup

namespace OrdSet

variable {α : Type}

instance : Membership α (OrdSet α) := ⟨fun s a => a ∈ s.toList⟩

variable {a : α} {s : OrdSet α}

theorem mem_def : a ∈ s ↔ a ∈ s.toList := Iff.rfl

def empty : OrdSet α := ⟨[], List.nodup_nil⟩

def isEmpty (s : OrdSet α) : Bool := s.toList.isEmpty

@[simp] theorem notMem_empty (a : α) : a ∉ (empty : OrdSet α) := by simp [mem_def, empty]

@[simp] theorem isEmpty_empty : (empty : OrdSet α).isEmpty = true := rfl

theorem isEmpty_iff : s.isEmpty = true ↔ ∀ a, a ∉ s := by
  simp [isEmpty, mem_def, List.eq_nil_iff_forall_not_mem]

theorem eq_empty_of_isEmpty (h : s.isEmpty = true) : s = empty := by
  apply OrdSet.ext
  simpa [isEmpty, empty] using h

variable [DecidableEq α]

instance : DecidableEq (OrdSet α) := fun s t =>
  decidable_of_iff (s.toList = t.toList) ⟨OrdSet.ext, fun h => h ▸ rfl⟩

instance (a : α) (s : OrdSet α) : Decidable (a ∈ s) := inferInstanceAs (Decidable (a ∈ s.toList))

/-- Add an element at the end, unless it is there. -/
def insert (s : OrdSet α) (a : α) : OrdSet α :=
  if h : a ∈ s.toList then s
  else ⟨s.toList ++ [a], by
    rw [List.nodup_append]
    refine ⟨s.nodup, List.nodup_singleton a, ?_⟩
    rintro x hx y hy rfl
    exact h (List.mem_singleton.1 hy ▸ hx)⟩

def erase (s : OrdSet α) (a : α) : OrdSet α := ⟨s.toList.erase a, s.nodup.erase a⟩

def filter (s : OrdSet α) (p : α → Bool) : OrdSet α := ⟨s.toList.filter p, s.nodup.filter p⟩

/-- The set of the elements of a list. -/
def ofList (l : List α) : OrdSet α := l.foldl insert empty

theorem toList_insert (s : OrdSet α) (a : α) :
    (s.insert a).toList = if a ∈ s.toList then s.toList else s.toList ++ [a] := by
  unfold insert
  split_ifs <;> rfl

@[simp] theorem mem_insert {b : α} : a ∈ s.insert b ↔ a ∈ s ∨ a = b := by
  unfold insert
  split
  · rename_i h
    constructor
    · exact Or.inl
    · rintro (h' | rfl)
      · exact h'
      · exact h
  · simp [mem_def]

@[simp] theorem mem_erase {b : α} : a ∈ s.erase b ↔ a ∈ s ∧ a ≠ b := by
  simp only [mem_def, erase, s.nodup.mem_erase_iff, and_comm]

omit [DecidableEq α] in
@[simp] theorem mem_filter {p : α → Bool} : a ∈ s.filter p ↔ a ∈ s ∧ p a = true := by
  simp [mem_def, filter, List.mem_filter]

theorem mem_foldl_insert {l : List α} : a ∈ l.foldl insert s ↔ a ∈ s ∨ a ∈ l := by
  induction l generalizing s with
  | nil => simp
  | cons b l ih => simp [ih, or_assoc]

@[simp] theorem mem_ofList {l : List α} : a ∈ ofList l ↔ a ∈ l := by
  simp [ofList, mem_foldl_insert]

end OrdSet

end LibOrdSet
