/-
**Finite maps in order of insertion.**

The map that scripting languages iterate over in the order of insertion: a list of entries with
distinct keys.  A value that is set for a key that is there replaces the old one in its place, one
for a new key goes to the end.  That the keys are distinct is a field, so every map that can be
written down is a map.

Main definitions:

* `LibOrdMap.OrdMap` — the maps, with `empty`, `get`, `set` and `erase`;
* `LibOrdMap.OrdMap.putAll` — several changes, one after the other;
* `LibOrdMap.OrdMap.AgreeOff` — two maps that agree on all but some keys.

Main results:

* `LibOrdMap.OrdMap.get_set`, `LibOrdMap.OrdMap.get_erase` — what is found after each operation;
* `LibOrdMap.OrdMap.get_putAll` — **the last change of a key tells what is found.**
-/

import Mathlib.Data.List.Nodup

namespace LibOrdMap

open List Option

/-- A map whose entries are kept in the order of their insertion. -/
structure OrdMap (κ α : Type) where
  entries : List (κ × α)
  nodup : (entries.map (·.1)).Nodup

namespace OrdMap

variable {κ α : Type}

def empty : OrdMap κ α := ⟨[], List.nodup_nil⟩

theorem eq_of_entries {m m' : OrdMap κ α} (h : m.entries = m'.entries) : m = m' := by
  cases m
  cases h
  rfl

theorem eq_empty {m : OrdMap κ α} (h : m.entries = []) : m = empty := eq_of_entries h

def keys (m : OrdMap κ α) : List κ := m.entries.map (·.1)

def values (m : OrdMap κ α) : List α := m.entries.map (·.2)

variable [DecidableEq κ]

def get (m : OrdMap κ α) (k : κ) : Option α := (m.entries.find? (·.1 = k)).map (·.2)

theorem get_eq_some {m : OrdMap κ α} {k : κ} {a : α} : m.get k = some a ↔ (k, a) ∈ m.entries := by
  unfold get
  rw [map_eq_some_iff]
  constructor
  · rintro ⟨e, he, rfl⟩
    have hkey := find?_some he
    rw [decide_eq_true_eq] at hkey
    rw [← hkey]
    exact mem_of_find?_eq_some he
  · intro h
    have hfound : (m.entries.find? fun e => decide (e.1 = k)).isSome = true :=
      find?_isSome.2 ⟨(k, a), h, decide_eq_true rfl⟩
    obtain ⟨e, he⟩ := isSome_iff_exists.1 hfound
    have hkey := find?_some he
    rw [decide_eq_true_eq] at hkey
    have heq := inj_on_of_nodup_map m.nodup (mem_of_find?_eq_some he) h hkey
    exact ⟨e, he, by rw [heq]⟩

theorem get_eq_none {m : OrdMap κ α} {k : κ} : m.get k = none ↔ k ∉ m.keys := by
  rw [eq_none_iff_forall_ne_some]
  simp [get_eq_some, keys]

/-- Set the value of a key, in its place or at the end. -/
def set (m : OrdMap κ α) (k : κ) (a : α) : OrdMap κ α :=
  if h : k ∈ m.keys then
    ⟨m.entries.map fun e => if e.1 = k then (k, a) else e, by
      have hkeys : (m.entries.map fun e => if e.1 = k then (k, a) else e).map (·.1) =
          m.entries.map (·.1) := by
        rw [List.map_map]
        refine List.map_congr_left fun e _ => ?_
        simp only [Function.comp_apply]
        split_ifs with hkey
        · exact hkey.symm
        · rfl
      rw [hkeys]
      exact m.nodup⟩
  else
    ⟨m.entries ++ [(k, a)], by
      rw [List.map_append, List.nodup_append]
      refine ⟨m.nodup, List.nodup_singleton _, fun x hx y hy => ?_⟩
      rintro rfl
      obtain rfl := List.mem_singleton.1 hy
      exact h hx⟩

def erase (m : OrdMap κ α) (k : κ) : OrdMap κ α :=
  ⟨m.entries.filter (·.1 ≠ k), m.nodup.sublist (List.filter_sublist.map _)⟩

/-- The entries whose keys meet a condition. -/
def filterKeys (m : OrdMap κ α) (p : κ → Bool) : OrdMap κ α :=
  ⟨m.entries.filter fun e => p e.1, m.nodup.sublist (List.filter_sublist.map _)⟩

/-- Change every value. -/
def mapValues (m : OrdMap κ α) (f : α → α) : OrdMap κ α :=
  ⟨m.entries.map fun e => (e.1, f e.2), by
    rw [List.map_map]
    exact m.nodup⟩

theorem values_mapValues (m : OrdMap κ α) (f : α → α) :
    (m.mapValues f).values = m.values.map f := by
  rw [values, mapValues, values, List.map_map, List.map_map]
  rfl

theorem mem_set {m : OrdMap κ α} {k : κ} {a : α} {e : κ × α} :
    e ∈ (m.set k a).entries ↔ e = (k, a) ∨ e ∈ m.entries ∧ e.1 ≠ k := by
  unfold set
  split_ifs with h
  · simp only [List.mem_map]
    constructor
    · rintro ⟨d, hd, rfl⟩
      split_ifs with hkey
      · exact Or.inl rfl
      · exact Or.inr ⟨hd, hkey⟩
    · rintro (rfl | ⟨he, hkey⟩)
      · obtain ⟨d, hd, hkey⟩ := mem_map.1 h
        exact ⟨d, hd, if_pos hkey⟩
      · exact ⟨e, he, if_neg hkey⟩
  · simp only [mem_append, mem_singleton]
    constructor
    · rintro (he | rfl)
      · refine Or.inr ⟨he, ?_⟩
        rintro rfl
        exact h (mem_map_of_mem he)
      · exact Or.inl rfl
    · rintro (rfl | ⟨he, -⟩)
      · exact Or.inr rfl
      · exact Or.inl he

@[simp] theorem get_set (m : OrdMap κ α) (k j : κ) (a : α) :
    (m.set k a).get j = if j = k then some a else m.get j := by
  ext b
  rw [get_eq_some, mem_set]
  split_ifs with h
  · subst h
    simp [eq_comm]
  · simp [h, get_eq_some]

@[simp] theorem get_erase (m : OrdMap κ α) (k j : κ) :
    (m.erase k).get j = if j = k then none else m.get j := by
  ext b
  rw [get_eq_some, erase, List.mem_filter]
  split_ifs with h
  · simp [h]
  · simp [h, get_eq_some]

theorem erase_of_get_eq_none {m : OrdMap κ α} {k : κ} (h : m.get k = none) : m.erase k = m := by
  refine eq_of_entries (filter_eq_self.2 fun e he => decide_eq_true fun hkey => ?_)
  exact get_eq_none.1 h (mem_map.2 ⟨e, he, hkey⟩)

@[simp] theorem get_filterKeys (m : OrdMap κ α) (p : κ → Bool) (j : κ) :
    (m.filterKeys p).get j = if p j = true then m.get j else none := by
  ext b
  rw [get_eq_some, filterKeys, List.mem_filter]
  split_ifs with h
  · simp [h, get_eq_some]
  · simp [h]

theorem mem_keys {m : OrdMap κ α} {k : κ} : k ∈ m.keys ↔ (m.get k).isSome = true := by
  rw [← ne_none_iff_isSome, ne_eq, get_eq_none, not_not]

theorem mem_values {m : OrdMap κ α} {a : α} : a ∈ m.values ↔ ∃ k, m.get k = some a := by
  simp [values, get_eq_some]

/-! ### Several changes -/

/-- Set the value of a key, or erase the key if there is none. -/
def put (m : OrdMap κ α) (k : κ) : Option α → OrdMap κ α
  | some a => m.set k a
  | none => m.erase k

def putAll (m : OrdMap κ α) (changes : List (κ × Option α)) : OrdMap κ α :=
  changes.foldl (fun m c => m.put c.1 c.2) m

/-- What the last change of a key makes of it, if one does. -/
def lastChange (k : κ) : List (κ × Option α) → Option (Option α)
  | [] => none
  | c :: changes => (lastChange k changes).or (if c.1 = k then some c.2 else none)

/-- The changes that set all that a map has. -/
def settings (m : OrdMap κ α) : List (κ × Option α) := m.entries.map fun e => (e.1, some e.2)

/-- Two maps agree on all but some keys. -/
def AgreeOff (keys : List κ) (m m' : OrdMap κ α) : Prop := ∀ k, k ∉ keys → m.get k = m'.get k

variable {m m' : OrdMap κ α} {k j : κ} {changes : List (κ × Option α)}

theorem get_put (m : OrdMap κ α) (k j : κ) (a : Option α) :
    (m.put k a).get j = if j = k then a else m.get j := by
  cases a with
  | none => exact get_erase m k j
  | some a => exact get_set m k j a

theorem putAll_append (m : OrdMap κ α) (c c' : List (κ × Option α)) :
    m.putAll (c ++ c') = (m.putAll c).putAll c' := foldl_append

theorem lastChange_eq_none : lastChange k changes = none ↔ k ∉ changes.map (·.1) := by
  induction changes with
  | nil => simp [lastChange]
  | cons c changes ih =>
    rw [lastChange, or_eq_none_iff, ih, map_cons, mem_cons, not_or, and_comm]
    by_cases hkey : c.1 = k
    · simp [hkey]
    · simp [hkey, Ne.symm hkey]

/-- **The last change of a key tells what is found.** -/
theorem get_putAll (m : OrdMap κ α) (changes : List (κ × Option α)) :
    (m.putAll changes).get k = (lastChange k changes).getD (m.get k) := by
  induction changes generalizing m with
  | nil => rfl
  | cons c changes ih =>
    have hstep : m.putAll (c :: changes) = (m.put c.1 c.2).putAll changes := rfl
    rw [hstep, ih, lastChange, get_put]
    cases lastChange k changes with
    | some a => rfl
    | none =>
      by_cases hkey : c.1 = k
      · simp [hkey]
      · simp [hkey, Ne.symm hkey]

theorem lastChange_settings (m : OrdMap κ α) : lastChange k m.settings = (m.get k).map some := by
  obtain ⟨l, hnodup⟩ := m
  unfold settings get
  induction l with
  | nil => rfl
  | cons e l ih =>
    obtain ⟨hnot, hnodup⟩ := nodup_cons.1 hnodup
    rw [map_cons, lastChange, ih hnodup]
    by_cases hkey : e.1 = k
    · -- no later entry has the key
      subst hkey
      have hnone : l.find? (fun e' => decide (e'.1 = e.1)) = none := by
        refine find?_eq_none.2 fun e' he' heq => hnot ?_
        exact mem_map.2 ⟨e', he', of_decide_eq_true heq⟩
      simp [hnone]
    · simp [hkey]

theorem get_putAll_settings (m m' : OrdMap κ α) :
    (m.putAll m'.settings).get k = (m'.get k).or (m.get k) := by
  rw [get_putAll, lastChange_settings]
  cases m'.get k <;> rfl

theorem agreeOff_iff {keys : List κ} :
    AgreeOff keys m m' ↔ ∀ k ∈ m.keys ++ m'.keys, k ∉ keys → m.get k = m'.get k := by
  refine ⟨fun h k _ => h k, fun h k hk => ?_⟩
  by_cases hmem : k ∈ m.keys ++ m'.keys
  · exact h k hmem hk
  · obtain ⟨hm, hm'⟩ := not_or.1 fun hor => hmem (mem_append.2 hor)
    rw [get_eq_none.2 hm, get_eq_none.2 hm']

instance [DecidableEq α] (keys : List κ) (m m' : OrdMap κ α) : Decidable (AgreeOff keys m m') :=
  decidable_of_iff' _ agreeOff_iff

end OrdMap

end LibOrdMap
