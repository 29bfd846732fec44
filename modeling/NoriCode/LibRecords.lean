/-
**Records of untyped values.**

A record is a list of fields, each with a key and a value, in the order in which the keys were first
set.  A record is often read under other names: a function tells which name a key stands for, so a
name may be spelled by several keys, and the last field that spells a name is the one that is read.
A record that is changed under one spelling may keep an older field under another one, behind it.

Main definitions:

* `LibRecords.Value`, `LibRecords.Fields`, with `get`, `set`, `delete`, `put` and `assign`;
* `LibRecords.translate` — a record under other names;
* `LibRecords.lastRead` — what is read for a name;
* `LibRecords.behind` — the fields behind those of a key.

Main results:

* `LibRecords.get_translate` — **the last field that spells a name is read**;
* `LibRecords.lastRead_set` — after a key is set;
* `LibRecords.lastRead_assign` — **after a record is written under another spelling**.
-/

import Mathlib.Data.List.Nodup
import Mathlib.Data.Rat.Defs

namespace LibRecords

open List Option

/-- A value. -/
inductive Value where
  | null
  | bool (b : Bool)
  | num (q : ℚ)
  | str (s : String)
  /-- A date: an object without fields of its own, which is printed as a text. -/
  | date (s : String)
  | arr (l : List Value)
  | obj (l : List (String × Value))

abbrev Fields := List (String × Value)

/-- The fields of an object that is no array. -/
def Value.entries? : Value → Option Fields
  | .obj l => some l
  | .date _ => some []
  | _ => none

/-! ### Fields -/

def get (key : String) : Fields → Option Value
  | [] => none
  | field :: fields => if field.1 = key then some field.2 else get key fields

/-- A field is set where it stands, or behind all others. -/
def set (key : String) (value : Value) (fields : Fields) : Fields :=
  if ∃ field ∈ fields, field.1 = key then
    fields.map fun field => if field.1 = key then (key, value) else field
  else fields ++ [(key, value)]

def delete (key : String) (fields : Fields) : Fields := fields.filter fun field => field.1 ≠ key

/-- A field is set, or deleted if there is no value. -/
def put (key : String) (value : Option Value) (fields : Fields) : Fields :=
  match value with
  | some value => set key value fields
  | none => delete key fields

/-- Fields are set one after the other. -/
def assign (fields entries : Fields) : Fields :=
  entries.foldl (fun fields entry => set entry.1 entry.2 fields) fields

variable {key key' : String} {value v w : Value} {fields l l' : Fields}

@[simp] theorem get_nil (key : String) : get key [] = none := rfl

theorem get_cons (field : String × Value) :
    get key (field :: fields) = if field.1 = key then some field.2 else get key fields := rfl

theorem get_append (l l' : Fields) : get key (l ++ l') = (get key l).or (get key l') := by
  induction l with
  | nil => rfl
  | cons field l ih =>
    rw [cons_append, get_cons, get_cons, ih]
    split <;> rfl

theorem get_eq_none_iff : get key fields = none ↔ ∀ field ∈ fields, field.1 ≠ key := by
  induction fields with
  | nil => simp
  | cons field fields ih =>
    rw [get_cons]
    by_cases h : field.1 = key
    · simp [h]
    · simp [h, ih]

theorem mem_of_get (h : get key fields = some value) : (key, value) ∈ fields := by
  induction fields with
  | nil => cases h
  | cons field fields ih =>
    rw [get_cons] at h
    split at h
    · rename_i hkey
      cases h
      exact hkey ▸ (.head _)
    · exact .tail _ (ih h)

theorem get_of_mem (hnodup : (fields.map Prod.fst).Nodup) (h : (key, value) ∈ fields) :
    get key fields = some value := by
  induction fields with
  | nil => cases h
  | cons field fields ih =>
    obtain ⟨hnot, hnodup⟩ := nodup_cons.1 hnodup
    rw [get_cons]
    rcases mem_cons.1 h with rfl | hmem
    · exact if_pos rfl
    · have hne : field.1 ≠ key := by
        rintro rfl
        exact hnot (mem_map.2 ⟨_, hmem, rfl⟩)
      rw [if_neg hne]
      exact ih hnodup hmem

theorem get_replace : get key' (fields.map fun field =>
    if field.1 = key then (key, value) else field) =
    (get key' fields).map fun old => if key = key' then value else old := by
  induction fields with
  | nil => rfl
  | cons field fields ih =>
    rw [map_cons, get_cons, get_cons, ih]
    by_cases hfield : field.1 = key
    · subst hfield
      by_cases hkey : field.1 = key' <;> simp [hkey]
    · by_cases hkey : field.1 = key'
      · subst hkey
        simp [hfield, Ne.symm hfield]
      · simp [hfield, hkey]

/-- **A field that was set is there, and the others are as they were.** -/
theorem get_set : get key' (set key value fields) =
    if key = key' then some value else get key' fields := by
  rw [set]
  split
  · rename_i hexists
    rw [get_replace]
    by_cases hkey : key = key'
    · subst hkey
      have hsome : get key fields ≠ none := by
        obtain ⟨field, hfield, heq⟩ := hexists
        exact fun hnone => get_eq_none_iff.1 hnone field hfield heq
      obtain ⟨old, hold⟩ := ne_none_iff_exists'.1 hsome
      simp [hold]
    · cases get key' fields <;> simp [hkey]
  · rename_i hnot
    rw [get_append, get_cons, get_nil]
    by_cases hkey : key = key'
    · subst hkey
      have hnone : get key fields = none :=
        get_eq_none_iff.2 fun field hfield heq => hnot ⟨field, hfield, heq⟩
      simp [hnone]
    · simp [hkey]

theorem get_delete : get key' (delete key fields) =
    if key = key' then none else get key' fields := by
  induction fields with
  | nil => simp [delete]
  | cons field fields ih =>
    rw [delete] at ih ⊢
    by_cases hfield : field.1 = key
    · rw [filter_cons_of_neg (by simpa using hfield), ih, get_cons]
      split
      · rfl
      · rename_i hkey
        rw [if_neg fun heq => hkey (hfield.symm.trans heq)]
    · rw [filter_cons_of_pos (by simpa using hfield), get_cons, get_cons, ih]
      by_cases hkey : key = key'
      · subst hkey
        simp [hfield]
      · simp [hkey]

theorem get_put {value : Option Value} : get key' (put key value fields) =
    if key = key' then value else get key' fields := by
  cases value with
  | some value => exact get_set
  | none => exact get_delete

theorem get_assign (fields entries : Fields) :
    get key (assign fields entries) = (get key entries.reverse).or (get key fields) := by
  induction entries generalizing fields with
  | nil => rfl
  | cons entry entries ih =>
    have hstep : assign fields (entry :: entries) =
        assign (set entry.1 entry.2 fields) entries := rfl
    rw [hstep, ih, get_set, reverse_cons, get_append, get_cons, get_nil]
    cases get key entries.reverse with
    | some w => rfl
    | none => split <;> rfl

/-! ### Records whose keys differ -/

theorem map_fst_set : (set key value fields).map Prod.fst =
    if key ∈ fields.map Prod.fst then fields.map Prod.fst
    else fields.map Prod.fst ++ [key] := by
  have hexists : (∃ field ∈ fields, field.1 = key) ↔ key ∈ fields.map Prod.fst := by
    simp
  rw [set]
  split
  · rename_i hkey
    rw [if_pos (hexists.1 hkey), List.map_map]
    refine List.map_congr_left fun field _ => ?_
    rw [Function.comp_apply]
    split
    · rename_i heq
      exact heq.symm
    · rfl
  · rename_i hkey
    rw [if_neg fun h => hkey (hexists.2 h), List.map_append]
    rfl

theorem mem_set {field : String × Value} (h : field ∈ set key value fields) :
    field ∈ fields ∨ field = (key, value) := by
  rw [set] at h
  split at h
  · obtain ⟨old, hold, rfl⟩ := mem_map.1 h
    split
    · exact .inr rfl
    · exact .inl hold
  · rcases mem_append.1 h with hold | hnew
    · exact .inl hold
    · exact .inr (mem_singleton.1 hnew)

theorem mem_assign {fields entries : Fields} {field : String × Value}
    (h : field ∈ assign fields entries) : field ∈ fields ∨ field ∈ entries := by
  induction entries generalizing fields with
  | nil => exact .inl h
  | cons entry entries ih =>
    have hstep : field ∈ assign (set entry.1 entry.2 fields) entries := h
    rcases ih hstep with hold | hnew
    · rcases mem_set hold with hold | rfl
      · exact .inl hold
      · exact .inr (.head _)
    · exact .inr (.tail _ hnew)

theorem nodup_assign {fields : Fields} (entries : Fields) (h : (fields.map Prod.fst).Nodup) :
    ((assign fields entries).map Prod.fst).Nodup := by
  induction entries generalizing fields with
  | nil => exact h
  | cons entry entries ih =>
    have hset : ((set entry.1 entry.2 fields).map Prod.fst).Nodup := by
      rw [map_fst_set]
      split
      · exact h
      · rename_i hnot
        refine nodup_append.2 ⟨h, nodup_singleton _, fun a ha b hb => ?_⟩
        rw [mem_singleton.1 hb]
        rintro rfl
        exact hnot ha
    exact ih hset

theorem assign_of_nodup {fields entries : Fields}
    (h : ((fields ++ entries).map Prod.fst).Nodup) : assign fields entries = fields ++ entries := by
  induction entries generalizing fields with
  | nil => exact (append_nil fields).symm
  | cons entry entries ih =>
    have hnew : ¬∃ field ∈ fields, field.1 = entry.1 := by
      rintro ⟨field, hfield, heq⟩
      rw [map_append, map_cons] at h
      exact (nodup_append.1 h).2.2 _ (mem_map.2 ⟨field, hfield, rfl⟩) _ (.head _) heq
    have hset : set entry.1 entry.2 fields = fields ++ [entry] := by
      rw [set, if_neg hnew]
    have hstep : assign fields (entry :: entries) =
        assign (set entry.1 entry.2 fields) entries := rfl
    rw [hstep, hset, ih, append_assoc]
    · rfl
    · rw [append_assoc]
      exact h

theorem assign_nil {entries : Fields} (h : (entries.map Prod.fst).Nodup) :
    assign [] entries = entries :=
  (assign_of_nodup (by rw [nil_append]; exact h)).trans (nil_append entries)

/-! ### Records under other names -/

section

variable (name : String → String) (read : String → Value → Option Value)

/-- What a field gives to the record under other names. -/
def readField (field : String × Value) : Option (String × Value) :=
  (read (name field.1) field.2).map fun value => (name field.1, value)

/-- **A record under other names.** -/
def translate (fields : Fields) : Fields := assign [] (fields.filterMap (readField name read))

/-- What is read for a name: the last field that spells it. -/
def lastRead (target : String) : Fields → Option Value
  | [] => none
  | field :: fields =>
    (lastRead target fields).or (if name field.1 = target then read target field.2 else none)

/-- The fields that spell a name. -/
def spelled (target : String) (fields : Fields) : Fields :=
  fields.filter fun field => name field.1 = target

end

/-- The fields behind the last one of a key. -/
def behind (key : String) : Fields → Fields
  | [] => []
  | field :: fields =>
    if field.1 = key ∧ ∀ other ∈ fields, other.1 ≠ key then fields else behind key fields

section

variable {name : String → String} {read : String → Value → Option Value} {target : String}

theorem behind_of_forall_ne (h : ∀ field ∈ fields, field.1 ≠ key) : behind key fields = [] := by
  induction fields with
  | nil => rfl
  | cons field fields ih =>
    rw [behind, if_neg fun hboth => h field (.head _) hboth.1]
    exact ih fun other hother => h other (.tail _ hother)

theorem behind_cons_self {field : String × Value} (hkey : field.1 = key)
    (hrest : ∀ other ∈ fields, other.1 ≠ key) : behind key (field :: fields) = fields := by
  rw [behind, if_pos ⟨hkey, hrest⟩]

theorem behind_cons_of_exists (field : String × Value) (h : ∃ other ∈ fields, other.1 = key) :
    behind key (field :: fields) = behind key fields := by
  obtain ⟨other, hother, heq⟩ := h
  rw [behind, if_neg fun hboth => hboth.2 other hother heq]

theorem ne_of_mem_behind {field : String × Value} (h : field ∈ behind key fields) :
    field.1 ≠ key := by
  induction fields with
  | nil => cases h
  | cons first fields ih =>
    rw [behind] at h
    split at h
    · rename_i hboth
      exact hboth.2 field h
    · exact ih h

/-- **The last field that spells a name is read.** -/
theorem get_translate (fields : Fields) :
    get target (translate name read fields) = lastRead name read target fields := by
  rw [translate, get_assign, get_nil, or_none]
  induction fields with
  | nil => rfl
  | cons field fields ih =>
    rw [filterMap_cons, lastRead, ← ih, readField]
    cases hread : read (name field.1) field.2 with
    | none =>
      rw [map_none]
      by_cases hname : name field.1 = target
      · rw [if_pos hname, ← hname, hread, or_none]
      · rw [if_neg hname, or_none]
    | some value =>
      rw [map_some, reverse_cons, get_append, get_cons, get_nil]
      by_cases hname : name field.1 = target
      · subst hname
        rw [if_pos rfl, if_pos rfl, hread]
      · rw [if_neg hname, if_neg hname]

theorem lastRead_cons (field : String × Value) (fields : Fields) :
    lastRead name read target (field :: fields) = (lastRead name read target fields).or
      (if name field.1 = target then read target field.2 else none) := rfl

theorem lastRead_append (l l' : Fields) :
    lastRead name read target (l ++ l') =
      (lastRead name read target l').or (lastRead name read target l) := by
  induction l with
  | nil => simp [lastRead]
  | cons field l ih => rw [List.cons_append, lastRead_cons, ih, lastRead_cons, Option.or_assoc]

theorem lastRead_of_forall_ne (h : ∀ field ∈ fields, name field.1 ≠ target) :
    lastRead name read target fields = none := by
  induction fields with
  | nil => rfl
  | cons field fields ih =>
    rw [lastRead_cons, ih fun other hother => h other (.tail _ hother), if_neg (h field (.head _))]
    rfl

theorem lastRead_spelled (fields : Fields) :
    lastRead name read target (spelled name target fields) = lastRead name read target fields := by
  induction fields with
  | nil => rfl
  | cons field fields ih =>
    rw [spelled] at ih ⊢
    by_cases hname : name field.1 = target
    · rw [filter_cons_of_pos (by simpa using hname), lastRead_cons, lastRead_cons, ih]
    · rw [filter_cons_of_neg (by simpa using hname), lastRead_cons, ih, if_neg hname, or_none]

/-! ### Fields that spell a name, after a change -/

theorem spelled_set : spelled name target (set key value fields) =
    if name key = target then set key value (spelled name target fields)
    else spelled name target fields := by
  have hmap : spelled name target
      (fields.map fun field => if field.1 = key then (key, value) else field) =
      (spelled name target fields).map fun field =>
        if field.1 = key then (key, value) else field := by
    induction fields with
    | nil => rfl
    | cons field fields ih =>
      rw [spelled] at ih ⊢
      rw [spelled, map_cons, filter_cons, filter_cons, ih]
      by_cases hfield : field.1 = key
      · subst hfield
        by_cases hname : name field.1 = target <;> simp [spelled, hname]
      · by_cases hname : name field.1 = target <;> simp [spelled, hname, hfield]
  by_cases hname : name key = target
  · rw [if_pos hname, set, set]
    have hexists : (∃ field ∈ spelled name target fields, field.1 = key) ↔
        ∃ field ∈ fields, field.1 = key := by
      constructor
      · rintro ⟨field, hfield, hkey⟩
        exact ⟨field, (List.mem_filter.1 hfield).1, hkey⟩
      · rintro ⟨field, hfield, rfl⟩
        exact ⟨field, List.mem_filter.2 ⟨hfield, by simpa using hname⟩, rfl⟩
    by_cases hold : ∃ field ∈ fields, field.1 = key
    · rw [if_pos hold, if_pos (hexists.2 hold), hmap]
    · rw [if_neg hold, if_neg fun h => hold (hexists.1 h), spelled, filter_append]
      simp [spelled, hname]
  · rw [if_neg hname, set]
    split
    · -- the fields of the key do not spell the name
      rw [hmap]
      refine (map_congr_left fun field hfield => ?_).trans (map_id _)
      have hspells : name field.1 = target := by simpa using (List.mem_filter.1 hfield).2
      exact if_neg fun hkey : field.1 = key => hname (hkey ▸ hspells)
    · rw [spelled, filter_append]
      simp [spelled, hname]

theorem spelled_delete : spelled name target (delete key fields) =
    if name key = target then delete key (spelled name target fields)
    else spelled name target fields := by
  split
  · rw [spelled, delete, delete, spelled, List.filter_comm]
  · rename_i hname
    rw [spelled, delete, List.filter_filter]
    refine List.filter_congr fun field _ => ?_
    by_cases hspells : name field.1 = target
    · have hkey : field.1 ≠ key := fun hkey => hname (hkey ▸ hspells)
      simp [hspells, hkey]
    · simp [hspells]

theorem spelled_put {value : Option Value} : spelled name target (put key value fields) =
    if name key = target then put key value (spelled name target fields)
    else spelled name target fields := by
  cases value with
  | some value => exact spelled_set
  | none => exact spelled_delete

theorem spelled_assign (fields entries : Fields) :
    spelled name target (assign fields entries) =
      assign (spelled name target fields) (spelled name target entries) := by
  induction entries generalizing fields with
  | nil => rfl
  | cons entry entries ih =>
    have hstep : assign fields (entry :: entries) =
        assign (set entry.1 entry.2 fields) entries := rfl
    rw [hstep, ih, spelled_set]
    by_cases hname : name entry.1 = target
    · have hcons : spelled name target (entry :: entries) = entry :: spelled name target entries :=
        filter_cons_of_pos (by simpa using hname)
      rw [if_pos hname, hcons]
      rfl
    · have hcons : spelled name target (entry :: entries) = spelled name target entries :=
        filter_cons_of_neg (by simpa using hname)
      rw [if_neg hname, hcons]

theorem spelled_behind (hname : name key = target) (fields : Fields) :
    spelled name target (behind key fields) = behind key (spelled name target fields) := by
  induction fields with
  | nil => rfl
  | cons field fields ih =>
    have hmem : ∀ {other : String × Value}, other ∈ fields → other.1 = key →
        other ∈ spelled name target fields := by
      rintro other hother rfl
      exact List.mem_filter.2 ⟨hother, by simpa using hname⟩
    have hcons : name field.1 = target →
        spelled name target (field :: fields) = field :: spelled name target fields :=
      fun hspells => filter_cons_of_pos (by simpa using hspells)
    by_cases hrest : ∃ other ∈ fields, other.1 = key
    · rw [behind_cons_of_exists _ hrest, ih]
      by_cases hspells : name field.1 = target
      · obtain ⟨other, hother, heq⟩ := hrest
        rw [hcons hspells, behind_cons_of_exists _ ⟨other, hmem hother heq, heq⟩]
      · rw [show spelled name target (field :: fields) = spelled name target fields from
          filter_cons_of_neg (by simpa using hspells)]
    · have hnone : ∀ other ∈ fields, other.1 ≠ key :=
        fun other hother heq => hrest ⟨other, hother, heq⟩
      have hnone' : ∀ other ∈ spelled name target fields, other.1 ≠ key :=
        fun other hother => hnone other (List.mem_filter.1 hother).1
      by_cases hkey : field.1 = key
      · rw [behind_cons_self hkey hnone, hcons (hkey ▸ hname), behind_cons_self hkey hnone']
      · rw [behind_of_forall_ne, behind_of_forall_ne]
        · rfl
        · intro other hother
          rcases mem_cons.1 (List.mem_filter.1 hother).1 with rfl | hother
          · exact hkey
          · exact hnone other hother
        · intro other hother
          rcases mem_cons.1 hother with rfl | hother
          · exact hkey
          · exact hnone other hother

theorem get_spelled (hname : name key = target) (fields : Fields) :
    get key (spelled name target fields) = get key fields := by
  induction fields with
  | nil => rfl
  | cons field fields ih =>
    by_cases hspells : name field.1 = target
    · have hcons : spelled name target (field :: fields) = field :: spelled name target fields :=
        filter_cons_of_pos (by simpa using hspells)
      rw [hcons, get_cons, get_cons, ih]
    · have hcons : spelled name target (field :: fields) = spelled name target fields :=
        filter_cons_of_neg (by simpa using hspells)
      rw [hcons, get_cons, ih, if_neg fun h : field.1 = key => hspells (h ▸ hname)]

/-! ### What is read after a change -/

/-- **A key that was set is read, unless the name is spelled again behind it.** -/
theorem lastRead_set (hname : name key = target) (hread : read target value = some w) :
    lastRead name read target (set key value fields) =
      some ((lastRead name read target (behind key fields)).getD w) := by
  rw [set]
  split
  · rename_i hexists
    induction fields with
    | nil => simp at hexists
    | cons field fields ih =>
      rw [map_cons, lastRead_cons]
      by_cases hrest : ∃ other ∈ fields, other.1 = key
      · rw [ih hrest, behind_cons_of_exists _ hrest, some_or]
      · have hnone : ∀ other ∈ fields, other.1 ≠ key :=
          fun other hother heq => hrest ⟨other, hother, heq⟩
        have hfield : field.1 = key := by
          obtain ⟨other, hother, heq⟩ := hexists
          rcases mem_cons.1 hother with h | hother
          · exact h ▸ heq
          · exact absurd heq (hnone other hother)
        have hsame : (fields.map fun field => if field.1 = key then (key, value) else field) =
            fields :=
          (map_congr_left fun other hother => if_neg (hnone other hother)).trans (map_id _)
        rw [hsame, behind_cons_self hfield hnone, if_pos hfield, if_pos hname, hread]
        cases lastRead name read target fields <;> rfl
  · rename_i hnot
    have hbehind : behind key fields = [] :=
      behind_of_forall_ne fun field hfield heq => hnot ⟨field, hfield, heq⟩
    rw [lastRead_append, hbehind, lastRead_cons, if_pos hname, hread]
    rfl

theorem lastRead_put_of_ne {value : Option Value} (hname : name key ≠ target) :
    lastRead name read target (put key value fields) = lastRead name read target fields := by
  rw [← lastRead_spelled, spelled_put, if_neg hname, lastRead_spelled]

theorem lastRead_put_put {value value' : Option Value} (hname : name key' ≠ target) :
    lastRead name read target (put key value (put key' value' fields)) =
      lastRead name read target (put key value fields) := by
  rw [← lastRead_spelled, spelled_put, spelled_put, if_neg hname, ← spelled_put, lastRead_spelled]

/-! ### Records that are written under other names -/

variable {spell : String → String} {write : String → Value → Value} {back : Value → Value}

section

variable (s : Fields) (hnodup : (s.map Prod.fst).Nodup)
  (hname : ∀ entry ∈ s, name (spell entry.1) = entry.1)

include hnodup hname

theorem spelled_map :
    spelled name target (s.map fun entry => (spell entry.1, write entry.1 entry.2)) =
      (get target s).toList.map fun value => (spell target, write target value) := by
  induction s with
  | nil => rfl
  | cons entry s ih =>
    obtain ⟨hnot, hnodup⟩ := nodup_cons.1 hnodup
    have hrest := ih hnodup fun other hother => hname other (.tail _ hother)
    have hentry : name (spell entry.1) = entry.1 := hname entry (.head _)
    rw [spelled] at hrest ⊢
    rw [map_cons, get_cons]
    by_cases hkey : entry.1 = target
    · subst hkey
      have hnone : get entry.1 s = none := by
        refine get_eq_none_iff.2 fun other hother heq => hnot ?_
        exact mem_map.2 ⟨other, hother, heq⟩
      rw [filter_cons_of_pos (by simpa using hentry), hrest, hnone, if_pos rfl]
      rfl
    · have hne : ¬name (spell entry.1) = target := by
        rw [hentry]
        exact hkey
      rw [filter_cons_of_neg (by simpa using hne), hrest, if_neg hkey]

/-- **A record that was written over another one, under other names.** A field that it has is read,
unless its name is spelled again behind; and what it does not have is read from the other one. -/
theorem lastRead_assign
    (hread : ∀ value ∈ get target s, read target (write target value) = some (back value)) :
    lastRead name read target
        (assign fields (s.map fun entry => (spell entry.1, write entry.1 entry.2))) =
      match get target s with
      | none => lastRead name read target fields
      | some value => some
          ((lastRead name read target (behind (spell target) fields)).getD (back value)) := by
  rw [← lastRead_spelled, spelled_assign, spelled_map s hnodup hname]
  cases hvalue : get target s with
  | none => exact lastRead_spelled fields
  | some value =>
    have hspell : name (spell target) = target := hname _ (mem_of_get hvalue)
    have hset : assign (spelled name target fields)
        ((some value).toList.map fun value => (spell target, write target value)) =
        set (spell target) (write target value) (spelled name target fields) := rfl
    rw [hset, lastRead_set hspell (hread value hvalue), ← spelled_behind hspell, lastRead_spelled]

end

/-- What is read under a name depends on the name alone, apart from the field. -/
theorem lastRead_some (f : String → Value → Value) (fields : Fields) :
    lastRead name (fun key v => some (f key v)) target fields =
      (lastRead name (fun _ v => some v) target fields).map (f target) := by
  induction fields with
  | nil => rfl
  | cons field fields ih =>
    rw [lastRead_cons, lastRead_cons, ih]
    cases lastRead name (fun _ v => some v) target fields with
    | some v => rfl
    | none => split <;> rfl

/-! ### Keys that are put one after the other -/

/-- Every key is put, to what is made of its old value. -/
def applyWrites (fields : Fields) (writes : List (String × (Option Value → Option Value))) :
    Fields :=
  writes.foldl (fun fields write => put write.1 (write.2 (get write.1 fields)) fields) fields

/-- **Only the keys that spell a name matter to it.** -/
theorem spelled_applyWrites (fields : Fields)
    (writes : List (String × (Option Value → Option Value))) :
    spelled name target (applyWrites fields writes) =
      applyWrites (spelled name target fields)
        (writes.filter fun write => name write.1 = target) := by
  induction writes generalizing fields with
  | nil => rfl
  | cons write writes ih =>
    have hstep : applyWrites fields (write :: writes) =
        applyWrites (put write.1 (write.2 (get write.1 fields)) fields) writes := rfl
    rw [hstep, ih, spelled_put]
    by_cases hname : name write.1 = target
    · rw [if_pos hname, filter_cons_of_pos (by simpa using hname), ← get_spelled hname fields]
      rfl
    · rw [if_neg hname, filter_cons_of_neg (by simpa using hname)]

theorem translate_id (f : Value → Value) (hnodup : (fields.map Prod.fst).Nodup) :
    translate id (fun _ v => some (f v)) fields = fields.map fun field => (field.1, f field.2) := by
  have hmap : fields.filterMap (readField id fun _ v => some (f v)) =
      fields.map fun field => (field.1, f field.2) := by
    rw [← List.filterMap_eq_map]
    rfl
  rw [translate, hmap, assign_nil]
  rw [List.map_map]
  exact hnodup

end

end LibRecords
