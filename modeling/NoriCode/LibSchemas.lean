/-
**Schemas: parsers of untyped values.**

A schema accepts a value or rejects it, and what it accepts it makes into a value of the right form:
an object loses the fields that its shape does not have, gets the defaults of those that are
missing, and has its fields in the order of the shape.  What a schema has made it accepts as it is.

Main definitions:

* `LibSchemas.Parser` — a schema;
* `LibSchemas.Field`, `LibSchemas.parseFields`, `LibSchemas.object` — objects of a shape;
* `LibSchemas.Stable` — what a schema has made it accepts as it is.

Main results:

* `LibSchemas.parseFields_eq_some_iff` — **what an object is made into, field by field**;
* `LibSchemas.stable_object`, `LibSchemas.stable_record`, `LibSchemas.stable_array` — **schemas are
  stable**.
-/

import NoriCode.LibRecords

namespace LibSchemas

open LibRecords List Option

/-- A schema: what a value is made into, if it is accepted. -/
abbrev Parser := Value → Option Value

/-! ### Schemas of single values -/

def boolean : Parser
  | .bool b => some (.bool b)
  | _ => none

/-- Numbers in a range. -/
def number (accepts : ℚ → Bool) : Parser
  | .num q => if accepts q then some (.num q) else none
  | _ => none

/-- Texts, in a normal form. -/
def text (normal : String → Option String) : Parser
  | .str s => (normal s).map .str
  | _ => none

def unknown : Parser := some

/-- A value, or `null`. -/
def nullable (p : Parser) : Parser
  | .null => some .null
  | v => p v

def array (p : Parser) : Parser
  | .arr l => (l.mapM p).map .arr
  | _ => none

/-- Objects with any keys. -/
def record (key : String → Bool) (p : Parser) : Parser
  | .obj l => (l.mapM fun entry => if key entry.1 then (p entry.2).map fun v => (entry.1, v)
      else none).map fun entries => .obj (assign [] entries)
  | _ => none

/-! ### Objects of a shape -/

inductive Presence where
  | required
  | optional
  /-- A field that is missing gets a value. -/
  | default (value : Value)

structure Field where
  key : String
  parse : Parser
  presence : Presence

def required (key : String) (p : Parser) : Field := ⟨key, p, .required⟩

def optional (key : String) (p : Parser) : Field := ⟨key, p, .optional⟩

def withDefault (key : String) (p : Parser) (value : Value) : Field := ⟨key, p, .default value⟩

@[simp] theorem required_key (key : String) (p : Parser) : (required key p).key = key := rfl

@[simp] theorem optional_key (key : String) (p : Parser) : (optional key p).key = key := rfl

@[simp] theorem withDefault_key (key : String) (p : Parser) (value : Value) :
    (withDefault key p value).key = key := rfl

/-- What a field is made into. -/
def Field.parse? (field : Field) : Option Value → Option (Option Value)
  | some v => (field.parse v).map some
  | none =>
    match field.presence with
    | .required => none
    | .optional => some none
    | .default value => some (some value)

/-- **What an object is made into.** -/
def parseFields (shape : List Field) (fields : Fields) : Option Fields :=
  match shape with
  | [] => some []
  | field :: shape =>
    (field.parse? (get field.key fields)).bind fun value? =>
      (parseFields shape fields).map fun rest =>
        (value?.map fun value => (field.key, value)).toList ++ rest

def object (shape : List Field) : Parser := fun v =>
  v.entries?.bind fun fields => (parseFields shape fields).map .obj

/-- An object that has no fields but those of the shape. -/
def strictObject (shape : List Field) : Parser := fun v =>
  v.entries?.bind fun fields =>
    if ∀ entry ∈ fields, entry.1 ∈ shape.map Field.key then (parseFields shape fields).map .obj
    else none

/-- Every field may be missing. A default stays. -/
def partialShape (shape : List Field) : List Field :=
  shape.map fun field => { field with
    presence := match field.presence with
      | .default value => .default value
      | _ => .optional }

/-- Fields of a shape are replaced. -/
def extend (shape fields : List Field) : List Field :=
  shape.map fun field => (fields.find? fun other => other.key = field.key).getD field

/-! ### What an object is made into -/

variable {shape : List Field} {fields result : Fields} {p : Parser}

/-- The fields of a shape, as an object. -/
def build (shape : List Field) (value? : String → Option Value) : Fields :=
  shape.flatMap fun field => ((value? field.key).map fun value => (field.key, value)).toList

variable {value? : String → Option Value} {key : String}

theorem get_build :
    get key (build shape value?) = if key ∈ shape.map Field.key then value? key else none := by
  induction shape with
  | nil => rfl
  | cons field shape ih =>
    rw [build] at ih ⊢
    rw [flatMap_cons, get_append, ih, map_cons]
    by_cases hkey : field.key = key
    · subst hkey
      rw [if_pos mem_cons_self]
      cases hvalue : value? field.key with
      | none => simp
      | some value => simp [get_cons]
    · have hhead : get key ((value? field.key).map fun value => (field.key, value)).toList =
          none := by
        cases value? field.key with
        | none => rfl
        | some value => simp [get_cons, hkey]
      have hmem : key ∈ field.key :: shape.map Field.key ↔ key ∈ shape.map Field.key := by
        rw [mem_cons, or_iff_right fun heq => hkey heq.symm]
      rw [hhead, none_or]
      simp [hmem]

theorem build_congr {value?' : String → Option Value}
    (h : ∀ field ∈ shape, value? field.key = value?' field.key) :
    build shape value? = build shape value?' := by
  rw [build, build, flatMap_congr fun field hfield => by rw [h field hfield]]

theorem parseFields_of_forall
    (h : ∀ field ∈ shape, field.parse? (get field.key fields) = some (value? field.key)) :
    parseFields shape fields = some (build shape value?) := by
  induction shape with
  | nil => rfl
  | cons field shape ih =>
    rw [parseFields, h field (.head _), ih fun other hother => h other (.tail _ hother)]
    rfl

theorem exists_parseFields
    (h : ∀ field ∈ shape, ∃ value?, field.parse? (get field.key fields) = some value?) :
    ∃ result, parseFields shape fields = some result := by
  induction shape with
  | nil => exact ⟨[], rfl⟩
  | cons field shape ih =>
    obtain ⟨value?, hvalue⟩ := h field (.head _)
    obtain ⟨rest, hrest⟩ := ih fun other hother => h other (.tail _ hother)
    rw [parseFields, hvalue, hrest]
    exact ⟨_, rfl⟩

section

variable (hnodup : (shape.map Field.key).Nodup)

include hnodup

theorem forall_of_parseFields (h : parseFields shape fields = some result) :
    result = build shape (fun key => get key result) ∧
      ∀ field ∈ shape, field.parse? (get field.key fields) = some (get field.key result) := by
  induction shape generalizing result with
  | nil =>
    cases h
    exact ⟨rfl, fun field hfield => absurd hfield not_mem_nil⟩
  | cons field shape ih =>
    obtain ⟨hnot, hnodup⟩ := nodup_cons.1 hnodup
    obtain ⟨value?, hvalue, h⟩ := bind_eq_some_iff.1 h
    obtain ⟨rest, hrest, rfl⟩ := map_eq_some_iff.1 h
    obtain ⟨hbuild, hfields⟩ := ih hnodup hrest
    have hhead : get field.key
        ((value?.map fun value => (field.key, value)).toList ++ rest) = value? := by
      rw [get_append, hbuild, get_build, if_neg hnot, or_none]
      cases value? with
      | none => rfl
      | some value => simp [get_cons]
    have htail : ∀ other ∈ shape, get other.key
        ((value?.map fun value => (field.key, value)).toList ++ rest) = get other.key rest := by
      intro other hother
      have hne : field.key ≠ other.key := fun heq => hnot (mem_map.2 ⟨other, hother, heq.symm⟩)
      rw [get_append]
      cases value? with
      | none => rfl
      | some value => simp [get_cons, hne]
    refine ⟨?_, fun other hother => ?_⟩
    · have hrest' : build shape (fun key => get key
          ((value?.map fun value => (field.key, value)).toList ++ rest)) =
          build shape fun key => get key rest := build_congr htail
      calc (value?.map fun value => (field.key, value)).toList ++ rest
          = (value?.map fun value => (field.key, value)).toList ++
              build shape (fun key => get key rest) := by rw [← hbuild]
        _ = build (field :: shape) fun key => get key
              ((value?.map fun value => (field.key, value)).toList ++ rest) := by
            rw [← hrest', build, build, flatMap_cons, hhead]
    · rcases mem_cons.1 hother with rfl | hother
      · rw [hhead, hvalue]
      · rw [htail other hother, hfields other hother]

/-- **What an object is made into, field by field.** -/
theorem parseFields_eq_some_iff (hresult : parseFields shape result = some result) :
    parseFields shape fields = some result ↔
      ∀ field ∈ shape, field.parse? (get field.key fields) = some (get field.key result) := by
  refine ⟨fun h => (forall_of_parseFields hnodup h).2, fun h => ?_⟩
  have hbuild : parseFields shape fields = some (build shape fun key => get key result) :=
    parseFields_of_forall h
  rw [hbuild, ← (forall_of_parseFields hnodup hresult).1]

theorem mem_of_parseFields (h : parseFields shape fields = some result)
    (hkey : key ∈ result.map Prod.fst) : key ∈ shape.map Field.key := by
  rw [(forall_of_parseFields hnodup h).1] at hkey
  obtain ⟨entry, hentry, rfl⟩ := mem_map.1 hkey
  obtain ⟨field, hfield, hentry⟩ := mem_flatMap.1 hentry
  obtain ⟨value, -, rfl⟩ := map_eq_some_iff.1 (mem_toList.1 hentry)
  exact mem_map.2 ⟨field, hfield, rfl⟩

theorem nodup_of_parseFields (h : parseFields shape fields = some result) :
    (result.map Prod.fst).Nodup := by
  rw [(forall_of_parseFields hnodup h).1]
  have hsublist : ∀ value? : String → Option Value,
      ((build shape value?).map Prod.fst).Sublist (shape.map Field.key) := by
    intro value?
    clear hnodup h
    induction shape with
    | nil => exact List.Sublist.slnil
    | cons field shape ih =>
      rw [build] at ih ⊢
      rw [flatMap_cons, map_append, map_cons]
      cases value? field.key with
      | none => exact ih.cons _
      | some value => exact ih.cons_cons _
  exact (hsublist _).nodup hnodup

end

/-! ### What a schema has made it accepts as it is -/

def Stable (p : Parser) : Prop := ∀ v w, p v = some w → p w = some w

/-- Also the default of a field is accepted as it is. -/
structure Field.Stable (field : Field) : Prop where
  parse : LibSchemas.Stable field.parse
  default : ∀ value, field.presence = .default value → field.parse value = some value

@[simp] theorem stable_required : (required key p).Stable ↔ Stable p :=
  ⟨fun h => h.parse, fun h => ⟨h, fun value hvalue => by cases hvalue⟩⟩

@[simp] theorem stable_optional : (optional key p).Stable ↔ Stable p :=
  ⟨fun h => h.parse, fun h => ⟨h, fun value hvalue => by cases hvalue⟩⟩

theorem stable_withDefault {value : Value} (hp : Stable p)
    (hvalue : p value = some value) : (withDefault key p value).Stable := by
  refine ⟨hp, fun value' hvalue' => ?_⟩
  obtain rfl : value = value' := by
    injection hvalue'
  exact hvalue

theorem stable_partialShape (h : ∀ field ∈ shape, field.Stable) :
    ∀ field ∈ partialShape shape, field.Stable := by
  intro field hfield
  obtain ⟨old, hold, rfl⟩ := mem_map.1 hfield
  refine ⟨(h old hold).parse, fun value hvalue => ?_⟩
  refine (h old hold).default value ?_
  cases hpresence : old.presence with
  | required | optional => simp [hpresence] at hvalue
  | default value' => simpa [hpresence] using hvalue

theorem map_key_partialShape (shape : List Field) :
    (partialShape shape).map Field.key = shape.map Field.key := by
  rw [partialShape, List.map_map]
  rfl

@[simp] theorem stable_boolean : Stable boolean := by
  intro v w h
  cases v <;> cases h
  rfl

@[simp] theorem stable_number (accepts : ℚ → Bool) : Stable (number accepts) := by
  intro v w h
  cases v with
  | num q =>
    rw [number] at h
    split at h <;> cases h
    rename_i haccepts
    rw [number, if_pos haccepts]
  | _ => cases h

theorem stable_text {normal : String → Option String}
    (hnormal : ∀ s t, normal s = some t → normal t = some t) : Stable (text normal) := by
  intro v w h
  cases v with
  | str s =>
    obtain ⟨t, ht, rfl⟩ := map_eq_some_iff.1 h
    rw [text, hnormal s t ht]
    rfl
  | _ => cases h

variable {α β : Type}

@[simp] theorem stable_unknown : Stable unknown := by
  intro v w h
  cases h
  rfl

theorem mapM_eq_some_iff {f : α → Option β} {l : List α} {l' : List β} :
    l.mapM f = some l' ↔ List.Forall₂ (fun a b => f a = some b) l l' := by
  induction l generalizing l' with
  | nil => simp [eq_comm]
  | cons a l ih =>
    simp only [List.mapM_cons, Option.bind_eq_bind, Option.bind_eq_some_iff, Option.pure_def,
      some.injEq]
    constructor
    · rintro ⟨b, hb, rest, hrest, rfl⟩
      exact List.Forall₂.cons hb (ih.1 hrest)
    · intro h
      cases h with
      | cons hb hrest => exact ⟨_, hb, _, ih.2 hrest, rfl⟩

theorem forall₂_right {R : α → β → Prop} {S : β → β → Prop} {l : List α}
    {l' : List β} (h : List.Forall₂ R l l') (himp : ∀ a b, R a b → S b b) :
    List.Forall₂ S l' l' := by
  induction h with
  | nil => exact List.Forall₂.nil
  | cons hab _ ih => exact List.Forall₂.cons (himp _ _ hab) ih

theorem stable_array (hp : Stable p) : Stable (array p) := by
  intro v w h
  cases v with
  | arr l =>
    obtain ⟨l', hl, rfl⟩ := map_eq_some_iff.1 h
    have hself : l'.mapM p = some l' :=
      mapM_eq_some_iff.2 (forall₂_right (mapM_eq_some_iff.1 hl) fun a b hab => hp a b hab)
    rw [array, hself]
    rfl
  | _ => cases h

theorem exists_of_forall₂ {R : α → β → Prop} {l : List α} {l' : List β} {b : β}
    (h : List.Forall₂ R l l') (hb : b ∈ l') : ∃ a ∈ l, R a b := by
  induction h with
  | nil => cases hb
  | cons hab _ ih =>
    rcases mem_cons.1 hb with rfl | hb
    · exact ⟨_, (.head _), hab⟩
    · obtain ⟨a, ha, hab⟩ := ih hb
      exact ⟨a, .tail _ ha, hab⟩

theorem record_eq_some {key : String → Bool} {v w : Value} (h : record key p v = some w) :
    ∃ entries : Fields, w = .obj entries ∧ (entries.map Prod.fst).Nodup ∧
      ∀ entry ∈ entries, key entry.1 = true ∧ ∃ u, p u = some entry.2 := by
  cases v with
  | obj l =>
    obtain ⟨l', hl, rfl⟩ := map_eq_some_iff.1 h
    refine ⟨assign [] l', rfl, nodup_assign l' nodup_nil, fun entry hentry => ?_⟩
    have hmem : entry ∈ l' := (mem_assign hentry).resolve_left not_mem_nil
    obtain ⟨old, -, hold⟩ := exists_of_forall₂ (mapM_eq_some_iff.1 hl) hmem
    split at hold
    · rename_i hkey
      obtain ⟨u, hu, rfl⟩ := map_eq_some_iff.1 hold
      exact ⟨hkey, old.2, hu⟩
    · cases hold
  | _ => cases h

/-- **What an object with any keys is made into, entry by entry.** -/
theorem record_eq_some_iff {key : String → Bool} {l entries : Fields}
    (hnodup : (entries.map Prod.fst).Nodup) (hkeys : l.map Prod.fst = entries.map Prod.fst)
    (hkey : ∀ entry ∈ entries, key entry.1 = true) :
    record key p (.obj l) = some (.obj entries) ↔
      List.Forall₂ (fun entry entry' => p entry.2 = some entry'.2) l entries := by
  constructor
  · intro h
    obtain ⟨l', hl, hentries⟩ := map_eq_some_iff.1 h
    have hforall := mapM_eq_some_iff.1 hl
    have hkeys' : l'.map Prod.fst = l.map Prod.fst := by
      clear hl hentries h hkeys
      induction hforall with
      | nil => rfl
      | cons hab _ ih =>
        split at hab
        · obtain ⟨u, -, rfl⟩ := map_eq_some_iff.1 hab
          rw [map_cons, map_cons, ih]
        · cases hab
    have hassign : assign [] l' = l' := assign_nil (by rw [hkeys', hkeys]; exact hnodup)
    rw [hassign] at hentries
    obtain rfl : l' = entries := by
      injection hentries
    refine hforall.imp fun entry entry' hab => ?_
    split at hab
    · obtain ⟨u, hu, rfl⟩ := map_eq_some_iff.1 hab
      exact hu
    · cases hab
  · intro h
    have hall : List.Forall₂ (fun entry entry' =>
        (if key entry.1 then (p entry.2).map fun v => (entry.1, v) else none) = some entry')
        l entries := by
      clear hnodup
      induction h with
      | nil => exact List.Forall₂.nil
      | @cons entry entry' l entries hab _ ih =>
        rw [map_cons, map_cons] at hkeys
        obtain ⟨hhead, htail⟩ := List.cons.inj hkeys
        refine List.Forall₂.cons ?_ (ih htail fun other hother => hkey other (.tail _ hother))
        rw [hhead, if_pos (hkey entry' (.head _)), hab]
        rfl
    rw [record, mapM_eq_some_iff.2 hall, map_some, assign_nil hnodup]

theorem record_unknown (l : Fields) :
    record (fun _ => true) unknown (.obj l) = some (.obj (assign [] l)) := by
  have hall : (l.mapM fun entry => if true = true then
      (unknown entry.2).map fun v => (entry.1, v) else none) = some l :=
    mapM_eq_some_iff.2 (forall₂_same.2 fun entry _ => rfl)
  rw [record, hall, map_some]

theorem stable_record (key : String → Bool) (hp : Stable p) : Stable (record key p) := by
  intro v w h
  obtain ⟨entries, rfl, hnodup, hentries⟩ := record_eq_some h
  refine (record_eq_some_iff hnodup rfl fun entry hentry => (hentries entry hentry).1).2 ?_
  refine forall₂_same.2 fun entry hentry => ?_
  obtain ⟨u, hu⟩ := (hentries entry hentry).2
  exact hp u entry.2 hu

theorem Field.Stable.parse? {field : Field} (h : field.Stable) {value? result? : Option Value}
    (hparse : field.parse? value? = some result?) : field.parse? result? = some result? := by
  cases value? with
  | some v =>
    obtain ⟨w, hw, rfl⟩ := map_eq_some_iff.1 hparse
    rw [Field.parse?, h.parse v w hw]
    rfl
  | none =>
    rw [Field.parse?] at hparse
    cases hpresence : field.presence with
    | required =>
      rw [hpresence] at hparse
      cases hparse
    | optional =>
      rw [hpresence] at hparse
      cases hparse
      rw [Field.parse?, hpresence]
    | default value =>
      rw [hpresence] at hparse
      cases hparse
      rw [Field.parse?, h.default value hpresence]
      rfl

variable (hnodup : (shape.map Field.key).Nodup) (hstable : ∀ field ∈ shape, field.Stable)

include hnodup hstable

/-- **What an object was made into is made into itself.** -/
theorem parseFields_of_parseFields (h : parseFields shape fields = some result) :
    parseFields shape result = some result := by
  obtain ⟨hbuild, hfields⟩ := forall_of_parseFields hnodup h
  have hself : parseFields shape result = some (build shape fun key => get key result) :=
    parseFields_of_forall fun field hfield =>
      (hstable field hfield).parse? (hfields field hfield)
  rw [hself, ← hbuild]

theorem stable_object : Stable (object shape) := by
  intro v w h
  obtain ⟨fields, -, h⟩ := bind_eq_some_iff.1 h
  obtain ⟨result, hresult, rfl⟩ := map_eq_some_iff.1 h
  have hself := parseFields_of_parseFields hnodup hstable hresult
  rw [object, Value.entries?, bind_some, hself]
  rfl

theorem stable_strictObject : Stable (strictObject shape) := by
  intro v w h
  obtain ⟨fields, -, h⟩ := bind_eq_some_iff.1 h
  split at h
  · obtain ⟨result, hresult, rfl⟩ := map_eq_some_iff.1 h
    have hself := parseFields_of_parseFields hnodup hstable hresult
    have hkeys : ∀ entry ∈ result, entry.1 ∈ shape.map Field.key := fun entry hentry =>
      mem_of_parseFields hnodup hresult (mem_map.2 ⟨entry, hentry, rfl⟩)
    rw [strictObject, Value.entries?, bind_some, if_pos hkeys, hself]
    rfl
  · cases h

end LibSchemas
