/-
**A section that is written and read back.**

A section is written over what the file has of it: its fields are set, with keys in snake case, and
the other fields of the file stay.  So a field that the section no longer has is read back from the
file, and a field that the file spells a second time, behind the key that is written, is read from
there.

Main definitions:

* `FieldKept`, `EntriesKept` — the file is in the way of no field.

Main results:

* `parse_setEntries_iff` — **when a section is read back**.
-/

import NoriCode.ConfigToml

namespace NoriCode

open LibRecords LibSchemas List Option

variable {shape : List Field} {raw s : Fields}

/-! ### Valid objects -/

variable {field : Field} {v : Value}

section

variable (hnodup : (shape.map Field.key).Nodup) (hs : parseFields shape s = some s)
  (hfield : field ∈ shape)

include hnodup hs hfield

theorem parse_of_get (hv : get field.key s = some v) : field.parse v = some v := by
  have hparse := (forall_of_parseFields hnodup hs).2 field hfield
  rw [hv] at hparse
  obtain ⟨w, hw, heq⟩ := map_eq_some_iff.1 hparse
  rwa [some.inj heq] at hw

theorem parse?_none_of_get (hnone : get field.key s = none) : field.parse? none = some none := by
  have hparse := (forall_of_parseFields hnodup hs).2 field hfield
  rwa [hnone] at hparse

theorem parse?_eq_none_iff (hnone : get field.key s = none) {value? : Option Value} :
    field.parse? value? = some none ↔ value? = none := by
  cases value? with
  | none => exact iff_of_true (parse?_none_of_get hnodup hs hfield hnone) rfl
  | some w =>
    refine iff_of_false (fun h => ?_) (some_ne_none w)
    obtain ⟨v, -, hv⟩ := map_eq_some_iff.1 h
    cases hv

end

theorem parse?_some_iff {w : Value} :
    field.parse? (some v) = some (some w) ↔ field.parse v = some w := by
  constructor
  · intro h
    obtain ⟨u, hu, heq⟩ := map_eq_some_iff.1 h
    rwa [some.inj heq] at hu
  · intro h
    rw [Field.parse?, h]
    rfl

variable {l : Fields}

theorem parseFields_congr {l' : Fields} (h : ∀ field ∈ shape, get field.key l = get field.key l') :
    parseFields shape l = parseFields shape l' := by
  induction shape with
  | nil => rfl
  | cons field shape ih =>
    rw [parseFields, parseFields, h field (.head _),
      ih fun other hother => h other (.tail _ hother)]

/-! ### Sections -/

/-- What the file's table has is in the way of no field that is written over it: a field that is
not there is not in the table either, under any spelling; and a spelling that comes behind the key
that is written has the same value. -/
def FieldKept (read : String → Value → Value) (raw s : Fields) (field : Field) : Prop :=
  match get field.key s with
  | none => lastRead snakeToCamel (fun key v => some (read key v)) field.key raw = none
  | some v => ∀ w, lastRead snakeToCamel (fun key v => some (read key v)) field.key
      (behind (camelToSnake field.key) raw) = some w → field.parse w = some v

def EntriesKept (read : String → Value → Value) (shape : List Field) (raw s : Fields) : Prop :=
  ∀ field ∈ shape, FieldKept read raw s field

section

variable (hnodup : (shape.map Field.key).Nodup) (hkeys : ∀ field ∈ shape, '_' ∉ field.key.toList)
  (hs : parseFields shape s = some s)

include hnodup hkeys hs

theorem lastRead_setEntries (read write : String → Value → Value) (target : String) :
    lastRead snakeToCamel (fun key v => some (read key v)) target (setEntries raw (.obj s) write) =
      match get target s with
      | none => lastRead snakeToCamel (fun key v => some (read key v)) target raw
      | some v => some ((lastRead snakeToCamel (fun key v => some (read key v)) target
          (behind (camelToSnake target) raw)).getD (read target (write target v))) := by
  have hname : ∀ entry ∈ s, snakeToCamel (camelToSnake entry.1) = entry.1 := by
    intro entry hentry
    obtain ⟨field, hfield, heq⟩ := mem_map.1
      (mem_of_parseFields hnodup hs (mem_map.2 ⟨entry, hentry, rfl⟩))
    exact snakeToCamel_camelToSnake (heq ▸ hkeys field hfield)
  exact lastRead_assign s (nodup_of_parseFields hnodup hs) hname fun v _ => rfl

/-- **When a section is read back.** -/
theorem parse_setEntries_iff (read write : String → Value → Value) :
    parseFields shape (translate snakeToCamel (fun key v => some (read key v))
        (setEntries raw (.obj s) write)) = some s ↔
      ∀ field ∈ shape, FieldKept read raw s field ∧
        ∀ v, get field.key s = some v →
          lastRead snakeToCamel (fun key v => some (read key v)) field.key
            (behind (camelToSnake field.key) raw) = none →
          field.parse (read field.key (write field.key v)) = some v := by
  rw [parseFields_eq_some_iff hnodup hs]
  refine forall₂_congr fun field hfield => ?_
  rw [get_translate, lastRead_setEntries hnodup hkeys hs, FieldKept]
  cases hv : get field.key s with
  | none =>
    rw [parse?_eq_none_iff hnodup hs hfield hv]
    exact ⟨fun h => ⟨h, fun v hv => (by cases hv)⟩, fun h => h.1⟩
  | some v =>
    rw [parse?_some_iff]
    cases lastRead snakeToCamel (fun key v => some (read key v)) field.key
        (behind (camelToSnake field.key) raw) with
    | none =>
      refine ⟨fun h => ⟨fun w hw => (by cases hw), fun v' hv' _ => ?_⟩, fun h => h.2 v rfl rfl⟩
      cases hv'
      exact h
    | some w =>
      refine ⟨fun h => ⟨fun w' hw' => ?_, fun v' _ hnone => (by cases hnone)⟩, fun h => h.1 w rfl⟩
      cases hw'
      exact h

theorem parse_setEntries_iff_kept {read write : String → Value → Value}
    (hvalue : ∀ field ∈ shape, ∀ v, field.parse v = some v →
      field.parse (read field.key (write field.key v)) = some v) :
    parseFields shape (translate snakeToCamel (fun key v => some (read key v))
        (setEntries raw (.obj s) write)) = some s ↔ EntriesKept read shape raw s := by
  rw [parse_setEntries_iff hnodup hkeys hs]
  refine forall₂_congr fun field hfield => and_iff_left fun v hv _ => ?_
  exact hvalue field hfield v (parse_of_get hnodup hs hfield hv)

end

theorem object_eq_self (h : object shape v = some v) :
    ∃ s, v = .obj s ∧ parseFields shape s = some s := by
  obtain ⟨fields, hfields, h⟩ := bind_eq_some_iff.1 h
  obtain ⟨result, hresult, rfl⟩ := map_eq_some_iff.1 h
  obtain rfl : result = fields := some.inj hfields
  exact ⟨result, rfl, hresult⟩

theorem object_obj_iff : object shape (.obj l) = some (.obj s) ↔ parseFields shape l = some s := by
  constructor
  · intro h
    obtain ⟨result, hresult, heq⟩ := map_eq_some_iff.1 h
    rw [hresult]
    exact congrArg some (by injection heq)
  · intro h
    rw [object, Value.entries?, bind_some, h]
    rfl

theorem object_transformPlainValue (hnodup : (shape.map Field.key).Nodup)
    (hkeys : ∀ field ∈ shape, '_' ∉ field.key.toList) (h : object shape v = some v) :
    object shape (transformPlainValue (.obj (setEntries [] v fun _ v => v))) = some v := by
  obtain ⟨s, rfl, hs⟩ := object_eq_self h
  refine object_obj_iff.2 ((parse_setEntries_iff_kept hnodup hkeys hs fun _ _ v hv => hv).2 ?_)
  intro field hfield
  rw [FieldKept]
  cases get field.key s with
  | none => rfl
  | some v => exact fun w hw => by cases hw

/-! ### Copies -/

theorem cloneFields_eq_map (l : Fields) :
    cloneFields l = l.map fun field => (field.1, cloneUnknown field.2) := by
  induction l with
  | nil => rfl
  | cons field l ih => rw [cloneFields, ih, map_cons, cloneField]

theorem cloneFields_of_forall (h : ∀ field ∈ l, cloneUnknown field.2 = field.2) :
    cloneFields l = l := by
  rw [cloneFields_eq_map]
  refine (map_congr_left fun field hfield => ?_).trans (map_id _)
  rw [h field hfield]
  rfl

theorem cloneUnknown_stringRecord (h : stringRecordSchema v = some v) : cloneUnknown v = v := by
  obtain ⟨entries, rfl, -, hentries⟩ := record_eq_some h
  rw [cloneUnknown, cloneFields_of_forall fun entry hentry => ?_]
  obtain ⟨u, hu⟩ := (hentries entry hentry).2
  cases u with
  | str s =>
    rw [← some.inj hu, cloneUnknown]
  | _ => cases hu

theorem cloneObjectValue_stringRecord (h : stringRecordSchema v = some v) :
    cloneObjectValue (cloneUnknown v) = v := by
  rw [cloneUnknown_stringRecord h, cloneObjectValue, cloneUnknown_stringRecord h, ite_self]

theorem parse_eq_of_mem (hnodup : (shape.map Field.key).Nodup) {other : Field}
    (hother : other ∈ shape) (hfield : field ∈ shape) (h : field.key = other.key) :
    field.parse = other.parse :=
  congrArg Field.parse (inj_on_of_nodup_map hnodup hfield hother h)

theorem entriesKept_nil (read : String → Value → Value) (shape : List Field) (s : Fields) :
    EntriesKept read shape [] s := by
  intro field _
  rw [FieldKept]
  cases get field.key s with
  | none => rfl
  | some v => exact fun w hw => by cases hw

/-! ### Providers and services -/

theorem oauthRefSchema_keys : ∀ field ∈ oauthRefSchema, '_' ∉ field.key.toList := by
  simp [oauthRefSchema]

theorem providerConfigSchema_keys : ∀ field ∈ providerConfigSchema, '_' ∉ field.key.toList := by
  simp [providerConfigSchema]

theorem moonshotServiceConfigSchema_keys :
    ∀ field ∈ moonshotServiceConfigSchema, '_' ∉ field.key.toList := by
  simp [moonshotServiceConfigSchema]

theorem parse_entryValue {cloned : List String}
    (hoauth : ∀ field ∈ shape, field.key = "oauth" → field.parse = object oauthRefSchema)
    (hcloned : ∀ field ∈ shape, field.key ∈ cloned → field.parse = stringRecordSchema) :
    ∀ field ∈ shape, ∀ v, field.parse v = some v → field.parse
      (transformEntryValue cloned field.key (entryValueToToml cloned field.key v)) = some v := by
  intro field hfield v hv
  rw [transformEntryValue, entryValueToToml]
  by_cases hkey : field.key = "oauth"
  · rw [hoauth field hfield hkey] at hv ⊢
    rw [if_pos hkey, if_pos hkey]
    exact object_transformPlainValue oauthRefSchema_nodup oauthRefSchema_keys hv
  · rw [if_neg hkey, if_neg hkey]
    by_cases hclone : field.key ∈ cloned
    · rw [hcloned field hfield hclone] at hv ⊢
      rw [if_pos hclone, if_pos hclone, cloneObjectValue_stringRecord hv]
      exact hv
    · rw [if_neg hclone, if_neg hclone]
      exact hv

/-- **When a provider is read back.** -/
theorem provider_iff {provider : Value} (rawProvider : Option Value)
    (h : object providerConfigSchema provider = some provider) :
    object providerConfigSchema
        (.obj (transformProviderData (providerToToml provider rawProvider))) = some provider ↔
      EntriesKept (transformEntryValue ["env", "customHeaders"]) providerConfigSchema
        (cloneRecord rawProvider) (entriesOf provider) := by
  obtain ⟨s, rfl, hs⟩ := object_eq_self h
  rw [object_obj_iff, transformProviderData, providerToToml]
  refine parse_setEntries_iff_kept providerConfigSchema_nodup providerConfigSchema_keys hs
    (parse_entryValue ?_ ?_)
  · intro field hfield hkey
    have hmem : optional "oauth" (object oauthRefSchema) ∈ providerConfigSchema := by
      simp [providerConfigSchema]
    exact parse_eq_of_mem providerConfigSchema_nodup hmem hfield hkey
  · intro field hfield hkey
    have hmem : optional "env" stringRecordSchema ∈ providerConfigSchema ∧
        optional "customHeaders" stringRecordSchema ∈ providerConfigSchema := by
      simp [providerConfigSchema]
    rcases mem_cons.1 hkey with henv | hkey
    · exact parse_eq_of_mem providerConfigSchema_nodup hmem.1 hfield henv
    · exact parse_eq_of_mem providerConfigSchema_nodup hmem.2 hfield (mem_singleton.1 hkey)

theorem service_back {service : Value}
    (h : object moonshotServiceConfigSchema service = some service) :
    object moonshotServiceConfigSchema
      (.obj (transformServiceData (entriesOf (serviceToToml service)))) = some service := by
  obtain ⟨s, rfl, hs⟩ := object_eq_self h
  rw [object_obj_iff, transformServiceData, serviceToToml]
  refine (parse_setEntries_iff_kept moonshotServiceConfigSchema_nodup
    moonshotServiceConfigSchema_keys hs (parse_entryValue ?_ ?_)).2 (entriesKept_nil _ _ _)
  · intro field hfield hkey
    have hmem : optional "oauth" (object oauthRefSchema) ∈ moonshotServiceConfigSchema := by
      simp [moonshotServiceConfigSchema]
    exact parse_eq_of_mem moonshotServiceConfigSchema_nodup hmem hfield hkey
  · intro field hfield hkey
    have hmem : optional "customHeaders" stringRecordSchema ∈ moonshotServiceConfigSchema := by
      simp [moonshotServiceConfigSchema]
    exact parse_eq_of_mem moonshotServiceConfigSchema_nodup hmem hfield (mem_singleton.1 hkey)

/-! ### Models -/

/-- What the reader makes of a value of a model. -/
def transformModelValue (key : String) (value : Value) : Value :=
  if key = "overrides" then transformPlainValue value else value

theorem get_transformModelData (data : Fields) (key : String) :
    get key (transformModelData data) =
      lastRead snakeToCamel (fun key v => some (transformModelValue key v)) key data := by
  rw [lastRead_some, ← get_translate, transformModelData, transformPlainObject]
  have hvalue : transformModelValue key =
      if key = "overrides" then transformPlainValue else id := by
    funext value
    rw [transformModelValue]
    split <;> rfl
  cases hoverrides : get "overrides" (translate snakeToCamel (fun _ v => some v) data) with
  | none =>
    rw [Option.bind_none]
    by_cases hkey : key = "overrides"
    · subst hkey
      rw [hoverrides]
      rfl
    · rw [hvalue, if_neg hkey, Option.map_id]
      rfl
  | some overrides =>
    rw [Option.bind_some, hvalue]
    cases hentries : overrides.entries? with
    | none =>
      by_cases hkey : key = "overrides"
      · subst hkey
        rw [if_pos rfl, hoverrides, Option.map_some, transformPlainValue, hentries]
      · rw [if_neg hkey, Option.map_id]
        rfl
    | some entries =>
      rw [get_set]
      by_cases hkey : key = "overrides"
      · subst hkey
        rw [if_pos rfl, if_pos rfl, hoverrides, Option.map_some, transformPlainValue, hentries]
      · rw [if_neg (Ne.symm hkey), if_neg hkey, Option.map_id]
        rfl

theorem modelAliasBaseSchema_keys : ∀ field ∈ modelAliasBaseSchema, '_' ∉ field.key.toList := by
  simp [modelAliasBaseSchema]

theorem modelAliasSchema_keys : ∀ field ∈ modelAliasSchema, '_' ∉ field.key.toList := by
  simp [modelAliasSchema, modelAliasBaseSchema]

theorem modelAliasOverrideSchema_keys :
    ∀ field ∈ modelAliasOverrideSchema, '_' ∉ field.key.toList := by
  intro field hfield
  obtain ⟨old, hold, rfl⟩ := mem_map.1 hfield
  exact modelAliasBaseSchema_keys old (mem_of_mem_filter hold)

variable {read : String → Value → Option Value} {target : String}

theorem lastRead_behind_self (htarget : ∀ c ∈ target.toList, c.isUpper = false) (fields : Fields) :
    lastRead snakeToCamel read target (behind target fields) = none :=
  lastRead_of_forall_ne fun _ hfield hname =>
    ne_of_mem_behind hfield (eq_of_snakeToCamel_eq htarget hname)

/-- What the file has of the overrides of a model. -/
def rawOverrides (rawModel : Option Value) : Fields :=
  cloneRecord ((rawModel.bind Value.entries?).bind fun raw => get "overrides" raw)

/-- **When a model is read back.** -/
theorem model_iff {model : Value} (rawModel : Option Value)
    (h : object modelAliasSchema model = some model) :
    object modelAliasSchema (.obj (transformModelData (modelToToml model rawModel))) = some model ↔
      EntriesKept transformModelValue modelAliasSchema (cloneRecord rawModel) (entriesOf model) ∧
        ∀ overrides ∈ get "overrides" (entriesOf model),
          EntriesKept (fun _ v => v) modelAliasOverrideSchema (rawOverrides rawModel)
            (entriesOf overrides) := by
  obtain ⟨s, rfl, hs⟩ := object_eq_self h
  have hread : parseFields modelAliasSchema (transformModelData (modelToToml (.obj s) rawModel)) =
      parseFields modelAliasSchema (translate snakeToCamel
        (fun key v => some (transformModelValue key v)) (modelToToml (.obj s) rawModel)) :=
    parseFields_congr fun field _ => by rw [get_transformModelData, get_translate]
  have hmem : optional "overrides" (object modelAliasOverrideSchema) ∈ modelAliasSchema :=
    mem_append_right _ (.head _)
  rw [object_obj_iff, hread, modelToToml,
    parse_setEntries_iff modelAliasSchema_nodup modelAliasSchema_keys hs]
  -- the overrides are read back when the file is in the way of none of them
  have hoverrides : ∀ v, get "overrides" s = some v →
      (object modelAliasOverrideSchema (transformModelValue "overrides"
        (if "overrides" = "overrides" ∧ isPlainObject v then
          .obj (modelOverridesToToml v ((rawModel.bind Value.entries?).bind fun raw =>
            get "overrides" raw)) else v)) = some v ↔
        EntriesKept (fun _ v => v) modelAliasOverrideSchema (rawOverrides rawModel)
          (entriesOf v)) := by
    intro v hv
    obtain ⟨o, rfl, ho⟩ := object_eq_self (parse_of_get modelAliasSchema_nodup hs hmem hv)
    rw [if_pos ⟨rfl, rfl⟩, transformModelValue, if_pos rfl, transformPlainValue, Value.entries?,
      object_obj_iff, transformPlainObject, modelOverridesToToml]
    exact parse_setEntries_iff_kept modelAliasOverrideSchema_nodup modelAliasOverrideSchema_keys ho
      fun _ _ v hv => hv
  constructor
  · intro hall
    refine ⟨fun field hfield => (hall field hfield).1, fun v hv => (hoverrides v hv).1 ?_⟩
    exact (hall _ hmem).2 v hv (lastRead_behind_self (by simp) _)
  · rintro ⟨hkept, hkeptOverrides⟩ field hfield
    refine ⟨hkept field hfield, fun v hv _ => ?_⟩
    by_cases hkey : field.key = "overrides"
    · have hparse : field.parse = object modelAliasOverrideSchema :=
        parse_eq_of_mem modelAliasSchema_nodup hmem hfield hkey
      rw [hkey] at hv
      rw [hparse, hkey]
      exact (hoverrides v hv).2 (hkeptOverrides v hv)
    · rw [if_neg fun hboth => hkey hboth.1, transformModelValue, if_neg hkey]
      exact parse_of_get modelAliasSchema_nodup hs hfield hv

/-! ### Sections with fixed fields -/

theorem plain_iff (hnodup : (shape.map Field.key).Nodup)
    (hkeys : ∀ field ∈ shape, '_' ∉ field.key.toList) {section' : Value}
    (h : object shape section' = some section') :
    object shape (.obj (transformPlainObject (setEntries raw section' fun _ v => v))) =
        some section' ↔
      EntriesKept (fun _ v => v) shape raw (entriesOf section') := by
  obtain ⟨s, rfl, hs⟩ := object_eq_self h
  rw [object_obj_iff, transformPlainObject]
  exact parse_setEntries_iff_kept hnodup hkeys hs fun _ _ v hv => hv

theorem thinkingConfigSchema_keys : ∀ field ∈ thinkingConfigSchema, '_' ∉ field.key.toList := by
  simp [thinkingConfigSchema]

theorem memoryConfigSchema_keys : ∀ field ∈ memoryConfigSchema, '_' ∉ field.key.toList := by
  simp [memoryConfigSchema]

theorem backgroundConfigSchema_keys : ∀ field ∈ backgroundConfigSchema, '_' ∉ field.key.toList := by
  simp [backgroundConfigSchema]

theorem customAgentConfigSchema_keys :
    ∀ field ∈ customAgentConfigSchema, '_' ∉ field.key.toList := by
  simp [customAgentConfigSchema]

theorem loopControlSchema_keys : ∀ field ∈ loopControlSchema, '_' ∉ field.key.toList := by
  simp [loopControlSchema]

/-- What is read for `maxStepsPerTurn`: the older `maxStepsPerRun` stands in for it. -/
theorem get_transformLoopControlData (data : Fields) {key : String}
    (hkey : key ≠ "maxStepsPerRun") :
    get key (transformLoopControlData data) =
      (lastRead snakeToCamel (fun _ v => some v) key data).or
        (if key = "maxStepsPerTurn" then
          lastRead snakeToCamel (fun _ v => some v) "maxStepsPerRun" data else none) := by
  rw [transformLoopControlData, get_delete, if_neg (Ne.symm hkey), ← get_translate,
    ← get_translate, ← transformPlainObject]
  cases hturn : get "maxStepsPerTurn" (transformPlainObject data) with
  | some v =>
    by_cases hself : key = "maxStepsPerTurn"
    · subst hself
      rw [hturn]
      rfl
    · rw [if_neg hself, or_none]
  | none =>
    cases hrun : get "maxStepsPerRun" (transformPlainObject data) with
    | none => rw [ite_self, or_none]
    | some v =>
      rw [get_set]
      by_cases hself : key = "maxStepsPerTurn"
      · subst hself
        rw [if_pos rfl, if_pos rfl, hturn]
        rfl
      · rw [if_neg (Ne.symm hself), if_neg hself, or_none]

/-- **When the loop control is read back.** -/
theorem loopControl_iff {loopControl : Value} (rawLoopControl : Option Value)
    (h : object loopControlSchema loopControl = some loopControl) :
    object loopControlSchema
        (.obj (transformLoopControlData (loopControlToToml loopControl rawLoopControl))) =
        some loopControl ↔
      EntriesKept (fun _ v => v) loopControlSchema (cloneRecord rawLoopControl)
          (entriesOf loopControl) ∧
        (get "maxStepsPerTurn" (entriesOf loopControl) = none →
          lastRead snakeToCamel (fun _ v => some v) "maxStepsPerRun"
            (cloneRecord rawLoopControl) = none) := by
  obtain ⟨s, rfl, hs⟩ := object_eq_self h
  have hnodup := loopControlSchema_nodup
  have hentries : entriesOf (.obj s) = s := rfl
  have hmem : optional "maxStepsPerTurn" (integer 0) ∈ loopControlSchema := (.head _)
  have hrun : ∀ field ∈ loopControlSchema, field.key ≠ "maxStepsPerRun" := by
    simp [loopControlSchema]
  -- the older key is not written
  have hnot : get "maxStepsPerRun" s = none := by
    refine get_eq_none_iff.2 fun entry hentry heq => ?_
    obtain ⟨field, hfield, hkey⟩ := mem_map.1
      (mem_of_parseFields hnodup hs (mem_map.2 ⟨entry, hentry, rfl⟩))
    exact hrun field hfield (hkey.trans heq)
  rw [object_obj_iff, parseFields_eq_some_iff hnodup hs, hentries]
  have hread : ∀ field ∈ loopControlSchema,
      (field.parse? (get field.key (transformLoopControlData
        (loopControlToToml (.obj s) rawLoopControl))) = some (get field.key s) ↔
      FieldKept (fun _ v => v) (cloneRecord rawLoopControl) s field ∧
        (field.key = "maxStepsPerTurn" → get "maxStepsPerTurn" s = none →
          lastRead snakeToCamel (fun _ v => some v) "maxStepsPerRun"
            (cloneRecord rawLoopControl) = none)) := by
    intro field hfield
    rw [get_transformLoopControlData _ (hrun field hfield), loopControlToToml,
      lastRead_setEntries hnodup loopControlSchema_keys hs (fun _ v => v),
      lastRead_setEntries hnodup loopControlSchema_keys hs (fun _ v => v), hnot, FieldKept]
    cases hv : get field.key s with
    | none =>
      rw [parse?_eq_none_iff hnodup hs hfield hv, or_eq_none_iff]
      refine and_congr_right fun _ => ?_
      by_cases hkey : field.key = "maxStepsPerTurn"
      · rw [if_pos hkey, ← hkey, hv]
        exact ⟨fun h _ _ => h, fun h => h rfl rfl⟩
      · rw [if_neg hkey]
        exact iff_of_true rfl fun hself => absurd hself hkey
    | some v =>
      rw [some_or, parse?_some_iff]
      have hno : field.key = "maxStepsPerTurn" → get "maxStepsPerTurn" s = none → False := by
        intro hkey hnone
        rw [← hkey, hv] at hnone
        cases hnone
      cases hbehind : lastRead snakeToCamel (fun _ v => some v) field.key
          (behind (camelToSnake field.key) (cloneRecord rawLoopControl)) with
      | none =>
        refine iff_of_true (parse_of_get hnodup hs hfield hv) ⟨fun w hw => ?_, ?_⟩
        · cases hw
        · exact fun hkey hnone => (hno hkey hnone).elim
      | some w =>
        constructor
        · intro hw
          refine ⟨fun w' hw' => ?_, fun hkey hnone => (hno hkey hnone).elim⟩
          rw [← some.inj hw']
          exact hw
        · exact fun hboth => hboth.1 w rfl
  constructor
  · intro hall
    refine ⟨fun field hfield => ((hread field hfield).1 (hall field hfield)).1, ?_⟩
    exact ((hread _ hmem).1 (hall _ hmem)).2 rfl
  · rintro ⟨hkept, holder⟩ field hfield
    exact (hread field hfield).2 ⟨hkept field hfield, fun _ => holder⟩

/-! ### Permissions -/

theorem lastRead_of_get_eq_none (htarget : ∀ c ∈ target.toList, c.isUpper = false) {fields : Fields}
    (h : get target fields = none) : lastRead snakeToCamel read target fields = none :=
  lastRead_of_forall_ne fun field hfield hname =>
    get_eq_none_iff.1 h field hfield (eq_of_snakeToCamel_eq htarget hname)

theorem permissionRuleSchema_keys : ∀ field ∈ permissionRuleSchema, '_' ∉ field.key.toList := by
  simp [permissionRuleSchema]

theorem permissionRule_back {rule : Value}
    (h : object permissionRuleSchema rule = some rule) :
    object permissionRuleSchema (transformPermissionRule none (permissionRuleToToml rule)) =
      some rule := by
  obtain ⟨s, rfl, hs⟩ := object_eq_self h
  have hget : ∀ key, get key (transformPlainObject (setEntries [] (.obj s) fun _ v => v)) =
      get key s := by
    intro key
    rw [transformPlainObject, get_translate, lastRead_setEntries permissionRuleSchema_nodup
      permissionRuleSchema_keys hs (fun _ v => v)]
    cases get key s <;> rfl
  have htool : get "tool" s = none := by
    refine get_eq_none_iff.2 fun entry hentry heq => ?_
    have hmem := mem_of_parseFields permissionRuleSchema_nodup hs (mem_map.2 ⟨entry, hentry, rfl⟩)
    rw [heq] at hmem
    simp [permissionRuleSchema] at hmem
  rw [permissionRuleToToml, transformPermissionRule]
  simp only [Value.entries?, hget, htool]
  refine object_obj_iff.2 ?_
  rw [← hs]
  refine parseFields_congr fun field hfield => ?_
  have hkey : field.key = "decision" ∨ field.key = "scope" ∨ field.key = "pattern" ∨
      field.key = "reason" := by
    simp only [permissionRuleSchema, mem_cons, not_mem_nil, or_false] at hfield
    rcases hfield with rfl | rfl | rfl | rfl <;> simp
  rw [get_put, get_put, get_put, get_put, get_nil]
  rcases hkey with hkey | hkey | hkey | hkey <;> rw [hkey] <;> simp

/-- **When the permissions are read back.** -/
theorem permission_iff {permission : Value} (rawPermission : Option Value)
    (h : object permissionConfigSchema permission = some permission) :
    object permissionConfigSchema
        (.obj (transformPermissionData (permissionToToml permission rawPermission))) =
        some permission ↔
      ∀ rules, get "rules" (entriesOf permission) = some (.arr rules) → rules ≠ [] := by
  obtain ⟨s, rfl, hs⟩ := object_eq_self h
  have hentries : entriesOf (.obj s) = s := rfl
  have hmem : optional "rules" (array (object permissionRuleSchema)) ∈ permissionConfigSchema :=
    (.head _)
  obtain ⟨hbuild, -⟩ := forall_of_parseFields permissionConfigSchema_nodup hs
  have hs' : s = ((get "rules" s).map fun v => ("rules", v)).toList := by
    conv_lhs => rw [hbuild]
    simp [build, permissionConfigSchema]
  -- the other lists are not written
  have hlists : ∀ key ∈ ["deny", "allow", "ask"], ∀ value? raw, lastRead snakeToCamel
      (fun _ v => some v) key (put "rules" value? (delete "ask" (delete "allow"
        (delete "deny" raw)))) = none := by
    intro key hkey value? raw
    refine lastRead_of_get_eq_none (fun c hc => ?_) ?_
    · simp only [List.mem_cons, List.not_mem_nil, or_false] at hkey
      rcases hkey with rfl | rfl | rfl <;> revert c <;> simp
    · rw [get_put, get_delete, get_delete, get_delete]
      simp only [List.mem_cons, List.not_mem_nil, or_false] at hkey
      rcases hkey with rfl | rfl | rfl <;> simp
  rw [object_obj_iff, hentries, transformPermissionData, permissionToToml, hentries]
  simp only [transformPlainObject, get_translate]
  rw [hlists "deny" (by simp), hlists "allow" (by simp), hlists "ask" (by simp)]
  cases hrules : get "rules" s with
  | none =>
    have hnone : lastRead snakeToCamel (fun _ v => some v) "rules" (put "rules" none
        (delete "ask" (delete "allow" (delete "deny" (cloneRecord rawPermission))))) = none :=
      lastRead_of_get_eq_none (by simp) (by rw [get_put, if_pos rfl])
    simp only [hnone, permissionRules]
    rw [hrules] at hs'
    refine iff_of_true ?_ fun rules hrules => (by cases hrules)
    rw [hs']
    rfl
  | some v =>
    have hv := parse_of_get permissionConfigSchema_nodup hs hmem hrules
    obtain ⟨rules, rfl⟩ : ∃ rules, v = .arr rules := by
      cases v with
      | arr rules => exact ⟨rules, rfl⟩
      | _ => cases hv
    have hread : ∀ w, lastRead snakeToCamel (fun _ v => some v) "rules" (put "rules" (some w)
        (delete "ask" (delete "allow" (delete "deny" (cloneRecord rawPermission))))) =
        some w := by
      intro w
      have hself := (sectionNames ("rules", "rules") (by simp)).1
      rw [put, lastRead_set hself rfl, lastRead_behind_self (by simp)]
      rfl
    simp only [hread, permissionRules, List.append_nil]
    rw [hrules] at hs'
    cases rules with
    | nil =>
      refine iff_of_false (fun hback => ?_) fun hne => hne [] rfl rfl
      rw [hs'] at hback
      cases hback
    | cons rule rules =>
      refine iff_of_true ?_ fun rules' hrules' => ?_
      · have hall : ∀ rule' ∈ rule :: rules, object permissionRuleSchema
            (transformPermissionRule none (permissionRuleToToml rule')) = some rule' := by
          intro rule' hrule'
          obtain ⟨l', hl, heq⟩ := map_eq_some_iff.1 hv
          obtain rfl : l' = rule :: rules := by injection heq
          exact permissionRule_back (List.forall₂_same.1 (mapM_eq_some_iff.1 hl) rule' hrule')
        have hmapped : array (object permissionRuleSchema) (.arr
            (((rule :: rules).map permissionRuleToToml).map (transformPermissionRule none))) =
            some (.arr (rule :: rules)) := by
          rw [array, mapM_eq_some_iff.2]
          · rfl
          · rw [List.map_map, List.forall₂_map_left_iff]
            exact List.forall₂_same.2 hall
        simp only [List.map_cons, List.isEmpty_cons, Bool.false_eq_true, if_false]
        refine (parseFields_eq_some_iff permissionConfigSchema_nodup hs).2 fun field hfield => ?_
        rw [List.mem_singleton.1 hfield, optional_key, hrules, get_cons, if_pos rfl,
          parse?_some_iff]
        exact hmapped
      · rintro rfl
        cases hrules'

/-! ### Records of entries -/

/-- **When a section of records is read back**: entry by entry. -/
theorem record_iff {key : String → Bool} {value : Value} (raw : Option Value)
    (toToml : Value → Option Value → Fields) (transformEntry : Fields → Fields)
    (h : record key (object shape) value = some value) :
    record key (object shape) (.obj (transformRecord (recordToToml toToml value raw)
        transformEntry id)) = some value ↔
      ∀ entry ∈ entriesOf value, object shape (.obj (transformEntry
        (toToml entry.2 (get entry.1 (cloneRecord raw))))) = some entry.2 := by
  obtain ⟨entries, rfl, hnodup, hentries⟩ := record_eq_some h
  have hself : entriesOf (.obj entries) = entries := rfl
  have hwritten : recordToToml toToml (.obj entries) raw = entries.map fun entry =>
      (entry.1, .obj (toToml entry.2 (get entry.1 (cloneRecord raw)))) := by
    rw [recordToToml, hself, assign_nil]
    rw [List.map_map]
    exact hnodup
  have hread : transformRecord (recordToToml toToml (.obj entries) raw) transformEntry id =
      entries.map fun entry => (entry.1, .obj (transformEntry
        (toToml entry.2 (get entry.1 (cloneRecord raw))))) := by
    rw [transformRecord, translate_id, hwritten, List.map_map]
    · rfl
    · rw [hwritten, List.map_map]
      exact hnodup
  rw [hread, record_eq_some_iff hnodup (by rw [List.map_map]; rfl)
    fun entry hentry => (hentries entry hentry).1, List.forall₂_map_left_iff, hself]
  exact List.forall₂_same

theorem record_entry {key : String → Bool} {p : Parser} (hp : Stable p) {value : Value}
    (h : record key p value = some value) :
    ∀ entry ∈ entriesOf value, p entry.2 = some entry.2 := by
  obtain ⟨entries, rfl, -, hentries⟩ := record_eq_some h
  intro entry hentry
  obtain ⟨u, hu⟩ := (hentries entry hentry).2
  exact hp u entry.2 hu

theorem experimental_back {experimental : Value}
    (h : experimentalConfigSchema experimental = some experimental) (raw : Option Value) :
    experimentalConfigSchema (cloneUnknown (.obj (experimentalToToml experimental raw))) =
      some experimental := by
  obtain ⟨entries, rfl, hnodup, hentries⟩ := record_eq_some h
  have hassign : experimentalToToml (.obj entries) raw = entries := assign_nil hnodup
  rw [hassign, cloneUnknown, cloneFields_of_forall fun entry hentry => ?_]
  · exact h
  · obtain ⟨u, hu⟩ := (hentries entry hentry).2
    cases u with
    | bool b => rw [← some.inj hu, cloneUnknown]
    | _ => cases hu

/-! ### Hooks -/

theorem camelToSnake_of_forall {s : String} (h : ∀ c ∈ s.toList, c.isUpper = false) :
    camelToSnake s = s := by
  have hchars : camelToSnakeChars s.toList = s.toList := by
    refine (flatMap_congr fun c hc => ?_).trans (flatMap_singleton' _)
    rw [h c hc]
    rfl
  rw [camelToSnake, hchars, String.ofList_toList]

theorem hookToToml_eq {hook : Value} (h : strictObject hookDefSchema hook = some hook) :
    hookToToml hook = hook := by
  obtain ⟨fields, hfields, h⟩ := bind_eq_some_iff.1 h
  split at h
  · obtain ⟨s, hs, rfl⟩ := map_eq_some_iff.1 h
    obtain rfl : s = fields := some.inj hfields
    have hkeys : ∀ key ∈ hookDefSchema.map Field.key, ∀ c ∈ key.toList, c.isUpper = false := by
      simp [hookDefSchema]
    have hmap : (entriesOf (.obj s)).map (fun entry => (camelToSnake entry.1, entry.2)) = s := by
      refine (map_congr_left fun entry hentry => ?_).trans (map_id s)
      have hmem := mem_of_parseFields hookDefSchema_nodup hs (mem_map.2 ⟨entry, hentry, rfl⟩)
      rw [camelToSnake_of_forall (hkeys _ hmem)]
      rfl
    rw [hookToToml, setEntries, hmap, assign_nil (nodup_of_parseFields hookDefSchema_nodup hs)]
  · cases h

theorem hooksToToml_eq {hooks : List Value}
    (h : array (strictObject hookDefSchema) (.arr hooks) = some (.arr hooks)) :
    hooks.map hookToToml = hooks := by
  obtain ⟨l', hl, heq⟩ := map_eq_some_iff.1 h
  obtain rfl : l' = hooks := by injection heq
  refine (map_congr_left fun hook hhook => ?_).trans (map_id _)
  exact hookToToml_eq (forall₂_same.1 (mapM_eq_some_iff.1 hl) hook hhook)

/-! ### Services -/

/-- What the reader makes of a service. -/
def transformService (v : Value) : Value :=
  match v.entries? with
  | some entry => .obj (transformServiceData entry)
  | none => v

/-- The file has no other spelling of a service that has another value. -/
def ServiceKept (raw s : Fields) (field : Field) : Prop :=
  match get field.key s with
  | none => lastRead snakeToCamel (fun _ v => some (transformService v)) field.key
      (delete (camelToSnake field.key) raw) = none
  | some v => ∀ w, lastRead snakeToCamel (fun _ v => some (transformService v)) field.key
      (behind (camelToSnake field.key) raw) = some w → field.parse w = some v

theorem lastRead_put_self {key : String}
    {back : Value → Value} (hname : snakeToCamel key = target) {value? : Option Value}
    {toToml : Value → Value} (hread : ∀ v ∈ value?, read target (toToml v) = some (back v)) :
    lastRead snakeToCamel read target (put key (value?.map toToml) raw) =
      match value? with
      | none => lastRead snakeToCamel read target (delete key raw)
      | some v => some ((lastRead snakeToCamel read target (behind key raw)).getD (back v)) := by
  cases value? with
  | none => rfl
  | some v => exact lastRead_set hname (hread v rfl)

/-- **When the services are read back.** -/
theorem services_iff {services : Value} (rawServices : Option Value)
    (h : object servicesConfigSchema services = some services) :
    object servicesConfigSchema (.obj (transformRecord (servicesToToml services rawServices)
        transformServiceData snakeToCamel)) = some services ↔
      ∀ field ∈ servicesConfigSchema,
        ServiceKept (cloneRecord rawServices) (entriesOf services) field := by
  obtain ⟨s, rfl, hs⟩ := object_eq_self h
  have hentries : entriesOf (.obj s) = s := rfl
  have hsearch : snakeToCamel "moonshot_search" = "moonshotSearch" ∧
      camelToSnake "moonshotSearch" = "moonshot_search" :=
    sectionNames ("moonshot_search", "moonshotSearch") (by simp)
  have hfetch : snakeToCamel "moonshot_fetch" = "moonshotFetch" ∧
      camelToSnake "moonshotFetch" = "moonshot_fetch" :=
    sectionNames ("moonshot_fetch", "moonshotFetch") (by simp)
  rw [object_obj_iff, parseFields_eq_some_iff servicesConfigSchema_nodup hs, hentries]
  refine forall₂_congr fun field hfield => ?_
  have hcases : field = optional "moonshotSearch" (object moonshotServiceConfigSchema) ∨
      field = optional "moonshotFetch" (object moonshotServiceConfigSchema) := by
    simpa [servicesConfigSchema] using hfield
  -- each service is written under its own key
  have hread : lastRead snakeToCamel (fun _ v => some (transformService v)) field.key
      (servicesToToml (.obj s) rawServices) =
      lastRead snakeToCamel (fun _ v => some (transformService v)) field.key
        (put (camelToSnake field.key) ((get field.key s).map serviceToToml)
          (cloneRecord rawServices)) := by
    rcases hcases with rfl | rfl
    · rw [servicesToToml, hentries, lastRead_put_of_ne (by rw [hfetch.1]; simp), optional_key,
        hsearch.2]
    · rw [servicesToToml, hentries, lastRead_put_put (by rw [hsearch.1]; simp), optional_key,
        hfetch.2]
  have hname : snakeToCamel (camelToSnake field.key) = field.key := by
    rcases hcases with rfl | rfl
    · rw [optional_key, hsearch.2, hsearch.1]
    · rw [optional_key, hfetch.2, hfetch.1]
  have hget : get field.key (transformRecord (servicesToToml (.obj s) rawServices)
      transformServiceData snakeToCamel) = lastRead snakeToCamel
        (fun _ v => some (transformService v)) field.key (servicesToToml (.obj s) rawServices) :=
    get_translate _
  rw [hget, hread, lastRead_put_self hname fun v _ => rfl, ServiceKept]
  cases hv : get field.key s with
  | none => exact parse?_eq_none_iff servicesConfigSchema_nodup hs hfield hv
  | some v =>
    rw [parse?_some_iff]
    have hparse := parse_of_get servicesConfigSchema_nodup hs hfield hv
    have hback : field.parse (transformService (serviceToToml v)) = some v := by
      rcases hcases with rfl | rfl <;> exact service_back hparse
    cases lastRead snakeToCamel (fun _ v => some (transformService v)) field.key
        (behind (camelToSnake field.key) (cloneRecord rawServices)) with
    | none => exact iff_of_true hback fun w hw => by cases hw
    | some w =>
      refine ⟨fun hw w' hw' => ?_, fun hall => hall w rfl⟩
      rw [← some.inj hw']
      exact hw

end NoriCode
