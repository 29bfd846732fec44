/-
**A configuration that is written and read back.**

The writer puts every key of the configuration where the file has it, and leaves the rest of the
file alone.  What is read back is the configuration that was written, unless the file is in the way:
a section is not written or not read at all, a field that was deleted is still in the file, or a
name is spelled in another way behind the key that is written.

Main definitions:

* `SameConfig` — equal up to `raw` and empty sections;
* `Kept` — the file is not in the way.

Main results:

* `exact_of_mem` — **when a field is read back**;
* `readBack_iff` — **what is read back is what was written if and only if nothing is in the
  way**.
-/

import NoriCode.ConfigSections

namespace NoriCode

open LibRecords LibSchemas List Option

/-! ### Equal configurations -/

/-- An empty section is as good as none. -/
def unlessEmpty : Option Value → Option Value
  | some (.obj []) => none
  | value? => value?

/-- Equal up to `raw`, and to empty sections. -/
def SameConfig (config config' : Fields) : Prop :=
  ∀ key, key ≠ "raw" → unlessEmpty (get key config) = unlessEmpty (get key config')

/-! ### What is written -/

/-- The data of the file, without deprecated keys. -/
def rawData (config : Fields) : Fields :=
  deprecatedKeys.foldl (fun out key => delete key out) (cloneRecord (get "raw" config))

/-- What is written of a section. -/
def sectionToToml (value? : Option Value) (toToml : Value → Option Value → Fields)
    (old : Option Value) : Option Value :=
  value?.bind fun value =>
    let converted := toToml value (some (.obj (cloneRecord old)))
    if converted.isEmpty then none else some (.obj converted)

/-- What is written of the hooks. -/
def hooksToToml (hooks : Option Value) : Option Value :=
  match hooks with
  | some (.arr hooks) => some (.arr (hooks.map hookToToml))
  | _ => none

/-- The keys that are put, in their order. -/
def configWrites (config : Fields) : List (String × (Option Value → Option Value)) :=
  scalarFields.map (fun key => (camelToSnake key, fun _ => get key config)) ++
    [("providers", sectionToToml (get "providers" config) (recordToToml providerToToml)),
      ("models", sectionToToml (get "models" config) (recordToToml modelToToml)),
      ("thinking", sectionToToml (get "thinking" config) thinkingToToml),
      ("services", sectionToToml (get "services" config) servicesToToml),
      ("memory", sectionToToml (get "memory" config) memoryToToml),
      ("loop_control", sectionToToml (get "loopControl" config) loopControlToToml),
      ("custom_agents", sectionToToml (get "customAgents" config)
        (recordToToml customAgentToToml)),
      ("background", sectionToToml (get "background" config) backgroundToToml),
      ("experimental", sectionToToml (get "experimental" config) experimentalToToml),
      ("permission", sectionToToml (get "permission" config) permissionToToml),
      ("hooks", fun _ => hooksToToml (get "hooks" config))]

theorem configToTomlData_eq (config : Fields) :
    configToTomlData config = applyWrites (rawData config) (configWrites config) := rfl

theorem configWrites_names (config : Fields) :
    (configWrites config).map (fun write => snakeToCamel write.1) =
      ["defaultProvider", "defaultModel", "discussMode", "yolo", "defaultPermissionMode",
        "defaultDiscussMode", "mergeAllAvailableSkills", "extraSkillDirs", "telemetry",
        "providers", "models", "thinking", "services", "memory", "loopControl", "customAgents",
        "background", "experimental", "permission", "hooks"] := by
  have hsections := sectionNames
  simp only [forall_mem_cons] at hsections
  simp [configWrites, scalarFields, snakeToCamel_camelToSnake, hsections]

/-- The schema of a key that is not written. -/
def unwrittenFields : List String := ["team", "modelCatalog"]

/-! ### What is in the way -/

/-- A section of the file, as the writer has it. -/
def fileTable (key : String) (config : Fields) : Option Value :=
  some (.obj (cloneRecord (get key (rawData config))))

/-- The key of a field is in the file that is written. -/
def isWritten (config : Fields) (key : String) : Bool :=
  match get key config with
  | none => false
  | some (.obj []) =>
    key == "loopControl" && !(cloneRecord (fileTable "loop_control" config)).isEmpty
  | some _ => true

/-- What the file has under the name of a field, besides what is written. -/
def rival (config : Fields) (key : String) : Option Value :=
  lastRead snakeToCamel transformSection key
    (if key ∈ unwrittenFields then rawData config
    else if isWritten config key = true then behind (camelToSnake key) (rawData config)
    else delete (camelToSnake key) (rawData config))

/-- The tables of the file are in the way of nothing that is written over them. -/
def TablesKept (config : Fields) (key : String) : Prop :=
  match key with
  | "team" => unlessEmpty (get "team" config) = none
  | "modelCatalog" => unlessEmpty (get "modelCatalog" config) = none
  | "providers" => ∀ providers ∈ get "providers" config, ∀ entry ∈ entriesOf providers,
      EntriesKept (transformEntryValue ["env", "customHeaders"]) providerConfigSchema
        (cloneRecord (get entry.1 (cloneRecord (fileTable "providers" config))))
        (entriesOf entry.2)
  | "models" => ∀ models ∈ get "models" config, ∀ entry ∈ entriesOf models,
      EntriesKept transformModelValue modelAliasSchema
          (cloneRecord (get entry.1 (cloneRecord (fileTable "models" config))))
          (entriesOf entry.2) ∧
        ∀ overrides ∈ get "overrides" (entriesOf entry.2),
          EntriesKept (fun _ v => v) modelAliasOverrideSchema
            (rawOverrides (get entry.1 (cloneRecord (fileTable "models" config))))
            (entriesOf overrides)
  | "customAgents" => ∀ agents ∈ get "customAgents" config, ∀ entry ∈ entriesOf agents,
      EntriesKept (fun _ v => v) customAgentConfigSchema
        (cloneRecord (get entry.1 (cloneRecord (fileTable "custom_agents" config))))
        (entriesOf entry.2)
  | "thinking" => ∀ thinking ∈ get "thinking" config,
      EntriesKept (fun _ v => v) thinkingConfigSchema
        (delete "mode" (cloneRecord (fileTable "thinking" config))) (entriesOf thinking)
  | "services" => ∀ services ∈ get "services" config, ∀ field ∈ servicesConfigSchema,
      ServiceKept (cloneRecord (fileTable "services" config)) (entriesOf services) field
  | "memory" => ∀ memory ∈ get "memory" config,
      EntriesKept (fun _ v => v) memoryConfigSchema
        (cloneRecord (fileTable "memory" config)) (entriesOf memory)
  | "loopControl" => ∀ loopControl ∈ get "loopControl" config,
      EntriesKept (fun _ v => v) loopControlSchema
          (cloneRecord (fileTable "loop_control" config)) (entriesOf loopControl) ∧
        (get "maxStepsPerTurn" (entriesOf loopControl) = none →
          lastRead snakeToCamel (fun _ v => some v) "maxStepsPerRun"
            (cloneRecord (fileTable "loop_control" config)) = none)
  | "background" => ∀ background ∈ get "background" config,
      EntriesKept (fun _ v => v) backgroundConfigSchema
        (cloneRecord (fileTable "background" config)) (entriesOf background)
  | "permission" => ∀ permission ∈ get "permission" config,
      ∀ rules, get "rules" (entriesOf permission) = some (.arr rules) → rules ≠ []
  | _ => True

/-- The file is not in the way of a field. -/
def FieldSurvives (config : Fields) (field : Field) : Prop :=
  match rival config field.key with
  | some w => ∃ v, field.parse w = some v ∧
      unlessEmpty (some v) = unlessEmpty (get field.key config)
  | none => TablesKept config field.key

/-- **The file is not in the way.** -/
def Kept (config : Fields) : Prop :=
  ∀ field ∈ kimiConfigSchema, field.key ≠ "raw" → FieldSurvives config field

/-! ### One field that is read back -/

variable {config : Fields} {field : Field}

/-- A field is read back. -/
def ReadsBack (config : Fields) (field : Field) (value? : Option Value) : Prop :=
  ∃ result?, field.parse? value? = some result? ∧
    unlessEmpty result? = unlessEmpty (get field.key config)

/-- **A field is read back if its rival is as good, or if there is none.** -/
theorem readsBack_or {rival? back? : Option Value} : ReadsBack config field (rival?.or back?) ↔
    match rival? with
    | some w => ∃ v, field.parse w = some v ∧
        unlessEmpty (some v) = unlessEmpty (get field.key config)
    | none => ReadsBack config field back? := by
  cases rival? with
  | none => rfl
  | some w =>
    constructor
    · rintro ⟨result?, hresult, hsame⟩
      obtain ⟨v, hv, rfl⟩ := map_eq_some_iff.1 hresult
      exact ⟨v, hv, hsame⟩
    · rintro ⟨v, hv, hsame⟩
      exact ⟨some v, parse?_some_iff.2 hv, hsame⟩

variable {write : String × (Option Value → Option Value)}

theorem filter_names {writes : List (String × (Option Value → Option Value))}
    (hnodup : (writes.map fun write => snakeToCamel write.1).Nodup) (hwrite : write ∈ writes) :
    (writes.filter fun other => snakeToCamel other.1 = snakeToCamel write.1) = [write] := by
  induction writes with
  | nil => cases hwrite
  | cons first writes ih =>
    obtain ⟨hnot, hnodup⟩ := nodup_cons.1 hnodup
    rcases mem_cons.1 hwrite with rfl | hwrite
    · rw [filter_cons_of_pos (by simp), filter_eq_nil_iff.2]
      intro other hother hname
      exact hnot (mem_map.2 ⟨other, hother, by simpa using hname⟩)
    · have hne : ¬snakeToCamel first.1 = snakeToCamel write.1 :=
        fun hname => hnot (mem_map.2 ⟨write, hwrite, hname.symm⟩)
      rw [filter_cons_of_neg (by simpa using hne), ih hnodup hwrite]

theorem lastRead_configToTomlData (hwrite : write ∈ configWrites config) :
    lastRead snakeToCamel transformSection (snakeToCamel write.1) (configToTomlData config) =
      lastRead snakeToCamel transformSection (snakeToCamel write.1)
        (put write.1 (write.2 (get write.1 (rawData config))) (rawData config)) := by
  have hnodup : ((configWrites config).map fun write => snakeToCamel write.1).Nodup := by
    rw [configWrites_names]
    simp
  rw [configToTomlData_eq, ← lastRead_spelled, spelled_applyWrites, filter_names hnodup hwrite,
    ← lastRead_spelled (put _ _ _), spelled_put, if_pos rfl, ← get_spelled rfl (rawData config)]
  rfl

variable {key : String}

theorem lastRead_unwritten (hkey : key ∈ unwrittenFields) :
    lastRead snakeToCamel transformSection key (configToTomlData config) =
      lastRead snakeToCamel transformSection key (rawData config) := by
  have hnone : ((configWrites config).filter fun write => snakeToCamel write.1 = key) = [] := by
    refine filter_eq_nil_iff.2 fun write hwrite hname => ?_
    have hmem : key ∈ (configWrites config).map fun write => snakeToCamel write.1 :=
      mem_map.2 ⟨write, hwrite, by simpa using hname⟩
    rw [configWrites_names] at hmem
    revert hmem
    simp only [unwrittenFields, mem_cons, not_mem_nil, or_false] at hkey
    rcases hkey with rfl | rfl <;> simp
  rw [configToTomlData_eq, ← lastRead_spelled, spelled_applyWrites, hnone, applyWrites,
    foldl_nil, lastRead_spelled]

/-! ### What a section is written as -/

theorem assign_eq_nil {l entries : Fields} (h : assign l entries = []) : entries = [] := by
  cases entries with
  | nil => rfl
  | cons entry entries =>
    have hget : get entry.1 (assign l (entry :: entries)) = none := by
      rw [h]
      rfl
    rw [get_assign, or_eq_none_iff] at hget
    exact absurd rfl (get_eq_none_iff.1 hget.1 entry (mem_reverse.2 (.head _)))

variable {v : Value}

theorem setEntries_eq_nil {out : Fields} {write : String → Value → Value}
    (h : setEntries out v write = []) : entriesOf v = [] :=
  map_eq_nil_iff.1 (assign_eq_nil h)

theorem recordToToml_eq_nil {toToml : Value → Option Value → Fields} {v : Value}
    {raw : Option Value} (h : recordToToml toToml v raw = []) : entriesOf v = [] :=
  map_eq_nil_iff.1 (assign_eq_nil h)

theorem servicesToToml_eq_nil {raw : Option Value}
    (hv : object servicesConfigSchema v = some v) (h : servicesToToml v raw = []) :
    entriesOf v = [] := by
  obtain ⟨s, rfl, hs⟩ := object_eq_self hv
  have hget : ∀ key, get key (servicesToToml (.obj s) raw) = none := fun key => by
    rw [h]
    rfl
  have hsearch : get "moonshotSearch" s = none := by
    have hkey := hget "moonshot_search"
    rw [servicesToToml, get_put, if_neg (by simp), get_put, if_pos rfl] at hkey
    exact map_eq_none_iff.1 hkey
  have hfetch : get "moonshotFetch" s = none := by
    have hkey := hget "moonshot_fetch"
    rw [servicesToToml, get_put, if_pos rfl] at hkey
    exact map_eq_none_iff.1 hkey
  have hbuild := (forall_of_parseFields servicesConfigSchema_nodup hs).1
  have hnil : s = [] := by simpa [build, servicesConfigSchema, hsearch, hfetch] using hbuild
  exact hnil

theorem permissionToToml_eq_nil {raw : Option Value}
    (hv : object permissionConfigSchema v = some v) (h : permissionToToml v raw = []) :
    entriesOf v = [] := by
  obtain ⟨s, rfl, hs⟩ := object_eq_self hv
  have hrules : get "rules" s = none := by
    cases hget : get "rules" s with
    | none => rfl
    | some rules =>
      have hparse := parse_of_get permissionConfigSchema_nodup hs (.head _) hget
      cases rules with
      | arr rules =>
        have hkey : get "rules" (permissionToToml (.obj s) raw) =
            some (.arr (rules.map permissionRuleToToml)) := by
          rw [permissionToToml, get_put, if_pos rfl]
          exact congrArg (fun rules : Option Value => match rules with
            | some (.arr rules) => some (Value.arr (rules.map permissionRuleToToml))
            | _ => none) hget
        rw [h] at hkey
        cases hkey
      | _ => cases hparse
  have hbuild := (forall_of_parseFields permissionConfigSchema_nodup hs).1
  have hnil : s = [] := by simpa [build, permissionConfigSchema, hrules] using hbuild
  exact hnil

/-! ### One section -/

theorem lastRead_put_or {read : String → Value → Option Value} {target : String}
    (hname : snakeToCamel key = target) {value? : Option Value} {raw : Fields}
    (hread : ∀ v ∈ value?, (read target v).isSome) :
    lastRead snakeToCamel read target (put key value? raw) = (lastRead snakeToCamel read target
        (if value?.isSome then behind key raw else delete key raw)).or
        (value?.bind (read target)) := by
  cases value? with
  | none => exact (or_none).symm
  | some v =>
    obtain ⟨w, hw⟩ := isSome_iff_exists.1 (hread v rfl)
    rw [put, lastRead_set hname hw, if_pos (isSome_some), bind_some, hw]
    cases lastRead snakeToCamel read target (behind key raw) <;> rfl

theorem unlessEmpty_obj_iff {l l' : Fields} :
    unlessEmpty (some (.obj l)) = unlessEmpty (some (.obj l')) ↔ l = l' := by
  constructor
  · intro h
    cases l with
    | nil =>
      cases l' with
      | nil => rfl
      | cons field l' => cases h
    | cons field l =>
      cases l' with
      | nil => cases h
      | cons field' l' =>
        have hobj : Value.obj (field :: l) = .obj (field' :: l') := some.inj h
        injection hobj
  · rintro rfl
    rfl

/-- **A field whose key is written survives, if its tables do.** -/
theorem readsBack_iff_survives
    (hwrite : write ∈ configWrites config) (hname : snakeToCamel write.1 = field.key)
    (hkey : camelToSnake field.key = write.1) (hnot : field.key ∉ unwrittenFields)
    {value? : Option Value} (hvalue : write.2 (get write.1 (rawData config)) = value?)
    (hread : ∀ v ∈ value?, (transformSection field.key v).isSome)
    (hrest : value?.isSome = isWritten config field.key ∨ ∀ c ∈ field.key.toList, c.isUpper = false)
    (hkept : ReadsBack config field (value?.bind (transformSection field.key)) ↔
      TablesKept config field.key) :
    ReadsBack config field (get field.key (transformTomlData (configToTomlData config))) ↔
      FieldSurvives config field := by
  have hrival : lastRead snakeToCamel transformSection field.key
      (if value?.isSome then behind write.1 (rawData config)
        else delete write.1 (rawData config)) = rival config field.key := by
    rw [rival, if_neg hnot, hkey]
    rcases hrest with hsame | hhumps
    · rw [hsame]
    · -- a name without capitals has one spelling
      rw [camelToSnake_of_forall hhumps] at hkey
      rw [← hkey]
      have hnone : ∀ written : Bool, lastRead snakeToCamel transformSection field.key
          (if written = true then behind field.key (rawData config)
            else delete field.key (rawData config)) = none := by
        intro written
        cases written with
        | true => exact lastRead_behind_self hhumps _
        | false => exact lastRead_of_get_eq_none hhumps (by rw [if_neg (by simp), get_delete,
            if_pos rfl])
      rw [hnone, hnone]
  rw [transformTomlData, get_translate, ← hname, lastRead_configToTomlData hwrite, hname, hvalue,
    lastRead_put_or hname hread, hrival, readsBack_or, FieldSurvives]
  cases rival config field.key with
  | some w => rfl
  | none => exact hkept

/-- **When a section that is written is read back.** -/
theorem readsBack_section {toToml : Value → Option Value → Fields} {old : Option Value}
    {back : Fields → Value} (hnone : ReadsBack [] field none)
    (hobj : ∀ v w, field.parse v = some w → ∃ l, w = .obj l)
    (hempty : ∀ v raw, field.parse v = some v → toToml v raw = [] → entriesOf v = [])
    (hback : field.parse (back []) = some (.obj []))
    (hread : ∀ data, transformSection field.key (.obj data) = some (back data))
    (hvalid : ∀ v ∈ get field.key config, field.parse v = some v) :
    ReadsBack config field ((sectionToToml (get field.key config) toToml old).bind
        (transformSection field.key)) ↔
      ∀ v ∈ get field.key config,
        field.parse (back (toToml v (some (.obj (cloneRecord old))))) = some v := by
  have hwithout : unlessEmpty (get field.key config) = none → ReadsBack config field none := by
    intro hempty
    obtain ⟨result?, hresult, hsame⟩ := hnone
    exact ⟨result?, hresult, hsame.trans hempty.symm⟩
  cases hvalue : get field.key config with
  | none => exact iff_of_true (hwithout (by rw [hvalue]; rfl)) fun v hv => by cases hv
  | some v =>
    have hv := hvalid v hvalue
    obtain ⟨l, rfl⟩ := hobj v v hv
    rw [sectionToToml, bind_some]
    cases hwritten : toToml (.obj l) (some (.obj (cloneRecord old))) with
    | nil =>
      obtain rfl : l = [] := hempty _ _ hv hwritten
      refine iff_of_true (hwithout (by rw [hvalue]; rfl)) fun v' hv' => ?_
      cases hv'
      rw [hwritten, hback]
    | cons entry entries =>
      have hsome : ((if (entry :: entries).isEmpty = true then none
          else some (Value.obj (entry :: entries))).bind (transformSection field.key)) =
          some (back (entry :: entries)) := hread _
      rw [hsome, ReadsBack, hvalue]
      constructor
      · rintro ⟨result?, hresult, hsame⟩ v' hv'
        obtain ⟨w, hw, rfl⟩ := map_eq_some_iff.1 hresult
        obtain ⟨l', rfl⟩ := hobj _ w hw
        obtain rfl := unlessEmpty_obj_iff.1 hsame
        cases hv'
        rw [hwritten]
        exact hw
      · intro hall
        have hparse := hall _ rfl
        rw [hwritten] at hparse
        exact ⟨_, parse?_some_iff.2 hparse, rfl⟩

/-- A field is read back if and only if the file is not in its way. -/
def Exact (config : Fields) (field : Field) : Prop :=
  ReadsBack config field (get field.key (transformTomlData (configToTomlData config))) ↔
    FieldSurvives config field

theorem parse_of_valid (hvalid : validateConfig config = some config)
    (hfield : field ∈ kimiConfigSchema) :
    ∀ v ∈ get field.key config, field.parse v = some v := fun _ hv =>
  parse_of_get kimiConfigSchema_nodup hvalid hfield hv

/-! ### Fields that are written as they are -/

theorem transformSection_of_entries?_eq_none (h : v.entries? = none) :
    transformSection key v = some v := by
  rw [transformSection, h]

/-- **A field that is written as it is.** -/
theorem exact_of_write (hvalid : validateConfig config = some config)
    (hfield : field ∈ kimiConfigSchema) (write : String × (Option Value → Option Value))
    (hwrite : write ∈ configWrites config) (hname : snakeToCamel write.1 = field.key)
    (hkey : camelToSnake field.key = write.1) (hnot : field.key ∉ unwrittenFields)
    (hvalue : write.2 (get write.1 (rawData config)) = get field.key config)
    (hplain : ∀ v w, field.parse v = some w → w.entries? = none)
    (htables : TablesKept config field.key) : Exact config field := by
  have hentries : ∀ v ∈ get field.key config, v.entries? = none := fun v hv =>
    hplain v v (parse_of_valid hvalid hfield v hv)
  have hread : ∀ v ∈ get field.key config, transformSection field.key v = some v := fun v hv =>
    transformSection_of_entries?_eq_none (hentries v hv)
  refine readsBack_iff_survives hwrite hname hkey hnot hvalue
    (fun v hv => by rw [hread v hv]; rfl) (.inl ?_) (iff_of_true ?_ htables)
  · rw [isWritten]
    split
    · rename_i hnone
      rw [hnone]
      rfl
    · rename_i hobj
      cases hentries _ hobj
    · rename_i hsome
      rw [hsome]
      rfl
  · have hbind : (get field.key config).bind (transformSection field.key) =
        get field.key config := by
      cases hget : get field.key config with
      | none => rfl
      | some v => exact hread v hget
    rw [hbind]
    exact ⟨_, (forall_of_parseFields kimiConfigSchema_nodup hvalid).2 field hfield, rfl⟩

variable {w : Value}

theorem entries?_of_text {normal : String → Option String}
    (h : text normal v = some w) : w.entries? = none := by
  cases v with
  | str s =>
    obtain ⟨t, -, rfl⟩ := map_eq_some_iff.1 h
    rfl
  | _ => cases h

theorem entries?_of_boolean (h : boolean v = some w) : w.entries? = none := by
  cases v with
  | bool b =>
    cases h
    rfl
  | _ => cases h

theorem entries?_of_array {p : Parser} (h : array p v = some w) : w.entries? = none := by
  cases v with
  | arr l =>
    obtain ⟨l', -, rfl⟩ := map_eq_some_iff.1 h
    rfl
  | _ => cases h

theorem exact_scalar (hvalid : validateConfig config = some config) {p : Parser}
    (hfield : optional key p ∈ kimiConfigSchema) (hscalar : key ∈ scalarFields)
    (hplain : ∀ v w, p v = some w → w.entries? = none) (htables : TablesKept config key) :
    Exact config (optional key p) := by
  have hunderscore : '_' ∉ key.toList := by
    revert hscalar
    simp only [scalarFields, mem_cons, not_mem_nil, or_false]
    rintro (rfl | rfl | rfl | rfl | rfl | rfl | rfl | rfl | rfl) <;> simp
  have hnot : key ∉ unwrittenFields := by
    revert hscalar
    simp only [scalarFields, mem_cons, not_mem_nil, or_false]
    rintro (rfl | rfl | rfl | rfl | rfl | rfl | rfl | rfl | rfl) <;> simp [unwrittenFields]
  exact exact_of_write hvalid hfield (camelToSnake key, fun _ => get key config)
    (mem_append_left _ (mem_map.2 ⟨key, hscalar, rfl⟩))
    (snakeToCamel_camelToSnake hunderscore) rfl hnot rfl hplain htables

theorem exact_hooks (hvalid : validateConfig config = some config) :
    Exact config (optional "hooks" (array (strictObject hookDefSchema))) := by
  have hfield : optional "hooks" (array (strictObject hookDefSchema)) ∈ kimiConfigSchema := by
    simp [kimiConfigSchema]
  have hwrite : ("hooks", fun _ => hooksToToml (get "hooks" config)) ∈ configWrites config :=
    mem_append_right _ (by simp)
  have hname : snakeToCamel "hooks" = "hooks" ∧ camelToSnake "hooks" = "hooks" :=
    sectionNames ("hooks", "hooks") (by simp)
  refine exact_of_write hvalid hfield _ hwrite hname.1 hname.2 (by simp [unwrittenFields]) ?_
    (fun v w => entries?_of_array) trivial
  have hget : hooksToToml (get "hooks" config) = get "hooks" config := by
    cases hhooks : get "hooks" config with
    | none => rfl
    | some hooks =>
      have hparse := parse_of_valid hvalid hfield hooks hhooks
      cases hooks with
      | arr hooks => exact congrArg (fun hooks => some (Value.arr hooks)) (hooksToToml_eq hparse)
      | _ => cases hparse
  exact hget

/-! ### Sections that are not written -/

theorem exact_unwritten {shape : List Field} (hkey : key ∈ unwrittenFields)
    (htables : TablesKept config key ↔ unlessEmpty (get key config) = none) :
    Exact config (optional key (object shape)) := by
  have hrival : rival config key = lastRead snakeToCamel transformSection key (rawData config) := by
    rw [rival, if_pos hkey]
  rw [Exact, transformTomlData, get_translate, optional_key, lastRead_unwritten hkey, ← hrival,
    ← or_none (o := rival config key), readsBack_or, FieldSurvives, optional_key]
  cases rival config key with
  | some w => rfl
  | none =>
    rw [htables]
    constructor
    · rintro ⟨result?, hresult, hsame⟩
      cases hresult
      exact hsame.symm
    · exact fun hempty => ⟨none, rfl, hempty.symm⟩

/-! ### Sections that are written over the file -/

/-- **A section that is written over the file.** -/
theorem exact_of_section (hvalid : validateConfig config = some config)
    (hfield : field ∈ kimiConfigSchema) (key : String) (toToml : Value → Option Value → Fields)
    (back : Fields → Value)
    (hwrite : (key, sectionToToml (get field.key config) toToml) ∈ configWrites config)
    (hname : snakeToCamel key = field.key ∧ camelToSnake field.key = key)
    (hnot : field.key ∉ unwrittenFields) (hnone : ReadsBack [] field none)
    (hobj : ∀ v w, field.parse v = some w → ∃ l, w = .obj l)
    (hempty : ∀ v raw, field.parse v = some v → toToml v raw = [] → entriesOf v = [])
    (hback : field.parse (back []) = some (.obj []))
    (hread : ∀ data, transformSection field.key (.obj data) = some (back data))
    (hrest : (∀ c ∈ field.key.toList, c.isUpper = false) ∨ ∀ l, get field.key config =
      some (.obj l) → (toToml (.obj l) (fileTable key config) = [] ↔
        isWritten config field.key = false))
    {Kept : Value → Prop} (htables : (∀ v ∈ get field.key config, Kept v) ↔
      TablesKept config field.key)
    (hkept : ∀ v, field.parse v = some v →
      (field.parse (back (toToml v (fileTable key config))) = some v ↔ Kept v)) :
    Exact config field := by
  have hsection := parse_of_valid hvalid hfield
  refine readsBack_iff_survives hwrite hname.1 hname.2 hnot rfl (fun v hv => ?_) ?_
    (((readsBack_section hnone hobj hempty hback hread hsection).trans
      (forall₂_congr fun v hv => hkept v (hsection v hv))).trans htables)
  · obtain ⟨section', -, hv⟩ := bind_eq_some_iff.1 hv
    dsimp only at hv
    split at hv <;> cases hv
    rw [hread]
    rfl
  · refine hrest.symm.imp (fun hrest => ?_) id
    dsimp only
    cases hget : get field.key config with
    | none =>
      rw [isWritten, hget]
      rfl
    | some v =>
      obtain ⟨l, rfl⟩ := hobj v v (hsection v hget)
      have hiff := hrest l hget
      rw [fileTable] at hiff
      rw [sectionToToml, bind_some]
      cases hwritten : toToml (.obj l) (some (.obj (cloneRecord (get key (rawData config))))) with
      | nil =>
        rw [hiff.1 hwritten]
        rfl
      | cons entry entries =>
        have htrue : isWritten config field.key = true := by
          rw [← Bool.not_eq_false, ← hiff, hwritten]
          exact cons_ne_nil _ _
        rw [htrue]
        rfl

theorem object_obj {shape : List Field} (v w : Value) (h : object shape v = some w) :
    ∃ l, w = .obj l := by
  obtain ⟨fields, -, h⟩ := bind_eq_some_iff.1 h
  obtain ⟨l, -, rfl⟩ := map_eq_some_iff.1 h
  exact ⟨l, rfl⟩

theorem record_obj {key : String → Bool} {p : Parser} (v w : Value)
    (h : record key p v = some w) : ∃ l, w = .obj l := by
  obtain ⟨l, rfl, -, -⟩ := record_eq_some h
  exact ⟨l, rfl⟩

/-! ### The sections -/

section

variable (hvalid : validateConfig config = some config)

include hvalid

theorem exact_providers :
    Exact config (withDefault "providers" (record (fun _ => true) (object providerConfigSchema))
      (.obj [])) := by
  have hprovider := stable_object providerConfigSchema_nodup providerConfigSchema_stable
  have hobj := @record_obj (fun _ => true) (object providerConfigSchema)
  refine exact_of_section hvalid (.head _) "providers" (recordToToml providerToToml)
    (fun data => .obj (transformRecord data transformProviderData id))
    (mem_append_right _ (by simp)) (sectionNames ("providers", "providers") (by simp))
    (by simp [unwrittenFields]) ⟨_, rfl, rfl⟩ hobj (fun v raw _ => recordToToml_eq_nil) rfl
    (fun data => rfl) (.inl (by simp)) Iff.rfl fun providers hparse => ?_
  have hparse : record (fun _ => true) (object providerConfigSchema) providers = some providers :=
    hparse
  refine (record_iff _ _ _ hparse).trans (forall₂_congr fun entry hentry => ?_)
  exact provider_iff _ (record_entry hprovider hparse entry hentry)

theorem exact_models :
    Exact config (optional "models" (record (fun _ => true) (object modelAliasSchema))) := by
  have hmodel := stable_object modelAliasSchema_nodup modelAliasSchema_stable
  have hobj := @record_obj (fun _ => true) (object modelAliasSchema)
  refine exact_of_section hvalid (by simp [kimiConfigSchema]) "models" (recordToToml modelToToml)
    (fun data => .obj (transformRecord data transformModelData id))
    (mem_append_right _ (by simp)) (sectionNames ("models", "models") (by simp))
    (by simp [unwrittenFields]) ⟨_, rfl, rfl⟩ hobj (fun v raw _ => recordToToml_eq_nil) rfl
    (fun data => rfl) (.inl (by simp)) Iff.rfl fun models hparse => ?_
  have hparse : record (fun _ => true) (object modelAliasSchema) models = some models :=
    hparse
  refine (record_iff _ _ _ hparse).trans (forall₂_congr fun entry hentry => ?_)
  exact model_iff _ (record_entry hmodel hparse entry hentry)

theorem exact_customAgents :
    Exact config (optional "customAgents"
      (record (fun key => key ≠ "") (object customAgentConfigSchema))) := by
  have hagent := stable_object customAgentConfigSchema_nodup customAgentConfigSchema_stable
  have hobj := @record_obj (fun key => key ≠ "") (object customAgentConfigSchema)
  refine exact_of_section hvalid (by simp [kimiConfigSchema]) "custom_agents"
    (recordToToml customAgentToToml)
    (fun data => .obj (transformRecord data transformPlainObject id))
    (mem_append_right _ (by simp)) (sectionNames ("custom_agents", "customAgents") (by simp))
    (by simp [unwrittenFields]) ⟨_, rfl, rfl⟩ hobj (fun v raw _ => recordToToml_eq_nil) rfl
    (fun data => rfl) (.inr fun l hl => ?_) Iff.rfl fun agents hparse => ?_
  · rw [optional_key] at hl ⊢
    cases l with
    | nil => exact iff_of_true rfl (by rw [isWritten, hl]; simp)
    | cons entry l =>
      refine iff_of_false (fun h => ?_) (by rw [isWritten, hl]; simp)
      exact cons_ne_nil entry l (recordToToml_eq_nil h)
  · have hparse : record (fun key => key ≠ "") (object customAgentConfigSchema) agents = some agents :=
      hparse
    refine (record_iff _ _ _ hparse).trans (forall₂_congr fun entry hentry => ?_)
    exact plain_iff customAgentConfigSchema_nodup customAgentConfigSchema_keys
      (record_entry hagent hparse entry hentry)

theorem exact_thinking : Exact config (optional "thinking" (object thinkingConfigSchema)) :=
  exact_of_section hvalid (by simp [kimiConfigSchema]) "thinking" thinkingToToml
    (fun data => .obj (transformPlainObject data)) (mem_append_right _ (by simp))
    (sectionNames ("thinking", "thinking") (by simp)) (by simp [unwrittenFields]) ⟨_, rfl, rfl⟩
    object_obj (fun v raw _ => setEntries_eq_nil) rfl (fun data => rfl)
    (.inl (by simp)) Iff.rfl fun _ =>
      plain_iff thinkingConfigSchema_nodup thinkingConfigSchema_keys

theorem exact_memory : Exact config (optional "memory" (object memoryConfigSchema)) :=
  exact_of_section hvalid (by simp [kimiConfigSchema]) "memory" memoryToToml
    (fun data => .obj (transformPlainObject data)) (mem_append_right _ (by simp))
    (sectionNames ("memory", "memory") (by simp)) (by simp [unwrittenFields]) ⟨_, rfl, rfl⟩
    object_obj (fun v raw _ => setEntries_eq_nil) rfl (fun data => rfl)
    (.inl (by simp)) Iff.rfl fun _ =>
      plain_iff memoryConfigSchema_nodup memoryConfigSchema_keys

theorem exact_background : Exact config (optional "background" (object backgroundConfigSchema)) :=
  exact_of_section hvalid (by simp [kimiConfigSchema]) "background" backgroundToToml
    (fun data => .obj (transformPlainObject data)) (mem_append_right _ (by simp))
    (sectionNames ("background", "background") (by simp)) (by simp [unwrittenFields]) ⟨_, rfl, rfl⟩
    object_obj (fun v raw _ => setEntries_eq_nil) rfl (fun data => rfl)
    (.inl (by simp)) Iff.rfl fun _ =>
      plain_iff backgroundConfigSchema_nodup backgroundConfigSchema_keys

theorem exact_services : Exact config (optional "services" (object servicesConfigSchema)) :=
  exact_of_section hvalid (by simp [kimiConfigSchema]) "services" servicesToToml
    (fun data => .obj (transformRecord data transformServiceData snakeToCamel))
    (mem_append_right _ (by simp)) (sectionNames ("services", "services") (by simp))
    (by simp [unwrittenFields]) ⟨_, rfl, rfl⟩
    object_obj (fun v raw => servicesToToml_eq_nil) rfl (fun data => rfl)
    (.inl (by simp)) Iff.rfl fun _ => services_iff _

theorem exact_permission : Exact config (optional "permission" (object permissionConfigSchema)) :=
  exact_of_section hvalid (by simp [kimiConfigSchema]) "permission" permissionToToml
    (fun data => .obj (transformPermissionData data)) (mem_append_right _ (by simp))
    (sectionNames ("permission", "permission") (by simp)) (by simp [unwrittenFields]) ⟨_, rfl, rfl⟩
    object_obj (fun v raw => permissionToToml_eq_nil) rfl (fun data => rfl)
    (.inl (by simp)) Iff.rfl fun _ => permission_iff _

theorem exact_experimental : Exact config (optional "experimental" experimentalConfigSchema) :=
  exact_of_section hvalid (by simp [kimiConfigSchema]) "experimental" experimentalToToml
    (fun data => cloneUnknown (.obj data)) (mem_append_right _ (by simp))
    (sectionNames ("experimental", "experimental") (by simp)) (by simp [unwrittenFields])
    ⟨_, rfl, rfl⟩ (@record_obj (fun _ => true) boolean) (fun v raw _ h => assign_eq_nil h) rfl
    (fun data => rfl) (.inl (by simp)) (iff_of_true (fun _ _ => trivial) trivial)
    fun _ hparse => iff_of_true (experimental_back hparse _) trivial

theorem exact_loopControl : Exact config (optional "loopControl" (object loopControlSchema)) := by
  refine exact_of_section hvalid (by simp [kimiConfigSchema]) "loop_control" loopControlToToml
    (fun data => .obj (transformLoopControlData data)) (mem_append_right _ (by simp))
    (sectionNames ("loop_control", "loopControl") (by simp)) (by simp [unwrittenFields])
    ⟨_, rfl, rfl⟩ object_obj (fun v raw _ => setEntries_eq_nil) rfl (fun data => rfl)
    (.inr fun l hl => ?_) Iff.rfl fun _ => loopControl_iff _
  cases l with
  | nil =>
    have hraw : loopControlToToml (.obj []) (fileTable "loop_control" config) =
        cloneRecord (fileTable "loop_control" config) := rfl
    rw [hraw, isWritten, hl]
    simp
  | cons entry l =>
    refine iff_of_false (fun h => ?_) (by rw [isWritten, hl]; simp)
    exact cons_ne_nil entry l (setEntries_eq_nil h)

end

/-! ### The configuration -/

/-- **Every field is read back if and only if the file is not in its way.** -/
theorem exact_of_mem (hvalid : validateConfig config = some config) :
    ∀ field ∈ kimiConfigSchema, field.key ≠ "raw" → Exact config field := by
  have hscalar : ∀ {key : String} {p : Parser}, optional key p ∈ kimiConfigSchema →
      key ∈ scalarFields → (∀ v w, p v = some w → w.entries? = none) → TablesKept config key →
      Exact config (optional key p) := fun hfield hkey hplain htables =>
    exact_scalar hvalid hfield hkey hplain htables
  have htext : ∀ {normal : String → Option String} (v w : Value), text normal v = some w →
      w.entries? = none := fun v w => entries?_of_text
  have hboolean : ∀ v w, boolean v = some w → w.entries? = none := fun v w => entries?_of_boolean
  intro field hfield hraw
  have hmem := hfield
  simp only [kimiConfigSchema, mem_cons, not_mem_nil, or_false] at hfield
  rcases hfield with rfl | rfl | rfl | rfl | rfl | rfl | rfl | rfl | rfl | rfl | rfl | rfl | rfl |
    rfl | rfl | rfl | rfl | rfl | rfl | rfl | rfl | rfl | rfl
  · exact exact_providers hvalid
  · exact hscalar hmem (by simp [scalarFields]) htext trivial
  · exact hscalar hmem (by simp [scalarFields]) htext trivial
  · exact exact_models hvalid
  · exact exact_thinking hvalid
  · exact hscalar hmem (by simp [scalarFields]) hboolean trivial
  · exact hscalar hmem (by simp [scalarFields]) hboolean trivial
  · exact hscalar hmem (by simp [scalarFields]) htext trivial
  · exact hscalar hmem (by simp [scalarFields]) hboolean trivial
  · exact exact_permission hvalid
  · exact exact_hooks hvalid
  · exact exact_services hvalid
  · exact exact_memory hvalid
  · exact hscalar hmem (by simp [scalarFields]) hboolean trivial
  · exact hscalar hmem (by simp [scalarFields]) (fun v w => entries?_of_array) trivial
  · exact exact_loopControl hvalid
  · exact exact_customAgents hvalid
  · exact exact_background hvalid
  · exact exact_unwritten (by simp [unwrittenFields]) Iff.rfl
  · exact exact_unwritten (by simp [unwrittenFields]) Iff.rfl
  · exact exact_experimental hvalid
  · exact hscalar hmem (by simp [scalarFields]) hboolean trivial
  · exact absurd rfl hraw

/-- **What is read back is what was written if and only if the file is not in the way.** -/
theorem readBack_iff (hvalid : validateConfig config = some config) :
    (∃ back, parseConfigData (configToTomlData config) = some back ∧ SameConfig back config) ↔
      Kept config := by
  have hget : ∀ key, key ≠ "raw" → get key (set "raw" (.obj (cloneFields
      (configToTomlData config))) (transformTomlData (configToTomlData config))) =
        get key (transformTomlData (configToTomlData config)) := fun key hkey => by
    rw [get_set, if_neg (Ne.symm hkey)]
  have hfields : Kept config ↔ ∀ field ∈ kimiConfigSchema, field.key ≠ "raw" →
      ReadsBack config field (get field.key (transformTomlData (configToTomlData config))) :=
    forall₂_congr fun field hfield =>
      forall_congr' fun hraw => (exact_of_mem hvalid field hfield hraw).symm
  rw [hfields, parseConfigData]
  constructor
  · rintro ⟨back, hback, hsame⟩ field hfield hraw
    have hparse := (forall_of_parseFields kimiConfigSchema_nodup hback).2 field hfield
    rw [hget _ hraw] at hparse
    exact ⟨_, hparse, hsame _ hraw⟩
  · intro hall
    have hfield : ∀ field ∈ kimiConfigSchema, ∃ value?, field.parse? (get field.key (set "raw"
        (.obj (cloneFields (configToTomlData config)))
        (transformTomlData (configToTomlData config)))) = some value? := by
      intro field hfield
      by_cases hraw : field.key = "raw"
      · have hlast : field = optional "raw" (record (fun _ => true) unknown) :=
          inj_on_of_nodup_map kimiConfigSchema_nodup hfield (by simp [kimiConfigSchema]) hraw
        rw [hlast, optional_key, get_set, if_pos rfl]
        exact ⟨_, parse?_some_iff.2 (record_unknown _)⟩
      · obtain ⟨value?, hvalue, -⟩ := hall field hfield hraw
        exact ⟨value?, by rw [hget _ hraw, hvalue]⟩
    obtain ⟨back, hback⟩ := exists_parseFields hfield
    refine ⟨back, hback, fun key hkey => ?_⟩
    by_cases hmem : key ∈ kimiConfigSchema.map Field.key
    · obtain ⟨field, hfield, rfl⟩ := mem_map.1 hmem
      have hparse := (forall_of_parseFields kimiConfigSchema_nodup hback).2 field hfield
      obtain ⟨value?, hvalue, hsame⟩ := hall field hfield hkey
      rw [hget _ hkey, hvalue] at hparse
      rw [← some.inj hparse, hsame]
    · have hnone : ∀ {l l' : Fields}, parseFields kimiConfigSchema l = some l' →
          get key l' = none := fun hl => get_eq_none_iff.2 fun entry hentry heq =>
        hmem (heq ▸ mem_of_parseFields kimiConfigSchema_nodup hl (mem_map.2 ⟨entry, hentry, rfl⟩))
      rw [hnone hback, hnone hvalid]

end NoriCode
