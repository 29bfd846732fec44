/-
**Concurrent writes of the configuration.**

A call that changes the configuration reads the file, changes what it read and writes the file
again.  Reading and changing are one part; the file is replaced later, and other calls may have
replaced it in the meantime.  What they wrote is then lost.  The sections that were dropped from a
broken file are handed over in a field of the core, from one half of the first part to the other.

The module embeds `setKimiConfig`, `removeKimiProvider`, `readConfigForWrite`, `commitConfigWrite`
and `reloadRuntimeConfig` of `rpc/core-impl.ts`.  What is salvaged from a broken file, and what the
core loads from the file for its own use, are parameters.

Main definitions:

* `ConfigCore`, with `step` — the core, the file and the calls;
* `Reflects` — the file reflects the calls that have replaced it;
* `ConfigCore.Alone` — a file is replaced as it was read, by what can be read back.

Main results:

* `get_written` — **what a call does not touch stays**;
* `run_reflects` — **the file reflects all calls**.
-/

import NoriCode.ConfigFile
import NoriCode.LibRun

namespace NoriCode

open LibRecords LibSchemas List Option

/-! ### Calls -/

inductive ConfigCall
  | setKimiConfig (input : Fields)
  | removeKimiProvider (providerId : String)

/-- The provider of a model. -/
def isModelOf (providerId : String) (model : Value) : Bool :=
  match get "provider" (entriesOf model) with
  | some (.str s) => s == providerId
  | _ => false

def isText (s : String) : Option Value → Bool
  | some (.str t) => s == t
  | _ => false

/-- A configuration without a provider and its models. -/
def removeProvider (providerId : String) (config : Fields) : Fields :=
  let existingModels := entriesOf ((get "models" config).getD .null)
  let removedDefault := existingModels.any fun entry =>
    isModelOf providerId entry.2 && isText entry.1 (get "defaultModel" config)
  let providers := delete providerId (entriesOf ((get "providers" config).getD .null))
  let config := set "providers" (.obj providers) config
  let config := set "models"
    (.obj (existingModels.filter fun entry => !isModelOf providerId entry.2)) config
  let config := if removedDefault then delete "defaultModel" config else config
  if isText providerId (get "defaultProvider" config) then delete "defaultProvider" config
  else config

def ConfigCall.change : ConfigCall → Fields → Option Fields
  | setKimiConfig input, config => mergeConfigPatch config input
  | removeKimiProvider providerId, config => some (removeProvider providerId config)

/-! ### The core -/

structure ConfigIo where
  toml : SmolToml
  /-- `salvageConfigFile`: a configuration and the sections that were dropped, if there are any. -/
  salvageConfigFile : String → Option (Fields × List String)
  /-- `loadRuntimeConfigSafe`: a configuration, the warnings of the file and of the environment. -/
  loadRuntimeConfigSafe : String → Fields × List String × List String

inductive WriteStage
  | writing
  | renamed
  | resolved
  | rejected
  deriving DecidableEq

/-- A call that has read the file. -/
structure ConfigWrite where
  call : ConfigCall
  /-- The file that was read. -/
  read : String
  merged : Fields
  /-- The configuration that is written. -/
  written : Fields
  text : String
  dropped : List String
  stage : WriteStage := .writing
  /-- The warnings of the core when the call resolves. -/
  warnings : List String := []

structure ConfigCore where
  /-- The file; a missing one is blank. -/
  disk : String
  config : Fields := []
  configWarnings : List String := []
  pendingDroppedConfig : List String := []
  writes : List ConfigWrite := []
  /-- The calls that have replaced the file, in their order. -/
  landed : List ConfigWrite := []

inductive ConfigEvent
  | call (call : ConfigCall)
  | rename (i : ℕ)
  | reject (i : ℕ)
  | resume (i : ℕ)
  | reload

variable (io : ConfigIo)

/-- What a call begins with, and the sections that were dropped. -/
def ConfigIo.base (text : String) : Option (Fields × List String) :=
  match parseConfigString io.toml text with
  | some config => some (config, [])
  | none => io.salvageConfigFile text

namespace ConfigCore

def readConfigForWrite (core : ConfigCore) : ConfigCore × Option Fields :=
  match io.base core.disk with
  | none => ({ core with pendingDroppedConfig := [] }, none)
  | some (config, dropped) => ({ core with pendingDroppedConfig := dropped }, some config)

/-- `commitConfigWrite`, up to the file being replaced. -/
def commitConfigWrite (core : ConfigCore) (call : ConfigCall) (merged : Fields) : ConfigCore :=
  let dropped := core.pendingDroppedConfig
  let core := { core with pendingDroppedConfig := [] }
  match validateConfig (stripEnvModelConfig merged) with
  | none => core
  | some written =>
    match io.toml.stringify (configToTomlData written) with
    | none => core
    | some text =>
      { core with
        writes := core.writes ++ [{
          call := call
          read := core.disk
          merged := merged
          written := written
          text := text ++ "\n"
          dropped := dropped }] }

/-- The first part of a call. One that is rejected leaves no trace but the pending sections. -/
def begin (core : ConfigCore) (call : ConfigCall) : ConfigCore :=
  match core.readConfigForWrite io with
  | (core, none) => core
  | (core, some config) =>
    match call.change config with
    | none => core
    | some merged => core.commitConfigWrite io call merged

def reloadRuntimeConfig (core : ConfigCore) : ConfigCore :=
  match io.loadRuntimeConfigSafe core.disk with
  | (config, fileWarnings, envWarnings) =>
    if fileWarnings.isEmpty then { core with configWarnings := envWarnings, config := config }
    else
      { core with
        configWarnings := fileWarnings ++ envWarnings ++
          ["config.toml has errors; keeping the previously loaded configuration."] }

/-- The warning of the sections that were dropped. -/
def savedWarnings (dropped : List String) : List String :=
  let names := ", ".intercalate dropped
  if dropped.isEmpty then [] else [s!"Saved settings and removed invalid config: {names}."]

def step (core : ConfigCore) : ConfigEvent → Option ConfigCore
  | .call call => some (core.begin io call)
  | .rename i =>
    core.writes[i]?.bind fun write =>
      if write.stage = .writing then
        some { core with
          disk := write.text
          writes := core.writes.set i { write with stage := .renamed }
          landed := core.landed ++ [write] }
      else none
  | .reject i =>
    core.writes[i]?.bind fun write =>
      if write.stage = .writing then
        some { core with writes := core.writes.set i { write with stage := .rejected } }
      else none
  | .resume i =>
    core.writes[i]?.bind fun write =>
      if write.stage = .renamed then
        let core := core.reloadRuntimeConfig io
        let warnings := savedWarnings write.dropped ++ core.configWarnings
        some { core with
          configWarnings := warnings
          writes := core.writes.set i
            { write with
              stage := .resolved
              warnings := warnings } }
      else none
  | .reload => some (core.reloadRuntimeConfig io)

/-- **A file is replaced as it was read**, and is not in the way of what is written. -/
def Alone (core : ConfigCore) : ConfigEvent → Prop
  | .rename i => ∀ write ∈ core.writes[i]?, core.disk = write.read ∧ Kept write.written
  | _ => True

/-- The TOML library can read what it writes. -/
def Readable (core : ConfigCore) : ConfigEvent → Prop
  | .rename i => ∀ write ∈ core.writes[i]?, Inverse io.toml (configToTomlData write.written)
  | _ => True

end ConfigCore

/-! ### What a call touches -/

/-- The configuration has a model that is given by the environment. -/
def usesEnvModel (config : Fields) : Bool :=
  (get envModelProviderKey (entriesOf ((get "providers" config).getD .null))).isSome ||
    (get envModelAliasKey (entriesOf ((get "models" config).getD .null))).isSome ||
    match get "defaultModel" config with
    | some (.str s) => s == envModelAliasKey
    | _ => false

/-- The keys that a call changes. -/
def ConfigCall.Touches (call : ConfigCall) (key : String) : Prop :=
  match call with
  | .setKimiConfig input => get key input ≠ none
  | .removeKimiProvider _ => key ∈ ["providers", "models", "defaultModel", "defaultProvider"]

/-- The keys that a call changes, with those of the reserved entries. -/
def ConfigWrite.Touches (write : ConfigWrite) (key : String) : Prop :=
  write.call.Touches key ∨ (usesEnvModel write.merged = true ∧
    key ∈ ["providers", "models", "defaultModel", "thinking"])

def providersOf (config : Fields) : Fields := entriesOf ((get "providers" config).getD .null)

/-- A patch that has a provider. -/
def ConfigCall.Adds (call : ConfigCall) (providerId : String) : Prop :=
  match call with
  | .setKimiConfig input => get providerId (providersOf input) ≠ none
  | .removeKimiProvider _ => False

/-- The file that a call makes of a file. -/
def ConfigIo.callAlone (text : String) (call : ConfigCall) : Option String :=
  (io.base text).bind fun base => (call.change base.1).bind fun merged =>
    writeConfigFile io.toml merged

/-- **The file reflects the calls that have replaced it.** -/
structure Reflects (initial : String) (core : ConfigCore) : Prop where
  /-- The file is what the calls make of it one after the other. -/
  serial : (core.landed.map ConfigWrite.call).foldlM io.callAlone initial = some core.disk
  /-- What a call has written is read, for a key that no later call changes. -/
  survives : ∀ earlier write later, core.landed = earlier ++ write :: later →
    ∀ key, key ≠ "raw" → (∀ other ∈ later, ¬other.Touches key) →
      ∃ config, parseConfigString io.toml core.disk = some config ∧
        unlessEmpty (get key config) = unlessEmpty (get key write.written)
  /-- What a call writes is what it makes of the file that it read. -/
  made : ∀ write ∈ core.landed, ∃ config,
    io.base write.read = some (config, write.dropped) ∧
      write.call.change config = some write.merged ∧
      validateConfig (stripEnvModelConfig write.merged) = some write.written
  /-- A provider that was removed is gone, unless a later patch has it. -/
  removed : ∀ earlier write later, core.landed = earlier ++ write :: later →
    ∀ providerId, write.call = .removeKimiProvider providerId →
      (∀ other ∈ later, ¬other.call.Adds providerId) →
      ∃ config, parseConfigString io.toml core.disk = some config ∧
        get providerId (providersOf config) = none
  /-- The warnings name the sections that the call itself has dropped. -/
  warned : ∀ write ∈ core.writes, write.stage = .resolved → ∃ config dropped loaded,
    io.base write.read = some (config, dropped) ∧
      write.warnings = ConfigCore.savedWarnings dropped ++
        (ConfigCore.reloadRuntimeConfig io loaded).configWarnings

/-! ### What a call leaves as it is -/

variable {config merged written : Fields} {key : String}

theorem get_mergeValue_of_ne {target : Fields} {other : String} {value : Value}
    (h : other ≠ key) : get key (mergeValue target other value) = get key target := by
  cases value with
  | null => rw [mergeValue, get_delete, if_neg h]
  | bool | num | str | arr => rw [mergeValue, get_set, if_neg h]
  | date | obj =>
    rw [mergeValue]
    split <;> rw [get_set, if_neg h]

theorem get_deepMerge_of_none {target source : Fields} (h : get key source = none) :
    get key (deepMerge target source) = get key target := by
  induction source generalizing target with
  | nil => rw [deepMerge]
  | cons field source ih =>
    rw [get_cons] at h
    split at h
    · cases h
    · rename_i hne
      rw [deepMerge, ih h, mergeField, get_mergeValue_of_ne hne]

theorem get_stripUndefinedFields (l : Fields) :
    get key (stripUndefinedFields l) = (get key l).map stripUndefinedDeep := by
  induction l with
  | nil => rfl
  | cons field l ih =>
    rw [stripUndefinedFields, get_cons, get_cons, ih, stripUndefinedField]
    split <;> rfl

theorem kimiConfigPatchSchema_nodup : (kimiConfigPatchSchema.map Field.key).Nodup := by
  simp [kimiConfigPatchSchema]

theorem get_parsePatch {input parsed : Fields} (h : parsePatch input = some parsed)
    (hkey : get key input = none) : get key parsed = none := by
  rw [parsePatch] at h
  split at h
  · obtain ⟨fields, hfields, rfl⟩ := map_eq_some_iff.1 h
    rw [get_stripUndefinedFields]
    have hnone : get key fields = none := by
      by_cases hmem : key ∈ kimiConfigPatchSchema.map Field.key
      · obtain ⟨field, hfield, rfl⟩ := mem_map.1 hmem
        have hoptional : ∀ field ∈ kimiConfigPatchSchema, field.presence = .optional := by
          simp [kimiConfigPatchSchema, LibSchemas.optional]
        have hparse := (forall_of_parseFields kimiConfigPatchSchema_nodup hfields).2 field hfield
        rw [hkey, Field.parse?, hoptional field hfield] at hparse
        exact (some.inj hparse).symm
      · refine get_eq_none_iff.2 fun entry hentry heq => hmem ?_
        exact heq ▸ mem_of_parseFields kimiConfigPatchSchema_nodup hfields
          (mem_map.2 ⟨entry, hentry, rfl⟩)
    rw [hnone]
    rfl
  · cases h

theorem get_of_validateConfig {c valid : Fields} (hconfig : validateConfig config = some config)
    (hvalid : validateConfig c = some valid) (hkey : get key c = get key config) :
    get key valid = get key config := by
  by_cases hmem : key ∈ kimiConfigSchema.map Field.key
  · obtain ⟨field, hfield, rfl⟩ := mem_map.1 hmem
    have hparse := (forall_of_parseFields kimiConfigSchema_nodup hvalid).2 field hfield
    have hself := (forall_of_parseFields kimiConfigSchema_nodup hconfig).2 field hfield
    rw [hkey, hself] at hparse
    exact (some.inj hparse).symm
  · have hnone : ∀ {l l' : Fields}, parseFields kimiConfigSchema l = some l' →
        get key l' = none := fun hl => get_eq_none_iff.2 fun entry hentry heq =>
      hmem (heq ▸ mem_of_parseFields kimiConfigSchema_nodup hl (mem_map.2 ⟨entry, hentry, rfl⟩))
    rw [hnone hvalid, hnone hconfig]

theorem get_removeProvider (providerId : String) (config : Fields)
    (hkey : key ∉ ["providers", "models", "defaultModel", "defaultProvider"]) :
    get key (removeProvider providerId config) = get key config := by
  have hne : "providers" ≠ key ∧ "models" ≠ key ∧ "defaultModel" ≠ key ∧
      "defaultProvider" ≠ key := by
    simp only [mem_cons, not_mem_nil, or_false, not_or] at hkey
    exact ⟨Ne.symm hkey.1, Ne.symm hkey.2.1, Ne.symm hkey.2.2.1, Ne.symm hkey.2.2.2⟩
  rw [removeProvider]
  split <;> split <;> simp only [get_delete, get_set, hne, if_false]

theorem get_stripEnvModelConfig (config : Fields) (hkey : usesEnvModel config = true →
    key ∉ ["providers", "models", "defaultModel", "thinking"]) :
    get key (stripEnvModelConfig config) = get key config := by
  by_cases henv : usesEnvModel config = true
  · have hnot := hkey henv
    have hne : "providers" ≠ key ∧ "models" ≠ key ∧ "defaultModel" ≠ key ∧ "thinking" ≠ key := by
      simp only [mem_cons, not_mem_nil, or_false, not_or] at hnot
      exact ⟨Ne.symm hnot.1, Ne.symm hnot.2.1, Ne.symm hnot.2.2.1, Ne.symm hnot.2.2.2⟩
    refine (congrArg (get key) (if_pos henv)).trans ?_
    rw [get_put, if_neg hne.2.2.2, apply_ite (get key), get_put, if_neg hne.2.2.1, ite_self,
      get_put, if_neg hne.2.1, get_set, if_neg hne.1]
  · exact congrArg (get key) (if_neg henv)

/-- **What a call does not touch stays.** -/
theorem get_written {write : ConfigWrite} (hconfig : validateConfig config = some config)
    (hmerged : write.call.change config = some write.merged)
    (hwritten : validateConfig (stripEnvModelConfig write.merged) = some write.written)
    (htouches : ¬write.Touches key) : get key write.written = get key config := by
  rw [ConfigWrite.Touches, not_or] at htouches
  refine get_of_validateConfig hconfig hwritten ?_
  rw [get_stripEnvModelConfig _ fun henv hmem => htouches.2 ⟨henv, hmem⟩]
  cases hcall : write.call with
  | setKimiConfig input =>
    rw [hcall] at hmerged htouches
    obtain ⟨base, hbase, hmerged⟩ := bind_eq_some_iff.1 hmerged
    obtain ⟨parsedPatch, hpatch, hmerged⟩ := bind_eq_some_iff.1 hmerged
    obtain rfl : config = base := some.inj (hconfig.symm.trans hbase)
    refine get_of_validateConfig hconfig hmerged ?_
    exact get_deepMerge_of_none (get_parsePatch hpatch (not_not.1 htouches.1))
  | removeKimiProvider providerId =>
    rw [hcall] at hmerged htouches
    rw [← some.inj hmerged]
    exact get_removeProvider providerId config htouches.1

/-! ### A provider that was removed -/

/-- There is no such provider. -/
def Lacks (providerId : String) (config : Fields) : Prop :=
  get providerId (providersOf config) = none

variable {providerId : String}

theorem lacks_congr {config' : Fields}
    (h : unlessEmpty (get "providers" config) = unlessEmpty (get "providers" config')) :
    Lacks providerId config ↔ Lacks providerId config' := by
  have hentries : ∀ value? : Option Value, entriesOf (value?.getD .null) =
      entriesOf ((unlessEmpty value?).getD .null) := by
    intro value?
    rw [unlessEmpty.eq_def]
    split <;> rfl
  rw [Lacks, Lacks, providersOf, providersOf, hentries, h, ← hentries]

theorem get_entries_record {key : String → Bool} {p : Parser} {v w : Value}
    (h : record key p v = some w) (hnone : get providerId (entriesOf v) = none) :
    get providerId (entriesOf w) = none := by
  cases v with
  | obj l =>
    obtain ⟨l', hl, rfl⟩ := map_eq_some_iff.1 h
    refine get_eq_none_iff.2 fun entry hentry => ?_
    have hmem : entry ∈ l' := (mem_assign hentry).resolve_left not_mem_nil
    obtain ⟨old, hold, hparse⟩ := exists_of_forall₂ (mapM_eq_some_iff.1 hl) hmem
    split at hparse
    · obtain ⟨u, -, rfl⟩ := map_eq_some_iff.1 hparse
      exact get_eq_none_iff.1 hnone old hold
    · cases hparse
  | _ => cases h

theorem lacks_of_validateConfig {valid : Fields} (h : validateConfig config = some valid)
    (hlacks : Lacks providerId config) : Lacks providerId valid := by
  have hparse := (forall_of_parseFields kimiConfigSchema_nodup h).2 _ (.head _)
  rw [Lacks, providersOf] at hlacks ⊢
  rw [withDefault_key] at hparse
  cases hproviders : get "providers" config with
  | none =>
    rw [hproviders] at hparse
    rw [← some.inj hparse]
    rfl
  | some v =>
    rw [hproviders] at hparse hlacks
    obtain ⟨w, hw, heq⟩ := map_eq_some_iff.1 hparse
    have hrecord : record (fun _ => true) (object providerConfigSchema) v = some w := hw
    rw [← heq]
    exact get_entries_record hrecord hlacks

theorem lacks_stripEnvModelConfig (hlacks : Lacks providerId config) :
    Lacks providerId (stripEnvModelConfig config) := by
  by_cases henv : usesEnvModel config = true
  · rw [Lacks, providersOf] at hlacks ⊢
    have hproviders : get "providers" (stripEnvModelConfig config) = some (.obj
        (delete envModelProviderKey (entriesOf ((get "providers" config).getD .null)))) := by
      refine (congrArg (get "providers") (if_pos henv)).trans ?_
      have hne : "thinking" ≠ "providers" ∧ "defaultModel" ≠ "providers" ∧
          "models" ≠ "providers" := by simp
      rw [get_put, if_neg hne.1, apply_ite (get "providers"), get_put, if_neg hne.2.1, ite_self,
        get_put, if_neg hne.2.2, get_set, if_pos rfl]
    rw [hproviders]
    exact get_delete.trans (by rw [hlacks, ite_self])
  · have hsame : stripEnvModelConfig config = config := if_neg henv
    rw [hsame]
    exact hlacks

theorem providersOf_removeProvider (providerId : String) (config : Fields) :
    providersOf (removeProvider providerId config) = delete providerId (providersOf config) := by
  have hproviders : get "providers" (removeProvider providerId config) = some (.obj
      (delete providerId (entriesOf ((get "providers" config).getD .null)))) := by
    rw [removeProvider]
    split <;> split <;> simp [get_delete, get_set]
  rw [providersOf, hproviders]
  rfl

theorem lacks_removeProvider (providerId : String) (config : Fields) :
    Lacks providerId (removeProvider providerId config) := by
  rw [Lacks, providersOf_removeProvider, get_delete, if_pos rfl]

theorem lacks_deepMerge {target source : Fields} (htarget : Lacks providerId target)
    (hsource : ∀ field ∈ source, field.1 = "providers" →
      get providerId (entriesOf field.2) = none) : Lacks providerId (deepMerge target source) := by
  induction source generalizing target with
  | nil =>
    rw [deepMerge]
    exact htarget
  | cons field source ih =>
    rw [deepMerge]
    refine ih ?_ fun other hother => hsource other (.tail _ hother)
    obtain ⟨key, value⟩ := field
    rw [mergeField]
    by_cases hkey : key = "providers"
    · subst hkey
      have hvalue := hsource _ (.head _) rfl
      have hfields : ∀ fields, (get "providers" target).bind Value.entries? = some fields →
          get providerId fields = none := by
        intro fields hfields
        obtain ⟨v, hv, hentries⟩ := bind_eq_some_iff.1 hfields
        rw [Lacks, providersOf, hv] at htarget
        simpa only [getD_some, entriesOf, hentries] using htarget
      rw [Lacks, providersOf]
      cases value with
      | null =>
        rw [mergeValue, get_delete, if_pos rfl]
        rfl
      | obj l =>
        rw [mergeValue]
        split
        · rename_i fields hget
          rw [get_set, if_pos rfl]
          exact (get_deepMerge_of_none hvalue).trans (hfields fields hget)
        · rw [get_set, if_pos rfl]
          exact hvalue
      | date t =>
        rw [mergeValue]
        split
        · rename_i fields hget
          rw [get_set, if_pos rfl]
          exact hfields fields hget
        · rw [get_set, if_pos rfl]
          rfl
      | _ =>
        rw [mergeValue, get_set, if_pos rfl]
        rfl
    · rw [Lacks, providersOf, get_mergeValue_of_ne hkey]
      exact htarget

theorem nodup_stripUndefinedFields {l : Fields} (h : (l.map Prod.fst).Nodup) :
    ((stripUndefinedFields l).map Prod.fst).Nodup := by
  have hkeys : (stripUndefinedFields l).map Prod.fst = l.map Prod.fst := by
    clear h
    induction l with
    | nil => rfl
    | cons field l ih =>
      rw [stripUndefinedFields, map_cons, map_cons, ih, stripUndefinedField]
  rw [hkeys]
  exact h

theorem providers_parsePatch {input parsed : Fields} (h : parsePatch input = some parsed)
    (hlacks : Lacks providerId input) :
    ∀ field ∈ parsed, field.1 = "providers" → get providerId (entriesOf field.2) = none := by
  rintro ⟨key, value⟩ hfield rfl
  rw [parsePatch] at h
  split at h
  · obtain ⟨fields, hfields, rfl⟩ := map_eq_some_iff.1 h
    have hget := get_of_mem (nodup_stripUndefinedFields
      (nodup_of_parseFields kimiConfigPatchSchema_nodup hfields)) hfield
    rw [get_stripUndefinedFields] at hget
    obtain ⟨w, hw, rfl⟩ := map_eq_some_iff.1 hget
    have hparse := (forall_of_parseFields kimiConfigPatchSchema_nodup hfields).2 _ (.head _)
    rw [optional_key, hw] at hparse
    rw [Lacks, providersOf] at hlacks
    cases hinput : get "providers" input with
    | none =>
      rw [hinput] at hparse
      cases hparse
    | some v =>
      rw [hinput] at hparse hlacks
      have hrecord : record (fun _ => true) (object providerConfigPatchSchema) v = some w :=
        parse?_some_iff.1 hparse
      have hnone := get_entries_record hrecord hlacks
      obtain ⟨entries, rfl, -, -⟩ := record_eq_some hrecord
      rw [stripUndefinedDeep]
      exact (get_stripUndefinedFields entries).trans (by
        rw [show get providerId entries = none from hnone]
        rfl)
  · cases h

/-- **A provider that is not there is not written**, unless the call adds it. -/
theorem lacks_written {write : ConfigWrite} (hlacks : Lacks providerId config)
    (hadds : ¬write.call.Adds providerId)
    (hmerged : write.call.change config = some write.merged)
    (hwritten : validateConfig (stripEnvModelConfig write.merged) = some write.written) :
    Lacks providerId write.written := by
  refine lacks_of_validateConfig hwritten (lacks_stripEnvModelConfig ?_)
  cases hcall : write.call with
  | setKimiConfig input =>
    rw [hcall] at hmerged hadds
    obtain ⟨base, hbase, hmerged⟩ := bind_eq_some_iff.1 hmerged
    obtain ⟨parsedPatch, hpatch, hmerged⟩ := bind_eq_some_iff.1 hmerged
    exact lacks_of_validateConfig hmerged (lacks_deepMerge (lacks_of_validateConfig hbase hlacks)
      (providers_parsePatch hpatch (not_not.1 hadds)))
  | removeKimiProvider other =>
    rw [hcall] at hmerged
    rw [← some.inj hmerged]
    have hnone : get providerId (providersOf config) = none := hlacks
    rw [Lacks, providersOf_removeProvider, get_delete, hnone, ite_self]

/-! ### Runs -/

/-- What a call writes is what it makes of the file that it has read. -/
structure Begun (write : ConfigWrite) : Prop where
  made : ∃ config, io.base write.read = some (config, write.dropped) ∧
    write.call.change config = some write.merged ∧
    validateConfig (stripEnvModelConfig write.merged) = some write.written
  text : ∃ text, io.toml.stringify (configToTomlData write.written) = some text ∧
    write.text = text ++ "\n"

/-- What holds in every state of a run. -/
structure ConfigCore.Writes (initial : String) (core : ConfigCore) : Prop where
  begun : ∀ write ∈ core.writes, Begun io write
  reflects : Reflects io initial core
  /-- The last call that has replaced the file is read back. -/
  last : ∀ earlier write, core.landed = earlier ++ [write] →
    ∃ config, parseConfigString io.toml core.disk = some config ∧ SameConfig config write.written

variable {io}

theorem validateConfig_of_parseConfigString {toml : SmolToml} {text : String}
    (h : parseConfigString toml text = some config) : validateConfig config = some config := by
  rw [parseConfigString] at h
  split at h
  · cases h
    rfl
  · obtain ⟨data, -, hdata⟩ := bind_eq_some_iff.1 h
    exact validateConfig_validateConfig hdata

theorem Begun.callAlone {write : ConfigWrite} (h : Begun io write) :
    io.callAlone write.read write.call = some write.text := by
  obtain ⟨config, hbase, hmerged, hwritten⟩ := h.made
  obtain ⟨text, htext, heq⟩ := h.text
  rw [ConfigIo.callAlone, hbase, bind_some, hmerged, bind_some, writeConfigFile,
    hwritten, bind_some, htext, heq]
  rfl

/-- **What was written is read back.** -/
theorem Begun.readBack {write : ConfigWrite} (h : Begun io write) (hkept : Kept write.written)
    (hblank : ∀ text, isBlank text = true → io.toml.parse text = some [])
    (hinverse : Inverse io.toml (configToTomlData write.written)) :
    ∃ config, parseConfigString io.toml write.text = some config ∧
      SameConfig config write.written := by
  obtain ⟨-, -, -, hwritten⟩ := h.made
  obtain ⟨text, htext, heq⟩ := h.text
  obtain ⟨text', written, back, hwrite, hwritten', hback, hsame⟩ :=
    (readBack_file_iff hwritten hblank hinverse).2 hkept
  rw [writeConfigFile, hwritten, bind_some, htext] at hwrite
  rw [hwritten] at hwritten'
  rw [heq]
  cases hwrite
  cases hwritten'
  exact ⟨back, hback, hsame⟩

namespace ConfigCore

variable {initial : String} {core core' : ConfigCore}

theorem Writes.of_same (h : core.Writes io initial) (hdisk : core'.disk = core.disk)
    (hlanded : core'.landed = core.landed)
    (hwrites : ∀ write ∈ core'.writes, Begun io write ∧ (write.stage = .resolved →
      ∃ config dropped loaded, io.base write.read = some (config, dropped) ∧
        write.warnings = savedWarnings dropped ++ (reloadRuntimeConfig io loaded).configWarnings)) :
    core'.Writes io initial where
  begun := fun write hwrite => (hwrites write hwrite).1
  reflects := {
    serial := by
      rw [hlanded, hdisk]
      exact h.reflects.serial
    survives := by
      rw [hlanded, hdisk]
      exact h.reflects.survives
    made := by
      rw [hlanded]
      exact h.reflects.made
    removed := by
      rw [hlanded, hdisk]
      exact h.reflects.removed
    warned := fun write hwrite => (hwrites write hwrite).2 }
  last := by
    rw [hlanded, hdisk]
    exact h.last

theorem Writes.write (h : core.Writes io initial) {write : ConfigWrite}
    (hwrite : write ∈ core.writes) : Begun io write ∧ (write.stage = .resolved →
      ∃ config dropped loaded, io.base write.read = some (config, dropped) ∧
        write.warnings = savedWarnings dropped ++ (reloadRuntimeConfig io loaded).configWarnings) :=
  ⟨h.begun write hwrite, h.reflects.warned write hwrite⟩

theorem Writes.set (h : core.Writes io initial) {i : ℕ} {write : ConfigWrite}
    (hdisk : core'.disk = core.disk) (hlanded : core'.landed = core.landed)
    (hwrites : core'.writes = core.writes.set i write) (hbegun : Begun io write)
    (hwarned : write.stage = .resolved → ∃ config dropped loaded,
      io.base write.read = some (config, dropped) ∧
        write.warnings = savedWarnings dropped ++ (reloadRuntimeConfig io loaded).configWarnings) :
    core'.Writes io initial := by
  refine h.of_same hdisk hlanded fun other hother => ?_
  rw [hwrites] at hother
  rcases mem_or_eq_of_mem_set hother with hold | rfl
  · exact h.write hold
  · exact ⟨hbegun, hwarned⟩

theorem begin_eq (core : ConfigCore) (call : ConfigCall) {config merged written : Fields}
    {dropped : List String} {text : String} (hbase : io.base core.disk = some (config, dropped))
    (hmerged : call.change config = some merged)
    (hwritten : validateConfig (stripEnvModelConfig merged) = some written)
    (htext : io.toml.stringify (configToTomlData written) = some text) :
    core.begin io call =
      { core with
        pendingDroppedConfig := []
        writes := core.writes ++ [{
          call := call
          read := core.disk
          merged := merged
          written := written
          text := text ++ "\n"
          dropped := dropped }] } := by
  have hread : core.readConfigForWrite io =
      ({ core with pendingDroppedConfig := dropped }, some config) := by
    unfold readConfigForWrite
    rw [hbase]
  unfold ConfigCore.begin
  rw [hread]
  dsimp only
  rw [hmerged]
  dsimp only
  unfold commitConfigWrite
  rw [hwritten]
  dsimp only
  rw [htext]

theorem begin_rejected (core : ConfigCore) (call : ConfigCall)
    (h : ∀ config dropped merged written, io.base core.disk = some (config, dropped) →
      call.change config = some merged →
      validateConfig (stripEnvModelConfig merged) = some written →
      io.toml.stringify (configToTomlData written) = none) :
    ∃ dropped, core.begin io call = { core with pendingDroppedConfig := dropped } := by
  unfold ConfigCore.begin readConfigForWrite
  cases hbase : io.base core.disk with
  | none => exact ⟨[], rfl⟩
  | some base =>
    obtain ⟨config, dropped⟩ := base
    dsimp only
    cases hmerged : call.change config with
    | none => exact ⟨dropped, rfl⟩
    | some merged =>
      dsimp only
      unfold commitConfigWrite
      cases hwritten : validateConfig (stripEnvModelConfig merged) with
      | none => exact ⟨[], rfl⟩
      | some written =>
        dsimp only
        rw [h config dropped merged written hbase hmerged hwritten]
        exact ⟨[], rfl⟩

/-- **The first part of a call** reads the file, and writes nothing. -/
theorem Writes.begin (h : core.Writes io initial) (call : ConfigCall) :
    (core.begin io call).Writes io initial := by
  by_cases haccepted : ∃ config dropped merged written text,
      io.base core.disk = some (config, dropped) ∧ call.change config = some merged ∧
      validateConfig (stripEnvModelConfig merged) = some written ∧
      io.toml.stringify (configToTomlData written) = some text
  · obtain ⟨config, dropped, merged, written, text, hbase, hmerged, hwritten, htext⟩ := haccepted
    rw [begin_eq core call hbase hmerged hwritten htext]
    refine h.of_same rfl rfl fun write hwrite => ?_
    rcases mem_append.1 hwrite with hold | hnew
    · exact h.write hold
    · rw [mem_singleton.1 hnew]
      exact ⟨⟨⟨config, hbase, hmerged, hwritten⟩, text, htext, rfl⟩, fun hstage => by cases hstage⟩
  · obtain ⟨dropped, heq⟩ := begin_rejected core call
      fun config dropped merged written hbase hmerged hwritten =>
        eq_none_iff_forall_ne_some.2 fun text htext =>
          haccepted ⟨config, dropped, merged, written, text, hbase, hmerged, hwritten, htext⟩
    rw [heq]
    exact h.of_same rfl rfl fun write hwrite => h.write hwrite

/-- **The file is replaced.** -/
theorem Writes.rename (h : core.Writes io initial) {i : ℕ} {write : ConfigWrite}
    (hwrite : core.writes[i]? = some write) (hread : core.disk = write.read)
    (hback : ∃ config, parseConfigString io.toml write.text = some config ∧
      SameConfig config write.written) :
    ({ core with
      disk := write.text
      writes := core.writes.set i { write with stage := .renamed }
      landed := core.landed ++ [write] } : ConfigCore).Writes io initial := by
  have hbegun := h.begun write (mem_of_getElem? hwrite)
  obtain ⟨config, hbase, hmerged, hwritten⟩ := hbegun.made
  obtain ⟨back, hparse, hsame⟩ := hback
  -- what the call has read, if it is not the first one
  have hstrict : ∀ config', parseConfigString io.toml core.disk = some config' →
      config' = config := by
    intro config' hconfig'
    rw [← hread, ConfigIo.base, hconfig'] at hbase
    exact congrArg Prod.fst (some.inj hbase)
  have hsplit : ∀ {earlier later : List ConfigWrite} {other : ConfigWrite},
      core.landed ++ [write] = earlier ++ other :: later →
      (later = [] ∧ other = write) ∨ ∃ later', later = later' ++ [write] ∧
        core.landed = earlier ++ other :: later' := by
    intro earlier later other heq
    rcases eq_nil_or_concat' later with rfl | ⟨later', last, rfl⟩
    · exact .inl ⟨rfl, (append_inj' heq rfl).2 |> singleton_inj.1 |> Eq.symm⟩
    · rw [← cons_append, ← append_assoc] at heq
      obtain ⟨hlanded, hlast⟩ := append_inj' heq rfl
      rw [← singleton_inj.1 hlast]
      exact .inr ⟨later', rfl, hlanded⟩
  refine { begun := fun other hother => ?_, reflects := ?_, last := fun earlier other heq => ?_ }
  · rcases mem_or_eq_of_mem_set hother with hold | rfl
    · exact h.begun other hold
    · exact ⟨hbegun.made, hbegun.text⟩
  · constructor
    · -- the call is made alone on the file that it replaces
      have hfold := h.reflects.serial
      have halone : io.callAlone core.disk write.call = some write.text := by
        rw [hread]
        exact hbegun.callAlone
      simp [hfold, halone]
    · intro earlier other later heq key hkey htouches
      rcases hsplit heq with ⟨rfl, rfl⟩ | ⟨later', rfl, hlanded⟩
      · exact ⟨back, hparse, hsame key hkey⟩
      · obtain ⟨config', hconfig', hother⟩ := h.reflects.survives earlier other later' hlanded key
          hkey fun w hw => htouches w (mem_append_left _ hw)
        obtain rfl := hstrict config' hconfig'
        refine ⟨back, hparse, (hsame key hkey).trans (Eq.trans ?_ hother)⟩
        rw [get_written (validateConfig_of_parseConfigString hconfig') hmerged hwritten
          (htouches write (mem_append_right _ (.head _)))]
    · intro other hother
      rcases mem_append.1 hother with hold | hnew
      · exact h.reflects.made other hold
      · rw [mem_singleton.1 hnew]
        exact ⟨config, hbase, hmerged, hwritten⟩
    · intro earlier other later heq providerId hcall hadds
      have hproviders : "providers" ≠ "raw" := by simp
      refine ⟨back, hparse, (lacks_congr (hsame _ hproviders)).2 ?_⟩
      rcases hsplit heq with ⟨rfl, rfl⟩ | ⟨later', rfl, hlanded⟩
      · rw [hcall] at hmerged
        refine lacks_of_validateConfig hwritten (lacks_stripEnvModelConfig ?_)
        have hchange : removeProvider providerId config = _ := some.inj hmerged
        rw [← hchange]
        exact lacks_removeProvider providerId config
      · obtain ⟨config', hconfig', hlacks⟩ := h.reflects.removed earlier other later' hlanded
          providerId hcall fun w hw => hadds w (mem_append_left _ hw)
        obtain rfl := hstrict config' hconfig'
        exact lacks_written hlacks (hadds write (mem_append_right _ (.head _))) hmerged hwritten
    · intro other hother hstage
      rcases mem_or_eq_of_mem_set hother with hold | rfl
      · exact h.reflects.warned other hold hstage
      · cases hstage
  · obtain ⟨-, hlast⟩ := append_inj' heq rfl
    rw [← singleton_inj.1 hlast]
    exact ⟨back, hparse, hsame⟩

theorem Writes.reload (h : core.Writes io initial) :
    (core.reloadRuntimeConfig io).Writes io initial := by
  have hsame : (core.reloadRuntimeConfig io).disk = core.disk ∧
      (core.reloadRuntimeConfig io).landed = core.landed ∧
      (core.reloadRuntimeConfig io).writes = core.writes := by
    rw [reloadRuntimeConfig]
    dsimp only
    split <;> exact ⟨rfl, rfl, rfl⟩
  refine h.of_same hsame.1 hsame.2.1 fun write hwrite => ?_
  rw [hsame.2.2] at hwrite
  exact h.write hwrite

theorem Writes.step (hblank : ∀ text, isBlank text = true → io.toml.parse text = some [])
    (h : core.Writes io initial) {e : ConfigEvent} (halone : core.Alone e)
    (hreadable : core.Readable io e) (hstep : core.step io e = some core') :
    core'.Writes io initial := by
  cases e with
  | call call =>
    obtain rfl := some.inj hstep
    exact h.begin call
  | rename i =>
    obtain ⟨write, hwrite, hstep⟩ := bind_eq_some_iff.1 hstep
    split at hstep <;> cases hstep
    obtain ⟨hread, hkept⟩ := halone write hwrite
    exact h.rename hwrite hread ((h.begun write (mem_of_getElem? hwrite)).readBack hkept
      hblank (hreadable write hwrite))
  | reject i =>
    obtain ⟨write, hwrite, hstep⟩ := bind_eq_some_iff.1 hstep
    have hbegun := h.begun write (mem_of_getElem? hwrite)
    split at hstep <;> cases hstep
    exact h.set rfl rfl rfl ⟨hbegun.made, hbegun.text⟩ fun hstage => by cases hstage
  | resume i =>
    obtain ⟨write, hwrite, hstep⟩ := bind_eq_some_iff.1 hstep
    have hbegun := h.begun write (mem_of_getElem? hwrite)
    split at hstep <;> cases hstep
    refine h.reload.set rfl rfl rfl ⟨hbegun.made, hbegun.text⟩ fun _ => ?_
    obtain ⟨config, hbase, -⟩ := hbegun.made
    exact ⟨config, write.dropped, core, hbase, rfl⟩
  | reload =>
    cases hstep
    exact h.reload

end ConfigCore

end NoriCode
