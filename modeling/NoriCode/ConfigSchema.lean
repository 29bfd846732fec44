/-
**The schema of the configuration.**

A configuration has sections: some are records of named entries, as the providers and the models,
others are objects with fixed fields.  A patch has the same sections, where any field may be
missing, and a few fields may be `null`.

The module embeds `config/schema.ts`, as far as `KimiConfigSchema` and `KimiConfigPatchSchema` go.
Why something is rejected is left out.

Main definitions:

* `kimiConfigSchema`, `kimiConfigPatchSchema` — the two shapes;
* `validateConfig`.

Main results:

* `validateConfig_validateConfig` — a valid configuration is its own.
-/

import NoriCode.ApprovalRule
import NoriCode.LibSchemas

namespace NoriCode

open LibRecords LibSchemas List

/-! ### Values -/

def string : Parser := text some

/-- `z.string().min(1)` -/
def nonemptyString : Parser := text fun s => if s = "" then none else some s

/-- `z.string().trim().min(1)` -/
def trimmedString : Parser := text fun s => if trim s = "" then none else some (trim s)

def enum (options : List String) : Parser := text fun s => if s ∈ options then some s else none

/-- `z.number().int().min(min)`, which takes safe integers only. -/
def integer (min : ℤ) : Parser :=
  number fun q => q.isInt && decide ((min : ℚ) ≤ q) && decide (q ≤ 9007199254740991)

def stringRecordSchema : Parser := record (fun _ => true) string

/-! ### Sections -/

def providerTypeSchema : Parser :=
  enum ["anthropic", "openai", "kimi", "google-genai", "openai_responses", "vertexai"]

def oauthRefSchema : List Field :=
  [required "storage" (enum ["file", "keyring"]),
    required "key" nonemptyString,
    optional "oauthHost" nonemptyString]

def providerConfigSchema : List Field :=
  [required "type" providerTypeSchema,
    optional "name" trimmedString,
    optional "apiKey" string,
    optional "baseUrl" string,
    optional "defaultModel" string,
    optional "disabled" boolean,
    optional "autoDiscover" boolean,
    optional "customModels" (array trimmedString),
    optional "oauth" (object oauthRefSchema),
    optional "env" stringRecordSchema,
    optional "customHeaders" stringRecordSchema,
    optional "source" (record (fun _ => true) unknown)]

def memoryConfigSchema : List Field :=
  [optional "vectorEnabled" boolean,
    optional "providerType" (enum ["openai", "openai_responses"]),
    optional "baseUrl" string,
    optional "apiKey" string,
    optional "model" string,
    optional "customHeaders" stringRecordSchema]

def modelAliasBaseSchema : List Field :=
  [required "provider" string,
    required "model" string,
    required "maxContextSize" (integer 1),
    optional "maxOutputSize" (integer 1),
    optional "capabilities" (array string),
    optional "thinkingSupport" boolean,
    optional "displayName" string,
    optional "reasoningKey" string,
    optional "protocol" (enum ["anthropic"]),
    optional "adaptiveThinking" boolean,
    optional "supportEfforts" (array string),
    optional "defaultEffort" string,
    optional "betaApi" boolean]

def modelAliasOverrideSchema : List Field :=
  partialShape (modelAliasBaseSchema.filter fun field =>
    field.key ∉ ["provider", "model", "protocol", "betaApi"])

def modelAliasSchema : List Field :=
  modelAliasBaseSchema ++ [optional "overrides" (object modelAliasOverrideSchema)]

def thinkingConfigSchema : List Field :=
  [optional "enabled" boolean, optional "effort" string]

def permissionModeSchema : Parser := enum ["yolo", "manual", "auto"]

def isValidPermissionPattern (pattern : String) : Bool :=
  match parsePattern pattern.toList with
  | .ok _ => true
  | .error _ => false

def permissionRuleSchema : List Field :=
  [required "decision" (enum ["allow", "deny", "ask"]),
    withDefault "scope" (enum ["turn-override", "session-runtime", "project", "user"])
      (.str "user"),
    required "pattern" (text fun s =>
      if s ≠ "" ∧ isValidPermissionPattern s = true then some s else none),
    optional "reason" string]

def permissionConfigSchema : List Field :=
  [optional "rules" (array (object permissionRuleSchema))]

def loopControlSchema : List Field :=
  [optional "maxStepsPerTurn" (integer 0),
    optional "goalMaxTurns" (integer 0),
    optional "goalBackgroundIdleMinutes" (integer 0),
    optional "maxRetriesPerStep" (integer 0),
    optional "maxRalphIterations" (integer (-1)),
    optional "reservedContextSize" (integer 0),
    optional "compactionTriggerRatio" (number fun q => decide (1 / 2 ≤ q ∧ q ≤ 99 / 100))]

def customAgentPermissionsSchema : List Field :=
  [optional "read" boolean, optional "write" boolean, optional "shell" boolean,
    optional "web" boolean]

def customAgentConfigSchema : List Field :=
  [required "description" nonemptyString,
    required "role" nonemptyString,
    withDefault "baseProfile" (enum ["agent", "nori-agent", "nori-coder"]) (.str "agent"),
    optional "model" trimmedString,
    withDefault "enabled" boolean (.bool true),
    optional "permissions" (object customAgentPermissionsSchema)]

def teamConfigSchema : List Field :=
  [optional "maxDepth" (number fun q => q.isInt && decide (1 ≤ q) && decide (q ≤ 5))]

def backgroundConfigSchema : List Field :=
  [optional "maxRunningTasks" (integer 1),
    optional "keepAliveOnExit" boolean,
    optional "killGracePeriodMs" (integer 0),
    optional "printWaitCeilingS" (integer 1)]

def modelCatalogConfigSchema : List Field :=
  [optional "refreshIntervalMs" (integer 0), optional "refreshOnStart" boolean]

def experimentalConfigSchema : Parser := record (fun _ => true) boolean

def hookEventTypes : List String :=
  ["PreToolUse", "PostToolUse", "PostToolUseFailure", "PermissionRequest", "PermissionResult",
    "UserPromptSubmit", "Stop", "StopFailure", "Interrupt", "SessionStart", "SessionEnd",
    "SubagentStart", "SubagentStop", "PreCompact", "PostCompact", "Notification"]

def hookDefSchema : List Field :=
  [required "event" (enum hookEventTypes),
    optional "matcher" string,
    required "command" nonemptyString,
    optional "timeout" (number fun q => q.isInt && decide (1 ≤ q) && decide (q ≤ 600))]

def moonshotServiceConfigSchema : List Field :=
  [optional "baseUrl" string,
    optional "apiKey" string,
    optional "oauth" (object oauthRefSchema),
    optional "customHeaders" stringRecordSchema]

def servicesConfigSchema : List Field :=
  [optional "moonshotSearch" (object moonshotServiceConfigSchema),
    optional "moonshotFetch" (object moonshotServiceConfigSchema)]

/-! ### The configuration, and its patches -/

def kimiConfigSchema : List Field :=
  [withDefault "providers" (record (fun _ => true) (object providerConfigSchema)) (.obj []),
    optional "defaultProvider" string,
    optional "defaultModel" string,
    optional "models" (record (fun _ => true) (object modelAliasSchema)),
    optional "thinking" (object thinkingConfigSchema),
    optional "discussMode" boolean,
    optional "yolo" boolean,
    optional "defaultPermissionMode" permissionModeSchema,
    optional "defaultDiscussMode" boolean,
    optional "permission" (object permissionConfigSchema),
    optional "hooks" (array (strictObject hookDefSchema)),
    optional "services" (object servicesConfigSchema),
    optional "memory" (object memoryConfigSchema),
    optional "mergeAllAvailableSkills" boolean,
    optional "extraSkillDirs" (array string),
    optional "loopControl" (object loopControlSchema),
    optional "customAgents" (record (fun key => key ≠ "") (object customAgentConfigSchema)),
    optional "background" (object backgroundConfigSchema),
    optional "team" (object teamConfigSchema),
    optional "modelCatalog" (object modelCatalogConfigSchema),
    optional "experimental" experimentalConfigSchema,
    optional "telemetry" boolean,
    optional "raw" (record (fun _ => true) unknown)]

def providerConfigPatchSchema : List Field :=
  extend (partialShape providerConfigSchema)
    [optional "customModels" (nullable (array trimmedString))]

def modelAliasPatchSchema : Parser :=
  nullable (object (extend (partialShape modelAliasSchema)
    [optional "supportEfforts" (nullable (array string)),
      optional "defaultEffort" (nullable string)]))

def servicesConfigPatchSchema : List Field :=
  [optional "moonshotSearch" (object (partialShape moonshotServiceConfigSchema)),
    optional "moonshotFetch" (object (partialShape moonshotServiceConfigSchema))]

def kimiConfigPatchSchema : List Field :=
  [optional "providers" (record (fun _ => true) (object providerConfigPatchSchema)),
    optional "defaultProvider" string,
    optional "defaultModel" string,
    optional "models" (record (fun _ => true) modelAliasPatchSchema),
    optional "thinking" (object (partialShape thinkingConfigSchema)),
    optional "discussMode" boolean,
    optional "yolo" boolean,
    optional "defaultPermissionMode" permissionModeSchema,
    optional "defaultDiscussMode" boolean,
    optional "permission" (object (partialShape permissionConfigSchema)),
    optional "hooks" (array (strictObject hookDefSchema)),
    optional "services" (object servicesConfigPatchSchema),
    optional "memory" (object (partialShape memoryConfigSchema)),
    optional "mergeAllAvailableSkills" boolean,
    optional "extraSkillDirs" (array string),
    optional "loopControl" (object (partialShape loopControlSchema)),
    optional "customAgents"
      (record (fun key => key ≠ "") (object (partialShape customAgentConfigSchema))),
    optional "background" (object (partialShape backgroundConfigSchema)),
    optional "team" (object (partialShape teamConfigSchema)),
    optional "modelCatalog" (object (partialShape modelCatalogConfigSchema)),
    optional "experimental" experimentalConfigSchema,
    optional "telemetry" boolean]

def getDefaultConfig : Fields := [("providers", .obj [])]

def validateConfig (config : Fields) : Option Fields := parseFields kimiConfigSchema config

/-! ### A valid configuration is its own -/

@[simp] theorem stable_string : Stable string := stable_text fun _ _ h => h ▸ rfl

@[simp] theorem stable_nonemptyString : Stable nonemptyString := by
  refine stable_text fun s t h => ?_
  split at h <;> cases h
  rename_i hne
  exact if_neg hne

theorem trim_trim (s : String) : trim (trim s) = trim s := by
  have hstart : ∀ l : List Char, ((l.dropWhile isWhiteSpace).rdropWhile isWhiteSpace).dropWhile
      isWhiteSpace = (l.dropWhile isWhiteSpace).rdropWhile isWhiteSpace := by
    intro l
    rw [dropWhile_eq_self_iff]
    intro hpos hwhite
    have hprefix : (l.dropWhile isWhiteSpace).rdropWhile isWhiteSpace <+:
        l.dropWhile isWhiteSpace :=
      rdropWhile_prefix isWhiteSpace _
    have hpos' : 0 < (l.dropWhile isWhiteSpace).length := hpos.trans_le hprefix.length_le
    refine dropWhile_get_zero_not isWhiteSpace l hpos' ?_
    rw [get_eq_getElem, ← hprefix.getElem hpos]
    exact hwhite
  simp only [trim, trimStart, trimEnd, String.toList_ofList]
  rw [hstart, rdropWhile_idempotent]

@[simp] theorem stable_trimmedString : Stable trimmedString := by
  refine stable_text fun s t h => ?_
  split at h
  · cases h
  · rename_i hne
    obtain rfl := Option.some.inj h
    rw [trim_trim, if_neg hne]

@[simp] theorem stable_enum (options : List String) : Stable (enum options) := by
  refine stable_text fun s t h => ?_
  split at h <;> cases h
  rename_i hmem
  exact if_pos hmem

@[simp] theorem stable_integer (min : ℤ) : Stable (integer min) := stable_number _

/-! ### The sections -/

theorem oauthRefSchema_nodup : (oauthRefSchema.map Field.key).Nodup := by
  simp [oauthRefSchema]

theorem oauthRefSchema_stable : ∀ field ∈ oauthRefSchema, field.Stable := by
  simp [oauthRefSchema]

theorem stringRecordSchema_stable : Stable stringRecordSchema := stable_record _ stable_string

theorem providerConfigSchema_nodup : (providerConfigSchema.map Field.key).Nodup := by
  simp [providerConfigSchema]

theorem providerConfigSchema_stable : ∀ field ∈ providerConfigSchema, field.Stable := by
  have hoauth := stable_object oauthRefSchema_nodup oauthRefSchema_stable
  have hsource : Stable (record (fun _ => true) unknown) := stable_record _ stable_unknown
  simp [providerConfigSchema, providerTypeSchema, stable_array, hoauth, hsource,
    stringRecordSchema_stable]

theorem memoryConfigSchema_nodup : (memoryConfigSchema.map Field.key).Nodup := by
  simp [memoryConfigSchema]

theorem memoryConfigSchema_stable : ∀ field ∈ memoryConfigSchema, field.Stable := by
  simp [memoryConfigSchema, stringRecordSchema_stable]

theorem modelAliasBaseSchema_stable : ∀ field ∈ modelAliasBaseSchema, field.Stable := by
  simp [modelAliasBaseSchema, stable_array]

theorem modelAliasSchema_nodup : (modelAliasSchema.map Field.key).Nodup := by
  simp [modelAliasSchema, modelAliasBaseSchema]

theorem modelAliasOverrideSchema_nodup : (modelAliasOverrideSchema.map Field.key).Nodup := by
  rw [modelAliasOverrideSchema, map_key_partialShape]
  have hbase : (modelAliasBaseSchema.map Field.key).Nodup := by
    simp [modelAliasBaseSchema]
  exact hbase.sublist (filter_sublist.map _)

theorem modelAliasOverrideSchema_stable : ∀ field ∈ modelAliasOverrideSchema, field.Stable :=
  stable_partialShape fun field hfield =>
    modelAliasBaseSchema_stable field (mem_of_mem_filter hfield)

theorem modelAliasSchema_stable : ∀ field ∈ modelAliasSchema, field.Stable := by
  intro field hfield
  rcases mem_append.1 hfield with hbase | hoverrides
  · exact modelAliasBaseSchema_stable field hbase
  · rw [mem_singleton.1 hoverrides, stable_optional]
    exact stable_object modelAliasOverrideSchema_nodup modelAliasOverrideSchema_stable

theorem thinkingConfigSchema_nodup : (thinkingConfigSchema.map Field.key).Nodup := by
  simp [thinkingConfigSchema]

theorem thinkingConfigSchema_stable : ∀ field ∈ thinkingConfigSchema, field.Stable := by
  simp [thinkingConfigSchema]

theorem permissionRuleSchema_nodup : (permissionRuleSchema.map Field.key).Nodup := by
  simp [permissionRuleSchema]

theorem permissionRuleSchema_stable : ∀ field ∈ permissionRuleSchema, field.Stable := by
  have hscope : (withDefault "scope" (enum ["turn-override", "session-runtime", "project",
      "user"]) (.str "user")).Stable :=
    stable_withDefault (stable_enum _) (by simp [enum, text])
  have hpattern : Stable (text fun s =>
      if s ≠ "" ∧ isValidPermissionPattern s = true then some s else none) := by
    refine stable_text fun s t h => ?_
    split at h <;> cases h
    rename_i hvalid
    exact if_pos hvalid
  simp only [permissionRuleSchema, forall_mem_cons, stable_required, stable_optional]
  exact ⟨stable_enum _, hscope, hpattern, stable_string, fun _ h => absurd h not_mem_nil⟩

theorem permissionConfigSchema_nodup : (permissionConfigSchema.map Field.key).Nodup := by
  simp [permissionConfigSchema]

theorem permissionConfigSchema_stable : ∀ field ∈ permissionConfigSchema, field.Stable := by
  have hrule := stable_object permissionRuleSchema_nodup permissionRuleSchema_stable
  simp [permissionConfigSchema, stable_array, hrule]

theorem loopControlSchema_nodup : (loopControlSchema.map Field.key).Nodup := by
  simp [loopControlSchema]

theorem loopControlSchema_stable : ∀ field ∈ loopControlSchema, field.Stable := by
  simp [loopControlSchema]

theorem customAgentConfigSchema_nodup : (customAgentConfigSchema.map Field.key).Nodup := by
  simp [customAgentConfigSchema]

theorem customAgentConfigSchema_stable : ∀ field ∈ customAgentConfigSchema, field.Stable := by
  have hprofile : (withDefault "baseProfile" (enum ["agent", "nori-agent", "nori-coder"])
      (.str "agent")).Stable :=
    stable_withDefault (stable_enum _) (by simp [enum, text])
  have henabled : (withDefault "enabled" boolean (.bool true)).Stable :=
    stable_withDefault stable_boolean rfl
  have hpermissions : Stable (object customAgentPermissionsSchema) :=
    stable_object (by simp [customAgentPermissionsSchema]) (by simp [customAgentPermissionsSchema])
  simp [customAgentConfigSchema, hprofile, henabled, hpermissions]

theorem backgroundConfigSchema_nodup : (backgroundConfigSchema.map Field.key).Nodup := by
  simp [backgroundConfigSchema]

theorem backgroundConfigSchema_stable : ∀ field ∈ backgroundConfigSchema, field.Stable := by
  simp [backgroundConfigSchema]

theorem hookDefSchema_nodup : (hookDefSchema.map Field.key).Nodup := by
  simp [hookDefSchema]

theorem hookDefSchema_stable : ∀ field ∈ hookDefSchema, field.Stable := by
  simp [hookDefSchema]

theorem moonshotServiceConfigSchema_nodup : (moonshotServiceConfigSchema.map Field.key).Nodup := by
  simp [moonshotServiceConfigSchema]

theorem moonshotServiceConfigSchema_stable :
    ∀ field ∈ moonshotServiceConfigSchema, field.Stable := by
  have hoauth := stable_object oauthRefSchema_nodup oauthRefSchema_stable
  simp [moonshotServiceConfigSchema, hoauth, stringRecordSchema_stable]

theorem servicesConfigSchema_nodup : (servicesConfigSchema.map Field.key).Nodup := by
  simp [servicesConfigSchema]

theorem servicesConfigSchema_stable : ∀ field ∈ servicesConfigSchema, field.Stable := by
  have hservice :=
    stable_object moonshotServiceConfigSchema_nodup moonshotServiceConfigSchema_stable
  simp [servicesConfigSchema, hservice]

theorem kimiConfigSchema_nodup : (kimiConfigSchema.map Field.key).Nodup := by
  simp [kimiConfigSchema]

theorem kimiConfigSchema_stable : ∀ field ∈ kimiConfigSchema, field.Stable := by
  have hprovider := stable_object providerConfigSchema_nodup providerConfigSchema_stable
  have hproviders : (withDefault "providers" (record (fun _ => true)
      (object providerConfigSchema)) (.obj [])).Stable :=
    stable_withDefault (stable_record _ hprovider) rfl
  have hmodels : Stable (record (fun _ => true) (object modelAliasSchema)) :=
    stable_record _ (stable_object modelAliasSchema_nodup modelAliasSchema_stable)
  have hagents : Stable (record (fun key => key ≠ "") (object customAgentConfigSchema)) :=
    stable_record _ (stable_object customAgentConfigSchema_nodup customAgentConfigSchema_stable)
  have hthinking := stable_object thinkingConfigSchema_nodup thinkingConfigSchema_stable
  have hpermission := stable_object permissionConfigSchema_nodup permissionConfigSchema_stable
  have hhooks := stable_array (stable_strictObject hookDefSchema_nodup hookDefSchema_stable)
  have hservices := stable_object servicesConfigSchema_nodup servicesConfigSchema_stable
  have hmemory := stable_object memoryConfigSchema_nodup memoryConfigSchema_stable
  have hloop := stable_object loopControlSchema_nodup loopControlSchema_stable
  have hbackground := stable_object backgroundConfigSchema_nodup backgroundConfigSchema_stable
  have hteam : Stable (object teamConfigSchema) :=
    stable_object (by simp [teamConfigSchema]) (by simp [teamConfigSchema])
  have hcatalog : Stable (object modelCatalogConfigSchema) :=
    stable_object (by simp [modelCatalogConfigSchema]) (by simp [modelCatalogConfigSchema])
  have hexperimental : Stable experimentalConfigSchema := stable_record _ stable_boolean
  have hraw : Stable (record (fun _ => true) unknown) := stable_record _ stable_unknown
  simp only [kimiConfigSchema, forall_mem_cons, stable_optional]
  exact ⟨hproviders, stable_string, stable_string, hmodels, hthinking, stable_boolean,
    stable_boolean, stable_enum _, stable_boolean, hpermission, hhooks, hservices, hmemory,
    stable_boolean, stable_array stable_string, hloop, hagents, hbackground, hteam, hcatalog,
    hexperimental, stable_boolean, hraw, fun _ h => absurd h not_mem_nil⟩

/-- **A valid configuration is its own.** -/
theorem validateConfig_validateConfig {config valid : Fields}
    (h : validateConfig config = some valid) : validateConfig valid = some valid :=
  parseFields_of_parseFields kimiConfigSchema_nodup kimiConfigSchema_stable h

end NoriCode
