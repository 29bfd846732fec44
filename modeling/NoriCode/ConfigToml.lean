/-
**The configuration and its file.**

`config.toml` names what it has in snake case, the configuration in camel case.  The reader goes
through the keys of the file, the writer through those of the configuration; each lists the sections
it knows.  The writer begins with the data of the file that was read, which the configuration keeps
as `raw`, and sets what the configuration has; so comments aside, what it does not know stays.

The module embeds `config/toml.ts`, apart from what salvages a broken file.  The TOML library is a
parameter.  Numbers that are not finite, and keys that an object has from its prototype, are left
out.

Main definitions:

* `transformTomlData`, `parseConfigString` — the reader;
* `configToTomlData` — the writer.

Main results:

* `snakeToCamel_camelToSnake` — a key that is written is read back;
* `eq_of_snakeToCamel_eq` — a key without capitals has one spelling.
-/

import Mathlib
import NoriCode.ConfigSchema

namespace NoriCode

open LibRecords LibSchemas

/-! ### Keys -/

def snakeToCamelChars : List Char → List Char
  | [] => []
  | [c] => [c]
  | c :: d :: l =>
    if c = '_' ∧ d.isLower = true then d.toUpper :: snakeToCamelChars l
    else c :: snakeToCamelChars (d :: l)

def snakeToCamel (s : String) : String := String.ofList (snakeToCamelChars s.toList)

def camelToSnakeChars (l : List Char) : List Char :=
  l.flatMap fun c => if c.isUpper = true then ['_', c.toLower] else [c]

def camelToSnake (s : String) : String := String.ofList (camelToSnakeChars s.toList)

/-! ### Values -/

def isPlainObject (value : Value) : Bool := value.entries?.isSome

/-- `Object.entries` -/
def entriesOf (value : Value) : Fields := value.entries?.getD []

mutual

/-- `JSON.parse(JSON.stringify(value))`: a date becomes a text. -/
def cloneUnknown : Value → Value
  | .date s => .str s
  | .arr l => .arr (cloneValues l)
  | .obj l => .obj (cloneFields l)
  | .null => .null
  | .bool b => .bool b
  | .num q => .num q
  | .str s => .str s

def cloneValues : List Value → List Value
  | [] => []
  | v :: l => cloneUnknown v :: cloneValues l

def cloneFields : List (String × Value) → List (String × Value)
  | [] => []
  | field :: l => cloneField field :: cloneFields l

def cloneField : String × Value → String × Value
  | (key, v) => (key, cloneUnknown v)

end

/-- No date is ever cloned as a record: `raw` has texts in place of dates. -/
def cloneRecord : Option Value → Fields
  | some (.obj l) => cloneFields l
  | _ => []

def cloneObjectValue (value : Value) : Value :=
  if isPlainObject value then cloneUnknown value else value

/-! ### The reader -/

def transformPlainObject (data : Fields) : Fields := translate snakeToCamel (fun _ v => some v) data

def transformRecord (value : Fields) (transformEntry : Fields → Fields)
    (transformName : String → String) : Fields :=
  translate transformName (fun _ v => some
    (match v.entries? with
    | some entry => .obj (transformEntry entry)
    | none => v)) value

/-- A value that is an object, with its keys in camel case. -/
def transformPlainValue (value : Value) : Value :=
  match value.entries? with
  | some data => .obj (transformPlainObject data)
  | none => value

/-- A value of a provider or a service: `oauth` is an object, and some values are copied. -/
def transformEntryValue (cloned : List String) (key : String) (value : Value) : Value :=
  if key = "oauth" then transformPlainValue value
  else if key ∈ cloned then cloneObjectValue value
  else value

def transformProviderData (data : Fields) : Fields :=
  translate snakeToCamel
    (fun key v => some (transformEntryValue ["env", "customHeaders"] key v)) data

def transformModelData (data : Fields) : Fields :=
  let out := transformPlainObject data
  match (get "overrides" out).bind Value.entries? with
  | some overrides => set "overrides" (.obj (transformPlainObject overrides)) out
  | none => out

def transformPermissionRule (decision : Option String) (value : Value) : Value :=
  match value.entries? with
  | none => value
  | some data =>
    let rule := transformPlainObject data
    let pattern : Option Value :=
      match get "tool" rule with
      | some (.str tool) =>
        let argPattern : Option Value :=
          match get "match" rule with
          | some (.str s) => some (.str s)
          | _ => get "pattern" rule
        match argPattern with
        | some (.str s) => some (.str s!"{tool}({s})")
        | _ => some (.str tool)
      | _ => get "pattern" rule
    let decision : Option Value :=
      match decision with
      | some decision => some (.str decision)
      | none => get "decision" rule
    .obj (put "pattern" pattern (put "reason" (get "reason" rule)
      (put "scope" (get "scope" rule) (put "decision" decision []))))

def permissionRules (value : Option Value) (decision : Option String) : List Value :=
  match value with
  | none => []
  | some (.arr entries) => entries.map (transformPermissionRule decision)
  | some entry => [transformPermissionRule decision entry]

def transformPermissionData (data : Fields) : Fields :=
  let raw := transformPlainObject data
  let rules := permissionRules (get "rules" raw) none ++ permissionRules (get "deny" raw) "deny" ++
    permissionRules (get "allow" raw) "allow" ++ permissionRules (get "ask" raw) "ask"
  if rules.isEmpty then [] else [("rules", .arr rules)]

def transformServiceData (data : Fields) : Fields :=
  translate snakeToCamel (fun key v => some (transformEntryValue ["customHeaders"] key v)) data

def transformLoopControlData (data : Fields) : Fields :=
  let out := transformPlainObject data
  let out :=
    match get "maxStepsPerTurn" out, get "maxStepsPerRun" out with
    | none, some v => set "maxStepsPerTurn" v out
    | _, _ => out
  delete "maxStepsPerRun" out

/-- What `transformTomlData` makes of the value of a key. -/
def transformSection (key : String) (value : Value) : Option Value :=
  match value.entries? with
  | none => some value
  | some data =>
    match key with
    | "providers" => some (.obj (transformRecord data transformProviderData id))
    | "models" => some (.obj (transformRecord data transformModelData id))
    | "thinking" => some (.obj (transformPlainObject data))
    | "permission" => some (.obj (transformPermissionData data))
    | "services" => some (.obj (transformRecord data transformServiceData snakeToCamel))
    | "memory" => some (.obj (transformPlainObject data))
    | "loopControl" => some (.obj (transformLoopControlData data))
    | "customAgents" => some (.obj (transformRecord data transformPlainObject id))
    | "background" => some (.obj (transformPlainObject data))
    | "experimental" => some (cloneUnknown value)
    | _ => none

def transformTomlData (data : Fields) : Fields := translate snakeToCamel transformSection data

def parseConfigData (data : Fields) : Option Fields :=
  parseFields kimiConfigSchema (set "raw" (.obj (cloneFields data)) (transformTomlData data))

/-! ### The writer -/

/-- The entries of an object are set, with their keys in snake case. -/
def setEntries (out : Fields) (value : Value) (toToml : String → Value → Value) : Fields :=
  assign out ((entriesOf value).map fun entry => (camelToSnake entry.1, toToml entry.1 entry.2))

def oauthToToml (oauth : Value) : Fields := setEntries [] oauth fun _ v => v

/-- A value of a provider or a service. -/
def entryValueToToml (cloned : List String) (key : String) (value : Value) : Value :=
  if key = "oauth" then .obj (oauthToToml value)
  else if key ∈ cloned then cloneUnknown value
  else value

def providerToToml (provider : Value) (rawProvider : Option Value) : Fields :=
  setEntries (cloneRecord rawProvider) provider (entryValueToToml ["env", "customHeaders"])

def modelOverridesToToml (overrides : Value) (rawOverrides : Option Value) : Fields :=
  setEntries (cloneRecord rawOverrides) overrides fun _ v => v

def modelToToml (model : Value) (rawModel : Option Value) : Fields :=
  setEntries (cloneRecord rawModel) model fun key value =>
    if key = "overrides" ∧ isPlainObject value then
      .obj (modelOverridesToToml value
        ((rawModel.bind Value.entries?).bind fun raw => get "overrides" raw))
    else value

def thinkingToToml (thinking : Value) (rawThinking : Option Value) : Fields :=
  setEntries (delete "mode" (cloneRecord rawThinking)) thinking fun _ v => v

def permissionRuleToToml (rule : Value) : Value := .obj (setEntries [] rule fun _ v => v)

def permissionToToml (permission : Value) (rawPermission : Option Value) : Fields :=
  let out := delete "ask" (delete "allow" (delete "deny" (cloneRecord rawPermission)))
  put "rules" (match get "rules" (entriesOf permission) with
    | some (.arr rules) => some (.arr (rules.map permissionRuleToToml))
    | _ => none) out

def serviceToToml (service : Value) : Value :=
  .obj (setEntries [] service (entryValueToToml ["customHeaders"]))

def servicesToToml (services : Value) (rawServices : Option Value) : Fields :=
  let out := cloneRecord rawServices
  let out := put "moonshot_search" ((get "moonshotSearch" (entriesOf services)).map serviceToToml)
    out
  put "moonshot_fetch" ((get "moonshotFetch" (entriesOf services)).map serviceToToml) out

def memoryToToml (memory : Value) (rawMemory : Option Value) : Fields :=
  setEntries (cloneRecord rawMemory) memory fun _ v => v

def loopControlToToml (loopControl : Value) (rawLoopControl : Option Value) : Fields :=
  setEntries (cloneRecord rawLoopControl) loopControl fun _ v => v

def customAgentToToml (agent : Value) (raw : Option Value) : Fields :=
  setEntries (cloneRecord raw) agent fun _ v => v

def backgroundToToml (background : Value) (rawBackground : Option Value) : Fields :=
  setEntries (cloneRecord rawBackground) background fun _ v => v

def experimentalToToml (experimental : Value) (_rawExperimental : Option Value) : Fields :=
  assign [] (entriesOf experimental)

def hookToToml (hook : Value) : Value := .obj (setEntries [] hook fun _ v => v)

/-- A section that has nothing is deleted. -/
def setSection (snakeKey : String) (value : Option Value)
    (toToml : Value → Option Value → Fields) (out : Fields) : Fields :=
  put snakeKey (value.bind fun value =>
    let converted := toToml value (some (.obj (cloneRecord (get snakeKey out))))
    if converted.isEmpty then none else some (.obj converted)) out

/-- The entries of a section of records. -/
def recordToToml (toToml : Value → Option Value → Fields) (value : Value)
    (raw : Option Value) : Fields :=
  assign [] ((entriesOf value).map fun entry =>
    (entry.1, .obj (toToml entry.2 (get entry.1 (cloneRecord raw)))))

def setRecordSection (snakeKey : String) (value : Option Value)
    (toToml : Value → Option Value → Fields) (out : Fields) : Fields :=
  setSection snakeKey value (recordToToml toToml) out

def setHooks (hooks : Option Value) (out : Fields) : Fields :=
  put "hooks" (match hooks with
    | some (.arr hooks) => some (.arr (hooks.map hookToToml))
    | _ => none) out

/-- The scalars of a configuration. -/
def scalarFields : List String :=
  ["defaultProvider", "defaultModel", "discussMode", "yolo", "defaultPermissionMode",
    "defaultDiscussMode", "mergeAllAvailableSkills", "extraSkillDirs", "telemetry"]

/-- Deprecated keys. -/
def deprecatedKeys : List String :=
  ["default_yolo", "defaultYolo", "defaultPermissionMode", "default_thinking", "defaultThinking"]

def configToTomlData (config : Fields) : Fields :=
  let out := cloneRecord (get "raw" config)
  let out := deprecatedKeys.foldl (fun out key => delete key out) out
  let out := scalarFields.foldl (fun out key => put (camelToSnake key) (get key config) out) out
  let out := setRecordSection "providers" (get "providers" config) providerToToml out
  let out := setRecordSection "models" (get "models" config) modelToToml out
  let out := setSection "thinking" (get "thinking" config) thinkingToToml out
  let out := setSection "services" (get "services" config) servicesToToml out
  let out := setSection "memory" (get "memory" config) memoryToToml out
  let out := setSection "loop_control" (get "loopControl" config) loopControlToToml out
  let out := setRecordSection "custom_agents" (get "customAgents" config) customAgentToToml out
  let out := setSection "background" (get "background" config) backgroundToToml out
  let out := setSection "experimental" (get "experimental" config) experimentalToToml out
  let out := setSection "permission" (get "permission" config) permissionToToml out
  setHooks (get "hooks" config) out

/-! ### The file -/

/-- Reserved keys, for a model that is given by the environment. -/
def envModelProviderKey : String := "__nori_env__"

def envModelAliasKey : String := "__nori_env_model__"

def rawDefaultModel (config : Fields) : Option Value :=
  match get "default_model" (entriesOf ((get "raw" config).getD .null)) with
  | some (.str s) => some (.str s)
  | _ => none

def rawThinking (config : Fields) : Option Value :=
  match get "thinking" (entriesOf ((get "raw" config).getD .null)) with
  | some (.obj l) => some (.obj l)
  | _ => none

/-- What the environment gives is not written. -/
def stripEnvModelConfig (config : Fields) : Fields :=
  let providers := entriesOf ((get "providers" config).getD .null)
  let models := entriesOf ((get "models" config).getD .null)
  let hasProvider := (get envModelProviderKey providers).isSome
  let hasModel := (get envModelAliasKey models).isSome
  let defaultIsEnv :=
    match get "defaultModel" config with
    | some (.str s) => s == envModelAliasKey
    | _ => false
  if hasProvider || hasModel || defaultIsEnv then
    let config := set "providers" (.obj (delete envModelProviderKey providers)) config
    let config := put "models" ((get "models" config).map fun _ =>
      .obj (delete envModelAliasKey models)) config
    let config :=
      if defaultIsEnv then put "defaultModel" (rawDefaultModel config) config else config
    put "thinking" (rawThinking config) config
  else config

/-- The TOML library. -/
structure SmolToml where
  stringify : Fields → Option String
  parse : String → Option Fields

def parseConfigString (toml : SmolToml) (tomlText : String) : Option Fields :=
  if isBlank tomlText then some getDefaultConfig else (toml.parse tomlText).bind parseConfigData

def writeConfigFile (toml : SmolToml) (config : Fields) : Option String :=
  (validateConfig (stripEnvModelConfig config)).bind fun validated =>
    (toml.stringify (configToTomlData validated)).map fun text => text ++ "\n"

/-! ### Keys that are written and read -/

theorem toUpper_toLower {c : Char} (h : c.isUpper = true) :
    c.toLower.isLower = true ∧ c.toLower.toUpper = c := by
  have hrange : 65 ≤ c.toNat ∧ c.toNat ≤ 90 := by
    simpa [Char.isUpper, Char.le_def, UInt32.le_iff_toNat_le] using h
  have hall : ∀ n, 65 ≤ n → n ≤ 90 → (Char.ofNat n).toLower.isLower = true ∧
      (Char.ofNat n).toLower.toUpper = Char.ofNat n := by decide
  have hc := hall c.toNat hrange.1 hrange.2
  rwa [Char.ofNat_toNat] at hc

theorem snakeToCamelChars_cons {c : Char} (h : c ≠ '_') (l : List Char) :
    snakeToCamelChars (c :: l) = c :: snakeToCamelChars l := by
  cases l with
  | nil => rfl
  | cons d l => rw [snakeToCamelChars, if_neg fun hboth => h hboth.1]

/-- **A key that is written is read back.** -/
theorem snakeToCamel_camelToSnake {s : String} (h : '_' ∉ s.toList) :
    snakeToCamel (camelToSnake s) = s := by
  have hchars : ∀ l : List Char, '_' ∉ l → snakeToCamelChars (camelToSnakeChars l) = l := by
    intro l hl
    induction l with
    | nil => rfl
    | cons c l ih =>
      have hrest := ih fun hmem => hl (.tail _ hmem)
      rw [camelToSnakeChars, List.flatMap_cons, ← camelToSnakeChars]
      by_cases hupper : c.isUpper = true
      · obtain ⟨hlower, hback⟩ := toUpper_toLower hupper
        rw [if_pos hupper, List.cons_append, List.cons_append, List.nil_append,
          snakeToCamelChars, if_pos ⟨rfl, hlower⟩, hback, hrest]
      · have hne : c ≠ '_' := fun heq => hl (heq ▸ (.head _))
        rw [if_neg hupper, List.cons_append, List.nil_append, snakeToCamelChars_cons hne, hrest]
  rw [snakeToCamel, camelToSnake, String.toList_ofList, hchars _ h, String.ofList_toList]

/-- **A key without capitals has one spelling.** -/
theorem eq_of_snakeToCamel_eq {s t : String} (ht : ∀ c ∈ t.toList, c.isUpper = false)
    (h : snakeToCamel s = t) : s = t := by
  have hchars : ∀ l : List Char, (∀ c ∈ snakeToCamelChars l, c.isUpper = false) →
      snakeToCamelChars l = l := by
    intro l
    induction l using snakeToCamelChars.induct with
    | case1 => exact fun _ => rfl
    | case2 c => exact fun _ => rfl
    | case3 c d l hboth ih =>
      intro hnone
      rw [snakeToCamelChars, if_pos hboth] at hnone
      have hupper : d.toUpper.isUpper = true := by
        have hrange : 97 ≤ d.toNat ∧ d.toNat ≤ 122 := by
          simpa [Char.isLower, Char.le_def, UInt32.le_iff_toNat_le] using hboth.2
        have hall : ∀ n, 97 ≤ n → n ≤ 122 → (Char.ofNat n).toUpper.isUpper = true := by decide
        have hd := hall d.toNat hrange.1 hrange.2
        rwa [Char.ofNat_toNat] at hd
      rw [hnone _ (.head _)] at hupper
      cases hupper
    | case4 c d l hnot ih =>
      intro hnone
      rw [snakeToCamelChars, if_neg hnot] at hnone ⊢
      rw [ih fun e he => hnone e (.tail _ he)]
  have hs : snakeToCamelChars s.toList = s.toList := by
    refine hchars _ fun c hc => ht c ?_
    rw [← h, snakeToCamel, String.toList_ofList]
    exact hc
  rw [← h, snakeToCamel, hs, String.ofList_toList]

theorem sectionNames : ∀ name ∈ [("providers", "providers"), ("models", "models"),
    ("custom_agents", "customAgents"), ("thinking", "thinking"), ("memory", "memory"),
    ("background", "background"), ("services", "services"), ("permission", "permission"),
    ("experimental", "experimental"), ("loop_control", "loopControl"), ("hooks", "hooks"),
    ("rules", "rules"), ("moonshot_search", "moonshotSearch"),
    ("moonshot_fetch", "moonshotFetch")],
    snakeToCamel name.1 = name.2 ∧ camelToSnake name.2 = name.1 := by
  decide +kernel

end NoriCode
