/-
**Migrations of the wire log.**

The first record of a log names the version of the protocol it was written in.  The migrations from
that version to the current one are applied to every record one after the other; a version without
a migration is an error, and a version that is not written in numbers is taken as current.

Main definitions:

* `compareWireVersions`, `resolveWireMigrations` — which migrations are needed;
* `MIGRATIONS`, `migrateWireRecord` — what they do;
* `stampVersion` — the version of a migrated metadata record.

Main results:

* `migrateWireRecord_metadata` — metadata is not migrated;
* `stampVersion_stamped` — stamping again changes nothing.
-/

import NoriCode.WireRecords

namespace NoriCode

open LibJson List Option

/-! ### Versions -/

def AGENT_WIRE_PROTOCOL_VERSION : String := "1.4"

/-- `version.split('.')`. -/
def versionParts : List Char → List (List Char)
  | [] => [[]]
  | c :: version =>
    if c = '.' then [] :: versionParts version
    else
      match versionParts version with
      | [] => [[c]]
      | part :: parts => (c :: part) :: parts

/-- `Number(part)` for a part of a version; `NaN` for what is not written in digits. -/
def versionNumber (part : List Char) : Option ℤ :=
  if part.all Char.isDigit then some (part.foldl (fun n c => 10 * n + (c.toNat - '0'.toNat)) 0)
  else none

/-- The difference of two parts, where it is a number. -/
def versionDiff (a b : List Char) : Option ℤ := do
  return (← versionNumber a) - (← versionNumber b)

/-- How two versions compare: the first difference that is not zero, with zero for a missing part.
No comparison with `NaN` holds. -/
def compareWireVersions (a b : List Char) : Option ℤ :=
  (((List.range (max (versionParts a).length (versionParts b).length)).map fun i =>
    versionDiff ((versionParts a)[i]?.getD ['0']) ((versionParts b)[i]?.getD ['0'])).find?
      (· ≠ some 0)).getD (some 0)

def isNewerWireVersion (readVersion : List Char) : Bool :=
  (compareWireVersions readVersion AGENT_WIRE_PROTOCOL_VERSION.toList).any (0 < ·)

/-! ### The migrations -/

structure WireMigration where
  sourceVersion : String
  targetVersion : String
  migrateRecord : Json → Option Json

/-- A tool call without the `function` around its name and arguments. -/
def migrateToolCall (toolCall : Json) : Option Json := do
  let fn ← member (some toolCall) "function"
  let name ← member fn "name"
  let arguments ← member fn "arguments"
  match toolCall with
  | .obj fields =>
    return .obj (withField (withField (withField fields "function" none) "name" name)
      "arguments" arguments)
  | _ => none

def migrateV1_0ToV1_1 : WireMigration where
  sourceVersion := "1.0"
  targetVersion := "1.1"
  migrateRecord record := do
    let type ← member (some record) "type"
    if !isString type "context.append_message" then return record
    let message ← member (some record) "message"
    let toolCalls ← member message "toolCalls"
    match record, message, toolCalls with
    | .obj fields, some (.obj message), some (.arr toolCalls) => do
        let toolCalls ← toolCalls.mapM migrateToolCall
        return .obj (withField fields "message"
          (some (.obj (withField message "toolCalls" (some (.arr toolCalls))))))
    | _, _, _ => none

def LEGACY_SESSION_APPROVAL_ACTION_TO_PATTERN : List (String × String) :=
  [("run command", "Bash"), ("stop background task", "TaskStop"), ("edit file", "Write"),
    ("edit file outside of working directory", "Write"), ("write file", "Write")]

def LEGACY_SESSION_APPROVAL_UNRESTORABLE_ACTIONS : List String := ["run background command"]

/-- The rule a session approval of an action stands for, if there is one. -/
def legacyApprovalPattern (action toolName : Option Json) : Option Json :=
  if LEGACY_SESSION_APPROVAL_UNRESTORABLE_ACTIONS.any (isString action) then none
  else
    match LEGACY_SESSION_APPROVAL_ACTION_TO_PATTERN.find? fun p => isString action p.1 with
    | some p => some (.str p.2.toList)
    | none => toolName

def migrateV1_1ToV1_2 : WireMigration where
  sourceVersion := "1.1"
  targetVersion := "1.2"
  migrateRecord record := do
    let type ← member (some record) "type"
    if !isString type "permission.record_approval_result" then return record
    let result ← member (some record) "result"
    let decision ← member result "decision"
    let scope ← member result "scope"
    if !isString decision "approved" || !isString scope "session" then return record
    let rule ← member (some record) "sessionApprovalRule"
    if rule.isSome then return record
    let action ← member (some record) "action"
    let toolName ← member (some record) "toolName"
    match record, legacyApprovalPattern action toolName with
    | .obj fields, some pattern =>
      return .obj (withField fields "sessionApprovalRule" (some pattern))
    | _, _ => return record

/-- The version after this one writes large media as references, which needs no migration. -/
def migrateV1_2ToV1_3 : WireMigration where
  sourceVersion := "1.2"
  targetVersion := "1.3"
  migrateRecord record := some record

/-- A record with some of the fields of another one, in this order. -/
def pickFields (type : String) (fields : List (List Char × Json)) (keys : List String) : Json :=
  .obj (("type".toList, .str type.toList) ::
    keys.filterMap fun key => (lookupField fields key).map fun value => (key.toList, value))

def migrateGoalCreate (fields : List (List Char × Json)) : Json :=
  pickFields "goal.create" fields ["goalId", "objective", "completionCriterion", "time"]

def migrateGoalUpdate (fields : List (List Char × Json)) : Json :=
  pickFields "goal.update" fields
    ["status", "reason", "turnsUsed", "tokensUsed", "wallClockMs", "actor", "time"]

def migrateGoalAccountUsage (fields : List (List Char × Json)) : Json :=
  pickFields "goal.update" fields ["tokensUsed", "wallClockMs", "time"]

def migrateGoalContinuation (fields : List (List Char × Json)) : Json :=
  pickFields "goal.update" fields ["turnsUsed", "time"]

def migrateGoalClear (fields : List (List Char × Json)) : Json :=
  pickFields "goal.clear" fields ["time"]

def migrateV1_3ToV1_4 : WireMigration where
  sourceVersion := "1.3"
  targetVersion := "1.4"
  migrateRecord record := do
    let type ← member (some record) "type"
    match record with
    | .obj fields =>
      if isString type "goal.create" then return migrateGoalCreate fields
      else if isString type "goal.update" then return migrateGoalUpdate fields
      else if isString type "goal.account_usage" then return migrateGoalAccountUsage fields
      else if isString type "goal.continuation" then return migrateGoalContinuation fields
      else if isString type "goal.clear" then return migrateGoalClear fields
      else return record
    | _ => return record

def MIGRATIONS : List WireMigration :=
  [migrateV1_0ToV1_1, migrateV1_1ToV1_2, migrateV1_2ToV1_3, migrateV1_3ToV1_4]

def findMigration (sourceVersion : List Char) : Option WireMigration :=
  MIGRATIONS.find? fun migration => migration.sourceVersion.toList = sourceVersion

/-- The migrations from a version on, each from where the one before ended.  The fuel bounds their
number. -/
def resolveFrom : ℕ → List Char → Option (List WireMigration)
  | 0, _ => none
  | fuel + 1, version =>
    if (compareWireVersions version AGENT_WIRE_PROTOCOL_VERSION.toList).any (· < 0) then do
      let migration ← findMigration version
      return migration :: (← resolveFrom fuel migration.targetVersion.toList)
    else some []

/-- **The migrations a log needs**; nothing if one is missing. -/
def resolveWireMigrations (readVersion : List Char) : Option (List WireMigration) :=
  if (compareWireVersions readVersion AGENT_WIRE_PROTOCOL_VERSION.toList).any (0 ≤ ·) then some []
  else resolveFrom (MIGRATIONS.length + 1) readVersion

/-- **A record after all migrations.** -/
def migrateWireRecord (record : Json) (migrations : List WireMigration) : Option Json :=
  migrations.foldlM (fun current migration => migration.migrateRecord current) record

/-- A metadata record says the current version. -/
def stampVersion (record : Json) : Option Json := do
  let type ← member (some record) "type"
  match record with
  | .obj fields =>
    if isString type "metadata" then
      return .obj (withField fields "protocol_version"
        (some (.str AGENT_WIRE_PROTOCOL_VERSION.toList)))
    else return record
  | _ => return record

/-! ### Which migrations are needed -/

variable {migrations : List WireMigration}

theorem resolveFrom_mem {fuel : ℕ} {version : List Char}
    (h : resolveFrom fuel version = some migrations) : ∀ m ∈ migrations, m ∈ MIGRATIONS := by
  induction fuel generalizing version migrations with
  | zero => cases h
  | succ fuel ih =>
    rw [resolveFrom] at h
    split_ifs at h with hlt
    · obtain ⟨migration, hfind, h⟩ := bind_eq_some_iff.1 h
      obtain ⟨rest, hrest, hval⟩ := bind_eq_some_iff.1 h
      cases hval
      intro m hm
      cases mem_cons.1 hm with
      | inl hm => exact hm ▸ mem_of_find?_eq_some hfind
      | inr hm => exact ih hrest m hm
    · cases h
      exact fun m hm => absurd hm not_mem_nil

theorem resolveWireMigrations_mem {readVersion : List Char}
    (h : resolveWireMigrations readVersion = some migrations) :
    ∀ m ∈ migrations, m ∈ MIGRATIONS := by
  unfold resolveWireMigrations at h
  split_ifs at h with hle
  · cases h
    exact fun m hm => absurd hm not_mem_nil
  · exact resolveFrom_mem h

/-! ### Metadata -/

/-- A record of which the type is `metadata`. -/
def IsMetadata (record : Json) : Prop :=
  ∃ fields, record = .obj fields ∧ isString (lookupField fields "type") "metadata" = true

variable {record : Json}

theorem migrateRecord_metadata {migration : WireMigration} (h : migration ∈ MIGRATIONS)
    (hrecord : IsMetadata record) :
    migration.migrateRecord record = some record := by
  obtain ⟨fields, rfl, htype⟩ := hrecord
  have hother : ∀ s, s ≠ "metadata" → isString (lookupField fields "type") s = false := fun s hs =>
    Bool.eq_false_iff.2 fun hm => hs (isString_eq hm htype)
  have hmessage := hother "context.append_message" (by decide)
  have happroval := hother "permission.record_approval_result" (by decide)
  have hcreate := hother "goal.create" (by decide)
  have hupdate := hother "goal.update" (by decide)
  have husage := hother "goal.account_usage" (by decide)
  have hcontinuation := hother "goal.continuation" (by decide)
  have hclear := hother "goal.clear" (by decide)
  simp only [MIGRATIONS, mem_cons, not_mem_nil, or_false] at h
  obtain rfl | rfl | rfl | rfl := h
  · simp [migrateV1_0ToV1_1, member, hmessage]
  · simp [migrateV1_1ToV1_2, member, happroval]
  · rfl
  · simp [migrateV1_3ToV1_4, member, hcreate, hupdate, husage, hcontinuation, hclear]

/-- **Metadata is not migrated.** -/
theorem migrateWireRecord_metadata
    (h : ∀ m ∈ migrations, m ∈ MIGRATIONS) (hrecord : IsMetadata record) :
    migrateWireRecord record migrations = some record := by
  unfold migrateWireRecord
  induction migrations with
  | nil => rfl
  | cons m migrations ih =>
    rw [foldlM_cons, migrateRecord_metadata (h m (.head _)) hrecord]
    exact ih fun m' hm' => h m' (mem_cons_of_mem m hm')

/-! ### Stamped records -/

/-- A record that says the current version if it is metadata. -/
def Stamped (record : Json) : Prop := stampVersion record = some record

variable {record' : Json}

/-- **Stamping again changes nothing.** -/
theorem stampVersion_stamped (h : stampVersion record = some record') : Stamped record' := by
  cases record with
  | obj fields =>
    simp only [stampVersion, member, Option.bind_eq_bind, Option.bind_some, Option.pure_def] at h
    split_ifs at h with htype
    · cases h
      have htype' : lookupField (withField fields "protocol_version"
          (some (.str AGENT_WIRE_PROTOCOL_VERSION.toList))) "type" = lookupField fields "type" :=
        lookupField_withField_ne (by decide) fields _
      simp [Stamped, stampVersion, member, htype', withField_twice]
    · cases h
      simp [Stamped, stampVersion, member, htype]
  | null => cases h
  | bool | num | str | arr => exact some.inj h ▸ h

theorem Offloaded.stamped (h : Offloaded record record')
    (hrecord : Stamped record) : Stamped record' := by
  obtain rfl | ⟨fields, key, value, rfl, hkey, htype, rfl⟩ := h
  · exact hrecord
  · have htype' := lookupField_withField_ne hkey.symm fields (some value)
    simp [Stamped, stampVersion, member, htype', htype]

theorem Offloaded.metadata (h : Offloaded record record')
    (hrecord : IsMetadata record) : IsMetadata record' := by
  obtain rfl | ⟨fields, key, value, rfl, -, hother, -⟩ := h
  · exact hrecord
  · obtain ⟨fields', hfields, htype⟩ := hrecord
    obtain rfl := Json.obj.inj hfields
    rw [hother] at htype
    cases htype

theorem Stamped.version {fields : List (List Char × Json)} (h : Stamped (.obj fields))
    (htype : isString (lookupField fields "type") "metadata" = true) :
    lookupField fields "protocol_version" = some (.str AGENT_WIRE_PROTOCOL_VERSION.toList) := by
  simp only [Stamped, stampVersion, member, Option.bind_eq_bind, Option.bind_some, htype, if_true,
    Option.pure_def] at h
  have hfields : withField fields "protocol_version"
      (some (.str AGENT_WIRE_PROTOCOL_VERSION.toList)) = fields := Json.obj.inj (some.inj h)
  rw [← hfields]
  exact lookupField_withField _ _ _

end NoriCode
