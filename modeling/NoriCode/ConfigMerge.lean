/-
**Patches of the configuration.**

A patch is merged into the configuration section by section and field by field: an object is merged
into an object, `null` deletes, and everything else replaces.  Before and after, the schema has its
say.

The module embeds `config/merge.ts`.

Main definitions:

* `deepMerge`, `mergeConfigPatch`.
-/

import NoriCode.ConfigToml

namespace NoriCode

open LibRecords LibSchemas

mutual

/-- Nothing is undefined here; what is left is that a date has no fields. -/
def stripUndefinedDeep : Value → Value
  | .date _ => .obj []
  | .arr l => .arr (stripUndefinedValues l)
  | .obj l => .obj (stripUndefinedFields l)
  | .null => .null
  | .bool b => .bool b
  | .num q => .num q
  | .str s => .str s

def stripUndefinedValues : List Value → List Value
  | [] => []
  | v :: l => stripUndefinedDeep v :: stripUndefinedValues l

def stripUndefinedFields : List (String × Value) → List (String × Value)
  | [] => []
  | field :: l => stripUndefinedField field :: stripUndefinedFields l

def stripUndefinedField : String × Value → String × Value
  | (key, v) => (key, stripUndefinedDeep v)

end

mutual

def deepMerge (target : Fields) : List (String × Value) → Fields
  | [] => target
  | field :: source => deepMerge (mergeField target field) source

def mergeField (target : Fields) : String × Value → Fields
  | (key, value) => mergeValue target key value

def mergeValue (target : Fields) (key : String) : Value → Fields
  | .null => delete key target
  | .obj source =>
    match (get key target).bind Value.entries? with
    | some fields => set key (.obj (deepMerge fields source)) target
    | none => set key (.obj source) target
  | .date s =>
    match (get key target).bind Value.entries? with
    | some fields => set key (.obj fields) target
    | none => set key (.date s) target
  | .bool b => set key (.bool b) target
  | .num q => set key (.num q) target
  | .str s => set key (.str s) target
  | .arr l => set key (.arr l) target

end

/-- The patch is strict: it has no keys but those of the configuration. -/
def parsePatch (patch : Fields) : Option Fields :=
  if ∀ entry ∈ patch, entry.1 ∈ kimiConfigPatchSchema.map Field.key then
    (parseFields kimiConfigPatchSchema patch).map stripUndefinedFields
  else none

def mergeConfigPatch (config patch : Fields) : Option Fields :=
  (validateConfig config).bind fun base =>
    (parsePatch patch).bind fun parsedPatch => validateConfig (deepMerge base parsedPatch)

end NoriCode
