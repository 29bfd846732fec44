/-
**The arguments of a tool call as a value.**

The arguments of a call arrive as a text.  They are parsed once, and the value that comes out is
what is validated, handed to the tool and recorded; it is printed again for the record.  A text that
is no JSON text gives an empty object, and so does no text at all.

The module embeds `loop/tool-args-parse.ts`, and what `JSON.parse` makes of a text: of two fields
with one key the last one stands, at the place of the first, and keys that are array indices come
first, in order.  How a number is printed again is a parameter:  `none` for a number that is too
large, which is printed as `null`.  The text of the error, which is only logged, is left out.

Main definitions:

* `jsonValue`, `jsonParse`, `jsonStringify` — `JSON.parse` and
  `JSON.stringify`;
* `parseToolCallArguments`.

Main results:

* `parseToolCallArguments_jsonStringify` — what is printed is read back.
-/

import Mathlib.Data.List.Sort
import NoriCode.JsText
import NoriCode.LibJsonRoundTrip

namespace NoriCode

open LibJson

/-! ### Values -/

/-- The number a run of digits denotes. -/
def decimalValue (digits : List Char) : ℕ :=
  digits.foldl (fun n c => n * 10 + (c.toNat - '0'.toNat)) 0

/-- A key that is an array index, as a number. -/
def arrayIndex (key : List Char) : Option ℕ :=
  if isDigits key && (key == ['0'] || key.head? != some '0') &&
      decide (decimalValue key < 2 ^ 32 - 1) then
    some (decimalValue key)
  else none

/-- A field is set on an object: the last value stands, at the place of the first. -/
def setField (fields : List (List Char × Json)) (field : List Char × Json) :
    List (List Char × Json) :=
  if fields.any (·.1 == field.1) then
    fields.map fun f => if f.1 == field.1 then field else f
  else fields ++ [field]

/-- The fields of an object in the order they are listed: array indices first. -/
def orderedFields (fields : List (List Char × Json)) : List (List Char × Json) :=
  (fields.filter fun f => (arrayIndex f.1).isSome).insertionSort
      (fun f g => (arrayIndex f.1).getD 0 ≤ (arrayIndex g.1).getD 0) ++
    fields.filter fun f => (arrayIndex f.1).isNone

section Parse

variable (printNumber : NumberText → Option NumberText)

mutual

/-- The value of a JSON text that has been read, as it is printed again. -/
def jsonValue : Json → Json
  | .null => .null
  | .bool b => .bool b
  | .num n => ((printNumber n).map Json.num).getD .null
  | .str s => .str s
  | .arr xs => .arr (jsonValues xs)
  | .obj fields => .obj (orderedFields (jsonFields [] fields))

def jsonValues : List Json → List Json
  | [] => []
  | x :: xs => jsonValue x :: jsonValues xs

/-- The fields are set one after the other. -/
def jsonFields (seen : List (List Char × Json)) : List (List Char × Json) → List (List Char × Json)
  | [] => seen
  | f :: fs => jsonFields (setField seen (jsonField f)) fs

def jsonField : List Char × Json → List Char × Json
  | (key, value) => (key, jsonValue value)

end

/-- `JSON.parse`. -/
def jsonParse (text : String) : Option Json := (parse text.toList).map (jsonValue printNumber)

end Parse

/-- `JSON.stringify`. -/
def jsonStringify (value : Json) : String := String.ofList (stringify value)

variable (printNumber : NumberText → Option NumberText)

/-! ### Arguments -/

structure ParseToolArgsResult where
  data : Json
  parseFailed : Bool

def parseToolCallArguments (printNumber : NumberText → Option NumberText) (raw : Option String) :
    ParseToolArgsResult :=
  match raw with
  | none => { data := .obj [], parseFailed := false }
  | some raw =>
    if raw.toList.length = 0 then { data := .obj [], parseFailed := false }
    else
      match jsonParse printNumber raw with
      | some data => { data, parseFailed := false }
      | none => { data := .obj [], parseFailed := true }

/-- **What is printed is read back.** -/
theorem parseToolCallArguments_jsonStringify (value : Json) :
    parseToolCallArguments printNumber (some (jsonStringify value)) =
      { data := jsonValue printNumber value, parseFailed := false } := by
  have hparse : jsonParse printNumber (jsonStringify value) =
      some (jsonValue printNumber value) := by
    rw [jsonParse, jsonStringify, String.toList_ofList, parse_stringify]
    rfl
  have hne : (jsonStringify value).toList.length ≠ 0 := by
    intro hnil
    rw [jsonParse, List.length_eq_zero_iff.1 hnil] at hparse
    cases hparse
  rw [parseToolCallArguments, if_neg hne, hparse]

/-! ### Objects -/

/-- The value is an object. -/
def isObject : Json → Bool
  | .obj _ => true
  | _ => false

theorem isObject_jsonValue (value : Json) :
    isObject (jsonValue printNumber value) = isObject value := by
  cases value with
  | num n =>
    rw [jsonValue]
    cases printNumber n <;> rfl
  | null | bool | str => rw [jsonValue]
  | arr | obj => rw [jsonValue]; rfl

/-- The text is a JSON text whose value is no object. -/
def otherThanObject (raw : Option String) : Bool :=
  match raw with
  | none => false
  | some raw => (parse raw.toList).any (!isObject ·)

/-- The parsed arguments are an object, unless the text denotes something else. -/
theorem isObject_parseToolCallArguments (raw : Option String) :
    isObject (parseToolCallArguments printNumber raw).data = !otherThanObject raw := by
  cases raw with
  | none => rfl
  | some raw =>
    rw [parseToolCallArguments, otherThanObject]
    split_ifs with hempty
    · rw [List.length_eq_zero_iff.1 hempty]
      rfl
    · rw [jsonParse]
      cases parse raw.toList with
      | none => rfl
      | some value => simp [isObject_jsonValue]

end NoriCode
