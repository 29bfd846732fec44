/-
**JSON texts: the values, the printer and the parser.**

A JSON value is a tree of scalars, arrays and objects.  A number is kept as the text that denotes
it, so no arithmetic on floating point enters: two numbers are the same value when they are
written the same, which is the case for everything the printer writes.

The printer is `LibJson.stringify`, without any white space, and the parser is `LibJson.parse`,
which accepts white space between tokens and rejects everything that is not exactly one value.

Main definitions:

* `LibJson.Json`, `LibJson.NumberText` — the values;
* `LibJson.stringify` — the text of a value;
* `LibJson.parseValue`, `LibJson.parse` — the value at the head of a text, and of a whole text.

Main results are in `NoriCode/LibJsonRoundTrip.lean`.
-/

import Mathlib.Data.List.Basic

namespace LibJson

/-! ### Characters -/

/-- The white space allowed between two tokens. -/
def isWs (c : Char) : Bool := c == ' ' || c == '\t' || c == '\n' || c == '\r'

/-- The characters a number is made of. -/
def isNumberChar (c : Char) : Bool :=
  c.isDigit || c == '-' || c == '+' || c == '.' || c == 'e' || c == 'E'

def skipWs (s : List Char) : List Char := s.dropWhile isWs

/-! ### Numbers -/

/-- A nonempty run of digits and nothing else. -/
def isDigits (s : List Char) : Bool := !s.isEmpty && s.all Char.isDigit

/-- The exponent digits of a number, with their optional sign. -/
def isExponent : List Char → Bool
  | '+' :: s => isDigits s
  | '-' :: s => isDigits s
  | s => isDigits s

/-- What may follow the integer part: a fraction, an exponent, both or neither. -/
def isTail : List Char → Bool
  | [] => true
  | '.' :: s =>
    isDigits (s.takeWhile Char.isDigit) &&
      match s.dropWhile Char.isDigit with
      | [] => true
      | c :: r => (c == 'e' || c == 'E') && isExponent r
  | c :: s => (c == 'e' || c == 'E') && isExponent s

/-- A number without its sign: no leading zero is allowed. -/
def isUnsigned (s : List Char) : Bool :=
  match s.takeWhile Char.isDigit with
  | [] => false
  | '0' :: _ :: _ => false
  | _ => isTail (s.dropWhile Char.isDigit)

/-- The number grammar of JSON. -/
def isNumberText (s : List Char) : Bool :=
  s.all isNumberChar &&
    match s with
    | '-' :: u => isUnsigned u
    | u => isUnsigned u

/-- The text of a number, which is how a number is represented here. -/
structure NumberText where
  text : List Char
  valid : isNumberText text = true

/-! ### Values -/

/-- A JSON value.  The fields of an object are kept in order. -/
inductive Json where
  | null
  | bool (b : Bool)
  | num (n : NumberText)
  | str (s : List Char)
  | arr (xs : List Json)
  | obj (fields : List (List Char × Json))

/-! ### Printing -/

def hexDigit (n : ℕ) : Char :=
  if n < 10 then Char.ofNat ('0'.toNat + n) else Char.ofNat ('a'.toNat + (n - 10))

/-- One character inside a string: the quote, the backslash and the control characters are
escaped, everything else stands for itself. -/
def escapeChar (c : Char) : List Char :=
  if c = '"' then ['\\', '"']
  else if c = '\\' then ['\\', '\\']
  else if c = '\n' then ['\\', 'n']
  else if c = '\r' then ['\\', 'r']
  else if c = '\t' then ['\\', 't']
  else if c = '\x08' then ['\\', 'b']
  else if c = '\x0c' then ['\\', 'f']
  else if c.toNat < 0x20 then
    ['\\', 'u', '0', '0', hexDigit (c.toNat / 16), hexDigit (c.toNat % 16)]
  else [c]

/-- A string with its quotes. -/
def quote (s : List Char) : List Char := '"' :: s.flatMap escapeChar ++ ['"']

mutual

/-- **The text of a value.** -/
def stringify : Json → List Char
  | .null => ['n', 'u', 'l', 'l']
  | .bool true => ['t', 'r', 'u', 'e']
  | .bool false => ['f', 'a', 'l', 's', 'e']
  | .num n => n.text
  | .str s => quote s
  | .arr xs => '[' :: (stringifyElems xs ++ [']'])
  | .obj fs => '{' :: (stringifyFields fs ++ ['}'])

/-- The elements of an array, separated by commas. -/
def stringifyElems : List Json → List Char
  | [] => []
  | x :: xs => stringify x ++ stringifyMoreElems xs

/-- Further elements, each after its comma. -/
def stringifyMoreElems : List Json → List Char
  | [] => []
  | x :: xs => ',' :: (stringify x ++ stringifyMoreElems xs)

/-- The fields of an object, separated by commas. -/
def stringifyFields : List (List Char × Json) → List Char
  | [] => []
  | f :: fs => stringifyField f ++ stringifyMoreFields fs

/-- Further fields, each after its comma. -/
def stringifyMoreFields : List (List Char × Json) → List Char
  | [] => []
  | f :: fs => ',' :: (stringifyField f ++ stringifyMoreFields fs)

/-- One field: its quoted key, a colon and its value. -/
def stringifyField : List Char × Json → List Char
  | (k, v) => quote k ++ ':' :: stringify v

end

/-! ### Parsing -/

/-- The value of a hexadecimal digit. -/
def hexValue (c : Char) : Option ℕ :=
  if c.isDigit then some (c.toNat - '0'.toNat)
  else if 'a' ≤ c ∧ c ≤ 'f' then some (c.toNat - 'a'.toNat + 10)
  else if 'A' ≤ c ∧ c ≤ 'F' then some (c.toNat - 'A'.toNat + 10)
  else none

/-- The code unit four hexadecimal digits denote. -/
def hex4 (a b c d : Char) : Option ℕ := do
  let a ← hexValue a
  let b ← hexValue b
  let c ← hexValue c
  let d ← hexValue d
  return ((a * 16 + b) * 16 + c) * 16 + d

/-- The character a one-letter escape stands for. -/
def unescape (c : Char) : Option Char :=
  if c = '"' then some '"'
  else if c = '\\' then some '\\'
  else if c = '/' then some '/'
  else if c = 'n' then some '\n'
  else if c = 'r' then some '\r'
  else if c = 't' then some '\t'
  else if c = 'b' then some '\x08'
  else if c = 'f' then some '\x0c'
  else none

/-- The rest of a string after its opening quote: its code units and what follows the closing
quote.  A character above the basic plane that is written as itself is one unit here. -/
def parseUnits : List Char → Option (List ℕ × List Char)
  | [] => none
  | '"' :: r => some ([], r)
  | '\\' :: 'u' :: a :: b :: c :: d :: r => do
      let n ← hex4 a b c d
      let (s, r) ← parseUnits r
      return (n :: s, r)
  | '\\' :: e :: r => do
      let c ← unescape e
      let (s, r) ← parseUnits r
      return (c.toNat :: s, r)
  | c :: r =>
    if c = '\\' ∨ c.toNat < 0x20 then none
    else do
      let (s, r) ← parseUnits r
      return (c.toNat :: s, r)

/-- The characters a run of code units denotes.  Two surrogates that form a pair are one
character; a lone surrogate is no character and reads as `U+FFFD`. -/
def ofUnits : List ℕ → List Char
  | [] => []
  | [n] => [if n.isValidChar then Char.ofNat n else Char.ofNat 0xfffd]
  | n :: m :: r =>
    if 0xd800 ≤ n ∧ n < 0xdc00 ∧ 0xdc00 ≤ m ∧ m < 0xe000 then
      Char.ofNat (0x10000 + (n - 0xd800) * 0x400 + (m - 0xdc00)) :: ofUnits r
    else (if n.isValidChar then Char.ofNat n else Char.ofNat 0xfffd) :: ofUnits (m :: r)

/-- A string after its opening quote. -/
def parseChars (s : List Char) : Option (List Char × List Char) := do
  let (units, r) ← parseUnits s
  return (ofUnits units, r)

/-- The number at the head of a text: the longest run of number characters, if it is a number. -/
def parseNumber (s : List Char) : Option (Json × List Char) :=
  if h : isNumberText (s.takeWhile isNumberChar) = true then
    some (.num ⟨s.takeWhile isNumberChar, h⟩, s.dropWhile isNumberChar)
  else none

/-- One or more items separated by commas, up to and with the closing character.  The fuel bounds
the number of items. -/
def parseMany {α : Type} (item : List Char → Option (α × List Char)) (close : Char) :
    ℕ → List Char → Option (List α × List Char)
  | 0, _ => none
  | fuel + 1, s => do
      let (x, r) ← item s
      match skipWs r with
      | [] => none
      | c :: r =>
        if c = ',' then do
          let (xs, r) ← parseMany item close fuel r
          return (x :: xs, r)
        else if c = close then return ([x], r)
        else none

/-- The inside of an array or an object after its opening bracket: nothing, or items. -/
def parseList {α : Type} (item : List Char → Option (α × List Char)) (close : Char)
    (s : List Char) : Option (List α × List Char) :=
  match skipWs s with
  | [] => none
  | c :: r => if c = close then some ([], r) else parseMany item close s.length s

/-- One field of an object. -/
def parseField (value : List Char → Option (Json × List Char)) (s : List Char) :
    Option ((List Char × Json) × List Char) :=
  match skipWs s with
  | '"' :: r => do
      let (k, r) ← parseChars r
      match skipWs r with
      | ':' :: r => do
          let (v, r) ← value r
          return ((k, v), r)
      | _ => none
  | _ => none

/-- **The value at the head of a text**, and the rest of it.  The fuel bounds the nesting. -/
def parseValue : ℕ → List Char → Option (Json × List Char)
  | 0, _ => none
  | fuel + 1, s =>
    match skipWs s with
    | 'n' :: 'u' :: 'l' :: 'l' :: r => some (.null, r)
    | 't' :: 'r' :: 'u' :: 'e' :: r => some (.bool true, r)
    | 'f' :: 'a' :: 'l' :: 's' :: 'e' :: r => some (.bool false, r)
    | '"' :: r => do
        let (s, r) ← parseChars r
        return (.str s, r)
    | '[' :: r => do
        let (xs, r) ← parseList (parseValue fuel) ']' r
        return (.arr xs, r)
    | '{' :: r => do
        let (fs, r) ← parseList (parseField (parseValue fuel)) '}' r
        return (.obj fs, r)
    | r => parseNumber r

/-- **The value of a whole text**: one value with nothing but white space around it. -/
def parse (s : List Char) : Option Json := do
  let (v, r) ← parseValue (s.length + 1) s
  if skipWs r = [] then return v else none

theorem stringify_num (n : NumberText) : stringify (.num n) = n.text := rfl

theorem stringify_str (s : List Char) : stringify (.str s) = quote s := rfl

theorem stringify_arr (xs : List Json) :
    stringify (.arr xs) = '[' :: (stringifyElems xs ++ [']']) := rfl

theorem stringify_obj (fs : List (List Char × Json)) :
    stringify (.obj fs) = '\x7b' :: (stringifyFields fs ++ ['\x7d']) := rfl

theorem stringifyField_mk (k : List Char) (v : Json) :
    stringifyField (k, v) = quote k ++ ':' :: stringify v := rfl

theorem parseUnits_quote (r : List Char) : parseUnits ('"' :: r) = some ([], r) := rfl

theorem parseUnits_hex (a b c d : Char) (r : List Char) :
    parseUnits ('\\' :: 'u' :: a :: b :: c :: d :: r) =
      (hex4 a b c d).bind fun n => (parseUnits r).map fun p => (n :: p.1, p.2) := by
  rw [parseUnits]
  cases hex4 a b c d with
  | none => rfl
  | some n => cases parseUnits r <;> rfl

theorem parseUnits_backslash {e : Char} {r : List Char}
    (hcode : ∀ (a b c d : Char) (r' : List Char), e = 'u' → r = a :: b :: c :: d :: r' → False) :
    parseUnits ('\\' :: e :: r) =
      (unescape e).bind fun c => (parseUnits r).map fun p => (c.toNat :: p.1, p.2) := by
  rw [parseUnits.eq_4 e r hcode]
  cases unescape e with
  | none => rfl
  | some c => cases parseUnits r <;> rfl

theorem parseUnits_cons {c : Char} {r : List Char} (hquote : c ≠ '"')
    (hescape : ∀ (e : Char) (r' : List Char), c = '\\' → r = e :: r' → False) :
    parseUnits (c :: r) = if c = '\\' ∨ c.toNat < 0x20 then none
      else (parseUnits r).map fun p => (c.toNat :: p.1, p.2) := by
  rw [parseUnits.eq_5 c r hquote (fun _ _ _ _ _ hc hr => hescape _ _ hc hr) hescape]
  cases parseUnits r <;> rfl

end LibJson
