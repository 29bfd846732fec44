/-
**The string operations of the source.**

The program works on JavaScript strings.  They are modelled by lists of Unicode characters, so a
lone surrogate has no counterpart here; nothing below depends on one.

Main definitions:

* `isWhiteSpace`, `trim`, `trimStart`, `trimEnd` — the white
  space of `String.prototype.trim` and the three trims;
* `startsWith` — prefix test;
* `utf16Length` — `text.length`;
* `isBlank` — `text.trim().length === 0`.
-/

import Mathlib.Algebra.GroupWithZero.Nat
import Mathlib.Data.List.DropRight

namespace NoriCode

/-- White space and line terminators, as `String.prototype.trim` removes them. -/
def isWhiteSpace (c : Char) : Bool :=
  let n := c.toNat
  (9 ≤ n && n ≤ 13) || n == 0x20 || n == 0xa0 || n == 0x1680 || (0x2000 ≤ n && n ≤ 0x200a) ||
    n == 0x2028 || n == 0x2029 || n == 0x202f || n == 0x205f || n == 0x3000 || n == 0xfeff

def trimStart (s : String) : String := String.ofList (s.toList.dropWhile isWhiteSpace)

def trimEnd (s : String) : String := String.ofList (s.toList.rdropWhile isWhiteSpace)

def trim (s : String) : String := trimEnd (trimStart s)

def startsWith (s p : String) : Bool := p.toList.isPrefixOf s.toList

/-- The number of code units: two for a character outside the basic plane. -/
def utf16Length (s : String) : ℕ := (s.toList.map fun c => if c.toNat < 0x10000 then 1 else 2).sum

/-- Nothing is left of the text after trimming. -/
def isBlank (s : String) : Bool := (trim s).toList.length == 0

end NoriCode
