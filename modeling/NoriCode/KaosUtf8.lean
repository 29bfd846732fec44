/-
**Bytes that need not be UTF-8.**

The backends read bytes as text in two ways: the validator of a scan fails on the first byte that
UTF-8 does not allow, and `decodeUtf8Ignore` drops such bytes.  Both know the sequences of UTF-8 by
the ranges of their bytes.

The module embeds `decodeUtf8Ignore` of `packages/kaos/src/internal.ts`; the validator of
`packages/kaos/src/local.ts` is that of `KaosRead`.

Main definitions:

* `Utf8Validator.accepts` — the writes of some chunks, and the end;
* `decodeUtf8Ignore` — the decoder that drops bytes.

Main results:

* `Utf8Validator.accepts_iff` — the validator accepts what is an encoded text;
* `decodeUtf8Ignore_eq` — **the decoder finds every sequence that occurs**.
-/

import Mathlib.Algebra.GroupWithZero.Nat
import NoriCode.KaosRead

namespace NoriCode

open LibUtf8 List Option

/-! ### The decoder -/

def isUtf8Continuation (byte : UInt8) : Bool := 0x80 ≤ byte.toNat ∧ byte.toNat ≤ 0xbf

/-- The second byte of a sequence of three. -/
def validSecondOfThree (b0 b1 : UInt8) : Bool :=
  let b := b0.toNat
  (b = 0xe0 ∧ 0xa0 ≤ b1.toNat ∧ b1.toNat ≤ 0xbf) ∨
    (0xe1 ≤ b ∧ b ≤ 0xec ∧ isUtf8Continuation b1) ∨
    (b = 0xed ∧ 0x80 ≤ b1.toNat ∧ b1.toNat ≤ 0x9f) ∨
    (0xee ≤ b ∧ b ≤ 0xef ∧ isUtf8Continuation b1)

/-- The second byte of a sequence of four. -/
def validSecondOfFour (b0 b1 : UInt8) : Bool :=
  let b := b0.toNat
  (b = 0xf0 ∧ 0x90 ≤ b1.toNat ∧ b1.toNat ≤ 0xbf) ∨
    (0xf1 ≤ b ∧ b ≤ 0xf3 ∧ isUtf8Continuation b1) ∨
    (b = 0xf4 ∧ 0x80 ≤ b1.toNat ∧ b1.toNat ≤ 0x8f)

/-- One turn of the loop of `decodeUtf8Ignore`: the character that begins here, and how many bytes
it has after the first; or none, and the byte is dropped. -/
def sequenceAt (b0 : UInt8) (rest : List UInt8) : Option (Char × ℕ) :=
  if b0.toNat ≤ 0x7f then some (Char.ofNat b0.toNat, 0)
  else if 0xc2 ≤ b0.toNat ∧ b0.toNat ≤ 0xdf then
    match rest with
    | b1 :: _ =>
      if isUtf8Continuation b1 then
        some (Char.ofNat ((b0.toNat &&& 0x1f) <<< 6 ||| (b1.toNat &&& 0x3f)), 1)
      else none
    | _ => none
  else if 0xe0 ≤ b0.toNat ∧ b0.toNat ≤ 0xef then
    match rest with
    | b1 :: b2 :: _ =>
      if validSecondOfThree b0 b1 ∧ isUtf8Continuation b2 then
        some (Char.ofNat ((b0.toNat &&& 0x0f) <<< 12 ||| (b1.toNat &&& 0x3f) <<< 6 |||
          (b2.toNat &&& 0x3f)), 2)
      else none
    | _ => none
  else if 0xf0 ≤ b0.toNat ∧ b0.toNat ≤ 0xf4 then
    match rest with
    | b1 :: b2 :: b3 :: _ =>
      if validSecondOfFour b0 b1 ∧ isUtf8Continuation b2 ∧ isUtf8Continuation b3 then
        some (Char.ofNat ((b0.toNat &&& 0x07) <<< 18 ||| (b1.toNat &&& 0x3f) <<< 12 |||
          (b2.toNat &&& 0x3f) <<< 6 ||| (b3.toNat &&& 0x3f)), 3)
      else none
    | _ => none
  else none

def decodeUtf8Ignore : List UInt8 → List Char
  | [] => []
  | b0 :: rest =>
    match sequenceAt b0 rest with
    | some (c, n) => c :: decodeUtf8Ignore (rest.drop n)
    | none => decodeUtf8Ignore rest
termination_by bytes => bytes.length
decreasing_by
  · simp only [length_cons, length_drop]
    omega
  · simp

theorem lor_eq_add {a b : ℕ} (i : ℕ) (ha : a % 2 ^ i = 0) (hb : b < 2 ^ i) : a ||| b = a + b := by
  have hshift : (a / 2 ^ i) <<< i = a := by
    rw [Nat.shiftLeft_eq, Nat.div_mul_cancel (Nat.dvd_of_mod_eq_zero ha)]
  rw [← hshift]
  exact (Nat.shiftLeft_add_eq_or_of_lt hb _).symm

theorem codePoint_two (b d : UInt8) :
    (b.toNat &&& 0x1f) <<< 6 ||| (d.toNat &&& 0x3f) = codePoint [b, d] := by
  rw [Nat.and_two_pow_sub_one_eq_mod _ 5, Nat.and_two_pow_sub_one_eq_mod _ 6, Nat.shiftLeft_eq]
  exact lor_eq_add 6 (by omega) (by omega)

theorem codePoint_three (b d e : UInt8) :
    (b.toNat &&& 0x0f) <<< 12 ||| (d.toNat &&& 0x3f) <<< 6 ||| (e.toNat &&& 0x3f) =
      codePoint [b, d, e] := by
  simp only [Nat.and_two_pow_sub_one_eq_mod _ 4, Nat.and_two_pow_sub_one_eq_mod _ 6,
    Nat.shiftLeft_eq]
  have hhigh := lor_eq_add (a := b.toNat % 2 ^ 4 * 2 ^ 12) (b := d.toNat % 2 ^ 6 * 2 ^ 6) 12
    (by omega) (by omega)
  rw [hhigh]
  exact lor_eq_add 6 (by omega) (by omega)

theorem codePoint_four (b d e f : UInt8) :
    (b.toNat &&& 0x07) <<< 18 ||| (d.toNat &&& 0x3f) <<< 12 ||| (e.toNat &&& 0x3f) <<< 6 |||
      (f.toNat &&& 0x3f) = codePoint [b, d, e, f] := by
  simp only [Nat.and_two_pow_sub_one_eq_mod _ 3, Nat.and_two_pow_sub_one_eq_mod _ 6,
    Nat.shiftLeft_eq]
  have hhigh := lor_eq_add (a := b.toNat % 2 ^ 3 * 2 ^ 18) (b := d.toNat % 2 ^ 6 * 2 ^ 12) 18
    (by omega) (by omega)
  have hmiddle := lor_eq_add (a := b.toNat % 2 ^ 3 * 2 ^ 18 + d.toNat % 2 ^ 6 * 2 ^ 12)
    (b := e.toNat % 2 ^ 6 * 2 ^ 6) 12 (by omega) (by omega)
  rw [hhigh, hmiddle]
  exact lor_eq_add 6 (by omega) (by omega)

@[simp] theorem isUtf8Continuation_iff {b : UInt8} : isUtf8Continuation b = true ↔ IsCont b := by
  simp [isUtf8Continuation, IsCont]

theorem sequenceAt_some {b0 : UInt8} {rest : List UInt8} {c : Char} {n : ℕ}
    (h : sequenceAt b0 rest = some (c, n)) :
    ∃ s, WellFormed s ∧ b0 :: rest = s ++ rest.drop n ∧ c = Char.ofNat (codePoint s) := by
  unfold sequenceAt at h
  split_ifs at h with hone htwo hthree hfour
  · cases h
    exact ⟨[b0], .one hone, rfl, rfl⟩
  · split at h
    · rename_i b1 tail
      split_ifs at h with hcont
      cases h
      exact ⟨[b0, b1], .two htwo (isUtf8Continuation_iff.1 hcont), rfl, by rw [codePoint_two]⟩
    · cases h
  · split at h
    · rename_i b1 b2 tail
      split_ifs at h with hcont
      cases h
      obtain ⟨hsecond, hthird⟩ := hcont
      simp only [validSecondOfThree, isUtf8Continuation, decide_eq_true_eq] at hsecond
      exact ⟨[b0, b1, b2], .three hthree (by unfold IsCont; omega) (by omega) (by omega)
        (isUtf8Continuation_iff.1 hthird), rfl, by rw [codePoint_three]⟩
    · cases h
  · split at h
    · rename_i b1 b2 b3 tail
      split_ifs at h with hcont
      cases h
      obtain ⟨hsecond, hthird, hfourth⟩ := hcont
      simp only [validSecondOfFour, isUtf8Continuation, decide_eq_true_eq] at hsecond
      exact ⟨[b0, b1, b2, b3], .four hfour (by unfold IsCont; omega) (by omega) (by omega)
        (isUtf8Continuation_iff.1 hthird) (isUtf8Continuation_iff.1 hfourth), rfl,
        by rw [codePoint_four]⟩
    · cases h

theorem sequenceAt_append {b0 : UInt8} {s : List UInt8} (h : WellFormed (b0 :: s))
    (rest : List UInt8) : sequenceAt b0 (s ++ rest) ≠ none := by
  unfold sequenceAt
  cases h with
  | one hb => simp [hb]
  | two hb hd =>
    rw [if_neg (by omega), if_pos hb]
    simp [hd]
  | @three _ d e hb hd hlow hhigh he =>
    have hsecond : validSecondOfThree b0 d = true := by
      unfold IsCont at hd
      simp only [validSecondOfThree, isUtf8Continuation, decide_eq_true_eq]
      omega
    rw [if_neg (by omega), if_neg (by omega), if_pos hb]
    simp [hsecond, he]
  | @four _ d e f hb hd hlow hhigh he hf =>
    have hsecond : validSecondOfFour b0 d = true := by
      unfold IsCont at hd
      simp only [validSecondOfFour, isUtf8Continuation, decide_eq_true_eq]
      omega
    rw [if_neg (by omega), if_neg (by omega), if_neg (by omega), if_pos hb]
    simp [hsecond, he, hf]

/-- **The decoder finds every sequence that occurs**, and drops the other bytes. -/
theorem decodeUtf8Ignore_eq (data : List UInt8) : decodeUtf8Ignore data = occurring data := by
  induction hlength : data.length using Nat.strongRecOn generalizing data with
  | _ n ih =>
    cases data with
    | nil => rw [decodeUtf8Ignore, occurring_nil]
    | cons b0 rest =>
      rw [length_cons] at hlength
      rw [decodeUtf8Ignore]
      cases hat : sequenceAt b0 rest with
      | some found =>
        obtain ⟨c, k⟩ := found
        obtain ⟨s, hs, hdata, hc⟩ := sequenceAt_some hat
        rw [hdata, occurring_append hs, ← hc]
        exact congrArg _ (ih _ (by rw [length_drop]; omega) _ rfl)
      | none =>
        rw [occurring_drop]
        · exact ih _ (by omega) _ rfl
        · rintro s hs ⟨tail, htail⟩
          obtain ⟨b, conts, rfl, -, -⟩ := hs.eq_cons
          obtain ⟨rfl, rfl⟩ := cons.inj htail
          exact sequenceAt_append hs tail hat

/-! ### The validator -/

namespace Utf8Validator

/-- `end` -/
def ends (v : Utf8Validator) : Bool := v.needed = 0

/-- No write fails, and neither does the end. -/
def accepts (chunks : List (List UInt8)) : Bool := (chunks.foldlM write {}).any ends

theorem foldlM_write (v : Utf8Validator) (chunks : List (List UInt8)) :
    chunks.foldlM write v = write v chunks.flatten := by
  induction chunks generalizing v with
  | nil => rfl
  | cons chunk chunks ih =>
    rw [foldlM_cons, flatten_cons, write, write, foldlM_append]
    exact congrArg _ (funext ih)

variable {lower upper : ℕ} {v : Utf8Validator}

/-- The next byte of a sequence. -/
theorem write_needed {n : ℕ} {bytes : List UInt8}
    (h : write ⟨n + 1, lower, upper⟩ bytes = some v) (hv : v.needed = 0) :
    ∃ b rest, bytes = b :: rest ∧ lower ≤ b.toNat ∧ b.toNat ≤ upper ∧
      write { needed := n } rest = some v := by
  cases bytes with
  | nil =>
    obtain rfl := some.inj h
    cases hv
  | cons b rest =>
    rw [write, foldlM_cons, writeByte, if_neg (Nat.succ_ne_zero n)] at h
    split_ifs at h with hrange
    · cases h
    · simp only at hrange
      exact ⟨b, rest, rfl, by omega, by omega, h⟩

variable {b : UInt8} {rest : List UInt8}

theorem begins_three (hv : v.needed = 0) (h : write ⟨2, lower, upper⟩ rest = some v)
    (hb : 0xe0 ≤ b.toNat ∧ b.toNat ≤ 0xef) (hrange : 0x80 ≤ lower ∧ upper ≤ 0xbf)
    (hlow : b.toNat = 0xe0 → 0xa0 ≤ lower) (hhigh : b.toNat = 0xed → upper ≤ 0x9f) :
    ∃ s tail, WellFormed s ∧ b :: rest = s ++ tail ∧ write {} tail = some v := by
  obtain ⟨d, _, rfl, hd, hd', h⟩ := write_needed h hv
  obtain ⟨e, tail, rfl, he, he', h⟩ := write_needed h hv
  exact ⟨[b, d, e], tail, .three hb ⟨by omega, by omega⟩ (fun h => by omega)
    (fun h => by omega) ⟨he, he'⟩, rfl, h⟩

theorem begins_four (hv : v.needed = 0) (h : write ⟨3, lower, upper⟩ rest = some v)
    (hb : 0xf0 ≤ b.toNat ∧ b.toNat ≤ 0xf4) (hrange : 0x80 ≤ lower ∧ upper ≤ 0xbf)
    (hlow : b.toNat = 0xf0 → 0x90 ≤ lower) (hhigh : b.toNat = 0xf4 → upper ≤ 0x8f) :
    ∃ s tail, WellFormed s ∧ b :: rest = s ++ tail ∧ write {} tail = some v := by
  obtain ⟨d, _, rfl, hd, hd', h⟩ := write_needed h hv
  obtain ⟨e, _, rfl, he, he', h⟩ := write_needed h hv
  obtain ⟨f, tail, rfl, hf, hf', h⟩ := write_needed h hv
  exact ⟨[b, d, e, f], tail, .four hb ⟨by omega, by omega⟩ (fun h => by omega)
    (fun h => by omega) ⟨he, he'⟩ ⟨hf, hf'⟩, rfl, h⟩

/-- What is accepted from the start begins with a sequence, and goes on from the start behind it. -/
theorem write_start (h : write {} (b :: rest) = some v) (hv : v.needed = 0) :
    ∃ s tail, WellFormed s ∧ b :: rest = s ++ tail ∧ write {} tail = some v := by
  rw [write, foldlM_cons, writeByte, if_pos rfl] at h
  split_ifs at h with hone htwo he0 hec hed hef hf0 hf3 hf4
  · exact ⟨[b], rest, .one hone, rfl, h⟩
  · obtain ⟨d, tail, rfl, hd, hd', h⟩ := write_needed h hv
    exact ⟨[b, d], tail, .two htwo ⟨hd, hd'⟩, rfl, h⟩
  · have h : write ⟨2, 0xa0, 0xbf⟩ rest = some v := h
    exact begins_three hv h (by omega) (by omega) (by omega) (by omega)
  · have h : write ⟨2, 0x80, 0xbf⟩ rest = some v := h
    exact begins_three hv h (by omega) (by omega) (by omega) (by omega)
  · have h : write ⟨2, 0x80, 0x9f⟩ rest = some v := h
    exact begins_three hv h (by omega) (by omega) (by omega) (by omega)
  · have h : write ⟨2, 0x80, 0xbf⟩ rest = some v := h
    exact begins_three hv h (by omega) (by omega) (by omega) (by omega)
  · have h : write ⟨3, 0x90, 0xbf⟩ rest = some v := h
    exact begins_four hv h (by omega) (by omega) (by omega) (by omega)
  · have h : write ⟨3, 0x80, 0xbf⟩ rest = some v := h
    exact begins_four hv h (by omega) (by omega) (by omega) (by omega)
  · have h : write ⟨3, 0x80, 0x8f⟩ rest = some v := h
    exact begins_four hv h (by omega) (by omega) (by omega) (by omega)
  · cases h

/-- **The validator accepts what is an encoded text**, however it is cut into chunks. -/
theorem accepts_iff (chunks : List (List UInt8)) :
    accepts chunks = true ↔ ∃ text, chunks.flatten = encode text := by
  have hstart : ∀ (n : ℕ) (bytes : List UInt8) (v : Utf8Validator), bytes.length ≤ n →
      write {} bytes = some v → v.needed = 0 → ∃ text, bytes = encode text := by
    intro n
    induction n with
    | zero =>
      intro bytes v hlength _ _
      exact ⟨[], eq_nil_of_length_eq_zero (by omega)⟩
    | succ n ih =>
      intro bytes v hlength hwrite hv
      cases bytes with
      | nil => exact ⟨[], rfl⟩
      | cons b rest =>
        obtain ⟨s, tail, hs, heq, htail⟩ := write_start hwrite hv
        have hshort : tail.length < (b :: rest).length := by
          obtain ⟨_, conts, rfl, -, -⟩ := hs.eq_cons
          rw [heq, cons_append, length_cons, length_append]
          omega
        obtain ⟨text, rfl⟩ := ih tail v (by omega) htail hv
        exact ⟨Char.ofNat (codePoint s) :: text, by rw [heq, encode_cons, hs.encodeChar]⟩
  rw [accepts, foldlM_write]
  constructor
  · intro h
    cases hwrite : write {} chunks.flatten with
    | none => cases (hwrite ▸ h : Option.any ends none = true)
    | some v =>
      rw [hwrite] at h
      exact hstart _ _ v (Nat.le_refl _) hwrite (of_decide_eq_true h)
  · rintro ⟨text, htext⟩
    rw [htext, write_encode]
    rfl

end Utf8Validator

/-- **The two readers of bytes that need not be UTF-8.** -/
theorem utf8_readers (chunks : List (List UInt8)) (data : List UInt8) :
    (Utf8Validator.accepts chunks = true ↔ ∃ text, chunks.flatten = encode text) ∧
      decodeUtf8Ignore data = occurring data :=
  ⟨Utf8Validator.accepts_iff chunks, decodeUtf8Ignore_eq data⟩

end NoriCode
