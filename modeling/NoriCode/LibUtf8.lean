/-
**UTF-8, and the marks that can be found in the bytes.**

A text is a list of characters, a file a list of bytes.  A character below `0x80` is one byte, that
character itself; every byte of another character is at least `0x80`.  So a program that looks for
an ASCII character in a text may as well look for its byte in the encoded text.

Main definitions:

* `LibUtf8.encode`, `LibUtf8.decode` — a text to bytes, and back if the bytes are well formed;
* `LibUtf8.bom` — the byte order mark;
* `LibUtf8.WellFormed` — the byte sequences of one character;
* `LibUtf8.occurring` — the characters whose sequences are found in any bytes.

Main results:

* `LibUtf8.decode_encode` — **what was encoded is decoded**;
* `LibUtf8.encodeChar_ascii`, `LibUtf8.le_of_mem_encodeChar` — the bytes of a character;
* `LibUtf8.bomBytes_isPrefix_encode` — the mark is found in the bytes where it is in the text;
* `LibUtf8.wellFormed_encodeChar`, `LibUtf8.WellFormed.encodeChar` — **the well-formed sequences
  are the encoded characters.**
-/

import Mathlib.Data.List.Basic

namespace LibUtf8

open List

/-- The bytes of a text. -/
def encode (text : List Char) : List UInt8 := text.flatMap String.utf8EncodeChar

/-- The text of some bytes, if they are well formed. -/
def decode (bytes : List UInt8) : Option (List Char) :=
  bytes.toByteArray.utf8Decode?.map Array.toList

@[simp] theorem encode_nil : encode [] = [] := rfl

@[simp] theorem encode_cons (c : Char) (text : List Char) :
    encode (c :: text) = String.utf8EncodeChar c ++ encode text := rfl

@[simp] theorem encode_append (s t : List Char) : encode (s ++ t) = encode s ++ encode t :=
  flatMap_append

/-- **What was encoded is decoded.** -/
@[simp] theorem decode_encode (text : List Char) : decode (encode text) = some text := by
  have h : (encode text).toByteArray.utf8Decode? = some text.toArray := utf8Decode?_utf8Encode
  rw [decode, h]
  rfl

theorem encode_injective : Function.Injective encode := by
  intro s t h
  have hdecode := congrArg decode h
  rwa [decode_encode, decode_encode, Option.some.injEq] at hdecode

/-! ### The bytes of a character -/

theorem encodeChar_ascii {c : Char} (h : c.toNat < 0x80) :
    String.utf8EncodeChar c = [UInt8.ofNat c.toNat] := by
  have hle : c.val.toNat ≤ 0x7f := Nat.le_of_lt_succ h
  simp only [String.utf8EncodeChar, if_pos hle]
  rfl

theorem le_of_mem_encodeChar {c : Char} (h : 0x80 ≤ c.toNat) {b : UInt8}
    (hb : b ∈ String.utf8EncodeChar c) : 0x80 ≤ b.toNat := by
  have hgt : ¬ c.val.toNat ≤ 0x7f := Nat.not_le.2 h
  simp only [String.utf8EncodeChar, if_neg hgt] at hb
  split at hb
  · simp only [mem_cons, not_mem_nil, or_false] at hb
    rcases hb with rfl | rfl <;> simp only [UInt8.toNat_ofNat'] <;> omega
  · split at hb
    · simp only [mem_cons, not_mem_nil, or_false] at hb
      rcases hb with rfl | rfl | rfl <;> simp only [UInt8.toNat_ofNat'] <;> omega
    · simp only [mem_cons, not_mem_nil, or_false] at hb
      rcases hb with rfl | rfl | rfl | rfl <;> simp only [UInt8.toNat_ofNat'] <;> omega

/-! ### The byte order mark -/

/-- The byte order mark as a character. -/
def bom : Char := Char.ofNat 0xfeff

/-- The byte order mark as bytes. -/
def bomBytes : List UInt8 := [0xef, 0xbb, 0xbf]

theorem encode_bom_cons (text : List Char) : encode (bom :: text) = bomBytes ++ encode text := by
  rw [encode_cons, show String.utf8EncodeChar bom = bomBytes by decide]

theorem bomBytes_isPrefix_encode {text : List Char} :
    bomBytes <+: encode text ↔ [bom] <+: text := by
  constructor
  · rintro ⟨rest, hrest⟩
    have hbytes : [bom].utf8Encode ++ rest.toByteArray = text.utf8Encode := by
      change (encode [bom]).toByteArray ++ rest.toByteArray = (encode text).toByteArray
      rw [← hrest, encode_bom_cons, encode_nil, append_nil, toByteArray_append]
    exact isPrefix_of_utf8Encode_append_eq_utf8Encode _ hbytes
  · rintro ⟨rest, rfl⟩
    exact ⟨encode rest, (encode_bom_cons rest).symm⟩

/-! ### Well-formed sequences -/

/-- A byte that continues a sequence. -/
def IsCont (b : UInt8) : Prop := 0x80 ≤ b.toNat ∧ b.toNat ≤ 0xbf

/-- The sequences of one character: none is longer than it must be, none is a surrogate, and none
is above `0x10ffff`. -/
inductive WellFormed : List UInt8 → Prop
  | one {b : UInt8} : b.toNat ≤ 0x7f → WellFormed [b]
  | two {b d : UInt8} : 0xc2 ≤ b.toNat ∧ b.toNat ≤ 0xdf → IsCont d → WellFormed [b, d]
  | three {b d e : UInt8} : 0xe0 ≤ b.toNat ∧ b.toNat ≤ 0xef → IsCont d →
      (b.toNat = 0xe0 → 0xa0 ≤ d.toNat) → (b.toNat = 0xed → d.toNat ≤ 0x9f) → IsCont e →
      WellFormed [b, d, e]
  | four {b d e f : UInt8} : 0xf0 ≤ b.toNat ∧ b.toNat ≤ 0xf4 → IsCont d →
      (b.toNat = 0xf0 → 0x90 ≤ d.toNat) → (b.toNat = 0xf4 → d.toNat ≤ 0x8f) → IsCont e →
      IsCont f → WellFormed [b, d, e, f]

/-- What the bits of a sequence say. -/
def codePoint : List UInt8 → ℕ
  | [b] => b.toNat
  | [b, d] => b.toNat % 32 * 64 + d.toNat % 64
  | [b, d, e] => b.toNat % 16 * 4096 + d.toNat % 64 * 64 + e.toNat % 64
  | [b, d, e, f] =>
    b.toNat % 8 * 262144 + d.toNat % 64 * 4096 + e.toNat % 64 * 64 + f.toNat % 64
  | _ => 0

theorem wellFormed_encodeChar (c : Char) : WellFormed (String.utf8EncodeChar c) := by
  have hvalid : c.val.toNat < 0xd800 ∨ 0xdfff < c.val.toNat ∧ c.val.toNat < 0x110000 := c.valid
  simp only [String.utf8EncodeChar]
  generalize c.val.toNat = v at hvalid
  -- One case for each number of bytes.
  split
  · exact .one (by simp only [UInt8.toNat_ofNat']; omega)
  · split
    · apply WellFormed.two <;> simp only [IsCont, UInt8.toNat_ofNat'] <;> omega
    · split
      · apply WellFormed.three <;> simp only [IsCont, UInt8.toNat_ofNat'] <;> omega
      · apply WellFormed.four <;> simp only [IsCont, UInt8.toNat_ofNat'] <;> omega

/-- **A well-formed sequence is what its character is encoded to.** -/
theorem WellFormed.encodeChar {bytes : List UInt8} (h : WellFormed bytes) :
    String.utf8EncodeChar (Char.ofNat (codePoint bytes)) = bytes := by
  have hval : ∀ v : ℕ, v.isValidChar → (Char.ofNat v).val.toNat = v := by
    intro v hv
    rw [Char.ofNat, dif_pos hv]
    rfl
  have hbyte : ∀ {v : ℕ} {b : UInt8}, v % 256 = b.toNat → UInt8.ofNat v = b := fun h =>
    UInt8.toNat_inj.1 (by rw [UInt8.toNat_ofNat', h])
  generalize hv : codePoint bytes = v
  cases h with
  | @one b hb =>
    simp only [codePoint] at hv
    simp only [String.utf8EncodeChar, hval v (.inl (by omega))]
    rw [if_pos (by omega)]
    exact congrArg (fun byte => [byte]) (hbyte (by omega))
  | @two b d hb hd =>
    obtain ⟨hd, hd'⟩ := hd
    have hpoint : v = (b.toNat - 0xc0) * 64 + (d.toNat - 0x80) := by
      simp only [codePoint] at hv
      omega
    simp only [String.utf8EncodeChar, hval v (.inl (by omega))]
    rw [if_neg (by omega), if_pos (by omega)]
    simp only [cons.injEq, and_true]
    exact ⟨hbyte (by omega), hbyte (by omega)⟩
  | @three b d e hb hd hlow hhigh he =>
    obtain ⟨hd, hd'⟩ := hd
    obtain ⟨he, he'⟩ := he
    have hpoint : v = (b.toNat - 0xe0) * 4096 + (d.toNat - 0x80) * 64 + (e.toNat - 0x80) := by
      simp only [codePoint] at hv
      omega
    have hvalid : v.isValidChar := by
      omega
    simp only [String.utf8EncodeChar, hval v hvalid]
    rw [if_neg (by omega), if_neg (by omega), if_pos (by omega)]
    simp only [cons.injEq, and_true]
    exact ⟨hbyte (by omega), hbyte (by omega), hbyte (by omega)⟩
  | @four b d e f hb hd hlow hhigh he hf =>
    obtain ⟨hd, hd'⟩ := hd
    obtain ⟨he, he'⟩ := he
    obtain ⟨hf, hf'⟩ := hf
    have hpoint : v = (b.toNat - 0xf0) * 262144 + (d.toNat - 0x80) * 4096 +
        (e.toNat - 0x80) * 64 + (f.toNat - 0x80) := by
      simp only [codePoint] at hv
      omega
    simp only [String.utf8EncodeChar, hval v (.inr (by omega))]
    rw [if_neg (by omega), if_neg (by omega), if_neg (by omega)]
    simp only [cons.injEq, and_true]
    exact ⟨hbyte (by omega), hbyte (by omega), hbyte (by omega), hbyte (by omega)⟩

theorem WellFormed.eq_cons {bytes : List UInt8} (h : WellFormed bytes) :
    ∃ b conts, bytes = b :: conts ∧ (∀ d ∈ conts, IsCont d) ∧ ¬ IsCont b := by
  cases h with
  | one hb => exact ⟨_, [], rfl, by simp, by unfold IsCont; omega⟩
  | two hb hd => exact ⟨_, _, rfl, by simp [hd], by unfold IsCont; omega⟩
  | three hb hd _ _ he => exact ⟨_, _, rfl, by simp [hd, he], by unfold IsCont; omega⟩
  | four hb hd _ _ he hf => exact ⟨_, _, rfl, by simp [hd, he, hf], by unfold IsCont; omega⟩

/-- Of what begins with a sequence, no other part from the beginning is one. -/
theorem WellFormed.eq_of_isPrefix {s t l : List UInt8} (hs : WellFormed s) (ht : WellFormed t)
    (hsl : s <+: l) (htl : t <+: l) : s = t := by
  rcases prefix_or_prefix_of_prefix hsl htl with hst | hts
  · cases hs <;> cases ht <;> simp_all [cons_prefix_cons, IsCont] <;> omega
  · cases hs <;> cases ht <;> simp_all [cons_prefix_cons, IsCont] <;> omega

/-! ### The sequences in any bytes -/

/-- The character that begins there. -/
noncomputable def leading (bytes : List UInt8) : Option Char :=
  @dite _ (∃ c, String.utf8EncodeChar c <+: bytes) (Classical.propDecidable _)
    (fun h => some h.choose) fun _ => none

theorem leading_append {s : List UInt8} (h : WellFormed s) (rest : List UInt8) :
    leading (s ++ rest) = some (Char.ofNat (codePoint s)) := by
  have hc : ∃ c, String.utf8EncodeChar c <+: s ++ rest :=
    ⟨_, by rw [h.encodeChar]; exact prefix_append s rest⟩
  have hsame := (wellFormed_encodeChar hc.choose).eq_of_isPrefix h hc.choose_spec
    (prefix_append s rest)
  rw [leading, dif_pos hc, Option.some.injEq]
  refine singleton_injective (encode_injective ?_)
  simp [hsame, h.encodeChar]

theorem leading_eq_none {bytes : List UInt8} (h : ∀ s, WellFormed s → ¬ s <+: bytes) :
    leading bytes = none :=
  dif_neg fun ⟨c, hc⟩ => h _ (wellFormed_encodeChar c) hc

/-- The characters whose sequences occur in the bytes, in order. -/
noncomputable def occurring (bytes : List UInt8) : List Char := bytes.tails.filterMap leading

theorem occurring_nil : occurring [] = [] := by
  have hnone : leading [] = none := leading_eq_none fun s hs hpre => by
    obtain ⟨_, _, rfl, -, -⟩ := hs.eq_cons
    cases prefix_nil.1 hpre
  rw [occurring, tails, filterMap_cons, hnone]
  rfl

theorem occurring_drop {b : UInt8} {rest : List UInt8}
    (h : ∀ s, WellFormed s → ¬ s <+: b :: rest) : occurring (b :: rest) = occurring rest := by
  rw [occurring, tails, filterMap_cons, leading_eq_none h]
  rfl

/-- **A sequence counts once:** no sequence begins within another. -/
theorem occurring_append {s : List UInt8} (h : WellFormed s) (rest : List UInt8) :
    occurring (s ++ rest) = Char.ofNat (codePoint s) :: occurring rest := by
  have hlead := leading_append h rest
  obtain ⟨b, conts, rfl, hconts, -⟩ := h.eq_cons
  rw [occurring, cons_append, tails, filterMap_cons, ← cons_append, hlead]
  refine congrArg (Char.ofNat (codePoint (b :: conts)) :: ·) ?_
  clear h hlead
  induction conts with
  | nil => rfl
  | cons d conts ih =>
    refine (occurring_drop fun s hs hpre => ?_).trans (ih fun e he => hconts e (.tail _ he))
    obtain ⟨c, cs, rfl, -, hnot⟩ := hs.eq_cons
    obtain rfl := (cons_prefix_cons.1 hpre).1
    exact hnot (hconts _ (.head _))

end LibUtf8
