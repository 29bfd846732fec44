/-
**The tag of a file's content.**

The tag is cut from the SHA-256 of the content without a leading byte order mark and with every line
break as one line feed.  The hasher is fed in chunks, so it keeps the first bytes back until it
knows whether they are a mark, and a carriage return until it knows what follows.

The module embeds `packages/kaos/src/content-tag.ts`.  SHA-256 in hexadecimal is a parameter.  That
a finished hasher throws is left out: no caller uses one again.

Main definitions:

* `ContentTagHasher`, with `update` and `digest`;
* `computeContentTag`;
* `normalizedText` — what of a text is hashed.

Main results:

* `ContentTagHasher.stream_foldl_update` — **the chunks do not matter**;
* `normalizedBytes_encode` — the hashed bytes are those of the normalized text.
-/

import NoriCode.LibLines

namespace NoriCode

open LibUtf8 LibLines List

/-- A byte for a line feed. -/
def LINE_FEED : UInt8 := 0x0a

def CARRIAGE_RETURN : UInt8 := 0x0d

theorem nil_short : ([] : List UInt8).length < bomBytes.length := by decide

/-- The state of a hasher: what went into SHA-256, the bytes kept back at the start, and whether a
carriage return is pending. -/
structure ContentTagHasher where
  hashed : List UInt8 := []
  prefixBytes : List UInt8 := []
  started : Bool := false
  pendingCarriageReturn : Bool := false
  prefix_short : prefixBytes.length < bomBytes.length := by exact nil_short

namespace ContentTagHasher

/-- One byte of `writeNormalized`. -/
def writeByte (h : ContentTagHasher) (byte : UInt8) : ContentTagHasher :=
  if h.pendingCarriageReturn && byte == LINE_FEED then
    { h with hashed := h.hashed ++ [LINE_FEED], pendingCarriageReturn := false }
  else
    let written := if h.pendingCarriageReturn then h.hashed ++ [LINE_FEED] else h.hashed
    if byte == CARRIAGE_RETURN then { h with hashed := written, pendingCarriageReturn := true }
    else { h with hashed := written ++ [byte], pendingCarriageReturn := false }

def writeNormalized (h : ContentTagHasher) (bytes : List UInt8) : ContentTagHasher :=
  bytes.foldl writeByte h

/-- `update` with the bytes of a chunk. -/
def update (h : ContentTagHasher) (chunk : List UInt8) : ContentTagHasher :=
  if h.started then h.writeNormalized chunk
  else
    let candidate := h.prefixBytes ++ chunk
    if hshort : candidate.length < bomBytes.length then
      { h with prefixBytes := candidate, prefix_short := hshort }
    else
      writeNormalized { h with started := true, prefixBytes := [], prefix_short := nil_short }
        (candidate.drop (if candidate.take bomBytes.length == bomBytes then 3 else 0))

/-- All that has gone into SHA-256 when the digest is taken. -/
def stream (h : ContentTagHasher) : List UInt8 :=
  let h := if !h.started && 0 < h.prefixBytes.length then h.writeNormalized h.prefixBytes else h
  if h.pendingCarriageReturn then h.hashed ++ [LINE_FEED] else h.hashed

variable (sha256 : List UInt8 → String)

/-- The first four hexadecimal digits, in upper case. -/
def digest (h : ContentTagHasher) : String :=
  String.ofList (((sha256 h.stream).toList.take 4).map Char.toUpper)

end ContentTagHasher

/-- The tag of some bytes. -/
def computeContentTag (sha256 : List UInt8 → String) (content : List UInt8) : String :=
  (ContentTagHasher.update {} content).digest sha256

/-! ### What is hashed -/

/-- A text without a leading byte order mark. -/
def stripBom : List Char → List Char
  | [] => []
  | c :: text => if c = bom then text else c :: text

/-- What of a text is hashed. -/
def normalizedText (text : List Char) : List Char := normalizeFrom '\r' '\n' false (stripBom text)

/-- What of some bytes is hashed. -/
def normalizedBytes (bytes : List UInt8) : List UInt8 :=
  normalizeFrom CARRIAGE_RETURN LINE_FEED false
    (bytes.drop (if bytes.take bomBytes.length == bomBytes then 3 else 0))

theorem normalizedBytes_encode (text : List Char) :
    normalizedBytes (encode text) = encode (normalizedText text) := by
  have hdrop : (encode text).drop
      (if (encode text).take bomBytes.length == bomBytes then 3 else 0) =
        encode (stripBom text) := by
    have hmark : (encode text).take bomBytes.length = bomBytes ↔ [bom] <+: text := by
      rw [← bomBytes_isPrefix_encode, prefix_iff_eq_take, eq_comm]
    rcases text with _ | ⟨c, text⟩
    · rfl
    · by_cases hc : c = bom
      · subst hc
        rfl
      · have hno : ¬ [bom] <+: c :: text := by
          rintro ⟨rest, hrest⟩
          exact hc (cons.inj hrest).1.symm
        rw [if_neg fun h => hno (hmark.1 (beq_iff_eq.1 h)), stripBom, if_neg hc]
        rfl
  rw [normalizedBytes, hdrop]
  exact encodes_utf8.normalizeFrom false (stripBom text)

namespace ContentTagHasher

/-- What will have been hashed when `rest` is all that still comes. -/
def outcome (h : ContentTagHasher) (rest : List UInt8) : List UInt8 :=
  if h.started then
    h.hashed ++ normalizeFrom CARRIAGE_RETURN LINE_FEED h.pendingCarriageReturn rest
  else
    h.hashed ++ normalizeFrom CARRIAGE_RETURN LINE_FEED h.pendingCarriageReturn
      ((h.prefixBytes ++ rest).drop
        (if (h.prefixBytes ++ rest).take bomBytes.length == bomBytes then 3 else 0))

section

variable (h : ContentTagHasher)

include h

theorem started_writeNormalized (bytes : List UInt8) :
    (h.writeNormalized bytes).started = h.started := by
  induction bytes generalizing h with
  | nil => rfl
  | cons byte bytes ih =>
    refine (ih (h.writeByte byte)).trans ?_
    unfold writeByte
    dsimp only
    split
    · rfl
    · split <;> rfl

theorem written_writeByte (byte : UInt8) (rest : List UInt8) :
    (h.writeByte byte).hashed ++ normalizeFrom CARRIAGE_RETURN LINE_FEED
        (h.writeByte byte).pendingCarriageReturn rest =
      h.hashed ++ normalizeFrom CARRIAGE_RETURN LINE_FEED h.pendingCarriageReturn
        (byte :: rest) := by
  unfold writeByte
  cases hpending : h.pendingCarriageReturn with
  | false =>
    by_cases hcr : byte = CARRIAGE_RETURN <;> simp [hcr, normalizeFrom]
  | true =>
    by_cases hlf : byte = LINE_FEED
    · simp [hlf, normalizeFrom]
    · by_cases hcr : byte = CARRIAGE_RETURN
      · have hne : CARRIAGE_RETURN ≠ LINE_FEED := by decide
        simp [hcr, hne, normalizeFrom]
      · simp [hlf, hcr, normalizeFrom]

theorem written_writeNormalized (bytes rest : List UInt8) :
    (h.writeNormalized bytes).hashed ++ normalizeFrom CARRIAGE_RETURN LINE_FEED
        (h.writeNormalized bytes).pendingCarriageReturn rest =
      h.hashed ++ normalizeFrom CARRIAGE_RETURN LINE_FEED h.pendingCarriageReturn
        (bytes ++ rest) := by
  induction bytes generalizing h with
  | nil => rfl
  | cons byte bytes ih => exact (ih (h.writeByte byte)).trans (h.written_writeByte byte _)

/-- **One step**: what a chunk brings no longer comes. -/
theorem outcome_update (chunk rest : List UInt8) :
    (h.update chunk).outcome rest = h.outcome (chunk ++ rest) := by
  unfold update
  cases hstarted : h.started with
  | true =>
    have hstill := h.started_writeNormalized chunk
    rw [if_pos rfl, outcome, hstill, hstarted, if_pos rfl, outcome, hstarted, if_pos rfl]
    exact h.written_writeNormalized chunk rest
  | false =>
    simp only [Bool.false_eq_true, if_false]
    by_cases hshort : (h.prefixBytes ++ chunk).length < bomBytes.length
    · simp only [dif_pos hshort, outcome, hstarted, Bool.false_eq_true, if_false, append_assoc]
    · have hlong : bomBytes.length ≤ (h.prefixBytes ++ chunk).length := Nat.not_lt.1 hshort
      have hthree : 3 ≤ (h.prefixBytes ++ chunk).length := hlong
      rw [dif_neg hshort, outcome, started_writeNormalized, if_pos rfl, written_writeNormalized,
        outcome, hstarted, if_neg Bool.false_ne_true, ← append_assoc,
        take_append_of_le_length hlong]
      congr 2
      split
      · exact (drop_append_of_le_length hthree).symm
      · rfl

theorem outcome_foldl_update (chunks : List (List UInt8)) (rest : List UInt8) :
    (chunks.foldl update h).outcome rest = h.outcome (chunks.flatten ++ rest) := by
  induction chunks generalizing h with
  | nil => rfl
  | cons chunk chunks ih =>
    rw [foldl_cons, ih, outcome_update, flatten_cons, append_assoc]

theorem stream_eq_outcome : h.stream = h.outcome [] := by
  have hend : ∀ g : ContentTagHasher,
      (if g.pendingCarriageReturn then g.hashed ++ [LINE_FEED] else g.hashed) =
        g.hashed ++ normalizeFrom CARRIAGE_RETURN LINE_FEED g.pendingCarriageReturn [] := by
    intro g
    cases g.pendingCarriageReturn with
    | false => exact (append_nil _).symm
    | true => rfl
  unfold stream
  rw [hend]
  cases hstarted : h.started with
  | true => rw [outcome, hstarted]; rfl
  | false =>
    -- What was kept back is too short to be a mark.
    have htake : ¬ (h.prefixBytes ++ []).take bomBytes.length == bomBytes := by
      intro heq
      have hlength := congrArg length (beq_iff_eq.1 heq)
      rw [append_nil, length_take] at hlength
      have := h.prefix_short
      omega
    rw [outcome, hstarted, if_neg Bool.false_ne_true, if_neg htake, drop_zero]
    cases hmark : h.prefixBytes with
    | nil => rfl
    | cons b l => exact h.written_writeNormalized (b :: l) []

end

/-- **The chunks do not matter.** -/
theorem stream_foldl_update (chunks : List (List UInt8)) :
    (chunks.foldl update {}).stream = normalizedBytes chunks.flatten := by
  rw [stream_eq_outcome, outcome_foldl_update, append_nil]
  rfl

end ContentTagHasher

/-- The tag of a hashed stream. -/
def streamTag (sha256 : List UInt8 → String) (stream : List UInt8) : String :=
  String.ofList (((sha256 stream).toList.take 4).map Char.toUpper)

theorem digest_foldl_update (sha256 : List UInt8 → String) (chunks : List (List UInt8)) :
    (chunks.foldl ContentTagHasher.update {}).digest sha256 =
      streamTag sha256 (normalizedBytes chunks.flatten) := by
  rw [ContentTagHasher.digest, ContentTagHasher.stream_foldl_update]
  rfl

theorem computeContentTag_encode (sha256 : List UInt8 → String) (text : List Char) :
    computeContentTag sha256 (encode text) = streamTag sha256 (encode (normalizedText text)) := by
  have h := digest_foldl_update sha256 [encode text]
  rwa [flatten_singleton, normalizedBytes_encode] at h

end NoriCode
