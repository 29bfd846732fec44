/-
**How the backends read a text file.**

The local backend reads bytes in chunks.  It scans the whole file for its tag, its number of lines
and its line breaks, and hands out a window of lines, each with its line feed.  The remote backend
reads the whole file at once and hands out all of its lines without their line breaks, and a lone
carriage return breaks a line there too.

The module embeds `scanTextFile`, `readLineRange` and `readTailLines` of
`packages/kaos/src/local.ts` and `readText` and `readLines` of `local.ts` and `ssh.ts`, with the
strict decoding that Read and Edit use.  How many bytes a read delivers is up to the file system;
the lines are put together byte by byte, so it only matters to the scan.

Main definitions:

* `decodeTextWithErrors`, `readText`;
* `FileReads`, `scanTextFile`;
* `readLineRange`, `readTailLines` — the local backend;
* `sshReadLines` — the remote one.

Main results:

* `scanTextFile_encode` — what the scan of a UTF-8 file finds;
* `readLineRange_encode`, `readTailLines_encode` — the windows of its lines;
* `flatten_sshLines` — the remote lines put together are the text without line breaks.
-/

import Mathlib.Data.List.Induction
import NoriCode.ContentTag
import NoriCode.LineEndings

namespace NoriCode

open LibUtf8 LibLines List Option

/-! ### Decoding -/

/-- Strict UTF-8; a leading byte order mark is dropped unless it is to be kept. -/
def decodeTextWithErrors (data : List UInt8) (ignoreBom : Bool) : Option (List Char) :=
  (decode data).map fun text => if ignoreBom then text else stripBom text

def readText (data : List UInt8) : Option (List Char) := decodeTextWithErrors data false

/-- The state of the validator: how many bytes a character still needs, and the range of the next
one. -/
structure Utf8Validator where
  needed : ℕ := 0
  lower : ℕ := 0x80
  upper : ℕ := 0xbf

/-- One byte of the validator, which fails on a byte that UTF-8 does not allow there. -/
def Utf8Validator.writeByte (v : Utf8Validator) (byte : UInt8) : Option Utf8Validator :=
  let b := byte.toNat
  if v.needed = 0 then
    if b ≤ 0x7f then some v
    else if 0xc2 ≤ b ∧ b ≤ 0xdf then some { v with needed := 1 }
    else if b = 0xe0 then some { v with needed := 2, lower := 0xa0 }
    else if 0xe1 ≤ b ∧ b ≤ 0xec then some { v with needed := 2 }
    else if b = 0xed then some { v with needed := 2, upper := 0x9f }
    else if 0xee ≤ b ∧ b ≤ 0xef then some { v with needed := 2 }
    else if b = 0xf0 then some { v with needed := 3, lower := 0x90 }
    else if 0xf1 ≤ b ∧ b ≤ 0xf3 then some { v with needed := 3 }
    else if b = 0xf4 then some { v with needed := 3, upper := 0x8f }
    else none
  else if b < v.lower ∨ v.upper < b then none
  else some { needed := v.needed - 1 }

def Utf8Validator.write (v : Utf8Validator) (chunk : List UInt8) : Option Utf8Validator :=
  chunk.foldlM Utf8Validator.writeByte v

/-! ### The local backend -/

/-- The reads of a file one after the other: none is empty, since an empty one is its end. -/
structure FileReads (bytes : List UInt8) where
  chunks : List (List UInt8)
  chunks_ne_nil : ∀ chunk ∈ chunks, chunk ≠ []
  flatten_chunks : chunks.flatten = bytes

structure TextFileScan where
  totalLines : ℕ
  endsWithNewline : Bool
  hasNul : Bool
  lineEndingFlags : Breaks
  contentTag : String

/-- One byte of the flags, with whether the byte before is a carriage return. -/
def updateFlagsFromByte (state : Breaks × Bool) (byte : UInt8) : Breaks × Bool :=
  let (flags, prevWasCr) := state
  if byte = CARRIAGE_RETURN then
    (if prevWasCr then { flags with hasLoneCr := true } else flags, true)
  else if byte = LINE_FEED then
    (if prevWasCr then { flags with hasCrLf := true } else { flags with hasLf := true }, false)
  else (if prevWasCr then { flags with hasLoneCr := true } else flags, false)

def updateLineEndingFlagsFromBytes (flags : Breaks) (chunk : List UInt8) (prevWasCr : Bool) :
    Breaks × Bool :=
  chunk.foldl updateFlagsFromByte (flags, prevWasCr)

/-- What the scan has found so far. -/
structure ScanState where
  validator : Utf8Validator := {}
  tagHasher : ContentTagHasher := {}
  totalLines : ℕ := 0
  totalBytes : ℕ := 0
  endsWithNewline : Bool := false
  hasNul : Bool := false
  flags : Breaks := {}
  prevWasCr : Bool := false

/-- One read of the scan. -/
def ScanState.chunk (s : ScanState) (chunk : List UInt8) : Option ScanState := do
  let validator ← s.validator.write chunk
  let (flags, prevWasCr) := updateLineEndingFlagsFromBytes s.flags chunk s.prevWasCr
  return {
    validator
    tagHasher := s.tagHasher.update chunk
    totalLines := s.totalLines + chunk.count LINE_FEED
    totalBytes := s.totalBytes + chunk.length
    endsWithNewline := chunk.getLast? == some LINE_FEED
    hasNul := s.hasNul || chunk.contains 0
    flags
    prevWasCr }

/-- The scan of a file; it fails where the file is not UTF-8. -/
def scanTextFile (sha256 : List UInt8 → String) {bytes : List UInt8} (reads : FileReads bytes) :
    Option TextFileScan := do
  let s ← reads.chunks.foldlM ScanState.chunk {}
  if s.validator.needed ≠ 0 then none
  return { s with
    totalLines :=
      if 0 < s.totalBytes ∧ s.endsWithNewline = false then s.totalLines + 1 else s.totalLines
    lineEndingFlags := if s.prevWasCr then { s.flags with hasLoneCr := true } else s.flags
    contentTag := s.tagHasher.digest sha256 }

/-- Where the line reader is: the bytes of the line it is in, where that line starts and where the
next byte is, the number of the line, and how many lines were handed out. -/
structure LineReader where
  pending : List UInt8 := []
  pendingOffset : ℕ := 0
  fileOffset : ℕ := 0
  lineNo : ℕ := 1
  yielded : ℕ := 0

/-- A byte that ends no line. -/
def LineReader.push (r : LineReader) (byte : UInt8) : LineReader :=
  { r with
    pending := r.pending ++ [byte]
    pendingOffset := if r.pending = [] then r.fileOffset else r.pendingOffset
    fileOffset := r.fileOffset + 1 }

/-- The reader behind the line feed of a line. -/
def LineReader.nextLine (r : LineReader) (yielded : ℕ) : LineReader :=
  { fileOffset := r.fileOffset + 1, lineNo := r.lineNo + 1, yielded }

@[simp] theorem LineReader.lineNo_nextLine (r : LineReader) (yielded : ℕ) :
    (r.nextLine yielded).lineNo = r.lineNo + 1 := rfl

@[simp] theorem LineReader.yielded_nextLine (r : LineReader) (yielded : ℕ) :
    (r.nextLine yielded).yielded = yielded := rfl

/-- The lines of a window, each decoded on its own; the first line of the file loses a byte order
mark. -/
def readUtf8Lines (startLine maxLines : ℕ) (r : LineReader) : List UInt8 → Option (List (List Char))
  | [] =>
    if r.pending ≠ [] ∧ startLine ≤ r.lineNo then
      (decodeTextWithErrors r.pending (r.pendingOffset != 0)).map fun line => [line]
    else some []
  | byte :: bytes =>
    if byte = LINE_FEED then
      let lineOffset := if r.pending = [] then r.fileOffset else r.pendingOffset
      if startLine ≤ r.lineNo then do
        let line ← decodeTextWithErrors (r.pending ++ [byte]) (lineOffset != 0)
        if maxLines ≤ r.yielded + 1 then return [line]
        let rest ← readUtf8Lines startLine maxLines (r.nextLine (r.yielded + 1)) bytes
        return line :: rest
      else readUtf8Lines startLine maxLines (r.nextLine r.yielded) bytes
    else readUtf8Lines startLine maxLines (r.push byte) bytes

def readLineRange (bytes : List UInt8) (startLine maxLines : ℕ) : Option (List (List Char)) :=
  readUtf8Lines startLine maxLines {} bytes

/-- The offset behind the line feed that is `needLf` line feeds from the end, for the bytes in
reverse; the start of the file if there are too few. -/
def tailOffset (needLf : ℕ) : List UInt8 → ℕ
  | [] => 0
  | byte :: bytes =>
    if byte = LINE_FEED then
      if needLf ≤ 1 then bytes.length + 1 else tailOffset (needLf - 1) bytes
    else tailOffset needLf bytes

def splitLinesKeepingTerminator (text : List Char) : List (List Char) := pieces '\n' text

def readTailLines (bytes : List UInt8) (tailCount : ℕ) : Option (List (List Char)) :=
  if tailCount = 0 ∨ bytes = [] then some []
  else
    let needLf := if bytes.getLast? = some LINE_FEED then tailCount + 1 else tailCount
    let startOffset := tailOffset needLf bytes.reverse
    (decodeTextWithErrors (bytes.drop startOffset) (startOffset != 0)).map
      splitLinesKeepingTerminator

/-! ### The remote backend -/

/-- `text.split(/\r\n|[\n\r]/u)`. -/
def splitAtBreaks : List Char → List (List Char)
  | [] => [[]]
  | [c] => if c = '\r' ∨ c = '\n' then [[], []] else [[c]]
  | c :: d :: text =>
    if c = '\r' ∧ d = '\n' then [] :: splitAtBreaks text
    else if c = '\r' ∨ c = '\n' then [] :: splitAtBreaks (d :: text)
    else
      match splitAtBreaks (d :: text) with
      | [] => [[c]]
      | line :: rest => (c :: line) :: rest

/-- The lines of a text without their line breaks. -/
def sshLines (text : List Char) : List (List Char) :=
  if text = [] then []
  else if text.getLast? = some '\n' ∨ text.getLast? = some '\r' then (splitAtBreaks text).dropLast
  else splitAtBreaks text

def sshReadLines (bytes : List UInt8) : Option (List (List Char)) := (readText bytes).map sshLines

/-! ### The validator -/

namespace Utf8Validator

theorem writeByte_next {lower upper : ℕ} {b : UInt8} (hlower : lower ≤ b.toNat)
    (hupper : b.toNat ≤ upper) (needed : ℕ) :
    writeByte ⟨needed + 1, lower, upper⟩ b = some { needed } := by
  rw [writeByte, if_neg (Nat.succ_ne_zero needed), if_neg (by simp only; omega)]
  rfl

theorem write_two {b d : UInt8} (hb : 0xc2 ≤ b.toNat ∧ b.toNat ≤ 0xdf)
    (hd : 0x80 ≤ d.toNat ∧ d.toNat ≤ 0xbf) : write {} [b, d] = some {} := by
  have hfirst : writeByte {} b = some ⟨1, 0x80, 0xbf⟩ := by
    simp only [writeByte, if_true]
    rw [if_neg (by omega), if_pos hb]
  rw [write, foldlM_cons, hfirst, bind_eq_bind, bind_some, foldlM_cons, writeByte_next hd.1 hd.2]
  rfl

theorem write_three {b d e : UInt8} (hb : 0xe0 ≤ b.toNat ∧ b.toNat ≤ 0xef)
    (hd : 0x80 ≤ d.toNat ∧ d.toNat ≤ 0xbf) (hlow : b.toNat = 0xe0 → 0xa0 ≤ d.toNat)
    (hhigh : b.toNat = 0xed → d.toNat ≤ 0x9f) (he : 0x80 ≤ e.toNat ∧ e.toNat ≤ 0xbf) :
    write {} [b, d, e] = some {} := by
  have hfirst : ∃ lower upper, writeByte {} b = some ⟨2, lower, upper⟩ ∧
      lower ≤ d.toNat ∧ d.toNat ≤ upper := by
    simp only [writeByte, if_true]
    rw [if_neg (by omega), if_neg (by omega)]
    split
    · rename_i h
      exact ⟨0xa0, 0xbf, rfl, hlow h, hd.2⟩
    · split
      · exact ⟨0x80, 0xbf, rfl, hd⟩
      · split
        · rename_i h
          exact ⟨0x80, 0x9f, rfl, hd.1, hhigh h⟩
        · rw [if_pos (by omega)]
          exact ⟨0x80, 0xbf, rfl, hd⟩
  obtain ⟨lower, upper, hfirst, hlower, hupper⟩ := hfirst
  rw [write, foldlM_cons, hfirst, bind_eq_bind, bind_some, foldlM_cons,
    writeByte_next hlower hupper, bind_eq_bind, bind_some, foldlM_cons,
    writeByte_next he.1 he.2]
  rfl

theorem write_four {b d e f : UInt8} (hb : 0xf0 ≤ b.toNat ∧ b.toNat ≤ 0xf4)
    (hd : 0x80 ≤ d.toNat ∧ d.toNat ≤ 0xbf) (hlow : b.toNat = 0xf0 → 0x90 ≤ d.toNat)
    (hhigh : b.toNat = 0xf4 → d.toNat ≤ 0x8f) (he : 0x80 ≤ e.toNat ∧ e.toNat ≤ 0xbf)
    (hf : 0x80 ≤ f.toNat ∧ f.toNat ≤ 0xbf) : write {} [b, d, e, f] = some {} := by
  have hfirst : ∃ lower upper, writeByte {} b = some ⟨3, lower, upper⟩ ∧
      lower ≤ d.toNat ∧ d.toNat ≤ upper := by
    simp only [writeByte, if_true]
    rw [if_neg (by omega), if_neg (by omega), if_neg (by omega), if_neg (by omega),
      if_neg (by omega), if_neg (by omega)]
    split
    · rename_i h
      exact ⟨0x90, 0xbf, rfl, hlow h, hd.2⟩
    · split
      · exact ⟨0x80, 0xbf, rfl, hd⟩
      · have h : b.toNat = 0xf4 := by omega
        rw [if_pos h]
        exact ⟨0x80, 0x8f, rfl, hd.1, hhigh h⟩
  obtain ⟨lower, upper, hfirst, hlower, hupper⟩ := hfirst
  rw [write, foldlM_cons, hfirst, bind_eq_bind, bind_some, foldlM_cons,
    writeByte_next hlower hupper, bind_eq_bind, bind_some, foldlM_cons,
    writeByte_next he.1 he.2, bind_eq_bind, bind_some, foldlM_cons,
    writeByte_next hf.1 hf.2]
  rfl

theorem write_wellFormed {bytes : List UInt8} (h : WellFormed bytes) :
    write {} bytes = some {} := by
  cases h with
  | one hb =>
    have hfirst : writeByte {} _ = some {} := if_pos hb
    rw [write, foldlM_cons, hfirst]
    rfl
  | two hb hd => exact write_two hb hd
  | three hb hd hlow hhigh he => exact write_three hb hd hlow hhigh he
  | four hb hd hlow hhigh he hf => exact write_four hb hd hlow hhigh he hf

theorem write_encode (text : List Char) : write {} (encode text) = some {} := by
  induction text with
  | nil => rfl
  | cons c text ih =>
    have hchar := write_wellFormed (wellFormed_encodeChar c)
    rw [write] at hchar ih
    rw [encode_cons, write, foldlM_append, hchar]
    exact ih

end Utf8Validator

/-! ### The scan -/

theorem breaksFrom_updateFlagsFromByte (state : Breaks × Bool) (byte : UInt8)
    (rest : List UInt8) :
    breaksFrom CARRIAGE_RETURN LINE_FEED (updateFlagsFromByte state byte).1
        (updateFlagsFromByte state byte).2 rest =
      breaksFrom CARRIAGE_RETURN LINE_FEED state.1 state.2 (byte :: rest) := by
  obtain ⟨flags, prevWasCr⟩ := state
  by_cases hcr : byte = CARRIAGE_RETURN
  · cases prevWasCr <;> simp [updateFlagsFromByte, breaksFrom, hcr]
  · by_cases hlf : byte = LINE_FEED
    · have hne : LINE_FEED ≠ CARRIAGE_RETURN := by decide
      cases prevWasCr <;> simp [updateFlagsFromByte, breaksFrom, hlf, hne]
    · cases prevWasCr <;> simp [updateFlagsFromByte, breaksFrom, hcr, hlf]

theorem breaksFrom_updateLineEndingFlagsFromBytes (flags : Breaks) (prevWasCr : Bool)
    (chunk rest : List UInt8) :
    breaksFrom CARRIAGE_RETURN LINE_FEED
        (updateLineEndingFlagsFromBytes flags chunk prevWasCr).1
        (updateLineEndingFlagsFromBytes flags chunk prevWasCr).2 rest =
      breaksFrom CARRIAGE_RETURN LINE_FEED flags prevWasCr (chunk ++ rest) := by
  unfold updateLineEndingFlagsFromBytes
  generalize hstate : (flags, prevWasCr) = state
  have hflags : flags = state.1 := congrArg Prod.fst hstate
  have hprev : prevWasCr = state.2 := congrArg Prod.snd hstate
  rw [hflags, hprev]
  clear hstate hflags hprev
  induction chunk generalizing state with
  | nil => rfl
  | cons byte chunk ih =>
    rw [foldl_cons, ih, breaksFrom_updateFlagsFromByte, cons_append]

/-- The state of the scan after some reads. -/
structure ScanState.After (s : ScanState) (chunks : List (List UInt8)) : Prop where
  validator : Utf8Validator.write {} chunks.flatten = some s.validator
  tagHasher : s.tagHasher = chunks.foldl ContentTagHasher.update {}
  totalLines : s.totalLines = chunks.flatten.count LINE_FEED
  totalBytes : s.totalBytes = chunks.flatten.length
  endsWithNewline : s.endsWithNewline = (chunks.flatten.getLast? == some LINE_FEED)
  hasNul : s.hasNul = chunks.flatten.contains 0
  flags : ∀ rest, breaksFrom CARRIAGE_RETURN LINE_FEED s.flags s.prevWasCr rest =
    breaksFrom CARRIAGE_RETURN LINE_FEED {} false (chunks.flatten ++ rest)

theorem ScanState.after_nil : ScanState.After {} [] where
  validator := rfl
  tagHasher := rfl
  totalLines := rfl
  totalBytes := rfl
  endsWithNewline := rfl
  hasNul := rfl
  flags _ := rfl

/-- **One read.** -/
theorem ScanState.After.chunk {s : ScanState} {chunks : List (List UInt8)} (h : s.After chunks)
    {chunk : List UInt8} (hne : chunk ≠ []) {v : Utf8Validator}
    (hv : Utf8Validator.write {} (chunks ++ [chunk]).flatten = some v) :
    ∃ s', s.chunk chunk = some s' ∧ s'.After (chunks ++ [chunk]) := by
  have hflatten : (chunks ++ [chunk]).flatten = chunks.flatten ++ chunk := by
    rw [flatten_append, flatten_singleton]
  have hwrite : s.validator.write chunk = some v := by
    have hold := h.validator
    rw [hflatten, Utf8Validator.write, foldlM_append] at hv
    rw [Utf8Validator.write] at hold
    rw [hold] at hv
    exact hv
  refine ⟨_, by rw [ScanState.chunk, hwrite]; rfl, ?_⟩
  constructor
  · exact hv
  · rw [foldl_append, foldl_cons, foldl_nil, h.tagHasher]
  · rw [hflatten, count_append, h.totalLines]
  · rw [hflatten, length_append, h.totalBytes]
  · rw [hflatten, getLast?_append_of_ne_nil _ hne]
  · rw [hflatten, h.hasNul]
    simp
  · intro rest
    rw [hflatten, append_assoc, ← h.flags]
    exact breaksFrom_updateLineEndingFlagsFromBytes s.flags s.prevWasCr chunk rest

theorem ScanState.exists_after {chunks : List (List UInt8)} (hne : ∀ chunk ∈ chunks, chunk ≠ [])
    {v : Utf8Validator} (hv : Utf8Validator.write {} chunks.flatten = some v) :
    ∃ s, chunks.foldlM ScanState.chunk {} = some s ∧ s.After chunks := by
  induction chunks using reverseRecOn generalizing v with
  | nil => exact ⟨{}, rfl, ScanState.after_nil⟩
  | append_singleton chunks chunk ih =>
    have hbefore : ∃ v', Utf8Validator.write {} chunks.flatten = some v' := by
      rw [flatten_append, Utf8Validator.write, foldlM_append] at hv
      obtain ⟨v', hv', -⟩ := bind_eq_some_iff.1 hv
      exact ⟨v', hv'⟩
    obtain ⟨v', hv'⟩ := hbefore
    obtain ⟨s, hs, hafter⟩ := ih (fun c hc => hne c (mem_append_left _ hc)) hv'
    obtain ⟨s', hs', hafter'⟩ := hafter.chunk (hne chunk (by simp)) hv
    refine ⟨s', ?_, hafter'⟩
    rw [foldlM_append, hs]
    change (s.chunk chunk >>= fun s => some s) = some s'
    rw [hs']
    rfl

/-- **What the scan of a UTF-8 file finds.** -/
theorem scanTextFile_encode (sha256 : List UInt8 → String) {text : List Char}
    (reads : FileReads (encode text)) :
    ∃ scan, scanTextFile sha256 reads = some scan ∧
      scan.totalLines = (pieces '\n' text).length ∧
      scan.hasNul = (encode text).contains 0 ∧
      scan.lineEndingFlags = breaksFrom '\r' '\n' {} false text ∧
      scan.contentTag = streamTag sha256 (encode (normalizedText text)) := by
  have hbytes := reads.flatten_chunks
  have hvalid : Utf8Validator.write {} reads.chunks.flatten = some {} := by
    rw [hbytes, Utf8Validator.write_encode]
  obtain ⟨s, hs, hafter⟩ := ScanState.exists_after reads.chunks_ne_nil hvalid
  have hneeded : s.validator = {} := by
    have h := hafter.validator
    rw [hvalid] at h
    exact (some.inj h).symm
  have hlines : (pieces LINE_FEED (encode text)).length = (pieces '\n' text).length := by
    have h := encodes_utf8.pieces text
    rw [show (0x0a : UInt8) = LINE_FEED from rfl] at h
    rw [encode, h, length_map]
  unfold scanTextFile
  rw [hs, bind_eq_bind, bind_some, hneeded, if_neg (by decide)]
  refine ⟨_, rfl, ?_, ?_, ?_, ?_⟩
  · rw [← hlines, length_pieces]
    simp only [hafter.totalBytes, hafter.endsWithNewline, hafter.totalLines, hbytes]
    rcases encode text with _ | ⟨b, l⟩
    · rfl
    · by_cases hlast : (b :: l).getLast? = some LINE_FEED <;> simp [hlast]
  · rw [← hbytes]
    exact hafter.hasNul
  · have hflags := hafter.flags []
    rw [append_nil, hbytes] at hflags
    have henc := encodes_utf8.breaksFrom {} false text
    rw [← henc]
    refine Eq.trans ?_ hflags
    cases hprev : s.prevWasCr <;> rfl
  · change s.tagHasher.digest sha256 = _
    rw [hafter.tagHasher, digest_foldl_update, hbytes, normalizedBytes_encode]

/-! ### The window of lines -/

/-- The lines of a file as the local backend hands them out. -/
def localLines (text : List Char) : List (List Char) :=
  match pieces '\n' text with
  | [] => []
  | first :: rest => stripBom first :: rest

theorem readUtf8Lines_block {startLine maxLines : ℕ} {block : List UInt8}
    (hblock : ∀ b ∈ block, b ≠ LINE_FEED) (hne : block ≠ []) (r : LineReader)
    (rest : List UInt8) :
    readUtf8Lines startLine maxLines r (block ++ rest) =
      readUtf8Lines startLine maxLines
        { r with
          pending := r.pending ++ block
          pendingOffset := if r.pending = [] then r.fileOffset else r.pendingOffset
          fileOffset := r.fileOffset + block.length } rest := by
  induction block generalizing r with
  | nil => exact absurd rfl hne
  | cons b block ih =>
    rw [cons_append, readUtf8Lines, if_neg (hblock b (.head _))]
    rcases block with _ | ⟨d, block⟩
    · rfl
    · rw [ih (fun c hc => hblock c (.tail _ hc)) (cons_ne_nil _ _)]
      congr 1
      simp only [LineReader.push, append_assoc, singleton_append, length_cons,
        append_eq_nil_iff, cons_ne_nil, and_false, if_false, LineReader.mk.injEq,
        true_and, and_true]
      omega

/-- The reader stands in line `lineNo` behind the text `before` of it. -/
structure LineReader.At (r : LineReader) (before : List Char) : Prop where
  pending : r.pending = encode before
  noLf : ∀ c ∈ before, c ≠ '\n'
  lineNo : 1 ≤ r.lineNo
  /-- The line is the first one exactly when it starts at the start of the file. -/
  first : (if r.pending = [] then r.fileOffset else r.pendingOffset) = 0 ↔ r.lineNo = 1

/-- The lines that are still to come, the one the reader is in included. -/
def LineReader.linesFrom (r : LineReader) (text : List Char) : List (List Char) :=
  if r.lineNo = 1 then localLines text else pieces '\n' text

/-- What a line of the reader is decoded to. -/
def LineReader.decoded (r : LineReader) (line : List Char) : List Char :=
  if r.lineNo = 1 then stripBom line else line

theorem decodeTextWithErrors_encode (line : List Char) (ignoreBom : Bool) :
    decodeTextWithErrors (encode line) ignoreBom =
      some (if ignoreBom then line else stripBom line) := by
  rw [decodeTextWithErrors, decode_encode, map_some]

namespace LineReader

variable {r : LineReader} {before : List Char}

theorem At.decode (h : r.At before) (line : List Char) :
    decodeTextWithErrors (encode line)
        ((if r.pending = [] then r.fileOffset else r.pendingOffset) != 0) =
      some (r.decoded line) := by
  rw [decodeTextWithErrors_encode, decoded]
  by_cases hone : r.lineNo = 1
  · rw [if_pos hone, h.first.2 hone]
    rfl
  · rw [if_neg hone, if_pos (bne_iff_ne.2 fun hzero => hone (h.first.1 hzero))]

theorem linesFrom_lf (hnoLf : ∀ c ∈ before, c ≠ '\n') (text : List Char) :
    r.linesFrom (before ++ '\n' :: text) = r.decoded (before ++ ['\n']) :: pieces '\n' text := by
  have hpieces : pieces '\n' (before ++ '\n' :: text) = (before ++ ['\n']) :: pieces '\n' text := by
    rcases before with _ | ⟨c, before⟩
    · rfl
    · rw [pieces_plain_append (cons_ne_nil _ _) hnoLf, pieces, if_pos rfl]
  rw [linesFrom, localLines, hpieces, decoded]
  split <;> rfl

theorem linesFrom_last (hne : before ≠ []) (hnoLf : ∀ c ∈ before, c ≠ '\n') :
    r.linesFrom before = [r.decoded before] := by
  have hpieces : pieces '\n' (before ++ []) = [before] := by
    rw [pieces_plain_append hne hnoLf]
    rfl
  rw [append_nil] at hpieces
  rw [linesFrom, localLines, hpieces, decoded]
  split <;> rfl

theorem At.nextLine (h : r.At before) (yielded : ℕ) : (r.nextLine yielded).At [] where
  pending := rfl
  noLf := by simp
  lineNo := Nat.le_add_left 1 r.lineNo
  first := by
    have := h.lineNo
    simp only [LineReader.nextLine, if_true]
    omega

theorem At.block (h : r.At before) {c : Char} (hc : c ≠ '\n') :
    LineReader.At { r with
      pending := r.pending ++ String.utf8EncodeChar c
      pendingOffset := if r.pending = [] then r.fileOffset else r.pendingOffset
      fileOffset := r.fileOffset + (String.utf8EncodeChar c).length } (before ++ [c]) where
  pending := by rw [h.pending, encode_append, encode_cons, encode_nil, append_nil]
  noLf d hd := by
    rcases mem_append.1 hd with hd | hd
    · exact h.noLf d hd
    · exact mem_singleton.1 hd ▸ hc
  lineNo := h.lineNo
  first := by
    have hne : r.pending ++ String.utf8EncodeChar c ≠ [] := fun heq =>
      String.utf8EncodeChar_ne_nil (append_eq_nil_iff.1 heq).2
    simp only [if_neg hne]
    exact h.first

end LineReader

theorem ne_of_mem_encodeChar {c : Char} (hc : c ≠ '\n') {b : UInt8}
    (hb : b ∈ String.utf8EncodeChar c) : b ≠ LINE_FEED := by
  by_cases hcr : c = '\r'
  · subst hcr
    rw [encodes_utf8.code_cr, mem_singleton] at hb
    exact hb ▸ encodes_utf8.cr_ne_lf
  · exact (encodes_utf8.plain c ⟨hcr, hc⟩ b hb).2

/-- **The rest of a window**, from anywhere in the file: by the characters that are still to come.
-/
theorem readUtf8Lines_encode (startLine maxLines : ℕ) (text : List Char) {r : LineReader}
    {before : List Char} (hat : r.At before) (hmax : r.yielded < maxLines) :
    readUtf8Lines startLine maxLines r (encode text) =
      some (((r.linesFrom (before ++ text)).drop (startLine - r.lineNo)).take
        (maxLines - r.yielded)) := by
  induction text generalizing r before with
  | nil =>
    rw [encode_nil, readUtf8Lines, append_nil]
    by_cases hbefore : before = []
    · have hpending : r.pending = [] := by rw [hat.pending, hbefore, encode_nil]
      rw [if_neg fun h => h.1 hpending, hbefore, LineReader.linesFrom]
      split <;> simp [localLines, pieces]
    · have hpending : r.pending ≠ [] := by
        rw [hat.pending]
        exact fun h => hbefore (encode_injective h)
      have hdecode := hat.decode before
      rw [if_neg hpending, ← hat.pending] at hdecode
      rw [LineReader.linesFrom_last hbefore hat.noLf]
      by_cases hstart : startLine ≤ r.lineNo
      · rw [if_pos ⟨hpending, hstart⟩, hdecode, Nat.sub_eq_zero_of_le hstart, drop_zero,
          take_of_length_le (by simp only [length_singleton]; omega)]
        rfl
      · rw [if_neg fun h => hstart h.2, drop_of_length_le
          (by simp only [length_singleton]; omega), take_nil]
  | cons c text ih =>
    by_cases hc : c = '\n'
    · subst hc
      have hline : r.pending ++ [LINE_FEED] = encode (before ++ ['\n']) := by
        rw [hat.pending, encode_append]
        rfl
      have hlf : String.utf8EncodeChar '\n' = [LINE_FEED] := encodes_utf8.code_lf
      rw [encode_cons, hlf, singleton_append, readUtf8Lines, if_pos rfl,
        LineReader.linesFrom_lf hat.noLf]
      change (if startLine ≤ r.lineNo then
        (decodeTextWithErrors (r.pending ++ [LINE_FEED]) _).bind _ else _) = _
      rw [hline, hat.decode]
      have hnext : ∀ yielded, (r.nextLine yielded).linesFrom ([] ++ text) = pieces '\n' text :=
        fun yielded => if_neg (by have := hat.lineNo; rw [LineReader.lineNo_nextLine]; omega)
      by_cases hstart : startLine ≤ r.lineNo
      · rw [if_pos hstart, Nat.sub_eq_zero_of_le hstart, drop_zero, bind_some]
        by_cases hlast : maxLines ≤ r.yielded + 1
        · rw [if_pos hlast, show maxLines - r.yielded = 1 by omega]
          rfl
        · have hrest := ih (hat.nextLine (r.yielded + 1)) (Nat.not_le.1 hlast)
          rw [hnext, LineReader.lineNo_nextLine, LineReader.yielded_nextLine,
            Nat.sub_eq_zero_of_le (Nat.le_succ_of_le hstart), drop_zero] at hrest
          rw [if_neg hlast, hrest, show maxLines - r.yielded =
            (maxLines - (r.yielded + 1)) + 1 by omega]
          rfl
      · have hrest := ih (hat.nextLine r.yielded) hmax
        rw [hnext, LineReader.lineNo_nextLine, LineReader.yielded_nextLine] at hrest
        rw [if_neg hstart, hrest, show startLine - r.lineNo = (startLine - (r.lineNo + 1)) + 1 by
          omega]
        rfl
    · rw [encode_cons, readUtf8Lines_block (fun b => ne_of_mem_encodeChar hc)
        String.utf8EncodeChar_ne_nil, ih (hat.block hc) hmax, append_assoc]
      rfl

/-- **A window of the lines of a UTF-8 file.** -/
theorem readLineRange_encode {startLine maxLines : ℕ} (hmax : 0 < maxLines) (text : List Char) :
    readLineRange (encode text) startLine maxLines =
      some (((localLines text).drop (startLine - 1)).take maxLines) := by
  have hat : LineReader.At {} [] := ⟨rfl, by simp, Nat.le_refl 1, by simp⟩
  exact readUtf8Lines_encode startLine maxLines text hat hmax

/-! ### The last lines -/

theorem tailOffset_of_count_lt {needLf : ℕ} {bytes : List UInt8}
    (h : bytes.count LINE_FEED < needLf) : tailOffset needLf bytes = 0 := by
  induction bytes generalizing needLf with
  | nil => rfl
  | cons byte bytes ih =>
    rw [tailOffset]
    by_cases hlf : byte = LINE_FEED
    · rw [hlf, count_cons_self] at h
      rw [if_pos hlf, if_neg (by omega), ih (by omega)]
    · rw [count_cons_of_ne hlf] at h
      rw [if_neg hlf, ih h]

theorem tailOffset_of_count_eq {needLf : ℕ} {behind : List UInt8}
    (h : behind.count LINE_FEED + 1 = needLf) (before : List UInt8) :
    tailOffset needLf (behind ++ LINE_FEED :: before) = before.length + 1 := by
  induction behind generalizing needLf with
  | nil =>
    rw [count_nil] at h
    rw [nil_append, tailOffset, if_pos rfl, if_pos (by omega)]
  | cons byte behind ih =>
    rw [cons_append, tailOffset]
    by_cases hlf : byte = LINE_FEED
    · rw [hlf, count_cons_self] at h
      rw [if_pos hlf, if_neg (by omega), ih (by omega)]
    · rw [count_cons_of_ne hlf] at h
      rw [if_neg hlf, ih h]

/-- The line feeds that the search for the last `n` lines needs. -/
theorem count_add_one_of_length_pieces {bytes : List UInt8} (hne : bytes ≠ []) :
    bytes.count LINE_FEED + 1 = (pieces LINE_FEED bytes).length +
      if bytes.getLast? = some LINE_FEED then 1 else 0 := by
  rw [length_pieces]
  simp only [hne, false_or]
  split <;> rfl

/-- **The last lines of a UTF-8 file.** -/
theorem readTailLines_encode {tailCount : ℕ} (hpos : 0 < tailCount) (text : List Char) :
    readTailLines (encode text) tailCount =
      some (if (pieces '\n' text).length ≤ tailCount then pieces '\n' (stripBom text)
        else (pieces '\n' text).drop ((pieces '\n' text).length - tailCount)) := by
  have hpieces : ∀ t : List Char,
      (pieces LINE_FEED (encode t)).length = (pieces '\n' t).length := by
    intro t
    have h := encodes_utf8.pieces t
    rw [show (0x0a : UInt8) = LINE_FEED from rfl] at h
    rw [encode, h, length_map]
  rw [readTailLines]
  by_cases hnil : text = []
  · subst hnil
    rw [encode_nil, if_pos (Or.inr rfl)]
    rfl
  · have hbytes : encode text ≠ [] := fun h => hnil (encode_injective h)
    rw [if_neg fun h => h.elim (Nat.ne_of_gt hpos) hbytes]
    have hcount := count_add_one_of_length_pieces hbytes
    rw [hpieces] at hcount
    simp only
    by_cases hfew : (pieces '\n' text).length ≤ tailCount
    · have hzero : tailOffset (if (encode text).getLast? = some LINE_FEED then tailCount + 1
          else tailCount) (encode text).reverse = 0 := by
        apply tailOffset_of_count_lt
        rw [count_reverse]
        split at hcount <;> rename_i hlast
        · rw [if_pos hlast]
          omega
        · rw [if_neg hlast]
          omega
      rw [hzero, if_pos hfew, drop_zero, decodeTextWithErrors_encode]
      rfl
    · have hlt : (pieces '\n' text).length - tailCount < (pieces '\n' text).length := by omega
      obtain ⟨front, back, htext, hback, hfront⟩ := exists_append_of_lt hlt
      obtain ⟨block, rfl⟩ := hfront (by omega)
      have hlength : (pieces '\n' back).length = tailCount := by
        rw [hback, length_drop]
        omega
      have hne : encode back ≠ [] := by
        intro h
        rw [show back = [] from encode_injective h] at hlength
        exact Nat.ne_of_lt hpos hlength
      have hlast : (encode text).getLast? = (encode back).getLast? := by
        rw [htext, encode_append, getLast?_append_of_ne_nil _ hne]
      have hcountBack := count_add_one_of_length_pieces hne
      rw [hpieces, hlength] at hcountBack
      have hreverse : (encode text).reverse =
          (encode back).reverse ++ LINE_FEED :: (encode block).reverse := by
        rw [htext, encode_append, encode_append, reverse_append, reverse_append]
        rfl
      have hoffset : tailOffset (if (encode text).getLast? = some LINE_FEED then tailCount + 1
          else tailCount) (encode text).reverse = (encode (block ++ ['\n'])).length := by
        have hend : (encode (block ++ ['\n'])).length = (encode block).reverse.length + 1 := by
          rw [encode_append, length_append, length_reverse]
          rfl
        rw [hreverse, hend]
        apply tailOffset_of_count_eq
        rw [count_reverse, hcountBack, hlast]
        split <;> rfl
      have hpositive : (encode (block ++ ['\n'])).length ≠ 0 := by
        rw [encode_append, length_append]
        exact Nat.succ_ne_zero _
      have hdrop : (encode text).drop (encode (block ++ ['\n'])).length = encode back := by
        rw [htext, encode_append (block ++ ['\n']) back, drop_left]
      rw [hoffset, if_neg hfew, hdrop, decodeTextWithErrors_encode,
        if_pos (bne_iff_ne.2 hpositive), map_some, splitLinesKeepingTerminator, hback]

/-! ### The remote lines -/

/-- A line break of the remote backend. -/
def isBreak (c : Char) : Bool := c == '\r' || c == '\n'

theorem isBreak_iff {c : Char} : isBreak c = true ↔ c = '\r' ∨ c = '\n' := by
  rw [isBreak, Bool.or_eq_true, beq_iff_eq, beq_iff_eq]

theorem isBreak_eq_false {c : Char} : isBreak c = false ↔ ¬ (c = '\r' ∨ c = '\n') := by
  rw [← isBreak_iff, Bool.not_eq_true]

theorem splitAtBreaks_ne_nil (text : List Char) : splitAtBreaks text ≠ [] := by
  unfold splitAtBreaks
  split
  · exact cons_ne_nil _ _
  · split <;> exact cons_ne_nil _ _
  · split
    · exact cons_ne_nil _ _
    · split
      · exact cons_ne_nil _ _
      · split <;> exact cons_ne_nil _ _

theorem splitAtBreaks_of_no_break {text : List Char} (h : ∀ c ∈ text, isBreak c = false) :
    splitAtBreaks text = [text] := by
  induction text with
  | nil => rfl
  | cons c text ih =>
    have hc := isBreak_eq_false.1 (h c (.head _))
    have hrest := ih fun d hd => h d (.tail _ hd)
    rcases text with _ | ⟨d, text⟩
    · rw [splitAtBreaks, if_neg hc]
    · rw [splitAtBreaks, if_neg fun h => hc (Or.inl h.1), if_neg hc, hrest]

theorem flatten_splitAtBreaks (text : List Char) :
    (splitAtBreaks text).flatten = text.filter fun c => !isBreak c := by
  induction text using splitAtBreaks.induct with
  | case1 => rfl
  | case2 c hc => rcases hc with rfl | rfl <;> rfl
  | case3 c hc =>
    rw [splitAtBreaks, if_neg hc, filter_cons_of_pos (by rw [isBreak_eq_false.2 hc]; rfl)]
    rfl
  | case4 c d text h ih =>
    obtain ⟨rfl, rfl⟩ := h
    rw [splitAtBreaks, if_pos ⟨rfl, rfl⟩, flatten_cons, ih]
    rfl
  | case5 c d text hpair hc ih =>
    have hdrop : (c :: d :: text).filter (fun c => !isBreak c) =
        (d :: text).filter fun c => !isBreak c :=
      filter_cons_of_neg (by rw [isBreak_iff.2 hc]; decide)
    rw [splitAtBreaks, if_neg hpair, if_pos hc, flatten_cons, ih, hdrop]
    rfl
  | case6 c d text hpair hc hnil ih => exact absurd hnil (splitAtBreaks_ne_nil _)
  | case7 c d text hpair hc line rest hlines ih =>
    rw [hlines] at ih
    rw [splitAtBreaks, if_neg hpair, if_neg hc, hlines, flatten_cons,
      filter_cons_of_pos (by rw [isBreak_eq_false.2 hc]; rfl), ← ih]
    rfl

theorem splitAtBreaks_of_getLast? {text : List Char}
    (h : text.getLast? = some '\n' ∨ text.getLast? = some '\r') :
    ∃ first lines, splitAtBreaks text = first :: (lines ++ [[]]) := by
  induction text using splitAtBreaks.induct with
  | case1 => simp at h
  | case2 c hc => exact ⟨[], [], by rw [splitAtBreaks, if_pos hc]; rfl⟩
  | case3 c hc =>
    simp only [getLast?_singleton, some.injEq] at h
    exact absurd h.symm hc
  | case4 c d text hpair ih =>
    rw [splitAtBreaks, if_pos hpair]
    rcases text with _ | ⟨e, text⟩
    · exact ⟨[], [], rfl⟩
    · rw [getLast?_cons_cons, getLast?_cons_cons] at h
      obtain ⟨first, lines, hlines⟩ := ih h
      exact ⟨[], first :: lines, by rw [hlines]; rfl⟩
  | case5 c d text hpair hc ih =>
    rw [getLast?_cons_cons] at h
    obtain ⟨first, lines, hlines⟩ := ih h
    exact ⟨[], first :: lines, by rw [splitAtBreaks, if_neg hpair, if_pos hc, hlines]; rfl⟩
  | case6 c d text hpair hc hnil ih => exact absurd hnil (splitAtBreaks_ne_nil _)
  | case7 c d text hpair hc line rest hrest ih =>
    rw [getLast?_cons_cons] at h
    obtain ⟨first, lines, hlines⟩ := ih h
    rw [hrest] at hlines
    obtain ⟨rfl, rfl⟩ := List.cons.inj hlines
    exact ⟨c :: line, lines, by rw [splitAtBreaks, if_neg hpair, if_neg hc, hrest]⟩

/-- **The remote lines put together are the text without its line breaks.** -/
theorem flatten_sshLines (text : List Char) :
    (sshLines text).flatten = text.filter fun c => !isBreak c := by
  unfold sshLines
  split
  · rename_i h
    rw [h]
    rfl
  · split
    · rename_i h
      obtain ⟨first, lines, hlines⟩ := splitAtBreaks_of_getLast? h
      rw [← flatten_splitAtBreaks, hlines, ← cons_append, dropLast_concat,
        flatten_append, flatten_singleton, append_nil]
    · exact flatten_splitAtBreaks text

theorem sshLines_of_no_break {text : List Char} (h : ∀ c ∈ text, isBreak c = false) :
    sshLines text = if text = [] then [] else [text] := by
  have hlast : ¬ (text.getLast? = some '\n' ∨ text.getLast? = some '\r') := by
    rintro (hlast | hlast) <;> exact absurd (h _ (mem_of_getLast? hlast)) (by decide)
  rw [sshLines, if_neg hlast, splitAtBreaks_of_no_break h]

end NoriCode
