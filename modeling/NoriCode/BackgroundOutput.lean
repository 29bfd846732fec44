/-
**The output of a background task.**

The manager keeps the output of a task twice.  A ring buffer has the latest chunks, and a log on
disk has all of them.  The log of a task that a tool call waits for is not begun: its chunks are
buffered until the task is detached, until they are too many, or until the tool call asks for the
log.  When such a task ends before that, the buffer is released.  The writes to a log are done one
after the other, each in its own time.

The module embeds `appendOutput`, `appendTaskOutput`, `startOutputPersist`, `detach`,
`persistOutput` and `finalizeTask` of `agent/background/index.ts`, as far as they deal with the
output, and `appendTaskOutput` of `persist.ts`.  A write of the log does not fail.

Main definitions:

* `TaskOutput`, with `step` — the output of one task, with a ghost for all of its chunks;
* `TaskOutput.Described` — what the log and the ring buffer should be;
* `TaskOutput.Measured` — the condition on the steps.

Main results:

* `TaskOutput.ring_fits_iff` — when the ring buffer keeps its limit;
* `TaskOutput.run_described` — **the log and the ring buffer are what they should be in
  every state of a run exactly when all of its steps meet the condition**.
-/

import NoriCode.JsText
import NoriCode.LibRetain
import NoriCode.LibRun

namespace NoriCode

open List LibRetain

/-- `MAX_OUTPUT_BYTES`: one MiB. -/
def maxOutputBytes : ℕ := 1024 * 1024

/-- `Buffer.byteLength(text, 'utf-8')`. -/
def byteLength (text : String) : ℕ := text.utf8ByteSize

/-- The output of one `ManagedTask`. -/
structure TaskOutput where
  /-- The manager has a `persistence`. -/
  persistence : Bool
  /-- `foregroundRelease === undefined`. -/
  detached : Bool
  /-- The status is a terminal one. -/
  terminal : Bool := false
  outputChunks : List String := []
  outputSizeBytes : ℕ := 0
  pendingOutput : List String := []
  pendingOutputBytes : ℕ := 0
  outputPersistStarted : Bool
  /-- The appends that are still to be done, in their order. -/
  outputWriteQueue : List String := []
  /-- The file `output.log`, if there is one. -/
  outputLog : Option String := none
  /-- All chunks of the task. -/
  written : List String := []

namespace TaskOutput

/-! ### Operations -/

def register (persistence detached : Bool) : TaskOutput where
  persistence := persistence
  detached := detached
  outputPersistStarted := detached

/-- The loop that drops the oldest chunks, with the total it carries. -/
def dropChunks : ℕ → List String → List String
  | total, removed :: next :: rest =>
    if total > maxOutputBytes then dropChunks (total - utf16Length removed) (next :: rest)
    else removed :: next :: rest
  | _, chunks => chunks

def appendTaskOutput (s : TaskOutput) (chunk : String) : TaskOutput :=
  if s.persistence then { s with outputWriteQueue := s.outputWriteQueue ++ [chunk] } else s

def startOutputPersist (s : TaskOutput) : TaskOutput :=
  if s.outputPersistStarted then s
  else
    let started := { s with outputPersistStarted := true }
    let flushed :=
      if s.pendingOutput.length > 0 then started.appendTaskOutput (String.join s.pendingOutput)
      else started
    { flushed with pendingOutput := [], pendingOutputBytes := 0 }

/-- The chunk in the ring buffer. -/
def pushChunk (s : TaskOutput) (chunk : String) : TaskOutput :=
  let outputChunks := s.outputChunks ++ [chunk]
  let total := (outputChunks.map utf16Length).sum
  { s with
    outputSizeBytes := s.outputSizeBytes + byteLength chunk
    outputChunks := dropChunks total outputChunks
    written := s.written ++ [chunk] }

/-- The chunk on its way to the log. -/
def saveChunk (s : TaskOutput) (chunk : String) : TaskOutput :=
  if s.persistence then
    if s.outputPersistStarted then s.appendTaskOutput chunk
    else
      let buffered :=
        { s with
          pendingOutput := s.pendingOutput ++ [chunk]
          pendingOutputBytes := s.pendingOutputBytes + byteLength chunk }
      if buffered.pendingOutputBytes > maxOutputBytes then buffered.startOutputPersist else buffered
  else s

def appendOutput (s : TaskOutput) (chunk : String) : TaskOutput :=
  (s.pushChunk chunk).saveChunk chunk

def detach (s : TaskOutput) : TaskOutput :=
  if s.terminal then s
  else if s.detached then s
  else { s with detached := true }.startOutputPersist

def finalizeTask (s : TaskOutput) : TaskOutput :=
  let ended := { s with terminal := true }
  if s.outputPersistStarted then ended
  else { ended with pendingOutput := [], pendingOutputBytes := 0 }

end TaskOutput

inductive OutputEvent
  | appendOutput (chunk : String)
  | detach
  | persistOutput
  /-- The lifecycle of a task ends once. -/
  | finalizeTask
  /-- The next append of the queue is done. -/
  | written

namespace TaskOutput

def step (s : TaskOutput) : OutputEvent → Option TaskOutput
  | .appendOutput chunk => some (s.appendOutput chunk)
  | .detach => some s.detach
  | .persistOutput => some s.startOutputPersist
  | .finalizeTask => if s.terminal then none else some s.finalizeTask
  | .written =>
    match s.outputWriteQueue with
    | [] => none
    | chunk :: rest =>
      some { s with
        outputWriteQueue := rest
        outputLog := some (s.outputLog.getD "" ++ chunk) }

/-! ### What the log and the ring buffer should be -/

/-- The bytes of a list of chunks. -/
def bytes (chunks : List String) : ℕ := LibRetain.total byteLength chunks

/-- **The log**: nothing before it is begun; from then on, with the appends that are still to be
done, all chunks in their order. -/
structure Logged (s : TaskOutput) : Prop where
  before : s.outputPersistStarted = false → s.outputLog = none ∧ s.outputWriteQueue = []
  after : s.persistence = true → s.outputPersistStarted = true →
    s.outputLog.getD "" ++ String.join s.outputWriteQueue = String.join s.written

/-- **The ring buffer**: the latest chunks, with no more bytes than the limit and the last chunk. -/
structure Ring (s : TaskOutput) : Prop where
  suffix : s.outputChunks <:+ s.written
  size : bytes s.outputChunks ≤ maxOutputBytes + byteLength (s.written.getLast?.getD "")

structure Described (s : TaskOutput) : Prop where
  logged : s.Logged
  ring : s.Ring

/-- The chunks that fit into the limit together with the new one, counted in code units, fit into it
counted in bytes. -/
def Fits (s : TaskOutput) (chunk : String) : Prop :=
  ∀ chunks, chunks <:+ s.outputChunks →
    LibRetain.total utf16Length chunks + utf16Length chunk ≤ maxOutputBytes →
      bytes chunks ≤ maxOutputBytes

/-- No output was released, or the log is begun, or will never be. -/
def Whole (s : TaskOutput) : Prop :=
  s.persistence = true → s.outputPersistStarted = false → s.outputSizeBytes = s.pendingOutputBytes

/-- **The condition on a step.** A chunk is as long in code units as in bytes, as far as the limit
is concerned, and no step begins the log of a task whose output was released at its end. -/
def Measured (s : TaskOutput) : OutputEvent → Prop
  | .appendOutput chunk =>
    s.Fits chunk ∧ (s.pendingOutputBytes + byteLength chunk > maxOutputBytes → s.Whole)
  | .persistOutput => s.Whole
  | _ => True

instance Fits.decidable (s : TaskOutput) (chunk : String) : Decidable (s.Fits chunk) :=
  decidable_of_iff
    (∀ chunks ∈ s.outputChunks.tails,
      LibRetain.total utf16Length chunks + utf16Length chunk ≤ maxOutputBytes →
        bytes chunks ≤ maxOutputBytes)
    (by simp only [List.mem_tails]; exact Iff.rfl)

instance Whole.decidable (s : TaskOutput) : Decidable s.Whole :=
  inferInstanceAs (Decidable (_ → _ → _))

instance Measured.decidable (s : TaskOutput) (event : OutputEvent) : Decidable (s.Measured event) :=
  match event with
  | .appendOutput _ => inferInstanceAs (Decidable (_ ∧ _))
  | .persistOutput => inferInstanceAs (Decidable s.Whole)
  | .detach => inferInstanceAs (Decidable True)
  | .finalizeTask => inferInstanceAs (Decidable True)
  | .written => inferInstanceAs (Decidable True)

/-! ### The ring buffer -/

/-- The loop drops what it should: the total it carries is that of the chunks it has. -/
theorem dropChunks_eq (chunks : List String) :
    dropChunks (LibRetain.total utf16Length chunks) chunks =
      dropOldest utf16Length maxOutputBytes chunks := by
  induction chunks with
  | nil => rfl
  | cons removed chunks ih =>
    cases chunks with
    | nil => rfl
    | cons next rest =>
      unfold dropChunks dropOldest
      rw [total_cons utf16Length removed, Nat.add_sub_cancel_left, ih]

theorem pushChunk_outputChunks (s : TaskOutput) (chunk : String) :
    (s.pushChunk chunk).outputChunks =
      dropOldest utf16Length maxOutputBytes (s.outputChunks ++ [chunk]) :=
  dropChunks_eq _

/-- **When the ring buffer keeps its limit**: exactly when the chunks that fit with the new one in
code units fit in bytes. -/
theorem ring_fits_iff {s : TaskOutput} (h : s.outputChunks <:+ s.written) (chunk : String) :
    (s.pushChunk chunk).Ring ↔ s.Fits chunk := by
  obtain ⟨kept, hkept, hsuffix, hfits, hlongest⟩ :=
    dropOldest_concat utf16Length maxOutputBytes s.outputChunks chunk
  have hchunks : (s.pushChunk chunk).outputChunks = kept ++ [chunk] :=
    (pushChunk_outputChunks s chunk).trans hkept
  have hlast : (s.pushChunk chunk).written.getLast?.getD "" = chunk := by
    change ((s.written ++ [chunk]).getLast?).getD "" = chunk
    rw [getLast?_concat]
    rfl
  have hbytes : bytes (kept ++ [chunk]) = bytes kept + byteLength chunk := by
    unfold bytes
    rw [total_append, total_cons, total_nil, Nat.add_zero]
  constructor
  · intro hring chunks hchunks' hlimit
    have hsize := hring.size
    rw [hchunks, hlast, hbytes] at hsize
    have hle : bytes chunks ≤ bytes kept :=
      total_le_of_suffix byteLength (hlongest chunks hchunks' hlimit)
    omega
  · intro hall
    have hle : bytes kept ≤ maxOutputBytes := by
      rcases hfits with rfl | hlimit
      · exact Nat.zero_le _
      · exact hall kept hsuffix hlimit
    refine ⟨?_, ?_⟩
    · rw [hchunks]
      exact suffix_append_self_iff.2 (hsuffix.trans h)
    · rw [hchunks, hlast, hbytes]
      omega

/-! ### The log -/

theorem byteLength_join (chunks : List String) :
    byteLength (String.join chunks) = bytes chunks := by
  induction chunks with
  | nil => rfl
  | cons chunk chunks ih =>
    rw [String.join_cons]
    unfold byteLength at ih ⊢
    rw [String.utf8ByteSize_append, ih]
    exact (total_cons byteLength chunk chunks).symm

theorem bytes_concat (chunks : List String) (chunk : String) :
    bytes (chunks ++ [chunk]) = bytes chunks + byteLength chunk := by
  unfold bytes
  rw [total_append, total_cons, total_nil, Nat.add_zero]

/-- The latest chunks are all of the output when they have all of its bytes. -/
theorem join_eq_of_bytes {chunks written : List String} (h : chunks <:+ written)
    (hbytes : bytes written = bytes chunks) : String.join chunks = String.join written := by
  obtain ⟨released, rfl⟩ := h
  have hempty : byteLength (String.join released) = 0 := by
    have hsum : bytes (released ++ chunks) = bytes released + bytes chunks := total_append ..
    rw [byteLength_join]
    omega
  rw [String.join_append, String.utf8ByteSize_eq_zero_iff.1 hempty, String.empty_append]

/-- The counters count, and what is buffered is the latest output, all of it as long as the task
runs. -/
structure Kept (s : TaskOutput) : Prop where
  size : s.outputSizeBytes = bytes s.written
  pendingSize : s.pendingOutputBytes = bytes s.pendingOutput
  pending : s.persistence = true → s.outputPersistStarted = false →
    s.pendingOutput <:+ s.written
  running : s.persistence = true → s.outputPersistStarted = false → s.terminal = false →
    s.pendingOutput = s.written

variable {s : TaskOutput}

/-- What is queued when the log is begun. -/
def flushed (s : TaskOutput) : List String :=
  if s.persistence = true ∧ s.pendingOutput ≠ [] then [String.join s.pendingOutput] else []

theorem startOutputPersist_eq (h : s.outputPersistStarted = false) :
    s.startOutputPersist =
      { s with
        outputPersistStarted := true
        pendingOutput := []
        pendingOutputBytes := 0
        outputWriteQueue := s.outputWriteQueue ++ s.flushed } := by
  unfold startOutputPersist
  rw [if_neg (by rw [h]; exact Bool.false_ne_true)]
  by_cases hpending : s.pendingOutput = []
  · have hflushed : s.flushed = [] := if_neg fun hboth => hboth.2 hpending
    simp [hflushed, hpending]
  · have hlength : s.pendingOutput.length > 0 := length_pos_iff.2 hpending
    cases hpersistence : s.persistence with
    | false =>
      have hflushed : s.flushed = [] := if_neg fun hboth => by simp [hpersistence] at hboth
      simp [hflushed, hlength, appendTaskOutput]
    | true =>
      have hflushed : s.flushed = [String.join s.pendingOutput] := if_pos ⟨hpersistence, hpending⟩
      simp [hflushed, hlength, appendTaskOutput]

theorem join_flushed (h : s.persistence = true) :
    String.join s.flushed = String.join s.pendingOutput := by
  unfold flushed
  split_ifs with hboth
  · rw [String.join_cons, String.join_nil, String.append_empty]
  · have hnil : s.pendingOutput = [] := not_not.1 fun hne => hboth ⟨h, hne⟩
    rw [hnil]

/-- The log of a task whose output is all buffered is begun with all of it; otherwise it lacks
what was released. -/
theorem logged_startOutputPersist (hk : s.Kept) (hl : s.Logged) :
    s.startOutputPersist.Logged ↔ s.Whole := by
  cases hstarted : s.outputPersistStarted with
  | true =>
    have hsame : s.startOutputPersist = s := if_pos hstarted
    rw [hsame]
    exact iff_of_true hl fun _ hnot => by rw [hstarted] at hnot; cases hnot
  | false =>
    obtain ⟨hlog, hqueue⟩ := hl.before hstarted
    have hwhole : s.Whole ↔ (s.persistence = true →
        String.join s.pendingOutput = String.join s.written) := by
      refine ⟨fun h hpersistence => ?_, fun h hpersistence _ => ?_⟩
      · have hsize := h hpersistence hstarted
        rw [hk.size, hk.pendingSize] at hsize
        exact join_eq_of_bytes (hk.pending hpersistence hstarted) hsize
      · rw [hk.size, hk.pendingSize, ← byteLength_join, ← byteLength_join, h hpersistence]
    rw [hwhole, startOutputPersist_eq hstarted]
    constructor
    · intro h hpersistence
      have hafter := h.after hpersistence rfl
      rw [hlog, hqueue, nil_append, join_flushed hpersistence] at hafter
      exact String.empty_append.symm.trans hafter
    · intro h
      refine ⟨nofun, fun hpersistence _ => ?_⟩
      dsimp only at hpersistence ⊢
      rw [hlog, hqueue, nil_append, join_flushed hpersistence, h hpersistence]
      exact String.empty_append

theorem Kept.startOutputPersist (h : s.Kept) : s.startOutputPersist.Kept := by
  cases hstarted : s.outputPersistStarted with
  | true =>
    have hsame : s.startOutputPersist = s := if_pos hstarted
    rw [hsame]
    exact h
  | false =>
    rw [startOutputPersist_eq hstarted]
    exact ⟨h.size, rfl, nofun, nofun⟩

theorem ring_startOutputPersist : s.startOutputPersist.Ring ↔ s.Ring := by
  have hsame : s.startOutputPersist.outputChunks = s.outputChunks ∧
      s.startOutputPersist.written = s.written := by
    cases hstarted : s.outputPersistStarted with
    | true =>
      have hsame : s.startOutputPersist = s := if_pos hstarted
      rw [hsame]
      exact ⟨rfl, rfl⟩
    | false =>
      rw [startOutputPersist_eq hstarted]
      exact ⟨rfl, rfl⟩
  constructor
  · rintro ⟨hsuffix, hsize⟩
    rw [hsame.1, hsame.2] at hsuffix hsize
    exact ⟨hsuffix, hsize⟩
  · rintro ⟨hsuffix, hsize⟩
    refine ⟨?_, ?_⟩ <;> rw [hsame.1, hsame.2] <;> assumption

/-! ### One chunk -/

theorem ring_saveChunk (chunk : String) : (s.saveChunk chunk).Ring ↔ s.Ring := by
  unfold saveChunk appendTaskOutput
  dsimp only
  split_ifs
  · exact ⟨fun h => ⟨h.suffix, h.size⟩, fun h => ⟨h.suffix, h.size⟩⟩
  · exact ring_startOutputPersist.trans ⟨fun h => ⟨h.suffix, h.size⟩, fun h => ⟨h.suffix, h.size⟩⟩
  · exact ⟨fun h => ⟨h.suffix, h.size⟩, fun h => ⟨h.suffix, h.size⟩⟩
  · exact Iff.rfl

/-- The chunk in the ring buffer and in the buffer before the log. -/
def bufferChunk (s : TaskOutput) (chunk : String) : TaskOutput :=
  { s.pushChunk chunk with
    pendingOutput := s.pendingOutput ++ [chunk]
    pendingOutputBytes := s.pendingOutputBytes + byteLength chunk }

theorem Kept.bufferChunk (h : s.Kept) (chunk : String) : (s.bufferChunk chunk).Kept where
  size := by
    change s.outputSizeBytes + byteLength chunk = bytes (s.written ++ [chunk])
    rw [bytes_concat, h.size]
  pendingSize := by
    change s.pendingOutputBytes + byteLength chunk = bytes (s.pendingOutput ++ [chunk])
    rw [bytes_concat, h.pendingSize]
  pending hpersistence hstarted := suffix_append_self_iff.2 (h.pending hpersistence hstarted)
  running hpersistence hstarted hterminal :=
    congrArg (· ++ [chunk]) (h.running hpersistence hstarted hterminal)

theorem appendOutput_cases (s : TaskOutput) (chunk : String) :
    (s.persistence = false ∧ s.appendOutput chunk = s.pushChunk chunk) ∨
    (s.persistence = true ∧ s.outputPersistStarted = true ∧
      s.appendOutput chunk =
        { s.pushChunk chunk with outputWriteQueue := s.outputWriteQueue ++ [chunk] }) ∨
    (s.persistence = true ∧ s.outputPersistStarted = false ∧
      s.appendOutput chunk =
        if s.pendingOutputBytes + byteLength chunk > maxOutputBytes then
          (s.bufferChunk chunk).startOutputPersist
        else s.bufferChunk chunk) := by
  cases hpersistence : s.persistence with
  | false =>
    have hsave : ¬ (s.pushChunk chunk).persistence = true := fun hnot =>
      Bool.false_ne_true (hpersistence.symm.trans hnot)
    exact Or.inl ⟨rfl, if_neg hsave⟩
  | true =>
    have hsave : (s.pushChunk chunk).persistence = true := hpersistence
    cases hstarted : s.outputPersistStarted with
    | true =>
      have hsaved : (s.pushChunk chunk).outputPersistStarted = true := hstarted
      refine Or.inr (Or.inl ⟨rfl, rfl, ?_⟩)
      unfold appendOutput saveChunk appendTaskOutput
      rw [if_pos hsave, if_pos hsaved, if_pos hsave]
      rfl
    | false =>
      have hsaved : ¬ (s.pushChunk chunk).outputPersistStarted = true := fun hnot =>
        Bool.false_ne_true (hstarted.symm.trans hnot)
      refine Or.inr (Or.inr ⟨rfl, rfl, ?_⟩)
      unfold appendOutput saveChunk
      rw [if_pos hsave, if_neg hsaved]
      rfl

theorem Kept.appendOutput (h : s.Kept) (chunk : String) : (s.appendOutput chunk).Kept := by
  have hbuffered := h.bufferChunk chunk
  obtain ⟨hpersistence, heq⟩ | ⟨hpersistence, hstarted, heq⟩ | ⟨hpersistence, hstarted, heq⟩ :=
    appendOutput_cases s chunk
  · rw [heq]
    refine ⟨hbuffered.size, h.pendingSize, fun hnot => ?_, fun hnot => ?_⟩
    · exact absurd (hpersistence.symm.trans hnot) Bool.false_ne_true
    · exact absurd (hpersistence.symm.trans hnot) Bool.false_ne_true
  · rw [heq]
    refine ⟨hbuffered.size, h.pendingSize, fun _ hnot => ?_, fun _ hnot => ?_⟩
    · exact absurd (hnot.symm.trans hstarted) Bool.false_ne_true
    · exact absurd (hnot.symm.trans hstarted) Bool.false_ne_true
  · rw [heq]
    split_ifs
    · exact hbuffered.startOutputPersist
    · exact hbuffered

/-- **One chunk**: the log and the ring buffer stay what they should be exactly when the chunk meets
the condition. -/
theorem described_appendOutput (hk : s.Kept) (hd : s.Described) (chunk : String) :
    (s.appendOutput chunk).Described ↔ s.Measured (.appendOutput chunk) := by
  have hring : (s.appendOutput chunk).Ring ↔ s.Fits chunk :=
    (ring_saveChunk chunk).trans (ring_fits_iff hd.ring.suffix chunk)
  have hlogged : (s.appendOutput chunk).Logged ↔
      (s.pendingOutputBytes + byteLength chunk > maxOutputBytes → s.Whole) := by
    obtain ⟨hpersistence, heq⟩ | ⟨hpersistence, hstarted, heq⟩ | ⟨hpersistence, hstarted, heq⟩ :=
      appendOutput_cases s chunk
    · rw [heq]
      refine iff_of_true ⟨hd.logged.before, fun hnot => ?_⟩ fun _ hnot => ?_
      · exact absurd (hpersistence.symm.trans hnot) Bool.false_ne_true
      · exact absurd (hpersistence.symm.trans hnot) Bool.false_ne_true
    · rw [heq]
      refine iff_of_true ⟨fun hnot => ?_, fun _ _ => ?_⟩ fun _ _ hnot => ?_
      · exact absurd (hnot.symm.trans hstarted) Bool.false_ne_true
      · change s.outputLog.getD "" ++ String.join (s.outputWriteQueue ++ [chunk]) =
          String.join (s.written ++ [chunk])
        rw [String.join_append, String.join_append, ← hd.logged.after hpersistence hstarted,
          String.append_assoc]
      · exact absurd (hnot.symm.trans hstarted) Bool.false_ne_true
    · have hbuffered : (s.bufferChunk chunk).Logged :=
        ⟨hd.logged.before, fun _ hnot => absurd (hstarted.symm.trans hnot) Bool.false_ne_true⟩
      rw [heq]
      split_ifs with hover
      · refine (logged_startOutputPersist (hk.bufferChunk chunk) hbuffered).trans ?_
        refine Iff.trans ?_ (forall_prop_of_true hover).symm
        refine forall_congr' fun _ => forall_congr' fun _ => ?_
        exact Nat.add_right_cancel_iff
      · exact iff_of_true hbuffered fun hnot => absurd hnot hover
  exact ⟨fun h => ⟨hring.1 h.ring, hlogged.1 h.logged⟩, fun h => ⟨hlogged.2 h.2, hring.2 h.1⟩⟩

/-! ### The run -/

theorem Kept.step (h : s.Kept) {event : OutputEvent} {u : TaskOutput}
    (hu : s.step event = some u) : u.Kept := by
  cases event with
  | appendOutput chunk =>
    cases hu
    exact h.appendOutput chunk
  | detach =>
    cases hu
    unfold TaskOutput.detach
    split_ifs
    · exact h
    · exact h
    · exact (show Kept { s with detached := true } from
        ⟨h.size, h.pendingSize, h.pending, h.running⟩).startOutputPersist
  | persistOutput =>
    cases hu
    exact h.startOutputPersist
  | finalizeTask =>
    unfold TaskOutput.step at hu
    split_ifs at hu
    cases hu
    unfold TaskOutput.finalizeTask
    split_ifs
    · exact ⟨h.size, h.pendingSize, h.pending, nofun⟩
    · exact ⟨h.size, rfl, fun _ _ => nil_suffix, nofun⟩
  | written =>
    unfold TaskOutput.step at hu
    dsimp only at hu
    split at hu <;> cases hu
    exact ⟨h.size, h.pendingSize, h.pending, h.running⟩

/-- **One step**: the log and the ring buffer stay what they should be exactly when the step meets
the condition. -/
theorem described_step (hk : s.Kept) (hd : s.Described) {event : OutputEvent} {u : TaskOutput}
    (hu : s.step event = some u) : u.Described ↔ s.Measured event := by
  cases event with
  | appendOutput chunk =>
    cases hu
    exact described_appendOutput hk hd chunk
  | detach =>
    cases hu
    refine iff_of_true ?_ trivial
    unfold TaskOutput.detach
    split_ifs with hterminal hdetached
    · exact hd
    · exact hd
    · -- a running task has all of its output in the buffer
      have hk' : Kept { s with detached := true } :=
        ⟨hk.size, hk.pendingSize, hk.pending, hk.running⟩
      have hwhole : Whole { s with detached := true } := fun hpersistence hstarted => by
        rw [hk.size, hk.pendingSize, hk.running hpersistence hstarted
          (Bool.eq_false_iff.2 hterminal)]
      refine ⟨(logged_startOutputPersist hk' ⟨hd.logged.before, hd.logged.after⟩).2 hwhole, ?_⟩
      exact ring_startOutputPersist.2 ⟨hd.ring.suffix, hd.ring.size⟩
  | persistOutput =>
    cases hu
    constructor
    · exact fun h => (logged_startOutputPersist hk hd.logged).1 h.logged
    · exact fun h => ⟨(logged_startOutputPersist hk hd.logged).2 h,
        ring_startOutputPersist.2 hd.ring⟩
  | finalizeTask =>
    unfold TaskOutput.step at hu
    split_ifs at hu
    cases hu
    refine iff_of_true ?_ trivial
    unfold TaskOutput.finalizeTask
    split_ifs <;> exact ⟨⟨hd.logged.before, hd.logged.after⟩, ⟨hd.ring.suffix, hd.ring.size⟩⟩
  | written =>
    unfold TaskOutput.step at hu
    dsimp only at hu
    split at hu <;> cases hu
    rename_i chunk rest hqueue
    refine iff_of_true ⟨⟨fun hstarted => ?_, fun hpersistence hstarted => ?_⟩,
      ⟨hd.ring.suffix, hd.ring.size⟩⟩ trivial
    · have hnil := (hd.logged.before hstarted).2
      rw [hqueue] at hnil
      cases hnil
    · change s.outputLog.getD "" ++ chunk ++ String.join rest = String.join s.written
      rw [← hd.logged.after hpersistence hstarted, hqueue, String.join_cons, String.append_assoc]

theorem kept_register (persistence detached : Bool) : (register persistence detached).Kept :=
  ⟨rfl, rfl, fun _ _ => suffix_rfl, fun _ _ _ => rfl⟩

theorem described_register (persistence detached : Bool) :
    (register persistence detached).Described :=
  ⟨⟨fun _ => ⟨rfl, rfl⟩, fun _ _ => rfl⟩, ⟨suffix_rfl, Nat.zero_le _⟩⟩

/-- **When the log and the ring buffer are what they should be**: in every state of a run, exactly
when all of its steps meet the condition. -/
theorem run_described (persistence detached : Bool) (events : List OutputEvent)
    (h : (LibRun.exec step (register persistence detached) events).isSome) :
    (∀ earlier, earlier <+: events →
        ∀ s ∈ LibRun.exec step (register persistence detached) earlier, s.Described) ↔
      LibRun.Legal step Measured (register persistence detached) events :=
  (LibRun.legal_iff (fun _ _ _ hk hu => Kept.step hk hu)
    (fun _ _ _ hk hd hu => described_step hk hd hu) (kept_register persistence detached)
    (described_register persistence detached) h).symm

/-- A task writes, is detached, writes again and ends, while the first append is done. -/
def detachedBetween : List OutputEvent :=
  [.appendOutput "ab", .appendOutput "cd", .detach, .appendOutput "ef", .written, .finalizeTask]

theorem run_described_detachedBetween :
    ∃ s ∈ LibRun.exec step (register true false) detachedBetween, s.Described := by
  obtain ⟨s, hs⟩ : ∃ s, LibRun.exec step (register true false) detachedBetween = some s :=
    Option.isSome_iff_exists.1 (by decide)
  exact ⟨s, hs, (run_described true false detachedBetween (by decide)).2 (by decide) _
    prefix_rfl s hs⟩

/-- Characters of three bytes each. -/
def wideText (n : ℕ) : String := String.ofList (List.replicate n 'あ')

theorem byteLength_wideText (n : ℕ) : byteLength (wideText n) = n * 3 := by
  unfold byteLength wideText
  induction n with
  | zero => rfl
  | succ n ih =>
    rw [replicate_succ, ← singleton_append, String.ofList_append,
      String.utf8ByteSize_append, ih, Nat.succ_mul, Nat.add_comm]
    exact congrArg (n * 3 + ·) (by decide)

theorem utf16Length_wideText (n : ℕ) : utf16Length (wideText n) = n := by
  unfold utf16Length wideText
  rw [String.toList_ofList, map_replicate, if_pos (by decide), sum_replicate_nat, Nat.mul_one]

/-- A wide text that fits in code units, together with one more character, and not in bytes. -/
theorem not_fits_wideText {n : ℕ} (hunits : n + 1 ≤ maxOutputBytes)
    (hbytes : maxOutputBytes < n * 3) :
    ¬ ((register true true).appendOutput (wideText n)).Fits "x" := by
  intro hfits
  have hsize : bytes [wideText n] ≤ maxOutputBytes := by
    refine hfits [wideText n] suffix_rfl ?_
    rw [total_cons, total_nil, utf16Length_wideText]
    exact hunits
  unfold bytes at hsize
  rw [total_cons, total_nil, byteLength_wideText] at hsize
  omega

/-- 600 000 such characters and one more are fewer code units than the limit: the ring buffer has
1 800 001 bytes then. -/
theorem ring_overfull :
    ¬ ∀ (persistence detached : Bool) (events : List OutputEvent),
      ∀ s ∈ LibRun.exec step (register persistence detached) events, s.Described := by
  intro hall
  have hd := hall true true [.appendOutput (wideText 600000)] _ rfl
  have hd' := hall true true [.appendOutput (wideText 600000), .appendOutput "x"] _ rfl
  have hk : ((register true true).appendOutput (wideText 600000)).Kept :=
    (kept_register true true).appendOutput _
  exact not_fits_wideText (by decide) (by decide) ((described_appendOutput hk hd "x").1 hd').1

end TaskOutput

end NoriCode
