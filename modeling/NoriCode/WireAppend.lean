/-
**Appending to the wire log across crashes.**

Records are kept until a flush takes all of them and appends them to the log as one text.  A crash
stops the write at any byte, and with it the process; the next one reads the log and appends to it.
What a crash has left of a line is left out by the reader as long as it is the last one.  The next
write is put behind it, and then it is a line that is not JSON.

The module embeds `append`, `flush`, `drainBatch` and `read` of `records/persistence.ts`.  A write
that fails is a crash, since the object takes nothing any more; writing the log anew is not among
the steps.

Main definitions:

* `AppendedLog`, with `step` — the log, the records that wait, and what is known of the lines;
* `AppendedLog.read` — what a process reads;
* `AppendedLog.Whole` — a flush starts on a log that ends in a line feed.

Main results:

* `run_reads` — **every complete line is read**, in every such run.
-/

import NoriCode.WireRewrite
import NoriCode.LibRun

namespace NoriCode

open LibJson LibRun List Option
open LibLines (pieces)

/-! ### The log -/

/-- The records whose lines are within the first bytes of a batch, and the one behind them. -/
def writtenLines : List Json → ℕ → List Json × Option Json
  | [], _ => ([], none)
  | record :: records, bytes =>
    if utf8Length (stringify record ++ ['\n']) ≤ bytes then
      (record :: (writtenLines records (bytes - utf8Length (stringify record ++ ['\n']))).1,
        (writtenLines records (bytes - utf8Length (stringify record ++ ['\n']))).2)
    else ([], some record)

/-- The log of an agent, and the process that writes it. -/
structure AppendedLog where
  file : List Char := []
  pendingRecords : List Json := []
  /-- The batch of the flush under way. -/
  flushing : Option (List Json) := none
  /-- The records whose lines are complete. -/
  written : List Json := []
  /-- The record whose line the last write has broken off. -/
  torn : Option Json := none

namespace AppendedLog

/-- The records of the log, unless a line is not JSON. -/
def read (s : AppendedLog) : Option (List Json) :=
  ((pieces '\n' s.file).mapM readPiece).map fun read => read.filterMap id

/-- What can happen next. -/
inductive Event
  /-- A record, which is an object. -/
  | append (fields : List (List Char × Json))
  /-- A flush takes what waits. -/
  | drain
  /-- Its write is done. -/
  | flushed
  /-- The process stops; of a write under way, so many bytes are in the file.  The next process
  starts. -/
  | crash (bytes : ℕ)

def step (s : AppendedLog) : Event → Option AppendedLog
  | .append fields => some { s with pendingRecords := s.pendingRecords ++ [.obj fields] }
  | .drain =>
    if s.flushing.isSome = true ∨ s.pendingRecords = [] then none
    else some { s with
      flushing := some s.pendingRecords
      pendingRecords := [] }
  | .flushed => s.flushing.map fun batch =>
    { s with
      file := s.file ++ wireContent batch
      flushing := none
      written := s.written ++ batch
      torn := none }
  | .crash bytes =>
    match s.flushing with
    | none => some { s with pendingRecords := [] }
    | some batch => some {
        file := s.file ++ tornText (wireContent batch) bytes
        pendingRecords := []
        flushing := none
        written := s.written ++ (writtenLines batch bytes).1
        torn := (writtenLines batch bytes).2 }

/-- **The condition**: a flush starts on a log that is empty or ends in a line feed. -/
def Whole (s : AppendedLog) : Event → Prop
  | .drain => s.file = [] ∨ s.file.getLast? = some '\n'
  | _ => True

instance (s : AppendedLog) (e : Event) : Decidable (s.Whole e) := by
  cases e <;> unfold Whole <;> infer_instance

/-- All that was written is read, and at most the broken record behind it. -/
def Reads (s : AppendedLog) : Prop :=
  s.read = some s.written ∨ ∃ record, s.torn = some record ∧
    s.read = some (s.written ++ [record])

/-! ### What a crash leaves -/

/-- Nothing, or a record that has lost its line feed or breaks off. -/
def Rest (torn : Option Json) (piece : List Char) : Prop :=
  piece = [] ∨ ∃ record, torn = some record ∧
    (piece = stringify record ∨ BreaksOff record piece)

theorem tornText_writtenLines (batch : List Json) (bytes : ℕ) :
    ∃ piece, tornText (wireContent batch) bytes =
        wireContent (writtenLines batch bytes).1 ++ piece ∧
      Rest (writtenLines batch bytes).2 piece := by
  induction batch generalizing bytes with
  | nil => exact ⟨[], rfl, Or.inl rfl⟩
  | cons record batch ih =>
    rw [wireContent_cons, writtenLines]
    split_ifs with hfits
    · obtain ⟨piece, hpiece, hrest⟩ := ih (bytes - utf8Length (stringify record ++ ['\n']))
      refine ⟨piece, ?_, hrest⟩
      rw [tornText_append hfits, hpiece, wireContent_cons]
      exact (append_assoc _ _ _).symm
    · refine ⟨_, rfl, Or.inr ⟨record, rfl, ?_⟩⟩
      exact (tornText_line (Nat.lt_of_not_le hfits) (wireContent batch)).imp And.left id

variable {piece : List Char}

theorem Rest.plain {torn : Option Json} (h : Rest torn piece) : '\n' ∉ piece := by
  rcases h with rfl | ⟨record, -, rfl | hbreaks⟩
  · exact not_mem_nil
  · exact not_mem_stringify record (by decide)
  · exact hbreaks.plain

/-! ### What is read -/

theorem readPiece_of_breaksOff {fields : List (List Char × Json)}
    (h : BreaksOff (.obj fields) piece) : readPiece piece = some none := by
  rcases h.readPiece with hnone | ⟨n, hn, -⟩
  · exact hnone
  · -- what starts with a brace is not read as a number
    exfalso
    rw [readPiece_plain h.plain] at hn
    obtain ⟨p, q, hrecord, -, hpiece⟩ := h
    cases p with
    | nil =>
      have hempty : parseRecordLine [] true = some none := rfl
      have htorn : parseRecordLine ['\ufffd'] true = some none := rfl
      rcases hpiece with rfl | rfl
      · rw [hempty] at hn
        cases some.inj hn
      · rw [nil_append, htorn] at hn
        cases some.inj hn
    | cons c p =>
      have hc : c = '{' := (List.cons.inj hrecord).1.symm
      obtain ⟨rest, rfl⟩ : ∃ rest, piece = '{' :: rest := by
        rcases hpiece with rfl | rfl
        · exact ⟨p, by rw [hc]⟩
        · exact ⟨p ++ ['\ufffd'], by rw [hc]; rfl⟩
      unfold parseRecordLine at hn
      rw [if_neg (cons_ne_nil _ _)] at hn
      cases hparse : parse ('{' :: rest) with
      | none => simp [hparse] at hn
      | some v =>
        obtain ⟨fields', rfl⟩ := parse_brace hparse
        simp [hparse] at hn

/-- The records of a log are objects. -/
def Objects (records : List Json) : Prop := ∀ record ∈ records, ∃ fields, record = .obj fields

theorem Rest.readPiece {torn : Option Json} (h : Rest torn piece)
    (hobject : Objects torn.toList) (hne : piece ≠ []) :
    NoriCode.readPiece piece = some none ∨
      ∃ record, torn = some record ∧ NoriCode.readPiece piece = some (some record) := by
  obtain ⟨record, rfl, hpiece⟩ := h.resolve_left hne
  obtain ⟨fields, rfl⟩ := hobject record (mem_singleton.2 rfl)
  rcases hpiece with rfl | hbreaks
  · exact Or.inr ⟨_, rfl, readPiece_stringify _⟩
  · exact Or.inl (readPiece_of_breaksOff hbreaks)

theorem mapM_readPiece_lines (records : List Json) :
    (records.map fun record => stringify record ++ ['\n']).mapM readPiece =
      some (records.map some) := by
  induction records with
  | nil => rfl
  | cons record records ih =>
    rw [map_cons, mapM_cons, readPiece_line, ih]
    rfl

theorem read_of_file {s : AppendedLog}
    (hfile : s.file = wireContent s.written ++ piece) (hrest : Rest s.torn piece)
    (hobject : Objects s.torn.toList) : s.Reads := by
  have hlines := mapM_readPiece_lines s.written
  rw [Reads, AppendedLog.read, hfile, pieces_wireContent _ hrest.plain, mapM_append, hlines]
  split_ifs with hpiece
  · left
    simp
  · rcases hrest.readPiece hobject hpiece with hread | ⟨record, htorn, hread⟩
    · left
      simp [hread]
    · refine Or.inr ⟨record, htorn, ?_⟩
      simp [hread]

/-! ### The invariant -/

/-- **The invariant**: behind the complete lines there is at most what a crash has left of one, and
nothing while a flush is under way. -/
structure Sound (s : AppendedLog) : Prop where
  file : ∃ piece, s.file = wireContent s.written ++ piece ∧ Rest s.torn piece ∧
    (s.flushing.isSome = true → piece = [])
  pending : Objects s.pendingRecords
  flushing : ∀ batch, s.flushing = some batch → Objects batch
  torn : Objects s.torn.toList

variable {s s' : AppendedLog}

theorem Sound.reads (h : s.Sound) : s.Reads := by
  obtain ⟨piece, hfile, hrest, -⟩ := h.file
  exact read_of_file hfile hrest h.torn

theorem Objects.nil : Objects [] := fun _ hmem => absurd hmem not_mem_nil

variable {batch : List Json}

theorem objects_writtenLines (h : Objects batch) (bytes : ℕ) :
    Objects (writtenLines batch bytes).2.toList := by
  induction batch generalizing bytes with
  | nil => exact Objects.nil
  | cons record batch ih =>
    rw [writtenLines]
    split_ifs
    · exact ih (fun r hr => h r (.tail _ hr)) _
    · intro r hr
      rw [mem_singleton.1 hr]
      exact h record (.head _)

theorem eq_nil_of_whole {lines : List Char} (hplain : '\n' ∉ piece)
    (h : lines ++ piece = [] ∨ (lines ++ piece).getLast? = some '\n') : piece = [] := by
  by_contra hne
  rcases h with hnil | hlast
  · exact hne (append_eq_nil_iff.1 hnil).2
  · rw [getLast?_append_of_ne_nil _ hne] at hlast
    exact hplain (mem_of_getLast? hlast)

theorem Sound.drain (h : s.Sound) (hwhole : s.file = [] ∨ s.file.getLast? = some '\n') :
    Sound { s with
      flushing := some s.pendingRecords
      pendingRecords := [] } where
  file := by
    obtain ⟨piece, hfile, hrest, -⟩ := h.file
    rw [hfile] at hwhole
    exact ⟨piece, hfile, hrest, fun _ => eq_nil_of_whole hrest.plain hwhole⟩
  pending := Objects.nil
  flushing := by
    intro batch hbatch
    exact some.inj hbatch ▸ h.pending
  torn := h.torn

theorem Sound.flushed (h : s.Sound) (hbatch : s.flushing = some batch) :
    Sound { s with
      file := s.file ++ wireContent batch
      flushing := none
      written := s.written ++ batch
      torn := none } where
  file := by
    obtain ⟨piece, hfile, -, hwhole⟩ := h.file
    have hpiece : piece = [] := hwhole (by rw [hbatch]; rfl)
    refine ⟨[], ?_, Or.inl rfl, fun _ => rfl⟩
    rw [hfile, hpiece, append_nil, append_nil, wireContent_append]
  pending := h.pending
  flushing := fun _ hnone => by cases hnone
  torn := Objects.nil

/-- **A crash** leaves the lines before the place at which it stops the write, and a part of the
line there. -/
theorem Sound.crash (h : s.Sound) (hbatch : s.flushing = some batch) (bytes : ℕ) : Sound {
      file := s.file ++ tornText (wireContent batch) bytes
      pendingRecords := []
      flushing := none
      written := s.written ++ (writtenLines batch bytes).1
      torn := (writtenLines batch bytes).2 } where
  file := by
    obtain ⟨piece, hfile, -, hwhole⟩ := h.file
    have hpiece : piece = [] := hwhole (by rw [hbatch]; rfl)
    obtain ⟨piece', htext, hrest⟩ := tornText_writtenLines batch bytes
    refine ⟨piece', ?_, hrest, fun hsome => by cases hsome⟩
    rw [hfile, hpiece, append_nil, htext, wireContent_append, append_assoc]
  pending := Objects.nil
  flushing := fun _ hnone => by cases hnone
  torn := objects_writtenLines (h.flushing batch hbatch) bytes

/-- **What every step preserves.** -/
theorem Sound.step {e : Event} (h : s.Sound) (hwhole : s.Whole e) (hs : s.step e = some s') :
    s'.Sound := by
  cases e with
  | append fields =>
    cases hs
    refine ⟨h.file, ?_, h.flushing, h.torn⟩
    intro record hrecord
    rcases mem_append.1 hrecord with hold | hnew
    · exact h.pending record hold
    · exact ⟨fields, mem_singleton.1 hnew⟩
  | drain =>
    simp only [AppendedLog.step] at hs
    split at hs <;> cases hs
    exact h.drain hwhole
  | flushed =>
    obtain ⟨batch, hbatch, rfl⟩ := map_eq_some_iff.1 hs
    exact h.flushed hbatch
  | crash bytes =>
    simp only [AppendedLog.step] at hs
    cases hflushing : s.flushing with
    | none =>
      rw [hflushing] at hs
      cases hs
      obtain ⟨piece, hfile, hrest, -⟩ := h.file
      refine ⟨⟨piece, hfile, hrest, ?_⟩, Objects.nil, ?_, h.torn⟩
      · intro hsome
        cases hsome
      · intro batch hbatch
        cases hbatch
    | some batch =>
      rw [hflushing] at hs
      cases hs
      exact h.crash hflushing bytes

theorem Sound.initial : Sound {} where
  file := ⟨[], rfl, Or.inl rfl, fun _ => rfl⟩
  pending := Objects.nil
  flushing := fun _ hnone => by cases hnone
  torn := Objects.nil

end AppendedLog

/-- **Every complete line is read**, and at most the broken record behind them, whatever processes
append and wherever crashes stop their writes, as long as no flush starts behind a broken line. -/
theorem run_reads {l : List AppendedLog.Event} {s : AppendedLog}
    (h : Run AppendedLog.step AppendedLog.Whole {} l s) : s.Reads := by
  have hsound : s.Sound :=
    h.invariant (I := AppendedLog.Sound) AppendedLog.Sound.initial
      fun _ _ _ ht hwhole hs => ht.step hwhole hs
  exact hsound.reads

/-- A crash behind a line, a flush of the next process, and a crash within a line. -/
theorem run_reads_crashes : ∃ s, Run AppendedLog.step AppendedLog.Whole {}
    [.append [], .append [], .drain, .crash 3, .append [], .drain, .flushed, .append [], .drain,
      .crash 1] s ∧ s.Reads := by
  have hrun : ∃ s, Run AppendedLog.step AppendedLog.Whole {}
      [.append [], .append [], .drain, .crash 3, .append [], .drain, .flushed, .append [], .drain,
        .crash 1] s ∧ s.file.length = 7 :=
    exists_run (by decide +kernel) (by decide +kernel)
  obtain ⟨s, hs, -⟩ := hrun
  exact ⟨s, hs, run_reads hs⟩

/-- **A log that cannot be read.** A crash leaves one byte of a line, and the next process appends a
record behind it. -/
theorem not_run_reads : ¬ ∀ (l : List AppendedLog.Event) (s : AppendedLog),
    Run AppendedLog.step always {} l s → s.Reads := by
  intro h
  have hrun : ∃ s, Run AppendedLog.step always {}
      [.append [], .drain, .crash 1, .append [], .drain, .flushed] s ∧
      s.read.isSome = false :=
    exists_run (by decide +kernel) (legal_always _ _)
  obtain ⟨s, hs, hread⟩ := hrun
  rcases h _ s hs with hall | ⟨record, -, hmore⟩
  · rw [hall] at hread
    cases hread
  · rw [hmore] at hread
    cases hread

end NoriCode
