/-
**Appending, rewriting and flushing.**

Records wait until a batch takes all of them.  A rewrite replaces what waits and has the next batch
empty the file; the batch under way is not held up, and comes first.  `flush` resolves when nothing
is under way and nothing waits.

The module embeds `append`, `rewrite` and `flush` of `records/persistence.ts`, without errors.

Main definitions:

* `RecordPersistence`, with `step` — the file, what waits, and the batch under way;
* `RecordPersistence.contents` — what the calls ask for.

Main results:

* `RecordPersistence.file_eq_contents` — **the file has what was asked for** when all is settled.
-/

import Mathlib.Data.List.Infix
import NoriCode.LibRun

namespace NoriCode

open List

/-- How far the flush is: a batch waits for the file to be opened, or is written to it; or nothing
was left to take, and its promise is about to settle. -/
inductive RecordFlush (ρ : Type) where
  | taken (shouldClear : Bool) (batch : List ρ)
  | opened (batch : List ρ)
  | drained

structure RecordPersistence (ρ : Type) where
  file : List ρ
  pendingRecords : List ρ := []
  shouldClear : Bool := false
  flushPromise : Option (RecordFlush ρ) := none

namespace RecordPersistence

variable {ρ : Type}

/-- The calls, and what happens to the flush. -/
inductive Event (ρ : Type) where
  | append (input : ρ)
  | rewrite (records : List ρ)
  | flush
  | opened
  | written
  | settled
  /-- A call of `flush` resolves. -/
  | resolved

def Waits (s : RecordPersistence ρ) : Bool := s.shouldClear || !s.pendingRecords.isEmpty

/-- The loop of `drainPendingRecords`, up to its next `await`. -/
def drain (s : RecordPersistence ρ) : RecordPersistence ρ :=
  if s.Waits then
    { file := s.file, flushPromise := some (.taken s.shouldClear s.pendingRecords) }
  else { s with flushPromise := some .drained }

def ensureFlush (s : RecordPersistence ρ) : RecordPersistence ρ :=
  if s.flushPromise.isSome then s else s.drain

def step (s : RecordPersistence ρ) : Event ρ → Option (RecordPersistence ρ)
  | .append input => some { s with pendingRecords := s.pendingRecords ++ [input] }.ensureFlush
  | .rewrite records => some { s with pendingRecords := records, shouldClear := true }.ensureFlush
  | .flush => some (if s.Waits then s.ensureFlush else s)
  | .opened =>
    match s.flushPromise with
    | some (.taken shouldClear batch) => some { s with
        file := if shouldClear then [] else s.file
        flushPromise := some (.opened batch) }
    | _ => none
  | .written =>
    match s.flushPromise with
    | some (.opened batch) => some { s with file := s.file ++ batch }.drain
    | _ => none
  | .settled =>
    match s.flushPromise with
    | some .drained =>
      let s := { s with flushPromise := none }
      some (if s.Waits then s.ensureFlush else s)
    | _ => none
  | .resolved => if s.flushPromise.isSome || s.Waits then none else some s

/-- The records of the last rewrite, and those appended behind them. -/
def contents : List ρ → List (Event ρ) → List ρ
  | records, [] => records
  | records, .append input :: events => contents (records ++ [input]) events
  | _, .rewrite records :: events => contents records events
  | records, _ :: events => contents records events

/-- What the file will have. -/
def upcoming (s : RecordPersistence ρ) : List ρ :=
  (if s.shouldClear then [] else
    match s.flushPromise with
    | some (.taken shouldClear batch) => (if shouldClear then [] else s.file) ++ batch
    | some (.opened batch) => s.file ++ batch
    | _ => s.file) ++ s.pendingRecords

variable {s t : RecordPersistence ρ} {e : Event ρ} {events : List (Event ρ)} {initial : List ρ}

theorem contents_append (events' : List (Event ρ)) :
    contents initial (events ++ events') = contents (contents initial events) events' := by
  induction events generalizing initial with
  | nil => rfl
  | cons e events ih => cases e <;> exact ih

theorem prefix_contents (h : ∀ records, .rewrite records ∉ events) :
    initial <+: contents initial events := by
  induction events generalizing initial with
  | nil => exact prefix_rfl
  | cons e events ih =>
    have hrest {records : List ρ} : records <+: contents records events :=
      ih fun records hmem => h records (.tail _ hmem)
    cases e with
    | append input => exact (prefix_append initial [input]).trans hrest
    | rewrite records => exact absurd (.head _) (h records)
    | flush | opened | written | settled | resolved => exact hrest

theorem upcoming_drain (s : RecordPersistence ρ) :
    s.drain.upcoming = (if s.shouldClear then [] else s.file) ++ s.pendingRecords := by
  unfold drain
  by_cases h : s.Waits = true
  · rw [if_pos h]
    exact append_nil _
  · rw [if_neg h]
    rfl

theorem upcoming_ensureFlush (s : RecordPersistence ρ) : s.ensureFlush.upcoming = s.upcoming := by
  unfold ensureFlush
  cases h : s.flushPromise with
  | none =>
    rw [if_neg (by simp), upcoming_drain, upcoming, h]
  | some flush => rfl

/-- While something waits, something is under way. -/
def Driven (s : RecordPersistence ρ) : Prop := s.flushPromise = none → s.Waits = false

theorem driven_drain (s : RecordPersistence ρ) : s.drain.Driven := by
  unfold drain
  split_ifs <;> exact nofun

theorem driven_ensureFlush (s : RecordPersistence ρ) : s.ensureFlush.Driven := by
  unfold ensureFlush
  split_ifs with h
  · intro hnone
    rw [hnone] at h
    cases h
  · exact driven_drain s

/-- **One step**, which changes what the file will have as the call asks for. -/
theorem upcoming_step (h : s.Driven) (hstep : s.step e = some t) :
    t.upcoming = contents s.upcoming [e] ∧ t.Driven := by
  cases e with
  | append input =>
    cases hstep
    refine ⟨?_, driven_ensureFlush _⟩
    rw [upcoming_ensureFlush]
    exact (append_assoc ..).symm
  | rewrite records =>
    cases hstep
    refine ⟨?_, driven_ensureFlush _⟩
    rw [upcoming_ensureFlush]
    rfl
  | flush =>
    cases hstep
    split_ifs
    · exact ⟨upcoming_ensureFlush s, driven_ensureFlush s⟩
    · exact ⟨rfl, h⟩
  | opened =>
    simp only [step] at hstep
    split at hstep <;> cases hstep
    rename_i shouldClear batch hflush
    refine ⟨?_, nofun⟩
    simp [upcoming, hflush, contents]
  | written =>
    simp only [step] at hstep
    split at hstep <;> cases hstep
    rename_i batch hflush
    refine ⟨?_, driven_drain _⟩
    rw [upcoming_drain]
    simp [upcoming, hflush, contents]
  | settled =>
    simp only [step] at hstep
    split at hstep <;> cases hstep
    rename_i hflush
    have hsame : ({ s with flushPromise := none } : RecordPersistence ρ).upcoming = s.upcoming := by
      simp [upcoming, hflush]
    split_ifs with hwaits
    · exact ⟨(upcoming_ensureFlush _).trans hsame, driven_ensureFlush _⟩
    · exact ⟨hsame, fun _ => Bool.eq_false_iff.2 hwaits⟩
  | resolved =>
    simp only [step] at hstep
    split_ifs at hstep
    cases hstep
    exact ⟨rfl, h⟩

/-- **The file has what was asked for** when nothing is under way, and so does a `flush` that
resolves find everything appended in front of it, unless it was replaced. -/
theorem file_eq_contents (h : LibRun.Run step LibRun.always { file := initial } events t) :
    (t.flushPromise = none → t.file = contents initial events) ∧
      ∀ before after, events = before ++ .flush :: after ++ [.resolved] →
        (∀ records, .rewrite records ∉ after) → contents initial before <+: t.file := by
  have hrun : t.upcoming = contents initial events ∧ t.Driven := by
    induction h with
    | nil => exact ⟨append_nil _, fun _ => rfl⟩
    | snoc _ _ hu ih =>
      obtain ⟨hupcoming, hdriven⟩ := upcoming_step ih.2 hu
      exact ⟨by rw [hupcoming, ih.1, contents_append], hdriven⟩
  have hidle (hnone : t.flushPromise = none) : t.file = contents initial events := by
    have hwaits := hrun.2 hnone
    simp only [Waits, Bool.or_eq_false_iff, Bool.not_eq_false', List.isEmpty_iff] at hwaits
    simp [← hrun.1, upcoming, hnone, hwaits]
  refine ⟨hidle, ?_⟩
  rintro before after rfl hkept
  have hnone : t.flushPromise = none := by
    generalize hevents : before ++ .flush :: after ++ [.resolved] = events at h
    cases h with
    | nil => exact absurd hevents (by simp)
    | snoc _ _ hu =>
      obtain ⟨-, hlast⟩ := append_inj' hevents rfl
      obtain rfl := List.singleton_inj.1 hlast
      simp only [step] at hu
      split_ifs at hu with hidle
      cases hu
      simpa using fun hsome => hidle (Bool.or_eq_true_iff.2 (.inl hsome))
  rw [hidle hnone, contents_append, contents_append]
  change contents initial before <+: contents (contents initial before) after
  exact prefix_contents hkept

/-- The calls of a run in which a record is appended, and a rewrite goes on behind the flush. -/
def rewriteBehindFlush : List (Event String) :=
  [.append "a", .flush, .rewrite ["b"], .opened, .written, .opened, .written, .settled, .resolved]

theorem file_eq_contents_rewritten : ∃ t : RecordPersistence String,
    LibRun.Run step LibRun.always { file := [] } rewriteBehindFlush t ∧ t.file = ["b"] := by
  obtain ⟨t, ht, hnone⟩ : ∃ t, LibRun.Run step LibRun.always { file := [] } rewriteBehindFlush t ∧
      t.flushPromise.isNone = true := LibRun.exists_run (by decide) (LibRun.legal_always _ _)
  exact ⟨t, ht, (file_eq_contents ht).1 (Option.isNone_iff_eq_none.1 hnone)⟩

/-- What was appended in front of the flush is not in the file when it resolves. -/
theorem appended_is_replaced : ∃ t : RecordPersistence String,
    LibRun.Run step LibRun.always { file := [] } rewriteBehindFlush t ∧ "a" ∉ t.file :=
  LibRun.exists_run (by decide) (LibRun.legal_always _ _)

end RecordPersistence

end NoriCode
