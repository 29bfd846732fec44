/-
**Mutations of the mount tree.**

A mutation of the mount tree waits for all that were requested before it.  One that is requested
from inside a mutation does not wait: it is recognised by a flag that the asynchronous context of
the mutation carries.  Whatever is started in that context inherits the flag, and keeps it when the
mutation is over.

The module embeds `session/mount-mutation.ts`.  A program is anything that starts asynchronous work
and requests mutations, in any order.

Main definitions:

* `Mutations`, with `step` — the mutations and the asynchronous contexts;
* `Mutations.Within` — a mutation called during another one, and awaited by it;
* `Mutations.Nested` — calls with the flag come from the innermost mutation, and it awaits
  them.

Main results:

* `Mutations.run_exclusive` — **mutations overlap only when one is within the other**.
-/

import NoriCode.LibKeyedLock
import NoriCode.LibRun
import Mathlib.Logic.Relation

namespace NoriCode

open Option

inductive MutationPhase
  | waiting
  | running
  | finished
  deriving DecidableEq

/-- A call of `withMountTreeMutation`. -/
structure Mutation where
  /-- It came through `mutationTail`, behind this one; or its operation was called at once. -/
  queued : Bool
  previous : Option ℕ := none
  /-- The mutation that ran where it was called, and whether that one awaits it. -/
  during : Option ℕ := none
  awaited : Bool := false
  phase : MutationPhase

/-- An asynchronous context: what `activeMutation` gives in it, and the mutation that started it. -/
structure AsyncContext where
  active : Bool
  inside : Option ℕ

/-- All calls in their order, and all contexts. At first there is one context outside of mutations.
-/
structure Mutations where
  calls : List Mutation := []
  contexts : List AsyncContext := [⟨false, none⟩]
  mutationTail : Option ℕ := none

inductive MutationEvent
  /-- A context starts asynchronous work. -/
  | spawn (c : ℕ)
  | call (c : ℕ) (awaited : Bool)
  /-- The tail is settled: the operation of a queued mutation is called. -/
  | begin (i : ℕ)
  /-- An operation succeeds or fails. -/
  | settle (i : ℕ) (ok : Bool)

namespace Mutations

def isRunning (s : Mutations) (i : ℕ) : Bool := (s.calls[i]?).any fun m => m.phase = .running

def isFinished (s : Mutations) (i : ℕ) : Bool := (s.calls[i]?).any fun m => m.phase = .finished

/-- `withMountTreeMutation`. An operation runs in a context of its own, with the flag. -/
def call (s : Mutations) (context : AsyncContext) (awaited : Bool) : Mutations :=
  if context.active = true then
    { s with
      calls := s.calls ++ [{
        queued := false
        during := context.inside.filter s.isRunning
        awaited := awaited
        phase := .running }]
      contexts := s.contexts ++ [⟨true, some s.calls.length⟩] }
  else
    { s with
      calls := s.calls ++ [{ queued := true, previous := s.mutationTail, phase := .waiting }]
      mutationTail := some s.calls.length }

/-- The promise that a queued mutation waits for is settled; `catch` makes nothing of a failure. -/
def canBegin (s : Mutations) (m : Mutation) : Bool :=
  m.queued && m.phase = .waiting && m.previous.all s.isFinished

/-- What an operation awaits is settled. -/
def canSettle (s : Mutations) (i : ℕ) : Bool :=
  s.isRunning i && s.calls.all fun m =>
    !(m.during = some i && m.awaited) || m.phase = .finished

def setPhase (s : Mutations) (i : ℕ) (phase : MutationPhase) : List Mutation :=
  s.calls.modify i fun m => { m with phase := phase }

def step (s : Mutations) : MutationEvent → Option Mutations
  | .spawn c => (s.contexts[c]?).map fun context =>
    { s with contexts := s.contexts ++ [context] }
  | .call c awaited => (s.contexts[c]?).map fun context => s.call context awaited
  | .begin i => (s.calls[i]?).bind fun m =>
    if s.canBegin m then
      some { s with
        calls := s.setPhase i .running
        contexts := s.contexts ++ [⟨true, some i⟩] }
    else none
  | .settle i _ =>
    if s.canSettle i then some { s with calls := s.setPhase i .finished } else none

/-- The call was made during another one, which awaits it. -/
def Inner (s : Mutations) (j i : ℕ) : Prop :=
  ∃ m, s.calls[j]? = some m ∧ m.during = some i ∧ m.awaited = true

/-- Called during and awaited by, at any depth. -/
def Within (s : Mutations) : ℕ → ℕ → Prop := Relation.TransGen s.Inner

/-- **Calls are nested.** What calls with the flag is part of a mutation that runs, no call of which
runs; and that mutation awaits it. -/
def Nested (s : Mutations) : MutationEvent → Prop
  | .call c awaited => ∀ context ∈ s.contexts[c]?, context.active = true →
      awaited = true ∧ ∃ i ∈ context.inside, s.isRunning i = true ∧
        ∀ m ∈ s.calls, m.during = some i → m.phase ≠ .running
  | _ => True

instance (s : Mutations) (e : MutationEvent) : Decidable (s.Nested e) := by
  cases e <;> unfold Nested <;> infer_instance

/-! ### What every step keeps -/

/-- The calls stand in a queue, or in an earlier call. -/
structure Lined (s : Mutations) : Prop where
  earlier : ∀ j i : ℕ, s.Inner j i → i < j
  outer : ∀ (j : ℕ) (m : Mutation), s.calls[j]? = some m → m.queued = true → m.during = none
  /-- The tail is the last queued mutation. -/
  tail : ∀ p ∈ s.mutationTail, ∃ m, s.calls[p]? = some m ∧ m.queued = true
  tailLast : ∀ (j : ℕ) (m : Mutation), s.calls[j]? = some m → m.queued = true →
    ∃ p, s.mutationTail = some p ∧ j ≤ p
  /-- A queued mutation waits for the last one before it. -/
  behind : ∀ (j p : ℕ) (m : Mutation), s.calls[j]? = some m → m.previous = some p →
    p < j ∧ ∃ m', s.calls[p]? = some m' ∧ m'.queued = true
  behindLast : ∀ (i j : ℕ) (m m' : Mutation), i < j → s.calls[i]? = some m → m.queued = true →
    s.calls[j]? = some m' → m'.queued = true → ∃ p, m'.previous = some p ∧ i ≤ p

/-- **The invariant.** -/
structure Exclusive (s : Mutations) : Prop extends Lined s where
  /-- What runs without the queue runs in a running mutation. -/
  parent : ∀ (j : ℕ) (m : Mutation), s.calls[j]? = some m → m.queued = false →
    m.phase = .running → ∃ i, s.Inner j i ∧ s.isRunning i = true
  order : ∀ (i j : ℕ) (m m' : Mutation), i < j → s.calls[i]? = some m → m.queued = true →
    s.calls[j]? = some m' → m'.queued = true → m'.phase ≠ .waiting → m.phase = .finished
  chain : ∀ i j : ℕ, s.isRunning i = true → s.isRunning j = true → i < j → s.Within j i

variable {s t : Mutations}

theorem exclusive_empty : Exclusive {} where
  earlier := by simp [Inner]
  outer := by simp
  parent := by simp
  tail := by simp
  tailLast := by simp
  behind := by simp
  behindLast := by simp
  order := by simp
  chain := by simp [isRunning]

variable {i : ℕ}

theorem isRunning_iff : s.isRunning i = true ↔ ∃ m, s.calls[i]? = some m ∧ m.phase = .running := by
  unfold isRunning
  cases s.calls[i]? <;> simp

theorem isFinished_iff :
    s.isFinished i = true ↔ ∃ m, s.calls[i]? = some m ∧ m.phase = .finished := by
  unfold isFinished
  cases s.calls[i]? <;> simp

variable {j : ℕ}

theorem Exclusive.exists_root (h : s.Exclusive) (hj : s.isRunning j = true) :
    ∃ (r : ℕ) (m : Mutation), s.calls[r]? = some m ∧ m.queued = true ∧ m.phase = .running := by
  induction j using Nat.strongRecOn with
  | ind j ih =>
    obtain ⟨m, hm, hphase⟩ := isRunning_iff.1 hj
    cases hqueued : m.queued with
    | true => exact ⟨j, m, hm, hqueued, hphase⟩
    | false =>
      obtain ⟨i, hinner, hrunning⟩ := h.parent j m hm hqueued hphase
      exact ih i (h.earlier j i hinner) hrunning

variable {m : Mutation}

/-- **A waiting mutation behind finished ones can begin**, however these ended. -/
theorem Exclusive.canBegin (h : s.Exclusive) (hm : s.calls[j]? = some m)
    (hqueued : m.queued = true) (hwaiting : m.phase = .waiting)
    (hearlier : ∀ (i : ℕ) (m' : Mutation), i < j → s.calls[i]? = some m' → m'.queued = true →
      m'.phase = .finished) : s.canBegin m = true := by
  have hprevious : m.previous.all s.isFinished = true := by
    cases hp : m.previous with
    | none => rfl
    | some p =>
      obtain ⟨hlt, m', hm', hqueued'⟩ := h.behind j p m hm hp
      exact isFinished_iff.2 ⟨m', hm', hearlier p m' hlt hm' hqueued'⟩
  simp [Mutations.canBegin, hqueued, hwaiting, hprevious]

theorem Exclusive.nothing_runs (h : s.Exclusive)
    (hm : s.calls[j]? = some m) (hbegin : s.canBegin m = true) :
    (∀ (i : ℕ) (m' : Mutation), i < j → s.calls[i]? = some m' → m'.queued = true →
      m'.phase = .finished) ∧ ∀ i, s.isRunning i = false := by
  simp only [Mutations.canBegin, Bool.and_eq_true, decide_eq_true_eq] at hbegin
  obtain ⟨⟨hqueued, hwaiting⟩, hprevious⟩ := hbegin
  have hearlier : ∀ (i : ℕ) (m' : Mutation), i < j → s.calls[i]? = some m' → m'.queued = true →
      m'.phase = .finished := by
    intro i m' hij hm' hqueued'
    obtain ⟨p, hp, hip⟩ := h.behindLast i j m' m hij hm' hqueued' hm hqueued
    obtain ⟨-, m'', hm'', hqueued''⟩ := h.behind j p m hm hp
    rw [hp] at hprevious
    obtain ⟨m₁, hm₁, hfinished⟩ := isFinished_iff.1 hprevious
    obtain rfl := some.inj (hm''.symm.trans hm₁)
    rcases Nat.lt_or_eq_of_le hip with hlt | rfl
    · refine h.order i p m' m'' hlt hm' hqueued' hm'' hqueued'' ?_
      rw [hfinished]
      exact MutationPhase.noConfusion
    · obtain rfl := some.inj (hm'.symm.trans hm'')
      exact hfinished
  refine ⟨hearlier, fun i => ?_⟩
  by_contra hrunning
  obtain ⟨r, m', hm', hqueued', hphase⟩ := h.exists_root (Bool.not_eq_false _ ▸ hrunning)
  rcases Nat.lt_trichotomy r j with hlt | rfl | hgt
  · have hfinished := hearlier r m' hlt hm' hqueued'
    simp [hphase] at hfinished
  · cases hm.symm.trans hm'
    simp [hphase] at hwaiting
  · have hfinished := h.order j r m m' hgt hm hqueued hm' hqueued' (by simp [hphase])
    simp [hwaiting] at hfinished

/-! ### Where a call is -/

variable {phase : MutationPhase}

theorem setPhase_some (h : (s.setPhase i phase)[j]? = some m) :
    ∃ m₀, s.calls[j]? = some m₀ ∧ m = { m₀ with phase := if i = j then phase else m₀.phase } := by
  obtain ⟨m₀, hm₀, rfl⟩ := LibPlaces.getElem?_modify_some h
  refine ⟨m₀, hm₀, ?_⟩
  split <;> rfl

theorem setPhase_of_some (i : ℕ) (phase : MutationPhase)
    (h : s.calls[j]? = some m) : (s.setPhase i phase)[j]? =
      some { m with phase := if i = j then phase else m.phase } := by
  refine (LibPlaces.getElem?_modify_of_some _ i h).trans ?_
  split <;> rfl

theorem inner_setPhase (hcalls : t.calls = s.setPhase i phase) : t.Inner = s.Inner := by
  funext j k
  refine propext ⟨?_, ?_⟩
  · rintro ⟨m, hm, hduring, hawaited⟩
    obtain ⟨m₀, hm₀, rfl⟩ := setPhase_some (hcalls ▸ hm)
    exact ⟨m₀, hm₀, hduring, hawaited⟩
  · rintro ⟨m, hm, hduring, hawaited⟩
    refine ⟨{ m with phase := if i = j then phase else m.phase }, ?_, hduring, hawaited⟩
    rw [hcalls]
    exact setPhase_of_some i phase hm

theorem isRunning_setPhase
    (hcalls : t.calls = s.setPhase i phase) (hij : i ≠ j) : t.isRunning j = s.isRunning j := by
  rw [Bool.eq_iff_iff, isRunning_iff, isRunning_iff, hcalls]
  refine ⟨?_, ?_⟩
  · rintro ⟨m, hm, hphase⟩
    obtain ⟨m₀, hm₀, rfl⟩ := setPhase_some hm
    exact ⟨m₀, hm₀, by simpa [hij] using hphase⟩
  · rintro ⟨m, hm, hphase⟩
    exact ⟨_, setPhase_of_some i phase hm, by simpa [hij] using hphase⟩

theorem Lined.setPhase (h : s.Lined)
    (hcalls : t.calls = s.setPhase i phase) (htail : t.mutationTail = s.mutationTail) :
    t.Lined := by
  have hkept : ∀ (j : ℕ) (m : Mutation), t.calls[j]? = some m →
      ∃ m₀, s.calls[j]? = some m₀ ∧ m₀.queued = m.queued ∧ m₀.previous = m.previous ∧
        m₀.during = m.during := by
    intro j m hm
    obtain ⟨m₀, hm₀, rfl⟩ := setPhase_some (hcalls ▸ hm)
    exact ⟨m₀, hm₀, rfl, rfl, rfl⟩
  have hqueued : ∀ p : ℕ, (∃ m, s.calls[p]? = some m ∧ m.queued = true) →
      ∃ m, t.calls[p]? = some m ∧ m.queued = true := by
    rintro p ⟨m, hm, hq⟩
    refine ⟨{ m with phase := if i = p then phase else m.phase }, ?_, hq⟩
    rw [hcalls]
    exact setPhase_of_some i phase hm
  constructor
  case earlier =>
    rw [inner_setPhase hcalls]
    exact h.earlier
  case outer =>
    intro j m hm hq
    obtain ⟨m₀, hm₀, hq₀, -, hd₀⟩ := hkept j m hm
    exact hd₀ ▸ h.outer j m₀ hm₀ (hq₀.trans hq)
  case tail =>
    intro p hp
    exact hqueued p (h.tail p (htail ▸ hp))
  case tailLast =>
    intro j m hm hq
    obtain ⟨m₀, hm₀, hq₀, -⟩ := hkept j m hm
    rw [htail]
    exact h.tailLast j m₀ hm₀ (hq₀.trans hq)
  case behind =>
    intro j p m hm hp
    obtain ⟨m₀, hm₀, -, hp₀, -⟩ := hkept j m hm
    obtain ⟨hlt, hbefore⟩ := h.behind j p m₀ hm₀ (hp₀.trans hp)
    exact ⟨hlt, hqueued p hbefore⟩
  case behindLast =>
    intro a b m m' hab hm hq hm' hq'
    obtain ⟨m₀, hm₀, hq₀, -⟩ := hkept a m hm
    obtain ⟨m₁, hm₁, hq₁, hp₁, -⟩ := hkept b m' hm'
    rw [← hp₁]
    exact h.behindLast a b m₀ m₁ hab hm₀ (hq₀.trans hq) hm₁ (hq₁.trans hq')

/-! ### The steps -/

theorem Exclusive.begin (h : s.Exclusive) (hm : s.calls[i]? = some m)
    (hbegin : s.canBegin m = true) (hcalls : t.calls = s.setPhase i .running)
    (htail : t.mutationTail = s.mutationTail) : t.Exclusive := by
  obtain ⟨hearlier, hnone⟩ := h.nothing_runs hm hbegin
  simp only [Mutations.canBegin, Bool.and_eq_true, decide_eq_true_eq] at hbegin
  obtain ⟨⟨hqueued, hwaiting⟩, -⟩ := hbegin
  have honly : ∀ j, t.isRunning j = true → j = i := by
    intro j hj
    by_contra hne
    rw [isRunning_setPhase hcalls (Ne.symm hne), hnone j] at hj
    cases hj
  refine { h.toLined.setPhase hcalls htail with parent := ?_, order := ?_, chain := ?_ }
  · intro j m' hm' hq' hphase
    -- what runs is the mutation that began, and it is queued
    obtain rfl := honly j (isRunning_iff.2 ⟨m', hm', hphase⟩)
    obtain ⟨m₀, hm₀, rfl⟩ := setPhase_some (hcalls ▸ hm')
    cases hm.symm.trans hm₀
    simp [hqueued] at hq'
  · intro a b m₁ m₂ hab hm₁ hq₁ hm₂ hq₂ hphase
    obtain ⟨m₁', hm₁', rfl⟩ := setPhase_some (hcalls ▸ hm₁)
    obtain ⟨m₂', hm₂', rfl⟩ := setPhase_some (hcalls ▸ hm₂)
    have hfinished : m₁'.phase = .finished := by
      by_cases hib : i = b
      · subst hib
        exact hearlier a m₁' hab hm₁' hq₁
      · exact h.order a b m₁' m₂' hab hm₁' hq₁ hm₂' hq₂ (by simpa [hib] using hphase)
    have hia : i ≠ a := by
      rintro rfl
      cases hm.symm.trans hm₁'
      simp [hwaiting] at hfinished
    simpa [hia] using hfinished
  · intro a b ha hb hab
    obtain rfl := honly a ha
    obtain rfl := honly b hb
    exact absurd hab (Nat.lt_irrefl _)

theorem Exclusive.settle (h : s.Exclusive) (hsettle : s.canSettle i = true)
    (hcalls : t.calls = s.setPhase i .finished) (htail : t.mutationTail = s.mutationTail) :
    t.Exclusive := by
  simp only [canSettle, Bool.and_eq_true, List.all_eq_true, Bool.or_eq_true, Bool.not_eq_true',
    Bool.and_eq_false_iff, decide_eq_true_eq, decide_eq_false_iff_not] at hsettle
  obtain ⟨hrunning, hawaited⟩ := hsettle
  have hother : ∀ j, t.isRunning j = true → i ≠ j ∧ s.isRunning j = true := by
    intro j hj
    have hne : i ≠ j := by
      rintro rfl
      obtain ⟨m, hm, hphase⟩ := isRunning_iff.1 hj
      obtain ⟨m₀, -, rfl⟩ := setPhase_some (hcalls ▸ hm)
      simp at hphase
    exact ⟨hne, isRunning_setPhase hcalls hne ▸ hj⟩
  refine { h.toLined.setPhase hcalls htail with parent := ?_, order := ?_, chain := ?_ }
  · intro j m hm hq hphase
    obtain ⟨hij, -⟩ := hother j (isRunning_iff.2 ⟨m, hm, hphase⟩)
    obtain ⟨m₀, hm₀, rfl⟩ := setPhase_some (hcalls ▸ hm)
    have hphase₀ : m₀.phase = .running := by simpa [hij] using hphase
    obtain ⟨k, ⟨m', hm', hduring, hawait⟩, hk⟩ := h.parent j m₀ hm₀ hq hphase₀
    cases hm₀.symm.trans hm'
    -- a mutation does not end before those it awaits
    have hik : i ≠ k := by
      rintro rfl
      rcases hawaited m₀ (List.mem_of_getElem? hm₀) with (hno | hno) | hfinished
      · exact hno hduring
      · rw [hawait] at hno
        cases hno
      · simp [hphase₀] at hfinished
    refine ⟨k, ?_, (isRunning_setPhase hcalls hik).trans hk⟩
    rw [inner_setPhase hcalls]
    exact ⟨m₀, hm₀, hduring, hawait⟩
  · intro a b m₁ m₂ hab hm₁ hq₁ hm₂ hq₂ hphase
    obtain ⟨m₁', hm₁', rfl⟩ := setPhase_some (hcalls ▸ hm₁)
    obtain ⟨m₂', hm₂', rfl⟩ := setPhase_some (hcalls ▸ hm₂)
    have hstarted : m₂'.phase ≠ .waiting := by
      intro hwaiting
      by_cases hib : i = b
      · subst hib
        obtain ⟨m, hm, hr⟩ := isRunning_iff.1 hrunning
        obtain rfl := some.inj (hm₂'.symm.trans hm)
        simp [hwaiting] at hr
      · simp [hib, hwaiting] at hphase
    simp [h.order a b m₁' m₂' hab hm₁' hq₁ hm₂' hq₂ hstarted]
  · intro a b ha hb hab
    unfold Within
    rw [inner_setPhase hcalls]
    exact h.chain a b (hother a ha).2 (hother b hb).2 hab

theorem Exclusive.running_of_within (h : s.Exclusive) (hwithin : s.Within j i)
    (hj : s.isRunning j = true) : s.isRunning i = true := by
  have hinner : ∀ a b : ℕ, s.Inner a b → s.isRunning a = true → s.isRunning b = true := by
    rintro a b ⟨m, hm, hduring, -⟩ ha
    obtain ⟨m', hm', hphase⟩ := isRunning_iff.1 ha
    cases hm.symm.trans hm'
    have hq : m.queued = false := by
      by_contra hq
      have hnone := h.outer a m hm (Bool.not_eq_false _ ▸ hq)
      rw [hduring] at hnone
      cases hnone
    obtain ⟨k, ⟨m'', hm'', hduring', -⟩, hk⟩ := h.parent a m hm hq hphase
    cases hm.symm.trans hm''
    exact some.inj (hduring.symm.trans hduring') ▸ hk
  induction hwithin with
  | single hji => exact hinner _ _ hji hj
  | tail _ hbc ih => exact hinner _ _ hbc ih

theorem call_cases (hcalls : t.calls = s.calls ++ [m]) {m' : Mutation}
    (hm' : t.calls[j]? = some m') : s.calls[j]? = some m' ∨ j = s.calls.length ∧ m' = m := by
  rw [hcalls] at hm'
  rcases LibPlaces.getElem?_append_singleton hm' with hold | ⟨hlast, rfl⟩
  · exact .inl hold
  · exact .inr ⟨hlast, rfl⟩

theorem call_before (hcalls : t.calls = s.calls ++ [m]) {m' : Mutation}
    (hm' : s.calls[j]? = some m') : t.calls[j]? = some m' := by
  rw [hcalls, List.getElem?_append_left (List.getElem?_eq_some_iff.1 hm').1]
  exact hm'

theorem call_new (hcalls : t.calls = s.calls ++ [m]) : t.calls[s.calls.length]? = some m := by
  rw [hcalls]
  exact List.getElem?_concat_length

theorem lt_of_call (hm : s.calls[j]? = some m) : j < s.calls.length :=
  (List.getElem?_eq_some_iff.1 hm).1

theorem within_call (hcalls : t.calls = s.calls ++ [m]) (h : s.Within j i) : t.Within j i := by
  have hinner : s.Inner ≤ t.Inner := by
    rintro a b ⟨m', hm', hrest⟩
    exact ⟨m', call_before hcalls hm', hrest⟩
  exact Relation.TransGen.mono hinner j i h

theorem isRunning_call (hcalls : t.calls = s.calls ++ [m]) (h : t.isRunning j = true) :
    s.isRunning j = true ∨ j = s.calls.length ∧ m.phase = .running := by
  obtain ⟨m', hm', hphase⟩ := isRunning_iff.1 h
  rcases call_cases hcalls hm' with hold | ⟨rfl, rfl⟩
  · exact .inl (isRunning_iff.2 ⟨m', hold, hphase⟩)
  · exact .inr ⟨rfl, hphase⟩

theorem isRunning_call_of (hcalls : t.calls = s.calls ++ [m])
    (h : s.isRunning j = true) : t.isRunning j = true := by
  obtain ⟨m', hm', hphase⟩ := isRunning_iff.1 h
  exact isRunning_iff.2 ⟨m', call_before hcalls hm', hphase⟩

theorem Exclusive.enqueue (h : s.Exclusive)
    (hcalls : t.calls = s.calls ++
      [{ queued := true, previous := s.mutationTail, phase := .waiting }])
    (htail : t.mutationTail = some s.calls.length) : t.Exclusive := by
  have hinner : ∀ j i : ℕ, t.Inner j i → s.Inner j i := by
    rintro j i ⟨m, hm, hduring, hawaited⟩
    rcases call_cases hcalls hm with hold | ⟨rfl, rfl⟩
    · exact ⟨m, hold, hduring, hawaited⟩
    · cases hduring
  have hrunning : ∀ j, t.isRunning j = true → s.isRunning j = true := by
    intro j hj
    rcases isRunning_call hcalls hj with hold | ⟨-, hnew⟩
    · exact hold
    · cases hnew
  constructor
  case toLined =>
    constructor
    case earlier => exact fun j i hji => h.earlier j i (hinner j i hji)
    case outer =>
      intro j m hm hq
      rcases call_cases hcalls hm with hold | ⟨rfl, rfl⟩
      · exact h.outer j m hold hq
      · rfl
    case tail =>
      intro p hp
      cases htail.symm.trans hp
      exact ⟨_, call_new hcalls, rfl⟩
    case tailLast =>
      intro j m hm _
      refine ⟨_, htail, ?_⟩
      rcases call_cases hcalls hm with hold | ⟨rfl, -⟩
      · exact Nat.le_of_lt (lt_of_call hold)
      · exact Nat.le_refl _
    case behind =>
      intro j p m hm hp
      rcases call_cases hcalls hm with hold | ⟨rfl, rfl⟩
      · obtain ⟨hlt, m', hm', hq'⟩ := h.behind j p m hold hp
        exact ⟨hlt, m', call_before hcalls hm', hq'⟩
      · obtain ⟨m', hm', hq'⟩ := h.tail p hp
        exact ⟨lt_of_call hm', m', call_before hcalls hm', hq'⟩
    case behindLast =>
      intro i j m m' hij hm hq hm' hq'
      rcases call_cases hcalls hm' with hold' | ⟨rfl, rfl⟩
      · rcases call_cases hcalls hm with hold | ⟨rfl, -⟩
        · exact h.behindLast i j m m' hij hold hq hold' hq'
        · exact absurd (lt_of_call hold') (Nat.not_lt.2 (Nat.le_of_lt hij))
      · rcases call_cases hcalls hm with hold | ⟨rfl, -⟩
        · exact h.tailLast i m hold hq
        · exact absurd hij (Nat.lt_irrefl _)
  case parent =>
    intro j m hm hq hphase
    rcases call_cases hcalls hm with hold | ⟨rfl, rfl⟩
    · obtain ⟨i, ⟨m', hm', hrest⟩, hi⟩ := h.parent j m hold hq hphase
      exact ⟨i, ⟨m', call_before hcalls hm', hrest⟩, isRunning_call_of hcalls hi⟩
    · cases hphase
  case order =>
    intro i j m m' hij hm hq hm' hq' hphase
    rcases call_cases hcalls hm' with hold' | ⟨rfl, rfl⟩
    · rcases call_cases hcalls hm with hold | ⟨rfl, -⟩
      · exact h.order i j m m' hij hold hq hold' hq' hphase
      · exact absurd (lt_of_call hold') (Nat.not_lt.2 (Nat.le_of_lt hij))
    · exact absurd rfl hphase
  case chain =>
    intro i j hi hj hij
    exact within_call hcalls (h.chain i j (hrunning i hi) (hrunning j hj) hij)

theorem Exclusive.nest (h : s.Exclusive) (hi : s.isRunning i = true)
    (hinnermost : ∀ m ∈ s.calls, m.during = some i → m.phase ≠ .running)
    (hcalls : t.calls = s.calls ++
      [{ queued := false, during := some i, awaited := true, phase := .running }])
    (htail : t.mutationTail = s.mutationTail) : t.Exclusive := by
  have hlt : i < s.calls.length := by
    obtain ⟨m, hm, -⟩ := isRunning_iff.1 hi
    exact lt_of_call hm
  have hqueued : ∀ (j : ℕ) (m : Mutation), t.calls[j]? = some m → m.queued = true →
      s.calls[j]? = some m := by
    intro j m hm hq
    rcases call_cases hcalls hm with hold | ⟨-, rfl⟩
    · exact hold
    · cases hq
  have hnew : t.Inner s.calls.length i := ⟨_, call_new hcalls, rfl, rfl⟩
  constructor
  case toLined =>
    constructor
    case earlier =>
      rintro j k ⟨m, hm, hduring, hawaited⟩
      rcases call_cases hcalls hm with hold | ⟨rfl, rfl⟩
      · exact h.earlier j k ⟨m, hold, hduring, hawaited⟩
      · exact some.inj hduring ▸ hlt
    case outer => exact fun j m hm hq => h.outer j m (hqueued j m hm hq) hq
    case tail =>
      intro p hp
      obtain ⟨m, hm, hq⟩ := h.tail p (htail ▸ hp)
      exact ⟨m, call_before hcalls hm, hq⟩
    case tailLast =>
      intro j m hm hq
      rw [htail]
      exact h.tailLast j m (hqueued j m hm hq) hq
    case behind =>
      intro j p m hm hp
      rcases call_cases hcalls hm with hold | ⟨-, rfl⟩
      · obtain ⟨hjp, m', hm', hq'⟩ := h.behind j p m hold hp
        exact ⟨hjp, m', call_before hcalls hm', hq'⟩
      · cases hp
    case behindLast =>
      intro a b m m' hab hm hq hm' hq'
      exact h.behindLast a b m m' hab (hqueued a m hm hq) hq (hqueued b m' hm' hq') hq'
  case parent =>
    intro j m hm hq hphase
    rcases call_cases hcalls hm with hold | ⟨rfl, rfl⟩
    · obtain ⟨k, ⟨m', hm', hrest⟩, hk⟩ := h.parent j m hold hq hphase
      exact ⟨k, ⟨m', call_before hcalls hm', hrest⟩, isRunning_call_of hcalls hk⟩
    · exact ⟨i, hnew, isRunning_call_of hcalls hi⟩
  case order =>
    intro a b m m' hab hm hq hm' hq' hphase
    exact h.order a b m m' hab (hqueued a m hm hq) hq (hqueued b m' hm' hq') hq' hphase
  case chain =>
    intro a b ha hb hab
    rcases isRunning_call hcalls hb with hb | ⟨rfl, -⟩
    · rcases isRunning_call hcalls ha with ha | ⟨rfl, -⟩
      · exact within_call hcalls (h.chain a b ha hb hab)
      · obtain ⟨m, hm, -⟩ := isRunning_iff.1 hb
        exact absurd (lt_of_call hm) (Nat.not_lt.2 (Nat.le_of_lt hab))
    rcases isRunning_call hcalls ha with ha | ⟨rfl, -⟩
    · -- the caller runs within all that run, as nothing that runs is within the caller
      rcases Nat.lt_trichotomy a i with hai | rfl | hia
      · exact Relation.TransGen.head hnew (within_call hcalls (h.chain a i ha hi hai))
      · exact Relation.TransGen.single hnew
      · exfalso
        obtain ⟨c, hc, m, hm, hduring, hawaited⟩ : ∃ c, s.isRunning c = true ∧ s.Inner c i := by
          rcases Relation.TransGen.tail'_iff.1 (h.chain i a hi ha hia) with ⟨c, hac, hci⟩
          rcases Relation.reflTransGen_iff_eq_or_transGen.1 hac with rfl | hac
          · exact ⟨_, ha, hci⟩
          · exact ⟨c, h.running_of_within hac ha, hci⟩
        obtain ⟨m', hm', hphase⟩ := isRunning_iff.1 hc
        cases hm.symm.trans hm'
        exact hinnermost m (List.mem_of_getElem? hm) hduring hphase
    · exact absurd hab (Nat.lt_irrefl _)

/-- **Every step keeps the invariant.** -/
theorem Exclusive.step (h : s.Exclusive) {e : MutationEvent} (hnested : s.Nested e)
    (hstep : s.step e = some t) : t.Exclusive := by
  cases e with
  | spawn c =>
    obtain ⟨context, -, rfl⟩ := map_eq_some_iff.1 hstep
    exact { h with }
  | call c awaited =>
    obtain ⟨context, hcontext, rfl⟩ := map_eq_some_iff.1 hstep
    cases hactive : context.active with
    | false =>
      refine h.enqueue ?_ ?_ <;> simp [Mutations.call, hactive]
    | true =>
      obtain ⟨rfl, i, hinside, hrunning, hinnermost⟩ := hnested context hcontext hactive
      refine h.nest hrunning hinnermost ?_ ?_
      · simp [Mutations.call, hactive, mem_def.1 hinside, hrunning]
      · simp [Mutations.call, hactive]
  | begin i =>
    obtain ⟨m, hm, hstep⟩ := bind_eq_some_iff.1 hstep
    by_cases hbegin : s.canBegin m = true
    · rw [if_pos hbegin] at hstep
      cases hstep
      exact h.begin hm hbegin rfl rfl
    · rw [if_neg hbegin] at hstep
      cases hstep
  | settle i ok =>
    dsimp only [Mutations.step] at hstep
    by_cases hsettle : s.canSettle i = true
    · rw [if_pos hsettle] at hstep
      cases hstep
      exact h.settle hsettle rfl rfl
    · rw [if_neg hsettle] at hstep
      cases hstep

/-! ### Runs -/

/-- **Mutations overlap only when one is within the other.** In every run of nested calls, of two
mutations that run one was called during the other and is awaited by it; a queued mutation starts
when those requested before it are over; and when these are over it can start, whether they failed
or not. -/
theorem run_exclusive (l : List MutationEvent) (s : Mutations)
    (h : LibRun.Run step Nested {} l s) :
    (∀ i j : ℕ, i ≠ j → s.isRunning i = true → s.isRunning j = true → s.Within i j ∨ s.Within j i) ∧
    (∀ (i j : ℕ) (m m' : Mutation), i < j → s.calls[i]? = some m → m.queued = true →
      s.calls[j]? = some m' → m'.queued = true → m'.phase ≠ .waiting → m.phase = .finished) ∧
    ∀ (j : ℕ) (m : Mutation), s.calls[j]? = some m → m.queued = true → m.phase = .waiting →
      (∀ (i : ℕ) (m' : Mutation), i < j → s.calls[i]? = some m' → m'.queued = true →
        m'.phase = .finished) →
      (s.step (.begin j)).isSome = true := by
  have hs : s.Exclusive :=
    h.invariant exclusive_empty fun _ _ _ ht hnested hstep => ht.step hnested hstep
  refine ⟨?_, hs.order, ?_⟩
  · intro i j hij hi hj
    rcases Nat.lt_or_gt_of_ne hij with hlt | hgt
    · exact .inr (hs.chain i j hi hj hlt)
    · exact .inl (hs.chain j i hj hi hgt)
  · intro j m hm hqueued hwaiting hearlier
    simp [step, hm, hs.canBegin hm hqueued hwaiting hearlier]

/-- A mutation calls another one and awaits it; one is requested meanwhile, and the first fails. -/
theorem run_exclusive_example : ∃ s, LibRun.Run step Nested {}
    [.call 0 false, .begin 0, .call 1 true, .call 0 false, .settle 1 true, .settle 0 false,
      .begin 2] s ∧
    (s.step (.begin 2)).isSome = false ∧
    (∀ i j : ℕ, i ≠ j → s.isRunning i = true → s.isRunning j = true →
      s.Within i j ∨ s.Within j i) := by
  have hrun : ∃ s, LibRun.Run step Nested {}
      [.call 0 false, .begin 0, .call 1 true, .call 0 false, .settle 1 true, .settle 0 false,
        .begin 2] s ∧ (s.step (.begin 2)).isSome = false :=
    LibRun.exists_run (by decide +kernel) (by decide +kernel)
  obtain ⟨s, hs, hbegun⟩ := hrun
  exact ⟨s, hs, hbegun, (run_exclusive _ s hs).1⟩

/-- **Work that outlives its mutation.** It is started by the operation of the first mutation, which
ends; while a later mutation runs it requests one itself, whose operation is called at once. Two
mutations run, and none was called during the other. -/
theorem overlapping : ∃ s, LibRun.Run step LibRun.always {}
    [.call 0 false, .begin 0, .spawn 1, .settle 0 true, .call 0 false, .begin 1, .call 2 false] s ∧
    s.isRunning 1 = true ∧ s.isRunning 2 = true ∧ ¬(s.Within 1 2 ∨ s.Within 2 1) := by
  have hrun : ∃ s, LibRun.Run step LibRun.always {}
      [.call 0 false, .begin 0, .spawn 1, .settle 0 true, .call 0 false, .begin 1,
        .call 2 false] s ∧
      s.isRunning 1 = true ∧ s.isRunning 2 = true ∧ ∀ m ∈ s.calls, m.during = none :=
    LibRun.exists_run (by decide +kernel) (LibRun.legal_always _ _)
  obtain ⟨s, hs, hfirst, hsecond, hnone⟩ := hrun
  have hinner : ∀ i j : ℕ, ¬s.Inner i j := by
    rintro i j ⟨m, hm, hduring, -⟩
    rw [hnone m (List.mem_of_getElem? hm)] at hduring
    cases hduring
  have hwithin : ∀ i j : ℕ, ¬s.Within i j := by
    intro i j hij
    obtain ⟨k, -, hkj⟩ := Relation.TransGen.tail'_iff.1 hij
    exact hinner k j hkj
  exact ⟨s, hs, hfirst, hsecond, fun h => h.elim (hwithin 1 2) (hwithin 2 1)⟩

end Mutations

end NoriCode
