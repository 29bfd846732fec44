/-
**Whose compaction is in the slot.**

A worker that acts on the slot must not meet another one there.  As long as it does not, the slot
holds exactly the one compaction that is neither settled nor cancelled.  Then a compaction that was
cancelled never applies its summary, no worker cancels or clears the compaction of another one, and
a settled worker leaves no compaction behind.

Main definitions:

* `CompactionSafe` — what a compaction must never do;
* `SlotHeld` — the slot holds the one compaction that is in progress;
* `KeepsSlot` — the condition on a step.

Main results:

* `compaction_safe` — **every run whose steps meet the condition is safe**.
-/

import NoriCode.Compaction

namespace NoriCode

open List Option CompactionState

/-! ### Safety -/

/-- **What a compaction must never do.** -/
structure CompactionSafe (s : CompactionState) : Prop where
  /-- Behind a cancel, the summary is not applied. -/
  applied : s.log.Pairwise fun e e' => ∀ w writer, e = .cancelled w writer → e' ≠ .applied w
  /-- A worker cancels only its own compaction. -/
  cancels : ∀ v w, .cancelled v (some w) ∈ s.log → v = w
  /-- A worker clears only its own compaction. -/
  clears : ∀ v w, .completed w (some v) ∈ s.log → v = w
  /-- A settled worker is not in the slot. -/
  settled : ∀ w worker, s.workers[w]? = some worker → worker.phase = .settled →
    s.compacting ≠ some w

/-- **The slot holds the one compaction that is in progress.** -/
structure SlotHeld (s : CompactionState) : Prop extends CompactionSafe s where
  holder : ∀ w, s.compacting = some w → ∃ worker, s.workers[w]? = some worker ∧
    worker.aborted = false ∧ worker.phase ≠ .settled
  alone : ∀ w worker, s.workers[w]? = some worker → worker.aborted = false →
    worker.phase ≠ .settled → s.compacting = some w
  cancelled : ∀ w writer, .cancelled w writer ∈ s.log →
    ∃ worker, s.workers[w]? = some worker ∧ worker.aborted = true

/-- The slot is empty, or holds the worker's own compaction. -/
def CompactionState.OwnSlot (s : CompactionState) (w : ℕ) : Prop :=
  ∀ v, s.compacting = some v → v = w

/-- A worker that gives up because of an error: an abort leaves the slot alone, so it must not hold
the worker's compaction; any other error cancels what is in the slot. -/
def CompactionState.FailsSafely (s : CompactionState) (w : ℕ) (error : RequestError) : Prop :=
  if error.isAbort then s.compacting ≠ some w else s.OwnSlot w

/-- **The condition on a step.** -/
def KeepsSlot (budget : ℕ → ℕ → ℕ) (s : CompactionState) : CompactionStep → Prop
  | .hookDone w (some error) => s.FailsSafely w error
  | .resolved w _ => ∀ worker ∈ s.workers[w]?, worker.aborted = true →
      s.compacting = none ∧ s.stillCovers worker = false
  | .rejected w error => ∀ worker ∈ s.workers[w]?,
      retry budget worker error = .fail → s.FailsSafely w error
  | .reinjected w none => s.OwnSlot w
  | .reinjected w (some error) => s.FailsSafely w error
  | _ => True

namespace SlotHeld

variable {s : CompactionState} {w : ℕ}

theorem initial : SlotHeld {} where
  applied := List.Pairwise.nil
  cancels := by simp
  clears := by simp
  settled := by simp
  holder := by simp
  alone := by simp
  cancelled := by simp

/-! ### Changes of a worker -/

theorem getElem?_updateWorker (s : CompactionState) (w v : ℕ)
    (f : CompactionWorker → CompactionWorker) :
    (s.updateWorker w f).workers[v]? = if w = v then s.workers[v]?.map f else s.workers[v]? := by
  rw [updateWorker, getElem?_modify]
  split_ifs <;> simp

variable {f : CompactionWorker → CompactionWorker}

theorem updateWorker (h : SlotHeld s) (w : ℕ)
    (hf : ∀ worker ∈ s.workers[w]?, (f worker).aborted = worker.aborted ∧
      ((f worker).phase = .settled ↔ worker.phase = .settled)) : SlotHeld (s.updateWorker w f) := by
  have hback : ∀ (v : ℕ) (worker : CompactionWorker),
      (s.updateWorker w f).workers[v]? = some worker →
      ∃ worker' : CompactionWorker, s.workers[v]? = some worker' ∧
        worker.aborted = worker'.aborted ∧
        (worker.phase = .settled ↔ worker'.phase = .settled) := by
    intro v worker hv
    rw [getElem?_updateWorker] at hv
    split_ifs at hv with hwv
    · obtain ⟨worker', hworker', rfl⟩ := map_eq_some_iff.1 hv
      exact ⟨worker', hworker', hf worker' (hwv ▸ hworker')⟩
    · exact ⟨worker, hv, rfl, Iff.rfl⟩
  have hforth : ∀ (v : ℕ) (worker' : CompactionWorker), s.workers[v]? = some worker' →
      ∃ worker : CompactionWorker, (s.updateWorker w f).workers[v]? = some worker ∧
        worker.aborted = worker'.aborted ∧
          (worker.phase = .settled ↔ worker'.phase = .settled) := by
    intro v worker' hv
    rw [getElem?_updateWorker, hv]
    split_ifs with hwv
    · exact ⟨f worker', rfl, hf worker' (hwv ▸ hv)⟩
    · exact ⟨worker', rfl, rfl, Iff.rfl⟩
  exact { h with
    settled := fun v worker hv hphase => by
      obtain ⟨worker', hv', -, hiff⟩ := hback v worker hv
      exact h.settled v worker' hv' (hiff.1 hphase)
    holder := fun v hv => by
      obtain ⟨worker', hv', haborted, hphase⟩ := h.holder v hv
      obtain ⟨worker, hworker, ha, hiff⟩ := hforth v worker' hv'
      exact ⟨worker, hworker, ha.trans haborted, fun hs => hphase (hiff.1 hs)⟩
    alone := fun v worker hv haborted hphase => by
      obtain ⟨worker', hv', ha, hiff⟩ := hback v worker hv
      exact h.alone v worker' hv' (ha.symm.trans haborted) fun hs => hphase (hiff.2 hs)
    cancelled := fun v writer hmem => by
      obtain ⟨worker', hv', haborted⟩ := h.cancelled v writer hmem
      obtain ⟨worker, hworker, ha, -⟩ := hforth v worker' hv'
      exact ⟨worker, hworker, ha.trans haborted⟩ }

/-- A worker settles or is aborted, and is not in the slot any more. -/
theorem leave (h : SlotHeld s) {slot : Option ℕ}
    (hleaves : ∀ worker, (f worker).aborted = true ∨ (f worker).phase = .settled)
    (hkeeps : ∀ worker, worker.aborted = true → (f worker).aborted = true)
    (hslot : ∀ v, v ≠ w → (slot = some v ↔ s.compacting = some v)) (hw : slot ≠ some w) :
    SlotHeld { s.updateWorker w f with compacting := slot } := by
  have hother : ∀ v, v ≠ w → (s.updateWorker w f).workers[v]? = s.workers[v]? := by
    intro v hv
    rw [getElem?_updateWorker, if_neg hv.symm]
  have hself : (s.updateWorker w f).workers[w]? = s.workers[w]?.map f := by
    rw [getElem?_updateWorker, if_pos rfl]
  exact { h with
    settled := fun v worker hv hphase => by
      by_cases hvw : v = w
      · exact hvw ▸ hw
      · exact h.settled v worker (hother v hvw ▸ hv) hphase ∘ (hslot v hvw).1
    holder := fun v hv => by
      have hvw : v ≠ w := fun hvw => hw (hvw ▸ hv)
      rw [hother v hvw]
      exact h.holder v ((hslot v hvw).1 hv)
    alone := fun v worker hv haborted hphase => by
      by_cases hvw : v = w
      · rw [hvw, hself] at hv
        obtain ⟨worker', -, rfl⟩ := map_eq_some_iff.1 hv
        cases hleaves worker' with
        | inl haborts => exact absurd (haborted.symm.trans haborts) Bool.false_ne_true
        | inr hsettles => exact absurd hsettles hphase
      · exact (hslot v hvw).2 (h.alone v worker (hother v hvw ▸ hv) haborted hphase)
    cancelled := fun v writer hmem => by
      obtain ⟨worker, hv, haborted⟩ := h.cancelled v writer hmem
      by_cases hvw : v = w
      · rw [hvw, hself, ← hvw, hv]
        exact ⟨_, rfl, hkeeps worker haborted⟩
      · exact ⟨worker, (hother v hvw).trans hv, haborted⟩ }

theorem settle (h : SlotHeld s) (hw : s.compacting ≠ some w) :
    SlotHeld (s.setPhase w .settled) :=
  h.leave (fun _ => .inr rfl) (fun _ haborted => haborted) (fun _ _ => Iff.rfl) hw

/-! ### Records -/

/-- An event that is true of the slot, and summaries of compactions that were not cancelled. -/
theorem record (h : SlotHeld s) {event : CompactionEvent}
    (happlied : ∀ w, event = .applied w → ∀ writer, .cancelled w writer ∉ s.log)
    (hcancelled : ∀ v writer, event = .cancelled v writer → (∀ x ∈ writer, x = v) ∧
      ∃ worker, s.workers[v]? = some worker ∧ worker.aborted = true)
    (hcompleted : ∀ v x, event = .completed v (some x) → v = x) : SlotHeld (s.record event) := by
  refine { h with
    applied := ?_
    cancels := fun v x hin => ?_
    clears := fun v x hin => ?_
    cancelled := fun v writer hin => ?_ }
  · refine pairwise_append.2 ⟨h.applied, pairwise_singleton _ _, ?_⟩
    intro e he e' he' w writer hcancel hlast
    rw [mem_singleton.1 he'] at hlast
    exact happlied w hlast writer (hcancel ▸ he)
  · rcases mem_append.1 hin with hin | hin
    · exact h.cancels v x hin
    · exact ((hcancelled v _ (mem_singleton.1 hin).symm).1 x rfl).symm
  · rcases mem_append.1 hin with hin | hin
    · exact h.clears v x hin
    · exact (hcompleted x v (mem_singleton.1 hin).symm).symm
  · rcases mem_append.1 hin with hin | hin
    · exact h.cancelled v writer hin
    · exact (hcancelled v writer (mem_singleton.1 hin).symm).2

/-- A cancel, from outside or by the worker whose compaction is in the slot. -/
theorem cancel (h : SlotHeld s) {writer : Option ℕ} (hw : ∀ v ∈ writer, s.OwnSlot v) :
    SlotHeld (s.cancel writer) := by
  unfold CompactionState.cancel
  cases hslot : s.compacting with
  | none => exact h
  | some w =>
    have hempty : ∀ v, v ≠ w → (none = some v ↔ s.compacting = some v) := by
      intro v hv
      simp [hslot, hv.symm]
    have hleft := h.leave (f := fun worker => { worker with aborted := true })
      (fun _ => .inl rfl) (fun _ _ => rfl) hempty nofun
    refine hleft.record nofun (fun v x heq => ?_) nofun
    cases heq
    refine ⟨fun x hx => (hw x hx w hslot).symm, ?_⟩
    obtain ⟨holder, hholder, -, -⟩ := h.holder w hslot
    exact ⟨_, (getElem?_updateWorker s w w _).trans (by rw [if_pos rfl, hholder]; rfl), rfl⟩

theorem compacting_cancel (s : CompactionState) (writer : Option ℕ) :
    (s.cancel writer).compacting = none := by
  unfold CompactionState.cancel
  cases h : s.compacting with
  | none => exact h
  | some w => rfl

/-- The worker in the slot completes, or a cancelled one that finds the slot empty. -/
theorem complete (h : SlotHeld s) (hw : s.OwnSlot w) :
    SlotHeld ((s.markCompleted w).setPhase w .settled) := by
  have hempty : ∀ v, v ≠ w → (none = some v ↔ s.compacting = some v) := fun v hv =>
    iff_of_false nofun (hv ∘ hw v)
  have hleft := h.leave (f := fun worker => { worker with phase := .settled })
    (fun _ => .inr rfl) (fun _ haborted => haborted) hempty nofun
  refine hleft.record nofun nofun fun v x heq => ?_
  obtain ⟨rfl, hslot⟩ := CompactionEvent.completed.inj heq
  exact (hw x hslot).symm

/-! ### Steps -/

theorem cancelOwn (h : SlotHeld s) (hw : s.OwnSlot w) : SlotHeld (s.cancel (some w)) :=
  h.cancel fun _ hv => some.inj hv ▸ hw

theorem bail (h : SlotHeld s) (hw : s.OwnSlot w) : SlotHeld (s.bail w) := by
  refine (h.cancelOwn hw).settle ?_
  rw [compacting_cancel]
  exact some_ne_none w ∘ Eq.symm

theorem fail (h : SlotHeld s) {error : RequestError} (hw : s.FailsSafely w error) :
    SlotHeld (s.fail w error) := by
  unfold CompactionState.fail
  unfold CompactionState.FailsSafely at hw
  split_ifs at hw ⊢ with habort
  · exact h.settle hw
  · have hrecord : SlotHeld ((s.cancel (some w)).record (.failed w s.slotBlocksTurn)) :=
      (h.cancelOwn hw).record (by simp) (by simp) (by simp)
    refine hrecord.settle ?_
    rw [CompactionState.record, compacting_cancel]
    exact some_ne_none w ∘ Eq.symm

variable {worker : CompactionWorker}

variable (h : SlotHeld s)

include h

/-- A worker that is not cancelled and not settled finds its own compaction in the slot. -/
theorem ownSlot (hworker : s.workers[w]? = some worker) (haborted : worker.aborted = false)
    (hphase : worker.phase ≠ .settled) : s.OwnSlot w := by
  intro v hv
  exact some.inj (hv.symm.trans (h.alone w worker hworker haborted hphase))

theorem resolve (hworker : s.workers[w]? = some worker) (hphase : worker.phase = .request)
    {summary : String} (hw : worker.aborted = true →
      s.compacting = none ∧ s.stillCovers worker = false) :
    SlotHeld (s.resolve w worker summary) := by
  unfold CompactionState.resolve
  cases haborted : worker.aborted with
  | true =>
    obtain ⟨hslot, hcovers⟩ := hw haborted
    rw [hcovers, if_neg Bool.false_ne_true]
    exact h.bail fun v hv => by simp [hslot] at hv
  | false =>
    have hown := h.ownSlot hworker haborted (by simp [hphase])
    split_ifs
    · have happly : SlotHeld (s.applyCompaction summary) := { h with }
      have hrecord : SlotHeld ((s.applyCompaction summary).record (.applied w)) := by
        refine happly.record (fun v hv writer hin => ?_) (by simp) (by simp)
        obtain ⟨worker', hworker', ha⟩ := h.cancelled v writer hin
        obtain rfl := CompactionEvent.applied.inj hv
        rw [hworker] at hworker'
        rw [some.inj hworker', ha] at haborted
        cases haborted
      refine hrecord.updateWorker w fun x hx => ⟨rfl, ?_⟩
      have hsame : some worker = some x := hworker.symm.trans hx
      simp [← some.inj hsame, hphase]
    · exact h.bail hown

theorem start (hslot : s.compacting = none) (worker : CompactionWorker)
    (haborted : worker.aborted = false) (hphase : worker.phase ≠ .settled) (count : ℕ) :
    SlotHeld { s.record (.begun s.workers.length) with
      workers := s.workers ++ [worker]
      compacting := some s.workers.length
      compactionCountInTurn := count } := by
  have hrecord : SlotHeld (s.record (.begun s.workers.length)) :=
    h.record (by simp) (by simp) (by simp)
  have hold : ∀ (v : ℕ) (x : CompactionWorker), (s.workers ++ [worker])[v]? = some x →
      s.workers[v]? = some x ∨ v = s.workers.length ∧ x = worker := by
    intro v x hv
    rw [List.getElem?_append] at hv
    split_ifs at hv with hlt
    · exact Or.inl hv
    · rw [List.getElem?_singleton] at hv
      split_ifs at hv with hzero
      exact Or.inr ⟨by omega, (some.inj hv).symm⟩
  have hnew : (s.workers ++ [worker])[s.workers.length]? = some worker := by simp
  exact { hrecord with
    settled := fun v x hv hsettled hv' => by
      rcases hold v x hv with hv | ⟨-, rfl⟩
      · have hlt := (List.getElem?_eq_some_iff.1 hv).1
        have heq := some.inj hv'
        omega
      · exact hphase hsettled
    holder := fun v hv => by
      cases hv
      exact ⟨worker, hnew, haborted, hphase⟩
    alone := fun v x hv ha hp => by
      rcases hold v x hv with hv | ⟨rfl, -⟩
      · have hsame := h.alone v x hv ha hp
        rw [hslot] at hsame
        cases hsame
      · rfl
    cancelled := fun v writer hin => by
      obtain ⟨x, hx, ha⟩ := hrecord.cancelled v writer hin
      refine ⟨x, ?_, ha⟩
      exact (List.getElem?_append_left (List.getElem?_eq_some_iff.1 hx).1).trans hx }

theorem begin (maxCompactionPerTurn : ℕ) (source : CompactionSource) (hasActiveTurn : Bool) :
    SlotHeld (s.begin maxCompactionPerTurn source hasActiveTurn) := by
  have hcount : ∀ n, SlotHeld { s with compactionCountInTurn := n } := fun n => { h with }
  unfold CompactionState.begin
  by_cases hslot : s.compacting.isSome = true
  · rw [if_pos hslot]
    exact h
  · rw [if_neg hslot]
    dsimp only
    split_ifs
    · exact hcount _
    · exact hcount _
    · exact hcount _
    · exact h.start (not_isSome_iff_eq_none.1 hslot)
        { originalHistory := s.history, historyForModel := s.history } rfl (by simp) _

theorem reject (hworker : s.workers[w]? = some worker) (hphase : worker.phase = .request)
    {budget : ℕ → ℕ → ℕ} {error : RequestError}
    (hw : CompactionState.retry budget worker error = .fail → s.FailsSafely w error) :
    SlotHeld (CompactionState.reject budget s w worker error) := by
  have hsame : ∀ x ∈ s.workers[w]?, x = worker := by
    intro x hx
    exact some.inj (Eq.trans (Eq.symm hx) hworker)
  unfold CompactionState.reject
  cases hretry : CompactionState.retry budget worker error with
  | fail => exact h.fail (hw hretry)
  | again worker' =>
    -- the worker goes on with other counts
    have hkeeps : worker'.aborted = worker.aborted ∧ worker'.phase = worker.phase := by
      simp only [CompactionState.retry] at hretry
      split_ifs at hretry <;> cases hretry <;> exact ⟨rfl, rfl⟩
    refine h.updateWorker w fun x hx => ?_
    rw [hsame x hx, hkeeps.1, hkeeps.2]
    exact ⟨rfl, Iff.rfl⟩
  | later =>
    cases haborted : worker.aborted with
    | true =>
      refine h.settle fun hslot => ?_
      obtain ⟨x, hx, ha, -⟩ := h.holder w hslot
      rw [hsame x hx, haborted] at ha
      cases ha
    | false =>
      refine h.updateWorker w fun x hx => ⟨rfl, ?_⟩
      simp [hsame x hx, hphase]

/-- A worker that was cancelled settles without touching the slot; another one goes on. -/
theorem goOn (hworker : s.workers[w]? = some worker) (hphase : worker.phase ≠ .settled)
    (hf : (f worker).aborted = worker.aborted ∧ (f worker).phase ≠ .settled) :
    SlotHeld (if worker.aborted then s.setPhase w .settled else s.updateWorker w f) := by
  have hsame : ∀ x ∈ s.workers[w]?, x = worker := by
    intro x hx
    exact some.inj (Eq.trans (Eq.symm hx) hworker)
  split_ifs with haborted
  · refine h.settle fun hslot => ?_
    obtain ⟨x, hx, ha, -⟩ := h.holder w hslot
    rw [hsame x hx, haborted] at ha
    cases ha
  · refine h.updateWorker w fun x hx => ?_
    rw [hsame x hx]
    exact ⟨hf.1, fun hs => absurd hs hf.2, fun hs => absurd hs hphase⟩

theorem step {maxCompactionPerTurn : ℕ} {budget : ℕ → ℕ → ℕ} {a : CompactionStep}
    (ha : KeepsSlot budget s a) {u : CompactionState}
    (hu : s.step maxCompactionPerTurn budget a = some u) : SlotHeld u := by
  have hwaiting : ∀ {w : ℕ} {phase : CompactionPhase} {worker : CompactionWorker},
      s.waiting w phase = some worker → s.workers[w]? = some worker ∧ worker.phase = phase := by
    intro w phase worker hw
    obtain ⟨hworker, hphase⟩ := filter_eq_some_iff.1 hw
    exact ⟨hworker, of_decide_eq_true hphase⟩
  cases a with
  | begin source hasActiveTurn =>
    cases hu
    exact h.begin _ _ _
  | cancel =>
    cases hu
    exact h.cancel (by simp)
  | resetForTurn | setHistory =>
    cases hu
    exact { h with }
  | block =>
    obtain ⟨w, -, rfl⟩ := map_eq_some_iff.1 hu
    exact h.updateWorker w fun _ _ => ⟨rfl, Iff.rfl⟩
  | turnAborted w =>
    cases hu
    split_ifs
    · exact h.cancel (by simp)
    · exact h
  | hookDone w error =>
    cases error with
    | none =>
      obtain ⟨worker, hworker, rfl⟩ := map_eq_some_iff.1 hu
      obtain ⟨hworker, hphase⟩ := hwaiting hworker
      exact h.goOn hworker (by simp [hphase]) ⟨rfl, by simp⟩
    | some error =>
      obtain ⟨worker, -, rfl⟩ := map_eq_some_iff.1 hu
      exact h.fail ha
  | resolved w summary =>
    obtain ⟨worker, hworker, rfl⟩ := map_eq_some_iff.1 hu
    obtain ⟨hworker, hphase⟩ := hwaiting hworker
    exact h.resolve hworker hphase (ha worker hworker)
  | rejected w error =>
    obtain ⟨worker, hworker, rfl⟩ := map_eq_some_iff.1 hu
    obtain ⟨hworker, hphase⟩ := hwaiting hworker
    exact h.reject hworker hphase (ha worker hworker)
  | woken w =>
    obtain ⟨worker, hworker, rfl⟩ := map_eq_some_iff.1 hu
    obtain ⟨hworker, hphase⟩ := hwaiting hworker
    exact h.goOn hworker (by simp [hphase]) ⟨rfl, by simp⟩
  | reinjected w error =>
    cases error with
    | none =>
      obtain ⟨worker, -, rfl⟩ := map_eq_some_iff.1 hu
      exact h.complete ha
    | some error =>
      obtain ⟨worker, -, rfl⟩ := map_eq_some_iff.1 hu
      exact h.fail ha

end SlotHeld

/-- **Every run whose steps meet the condition is safe.** -/
theorem compaction_safe {maxCompactionPerTurn : ℕ} {budget : ℕ → ℕ → ℕ}
    {steps : List CompactionStep} {s : CompactionState}
    (h : LibRun.Run (step maxCompactionPerTurn budget) (KeepsSlot budget) {}
      steps s) : CompactionSafe s :=
  (h.invariant SlotHeld.initial fun _ _ _ ht ha hu => ht.step ha hu).toCompactionSafe

/-! ### A run that meets the condition, and one that does not -/

instance CompactionState.OwnSlot.decidable (s : CompactionState) (w : ℕ) :
    Decidable (s.OwnSlot w) :=
  inferInstanceAs (Decidable (∀ v ∈ s.compacting, v = w))

instance CompactionState.FailsSafely.decidable (s : CompactionState) (w : ℕ)
    (error : RequestError) : Decidable (s.FailsSafely w error) :=
  inferInstanceAs (Decidable (if error.isAbort then s.compacting ≠ some w else s.OwnSlot w))

instance KeepsSlot.decidable (budget : ℕ → ℕ → ℕ) (s : CompactionState) (a : CompactionStep) :
    Decidable (KeepsSlot budget s a) :=
  match a with
  | .hookDone w (some error) => inferInstanceAs (Decidable (s.FailsSafely w error))
  | .resolved w _ => inferInstanceAs (Decidable (∀ worker ∈ s.workers[w]?, worker.aborted = true →
      s.compacting = none ∧ s.stillCovers worker = false))
  | .rejected w error => inferInstanceAs (Decidable (∀ worker ∈ s.workers[w]?,
      retry budget worker error = .fail → s.FailsSafely w error))
  | .reinjected w none => inferInstanceAs (Decidable (s.OwnSlot w))
  | .reinjected w (some error) => inferInstanceAs (Decidable (s.FailsSafely w error))
  | .begin _ _ | .cancel | .resetForTurn | .block | .turnAborted _ | .setHistory _
  | .hookDone _ none | .woken _ => inferInstanceAs (Decidable True)

/-- A user message. -/
def userMessage (ref : ℕ) : HistoryMessage :=
  ⟨ref, { role := .user, content := [.text "hi"], toolCalls := [] }⟩

/-- A compaction is cancelled during its hook, and a second one completes. -/
def cancelThenCompact : List CompactionStep :=
  [.setHistory [userMessage 0], .begin .manual false, .cancel, .begin .manual false,
    .hookDone 0 none, .hookDone 1 none, .resolved 1 "so far", .reinjected 1 none]

/-- The budget of a retry that halves the history. -/
def halfBudget (_ tokens : ℕ) : ℕ := tokens / 2

theorem compaction_safe_cancelThenCompact : ∃ s, CompactionSafe s ∧
    s.log = [.begun 0, .cancelled 0 none, .begun 1, .applied 1, .completed 1 (some 1)] := by
  have hrun : ∃ s, LibRun.Run (step 5 halfBudget) (KeepsSlot halfBudget) {}
      cancelThenCompact s ∧
      s.log = [.begun 0, .cancelled 0 none, .begun 1, .applied 1, .completed 1 (some 1)] :=
    ⟨_, LibRun.run_of_exec rfl (by decide +kernel), rfl⟩
  obtain ⟨s, hs, hlog⟩ := hrun
  exact ⟨s, compaction_safe hs, hlog⟩

/-- **An error that comes after a cancel hits the next compaction.**  The first compaction is
cancelled while its request is in flight and a second one begins; then the first request fails, and
its worker cancels the second compaction. -/
theorem late_error_cancels_later : ∃ s, LibRun.Run (step 5 halfBudget)
    LibRun.always {} [.setHistory [userMessage 0], .begin .manual false, .hookDone 0 none, .cancel,
      .begin .manual false, .rejected 0 {}] s ∧ ¬ CompactionSafe s := by
  refine ⟨_, LibRun.run_of_exec rfl (LibRun.legal_always _ _), fun h => ?_⟩
  have hcancel := h.cancels 1 0 (by decide +kernel)
  exact absurd hcancel (by decide)

end NoriCode
