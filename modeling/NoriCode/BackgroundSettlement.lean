/-
**How a background task ends.**

A task has its end from one of several sources, and what comes of it is kept in several places: the
status in the manager, the records that wait to be written, the record on disk, the notifications
that were sent and the marks of those that were delivered.  Every event keeps them in step.

Main definitions:

* `ManagedTask.Kept`, `TaskLife.Kept` — the invariants;
* `TaskLife.Later` — what stays of a task;
* `TaskLife.SettlesOnce`, `TaskLife.ToldOnce`, `TaskLife.ReleasedOnce` — one end.

Main results:

* `ManagedTask.Kept.step`, `TaskLife.Kept.step` — **every event keeps them**;
* `TaskLife.releases` — a waiter is released;
* `BackgroundManagers.run_settles` — **a task ends once**.
-/

import NoriCode.BackgroundLifecycle
import NoriCode.LibRun

namespace NoriCode

open List Option LibRun ManagedTask

/-! ### A task in its manager -/

theorem SettlementStatus.isTerminal_status (status : SettlementStatus) :
    status.status.isTerminal = true := by
  cases status <;> rfl

theorem BackgroundTaskStatus.eq_running {status : BackgroundTaskStatus}
    (h : status.isTerminal = false) : status = .running := by
  cases status <;> first | rfl | cases h

theorem BackgroundTaskStatus.ne_running {status : BackgroundTaskStatus}
    (h : status.isTerminal = true) : status ≠ .running := by
  rintro rfl
  cases h

/-- The status is set. -/
def LifecycleStage.ended : LifecycleStage → Bool
  | .persisting _ | .effects | .notifying | .releasing | .finished => true
  | _ => false

theorem TerminalOutcome.ended_afterAbort (outcome : TerminalOutcome)
    (workerAfterAbort : Option BackgroundTaskSettlement) :
    (outcome.afterAbort workerAfterAbort).ended = false := by
  unfold TerminalOutcome.afterAbort
  split
  · split <;> rfl
  · rfl
  · rfl

/-- A waiter waits for the right promise, or was released with the right reason. -/
def ForegroundWaiter.Right (w : ForegroundWaiter) (e : ManagedTask) : Prop :=
  match w.reason with
  | none => e.detached = true → e.released = some .detached
  | some .detached => e.detached = true
  | some .terminal => e.status.isTerminal = true ∧ (w.foreground = true → e.detached = false)

namespace ManagedTask

/-- The record of the end is on disk, unless a write failed. -/
def Recorded (e : ManagedTask) : Prop :=
  e.stage = .persisting 0 ∨
    e.detached = true ∧ (e.stage = .effects ∨ e.stage = .notifying ∨ e.stage = .releasing ∨
      e.stage = .finished)

theorem Recorded.ended {e : ManagedTask} (h : e.Recorded) : e.stage.ended = true := by
  rcases h with hstage | ⟨-, hstage | hstage | hstage | hstage⟩
  all_goals rw [hstage]; rfl

/-- **What holds of a task in its manager.** -/
structure Kept (e : ManagedTask) : Prop where
  ended : e.status.isTerminal = e.stage.ended
  persists : e.detached = true → e.outputPersistStarted = true
  tells : e.stage = .notifying → e.detached = true
  /-- The records that wait: first those of the running task, then those of its end. -/
  queued : ∀ r ∈ e.persistWriteQueue, r.status = .running ∨ r.status = e.status
  ordered : e.persistWriteQueue.Pairwise fun r r' =>
    r.status.isTerminal = true → r'.status.isTerminal = true
  lastWrite : ∀ n, e.stage = .persisting (n + 1) →
    ∃ r, e.persistWriteQueue[n]? = some r ∧ r.status = e.status
  terminal : e.terminal = true ↔ e.stage = .finished
  releasedDetached : e.released = some .detached → e.detached = true
  releasedTerminal : e.released = some .terminal → e.stage = .finished ∧ e.detached = false
  waiters : ∀ w ∈ e.waiters, w.Right e

/-- **What one event does to a task.** -/
structure Moves (e e' : ManagedTask) : Prop where
  status : e'.status = e.status ∨ e.status = .running
  queue : e'.persistWriteQueue = e.persistWriteQueue ∨
    ∃ r, e'.persistWriteQueue = e.persistWriteQueue ++ [r] ∧ r.status = e'.status
  recorded : e'.Recorded → e.Recorded ∧ e'.status = e.status
  told : e.stage = .releasing ∨ e.stage = .finished → e'.stage = .releasing ∨ e'.stage = .finished
  waiters : ∀ (j : ℕ) (foreground : Bool) (reason : ForegroundTaskReleaseReason),
    e.waiters[j]? = some ⟨foreground, some reason⟩ → e'.waiters[j]? = some ⟨foreground, some reason⟩

variable {e e' : ManagedTask}

theorem Moves.same (hstatus : e'.status = e.status)
    (hqueue : e'.persistWriteQueue = e.persistWriteQueue) (hstage : e'.stage = e.stage)
    (hdetached : e'.detached = e.detached) (hwaiters : e'.waiters = e.waiters) : Moves e e' where
  status := Or.inl hstatus
  queue := Or.inl hqueue
  recorded := fun h => by
    unfold Recorded at h ⊢
    rw [hstage, hdetached] at h
    exact ⟨h, hstatus⟩
  told := fun h => by rwa [hstage]
  waiters := fun j foreground reason h => by rwa [hwaiters]

section

variable (h : e.Kept)

include h

theorem Kept.advance (hbefore : e.stage.ended = false) {stage : LifecycleStage}
    (hafter : stage.ended = false) {stopReason : Option String} :
    Kept { e with stage := stage, stopReason := stopReason } ∧
      Moves e { e with stage := stage, stopReason := stopReason } := by
  have hnot : ∀ {stage' : LifecycleStage}, stage'.ended = true → stage ≠ stage' := by
    rintro stage' hended rfl
    exact Bool.noConfusion (hafter.symm.trans hended)
  have hnot₀ : ∀ {stage' : LifecycleStage}, stage'.ended = true → e.stage ≠ stage' := by
    intro stage' hended heq
    rw [heq, hended] at hbefore
    cases hbefore
  refine ⟨?_, ?_⟩
  · exact { h with
      ended := h.ended.trans (hbefore.trans hafter.symm)
      tells := fun heq => absurd heq (hnot rfl)
      lastWrite := fun n heq => absurd heq (hnot rfl)
      terminal := iff_of_false (fun hterminal => hnot₀ rfl (h.terminal.1 hterminal)) (hnot rfl)
      releasedTerminal := fun hreleased => absurd (h.releasedTerminal hreleased).1 (hnot₀ rfl) }
  · exact {
      status := Or.inl rfl
      queue := Or.inl rfl
      recorded := fun hrecorded => absurd rfl (hnot (Recorded.ended hrecorded))
      told := by
        rintro (heq | heq)
        all_goals exact absurd heq (hnot₀ rfl)
      waiters := fun _ _ _ hw => hw }

theorem Kept.persistLive : e.persistLive.Kept ∧ Moves e e.persistLive := by
  refine ⟨?_, ?_⟩
  · exact { h with
      queued := by
        intro r hr
        rcases List.mem_append.1 hr with hr | hr
        · exact h.queued r hr
        · exact Or.inr (List.mem_singleton.1 hr ▸ rfl)
      ordered := by
        refine List.pairwise_append.2 ⟨h.ordered, List.pairwise_singleton _ _, ?_⟩
        intro r hr r' hr' hterminal
        obtain rfl := List.mem_singleton.1 hr'
        have hstatus := (h.queued r hr).resolve_left (BackgroundTaskStatus.ne_running hterminal)
        exact (congrArg BackgroundTaskStatus.isTerminal hstatus).symm.trans hterminal
      lastWrite := by
        intro n hstage
        obtain ⟨r, hr, hstatus⟩ := h.lastWrite n hstage
        have hlt := (List.getElem?_eq_some_iff.1 hr).1
        exact ⟨r, (List.getElem?_append_left hlt).trans hr, hstatus⟩ }
  · exact {
      status := Or.inl rfl
      queue := Or.inr ⟨_, rfl, rfl⟩
      recorded := fun hrecorded => ⟨hrecorded, rfl⟩
      told := id
      waiters := fun _ _ _ hw => hw }

theorem Kept.detach : e.detach.Kept ∧ Moves e e.detach := by
  unfold ManagedTask.detach
  split
  case isTrue => exact ⟨h, .same rfl rfl rfl rfl rfl⟩
  case isFalse hcond =>
    simp only [Bool.or_eq_true, not_or, Bool.not_eq_true] at hcond
    obtain ⟨hrunning, hforeground⟩ := hcond
    have hended : e.stage.ended = false := h.ended.symm.trans hrunning
    have hnot : ∀ {stage : LifecycleStage}, stage.ended = true → e.stage ≠ stage := by
      intro stage hstage heq
      rw [heq, hstage] at hended
      cases hended
    -- the task before its record is queued
    have hdetached : Kept { e with
        detached := true
        deadline := e.detachDeadline.getD e.deadline
        outputPersistStarted := true
        released := some .detached } := { h with
      persists := fun _ => rfl
      tells := fun _ => rfl
      releasedDetached := fun _ => rfl
      releasedTerminal := fun hreleased => by cases hreleased
      waiters := by
        intro w hw
        have hright := h.waiters w hw
        unfold ForegroundWaiter.Right at hright ⊢
        split at hright
        · exact fun _ => rfl
        · rfl
        · simp [hrunning] at hright }
    obtain ⟨hkept, hmoves⟩ := hdetached.persistLive
    refine ⟨hkept, ?_⟩
    exact {
      status := Or.inl rfl
      queue := Or.inr ⟨_, rfl, rfl⟩
      recorded := fun hrecorded => by
        have hafter := Recorded.ended hrecorded
        exact absurd rfl (hnot hafter)
      told := id
      waiters := fun _ _ _ hw => hw }

theorem Kept.finalize {settlement : BackgroundTaskSettlement}
    (hstage : e.stage = .settling settlement) :
    (e.finalize settlement).Kept ∧ Moves e (e.finalize settlement) := by
  have hended : e.stage.ended = false := by rw [hstage]; rfl
  have hrunning : e.status = .running := BackgroundTaskStatus.eq_running (h.ended.trans hended)
  have hterminal := settlement.status.isTerminal_status
  have hnot : e.terminal ≠ true := fun heq => by simp [h.terminal.1 heq] at hstage
  have hreleased : e.released ≠ some .terminal := fun heq => by
    simp [(h.releasedTerminal heq).1] at hstage
  have hqueued : ∀ r ∈ e.persistWriteQueue, r.status = .running := fun r hr =>
    (h.queued r hr).elim id fun hstatus => hstatus.trans hrunning
  have hwaiters : ∀ {e' : ManagedTask}, e'.waiters = e.waiters → e'.detached = e.detached →
      e'.released = e.released → ∀ w ∈ e'.waiters, w.Right e' := by
    intro e' hw hdetached hreleased' w hmem
    have hright := h.waiters w (hw ▸ hmem)
    unfold ForegroundWaiter.Right at hright ⊢
    split at hright
    · rwa [hdetached, hreleased']
    · rwa [hdetached]
    · simp [hrunning, BackgroundTaskStatus.isTerminal] at hright
  have htold : e.stage ≠ .releasing ∧ e.stage ≠ .finished := by simp [hstage]
  unfold ManagedTask.finalize
  dsimp only
  split
  case isTrue hstarted =>
    refine ⟨?_, ?_⟩
    · exact { h with
        ended := hterminal
        tells := fun heq => by cases heq
        queued := by
          intro r hr
          rcases mem_append.1 hr with hr | hr
          · exact Or.inl (hqueued r hr)
          · exact Or.inr (mem_singleton.1 hr ▸ rfl)
        ordered := by
          refine pairwise_append.2 ⟨h.ordered, pairwise_singleton _ _, ?_⟩
          intro r hr r' _ hterminal'
          simp [hqueued r hr, BackgroundTaskStatus.isTerminal] at hterminal'
        lastWrite := by
          intro n heq
          have hlength : e.persistWriteQueue.length = n := by
            simpa [ManagedTask.persistLive] using heq
          subst hlength
          exact ⟨_, getElem?_concat_length, rfl⟩
        terminal := iff_of_false hnot fun heq => by cases heq
        releasedTerminal := fun heq => absurd heq hreleased
        waiters := hwaiters rfl rfl rfl }
    · exact {
        status := Or.inr hrunning
        queue := Or.inr ⟨_, rfl, rfl⟩
        recorded := by
          rintro (heq | ⟨-, heq | heq | heq | heq⟩)
          · simp [ManagedTask.persistLive] at heq
          all_goals cases heq
        told := fun heq => absurd heq (not_or.2 htold)
        waiters := fun _ _ _ hw => hw }
  case isFalse hstarted =>
    have hforeground : e.detached = false := by
      by_contra hdetached
      exact hstarted (h.persists (Bool.not_eq_false _ ▸ hdetached))
    refine ⟨?_, ?_⟩
    · exact { h with
        ended := hterminal
        tells := fun heq => by cases heq
        queued := fun r hr => Or.inl (hqueued r hr)
        lastWrite := fun n heq => by cases heq
        terminal := iff_of_false hnot fun heq => by cases heq
        releasedTerminal := fun heq => absurd heq hreleased
        waiters := hwaiters rfl rfl rfl }
    · exact {
        status := Or.inr hrunning
        queue := Or.inl rfl
        recorded := by
          rintro (heq | ⟨hdetached, -⟩)
          · cases heq
          · exact Bool.noConfusion (hforeground.symm.trans hdetached)
        told := fun heq => absurd heq (not_or.2 htold)
        waiters := fun _ _ _ hw => hw }

theorem Kept.ending (hbefore : e.stage.ended = true) (hfinished : e.stage ≠ .finished)
    {stage : LifecycleStage} (hafter : stage.ended = true) (hnext : stage ≠ .finished)
    (hwrites : ∀ n, stage ≠ .persisting n) (htells : stage = .notifying → e.detached = true)
    (hrecorded : e.detached = true → e.Recorded) (htold : e.stage = .releasing → stage = .releasing)
    {scheduled : List BackgroundTaskStatus} :
    Kept { e with stage := stage, scheduled := scheduled } ∧
      Moves e { e with stage := stage, scheduled := scheduled } := by
  have hterminal : ¬ e.terminal = true := fun hterminal => hfinished (h.terminal.1 hterminal)
  refine ⟨?_, ?_⟩
  · exact { h with
      ended := h.ended.trans (hbefore.trans hafter.symm)
      tells := htells
      lastWrite := fun n heq => absurd heq (hwrites _)
      terminal := iff_of_false hterminal hnext
      releasedTerminal := fun hreleased => absurd (h.releasedTerminal hreleased).1 hfinished }
  · exact {
      status := Or.inl rfl
      queue := Or.inl rfl
      recorded := by
        rintro (heq | ⟨hdetached, -⟩)
        · exact absurd heq (hwrites 0)
        · exact ⟨hrecorded hdetached, rfl⟩
      told := fun heq => Or.inl (htold (heq.resolve_right hfinished))
      waiters := fun _ _ _ hw => hw }

theorem Kept.fireTerminalEffects (hstage : e.stage = .effects) :
    e.fireTerminalEffects.Kept ∧ Moves e e.fireTerminalEffects := by
  have hrecorded : e.detached = true → e.Recorded := fun hdetached =>
    Or.inr ⟨hdetached, Or.inl hstage⟩
  unfold ManagedTask.fireTerminalEffects
  split
  case isTrue hcond =>
    simp only [Bool.and_eq_true] at hcond
    exact h.ending (by rw [hstage]; rfl) (by rw [hstage]; simp) rfl (by simp) (by simp)
      (fun _ => hcond.1.1.1) hrecorded (by rw [hstage]; simp)
  case isFalse =>
    exact h.ending (by rw [hstage]; rfl) (by rw [hstage]; simp) rfl (by simp) (by simp)
      (by simp) hrecorded (by rw [hstage]; simp)

theorem Kept.release (hstage : e.stage = .releasing) : let e' := { e with
      stage := .finished
      released := if e.detached then e.released else e.released.or (some .terminal)
      terminal := true }
    e'.Kept ∧ Moves e e' := by
  have hended : e.status.isTerminal = true := by rw [h.ended, hstage]; rfl
  have hnone : e.detached = false → e.released = none := by
    intro hforeground
    cases hreleased : e.released with
    | none => rfl
    | some reason =>
      cases reason with
      | detached => exact Bool.noConfusion (hforeground.symm.trans (h.releasedDetached hreleased))
      | terminal => simp [(h.releasedTerminal hreleased).1] at hstage
  have hfinished : ∀ r, (if e.detached then e.released else e.released.or (some .terminal)) =
      some r → (r = .detached ∧ e.detached = true) ∨ (r = .terminal ∧ e.detached = false) := by
    intro r hr
    cases hdetached : e.detached with
    | false =>
      rw [hdetached, hnone hdetached] at hr
      exact Or.inr ⟨(some.inj hr).symm, rfl⟩
    | true =>
      rw [hdetached] at hr
      cases r with
      | detached => exact Or.inl ⟨rfl, rfl⟩
      | terminal => exact Bool.noConfusion ((h.releasedTerminal hr).2.symm.trans hdetached)
  refine ⟨?_, ?_⟩
  · exact { h with
      ended := hended
      tells := fun heq => by cases heq
      lastWrite := fun n heq => by cases heq
      terminal := iff_of_true rfl rfl
      releasedDetached := fun hr => ((hfinished _ hr).resolve_right fun hand => by cases hand.1).2
      releasedTerminal := fun hr =>
        ⟨rfl, ((hfinished _ hr).resolve_left fun hand => by cases hand.1).2⟩
      waiters := by
        intro w hw
        have hright := h.waiters w hw
        unfold ForegroundWaiter.Right at hright ⊢
        split at hright
        · intro hdetached
          rw [if_pos hdetached]
          exact hright hdetached
        · exact hright
        · exact hright }
  · exact {
      status := Or.inl rfl
      queue := Or.inl rfl
      recorded := by
        rintro (heq | ⟨hdetached, -⟩)
        · cases heq
        · exact ⟨Or.inr ⟨hdetached, Or.inr (Or.inr (Or.inl hstage))⟩, rfl⟩
      told := fun _ => Or.inr rfl
      waiters := fun _ _ _ hw => hw }

/-- A call of `waitForForegroundRelease`. -/
theorem Kept.wait : Kept { e with waiters := e.waiters ++ [e.waiter] } ∧
    Moves e { e with waiters := e.waiters ++ [e.waiter] } := by
  have hright : e.waiter.Right e := by
    unfold waiter ForegroundWaiter.Right
    cases hterminal : e.status.isTerminal with
    | true => simp
    | false => cases hdetached : e.detached <;> simp
  refine ⟨?_, ?_⟩
  · exact { h with
      waiters := by
        intro w hw
        rcases List.mem_append.1 hw with hw | hw
        · exact h.waiters w hw
        · exact List.mem_singleton.1 hw ▸ hright }
  · exact {
      status := Or.inl rfl
      queue := Or.inl rfl
      recorded := fun hrecorded => ⟨hrecorded, rfl⟩
      told := id
      waiters := fun j _ _ hw =>
        (List.getElem?_append_left (List.getElem?_eq_some_iff.1 hw).1).trans hw }

theorem Kept.right_of_releaseReason {reason : ForegroundTaskReleaseReason}
    (hreason : e.releaseReason = some reason)
    (hpending : e.detached = true → e.released = some .detached) :
    ForegroundWaiter.Right ⟨true, some reason⟩ e := by
  have hended : e.stage = .finished → e.status.isTerminal = true := fun hstage => by
    rw [h.ended, hstage]
    rfl
  unfold releaseReason at hreason
  cases hreleased : e.released with
  | some r =>
    rw [hreleased] at hreason
    obtain rfl := some.inj hreason
    cases r with
    | detached => exact h.releasedDetached hreleased
    | terminal =>
      obtain ⟨hstage, hforeground⟩ := h.releasedTerminal hreleased
      exact ⟨hended hstage, fun _ => hforeground⟩
  | none =>
    rw [hreleased, none_or] at hreason
    obtain ⟨hterminal, hreason⟩ := ite_none_right_eq_some.1 hreason
    cases hreason
    refine ⟨hended (h.terminal.1 hterminal), fun _ => ?_⟩
    cases hdetached : e.detached with
    | false => rfl
    | true => cases (hpending hdetached).symm.trans hreleased

theorem Kept.wake {i : ℕ} {reason : ForegroundTaskReleaseReason}
    (hw : e.waiters[i]? = some ⟨true, none⟩) (hreason : e.releaseReason = some reason) :
    Kept { e with waiters := e.waiters.set i ⟨true, some reason⟩ } ∧
      Moves e { e with waiters := e.waiters.set i ⟨true, some reason⟩ } := by
  refine ⟨?_, ?_⟩
  · exact { h with
      waiters := by
        intro w hmem
        rcases mem_or_eq_of_mem_set hmem with hmem | rfl
        · exact h.waiters w hmem
        · exact h.right_of_releaseReason hreason (h.waiters _ (mem_of_getElem? hw)) }
  · exact {
      status := Or.inl rfl
      queue := Or.inl rfl
      recorded := fun hrecorded => ⟨hrecorded, rfl⟩
      told := id
      waiters := by
        intro j foreground reason' hj
        have hij : i ≠ j := by
          rintro rfl
          cases hw.symm.trans hj
        simpa [getElem?_set_ne hij] using hj }

theorem Kept.step {event : EntryEvent} (ht : e.step event = some e') : e'.Kept ∧ Moves e e' := by
  cases event <;> dsimp only [ManagedTask.step] at ht
  case settle settlement =>
    cases ht
    exact ⟨{ h with }, .same rfl rfl rfl rfl rfl⟩
  case stop reason =>
    cases ht
    unfold ManagedTask.requestStop
    split
    · exact ⟨h, .same rfl rfl rfl rfl rfl⟩
    · exact ⟨{ h with }, .same rfl rfl rfl rfl rfl⟩
  case abort =>
    cases ht
    split
    · exact ⟨h, .same rfl rfl rfl rfl rfl⟩
    · exact ⟨{ h with }, .same rfl rfl rfl rfl rfl⟩
  case expire =>
    obtain ⟨-, ht⟩ := ite_none_right_eq_some.1 ht
    cases ht
    exact ⟨{ h with }, .same rfl rfl rfl rfl rfl⟩
  case detach =>
    cases ht
    exact h.detach
  case suppress =>
    cases ht
    unfold ManagedTask.suppress
    split
    · exact ⟨h, .same rfl rfl rfl rfl rfl⟩
    · have hsuppressed : Kept { e with terminalNotificationSuppressed := true } := { h with }
      obtain ⟨hkept, hmoves⟩ := hsuppressed.persistLive
      exact ⟨hkept, { hmoves with }⟩
  case update =>
    cases ht
    exact h.persistLive
  case persistOutput =>
    cases ht
    exact ⟨{ h with persists := fun _ => rfl }, .same rfl rfl rfl rfl rfl⟩
  case wait =>
    cases ht
    exact h.wait
  case wake i =>
    obtain ⟨hw, ht⟩ := ite_none_right_eq_some.1 ht
    obtain ⟨reason, hreason, rfl⟩ := map_eq_some_iff.1 ht
    exact h.wake hw hreason
  case race outcome =>
    obtain ⟨hcond, ht⟩ := ite_none_right_eq_some.1 ht
    have hbefore : e.stage.ended = false := by rw [hcond.1]; rfl
    split at ht
    · cases ht
      exact h.advance hbefore rfl
    · cases ht
      exact h.advance hbefore rfl
  case grace =>
    split at ht
    case h_1 outcome settlement hstage _ =>
      cases ht
      exact h.advance (by rw [hstage]; rfl) (outcome.ended_afterAbort _)
    case h_2 => cases ht
  case graceOver =>
    split at ht
    case h_1 outcome hstage =>
      cases ht
      exact h.advance (by rw [hstage]; rfl) (outcome.ended_afterAbort _)
    case h_2 => cases ht
  case forceStopped =>
    split at ht
    case h_1 outcome hstage =>
      cases ht
      exact h.advance (by rw [hstage]; rfl) rfl
    case h_2 => cases ht
  case finalize =>
    split at ht
    case h_1 settlement hstage =>
      cases ht
      exact h.finalize hstage
    case h_2 => cases ht
  case persisted =>
    obtain ⟨hstage, ht⟩ := ite_none_right_eq_some.1 ht
    cases ht
    exact h.ending (by rw [hstage]; rfl) (by rw [hstage]; simp) rfl (by simp) (by simp)
      (by simp) (fun _ => Or.inl hstage) (by rw [hstage]; simp)
  case effects =>
    obtain ⟨hstage, ht⟩ := ite_none_right_eq_some.1 ht
    cases ht
    exact h.fireTerminalEffects hstage
  case release =>
    obtain ⟨hstage, ht⟩ := ite_none_right_eq_some.1 ht
    cases ht
    exact h.release hstage

theorem Kept.written {r : BackgroundTaskInfo} {rest : List BackgroundTaskInfo}
    (hqueue : e.persistWriteQueue = r :: rest) : e.written.Kept := by
  have hended : e.written.stage.ended = e.stage.ended := by
    unfold ManagedTask.written
    split
    case h_1 writes heq => rw [heq]; rfl
    case h_2 => rfl
  have hother : ∀ {stage : LifecycleStage}, (∀ n, stage ≠ .persisting n) →
      (e.written.stage = stage ↔ e.stage = stage) := by
    intro stage hstage
    unfold ManagedTask.written
    split
    case h_1 writes heq =>
      rw [heq]
      exact iff_of_false (fun h => hstage _ h.symm) (fun h => hstage _ h.symm)
    case h_2 => exact Iff.rfl
  have hlater := pairwise_cons.1 (hqueue ▸ h.ordered)
  exact { h with
    ended := h.ended.trans hended.symm
    tells := fun heq => h.tells ((hother (by simp)).1 heq)
    queued := fun r' hr' => h.queued r' (mem_of_mem_tail hr')
    ordered := by
      rw [ManagedTask.written, hqueue]
      exact hlater.2
    lastWrite := by
      intro n heq
      have hstage : e.stage = .persisting (n + 2) := by
        unfold ManagedTask.written at heq
        split at heq
        case h_1 writes hstage =>
          cases heq
          exact hstage
        case h_2 hne => exact absurd heq (hne n)
      obtain ⟨r', hr', hstatus⟩ := h.lastWrite (n + 1) hstage
      refine ⟨r', ?_, hstatus⟩
      rw [hqueue] at hr'
      rw [ManagedTask.written, hqueue]
      exact hr'
    terminal := h.terminal.trans (hother (by simp)).symm
    releasedTerminal := fun hr =>
      ⟨(hother (by simp)).2 (h.releasedTerminal hr).1, (h.releasedTerminal hr).2⟩ }

theorem Kept.notified (hstage : e.stage = .notifying) (ok : Bool) :
    (e.notified ok).Kept ∧ Moves e (e.notified ok) :=
  h.ending (by rw [hstage]; rfl) (by rw [hstage]; simp) rfl (by simp) (by simp) (by simp)
    (fun hdetached => Or.inr ⟨hdetached, Or.inr (Or.inl hstage)⟩) (by rw [hstage]; simp)

end

theorem kept_register (taskId : String) (kind : BackgroundTaskKind) (description : String)
    (options : RegisterOptions) : (register taskId kind description options).Kept := by
  have hkept : ∀ e : ManagedTask, e.status = .running → e.stage = .racing →
      e.outputPersistStarted = e.detached → e.persistWriteQueue = [] → e.terminal = false →
      e.released = none → e.waiters = [] → e.Kept := by
    intro e hstatus hstage hstarted hqueue hterminal hreleased hwaiters
    exact {
      ended := by rw [hstatus, hstage]; rfl
      persists := fun hdetached => hstarted.trans hdetached
      tells := fun heq => by simp [hstage] at heq
      queued := by simp [hqueue]
      ordered := by simp [hqueue]
      lastWrite := fun n heq => by simp [hstage] at heq
      terminal := by simp [hterminal, hstage]
      releasedDetached := fun heq => by simp [hreleased] at heq
      releasedTerminal := fun heq => by simp [hreleased] at heq
      waiters := by simp [hwaiters] }
  unfold register
  dsimp only
  split
  · exact (hkept _ rfl rfl rfl rfl rfl rfl rfl).persistLive.1
  · exact hkept _ rfl rfl rfl rfl rfl rfl rfl

end ManagedTask

/-! ### A task in a later manager -/

/-- What `reconcile` rests on, with the record on disk. -/
def GhostTask.Kept (g : GhostTask) (disk : Option BackgroundTaskInfo) : Prop :=
  match g.phase with
  | .loaded => disk = some g.info
  | .marking => g.info.status = .lost ∧ ∃ r ∈ disk, r.status = .running
  | .marked | .notifying | .restored => g.info.status.isTerminal = true ∧ disk = some g.info
  | .stopped =>
    g.info.status.isTerminal = true ∧
      (disk = some g.info ∨ g.info.status = .lost ∧ ∃ r ∈ disk, r.status = .running)

/-! ### A task through all processes -/

namespace TaskLife

/-- **What holds of a task through all processes.** -/
structure Kept (s : TaskLife) : Prop where
  entry : ∀ e ∈ s.entry, e.Kept
  /-- While the manager that runs the task is there, it is the only one. -/
  first : ∀ e ∈ s.entry, s.process = 0 ∧ s.ghost = none ∧ s.loading = false ∧ s.replayed = []
  recorded : ∀ e ∈ s.entry, ∀ r ∈ s.disk, (r.status = .running ∨ r.status = e.status) ∧
    (r.status.isTerminal = true → ∀ r' ∈ e.persistWriteQueue, r'.status.isTerminal = true)
  written : s.failed = false → ∀ e ∈ s.entry, e.Recorded → ∃ r ∈ s.disk, r.status = e.status
  ghost : ∀ g ∈ s.ghost, g.Kept s.disk
  later : ∀ g ∈ s.ghost, 1 ≤ s.process ∧ s.loading = false ∧ ∀ st ∈ s.replayed, st ∈ g.delivered
  fresh : ∀ g ∈ s.ghost, g.phase = .notifying → g.info.status ∉ s.replayed
  earlier : ∀ x ∈ s.issued, x.1 ≤ s.process ∧ x.2.isTerminal = true
  loads : s.loading = true → s.ghost = none ∧ 1 ≤ s.process ∧ ∀ x ∈ s.issued, x.1 < s.process
  nodup : (s.issued.map Prod.fst).Nodup
  byEntry : ∀ e ∈ s.entry, ∀ x ∈ s.issued, e.stage = .releasing ∨ e.stage = .finished
  byGhost : ∀ g ∈ s.ghost, ∀ x ∈ s.issued, x.1 = s.process →
    g.phase = .restored ∨ g.phase = .stopped
  unmarked : ∀ st ∈ s.replayed, (s.process, st) ∉ s.issued
  told : s.failed = false → ∀ x ∈ s.issued, ∃ r ∈ s.disk, r.status = x.2

variable {s t : TaskLife}

theorem kept_register (taskId : String) (kind : BackgroundTaskKind) (description : String)
    (options : RegisterOptions) : (register taskId kind description options).Kept := by
  have hentry : ∀ e ∈ (register taskId kind description options).entry,
      e = ManagedTask.register taskId kind description options := by
    intro e he
    exact (some.inj he).symm
  have hnot : ¬ (ManagedTask.register taskId kind description options).Recorded := by
    unfold ManagedTask.register ManagedTask.Recorded
    dsimp only
    split <;> simp [ManagedTask.persistLive]
  exact {
    entry := fun e he => hentry e he ▸ ManagedTask.kept_register _ _ _ _
    first := fun _ _ => ⟨rfl, rfl, rfl, rfl⟩
    recorded := fun _ _ r hr => by cases hr
    written := fun _ e he hrecorded => absurd (hentry e he ▸ hrecorded) hnot
    ghost := fun g hg => by cases hg
    later := fun g hg => by cases hg
    fresh := fun g hg => by cases hg
    earlier := fun x hx => by cases hx
    loads := fun hloading => by cases hloading
    nodup := nodup_nil
    byEntry := fun _ _ x hx => by cases hx
    byGhost := fun g hg => by cases hg
    unmarked := fun st hst => by cases hst
    told := fun _ x hx => by cases hx }

variable {e : ManagedTask}

theorem Kept.moves (h : s.Kept) {e' : ManagedTask} (he : s.entry = some e) (hkept : e'.Kept)
    (hmoves : e.Moves e') : Kept { s with entry := some e' } := by
  have hold := h.entry e he
  have hthis : ∀ e₁ ∈ ({ s with entry := some e' } : TaskLife).entry, e₁ = e' := fun e₁ he₁ =>
    (some.inj he₁).symm
  -- a record of the end is one of the status that stays
  have hstays : ∀ r ∈ s.disk, r.status.isTerminal = true → e'.status = e.status := by
    intro r hr hterminal
    have hne := BackgroundTaskStatus.ne_running hterminal
    refine hmoves.status.resolve_right fun hrunning => hne ?_
    exact ((h.recorded e he r hr).1.resolve_left hne).trans hrunning
  exact { h with
    entry := fun e₁ he₁ => hthis e₁ he₁ ▸ hkept
    first := fun e₁ _ => h.first e he
    recorded := by
      intro e₁ he₁ r hr
      obtain rfl := hthis e₁ he₁
      obtain ⟨hstatus, hqueued⟩ := h.recorded e he r hr
      refine ⟨?_, fun hterminal r' hr' => ?_⟩
      · rcases hstatus with hstatus | hstatus
        · exact Or.inl hstatus
        · rcases hmoves.status with hsame | hrunning
          · exact Or.inr (hstatus.trans hsame.symm)
          · exact Or.inl (hstatus.trans hrunning)
      · rcases hmoves.queue with hqueue | ⟨r₁, hqueue, hr₁⟩
        · exact hqueued hterminal r' (hqueue ▸ hr')
        · rw [hqueue] at hr'
          rcases mem_append.1 hr' with hr' | hr'
          · exact hqueued hterminal r' hr'
          · obtain rfl := mem_singleton.1 hr'
            have hsame := hstatus.resolve_left (BackgroundTaskStatus.ne_running hterminal)
            rwa [hr₁, hstays r hr hterminal, ← hsame]
    written := by
      intro hfailed e₁ he₁ hrecorded
      obtain rfl := hthis e₁ he₁
      obtain ⟨hbefore, hsame⟩ := hmoves.recorded hrecorded
      obtain ⟨r, hr, hstatus⟩ := h.written hfailed e he hbefore
      exact ⟨r, hr, hstatus.trans hsame.symm⟩
    byEntry := by
      intro e₁ he₁ x hx
      obtain rfl := hthis e₁ he₁
      exact hmoves.told (h.byEntry e he x hx) }

theorem Kept.same_status (h : s.Kept) (he : s.entry = some e)
    {r r₀ : BackgroundTaskInfo} (hmem : r ∈ e.persistWriteQueue) (hr₀ : s.disk = some r₀)
    (hterminal : r₀.status.isTerminal = true) : r.status = r₀.status := by
  obtain ⟨hstatus, hqueued⟩ := h.recorded e he r₀ hr₀
  have hsame := ((h.entry e he).queued r hmem).resolve_left
    (BackgroundTaskStatus.ne_running (hqueued hterminal r hmem))
  exact hsame.trans (hstatus.resolve_left (BackgroundTaskStatus.ne_running hterminal)).symm

variable {ok : Bool}

theorem Kept.write (h : s.Kept) (ht : s.write ok = some t) : t.Kept := by
  obtain ⟨e, he, ht⟩ := bind_eq_some_iff.1 ht
  obtain ⟨r, hr, rfl⟩ := map_eq_some_iff.1 ht
  obtain ⟨rest, hqueue⟩ := head?_eq_some_iff.1 hr
  have hkept := h.entry e he
  have hmem : r ∈ e.persistWriteQueue := by rw [hqueue]; exact (.head _)
  have hthis : ∀ e₁ ∈ some e.written, e₁ = e.written := fun e₁ he₁ => (some.inj he₁).symm
  have hrest : ∀ r' ∈ e.written.persistWriteQueue, r' ∈ e.persistWriteQueue := fun r' hr' =>
    mem_of_mem_tail hr'
  have hdisk : ∀ r₁ ∈ (if ok then some r else s.disk), r₁ = r ∨ r₁ ∈ s.disk := by
    intro r₁ hr₁
    split at hr₁
    · exact Or.inl (some.inj hr₁).symm
    · exact Or.inr hr₁
  have hstatus : ∀ st : BackgroundTaskStatus, st.isTerminal = true →
      (∃ r₀ ∈ s.disk, r₀.status = st) → ∃ r₁ ∈ (if ok then some r else s.disk), r₁.status = st := by
    rintro st hterminal ⟨r₀, hr₀, rfl⟩
    split
    · exact ⟨r, rfl, h.same_status he hmem hr₀ hterminal⟩
    · exact ⟨r₀, hr₀, rfl⟩
  exact { h with
    entry := fun e₁ he₁ => hthis e₁ he₁ ▸ hkept.written hqueue
    first := fun _ _ => h.first e he
    recorded := by
      intro e₁ he₁ r₁ hr₁
      obtain rfl := hthis e₁ he₁
      rcases hdisk r₁ hr₁ with rfl | hold
      · refine ⟨hkept.queued r₁ hmem, fun hterminal r' hr' => ?_⟩
        have hlater := (pairwise_cons.1 (hqueue ▸ hkept.ordered)).1
        rw [ManagedTask.written, hqueue] at hr'
        exact hlater r' hr' hterminal
      · obtain ⟨hstatus', hqueued⟩ := h.recorded e he r₁ hold
        exact ⟨hstatus', fun hterminal r' hr' => hqueued hterminal r' (hrest r' hr')⟩
    written := by
      intro hfailed e₁ he₁ hrecorded
      obtain rfl := hthis e₁ he₁
      obtain ⟨hfailed, hok⟩ := Bool.or_eq_false_iff.1 hfailed
      have hok : ok = true := by simpa using hok
      by_cases hbefore : e.Recorded
      · exact hstatus e.status (hkept.ended.trans hbefore.ended) (h.written hfailed e he hbefore)
      · -- this write was the awaited one
        have hstage : e.stage = .persisting 1 := by
          unfold ManagedTask.Recorded ManagedTask.written at hrecorded
          split at hrecorded
          case h_1 writes hstage =>
            rcases hrecorded with heq | ⟨-, heq | heq | heq | heq⟩
            · cases heq
              exact hstage
            all_goals cases heq
          case h_2 => exact absurd hrecorded hbefore
        obtain ⟨r', hr', hsame⟩ := hkept.lastWrite 0 hstage
        rw [hqueue] at hr'
        cases hr'
        exact ⟨r, by rw [if_pos hok]; rfl, hsame⟩
    ghost := fun g hg => by
      rw [(h.first e he).2.1] at hg
      cases hg
    byEntry := by
      intro e₁ he₁ x hx
      obtain rfl := hthis e₁ he₁
      unfold ManagedTask.written
      rcases h.byEntry e he x hx with hstage | hstage <;> simp [hstage]
    told := by
      intro hfailed x hx
      obtain ⟨hfailed, -⟩ := Bool.or_eq_false_iff.1 hfailed
      exact hstatus x.2 (h.earlier x hx).2 (h.told hfailed x hx) }

theorem Kept.notify (h : s.Kept) (ht : s.notify ok = some t) : t.Kept := by
  obtain ⟨e, he, ht⟩ := bind_eq_some_iff.1 ht
  obtain ⟨hstage, ht⟩ := ite_none_right_eq_some.1 ht
  cases ht
  have hkept := h.entry e he
  obtain ⟨hkept', hmoves⟩ := hkept.notified hstage ok
  have hentry : Kept { s with entry := some (e.notified ok) } := h.moves he hkept' hmoves
  by_cases hok : e.notifies ok = true
  · -- nothing was sent before
    have hnone : s.issued = [] := by
      refine eq_nil_iff_forall_not_mem.2 fun x hx => ?_
      rcases h.byEntry e he x hx with heq | heq <;> simp [hstage] at heq
    obtain ⟨hprocess, hghost, hloading, hreplayed⟩ := h.first e he
    have hended : e.status.isTerminal = true := by rw [hkept.ended, hstage]; rfl
    have hissued : ∀ x ∈ (if e.notifies ok then s.issued ++ [(0, e.status)] else s.issued),
        x = (0, e.status) := by
      intro x hx
      rw [if_pos hok, hnone] at hx
      exact mem_singleton.1 hx
    exact { hentry with
      earlier := by
        intro x hx
        rw [hissued x hx]
        exact ⟨Nat.zero_le _, hended⟩
      loads := fun hload => by
        have hloading' : s.loading = true := hload
        rw [hloading] at hloading'
        cases hloading'
      nodup := by
        rw [if_pos hok, hnone]
        exact nodup_singleton _
      byEntry := by
        intro e₁ he₁ x _
        cases he₁
        exact Or.inl rfl
      byGhost := fun g hg => by
        have hg' : s.ghost = some g := hg
        rw [hghost] at hg'
        cases hg'
      unmarked := fun st hst => by
        have hst' : st ∈ s.replayed := hst
        rw [hreplayed] at hst'
        cases hst'
      told := by
        intro hfailed x hx
        rw [hissued x hx]
        exact h.written hfailed e he (Or.inr ⟨hkept.tells hstage, Or.inr (Or.inl hstage)⟩) }
  · rw [if_neg hok]
    exact hentry

variable {g : GhostTask}

section

variable (h : s.Kept)

include h

theorem Kept.entry_eq_none (hg : s.ghost = some g) : s.entry = none := by
  cases he : s.entry with
  | none => rfl
  | some e =>
    have hnone := (h.first e he).2.1
    rw [hg] at hnone
    cases hnone

/-- `reconcile` goes on with a ghost, and has not told of it yet. -/
theorem Kept.ghostMoves {g' : GhostTask} (hg : s.ghost = some g) {disk : Option BackgroundTaskInfo}
    {failed : Bool} (hkept : g'.Kept disk) (hdelivered : ∀ st ∈ g.delivered, st ∈ g'.delivered)
    (hphase : g.phase ≠ .restored ∧ g.phase ≠ .stopped)
    (hfresh : g'.phase = .notifying → g'.info.status ∉ s.replayed)
    (hfailed : failed = false → s.failed = false)
    (htold : s.failed = false → ∀ r ∈ s.disk, r.status.isTerminal = true →
      ∃ r' ∈ disk, r'.status = r.status) :
    Kept { s with ghost := some g', disk := disk, failed := failed } := by
  have hentry := h.entry_eq_none hg
  have hno : ∀ {e : ManagedTask}, ¬ s.entry = some e := by simp [hentry]
  have hthis : ∀ g₁ ∈ some g', g₁ = g' := fun g₁ hg₁ => (some.inj hg₁).symm
  obtain ⟨hprocess, hloading, hreplayed⟩ := h.later g hg
  exact { h with
    entry := fun e he => absurd he hno
    first := fun e he => absurd he hno
    recorded := fun e he => absurd he hno
    written := fun _ e he => absurd he hno
    ghost := fun g₁ hg₁ => hthis g₁ hg₁ ▸ hkept
    later := fun g₁ hg₁ => by
      rw [hthis g₁ hg₁]
      exact ⟨hprocess, hloading, fun st hst => hdelivered st (hreplayed st hst)⟩
    fresh := fun g₁ hg₁ => hthis g₁ hg₁ ▸ hfresh
    loads := fun hload => Bool.noConfusion (hloading.symm.trans hload)
    byEntry := fun e he => absurd he hno
    byGhost := fun _ _ x hx hprocess' =>
      absurd (h.byGhost g hg x hx hprocess') (not_or.2 hphase)
    told := by
      intro hfailed' x hx
      have hfailed₀ := hfailed hfailed'
      obtain ⟨r, hr, hstatus⟩ := h.told hfailed₀ x hx
      obtain ⟨r', hr', hsame⟩ := htold hfailed₀ r hr (by rw [hstatus]; exact (h.earlier x hx).2)
      exact ⟨r', hr', hsame.trans hstatus⟩ }

theorem Kept.load (ht : s.load = some t) : t.Kept := by
  obtain ⟨hloading, ht⟩ := ite_none_right_eq_some.1 ht
  cases ht
  obtain ⟨-, hprocess, hearlier⟩ := h.loads hloading
  have hno : ∀ {e : ManagedTask}, ¬ s.entry = some e := by
    intro e he
    have hloading' := (h.first e he).2.2.1
    rw [hloading] at hloading'
    cases hloading'
  have hthis : ∀ g ∈ s.disk.map fun info => ({ info, delivered := s.replayed } : GhostTask),
      ∃ info, s.disk = some info ∧ g = { info, delivered := s.replayed } := by
    intro g hg
    obtain ⟨info, hinfo, rfl⟩ := map_eq_some_iff.1 hg
    exact ⟨info, hinfo, rfl⟩
  exact { h with
    entry := fun e he => absurd he hno
    first := fun e he => absurd he hno
    recorded := fun e he => absurd he hno
    written := fun _ e he => absurd he hno
    ghost := fun g hg => by
      obtain ⟨info, hinfo, rfl⟩ := hthis g hg
      exact hinfo
    later := fun g hg => by
      obtain ⟨info, -, rfl⟩ := hthis g hg
      exact ⟨hprocess, rfl, fun st hst => hst⟩
    fresh := fun g hg hphase => by
      obtain ⟨info, -, rfl⟩ := hthis g hg
      cases hphase
    loads := fun hload => by cases hload
    byEntry := fun e he => absurd he hno
    byGhost := fun _ _ x hx hx' => absurd hx' (Nat.ne_of_lt (hearlier x hx)) }

theorem Kept.markLost (ht : s.markLost = some t) : t.Kept := by
  obtain ⟨g, hg, ht⟩ := bind_eq_some_iff.1 ht
  obtain ⟨hphase, ht⟩ := ite_none_right_eq_some.1 ht
  cases ht
  have hkept := h.ghost g hg
  have hdisk : s.disk = some g.info := by rwa [GhostTask.Kept, hphase] at hkept
  refine h.ghostMoves hg ?_ (fun st hst => hst) (by simp [hphase]) ?_ id
    fun _ r hr _ => ⟨r, hr, rfl⟩
  · unfold GhostTask.Kept GhostMap.markLost
    cases hterminal : g.info.status.isTerminal with
    | true => exact ⟨hterminal, hdisk⟩
    | false => exact ⟨rfl, g.info, hdisk, BackgroundTaskStatus.eq_running hterminal⟩
  · intro heq
    split at heq <;> cases heq

theorem Kept.marking (hg : s.ghost = some g) (hphase : g.phase = .marking) :
    g.info.status = .lost ∧ ∃ r ∈ s.disk, r.status = .running := by
  have hkept := h.ghost g hg
  rwa [GhostTask.Kept, hphase] at hkept

theorem Kept.markWritten (ht : s.markWritten ok = some t) : t.Kept := by
  obtain ⟨g, hg, ht⟩ := bind_eq_some_iff.1 ht
  obtain ⟨hphase, ht⟩ := ite_none_right_eq_some.1 ht
  cases ht
  obtain ⟨hlost, r, hr, hrunning⟩ := h.marking hg hphase
  have hterminal : g.info.status.isTerminal = true := by rw [hlost]; rfl
  refine h.ghostMoves hg ?_ (fun st hst => hst) (by simp [hphase]) ?_
    (fun hfailed => (Bool.or_eq_false_iff.1 hfailed).1) ?_
  · unfold GhostTask.Kept
    cases ok with
    | true => exact ⟨hterminal, rfl⟩
    | false => exact ⟨hterminal, Or.inr ⟨hlost, r, hr, hrunning⟩⟩
  · intro heq
    split at heq <;> cases heq
  · -- the record on disk is one of the running task
    intro _ r' hr' hterminal'
    cases hr.symm.trans hr'
    exact absurd hrunning (BackgroundTaskStatus.ne_running hterminal')

theorem Kept.restore (ht : s.restore = some t) : t.Kept := by
  obtain ⟨g, hg, ht⟩ := bind_eq_some_iff.1 ht
  obtain ⟨hphase, ht⟩ := ite_none_right_eq_some.1 ht
  cases ht
  have hmarked := h.ghost g hg
  rw [GhostTask.Kept, hphase] at hmarked
  refine h.ghostMoves hg ?_ ?_ (by simp [hphase]) ?_ id fun _ r hr _ => ⟨r, hr, rfl⟩
  · unfold GhostTask.restore
    split <;> exact hmarked
  · intro st hst
    unfold GhostTask.restore
    split <;> exact hst
  · intro heq hreplayed
    unfold GhostTask.restore at heq hreplayed
    split at heq
    case isTrue hcond =>
      rw [if_pos hcond] at hreplayed
      exact hcond.2.2.2 ((h.later g hg).2.2 _ hreplayed)
    case isFalse => cases heq

theorem Kept.renotify (ht : s.renotify ok = some t) : t.Kept := by
  obtain ⟨g, hg, ht⟩ := bind_eq_some_iff.1 ht
  obtain ⟨hphase, ht⟩ := ite_none_right_eq_some.1 ht
  cases ht
  have hmarked := h.ghost g hg
  rw [GhostTask.Kept, hphase] at hmarked
  cases ok with
  | false =>
    exact h.ghostMoves hg ⟨hmarked.1, Or.inl hmarked.2⟩ (fun st hst => hst) (by simp [hphase])
      (fun heq => by cases heq) id fun _ r hr _ => ⟨r, hr, rfl⟩
  | true =>
    have hmoved : Kept { s with ghost := some { g with phase := .restored } } :=
      h.ghostMoves hg hmarked (fun st hst => hst) (by simp [hphase]) (fun heq => by cases heq)
        id fun _ r hr _ => ⟨r, hr, rfl⟩
    have hno : ∀ {e : ManagedTask}, ¬ s.entry = some e := by simp [h.entry_eq_none hg]
    obtain ⟨hprocess, hloading, -⟩ := h.later g hg
    have hold : ∀ x ∈ s.issued, x.1 ≠ s.process := fun x hx hx' => by
      rcases h.byGhost g hg x hx hx' with heq | heq <;> simp [hphase] at heq
    exact { hmoved with
      earlier := by
        intro x hx
        rcases mem_append.1 hx with hx | hx
        · exact h.earlier x hx
        · rw [mem_singleton.1 hx]
          exact ⟨Nat.le_refl _, hmarked.1⟩
      loads := fun hload => Bool.noConfusion (hloading.symm.trans hload)
      nodup := by
        dsimp only
        rw [if_pos rfl, map_append]
        refine h.nodup.append (nodup_singleton _) ?_
        intro n hn hn'
        obtain ⟨x, hx, rfl⟩ := mem_map.1 hn
        exact hold x hx (mem_singleton.1 hn')
      byEntry := fun e he => absurd he hno
      byGhost := fun g₁ hg₁ _ _ _ => by
        cases hg₁
        exact Or.inl rfl
      unmarked := by
        intro st hst hx
        rcases mem_append.1 hx with hx | hx
        · exact h.unmarked st hst hx
        · obtain rfl := congrArg Prod.snd (mem_singleton.1 hx)
          exact h.fresh g hg hphase hst
      told := by
        intro hfailed x hx
        rcases mem_append.1 hx with hx | hx
        · exact h.told hfailed x hx
        · rw [mem_singleton.1 hx]
          exact ⟨g.info, hmarked.2, rfl⟩ }

theorem Kept.deliver {process : ℕ} {status : BackgroundTaskStatus}
    (ht : s.deliver process status = some t) : t.Kept := by
  obtain ⟨hcond, ht⟩ := ite_none_right_eq_some.1 ht
  cases ht
  by_cases hprocess : process = 0
  · -- the manager that runs the task
    rw [if_pos hprocess, if_pos hprocess]
    cases he : s.entry with
    | none =>
      have hsame : Kept { s with unflushed := s.unflushed ++ [status] } := { h with }
      rwa [he] at hsame
    | some e =>
      have hdelivered : ManagedTask.Kept { e with delivered := status :: e.delivered } :=
        { h.entry e he with }
      exact { h.moves he hdelivered (.same rfl rfl rfl rfl rfl) with }
  · rw [if_neg hprocess, if_neg hprocess]
    have hghost : ∀ g' ∈ s.ghost.map fun g => ({ g with delivered := status :: g.delivered } :
        GhostTask), ∃ g ∈ s.ghost, g' = { g with delivered := status :: g.delivered } := by
      intro g' hg'
      obtain ⟨g, hg, rfl⟩ := map_eq_some_iff.1 hg'
      exact ⟨g, hg, rfl⟩
    exact { h with
      first := fun e he => by
        obtain ⟨hzero, hnone, hloading, hreplayed⟩ := h.first e he
        refine ⟨hzero, ?_, hloading, hreplayed⟩
        rw [hnone]
        rfl
      ghost := fun g' hg' => by
        obtain ⟨g, hg, rfl⟩ := hghost g' hg'
        exact h.ghost g hg
      later := fun g' hg' => by
        obtain ⟨g, hg, rfl⟩ := hghost g' hg'
        obtain ⟨hlate, hloading, hreplayed⟩ := h.later g hg
        exact ⟨hlate, hloading, fun st hst => .tail _ (hreplayed st hst)⟩
      fresh := fun g' hg' => by
        obtain ⟨g, hg, rfl⟩ := hghost g' hg'
        exact h.fresh g hg
      loads := fun hloading => by
        obtain ⟨hnone, hrest⟩ := h.loads hloading
        refine ⟨?_, hrest⟩
        rw [hnone]
        rfl
      byGhost := fun g' hg' => by
        obtain ⟨g, hg, rfl⟩ := hghost g' hg'
        exact h.byGhost g hg }

theorem Kept.flush (ht : s.flush = some t) : t.Kept := by
  obtain ⟨status, -, rfl⟩ := map_eq_some_iff.1 ht
  exact { h with }

theorem Kept.restart : s.restart.Kept where
  entry := fun e he => by cases he
  first := fun e he => by cases he
  recorded := fun e he => by cases he
  written := fun _ e he => by cases he
  ghost := fun g hg => by cases hg
  later := fun g hg => by cases hg
  fresh := fun g hg => by cases hg
  earlier := fun x hx => ⟨Nat.le_succ_of_le (h.earlier x hx).1, (h.earlier x hx).2⟩
  loads := fun _ => ⟨rfl, Nat.le_add_left _ _, fun x hx => Nat.lt_succ_of_le (h.earlier x hx).1⟩
  nodup := h.nodup
  byEntry := fun e he => by cases he
  byGhost := fun g hg => by cases hg
  unmarked := fun st _ hx => Nat.not_succ_le_self _ (h.earlier _ hx).1
  told := h.told

end

theorem reload_eq (h : s.Over) : s.reload = { s.restart with unflushed := s.unflushed } := by
  unfold TaskLife.reload TaskLife.restart
  rw [if_pos h]

theorem Kept.reload (h : s.Kept) (hover : s.Over) : s.reload.Kept := by
  rw [reload_eq hover]
  exact { h.restart with }

theorem Kept.step {event : TaskEvent} (h : s.Kept) (ht : s.step event = some t) : t.Kept := by
  cases event with
  | entry event =>
    obtain ⟨e, he, ht⟩ := bind_eq_some_iff.1 ht
    obtain ⟨e', he', rfl⟩ := map_eq_some_iff.1 ht
    obtain ⟨hkept, hmoves⟩ := (h.entry e he).step he'
    exact h.moves he hkept hmoves
  | write ok => exact h.write ht
  | notify ok => exact h.notify ht
  | load => exact h.load ht
  | markLost => exact h.markLost ht
  | markWritten ok => exact h.markWritten ht
  | restore => exact h.restore ht
  | renotify ok => exact h.renotify ht
  | deliver process status => exact h.deliver ht
  | flush => exact h.flush ht

/-! ### From one state to a later one -/

/-- The task is the same one, and what it has settled stays. -/
def SameEntry (e e' : ManagedTask) : Prop :=
  (e.status.isTerminal = true → e'.status = e.status) ∧
    ∀ (j : ℕ) (foreground : Bool) (reason : ForegroundTaskReleaseReason),
      e.waiters[j]? = some ⟨foreground, some reason⟩ →
        e'.waiters[j]? = some ⟨foreground, some reason⟩

theorem SameEntry.refl (e : ManagedTask) : SameEntry e e := ⟨fun _ => rfl, fun _ _ _ hw => hw⟩

theorem SameEntry.of_moves {e' : ManagedTask} (h : e.Moves e') : SameEntry e e' := by
  exact ⟨fun hterminal => h.status.resolve_right (BackgroundTaskStatus.ne_running hterminal),
    h.waiters⟩

/-- **What one event changes.** -/
structure Changes (s t : TaskLife) : Prop where
  process : t.process = s.process ∧ t.replayed = s.replayed ∨
    t.process = s.process + 1 ∧ t.replayed = s.marks
  marks : s.marks ⊆ t.marks
  entry : ∀ e' ∈ t.entry, ∃ e ∈ s.entry, SameEntry e e'
  disk : ∀ r ∈ s.disk, r.status.isTerminal = true → ∃ r' ∈ t.disk, r'.status = r.status
  /-- A later process changes the record of a running task only, to a lost one. -/
  late : 1 ≤ s.process → ∀ r' ∈ t.disk, ∃ r ∈ s.disk,
    r'.status = r.status ∨ r.status = .running ∧ r'.status = .lost
  issued : ∀ x ∈ t.issued, x ∈ s.issued ∨ x.1 = t.process

theorem Changes.of_eq (hprocess : t.process = s.process) (hreplayed : t.replayed = s.replayed)
    (hmarks : s.marks ⊆ t.marks) (hentry : ∀ e' ∈ t.entry, ∃ e ∈ s.entry, SameEntry e e')
    (hdisk : t.disk = s.disk) (hissued : t.issued = s.issued) : s.Changes t where
  process := Or.inl ⟨hprocess, hreplayed⟩
  marks := hmarks
  entry := hentry
  disk := fun r hr _ => ⟨r, hdisk ▸ hr, rfl⟩
  late := fun _ r hr => ⟨r, hdisk ▸ hr, Or.inl rfl⟩
  issued := fun _ hx => Or.inl (hissued ▸ hx)

theorem Changes.write (h : s.Kept) (ht : s.write ok = some t) : s.Changes t := by
  obtain ⟨e, he, ht⟩ := bind_eq_some_iff.1 ht
  obtain ⟨r, hr, rfl⟩ := map_eq_some_iff.1 ht
  obtain ⟨rest, hqueue⟩ := head?_eq_some_iff.1 hr
  have hmem : r ∈ e.persistWriteQueue := by rw [hqueue]; exact (.head _)
  exact {
    process := Or.inl ⟨rfl, rfl⟩
    marks := List.Subset.refl _
    entry := fun e' he' => by
      cases he'
      exact ⟨e, he, fun _ => rfl, fun _ _ _ hw => hw⟩
    disk := by
      intro r₀ hr₀ hterminal
      split
      · exact ⟨r, rfl, h.same_status he hmem hr₀ hterminal⟩
      · exact ⟨r₀, hr₀, rfl⟩
    late := fun hlate => by
      rw [(h.first e he).1] at hlate
      cases hlate
    issued := fun x hx => Or.inl hx }

theorem Changes.markWritten (h : s.Kept) (ht : s.markWritten ok = some t) : s.Changes t := by
  obtain ⟨g, hg, ht⟩ := bind_eq_some_iff.1 ht
  obtain ⟨hphase, ht⟩ := ite_none_right_eq_some.1 ht
  cases ht
  obtain ⟨hlost, r, hr, hrunning⟩ := h.marking hg hphase
  exact {
    process := Or.inl ⟨rfl, rfl⟩
    marks := List.Subset.refl _
    entry := fun e he => ⟨e, he, .refl e⟩
    disk := by
      intro r₀ hr₀ hterminal
      cases hr.symm.trans hr₀
      exact absurd hrunning (BackgroundTaskStatus.ne_running hterminal)
    late := by
      intro _ r' hr'
      split at hr'
      · cases hr'
        exact ⟨r, hr, Or.inr ⟨hrunning, hlost⟩⟩
      · exact ⟨r', hr', Or.inl rfl⟩
    issued := fun x hx => Or.inl hx }

theorem Changes.step {event : TaskEvent} (h : s.Kept) (ht : s.step event = some t) :
    s.Changes t := by
  cases event with
  | entry event =>
    obtain ⟨e, he, ht⟩ := bind_eq_some_iff.1 ht
    obtain ⟨e', he', rfl⟩ := map_eq_some_iff.1 ht
    refine .of_eq rfl rfl (List.Subset.refl _) (fun e₁ he₁ => ?_) rfl rfl
    cases he₁
    exact ⟨e, he, .of_moves ((h.entry e he).step he').2⟩
  | write ok => exact .write h ht
  | notify ok =>
    obtain ⟨e, he, ht⟩ := bind_eq_some_iff.1 ht
    obtain ⟨hstage, ht⟩ := ite_none_right_eq_some.1 ht
    cases ht
    have hmoves := ((h.entry e he).notified hstage ok).2
    refine ⟨Or.inl ⟨rfl, rfl⟩, List.Subset.refl _, fun e' he' => ?_, fun r hr _ => ⟨r, hr, rfl⟩,
      fun _ r hr => ⟨r, hr, Or.inl rfl⟩, fun x hx => ?_⟩
    · cases he'
      exact ⟨e, he, .of_moves hmoves⟩
    · dsimp only at hx
      split at hx
      · rcases mem_append.1 hx with hx | hx
        · exact Or.inl hx
        · rw [mem_singleton.1 hx]
          exact Or.inr (h.first e he).1.symm
      · exact Or.inl hx
  | load =>
    obtain ⟨-, ht⟩ := ite_none_right_eq_some.1 ht
    cases ht
    exact .of_eq rfl rfl (List.Subset.refl _) (fun e he => ⟨e, he, .refl e⟩) rfl rfl
  | markLost | restore =>
    obtain ⟨g, hg, ht⟩ := bind_eq_some_iff.1 ht
    obtain ⟨-, ht⟩ := ite_none_right_eq_some.1 ht
    cases ht
    exact .of_eq rfl rfl (List.Subset.refl _) (fun e he => ⟨e, he, .refl e⟩) rfl rfl
  | markWritten ok => exact .markWritten h ht
  | renotify ok =>
    obtain ⟨g, hg, ht⟩ := bind_eq_some_iff.1 ht
    obtain ⟨-, ht⟩ := ite_none_right_eq_some.1 ht
    cases ht
    refine ⟨Or.inl ⟨rfl, rfl⟩, List.Subset.refl _, fun e he => ⟨e, he, .refl e⟩,
      fun r hr _ => ⟨r, hr, rfl⟩, fun _ r hr => ⟨r, hr, Or.inl rfl⟩, fun x hx => ?_⟩
    split at hx
    · rcases mem_append.1 hx with hx | hx
      · exact Or.inl hx
      · rw [mem_singleton.1 hx]
        exact Or.inr rfl
    · exact Or.inl hx
  | deliver process status =>
    obtain ⟨-, ht⟩ := ite_none_right_eq_some.1 ht
    cases ht
    refine .of_eq rfl rfl (List.Subset.refl _) (fun e' he' => ?_) rfl rfl
    split at he'
    · obtain ⟨e, he, rfl⟩ := map_eq_some_iff.1 he'
      exact ⟨e, he, fun _ => rfl, fun _ _ _ hw => hw⟩
    · exact ⟨e', he', .refl e'⟩
  | flush =>
    obtain ⟨status, -, rfl⟩ := map_eq_some_iff.1 ht
    exact .of_eq rfl rfl (subset_append_left _ _) (fun e he => ⟨e, he, .refl e⟩) rfl rfl

theorem Changes.restart (s : TaskLife) : s.Changes s.restart where
  process := Or.inr ⟨rfl, rfl⟩
  marks := List.Subset.refl _
  entry := fun e he => by cases he
  disk := fun r hr _ => ⟨r, hr, rfl⟩
  late := fun _ r hr => ⟨r, hr, Or.inl rfl⟩
  issued := fun x hx => Or.inl hx

theorem Changes.reload (h : s.Over) : s.Changes s.reload := by
  rw [reload_eq h]
  exact { Changes.restart s with }

/-- **What stays of a task.** -/
structure Later (s t : TaskLife) : Prop where
  process : s.process = t.process ∨ s.process < t.process ∧ s.marks ⊆ t.replayed
  marks : s.marks ⊆ t.marks
  entry : ∀ e' ∈ t.entry, ∃ e ∈ s.entry, SameEntry e e'
  disk : ∀ r ∈ s.disk, r.status.isTerminal = true → ∃ r' ∈ t.disk, r'.status = r.status
  late : 1 ≤ s.process → ∀ r' ∈ t.disk, ∃ r ∈ s.disk,
    r'.status = r.status ∨ r.status = .running ∧ r'.status = .lost
  issued : ∀ x ∈ t.issued, s.process < x.1 → x.2 ∉ s.marks

theorem Later.refl (h : s.Kept) : s.Later s where
  process := Or.inl rfl
  marks := List.Subset.refl _
  entry := fun e he => ⟨e, he, .refl e⟩
  disk := fun r hr _ => ⟨r, hr, rfl⟩
  late := fun _ r hr => ⟨r, hr, Or.inl rfl⟩
  issued := fun x hx hlt => absurd (h.earlier x hx).1 (Nat.not_le.2 hlt)

theorem Later.changes {u : TaskLife} (h : s.Later t) (hu : u.Kept) (hchanges : t.Changes u) :
    s.Later u where
  process := by
    rcases hchanges.process with ⟨hprocess, hreplayed⟩ | ⟨hprocess, hreplayed⟩
    · rcases h.process with heq | ⟨hlt, hmarks⟩
      · exact Or.inl (heq.trans hprocess.symm)
      · exact Or.inr ⟨hprocess ▸ hlt, hreplayed ▸ hmarks⟩
    · refine Or.inr ⟨?_, hreplayed ▸ h.marks⟩
      rcases h.process with heq | ⟨hlt, -⟩ <;> omega
  marks := List.Subset.trans h.marks hchanges.marks
  entry := by
    intro e'' he''
    obtain ⟨e', he', hstatus', hwaiters'⟩ := hchanges.entry e'' he''
    obtain ⟨e, he, hstatus, hwaiters⟩ := h.entry e' he'
    refine ⟨e, he, fun hterminal => ?_, fun j f r hw => hwaiters' j f r (hwaiters j f r hw)⟩
    have hsame := hstatus hterminal
    exact (hstatus' (hsame ▸ hterminal)).trans hsame
  disk := by
    intro r hr hterminal
    obtain ⟨r', hr', hsame⟩ := h.disk r hr hterminal
    obtain ⟨r'', hr'', hsame'⟩ := hchanges.disk r' hr' (hsame ▸ hterminal)
    exact ⟨r'', hr'', hsame'.trans hsame⟩
  late := by
    intro hlate r'' hr''
    have hlate' : 1 ≤ t.process := by
      rcases h.process with heq | ⟨hlt, -⟩ <;> omega
    obtain ⟨r', hr', hcases'⟩ := hchanges.late hlate' r'' hr''
    obtain ⟨r, hr, hcases⟩ := h.late hlate r' hr'
    refine ⟨r, hr, ?_⟩
    rcases hcases' with hsame' | ⟨hrunning', hlost'⟩
    · rw [hsame']
      exact hcases
    · rcases hcases with hsame | ⟨-, hlost⟩
      · exact Or.inr ⟨hsame ▸ hrunning', hlost'⟩
      · rw [hlost] at hrunning'
        cases hrunning'
  issued := by
    intro x hx hlt
    rcases hchanges.issued x hx with hold | hnew
    · exact h.issued x hold hlt
    · -- the log was replayed after the marks had come into it
      have hmarks : s.marks ⊆ u.replayed := by
        rcases hchanges.process with ⟨hprocess, hreplayed⟩ | ⟨hprocess, hreplayed⟩
        · rcases h.process with heq | ⟨-, hmarks⟩
          · omega
          · exact hreplayed ▸ hmarks
        · exact hreplayed ▸ h.marks
      exact fun hmem => hu.unmarked x.2 (hmarks hmem) (hnew ▸ hx)

end TaskLife

/-! ### Waiters are released -/

/-- What the manager does by itself. -/
def TaskEvent.isInternal : TaskEvent → Bool
  | .entry (.race _) | .entry .grace | .entry .graceOver | .entry .forceStopped | .entry .finalize
  | .entry .persisted | .entry .effects | .entry .release | .entry (.wake _) => true
  | .write _ | .notify _ => true
  | _ => false

namespace TaskLife

/-- The manager comes to release the waiter by itself. -/
def Releases (s : TaskLife) (j : ℕ) : Prop :=
  ∃ (l : List TaskEvent) (t : TaskLife), (∀ x ∈ l, x.isInternal = true) ∧
    exec step s l = some t ∧
    ∃ e ∈ t.entry, ∃ reason, e.waiters[j]? = some ⟨true, some reason⟩

variable {s t : TaskLife} {j : ℕ} {e : ManagedTask}

theorem Releases.step {x : TaskEvent} (h : t.Releases j) (hx : x.isInternal = true)
    (ht : s.step x = some t) : s.Releases j := by
  obtain ⟨l, u, hl, hu, hreleased⟩ := h
  refine ⟨x :: l, u, fun y hy => ?_, ?_, hreleased⟩
  · rcases mem_cons.1 hy with rfl | hy
    · exact hx
    · exact hl y hy
  · rw [exec, ht]
    exact hu

theorem entry_step (he : s.entry = some e) {x : EntryEvent} {e' : ManagedTask}
    (hx : e.step x = some e') : s.step (.entry x) = some { s with entry := some e' } := by
  simp [TaskLife.step, he, hx]

section

variable (he : s.entry = some e) (hw : e.waiters[j]? = some ⟨true, none⟩)

include he hw

theorem releases_of_reason {reason : ForegroundTaskReleaseReason}
    (hreason : e.releaseReason = some reason) : s.Releases j := by
  have hlt := (List.getElem?_eq_some_iff.1 hw).1
  have hwake : e.step (.wake j) =
      some { e with waiters := e.waiters.set j ⟨true, some reason⟩ } := by
    simp [ManagedTask.step, hw, hreason]
  refine ⟨[.entry (.wake j)],
    { s with entry := some { e with waiters := e.waiters.set j ⟨true, some reason⟩ } },
    by simp [TaskEvent.isInternal], ?_, _, rfl, reason, ?_⟩
  · simp [exec, entry_step he hwake]
  · simp [hlt]

theorem releases_of_releasing (hstage : e.stage = .releasing) : s.Releases j := by
  have hstep : e.step .release = some { e with
      stage := .finished
      released := if e.detached then e.released else e.released.or (some .terminal)
      terminal := true } := by
    simp [ManagedTask.step, hstage]
  refine Releases.step ?_ rfl (entry_step he hstep)
  obtain ⟨reason, hreason⟩ : ∃ reason, ManagedTask.releaseReason { e with
      stage := .finished
      released := if e.detached then e.released else e.released.or (some .terminal)
      terminal := true } = some reason := by
    refine ne_none_iff_exists'.1 ?_
    simp [ManagedTask.releaseReason]
  exact releases_of_reason rfl hw hreason

theorem releases_of_notifying (hstage : e.stage = .notifying) : s.Releases j := by
  have hstep : s.step (.notify true) = some { s with
      entry := some (e.notified true)
      issued := if e.notifies true then s.issued ++ [(0, e.status)] else s.issued } := by
    simp [TaskLife.step, TaskLife.notify, he, hstage]
  refine Releases.step ?_ rfl hstep
  exact releases_of_releasing rfl hw rfl

theorem releases_of_effects (hstage : e.stage = .effects) : s.Releases j := by
  have hstep : e.step .effects = some e.fireTerminalEffects := by
    simp [ManagedTask.step, hstage]
  refine Releases.step ?_ rfl (entry_step he hstep)
  have hnext : e.fireTerminalEffects.waiters = e.waiters ∧
      (e.fireTerminalEffects.stage = .notifying ∨ e.fireTerminalEffects.stage = .releasing) := by
    unfold ManagedTask.fireTerminalEffects
    split
    · exact ⟨rfl, Or.inl rfl⟩
    · exact ⟨rfl, Or.inr rfl⟩
  rcases hnext.2 with hnotifying | hreleasing
  · exact releases_of_notifying rfl (hnext.1 ▸ hw) hnotifying
  · exact releases_of_releasing rfl (hnext.1 ▸ hw) hreleasing

end

theorem releases_of_persisting {n : ℕ} (h : s.Kept) (he : s.entry = some e)
    (hw : e.waiters[j]? = some ⟨true, none⟩) (hstage : e.stage = .persisting n) :
    s.Releases j := by
  induction n generalizing s e with
  | zero =>
    have hstep : e.step .persisted = some { e with stage := .effects } := by
      simp [ManagedTask.step, hstage]
    refine Releases.step ?_ rfl (entry_step he hstep)
    exact releases_of_effects rfl hw rfl
  | succ n ih =>
    obtain ⟨r, hr, -⟩ := (h.entry e he).lastWrite n hstage
    obtain ⟨info, hinfo⟩ : ∃ info, e.persistWriteQueue.head? = some info := by
      cases hqueue : e.persistWriteQueue with
      | nil => simp [hqueue] at hr
      | cons info rest => exact ⟨info, rfl⟩
    have hstep : s.step (.write true) = some { s with
        entry := some e.written, disk := some info, failed := s.failed || !true } := by
      simp [TaskLife.step, TaskLife.write, he, hinfo]
    refine Releases.step ?_ rfl hstep
    refine ih (h.step hstep) rfl hw ?_
    simp [ManagedTask.written, hstage]

theorem releases_of_settling (h : s.Kept) (he : s.entry = some e)
    (hw : e.waiters[j]? = some ⟨true, none⟩) {settlement : BackgroundTaskSettlement}
    (hstage : e.stage = .settling settlement) : s.Releases j := by
  have hstep : e.step .finalize = some (e.finalize settlement) := by
    simp [ManagedTask.step, hstage]
  refine Releases.step ?_ rfl (entry_step he hstep)
  have hkept := h.step (entry_step he hstep)
  have hnext : (e.finalize settlement).waiters = e.waiters ∧
      ((∃ n, (e.finalize settlement).stage = .persisting n) ∨
        (e.finalize settlement).stage = .effects) := by
    unfold ManagedTask.finalize
    dsimp only
    split
    · exact ⟨rfl, Or.inl ⟨_, rfl⟩⟩
    · exact ⟨rfl, Or.inr rfl⟩
  rcases hnext.2 with ⟨n, hpersisting⟩ | heffects
  · exact releases_of_persisting hkept rfl (hnext.1 ▸ hw) hpersisting
  · exact releases_of_effects rfl (hnext.1 ▸ hw) heffects

variable {outcome : TerminalOutcome}

variable (h : s.Kept) (he : s.entry = some e) (hw : e.waiters[j]? = some ⟨true, none⟩)

include h he hw

theorem releases_of_forceStopping (hstage : e.stage = .forceStopping outcome) : s.Releases j := by
  have hstep : e.step .forceStopped = some { e with stage := .settling outcome.settlement } := by
    simp [ManagedTask.step, hstage]
  refine Releases.step ?_ rfl (entry_step he hstep)
  exact releases_of_settling (h.step (entry_step he hstep)) rfl hw rfl

theorem releases_of_grace (hstage : e.stage = .grace outcome) : s.Releases j := by
  have hstep : e.step .graceOver = some { e with stage := .forceStopping outcome } := by
    cases outcome <;> simp [ManagedTask.step, hstage, TerminalOutcome.afterAbort]
  refine Releases.step ?_ rfl (entry_step he hstep)
  exact releases_of_forceStopping (h.step (entry_step he hstep)) rfl hw rfl

theorem releases_of_outcome (hstage : e.stage = .racing) (houtcome : e.hasOutcome outcome = true) :
    s.Releases j := by
  cases outcome with
  | worker settlement =>
    have hstep : e.step (.race (.worker settlement)) =
        some { e with stage := .settling settlement } := by
      simp [ManagedTask.step, hstage, houtcome]
    refine Releases.step ?_ rfl (entry_step he hstep)
    exact releases_of_settling (h.step (entry_step he hstep)) rfl hw rfl
  | timeout =>
    have hstep : e.step (.race .timeout) =
        some { e with stopReason := none, stage := .grace .timeout } := by
      simp [ManagedTask.step, hstage, houtcome, TerminalOutcome.stopReason]
    refine Releases.step ?_ rfl (entry_step he hstep)
    exact releases_of_grace (h.step (entry_step he hstep)) rfl hw rfl
  | stop reason =>
    have hstep : e.step (.race (.stop reason)) =
        some { e with stopReason := reason, stage := .grace (.stop reason) } := by
      simp [ManagedTask.step, hstage, houtcome, TerminalOutcome.stopReason]
    refine Releases.step ?_ rfl (entry_step he hstep)
    exact releases_of_grace (h.step (entry_step he hstep)) rfl hw rfl

/-- **A waiter is released** once the task is detached, or has an outcome. -/
theorem releases
    (hready : e.detached = true ∨ e.stage ≠ .racing ∨ ∃ outcome, e.hasOutcome outcome = true) :
    s.Releases j := by
  have hkept := h.entry e he
  by_cases hdetached : e.detached = true
  · have hreleased : e.released = some .detached := hkept.waiters _ (mem_of_getElem? hw) hdetached
    have hreason : e.releaseReason = some .detached := by
      simp [releaseReason, hreleased]
    exact releases_of_reason he hw hreason
  · cases hstage : e.stage with
    | racing =>
      obtain ⟨outcome, houtcome⟩ := (hready.resolve_left hdetached).resolve_left (by simp [hstage])
      exact releases_of_outcome h he hw hstage houtcome
    | grace outcome => exact releases_of_grace h he hw hstage
    | forceStopping outcome => exact releases_of_forceStopping h he hw hstage
    | settling settlement => exact releases_of_settling h he hw hstage
    | persisting n => exact releases_of_persisting h he hw hstage
    | effects => exact releases_of_effects he hw hstage
    | notifying => exact releases_of_notifying he hw hstage
    | releasing => exact releases_of_releasing he hw hstage
    | finished =>
      have hterminal := hkept.terminal.2 hstage
      obtain ⟨reason, hreason⟩ : ∃ reason, e.releaseReason = some reason := by
        refine ne_none_iff_exists'.1 ?_
        simp [releaseReason, hterminal]
      exact releases_of_reason he hw hreason

end TaskLife

/-! ### All tasks -/

namespace BackgroundManagers

variable {s t : BackgroundManagers}

/-- **Every event keeps every task.** -/
theorem kept_step {event : ManagerEvent} (h : ∀ life ∈ s.lives, life.Kept)
    (hok : s.Quiescent event) (ht : s.step event = some t) : ∀ life ∈ t.lives, life.Kept := by
  cases event with
  | register taskId kind description options =>
    dsimp only [BackgroundManagers.step] at ht
    split at ht
    case isTrue => cases ht
    case isFalse =>
      cases ht
      intro life hlife
      rcases mem_append.1 hlife with hlife | hlife
      · exact h life hlife
      · exact mem_singleton.1 hlife ▸ TaskLife.kept_register _ _ _ _
  | task i event =>
    obtain ⟨life, hlife, ht⟩ := bind_eq_some_iff.1 ht
    obtain ⟨life', hlife', rfl⟩ := map_eq_some_iff.1 ht
    intro x hx
    rcases mem_or_eq_of_mem_set hx with hx | rfl
    · exact h x hx
    · exact (h life (mem_of_getElem? hlife)).step hlife'
  | restart =>
    cases ht
    intro life hlife
    obtain ⟨life₀, hlife₀, rfl⟩ := mem_map.1 hlife
    exact (h life₀ hlife₀).restart
  | reload =>
    cases ht
    intro life hlife
    obtain ⟨life₀, hlife₀, rfl⟩ := mem_map.1 hlife
    exact (h life₀ hlife₀).reload (hok life₀ hlife₀)

theorem step_life {event : ManagerEvent} (h : ∀ life ∈ s.lives, life.Kept)
    (hok : s.Quiescent event) (ht : s.step event = some t) {i : ℕ} {a : TaskLife}
    (ha : s.lives[i]? = some a) : ∃ b, t.lives[i]? = some b ∧ (b = a ∨ a.Changes b) := by
  have hkept := h a (List.mem_of_getElem? ha)
  cases event with
  | register taskId kind description options =>
    dsimp only [BackgroundManagers.step] at ht
    split at ht
    case isTrue => cases ht
    case isFalse =>
      cases ht
      have hlt := (List.getElem?_eq_some_iff.1 ha).1
      exact ⟨a, (List.getElem?_append_left hlt).trans ha, Or.inl rfl⟩
  | task j event =>
    obtain ⟨life, hlife, ht⟩ := bind_eq_some_iff.1 ht
    obtain ⟨life', hlife', rfl⟩ := map_eq_some_iff.1 ht
    by_cases hij : j = i
    · subst hij
      cases hlife.symm.trans ha
      refine ⟨life', ?_, Or.inr (.step hkept hlife')⟩
      simp [(List.getElem?_eq_some_iff.1 ha).1]
    · refine ⟨a, ?_, Or.inl rfl⟩
      simpa [List.getElem?_set_ne hij] using ha
  | restart =>
    cases ht
    exact ⟨a.restart, by simp [ha], Or.inr (.restart a)⟩
  | reload =>
    cases ht
    exact ⟨a.reload, by simp [ha], Or.inr (.reload (hok a (List.mem_of_getElem? ha)))⟩

theorem run_kept {l : List ManagerEvent} (h : LibRun.Run step Quiescent {} l s) :
    ∀ life ∈ s.lives, life.Kept :=
  h.invariant (by simp) fun _ _ _ hs hok hstep => kept_step hs hok hstep

theorem run_later {l : List ManagerEvent} (hs : ∀ life ∈ s.lives, life.Kept)
    (h : LibRun.Run step Quiescent s l t) {i : ℕ} {a : TaskLife} (ha : s.lives[i]? = some a) :
    ∃ b, t.lives[i]? = some b ∧ a.Later b := by
  have hboth : (∀ life ∈ t.lives, life.Kept) ∧ ∃ b, t.lives[i]? = some b ∧ a.Later b := by
    refine h.invariant (I := fun u => (∀ life ∈ u.lives, life.Kept) ∧
      ∃ b, u.lives[i]? = some b ∧ a.Later b) ⟨hs, a, ha, .refl (hs a (mem_of_getElem? ha))⟩ ?_
    rintro u event v ⟨hu, b, hb, hlater⟩ hok hstep
    have hv := kept_step hu hok hstep
    obtain ⟨c, hc, rfl | hchanges⟩ := step_life hu hok hstep hb
    · exact ⟨hv, c, hc, hlater⟩
    · exact ⟨hv, c, hc, hlater.changes (hv c (mem_of_getElem? hc)) hchanges⟩
  exact hboth.2

end BackgroundManagers

/-! ### The end of a task -/

namespace TaskLife

/-- **One status.** The process that runs the task sets one, and a record of the end keeps its
status; a later process has the status of the record, or `lost` when there is no record of the end,
and all of them have the same one. -/
structure SettlesOnce (a b : TaskLife) : Prop where
  entry : ∀ e ∈ a.entry, e.status.isTerminal = true → ∀ e' ∈ b.entry, e'.status = e.status
  disk : ∀ r ∈ a.disk, r.status.isTerminal = true → ∃ r' ∈ b.disk, r'.status = r.status
  recorded : ∀ e ∈ b.entry, ∀ r ∈ b.disk, r.status.isTerminal = true → r.status = e.status
  found : ∀ g ∈ b.ghost, g.info.status.isTerminal = true → ∃ r ∈ b.disk,
    r.status = g.info.status ∨ r.status = .running ∧ g.info.status = .lost
  ghosts : ∀ g ∈ a.ghost, g.info.status.isTerminal = true → ∀ g' ∈ b.ghost,
    g'.info.status.isTerminal = true → g'.info.status = g.info.status

/-- **One notification.** A process sends at most one; a process that begins after the mark of one
has been persisted does not send it again; and if no write of a record failed they are all about the
same status. -/
structure ToldOnce (a b : TaskLife) : Prop where
  process : (b.issued.map Prod.fst).Nodup
  marked : ∀ x ∈ b.issued, a.process < x.1 → x.2 ∉ a.marks
  status : b.failed = false → ∀ x ∈ b.issued, ∀ y ∈ b.issued, x.2 = y.2

/-- **One release.** What a waiter was released with stays: `detached` when the task was detached,
and else `terminal` when it has ended; and a waiter of a task that is detached or has an outcome
comes to be released. -/
structure ReleasedOnce (a b : TaskLife) : Prop where
  stays : ∀ e ∈ a.entry, ∀ e' ∈ b.entry, ∀ (j : ℕ) (foreground : Bool)
    (reason : ForegroundTaskReleaseReason),
    e.waiters[j]? = some ⟨foreground, some reason⟩ →
      e'.waiters[j]? = some ⟨foreground, some reason⟩
  reason : ∀ e ∈ b.entry, ∀ (foreground : Bool) (reason : ForegroundTaskReleaseReason),
    ⟨foreground, some reason⟩ ∈ e.waiters → match reason with
      | .detached => e.detached = true
      | .terminal => e.status.isTerminal = true ∧ (foreground = true → e.detached = false)
  released : ∀ e ∈ b.entry, ∀ j : ℕ, e.waiters[j]? = some ⟨true, none⟩ →
    (e.detached = true ∨ e.stage ≠ .racing ∨ ∃ outcome, e.hasOutcome outcome = true) →
      b.Releases j

/-- A later process has the status of the record, or `lost`. -/
theorem Kept.found {s : TaskLife} (h : s.Kept) {g : GhostTask} (hg : s.ghost = some g) :
    ∃ r ∈ s.disk, r.status = g.info.status ∨ r.status = .running ∧ g.info.status = .lost := by
  have hkept := h.ghost g hg
  unfold GhostTask.Kept at hkept
  split at hkept
  case h_1 => exact ⟨g.info, hkept, Or.inl rfl⟩
  case h_2 =>
    obtain ⟨hlost, r, hr, hrunning⟩ := hkept
    exact ⟨r, hr, Or.inr ⟨hrunning, hlost⟩⟩
  case h_6 =>
    obtain ⟨-, hdisk | ⟨hlost, r, hr, hrunning⟩⟩ := hkept
    · exact ⟨g.info, hdisk, Or.inl rfl⟩
    · exact ⟨r, hr, Or.inr ⟨hrunning, hlost⟩⟩
  all_goals exact ⟨g.info, hkept.2, Or.inl rfl⟩

variable {a b : TaskLife}

theorem Later.settlesOnce (h : a.Later b) (ha : a.Kept) (hb : b.Kept) : a.SettlesOnce b where
  entry := by
    intro e he hterminal e' he'
    obtain ⟨e₀, he₀, hstatus, -⟩ := h.entry e' he'
    cases he.symm.trans he₀
    exact hstatus hterminal
  disk := h.disk
  recorded := by
    intro e he r hr hterminal
    exact (hb.recorded e he r hr).1.resolve_left (BackgroundTaskStatus.ne_running hterminal)
  found := fun _ hg _ => hb.found hg
  ghosts := by
    intro g hg hterminal g' hg' hterminal'
    obtain ⟨r, hr, hcases⟩ := ha.found hg
    obtain ⟨r', hr', hcases'⟩ := hb.found hg'
    obtain ⟨r₀, hr₀, hchange⟩ := h.late (ha.later g hg).1 r' hr'
    cases hr.symm.trans hr₀
    grind [BackgroundTaskStatus.isTerminal]

theorem Later.toldOnce (h : a.Later b) (hb : b.Kept) : a.ToldOnce b where
  process := hb.nodup
  marked := h.issued
  status := by
    intro hfailed x hx y hy
    obtain ⟨r, hr, hstatus⟩ := hb.told hfailed x hx
    obtain ⟨r', hr', hstatus'⟩ := hb.told hfailed y hy
    cases hr.symm.trans hr'
    exact hstatus.symm.trans hstatus'

theorem Later.releasedOnce (h : a.Later b) (hb : b.Kept) : a.ReleasedOnce b where
  stays := by
    intro e he e' he' j foreground reason hw
    obtain ⟨e₀, he₀, -, hwaiters⟩ := h.entry e' he'
    cases he.symm.trans he₀
    exact hwaiters j foreground reason hw
  reason := by
    intro e he foreground reason hw
    have hright := (hb.entry e he).waiters _ hw
    cases reason with
    | detached | terminal => exact hright
  released := fun e he j hw hready => releases hb he hw hready

end TaskLife

namespace BackgroundManagers

/-- **A task ends once**, in every run in which a session is reloaded only when its manager has
nothing left to do: from any state of the run to any later one it settles once, is told of once, and
releases who waits once. -/
theorem run_settles {l l' : List ManagerEvent} {s t : BackgroundManagers}
    (h : LibRun.Run step Quiescent {} l s) (h' : LibRun.Run step Quiescent s l' t) {i : ℕ}
    {a b : TaskLife} (ha : s.lives[i]? = some a) (hb : t.lives[i]? = some b) :
    a.SettlesOnce b ∧ a.ToldOnce b ∧ a.ReleasedOnce b := by
  have hs := run_kept h
  obtain ⟨b', hb', hlater⟩ := run_later hs h' ha
  obtain rfl := some.inj (hb'.symm.trans hb)
  have hkept : b'.Kept := by
    have ht := h'.invariant hs fun _ _ _ hu hok hstep => kept_step hu hok hstep
    exact ht b' (List.mem_of_getElem? hb)
  exact ⟨hlater.settlesOnce (hs a (List.mem_of_getElem? ha)) hkept, hlater.toldOnce hkept,
    hlater.releasedOnce hkept⟩

/-- A task in the foreground is detached and completes; the next process finds it completed, and
told of. -/
theorem run_settles_example :
    ∃ s t, LibRun.Run step Quiescent {}
        [.register "bash-0" .process "" { detached := false }, .task 0 (.entry .wait),
          .task 0 (.entry .detach), .task 0 (.entry (.wake 0)), .task 0 (.write true),
          .task 0 (.entry (.settle ⟨.completed, none⟩)),
          .task 0 (.entry (.race (.worker ⟨.completed, none⟩))), .task 0 (.entry .finalize),
          .task 0 (.write true), .task 0 (.entry .persisted), .task 0 (.entry .effects),
          .task 0 (.notify true), .task 0 (.entry .release), .task 0 (.deliver 0 .completed),
          .task 0 .flush] s ∧
      LibRun.Run step Quiescent s [.restart, .task 0 .load, .task 0 .markLost, .task 0 .restore] t ∧
      ∃ a b, s.lives[0]? = some a ∧ t.lives[0]? = some b ∧ b.issued = [(0, .completed)] ∧
        a.SettlesOnce b ∧ a.ToldOnce b ∧ a.ReleasedOnce b := by
  have hrun : ∃ s, LibRun.Run step Quiescent {}
        [.register "bash-0" .process "" { detached := false }, .task 0 (.entry .wait),
          .task 0 (.entry .detach), .task 0 (.entry (.wake 0)), .task 0 (.write true),
          .task 0 (.entry (.settle ⟨.completed, none⟩)),
          .task 0 (.entry (.race (.worker ⟨.completed, none⟩))), .task 0 (.entry .finalize),
          .task 0 (.write true), .task 0 (.entry .persisted), .task 0 (.entry .effects),
          .task 0 (.notify true), .task 0 (.entry .release), .task 0 (.deliver 0 .completed),
          .task 0 .flush] s ∧
      (s.lives[0]?.isSome = true ∧ LibRun.Legal step Quiescent s
          [.restart, .task 0 .load, .task 0 .markLost, .task 0 .restore] ∧
        ((exec step s [.restart, .task 0 .load, .task 0 .markLost, .task 0 .restore]).any
          fun t => t.lives[0]?.any fun b => b.issued = [(0, .completed)]) = true) :=
    exists_run (by decide +kernel) (by decide +kernel)
  obtain ⟨s, hs, hlife, hlegal, hexec⟩ := hrun
  obtain ⟨t, ht, hany⟩ := (any_eq_true _ _).1 hexec
  obtain ⟨b, hb, hissued⟩ := (any_eq_true _ _).1 hany
  obtain ⟨a, ha⟩ := isSome_iff_exists.1 hlife
  have hrun' := run_of_exec ht hlegal
  exact ⟨s, t, hs, hrun', a, b, ha, hb, of_decide_eq_true hissued, run_settles hs hrun' ha hb⟩

/-- The process dies before the record of a completed task is written: the next one finds it lost. A
record that cannot be written is told of twice. A session is reloaded while its task runs: the task
is lost on disk, then completed, and told of twice. -/
theorem settles_twice :
    (∃ s, LibRun.Run step always {}
        [.register "bash-0" .process "" {}, .task 0 (.write true),
          .task 0 (.entry (.settle ⟨.completed, none⟩)),
          .task 0 (.entry (.race (.worker ⟨.completed, none⟩))), .task 0 (.entry .finalize)] s ∧
      (s.lives[0]?.bind fun a => a.entry.map fun e => e.status) = some .completed ∧
      ∃ t, LibRun.Run step always s [.restart, .task 0 .load, .task 0 .markLost] t ∧
        (t.lives[0]?.bind fun b => b.ghost.map fun g => g.info.status) = some .lost) ∧
    (∃ s, LibRun.Run step always {}
        [.register "bash-0" .process "" {}, .task 0 (.write true),
          .task 0 (.entry (.settle ⟨.completed, none⟩)),
          .task 0 (.entry (.race (.worker ⟨.completed, none⟩))), .task 0 (.entry .finalize),
          .task 0 (.write false), .task 0 (.entry .persisted), .task 0 (.entry .effects),
          .task 0 (.notify true), .task 0 (.deliver 0 .completed), .task 0 .flush, .restart,
          .task 0 .load, .task 0 .markLost, .task 0 (.markWritten true), .task 0 .restore,
          .task 0 (.renotify true)] s ∧
      (s.lives[0]?.map fun a => (a.marks, a.issued)) =
        some ([.completed], [(0, .completed), (1, .lost)])) ∧
    ∃ s, LibRun.Run step always {}
        [.register "bash-0" .process "" {}, .task 0 (.write true), .reload, .task 0 .load,
          .task 0 .markLost, .task 0 (.markWritten true), .task 0 .restore,
          .task 0 (.renotify true)] s ∧
      (s.lives[0]?.bind fun a => a.disk.map fun r => r.status) = some .lost ∧
      ∃ t, LibRun.Run step always s
          [.task 0 (.entry (.settle ⟨.completed, none⟩)),
            .task 0 (.entry (.race (.worker ⟨.completed, none⟩))), .task 0 (.entry .finalize),
            .task 0 (.write true), .task 0 (.entry .persisted), .task 0 (.entry .effects),
            .task 0 (.notify true)] t ∧
        (t.lives[0]?.bind fun b => b.disk.map fun r => r.status) = some .completed ∧
        (t.lives[0]?.map fun b => b.issued) = some [(1, .lost), (0, .completed)] := by
  refine ⟨?_, ?_, ?_⟩
  · exact exists_two_runs (by decide +kernel)
  · exact exists_run (by decide +kernel) (legal_always _ _)
  · exact exists_two_runs (by decide +kernel)

end BackgroundManagers

end NoriCode
