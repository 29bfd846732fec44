/-
**Every call of a batch has its result.**

The events of a batch are, at any time, the first ones of this list: a `tool.call` for every call,
in order, and then a `tool.result` for every call, in order.  A batch that returns has dispatched
all of them.  It fails only where a dispatch has thrown, it is never stuck, and its runs are bounded
by the number of its calls.  No call behind the one that stopped the batch is executed.

Main definitions:

* `ToolCallBatch.Scheduling` — what holds of the tasks;
* `ToolCallBatch.Records`, `ToolCallBatch.At` — what has been recorded, and where
  the batch is;
* `ToolCallBatch.progress` — what grows with every step.

Main results:

* `batch_pairs_calls` — **every call has one `tool.call` and then one `tool.result`**.
-/

import NoriCode.ToolCallBatch
import Mathlib.Data.List.Perm.Subperm

namespace NoriCode

open List Option ToolCallBatch

/-! ### What the scheduler starts -/

namespace ToolScheduler

variable {Access : Type} {conflict : Access → Access → Bool}

/-- What is started is active. -/
structure Starts (s u : ToolScheduler Access) (new : List (ScheduledToolCallTask Access)) :
    Prop where
  started : u.started = s.started ++ new
  active : u.activeTasks = s.activeTasks ++ new
  added : u.added = s.added

theorem scan_starts (rescan : ToolScheduler Access → ScheduleResult Access)
    {rest passed : List (ScheduledToolCallTask Access)} {s u : ToolScheduler Access}
    (hreturns : ∀ a ∈ rest, a.startThrows = false)
    (h : scan conflict rescan rest passed s = .ok u) : ∃ new, Starts s u new := by
  induction rest generalizing passed s with
  | nil =>
    cases h
    exact ⟨[], by simp, by simp, rfl⟩
  | cons task rest ih =>
    have hrest : ∀ a ∈ rest, a.startThrows = false :=
      fun a ha => hreturns a (mem_cons_of_mem task ha)
    unfold scan at h
    split_ifs at h
    · exact ih hrest h
    · simp only [start, hreturns task (.head _)] at h
      obtain ⟨new, hnew⟩ := ih hrest h
      refine ⟨task :: new, ?_, ?_, hnew.added⟩
      · rw [hnew.started]
        simp [activate]
      · rw [hnew.active]
        simp [activate]

theorem running_eq_some {s : ToolScheduler Access} {id : ℕ} {task : ScheduledToolCallTask Access}
    (h : s.running id = some task) : task ∈ s.activeTasks ∧ task.id = id := by
  have hfound := find?_some h
  simp only [Bool.and_eq_true, beq_iff_eq] at hfound
  exact ⟨mem_of_find?_eq_some h, hfound.1⟩

namespace Scheduled

variable {s : ToolScheduler Access}

theorem add_starts (hcomm : ∀ a b, conflict a b = conflict b a) (h : Scheduled conflict s)
    (accesses : Access) : ∃ u new,
      ToolScheduler.add conflict 1 s accesses false = .ok u ∧ Scheduled conflict u ∧
        u.started = s.started ++ new ∧ u.activeTasks = s.activeTasks ++ new ∧
        u.added = s.added ++ [s.nextTask accesses false] := by
  have hreturns : WaitsToReturn conflict s (.add accesses false) :=
    fun hthrows => Bool.noConfusion hthrows
  obtain ⟨u, hu, hscheduled⟩ := h.add hcomm 0 hreturns
  refine ⟨u, ?_⟩
  have hadd := hu
  unfold ToolScheduler.add at hadd
  dsimp only at hadd
  split_ifs at hadd
  · cases hadd
    exact ⟨[], hu, hscheduled, by simp, by simp, rfl⟩
  · simp only [start, nextTask] at hadd
    cases hadd
    exact ⟨[s.nextTask accesses false], hu, hscheduled, rfl, rfl, rfl⟩

theorem finish_starts (hcomm : ∀ a b, conflict a b = conflict b a) (h : Scheduled conflict s)
    (task : ScheduledToolCallTask Access) : ∃ u new,
      ToolScheduler.finish conflict 1 s task = .ok u ∧ Scheduled conflict u ∧
        Starts (s.release task) u new := by
  obtain ⟨u, hu, hscheduled⟩ := h.finish hcomm 0 task
  obtain ⟨new, hnew⟩ := scan_starts _ h.returns hu
  exact ⟨u, new, hu, hscheduled, hnew⟩

theorem exists_active (h : Scheduled conflict s) (hqueued : s.queuedTasks ≠ []) :
    ∃ a, a ∈ s.activeTasks := by
  cases hqueue : s.queuedTasks with
  | nil => exact absurd hqueue hqueued
  | cons task rest =>
    have hblocked := h.noneReady [] task rest (by rw [hqueue]; rfl)
    have hany : conflictsWithAny conflict task s.activeTasks = true := by
      simpa [isBlocked, conflictsWithAny] using hblocked
    obtain ⟨a, ha, -⟩ := any_eq_true.1 hany
    exact ⟨a, ha⟩

end Scheduled

end ToolScheduler

namespace ToolCallBatch

variable {Args : Type} {env : BatchEnv Args}

/-! ### The tasks -/

/-- **What holds of the tasks**: the scheduler has one for every call that was recorded, the promise
of a task that is no longer active has settled, and a tool is executed at most once. -/
structure Scheduling (env : BatchEnv Args) (s : ToolCallBatch Args) : Prop where
  scheduled : ToolScheduler.Scheduled (ToolAccesses.conflict env.toLowerCase) s.scheduler
  returns : ∀ a ∈ s.scheduler.added, a.startThrows = false
  count : s.scheduler.added.length = s.tasks.length
  active : s.scheduler.activeTasks.length ≤ s.scheduler.started.length
  once : (s.results.map (·.1)).Nodup
  settled : ∀ p ∈ s.results, p.1 ∈ s.scheduler.started.map (·.id)
  pending : ∀ a ∈ s.scheduler.started,
    a ∈ s.scheduler.activeTasks ∨ (s.result a.id).isSome = true
  executed : s.executed.Sublist (s.scheduler.started.map (·.id))
  runnable : ∀ id ∈ s.executed, s.isRunnable id = true

variable {s : ToolCallBatch Args} {id : ℕ}

theorem result_isSome : (s.result id).isSome = true ↔ id ∈ s.results.map (·.1) := by
  simp [result]

/-- A tool that is executed belongs to a task that has just been started. -/
theorem startTasks_executed {u : ToolScheduler ToolAccesses}
    {new : List (ScheduledToolCallTask ToolAccesses)}
    (hstarted : u.started = s.scheduler.started ++ new)
    (hsub : s.executed.Sublist (s.scheduler.started.map (·.id)))
    (hrun : ∀ id ∈ s.executed, s.isRunnable id = true) :
    (s.startTasks u).executed.Sublist (u.started.map (·.id)) ∧
      ∀ id ∈ (s.startTasks u).executed, s.isRunnable id = true := by
  unfold startTasks
  rw [hstarted, drop_left, map_append]
  split_ifs
  · exact ⟨hsub.trans (sublist_append_left _ _), hrun⟩
  · refine ⟨hsub.append filter_sublist, fun id hid => ?_⟩
    rcases mem_append.1 hid with hid | hid
    · exact hrun id hid
    · exact (List.mem_filter.1 hid).2

theorem isRunnable_append {task : BatchTask Args} (h : s.isRunnable id = true) :
    isRunnable { s with tasks := s.tasks ++ [task] } id = true := by
  unfold isRunnable at h ⊢
  cases htask : s.tasks[id]? with
  | none => simp [htask] at h
  | some known =>
    rw [htask] at h
    rw [List.getElem?_append_left (List.getElem?_eq_some_iff.1 htask).1, htask]
    exact h

theorem isRunnable_of_length_le (h : s.tasks.length ≤ id) : s.isRunnable id = false := by
  unfold isRunnable
  rw [getElem?_eq_none h]

theorem isRunnable_resolved {result : PendingToolResult Args} (id : ℕ) :
    isRunnable { s with tasks := s.tasks ++ [.resolved result] } id = s.isRunnable id := by
  unfold isRunnable
  rcases Nat.lt_or_ge id s.tasks.length with hlt | hge
  · rw [getElem?_append_left hlt]
  · rw [getElem?_append_right hge, getElem?_eq_none hge]
    cases id - s.tasks.length <;> rfl

/-- How much of the work of the tasks has been done. -/
def work (s : ToolCallBatch Args) : ℕ :=
  s.results.length + (s.scheduler.started.length - s.scheduler.activeTasks.length)

namespace Scheduling

variable {s t : ToolCallBatch Args}

variable (h : Scheduling env s)

include h

/-- The ids of the tasks that have been started are those of calls, each once. -/
theorem started_ids :
    (s.scheduler.started.map (·.id)).Nodup ∧
      ∀ id ∈ s.scheduler.started.map (·.id), id < s.tasks.length := by
  have hperm := h.scheduled.keeps.once.map (·.id)
  rw [map_append, h.scheduled.keeps.ids] at hperm
  refine ⟨?_, fun id hid => ?_⟩
  · exact (nodup_append.1 (hperm.nodup_iff.2 nodup_range)).1
  · rw [← h.count]
    exact mem_range.1 (hperm.subset (mem_append_left _ hid))

theorem started_length : s.scheduler.started.length ≤ s.tasks.length := by
  have hlen := h.scheduled.keeps.once.length_eq
  rw [length_append, h.count] at hlen
  omega

theorem results_length : s.results.length ≤ s.tasks.length := by
  have hsub : (s.results.map (·.1)).Subperm (s.scheduler.started.map (·.id)) := by
    refine h.once.subperm fun id hid => ?_
    obtain ⟨p, hp, rfl⟩ := mem_map.1 hid
    exact h.settled p hp
  have hlen := hsub.length_le
  rw [length_map, length_map] at hlen
  exact hlen.trans h.started_length

theorem addTask (accesses : ToolAccesses) (task : BatchTask Args) :
    Scheduling env (s.addTask env accesses task) ∧ (s.addTask env accesses task).work = s.work := by
  obtain ⟨u, new, hadd, hscheduled, hstarted, hactive, hadded⟩ :=
    h.scheduled.add_starts (ToolAccesses.conflict_comm env.toLowerCase) accesses
  obtain ⟨hsub, hrun⟩ := startTasks_executed (s := { s with tasks := s.tasks ++ [task] }) hstarted
    h.executed fun id hid => isRunnable_append (h.runnable id hid)
  unfold ToolCallBatch.addTask
  rw [hadd]
  refine ⟨⟨hscheduled, ?_, ?_, ?_, h.once, ?_, ?_, hsub, hrun⟩, ?_⟩
  · intro a ha
    rw [ScheduleResult.state, startTasks, hadded] at ha
    rcases mem_append.1 ha with ha | ha
    · exact h.returns a ha
    · rw [mem_singleton.1 ha]
      rfl
  · simp [startTasks, ScheduleResult.state, hadded, h.count]
  · simp only [startTasks, ScheduleResult.state, hactive, hstarted, length_append]
    exact Nat.add_le_add_right h.active _
  · intro p hp
    simp only [startTasks, ScheduleResult.state, hstarted, map_append]
    exact mem_append_left _ (h.settled p hp)
  · intro a ha
    simp only [startTasks, ScheduleResult.state, hstarted, hactive] at ha ⊢
    rcases mem_append.1 ha with ha | ha
    · exact (h.pending a ha).imp_left (mem_append_left _)
    · exact Or.inl (mem_append_right _ ha)
  · simp only [work, startTasks, ScheduleResult.state, hstarted, hactive, length_append]
    rw [Nat.add_sub_add_right]

theorem finishTask {id : ℕ} (ht : s.finishTask env id = some t) :
    Scheduling env t ∧ t.work = s.work + 1 := by
  unfold ToolCallBatch.finishTask at ht
  split_ifs at ht with hsettled
  obtain ⟨task, htask, rfl⟩ := map_eq_some_iff.1 ht
  obtain ⟨hmem, hid⟩ := ToolScheduler.running_eq_some htask
  obtain ⟨u, new, hfinish, hscheduled, hstarts⟩ :=
    h.scheduled.finish_starts (ToolAccesses.conflict_comm env.toLowerCase) task
  have hreleased : (s.scheduler.activeTasks.eraseP (·.id == task.id)).length + 1 =
      s.scheduler.activeTasks.length := by
    rw [length_eraseP_of_mem hmem (by simp)]
    have hpos := length_pos_of_mem hmem
    omega
  have hstarted : u.started = s.scheduler.started ++ new := hstarts.started
  have hactive := hstarts.active
  rw [ToolScheduler.release] at hactive
  obtain ⟨hsub, hrun⟩ := startTasks_executed (s := s) hstarted h.executed h.runnable
  rw [hfinish]
  refine ⟨⟨hscheduled, ?_, ?_, ?_, h.once, ?_, ?_, hsub, hrun⟩, ?_⟩
  · intro a ha
    rw [ScheduleResult.state, startTasks, hstarts.added] at ha
    exact h.returns a ha
  · rw [ScheduleResult.state, startTasks, hstarts.added]
    exact h.count
  · simp only [startTasks, ScheduleResult.state, hactive, hstarted, length_append]
    have hle := h.active
    omega
  · intro p hp
    simp only [startTasks, ScheduleResult.state, hstarted, map_append]
    exact mem_append_left _ (h.settled p hp)
  · intro a ha
    simp only [startTasks, ScheduleResult.state, hstarted, hactive] at ha ⊢
    rcases mem_append.1 ha with ha | ha
    · rcases h.pending a ha with hrunning | hdone
      · by_cases ha_id : a.id = task.id
        · refine Or.inr ?_
          change (s.result a.id).isSome = true
          rw [ha_id, hid]
          exact ne_none_iff_isSome.1 (by simpa using hsettled)
        · refine Or.inl (mem_append_left _ ?_)
          exact (mem_eraseP_of_neg (by simpa using ha_id)).2 hrunning
      · exact Or.inr hdone
    · exact Or.inl (mem_append_right _ ha)
  · simp only [work, startTasks, ScheduleResult.state, hactive, hstarted, length_append]
    have hle := h.active
    omega

theorem settle {id : ℕ} (hrunning : (s.scheduler.running id).isSome = true)
    (hnew : (s.result id).isSome = false) (pending : PendingToolResult Args) :
    Scheduling env { s with results := s.results ++ [(id, pending)] } ∧
      work { s with results := s.results ++ [(id, pending)] } = s.work + 1 := by
  obtain ⟨task, htask⟩ := isSome_iff_exists.1 hrunning
  obtain ⟨hactive, hid⟩ := ToolScheduler.running_eq_some htask
  have hmem := h.scheduled.keeps.active task hactive
  refine ⟨⟨h.scheduled, h.returns, h.count, h.active, ?_, ?_, ?_, h.executed, h.runnable⟩, ?_⟩
  · rw [map_append, nodup_append]
    refine ⟨h.once, nodup_singleton _, fun a ha b hb => ?_⟩
    rintro rfl
    obtain rfl := mem_singleton.1 hb
    rw [result_isSome.2 ha] at hnew
    cases hnew
  · intro p hp
    rcases mem_append.1 hp with hp | hp
    · exact h.settled p hp
    · obtain rfl := mem_singleton.1 hp
      exact mem_map.2 ⟨task, hmem, hid⟩
  · intro a ha
    refine (h.pending a ha).imp_right fun hdone => ?_
    rw [result_isSome] at hdone ⊢
    rw [map_append]
    exact mem_append_left _ hdone
  · simp only [work, length_append, length_singleton]
    omega

end Scheduling

end ToolCallBatch

/-! ### The events -/

/-- Which event it is, and of which call. -/
inductive BatchMark where
  | toolCall (toolCallId : String)
  | toolResult (toolCallId : String)

def BatchEvent.mark {Args : Type} : BatchEvent Args → BatchMark
  | .toolCall toolCallId _ _ _ => .toolCall toolCallId
  | .toolResult toolCallId _ => .toolResult toolCallId

/-- The events of a whole batch. -/
def batchMarks (toolCalls : List ToolCall) : List BatchMark :=
  toolCalls.map (fun toolCall => .toolCall toolCall.id) ++
    toolCalls.map fun toolCall => .toolResult toolCall.id

theorem isPrefix_snoc {α : Type} {l whole : List α} {a : α} (h : l <+: whole)
    (ha : whole[l.length]? = some a) : l ++ [a] <+: whole := by
  obtain ⟨rest, rfl⟩ := h
  rw [getElem?_append_right (Nat.le_refl _), Nat.sub_self] at ha
  cases rest with
  | nil => simp at ha
  | cons b rest =>
    obtain rfl : b = a := by simpa using ha
    exact ⟨rest, by simp⟩

section Marks

variable {toolCalls : List ToolCall} {i : ℕ} {toolCall : ToolCall}

theorem batchMarks_toolCall (h : toolCalls[i]? = some toolCall) :
    (batchMarks toolCalls)[i]? = some (.toolCall toolCall.id) := by
  have hi := (List.getElem?_eq_some_iff.1 h).1
  rw [batchMarks, List.getElem?_append_left (by simpa using hi), List.getElem?_map, h]
  rfl

theorem batchMarks_toolResult (h : toolCalls[i]? = some toolCall) :
    (batchMarks toolCalls)[toolCalls.length + i]? = some (.toolResult toolCall.id) := by
  rw [batchMarks, getElem?_append_right (by simp), length_map, Nat.add_sub_cancel_left,
    getElem?_map, h]
  rfl

theorem batchMarks_length : (batchMarks toolCalls).length = 2 * toolCalls.length := by
  rw [batchMarks, length_append, length_map, length_map]
  omega

end Marks

/-- The call whose result a task returns. -/
def BatchTask.toolCall {Args : Type} : BatchTask Args → ToolCall
  | .resolved result => result.toolCall
  | .runnable call _ => call.toolCall

/-- A dispatch has thrown. -/
def BatchPhase.failing {Args : Type} : BatchPhase Args → Bool
  | .settling failed => failed
  | .threw => true
  | _ => false

/-- How far the batch is, for a number of calls. -/
def BatchPhase.rank {Args : Type} (n : ℕ) : BatchPhase Args → ℕ
  | .preparing i => 4 * i + 1
  | .resolving i _ => 4 * i + 2
  | .authorizing i _ _ => 4 * i + 3
  | .dispatchingCall i _ => 4 * i + 4
  | .dispatchingSkipped i => 4 * i + 4
  | .awaiting i => 4 * n + 5 + 3 * i
  | .finalizing i _ => 4 * n + 6 + 3 * i
  | .dispatchingResult i _ => 4 * n + 7 + 3 * i
  | .settling _ => 7 * n + 8
  | .returned _ => 7 * n + 9
  | .threw => 7 * n + 9

namespace ToolCallBatch

variable {Args : Type} {env : BatchEnv Args}

def toolCalls (s : ToolCallBatch Args) : List ToolCall := s.calls.map (·.toolCall)

/-- **What holds of the records**: the events are the first ones of those of the whole batch, every
task and every result belongs to its call, and behind the call that stops the batch no tool runs. -/
structure Records (s : ToolCallBatch Args) : Prop where
  marks : s.events.map BatchEvent.mark <+: batchMarks s.toolCalls
  bounded : s.tasks.length ≤ s.calls.length
  tasks : ∀ (id : ℕ) (task : BatchTask Args), s.tasks[id]? = some task →
    s.toolCalls[id]? = some task.toolCall
  results : ∀ p ∈ s.results, s.toolCalls[p.1]? = some p.2.toolCall
  stopped : ∀ j ∈ s.stoppedAt, j < s.tasks.length ∧ ∀ id, j < id → s.isRunnable id = false

/-- The loop is at this call; the calls in front of it have been recorded. -/
def Prepares (s : ToolCallBatch Args) (i : ℕ) : Prop :=
  i < s.calls.length ∧ s.events.length = i ∧ s.tasks.length = i

/-- The loop is at the result of this call; the results in front of it have been recorded. -/
def Takes (s : ToolCallBatch Args) (i : ℕ) : Prop :=
  i < s.calls.length ∧ s.events.length = s.calls.length + i ∧ s.tasks.length = s.calls.length

/-- **Where the batch is**, by what it waits for. -/
def At (s : ToolCallBatch Args) : BatchPhase Args → Prop
  | .preparing i => s.Prepares i ∧ s.stoppedAt = none ∧
      ∃ toolCall args tool, s.calls[i]? = some ⟨toolCall, args, .runnable tool⟩
  | .resolving i _ => s.Prepares i ∧ s.stoppedAt = none
  | .authorizing i _ _ => s.Prepares i ∧ s.stoppedAt = none
  | .dispatchingCall i prepared => s.Prepares i ∧ s.stoppedAt = none ∧
      s.toolCalls[i]? = some prepared.task.toolCall
  | .dispatchingSkipped i => s.Prepares i
  | .awaiting i => s.Takes i
  | .finalizing i pending => s.Takes i ∧ s.toolCalls[i]? = some pending.toolCall
  | .dispatchingResult i pending => s.Takes i ∧ s.toolCalls[i]? = some pending.toolCall
  | .settling failed => failed = false → s.events.length = 2 * s.calls.length
  | .returned _ => s.events.length = 2 * s.calls.length
  | .threw => True

/-- **The invariant.** -/
structure BatchHolds (env : BatchEnv Args) (s : ToolCallBatch Args) : Prop where
  scheduling : Scheduling env s
  records : Records s
  reached : s.At s.phase

def progress (s : ToolCallBatch Args) : ℕ :=
  s.phase.rank s.calls.length + s.work + if s.aborted.isSome then 1 else 0

/-- What a step does. -/
structure Advances (env : BatchEnv Args) (s : ToolCallBatch Args) (a : BatchStep Args)
    (t : ToolCallBatch Args) : Prop where
  holds : BatchHolds env t
  calls : t.calls = s.calls
  progress : s.progress < t.progress
  failing : t.phase.failing = true → s.phase.failing = true ∨ a = .dispatched true

/-! ### The steps -/

variable {s : ToolCallBatch Args}

theorem executionResult_toolCall {id : ℕ}
    {call : PreflightedToolCall Args} {args : Args} {outcome : Execution}
    {pending : PendingToolResult Args} (h : s.executionResult id call args outcome = some pending) :
    pending.toolCall = call.toolCall := by
  unfold executionResult at h
  by_cases hid : id ∈ s.executed
  · cases outcome with
    | returned value =>
      obtain rfl : _ = pending := by simpa [hid] using h
      rfl
    | threw error =>
      obtain rfl : _ = pending := by simpa [hid] using h
      rfl
    | graceTimeout =>
      cases haborted : s.aborted with
      | none => simp [hid, haborted] at h
      | some isUserCancellation =>
        obtain rfl : _ = pending := by simpa [hid, haborted] using h
        rfl
  · obtain rfl : _ = pending := by simpa [hid] using h
    rfl

/-- What it takes for a promise to settle: the task is active, and its result is one of its call. -/
theorem settleTask_eq_some {t : ToolCallBatch Args} {id : ℕ} {outcome : Execution}
    (h : s.settleTask id outcome = some t)
    (howner : ∀ (id : ℕ) (task : BatchTask Args), s.tasks[id]? = some task →
      s.toolCalls[id]? = some task.toolCall) :
    ∃ pending, (s.scheduler.running id).isSome = true ∧ (s.result id).isSome = false ∧
      s.toolCalls[id]? = some pending.toolCall ∧
        t = { s with results := s.results ++ [(id, pending)] } := by
  unfold settleTask at h
  split_ifs at h with hready
  rw [not_or, Bool.not_eq_true, Bool.not_eq_true, isNone_eq_false_iff] at hready
  obtain ⟨hrunning, hnew⟩ := hready
  cases htask : s.tasks[id]? with
  | none => simp [htask] at h
  | some task =>
    rw [htask] at h
    cases task with
    | resolved pending =>
      cases h
      exact ⟨pending, hrunning, hnew, howner id _ htask, rfl⟩
    | runnable call args =>
      obtain ⟨pending, hpending, rfl⟩ := map_eq_some_iff.1 h
      refine ⟨pending, hrunning, hnew, ?_, rfl⟩
      rw [executionResult_toolCall hpending]
      exact howner id _ htask

namespace BatchHolds

variable {s t : ToolCallBatch Args}

theorem work_le (h : BatchHolds env s) : s.work ≤ 2 * s.calls.length := by
  have hresults := h.scheduling.results_length
  have hstarted := h.scheduling.started_length
  have hbounded := h.records.bounded
  unfold work
  omega

theorem progress_le (h : BatchHolds env s) : s.progress ≤ 9 * s.calls.length + 10 := by
  have hwork := h.work_le
  have hrank : s.phase.rank s.calls.length ≤ 7 * s.calls.length + 9 := by
    have hat := h.reached
    cases hphase : s.phase <;> rw [hphase] at hat <;>
      simp only [At, Prepares, Takes] at hat <;> simp only [BatchPhase.rank] <;> omega
  unfold progress
  split_ifs <;> omega

variable {a : BatchStep Args}

theorem move (h : BatchHolds env s) {phase : BatchPhase Args} (stopTurn : Bool) (hat : s.At phase)
    (hrank : s.phase.rank s.calls.length < phase.rank s.calls.length)
    (hfailing : phase.failing = true → s.phase.failing = true ∨ a = .dispatched true) :
    Advances env s a { s with phase, stopTurn } where
  holds := by
    obtain ⟨hs, hr, -⟩ := h
    refine ⟨⟨hs.scheduled, hs.returns, hs.count, hs.active, hs.once, hs.settled, hs.pending,
      hs.executed, hs.runnable⟩, ⟨hr.marks, hr.bounded, hr.tasks, hr.results, hr.stopped⟩, ?_⟩
    cases phase <;> exact hat
  calls := rfl
  progress := Nat.add_lt_add_right (Nat.add_lt_add_right hrank _) _
  failing := hfailing

theorem abort (h : BatchHolds env s) {isUserCancellation : Bool}
    (ht : s.step env (.abort isUserCancellation) = some t) :
    Advances env s (.abort isUserCancellation) t := by
  simp only [step] at ht
  split_ifs at ht with haborted
  cases ht
  obtain ⟨hs, hr, hat⟩ := h
  refine ⟨⟨⟨hs.scheduled, hs.returns, hs.count, hs.active, hs.once, hs.settled, hs.pending,
    hs.executed, hs.runnable⟩, ⟨hr.marks, hr.bounded, hr.tasks, hr.results, hr.stopped⟩, ?_⟩,
    rfl, ?_, Or.inl⟩
  · cases hphase : s.phase <;> rw [hphase] at hat <;> exact hat
  · simp only [progress, work, haborted, isSome_some, if_true]
    simp

variable {id : ℕ}

theorem settles (h : BatchHolds env s) {execution : Execution}
    (ht : s.step env (.settles id execution) = some t) :
    Advances env s (.settles id execution) t := by
  obtain ⟨pending, hrunning, hnew, howner, rfl⟩ := settleTask_eq_some ht h.records.tasks
  obtain ⟨hscheduling, hwork⟩ := h.scheduling.settle hrunning hnew pending
  obtain ⟨-, hr, hat⟩ := h
  refine ⟨⟨hscheduling, ⟨hr.marks, hr.bounded, hr.tasks, ?_, hr.stopped⟩, ?_⟩, rfl, ?_, Or.inl⟩
  · intro p hp
    rcases mem_append.1 hp with hp | hp
    · exact hr.results p hp
    · obtain rfl := mem_singleton.1 hp
      exact howner
  · cases hphase : s.phase <;> rw [hphase] at hat <;> exact hat
  · unfold progress
    rw [hwork]
    dsimp only
    omega

theorem finishes (h : BatchHolds env s) (ht : s.step env (.finishes id) = some t) :
    Advances env s (.finishes id) t := by
  obtain ⟨hscheduling, hwork⟩ := h.scheduling.finishTask ht
  obtain ⟨-, hr, hat⟩ := h
  have hframe : ∃ scheduler executed, t = { s with scheduler, executed } := by
    simp only [step, finishTask] at ht
    split_ifs at ht
    obtain ⟨task, -, rfl⟩ := map_eq_some_iff.1 ht
    exact ⟨_, _, rfl⟩
  obtain ⟨scheduler, executed, rfl⟩ := hframe
  refine ⟨⟨hscheduling, ⟨hr.marks, hr.bounded, hr.tasks, hr.results, hr.stopped⟩, ?_⟩, rfl, ?_,
    Or.inl⟩
  · cases hphase : s.phase <;> rw [hphase] at hat <;> exact hat
  · unfold progress
    rw [hwork]
    dsimp only
    omega

/-- A phase that may follow one of this rank. -/
structure Follows (s : ToolCallBatch Args) (rank : ℕ) (phase : BatchPhase Args) : Prop where
  reached : s.At phase
  later : rank < phase.rank s.calls.length
  failing : phase.failing = false

theorem follow (h : BatchHolds env s) {phase : BatchPhase Args}
    (stopTurn : Bool) (hfollows : Follows s (s.phase.rank s.calls.length) phase) :
    Advances env s a { s with phase, stopTurn } := by
  refine h.move stopTurn hfollows.reached hfollows.later fun hfails => ?_
  rw [hfollows.failing] at hfails
  cases hfails

section Preparing

variable {index rank : ℕ} {call : PreflightedToolCall Args}

variable (hprepares : s.Prepares index) (hstopped : s.stoppedAt = none)
  (hcall : s.calls[index]? = some call)

include hprepares hstopped hcall

theorem Follows.dispatchingCall (prepared : PreparedToolCall Args) (hrank : rank < 4 * index + 4)
    (htask : prepared.task.toolCall = call.toolCall) :
    Follows s rank (.dispatchingCall index prepared) := by
  refine ⟨⟨hprepares, hstopped, ?_⟩, hrank, rfl⟩
  rw [toolCalls, getElem?_map, hcall, htask]
  rfl

theorem follows_afterPrepareHook (tool : LoopTool Args) (decision : PrepareDecision Args) :
    Follows s (4 * index + 1) (afterPrepareHook call tool index decision) := by
  have hdispatch := fun (prepared : PreparedToolCall Args) =>
    Follows.dispatchingCall hprepares hstopped hcall prepared
      (Nat.add_lt_add_left (show 1 < 4 by decide) (4 * index))
  cases decision with
  | refused | synthetic => exact hdispatch _ rfl
  | allowed args =>
    simp only [afterPrepareHook]
    cases tool.validationError args with
    | some validationError => exact hdispatch _ rfl
    | none => exact ⟨⟨hprepares, hstopped⟩, Nat.lt_succ_self _, rfl⟩

theorem follows_afterResolve (args : Args) (outcome : Outcome ToolExecution) :
    Follows s (4 * index + 2) (afterResolve s.aborted call index args outcome) := by
  have hdispatch := fun (prepared : PreparedToolCall Args) =>
    Follows.dispatchingCall hprepares hstopped hcall prepared
      (Nat.add_lt_add_left (show 2 < 4 by decide) (4 * index))
  cases outcome with
  | threw error => exact hdispatch _ rfl
  | returned execution =>
    cases execution with
    | error result =>
      cases s.aborted with
      | some | none => exact hdispatch _ rfl
    | runnable execution =>
      cases s.aborted with
      | some isUserCancellation => exact hdispatch _ rfl
      | none => exact ⟨⟨hprepares, hstopped⟩, Nat.lt_succ_self _, rfl⟩

theorem follows_afterAuthorizeHook (args : Args) (execution : RunnableToolExecution)
    (outcome : Outcome (Option AuthorizeToolExecutionResult)) :
    Follows s (4 * index + 3) (afterAuthorizeHook s.aborted call index args execution outcome) := by
  have hdispatch := fun (prepared : PreparedToolCall Args) =>
    Follows.dispatchingCall hprepares hstopped hcall prepared (Nat.lt_succ_self (4 * index + 3))
  unfold afterAuthorizeHook
  cases s.aborted with
  | some isUserCancellation => exact hdispatch _ rfl
  | none =>
    dsimp only
    split_ifs
    · exact hdispatch _ rfl
    · split <;> exact hdispatch _ rfl

end Preparing

theorem prepareHook (h : BatchHolds env s)
    {outcome : Outcome (Option (PrepareToolExecutionResult Args))}
    (ht : s.step env (.prepareHook outcome) = some t) :
    Advances env s (.prepareHook outcome) t := by
  have hat := h.reached
  cases hphase : s.phase with
  | preparing index =>
    rw [hphase] at hat
    obtain ⟨hprepares, hstopped, toolCall, args, tool, hcall⟩ := hat
    simp only [step, hphase, hcall, some.injEq] at ht
    subst ht
    refine h.follow s.stopTurn ?_
    rw [hphase]
    exact follows_afterPrepareHook hprepares hstopped hcall tool _
  | _ => simp [step, hphase] at ht

theorem resolveExecution (h : BatchHolds env s) {outcome : Outcome ToolExecution}
    (ht : s.step env (.resolveExecution outcome) = some t) :
    Advances env s (.resolveExecution outcome) t := by
  have hat := h.reached
  cases hphase : s.phase with
  | resolving index args =>
    rw [hphase] at hat
    obtain ⟨hprepares, hstopped⟩ := hat
    simp only [step, hphase] at ht
    obtain ⟨call, hcall, rfl⟩ := map_eq_some_iff.1 ht
    refine h.follow s.stopTurn ?_
    rw [hphase]
    exact follows_afterResolve hprepares hstopped hcall args outcome
  | _ => simp [step, hphase] at ht

theorem authorizeHook (h : BatchHolds env s)
    {outcome : Outcome (Option AuthorizeToolExecutionResult)}
    (ht : s.step env (.authorizeHook outcome) = some t) :
    Advances env s (.authorizeHook outcome) t := by
  have hat := h.reached
  cases hphase : s.phase with
  | authorizing index args execution =>
    rw [hphase] at hat
    obtain ⟨hprepares, hstopped⟩ := hat
    simp only [step, hphase] at ht
    obtain ⟨call, hcall, rfl⟩ := map_eq_some_iff.1 ht
    refine h.follow s.stopTurn ?_
    rw [hphase]
    exact follows_afterAuthorizeHook hprepares hstopped hcall args execution outcome
  | _ => simp [step, hphase] at ht

theorem finalized_toolCall {aborted : Bool} {pending : PendingToolResult Args}
    {outcome : Outcome (Option RawToolResult)} :
    (finalized env aborted pending outcome).toolCall = pending.toolCall := by
  cases outcome <;> rfl

theorem finalizeHook (h : BatchHolds env s) {outcome : Outcome (Option RawToolResult)}
    (ht : s.step env (.finalizeHook outcome) = some t) :
    Advances env s (.finalizeHook outcome) t := by
  have hat := h.reached
  cases hphase : s.phase with
  | finalizing index pending =>
    rw [hphase] at hat
    obtain ⟨htakes, howner⟩ := hat
    simp only [step, hphase, some.injEq] at ht
    subst ht
    refine h.follow _ ⟨⟨htakes, ?_⟩, ?_, rfl⟩
    · rw [finalized_toolCall]
      exact howner
    · rw [hphase]
      simp [BatchPhase.rank]
  | _ => simp [step, hphase] at ht

theorem resumes (h : BatchHolds env s) (ht : s.step env .resumes = some t) :
    Advances env s .resumes t := by
  have hat := h.reached
  cases hphase : s.phase with
  | awaiting index =>
    rw [hphase] at hat
    simp only [step, hphase] at ht
    obtain ⟨pending, hpending, rfl⟩ := map_eq_some_iff.1 ht
    obtain ⟨p, hp, rfl⟩ := map_eq_some_iff.1 hpending
    have hid : p.1 = index := by simpa using find?_some hp
    refine h.follow s.stopTurn ⟨⟨hat, ?_⟩, ?_, rfl⟩
    · rw [← hid]
      exact h.records.results p (mem_of_find?_eq_some hp)
    · rw [hphase]
      simp [BatchPhase.rank]
  | _ => simp [step, hphase] at ht

theorem allSettled (h : BatchHolds env s) (ht : s.step env .allSettled = some t) :
    Advances env s .allSettled t := by
  have hat := h.reached
  cases hphase : s.phase with
  | settling failed =>
    rw [hphase] at hat
    simp only [step, hphase] at ht
    split_ifs at ht with hall hfailed
    · cases ht
      refine h.move s.stopTurn trivial ?_ fun _ => Or.inl ?_
      · rw [hphase]
        exact Nat.lt_succ_self _
      · rw [hphase]
        exact hfailed
    · cases ht
      refine h.follow s.stopTurn ⟨hat (by simpa using hfailed), ?_, rfl⟩
      rw [hphase]
      exact Nat.lt_succ_self _
  | _ => simp [step, hphase] at ht

section Dispatching

variable {index : ℕ} {call : PreflightedToolCall Args} {prepared : PreparedToolCall Args}

/-- **A call is recorded**, with its task.  Either nothing has stopped the batch, or the task runs
no tool and does not stop it either. -/
theorem recordCall (hscheduling : Scheduling env s) (hr : Records s) (hprepares : s.Prepares index)
    (hcall : s.calls[index]? = some call) (htask : prepared.task.toolCall = call.toolCall)
    (hstop : s.stoppedAt = none ∨
      (∃ result, prepared.task = .resolved result) ∧ prepared.stopBatchAfterThis = false) :
    Scheduling env (s.recordCall env index call prepared) ∧
      Records (s.recordCall env index call prepared) ∧
        (s.recordCall env index call prepared).work = s.work := by
  obtain ⟨hcalls, hevents, htasks⟩ := hprepares
  have howner : s.toolCalls[index]? = some call.toolCall := by
    rw [toolCalls, List.getElem?_map, hcall]
    rfl
  -- what is recorded does not touch the tasks
  have hbefore : Scheduling env { s with
      events := s.events ++
        [.toolCall call.toolCall.id call.toolCall.name prepared.args prepared.description]
      stopTurn := s.stopTurn || prepared.stopBatchAfterThis
      stoppedAt := if prepared.stopBatchAfterThis then some index else s.stoppedAt } :=
    ⟨hscheduling.scheduled, hscheduling.returns, hscheduling.count, hscheduling.active,
      hscheduling.once, hscheduling.settled, hscheduling.pending, hscheduling.executed,
      hscheduling.runnable⟩
  obtain ⟨hafter, hwork⟩ := hbefore.addTask prepared.accesses prepared.task
  refine ⟨hafter, ⟨?_, ?_, ?_, hr.results, ?_⟩, hwork⟩
  · change (s.events ++ [_]).map BatchEvent.mark <+: _
    rw [List.map_append]
    refine isPrefix_snoc hr.marks ?_
    rw [List.length_map, hevents]
    exact batchMarks_toolCall howner
  · change (s.tasks ++ [prepared.task]).length ≤ s.calls.length
    rw [List.length_append, htasks]
    exact hcalls
  · intro id task hid
    change (s.tasks ++ [prepared.task])[id]? = some task at hid
    rcases Nat.lt_or_ge id s.tasks.length with hlt | hge
    · rw [List.getElem?_append_left hlt] at hid
      exact hr.tasks id task hid
    · rw [List.getElem?_append_right hge] at hid
      obtain ⟨hzero, rfl⟩ := List.getElem?_eq_some_iff.1 hid
      have hid' : id = index := by
        rw [List.length_singleton] at hzero
        omega
      subst hid'
      change s.toolCalls[id]? = _
      simpa [htask] using howner
  · intro j hj
    change j ∈ (if prepared.stopBatchAfterThis then some index else s.stoppedAt) at hj
    change j < (s.tasks ++ [prepared.task]).length ∧ ∀ id, j < id →
      isRunnable { s with tasks := s.tasks ++ [prepared.task] } id = false
    rw [List.length_append, List.length_singleton]
    cases hstops : prepared.stopBatchAfterThis with
    | true =>
      obtain rfl : index = j := by simpa [hstops] using hj
      refine ⟨by omega, fun id hid => isRunnable_of_length_le ?_⟩
      rw [List.length_append, List.length_singleton]
      omega
    | false =>
      have hj' : j ∈ s.stoppedAt := by simpa [hstops] using hj
      obtain ⟨hlt, hbehind⟩ := hr.stopped j hj'
      rcases hstop with hnone | ⟨⟨result, hresolved⟩, -⟩
      · simp [hnone] at hj'
      · refine ⟨by omega, fun id hid => ?_⟩
        rw [hresolved, isRunnable_resolved]
        exact hbehind id hid

/-- **The loop goes on** to the next call, or to the first result. -/
theorem goOn (hscheduling : Scheduling env s) (hr : Records s) (hpos : 0 < s.calls.length)
    (hevents : s.events.length = index) (htasks : s.tasks.length = index) :
    BatchHolds env (s.goOn index) ∧ 4 * index < (s.goOn index).phase.rank s.calls.length ∧
      (s.goOn index).phase.failing = false := by
  have hphase : Follows s (4 * index) (s.goOn index).phase := by
    unfold ToolCallBatch.goOn
    cases hcall : s.calls[index]? with
    | none =>
      have hle := List.getElem?_eq_none_iff.1 hcall
      have hbounded := hr.bounded
      refine ⟨⟨hpos, by omega, by omega⟩, ?_, rfl⟩
      simp only [BatchPhase.rank]
      omega
    | some call =>
      have hprepares : s.Prepares index := ⟨(List.getElem?_eq_some_iff.1 hcall).1, hevents, htasks⟩
      split_ifs with hstopped
      · exact ⟨hprepares, Nat.lt_add_of_pos_right (by decide), rfl⟩
      · have hnone : s.stoppedAt = none := by simpa using hstopped
        obtain ⟨toolCall, args, kind⟩ := call
        cases kind with
        | rejected output =>
          exact Follows.dispatchingCall hprepares hnone hcall _
            (Nat.lt_add_of_pos_right (by decide)) rfl
        | runnable tool =>
          exact ⟨⟨hprepares, hnone, toolCall, args, tool, hcall⟩, Nat.lt_succ_self _, rfl⟩
  refine ⟨⟨?_, ?_, ?_⟩, hphase.later, hphase.failing⟩
  · exact ⟨hscheduling.scheduled, hscheduling.returns, hscheduling.count, hscheduling.active,
      hscheduling.once, hscheduling.settled, hscheduling.pending, hscheduling.executed,
      hscheduling.runnable⟩
  · exact ⟨hr.marks, hr.bounded, hr.tasks, hr.results, hr.stopped⟩
  · have hat := hphase.reached
    cases hnext : (s.goOn index).phase <;> rw [hnext] at hat <;> exact hat

theorem recordCall_goOn (h : BatchHolds env s) (hprepares : s.Prepares index)
    (hcall : s.calls[index]? = some call) (htask : prepared.task.toolCall = call.toolCall)
    (hstop : s.stoppedAt = none ∨
      (∃ result, prepared.task = .resolved result) ∧ prepared.stopBatchAfterThis = false)
    (hrank : s.phase.rank s.calls.length = 4 * index + 4) :
    Advances env s (.dispatched false)
      ((s.recordCall env index call prepared).goOn (index + 1)) := by
  obtain ⟨hscheduling, hr, hwork⟩ := recordCall h.scheduling h.records hprepares hcall htask hstop
  obtain ⟨hcalls, hevents, htasks⟩ := hprepares
  have hrecorded : (s.recordCall env index call prepared).events.length = index + 1 := by
    simp [ToolCallBatch.recordCall, addTask, startTasks, hevents]
  have hadded : (s.recordCall env index call prepared).tasks.length = index + 1 := by
    simp [ToolCallBatch.recordCall, addTask, startTasks, htasks]
  obtain ⟨hholds, hlater, hfailing⟩ := goOn hscheduling hr
    (Nat.lt_of_le_of_lt (Nat.zero_le index) hcalls) hrecorded hadded
  refine ⟨hholds, rfl, ?_, fun hfails => ?_⟩
  · unfold progress
    rw [hrank]
    change _ < BatchPhase.rank s.calls.length _ + (s.recordCall env index call prepared).work +
      (if s.aborted.isSome then 1 else 0)
    change 4 * (index + 1) < BatchPhase.rank s.calls.length _ at hlater
    rw [hwork]
    omega
  · rw [hfailing] at hfails
    cases hfails

theorem recordResult (h : BatchHolds env s) {result : PendingToolResult Args}
    (htakes : s.Takes index) (howner : s.toolCalls[index]? = some result.toolCall)
    (hrank : s.phase.rank s.calls.length = 4 * s.calls.length + 7 + 3 * index) :
    Advances env s (.dispatched false) (s.recordResult index result) := by
  obtain ⟨hs, hr, -⟩ := h
  obtain ⟨hcalls, hevents, htasks⟩ := htakes
  have hlength : s.toolCalls.length = s.calls.length := length_map _
  have hrecorded : (s.recordResult index result).events.length = s.calls.length + (index + 1) := by
    simp [ToolCallBatch.recordResult, hevents, Nat.add_assoc]
  refine ⟨⟨⟨hs.scheduled, hs.returns, hs.count, hs.active, hs.once, hs.settled, hs.pending,
    hs.executed, hs.runnable⟩, ⟨?_, hr.bounded, hr.tasks, hr.results, hr.stopped⟩, ?_⟩, rfl, ?_, ?_⟩
  · change (s.events ++ [_]).map BatchEvent.mark <+: _
    rw [map_append]
    refine isPrefix_snoc hr.marks ?_
    rw [length_map, hevents, ← hlength]
    exact batchMarks_toolResult howner
  · unfold ToolCallBatch.recordResult at hrecorded ⊢
    dsimp only at hrecorded ⊢
    split_ifs with hmore
    · exact ⟨hmore, hrecorded, htasks⟩
    · intro _
      dsimp only
      omega
  · unfold progress
    rw [hrank]
    refine Nat.add_lt_add_right (Nat.add_lt_add_right ?_ s.work) _
    unfold ToolCallBatch.recordResult
    split_ifs with hmore
    · simp only [BatchPhase.rank]
      omega
    · simp only [BatchPhase.rank]
      omega
  · unfold ToolCallBatch.recordResult
    split_ifs <;> exact fun hfails => Bool.noConfusion hfails

theorem fail (h : BatchHolds env s)
    (hrank : s.phase.rank s.calls.length < 7 * s.calls.length + 8) :
    Advances env s (.dispatched true) { s with phase := .settling true } :=
  h.move s.stopTurn (fun hfailed => Bool.noConfusion hfailed) hrank fun _ => Or.inr rfl

theorem dispatched (h : BatchHolds env s) {throws : Bool}
    (ht : s.step env (.dispatched throws) = some t) : Advances env s (.dispatched throws) t := by
  have hat := h.reached
  cases hphase : s.phase with
  | dispatchingCall index prepared =>
    rw [hphase] at hat
    obtain ⟨hprepares, hstopped, howner⟩ := hat
    simp only [step, hphase] at ht
    obtain ⟨call, hcall, rfl⟩ := map_eq_some_iff.1 ht
    have htask : call.toolCall = prepared.task.toolCall := by
      simpa [toolCalls, hcall] using howner
    have hrank : s.phase.rank s.calls.length = 4 * index + 4 := by rw [hphase]; rfl
    cases throws with
    | true =>
      have hcalls := hprepares.1
      exact h.fail (by omega)
    | false => exact recordCall_goOn h hprepares hcall htask.symm (Or.inl hstopped) hrank
  | dispatchingSkipped index =>
    rw [hphase] at hat
    simp only [step, hphase] at ht
    obtain ⟨call, hcall, rfl⟩ := map_eq_some_iff.1 ht
    have hrank : s.phase.rank s.calls.length = 4 * index + 4 := by rw [hphase]; rfl
    cases throws with
    | true =>
      have hcalls := hat.1
      exact h.fail (by omega)
    | false => exact recordCall_goOn h hat hcall rfl (Or.inr ⟨⟨_, rfl⟩, rfl⟩) hrank
  | dispatchingResult index result =>
    rw [hphase] at hat
    obtain ⟨htakes, howner⟩ := hat
    simp only [step, hphase] at ht
    have hrank : s.phase.rank s.calls.length = 4 * s.calls.length + 7 + 3 * index := by
      rw [hphase]
      rfl
    cases throws with
    | true =>
      cases ht
      have hcalls := htakes.1
      exact h.fail (by omega)
    | false =>
      cases ht
      exact recordResult h htakes howner hrank
  | _ => simp [step, hphase] at ht

end Dispatching

/-- **Every step** keeps the invariant and is progress. -/
theorem step (h : BatchHolds env s) (ht : s.step env a = some t) : Advances env s a t := by
  cases a with
  | abort isUserCancellation => exact h.abort ht
  | prepareHook outcome => exact h.prepareHook ht
  | resolveExecution outcome => exact h.resolveExecution ht
  | authorizeHook outcome => exact h.authorizeHook ht
  | dispatched throws => exact h.dispatched ht
  | settles task execution => exact h.settles ht
  | finishes task => exact h.finishes ht
  | resumes => exact h.resumes ht
  | finalizeHook outcome => exact h.finalizeHook ht
  | allSettled => exact h.allSettled ht

/-! ### No batch is stuck -/

/-- A step other than an abort is enabled. -/
def CanStep (env : BatchEnv Args) (s : ToolCallBatch Args) : Prop :=
  ∃ a, (∀ isUserCancellation, a ≠ .abort isUserCancellation) ∧ (s.step env a).isSome = true

theorem running_isSome (h : Scheduling env s) {task : ScheduledToolCallTask ToolAccesses}
    (htask : task ∈ s.scheduler.activeTasks) : (s.scheduler.running task.id).isSome = true := by
  have hadded := h.scheduled.keeps.once.subset
    (mem_append_left _ (h.scheduled.keeps.active task htask))
  refine find?_isSome.2 ⟨task, htask, ?_⟩
  simp [h.returns task hadded]

/-- An active task can go on: its promise settles, or the scheduler sees that it has. -/
theorem canStep_of_active (h : BatchHolds env s) {task : ScheduledToolCallTask ToolAccesses}
    (htask : task ∈ s.scheduler.activeTasks) : CanStep env s := by
  have hrunning := running_isSome h.scheduling htask
  cases hresult : (s.result task.id).isSome with
  | true =>
    obtain ⟨active, hactive⟩ := isSome_iff_exists.1 hrunning
    have hsettled : ¬(s.result task.id).isNone = true := by
      rw [← not_isSome, hresult]
      decide
    refine ⟨.finishes task.id, by simp, ?_⟩
    rw [ToolCallBatch.step, finishTask, if_neg hsettled, hactive]
    rfl
  | false =>
    have hready : ¬((s.scheduler.running task.id).isNone = true ∨
        (s.result task.id).isSome = true) := by
      rw [← not_isSome, hrunning, hresult]
      decide
    have hid : task.id < s.tasks.length :=
      h.scheduling.started_ids.2 task.id
        (mem_map_of_mem (h.scheduling.scheduled.keeps.active task htask))
    have hwork := getElem?_eq_getElem hid
    refine ⟨.settles task.id (.returned .missing), by simp, ?_⟩
    rw [ToolCallBatch.step, settleTask, if_neg hready, hwork]
    cases s.tasks[task.id] with
    | resolved pending => rfl
    | runnable call args =>
      simp only [executionResult, isSome_map]
      split_ifs <;> rfl

/-- While a task has no result, one can go on: it is active, or waits behind one that is. -/
theorem canStep_of_unsettled (h : BatchHolds env s) (hid : id < s.tasks.length)
    (hresult : (s.result id).isSome = false) : CanStep env s := by
  have hs := h.scheduling
  have hmem : id ∈ s.scheduler.added.map (·.id) := by
    rw [hs.scheduled.keeps.ids, hs.count]
    exact mem_range.2 hid
  obtain ⟨task, hadded, rfl⟩ := mem_map.1 hmem
  rcases mem_append.1 (hs.scheduled.keeps.once.symm.subset hadded) with hstarted | hqueued
  · rcases hs.pending task hstarted with hactive | hsettled
    · exact canStep_of_active h hactive
    · rw [hresult] at hsettled
      cases hsettled
  · obtain ⟨active, hactive⟩ := hs.scheduled.exists_active (ne_nil_of_mem hqueued)
    exact canStep_of_active h hactive

theorem canStep (h : BatchHolds env s)
    (hreturned : ∀ stopTurn, s.phase ≠ .returned stopTurn) (hthrew : s.phase ≠ .threw) :
    CanStep env s := by
  have hat := h.reached
  cases hphase : s.phase with
  | preparing index =>
    rw [hphase] at hat
    obtain ⟨-, -, toolCall, args, tool, hcall⟩ := hat
    exact ⟨.prepareHook (.returned none), by simp, by simp [ToolCallBatch.step, hphase, hcall]⟩
  | resolving index args =>
    rw [hphase] at hat
    have hcall := getElem?_eq_getElem hat.1.1
    exact ⟨.resolveExecution (.threw ⟨"", false, false⟩), by simp,
      by simp [ToolCallBatch.step, hphase, hcall]⟩
  | authorizing index args execution =>
    rw [hphase] at hat
    have hcall := getElem?_eq_getElem hat.1.1
    exact ⟨.authorizeHook (.returned none), by simp, by simp [ToolCallBatch.step, hphase, hcall]⟩
  | dispatchingCall index prepared =>
    rw [hphase] at hat
    have hcall := getElem?_eq_getElem hat.1.1
    exact ⟨.dispatched false, by simp, by simp [ToolCallBatch.step, hphase, hcall]⟩
  | dispatchingSkipped index =>
    rw [hphase] at hat
    have hcall := getElem?_eq_getElem hat.1
    exact ⟨.dispatched false, by simp, by simp [ToolCallBatch.step, hphase, hcall]⟩
  | awaiting index =>
    rw [hphase] at hat
    obtain ⟨hcalls, -, htasks⟩ := hat
    have hid : index < s.tasks.length := by omega
    cases hresult : s.result index with
    | none => exact canStep_of_unsettled h hid (by rw [hresult]; rfl)
    | some pending => exact ⟨.resumes, by simp, by simp [ToolCallBatch.step, hphase, hresult]⟩
  | finalizing index pending =>
    exact ⟨.finalizeHook (.returned none), by simp, by simp [ToolCallBatch.step, hphase]⟩
  | dispatchingResult index pending =>
    exact ⟨.dispatched false, by simp, by simp [ToolCallBatch.step, hphase]⟩
  | settling failed =>
    cases hall : (List.range s.tasks.length).all fun id => (s.result id).isSome with
    | true => exact ⟨.allSettled, by simp, by simp only [ToolCallBatch.step, hphase, hall]; rfl⟩
    | false =>
      obtain ⟨id, hid, hresult⟩ := all_eq_false.1 hall
      exact canStep_of_unsettled h (mem_range.1 hid) (by simpa using hresult)
  | returned stopTurn => exact absurd hphase (hreturned stopTurn)
  | threw => exact absurd hphase hthrew

end BatchHolds

/-! ### Runs -/

theorem preflightToolCall_toolCall (toolCall : ToolCall) :
    (preflightToolCall env toolCall).toolCall = toolCall := by
  unfold preflightToolCall
  dsimp only
  split
  · rfl
  · split <;> rfl

theorem start_calls (toolCalls : List ToolCall) :
    (start env toolCalls).calls = toolCalls.map (preflightToolCall env) := by
  unfold start
  split_ifs <;> rfl

variable (env) in
theorem start_holds (toolCalls : List ToolCall) :
    BatchHolds env (start env toolCalls) ∧ (start env toolCalls).phase.failing = false := by
  have hscheduling : Scheduling env { calls := toolCalls.map (preflightToolCall env)
                                      phase := .returned false } :=
    ⟨ToolScheduler.Scheduled.initial, by simp, rfl, Nat.le_refl _, by simp, by simp, by simp,
      List.Sublist.refl _, by simp⟩
  have hrecords : Records { calls := toolCalls.map (preflightToolCall env)
                            phase := .returned false } :=
    ⟨List.nil_prefix, Nat.zero_le _, by simp, by simp, by simp⟩
  unfold start
  split_ifs with hlength
  · refine ⟨⟨hscheduling, hrecords, ?_⟩, rfl⟩
    simp [At, hlength]
  · have hgo := BatchHolds.goOn hscheduling hrecords
      (by simpa using Nat.pos_of_ne_zero hlength) rfl rfl
    exact ⟨hgo.1, hgo.2.2⟩

/-- **What holds after every run.** -/
theorem run_holds {toolCalls : List ToolCall} {steps : List (BatchStep Args)}
    (h : LibRun.Run (step env) LibRun.always (start env toolCalls) steps s) :
    BatchHolds env s ∧ s.toolCalls = toolCalls ∧ steps.length ≤ s.progress ∧
      (s.phase.failing = true → .dispatched true ∈ steps) := by
  induction h with
  | nil =>
    obtain ⟨hholds, hfailing⟩ := start_holds env toolCalls
    refine ⟨hholds, ?_, Nat.zero_le _, fun hfails => ?_⟩
    · simp [ToolCallBatch.toolCalls, start_calls, preflightToolCall_toolCall, Function.comp_def]
    · rw [hfailing] at hfails
      cases hfails
  | snoc _ _ hu ih =>
    obtain ⟨hholds, hcalls, hlength, hfails⟩ := ih
    have hnext := hholds.step hu
    refine ⟨hnext.holds, ?_, ?_, fun hfailing => ?_⟩
    · rw [ToolCallBatch.toolCalls, hnext.calls]
      exact hcalls
    · have hprogress := hnext.progress
      rw [length_append, length_singleton]
      omega
    · rcases hnext.failing hfailing with hbefore | rfl
      · exact mem_append_left _ (hfails hbefore)
      · exact mem_append_right _ (mem_singleton_self _)

end ToolCallBatch

/-! ### The batch of a response -/

/-- **Every call has one `tool.call` and then one `tool.result`**, both in the order of the calls,
whatever the hooks, the tools and the signal do.  At any time the events are the first ones of
these.  A batch that returns has dispatched all of them, and one that fails has seen a dispatch
throw; until then it can go on, and it takes a bounded number of steps.  No tool is executed twice,
and none of a call behind the one that has stopped the batch. -/
theorem batch_pairs_calls {Args : Type} (env : BatchEnv Args) (toolCalls : List ToolCall)
    {s : ToolCallBatch Args} {steps : List (BatchStep Args)}
    (h : LibRun.Run (ToolCallBatch.step env) LibRun.always (ToolCallBatch.start env toolCalls)
      steps s) :
    s.events.map BatchEvent.mark <+: batchMarks toolCalls ∧
      (∀ stopTurn, s.phase = .returned stopTurn →
        s.events.map BatchEvent.mark = batchMarks toolCalls) ∧
      (s.phase = .threw → .dispatched true ∈ steps) ∧
      (∀ stopped ∈ s.stoppedAt, ∀ id ∈ s.executed, id ≤ stopped) ∧
      s.executed.Nodup ∧
      ((∃ stopTurn, s.phase = .returned stopTurn) ∨ s.phase = .threw ∨
        ∃ a, (∀ isUserCancellation, a ≠ .abort isUserCancellation) ∧ (s.step env a).isSome = true) ∧
      steps.length ≤ 9 * toolCalls.length + 10 := by
  obtain ⟨hholds, hcalls, hlength, hfails⟩ := ToolCallBatch.run_holds h
  have hcount : s.calls.length = toolCalls.length := by
    rw [← hcalls, ToolCallBatch.toolCalls, List.length_map]
  have hmarks := hholds.records.marks
  rw [hcalls] at hmarks
  refine ⟨hmarks, fun stopTurn hreturned => ?_, fun hthrew => ?_, fun stopped hstopped id hid => ?_,
    hholds.scheduling.executed.nodup hholds.scheduling.started_ids.1, ?_, ?_⟩
  · have hat := hholds.reached
    rw [hreturned] at hat
    refine hmarks.eq_of_length ?_
    rw [List.length_map, batchMarks_length, ← hcount]
    exact hat
  · exact hfails (by rw [hthrew]; rfl)
  · by_contra hlater
    have hnot := (hholds.records.stopped stopped hstopped).2 id (Nat.lt_of_not_le hlater)
    rw [hholds.scheduling.runnable id hid] at hnot
    cases hnot
  · by_cases hreturned : ∃ stopTurn, s.phase = .returned stopTurn
    · exact Or.inl hreturned
    · by_cases hthrew : s.phase = .threw
      · exact Or.inr (Or.inl hthrew)
      · exact Or.inr (Or.inr (hholds.canStep (not_exists.1 hreturned) hthrew))
  · have hprogress := hholds.progress_le
    omega

/-! ### Examples -/

/-- Two tools take any arguments. -/
def readAndExit : BatchEnv String where
  tools := [⟨"Read", fun _ => none⟩, ⟨"ExitPlanMode", fun _ => none⟩]
  parseToolCallArguments := fun arguments => arguments.getD ""
  normalizeImageContentParts := id
  toLowerCase := id

def readExitRead : List ToolCall :=
  [⟨"read", "Read", none⟩, ⟨"exit", "ExitPlanMode", none⟩, ⟨"again", "Read", none⟩]

/-- The second call stops the batch and has to wait for the first one.  The user interrupts, the
tool of the first call fails, and so does a hook. -/
def stopInTheMiddle : List (BatchStep String) :=
  [.prepareHook (.returned none), .resolveExecution (.returned (.runnable {})),
    .authorizeHook (.returned none), .dispatched false, .prepareHook (.returned none),
    .resolveExecution (.returned (.runnable ⟨none, some "Leaves", true⟩)),
    .authorizeHook (.returned none), .dispatched false, .dispatched false, .abort true,
    .settles 0 (.threw ⟨"gone", false, false⟩), .finishes 0, .settles 2 (.returned .missing),
    .resumes, .finalizeHook (.threw ⟨"hook", false, false⟩), .dispatched false,
    .settles 1 .graceTimeout, .resumes, .finalizeHook (.returned none), .dispatched false,
    .resumes, .finalizeHook (.returned (some .malformed)), .dispatched false, .allSettled]

theorem batch_pairs_calls_stopInTheMiddle : ∃ s : ToolCallBatch String,
    s.executed = [0] ∧ s.stoppedAt = some 1 ∧ s.events.map BatchEvent.mark =
      [.toolCall "read", .toolCall "exit", .toolCall "again",
        .toolResult "read", .toolResult "exit", .toolResult "again"] := by
  have hrun : ∃ s, LibRun.Run (step readAndExit) LibRun.always
      (start readAndExit readExitRead) stopInTheMiddle s ∧
        s.executed = [0] ∧ s.stoppedAt = some 1 ∧ s.phase = .returned true :=
    ⟨_, LibRun.run_of_exec rfl (LibRun.legal_always _ _), rfl, rfl, rfl⟩
  obtain ⟨s, hs, hexecuted, hstopped, hreturned⟩ := hrun
  exact ⟨s, hexecuted, hstopped, (batch_pairs_calls readAndExit readExitRead hs).2.1 true hreturned⟩

end NoriCode
