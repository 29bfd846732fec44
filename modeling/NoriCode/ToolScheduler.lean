/-
**The scheduler of tool calls.**

A task starts at once unless it conflicts with an active task or with one that waits in front of it;
then it waits in the queue.  When a task finishes, the queue is scanned from its front and what is
no longer blocked starts.  A start function that throws finishes its task on the spot, which scans
the queue again from within the scan, and that queue still holds the task.  How deep such calls nest
is bounded by the stack.

The module embeds `loop/tool-scheduler.ts`.  A start function either throws or returns a promise,
and a promise settles later, whether it is fulfilled or rejected.  The results of the tasks are left
out.

Main definitions:

* `ScheduledToolCallTask`, `ToolScheduler` — the tasks and the state;
* `ToolScheduler.add`, `ToolScheduler.finish` — the operations;
* `ToolScheduler.Keeps`, `ToolScheduler.NoneReady` — the invariant.

Main results:

* `schedule_exclusive` — **the schedule is right while no start function of a task that had
  to wait throws**;
* `schedule_drains` — **completions empty the scheduler**.
-/

import NoriCode.LibRun
import NoriCode.ToolAccess
import Mathlib.Data.List.Nodup

namespace NoriCode

open List Option ToolAccesses

/-- A task: when it was added, what it touches, and whether its start function throws. -/
structure ScheduledToolCallTask (Access : Type) where
  id : ℕ
  accesses : Access
  startThrows : Bool

structure ToolScheduler (Access : Type) where
  activeTasks : List (ScheduledToolCallTask Access) := []
  queuedTasks : List (ScheduledToolCallTask Access) := []
  /-- The tasks added so far. -/
  added : List (ScheduledToolCallTask Access) := []
  /-- The tasks whose start functions have been called, once for every call. -/
  started : List (ScheduledToolCallTask Access) := []

/-- What a call leaves behind: it returns, or it fails because the stack is full. -/
abbrev ScheduleResult (Access : Type) := Except (ToolScheduler Access) (ToolScheduler Access)

/-- The state after a call, however it ends. -/
def ScheduleResult.state {Access : Type} : ScheduleResult Access → ToolScheduler Access
  | .ok s => s
  | .error s => s

namespace ToolScheduler

variable {Access : Type} (conflict : Access → Access → Bool)

/-! ### The scheduler -/

def conflictsWithAny (task : ScheduledToolCallTask Access)
    (candidates : List (ScheduledToolCallTask Access)) : Bool :=
  candidates.any fun candidate => conflict task.accesses candidate.accesses

def isBlocked (s : ToolScheduler Access) (task : ScheduledToolCallTask Access)
    (queuedBefore : List (ScheduledToolCallTask Access)) : Bool :=
  conflictsWithAny conflict task s.activeTasks || conflictsWithAny conflict task queuedBefore

/-- The start function of the task is called. -/
def activate (s : ToolScheduler Access) (task : ScheduledToolCallTask Access) :
    ToolScheduler Access :=
  { s with activeTasks := s.activeTasks ++ [task], started := s.started ++ [task] }

/-- The task is no longer active. -/
def release (s : ToolScheduler Access) (task : ScheduledToolCallTask Access) :
    ToolScheduler Access :=
  { s with activeTasks := s.activeTasks.eraseP (·.id == task.id) }

/-- `start`: when the start function throws, the task is finished on the spot. -/
def start (rescan : ToolScheduler Access → ScheduleResult Access) (s : ToolScheduler Access)
    (task : ScheduledToolCallTask Access) : ScheduleResult Access :=
  if task.startThrows then rescan ((s.activate task).release task) else .ok (s.activate task)

/-- The loop of `startQueuedTasks` over the queue it has found. -/
def scan (rescan : ToolScheduler Access → ScheduleResult Access) :
    List (ScheduledToolCallTask Access) → List (ScheduledToolCallTask Access) →
      ToolScheduler Access → ScheduleResult Access
  | [], stillQueued, s => .ok { s with queuedTasks := stillQueued }
  | task :: rest, stillQueued, s =>
    if s.isBlocked conflict task stillQueued then scan rescan rest (stillQueued ++ [task]) s
    else
      match start rescan s task with
      | .ok s => scan rescan rest stillQueued s
      | .error s => .error s

/-- **`startQueuedTasks`**, with the number of nested calls the stack has room for. -/
def startQueuedTasks : ℕ → ToolScheduler Access → ScheduleResult Access
  | 0, s => .error s
  | depth + 1, s => scan conflict (startQueuedTasks depth) s.queuedTasks [] s

def finish (depth : ℕ) (s : ToolScheduler Access) (task : ScheduledToolCallTask Access) :
    ScheduleResult Access :=
  startQueuedTasks conflict depth (s.release task)

/-- The task that is added next. -/
def nextTask (s : ToolScheduler Access) (accesses : Access) (startThrows : Bool) :
    ScheduledToolCallTask Access where
  id := s.added.length
  accesses := accesses
  startThrows := startThrows

/-- **`add`.** -/
def add (depth : ℕ) (s : ToolScheduler Access) (accesses : Access) (startThrows : Bool) :
    ScheduleResult Access :=
  let task := s.nextTask accesses startThrows
  let s := { s with added := s.added ++ [task] }
  if s.isBlocked conflict task s.queuedTasks then
    .ok { s with queuedTasks := s.queuedTasks ++ [task] }
  else start (startQueuedTasks conflict depth) s task

end ToolScheduler

/-- A task is added, or the promise of an active one settles. -/
inductive ScheduleStep (Access : Type) where
  | add (accesses : Access) (startThrows : Bool)
  | settle (id : ℕ)

namespace ToolScheduler

variable {Access : Type} (conflict : Access → Access → Bool)

/-- The active task with a promise. -/
def running (s : ToolScheduler Access) (id : ℕ) : Option (ScheduledToolCallTask Access) :=
  s.activeTasks.find? fun task => task.id == id && !task.startThrows

/-- What a step does; the stack has room for one call more than the depth. -/
def performed (depth : ℕ) (s : ToolScheduler Access) :
    ScheduleStep Access → Option (ScheduleResult Access)
  | .add accesses startThrows => some (add conflict (depth + 1) s accesses startThrows)
  | .settle id => (s.running id).map (finish conflict (depth + 1) s)

def step (depth : ℕ) (s : ToolScheduler Access) (a : ScheduleStep Access) :
    Option (ToolScheduler Access) :=
  (performed conflict depth s a).map ScheduleResult.state

/-- A task that has to wait has a start function that does not throw. -/
def WaitsToReturn (s : ToolScheduler Access) : ScheduleStep Access → Prop
  | .add accesses startThrows =>
    startThrows = true →
      s.isBlocked conflict (s.nextTask accesses startThrows) s.queuedTasks = false
  | .settle _ => True

/-! ### The invariant -/

variable {conflict}

/-- **What holds at any time**, with the tasks that wait, from the front.  During a scan these are
the tasks the scan has passed over and those it has still to look at. -/
structure Keeps (conflict : Access → Access → Bool) (s : ToolScheduler Access)
    (waiting : List (ScheduledToolCallTask Access)) : Prop where
  /-- Every added task either waits or has been started, once. -/
  once : (s.started ++ waiting).Perm s.added
  ids : s.added.map (·.id) = List.range s.added.length
  sorted : waiting.Pairwise fun a b => a.id < b.id
  active : ∀ a ∈ s.activeTasks, a ∈ s.started
  exclusive : s.activeTasks.Pairwise fun a b => conflict a.accesses b.accesses = false
  /-- A task that has started overtakes no task it conflicts with. -/
  inOrder : s.started.Pairwise fun a b => b.id < a.id → conflict b.accesses a.accesses = false
  behind : ∀ a ∈ waiting, ∀ b ∈ s.started, a.id < b.id → conflict a.accesses b.accesses = false

/-- Every waiting task is blocked, by an active task or by one that waits in front of it. -/
def NoneReady (conflict : Access → Access → Bool) (s : ToolScheduler Access)
    (waiting : List (ScheduledToolCallTask Access)) : Prop :=
  ∀ before task behind, waiting = before ++ task :: behind →
    s.isBlocked conflict task before = true

variable {s : ToolScheduler Access} {task : ScheduledToolCallTask Access}

theorem isBlocked_eq_false {before : List (ScheduledToolCallTask Access)} :
    s.isBlocked conflict task before = false ↔
      (∀ c ∈ s.activeTasks, conflict task.accesses c.accesses = false) ∧
        ∀ c ∈ before, conflict task.accesses c.accesses = false := by
  simp [isBlocked, conflictsWithAny]

theorem isBlocked_activate {other : ScheduledToolCallTask Access}
    {before : List (ScheduledToolCallTask Access)} (h : s.isBlocked conflict task before = true) :
    (s.activate other).isBlocked conflict task before = true := by
  rcases Bool.or_eq_true_iff.1 h with h | h
  · refine Bool.or_eq_true_iff.2 (Or.inl ?_)
    simp only [conflictsWithAny, activate, any_append]
    exact Bool.or_eq_true_iff.2 (Or.inl h)
  · exact Bool.or_eq_true_iff.2 (Or.inr h)

theorem NoneReady.nil (s : ToolScheduler Access) : NoneReady conflict s [] := by
  intro before task behind h
  simp at h

theorem NoneReady.activate
    {waiting : List (ScheduledToolCallTask Access)} (h : NoneReady conflict s waiting) :
    NoneReady conflict (s.activate task) waiting := by
  intro before other behind hsplit
  exact isBlocked_activate (h before other behind hsplit)

theorem NoneReady.snoc
    {waiting : List (ScheduledToolCallTask Access)} (h : NoneReady conflict s waiting)
    (htask : s.isBlocked conflict task waiting = true) :
    NoneReady conflict s (waiting ++ [task]) := by
  intro before other behind hsplit
  rcases eq_nil_or_concat behind with rfl | ⟨behind, last, rfl⟩
  · obtain ⟨rfl, hother⟩ := append_inj' hsplit rfl
    obtain rfl := singleton_inj.1 hother
    exact htask
  · rw [concat_eq_append, ← cons_append, ← append_assoc] at hsplit
    exact h before other behind (append_inj' hsplit rfl).1

namespace Keeps

variable {s : ToolScheduler Access} {task : ScheduledToolCallTask Access}
  {waiting passed rest : List (ScheduledToolCallTask Access)}

theorem initial : Keeps conflict ({} : ToolScheduler Access) [] := by
  constructor <;> simp

/-- The order in which the ids of the tasks were given tells the tasks apart. -/
theorem nodup (h : Keeps conflict s waiting) : (s.started ++ waiting).Nodup := by
  refine (List.Perm.nodup_iff h.once).2 (List.Nodup.of_map (·.id) ?_)
  rw [h.ids]
  exact nodup_range

theorem id_lt (h : Keeps conflict s waiting) {a : ScheduledToolCallTask Access}
    (ha : a ∈ s.added) : a.id < s.added.length := by
  have hid : a.id ∈ s.added.map (·.id) := mem_map_of_mem ha
  rw [h.ids] at hid
  exact mem_range.1 hid

theorem release (h : Keeps conflict s waiting) (task : ScheduledToolCallTask Access) :
    Keeps conflict (s.release task) waiting where
  once := h.once
  ids := h.ids
  sorted := h.sorted
  active := fun a ha => h.active a (mem_of_mem_eraseP ha)
  exclusive := h.exclusive.sublist eraseP_sublist
  inOrder := h.inOrder
  behind := h.behind

/-- A task that nothing blocks is started, from between those that wait. -/
theorem activate (hcomm : ∀ a b, conflict a b = conflict b a)
    (h : Keeps conflict s (passed ++ task :: rest))
    (hfree : s.isBlocked conflict task passed = false) :
    Keeps conflict (s.activate task) (passed ++ rest) := by
  obtain ⟨hactive, hpassed⟩ := isBlocked_eq_false.1 hfree
  have hsub : List.Sublist (passed ++ rest) (passed ++ task :: rest) :=
    (List.Sublist.refl passed).append (sublist_cons_self task rest)
  have htask : task ∈ passed ++ task :: rest := by simp
  have hmem : ∀ a ∈ passed ++ rest, a ∈ passed ++ task :: rest := fun a ha => hsub.subset ha
  have hsorted := pairwise_append.1 h.sorted
  refine ⟨?_, h.ids, h.sorted.sublist hsub, ?_, ?_, ?_, ?_⟩
  · refine List.Perm.trans ?_ h.once
    change ((s.started ++ [task]) ++ (passed ++ rest)).Perm _
    rw [append_assoc]
    refine List.Perm.append_left _ ?_
    rw [singleton_append]
    exact perm_middle.symm
  · intro a ha
    refine mem_append.2 ?_
    rcases mem_append.1 ha with ha | ha
    · exact Or.inl (h.active a ha)
    · exact Or.inr ha
  · refine pairwise_append.2 ⟨h.exclusive, pairwise_singleton _ _, fun a ha b hb => ?_⟩
    obtain rfl := mem_singleton.1 hb
    rw [hcomm]
    exact hactive a ha
  · refine pairwise_append.2 ⟨h.inOrder, pairwise_singleton _ _, fun a ha b hb => ?_⟩
    obtain rfl := mem_singleton.1 hb
    exact h.behind b htask a ha
  · intro a ha b hb hlt
    rcases mem_append.1 hb with hb | hb
    · exact h.behind a (hmem a ha) b hb hlt
    · obtain rfl := mem_singleton.1 hb
      rcases mem_append.1 ha with ha | ha
      · rw [hcomm]
        exact hpassed a ha
      · -- what waits behind the task was added later
        have hlater := (pairwise_cons.1 hsorted.2.1).1 a ha
        omega

theorem grow (h : Keeps conflict s waiting) (task : ScheduledToolCallTask Access)
    (hid : task.id = s.added.length) :
    Keeps conflict { s with added := s.added ++ [task] } (waiting ++ [task]) := by
  have hlt : ∀ a ∈ s.started ++ waiting, a.id < task.id := by
    intro a ha
    rw [hid]
    exact h.id_lt (h.once.subset ha)
  refine ⟨?_, ?_, ?_, h.active, h.exclusive, h.inOrder, ?_⟩
  · change (s.started ++ (waiting ++ [task])).Perm (s.added ++ [task])
    rw [← append_assoc]
    exact h.once.append_right [task]
  · simp [h.ids, hid, range_succ]
  · refine pairwise_append.2 ⟨h.sorted, pairwise_singleton _ _, fun a ha b hb => ?_⟩
    obtain rfl := mem_singleton.1 hb
    exact hlt a (mem_append_right _ ha)
  · intro a ha b hb hab
    rcases mem_append.1 ha with ha | ha
    · exact h.behind a ha b hb hab
    · obtain rfl := mem_singleton.1 ha
      have hba := hlt b (mem_append_left _ hb)
      omega

end Keeps

/-- **The invariant** between the steps. -/
structure Scheduled (conflict : Access → Access → Bool) (s : ToolScheduler Access) : Prop where
  keeps : Keeps conflict s s.queuedTasks
  noneReady : NoneReady conflict s s.queuedTasks
  returns : ∀ a ∈ s.queuedTasks, a.startThrows = false

/-- **A scan** starts what is not blocked, and what still waits is blocked. -/
theorem scan_scheduled (hcomm : ∀ a b, conflict a b = conflict b a)
    (rescan : ToolScheduler Access → ScheduleResult Access)
    (rest passed : List (ScheduledToolCallTask Access)) (s : ToolScheduler Access)
    (h : Keeps conflict s (passed ++ rest)) (hready : NoneReady conflict s passed)
    (hreturns : ∀ a ∈ passed ++ rest, a.startThrows = false) :
    ∃ u, scan conflict rescan rest passed s = .ok u ∧ Scheduled conflict u := by
  induction rest generalizing passed s with
  | nil =>
    rw [append_nil] at h hreturns
    exact ⟨_, rfl, ⟨h.once, h.ids, h.sorted, h.active, h.exclusive, h.inOrder, h.behind⟩,
      hready, hreturns⟩
  | cons task rest ih =>
    unfold scan
    cases hblocked : s.isBlocked conflict task passed with
    | true =>
      rw [List.append_cons] at h hreturns
      exact ih _ s h (hready.snoc hblocked) hreturns
    | false =>
      have hreturn : task.startThrows = false := hreturns task (by simp)
      have hrest : ∀ a ∈ passed ++ rest, a.startThrows = false := by
        intro a ha
        refine hreturns a ?_
        rw [mem_append] at ha
        simp only [mem_append, mem_cons]
        tauto
      simp only [start, hreturn]
      exact ih passed _ (h.activate hcomm hblocked) hready.activate hrest

namespace Scheduled

variable {s : ToolScheduler Access}

theorem initial : Scheduled conflict ({} : ToolScheduler Access) :=
  ⟨Keeps.initial, NoneReady.nil _, by simp⟩

theorem startQueuedTasks (hcomm : ∀ a b, conflict a b = conflict b a) (depth : ℕ)
    (hkeeps : Keeps conflict s s.queuedTasks)
    (hreturns : ∀ a ∈ s.queuedTasks, a.startThrows = false) :
    ∃ u, ToolScheduler.startQueuedTasks conflict (depth + 1) s = .ok u ∧ Scheduled conflict u :=
  scan_scheduled hcomm _ s.queuedTasks [] s hkeeps (NoneReady.nil s) hreturns

section

variable (hcomm : ∀ a b, conflict a b = conflict b a) (h : Scheduled conflict s) (depth : ℕ)

include hcomm h

theorem finish (task : ScheduledToolCallTask Access) :
    ∃ u, ToolScheduler.finish conflict (depth + 1) s task = .ok u ∧ Scheduled conflict u :=
  startQueuedTasks hcomm depth (h.keeps.release task) h.returns

theorem add {accesses : Access} {startThrows : Bool}
    (hok : WaitsToReturn conflict s (.add accesses startThrows)) :
    ∃ u, ToolScheduler.add conflict (depth + 1) s accesses startThrows = .ok u ∧
      Scheduled conflict u := by
  have hgrown := h.keeps.grow (s.nextTask accesses startThrows) rfl
  unfold ToolScheduler.add
  dsimp only
  split_ifs with hblocked
  · have hreturn : startThrows ≠ true := by
      intro hthrows
      exact Bool.false_ne_true ((hok hthrows).symm.trans hblocked)
    refine ⟨_, rfl, ⟨hgrown.once, hgrown.ids, hgrown.sorted, hgrown.active, hgrown.exclusive,
      hgrown.inOrder, hgrown.behind⟩, ?_, ?_⟩
    · exact h.noneReady.snoc hblocked
    · intro a ha
      rcases mem_append.1 ha with ha | ha
      · exact h.returns a ha
      · rw [mem_singleton.1 ha]
        exact Bool.eq_false_iff.2 hreturn
  · have hstarted := hgrown.activate hcomm (Bool.eq_false_iff.2 hblocked)
    rw [append_nil] at hstarted
    unfold start
    split_ifs
    · -- the start function throws: the task is gone again, and the queue is scanned
      exact startQueuedTasks hcomm depth (hstarted.release _) h.returns
    · exact ⟨_, rfl, ⟨hstarted.once, hstarted.ids, hstarted.sorted, hstarted.active,
        hstarted.exclusive, hstarted.inOrder, hstarted.behind⟩, h.noneReady.activate, h.returns⟩

/-- **Every step** keeps the invariant, and none fills the stack. -/
theorem performed {a : ScheduleStep Access} (hok : WaitsToReturn conflict s a)
    {r : ScheduleResult Access} (hr : ToolScheduler.performed conflict depth s a = some r) :
    ∃ u, r = .ok u ∧ Scheduled conflict u := by
  cases a with
  | add accesses startThrows =>
    cases hr
    exact h.add hcomm depth hok
  | settle id =>
    obtain ⟨task, -, rfl⟩ := map_eq_some_iff.1 hr
    exact h.finish hcomm depth task

theorem step {a : ScheduleStep Access} {u : ToolScheduler Access} (hok : WaitsToReturn conflict s a)
    (hu : ToolScheduler.step conflict depth s a = some u) : Scheduled conflict u := by
  obtain ⟨r, hr, rfl⟩ := map_eq_some_iff.1 hu
  obtain ⟨v, rfl, hv⟩ := h.performed hcomm depth hok hr
  exact hv

end

/-- A task that conflicts with an earlier one has not started before it. -/
theorem started_in_order (h : Scheduled conflict s) {a b : ScheduledToolCallTask Access}
    {before behind : List (ScheduledToolCallTask Access)} (ha : a ∈ s.added)
    (hsplit : s.started = before ++ b :: behind) (hab : a.id < b.id)
    (hconflict : conflict a.accesses b.accesses = true) : a ∈ before := by
  have hbmem : b ∈ s.started := by simp [hsplit]
  rcases mem_append.1 (h.keeps.once.symm.subset ha) with hstarted | hwaits
  · have horder := h.keeps.inOrder
    rw [hsplit] at hstarted horder
    rcases mem_append.1 hstarted with hbefore | hbehind
    · exact hbefore
    · rcases mem_cons.1 hbehind with rfl | hlater
      · omega
      · have hfree := (pairwise_cons.1 (pairwise_append.1 horder).2.1).1 a hlater hab
        rw [hfree] at hconflict
        cases hconflict
  · have hfree := h.keeps.behind a hwaits b hbmem hab
    rw [hfree] at hconflict
    cases hconflict

end Scheduled

end ToolScheduler

/-! ### The schedule of tool calls -/

/-- **The schedule is right**, as long as no start function of a task that had to wait throws.  No
two active tasks conflict.  A task that conflicts with an earlier one starts after it.  Every added
task has been started exactly once, or waits and has not been started; what waits is blocked by an
active task or by one in front of it, so nothing waits when nothing is active.  No step fills the
stack. -/
theorem schedule_exclusive (toLowerCase : String → String) (depth : ℕ)
    {s : ToolScheduler ToolAccesses} {steps : List (ScheduleStep ToolAccesses)}
    (h : LibRun.Run (ToolScheduler.step (conflict toLowerCase) depth)
      (ToolScheduler.WaitsToReturn (conflict toLowerCase)) {} steps s) :
    (s.activeTasks.Pairwise fun a b =>
        conflict toLowerCase a.accesses b.accesses = false) ∧
      (∀ a ∈ s.added, ∀ before b behind, s.started = before ++ b :: behind → a.id < b.id →
        conflict toLowerCase a.accesses b.accesses = true → a ∈ before) ∧
      ((s.started ++ s.queuedTasks).Nodup ∧ ∀ a, a ∈ s.added ↔ a ∈ s.started ∨ a ∈ s.queuedTasks) ∧
      (∀ before task behind, s.queuedTasks = before ++ task :: behind →
        ∃ other ∈ s.activeTasks ++ before,
          conflict toLowerCase task.accesses other.accesses = true) ∧
      (s.activeTasks = [] → s.queuedTasks = []) ∧
      ∀ a r, ToolScheduler.WaitsToReturn (conflict toLowerCase) s a →
        ToolScheduler.performed (conflict toLowerCase) depth s a = some r → ∃ u, r = .ok u := by
  have hcomm := conflict_comm toLowerCase
  have hinv := h.invariant ToolScheduler.Scheduled.initial
    fun _ _ _ ht ha hu => ht.step hcomm depth ha hu
  have hblocked : ∀ before task behind, s.queuedTasks = before ++ task :: behind →
      ∃ other ∈ s.activeTasks ++ before,
        conflict toLowerCase task.accesses other.accesses = true := by
    intro before task behind hsplit
    have hb := hinv.noneReady before task behind hsplit
    simpa [ToolScheduler.isBlocked, ToolScheduler.conflictsWithAny, List.mem_append, or_and_right,
      exists_or] using hb
  refine ⟨hinv.keeps.exclusive, fun a ha before b behind => hinv.started_in_order ha,
    ⟨hinv.keeps.nodup, fun a => ?_⟩, hblocked, fun hnone => ?_, fun a r ha hr => ?_⟩
  · rw [← List.mem_append]
    exact hinv.keeps.once.symm.mem_iff
  · cases hqueue : s.queuedTasks with
    | nil => rfl
    | cons task behind =>
      obtain ⟨other, hother, -⟩ := hblocked [] task behind hqueue
      simp [hnone] at hother
  · obtain ⟨u, hu, -⟩ := hinv.performed hcomm depth ha hr
    exact ⟨u, hu⟩

/-! ### Examples -/

instance ToolScheduler.WaitsToReturn.decidable (toLowerCase : String → String)
    (s : ToolScheduler ToolAccesses) (a : ScheduleStep ToolAccesses) :
    Decidable (ToolScheduler.WaitsToReturn (conflict toLowerCase) s a) :=
  match a with
  | .add _ startThrows => inferInstanceAs (Decidable (startThrows = true → _ = false))
  | .settle _ => inferInstanceAs (Decidable True)

/-- A file is written, read and written again; a start function that throws need not wait. -/
def writeReadWrite : List (ScheduleStep ToolAccesses) :=
  [.add (.writeFile "/repo/a.ts") false, .add (.readTree "/repo") false,
    .add (.writeFile "/repo/a.ts") false, .add (.readFile "/repo/b.ts") true, .settle 0]

theorem schedule_exclusive_writeReadWrite : ∃ s : ToolScheduler ToolAccesses,
    s.activeTasks.map (·.id) = [1] ∧ s.queuedTasks.map (·.id) = [2] ∧
      s.activeTasks.Pairwise fun a b =>
        conflict id a.accesses b.accesses = false := by
  have hrun : ∃ s, LibRun.Run (ToolScheduler.step (conflict id) 10)
      (ToolScheduler.WaitsToReturn (conflict id)) {} writeReadWrite s ∧
        s.activeTasks.map (·.id) = [1] ∧ s.queuedTasks.map (·.id) = [2] :=
    ⟨_, LibRun.run_of_exec rfl (by decide +kernel), by decide +kernel, by decide +kernel⟩
  obtain ⟨s, hs, hactive, hqueued⟩ := hrun
  exact ⟨s, hactive, hqueued, (schedule_exclusive id 10 hs).1⟩

/-! ### Completion -/

namespace ToolScheduler

variable {Access : Type} {conflict : Access → Access → Bool} {s u : ToolScheduler Access}

/-- The completions that are still to come. -/
def remaining (s : ToolScheduler Access) : ℕ := s.activeTasks.length + s.queuedTasks.length

/-- The active tasks have promises. -/
def Settles (s : ToolScheduler Access) : Prop := ∀ a ∈ s.activeTasks, a.startThrows = false

theorem scan_settles {rescan : ToolScheduler Access → ScheduleResult Access}
    {rest passed : List (ScheduledToolCallTask Access)} (hs : s.Settles)
    (hreturns : ∀ a ∈ rest, a.startThrows = false)
    (hu : scan conflict rescan rest passed s = .ok u) :
    u.Settles ∧ u.added = s.added ∧
      u.remaining = s.activeTasks.length + passed.length + rest.length := by
  induction rest generalizing passed s with
  | nil =>
    cases hu
    exact ⟨hs, rfl, rfl⟩
  | cons task rest ih =>
    obtain ⟨hreturn, hrest⟩ := forall_mem_cons.1 hreturns
    unfold scan at hu
    split at hu
    · obtain ⟨hsettles, hadded, hcount⟩ := ih hs hrest hu
      refine ⟨hsettles, hadded, hcount.trans ?_⟩
      rw [length_append, length_singleton, length_cons]
      omega
    · rw [start, hreturn] at hu
      have hactive : (s.activate task).Settles := by
        intro a ha
        rcases mem_append.1 ha with ha | ha
        · exact hs a ha
        · exact mem_singleton.1 ha ▸ hreturn
      obtain ⟨hsettles, hadded, hcount⟩ := ih hactive hrest hu
      refine ⟨hsettles, hadded, hcount.trans ?_⟩
      rw [activate, length_append, length_singleton, length_cons]
      omega

variable {depth : ℕ} (hcomm : ∀ a b, conflict a b = conflict b a) (h : Scheduled conflict s)
  (hs : s.Settles)

include hcomm h hs

theorem Settles.settle {id : ℕ} (hu : step conflict depth s (.settle id) = some u) :
    u.Settles ∧ u.added = s.added ∧ u.remaining + 1 = s.remaining := by
  obtain ⟨r, hr, rfl⟩ := map_eq_some_iff.1 hu
  obtain ⟨task, htask, rfl⟩ := map_eq_some_iff.1 hr
  obtain ⟨v, hv, -⟩ := h.finish hcomm depth task
  rw [hv]
  have hmem : task ∈ s.activeTasks := mem_of_find?_eq_some htask
  have hlength : (s.release task).activeTasks.length + 1 = s.activeTasks.length := by
    have heq := length_eraseP_of_mem (p := (·.id == task.id)) hmem (beq_self_eq_true task.id)
    have hpos := length_pos_of_mem hmem
    rw [release, heq]
    omega
  obtain ⟨hsettles, hadded, hcount⟩ :=
    scan_settles (fun a ha => hs a (mem_of_mem_eraseP ha)) h.returns hv
  refine ⟨hsettles, hadded, ?_⟩
  change v.remaining + 1 = _
  rw [hcount, remaining]
  simp only [length_nil]
  omega

theorem Settles.step {a : ScheduleStep Access} (hok : WaitsToReturn conflict s a)
    (hu : ToolScheduler.step conflict depth s a = some u) : u.Settles := by
  cases a with
  | settle id => exact (hs.settle hcomm h hu).1
  | add accesses startThrows =>
    obtain ⟨r, hr, rfl⟩ := map_eq_some_iff.1 hu
    obtain ⟨v, rfl, -⟩ := h.performed hcomm depth hok hr
    have hv : ToolScheduler.add conflict (depth + 1) s accesses startThrows = .ok v :=
      some.inj hr
    unfold ToolScheduler.add at hv
    dsimp only at hv
    split_ifs at hv with hblocked
    · cases hv
      exact hs
    · unfold start at hv
      split_ifs at hv with hthrows
      · have hothers : ∀ a ∈ s.activeTasks,
            ¬(a.id == (s.nextTask accesses startThrows).id) = true := by
          intro a ha heq
          have hlt := h.keeps.id_lt (h.keeps.once.subset (mem_append_left _ (h.keeps.active a ha)))
          rw [beq_iff_eq.1 heq] at hlt
          exact Nat.lt_irrefl _ hlt
        refine (scan_settles (fun a ha => hs a ?_) h.returns hv).1
        simpa [release, activate, eraseP_append_right _ hothers] using ha
      · cases hv
        intro a ha
        rcases mem_append.1 ha with ha | ha
        · exact hs a ha
        · rw [mem_singleton.1 ha]
          exact Bool.eq_false_iff.2 hthrows

omit hcomm in
/-- What is left is never stuck. -/
theorem Settles.exists_settle (depth : ℕ) (hleft : 0 < s.remaining) :
    ∃ task ∈ s.activeTasks, ∃ u,
      ToolScheduler.step conflict depth s (.settle task.id) = some u := by
  have hactive : s.activeTasks ≠ [] := by
    intro hnone
    cases hqueue : s.queuedTasks with
    | nil => simp [remaining, hnone, hqueue] at hleft
    | cons task behind =>
      have hblocked := h.noneReady [] task behind hqueue
      simp [isBlocked, conflictsWithAny, hnone] at hblocked
  obtain ⟨task, htask⟩ := exists_mem_of_ne_nil _ hactive
  have hrunning : (s.running task.id).isSome := by
    refine find?_isSome.2 ⟨task, htask, ?_⟩
    simp [hs task htask]
  obtain ⟨found, hfound⟩ := isSome_iff_exists.1 hrunning
  exact ⟨task, htask, _, by rw [ToolScheduler.step, performed, hfound]; rfl⟩

/-- **Completions** one after another. -/
theorem Settles.run {ids : List ℕ}
    (hu : LibRun.exec (ToolScheduler.step conflict depth) s (ids.map .settle) = some u) :
    Scheduled conflict u ∧ u.Settles ∧ u.added = s.added ∧
      ids.length + u.remaining = s.remaining := by
  induction ids generalizing s with
  | nil =>
    cases hu
    exact ⟨h, hs, rfl, Nat.zero_add _⟩
  | cons id ids ih =>
    obtain ⟨t, ht, htu⟩ := bind_eq_some_iff.1 hu
    obtain ⟨hsettles, hadded, hcount⟩ := hs.settle hcomm h ht
    obtain ⟨hscheduled, hlast, hlastAdded, hlastCount⟩ :=
      ih (h.step (a := .settle id) hcomm depth trivial ht) hsettles htu
    refine ⟨hscheduled, hlast, hlastAdded.trans hadded, ?_⟩
    rw [length_cons]
    omega

end ToolScheduler

/-- **Completions empty the scheduler**, in whatever order the promises settle, as long as no start
function of a task that had to wait throws.  Each takes off one of the tasks that are active or
wait, one can come while any is left, and then every task has been started exactly once. -/
theorem schedule_drains (toLowerCase : String → String) (depth : ℕ)
    {s : ToolScheduler ToolAccesses} {steps : List (ScheduleStep ToolAccesses)}
    (h : LibRun.Run (ToolScheduler.step (conflict toLowerCase) depth)
      (ToolScheduler.WaitsToReturn (conflict toLowerCase)) {} steps s)
    {u : ToolScheduler ToolAccesses} {ids : List ℕ}
    (hu : LibRun.exec (ToolScheduler.step (conflict toLowerCase) depth) s (ids.map .settle) =
      some u) :
    ids.length + u.remaining = s.remaining ∧
      (0 < u.remaining → ∃ task ∈ u.activeTasks, ∃ v,
        ToolScheduler.step (conflict toLowerCase) depth u (.settle task.id) = some v) ∧
      (u.remaining = 0 → u.started.Perm s.added) := by
  have hcomm := conflict_comm toLowerCase
  obtain ⟨hscheduled, hsettles⟩ := h.invariant
    (I := fun t => ToolScheduler.Scheduled (conflict toLowerCase) t ∧ t.Settles)
    ⟨ToolScheduler.Scheduled.initial, by simp [ToolScheduler.Settles]⟩
    fun _ _ _ ht hok hv => ⟨ht.1.step hcomm depth hok hv, ht.2.step hcomm ht.1 hok hv⟩
  obtain ⟨hlast, hlastSettles, hadded, hcount⟩ := hsettles.run hcomm hscheduled hu
  refine ⟨hcount, hlastSettles.exists_settle hlast depth, fun hnone => ?_⟩
  obtain ⟨-, hqueue⟩ := Nat.add_eq_zero_iff.1 hnone
  have honce := hlast.keeps.once
  rwa [length_eq_zero_iff.1 hqueue, append_nil, hadded] at honce

theorem schedule_drains_writeReadWrite : ∃ s u : ToolScheduler ToolAccesses,
    s.remaining = 2 ∧ LibRun.exec (ToolScheduler.step (conflict id) 10) s [.settle 1, .settle 2] =
      some u ∧ u.started.Perm s.added := by
  have hrun : ∃ s, LibRun.Run (ToolScheduler.step (conflict id) 10)
      (ToolScheduler.WaitsToReturn (conflict id)) {} writeReadWrite s ∧ s.remaining = 2 ∧
        ∃ u, LibRun.exec (ToolScheduler.step (conflict id) 10) s ([1, 2].map .settle) = some u :=
    ⟨_, LibRun.run_of_exec rfl (by decide +kernel), by decide +kernel, _, rfl⟩
  obtain ⟨s, hs, hleft, u, hu⟩ := hrun
  obtain ⟨hcount, -, hdone⟩ := schedule_drains id 10 hs hu
  exact ⟨s, u, hleft, hu, hdone (by rw [hleft] at hcount; simpa using hcount)⟩

/-! ### Start functions that throw -/

namespace ToolScheduler

variable {Access : Type} {conflict : Access → Access → Bool}

/-- The start function of the only waiting task throws: its scan starts it once more, until the
stack is full. -/
theorem startQueuedTasks_throws (depth : ℕ) {s : ToolScheduler Access}
    {task : ScheduledToolCallTask Access} (hactive : s.activeTasks = [])
    (hqueued : s.queuedTasks = [task]) (hthrows : task.startThrows = true) :
    startQueuedTasks conflict depth s =
      .error { s with started := s.started ++ List.replicate depth task } := by
  induction depth generalizing s with
  | zero => simp [startQueuedTasks]
  | succ depth ih =>
    have hfree : s.isBlocked conflict task [] = false := isBlocked_eq_false.2 (by simp [hactive])
    have hgone : ((s.activate task).release task).activeTasks = [] := by
      simp [activate, release, hactive]
    simp only [startQueuedTasks, hqueued, scan, hfree, start, hthrows, if_true, ih hgone hqueued]
    cases s
    simp_all [activate, release, replicate_succ]

theorem step_throws (depth : ℕ) {s : ToolScheduler Access} {id : ℕ}
    {first task : ScheduledToolCallTask Access} (hrunning : s.running id = some first)
    (hactive : s.activeTasks = [first]) (hqueued : s.queuedTasks = [task])
    (hthrows : task.startThrows = true) :
    step conflict depth s (.settle id) = some { s with
      activeTasks := []
      started := s.started ++ List.replicate (depth + 1) task } := by
  have hgone : (s.release first).activeTasks = [] := by simp [release, hactive]
  simp only [step, performed, hrunning, map_some, finish,
    startQueuedTasks_throws (depth + 1) hgone hqueued hthrows, ScheduleResult.state]
  simp [release, hactive]

end ToolScheduler

theorem length_filter_calls {Access : Type} {p : ScheduledToolCallTask Access → Bool}
    {l : List (ScheduledToolCallTask Access)} {task : ScheduledToolCallTask Access} (n : ℕ)
    (hl : l.filter p = []) (htask : p task = true) :
    ((l ++ List.replicate n task).filter p).length = n := by
  simp [hl, htask]

/-- A task waits for the one that is active; its start function is going to throw. -/
def blockedWriter : ToolScheduler ToolAccesses where
  activeTasks := [⟨0, .writeFile "/repo/a.ts", false⟩]
  queuedTasks := [⟨1, .writeFile "/repo/a.ts", true⟩]
  added := [⟨0, .writeFile "/repo/a.ts", false⟩, ⟨1, .writeFile "/repo/a.ts", true⟩]
  started := [⟨0, .writeFile "/repo/a.ts", false⟩]

/-- **A start function that throws is called again and again.**  The second task has to wait for the
first one; when that finishes, the scan starts the second task until the stack is full. -/
theorem queued_start_repeats : ∃ s : ToolScheduler ToolAccesses,
    LibRun.Run (ToolScheduler.step (conflict id) 10000) LibRun.always {}
      [.add (.writeFile "/repo/a.ts") false, .add (.writeFile "/repo/a.ts") true, .settle 0] s ∧
      (s.started.filter (·.id == 1)).length = 10001 := by
  have hwaits : LibRun.Run (ToolScheduler.step (conflict id) 10000) LibRun.always {}
      [.add (.writeFile "/repo/a.ts") false, .add (.writeFile "/repo/a.ts") true] blockedWriter :=
    LibRun.run_of_exec rfl (LibRun.legal_always _ _)
  have hrunning : blockedWriter.running 0 = some ⟨0, .writeFile "/repo/a.ts", false⟩ := rfl
  refine ⟨_, hwaits.snoc trivial (ToolScheduler.step_throws 10000 hrunning rfl rfl rfl), ?_⟩
  exact length_filter_calls (10000 + 1) rfl rfl

end NoriCode
