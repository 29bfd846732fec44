/-
**Every run of a cron task is delivered once.**

What the deliveries of a task count are its first runs since it was created, one after the other,
and the last of them is what is written down with the task.  So the next delivery goes on where the
last one stopped, in this process or in the next one, as long as a restart finds every file as it
should be.  A tick of an idle agent leaves out no run that has come with its jitter: the jitter
keeps the order of the runs, so when the next run has not come, no later one has.

Main definitions:

* `DeliveriesOf` — the deliveries of a task are what they should be;
* `CronRuntime.Orderly` — the condition on a step: nothing is done behind the back of a
  load, and a restart finds every file up to date;
* `CronRuntime.Keeping` — the invariant.

Main results:

* `cron_deliveries` — **every run is delivered once, and not before its time**.
-/

import NoriCode.CronScheduler
import NoriCode.CronMirror

namespace NoriCode

open LibOrdMap LibOrdSet LibOccurrences List Option Function OrdMap

/-! ### The deliveries of a task -/

/-- The next run; there is none where the expression is not one. -/
def nextRun (env : CronEnv) (cron : String) (t : ℤ) : Option ℤ :=
  (parseCronExpression cron).toOption.bind fun parsed => computeNextCronRun env.zone parsed t

/-- **The next run is later**, always.  It is, where the clocks are not set back. -/
def RunsLater (env : CronEnv) (cron : String) : Prop :=
  ∀ a b, nextRun env cron a = some b → a < b

/-- A run has come by an instant, with its jitter. -/
def CronTask.DueAt (env : CronEnv) (task : CronTask) (run now : ℤ) : Prop :=
  ∃ parsed, parseCronExpression task.cron = .ok parsed ∧ jitteredTime env task parsed run ≤ now

/-- A task as it was added. -/
def CronTask.asAdded (task : CronTask) : CronTask := { task with lastFiredAt := none }

/-- The runs that are counted, one delivery after the other. -/
def countedRuns (ds : List CronDelivery) : List ℤ := ds.flatMap (·.counted)

/-- **The deliveries of a task.**  Together they count the first runs since the task was created. -/
structure DeliveriesOf (env : CronEnv) (task : CronTask) (ds : List CronDelivery) : Prop where
  ofTask : ∀ d ∈ ds, d.task.asAdded = task.asAdded
  counts : ∀ d ∈ ds, d.counted.length = d.coalescedCount ∧ 1 ≤ d.coalescedCount ∧
    d.coalescedCount ≤ MAX_COALESCE_ITERATIONS
  runs : countedRuns ds =
    occurrences (nextRun env task.cron) (countedRuns ds).length task.createdAt
  increasing : (countedRuns ds).Pairwise (· < ·)
  reached : ∀ d ∈ ds, ∀ run ∈ d.counted, task.DueAt env run d.deliveredAt
  oneShot : task.isOneShot = true → ds.length ≤ 1 ∧ ∀ d ∈ ds, d.coalescedCount = 1

theorem countedRuns_append (ds : List CronDelivery) (d : CronDelivery) :
    countedRuns (ds ++ [d]) = countedRuns ds ++ d.counted := by
  simp [countedRuns]

theorem countedRuns_append_getLastD (ds : List CronDelivery) (d : CronDelivery) (base : ℤ) :
    (countedRuns (ds ++ [d])).getLastD base =
      d.counted.getLastD ((countedRuns ds).getLastD base) := by
  simp [countedRuns_append]

variable {env : CronEnv}

theorem nextRun_of_parse {task : CronTask} {parsed : ParsedCronExpression}
    (hparse : parseCronExpression task.cron = .ok parsed) :
    nextRun env task.cron = computeNextCronRun env.zone parsed := by
  funext t
  simp [nextRun, hparse, Except.toOption]

theorem runsLater_of_neverSetBack (hzone : env.zone.NeverSetBack) (cron : String) :
    RunsLater env cron := by
  intro a b h
  obtain ⟨parsed, -, hnext⟩ := bind_eq_some_iff.1 h
  exact computeNextCronRun_lt hzone hnext

theorem DeliveriesOf.nil (env : CronEnv) (task : CronTask) : DeliveriesOf env task [] := by
  refine ⟨?_, ?_, rfl, List.Pairwise.nil, ?_, fun _ => ⟨Nat.zero_le 1, ?_⟩⟩
  · intro d hd
    cases hd
  · intro d hd
    cases hd
  · intro d hd
    cases hd
  · intro d hd
    cases hd

theorem DeliveriesOf.congr {task other : CronTask} {ds : List CronDelivery}
    (h : DeliveriesOf env task ds) (hsame : other.asAdded = task.asAdded) :
    DeliveriesOf env other ds := by
  have hother : other = { task with lastFiredAt := other.lastFiredAt } := by
    cases other
    cases task
    simp only [CronTask.asAdded, CronTask.mk.injEq, and_true] at hsame ⊢
    exact hsame
  rw [hother]
  exact ⟨h.ofTask, h.counts, h.runs, h.increasing, h.reached, h.oneShot⟩

theorem DeliveriesOf.created_lt {task : CronTask} {ds : List CronDelivery}
    (hlater : RunsLater env task.cron) (h : DeliveriesOf env task ds) {run : ℤ}
    (hrun : run ∈ countedRuns ds) : task.createdAt < run := by
  rw [h.runs] at hrun
  exact lt_of_mem_occurrences hlater hrun

/-- **A delivery goes on** from the last run that was counted. -/
theorem DeliveriesOf.snoc {task : CronTask} {ds : List CronDelivery}
    (hlater : RunsLater env task.cron) (h : DeliveriesOf env task ds) {d : CronDelivery}
    (htask : d.task.asAdded = task.asAdded)
    (hcounted : d.counted = occurrences (nextRun env task.cron) d.coalescedCount
      ((countedRuns ds).getLastD task.createdAt))
    (hcount : d.counted.length = d.coalescedCount ∧ 1 ≤ d.coalescedCount ∧
      d.coalescedCount ≤ MAX_COALESCE_ITERATIONS)
    (hreached : ∀ run ∈ d.counted, task.DueAt env run d.deliveredAt)
    (honeShot : task.isOneShot = true → ds = [] ∧ d.coalescedCount = 1) :
    DeliveriesOf env task (ds ++ [d]) := by
  have hruns : countedRuns (ds ++ [d]) =
      occurrences (nextRun env task.cron) (countedRuns (ds ++ [d])).length task.createdAt := by
    have hlength :
        (occurrences (nextRun env task.cron) (countedRuns ds).length task.createdAt).length =
        (countedRuns ds).length := congrArg List.length h.runs.symm
    rw [countedRuns_append, length_append, hcount.1, occurrences_append hlength, ← h.runs,
      ← hcounted]
  refine ⟨fun e he => ?_, fun e he => ?_, hruns, ?_, fun e he => ?_, fun hone => ?_⟩
  · rcases mem_append.1 he with hold | hnew
    · exact h.ofTask e hold
    · rw [mem_singleton.1 hnew]
      exact htask
  · rcases mem_append.1 he with hold | hnew
    · exact h.counts e hold
    · rw [mem_singleton.1 hnew]
      exact hcount
  · rw [hruns]
    exact occurrences_pairwise hlater
  · rcases mem_append.1 he with hold | hnew
    · exact h.reached e hold
    · rw [mem_singleton.1 hnew]
      exact hreached
  · obtain ⟨rfl, hone⟩ := honeShot hone
    refine ⟨le_rfl, fun e he => ?_⟩
    rw [nil_append, mem_singleton] at he
    rw [he]
    exact hone

/-! ### What a delivery counts -/

section Counts

variable {env : CronEnv} {task : CronTask} {parsed : ParsedCronExpression}

/-- Runs of a recurring task that have not come: when the next one has not come, no later one
has. -/
theorem not_due (hlater : ∀ a b, computeNextCronRun env.zone parsed a = some b → a < b)
    (hrecurring : task.isOneShot = false)
    {now last run : ℤ} {n : ℕ}
    (hnext : ∀ next, computeNextCronRun env.zone parsed last = some next →
      (now : ℚ) < jitteredTime env task parsed next)
    (hrun : run ∈ occurrences (computeNextCronRun env.zone parsed) n last) :
    (now : ℚ) < jitteredTime env task parsed run := by
  cases hfirst : computeNextCronRun env.zone parsed last with
  | none =>
    rw [occurrences_of_none hfirst] at hrun
    cases hrun
  | some first =>
    have hlate := hnext first hfirst
    rcases eq_or_le_of_mem_occurrences hlater hfirst hrun with rfl | ⟨second, hsecond, hle⟩
    · exact hlate
    · simp only [jitteredTime, hrecurring, Bool.false_eq_true, if_false] at hlate ⊢
      calc (now : ℚ) < jitteredNextCronRunMs env task.id parsed first := hlate
        _ ≤ second := jittered_le_next env task.id parsed first hsecond (hlater _ _ hsecond)
        _ ≤ run := by exact_mod_cast hle
        _ ≤ jitteredNextCronRunMs env task.id parsed run := le_jittered env task.id parsed run

/-- What the loop counts: runs that have come, and all of them, unless it has counted enough. -/
structure LoopCounts (env : CronEnv) (task : CronTask) (parsed : ParsedCronExpression) (now : ℤ)
    (rounds : ℕ) (cursor : ℤ) (counts : ℕ × ℤ) : Prop where
  le : counts.1 ≤ rounds
  length : (occurrences (computeNextCronRun env.zone parsed) counts.1 cursor).length = counts.1
  last : counts.2 =
    (occurrences (computeNextCronRun env.zone parsed) counts.1 cursor).getLastD cursor
  due : ∀ run ∈ occurrences (computeNextCronRun env.zone parsed) counts.1 cursor,
    jitteredTime env task parsed run ≤ now
  all : counts.1 = rounds ∨ ∀ next, computeNextCronRun env.zone parsed counts.2 = some next →
    (now : ℚ) < jitteredTime env task parsed next

theorem LoopCounts.zero {now : ℤ} {rounds : ℕ} {cursor : ℤ}
    (h : 0 = rounds ∨ ∀ next, computeNextCronRun env.zone parsed cursor = some next →
      (now : ℚ) < jitteredTime env task parsed next) :
    LoopCounts env task parsed now rounds cursor (0, cursor) := by
  refine ⟨Nat.zero_le rounds, rfl, rfl, fun run hrun => ?_, h⟩
  cases hrun

theorem LoopCounts.succ {now : ℤ} {rounds : ℕ} {cursor next : ℤ} {counts : ℕ × ℤ}
    (hnext : computeNextCronRun env.zone parsed cursor = some next)
    (hdue : jitteredTime env task parsed next ≤ now)
    (h : LoopCounts env task parsed now rounds next counts) :
    LoopCounts env task parsed now (rounds + 1) cursor (counts.1 + 1, counts.2) := by
  refine ⟨Nat.succ_le_succ h.le, ?_, ?_, fun run hrun => ?_, h.all.imp (congrArg Nat.succ) id⟩
  · rw [occurrences_succ hnext, length_cons, h.length]
  · rw [occurrences_succ hnext, getLastD_cons]
    exact h.last
  · rw [occurrences_succ hnext] at hrun
    rcases mem_cons.1 hrun with rfl | hrun
    · exact hdue
    · exact h.due run hrun

theorem countLoop_counts (hrecurring : task.isOneShot = false) (now : ℤ) (rounds : ℕ) (cursor : ℤ) :
    LoopCounts env task parsed now rounds cursor (countLoop env task parsed now rounds cursor) := by
  induction rounds generalizing cursor with
  | zero => exact LoopCounts.zero (Or.inl rfl)
  | succ rounds ih =>
    rw [countLoop]
    cases hnext : computeNextCronRun env.zone parsed cursor with
    | none =>
      refine LoopCounts.zero (Or.inr fun next h => ?_)
      rw [hnext] at h
      cases h
    | some next =>
      dsimp only
      split_ifs with hlater hjitter
      · -- a run that has not come has not come with its jitter either
        refine LoopCounts.zero (Or.inr fun next' h => ?_)
        cases hnext.symm.trans h
        have hle := le_jittered env task.id parsed next
        simp only [jitteredTime, hrecurring, Bool.false_eq_true, if_false]
        exact lt_of_lt_of_le (by exact_mod_cast hlater) hle
      · refine LoopCounts.zero (Or.inr fun next' h => ?_)
        cases hnext.symm.trans h
        exact hjitter
      · exact (ih next).succ hnext (not_lt.1 hjitter)

/-- **What a delivery counts**: the runs that have come, and all of them, unless it has counted
enough. -/
theorem countCoalesced_counts (hrecurring : task.isOneShot = false) {now base first : ℤ}
    (hfirst : computeNextCronRun env.zone parsed base = some first)
    (hdue : jitteredTime env task parsed first ≤ now) :
    LoopCounts env task parsed now MAX_COALESCE_ITERATIONS base
        (countCoalesced env task parsed first now) ∧
      1 ≤ (countCoalesced env task parsed first now).1 := by
  have hrest : LoopCounts env task parsed now (MAX_COALESCE_ITERATIONS - 1) first
      (countLoop env task parsed now (MAX_COALESCE_ITERATIONS - 1) first) :=
    countLoop_counts hrecurring now _ first
  exact ⟨hrest.succ hfirst hdue, Nat.succ_pos _⟩

end Counts

/-! ### The manager -/

namespace CronManager

variable {s t : CronManager} {id j : String}

@[simp] theorem advanceCursor_loading (s : CronManager) (id : String) (lastFiredAt : ℤ) :
    (s.advanceCursor id lastFiredAt).loading = s.loading := by
  unfold advanceCursor
  split <;> rfl

theorem stillToRead_congr (h : t.loading = s.loading) : t.stillToRead id = s.stillToRead id := by
  unfold stillToRead
  rw [h]

variable {task : CronTask}

theorem expected_of_removeTasks {ids : List String}
    (h : (s.removeTasks ids).expected.get j = some task) : s.expected.get j = some task := by
  induction ids generalizing s with
  | nil => exact h
  | cons id ids ih =>
    rw [Mirrors.removeTasks_cons] at h
    split_ifs at h
    · have herased : (s.expected.erase id).get j = some task := ih h
      rw [get_erase] at herased
      split_ifs at herased
      exact herased
    · exact ih h

theorem removeTasks_of_stored (hid : (s.store.get id).isSome = true) :
    s.removeTasks [id] = { s.removed id with store := s.store.erase id } := by
  rw [Mirrors.removeTasks_cons, if_pos hid]
  rfl

theorem advanceCursor_of_stored (hid : s.store.get id = some task) (lastFiredAt : ℤ) :
    s.advanceCursor id lastFiredAt =
      { s.persistEnqueue id (.write { task with lastFiredAt := some lastFiredAt }) with
        store := s.store.set id { task with lastFiredAt := some lastFiredAt }
        expected := s.expected.set id { task with lastFiredAt := some lastFiredAt } } := by
  simp [advanceCursor, SessionCronStore.markFired, hid]

theorem advanceCursor_of_none (hid : s.store.get id = none) (lastFiredAt : ℤ) :
    s.advanceCursor id lastFiredAt = s := by
  simp [advanceCursor, SessionCronStore.markFired, hid]

theorem expected_of_management {a : CronStep} (ha : a.isManagement = true) (ht : s.step a = some t)
    (h : t.expected.get j = some task) : s.expected.get j = some task := by
  cases a with
  | remove ids =>
    cases ht
    exact expected_of_removeTasks h
  | persist id =>
    simp only [CronManager.step, CronManager.persist] at ht
    split at ht <;> cases ht
    exact h
  | loadFromDisk | readdir =>
    simp only [CronManager.step] at ht
    split_ifs at ht
    cases ht
    exact h
  | read =>
    simp only [CronManager.step, readEntry] at ht
    split at ht <;> cases ht
    exact h
  | finishLoad =>
    simp only [CronManager.step, CronManager.finishLoad] at ht
    split at ht <;> cases ht
    exact h
  | add | advance | restart => cases ha

/-- After a delivery the task is gone, or written down with its last run; no other one is
changed. -/
structure Fired (s t : CronManager) (task : CronTask) (last : ℤ) : Prop where
  mirrors : Mirrors t
  loading : t.loading = s.loading
  store : ∀ j, j ≠ task.id → t.store.get j = s.store.get j
  expected : ∀ j, j ≠ task.id → t.expected.get j = s.expected.get j
  written : ∀ fired, t.expected.get task.id = some fired →
    task.isOneShot = false ∧ fired = { task with lastFiredAt := some last }

theorem Fired.removeTasks (h : Mirrors s) (hid : s.store.get task.id = some task)
    (hread : s.stillToRead task.id = true) (last : ℤ) :
    Fired s (s.removeTasks [task.id]) task last := by
  have hsome : (s.store.get task.id).isSome = true := by rw [hid, isSome_some]
  rw [removeTasks_of_stored hsome]
  refine ⟨h.removeTask hread, rfl, fun j hj => ?_, fun j hj => ?_, fun fired hfired => ?_⟩
  · exact (get_erase _ _ _).trans (if_neg hj)
  · exact (get_erase _ _ _).trans (if_neg hj)
  · have hnone : (s.expected.erase task.id).get task.id = none :=
      (get_erase _ _ _).trans (if_pos rfl)
    change (s.expected.erase task.id).get task.id = some fired at hfired
    rw [hnone] at hfired
    cases hfired

theorem Fired.advanceCursor (h : Mirrors s) (hid : s.store.get task.id = some task)
    (hread : s.stillToRead task.id = true) (hrecurring : task.isOneShot = false) (last : ℤ) :
    Fired s (s.advanceCursor task.id last) task last := by
  refine ⟨h.advance fun _ => hread, advanceCursor_loading _ _ _, fun j hj => ?_, fun j hj => ?_,
    fun fired hfired => ⟨hrecurring, ?_⟩⟩
  · rw [advanceCursor_of_stored hid]
    exact (get_set _ _ _ _).trans (if_neg hj)
  · rw [advanceCursor_of_stored hid]
    exact (get_set _ _ _ _).trans (if_neg hj)
  · rw [advanceCursor_of_stored hid] at hfired
    exact (some.inj (((get_set _ _ _ _).trans (if_pos rfl)).symm.trans hfired)).symm

theorem Fired.stale (h : Mirrors s) (hid : s.store.get task.id = some task)
    (hread : s.stillToRead task.id = true) (last : ℤ) :
    Fired s ((s.removeTasks [task.id]).advanceCursor task.id last) task last := by
  have hsome : (s.store.get task.id).isSome = true := by rw [hid, isSome_some]
  have hgone : (s.removeTasks [task.id]).store.get task.id = none := by
    rw [removeTasks_of_stored hsome]
    exact (get_erase _ _ _).trans (if_pos rfl)
  rw [advanceCursor_of_none hgone]
  exact Fired.removeTasks h hid hread last

end CronManager

namespace CronRuntime

/-! ### A delivery -/

/-- **A task was delivered.** -/
structure Delivers (env : CronEnv) (s t : CronRuntime) (task : CronTask)
    (parsed : ParsedCronExpression) (base : ℤ) (d : CronDelivery) : Prop where
  now : t.now = s.now
  delivered : t.delivered = update s.delivered task.id (s.delivered task.id ++ [d])
  ofTask : d.task = task
  deliveredAt : d.deliveredAt = s.now
  counted : d.counted = occurrences (computeNextCronRun env.zone parsed) d.coalescedCount base
  counts : d.counted.length = d.coalescedCount ∧ 1 ≤ d.coalescedCount ∧
    d.coalescedCount ≤ MAX_COALESCE_ITERATIONS
  due : ∀ run ∈ d.counted, jitteredTime env task parsed run ≤ s.now
  all : task.isOneShot = false → d.coalescedCount = MAX_COALESCE_ITERATIONS ∨
    ∀ next, computeNextCronRun env.zone parsed (d.counted.getLastD base) = some next →
      (s.now : ℚ) < jitteredTime env task parsed next
  oneShot : task.isOneShot = true → d.coalescedCount = 1
  manager : CronManager.Fired s.manager t.manager task (d.counted.getLastD base)
  seen : t.lastSeenAt.get task.id =
    if task.isOneShot = true then none else some (d.counted.getLastD base)
  others : ∀ j, j ≠ task.id → t.lastSeenAt.get j = s.lastSeenAt.get j ∧
    (j ∈ t.seededFromDisk ↔ j ∈ s.seededFromDisk)

/-- **A task that is due is delivered.** -/
theorem fire_delivers {env : CronEnv} {s : CronRuntime} {task : CronTask}
    {parsed : ParsedCronExpression} {base first : ℤ} (hmirrors : s.manager.Mirrors)
    (hid : s.manager.store.get task.id = some task)
    (hread : s.manager.stillToRead task.id = true)
    (hfirst : computeNextCronRun env.zone parsed base = some first)
    (hdue : jitteredTime env task parsed first ≤ s.now) :
    ∃ d, Delivers env s (s.fire env task parsed base) task parsed base d := by
  cases hone : task.isOneShot with
  | true =>
    have hstale : isStale env task s.now = false := by
      simp [isStale, hone]
    have hcounted : occurrences (computeNextCronRun env.zone parsed) 1 base = [first] :=
      occurrences_succ hfirst
    have hmax : 1 ≤ MAX_COALESCE_ITERATIONS := by decide
    refine ⟨⟨task, 1, s.now, [first]⟩, ?_⟩
    simp only [fire, hfirst, hone, handleFire, hstale, hcounted, if_true, Bool.false_eq_true,
      if_false]
    refine ⟨rfl, rfl, rfl, rfl, hcounted.symm, ⟨rfl, le_rfl, hmax⟩, fun run hrun => ?_,
      fun h => ?_, fun _ => rfl, CronManager.Fired.removeTasks hmirrors hid hread _, ?_,
      fun j hj => ⟨?_, ?_⟩⟩
    · rw [mem_singleton.1 hrun]
      exact hdue
    · rw [hone] at h
      cases h
    · rw [hone]
      exact (get_erase _ _ _).trans (if_pos rfl)
    · exact (get_erase _ _ _).trans (if_neg hj)
    · exact OrdSet.mem_erase.trans (and_iff_left hj)
  | false =>
    obtain ⟨hcounts, hpos⟩ := countCoalesced_counts hone hfirst hdue
    generalize hresult : countCoalesced env task parsed first s.now = result at hcounts hpos
    obtain ⟨count, lastDueMs⟩ := result
    have hlast := hcounts.last
    refine ⟨⟨task, count, s.now, occurrences (computeNextCronRun env.zone parsed) count base⟩, ?_⟩
    simp only [fire, hfirst, hone, handleFire, hresult, Bool.false_eq_true, if_false,
      getD_some, max_eq_right hpos]
    refine ⟨rfl, rfl, rfl, rfl, rfl, ⟨hcounts.length, hpos, hcounts.le⟩, hcounts.due,
      fun _ => ?_, fun h => ?_, ?_, ?_, fun j hj => ⟨?_, Iff.rfl⟩⟩
    · rw [← hlast]
      exact hcounts.all
    · rw [hone] at h
      cases h
    · rw [← hlast]
      split_ifs
      · exact CronManager.Fired.stale hmirrors hid hread _
      · exact CronManager.Fired.advanceCursor hmirrors hid hread hone _
    · rw [← hlast, hone]
      exact (get_set _ _ _ _).trans (if_pos rfl)
    · exact (get_set _ _ _ _).trans (if_neg hj)

theorem tickTask_cases (env : CronEnv) (throws : List String) (s : CronRuntime) (task : CronTask) :
    (s.tickTask env throws task = s ∧ ∃ e, parseCronExpression task.cron = .error e) ∨
      ∃ parsed base, parseCronExpression task.cron = .ok parsed ∧
        base = (s.seed task).baseFromMs task ∧
        (s.tickTask env throws task = s.seed task ∧ (task.id ∈ throws ∨
            ∀ next, computeNextCronRun env.zone parsed base = some next →
              (s.now : ℚ) < jitteredTime env task parsed next) ∨
          ∃ first, computeNextCronRun env.zone parsed base = some first ∧
            jitteredTime env task parsed first ≤ s.now ∧
            s.tickTask env throws task = (s.seed task).fire env task parsed base) := by
  unfold tickTask
  cases hparse : parseCronExpression task.cron with
  | error e => exact Or.inl ⟨rfl, e, rfl⟩
  | ok parsed =>
    refine Or.inr ⟨parsed, _, rfl, rfl, ?_⟩
    dsimp only
    cases hnext : computeNextCronRun env.zone parsed ((s.seed task).baseFromMs task) with
    | none =>
      refine Or.inl ⟨?_, Or.inr fun next h => by cases h⟩
      rw [computeJitteredNext, hnext]
      rfl
    | some first =>
      rw [computeJitteredNext, hnext, map_some]
      dsimp only
      split_ifs with hearly hthrows
      · refine Or.inl ⟨rfl, Or.inr fun next h => ?_⟩
        cases h
        exact hearly
      · exact Or.inl ⟨rfl, Or.inl hthrows⟩
      · exact Or.inr ⟨first, rfl, not_lt.1 hearly, rfl⟩

/-! ### The invariant -/

/-- What is known about a task that there should be: the last run that was counted is written down
with it, and what was seen of it is that run. -/
structure Keeps (env : CronEnv) (s : CronRuntime) (task : CronTask) : Prop where
  later : RunsLater env task.cron
  deliveries : DeliveriesOf env task (s.delivered task.id)
  created : task.createdAt ≤ s.now
  past : ∀ run ∈ countedRuns (s.delivered task.id), run ≤ s.now
  lastFired : task.lastFiredAt = (countedRuns (s.delivered task.id)).getLast?
  seen : ∀ c, s.lastSeenAt.get task.id = some c →
    task.lastFiredAt = none ∧ c ≤ task.createdAt ∨ task.lastFiredAt = some c
  unseen : s.lastSeenAt.get task.id = none → task.id ∈ s.seededFromDisk → task.lastFiredAt = none
  oneShot : task.isOneShot = true → s.delivered task.id = []

/-- **The invariant.** -/
structure Keeping (env : CronEnv) (s : CronRuntime) : Prop where
  mirrors : s.manager.Mirrors
  seen_le : ∀ id c, s.lastSeenAt.get id = some c → c ≤ s.now
  deliveries : ∀ id, s.delivered id = [] ∨
    ∃ task : CronTask, task.id = id ∧ DeliveriesOf env task (s.delivered id)
  tasks : ∀ id task, s.manager.expected.get id = some task → task.id = id ∧ Keeps env s task

section Invariant

variable {env : CronEnv} {s t : CronRuntime} {task : CronTask}

theorem start_keeping (env : CronEnv) (now : ℤ) : Keeping env (start now) := by
  refine ⟨CronManager.Mirrors.opened fun id task h => ?_, fun id c h => ?_, fun id => Or.inl rfl,
    fun id task h => ?_⟩
  · cases h
  · cases h
  · cases h

theorem Keeps.frame (h : Keeps env s task) (hnow : s.now ≤ t.now)
    (hdelivered : t.delivered task.id = s.delivered task.id)
    (hseen : t.lastSeenAt.get task.id = s.lastSeenAt.get task.id)
    (hseeded : task.id ∈ t.seededFromDisk → task.id ∈ s.seededFromDisk) : Keeps env t task := by
  refine ⟨h.later, ?_, h.created.trans hnow, ?_, ?_, ?_, fun hnone hmem => ?_, ?_⟩
  · rw [hdelivered]
    exact h.deliveries
  · rw [hdelivered]
    exact fun run hrun => (h.past run hrun).trans hnow
  · rw [hdelivered]
    exact h.lastFired
  · rw [hseen]
    exact h.seen
  · rw [hseen] at hnone
    exact h.unseen hnone (hseeded hmem)
  · rw [hdelivered]
    exact h.oneShot

theorem Keeps.unread (h : Keeps env s task) (hnow : t.now = s.now)
    (hdelivered : t.delivered = s.delivered) (hseen : t.lastSeenAt = .empty)
    (hseeded : t.seededFromDisk = .empty) : Keeps env t task := by
  refine ⟨h.later, hdelivered ▸ h.deliveries, hnow ▸ h.created, hdelivered ▸ hnow ▸ h.past,
    hdelivered ▸ h.lastFired, fun c hc => ?_, fun _ hmem => ?_, hdelivered ▸ h.oneShot⟩
  · rw [hseen] at hc
    cases hc
  · rw [hseeded] at hmem
    exact absurd hmem (OrdSet.notMem_empty _)

theorem Keeps.new (hlater : RunsLater env task.cron) (hdelivered : s.delivered task.id = [])
    (hcreated : task.createdAt = s.now) (hfired : task.lastFiredAt = none)
    (hseen : ∀ c, s.lastSeenAt.get task.id = some c → c ≤ s.now) : Keeps env s task := by
  refine ⟨hlater, ?_, hcreated.le, ?_, ?_, fun c hc => Or.inl ⟨hfired, ?_⟩, fun _ _ => hfired,
    fun _ => hdelivered⟩
  · rw [hdelivered]
    exact DeliveriesOf.nil env task
  · rw [hdelivered]
    intro run hrun
    cases hrun
  · rw [hdelivered]
    exact hfired
  · rw [hcreated]
    exact hseen c hc

theorem Keeps.seed (h : Keeps env s task) : Keeps env (s.seed task) task := by
  refine ⟨h.later, h.deliveries, h.created, h.past, h.lastFired, fun c hc => ?_,
    fun hnone hmem => ?_,
    h.oneShot⟩
  · cases hfired : task.lastFiredAt with
    | none =>
      simp only [CronRuntime.seed, hfired] at hc
      rcases h.seen c hc with hold | hfalse
      · exact Or.inl ⟨rfl, hold.2⟩
      · rw [hfired] at hfalse
        cases hfalse
    | some lastFiredAt =>
      simp only [CronRuntime.seed, hfired] at hc
      refine Or.inr ?_
      split_ifs at hc
      · rw [get_set, if_pos rfl] at hc
        exact hc
      · rcases h.seen c hc with hfalse | hsame
        · rw [hfired] at hfalse
          cases hfalse.1
        · rw [← hfired]
          exact hsame
  · -- a task that was fired and not seen is seeded now
    cases hfired : task.lastFiredAt with
    | none => rfl
    | some lastFiredAt =>
      have hle : lastFiredAt ≤ s.now :=
        h.past lastFiredAt (mem_of_getLast? (h.lastFired.symm.trans hfired))
      simp only [CronRuntime.seed, hfired] at hnone
      split_ifs at hnone with hseed
      · rw [get_set, if_pos rfl] at hnone
        cases hnone
      · have hunseeded : task.id ∉ s.seededFromDisk := fun hmem' => by
          rw [h.unseen hnone hmem'] at hfired
          cases hfired
        exact absurd ⟨hunseeded, hle, by rw [hnone]; rfl⟩ hseed

/-- **The next run is searched for** after the last one that was counted. -/
theorem Keeps.base (h : Keeps env s task) :
    (s.seed task).baseFromMs task =
      (countedRuns (s.delivered task.id)).getLastD task.createdAt := by
  have hseed := h.seed
  rw [getLastD_eq_getLast?, ← h.lastFired]
  unfold baseFromMs
  cases hseen : (s.seed task).lastSeenAt.get task.id with
  | none =>
    have hmem : task.id ∈ (s.seed task).seededFromDisk := OrdSet.mem_insert.2 (Or.inr rfl)
    rw [hseed.unseen hseen hmem]
    rfl
  | some c =>
    rcases hseed.seen c hseen with ⟨hnone, hle⟩ | hsome
    · rw [hnone]
      exact if_neg (not_lt.2 hle)
    · have hmem : c ∈ countedRuns (s.delivered task.id) :=
        mem_of_getLast? (h.lastFired.symm.trans hsome)
      rw [hsome]
      exact if_pos (h.deliveries.created_lt h.later hmem)

theorem Keeping.id_ne (h : Keeping env s) {other : CronTask} {id : String}
    (hother : s.manager.expected.get id = some other) (hid : id ≠ task.id) :
    other.id ≠ task.id := by
  rw [(h.tasks id other hother).1]
  exact hid

theorem Keeping.seed (h : Keeping env s)
    (htask : s.manager.expected.get task.id = some task) : Keeping env (s.seed task) := by
  have hget : ∀ j, j ≠ task.id → (s.seed task).lastSeenAt.get j = s.lastSeenAt.get j := by
    intro j hj
    unfold CronRuntime.seed
    cases task.lastFiredAt with
    | none => rfl
    | some lastFiredAt =>
      dsimp only
      split_ifs
      · exact (get_set _ _ _ _).trans (if_neg hj)
      · rfl
  have hkeeps := (h.tasks task.id task htask).2
  refine ⟨h.mirrors, fun id c hc => ?_, h.deliveries, fun id other hother => ?_⟩
  · by_cases hid : id = task.id
    · rw [hid] at hc
      rcases hkeeps.seed.seen c hc with ⟨-, hle⟩ | hsome
      · exact hle.trans hkeeps.created
      · exact hkeeps.past c (mem_of_getLast? (hkeeps.lastFired.symm.trans hsome))
    · rw [hget id hid] at hc
      exact h.seen_le id c hc
  · obtain ⟨hotherId, hotherKeeps⟩ := h.tasks id other hother
    refine ⟨hotherId, ?_⟩
    by_cases hid : id = task.id
    · rw [hid] at hother
      cases hother.symm.trans htask
      exact hkeeps.seed
    · have hne : other.id ≠ task.id := h.id_ne hother hid
      refine hotherKeeps.frame le_rfl rfl (hget _ hne) fun hmem => ?_
      exact (OrdSet.mem_insert.1 hmem).resolve_right hne

variable {parsed : ParsedCronExpression}

theorem Keeps.delivers (h : Keeps env s task) {base : ℤ} {d : CronDelivery}
    (hparse : parseCronExpression task.cron = .ok parsed)
    (hbase : base = (countedRuns (s.delivered task.id)).getLastD task.createdAt)
    (hd : Delivers env s t task parsed base d) :
    DeliveriesOf env task (s.delivered task.id ++ [d]) := by
  refine h.deliveries.snoc h.later (congrArg CronTask.asAdded hd.ofTask) ?_ hd.counts
    (fun run hrun => ⟨parsed, hparse, ?_⟩) fun hone => ⟨h.oneShot hone, hd.oneShot hone⟩
  · rw [nextRun_of_parse hparse, ← hbase]
    exact hd.counted
  · rw [hd.deliveredAt]
    exact hd.due run hrun

/-- **The task after a delivery**, if it is there. -/
theorem Keeps.fired (h : Keeps env s task) {base : ℤ} {d : CronDelivery}
    (hparse : parseCronExpression task.cron = .ok parsed)
    (hbase : base = (countedRuns (s.delivered task.id)).getLastD task.createdAt)
    (hd : Delivers env s t task parsed base d) (hrecurring : task.isOneShot = false) :
    Keeps env t { task with lastFiredAt := some (d.counted.getLastD base) } := by
  have hdelivered : t.delivered task.id = s.delivered task.id ++ [d] := by
    rw [hd.delivered, update_self]
  obtain ⟨first, rest, hcons⟩ : ∃ first rest, d.counted = first :: rest :=
    exists_cons_of_length_pos (hd.counts.1 ▸ hd.counts.2.1)
  refine ⟨h.later, ?_, h.created.trans hd.now.ge, fun run hrun => ?_, ?_, fun c hc => Or.inr ?_,
    fun hnone => ?_, fun hone => ?_⟩
  · rw [hdelivered]
    exact (h.delivers hparse hbase hd).congr rfl
  · change run ∈ countedRuns (t.delivered task.id) at hrun
    rw [hdelivered, countedRuns_append] at hrun
    rw [hd.now]
    rcases mem_append.1 hrun with hold | hnew
    · exact h.past run hold
    · -- a recurring run is delivered after it has come
      have hdue := hd.due run hnew
      simp only [jitteredTime, hrecurring, Bool.false_eq_true, if_false] at hdue
      exact_mod_cast (le_jittered env task.id parsed run).trans hdue
  · change some (d.counted.getLastD base) = (countedRuns (t.delivered task.id)).getLast?
    rw [hdelivered, countedRuns_append, getLast?_append, hcons, getLastD_cons,
      getLast?_cons, getLastD_eq_getLast?, some_or]
  · change t.lastSeenAt.get task.id = some c at hc
    rw [hd.seen, hrecurring] at hc
    exact hc
  · change t.lastSeenAt.get task.id = none at hnone
    rw [hd.seen, hrecurring] at hnone
    cases hnone
  · change task.isOneShot = true at hone
    rw [hrecurring] at hone
    cases hone

/-- **A delivery** keeps the invariant. -/
theorem Keeping.delivers (h : Keeping env s) (htask : s.manager.expected.get task.id = some task)
    {base : ℤ} {d : CronDelivery} (hparse : parseCronExpression task.cron = .ok parsed)
    (hbase : base = (countedRuns (s.delivered task.id)).getLastD task.createdAt)
    (hd : Delivers env s t task parsed base d) : Keeping env t := by
  have hkeeps := (h.tasks task.id task htask).2
  have hdelivered : ∀ j, j ≠ task.id → t.delivered j = s.delivered j := by
    intro j hj
    rw [hd.delivered, update_of_ne hj]
  have hfired : ∀ fired, t.manager.expected.get task.id = some fired →
      fired.id = task.id ∧ Keeps env t fired := by
    intro fired hget
    obtain ⟨hrecurring, rfl⟩ := hd.manager.written fired hget
    exact ⟨rfl, hkeeps.fired hparse hbase hd hrecurring⟩
  refine ⟨hd.manager.mirrors, fun id c hc => ?_, fun id => ?_, fun id other hother => ?_⟩
  · rw [hd.now]
    by_cases hid : id = task.id
    · rw [hid, hd.seen] at hc
      split_ifs at hc with hone
      have hlast := Keeps.past (hkeeps.fired hparse hbase hd (Bool.eq_false_iff.2 hone))
      have hsome := Keeps.lastFired (hkeeps.fired hparse hbase hd (Bool.eq_false_iff.2 hone))
      rw [← hd.now]
      exact hlast c (mem_of_getLast? (hsome.symm.trans hc))
    · rw [(hd.others id hid).1] at hc
      exact h.seen_le id c hc
  · by_cases hid : id = task.id
    · refine Or.inr ⟨task, hid.symm, ?_⟩
      rw [hid, hd.delivered, update_self]
      exact hkeeps.delivers hparse hbase hd
    · rw [hdelivered id hid]
      exact h.deliveries id
  · by_cases hid : id = task.id
    · rw [hid] at hother ⊢
      exact hfired other hother
    · rw [hd.manager.expected id hid] at hother
      obtain ⟨hotherId, hotherKeeps⟩ := h.tasks id other hother
      have hne : other.id ≠ task.id := h.id_ne hother hid
      exact ⟨hotherId, hotherKeeps.frame hd.now.ge (hdelivered _ hne) (hd.others _ hne).1
        (hd.others _ hne).2.1⟩

/-! ### Ticks -/

/-- **A task has been caught up with**: every run that has come is counted once, unless the last
delivery was one of now and counted as many as it may. -/
def CaughtUp (env : CronEnv) (task : CronTask) (ds : List CronDelivery) (now : ℤ) : Prop :=
  ∀ n run, run ∈ occurrences (nextRun env task.cron) n task.createdAt → task.DueAt env run now →
    (countedRuns ds).count run = 1 ∨
      ∃ d, ds.getLast? = some d ∧ d.deliveredAt = now ∧
        d.coalescedCount = MAX_COALESCE_ITERATIONS

theorem caughtUp_of_not_due (hlater : RunsLater env task.cron) {ds : List CronDelivery}
    (h : DeliveriesOf env task ds) (hrecurring : task.isOneShot = false)
    (hparse : parseCronExpression task.cron = .ok parsed) {now : ℤ}
    (hnext : ∀ next, computeNextCronRun env.zone parsed
        ((countedRuns ds).getLastD task.createdAt) = some next →
      (now : ℚ) < jitteredTime env task parsed next) : CaughtUp env task ds now := by
  intro n run hrun hdue
  obtain ⟨parsed', hparse', hdue⟩ := hdue
  obtain rfl := Except.ok.inj (hparse.symm.trans hparse')
  have hnext' : ∀ a b, computeNextCronRun env.zone parsed a = some b → a < b := by
    rw [← nextRun_of_parse hparse]
    exact hlater
  have hlength :
      (occurrences (nextRun env task.cron) (countedRuns ds).length task.createdAt).length =
      (countedRuns ds).length := congrArg List.length h.runs.symm
  rcases mem_occurrences hlength hrun with hcounted | ⟨k, hrest⟩
  · rw [← h.runs] at hcounted
    exact Or.inl (count_eq_one_of_mem (h.increasing.imp ne_of_lt) hcounted)
  · rw [← h.runs, nextRun_of_parse hparse] at hrest
    exact absurd (not_due hnext' hrecurring hnext hrest) (not_lt.2 hdue)

/-- What a tick does about a task. -/
structure TickedTask (env : CronEnv) (throws : List String) (s t : CronRuntime)
    (task : CronTask) : Prop where
  keeping : Keeping env t
  now : t.now = s.now
  loading : t.manager.loading = s.manager.loading
  store : ∀ j, j ≠ task.id → t.manager.store.get j = s.manager.store.get j
  delivered : ∀ j, j ≠ task.id → t.delivered j = s.delivered j
  caughtUp : task.isOneShot = false → task.id ∉ throws →
    CaughtUp env task (t.delivered task.id) t.now

/-- **The step of a tick.** -/
theorem Keeping.tickTask (h : Keeping env s)
    (hstore : s.manager.store.get task.id = some task)
    (hread : s.manager.stillToRead task.id = true) (throws : List String) :
    TickedTask env throws s (s.tickTask env throws task) task := by
  have htask := h.mirrors.known task.id task hstore
  have hkeeps := (h.tasks task.id task htask).2
  rcases tickTask_cases env throws s task with ⟨hsame, e, hparse⟩ |
    ⟨parsed, base, hparse, hbase, ⟨hsame, hwhy⟩ | ⟨first, hfirst, hdue, hsame⟩⟩
  · rw [hsame]
    refine ⟨h, rfl, rfl, fun _ _ => rfl, fun _ _ => rfl, fun _ _ n run _ hdue => ?_⟩
    obtain ⟨parsed, hparse', -⟩ := hdue
    rw [hparse] at hparse'
    cases hparse'
  · rw [hsame]
    refine ⟨h.seed htask, rfl, rfl, fun _ _ => rfl, fun _ _ => rfl, fun hrecurring hthrows => ?_⟩
    rw [hkeeps.base] at hbase
    rw [hbase] at hwhy
    exact caughtUp_of_not_due hkeeps.later hkeeps.deliveries hrecurring hparse
      (hwhy.resolve_left hthrows)
  · rw [hkeeps.base] at hbase
    obtain ⟨d, hd⟩ := fire_delivers (s := s.seed task) h.mirrors hstore hread hfirst hdue
    have hkeeping := (h.seed htask).delivers htask hparse hbase hd
    rw [hsame]
    refine ⟨hkeeping, hd.now, hd.manager.loading, hd.manager.store, fun j hj => ?_,
      fun hrecurring _ => ?_⟩
    · rw [hd.delivered, update_of_ne hj]
      rfl
    · have hdelivered : ((s.seed task).fire env task parsed base).delivered task.id =
          s.delivered task.id ++ [d] := by
        rw [hd.delivered, update_self]
        rfl
      have hdeliveries := hkeeps.seed.delivers hparse hbase hd
      rw [hdelivered, hd.now]
      rcases hd.all hrecurring with hfull | hall
      · exact fun n run _ _ => Or.inr ⟨d, getLast?_concat, hd.deliveredAt, hfull⟩
      · refine caughtUp_of_not_due hkeeps.later hdeliveries hrecurring hparse fun next hnext => ?_
        refine hall next ?_
        rw [← hnext, countedRuns_append_getLastD, hbase]
        rfl

/-- **A tick** looks at one task after the other. -/
theorem Keeping.foldl_tickTask (throws : List String)
    {tasks : List CronTask} (h : Keeping env s) (hids : (tasks.map (·.id)).Nodup)
    (hstore : ∀ task ∈ tasks, s.manager.store.get task.id = some task)
    (hread : ∀ task ∈ tasks, s.manager.stillToRead task.id = true) :
    Keeping env (tasks.foldl (CronRuntime.tickTask env throws) s) ∧
      (tasks.foldl (CronRuntime.tickTask env throws) s).now = s.now ∧
      (∀ j, j ∉ tasks.map (·.id) →
        (tasks.foldl (CronRuntime.tickTask env throws) s).delivered j = s.delivered j) ∧
      ∀ task ∈ tasks, task.isOneShot = false → task.id ∉ throws → CaughtUp env task
        ((tasks.foldl (CronRuntime.tickTask env throws) s).delivered task.id) s.now := by
  induction tasks generalizing s with
  | nil =>
    refine ⟨h, rfl, fun _ _ => rfl, fun task htask => ?_⟩
    cases htask
  | cons task tasks ih =>
    rw [map_cons, nodup_cons] at hids
    have hticked := h.tickTask (hstore task (.head _)) (hread task (.head _)) throws
    have hne : ∀ other ∈ tasks, other.id ≠ task.id := fun other hother heq =>
      hids.1 (heq ▸ mem_map_of_mem hother)
    obtain ⟨hkeeping, hnow, hdelivered, hcaughtUp⟩ := ih hticked.keeping hids.2
      (fun other hother => (hticked.store _ (hne other hother)).trans
        (hstore other (mem_cons_of_mem task hother)))
      (fun other hother => (CronManager.stillToRead_congr hticked.loading).trans
        (hread other (mem_cons_of_mem task hother)))
    rw [foldl_cons]
    refine ⟨hkeeping, hnow.trans hticked.now, fun j hj => ?_, fun other hother => ?_⟩
    · rw [map_cons, mem_cons, not_or] at hj
      exact (hdelivered j hj.2).trans (hticked.delivered j hj.1)
    · rw [← hticked.now]
      rcases mem_cons.1 hother with rfl | hother
      · -- no later step of the tick delivers this task
        rw [hdelivered _ hids.1]
        exact hticked.caughtUp
      · exact hcaughtUp other hother

/-- The tasks in memory have different ids, and each is found under its own. -/
theorem store_values (h : s.manager.Mirrors) : (s.manager.store.values.map (·.id)).Nodup ∧
    ∀ task ∈ s.manager.store.values, s.manager.store.get task.id = some task := by
  have hget : ∀ e ∈ s.manager.store.entries, e.2.id = e.1 := fun e he =>
    h.storeIds e.1 e.2 (OrdMap.get_eq_some.2 he)
  constructor
  · have hkeys : s.manager.store.values.map (·.id) = s.manager.store.keys := by
      rw [OrdMap.values, OrdMap.keys, List.map_map]
      exact List.map_congr_left hget
    rw [hkeys]
    exact s.manager.store.nodup
  · intro task htask
    obtain ⟨id, hid⟩ := OrdMap.mem_values.1 htask
    rw [h.storeIds id task hid]
    exact hid

/-! ### Steps -/

/-- **The condition on a step.**  No task is added, removed or fired behind the back of a load, and
a restart finds every file that is there up to date. -/
def Orderly (s : CronRuntime) : CronRuntimeStep → Prop
  | .add init candidates => s.manager.Undisturbed (.add init candidates s.now)
  | .manage a => s.manager.Undisturbed a
  | .tick false true _ => ∀ task ∈ s.manager.store.values, s.manager.stillToRead task.id = true
  | .restart => ∀ id ∈ s.manager.files.keys, s.manager.files.get id = s.manager.expected.get id
  | _ => True

/-- **A tick of an idle agent** catches up with every recurring task. -/
theorem Keeping.tick (h : Keeping env s) {throws : List String}
    (hok : Orderly s (.tick false true throws)) :
    Keeping env (s.tick env false true throws) ∧
      ∀ id task, s.manager.store.get id = some task → task.isOneShot = false → id ∉ throws →
        CaughtUp env task ((s.tick env false true throws).delivered id) s.now := by
  obtain ⟨hids, hstore⟩ := store_values h.mirrors
  obtain ⟨hkeeping, -, -, hcaughtUp⟩ := h.foldl_tickTask throws hids hstore hok
  refine ⟨hkeeping, fun id task hget hrecurring hthrows => ?_⟩
  have hid := h.mirrors.storeIds id task hget
  rw [← hid] at hthrows ⊢
  exact hcaughtUp task (mem_values.2 ⟨id, hget⟩) hrecurring hthrows

theorem Keeping.add (h : Keeping env s) {init : SessionCronTaskInit} {candidates : List String}
    (hlater : RunsLater env init.cron) (hok : Orderly s (.add init candidates))
    (ht : s.step env (.add init candidates) = some t) : Keeping env t := by
  cases hid : s.manager.store.generateUniqueId candidates with
  | none => simp [CronRuntime.step, hid] at ht
  | some id =>
    simp only [CronRuntime.step, hid] at ht
    obtain ⟨manager, hmanager, rfl⟩ := map_eq_some_iff.1 ht
    have hmirrors := h.mirrors.add hok hmanager
    have hexpected : ∀ j, manager.expected.get j =
        if j = id then some (SessionCronStore.newTask init id s.now)
        else s.manager.expected.get j := by
      intro j
      simp only [CronManager.addTask, hid, map_some, some.injEq] at hmanager
      rw [← hmanager]
      exact get_set _ _ _ _
    refine ⟨hmirrors, h.seen_le, fun j => ?_, fun j task htask => ?_⟩
    · by_cases hj : j = id
      · rw [hj]
        exact Or.inl (update_self _ _ _)
      · dsimp only
        rw [update_of_ne hj]
        exact h.deliveries j
    · dsimp only at htask
      rw [hexpected] at htask
      split_ifs at htask with hj
      · -- the task is new
        cases htask
        exact ⟨hj.symm, Keeps.new hlater (update_self _ _ _) rfl rfl fun c hc =>
          h.seen_le id c hc⟩
      · obtain ⟨htaskId, hkeeps⟩ := h.tasks j task htask
        exact ⟨htaskId, hkeeps.frame le_rfl
          (update_of_ne (by rwa [htaskId]) _ _) rfl fun hmem => hmem⟩

theorem Keeping.manage (h : Keeping env s) {a : CronStep} (hok : Orderly s (.manage a))
    (ht : s.step env (.manage a) = some t) : Keeping env t := by
  simp only [CronRuntime.step] at ht
  split_ifs at ht with ha
  obtain ⟨manager, hmanager, rfl⟩ := map_eq_some_iff.1 ht
  refine ⟨h.mirrors.step hok hmanager, h.seen_le, h.deliveries, fun id task htask => ?_⟩
  obtain ⟨hid, hkeeps⟩ := h.tasks id task (CronManager.expected_of_management ha hmanager htask)
  exact ⟨hid, hkeeps.frame le_rfl rfl rfl fun hmem => hmem⟩

/-- **A restart** finds what was written down. -/
theorem Keeping.restart (h : Keeping env s) (hok : Orderly s .restart)
    (ht : s.step env .restart = some t) : Keeping env t := by
  cases ht
  refine ⟨CronManager.Mirrors.opened h.mirrors.fileIds, fun id c hc => ?_, h.deliveries,
    fun id task htask => ?_⟩
  · cases hc
  · have hfile : s.manager.files.get id = some task := htask
    have hmem : id ∈ s.manager.files.keys := mem_keys.2 (by rw [hfile, isSome_some])
    obtain ⟨hid, hkeeps⟩ := h.tasks id task ((hok id hmem).symm.trans hfile)
    exact ⟨hid, hkeeps.unread rfl rfl rfl rfl⟩

/-- **Every orderly step** keeps the invariant. -/
theorem Keeping.step (h : Keeping env s) {a : CronRuntimeStep}
    (hlater : ∀ init candidates, a = .add init candidates → RunsLater env init.cron)
    (hok : Orderly s a) (ht : s.step env a = some t) : Keeping env t := by
  cases a with
  | add init candidates => exact h.add (hlater init candidates rfl) hok ht
  | manage a => exact h.manage hok ht
  | pass ms =>
    cases ht
    have hnow : s.now ≤ s.now + ms := Int.le_add_of_nonneg_right (Int.natCast_nonneg ms)
    refine ⟨h.mirrors, fun id c hc => (h.seen_le id c hc).trans hnow, h.deliveries,
      fun id task htask => ?_⟩
    obtain ⟨hid, hkeeps⟩ := h.tasks id task htask
    exact ⟨hid, hkeeps.frame hnow rfl rfl fun hmem => hmem⟩
  | tick isKilled isIdle throws =>
    cases ht
    cases isKilled with
    | true => exact h
    | false =>
      cases isIdle with
      | false => exact h
      | true => exact (h.tick hok).1
  | restart => exact h.restart hok ht

end Invariant

end CronRuntime

/-! ### Every run is delivered once -/

/-- **Every run of a task is delivered once, and not before its time**, in every run of the
scheduler whose steps are orderly, for tasks whose next run is always later.  The deliveries of a
task count its first runs since it was created, one after the other, each after it has come with its
jitter, and a one-shot task is delivered at most once.  After a tick of an idle agent every run of a
recurring task that has come is counted once, unless the delivery of now has counted as many as it
may. -/
theorem cron_deliveries {env : CronEnv} {now : ℤ} {steps : List CronRuntimeStep} {s : CronRuntime}
    (h : LibRun.Run (CronRuntime.step env) CronRuntime.Orderly (.start now) steps s)
    (hlater : ∀ init candidates, .add init candidates ∈ steps → RunsLater env init.cron) :
    (∀ id, s.delivered id = [] ∨
        ∃ task : CronTask, task.id = id ∧ DeliveriesOf env task (s.delivered id)) ∧
      (∀ id task, s.manager.store.get id = some task →
        task.id = id ∧ DeliveriesOf env task (s.delivered id)) ∧
      ∀ throws t, CronRuntime.Orderly s (.tick false true throws) →
        s.step env (.tick false true throws) = some t →
        ∀ id task, s.manager.store.get id = some task → task.isOneShot = false → id ∉ throws →
          CronRuntime.CaughtUp env task (t.delivered id) s.now := by
  have hkeeping : CronRuntime.Keeping env s :=
    h.among.invariant (CronRuntime.start_keeping env now) fun _ _ _ ht hok hu =>
      ht.step (fun init candidates ha => hlater init candidates (ha ▸ hok.2)) hok.1 hu
  refine ⟨hkeeping.deliveries, fun id task hid => ?_, fun throws t hok ht => ?_⟩
  · obtain ⟨htaskId, hkeeps⟩ := hkeeping.tasks id task (hkeeping.mirrors.known id task hid)
    rw [← htaskId]
    exact ⟨rfl, hkeeps.deliveries⟩
  · cases ht
    exact (hkeeping.tick hok).2

/-! ### Examples -/

instance CronRuntime.Orderly.decidable (s : CronRuntime) (a : CronRuntimeStep) :
    Decidable (CronRuntime.Orderly s a) :=
  match a with
  | .add init candidates =>
    inferInstanceAs (Decidable (s.manager.Undisturbed (.add init candidates s.now)))
  | .manage a => inferInstanceAs (Decidable (s.manager.Undisturbed a))
  | .tick false true _ => inferInstanceAs
      (Decidable (∀ task ∈ s.manager.store.values, s.manager.stillToRead task.id = true))
  | .restart => inferInstanceAs
      (Decidable (∀ id ∈ s.manager.files.keys, s.manager.files.get id = s.manager.expected.get id))
  | .pass _ | .tick true _ _ | .tick false false _ => inferInstanceAs (Decidable True)

/-- The clocks show UTC. -/
def utcEnv : CronEnv where
  zone := .fixed 0
  rounding := .none
  noJitter := false
  noStale := false

/-- A task is added that runs every five minutes. -/
def everyFiveMinutes : CronRuntimeStep := .add ⟨"*/5 * * * *", "check the build", none⟩ ["0000000a"]

/-- A new process loads the task. -/
def reload : List CronRuntimeStep :=
  [.restart, .manage .loadFromDisk, .manage (.readdir ["0000000a"]), .manage .read,
    .manage .finishLoad]

/-- The agent is busy for a while, the task is delivered, and a new process goes on. -/
def busyThenRestart : List CronRuntimeStep :=
  [everyFiveMinutes, .pass 700000, .tick false false [], .tick false true [],
    .manage (.persist "0000000a"), .manage (.persist "0000000a")] ++ reload ++ [.pass 300000]

theorem cron_deliveries_busyThenRestart : ∃ s t : CronRuntime,
    s.step utcEnv (.tick false true []) = some t ∧
      (t.delivered "0000000a").map (·.coalescedCount) = [2, 1] ∧
      ∃ task, s.manager.store.get "0000000a" = some task ∧
        DeliveriesOf utcEnv task (s.delivered "0000000a") ∧
        CronRuntime.CaughtUp utcEnv task (t.delivered "0000000a") s.now := by
  have hrun : ∃ s, LibRun.Run (CronRuntime.step utcEnv) CronRuntime.Orderly (.start 0)
      busyThenRestart s ∧ CronRuntime.Orderly s (.tick false true []) ∧
        ((s.tick utcEnv false true []).delivered "0000000a").map (·.coalescedCount) = [2, 1] ∧
        (s.manager.store.get "0000000a").map (·.isOneShot) = some false :=
    LibRun.exists_run (by decide +kernel) (by decide +kernel)
  obtain ⟨s, hs, hok, hcounts, htask⟩ := hrun
  obtain ⟨task, htask, hrecurring⟩ := Option.map_eq_some_iff.1 htask
  obtain ⟨-, hstored, htick⟩ := cron_deliveries hs fun init _ _ =>
    runsLater_of_neverSetBack (TimeZone.fixed_neverSetBack 0) init.cron
  exact ⟨s, _, rfl, hcounts, task, htask, (hstored _ task htask).2,
    htick [] _ hok rfl _ task htask hrecurring List.not_mem_nil⟩

/-- The process ends before the delivery is written down. -/
def endedBeforeWritten : List CronRuntimeStep :=
  [everyFiveMinutes, .manage (.persist "0000000a"), .pass 600000, .tick false true []] ++ reload ++
    [.tick false true []]

/-- **A run is delivered again** when the process ends before the delivery is written down. -/
theorem delivered_again : ∃ s : CronRuntime,
    LibRun.Run (CronRuntime.step utcEnv) LibRun.always (.start 0) endedBeforeWritten s ∧
      (s.delivered "0000000a").map (·.counted) = [[300000], [300000]] :=
  LibRun.exists_run (by decide +kernel) (LibRun.legal_always _ _)

end NoriCode
