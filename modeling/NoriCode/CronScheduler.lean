/-
**The scheduler of cron tasks.**

On a tick, unless the agent is busy, every task is looked at whose next run, with its jitter, has
come.  A recurring task is delivered once for all of its runs that have come since the last
delivery, up to a bound, and the last one of them is written down; a one-shot task is delivered and
removed.  A recurring task that is a week old is delivered for the last time.

The module embeds `tools/cron/scheduler.ts` and, of `agent/cron/manager.ts`, `handleFire` and the
callbacks of the scheduler, over the tasks and files of `CronManager`.  A handler that throws does
so before it has delivered.  The cache of parsed expressions, the guard against a tick within a
tick, the timer and the text of a delivery are left out.

Main definitions:

* `countCoalesced` — the runs of a delivery;
* `CronRuntime` — the state, with the deliveries of every task;
* `CronRuntime.tick` — one tick;
* `CronRuntime.step` — one step: a tick, a change, an operation on files, or a restart.
-/

import NoriCode.CronManager
import NoriCode.CronJitter
import NoriCode.LibOccurrences

namespace NoriCode

open LibOrdMap LibOrdSet LibOccurrences

/-! ### Runs -/

def CronTask.isOneShot (task : CronTask) : Bool := task.recurring == some false

def MAX_COALESCE_ITERATIONS : ℕ := 10000

def STALE_THRESHOLD_MS : ℤ := 7 * 24 * 60 * 60 * 1000

/-- The time at which a run is delivered. -/
def jitteredTime (env : CronEnv) (task : CronTask) (parsed : ParsedCronExpression)
    (idealMs : ℤ) : ℚ :=
  if task.isOneShot then oneShotJitteredNextCronRunMs env task.id task.createdAt idealMs
  else jitteredNextCronRunMs env task.id parsed idealMs

def computeJitteredNext (env : CronEnv) (task : CronTask) (parsed : ParsedCronExpression)
    (baseMs : ℤ) : Option ℚ :=
  (computeNextCronRun env.zone parsed baseMs).map (jitteredTime env task parsed)

/-- The loop of `countCoalesced`: how many more runs have come, and the last of them. -/
def countLoop (env : CronEnv) (task : CronTask) (parsed : ParsedCronExpression) (nowMs : ℤ) :
    ℕ → ℤ → ℕ × ℤ
  | 0, cursor => (0, cursor)
  | rounds + 1, cursor =>
    match computeNextCronRun env.zone parsed cursor with
    | none => (0, cursor)
    | some next =>
      if next > nowMs then (0, cursor)
      else if jitteredTime env task parsed next > nowMs then (0, cursor)
      else
        let (count, lastDueMs) := countLoop env task parsed nowMs rounds next
        (count + 1, lastDueMs)

/-- **`countCoalesced`**: how many runs have come, from the first one on, and the last of them. -/
def countCoalesced (env : CronEnv) (task : CronTask) (parsed : ParsedCronExpression)
    (firstFireMs nowMs : ℤ) : ℕ × ℤ :=
  let (count, lastDueMs) :=
    countLoop env task parsed nowMs (MAX_COALESCE_ITERATIONS - 1) firstFireMs
  (count + 1, lastDueMs)

def isStale (env : CronEnv) (task : CronTask) (nowMs : ℤ) : Bool :=
  if env.noStale then false
  else if task.isOneShot then false
  else decide (nowMs - task.createdAt ≥ STALE_THRESHOLD_MS)

/-! ### State -/

/-- What has been delivered, and when; the runs it counts are those from the base on. -/
structure CronDelivery where
  task : CronTask
  coalescedCount : ℕ
  deliveredAt : ℤ
  counted : List ℤ

structure CronRuntime where
  manager : CronManager
  now : ℤ
  lastSeenAt : OrdMap String ℤ := .empty
  seededFromDisk : OrdSet String := .empty
  /-- The deliveries of the latest task with an id. -/
  delivered : String → List CronDelivery := fun _ => []

namespace CronRuntime

/-- Nothing has been scheduled yet. -/
def start (now : ℤ) : CronRuntime where
  manager := .opened .empty
  now := now

/-! ### Ticks -/

/-- The first time a task is seen, what was written down about it is believed, unless it is to
come. -/
def seed (s : CronRuntime) (task : CronTask) : CronRuntime :=
  { s with
    lastSeenAt :=
      match task.lastFiredAt with
      | some lastFiredAt =>
        if task.id ∉ s.seededFromDisk ∧ lastFiredAt ≤ s.now ∧
            (s.lastSeenAt.get task.id).isNone = true then
          s.lastSeenAt.set task.id lastFiredAt
        else s.lastSeenAt
      | none => s.lastSeenAt
    seededFromDisk := s.seededFromDisk.insert task.id }

/-- The instant after which the next run is searched for. -/
def baseFromMs (s : CronRuntime) (task : CronTask) : ℤ :=
  match s.lastSeenAt.get task.id with
  | some seen => if seen > task.createdAt then seen else task.createdAt
  | none => task.createdAt

/-- **`handleFire`**: the task is delivered, and removed if it is stale. -/
def handleFire (env : CronEnv) (s : CronRuntime) (task : CronTask) (coalescedCount : ℕ)
    (counted : List ℤ) : CronRuntime :=
  { s with
    manager := if isStale env task s.now then s.manager.removeTasks [task.id] else s.manager
    delivered := Function.update s.delivered task.id
      (s.delivered task.id ++ [⟨task, coalescedCount, s.now, counted⟩]) }

/-- A task that is due is delivered. -/
def fire (env : CronEnv) (s : CronRuntime) (task : CronTask) (parsed : ParsedCronExpression)
    (baseFromMs : ℤ) : CronRuntime :=
  let next := computeNextCronRun env.zone parsed
  let (coalescedCount, lastDueMs) :=
    match next baseFromMs with
    | some ideal =>
      if task.isOneShot then (1, none)
      else
        let (count, lastDueMs) := countCoalesced env task parsed ideal s.now
        (max 1 count, some lastDueMs)
    | none => (1, none)
  let s := s.handleFire env task coalescedCount (occurrences next coalescedCount baseFromMs)
  if task.isOneShot then
    { s with
      manager := s.manager.removeTasks [task.id]
      lastSeenAt := s.lastSeenAt.erase task.id
      seededFromDisk := s.seededFromDisk.erase task.id }
  else
    let advancedTo := lastDueMs.getD s.now
    { s with
      manager := s.manager.advanceCursor task.id advancedTo
      lastSeenAt := s.lastSeenAt.set task.id advancedTo }

/-- What a tick does about a task, whose handler may throw. -/
def tickTask (env : CronEnv) (throws : List String) (s : CronRuntime) (task : CronTask) :
    CronRuntime :=
  match parseCronExpression task.cron with
  | .error _ => s
  | .ok parsed =>
    let s := s.seed task
    let baseFromMs := s.baseFromMs task
    match computeJitteredNext env task parsed baseFromMs with
    | none => s
    | some nextFireAt =>
      if (s.now : ℚ) < nextFireAt then s
      else if task.id ∈ throws then s
      else s.fire env task parsed baseFromMs

/-- **One tick.** -/
def tick (env : CronEnv) (s : CronRuntime) (isKilled isIdle : Bool) (throws : List String) :
    CronRuntime :=
  if isKilled then s
  else if isIdle = false then s
  else s.manager.store.values.foldl (tickTask env throws) s

end CronRuntime

/-! ### Steps -/

inductive CronRuntimeStep where
  | add (init : SessionCronTaskInit) (candidates : List String)
  /-- Tasks are removed, or an operation on the files goes on. -/
  | manage (a : CronStep)
  | pass (ms : ℕ)
  | tick (isKilled isIdle : Bool) (throws : List String)
  | restart

/-- Only the scheduler advances a task, and a task is added now. -/
def CronStep.isManagement : CronStep → Bool
  | .remove _ | .persist _ | .loadFromDisk | .readdir _ | .read | .finishLoad => true
  | .add _ _ _ | .advance _ _ | .restart => false

namespace CronRuntime

def step (env : CronEnv) (s : CronRuntime) : CronRuntimeStep → Option CronRuntime
  | .add init candidates =>
    match s.manager.store.generateUniqueId candidates with
    | none => none
    | some id => (s.manager.addTask init candidates s.now).map fun manager =>
      { s with manager, delivered := Function.update s.delivered id [] }
  | .manage a =>
    if a.isManagement then (s.manager.step a).map fun manager => { s with manager } else none
  | .pass ms => some { s with now := s.now + ms }
  | .tick isKilled isIdle throws => some (s.tick env isKilled isIdle throws)
  | .restart => some { s with
      manager := .opened s.manager.files
      lastSeenAt := .empty
      seededFromDisk := .empty }

end CronRuntime

end NoriCode
