/-
**The life of a background task.**

A task is registered in a manager, detached or with a tool call that waits for it.  It ends by its
own end, a deadline, a stop or the abort of the tool call, whichever comes first; the manager then
gives it a status, writes its record, tells of it, and releases who waits.  Meanwhile the tool call
may be left: the task is detached.  When the process dies, its records stay: the manager of the next
process finds the task there, as a ghost, and tells of its end unless that has been delivered.

The module embeds `registerTask`, `detach`, `stop`, `suppressTerminalNotification`,
`waitForForegroundRelease`, `persistLive`, `loadFromDisk`, `reconcile`, `notifyBackgroundTask` and
`runTaskLifecycle` of `agent/background/index.ts`.  Whatever is awaited may come at any time; writes
may fail.  The output of a task, the times at which it began and ended, and the events that the
manager emits are left out.

Main definitions:

* `ManagedTask`, with `step` — a task in the manager that runs it;
* `GhostTask` — the task in a later manager;
* `TaskLife`, with `step`, `restart` and `reload` — a task through all processes;
* `BackgroundManagers` — all tasks.
-/

import NoriCode.BackgroundTasks

namespace NoriCode

/-! ### The end of a task -/

/-- `BackgroundTaskSettlementStatus`. -/
inductive SettlementStatus
  | completed
  | failed
  | timedOut
  | killed
  deriving DecidableEq

def SettlementStatus.status : SettlementStatus → BackgroundTaskStatus
  | completed => .completed
  | failed => .failed
  | timedOut => .timedOut
  | killed => .killed

structure BackgroundTaskSettlement where
  status : SettlementStatus
  stopReason : Option String := none
  deriving DecidableEq

/-- What the race of the lifecycle ends with. -/
inductive TerminalOutcome
  | worker (settlement : BackgroundTaskSettlement)
  | timeout
  | stop (reason : Option String)
  deriving DecidableEq

inductive ForegroundTaskReleaseReason
  | detached
  | terminal
  deriving DecidableEq

/-- `USER_INTERRUPT_REASON`. -/
def userInterruptReason : String := "Interrupted by user"

/-- Where `runTaskLifecycle` is. -/
inductive LifecycleStage
  | racing
  /-- The task is aborted; the worker or the grace time is awaited. -/
  | grace (outcome : TerminalOutcome)
  | forceStopping (outcome : TerminalOutcome)
  | settling (settlement : BackgroundTaskSettlement)
  /-- The record of the end is the last of so many writes. -/
  | persisting (writes : ℕ)
  | effects
  | notifying
  | releasing
  | finished
  deriving DecidableEq

namespace TerminalOutcome

def stopReason : TerminalOutcome → Option String
  | stop reason => reason
  | _ => none

/-- The settlement of a task that did not settle itself. -/
def settlement (outcome : TerminalOutcome) : BackgroundTaskSettlement :=
  ⟨if outcome = timeout then .timedOut else .killed, outcome.stopReason⟩

/-- `settlementForOutcome` behind the grace time: a stopped task that still completes or fails has
its own settlement. -/
def afterAbort (outcome : TerminalOutcome) (workerAfterAbort : Option BackgroundTaskSettlement) :
    LifecycleStage :=
  match outcome, workerAfterAbort with
  | stop reason, some settlement =>
    if settlement.status ≠ .killed ∧ settlement.status ≠ .timedOut then .settling settlement
    else .settling (stop reason).settlement
  | outcome, some _ => .settling outcome.settlement
  | outcome, none => .forceStopping outcome

end TerminalOutcome

/-! ### A task in its manager -/

/-- A call of `waitForForegroundRelease`: whether it found the task in the foreground, and what it
returned. -/
structure ForegroundWaiter where
  foreground : Bool
  reason : Option ForegroundTaskReleaseReason
  deriving DecidableEq

/-- `ManagedTask`, with the promises of its lifecycle. -/
structure ManagedTask where
  taskId : String
  kind : BackgroundTaskKind
  description : String
  status : BackgroundTaskStatus := .running
  /-- `foregroundRelease === undefined`. -/
  detached : Bool
  /-- What the promise `foregroundRelease` was resolved to. -/
  released : Option ForegroundTaskReleaseReason := none
  /-- The promise `terminal` is resolved. -/
  terminal : Bool := false
  /-- The promise `stop`, with the reason. -/
  stop : Option (Option String) := none
  /-- The signal of the tool call is aborted. -/
  aborted : Bool := false
  /-- The promise `worker`. -/
  worker : Option BackgroundTaskSettlement := none
  /-- The timer of the deadline is armed, and what a detach makes of it. -/
  deadline : Bool := false
  detachDeadline : Option Bool := none
  /-- The promise of the deadline. -/
  expired : Bool := false
  stopReason : Option String := none
  terminalNotificationSuppressed : Bool := false
  outputPersistStarted : Bool
  persistWriteQueue : List BackgroundTaskInfo := []
  stage : LifecycleStage := .racing
  /-- The keys of this task in the sets of its manager, by the status they name. -/
  scheduled : List BackgroundTaskStatus := []
  delivered : List BackgroundTaskStatus := []
  waiters : List ForegroundWaiter := []

/-- `RegisterBackgroundTaskOptions`, with the state of the signal. -/
structure RegisterOptions where
  detached : Bool := true
  deadline : Bool := false
  detachDeadline : Option Bool := none
  aborted : Bool := false

/-- What happens to a task in its manager: calls from outside, and the parts of the lifecycle. -/
inductive EntryEvent
  | settle (settlement : BackgroundTaskSettlement)
  | stop (reason : Option String)
  | abort
  | expire
  | detach
  | suppress
  /-- The end of `pause`, `addGuidance` or `resume`. -/
  | update
  | persistOutput
  | wait
  | wake (i : ℕ)
  | race (outcome : TerminalOutcome)
  | grace
  | graceOver
  | forceStopped
  | finalize
  | persisted
  | effects
  | release

namespace ManagedTask

def toInfo (e : ManagedTask) : BackgroundTaskInfo where
  taskId := e.taskId
  kind := e.kind
  description := e.description
  status := e.status
  detached := some e.detached
  stopReason := e.stopReason
  terminalNotificationSuppressed := if e.terminalNotificationSuppressed then some true else none

def persistLive (e : ManagedTask) : ManagedTask :=
  { e with persistWriteQueue := e.persistWriteQueue ++ [e.toInfo] }

/-- `registerTask`: a task in the foreground leaves nothing on disk yet. -/
def register (taskId : String) (kind : BackgroundTaskKind) (description : String)
    (options : RegisterOptions) : ManagedTask :=
  let e : ManagedTask := { options with
    taskId, kind, description
    aborted := !options.detached && options.aborted
    outputPersistStarted := options.detached }
  if e.detached then e.persistLive else e

def detach (e : ManagedTask) : ManagedTask :=
  if e.status.isTerminal || e.detached then e
  else
    persistLive { e with
      detached := true
      deadline := e.detachDeadline.getD e.deadline
      outputPersistStarted := true
      released := some .detached }

/-- `stop`: a blank reason is none. -/
def requestStop (e : ManagedTask) (reason : Option String) : ManagedTask :=
  let stopReason := (reason.map trim).filter fun reason => reason.toList.length ≠ 0
  if e.status.isTerminal then e
  else { e with stopReason := stopReason, stop := e.stop.or (some stopReason) }

def suppress (e : ManagedTask) : ManagedTask :=
  if e.terminalNotificationSuppressed then e
  else persistLive { e with terminalNotificationSuppressed := true }

/-- `waitForForegroundRelease`. -/
def waiter (e : ManagedTask) : ForegroundWaiter :=
  if e.status.isTerminal then ⟨false, some .terminal⟩
  else if e.detached then ⟨false, some .detached⟩
  else ⟨true, none⟩

/-- What a waiter that waits is released with: the first of the two promises. -/
def releaseReason (e : ManagedTask) : Option ForegroundTaskReleaseReason :=
  e.released.or (if e.terminal then some .terminal else none)

/-- The outcome is there for the race to take. -/
def hasOutcome (e : ManagedTask) : TerminalOutcome → Bool
  | .worker settlement => e.worker = some settlement
  | .timeout => e.expired
  | .stop reason => e.stop = some reason || e.aborted && reason = some userInterruptReason

/-- `finalizeTask` up to its first await. -/
def finalize (e : ManagedTask) (settlement : BackgroundTaskSettlement) : ManagedTask :=
  let e := { e with
    status := settlement.status.status
    stopReason := settlement.stopReason.or
      (if settlement.status = SettlementStatus.killed then e.stopReason else none) }
  if e.outputPersistStarted then
    let e := e.persistLive
    { e with stage := .persisting e.persistWriteQueue.length }
  else { e with stage := .effects }

/-- `fireTerminalEffects` up to the output of the task: the notification is scheduled. -/
def fireTerminalEffects (e : ManagedTask) : ManagedTask :=
  if e.detached && !e.terminalNotificationSuppressed &&
      !decide (e.status ∈ e.scheduled) && !decide (e.status ∈ e.delivered) then
    { e with scheduled := e.status :: e.scheduled, stage := .notifying }
  else { e with stage := .releasing }

/-- The output is there: the notification goes out, unless it was suppressed meanwhile or the output
could not be read. -/
def notifies (e : ManagedTask) (ok : Bool) : Bool := ok && !e.terminalNotificationSuppressed

def notified (e : ManagedTask) (ok : Bool) : ManagedTask :=
  { e with
    scheduled := if e.notifies ok then e.scheduled else e.scheduled.erase e.status
    stage := .releasing }

/-- The head of the queue is written. -/
def written (e : ManagedTask) : ManagedTask :=
  { e with
    persistWriteQueue := e.persistWriteQueue.tail
    stage :=
      match e.stage with
      | .persisting (writes + 1) => .persisting writes
      | stage => stage }

def step (e : ManagedTask) : EntryEvent → Option ManagedTask
  | .settle settlement => some { e with worker := e.worker.or (some settlement) }
  | .stop reason => some (e.requestStop reason)
  | .abort => some (if e.detached then e else { e with aborted := true })
  | .expire =>
    if e.stage = .racing ∧ e.deadline = true then some { e with expired := true } else none
  | .detach => some e.detach
  | .suppress => some e.suppress
  | .update => some e.persistLive
  | .persistOutput => some { e with outputPersistStarted := true }
  | .wait => some { e with waiters := e.waiters ++ [e.waiter] }
  | .wake i =>
    if e.waiters[i]? = some ⟨true, none⟩ then
      e.releaseReason.map fun reason =>
        { e with waiters := e.waiters.set i ⟨true, some reason⟩ }
    else none
  | .race outcome =>
    if e.stage = .racing ∧ e.hasOutcome outcome then
      match outcome with
      | .worker settlement => some { e with stage := .settling settlement }
      | outcome => some { e with stopReason := outcome.stopReason, stage := .grace outcome }
    else none
  | .grace =>
    match e.stage, e.worker with
    | .grace outcome, some settlement =>
      some { e with stage := outcome.afterAbort (some settlement) }
    | _, _ => none
  | .graceOver =>
    match e.stage with
    | .grace outcome => some { e with stage := outcome.afterAbort none }
    | _ => none
  | .forceStopped =>
    match e.stage with
    | .forceStopping outcome => some { e with stage := .settling outcome.settlement }
    | _ => none
  | .finalize =>
    match e.stage with
    | .settling settlement => some (e.finalize settlement)
    | _ => none
  | .persisted => if e.stage = .persisting 0 then some { e with stage := .effects } else none
  | .effects => if e.stage = .effects then some e.fireTerminalEffects else none
  | .release =>
    if e.stage = .releasing then
      some { e with
        stage := .finished
        released := if e.detached then e.released else e.released.or (some .terminal)
        terminal := true }
    else none

end ManagedTask

/-! ### A task in a later manager -/

/-- Where `reconcile` is with a ghost. -/
inductive GhostPhase
  | loaded
  /-- The record of the lost task is being written. -/
  | marking
  | marked
  | notifying
  | restored
  /-- `reconcile` threw. -/
  | stopped
  deriving DecidableEq

structure GhostTask where
  info : BackgroundTaskInfo
  phase : GhostPhase := .loaded
  scheduled : List BackgroundTaskStatus := []
  delivered : List BackgroundTaskStatus

namespace GhostTask

/-- `restoreBackgroundTaskNotification` up to the output of the task. -/
def restore (g : GhostTask) : GhostTask :=
  if g.info.detached ≠ some false ∧ g.info.terminalNotificationSuppressed ≠ some true ∧
      g.info.status ∉ g.scheduled ∧ g.info.status ∉ g.delivered then
    { g with scheduled := g.info.status :: g.scheduled, phase := .notifying }
  else { g with phase := .restored }

end GhostTask

/-! ### A task through all processes -/

/-- A task, what is on disk about it, and what was told of its end. The processes are counted from
the one in which the task was registered. -/
structure TaskLife where
  taskId : String
  process : ℕ := 0
  entry : Option ManagedTask
  ghost : Option GhostTask := none
  /-- The tasks have not been loaded yet, and the keys that the log gave as delivered. -/
  loading : Bool := false
  replayed : List BackgroundTaskStatus := []
  disk : Option BackgroundTaskInfo := none
  /-- The notifications in the context, not yet and already in the log. -/
  unflushed : List BackgroundTaskStatus := []
  marks : List BackgroundTaskStatus := []
  /-- All notifications that were sent, and by which process. -/
  issued : List (ℕ × BackgroundTaskStatus) := []
  /-- A record could not be written. -/
  failed : Bool := false

inductive TaskEvent
  | entry (e : EntryEvent)
  | write (ok : Bool)
  | notify (ok : Bool)
  | load
  | markLost
  | markWritten (ok : Bool)
  | restore
  | renotify (ok : Bool)
  /-- The context takes a notification of a process. -/
  | deliver (process : ℕ) (status : BackgroundTaskStatus)
  | flush

namespace TaskLife

def register (taskId : String) (kind : BackgroundTaskKind) (description : String)
    (options : RegisterOptions) : TaskLife where
  taskId := taskId
  entry := some (ManagedTask.register taskId kind description options)

/-- A write of the queue of the manager that runs the task; a failed one is forgotten. -/
def write (s : TaskLife) (ok : Bool) : Option TaskLife :=
  s.entry.bind fun e =>
    e.persistWriteQueue.head?.map fun info =>
      { s with
        entry := some e.written
        disk := if ok then some info else s.disk
        failed := s.failed || !ok }

/-- `notifyBackgroundTask` behind the output. -/
def notify (s : TaskLife) (ok : Bool) : Option TaskLife :=
  s.entry.bind fun e =>
    if e.stage = .notifying then
      some { s with
        entry := some (e.notified ok)
        issued := if e.notifies ok then s.issued ++ [(0, e.status)] else s.issued }
    else none

/-- `loadFromDisk`. -/
def load (s : TaskLife) : Option TaskLife :=
  if s.loading then
    some { s with
      loading := false
      ghost := s.disk.map fun info => { info, delivered := s.replayed } }
  else none

/-- `markLoadedTasksLost` up to the write. -/
def markLost (s : TaskLife) : Option TaskLife :=
  s.ghost.bind fun g =>
    if g.phase = .loaded then
      some { s with
        ghost := some { g with
          info := GhostMap.markLost g.info
          phase := if g.info.status.isTerminal then .marked else .marking } }
    else none

def markWritten (s : TaskLife) (ok : Bool) : Option TaskLife :=
  s.ghost.bind fun g =>
    if g.phase = .marking then
      some { s with
        ghost := some { g with phase := if ok then .marked else .stopped }
        disk := if ok then some g.info else s.disk
        failed := s.failed || !ok }
    else none

def restore (s : TaskLife) : Option TaskLife :=
  s.ghost.bind fun g =>
    if g.phase = .marked then some { s with ghost := some g.restore } else none

/-- `restoreBackgroundTaskNotification` behind the output. -/
def renotify (s : TaskLife) (ok : Bool) : Option TaskLife :=
  s.ghost.bind fun g =>
    if g.phase = .notifying then
      some { s with
        ghost := some (if ok then { g with phase := .restored }
          else { g with scheduled := g.scheduled.erase g.info.status, phase := .stopped })
        issued := if ok then s.issued ++ [(s.process, g.info.status)] else s.issued }
    else none

/-- `markDeliveredNotification`, when the context takes a notification. -/
def deliver (s : TaskLife) (process : ℕ) (status : BackgroundTaskStatus) : Option TaskLife :=
  if (process, status) ∈ s.issued ∧ (process = 0 ∧ s.entry.isSome ∨ process = s.process) then
    some { s with
      entry :=
        if process = 0 then s.entry.map fun e => { e with delivered := status :: e.delivered }
        else s.entry
      ghost :=
        if process = 0 then s.ghost
        else s.ghost.map fun g => { g with delivered := status :: g.delivered }
      unflushed := s.unflushed ++ [status] }
  else none

/-- The next message comes into the log. -/
def flush (s : TaskLife) : Option TaskLife :=
  s.unflushed.head?.map fun status =>
    { s with unflushed := s.unflushed.tail, marks := s.marks ++ [status] }

def step (s : TaskLife) : TaskEvent → Option TaskLife
  | .entry e => s.entry.bind fun t => (t.step e).map fun t => { s with entry := some t }
  | .write ok => s.write ok
  | .notify ok => s.notify ok
  | .load => s.load
  | .markLost => s.markLost
  | .markWritten ok => s.markWritten ok
  | .restore => s.restore
  | .renotify ok => s.renotify ok
  | .deliver process status => s.deliver process status
  | .flush => s.flush

/-- The process dies, and another one replays the log. -/
def restart (s : TaskLife) : TaskLife :=
  { s with
    process := s.process + 1
    entry := none
    ghost := none
    loading := true
    replayed := s.marks
    unflushed := [] }

/-- Nothing is left to do for the manager that runs the task. -/
def Over (s : TaskLife) : Prop :=
  ∀ e ∈ s.entry, e.stage = .finished ∧ e.persistWriteQueue = []

instance (s : TaskLife) : Decidable s.Over := by unfold Over; infer_instance

/-- The session is reloaded in the same process: a new manager replays the log, and the old one
keeps what it has not done. -/
def reload (s : TaskLife) : TaskLife :=
  { s with
    process := s.process + 1
    entry := if s.Over then none else s.entry
    ghost := none
    loading := true
    replayed := s.marks }

end TaskLife

/-! ### All tasks -/

/-- The tasks, each through all processes. -/
structure BackgroundManagers where
  lives : List TaskLife := []

inductive ManagerEvent
  | register (taskId : String) (kind : BackgroundTaskKind) (description : String)
      (options : RegisterOptions)
  | task (i : ℕ) (e : TaskEvent)
  | restart
  | reload

namespace BackgroundManagers

/-- An id is drawn once. -/
def step (s : BackgroundManagers) : ManagerEvent → Option BackgroundManagers
  | .register taskId kind description options =>
    if taskId ∈ s.lives.map TaskLife.taskId then none
    else some ⟨s.lives ++ [TaskLife.register taskId kind description options]⟩
  | .task i e =>
    (s.lives[i]?).bind fun life => (life.step e).map fun life => ⟨s.lives.set i life⟩
  | .restart => some ⟨s.lives.map TaskLife.restart⟩
  | .reload => some ⟨s.lives.map TaskLife.reload⟩

/-- A session is reloaded when its manager has nothing left to do. -/
def Quiescent (s : BackgroundManagers) : ManagerEvent → Prop
  | .reload => ∀ life ∈ s.lives, life.Over
  | _ => True

instance (s : BackgroundManagers) (e : ManagerEvent) : Decidable (s.Quiescent e) := by
  cases e <;> unfold Quiescent <;> infer_instance

end BackgroundManagers

end NoriCode
