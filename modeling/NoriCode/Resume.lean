/-
**Resuming an agent.**

After the records are replayed, `resume` loads the background tasks, marks those lost that were
still running, and sends the notifications of the tasks that have ended: one that failed or was lost
is steered, another one is appended to the context.  Then it closes the context and the turns.  It
waits in between, so other things happen meanwhile: a steered notification may start a turn, the
turn writes to the context, takes what waits in the steer buffer, and ends.

The module embeds `Agent.resume` of `agent/index.ts` behind the replay, cut at the points where it
waits, and the notifications of `agent/background/index.ts`.  No task is alive in the new process,
and what takes messages out of the history (undo, clear, a summary) does not happen before `resume`
returns.

Main definitions:

* `ResumeState`, `ResumeStep` — the state, and what can happen;
* `ResumeState.step` — one step.
-/

import NoriCode.BackgroundTasks
import NoriCode.ContextReplay

namespace NoriCode

/-- The message that input becomes. -/
def appended (steer : BufferedSteer) : ContextMessage where
  role := .user
  content := steer.input
  toolCalls := []
  origin := some steer.origin

/-- The context after `appendUserMessage`; nothing is appended without content. -/
def ContextMemory.appendUser (c : ContextMemory) (steer : BufferedSteer) : ContextMemory :=
  if steer.input.length = 0 then c else c.append (appended steer)

/-- What `resume` waits for, or has come to. -/
inductive ResumePhase where
  | loadFromDisk
  | markLost
  /-- The tasks whose notifications are still to be looked at. -/
  | restore (rest : List BackgroundTaskInfo)
  /-- The output of a task is read for its notification. -/
  | output (info : BackgroundTaskInfo) (rest : List BackgroundTaskInfo)
  | loadCron
  | returned
  | failed
  deriving DecidableEq

structure ResumeState where
  /-- The persisted tasks of the previous process. -/
  disk : List BackgroundTaskInfo
  flow : TurnFlow := {}
  context : ContextMemory := {}
  ghosts : GhostMap := {}
  scheduledNotificationKeys : List String := []
  deliveredNotificationKeys : List String := []
  phase : ResumePhase := .loadFromDisk

namespace ResumeState

/-! ### Resume -/

/-- The context after messages have been pushed; notifications among them are delivered. -/
def withContext (s : ResumeState) (context : ContextMemory) : ResumeState :=
  { s with
    context
    deliveredNotificationKeys := s.deliveredNotificationKeys ++
      (context.messages.drop s.context.messages.length).filterMap (·.notificationKey) }

/-- `buildBackgroundTaskNotificationContext`, up to the point where the output is read: a
notification is scheduled at most once. -/
def schedule (s : ResumeState) (info : BackgroundTaskInfo) (rest : List BackgroundTaskInfo) :
    ResumeState :=
  if info.detached = some false ∨ s.ghosts.isTerminalNotificationSuppressed info.taskId = true ∨
      info.key ∈ s.scheduledNotificationKeys ∨ info.key ∈ s.deliveredNotificationKeys then
    { s with phase := .restore rest }
  else
    { s with
      scheduledNotificationKeys := s.scheduledNotificationKeys ++ [info.key]
      phase := .output info rest }

/-- `restoreBackgroundTaskNotifications`: the next task of the list. -/
def visit (s : ResumeState) : List BackgroundTaskInfo → ResumeState
  | [] => { s with phase := .loadCron }
  | info :: rest =>
    if info.status.isTerminal then s.schedule info rest else { s with phase := .restore rest }

/-- `restoreBackgroundTaskNotification`, behind the point where the output is read. -/
def notify (s : ResumeState) (info : BackgroundTaskInfo) (output : BackgroundTaskOutputSnapshot) :
    ResumeState :=
  if s.ghosts.isTerminalNotificationSuppressed info.taskId then
    { s with scheduledNotificationKeys := s.scheduledNotificationKeys.filter (· ≠ info.key) }
  else
    let notification := buildBackgroundTaskNotification info output
    if info.status = .failed ∨ info.status = .lost then
      { s with flow := s.flow.steer notification }
    else s.withContext (s.context.appendUser notification)

/-- `context.finishResume` and `turn.finishResume`, one directly after the other. -/
def finish (s : ResumeState) : ResumeState :=
  let s := s.withContext (s.context.performed .finishResume)
  { s with flow := s.flow.finishResume, phase := .returned }

/-! ### Meanwhile -/

def flushSteerBuffer (s : ResumeState) : ResumeState :=
  let s' := s.withContext (s.flow.steerBuffer.foldl ContextMemory.appendUser s.context)
  { s' with flow := { s.flow with steerBuffer := [] } }

/-- `onCompactionFinished`, after a compaction that has been cancelled or has failed. -/
def onCompactionFinished (s : ResumeState) : ResumeState :=
  let s := { s with flow := { s.flow with isCompacting := false } }
  if s.flow.activeTurn ≠ .idle then s.flushSteerBuffer
  else { s with flow := s.flow.launchBufferedSteerIfIdle }

end ResumeState

/-- What can happen until `resume` returns: it goes on, a turn does something, or something comes
from outside. -/
inductive ResumeStep where
  | loaded
  | marked
  | visited
  | outputRead (output : BackgroundTaskOutputSnapshot)
  | failed
  | finished
  /-- Code of a turn appends a message, or records an event of its loop. -/
  | append (message : ContextMessage)
  | loopEvent (event : LoopRecordedEvent)
  | flushSteers
  | turnEnded
  | prompt (steer : BufferedSteer)
  | steer (steer : BufferedSteer)
  | cancel (turnId : Option ℤ)
  | compactionBegan
  | compactionEnded

namespace ResumeState

/-- What a step does before `resume` has returned. -/
def next (s : ResumeState) : ResumeStep → Option ResumeState
  | .loaded =>
    if s.phase = .loadFromDisk then
      some { s with ghosts := .loadFromDisk s.disk, phase := .markLost }
    else none
  | .marked =>
    if s.phase = .markLost then
      some { s with
        ghosts := s.ghosts.markLoadedTasksLost
        phase := .restore s.ghosts.markLoadedTasksLost.infos }
    else none
  | .visited =>
    match s.phase with
    | .restore rest => some (s.visit rest)
    | _ => none
  | .outputRead output =>
    match s.phase with
    | .output info rest => some { s.notify info output with phase := .restore rest }
    | _ => none
  | .failed => some { s with phase := .failed }
  | .finished => if s.phase = .loadCron then some s.finish else none
  | .append message => some (s.withContext (s.context.append message))
  | .loopEvent event => some (s.withContext (s.context.loopEvent event))
  | .flushSteers =>
    match s.flow.activeTurn with
    | .running _ => some s.flushSteerBuffer
    | _ => none
  | .turnEnded =>
    match s.flow.activeTurn with
    | .running _ => some { s with flow := s.flow.turnEnded }
    | _ => none
  | .prompt steer => some { s with flow := s.flow.requestPrompt steer }
  | .steer steer => some { s with flow := s.flow.steer steer }
  | .cancel turnId => some { s with flow := s.flow.cancel turnId }
  | .compactionBegan => some { s with flow := { s.flow with isCompacting := true } }
  | .compactionEnded => some s.onCompactionFinished

def step (s : ResumeState) (a : ResumeStep) : Option ResumeState :=
  if s.phase = .returned then none else s.next a

end ResumeState

end NoriCode
