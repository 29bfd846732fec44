/-
**A live agent: turns, context and goal.**

Prompts and steers launch turns or wait in the steer buffer.  The worker of a turn appends the input
of the turn to the context, takes over what waits in the buffer at the boundaries of its steps, and
hands the agent to the next buffered input when it ends.  A compaction that holds the context makes
input wait, and its worker flushes the buffer when it comes to its end, which may be long after the
compaction has been cancelled.  A prompt of the user begins with a checkpoint of the goal, and
undoing history rewinds the goal to a checkpoint.

The module puts together `agent/turn/index.ts`, `agent/context/index.ts` and `agent/goal/index.ts`,
with `undoHistory` of `agent/index.ts`.  Everything else that writes to the context, such as the
loop of a turn, is an arbitrary operation on the context.

Main definitions:

* `LiveAgent` — the state, with the history of the inputs;
* `LiveAgent.prompt`, `LiveAgent.steer`, `LiveAgent.flushSteerBuffer`,
  `LiveAgent.onCompactionFinished`, `LiveAgent.undoHistory` — the operations;
* `LiveAgent.step` — one step.
-/

import NoriCode.Goal
import NoriCode.Resume

namespace NoriCode

open Option

/-- A text that the user has typed. -/
def userInput (text : String) : BufferedSteer := ⟨[.text text], ⟨.user, none⟩⟩

/-- How input leaves the steer buffer: it is appended to the context, a turn is launched with it, or
it has no content and nothing is appended. -/
inductive Settled where
  | appended (steer : BufferedSteer)
  | launched (steer : BufferedSteer)
  | skipped (steer : BufferedSteer)
  deriving DecidableEq

def Settled.input : Settled → BufferedSteer
  | .appended steer | .launched steer | .skipped steer => steer

/-- What `appendUserMessage` makes of input that is flushed. -/
def Settled.flushed (steer : BufferedSteer) : Settled :=
  if steer.input.length = 0 then .skipped steer else .appended steer

structure LiveAgent where
  flow : TurnFlow := {}
  context : ContextMemory := {}
  goal : GoalSession := {}
  /-- The number of launched turns whose workers have appended the input. -/
  startedTurns : ℕ := 0
  /-- The number of workers of compactions that have not come to their end. -/
  compactionWorkers : ℕ := 0
  /-- The input the buffer has accepted so far. -/
  accepted : List BufferedSteer := []
  /-- The input a cancel has taken out of the buffer. -/
  dropped : List BufferedSteer := []
  /-- The input that has left the buffer otherwise. -/
  settled : List Settled := []
  /-- The inputs of the user that have not been undone, each with the checkpoint that it began
  with. -/
  inputs : List (BufferedSteer × GoalRewindCheckpoint) := []

namespace LiveAgent

/-! ### Input -/

/-- The checkpoint the next prompt begins with: the prepared one, or the goal as it is. -/
def nextCheckpoint (s : LiveAgent) (now : ℤ) : GoalRewindCheckpoint :=
  if s.goal.mode.rewindCheckpointPrepared then s.goal.mode.rewindCheckpoints.getLast?.getD none
  else s.goal.mode.rewindSnapshot now

/-- Input of the user begins with a checkpoint. -/
def beginInput (s : LiveAgent) (steer : BufferedSteer) (now : ℤ) : LiveAgent :=
  if steer.origin.kind = .user then
    { s with
      goal := s.goal.beginRewindablePrompt now
      inputs := s.inputs ++ [(steer, s.nextCheckpoint now)] }
  else s

def logRecord (s : LiveAgent) (record : GoalRecord) : LiveAgent :=
  { s with goal := s.goal.logRecord record }

/-- `launch`: input is lost while a turn is active. -/
def launch (s : LiveAgent) (steer : BufferedSteer) : LiveAgent :=
  { s with
    flow := s.flow.launch steer
    accepted :=
      if s.flow.activeTurn = .idle ∧ s.flow.isCompacting = true then s.accepted ++ [steer]
      else s.accepted }

/-- **`prompt`.** -/
def prompt (s : LiveAgent) (steer : BufferedSteer) (now : ℤ) : LiveAgent :=
  ((s.beginInput steer now).logRecord (.turnPrompt steer.origin)).launch steer

/-- Input waits in the buffer. -/
def buffer (s : LiveAgent) (steer : BufferedSteer) : LiveAgent :=
  { s with flow := s.flow.buffer steer, accepted := s.accepted ++ [steer] }

/-- **`steer`.** -/
def steer (s : LiveAgent) (steer : BufferedSteer) (now : ℤ) : LiveAgent :=
  let s := (s.beginInput steer now).logRecord (.turnSteer steer.origin)
  if s.flow.activeTurn ≠ .idle ∨ s.flow.isCompacting = true then s.buffer steer
  else s.launch steer

/-- `cancel`: guidance of the user that waits is dropped, if the cancel is for the active turn. -/
def cancel (s : LiveAgent) (turnId : Option ℤ) : LiveAgent :=
  { s.logRecord .other with
    flow := s.flow.cancel turnId
    dropped :=
      if turnId.any (· ≠ s.flow.turnId) then s.dropped
      else s.dropped ++ s.flow.steerBuffer.filter (·.origin.kind = .user) }

/-! ### The buffer -/

/-- **`flushSteerBuffer`.** -/
def flushSteerBuffer (s : LiveAgent) : LiveAgent :=
  { s with
    flow := { s.flow with steerBuffer := [] }
    context := s.flow.steerBuffer.foldl ContextMemory.appendUser s.context
    settled := s.settled ++ s.flow.steerBuffer.map Settled.flushed }

/-- **`launchBufferedSteerIfIdle`.** -/
def launchBufferedSteerIfIdle (s : LiveAgent) : LiveAgent :=
  { s with
    flow := s.flow.launchBufferedSteerIfIdle
    settled :=
      if s.flow.activeTurn ≠ .idle ∨ s.flow.isCompacting = true then s.settled
      else s.settled ++ (s.flow.steerBuffer.head?.map Settled.launched).toList }

/-- **`onCompactionFinished`.** -/
def onCompactionFinished (s : LiveAgent) : LiveAgent :=
  if s.flow.steerBuffer.length = 0 then s
  else if s.flow.activeTurn ≠ .idle then s.flushSteerBuffer
  else s.launchBufferedSteerIfIdle

/-! ### Turns and compactions -/

/-- The worker of a launched turn appends the input of the turn. -/
def turnStarts (s : LiveAgent) : Option LiveAgent :=
  s.flow.launched[s.startedTurns]?.map fun steer =>
    { s with context := s.context.appendUser steer, startedTurns := s.startedTurns + 1 }

/-- A turn runs, and its input has been appended. -/
def running (s : LiveAgent) : Bool :=
  s.flow.activeTurn != .idle && s.startedTurns == s.flow.launched.length

def turnEnds (s : LiveAgent) : LiveAgent :=
  { s with flow := { s.flow with activeTurn := .idle } }.launchBufferedSteerIfIdle

def compactionBegins (s : LiveAgent) : LiveAgent :=
  { s.logRecord .other with
    flow := { s.flow with isCompacting := true }
    compactionWorkers := s.compactionWorkers + 1 }

def compactionCancelled (s : LiveAgent) : LiveAgent :=
  { s.logRecord .other with flow := { s.flow with isCompacting := false } }

/-- The worker of a compaction comes to its end; it has freed the context, or the compaction had
been cancelled before. -/
def compactionFinishes (s : LiveAgent) (frees : Bool) : LiveAgent :=
  onCompactionFinished { s with
    flow := { s.flow with isCompacting := s.flow.isCompacting && !frees }
    compactionWorkers := s.compactionWorkers - 1 }

/-! ### The goal and the history -/

/-- An operation on the goal, which may be refused. -/
def onGoal (s : LiveAgent) (op : GoalOp) (now later : ℤ) : LiveAgent :=
  match s.goal.perform now later op with
  | .ok goal => { s with goal }
  | .error _ => s

/-- The records of an operation on the context are records of another part, for the goal. -/
def onContext (s : LiveAgent) (op : ContextOp) : LiveAgent :=
  { s with
    context := s.context.performed op
    goal := { s.goal with
      records := s.goal.records ++ (s.context.logged op).map fun _ => .other } }

/-- The part of `undoHistory` that is left out when the history cannot be undone. -/
def rewindGoal (s : LiveAgent) (count now : ℤ) : LiveAgent :=
  { s with
    goal := { s.goal with mode := s.goal.mode.rewind count now }
    inputs := s.inputs.take (s.inputs.length - count.toNat) }

/-- The part of `undoHistory` that undoes the history. -/
def undoContext (s : LiveAgent) (count : ℤ) : LiveAgent :=
  { (if s.context.canUndo count then s.logRecord (.undo count) else s) with
    context := s.context.undone count }

/-- What `context.undo` raises. -/
def undoError (s : LiveAgent) (count : ℤ) : Option ContextError :=
  (undo { context := s.context } count).2

/-- **`undoHistory`**: the goal is rewound if undoing the history raises no error. -/
def undoHistory (s : LiveAgent) (count now : ℤ) : LiveAgent :=
  match s.undoError count with
  | some _ => s.undoContext count
  | none => (s.undoContext count).rewindGoal count now

end LiveAgent

/-- What can happen to a live agent. -/
inductive LiveStep where
  | prompt (steer : BufferedSteer) (now : ℤ)
  | steer (steer : BufferedSteer) (now : ℤ)
  | cancel (turnId : Option ℤ)
  | turnStarts
  | flush
  | turnEnds
  | compactionBegins
  | compactionCancelled
  | compactionFinishes (frees : Bool)
  | captureRewindCheckpoint (now : ℤ)
  | discardRewindCheckpoint (now : ℤ)
  | goal (op : GoalOp) (now later : ℤ)
  | context (op : ContextOp)
  | undoHistory (count now : ℤ)

/-- An operation on the context that is not part of a step of its own. -/
def ContextOp.isOther : ContextOp → Bool
  | .undo _ | .turnPrompt _ => false
  | _ => true

namespace LiveAgent

/-- **One step.**  Only a running turn flushes the buffer or ends; a worker that comes to its end
without freeing the context is not the one that holds it. -/
def step (s : LiveAgent) : LiveStep → Option LiveAgent
  | .prompt steer now => some (s.prompt steer now)
  | .steer steer now => some (LiveAgent.steer s steer now)
  | .cancel turnId => some (s.cancel turnId)
  | .turnStarts => s.turnStarts
  | .flush => if s.running then some s.flushSteerBuffer else none
  | .turnEnds => if s.running then some s.turnEnds else none
  | .compactionBegins => if s.flow.isCompacting then none else some s.compactionBegins
  | .compactionCancelled => some s.compactionCancelled
  | .compactionFinishes frees =>
    if s.compactionWorkers = 0 ∨
        (frees = false ∧ s.flow.isCompacting = true ∧ s.compactionWorkers = 1) then none
    else some (s.compactionFinishes frees)
  | .captureRewindCheckpoint now => some { s with goal := s.goal.prepareRewindCheckpoint now }
  | .discardRewindCheckpoint now => some { s with goal := s.goal.discardRewindCheckpoint now }
  | .goal op now later => some (s.onGoal op now later)
  | .context op => if op.isOther then some (s.onContext op) else none
  | .undoHistory count now => some (s.undoHistory count now)

/-- **What a step does**, and when it can be taken. -/
inductive Takes (s : LiveAgent) : LiveStep → LiveAgent → Prop where
  | prompt (steer : BufferedSteer) (now : ℤ) : Takes s (.prompt steer now) (s.prompt steer now)
  | steer (x : BufferedSteer) (now : ℤ) : Takes s (.steer x now) (s.steer x now)
  | cancel (turnId : Option ℤ) : Takes s (.cancel turnId) (s.cancel turnId)
  | turnStarts {steer : BufferedSteer} (hsteer : s.flow.launched[s.startedTurns]? = some steer) :
      Takes s .turnStarts
        { s with context := s.context.appendUser steer, startedTurns := s.startedTurns + 1 }
  | flush (hrunning : s.running = true) : Takes s .flush s.flushSteerBuffer
  | turnEnds (hrunning : s.running = true) : Takes s .turnEnds s.turnEnds
  | compactionBegins (hnone : ¬s.flow.isCompacting = true) :
      Takes s .compactionBegins s.compactionBegins
  | compactionCancelled : Takes s .compactionCancelled s.compactionCancelled
  | compactionFinishes (frees : Bool)
      (hworker : ¬(s.compactionWorkers = 0 ∨
        frees = false ∧ s.flow.isCompacting = true ∧ s.compactionWorkers = 1)) :
      Takes s (.compactionFinishes frees) (s.compactionFinishes frees)
  | captureRewindCheckpoint (now : ℤ) :
      Takes s (.captureRewindCheckpoint now) { s with goal := s.goal.prepareRewindCheckpoint now }
  | discardRewindCheckpoint (now : ℤ) :
      Takes s (.discardRewindCheckpoint now) { s with goal := s.goal.discardRewindCheckpoint now }
  | goal (op : GoalOp) (now later : ℤ) : Takes s (.goal op now later) (s.onGoal op now later)
  | context {op : ContextOp} (hother : op.isOther = true) : Takes s (.context op) (s.onContext op)
  | undoHistory (count now : ℤ) : Takes s (.undoHistory count now) (s.undoHistory count now)

theorem step_cases {s t : LiveAgent} {a : LiveStep} (ht : s.step a = some t) : s.Takes a t := by
  cases a with
  | prompt steer now => exact some.inj ht ▸ .prompt steer now
  | steer x now => exact some.inj ht ▸ .steer x now
  | cancel turnId => exact some.inj ht ▸ .cancel turnId
  | turnStarts =>
    obtain ⟨steer, hsteer, rfl⟩ := map_eq_some_iff.1 ht
    exact .turnStarts hsteer
  | flush =>
    obtain ⟨hrunning, ht⟩ := ite_none_right_eq_some.1 ht
    exact some.inj ht ▸ .flush hrunning
  | turnEnds =>
    obtain ⟨hrunning, ht⟩ := ite_none_right_eq_some.1 ht
    exact some.inj ht ▸ .turnEnds hrunning
  | compactionBegins =>
    obtain ⟨hnone, ht⟩ := ite_none_left_eq_some.1 ht
    exact some.inj ht ▸ .compactionBegins hnone
  | compactionCancelled => exact some.inj ht ▸ .compactionCancelled
  | compactionFinishes frees =>
    obtain ⟨hworker, ht⟩ := ite_none_left_eq_some.1 ht
    exact some.inj ht ▸ .compactionFinishes frees hworker
  | captureRewindCheckpoint now => exact some.inj ht ▸ .captureRewindCheckpoint now
  | discardRewindCheckpoint now => exact some.inj ht ▸ .discardRewindCheckpoint now
  | goal op now later => exact some.inj ht ▸ .goal op now later
  | context op =>
    obtain ⟨hother, ht⟩ := ite_none_right_eq_some.1 ht
    exact some.inj ht ▸ .context hother
  | undoHistory count now => exact some.inj ht ▸ .undoHistory count now

end LiveAgent

end NoriCode
