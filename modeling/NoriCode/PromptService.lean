/-
**Prompts on their way to an agent.**

Clients submit prompts.  One of them may be active, the others wait in a queue, from which the next
one is started when a turn ends.  Prompts that wait may be steered into the active turn instead.
Every call that goes to the core waits for its answer in the middle of the method, and meanwhile
other calls and the events of turns are handled; a prompt that such a call has taken out of the
queue, or has not yet made active, is only known to the call.

The module embeds `services/prompt/promptService.ts` for one agent of one session: all tables of the
service are keyed by both.  A prompt is known by its number.  The content of prompts, the runtime
controls and the checks in front of a submission are left out; the calls of the core that they make
may fail.

Main definitions:

* `PromptServiceState`, `PromptStep` — the state, and what can happen;
* `PromptServiceState.step` — one step;
* `PromptEvent` — the events that clients see.
-/

import NoriCode.LibRun
import Mathlib.Data.Int.Notation
import Mathlib.Data.List.Count

namespace NoriCode

/-! ### State -/

structure PromptState where
  turnId : Option ℤ := none
  completed : Bool := false
  aborted : Bool := false

/-- What the call that starts a prompt waits for. -/
inductive DispatchPhase where
  /-- The checkpoint and the runtime controls, before the prompt is active. -/
  | preparing
  /-- The core. -/
  | calling
  /-- The checkpoint is discarded, since the core was busy. -/
  | refused
  /-- The checkpoint is discarded, since something was thrown. -/
  | failing
  deriving DecidableEq

/-- A call of `_startPrompt`, from `submit` or from `_startNextQueued`. -/
structure PromptDispatch where
  promptId : ℕ
  fromQueue : Bool
  phase : DispatchPhase := .preparing
  deriving DecidableEq

/-- A call of `steer`; `failed` when its checkpoint is being discarded. -/
structure PromptSteer where
  promptIds : List ℕ
  failed : Bool := false
  deriving DecidableEq

inductive PromptEvent where
  | submitted (promptId : ℕ) (running : Bool)
  | completed (promptId : ℕ) (failed : Bool)
  | aborted (promptId : ℕ)
  | steered (promptIds : List ℕ)
  deriving DecidableEq

structure PromptServiceState where
  prompts : List PromptState := []
  active : Option ℕ := none
  queued : List ℕ := []
  /-- The calls that wait for the core. -/
  dispatches : List PromptDispatch := []
  steers : List PromptSteer := []
  aborts : List ℕ := []
  /-- The prompts whose submission has returned, and those whose submission has failed. -/
  accepted : List ℕ := []
  rejected : List ℕ := []
  /-- The prompts that the core has taken. -/
  launched : List ℕ := []
  log : List PromptEvent := []

inductive TurnEndReason where
  | completed
  | cancelled
  | failed
  | filtered
  deriving DecidableEq

/-- What can happen: a call of a client, an answer of the core to a call, an event of a turn. -/
inductive PromptStep where
  | submit
  | steer (promptIds : List ℕ)
  | abort (promptId : ℕ)
  /-- The checkpoint could not be captured. -/
  | captureFailed (dispatch : PromptDispatch)
  /-- A runtime control could not be set. -/
  | overrideFailed (dispatch : PromptDispatch)
  | prepared (dispatch : PromptDispatch)
  | started (dispatch : PromptDispatch)
  | busy (dispatch : PromptDispatch)
  | threw (dispatch : PromptDispatch)
  | discarded (dispatch : PromptDispatch)
  | steered (steer : PromptSteer)
  | steerFailed (steer : PromptSteer)
  | steerDiscarded (steer : PromptSteer)
  | cancelled (promptId : ℕ)
  | cancelFailed (promptId : ℕ)
  | turnStarted (turnId : ℤ)
  | turnEnded (turnId : ℤ) (reason : TurnEndReason)
  | errorEvent

namespace PromptServiceState

def publish (s : PromptServiceState) (event : PromptEvent) : PromptServiceState :=
  { s with log := s.log ++ [event] }

def updatePrompt (s : PromptServiceState) (p : ℕ) (f : PromptState → PromptState) :
    PromptServiceState :=
  { s with prompts := s.prompts.modify p f }

def isAborted (s : PromptServiceState) (p : ℕ) : Bool := (s.prompts[p]?).any (·.aborted)

def isCompleted (s : PromptServiceState) (p : ℕ) : Bool := (s.prompts[p]?).any (·.completed)

/-- A call that waits goes on to wait for something else. -/
def setPhase (s : PromptServiceState) (d : PromptDispatch) (phase : DispatchPhase) :
    PromptServiceState :=
  { s with dispatches := { d with phase } :: s.dispatches.erase d }

/-- A call is over. -/
def endDispatch (s : PromptServiceState) (d : PromptDispatch) : PromptServiceState :=
  { s with dispatches := s.dispatches.erase d }

/-! ### Starting prompts -/

/-- `_startPrompt` begins: it waits before the prompt is active. -/
def startPrompt (s : PromptServiceState) (p : ℕ) (fromQueue : Bool) : PromptServiceState :=
  { s with dispatches := ⟨p, fromQueue, .preparing⟩ :: s.dispatches }

/-- `_startNextQueued`, up to its first wait. -/
def startNextQueued (s : PromptServiceState) : PromptServiceState :=
  if s.active.any (fun p => !s.isCompleted p && !s.isAborted p) then s
  else
    match s.queued with
    | [] => s
    | next :: rest => { s with queued := rest }.startPrompt next true

/-- `submit`, behind its checks, up to its first wait. -/
def submit (s : PromptServiceState) : PromptServiceState :=
  let p := s.prompts.length
  let created := { s with prompts := s.prompts ++ [({} : PromptState)] }
  if s.active.any (fun q => !s.isCompleted q) then
    { created with queued := s.queued ++ [p], accepted := s.accepted ++ [p] }.publish
      (.submitted p false)
  else created.startPrompt p false

/-- The slot is cleared, if it is the prompt's. -/
def clearActive (s : PromptServiceState) (p : ℕ) : PromptServiceState :=
  if s.active = some p then { s with active := none } else s

/-- The prompt becomes active, and the core is called. -/
def prepared (s : PromptServiceState) (d : PromptDispatch) : PromptServiceState :=
  let s := { s.setPhase d .calling with active := some d.promptId }
  if d.fromQueue then s else s.publish (.submitted d.promptId true)

/-- The core has started the prompt, or will after a compaction. -/
def started (s : PromptServiceState) (d : PromptDispatch) : PromptServiceState :=
  let s := { s.endDispatch d with launched := s.launched ++ [d.promptId] }
  if d.fromQueue then s else { s with accepted := s.accepted ++ [d.promptId] }

/-- The core was busy. -/
def busy (s : PromptServiceState) (d : PromptDispatch) : PromptServiceState :=
  (s.clearActive d.promptId).setPhase d .refused

/-- A submission that fails surfaces the error. -/
def reject (s : PromptServiceState) (d : PromptDispatch) : PromptServiceState :=
  if d.fromQueue then s else { s with rejected := s.rejected ++ [d.promptId] }

/-- Something was thrown inside the `try` of `_startPrompt`. -/
def threw (s : PromptServiceState) (d : PromptDispatch) : PromptServiceState :=
  ((s.clearActive d.promptId).setPhase d .failing).reject d

/-- Capturing the checkpoint is outside of the `try`. -/
def captureFailed (s : PromptServiceState) (d : PromptDispatch) : PromptServiceState :=
  let s := (s.endDispatch d).reject d
  if d.fromQueue then s.startNextQueued else s

/-- The checkpoint has been discarded: a refused prompt goes back to the queue, behind the others or
in front of them; after an error, the next one of the queue is started. -/
def discarded (s : PromptServiceState) (d : PromptDispatch) : PromptServiceState :=
  let s := s.endDispatch d
  if d.phase = .refused then
    if d.fromQueue then { s with queued := d.promptId :: s.queued }
    else
      { s with
        queued := s.queued ++ [d.promptId]
        accepted := s.accepted ++ [d.promptId] }.startNextQueued
  else if d.fromQueue then s.startNextQueued
  else s

/-! ### Steering -/

/-- `steer`, up to its first wait; none where it throws. -/
def steer (s : PromptServiceState) (promptIds : List ℕ) : Option PromptServiceState :=
  if promptIds.length = 0 then none
  else if s.active.all (fun p => s.isCompleted p || s.isAborted p) then none
  else if promptIds.all s.queued.contains then
    some { s with
      queued := s.queued.filter (!promptIds.contains ·)
      steers := ⟨promptIds, false⟩ :: s.steers }
  else none

/-- The core has taken the prompts into its turn. -/
def steered (s : PromptServiceState) (steer : PromptSteer) : PromptServiceState :=
  { s with steers := s.steers.erase steer }.publish (.steered steer.promptIds)

def restoreSteeredQueueItems (s : PromptServiceState) (selected : List ℕ) : PromptServiceState :=
  { s with queued := selected.filter (!s.queued.contains ·) ++ s.queued }

/-! ### Aborting -/

/-- `abort`, up to its first wait; none where it throws. -/
def abort (s : PromptServiceState) (p : ℕ) : Option PromptServiceState :=
  if s.active = some p then
    if s.isCompleted p || s.isAborted p then none
    else some { s.updatePrompt p fun state => { state with aborted := true } with
      aborts := p :: s.aborts }
  else if p ∈ s.queued then some ({ s with queued := s.queued.erase p }.publish (.aborted p))
  else none

/-- The core has cancelled the turn of the prompt. -/
def cancelled (s : PromptServiceState) (p : ℕ) : PromptServiceState :=
  { s with aborts := s.aborts.erase p }.publish (.aborted p)

/-- The core has not; the flag is rolled back. -/
def cancelFailed (s : PromptServiceState) (p : ℕ) : PromptServiceState :=
  { s.updatePrompt p fun state => { state with aborted := false } with
    aborts := s.aborts.erase p }

/-! ### Events of turns -/

/-- The first turn that starts is the turn of the active prompt. -/
def turnStarted (s : PromptServiceState) (turnId : ℤ) : PromptServiceState :=
  match s.active with
  | none => s
  | some p => s.updatePrompt p fun state =>
    { state with turnId := state.turnId.or (some turnId) }

/-- The turn of the active prompt has ended. -/
def promptEnded (s : PromptServiceState) (p : ℕ) (reason : TurnEndReason) : PromptServiceState :=
  let closed := { s with active := none }
  if s.isAborted p then closed.startNextQueued
  else if reason = .cancelled then
    ((closed.updatePrompt p fun state => { state with aborted := true }).publish
      (.aborted p)).startNextQueued
  else
    ((closed.updatePrompt p fun state => { state with completed := true }).publish
      (.completed p (reason = .failed ∨ reason = .filtered))).startNextQueued

def turnEnded (s : PromptServiceState) (turnId : ℤ) (reason : TurnEndReason) : PromptServiceState :=
  match s.active with
  | none => s.startNextQueued
  | some p =>
    if (s.prompts[p]?).bind (·.turnId) = some turnId then s.promptEnded p reason else s

def step (s : PromptServiceState) : PromptStep → Option PromptServiceState
  | .submit => some s.submit
  | .steer promptIds => s.steer promptIds
  | .abort p => s.abort p
  | .captureFailed d =>
    if d ∈ s.dispatches ∧ d.phase = .preparing then some (s.captureFailed d) else none
  | .overrideFailed d =>
    if d ∈ s.dispatches ∧ d.phase = .preparing then some (s.threw d) else none
  | .prepared d => if d ∈ s.dispatches ∧ d.phase = .preparing then some (s.prepared d) else none
  | .started d => if d ∈ s.dispatches ∧ d.phase = .calling then some (s.started d) else none
  | .busy d => if d ∈ s.dispatches ∧ d.phase = .calling then some (s.busy d) else none
  | .threw d => if d ∈ s.dispatches ∧ d.phase = .calling then some (s.threw d) else none
  | .discarded d =>
    if d ∈ s.dispatches ∧ (d.phase = .refused ∨ d.phase = .failing) then some (s.discarded d)
    else none
  | .steered steer =>
    if steer ∈ s.steers ∧ steer.failed = false then some (s.steered steer) else none
  | .steerFailed steer =>
    if steer ∈ s.steers ∧ steer.failed = false then
      some { s with steers := ⟨steer.promptIds, true⟩ :: s.steers.erase steer }
    else none
  | .steerDiscarded steer =>
    if steer ∈ s.steers ∧ steer.failed = true then
      some ({ s with steers := s.steers.erase steer }.restoreSteeredQueueItems steer.promptIds)
    else none
  | .cancelled p => if p ∈ s.aborts then some (s.cancelled p) else none
  | .cancelFailed p => if p ∈ s.aborts then some (s.cancelFailed p) else none
  | .turnStarted turnId => some (s.turnStarted turnId)
  | .turnEnded turnId reason => some (s.turnEnded turnId reason)
  | .errorEvent => some s

end PromptServiceState

end NoriCode
