/-
**The goal of an agent.**

An agent has at most one goal.  Every change of it is written to the log of the agent as a partial
update.  While a goal is active the time it takes runs on; the running interval is folded into the
total when the goal stops, and updates of the status log the total.

In front of a prompt of the user the goal is saved as a checkpoint, so that undoing the prompt also
undoes what happened to the goal.  A checkpoint is prepared before a prompt is submitted and belongs
to the prompt once that begins; a prompt that fails to be submitted discards it and takes the goal
back.

The module embeds `GoalMode` of `agent/goal/index.ts`.  The clock is read by the code; every reading
is an argument here.  Events, telemetry, the computed budget report and the positions in the
records for the user interface are left out.

Main definitions:

* `GoalState`, `GoalMode`, `GoalRecord` — the goal, what belongs to it,
  and the log;
* `GoalSession.perform` — the operations on the goal;
* `GoalSession.prepareRewindCheckpoint`, `GoalSession.beginRewindablePrompt`,
  `GoalSession.discardRewindCheckpoint`, `GoalMode.rewind` — the checkpoints;
* `GoalMode.restoreRecord`, `replayGoal` — restoring the goal from the log.
-/

import NoriCode.Message

namespace NoriCode

def MAX_GOAL_OBJECTIVE_LENGTH : ℕ := 4000

inductive GoalStatus where
  | active
  | paused
  | blocked
  | complete
  deriving DecidableEq

structure GoalBudgetLimits where
  tokenBudget : Option ℤ := none
  turnBudget : Option ℤ := none
  wallClockBudgetMs : Option ℤ := none
  deriving DecidableEq

/-- `{ ...limits, ...input }`: a limit that is given replaces the old one. -/
def GoalBudgetLimits.merge (limits input : GoalBudgetLimits) : GoalBudgetLimits where
  tokenBudget := input.tokenBudget.or limits.tokenBudget
  turnBudget := input.turnBudget.or limits.turnBudget
  wallClockBudgetMs := input.wallClockBudgetMs.or limits.wallClockBudgetMs

structure GoalState where
  goalId : String
  objective : String
  completionCriterion : Option String := none
  status : GoalStatus
  turnsUsed : ℤ
  tokensUsed : ℤ
  /-- The time of the finished active intervals. -/
  wallClockMs : ℤ
  /-- When the current active interval has begun. -/
  wallClockResumedAt : Option ℤ := none
  budgetLimits : GoalBudgetLimits
  terminalReason : Option String := none

structure GoalRewindSnapshot where
  goalId : String
  objective : String
  completionCriterion : Option String := none
  status : GoalStatus
  turnsUsed : ℤ
  tokensUsed : ℤ
  wallClockMs : ℤ
  budgetLimits : GoalBudgetLimits
  terminalReason : Option String := none
  deriving DecidableEq

/-- A checkpoint: the goal it saves, or that there was none. -/
abbrev GoalRewindCheckpoint := Option GoalRewindSnapshot

structure GoalMode where
  state : Option GoalState := none
  /-- The oldest one first. -/
  rewindCheckpoints : List GoalRewindCheckpoint := []
  rewindCheckpointPrepared : Bool := false
  legacyRewindCheckpoint : Option GoalRewindCheckpoint := none

/-- The record `goal.update`. -/
structure GoalUpdate where
  status : Option GoalStatus := none
  tokensUsed : Option ℤ := none
  turnsUsed : Option ℤ := none
  wallClockMs : Option ℤ := none
  budgetLimits : Option GoalBudgetLimits := none
  reason : Option String := none

/-- The records of the log, as far as the goal is concerned. -/
inductive GoalRecord where
  | create (goalId objective : String) (completionCriterion : Option String)
  | update (update : GoalUpdate)
  | clear
  | rewindCheckpoint (snapshot : GoalRewindCheckpoint)
  | rewindCheckpointDiscard
  | turnPrompt (origin : PromptOrigin)
  | turnSteer (origin : PromptOrigin)
  | undo (count : ℤ)
  /-- A record of another part of the agent. -/
  | other

inductive GoalError where
  | objectiveEmpty
  | objectiveTooLong
  | alreadyExists
  | statusInvalid (status : GoalStatus)
  | notResumable (status : GoalStatus)
  | notFound

def GoalStatus.text : GoalStatus → String
  | .active => "active"
  | .paused => "paused"
  | .blocked => "blocked"
  | .complete => "complete"

def GoalError.message : GoalError → String
  | .objectiveEmpty => "Goal objective cannot be empty"
  | .objectiveTooLong =>
    "Goal objective cannot exceed " ++ toString MAX_GOAL_OBJECTIVE_LENGTH ++ " characters"
  | .alreadyExists => "A goal already exists; use replace to start a new one"
  | .statusInvalid status => "Cannot pause a goal in status \"" ++ status.text ++ "\""
  | .notResumable status => "Cannot resume a goal in status \"" ++ status.text ++ "\""
  | .notFound => "No current goal"

/-! ### The clock of a goal -/

namespace GoalState

/-- `liveWallClockMs`: the total with the running interval. -/
def liveWallClockMs (state : GoalState) (now : ℤ) : ℤ :=
  match state.status, state.wallClockResumedAt with
  | .active, some resumedAt => state.wallClockMs + max 0 (now - resumedAt)
  | _, _ => state.wallClockMs

/-- The running interval is folded into the total. -/
def foldInterval (state : GoalState) (now : ℤ) : GoalState :=
  match state.status, state.wallClockResumedAt with
  | .active, some resumedAt =>
    { state with
      wallClockMs := state.wallClockMs + max 0 (now - resumedAt), wallClockResumedAt := none }
  | _, _ => state

def applyStatus (state : GoalState) (status : GoalStatus) (now : ℤ) : GoalState :=
  let state := state.foldInterval now
  { state with
    wallClockResumedAt := if status = .active then some now else state.wallClockResumedAt
    status }

/-- The goal with a total for its time. -/
def snapshot (state : GoalState) (wallClockMs : ℤ) : GoalRewindSnapshot where
  goalId := state.goalId
  objective := state.objective
  completionCriterion := state.completionCriterion
  status := state.status
  turnsUsed := state.turnsUsed
  tokensUsed := state.tokensUsed
  wallClockMs := wallClockMs
  budgetLimits := state.budgetLimits
  terminalReason := state.terminalReason

/-- The goal without the running interval. -/
def accumulated (state : GoalState) : GoalRewindSnapshot := state.snapshot state.wallClockMs

end GoalState

/-- `stateFromRewindSnapshot`: an active goal begins a new interval. -/
def stateFromRewindSnapshot (checkpoint : GoalRewindCheckpoint) (now : ℤ) : Option GoalState :=
  checkpoint.map fun snapshot =>
    { goalId := snapshot.goalId
      objective := snapshot.objective
      completionCriterion := snapshot.completionCriterion
      status := snapshot.status
      turnsUsed := snapshot.turnsUsed
      tokensUsed := snapshot.tokensUsed
      wallClockMs := snapshot.wallClockMs
      wallClockResumedAt := if snapshot.status = .active then some now else none
      budgetLimits := snapshot.budgetLimits
      terminalReason := snapshot.terminalReason }

/-! ### Checkpoints -/

namespace GoalMode

def rewindSnapshot (g : GoalMode) (now : ℤ) : GoalRewindCheckpoint :=
  g.state.map fun state => state.snapshot (state.liveWallClockMs now)

/-- The last checkpoint is taken back: `discardRewindCheckpoint`, behind its guards and its record,
and `restoreRewindCheckpointDiscard`. -/
def restoreRewindCheckpointDiscard (g : GoalMode) (now : ℤ) : GoalMode :=
  { state :=
      match g.rewindCheckpoints.getLast? with
      | some checkpoint => stateFromRewindSnapshot checkpoint now
      | none => g.state
    rewindCheckpoints := g.rewindCheckpoints.dropLast
    rewindCheckpointPrepared := false
    legacyRewindCheckpoint := none }

/-- A checkpoint is added; it is prepared, or belongs to a prompt. -/
def pushCheckpoint (g : GoalMode) (checkpoint : GoalRewindCheckpoint) (prepared : Bool) :
    GoalMode :=
  { g with
    rewindCheckpoints := g.rewindCheckpoints ++ [checkpoint]
    rewindCheckpointPrepared := prepared }

/-- **`rewind`**: the goal becomes what it was in front of the prompts that are undone. -/
def rewind (g : GoalMode) (count now : ℤ) : GoalMode :=
  if count ≤ 0 ∨ (g.rewindCheckpoints.length : ℤ) < count then g
  else
    match g.rewindCheckpoints[g.rewindCheckpoints.length - count.toNat]? with
    | none => g
    | some checkpoint =>
      { state := stateFromRewindSnapshot checkpoint now
        rewindCheckpoints :=
          g.rewindCheckpoints.take (g.rewindCheckpoints.length - count.toNat)
        rewindCheckpointPrepared := false
        legacyRewindCheckpoint := none }

end GoalMode

/-- The goal and the log of the agent. -/
structure GoalSession where
  mode : GoalMode := {}
  records : List GoalRecord := []

namespace GoalSession

def logRecord (s : GoalSession) (record : GoalRecord) : GoalSession :=
  { s with records := s.records ++ [record] }

/-- `persistState`, without the event. -/
def persistState (s : GoalSession) (state : Option GoalState) : GoalSession :=
  { s with mode := { s.mode with state } }

/-- `prepareRewindCheckpoint`, the RPC `captureRewindCheckpoint`. -/
def prepareRewindCheckpoint (s : GoalSession) (now : ℤ) : GoalSession :=
  if s.mode.rewindCheckpointPrepared then s
  else
    let snapshot := s.mode.rewindSnapshot now
    { s.logRecord (.rewindCheckpoint snapshot) with mode := s.mode.pushCheckpoint snapshot true }

/-- The checkpoint belongs to a prompt: nothing is prepared any more. -/
def beginPrompt (s : GoalSession) : GoalSession :=
  { s with mode :=
    { s.mode with legacyRewindCheckpoint := none, rewindCheckpointPrepared := false } }

/-- `beginRewindablePrompt` of a live agent, which uses no legacy checkpoint. -/
def beginRewindablePrompt (s : GoalSession) (now : ℤ) : GoalSession :=
  if s.mode.rewindCheckpointPrepared then s.beginPrompt
  else
    let snapshot := s.mode.rewindSnapshot now
    beginPrompt
      { s.logRecord (.rewindCheckpoint snapshot) with mode := s.mode.pushCheckpoint snapshot false }

def discardRewindCheckpoint (s : GoalSession) (now : ℤ) : GoalSession :=
  if s.mode.rewindCheckpointPrepared then
    if s.mode.rewindCheckpoints.isEmpty then
      { s with mode := { s.mode with rewindCheckpointPrepared := false } }
    else
      { s.logRecord .rewindCheckpointDiscard with
        mode := s.mode.restoreRewindCheckpointDiscard now }
  else s

/-! ### Changes of the goal -/

def clearInternal (s : GoalSession) : GoalSession :=
  match s.mode.state with
  | none => s
  | some _ => (s.persistState none).logRecord .clear

def appendStatusUpdate (s : GoalSession) (state : GoalState) (reason : Option String) (now : ℤ) :
    GoalSession :=
  s.logRecord (.update
    { status := some state.status, reason, wallClockMs := some (state.liveWallClockMs now) })

end GoalSession

structure CreateGoalInput where
  objective : String
  completionCriterion : Option String := none
  replace : Bool := false

def normalizeCompletionCriterion (value : Option String) : Option String :=
  value.bind fun text => if (trim text).toList.length > 0 then some (trim text) else none

def configuredGoalBudget (maxTurns : Option ℤ) : GoalBudgetLimits :=
  match maxTurns with
  | some turns => if turns > 0 then { turnBudget := some turns } else {}
  | none => {}

def newGoal (input : CreateGoalInput) (goalId : String) (maxTurns : Option ℤ) (now : ℤ) :
    GoalState where
  goalId := goalId
  objective := trim input.objective
  completionCriterion := normalizeCompletionCriterion input.completionCriterion
  status := .active
  turnsUsed := 0
  tokensUsed := 0
  wallClockMs := 0
  wallClockResumedAt := some now
  budgetLimits := configuredGoalBudget maxTurns

/-- The operations on the goal.  `pauseActiveGoal` and `pauseOnInterrupt` differ in the actor only,
which is not kept. -/
inductive GoalOp where
  | createGoal (input : CreateGoalInput) (goalId : String) (maxTurns : Option ℤ)
  | pauseGoal (reason : Option String)
  | pauseActiveGoal (reason : Option String)
  | resumeGoal (reason : Option String)
  | markBlocked (reason : Option String)
  | markComplete (reason : Option String)
  | setBudgetLimits (budgetLimits : GoalBudgetLimits)
  | cancelGoal
  | recordTokenUsage (tokenDelta : ℤ)
  | incrementTurn

namespace GoalSession

/-- The new goal is stored and recorded; its record has no budget, so a configured budget is an
update. -/
def storeGoal (s : GoalSession) (state : GoalState) : GoalSession :=
  let s := (s.persistState (some state)).logRecord
    (.create state.goalId state.objective state.completionCriterion)
  if state.budgetLimits.turnBudget.isSome then
    s.logRecord (.update { budgetLimits := some state.budgetLimits })
  else s

def createGoal (s : GoalSession) (input : CreateGoalInput) (goalId : String) (maxTurns : Option ℤ)
    (now : ℤ) : Except GoalError GoalSession :=
  if utf16Length (trim input.objective) = 0 then .error .objectiveEmpty
  else if utf16Length (trim input.objective) > MAX_GOAL_OBJECTIVE_LENGTH then
    .error .objectiveTooLong
  else if s.mode.state.isSome ∧ input.replace = false then .error .alreadyExists
  else .ok (s.clearInternal.storeGoal (newGoal input goalId maxTurns now))

/-- The goal changes its status; the clock is read for the change and once more for the record. -/
def changeStatus (s : GoalSession) (state : GoalState) (status : GoalStatus)
    (terminalReason reason : Option String) (now later : ℤ) : GoalSession :=
  let state := { state.applyStatus status now with terminalReason }
  (s.persistState (some state)).appendStatusUpdate state reason later

def pauseGoal (s : GoalSession) (reason : Option String) (now later : ℤ) :
    Except GoalError GoalSession :=
  match s.mode.state with
  | none => .error .notFound
  | some state =>
    match state.status with
    | .paused => .ok s
    | .active => .ok (s.changeStatus state .paused reason reason now later)
    | status => .error (.statusInvalid status)

def resumeGoal (s : GoalSession) (reason : Option String) (now later : ℤ) :
    Except GoalError GoalSession :=
  match s.mode.state with
  | none => .error .notFound
  | some state =>
    match state.status with
    | .active => .ok s
    -- a fresh attempt has no reason to have stopped
    | .paused | .blocked => .ok (s.changeStatus state .active none reason now later)
    | status => .error (.notResumable status)

/-- What only happens to an active goal. -/
def ifActive (s : GoalSession) (f : GoalState → GoalSession) : GoalSession :=
  match s.mode.state with
  | none => s
  | some state => if state.status = .active then f state else s

def markComplete (s : GoalSession) (reason : Option String) (now later : ℤ) : GoalSession :=
  s.ifActive fun state => (s.changeStatus state .complete reason reason now later).clearInternal

def setBudgetLimits (s : GoalSession) (budgetLimits : GoalBudgetLimits) :
    Except GoalError GoalSession :=
  match s.mode.state with
  | none => .error .notFound
  | some state =>
    let limits := state.budgetLimits.merge budgetLimits
    .ok ((s.persistState (some { state with budgetLimits := limits })).logRecord
      (.update { budgetLimits := some limits }))

def recordTokenUsage (s : GoalSession) (tokenDelta : ℤ) : GoalSession :=
  s.ifActive fun state =>
    let tokensUsed := state.tokensUsed + max 0 tokenDelta
    (s.persistState (some { state with tokensUsed })).logRecord
      (.update { tokensUsed := some tokensUsed })

def incrementTurn (s : GoalSession) : GoalSession :=
  s.ifActive fun state =>
    let turnsUsed := state.turnsUsed + 1
    (s.persistState (some { state with turnsUsed })).logRecord
      (.update { turnsUsed := some turnsUsed })

/-- **An operation on the goal**, with the readings of the clock. -/
def perform (s : GoalSession) (now later : ℤ) : GoalOp → Except GoalError GoalSession
  | .createGoal input goalId maxTurns => s.createGoal input goalId maxTurns now
  | .pauseGoal reason => s.pauseGoal reason now later
  | .pauseActiveGoal reason =>
    .ok (s.ifActive fun state => s.changeStatus state .paused reason reason now later)
  | .resumeGoal reason => s.resumeGoal reason now later
  | .markBlocked reason =>
    .ok (s.ifActive fun state => s.changeStatus state .blocked reason reason now later)
  | .markComplete reason => .ok (s.markComplete reason now later)
  | .setBudgetLimits budgetLimits => s.setBudgetLimits budgetLimits
  | .cancelGoal => if s.mode.state.isSome then .ok s.clearInternal else .error .notFound
  | .recordTokenUsage tokenDelta => .ok (s.recordTokenUsage tokenDelta)
  | .incrementTurn => .ok s.incrementTurn

end GoalSession

/-! ### Restoring -/

/-- `restoreUpdate`, on the goal. -/
def GoalState.restoreUpdate (state : GoalState) (u : GoalUpdate) : GoalState where
  goalId := state.goalId
  objective := state.objective
  completionCriterion := state.completionCriterion
  status := u.status.getD state.status
  turnsUsed := u.turnsUsed.getD state.turnsUsed
  tokensUsed := u.tokensUsed.getD state.tokensUsed
  wallClockMs := u.wallClockMs.getD state.wallClockMs
  wallClockResumedAt :=
    if u.status.isSome ∨ u.wallClockMs.isSome then none else state.wallClockResumedAt
  budgetLimits := u.budgetLimits.getD state.budgetLimits
  terminalReason :=
    match u.status with
    | none => state.terminalReason
    | some status => if status = .active then none else u.reason

namespace GoalMode

def restoreCreate (g : GoalMode) (goalId objective : String)
    (completionCriterion : Option String) : GoalMode :=
  let state : GoalState :=
    { goalId, objective, completionCriterion
      status := .active
      turnsUsed := 0
      tokensUsed := 0
      wallClockMs := 0
      budgetLimits := {} }
  { g with state := some state }

/-- A checkpoint that is still prepared belongs to a prompt that was never submitted. -/
def restoreRewindCheckpoint (g : GoalMode) (snapshot : GoalRewindCheckpoint) (now : ℤ) : GoalMode :=
  (if g.rewindCheckpointPrepared then g.restoreRewindCheckpointDiscard now else g).pushCheckpoint
    snapshot true

/-- `beginRewindablePrompt` while restoring. -/
def restorePrompt (g : GoalMode) (useLegacyCheckpoint : Bool) (now : ℤ) : GoalMode :=
  let checkpoint := if useLegacyCheckpoint then g.legacyRewindCheckpoint else none
  let g :=
    if g.rewindCheckpointPrepared then g
    else g.pushCheckpoint (checkpoint.getD (g.rewindSnapshot now)) false
  { g with legacyRewindCheckpoint := none, rewindCheckpointPrepared := false }

def prepareLegacyRewindCheckpoint (g : GoalMode) (now : ℤ) : GoalMode :=
  if g.rewindCheckpointPrepared ∨ g.legacyRewindCheckpoint.isSome then g
  else { g with legacyRewindCheckpoint := some (g.rewindSnapshot now) }

def discardLegacyRewindCheckpoint (g : GoalMode) : GoalMode :=
  { g with legacyRewindCheckpoint := none }

def finishReplay (g : GoalMode) (now : ℤ) : GoalMode :=
  let g := g.discardLegacyRewindCheckpoint
  if g.rewindCheckpointPrepared then g.restoreRewindCheckpointDiscard now else g

/-- `restoreAgentRecord`, as far as the goal is concerned. -/
def restoreRecord (g : GoalMode) (useLegacyCheckpoint : Bool) (now : ℤ) : GoalRecord → GoalMode
  | .create goalId objective completionCriterion =>
    g.restoreCreate goalId objective completionCriterion
  | .update u => { g with state := g.state.map (·.restoreUpdate u) }
  | .clear => { g with state := none }
  | .rewindCheckpoint snapshot => g.restoreRewindCheckpoint snapshot now
  | .rewindCheckpointDiscard => g.restoreRewindCheckpointDiscard now
  | .turnPrompt origin | .turnSteer origin =>
    if origin.kind = .user then g.restorePrompt useLegacyCheckpoint now else g
  | .undo count => g.rewind count now
  | .other => g

end GoalMode

namespace GoalRecord

/-- The types of `LEGACY_PROMPT_GOAL_RECORD_TYPES`. -/
def isLegacyGoalRecord : GoalRecord → Bool
  | .create _ _ _ | .update _ | .clear => true
  | _ => false

def isUserPrompt : GoalRecord → Bool
  | .turnPrompt origin | .turnSteer origin => origin.kind == .user
  | _ => false

end GoalRecord

/-- The goal while a log is replayed, and the record restored last. -/
structure GoalReplay where
  mode : GoalMode := {}
  previous : Option GoalRecord := none

/-- `AgentRecords.restore`: the changes of the goal right in front of a prompt belong to it, in the
log of a session that had no checkpoints. -/
def GoalReplay.restore (r : GoalReplay) (record : GoalRecord) (now : ℤ) : GoalReplay :=
  let previousWasLegacyGoalRecord := r.previous.any GoalRecord.isLegacyGoalRecord
  let mode :=
    if record.isLegacyGoalRecord then
      (if previousWasLegacyGoalRecord then r.mode
        else r.mode.discardLegacyRewindCheckpoint).prepareLegacyRewindCheckpoint now
    else if record.isUserPrompt = false ∨ previousWasLegacyGoalRecord = false then
      r.mode.discardLegacyRewindCheckpoint
    else r.mode
  { mode := mode.restoreRecord (record.isUserPrompt && previousWasLegacyGoalRecord) now record
    previous := some record }

/-- **The goal a log is replayed to**; the clock gives the reading for each record. -/
def replayGoal (clock : ℕ → ℤ) (records : List GoalRecord) : GoalReplay :=
  records.zipIdx.foldl (fun r (record, i) => r.restore record (clock i)) {}

end NoriCode
