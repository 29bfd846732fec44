/-
**The batch of tool calls of one step.**

The calls of a response are prepared one after the other: a hook may change, block or answer the
call, the tool says what it is going to do, a second hook may block it, the event `tool.call` is
dispatched, and a task goes to the scheduler.  A call that stops the batch makes the calls behind it
be skipped.  Then the results are taken in the order of the calls, whatever the order in which the
tasks end; each goes through a hook, and the event `tool.result` is dispatched.  The turn may be
aborted at any time.

The module embeds `runToolCallBatch` of `loop/tool-call.ts`, cut at the points where it waits, with
the scheduler of `loop/tool-scheduler.ts`.  What a hook, a tool or a dispatch does is the outcome of
what was waited for; a hook that is not there is one that returns nothing.  The parsing and the
validation of arguments and the repair of image parts are parameters.  The display of a call, the
metadata of a hook and the progress of a tool are left out.

Main definitions:

* `preflightToolCall`, `coerceToolResult`, `normalizeToolResult` — what
  is computed without waiting;
* `ToolCallBatch`, `BatchPhase` — the state;
* `ToolCallBatch.step` — one step.
-/

import NoriCode.ToolDedup
import NoriCode.ToolScheduler

namespace NoriCode

/-! ### Results -/

/-- What a tool or a hook returns as a result, before it is known to be one. -/
inductive RawToolResult where
  | missing
  | primitive (typeName : String)
  | malformed
  | result (result : LoopToolResult)
  deriving DecidableEq

def errorResult (output : String) : LoopToolResult where
  output := .text output
  isError := some true

def coerceToolResult (value : RawToolResult) (toolName : String) : LoopToolResult :=
  match value with
  | .missing => errorResult ("Tool \"" ++ toolName ++ "\" returned no result.")
  | .primitive typeName =>
    errorResult ("Tool \"" ++ toolName ++ "\" returned a " ++ typeName ++
      " instead of a tool result.")
  | .malformed =>
    errorResult ("Tool \"" ++ toolName ++
      "\" returned a result with a missing or malformed \"output\" field.")
  | .result result => result

def TOOL_OUTPUT_EMPTY : String := "Tool output is empty."

def TOOL_OUTPUT_NON_TEXT : String := "Tool returned non-text content."

def isMediaContentPart : ContentPart → Bool
  | .imageUrl _ _ | .audioUrl _ _ | .videoUrl _ _ => true
  | .text _ | .think _ _ => false

/-- The output that is recorded; `normalizeImageContentParts` repairs or omits images. -/
def normalizeToolOutput (normalizeImageContentParts : List ContentPart → List ContentPart) :
    ToolOutput → ToolOutput
  | .text output => .text (if output.toList.length > 0 then output else TOOL_OUTPUT_EMPTY)
  | .parts output =>
    if output.length = 0 then .text TOOL_OUTPUT_EMPTY
    else
      let normalizedParts := normalizeImageContentParts output
      if normalizedParts.any isMediaContentPart then
        if (normalizedParts.filterMap ContentPart.text?).any (·.toList.length > 0) then
          .parts normalizedParts
        else .parts (.text TOOL_OUTPUT_NON_TEXT :: normalizedParts)
      else
        let textJoined := String.join (normalizedParts.filterMap ContentPart.text?)
        .text (if textJoined.toList.length > 0 then textJoined else TOOL_OUTPUT_EMPTY)

/-- The result that is recorded: neither the message nor the hint to stop is. -/
def normalizeToolResult (normalizeImageContentParts : List ContentPart → List ContentPart)
    (r : LoopToolResult) : LoopToolResult where
  output := normalizeToolOutput normalizeImageContentParts r.output
  isError := if r.isError = some true then some true else none
  truncated := if r.truncated = some true then some true else none

def toolResultStopsTurn (result : LoopToolResult) : Bool := result.stopTurn == some true

/-! ### Calls -/

/-- What is asked about an error that was thrown. -/
structure ThrownError where
  message : String
  isAbort : Bool := false
  isPathSecurity : Bool := false

/-- A tool, with the outcome of the validation of its arguments. -/
structure LoopTool (Args : Type) where
  name : String
  validationError : Args → Option String

inductive PreflightKind (Args : Type) where
  | runnable (tool : LoopTool Args)
  | rejected (output : String)

structure PreflightedToolCall (Args : Type) where
  toolCall : ToolCall
  args : Args
  kind : PreflightKind Args

/-- What does not change during a batch. -/
structure BatchEnv (Args : Type) where
  tools : List (LoopTool Args)
  parseToolCallArguments : Option String → Args
  normalizeImageContentParts : List ContentPart → List ContentPart
  toLowerCase : String → String

def preflightToolCall {Args : Type} (env : BatchEnv Args) (toolCall : ToolCall) :
    PreflightedToolCall Args :=
  let args := env.parseToolCallArguments toolCall.arguments
  match env.tools.find? (·.name = toolCall.name) with
  | none => ⟨toolCall, args, .rejected ("Tool \"" ++ toolCall.name ++ "\" not found")⟩
  | some tool =>
    match tool.validationError args with
    | some validationError =>
      ⟨toolCall, args, .rejected ("Invalid args for tool \"" ++ toolCall.name ++ "\": " ++
        validationError)⟩
    | none => ⟨toolCall, args, .runnable tool⟩

structure PendingToolResult (Args : Type) where
  toolCall : ToolCall
  toolName : String
  args : Args
  result : LoopToolResult
  stopTurn : Bool

def makeToolResult {Args : Type} (call : PreflightedToolCall Args) (args : Args)
    (result : LoopToolResult) : PendingToolResult Args where
  toolCall := call.toolCall
  toolName := call.toolCall.name
  args := args
  result := result
  stopTurn := toolResultStopsTurn result

def makeErrorToolResult {Args : Type} (call : PreflightedToolCall Args) (args : Args)
    (output : String) : PendingToolResult Args :=
  makeToolResult call args (errorResult output)

/-- The output of an aborted call, which says so when the user has stopped the turn. -/
def abortedToolOutput (toolName : String) (isUserCancellation : Bool) : String :=
  if isUserCancellation then
    "The user manually interrupted \"" ++ toolName ++ "\" (and anything else running at the same" ++
      " time). This was a deliberate user action, not a system error, timeout, or capacity limit." ++
      " Do not retry automatically or guess at the cause — wait for the user's next instruction."
  else "Tool \"" ++ toolName ++ "\" was aborted"

/-! ### Outcomes -/

inductive Outcome (α : Type) where
  | returned (value : α)
  | threw (error : ThrownError)

structure PrepareToolExecutionResult (Args : Type) where
  updatedArgs : Option Args := none
  block : Bool := false
  reason : Option String := none
  syntheticResult : Option RawToolResult := none

structure AuthorizeToolExecutionResult where
  block : Bool := false
  reason : Option String := none
  syntheticResult : Option RawToolResult := none

structure RunnableToolExecution where
  accesses : Option ToolAccesses := none
  description : Option String := none
  stopBatchAfterThis : Bool := false

inductive ToolExecution where
  | runnable (execution : RunnableToolExecution)
  | error (result : LoopToolResult)

/-- The decision of the first hook. -/
inductive PrepareDecision (Args : Type) where
  | allowed (args : Args)
  | synthetic (args : Args) (result : RawToolResult)
  | refused (args : Args) (output : String)

/-- `runPrepareToolExecutionHook`, after the hook. -/
def prepareDecision {Args : Type} (toolName : String) (args : Args) (aborted : Bool) :
    Outcome (Option (PrepareToolExecutionResult Args)) → PrepareDecision Args
  | .threw error =>
    if error.isAbort ∨ aborted = true then
      .refused args ("Tool \"" ++ toolName ++ "\" was aborted during prepareToolExecution hook")
    else
      .refused args ("prepareToolExecution hook failed for \"" ++ toolName ++ "\": " ++
        error.message)
  | .returned none => .allowed args
  | .returned (some r) =>
    let effectiveArgs := r.updatedArgs.getD args
    if r.block then
      .refused effectiveArgs (r.reason.getD ("Tool call \"" ++ toolName ++ "\" was blocked"))
    else
      match r.syntheticResult with
      | some result => .synthetic effectiveArgs result
      | none => .allowed effectiveArgs

/-- `runAuthorizeToolExecutionHook`, after the hook: an error blocks the call. -/
def authorization (toolName : String) (aborted : Bool) :
    Outcome (Option AuthorizeToolExecutionResult) → Option AuthorizeToolExecutionResult
  | .threw error =>
    some { block := true
           reason := some (if error.isAbort ∨ aborted = true then
             "Tool \"" ++ toolName ++ "\" was aborted during authorizeToolExecution hook"
           else "authorizeToolExecution hook failed for \"" ++ toolName ++ "\": " ++
             error.message) }
  | .returned r => r

/-- How the promise of an executed tool ends; the timeout runs only after an abort. -/
inductive Execution where
  | returned (value : RawToolResult)
  | threw (error : ThrownError)
  | graceTimeout

/-! ### State -/

/-- The work of a task: to return a result, or to run a tool. -/
inductive BatchTask (Args : Type) where
  | resolved (result : PendingToolResult Args)
  | runnable (call : PreflightedToolCall Args) (args : Args)

/-- What the preparation of a call comes to. -/
structure PreparedToolCall (Args : Type) where
  args : Args
  description : Option String := none
  accesses : ToolAccesses
  task : BatchTask Args
  stopBatchAfterThis : Bool := false

inductive BatchEvent (Args : Type) where
  | toolCall (toolCallId name : String) (args : Args) (description : Option String)
  | toolResult (toolCallId : String) (result : LoopToolResult)

/-- What the batch waits for, for the call with this number. -/
inductive BatchPhase (Args : Type) where
  | preparing (index : ℕ)
  | resolving (index : ℕ) (args : Args)
  | authorizing (index : ℕ) (args : Args) (execution : RunnableToolExecution)
  | dispatchingCall (index : ℕ) (prepared : PreparedToolCall Args)
  | dispatchingSkipped (index : ℕ)
  | awaiting (index : ℕ)
  | finalizing (index : ℕ) (pending : PendingToolResult Args)
  | dispatchingResult (index : ℕ) (result : PendingToolResult Args)
  /-- All tasks are to end; a dispatch may have thrown. -/
  | settling (failed : Bool)
  | returned (stopTurn : Bool)
  | threw

structure ToolCallBatch (Args : Type) where
  calls : List (PreflightedToolCall Args)
  phase : BatchPhase Args
  /-- The abort signal; the value says whether the user has stopped the turn. -/
  aborted : Option Bool := none
  scheduler : ToolScheduler ToolAccesses := {}
  tasks : List (BatchTask Args) := []
  /-- The promises that have been settled, by the number of the call. -/
  results : List (ℕ × PendingToolResult Args) := []
  /-- The calls whose tools have been executed. -/
  executed : List ℕ := []
  /-- The call that has stopped the batch. -/
  stoppedAt : Option ℕ := none
  stopTurn : Bool := false
  events : List (BatchEvent Args) := []

inductive BatchStep (Args : Type) where
  | abort (isUserCancellation : Bool)
  | prepareHook (outcome : Outcome (Option (PrepareToolExecutionResult Args)))
  | resolveExecution (outcome : Outcome ToolExecution)
  | authorizeHook (outcome : Outcome (Option AuthorizeToolExecutionResult))
  | dispatched (throws : Bool)
  /-- The promise of a task settles. -/
  | settles (task : ℕ) (execution : Execution)
  /-- The scheduler sees a task that has settled. -/
  | finishes (task : ℕ)
  | resumes
  | finalizeHook (outcome : Outcome (Option RawToolResult))
  | allSettled

namespace ToolCallBatch

variable {Args : Type} (env : BatchEnv Args)

/-! ### Tasks -/

def isRunnable (s : ToolCallBatch Args) (id : ℕ) : Bool :=
  match s.tasks[id]? with
  | some (.runnable _ _) => true
  | _ => false

def result (s : ToolCallBatch Args) (id : ℕ) : Option (PendingToolResult Args) :=
  (s.results.find? (·.1 == id)).map (·.2)

/-- The scheduler has started tasks; a tool is executed at once, unless the turn is aborted. -/
def startTasks (s : ToolCallBatch Args) (scheduler : ToolScheduler ToolAccesses) :
    ToolCallBatch Args :=
  let started := (scheduler.started.drop s.scheduler.started.length).map (·.id)
  { s with
    scheduler
    executed :=
      if s.aborted.isSome then s.executed else s.executed ++ started.filter s.isRunnable }

/-- `scheduler.add`; the start function of a task is asynchronous, so it does not throw. -/
def addTask (s : ToolCallBatch Args) (accesses : ToolAccesses) (task : BatchTask Args) :
    ToolCallBatch Args :=
  startTasks { s with tasks := s.tasks ++ [task] } (ScheduleResult.state
    (ToolScheduler.add (ToolAccesses.conflict env.toLowerCase) 1 s.scheduler accesses false))

/-- `runRunnableToolCall`, when it ends. -/
def executionResult (s : ToolCallBatch Args) (id : ℕ) (call : PreflightedToolCall Args)
    (args : Args) (outcome : Execution) : Option (PendingToolResult Args) :=
  let toolName := call.toolCall.name
  -- a task that was started after the abort has not executed its tool
  if id ∉ s.executed then
    some (makeErrorToolResult call args (abortedToolOutput toolName (s.aborted.getD false)))
  else
    match outcome with
    | .returned value => some (makeToolResult call args (coerceToolResult value toolName))
    | .graceTimeout =>
      if s.aborted.isSome then
        some (makeErrorToolResult call args
          ("Tool \"" ++ toolName ++ "\" aborted by grace timeout (2000ms)"))
      else none
    | .threw error =>
      some (makeErrorToolResult call args
        (if error.isAbort ∨ s.aborted.isSome = true then
          abortedToolOutput toolName (s.aborted.getD false)
        else "Tool \"" ++ toolName ++ "\" failed: " ++ error.message))

/-- The promise of a started task settles. -/
def settleTask (s : ToolCallBatch Args) (id : ℕ) (outcome : Execution) :
    Option (ToolCallBatch Args) :=
  if (s.scheduler.running id).isNone ∨ (s.result id).isSome = true then none
  else
    match s.tasks[id]? with
    | none => none
    | some (.resolved pending) => some { s with results := s.results ++ [(id, pending)] }
    | some (.runnable call args) =>
      (s.executionResult id call args outcome).map fun pending =>
        { s with results := s.results ++ [(id, pending)] }

def finishTask (s : ToolCallBatch Args) (id : ℕ) : Option (ToolCallBatch Args) :=
  if (s.result id).isNone then none
  else
    (s.scheduler.running id).map fun task =>
      s.startTasks (ScheduleResult.state
        (ToolScheduler.finish (ToolAccesses.conflict env.toLowerCase) 1 s.scheduler task))

/-! ### Preparing -/

def settleError (call : PreflightedToolCall Args) (args : Args) (output : String)
    (description : Option String) : PreparedToolCall Args where
  args := args
  description := description
  accesses := ToolAccesses.none
  task := .resolved (makeErrorToolResult call args output)

def settleSynthetic (call : PreflightedToolCall Args) (args : Args) (result : RawToolResult)
    (description : Option String) : PreparedToolCall Args :=
  let coerced := coerceToolResult result call.toolCall.name
  { args
    description
    accesses := ToolAccesses.none
    task := .resolved (makeToolResult call args coerced)
    stopBatchAfterThis := toolResultStopsTurn coerced }

def prepareSkippedToolCall (call : PreflightedToolCall Args) : PreparedToolCall Args :=
  settleError call call.args "Tool skipped because a previous tool call stopped the turn." none

/-- The loop comes to a call, or is done with all of them. -/
def goOn (s : ToolCallBatch Args) (index : ℕ) : ToolCallBatch Args :=
  { s with
    phase :=
      match s.calls[index]? with
      | none => .awaiting 0
      | some call =>
        if s.stoppedAt.isSome then .dispatchingSkipped index
        else
          match call.kind with
          | .rejected output =>
            .dispatchingCall index (settleError call call.args output none)
          | .runnable _ => .preparing index }

def start (toolCalls : List ToolCall) : ToolCallBatch Args :=
  let s : ToolCallBatch Args :=
    { calls := toolCalls.map (preflightToolCall env), phase := .returned false }
  if toolCalls.length = 0 then s else s.goOn 0

/-- What follows the first hook. -/
def afterPrepareHook (call : PreflightedToolCall Args) (tool : LoopTool Args) (index : ℕ) :
    PrepareDecision Args → BatchPhase Args
  | .refused args output => .dispatchingCall index (settleError call args output none)
  | .synthetic args result => .dispatchingCall index (settleSynthetic call args result none)
  | .allowed args =>
    match tool.validationError args with
    | some validationError =>
      .dispatchingCall index (settleError call args
        ("Invalid args for tool \"" ++ call.toolCall.name ++
          "\" after prepareToolExecution hook: " ++ validationError) none)
    | none => .resolving index args

/-- The description that is shown: an empty one is not. -/
def displayedDescription (execution : RunnableToolExecution) : Option String :=
  execution.description.filter (·.toList.length > 0)

/-- What follows `resolveExecution`. -/
def afterResolve (aborted : Option Bool) (call : PreflightedToolCall Args) (index : ℕ)
    (args : Args) : Outcome ToolExecution → BatchPhase Args
  | .threw error =>
    .dispatchingCall index (settleError call args
      (if error.isPathSecurity then error.message
      else "Tool \"" ++ call.toolCall.name ++ "\" failed to resolve execution: " ++ error.message)
      none)
  | .returned (.error result) =>
    match aborted with
    | some isUserCancellation =>
      .dispatchingCall index (settleError call args
        (abortedToolOutput call.toolCall.name isUserCancellation) none)
    | none => .dispatchingCall index (settleSynthetic call args (.result result) none)
  | .returned (.runnable execution) =>
    match aborted with
    | some isUserCancellation =>
      .dispatchingCall index (settleError call args
        (abortedToolOutput call.toolCall.name isUserCancellation)
        (displayedDescription execution))
    | none => .authorizing index args execution

/-- What follows the second hook. -/
def afterAuthorizeHook (aborted : Option Bool) (call : PreflightedToolCall Args) (index : ℕ)
    (args : Args) (execution : RunnableToolExecution)
    (outcome : Outcome (Option AuthorizeToolExecutionResult)) : BatchPhase Args :=
  let description := displayedDescription execution
  match aborted with
  | some isUserCancellation =>
    .dispatchingCall index (settleError call args
      (abortedToolOutput call.toolCall.name isUserCancellation) description)
  | none =>
    let decision := (authorization call.toolCall.name false outcome).getD {}
    if decision.block then
      .dispatchingCall index (settleError call args
        (decision.reason.getD ("Tool call \"" ++ call.toolCall.name ++ "\" was blocked"))
        description)
    else
      match decision.syntheticResult with
      | some result => .dispatchingCall index (settleSynthetic call args result description)
      | none =>
        .dispatchingCall index
          { args
            description
            accesses := execution.accesses.getD ToolAccesses.all
            task := .runnable call args
            stopBatchAfterThis := execution.stopBatchAfterThis }

/-- The event `tool.call` has been dispatched, and the task goes to the scheduler. -/
def recordCall (s : ToolCallBatch Args) (index : ℕ) (call : PreflightedToolCall Args)
    (prepared : PreparedToolCall Args) : ToolCallBatch Args :=
  addTask env { s with
    events := s.events ++
      [.toolCall call.toolCall.id call.toolCall.name prepared.args prepared.description]
    stopTurn := s.stopTurn || prepared.stopBatchAfterThis
    stoppedAt := if prepared.stopBatchAfterThis then some index else s.stoppedAt }
    prepared.accesses prepared.task

/-! ### Results -/

/-- `finalizePendingToolResult`, after the hook; a result that is not there leaves the old one. -/
def finalized (aborted : Bool) (pending : PendingToolResult Args) :
    Outcome (Option RawToolResult) → PendingToolResult Args
  | .returned value =>
    let effectiveResult := coerceToolResult
      ((value.filter (· ≠ .missing)).getD (.result pending.result)) pending.toolName
    { pending with
      stopTurn := pending.stopTurn || toolResultStopsTurn effectiveResult
      result := normalizeToolResult env.normalizeImageContentParts effectiveResult }
  | .threw error =>
    { pending with
      result := errorResult (if error.isAbort ∨ aborted = true then
        "Tool \"" ++ pending.toolName ++ "\" aborted during finalizeToolResult hook."
      else "finalizeToolResult hook failed for \"" ++ pending.toolName ++ "\": " ++ error.message) }

/-- The event `tool.result` has been dispatched. -/
def recordResult (s : ToolCallBatch Args) (index : ℕ) (result : PendingToolResult Args) :
    ToolCallBatch Args :=
  { s with
    events := s.events ++ [.toolResult result.toolCall.id result.result]
    phase := if index + 1 < s.calls.length then .awaiting (index + 1) else .settling false }

/-! ### Steps -/

def step (s : ToolCallBatch Args) : BatchStep Args → Option (ToolCallBatch Args)
  | .abort isUserCancellation =>
    if s.aborted.isSome then none else some { s with aborted := some isUserCancellation }
  | .settles task outcome => s.settleTask task outcome
  | .finishes task => s.finishTask env task
  | .prepareHook outcome =>
    match s.phase with
    | .preparing index =>
      match s.calls[index]? with
      | some ⟨toolCall, args, .runnable tool⟩ =>
        some { s with
          phase := afterPrepareHook ⟨toolCall, args, .runnable tool⟩ tool index
            (prepareDecision toolCall.name args s.aborted.isSome outcome) }
      | _ => none
    | _ => none
  | .resolveExecution outcome =>
    match s.phase with
    | .resolving index args => (s.calls[index]?).map fun call =>
      { s with phase := afterResolve s.aborted call index args outcome }
    | _ => none
  | .authorizeHook outcome =>
    match s.phase with
    | .authorizing index args execution => (s.calls[index]?).map fun call =>
      { s with phase := afterAuthorizeHook s.aborted call index args execution outcome }
    | _ => none
  | .dispatched throws =>
    match s.phase with
    | .dispatchingCall index prepared => (s.calls[index]?).map fun call =>
      if throws then { s with phase := .settling true }
      else (s.recordCall env index call prepared).goOn (index + 1)
    | .dispatchingSkipped index => (s.calls[index]?).map fun call =>
      if throws then { s with phase := .settling true }
      else (s.recordCall env index call (prepareSkippedToolCall call)).goOn (index + 1)
    | .dispatchingResult index result =>
      if throws then some { s with phase := .settling true }
      else some (s.recordResult index result)
    | _ => none
  | .resumes =>
    match s.phase with
    | .awaiting index => (s.result index).map fun pending =>
      { s with phase := .finalizing index pending }
    | _ => none
  | .finalizeHook outcome =>
    match s.phase with
    | .finalizing index pending =>
      let result := finalized env s.aborted.isSome pending outcome
      some { s with
        phase := .dispatchingResult index result
        stopTurn := s.stopTurn || result.stopTurn }
    | _ => none
  | .allSettled =>
    match s.phase with
    | .settling failed =>
      if (List.range s.tasks.length).all fun id => (s.result id).isSome then
        some { s with phase := if failed then .threw else .returned s.stopTurn }
      else none
    | _ => none

end ToolCallBatch

end NoriCode
