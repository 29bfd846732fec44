/-
**Repeated tool calls of one step.**

A call that was already made in the same step is not executed: it gets a placeholder, which is
replaced at its finalization by the result of the first such call.  The results are finalized in the
order of the calls, and a call that is finalized waits until the first one has been.  A call that is
repeated from step to step is counted, and the result of one that has been repeated often enough
carries a reminder, and at last stops the turn.

The calls are told apart by their ids, which the model gives.  When an id is repeated, the entries
of the earlier call are overwritten, and a call may wait for a result that is never resolved.

The module embeds `agent/turn/tool-dedup.ts`, with the order in which `loop/tool-call.ts` calls its
hooks: every call of the step is prepared before the first one is finalized.  The canonical text of
the arguments is a parameter.

Main definitions:

* `LoopToolResult` — the result of a tool;
* `ToolCallDeduplicator` — the state, with `beginStep`, `checkSameStep`, `finalizeResult`
  and `endStep`;
* `ToolCallDeduplicator.finalizeBatch` — the results of a step;
* `Deduplicates` — what the results should be;
* `FreshIds` — the condition.
-/

import NoriCode.ContextMemory

namespace NoriCode

open Function

/-! ### Results -/

/-- The result of a tool, as it goes through the loop. -/
structure LoopToolResult extends ExecutableToolResult where
  stopTurn : Option Bool := none
  message : Option String := none
  truncated : Option Bool := none
  deriving DecidableEq

def REMINDER_TEXT_1 : String :=
  "\n\n<system-reminder>\n" ++
    "You are repeating the exact same tool call with identical parameters." ++
    " Please carefully analyze the previous result. If the task is not yet complete," ++
    " try a different method or parameters instead of repeating the same call." ++
    "\n</system-reminder>"

/-- The second reminder, where `argsStr` is the canonical text of the arguments. -/
def makeReminderText2 (toolName : String) (repeatCount : ℕ) (argsStr : String) : String :=
  "\n\n<system-reminder>\n" ++
    "You have repeatedly called the same tool with identical parameters many times.\n" ++
    "Repeated tool call detected:\n" ++
    "- tool: " ++ toolName ++ "\n" ++
    "- repeated_times: " ++ toString repeatCount ++ "\n" ++
    "- arguments: " ++ argsStr ++ "\n" ++
    "The previous repeated calls did not make progress. Do not call this exact same tool with " ++
    "the exact same arguments again.\n" ++
    "Carefully inspect the latest tool result and choose a different next action, different " ++
    "parameters, or finish the task if enough evidence has been gathered." ++
    "\n</system-reminder>"

def REMINDER_TEXT_3 : String :=
  "\n\n<system-reminder>\n" ++
    "You are stuck in a dead end and have repeatedly made the same function call without " ++
    "progress.\n" ++
    "Stop all function calls immediately. Do not call any tool in your next response.\n" ++
    "In analysis, review the current execution state and identify why progress is blocked.\n" ++
    "Then return a text-only summary to the user that reports the current problem, what has " ++
    "already been tried, and what information or decision is needed next." ++
    "\n</system-reminder>"

def REPEAT_REMINDER_1_START : ℕ := 3
def REPEAT_REMINDER_2_START : ℕ := 5
def REPEAT_REMINDER_3_START : ℕ := 8
def REPEAT_FORCE_STOP_STREAK : ℕ := 12

def appendReminder (result : LoopToolResult) (reminderText : String) : LoopToolResult :=
  { result with
    output :=
      match result.output with
      | .text output => .text (output ++ reminderText)
      | .parts output =>
        match output.getLast? with
        | some (.text text) => .parts (output.dropLast ++ [.text (text ++ reminderText)])
        | _ => .parts (output ++ [.text reminderText]) }

def forceStopResult (result : LoopToolResult) (reminderText : String) : LoopToolResult :=
  { appendReminder result reminderText with stopTurn := some true }

def DEDUP_PLACEHOLDER_RESULT : LoopToolResult := { output := .text "" }

/-- The result of a call that ends a streak of this length. -/
def remind (toolName argsStr : String) (streak : ℕ) (result : LoopToolResult) : LoopToolResult :=
  if REPEAT_FORCE_STOP_STREAK ≤ streak then forceStopResult result REMINDER_TEXT_3
  else if REPEAT_REMINDER_3_START ≤ streak then appendReminder result REMINDER_TEXT_3
  else if REPEAT_REMINDER_2_START ≤ streak then
    appendReminder result (makeReminderText2 toolName streak argsStr)
  else if REPEAT_REMINDER_1_START ≤ streak then appendReminder result REMINDER_TEXT_1
  else result

/-! ### The deduplicator -/

structure ToolCallDeduplicator where
  /-- The deferred results by key, `none` until they are resolved. -/
  stepDeferreds : String → Option (Option LoopToolResult) := fun _ => none
  stepCalls : List String := []
  originalCallIndex : String → Option ℕ := fun _ => none
  syntheticCallIds : String → Bool := fun _ => false
  callKeyByCallId : String → Option String := fun _ => none
  consecutiveKey : Option String := none
  consecutiveCount : ℕ := 0

/-- A call of a step, with the arguments that it is prepared with and those that it is finalized
with. -/
structure StepCall (Args : Type) where
  id : String
  name : String
  args : Args
  finalArgs : Args
  /-- Whether the call comes to the preparation hook: it was not rejected before, nor skipped. -/
  prepared : Bool := true

/-- How a finalization ends: with a result, and the streak that was counted for it, or never. -/
inductive Finalized where
  | returned (result : LoopToolResult) (streak : Option ℕ)
  | waits

namespace ToolCallDeduplicator

variable {Args : Type} (canonicalTelemetryArgs : Args → String)

def makeKey (toolName : String) (args : Args) : String :=
  toolName ++ " " ++ canonicalTelemetryArgs args

def beginStep (d : ToolCallDeduplicator) : ToolCallDeduplicator where
  consecutiveKey := d.consecutiveKey
  consecutiveCount := d.consecutiveCount

/-- The loop of `endStep`. -/
def countCall (d : ToolCallDeduplicator) (key : String) : ToolCallDeduplicator :=
  if some key = d.consecutiveKey then { d with consecutiveCount := d.consecutiveCount + 1 }
  else { d with consecutiveKey := some key, consecutiveCount := 1 }

def endStep (d : ToolCallDeduplicator) : ToolCallDeduplicator :=
  d.stepCalls.foldl countCall d

def checkSameStep (d : ToolCallDeduplicator) (toolCallId toolName : String) (args : Args) :
    ToolCallDeduplicator × Option LoopToolResult :=
  let key := makeKey canonicalTelemetryArgs toolName args
  let index := d.stepCalls.length
  let d := { d with
    stepCalls := d.stepCalls ++ [key]
    callKeyByCallId := update d.callKeyByCallId toolCallId (some key) }
  match d.stepDeferreds key with
  | some _ =>
    ({ d with syntheticCallIds := update d.syntheticCallIds toolCallId true },
      some DEDUP_PLACEHOLDER_RESULT)
  | none =>
    ({ d with
      stepDeferreds := update d.stepDeferreds key (some none)
      originalCallIndex := update d.originalCallIndex toolCallId (some index) }, none)

/-- The loop of `finalizeResult` over the calls up to an index: the last key and its streak. -/
def projectStreak (d : ToolCallDeduplicator) (index : ℕ) : Option String × ℕ :=
  (List.range (index + 1)).foldl (fun last i =>
    let k := d.stepCalls.getD i ""
    if some k = last.1 then (last.1, last.2 + 1) else (some k, 1))
    (d.consecutiveKey, d.consecutiveCount)

/-- The deferred result is resolved, unless it already is. -/
def resolve (d : ToolCallDeduplicator) (key : String) (result : LoopToolResult) :
    ToolCallDeduplicator :=
  match d.stepDeferreds key with
  | some none =>
    { d with stepDeferreds := update d.stepDeferreds key (some (some result)) }
  | _ => d

/-- **`finalizeResult`.** -/
def finalizeResult (d : ToolCallDeduplicator) (toolCallId toolName : String) (args : Args)
    (result : LoopToolResult) : ToolCallDeduplicator × Finalized :=
  match d.callKeyByCallId toolCallId with
  | none => (d, .returned result none)
  | some key =>
    let d := { d with callKeyByCallId := update d.callKeyByCallId toolCallId none }
    if d.syntheticCallIds toolCallId then
      let d := { d with
        syntheticCallIds := update d.syntheticCallIds toolCallId false }
      match d.stepDeferreds key with
      | none => (d, .returned result none)
      | some none => (d, .waits)
      | some (some original) => (d, .returned original none)
    else
      match d.originalCallIndex toolCallId with
      | none => (d, .returned result none)
      | some index =>
        let d := { d with
          originalCallIndex := update d.originalCallIndex toolCallId none }
        let streak := (d.projectStreak index).2
        let finalResult := remind toolName (canonicalTelemetryArgs args) streak result
        (d.resolve key finalResult, .returned finalResult (some streak))

/-! ### A step -/

/-- `prepareToolExecution`: the placeholder of a call that was already made. -/
def prepare (d : ToolCallDeduplicator) (c : StepCall Args) :
    ToolCallDeduplicator × Option LoopToolResult :=
  if c.prepared then d.checkSameStep canonicalTelemetryArgs c.id c.name c.args else (d, none)

/-- The calls are prepared one after the other. -/
def prepareAll (d : ToolCallDeduplicator) (calls : List (StepCall Args)) : ToolCallDeduplicator :=
  calls.foldl (fun d c => (d.prepare canonicalTelemetryArgs c).1) d

/-- What the calls come to their finalization with: the placeholder, or the result of the tool. -/
def pendingResults (toolResult : ℕ → LoopToolResult) :
    ToolCallDeduplicator → ℕ → List (StepCall Args) → List (StepCall Args × LoopToolResult)
  | _, _, [] => []
  | d, n, c :: rest =>
    let p := d.prepare canonicalTelemetryArgs c
    (c, p.2.getD (toolResult n)) :: pendingResults toolResult p.1 (n + 1) rest

/-- The results are finalized one after the other, until a finalization waits. -/
def finalizeAll :
    ToolCallDeduplicator → List (StepCall Args × LoopToolResult) → List (LoopToolResult × Option ℕ)
  | _, [] => []
  | d, (c, pending) :: rest =>
    match d.finalizeResult canonicalTelemetryArgs c.id c.name c.finalArgs pending with
    | (d, .returned result streak) => (result, streak) :: finalizeAll d rest
    | (_, .waits) => []

/-- **The finalized results of a step**, with their streaks.  There are fewer than calls when a
finalization waits for ever. -/
def finalizeBatch (d : ToolCallDeduplicator) (calls : List (StepCall Args))
    (toolResult : ℕ → LoopToolResult) : List (LoopToolResult × Option ℕ) :=
  finalizeAll canonicalTelemetryArgs (d.prepareAll canonicalTelemetryArgs calls)
    (pendingResults canonicalTelemetryArgs toolResult d 0 calls)

end ToolCallDeduplicator

/-! ### What the results should be -/

section

variable {Args : Type} (canonicalTelemetryArgs : Args → String)

def StepCall.key (c : StepCall Args) : String :=
  ToolCallDeduplicator.makeKey canonicalTelemetryArgs c.name c.args

/-- The call is the first one of its kind to be prepared. -/
def StepCall.Original (before : List (StepCall Args)) (c : StepCall Args) : Prop :=
  ∀ b ∈ before, b.prepared = true → b.key canonicalTelemetryArgs ≠ c.key canonicalTelemetryArgs

/-- What the loop of `endStep` has counted when it has gone through this many calls. -/
def ToolCallDeduplicator.streakAfter (d : ToolCallDeduplicator) (n : ℕ) : ℕ :=
  ((d.stepCalls.take n).foldl ToolCallDeduplicator.countCall d).consecutiveCount

/-- **What the results should be.** -/
structure Deduplicates (d : ToolCallDeduplicator) (calls : List (StepCall Args))
    (toolResult : ℕ → LoopToolResult) : Prop where
  /-- The finalization comes to its end. -/
  settles : (d.finalizeBatch canonicalTelemetryArgs calls toolResult).length = calls.length
  /-- A repeated call receives the result of the first one. -/
  shares : ∀ before c middle dup after, calls = before ++ c :: (middle ++ dup :: after) →
    c.prepared = true → c.Original canonicalTelemetryArgs before → dup.prepared = true →
    dup.key canonicalTelemetryArgs = c.key canonicalTelemetryArgs →
    ((d.finalizeBatch canonicalTelemetryArgs calls toolResult)[before.length]?).map (·.1) =
      ((d.finalizeBatch canonicalTelemetryArgs calls toolResult)[
        before.length + 1 + middle.length]?).map (·.1)
  /-- The streak of a first call is the one that `endStep` counts at this call. -/
  streaks : ∀ before c after, calls = before ++ c :: after → c.prepared = true →
    c.Original canonicalTelemetryArgs before →
    ((d.finalizeBatch canonicalTelemetryArgs calls toolResult)[before.length]?).bind (·.2) =
      some ((d.prepareAll canonicalTelemetryArgs calls).streakAfter
        ((before.filter (·.prepared)).length + 1))

/-- No prepared call has the id of a call in front of it. -/
def FreshIds (calls : List (StepCall Args)) : Prop :=
  calls.Pairwise fun a b => b.prepared = true → a.id ≠ b.id

end

end NoriCode
