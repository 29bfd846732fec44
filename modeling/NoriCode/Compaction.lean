/-
**Compaction workers and the slot they share.**

A compaction is a worker that asks a model for a summary of the history and then replaces the
history.  While it runs it holds the slot `compacting`, which a cancel empties at once: the worker
of a cancelled compaction is still in flight, may meet a later compaction in the slot, and acts on
the slot without asking whose it is.

The module embeds `agent/compaction/full.ts`, cut at the points where a worker waits: for the hook
in front of the request, for the request, for the delay in front of a retry, and for the reminders
that are put back.  A worker is known by its number.  Messages are objects that the worker compares
by identity (`HistoryMessage.ref`).  A retry after an overflow keeps the messages within a budget
that is a product of floating point numbers; the budget is a parameter here.

Main definitions:

* `CompactionState`, `CompactionStep` — the state, and what can happen;
* `CompactionState.step` — one step;
* `CompactionEvent` — what is recorded, with the worker that recorded it.
-/

import NoriCode.Handoff
import NoriCode.LibRun

namespace NoriCode

/-! ### State -/

/-- A message of the history, with its identity. -/
structure HistoryMessage where
  ref : ℕ
  message : ContextMessage
  deriving DecidableEq

/-- What the code asks about an error. -/
structure RequestError where
  isAbort : Bool := false
  isContextOverflow : Bool := false
  isEmptyOrTruncated : Bool := false
  isRetryable : Bool := false

/-- What a worker waits for. -/
inductive CompactionPhase where
  | hook
  | request
  | backoff
  | reinject
  | settled
  deriving DecidableEq

structure CompactionWorker where
  phase : CompactionPhase := .hook
  /-- Whether its abort controller has been aborted. -/
  aborted : Bool := false
  blockedByTurn : Bool := false
  originalHistory : List HistoryMessage
  historyForModel : List HistoryMessage
  overflowShrinkCount : ℕ := 0
  emptyOrTruncatedShrinkCount : ℕ := 0
  retryCount : ℕ := 0
  droppedCount : ℕ := 0
  deriving DecidableEq

/-- What is recorded.  A cancel concerns the compaction in the slot, and is made by a worker or
from outside; a completion empties the slot. -/
inductive CompactionEvent where
  | begun (worker : ℕ)
  | cancelled (worker : ℕ) (writer : Option ℕ)
  | applied (worker : ℕ)
  | completed (writer : ℕ) (slot : Option ℕ)
  | failed (worker : ℕ) (blockedByTurn : Bool)
  deriving DecidableEq

structure CompactionState where
  compacting : Option ℕ := none
  workers : List CompactionWorker := []
  history : List HistoryMessage := []
  compactionCountInTurn : ℕ := 0
  nextRef : ℕ := 0
  log : List CompactionEvent := []

def MAX_COMPACTION_RETRY_ATTEMPTS : ℕ := 5

def MAX_COMPACTION_OVERFLOW_SHRINK_ATTEMPTS : ℕ := 3

/-! ### Shrinking the history for the model -/

def dropLeadingToolResults (messages : List HistoryMessage) : List HistoryMessage :=
  messages.dropWhile (·.message.role == .tool)

def dropOldestMessageAndLeadingToolResults (messages : List HistoryMessage) : List HistoryMessage :=
  if messages.length ≤ 1 then messages else dropLeadingToolResults (messages.drop 1)

/-- The number of the newest messages that fit the budget, from the newest. -/
def countWithinBudget (tokenBudget : ℕ) : ℕ → List HistoryMessage → ℕ
  | _, [] => 0
  | tokens, m :: older =>
    let messageTokens := estimateTokensForMessage m.message.toMessage
    if tokens + messageTokens > tokenBudget then 0
    else countWithinBudget tokenBudget (tokens + messageTokens) older + 1

def takeRecentMessagesWithinTokenBudget (messages : List HistoryMessage) (tokenBudget : ℕ) :
    List HistoryMessage :=
  let start := messages.length - countWithinBudget tokenBudget 0 messages.reverse
  let start := if start = 0 then 1 else start
  dropLeadingToolResults (messages.drop start)

/-- `shrinkCompactionHistoryAfterOverflow`, for the budget of the attempt. -/
def shrinkCompactionHistoryAfterOverflow (budget : ℕ → ℕ → ℕ) (messages : List HistoryMessage)
    (attempt : ℕ) : List HistoryMessage :=
  if messages.length ≤ 1 then messages
  else
    takeRecentMessagesWithinTokenBudget messages
      (budget attempt (estimateTokensForMessages (messages.map (·.message.toMessage))))

/-! ### The rebuilt history -/

/-- The user messages that are kept, from the newest; only a truncated one is a new object. -/
def keptFromNewest (ref : ℕ) : ℕ → List HistoryMessage → List HistoryMessage
  | _, [] => []
  | remaining, m :: older =>
    let tokens := estimateTokensForMessage m.message.toMessage
    if remaining = 0 then []
    else if tokens ≤ remaining then m :: keptFromNewest ref (remaining - tokens) older
    else [⟨ref, truncateUserMessage m.message remaining⟩]

def compactionSummary (summary : String) : ContextMessage where
  role := .user
  content := [.text summary]
  toolCalls := []
  origin := some ⟨.compactionSummary, none⟩

namespace CompactionState

def applyCompaction (s : CompactionState) (summary : String) : CompactionState :=
  let users := s.history.filter (isRealUserInput ·.message)
  let kept := (keptFromNewest s.nextRef COMPACT_USER_MESSAGE_MAX_TOKENS users.reverse).reverse
  { s with
    history := kept ++ [⟨s.nextRef + 1, compactionSummary summary⟩]
    nextRef := s.nextRef + 2 }

/-! ### The slot -/

def updateWorker (s : CompactionState) (w : ℕ) (f : CompactionWorker → CompactionWorker) :
    CompactionState :=
  { s with workers := s.workers.modify w f }

def setPhase (s : CompactionState) (w : ℕ) (phase : CompactionPhase) : CompactionState :=
  s.updateWorker w fun worker => { worker with phase }

def record (s : CompactionState) (event : CompactionEvent) : CompactionState :=
  { s with log := s.log ++ [event] }

/-- `cancel`, called from outside or by a worker: it concerns whatever is in the slot. -/
def cancel (s : CompactionState) (writer : Option ℕ) : CompactionState :=
  match s.compacting with
  | none => s
  | some w =>
    { (s.record (.cancelled w writer)).updateWorker w fun worker =>
        { worker with aborted := true } with compacting := none }

/-- `markCompleted`: the slot is emptied, whatever is in it. -/
def markCompleted (s : CompactionState) (w : ℕ) : CompactionState :=
  { s.record (.completed w s.compacting) with compacting := none }

/-- Whether the compaction in the slot blocks the turn. -/
def slotBlocksTurn (s : CompactionState) : Bool :=
  (s.compacting.bind fun v => s.workers[v]?).any (·.blockedByTurn)

/-- The error path of `compactionWorker`: an abort ends it, another error cancels and reports. -/
def fail (s : CompactionState) (w : ℕ) (error : RequestError) : CompactionState :=
  if error.isAbort then s.setPhase w .settled
  else ((s.cancel (some w)).record (.failed w s.slotBlocksTurn)).setPhase w .settled

/-! ### Waiting -/

/-- The worker gives up without a summary. -/
def bail (s : CompactionState) (w : ℕ) : CompactionState :=
  (s.cancel (some w)).setPhase w .settled

/-- The history still starts with the messages of the worker, and behind them there is only user
input. -/
def stillCovers (s : CompactionState) (worker : CompactionWorker) : Bool :=
  (worker.originalHistory.map (·.ref)).isPrefixOf (s.history.map (·.ref)) &&
    (s.history.drop worker.originalHistory.length).all (isRealUserInput ·.message)

/-- The request has been answered by a summary. -/
def resolve (s : CompactionState) (w : ℕ) (worker : CompactionWorker) (summary : String) :
    CompactionState :=
  if s.stillCovers worker then
    ((s.applyCompaction summary).record (.applied w)).setPhase w .reinject
  else s.bail w

/-- What a worker does after its request has been rejected: it gives up, or tries again. -/
inductive Retry where
  | fail
  | again (worker : CompactionWorker)
  | later
  deriving DecidableEq

/-- The `catch` of the loop of `compactionRound`. -/
def retry (budget : ℕ → ℕ → ℕ) (worker : CompactionWorker) (error : RequestError) : Retry :=
  if error.isContextOverflow ∧ worker.historyForModel.length > 1 then
    let attempt := worker.overflowShrinkCount + 1
    if attempt > MAX_COMPACTION_OVERFLOW_SHRINK_ATTEMPTS then .fail
    else
      let history := shrinkCompactionHistoryAfterOverflow budget worker.historyForModel attempt
      .again { worker with
        overflowShrinkCount := attempt
        droppedCount := worker.droppedCount + (worker.historyForModel.length - history.length)
        historyForModel := history
        retryCount := 0 }
  else if error.isEmptyOrTruncated ∧ worker.historyForModel.length > 1 then
    let attempt := worker.emptyOrTruncatedShrinkCount + 1
    if attempt > MAX_COMPACTION_RETRY_ATTEMPTS then .fail
    else
      let history := dropOldestMessageAndLeadingToolResults worker.historyForModel
      .again { worker with
        emptyOrTruncatedShrinkCount := attempt
        droppedCount := worker.droppedCount + (worker.historyForModel.length - history.length)
        historyForModel := history
        retryCount := 0 }
  else if error.isRetryable = false then .fail
  else if worker.retryCount + 1 ≥ MAX_COMPACTION_RETRY_ATTEMPTS then .fail
  else .later

/-- The request has been rejected.  Before the delay of a retry, and during it, an abort ends the
worker. -/
def reject (budget : ℕ → ℕ → ℕ) (s : CompactionState) (w : ℕ) (worker : CompactionWorker)
    (error : RequestError) : CompactionState :=
  match retry budget worker error with
  | .fail => s.fail w error
  | .again worker' => s.updateWorker w fun _ => worker'
  | .later => if worker.aborted then s.setPhase w .settled else s.setPhase w .backoff

end CompactionState

/-! ### Steps -/

inductive CompactionSource where
  | manual
  | auto
  deriving DecidableEq

/-- What can happen.  The steps of a worker carry the outcome of what it has waited for. -/
inductive CompactionStep where
  | begin (source : CompactionSource) (hasActiveTurn : Bool)
  | cancel
  | resetForTurn
  | block
  /-- The turn that waits for a worker is aborted. -/
  | turnAborted (worker : ℕ)
  /-- Other code changes the history. -/
  | setHistory (history : List HistoryMessage)
  | hookDone (worker : ℕ) (error : Option RequestError)
  | resolved (worker : ℕ) (summary : String)
  | rejected (worker : ℕ) (error : RequestError)
  | woken (worker : ℕ)
  | reinjected (worker : ℕ) (error : Option RequestError)

namespace CompactionState

/-- `begin`; where it throws, only the count has changed. -/
def begin (maxCompactionPerTurn : ℕ) (s : CompactionState) (source : CompactionSource)
    (hasActiveTurn : Bool) : CompactionState :=
  if s.compacting.isSome then s
  else
    let count := match source with
      | .manual => 0
      | .auto => s.compactionCountInTurn + 1
    let s := { s with compactionCountInTurn := count }
    if count > maxCompactionPerTurn then s
    else if s.history.length = 0 then s
    else if source = .manual ∧ hasActiveTurn = true then s
    else
      let worker : CompactionWorker :=
        { originalHistory := s.history, historyForModel := s.history }
      { s.record (.begun s.workers.length) with
        workers := s.workers ++ [worker]
        compacting := some s.workers.length }

/-- The worker, if it waits in this phase. -/
def waiting (s : CompactionState) (w : ℕ) (phase : CompactionPhase) : Option CompactionWorker :=
  (s.workers[w]?).filter (·.phase = phase)

def step (maxCompactionPerTurn : ℕ) (budget : ℕ → ℕ → ℕ) (s : CompactionState) :
    CompactionStep → Option CompactionState
  | .begin source hasActiveTurn => some (s.begin maxCompactionPerTurn source hasActiveTurn)
  | .cancel => some (s.cancel none)
  | .resetForTurn => some { s with compactionCountInTurn := 0 }
  | .block => s.compacting.map fun w => s.updateWorker w fun worker =>
    { worker with blockedByTurn := true }
  | .turnAborted w => some (if s.compacting = some w then s.cancel none else s)
  | .setHistory history => some { s with history }
  | .hookDone w none => (s.waiting w .hook).map fun worker =>
    if worker.aborted then s.setPhase w .settled else s.setPhase w .request
  | .hookDone w (some error) => (s.waiting w .hook).map fun _ => s.fail w error
  | .resolved w summary => (s.waiting w .request).map fun worker => s.resolve w worker summary
  | .rejected w error => (s.waiting w .request).map fun worker => reject budget s w worker error
  | .woken w => (s.waiting w .backoff).map fun worker =>
    if worker.aborted then s.setPhase w .settled
    else s.updateWorker w fun worker =>
      { worker with phase := .request, retryCount := worker.retryCount + 1 }
  | .reinjected w none => (s.waiting w .reinject).map fun _ =>
    (s.markCompleted w).setPhase w .settled
  | .reinjected w (some error) => (s.waiting w .reinject).map fun _ => s.fail w error

end CompactionState

end NoriCode
