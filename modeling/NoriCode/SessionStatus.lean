/-
**The status of an agent, twice.**

The session service and the snapshot service derive the status of an agent from the same things:
the pending approvals and questions, the current prompt, and the turns that have started and ended
on the bus.  Each keeps its own sets of turns.  The session service also remembers the status that
it told last, and announces a status only when it is another one; reads overwrite what it
remembers.

The module embeds `_statusFrom`, `_emitStatusChanged`, `_handleBusEvent`, `_patchSessionStatus`,
`_readAuthoritativeStatus` and `_clearAgentRuntimeState` of `services/session/sessionService.ts`,
`_computeStatus` and `_handleBusEvent` of `services/snapshot/snapshotService.ts`, and what the
approval, question and prompt services change around the events that they publish.  An event is
delivered where it is published, so a step is what happens before anything else can run.

Main definitions:

* `StatusRun`, with `step` — the two services and what they read;
* `StatusRun.Orderly` — nothing changes a status behind the announcements;
* `StatusRun.Agrees`, `StatusRun.Announced` — what is promised.

Main results:

* `StatusRun.run_status` — **one status**, and the one that was announced.
-/

import NoriCode.LibOrdMap
import NoriCode.LibOrdSet
import NoriCode.PromptService

namespace NoriCode

open LibOrdMap LibOrdSet List Option LibRun OrdSet

/-! ### Events -/

/-- The key of an agent of a session, `sessionAgentKey`. -/
structure AgentKey where
  sessionId : String
  agentId : String
  deriving DecidableEq

/-- `MAIN_AGENT_ID` -/
def mainAgentId : String := "main"

/-- What is published; `other` are the events that change no status. -/
inductive BusEventType
  | turnStarted
  | turnEnded (reason : Option TurnEndReason)
  | promptSubmitted
  | promptCompleted
  | promptAborted
  | approvalRequested
  | approvalResolved
  | approvalExpired
  | questionRequested
  | questionAnswered
  | questionDismissed
  | other
  deriving DecidableEq

structure BusEvent where
  type : Option BusEventType
  sessionId : Option String
  agentId : Option String

namespace BusEvent

/-- An event of an agent of a session. -/
def of (type : BusEventType) (key : AgentKey) : BusEvent :=
  ⟨some type, some key.sessionId, some key.agentId⟩

/-- The agent that the session service takes the event for. -/
def key (e : BusEvent) : Option AgentKey :=
  match e.type, e.sessionId with
  | some _, some sessionId =>
    if sessionId = "" then none else some ⟨sessionId, e.agentId.getD mainAgentId⟩
  | _, _ => none

/-- The agent that the snapshot service takes the event for. -/
def snapshotKey (e : BusEvent) : Option AgentKey :=
  match e.type, e.sessionId, e.agentId with
  | some _, some sessionId, some agentId =>
    if sessionId = "" then none else some ⟨sessionId, agentId⟩
  | _, _, _ => none

/-- The event changes the sets of turns. -/
def ofTurns (e : BusEvent) : Bool :=
  match e.type with
  | some .turnStarted | some (.turnEnded _) | some .promptSubmitted => true
  | _ => false

end BusEvent

/-! ### What a status is made of -/

inductive SessionStatus
  | idle
  | running
  | awaitingApproval
  | awaitingQuestion
  | aborted
  deriving DecidableEq

inductive RuntimePhase
  | idle
  | restoring
  | compacting
  | running
  deriving DecidableEq

structure ActivePrompt extends PromptState where
  promptId : ℕ

/-- The turns that are running, and the agents whose last turn was broken off. -/
structure TurnSets where
  activeTurns : OrdSet AgentKey := .empty
  abortedTurns : OrdSet AgentKey := .empty

/-- What the approval, question and prompt services keep. -/
structure StatusSources where
  approvals : OrdMap ℕ AgentKey := .empty
  questions : OrdMap ℕ AgentKey := .empty
  prompts : OrdMap AgentKey ActivePrompt := .empty

/-- The ids of what is pending for an agent. -/
def listPending (pending : OrdMap ℕ AgentKey) (key : AgentKey) : List ℕ :=
  (pending.entries.filter fun e => e.2 = key).map (·.1)

namespace StatusSources

def getCurrentPromptId (v : StatusSources) (key : AgentKey) : Option ℕ :=
  match v.prompts.get key with
  | none => none
  | some state => if state.completed || state.aborted then none else some state.promptId

/-- The status as the session service computes it. -/
def statusFrom (v : StatusSources) (turns : TurnSets) (key : AgentKey) (turnRunning : Bool) :
    SessionStatus :=
  if (listPending v.approvals key).length > 0 then .awaitingApproval
  else if (listPending v.questions key).length > 0 then .awaitingQuestion
  else if turnRunning then .running
  else if (v.getCurrentPromptId key).isSome then .running
  else if key ∈ turns.abortedTurns then .aborted
  else .idle

/-- The status as the snapshot service computes it. -/
def snapshotStatus (v : StatusSources) (turns : TurnSets) (key : AgentKey) : SessionStatus :=
  if (listPending v.approvals key).length > 0 then .awaitingApproval
  else if (listPending v.questions key).length > 0 then .awaitingQuestion
  else if (v.getCurrentPromptId key).isSome || key ∈ turns.activeTurns then .running
  else if key ∈ turns.abortedTurns then .aborted
  else .idle

theorem statusFrom_question (v : StatusSources) {turns : TurnSets} {key : AgentKey}
    {turnRunning : Bool} {questions : OrdMap ℕ AgentKey}
    (hpending : (listPending questions key).length > 0)
    (h : v.statusFrom turns key turnRunning = .awaitingApproval ∨
      v.statusFrom turns key turnRunning = .awaitingQuestion) :
    statusFrom { v with questions := questions } turns key turnRunning =
      v.statusFrom turns key turnRunning := by
  unfold statusFrom at h ⊢
  rw [if_pos hpending]
  split
  · rfl
  · rename_i happroval
    rw [if_neg happroval] at h
    split
    · rfl
    · rename_i hquestion
      rw [if_neg hquestion] at h
      exfalso
      revert h
      split_ifs <;> exact fun h => h.elim (fun h => (by cases h)) fun h => (by cases h)

/-- **The two ladders are one**, on sets with the same elements. -/
theorem snapshotStatus_eq (v : StatusSources) {turns turns' : TurnSets} {key : AgentKey}
    (hactive : key ∈ turns'.activeTurns ↔ key ∈ turns.activeTurns)
    (haborted : key ∈ turns'.abortedTurns ↔ key ∈ turns.abortedTurns) :
    v.snapshotStatus turns' key = v.statusFrom turns key (decide (key ∈ turns.activeTurns)) := by
  unfold snapshotStatus statusFrom
  simp only [hactive, haborted]
  by_cases hturn : key ∈ turns.activeTurns
  · simp [hturn]
  · simp [hturn]

end StatusSources

/-! ### State and steps -/

structure StatusChanged where
  key : AgentKey
  status : SessionStatus
  previousStatus : SessionStatus
  currentPromptId : Option ℕ

structure StatusRun where
  sources : StatusSources := {}
  /-- The sets of the session service, and what it remembers. -/
  turns : TurnSets := {}
  statusByAgent : OrdMap AgentKey SessionStatus := .empty
  /-- The sets of the snapshot service. -/
  snapshot : TurnSets := {}
  announcements : List StatusChanged := []
  /-- The agent of the event, when the last step was one that a status may depend on. -/
  heard : Option AgentKey := none

inductive StatusStep
  /-- An event that comes with nothing else. -/
  | publish (event : BusEvent)
  | requestApproval (id : ℕ) (key : AgentKey)
  | resolveApproval (id : ℕ)
  | requestQuestion (id : ℕ) (key : AgentKey)
  | resolveQuestion (id : ℕ)
  | dismissQuestion (id : ℕ)
  /-- A prompt is submitted and starts. -/
  | startPrompt (key : AgentKey) (promptId : ℕ)
  /-- A prompt of the queue starts. -/
  | launchQueued (key : AgentKey) (promptId : ℕ)
  /-- The core was busy or threw, or the turn of an aborted prompt has ended. -/
  | dropPrompt (key : AgentKey)
  /-- The abort of a prompt is sent to the core; it may fail. -/
  | markAborted (key : AgentKey) (aborted : Bool)
  /-- The turn of a prompt has ended. -/
  | endPrompt (key : AgentKey) (cancelled : Bool)
  /-- A session is listed or returned, with the status of its main agent. -/
  | patchSessionStatus (sessionId : String)
  /-- The live agent is asked for its phase. -/
  | readAuthoritativeStatus (key : AgentKey) (phase : RuntimePhase)
  /-- The session is archived or deleted. -/
  | clearAgentRuntimeState (sessionId : String)

namespace TurnSets

def start (t : TurnSets) (key : AgentKey) : TurnSets where
  activeTurns := t.activeTurns.insert key
  abortedTurns := t.abortedTurns.erase key

def finish (t : TurnSets) (key : AgentKey) (aborted : Bool) : TurnSets where
  activeTurns := t.activeTurns.erase key
  abortedTurns := if aborted then t.abortedTurns.insert key else t.abortedTurns.erase key

def submit (t : TurnSets) (key : AgentKey) : TurnSets :=
  { t with abortedTurns := t.abortedTurns.erase key }

/-- The handler of the session service, for its sets. -/
def onSessionEvent (t : TurnSets) (key : AgentKey) : BusEventType → TurnSets
  | .turnStarted => t.start key
  | .turnEnded reason =>
    t.finish key (reason == some .cancelled || reason == some .failed || reason == some .filtered)
  | .promptSubmitted => t.submit key
  | _ => t

/-- The handler of the snapshot service. -/
def onSnapshotEvent (t : TurnSets) (key : AgentKey) : BusEventType → TurnSets
  | .turnStarted => t.start key
  | .turnEnded reason => t.finish key (reason == some .cancelled || reason == some .failed)
  | .promptSubmitted => t.submit key
  | _ => t

end TurnSets

namespace StatusRun

def computeStatus (s : StatusRun) (key : AgentKey) : SessionStatus :=
  s.sources.statusFrom s.turns key (decide (key ∈ s.turns.activeTurns))

def snapshotStatus (s : StatusRun) (key : AgentKey) : SessionStatus :=
  s.sources.snapshotStatus s.snapshot key

/-- The status that the session service remembers. -/
def remembered (s : StatusRun) (key : AgentKey) : SessionStatus :=
  (s.statusByAgent.get key).getD .idle

def emitStatusChanged (s : StatusRun) (key : AgentKey) : StatusRun :=
  let previous := s.remembered key
  let next := s.computeStatus key
  if previous = next then s
  else
    { s with
      statusByAgent := s.statusByAgent.set key next
      announcements := s.announcements ++
        [⟨key, next, previous, s.sources.getCurrentPromptId key⟩] }

/-- The handler of the session service. -/
def handleBusEvent (s : StatusRun) (event : BusEvent) : StatusRun :=
  match event.key, event.type with
  | some key, some type =>
    if type = .other then s
    else emitStatusChanged { s with turns := s.turns.onSessionEvent key type } key
  | _, _ => s

/-- The sets of the snapshot service after an event. -/
def handleSnapshotEvent (t : TurnSets) (event : BusEvent) : TurnSets :=
  match event.snapshotKey, event.type with
  | some key, some type => t.onSnapshotEvent key type
  | _, _ => t

def publish (s : StatusRun) (event : BusEvent) : StatusRun :=
  { s.handleBusEvent event with
    snapshot := handleSnapshotEvent s.snapshot event
    heard := if event.type = some .other then none else event.key }

/-- What the services keep has changed, and nothing is published. -/
def silently (s : StatusRun) (sources : StatusSources) : StatusRun :=
  { s with sources := sources, heard := none }

def step (s : StatusRun) : StatusStep → Option StatusRun
  | .publish event => some (s.publish event)
  | .requestApproval id key =>
    if s.sources.approvals.get id = none then
      let s := s.publish (.of .approvalRequested key)
      some { s with
        sources := { s.sources with approvals := s.sources.approvals.set id key } }
    else none
  | .resolveApproval id =>
    (s.sources.approvals.get id).map fun key =>
      (s.silently { s.sources with approvals := s.sources.approvals.erase id }).publish
        (.of .approvalResolved key)
  | .requestQuestion id key =>
    if s.sources.questions.get id = none then
      let s := s.publish (.of .questionRequested key)
      some { s with
        sources := { s.sources with questions := s.sources.questions.set id key } }
    else none
  | .resolveQuestion id =>
    (s.sources.questions.get id).map fun key =>
      (s.silently { s.sources with questions := s.sources.questions.erase id }).publish
        (.of .questionAnswered key)
  | .dismissQuestion id =>
    (s.sources.questions.get id).map fun key =>
      (s.silently { s.sources with questions := s.sources.questions.erase id }).publish
        (.of .questionDismissed key)
  | .startPrompt key promptId =>
    some ((s.silently { s.sources with
      prompts := s.sources.prompts.set key { promptId := promptId } }).publish
        (.of .promptSubmitted key))
  | .launchQueued key promptId =>
    some (s.silently { s.sources with
      prompts := s.sources.prompts.set key { promptId := promptId } })
  | .dropPrompt key =>
    some (s.silently { s.sources with prompts := s.sources.prompts.erase key })
  | .markAborted key aborted =>
    (s.sources.prompts.get key).map fun state =>
      s.silently { s.sources with
        prompts := s.sources.prompts.set key { state with aborted := aborted } }
  | .endPrompt key cancelled =>
    (s.sources.prompts.get key).map fun _ =>
      (s.silently { s.sources with prompts := s.sources.prompts.erase key }).publish
        (.of (if cancelled then .promptAborted else .promptCompleted) key)
  | .patchSessionStatus sessionId =>
    let key : AgentKey := ⟨sessionId, mainAgentId⟩
    some { s with
      statusByAgent := s.statusByAgent.set key (s.computeStatus key)
      heard := none }
  | .readAuthoritativeStatus key phase =>
    let turns := { s.turns with
      activeTurns :=
        if phase = .running then s.turns.activeTurns.insert key
        else s.turns.activeTurns.erase key }
    some { s with
      turns := turns
      statusByAgent :=
        s.statusByAgent.set key (s.sources.statusFrom turns key (decide (phase ≠ .idle)))
      heard := none }
  | .clearAgentRuntimeState sessionId =>
    let others := fun key : AgentKey => decide (key.sessionId ≠ sessionId)
    some { s with
      turns := ⟨s.turns.activeTurns.filter others, s.turns.abortedTurns.filter others⟩
      statusByAgent := s.statusByAgent.filterKeys others
      heard := none }

/-! ### What is promised -/

/-- The last status that was announced for an agent. -/
def announced (s : StatusRun) (key : AgentKey) : SessionStatus :=
  ((s.announcements.filter fun c => c.key = key).getLast?.map (·.status)).getD .idle

/-- The snapshot service computes the status that the session service computes. -/
def Agrees (s : StatusRun) : Prop := ∀ key, s.snapshotStatus key = s.computeStatus key

/-- After an event of an agent, the status that was announced last is the current one. -/
def Announced (s : StatusRun) : Prop := ∀ key ∈ s.heard, s.announced key = s.computeStatus key

instance (s : StatusRun) : Decidable s.Announced :=
  inferInstanceAs (Decidable (∀ key ∈ s.heard, s.announced key = s.computeStatus key))

/-- **The condition.**  Events of turns and prompts name their agent, and no turn ends as filtered;
what is requested does not move the status; the status is read where it is the announced one, from
an agent that runs when the events say so; and a session is cleared when none of its agents has a
turn, a broken off turn or a status. -/
def Orderly (s : StatusRun) : StatusStep → Prop
  | .publish event =>
    (event.ofTurns = true → event.agentId.isSome = true) ∧
      event.type ≠ some (.turnEnded (some .filtered))
  | .requestApproval _ key => s.computeStatus key = .awaitingApproval
  | .requestQuestion _ key =>
    s.computeStatus key = .awaitingApproval ∨ s.computeStatus key = .awaitingQuestion
  | .patchSessionStatus sessionId =>
    s.computeStatus ⟨sessionId, mainAgentId⟩ = s.announced ⟨sessionId, mainAgentId⟩
  | .readAuthoritativeStatus key phase =>
    (phase = .running ↔ key ∈ s.turns.activeTurns) ∧
      s.sources.statusFrom s.turns key (decide (phase ≠ .idle)) = s.announced key
  | .clearAgentRuntimeState sessionId =>
    (∀ key ∈ s.turns.activeTurns.toList, key.sessionId ≠ sessionId) ∧
      (∀ key ∈ s.turns.abortedTurns.toList, key.sessionId ≠ sessionId) ∧
      ∀ e ∈ s.statusByAgent.entries, e.1.sessionId = sessionId → e.2 = .idle
  | _ => True

instance (s : StatusRun) (e : StatusStep) : Decidable (s.Orderly e) := by
  cases e <;> unfold Orderly <;> infer_instance

/-! ### The invariant -/

/-- The sets have the same elements, and what is remembered is what was announced. -/
structure Kept (s : StatusRun) : Prop where
  active : ∀ key, key ∈ s.snapshot.activeTurns ↔ key ∈ s.turns.activeTurns
  aborted : ∀ key, key ∈ s.snapshot.abortedTurns ↔ key ∈ s.turns.abortedTurns
  remembered : ∀ key, s.remembered key = s.announced key

structure Sound (s : StatusRun) : Prop extends Kept s where
  heard : s.Announced

theorem Kept.agrees {s : StatusRun} (h : s.Kept) : s.Agrees :=
  fun key => s.sources.snapshotStatus_eq (h.active key) (h.aborted key)

/-! ### Announcements -/

variable {s : StatusRun} {key : AgentKey}

theorem emitStatusChanged_sources : (s.emitStatusChanged key).sources = s.sources := by
  unfold emitStatusChanged
  dsimp only
  split <;> rfl

theorem emitStatusChanged_turns : (s.emitStatusChanged key).turns = s.turns := by
  unfold emitStatusChanged
  dsimp only
  split <;> rfl

theorem emitStatusChanged_computeStatus (k : AgentKey) :
    (s.emitStatusChanged key).computeStatus k = s.computeStatus k := by
  unfold computeStatus
  rw [emitStatusChanged_sources, emitStatusChanged_turns]

theorem announced_append (c : StatusChanged) (k : AgentKey) :
    announced { s with announcements := s.announcements ++ [c] } k =
      if c.key = k then c.status else s.announced k := by
  unfold announced
  rw [filter_append]
  by_cases hkey : c.key = k
  · rw [if_pos hkey, filter_singleton, decide_eq_true hkey, getLast?_append]
    rfl
  · rw [if_neg hkey, filter_singleton, decide_eq_false hkey]
    simp

theorem remembered_set (k : AgentKey) (status : SessionStatus) (j : AgentKey) :
    remembered { s with statusByAgent := s.statusByAgent.set k status } j =
      if j = k then status else s.remembered j := by
  unfold remembered
  rw [OrdMap.get_set]
  split <;> rfl

/-- **What is remembered is what was announced**, and it is the current status. -/
theorem emitStatusChanged_announced (h : ∀ k, s.remembered k = s.announced k)
    (key : AgentKey) :
    (∀ k, (s.emitStatusChanged key).remembered k = (s.emitStatusChanged key).announced k) ∧
      (s.emitStatusChanged key).announced key = s.computeStatus key := by
  unfold emitStatusChanged
  dsimp only
  split
  · rename_i hsame
    exact ⟨h, (h key).symm.trans hsame⟩
  · refine ⟨fun k => ?_, ?_⟩
    · refine (remembered_set key _ k).trans (Eq.trans ?_ (announced_append _ k).symm)
      rw [h k]
      exact if_congr eq_comm rfl rfl
    · exact (announced_append _ key).trans (if_pos rfl)

/-! ### Events -/

variable {type : BusEventType} {event : BusEvent}

theorem onEvent_of_not_ofTurns
    (htype : event.type = some type) (h : event.ofTurns = false) (t : TurnSets) :
    t.onSessionEvent key type = t ∧ t.onSnapshotEvent key type = t := by
  unfold BusEvent.ofTurns at h
  rw [htype] at h
  cases type <;> first | exact ⟨rfl, rfl⟩ | cases h

/-- The two handlers leave sets with the same elements, for every turn that is not filtered. -/
theorem onSnapshotEvent_mem {t t' : TurnSets}
    (hactive : ∀ k, k ∈ t'.activeTurns ↔ k ∈ t.activeTurns)
    (haborted : ∀ k, k ∈ t'.abortedTurns ↔ k ∈ t.abortedTurns)
    (htype : type ≠ .turnEnded (some .filtered)) :
    (∀ k, k ∈ (t'.onSnapshotEvent key type).activeTurns ↔
        k ∈ (t.onSessionEvent key type).activeTurns) ∧
      ∀ k, k ∈ (t'.onSnapshotEvent key type).abortedTurns ↔
        k ∈ (t.onSessionEvent key type).abortedTurns := by
  cases type with
  | turnStarted =>
    refine ⟨fun k => ?_, fun k => ?_⟩
    · simp [TurnSets.onSnapshotEvent, TurnSets.onSessionEvent, TurnSets.start, mem_insert, hactive]
    · simp [TurnSets.onSnapshotEvent, TurnSets.onSessionEvent, TurnSets.start, mem_erase, haborted]
  | turnEnded reason =>
    have hreason : (reason == some .filtered) = false := by
      refine beq_eq_false_iff_ne.2 fun h => htype (by rw [h])
    refine ⟨fun k => ?_, fun k => ?_⟩
    · simp [TurnSets.onSnapshotEvent, TurnSets.onSessionEvent, TurnSets.finish, mem_erase, hactive]
    · simp only [TurnSets.onSnapshotEvent, TurnSets.onSessionEvent, TurnSets.finish, hreason,
        Bool.or_false]
      split
      · simp [mem_insert, haborted]
      · simp [mem_erase, haborted]
  | promptSubmitted =>
    refine ⟨hactive, fun k => ?_⟩
    simp [TurnSets.onSnapshotEvent, TurnSets.onSessionEvent, TurnSets.submit, mem_erase, haborted]
  | _ => exact ⟨hactive, haborted⟩

theorem BusEvent.snapshotKey_of_key (hkey : event.key = some key)
    (hagent : event.agentId.isSome = true) : event.snapshotKey = some key := by
  obtain ⟨type, sessionId, agentId⟩ := event
  obtain ⟨agentId, rfl⟩ := isSome_iff_exists.1 hagent
  unfold BusEvent.key at hkey
  dsimp only at hkey ⊢
  split at hkey
  · exact hkey
  · cases hkey

/-- An event that is for no agent of the session service is for none of the snapshot service. -/
theorem BusEvent.snapshotKey_of_key_none (hkey : event.key = none) : event.snapshotKey = none := by
  obtain ⟨type, sessionId, agentId⟩ := event
  cases type with
  | none => rfl
  | some type =>
    cases sessionId with
    | none => rfl
    | some sessionId =>
      cases agentId with
      | none => rfl
      | some agentId =>
        unfold BusEvent.key at hkey
        unfold BusEvent.snapshotKey
        dsimp only at hkey ⊢
        split at hkey
        · rename_i hempty
          rw [if_pos hempty]
        · cases hkey

theorem handleSnapshotEvent_mem {t t' : TurnSets}
    (hkey : event.key = some key) (htype : event.type = some type)
    (hactive : ∀ k, k ∈ t'.activeTurns ↔ k ∈ t.activeTurns)
    (haborted : ∀ k, k ∈ t'.abortedTurns ↔ k ∈ t.abortedTurns)
    (hagent : event.ofTurns = true → event.agentId.isSome = true)
    (hreason : event.type ≠ some (.turnEnded (some .filtered))) :
    (∀ k, k ∈ (handleSnapshotEvent t' event).activeTurns ↔
        k ∈ (t.onSessionEvent key type).activeTurns) ∧
      ∀ k, k ∈ (handleSnapshotEvent t' event).abortedTurns ↔
        k ∈ (t.onSessionEvent key type).abortedTurns := by
  unfold handleSnapshotEvent
  rw [htype]
  cases hturns : event.ofTurns with
  | true =>
    rw [BusEvent.snapshotKey_of_key hkey (hagent hturns)]
    exact onSnapshotEvent_mem hactive haborted fun h => hreason (h ▸ htype)
  | false =>
    rw [(onEvent_of_not_ofTurns htype hturns t).1]
    cases event.snapshotKey with
    | none => exact ⟨hactive, haborted⟩
    | some k =>
      dsimp only
      rw [(onEvent_of_not_ofTurns htype hturns t').2]
      exact ⟨hactive, haborted⟩

/-- **An event is announced**, and both services take it alike. -/
theorem Kept.publish (h : s.Kept) (hagent : event.ofTurns = true → event.agentId.isSome = true)
    (hreason : event.type ≠ some (.turnEnded (some .filtered))) : (s.publish event).Sound := by
  unfold StatusRun.publish handleBusEvent
  cases hkey : event.key with
  | none =>
    have hsnapshot : handleSnapshotEvent s.snapshot event = s.snapshot := by
      unfold handleSnapshotEvent
      rw [BusEvent.snapshotKey_of_key_none hkey]
    rw [hsnapshot, ite_self]
    exact ⟨⟨h.active, h.aborted, h.remembered⟩, fun _ hnone => (by cases hnone)⟩
  | some key =>
    obtain ⟨type, htype⟩ : ∃ type, event.type = some type := by
      cases htype : event.type with
      | none => rw [BusEvent.key, htype] at hkey; cases hkey
      | some type => exact ⟨type, rfl⟩
    obtain ⟨hactive, haborted⟩ :=
      handleSnapshotEvent_mem hkey htype h.active h.aborted hagent hreason
    rw [htype]
    dsimp only
    by_cases hother : type = .other
    · subst hother
      rw [if_pos rfl, if_pos rfl]
      exact ⟨⟨hactive, haborted, h.remembered⟩, fun _ hnone => (by cases hnone)⟩
    · rw [if_neg hother, if_neg fun heq => hother (some.inj heq)]
      obtain ⟨hremembered, hannounced⟩ := emitStatusChanged_announced
        (s := { s with turns := s.turns.onSessionEvent key type }) h.remembered key
      refine ⟨⟨fun k => ?_, fun k => ?_, hremembered⟩, fun k hk => ?_⟩
      · dsimp only
        rw [emitStatusChanged_turns]
        exact hactive k
      · dsimp only
        rw [emitStatusChanged_turns]
        exact haborted k
      · cases hk
        exact hannounced.trans (emitStatusChanged_computeStatus _).symm

/-! ### Steps -/

theorem Kept.silently (h : s.Kept) (sources : StatusSources) : (s.silently sources).Sound :=
  ⟨⟨h.active, h.aborted, h.remembered⟩, fun _ hnone => (by cases hnone)⟩

theorem publish_sources (event : BusEvent) : (s.publish event).sources = s.sources := by
  unfold StatusRun.publish handleBusEvent
  split
  · split
    · rfl
    · exact emitStatusChanged_sources
  · rfl

theorem publish_turns (h : event.ofTurns = false) : (s.publish event).turns = s.turns := by
  unfold StatusRun.publish handleBusEvent
  split
  · rename_i htype
    split
    · rfl
    · rw [emitStatusChanged_turns]
      exact (onEvent_of_not_ofTurns htype h s.turns).1
  · rfl

theorem Kept.request (h : s.Kept) (sources : StatusSources)
    (hturns : (BusEvent.of type key).ofTurns = false)
    (hsame : sources.statusFrom s.turns key (decide (key ∈ s.turns.activeTurns)) =
      s.computeStatus key) :
    Sound { s.publish (.of type key) with sources := sources } := by
  have hpublished : (s.publish (.of type key)).Sound := by
    refine h.publish (fun hof => ?_) fun heq => ?_
    · rw [hturns] at hof
      cases hof
    · cases heq
      cases hturns
  refine ⟨⟨hpublished.active, hpublished.aborted, hpublished.remembered⟩, fun k hk => ?_⟩
  obtain rfl : k = key := by
    have hkey : k ∈ if some type = some BusEventType.other then none
      else (BusEvent.of type key).key := hk
    split at hkey
    · cases hkey
    · unfold BusEvent.of BusEvent.key at hkey
      dsimp only at hkey
      split at hkey
      · cases hkey
      · exact (some.inj hkey).symm
  have hheard := hpublished.heard k hk
  unfold computeStatus at hheard hsame ⊢
  rw [publish_sources, publish_turns hturns] at hheard
  rw [publish_turns hturns, hsame]
  exact hheard

theorem listPending_set (pending : OrdMap ℕ AgentKey) (id : ℕ) (key : AgentKey) :
    (listPending (pending.set id key) key).length > 0 := by
  have hmem : (id, key) ∈ (pending.set id key).entries := OrdMap.mem_set.2 (.inl rfl)
  have hid : id ∈ listPending (pending.set id key) key :=
    mem_map_of_mem (List.mem_filter.2 ⟨hmem, decide_eq_true rfl⟩)
  exact length_pos_of_mem hid

theorem Kept.changed (h : s.Kept) (sources : StatusSources)
    (htype : type ≠ .turnEnded (some .filtered)) :
    ((s.silently sources).publish (.of type key)).Sound :=
  (h.silently sources).toKept.publish (fun _ => rfl) fun heq => htype (some.inj heq)

theorem Kept.remember (h : s.Kept) {turns : TurnSets} {status : SessionStatus}
    (hactive : ∀ k, k ∈ turns.activeTurns ↔ k ∈ s.turns.activeTurns)
    (haborted : turns.abortedTurns = s.turns.abortedTurns) (hstatus : status = s.announced key) :
    Sound { s with
      turns := turns
      statusByAgent := s.statusByAgent.set key status
      heard := none } := by
  refine ⟨⟨fun k => (h.active k).trans (hactive k).symm, fun k => ?_, fun k => ?_⟩,
    fun _ hnone => (by cases hnone)⟩
  · dsimp only
    rw [haborted]
    exact h.aborted k
  · refine (remembered_set key status k).trans ?_
    split
    · rename_i hkey
      rw [hkey]
      exact hstatus
    · exact h.remembered k

/-- Nothing of a session is cleared that is not as it was in the beginning. -/
theorem Kept.clear (h : s.Kept) {sessionId : String}
    (hclear : s.Orderly (.clearAgentRuntimeState sessionId)) {s' : StatusRun}
    (hs : s.step (.clearAgentRuntimeState sessionId) = some s') : s'.Sound := by
  obtain ⟨hactive, haborted, hidle⟩ := hclear
  cases hs
  refine ⟨⟨fun k => ?_, fun k => ?_, fun k => ?_⟩, fun _ hnone => (by cases hnone)⟩
  · refine (h.active k).trans (Iff.trans ?_ OrdSet.mem_filter.symm)
    exact (and_iff_left_of_imp fun hk => decide_eq_true (hactive k hk)).symm
  · refine (h.aborted k).trans (Iff.trans ?_ OrdSet.mem_filter.symm)
    exact (and_iff_left_of_imp fun hk => decide_eq_true (haborted k hk)).symm
  · refine Eq.trans ?_ (h.remembered k)
    unfold StatusRun.remembered
    rw [OrdMap.get_filterKeys]
    split
    · rfl
    · rename_i hsession
      cases hget : s.statusByAgent.get k with
      | none => rfl
      | some status =>
        have hsame : k.sessionId = sessionId := by
          by_contra hne
          exact hsession (decide_eq_true hne)
        exact (hidle (k, status) (OrdMap.get_eq_some.1 hget) hsame).symm

/-- **What every step preserves.** -/
theorem Sound.step {s' : StatusRun} {e : StatusStep} (h : s.Sound) (he : s.Orderly e)
    (hs : s.step e = some s') : s'.Sound := by
  cases e with
  | publish event =>
    cases hs
    exact h.toKept.publish he.1 he.2
  | requestApproval id key =>
    obtain ⟨-, hs⟩ := ite_none_right_eq_some.1 hs
    cases hs
    have hturns : (BusEvent.of .approvalRequested key).ofTurns = false := rfl
    refine h.toKept.request _ hturns ?_
    rw [publish_sources, he]
    exact if_pos (listPending_set _ id key)
  | requestQuestion id key =>
    obtain ⟨-, hs⟩ := ite_none_right_eq_some.1 hs
    cases hs
    have hturns : (BusEvent.of .questionRequested key).ofTurns = false := rfl
    refine h.toKept.request _ hturns ?_
    rw [publish_sources]
    exact s.sources.statusFrom_question (listPending_set _ id key) he
  | resolveApproval | resolveQuestion | dismissQuestion =>
    obtain ⟨key, -, rfl⟩ := map_eq_some_iff.1 hs
    exact h.toKept.changed _ fun heq => (by cases heq)
  | startPrompt key promptId =>
    cases hs
    exact h.toKept.changed _ fun heq => (by cases heq)
  | launchQueued | dropPrompt =>
    cases hs
    exact h.toKept.silently _
  | markAborted key aborted =>
    obtain ⟨state, -, rfl⟩ := map_eq_some_iff.1 hs
    exact h.toKept.silently _
  | endPrompt key cancelled =>
    obtain ⟨state, -, rfl⟩ := map_eq_some_iff.1 hs
    refine h.toKept.changed _ ?_
    split <;> exact fun heq => (by cases heq)
  | patchSessionStatus sessionId =>
    cases hs
    exact h.toKept.remember (fun _ => Iff.rfl) rfl he
  | readAuthoritativeStatus key phase =>
    obtain ⟨hphase, hstatus⟩ := he
    cases hs
    refine h.toKept.remember (fun k => ?_) rfl hstatus
    split
    · rename_i hrunning
      rw [mem_insert]
      refine ⟨fun hk => hk.elim id fun hkey => hkey ▸ hphase.1 hrunning, Or.inl⟩
    · rename_i hrunning
      rw [mem_erase]
      exact ⟨And.left, fun hk => ⟨hk, fun hkey => hrunning (hphase.2 (hkey ▸ hk))⟩⟩
  | clearAgentRuntimeState sessionId => exact h.toKept.clear he hs

/-! ### Runs -/

theorem sound_init : Sound {} where
  active := fun _ => Iff.rfl
  aborted := fun _ => Iff.rfl
  remembered := fun _ => rfl
  heard := fun _ hnone => (by cases hnone)

/-- **One status.**  In every run whose steps are orderly, the snapshot service computes for every
agent the status that the session service computes, and after every event of an agent the status
that was announced last is the current one. -/
theorem run_status {s : StatusRun} {l : List StatusStep}
    (h : LibRun.Run StatusRun.step Orderly {} l s) : s.Agrees ∧ s.Announced := by
  have hsound : s.Sound := h.invariant sound_init fun _ _ _ ht hok hu => Sound.step ht hok hu
  exact ⟨hsound.agrees, hsound.heard⟩

/-- The main agent of a session, and another one. -/
def mainOf (sessionId : String) : AgentKey := ⟨sessionId, mainAgentId⟩

def reviewer : AgentKey := ⟨"s", "reviewer"⟩

/-- A prompt starts a turn while another agent fails; the session is read and listed in between. -/
def promptSteps : List StatusStep :=
  [.startPrompt (mainOf "s") 1, .publish (.of .turnStarted (mainOf "s")),
    .publish (.of .turnStarted reviewer), .readAuthoritativeStatus (mainOf "s") .running,
    .publish (.of (.turnEnded (some .failed)) reviewer), .patchSessionStatus "s",
    .publish (.of (.turnEnded (some .completed)) (mainOf "s")), .endPrompt (mainOf "s") false]

theorem run_status_example :
    ∃ s : StatusRun, s.announcements.map (fun c => (c.key.agentId, c.status)) =
      [("main", .running), ("reviewer", .running), ("reviewer", .aborted), ("main", .idle)] ∧
      s.heard = some (mainOf "s") ∧ s.Agrees ∧ s.Announced := by
  have hrun : ∃ s, LibRun.Run StatusRun.step Orderly {} promptSteps s ∧
      (s.announcements.map (fun c => (c.key.agentId, c.status)) =
        [("main", .running), ("reviewer", .running), ("reviewer", .aborted), ("main", .idle)] ∧
        s.heard = some (mainOf "s")) :=
    exists_run (by decide +kernel) (by decide +kernel)
  obtain ⟨s, hs, hannouncements, hheard⟩ := hrun
  exact ⟨s, hannouncements, hheard, run_status hs⟩

/-- **A filtered turn is aborted for one service and idle for the other one, and an approval that is
requested is not announced.** -/
theorem not_status :
    (∃ s, LibRun.Run StatusRun.step always {}
      [.publish (.of .turnStarted (mainOf "s")),
        .publish (.of (.turnEnded (some .filtered)) (mainOf "s"))] s ∧
      (s.computeStatus (mainOf "s") = .aborted ∧ s.snapshotStatus (mainOf "s") = .idle)) ∧
    ∃ s, LibRun.Run StatusRun.step always {}
      [.publish (.of .turnStarted (mainOf "s")), .requestApproval 1 (mainOf "s")] s ∧
      (s.heard = some (mainOf "s") ∧ s.announced (mainOf "s") = .running ∧
        s.computeStatus (mainOf "s") = .awaitingApproval) :=
  ⟨exists_run (by decide +kernel) (legal_always _ _),
    exists_run (by decide +kernel) (legal_always _ _)⟩

end StatusRun

end NoriCode
