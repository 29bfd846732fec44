/-
**Snapshots of a session.**

A client that comes back loads a snapshot and then replays the events behind its number.  The number
is that of the journal in memory; the messages are reduced from a file that the agent writes behind
its own records, in batches, with a cache in front that knows the file by its size and its time.
Both are read at once.  A message whose records still wait to be written is in neither: its event is
not replayed.

The module embeds `SnapshotService.read` with `_readTranscriptCached`, `_dispatch` and
`getSnapshotState` of `wsBroadcastService.ts`, `inFlightTurnTracker.ts`, and the queue of
`FileSystemAgentRecordPersistence`, for one agent of a session.  How many bytes the line of a record
has is a parameter.  A line that was written in part is not read.

Main definitions:

* `InFlightTurnTracker.apply` — the turn in flight;
* `SnapshotRun`, with `step` — records, file, events, and the snapshots that are read;
* `SnapshotRun.Caught` — the records before the number are in the file;
* `SnapshotRun.Complete` — snapshots have the messages of the events before them.

Main results:

* `SnapshotRun.run_complete` — **no message is missed**.
-/

import NoriCode.LibRun
import NoriCode.TranscriptMessages

namespace NoriCode

open List Option

/-! ### The turn in flight -/

/-- An event of the agent, as far as the turn in flight depends on it. -/
inductive AgentTurnEvent
  | turnStarted (turnId : ℕ)
  | stepStarted (turnId : ℕ)
  | stepCompleted (turnId : ℕ)
  | turnEnded (turnId : ℕ)
  | assistantDelta (turnId : ℕ) (delta : String)
  | thinkingDelta (turnId : ℕ) (delta : String)
  | toolCallStarted (turnId : ℕ) (toolCallId name : String)
  | toolResult (toolCallId : String)
  | other (isVolatile : Bool)
  deriving DecidableEq

/-- Whether the event is one that gets no number. -/
def AgentTurnEvent.isVolatile : AgentTurnEvent → Bool
  | .assistantDelta _ _ | .thinkingDelta _ _ => true
  | .other isVolatile => isVolatile
  | _ => false

structure TurnAccum where
  turnId : ℕ
  assistantText : String := ""
  thinkingText : String := ""
  stepAssistantText : String := ""
  stepThinkingText : String := ""
  /-- The tools that run, by their calls. -/
  tools : List (String × String) := []
  deriving DecidableEq

/-- The turn of the agent, if it is the one of the event. -/
def TurnAccum.update (turn : Option TurnAccum) (turnId : ℕ) (f : TurnAccum → TurnAccum) :
    Option TurnAccum :=
  turn.map fun accum => if accum.turnId = turnId then f accum else accum

def InFlightTurnTracker.apply (turn : Option TurnAccum) : AgentTurnEvent → Option TurnAccum
  | .turnStarted turnId => some { turnId := turnId }
  | .stepStarted turnId => TurnAccum.update turn turnId fun accum =>
    { accum with
      stepAssistantText := ""
      stepThinkingText := "" }
  | .turnEnded _ => none
  | .assistantDelta turnId delta => TurnAccum.update turn turnId fun accum =>
    { accum with
      assistantText := accum.assistantText ++ delta
      stepAssistantText := accum.stepAssistantText ++ delta }
  | .thinkingDelta turnId delta => TurnAccum.update turn turnId fun accum =>
    { accum with
      thinkingText := accum.thinkingText ++ delta
      stepThinkingText := accum.stepThinkingText ++ delta }
  | .toolCallStarted turnId toolCallId name => TurnAccum.update turn turnId fun accum =>
    { accum with
      tools := accum.tools.filter (fun tool => tool.1 ≠ toolCallId) ++ [(toolCallId, name)] }
  | .toolResult toolCallId => turn.map fun accum =>
    { accum with tools := accum.tools.filter fun tool => tool.1 ≠ toolCallId }
  | .stepCompleted _ | .other _ => turn

/-! ### State -/

/-- The wire file: the lines that are complete, and how much is written of the next one. -/
structure WireFile where
  records : List AgentRecord := []
  torn : ℕ := 0
  mtime : ℕ

/-- An event, and the records that had been logged when it was published. -/
structure PublishedEvent where
  event : AgentTurnEvent
  logged : List AgentRecord
  deriving DecidableEq

structure TranscriptCacheEntry where
  size : ℕ
  mtime : ℕ
  /-- The records that the transcript was reduced from. -/
  records : List AgentRecord

/-- What `getSnapshotState` returns, and the records that had been logged then. -/
structure SessionSnapshotState where
  seq : ℕ
  inFlightTurn : Option TurnAccum
  logged : List AgentRecord

inductive TranscriptStage
  | located
  | statted (size mtime : ℕ)
  | read (records : List AgentRecord)
  | responded
  deriving DecidableEq

/-- A snapshot that is read: the two parts of `Promise.all`. -/
structure SnapshotRead where
  /-- How many events are to be dispatched first. -/
  waitFor : Option ℕ := none
  state : Option SessionSnapshotState := none
  transcript : TranscriptStage := .located

structure SnapshotResponse where
  asOfSeq : ℕ
  items : List ProtocolMessage
  hasMore : Bool
  inFlightTurn : Option TurnAccum
  /-- The records that the messages were reduced from. -/
  records : List AgentRecord
  deriving DecidableEq

structure SnapshotRun where
  /-- The records that were logged. -/
  log : List AgentRecord := []
  pendingRecords : List AgentRecord := []
  /-- What is still to be written of the batch. -/
  batch : List AgentRecord := []
  failed : Bool := false
  file : Option WireFile := none
  now : ℕ := 0
  ready : Bool := false
  queue : List PublishedEvent := []
  published : ℕ := 0
  dispatched : ℕ := 0
  seq : ℕ := 0
  turn : Option TurnAccum := none
  /-- The events that got a number. -/
  delivered : List (ℕ × PublishedEvent) := []
  cache : Option TranscriptCacheEntry := none
  reads : List SnapshotRead := []
  responses : List SnapshotResponse := []

inductive SnapshotEvent
  | log (record : AgentRecord)
  | drain
  | openFile
  | writePart (bytes : ℕ)
  | writeRecord
  | writeFails
  | tick
  | openJournal
  | publish (event : AgentTurnEvent)
  | dispatch
  /-- Another session takes the place in the cache. -/
  | evict
  | startRead
  | await (i : ℕ)
  | takeState (i : ℕ)
  | stat (i : ℕ)
  | read (i : ℕ)
  | respond (i : ℕ)

/-! ### Steps -/

/-- `SNAPSHOT_MESSAGE_PAGE_SIZE` -/
def snapshotMessagePageSize : ℕ := 100

/-- The messages of a transcript. -/
def buildMessages (sessionId : String) (records : List AgentRecord) : List ProtocolMessage :=
  protocolMessages sessionId
    ((reduceWireRecords records).transcript.map fun entry => (entry.message, entry.turnId))

def buildResponse (sessionId : String) (state : SessionSnapshotState)
    (records : List AgentRecord) : SnapshotResponse :=
  let items := buildMessages sessionId records
  { asOfSeq := state.seq
    items :=
      if items.length > snapshotMessagePageSize then
        items.drop (items.length - snapshotMessagePageSize)
      else items
    hasMore := decide (items.length > snapshotMessagePageSize)
    inFlightTurn := state.inFlightTurn
    records := records }

variable (size : AgentRecord → ℕ) (sessionId : String)

/-- The size of the file. -/
def WireFile.bytes (file : WireFile) : ℕ := (file.records.map size).sum + file.torn

namespace SnapshotRun

/-- A session whose log is in the file, and the journal as it was opened. -/
def start (records : List AgentRecord) (seq : ℕ) : SnapshotRun where
  log := records
  file := if records = [] then none else some { records := records, mtime := 0 }
  seq := seq

def setRead (s : SnapshotRun) (i : ℕ) (read : SnapshotRead) : SnapshotRun :=
  { s with reads := s.reads.set i read }

/-- The transcript in the cache, if the file has its size and its time. -/
def cached (s : SnapshotRun) (file : WireFile) : Option (List AgentRecord) :=
  match s.cache with
  | some entry =>
    if entry.size = file.bytes size ∧ entry.mtime = file.mtime then some entry.records else none
  | none => none

/-- `_dispatch` -/
def dispatchNext (s : SnapshotRun) (e : PublishedEvent) (queue : List PublishedEvent) :
    SnapshotRun :=
  let s := { s with
    queue := queue
    dispatched := s.dispatched + 1
    turn := InFlightTurnTracker.apply s.turn e.event }
  if e.event.isVolatile then s
  else
    { s with
      seq := s.seq + 1
      delivered := s.delivered ++ [(s.seq + 1, e)] }

def step (s : SnapshotRun) : SnapshotEvent → Option SnapshotRun
  | .log record =>
    if s.failed then none
    else some { s with
      log := s.log ++ [record]
      pendingRecords := s.pendingRecords ++ [record] }
  | .drain =>
    if s.batch = [] ∧ s.failed = false then
      some { s with
        batch := s.pendingRecords
        pendingRecords := [] }
    else none
  | .openFile =>
    if s.batch ≠ [] ∧ s.file = none then some { s with file := some { mtime := s.now } }
    else none
  | .writePart bytes =>
    match s.file, s.batch with
    | some file, record :: _ =>
      if file.torn < bytes ∧ bytes < size record then
        some { s with file := some { file with torn := bytes, mtime := s.now } }
      else none
    | _, _ => none
  | .writeRecord =>
    match s.file, s.batch with
    | some file, record :: batch =>
      if file.torn < size record then
        some { s with
          file := some { records := file.records ++ [record], torn := 0, mtime := s.now }
          batch := batch }
      else none
    | _, _ => none
  | .writeFails =>
    if s.batch ≠ [] then
      some { s with
        batch := []
        failed := true }
    else none
  | .tick => some { s with now := s.now + 1 }
  | .openJournal => some { s with ready := true }
  | .publish event =>
    some { s with
      queue := s.queue ++ [{ event := event, logged := s.log }]
      published := s.published + 1 }
  | .dispatch =>
    match s.ready, s.queue with
    | true, e :: queue => some (s.dispatchNext e queue)
    | _, _ => none
  | .evict => some { s with cache := none }
  | .startRead => some { s with reads := s.reads ++ [{}] }
  | .await i =>
    match s.reads[i]? with
    | some r =>
      if s.ready ∧ r.waitFor = none then
        some (s.setRead i { r with waitFor := some s.published })
      else none
    | none => none
  | .takeState i =>
    match s.reads[i]? with
    | some r =>
      match r.waitFor, r.state with
      | some n, none =>
        if n ≤ s.dispatched then
          some (s.setRead i { r with state := some {
            seq := s.seq
            inFlightTurn := s.turn
            logged := s.log } })
        else none
      | _, _ => none
    | none => none
  | .stat i =>
    match s.reads[i]? with
    | some r =>
      if r.transcript = .located then
        match s.file with
        | none => some { s.setRead i { r with transcript := .read [] } with cache := none }
        | some file =>
          match s.cached size file with
          | some records => some (s.setRead i { r with transcript := .read records })
          | none =>
            some { s.setRead i { r with
              transcript := .statted (file.bytes size) file.mtime } with cache := none }
      else none
    | none => none
  | .read i =>
    match s.reads[i]?, s.file with
    | some r, some file =>
      match r.transcript with
      | .statted bytes mtime =>
        some { s.setRead i { r with transcript := .read file.records } with
          cache := some {
            size := bytes
            mtime := mtime
            records := file.records } }
      | _ => none
    | _, _ => none
  | .respond i =>
    match s.reads[i]? with
    | some r =>
      match r.state, r.transcript with
      | some state, .read records =>
        some { s.setRead i { r with transcript := .responded } with
          responses := s.responses ++ [buildResponse sessionId state records] }
      | _, _ => none
    | none => none

/-! ### What is promised -/

/-- The number is taken, and the records that had been logged then are in the file. -/
def Caught (s : SnapshotRun) (r : SnapshotRead) : Prop :=
  ∃ state ∈ r.state, state.logged <+: (s.file.map WireFile.records).getD []

instance (s : SnapshotRun) (r : SnapshotRead) : Decidable (s.Caught r) :=
  inferInstanceAs (Decidable (∃ state ∈ r.state, _))

/-- **When the transcript is taken**, from the file or from the cache, the number is taken and the
records before it are written. -/
def Orderly (s : SnapshotRun) : SnapshotEvent → Prop
  | .stat i => ∀ r ∈ s.reads[i]?, (∀ file ∈ s.file, (s.cached size file).isSome = true) → s.Caught r
  | .read i => ∀ r ∈ s.reads[i]?, s.Caught r
  | _ => True

instance (s : SnapshotRun) (e : SnapshotEvent) : Decidable (s.Orderly size e) := by
  cases e <;> unfold Orderly <;> infer_instance

end SnapshotRun

/-- The messages on the pages before. -/
def SnapshotResponse.older (response : SnapshotResponse) : List ProtocolMessage :=
  let items := buildMessages sessionId response.records
  items.take (items.length - snapshotMessagePageSize)

/-- The snapshot has the message: among its items, or on a page before them, if it says that there
are more. -/
def SnapshotResponse.Has (response : SnapshotResponse) (m : ProtocolMessage) : Prop :=
  m ∈ response.items ∨ (response.hasMore = true ∧ m ∈ response.older sessionId)

namespace SnapshotRun

/-- **Snapshots have the messages of the events before them**: of each event whose number is not
behind that of the snapshot, every message that was complete when the event was published, unless it
is internal or something was undone since. -/
def Complete (s : SnapshotRun) : Prop :=
  ∀ response ∈ s.responses, ∀ entry ∈ s.delivered, entry.1 ≤ response.asOfSeq →
    ∀ (i : ℕ) (e : MutableEntry), (reduceWireRecords entry.2.logged).transcript[i]? = some e →
      e.ref ∉ (reduceWireRecords entry.2.logged).openRefs →
      isInternalTeamDirectMessage e.message = false →
      (∀ r ∈ response.records.drop entry.2.logged.length, r.isUndo = false) →
      ∃ m, response.Has sessionId m ∧ m.id = deriveMessageId sessionId i ∧ m.message = e.message

/-! ### The invariant -/

/-- What holds of a snapshot that is read. -/
structure ReadSound (s : SnapshotRun) (r : SnapshotRead) : Prop where
  state : ∀ state ∈ r.state, state.seq ≤ s.seq ∧ state.logged <+: s.log ∧
    ∀ entry ∈ s.delivered, entry.1 ≤ state.seq → entry.2.logged <+: state.logged
  statted : ∀ bytes mtime, r.transcript = .statted bytes mtime →
    ∃ file, s.file = some file ∧ bytes ≤ file.bytes size
  read : ∀ records, r.transcript = .read records →
    ∃ state, r.state = some state ∧ state.logged <+: records

structure Sound (s : SnapshotRun) : Prop where
  queue : ∀ e ∈ s.queue, e.logged <+: s.log
  delivered : ∀ entry ∈ s.delivered, entry.2.logged <+: s.log ∧ entry.1 ≤ s.seq
  cache : ∀ c ∈ s.cache, ∃ file, s.file = some file ∧ c.size ≤ file.bytes size ∧
    (c.size = file.bytes size → c.records = file.records)
  reads : ∀ r ∈ s.reads, s.ReadSound size r
  responses : ∀ response ∈ s.responses, response.asOfSeq ≤ s.seq ∧
    (∃ state, response = buildResponse sessionId state response.records) ∧
    ∀ entry ∈ s.delivered, entry.1 ≤ response.asOfSeq → entry.2.logged <+: response.records

variable {size sessionId} {s s' : SnapshotRun} {i : ℕ} {r : SnapshotRead}

/-- **A message that was complete is in the snapshot of a longer log.** -/
theorem buildResponse_has {state : SessionSnapshotState} {logged records : List AgentRecord}
    (hlogged : logged <+: records) {e : MutableEntry}
    (he : (reduceWireRecords logged).transcript[i]? = some e)
    (hclosed : e.ref ∉ (reduceWireRecords logged).openRefs)
    (hshown : isInternalTeamDirectMessage e.message = false)
    (hundo : ∀ r ∈ records.drop logged.length, r.isUndo = false) :
    ∃ m, (buildResponse sessionId state records).Has sessionId m ∧
      m.id = deriveMessageId sessionId i ∧ m.message = e.message := by
  obtain ⟨later, rfl⟩ := hlogged
  rw [drop_left] at hundo
  obtain ⟨e', he', -, -, hsame⟩ := (extends_reduceWireRecords hundo).entries i e he
  have hmessage := hsame hclosed
  obtain ⟨m, hmem, hid, heq⟩ : ∃ m ∈ buildMessages sessionId (logged ++ later),
      m.id = deriveMessageId sessionId i ∧ m.message = e.message := by
    refine ⟨⟨deriveMessageId sessionId i, sessionId, e'.message.role, e'.message, e'.turnId⟩, ?_,
      rfl, hmessage⟩
    refine mem_protocolMessages.2 ⟨i, (e'.message, e'.turnId), ?_, ?_, mem_singleton.2 rfl⟩
    · rw [getElem?_map, he']
      rfl
    · rw [hmessage]
      exact hshown
  refine ⟨m, ?_, hid, heq⟩
  by_cases hmore : (buildMessages sessionId (logged ++ later)).length > snapshotMessagePageSize
  · rw [← take_append_drop ((buildMessages sessionId (logged ++ later)).length -
      snapshotMessagePageSize) (buildMessages sessionId (logged ++ later))] at hmem
    rcases mem_append.1 hmem with holder | hitems
    · exact .inr ⟨decide_eq_true hmore, holder⟩
    · refine .inl ?_
      unfold buildResponse
      dsimp only
      rw [if_pos hmore]
      exact hitems
  · refine .inl ?_
    unfold buildResponse
    dsimp only
    rw [if_neg hmore]
    exact hmem

theorem Sound.complete (h : s.Sound size sessionId) : s.Complete sessionId := by
  intro response hresponse entry hentry hseq i e he hclosed hshown hundo
  obtain ⟨-, ⟨state, hbuild⟩, hlogged⟩ := h.responses response hresponse
  rw [hbuild]
  exact buildResponse_has (hlogged entry hentry hseq) he hclosed hshown hundo

/-! ### What a step leaves -/

/-- The log and the file grow, and events get numbers. -/
structure Before (size : AgentRecord → ℕ) (s s' : SnapshotRun) : Prop where
  log : s.log <+: s'.log
  seq : s.seq ≤ s'.seq
  delivered : ∀ entry ∈ s'.delivered, entry ∈ s.delivered ∨
    (s.seq < entry.1 ∧ entry.1 ≤ s'.seq ∧ entry.2.logged <+: s'.log)
  file : ∀ file, s.file = some file → ∃ file', s'.file = some file' ∧
    (file' = file ∨ file.bytes size < file'.bytes size)

theorem ReadSound.of_before (h : s.ReadSound size r) (hb : Before size s s') :
    s'.ReadSound size r where
  state := fun state hstate => by
    obtain ⟨hseq, hlogged, hdelivered⟩ := h.state state hstate
    refine ⟨Nat.le_trans hseq hb.seq, hlogged.trans hb.log, fun entry hentry hle => ?_⟩
    rcases hb.delivered entry hentry with hold | ⟨hnew, -, -⟩
    · exact hdelivered entry hold hle
    · omega
  statted := fun bytes mtime hstage => by
    obtain ⟨file, hfile, hle⟩ := h.statted bytes mtime hstage
    obtain ⟨file', hfile', hgrows⟩ := hb.file file hfile
    refine ⟨file', hfile', ?_⟩
    rcases hgrows with rfl | hlt
    · exact hle
    · omega
  read := h.read

/-- Records are logged and written, and events are published and dispatched. -/
theorem Sound.of_before (h : s.Sound size sessionId) (hb : Before size s s')
    (hqueue : ∀ e ∈ s'.queue, e.logged <+: s'.log) (hcache : ∀ c ∈ s'.cache, c ∈ s.cache)
    (hreads : s'.reads = s.reads) (hresponses : s'.responses = s.responses) :
    s'.Sound size sessionId where
  queue := hqueue
  delivered := fun entry hentry => by
    rcases hb.delivered entry hentry with hold | ⟨-, hle, hlogged⟩
    · obtain ⟨hlogged, hle⟩ := h.delivered entry hold
      exact ⟨hlogged.trans hb.log, Nat.le_trans hle hb.seq⟩
    · exact ⟨hlogged, hle⟩
  cache := fun c hc => by
    obtain ⟨file, hfile, hle, hfresh⟩ := h.cache c (hcache c hc)
    obtain ⟨file', hfile', hgrows⟩ := hb.file file hfile
    refine ⟨file', hfile', ?_⟩
    rcases hgrows with rfl | hlt
    · exact ⟨hle, hfresh⟩
    · exact ⟨by omega, fun heq => by omega⟩
  reads := fun r hr => (h.reads r (hreads ▸ hr)).of_before hb
  responses := fun response hresponse => by
    obtain ⟨hle, hbuild, hlogged⟩ := h.responses response (hresponses ▸ hresponse)
    refine ⟨Nat.le_trans hle hb.seq, hbuild, fun entry hentry hseq => ?_⟩
    rcases hb.delivered entry hentry with hold | ⟨hnew, -, -⟩
    · exact hlogged entry hold hseq
    · omega

theorem Sound.setRead (h : s.Sound size sessionId) (i : ℕ) (r' : SnapshotRead)
    (hr' : s.ReadSound size r') {cache : Option TranscriptCacheEntry}
    (hcache : ∀ c ∈ cache, ∃ file, s.file = some file ∧ c.size ≤ file.bytes size ∧
      (c.size = file.bytes size → c.records = file.records)) :
    ({ s.setRead i r' with cache := cache }).Sound size sessionId where
  queue := h.queue
  delivered := h.delivered
  cache := hcache
  reads := fun r hr => by
    rcases mem_or_eq_of_mem_set hr with hold | rfl
    · exact ⟨(h.reads r hold).state, (h.reads r hold).statted, (h.reads r hold).read⟩
    · exact ⟨hr'.state, hr'.statted, hr'.read⟩
  responses := h.responses

theorem Before.of_eq (hlog : s'.log = s.log) (hseq : s'.seq = s.seq)
    (hdelivered : s'.delivered = s.delivered) (hfile : ∀ file, s.file = some file →
      ∃ file', s'.file = some file' ∧ (file' = file ∨ file.bytes size < file'.bytes size)) :
    Before size s s' where
  log := hlog ▸ prefix_rfl
  seq := Nat.le_of_eq hseq.symm
  delivered := fun entry hentry => .inl (hdelivered ▸ hentry)
  file := hfile

theorem Sound.of_file (h : s.Sound size sessionId) (hlog : s'.log = s.log) (hseq : s'.seq = s.seq)
    (hdelivered : s'.delivered = s.delivered) (hqueue : s'.queue = s.queue)
    (hcache : ∀ c ∈ s'.cache, c ∈ s.cache) (hreads : s'.reads = s.reads)
    (hresponses : s'.responses = s.responses) (hfile : ∀ file, s.file = some file →
      ∃ file', s'.file = some file' ∧ (file' = file ∨ file.bytes size < file'.bytes size)) :
    s'.Sound size sessionId := by
  refine h.of_before (.of_eq hlog hseq hdelivered hfile) (fun e he => ?_) hcache hreads hresponses
  rw [hlog]
  exact h.queue e (hqueue ▸ he)

theorem bytes_writeRecord {file : WireFile} {record : AgentRecord} (h : file.torn < size record)
    (mtime : ℕ) : file.bytes size <
      (⟨file.records ++ [record], 0, mtime⟩ : WireFile).bytes size := by
  unfold WireFile.bytes
  rw [map_append, sum_append, map_singleton, sum_singleton]
  omega

/-- **An event gets its number.** -/
theorem Sound.dispatchNext (h : s.Sound size sessionId) {e : PublishedEvent}
    {queue : List PublishedEvent} (hqueue : s.queue = e :: queue) :
    (s.dispatchNext e queue).Sound size sessionId := by
  have hlogged : e.logged <+: s.log := h.queue e (hqueue ▸ (.head _))
  have hrest : ∀ e' ∈ queue, e'.logged <+: s.log := fun e' he' =>
    h.queue e' (hqueue ▸ .tail _ he')
  have hfile : ∀ file, s.file = some file → ∃ file', s.file = some file' ∧
      (file' = file ∨ file.bytes size < file'.bytes size) :=
    fun file hfile => ⟨file, hfile, .inl rfl⟩
  unfold SnapshotRun.dispatchNext
  split
  · exact h.of_before (.of_eq rfl rfl rfl hfile) hrest (fun c hc => hc) rfl rfl
  · refine h.of_before ⟨prefix_rfl, Nat.le_succ _, fun entry hentry => ?_, hfile⟩ hrest
      (fun c hc => hc) rfl rfl
    rcases mem_append.1 hentry with hold | hnew
    · exact .inl hold
    · obtain rfl := mem_singleton.1 hnew
      exact .inr ⟨Nat.lt_succ_self _, Nat.le_refl _, hlogged⟩

/-- **The number of a snapshot is taken**: every event that has one comes from the log. -/
theorem Sound.takeState (h : s.Sound size sessionId) (hr : s.ReadSound size r)
    (hlocated : r.state = none) :
    s.ReadSound size { r with state := some {
      seq := s.seq
      inFlightTurn := s.turn
      logged := s.log } } where
  state := fun state hstate => by
    cases hstate
    exact ⟨Nat.le_refl _, prefix_rfl, fun entry hentry _ => (h.delivered entry hentry).1⟩
  statted := hr.statted
  read := fun records hread => by
    obtain ⟨state, hstate, -⟩ := hr.read records hread
    rw [hlocated] at hstate
    cases hstate

theorem ReadSound.take (hr : s.ReadSound size r) {records : List AgentRecord}
    (hcaught : s.Caught r) (hfile : (s.file.map WireFile.records).getD [] = records) :
    s.ReadSound size { r with transcript := .read records } where
  state := hr.state
  statted := fun bytes mtime hstage => by cases hstage
  read := fun records' hread => by
    obtain ⟨state, hstate, hlogged⟩ := hcaught
    obtain rfl := TranscriptStage.read.inj hread
    exact ⟨state, hstate, hfile ▸ hlogged⟩

theorem Sound.cached (h : s.Sound size sessionId) {file : WireFile} {records : List AgentRecord}
    (hfile : s.file = some file) (hcached : s.cached size file = some records) :
    records = file.records := by
  unfold SnapshotRun.cached at hcached
  split at hcached
  · rename_i c hc
    split at hcached <;> cases hcached
    rename_i hsame
    obtain ⟨file', hfile', -, hfresh⟩ := h.cache c hc
    cases hfile.symm.trans hfile'
    exact hfresh hsame.1
  · cases hcached

variable {e : SnapshotEvent}

/-- **What every step preserves.** -/
theorem Sound.step (h : s.Sound size sessionId) (ho : s.Orderly size e)
    (hs : s.step size sessionId e = some s') : s'.Sound size sessionId := by
  have hsame : ∀ file, s.file = some file → ∃ file', s.file = some file' ∧
      (file' = file ∨ file.bytes size < file'.bytes size) :=
    fun file hfile => ⟨file, hfile, .inl rfl⟩
  cases e <;> simp only [SnapshotRun.step] at hs
  case log record =>
    split at hs <;> cases hs
    refine h.of_before ⟨prefix_append _ _, Nat.le_refl _, fun _ hentry => .inl hentry,
      hsame⟩ (fun e he => ?_) (fun c hc => hc) rfl rfl
    exact (h.queue e he).trans (prefix_append _ _)
  case drain =>
    split at hs <;> cases hs
    exact h.of_file rfl rfl rfl rfl (fun c hc => hc) rfl rfl hsame
  case openFile =>
    split at hs <;> cases hs
    rename_i hcond
    refine h.of_file rfl rfl rfl rfl (fun c hc => hc) rfl rfl fun file hfile => ?_
    rw [hcond.2] at hfile
    cases hfile
  case writePart bytes =>
    split at hs
    · rename_i file record batch hfile hbatch
      split at hs <;> cases hs
      rename_i hcond
      refine h.of_file rfl rfl rfl rfl (fun c hc => hc) rfl rfl fun file' hfile' => ?_
      cases hfile.symm.trans hfile'
      refine ⟨_, rfl, .inr ?_⟩
      unfold WireFile.bytes
      dsimp only
      omega
    · cases hs
  case writeRecord =>
    split at hs
    · rename_i file record batch hfile hbatch
      split at hs <;> cases hs
      rename_i hcond
      refine h.of_file rfl rfl rfl rfl (fun c hc => hc) rfl rfl fun file' hfile' => ?_
      cases hfile.symm.trans hfile'
      exact ⟨_, rfl, .inr (bytes_writeRecord hcond s.now)⟩
    · cases hs
  case writeFails =>
    split at hs <;> cases hs
    exact h.of_file rfl rfl rfl rfl (fun c hc => hc) rfl rfl hsame
  case tick | openJournal =>
    cases hs
    exact h.of_file rfl rfl rfl rfl (fun c hc => hc) rfl rfl hsame
  case publish event =>
    cases hs
    refine h.of_before (.of_eq rfl rfl rfl hsame) (fun e he => ?_) (fun c hc => hc) rfl rfl
    rcases mem_append.1 he with hold | hnew
    · exact h.queue e hold
    · obtain rfl := mem_singleton.1 hnew
      exact prefix_rfl
  case dispatch =>
    split at hs <;> cases hs
    rename_i e queue _ hqueue
    exact h.dispatchNext hqueue
  case evict =>
    cases hs
    exact h.of_file rfl rfl rfl rfl (fun c hc => by cases hc) rfl rfl hsame
  case startRead =>
    cases hs
    refine ⟨h.queue, h.delivered, h.cache, fun r hr => ?_, h.responses⟩
    rcases mem_append.1 hr with hold | hnew
    · exact ⟨(h.reads r hold).state, (h.reads r hold).statted, (h.reads r hold).read⟩
    · obtain rfl := mem_singleton.1 hnew
      exact ⟨fun state hstate => (by cases hstate), fun _ _ hstage => (by cases hstage),
        fun _ hread => (by cases hread)⟩
  case await i =>
    split at hs
    · rename_i r hi
      split at hs <;> cases hs
      have hr := h.reads r (mem_of_getElem? hi)
      exact h.setRead i { r with waitFor := some s.published }
        ⟨hr.state, hr.statted, hr.read⟩ h.cache
    · cases hs
  case takeState i =>
    split at hs
    · rename_i r hi
      split at hs
      · rename_i n _ hstate
        split at hs <;> cases hs
        exact h.setRead i _ (h.takeState (h.reads r (mem_of_getElem? hi)) hstate) h.cache
      · cases hs
    · cases hs
  case stat i =>
    split at hs
    · rename_i r hi
      have hr := h.reads r (mem_of_getElem? hi)
      split at hs
      · split at hs
        · rename_i hfile
          cases hs
          have hcaught := ho r hi fun file hmem => by
            rw [hfile] at hmem
            cases hmem
          refine h.setRead i _ (hr.take hcaught ?_) fun c hc => by cases hc
          rw [hfile]
          rfl
        · rename_i file hfile
          split at hs
          · rename_i records hcached
            cases hs
            have hcaught := ho r hi fun file' hmem => by
              cases hfile.symm.trans hmem
              rw [hcached]
              rfl
            refine h.setRead i _ (hr.take hcaught ?_) h.cache
            rw [hfile, h.cached hfile hcached]
            rfl
          · cases hs
            have hstatted : s.ReadSound size
                { r with transcript := .statted (file.bytes size) file.mtime } := by
              refine ⟨hr.state, fun bytes mtime hstage => ?_, fun _ hread => by cases hread⟩
              obtain ⟨rfl, -⟩ := TranscriptStage.statted.inj hstage
              exact ⟨file, hfile, Nat.le_refl _⟩
            exact h.setRead i _ hstatted fun c hc => by cases hc
      · cases hs
    · cases hs
  case read i =>
    split at hs
    · rename_i r file hi hfile
      split at hs <;> cases hs
      rename_i bytes mtime hstage
      have hr := h.reads r (mem_of_getElem? hi)
      refine h.setRead i _ (hr.take (ho r hi) ?_) fun c hc => ?_
      · rw [hfile]
        rfl
      · cases hc
        obtain ⟨file', hfile', hle⟩ := hr.statted bytes mtime hstage
        cases hfile.symm.trans hfile'
        exact ⟨file, hfile, hle, fun _ => rfl⟩
    · cases hs
  case respond i =>
    split at hs
    · rename_i r hi
      split at hs <;> cases hs
      rename_i state records hstate hread
      have hr := h.reads r (mem_of_getElem? hi)
      have hresponded : s.ReadSound size { r with transcript := .responded } :=
        ⟨hr.state, fun _ _ hstage => (by cases hstage), fun _ hread' => (by cases hread')⟩
      have hset := h.setRead i _ hresponded h.cache
      obtain ⟨hseq, -, hdelivered⟩ := hr.state state hstate
      obtain ⟨state', hstate', hlogged⟩ := hr.read records hread
      cases hstate.symm.trans hstate'
      refine ⟨hset.queue, hset.delivered, hset.cache, fun r' hr' => ?_,
        fun response hresponse => ?_⟩
      · exact ⟨(hset.reads r' hr').state, (hset.reads r' hr').statted, (hset.reads r' hr').read⟩
      · rcases mem_append.1 hresponse with hold | hnew
        · exact h.responses response hold
        · obtain rfl := mem_singleton.1 hnew
          exact ⟨hseq, ⟨state, rfl⟩, fun entry hentry hle =>
            (hdelivered entry hentry hle).trans hlogged⟩
    · cases hs

theorem Sound.start (records : List AgentRecord) (seq : ℕ) :
    (start records seq).Sound size sessionId where
  queue := fun e he => by cases he
  delivered := fun entry hentry => by cases hentry
  cache := fun c hc => by cases hc
  reads := fun r hr => by cases hr
  responses := fun response hresponse => by cases hresponse

/-! ### Runs -/

/-- **No message is missed.** In every run in which a snapshot takes its number first, and its
transcript when the records that were logged by then are written, the snapshot has every message
that was complete at an event up to its number. -/
theorem run_complete {records : List AgentRecord} {seq : ℕ} {l : List SnapshotEvent}
    (h : LibRun.Run (step size sessionId) (Orderly size) (start records seq) l s) :
    s.Complete sessionId :=
  (h.invariant (Sound.start records seq) fun _ _ _ ht ho hu => ht.step ho hu).complete

/-- What the user says. -/
def spoken : ContextMessage where
  role := .user
  content := [.text "go"]
  toolCalls := []
  origin := some ⟨.user, none⟩

/-- What the assistant answers. -/
def answered : ContextMessage where
  role := .assistant
  content := [.text "done"]
  toolCalls := []

/-- The records of a turn of one step. -/
def turnRecords : List AgentRecord :=
  [.appendMessage spoken, .appendLoopEvent (.stepBegin "step" "0"),
    .appendLoopEvent (.contentPart "step" (.text "done")), .appendLoopEvent (.stepEnd "step" none)]

/-- The turn: its records are logged, and its events are published. -/
def turnLogged : List SnapshotEvent :=
  [.log (.appendMessage spoken), .publish (.turnStarted 0),
    .log (.appendLoopEvent (.stepBegin "step" "0")), .publish (.stepStarted 0),
    .log (.appendLoopEvent (.contentPart "step" (.text "done"))),
    .log (.appendLoopEvent (.stepEnd "step" none)), .publish (.stepCompleted 0),
    .publish (.turnEnded 0)]

def journalCaughtUp : List SnapshotEvent :=
  [.openJournal, .dispatch, .dispatch, .dispatch, .dispatch]

/-- The records are written; a snapshot reads the file, and one takes what is in the cache. -/
theorem run_complete_example :
    ∃ s : SnapshotRun, s.responses.map (fun response => (response.asOfSeq, response.items.length)) =
      [(4, 2), (4, 2)] ∧ s.Complete "s" := by
  have hrun : ∃ s, LibRun.Run (step (fun _ => 1) "s") (Orderly fun _ => 1) (start [] 0)
      (turnLogged ++ [.drain, .openFile, .writeRecord, .writeRecord, .writeRecord, .writeRecord] ++
        journalCaughtUp ++ [.startRead, .await 0, .takeState 0, .stat 0, .read 0, .respond 0,
        .startRead, .await 1, .takeState 1, .stat 1, .respond 1]) s ∧
      s.responses.map (fun response => (response.asOfSeq, response.items.length)) =
        [(4, 2), (4, 2)] :=
    LibRun.exists_run (by decide +kernel) (by decide +kernel)
  obtain ⟨s, hs, hitems⟩ := hrun
  exact ⟨s, hitems, run_complete hs⟩

/-- **The message is in no part of the snapshot**: the event of its step has a number up to that of
the snapshot, the turn is over, and its records wait to be written. -/
theorem not_complete :
    ∃ s, LibRun.Run (step (fun _ => 1) "s") LibRun.always (start [] 0)
      (turnLogged ++ journalCaughtUp ++
        [.startRead, .await 0, .takeState 0, .stat 0, .respond 0]) s ∧
      ((s.responses = [⟨4, [], false, none, []⟩] ∧
        (3, ⟨.stepCompleted 0, turnRecords⟩) ∈ s.delivered) ∧ ¬ s.Complete "s") := by
  have hrun : ∃ s, LibRun.Run (step (fun _ => 1) "s") LibRun.always (start [] 0)
      (turnLogged ++ journalCaughtUp ++
        [.startRead, .await 0, .takeState 0, .stat 0, .respond 0]) s ∧
      (s.responses = [⟨4, [], false, none, []⟩] ∧
        (3, ⟨.stepCompleted 0, turnRecords⟩) ∈ s.delivered) :=
    LibRun.exists_run (by decide +kernel) (LibRun.legal_always _ _)
  obtain ⟨s, hs, hresponses, hdelivered⟩ := hrun
  refine ⟨s, hs, ⟨hresponses, hdelivered⟩, fun hcomplete => ?_⟩
  have hlast : ⟨4, [], false, none, []⟩ ∈ s.responses := by
    rw [hresponses]
    exact (.head _)
  have hentry : (reduceWireRecords turnRecords).transcript[1]? =
      some { message := answered, turnId := some "0", ref := 1 } := by
    decide +kernel
  obtain ⟨m, hhas, -, -⟩ := hcomplete _ hlast _ hdelivered (by decide) 1 _ hentry
    (by decide +kernel) (by decide +kernel) (fun r hr => by cases hr)
  rcases hhas with hitem | ⟨hmore, -⟩
  · cases hitem
  · cases hmore

end SnapshotRun

end NoriCode
