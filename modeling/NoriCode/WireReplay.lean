/-
**Replaying the wire log.**

A start reads the log line by line.  The first record names the version, every record is migrated,
a metadata record is stamped with the current version, and the record is restored into the agent.
A line that is not JSON is an error, but what follows the last line feed may be torn and is left
out then.  When everything was replayed and the version was not the current one, the migrated
records are written over the log.

The agent is a parameter: the state it starts with and what restoring a record makes of it.

Main definitions:

* `readPiece` — a line as a record;
* `WireAgent` — the agent that is restored;
* `AgentRecords.replay` — **a start**;
* `restoreAll`, `WireAgent.rebuild` — the state that records rebuild.

Main results:

* `AgentRecords.replay_spec` — what a start has restored;
* `AgentRecords.replayFrom_isPrefix`, `AgentRecords.replayFrom_readRecords` — the replay of a log of
  the current version.
-/

import NoriCode.WireMigrations
import NoriCode.LibLines

namespace NoriCode

open LibJson List Option
open LibLines (pieces)

/-! ### Lines -/

/-- The record of a line: an empty line is none, and a line that is not JSON is an error unless the
line may be truncated. -/
def parseRecordLine (line : List Char) (allowTruncated : Bool) : Option (Option Json) :=
  if line = [] then some none
  else
    match parse line with
    | some record => some (some record)
    | none => if allowTruncated then some none else none

/-- A line without its line feed and a carriage return before it; only what follows the last line
feed may be truncated. -/
def readPiece (piece : List Char) : Option (Option Json) :=
  if piece.getLast? = some '\n' then
    if piece.dropLast.getLast? = some '\r' then parseRecordLine piece.dropLast.dropLast false
    else parseRecordLine piece.dropLast false
  else parseRecordLine piece true

/-- The records of those lines that have one. -/
def readRecords (lines : List (List Char)) : List Json :=
  lines.filterMap fun line => (readPiece line).join

/-! ### Replay -/

/-- The agent that is restored: its first state, what a record makes of a state and whether the
replay stops there, the end of a replay, and the media that are read back from the blob store. -/
structure WireAgent (σ : Type) where
  initial : σ
  restore : σ → Json → Option (σ × Bool)
  finishReplay : σ → σ
  rehydrate : σ → σ
  blobStore : Option BlobStore

/-- What the first record says. -/
structure OpenedLog where
  migrations : List WireMigration
  shouldRewrite : Bool
  warning : Option String

def newerVersionWarning (readVersion : List Char) : String :=
  "Session wire protocol version " ++ String.ofList readVersion ++
    " is newer than the current version " ++ AGENT_WIRE_PROTOCOL_VERSION ++
    ". Records will be replayed without migration."

/-- The first record has to be metadata. -/
def openLog (record : Json) : Option OpenedLog := do
  let type ← member (some record) "type"
  if !isString type "metadata" then none
  else
    match ← member (some record) "protocol_version" with
    | some (.str readVersion) =>
      if isNewerWireVersion readVersion then
        return {
          migrations := []
          shouldRewrite := false
          warning := some (newerVersionWarning readVersion) }
      else
        let migrations ← resolveWireMigrations readVersion
        return {
          migrations := migrations
          shouldRewrite := decide (readVersion ≠ AGENT_WIRE_PROTOCOL_VERSION.toList)
          warning := none }
    | _ => none

/-- A replay: the agent, the migrated records, whether all were read, and what the first one
said. -/
structure ReplayResult (σ : Type) where
  state : σ
  records : List Json
  completed : Bool
  opened : Option OpenedLog

variable {σ : Type} (agent : WireAgent σ)

/-- The lines from a place on; the migrations are known from the first record on. -/
def AgentRecords.replayFrom : Option OpenedLog → σ → List (List Char) → Option (ReplayResult σ)
  | opened, state, [] => some ⟨state, [], true, opened⟩
  | opened, state, line :: lines => do
      match ← readPiece line with
      | none => AgentRecords.replayFrom opened state lines
      | some record =>
        let log ← opened.or (openLog record)
        let migrated ← migrateWireRecord record log.migrations
        let migrated ← stampVersion migrated
        let (state, stop) ← agent.restore state migrated
        if stop then return ⟨state, [migrated], false, some log⟩
        else
          let result ← AgentRecords.replayFrom (some log) state lines
          return { result with records := migrated :: result.records }

/-- The end of a replay in which all records were read. -/
def WireAgent.finish (state : σ) : σ :=
  match agent.blobStore with
  | none => agent.finishReplay state
  | some _ => agent.rehydrate (agent.finishReplay state)

/-- **A start of the agent from the text of its log.** -/
def AgentRecords.replay (text : List Char) : Option (ReplayResult σ) := do
  let result ← AgentRecords.replayFrom agent none agent.initial (pieces '\n' text)
  return { result with
    state := if result.completed then agent.finish result.state else result.state }

/-- Whether the log is written anew. -/
def ReplayResult.shouldRewrite (result : ReplayResult σ) : Bool :=
  result.completed && result.opened.any OpenedLog.shouldRewrite

/-! ### What records rebuild -/

/-- The state after the records, and whether all of them were restored. -/
def restoreAll : σ → List Json → Option (σ × Bool)
  | state, [] => some (state, true)
  | state, record :: records => do
      let (state, stop) ← agent.restore state record
      if stop then return (state, false) else restoreAll state records

/-- **The state that records rebuild.** -/
def WireAgent.rebuild (records : List Json) : Option (σ × Bool) :=
  (restoreAll agent agent.initial records).map fun p =>
    (if p.2 then agent.finish p.1 else p.1, p.2)

variable {agent}

variable {record : Json} {log : OpenedLog}

/-- What the first record says is known once a record was read; it is metadata. -/
theorem openLog_metadata (h : openLog record = some log) : IsMetadata record := by
  obtain ⟨type, htype, h⟩ := bind_eq_some_iff.1 h
  cases record with
  | obj fields =>
    cases htype
    split at h
    · cases h
    · rename_i hmetadata
      exact ⟨fields, rfl, by simpa using hmetadata⟩
  | null => cases htype
  | bool | num | str | arr => obtain rfl := some.inj htype; cases h

theorem openLog_migrations (h : openLog record = some log) :
    ∀ m ∈ log.migrations, m ∈ MIGRATIONS := by
  obtain ⟨type, htype, h⟩ := bind_eq_some_iff.1 h
  split at h
  · cases h
  · obtain ⟨version, hversion, h⟩ := bind_eq_some_iff.1 h
    split at h
    case h_2 => cases h
    case h_1 =>
      split at h
      · cases h
        exact fun m hm => absurd hm not_mem_nil
      · obtain ⟨migrations, hmigrations, h⟩ := bind_eq_some_iff.1 h
        cases h
        exact resolveWireMigrations_mem hmigrations

theorem compareWireVersions_current :
    compareWireVersions AGENT_WIRE_PROTOCOL_VERSION.toList AGENT_WIRE_PROTOCOL_VERSION.toList =
      some 0 := by
  decide +kernel

/-- A log that starts with stamped metadata needs no migrations and is not written anew. -/
theorem openLog_stamped (hstamped : Stamped record) (h : IsMetadata record) :
    openLog record = some ⟨[], false, none⟩ := by
  obtain ⟨fields, rfl, htype⟩ := h
  have hversion := hstamped.version htype
  simp [openLog, member, htype, hversion, isNewerWireVersion, resolveWireMigrations,
    compareWireVersions_current]

theorem stampVersion_metadata {record' : Json} (h : IsMetadata record)
    (hstamp : stampVersion record = some record') : IsMetadata record' := by
  obtain ⟨fields, rfl, htype⟩ := h
  simp only [stampVersion, member, Option.bind_eq_bind, Option.bind_some, htype, if_true,
    Option.pure_def] at hstamp
  cases hstamp
  refine ⟨_, rfl, ?_⟩
  rw [lookupField_withField_ne (by decide), htype]

/-! ### What a start has restored -/

variable {opened : Option OpenedLog} {state : σ} {lines : List (List Char)}
    {result : ReplayResult σ}

theorem AgentRecords.replayFrom_restores
 (h : AgentRecords.replayFrom agent opened state lines = some result) :
    restoreAll agent state result.records = some (result.state, result.completed) ∧
      ∀ record ∈ result.records, Stamped record := by
  induction lines generalizing opened state result with
  | nil =>
    cases h
    exact ⟨rfl, fun record hr => absurd hr not_mem_nil⟩
  | cons line lines ih =>
    rw [AgentRecords.replayFrom] at h
    obtain ⟨read, hread, h⟩ := bind_eq_some_iff.1 h
    cases read with
    | none => exact ih h
    | some record =>
      obtain ⟨log, hlog, h⟩ := bind_eq_some_iff.1 h
      obtain ⟨migrated, hmigrated, h⟩ := bind_eq_some_iff.1 h
      obtain ⟨stamped, hstamped, h⟩ := bind_eq_some_iff.1 h
      obtain ⟨⟨state', stop⟩, hrestore, h⟩ := bind_eq_some_iff.1 h
      dsimp only at h
      split_ifs at h with hstop
      · cases h
        refine ⟨?_, fun r hr => ?_⟩
        · simp [restoreAll, hrestore, hstop]
        · rw [mem_singleton.1 hr]
          exact stampVersion_stamped hstamped
      · obtain ⟨rest, hrest, h⟩ := bind_eq_some_iff.1 h
        cases h
        obtain ⟨hrestored, hall⟩ := ih hrest
        refine ⟨?_, fun r hr => ?_⟩
        · simp [restoreAll, hrestore, hstop, hrestored]
        · cases mem_cons.1 hr with
          | inl hr => exact hr ▸ stampVersion_stamped hstamped
          | inr hr => exact hall r hr

theorem AgentRecords.replayFrom_first
    (h : AgentRecords.replayFrom agent none state lines = some result)
    (hopened : result.opened.isSome) :
    ∃ first rest, result.records = first :: rest ∧ IsMetadata first := by
  induction lines with
  | nil =>
    cases h
    cases hopened
  | cons line lines ih =>
    rw [AgentRecords.replayFrom] at h
    obtain ⟨read, hread, h⟩ := bind_eq_some_iff.1 h
    cases read with
    | none => exact ih h
    | some record =>
      obtain ⟨log, hlog, h⟩ := bind_eq_some_iff.1 h
      obtain ⟨migrated, hmigrated, h⟩ := bind_eq_some_iff.1 h
      obtain ⟨stamped, hstamped, h⟩ := bind_eq_some_iff.1 h
      obtain ⟨⟨state', stop⟩, hrestore, h⟩ := bind_eq_some_iff.1 h
      have hmetadata := openLog_metadata hlog
      rw [migrateWireRecord_metadata (openLog_migrations hlog) hmetadata] at hmigrated
      rw [← some.inj hmigrated] at hstamped
      have hfirst := stampVersion_metadata hmetadata hstamped
      dsimp only at h
      split_ifs at h with hstop
      · cases h
        exact ⟨stamped, [], rfl, hfirst⟩
      · obtain ⟨rest, hrest, h⟩ := bind_eq_some_iff.1 h
        cases h
        exact ⟨stamped, rest.records, rfl, hfirst⟩

/-- **What a start has restored**: the state is the one that its records rebuild, these say the
current version, and the first one is metadata if the log is written anew. -/
theorem AgentRecords.replay_spec {text : List Char}
    (h : AgentRecords.replay agent text = some result) :
    agent.rebuild result.records = some (result.state, result.completed) ∧
      (∀ record ∈ result.records, Stamped record) ∧
      (result.opened.isSome → ∃ first rest, result.records = first :: rest ∧ IsMetadata first) := by
  obtain ⟨inner, hinner, hval⟩ := bind_eq_some_iff.1 h
  cases hval
  obtain ⟨hrestored, hstamped⟩ := AgentRecords.replayFrom_restores hinner
  have hfirst : inner.opened.isSome → _ := AgentRecords.replayFrom_first hinner
  refine ⟨?_, hstamped, hfirst⟩
  simp [WireAgent.rebuild, hrestored]

/-! ### Logs of the current version -/

theorem Stamped.migrations (hstamped : Stamped record)
    (h : openLog record = some log) : log.migrations = [] := by
  rw [openLog_stamped hstamped (openLog_metadata h)] at h
  cases h
  rfl

theorem AgentRecords.replayFrom_isPrefix
 (hopened : ∀ log ∈ opened, log.migrations = [])
    (hlines : ∀ record ∈ readRecords lines, Stamped record)
    (h : AgentRecords.replayFrom agent opened state lines = some result) :
    result.records <+: readRecords lines := by
  induction lines generalizing opened state result with
  | nil =>
    cases h
    exact prefix_rfl
  | cons line lines ih =>
    rw [AgentRecords.replayFrom] at h
    obtain ⟨read, hread, h⟩ := bind_eq_some_iff.1 h
    cases read with
    | none =>
      have hrecords : readRecords (line :: lines) = readRecords lines := by
        simp [readRecords, hread]
      rw [hrecords] at hlines ⊢
      exact ih hopened hlines h
    | some record =>
      have hrecords : readRecords (line :: lines) = record :: readRecords lines := by
        simp [readRecords, hread]
      rw [hrecords] at hlines ⊢
      have hrecord := hlines record (.head _)
      obtain ⟨log, hlog, h⟩ := bind_eq_some_iff.1 h
      obtain ⟨migrated, hmigrated, h⟩ := bind_eq_some_iff.1 h
      obtain ⟨stamped, hstamped, h⟩ := bind_eq_some_iff.1 h
      obtain ⟨⟨state', stop⟩, hrestore, h⟩ := bind_eq_some_iff.1 h
      have hmigrations : log.migrations = [] := by
        cases opened with
        | some log' => exact some.inj hlog ▸ hopened log' rfl
        | none => exact hrecord.migrations hlog
      rw [hmigrations] at hmigrated
      cases hmigrated
      cases hrecord.symm.trans hstamped
      dsimp only at h
      split_ifs at h with hstop
      · cases h
        exact ⟨readRecords lines, rfl⟩
      · obtain ⟨rest, hrest, h⟩ := bind_eq_some_iff.1 h
        cases h
        exact cons_prefix_cons.2 ⟨rfl, ih (fun l hl => some.inj hl ▸ hmigrations)
          (fun r hr => hlines r (.tail _ hr)) hrest⟩

/-- A log of which every line is read is replayed as far as its records can be restored. -/
theorem AgentRecords.replayFrom_readRecords {state' : σ}
    (hopened : ∀ log ∈ opened, log.migrations = [])
    (hfirst : opened = none → ∃ first rest, readRecords lines = first :: rest ∧ IsMetadata first)
    (hread : ∀ line ∈ lines, (readPiece line).isSome)
    (hlines : ∀ record ∈ readRecords lines, Stamped record)
    (h : restoreAll agent state (readRecords lines) = some (state', true)) :
    ∃ log, AgentRecords.replayFrom agent opened state lines =
      some ⟨state', readRecords lines, true, log⟩ := by
  induction lines generalizing opened state with
  | nil =>
    obtain ⟨rfl, -⟩ := Prod.mk.inj (some.inj h)
    exact ⟨opened, rfl⟩
  | cons line lines ih =>
    obtain ⟨read, hline⟩ := isSome_iff_exists.1 (hread line (.head _))
    have hrest := fun l hl => hread l (mem_cons_of_mem line hl)
    rw [AgentRecords.replayFrom, hline]
    cases read with
    | none =>
      have hrecords : readRecords (line :: lines) = readRecords lines := by
        simp [readRecords, hline]
      rw [hrecords] at hfirst hlines h ⊢
      exact ih hopened hfirst hrest hlines h
    | some record =>
      have hrecords : readRecords (line :: lines) = record :: readRecords lines := by
        simp [readRecords, hline]
      rw [hrecords] at hfirst hlines h ⊢
      have hrecord : stampVersion record = some record := hlines record (.head _)
      have hlog : ∃ log, opened.or (openLog record) = some log ∧ log.migrations = [] := by
        cases opened with
        | some log => exact ⟨log, rfl, hopened log rfl⟩
        | none =>
          obtain ⟨first, rest, hcons, hmetadata⟩ := hfirst rfl
          rw [← (List.cons.inj hcons).1] at hmetadata
          exact ⟨_, openLog_stamped hrecord hmetadata, rfl⟩
      obtain ⟨log, hlog, hmigrations⟩ := hlog
      obtain ⟨⟨next, stop⟩, hrestore, h⟩ := bind_eq_some_iff.1 h
      dsimp only at h
      split_ifs at h with hstop
      · cases (Prod.mk.inj (some.inj h)).2
      obtain ⟨log', hnext⟩ := ih (fun l hl => some.inj hl ▸ hmigrations) (fun hnone => by
        cases hnone) hrest (fun r hr => hlines r (.tail _ hr)) h
      refine ⟨log', ?_⟩
      simp [hlog, hmigrations, migrateWireRecord, hrecord, hrestore, hstop, hnext]

end NoriCode
