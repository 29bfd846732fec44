/-
**The event journal of a session, across crashes.**

A durable event gets the next number of the journal's incarnation, its epoch, and is sent to the
clients at once.  Its line is written behind that: a flush takes the lines that wait, and one that
fails is only logged.  A server that starts reads the journal: the epoch from the first header, and
the highest number among the lines that can be read.  So the numbers of lines that were lost are
given again.

The module embeds `open`, `nextSeq`, `append`, `readSince`, `flush` and `flushOnce` of
`sessionEventJournal.ts` and the part of `wsBroadcastService.ts` that gives out and replays events.
A line is what the reader makes of it; a line that was broken off and the one written behind it are
one line that cannot be read.  No epoch is made twice, and a journal that is there can be opened.

Main definitions:

* `JournalFile`, `JournalServer`, `JournalRun` — the file, a server and
  all events so far, with `step`;
* `JournalRun.Keeps` — no write fails and no crash loses a line, but for a journal of which
  nothing has been written;
* `JournalRun.Serves` — every number names one event, and replays are exact.

Main results:

* `run_serves` — **replays are exact**, in every such run.
-/

import NoriCode.LibRun
import NoriCode.SessionBroadcast

namespace NoriCode

open LibRun List Option

/-! ### The file -/

/-- A line, as `parseJournalLine` reads it. -/
inductive JournalLine
  | header (epoch : String)
  | event (envelope : EventEnvelope)
  | corrupt

/-- What is there of the line behind the complete ones. -/
inductive JournalCut
  | nothing
  | part
  /-- All but its line feed. -/
  | line
  deriving DecidableEq

/-- A journal: the lines up to the last line feed, and what follows it. -/
structure JournalFile where
  lines : List JournalLine := []
  rest : Option JournalLine := none

namespace JournalFile

/-- What `readLines` reads. -/
def read (file : JournalFile) : List JournalLine := file.lines ++ file.rest.toList

def envelopeOf? : JournalLine → Option EventEnvelope
  | .event envelope => some envelope
  | _ => none

def epochOf? : JournalLine → Option String
  | .header epoch => some epoch
  | _ => none

def entries (file : JournalFile) : List EventEnvelope := file.read.filterMap envelopeOf?

/-- The epoch of the first header. -/
def epoch? (file : JournalFile) : Option String := file.read.findSome? epochOf?

/-- `appendFile`: the first line is put behind what follows the last line feed. -/
def append (file : JournalFile) : List JournalLine → JournalFile
  | [] => file
  | line :: batch =>
    { lines := file.lines ++ (if file.rest.isSome then .corrupt else line) :: batch
      rest := none }

/-- An `appendFile` of which some lines arrive, and a part of the next one. -/
def appendTorn (file : JournalFile) (batch : List JournalLine) (lines : ℕ) (cut : JournalCut) :
    JournalFile :=
  let file' := file.append (batch.take lines)
  match batch[lines]?, cut with
  | none, _ => file'
  | some _, .nothing => file'
  | some _, .part => { file' with rest := some .corrupt }
  | some line, .line => { file' with rest := some (if file'.rest.isSome then .corrupt else line) }

end JournalFile

/-! ### The server -/

/-- The journal of a server that runs, and the tail of the session. -/
structure JournalServer where
  epoch : String
  seq : ℕ
  headerPending : Bool
  pendingLines : List EventEnvelope := []
  /-- The lines of the flush under way. -/
  flushing : Option (List JournalLine) := none
  tail : List EventEnvelope := []

namespace JournalServer

/-- `SessionEventJournal.open`; `fresh` is the epoch that is made if the file has none. -/
def opened (file : JournalFile) (fresh : String) : JournalServer :=
  match file.epoch? with
  | some epoch =>
    { epoch := epoch
      seq := (SessionEventJournal.opened epoch file.entries).seq
      headerPending := false }
  | none =>
    { epoch := fresh
      seq := 0
      headerPending := true }

/-- The lines that wait. -/
def queued (server : JournalServer) : List JournalLine :=
  (if server.headerPending then [.header server.epoch] else []) ++
    server.pendingLines.map .event

/-- `flushOnce` takes all lines that wait. -/
def flushOnce (server : JournalServer) : JournalServer :=
  { server with
    headerPending := false
    pendingLines := []
    flushing := some server.queued }

/-- The envelope of the next durable event. -/
def nextEnvelope (server : JournalServer) (event : SessionEvent) : EventEnvelope :=
  ⟨server.seq + 1, server.epoch, false, event⟩

/-- A durable event gets its number, its line and its place in the tail. -/
def dispatch (server : JournalServer) (event : SessionEvent) : JournalServer :=
  let envelope := server.nextEnvelope event
  let tail := server.tail ++ [envelope]
  { server with
    seq := server.seq + 1
    pendingLines := server.pendingLines ++ [envelope]
    tail := tail.drop (tail.length - DEFAULT_MAX_BUFFER_SIZE) }

def scheduleFlush (server : JournalServer) : JournalServer :=
  if server.flushing.isSome = true then server else server.flushOnce

/-- What a replay is computed from. -/
def withEntries (server : JournalServer) (entries : List EventEnvelope) : BroadcastState where
  journal :=
    { epoch := server.epoch
      seq := server.seq
      entries := entries }
  tail := server.tail

end JournalServer

/-- The file, the server if one runs, all durable events so far and all epochs that were made. -/
structure JournalRun where
  file : JournalFile := {}
  server : Option JournalServer := none
  given : List EventEnvelope := []
  epochs : List String := []

/-- What can happen next. -/
inductive JournalEvent
  /-- A server starts, with the epoch that `ulid` would make. -/
  | start (fresh : String)
  | publish (event : SessionEvent)
  /-- A replay waits for the lines. -/
  | flush
  | flushed
  /-- The write fails behind some lines and a part of the next one, which is logged. -/
  | failed (lines : ℕ) (cut : JournalCut)
  /-- The server stops; of a write under way, so much is in the file. -/
  | crash (lines : ℕ) (cut : JournalCut)

namespace JournalRun

/-- The durable events of an epoch. -/
def givenIn (s : JournalRun) (epoch : String) : List EventEnvelope :=
  s.given.filter fun envelope => envelope.epoch = epoch

def step (s : JournalRun) : JournalEvent → Option JournalRun
  | .start fresh =>
    if s.server.isSome = true ∨ (s.file.epoch? = none ∧ fresh ∈ s.epochs) then none
    else some { s with
      server := some (JournalServer.opened s.file fresh)
      epochs := (JournalServer.opened s.file fresh).epoch :: s.epochs }
  | .publish event => s.server.map fun server =>
    if isVolatileEventType event.type then s
    else { s with
      server := some (server.dispatch event).scheduleFlush
      given := s.given ++ [server.nextEnvelope event] }
  | .flush => s.server.bind fun server =>
    if server.flushing.isSome = true ∨ server.pendingLines = [] then none
    else some { s with server := some server.flushOnce }
  | .flushed => s.server.bind fun server => server.flushing.map fun batch =>
    { s with
      file := s.file.append batch
      server := some { server with flushing := none } }
  | .failed lines cut => s.server.bind fun server => server.flushing.map fun batch =>
    { s with
      file := s.file.appendTorn batch lines cut
      server := some { server with flushing := none } }
  | .crash lines cut => s.server.map fun server =>
    { s with
      file := s.file.appendTorn (server.flushing.getD []) lines cut
      server := none }

/-- **The condition**: a write that fails and a crash leave all lines that were appended complete;
a crash may also come before anything of the journal is written. -/
def Keeps (s : JournalRun) : JournalEvent → Prop
  | .failed lines _ => ∀ server ∈ s.server, ∀ batch ∈ server.flushing, batch.length ≤ lines
  | .crash lines cut => ∀ server ∈ s.server,
      server.pendingLines = [] ∧ (server.flushing.getD []).length ≤ lines ∨
        s.file.read = [] ∧ (server.flushing = none ∨ lines = 0 ∧ cut = .nothing)
  | _ => True

instance (s : JournalRun) (e : JournalEvent) : Decidable (s.Keeps e) := by
  cases e <;> unfold Keeps <;> infer_instance

/-- What a replay answers; one that does not find all in the tail waits until all lines are
flushed. -/
def answer (s : JournalRun) (server : JournalServer) (cursor : SessionCursor)
    (agentIds : Option (List String)) (failureOnly : Bool) : Option BufferedSinceResult :=
  if (server.tail.head?.any fun e => decide (e.seq ≤ cursor.seq + 1)) = true ∨
      server.flushing = none ∧ server.pendingLines = [] then
    some (getBufferedSince (server.withEntries s.file.entries) cursor agentIds failureOnly)
  else none

/-- The events of an epoch are numbered from 1 on, and for a cursor of any epoch a replay demands a
resync or has exactly its events behind the cursor, in order, as far as the filters of the client
let them pass. -/
structure Serves (s : JournalRun) : Prop where
  numbered : ∀ epoch, (s.givenIn epoch).map (·.seq) = List.range' 1 (s.givenIn epoch).length
  replay : ∀ server, s.server = some server → ∀ epoch seq agentIds failureOnly result,
    s.answer server ⟨seq, some epoch⟩ agentIds failureOnly = some result →
      result.resyncRequired.isSome = true ∨
        result.events = filterReplayEvents (s.givenIn epoch) seq agentIds failureOnly

/-! ### Replays -/

theorem filterReplayEvents_congr {l l' : List EventEnvelope} {seq : ℕ}
    (h : l.filter (fun e => decide (e.seq > seq)) = l'.filter fun e => decide (e.seq > seq))
    (agentIds : Option (List String)) (failureOnly : Bool) :
    filterReplayEvents l seq agentIds failureOnly =
      filterReplayEvents l' seq agentIds failureOnly := by
  have hafter : l.filter (fun e =>
      decide (e.seq > seq) && (!failureOnly || isGlobalFailureEnvelope e)) =
        l'.filter fun e => decide (e.seq > seq) && (!failureOnly || isGlobalFailureEnvelope e) := by
    have hsplit : ∀ m : List EventEnvelope, m.filter (fun e =>
        decide (e.seq > seq) && (!failureOnly || isGlobalFailureEnvelope e)) =
          (m.filter fun e => decide (e.seq > seq)).filter fun e =>
            !failureOnly || isGlobalFailureEnvelope e := by
      intro m
      rw [List.filter_filter]
      exact List.filter_congr fun e _ => Bool.and_comm _ _
    rw [hsplit, hsplit, h]
  simp [filterReplayEvents, hafter]

/-- **A replay over the whole journal.** -/
theorem getBufferedSince_events {s : BroadcastState} (h : JournalTail s)
    (hsorted : s.journal.entries.Pairwise fun a b => a.seq < b.seq) (cursor : SessionCursor)
    (agentIds : Option (List String)) (failureOnly : Bool) :
    (getBufferedSince s cursor agentIds failureOnly).resyncRequired.isSome = true ∨
      (getBufferedSince s cursor agentIds failureOnly).events =
        filterReplayEvents s.journal.entries cursor.seq agentIds failureOnly := by
  simp only [getBufferedSince]
  by_cases hepoch : (cursor.epoch.any fun epoch => epoch != s.journal.epoch) = true
  · rw [if_pos hepoch]
    exact Or.inl rfl
  rw [if_neg hepoch]
  by_cases hrange : cursor.seq > s.journal.seq ∨
      s.journal.seq - cursor.seq > DEFAULT_MAX_BUFFER_SIZE
  · rw [if_pos hrange]
    exact Or.inl rfl
  rw [if_neg hrange]
  right
  by_cases hequal : cursor.seq = s.journal.seq
  · -- nothing is behind the cursor
    rw [if_pos hequal]
    have hnone : s.journal.entries.filter (fun e => decide (e.seq > cursor.seq)) = [] := by
      refine List.filter_eq_nil_iff.2 fun e he => ?_
      have hbound := h.bound e he
      simp only [decide_eq_true_eq]
      omega
    rw [filterReplayEvents_congr (hnone.trans List.filter_nil.symm)]
    cases agentIds <;> rfl
  · rw [if_neg hequal]
    refine filterReplayEvents_congr ?_ agentIds failureOnly
    rw [entriesSince]
    split_ifs with hreach
    · exact h.filter_tail hreach
    · -- the file is read, and all that is behind the cursor is within the limit
      have hlength : (s.journal.entries.filter fun e => decide (e.seq > cursor.seq)).length ≤
          s.journal.seq - cursor.seq := by
        refine length_le_of_sorted (hsorted.sublist List.filter_sublist) fun e he => ?_
        obtain ⟨hmem, hlt⟩ := List.mem_filter.1 he
        exact ⟨of_decide_eq_true hlt, h.bound e hmem⟩
      rw [SessionEventJournal.readSince, List.take_of_length_le (by omega), List.filter_filter]
      simp

theorem getBufferedSince_withEntries {server : JournalServer} {cursor : SessionCursor}
    (h : (server.tail.head?.any fun e => decide (e.seq ≤ cursor.seq + 1)) = true)
    (entries entries' : List EventEnvelope) (agentIds : Option (List String)) (failureOnly : Bool) :
    getBufferedSince (server.withEntries entries) cursor agentIds failureOnly =
      getBufferedSince (server.withEntries entries') cursor agentIds failureOnly := by
  have hsince : ∀ l, entriesSince (server.withEntries l) cursor.seq = server.tail :=
    fun l => if_pos h
  simp only [getBufferedSince, hsince]
  rfl

/-! ### The file, while no line is broken off -/

section File

variable {file : JournalFile}

theorem lines_append (h : file.rest = none) (batch : List JournalLine) :
    (file.append batch).lines = file.lines ++ batch ∧ (file.append batch).rest = none := by
  cases batch with
  | nil => exact ⟨(append_nil _).symm, h⟩
  | cons line batch => simp [JournalFile.append, h]

theorem appendTorn_complete {batch : List JournalLine} {lines : ℕ} (h : batch.length ≤ lines)
    (cut : JournalCut) : file.appendTorn batch lines cut = file.append batch := by
  simp only [JournalFile.appendTorn, getElem?_eq_none h, take_of_length_le h]

theorem appendTorn_nothing (batch : List JournalLine) :
    file.appendTorn batch 0 .nothing = file := by
  cases batch <;> rfl

theorem read_eq_lines (h : file.rest = none) : file.read = file.lines := by
  simp [JournalFile.read, h]

theorem filterMap_event (l : List EventEnvelope) :
    (l.map JournalLine.event).filterMap JournalFile.envelopeOf? = l := by
  rw [filterMap_map]
  exact filterMap_some

end File

/-! ### The invariant -/

/-- **What a server knows**: all events of its epoch, behind the header, are in the file, in the
flush under way or among the lines that wait. -/
structure Running (s : JournalRun) (server : JournalServer) : Prop where
  known : server.epoch ∈ s.epochs
  lines : s.file.lines ++ server.flushing.getD [] ++ server.queued =
    .header server.epoch :: (s.givenIn server.epoch).map .event
  seq : server.seq = (s.givenIn server.epoch).length
  tail : JournalTail (server.withEntries (s.givenIn server.epoch))

/-- **The invariant.** -/
structure Sound (s : JournalRun) : Prop where
  numbered : ∀ epoch, (s.givenIn epoch).map (·.seq) = List.range' 1 (s.givenIn epoch).length
  known : ∀ envelope ∈ s.given, envelope.epoch ∈ s.epochs
  rest : s.file.rest = none
  stopped : s.server = none → s.file.lines = [] ∨ ∃ epoch ∈ s.epochs,
    s.file.lines = .header epoch :: (s.givenIn epoch).map .event
  running : ∀ server, s.server = some server → s.Running server

variable {s s' : JournalRun} {server : JournalServer} {event : SessionEvent}

theorem Sound.sorted (h : s.Sound) (epoch : String) :
    (s.givenIn epoch).Pairwise fun a b => a.seq < b.seq := by
  have hrange : ((s.givenIn epoch).map (·.seq)).Pairwise (· < ·) := by
    rw [h.numbered]
    exact pairwise_lt_range'
  exact pairwise_map.1 hrange

theorem Sound.entries (h : s.Sound) (hserver : s.server = some server)
    (hflushing : server.flushing = none) (hpending : server.pendingLines = []) :
    s.file.entries = s.givenIn server.epoch := by
  have hlines := congrArg (filterMap JournalFile.envelopeOf?) (h.running server hserver).lines
  have hqueued : server.queued.filterMap JournalFile.envelopeOf? = [] := by
    unfold JournalServer.queued
    rw [hpending]
    split <;> rfl
  rw [hflushing, getD_none, append_nil, filterMap_append, hqueued, append_nil] at hlines
  rw [JournalFile.entries, read_eq_lines h.rest]
  exact hlines.trans (filterMap_event _)

theorem Sound.serves (h : s.Sound) : s.Serves where
  numbered := h.numbered
  replay := by
    intro server hserver epoch seq agentIds failureOnly result hresult
    have hrunning := h.running server hserver
    rw [answer] at hresult
    split_ifs at hresult with hready
    cases hresult
    have hview : getBufferedSince (server.withEntries s.file.entries) ⟨seq, some epoch⟩ agentIds
        failureOnly =
          getBufferedSince (server.withEntries (s.givenIn server.epoch)) ⟨seq, some epoch⟩
          agentIds failureOnly := by
      rcases hready with hreach | ⟨hflushing, hpending⟩
      · exact getBufferedSince_withEntries hreach _ _ agentIds failureOnly
      · rw [h.entries hserver hflushing hpending]
    rw [hview]
    by_cases hepoch : epoch = server.epoch
    · subst hepoch
      exact getBufferedSince_events hrunning.tail (h.sorted _) _ agentIds failureOnly
    · -- the cursor is one of another incarnation
      left
      have hother : ((some epoch).any fun epoch => epoch != server.epoch) = true := by
        simpa using hepoch
      simp only [getBufferedSince]
      split
      · rfl
      · rename_i hsame
        exact absurd hother hsame

/-! ### What a step keeps -/

theorem Running.flushOnce (h : s.Running server) (hflushing : server.flushing = none) :
    s.Running server.flushOnce where
  known := h.known
  lines := by
    have hlines := h.lines
    rw [hflushing, getD_none, append_nil] at hlines
    change s.file.lines ++ server.queued ++ [] = _
    rw [append_nil]
    exact hlines
  seq := h.seq
  tail := h.tail

theorem Running.scheduleFlush (h : s.Running server) : s.Running server.scheduleFlush := by
  unfold JournalServer.scheduleFlush
  split
  · exact h
  · rename_i hflushing
    exact h.flushOnce (not_isSome_iff_eq_none.1 hflushing)

theorem givenIn_append (hgiven : s'.given = s.given ++ [server.nextEnvelope event])
    (epoch : String) : s'.givenIn epoch = if epoch = server.epoch then
      s.givenIn epoch ++ [server.nextEnvelope event] else s.givenIn epoch := by
  rw [givenIn, hgiven, filter_append, givenIn]
  by_cases hepoch : epoch = server.epoch
  · subst hepoch
    simp [JournalServer.nextEnvelope]
  · simp [JournalServer.nextEnvelope, hepoch, Ne.symm hepoch]

theorem Running.dispatch (h : s.Running server)
    (hdurable : isVolatileEventType event.type = false) (hfile : s'.file = s.file)
    (hepochs : s'.epochs = s.epochs)
    (hgiven : s'.given = s.given ++ [server.nextEnvelope event]) :
    s'.Running (server.dispatch event) := by
  have hin : s'.givenIn server.epoch = s.givenIn server.epoch ++ [server.nextEnvelope event] :=
    (givenIn_append hgiven server.epoch).trans (if_pos rfl)
  refine ⟨hepochs ▸ h.known, ?_, ?_, ?_⟩
  · have hqueued : (server.dispatch event).queued =
        server.queued ++ [.event (server.nextEnvelope event)] := by
      simp [JournalServer.queued, JournalServer.dispatch]
    change s'.file.lines ++ server.flushing.getD [] ++ (server.dispatch event).queued =
      .header server.epoch :: (s'.givenIn server.epoch).map .event
    rw [hfile, hqueued, hin, ← append_assoc, h.lines, map_append]
    rfl
  · change server.seq + 1 = (s'.givenIn server.epoch).length
    rw [hin, length_append, h.seq]
    rfl
  · have hdispatch : (server.dispatch event).withEntries (s'.givenIn server.epoch) =
        NoriCode.dispatch (server.withEntries (s.givenIn server.epoch)) event := by
      rw [hin]
      simp [NoriCode.dispatch, envelopeOf, hdurable, JournalServer.withEntries,
        JournalServer.dispatch, JournalServer.nextEnvelope]
    change JournalTail ((server.dispatch event).withEntries (s'.givenIn server.epoch))
    rw [hdispatch]
    exact h.tail.dispatch event

section

variable (h : s.Sound) (hserver : s.server = some server)

include h hserver

theorem Sound.publish (hdurable : isVolatileEventType event.type = false) :
    Sound { s with
      server := some (server.dispatch event).scheduleFlush
      given := s.given ++ [server.nextEnvelope event] } where
  numbered := by
    intro epoch
    rw [givenIn_append rfl]
    by_cases hepoch : epoch = server.epoch
    · subst hepoch
      rw [if_pos rfl, map_append, h.numbered, length_append,
        ← (h.running server hserver).seq, length_singleton, range'_1_concat,
        Nat.add_comm 1]
      rfl
    · rw [if_neg hepoch]
      exact h.numbered epoch
  known := by
    intro envelope henvelope
    rcases mem_append.1 henvelope with hold | hnew
    · exact h.known envelope hold
    · rw [mem_singleton.1 hnew]
      exact (h.running server hserver).known
  rest := h.rest
  stopped := fun hnone => by cases hnone
  running := by
    intro server' hserver'
    cases hserver'
    refine Running.scheduleFlush ?_
    exact (h.running server hserver).dispatch hdurable rfl rfl rfl

theorem Sound.flushOnce (hflushing : server.flushing = none) :
    Sound { s with server := some server.flushOnce } where
  numbered := h.numbered
  known := h.known
  rest := h.rest
  stopped := fun hnone => by cases hnone
  running := by
    intro server' hserver'
    cases hserver'
    have hflushed := (h.running server hserver).flushOnce hflushing
    exact ⟨hflushed.known, hflushed.lines, hflushed.seq, hflushed.tail⟩

theorem Sound.flushed {batch : List JournalLine} (hflushing : server.flushing = some batch) :
    Sound { s with
      file := s.file.append batch
      server := some { server with flushing := none } } where
  numbered := h.numbered
  known := h.known
  rest := (lines_append h.rest batch).2
  stopped := fun hnone => by cases hnone
  running := by
    intro server' hserver'
    cases hserver'
    have hrunning := h.running server hserver
    refine ⟨hrunning.known, ?_, hrunning.seq, hrunning.tail⟩
    have hlines := hrunning.lines
    rw [hflushing, getD_some] at hlines
    change (s.file.append batch).lines ++ [] ++ server.queued = _
    rw [(lines_append h.rest batch).1, append_nil]
    exact hlines

theorem Sound.crash_flushed (hpending : server.pendingLines = []) :
    Sound { s with
      file := s.file.append (server.flushing.getD [])
      server := none } where
  numbered := h.numbered
  known := h.known
  rest := (lines_append h.rest _).2
  stopped := by
    intro _
    have hrunning := h.running server hserver
    have hlines := hrunning.lines
    rw [← (lines_append h.rest (server.flushing.getD [])).1] at hlines
    unfold JournalServer.queued at hlines
    rw [hpending, map_nil, append_nil] at hlines
    split at hlines
    · -- a header that waits is the only line
      left
      rcases eq_nil_or_concat (s.givenIn server.epoch) with hnil | ⟨init, last, hlast⟩
      · rw [hnil] at hlines
        exact (append_eq_singleton_iff.1 hlines).elim And.left fun h => by cases h.2
      · exfalso
        rw [hlast, concat_eq_append, map_append, ← cons_append] at hlines
        cases (List.cons.inj (append_inj' hlines rfl).2).1
    · rw [append_nil] at hlines
      exact Or.inr ⟨server.epoch, hrunning.known, hlines⟩
  running := fun server' hserver' => by cases hserver'

end

theorem Sound.crash_unwritten (h : s.Sound) (hread : s.file.read = []) :
    Sound { s with server := none } where
  numbered := h.numbered
  known := h.known
  rest := h.rest
  stopped := fun _ => Or.inl ((read_eq_lines h.rest).symm.trans hread)
  running := fun server' hserver' => by cases hserver'

theorem seq_opened {epoch : String} {l : List EventEnvelope}
    (h : l.map (·.seq) = range' 1 l.length) :
    (SessionEventJournal.opened epoch l).seq = l.length := by
  have hmax : ∀ n : ℕ, (range' 1 n).foldl max 0 = n := by
    intro n
    induction n with
    | zero => rfl
    | succ n ih =>
      rw [range'_1_concat, foldl_append, ih]
      change max n (1 + n) = n + 1
      omega
  have hfold : (SessionEventJournal.opened epoch l).seq = (l.map (·.seq)).foldl max 0 :=
    foldl_map.symm
  rw [hfold, h, hmax]

/-- **A server starts**: on a journal from which nothing is missing, or on none. -/
theorem Sound.start (h : s.Sound) {fresh : String} (hserver : s.server = none)
    (hfresh : ¬(s.file.epoch? = none ∧ fresh ∈ s.epochs)) :
    Sound { s with
      server := some (JournalServer.opened s.file fresh)
      epochs := (JournalServer.opened s.file fresh).epoch :: s.epochs } where
  numbered := h.numbered
  known := fun envelope henvelope => .tail _ (h.known envelope henvelope)
  rest := h.rest
  stopped := fun hnone => by cases hnone
  running := by
    intro server' hserver'
    cases hserver'
    rcases h.stopped hserver with hempty | ⟨epoch, hepoch, hlines⟩
    · have hnone : s.file.epoch? = none := by
        rw [JournalFile.epoch?, read_eq_lines h.rest, hempty]
        rfl
      have hopened : JournalServer.opened s.file fresh = ⟨fresh, 0, true, [], none, []⟩ := by
        rw [JournalServer.opened, hnone]
      have hgiven : s.givenIn fresh = [] := by
        refine filter_eq_nil_iff.2 fun envelope henvelope heq => hfresh ⟨hnone, ?_⟩
        exact of_decide_eq_true heq ▸ h.known envelope henvelope
      rw [hopened]
      refine ⟨(.head _), ?_, ?_, ?_⟩
      · change s.file.lines ++ [] ++ [JournalLine.header fresh] =
          .header fresh :: (s.givenIn fresh).map .event
        rw [hempty, hgiven]
        rfl
      · change 0 = (s.givenIn fresh).length
        rw [hgiven]
        rfl
      · change JournalTail ⟨⟨fresh, 0, s.givenIn fresh⟩, []⟩
        rw [hgiven]
        exact JournalTail.opened fresh []
    · have hsome : s.file.epoch? = some epoch := by
        rw [JournalFile.epoch?, read_eq_lines h.rest, hlines]
        rfl
      have hentries : s.file.entries = s.givenIn epoch := by
        rw [JournalFile.entries, read_eq_lines h.rest, hlines]
        exact filterMap_event _
      have hseq : (SessionEventJournal.opened epoch (s.givenIn epoch)).seq =
          (s.givenIn epoch).length := seq_opened (h.numbered epoch)
      have hopened : JournalServer.opened s.file fresh =
          ⟨epoch, (s.givenIn epoch).length, false, [], none, []⟩ := by
        rw [JournalServer.opened, hsome, hentries, ← hseq]
      rw [hopened]
      refine ⟨(.head _), ?_, rfl, ?_⟩
      · change s.file.lines ++ [] ++ [] = .header epoch :: (s.givenIn epoch).map .event
        rw [append_nil, append_nil, hlines]
      · change JournalTail ⟨⟨epoch, (s.givenIn epoch).length, s.givenIn epoch⟩, []⟩
        rw [← hseq]
        exact JournalTail.opened epoch (s.givenIn epoch)

/-- **What every step preserves.** -/
theorem Sound.step {e : JournalEvent} (h : s.Sound) (hkeeps : s.Keeps e)
    (hs : s.step e = some s') : s'.Sound := by
  cases e with
  | start fresh =>
    simp only [JournalRun.step] at hs
    split at hs <;> cases hs
    rename_i hnot
    obtain ⟨hserver, hfresh⟩ := not_or.1 hnot
    exact h.start (not_isSome_iff_eq_none.1 hserver) hfresh
  | publish event =>
    obtain ⟨server, hserver, hs⟩ := map_eq_some_iff.1 hs
    split at hs
    · exact hs ▸ h
    · rename_i hdurable
      obtain rfl := hs
      exact h.publish hserver (Bool.eq_false_iff.2 hdurable)
  | flush =>
    obtain ⟨server, hserver, hs⟩ := bind_eq_some_iff.1 hs
    split at hs <;> cases hs
    rename_i hnot
    exact h.flushOnce hserver (not_isSome_iff_eq_none.1 (not_or.1 hnot).1)
  | flushed =>
    obtain ⟨server, hserver, hs⟩ := bind_eq_some_iff.1 hs
    obtain ⟨batch, hflushing, rfl⟩ := map_eq_some_iff.1 hs
    exact h.flushed hserver hflushing
  | failed lines cut =>
    obtain ⟨server, hserver, hs⟩ := bind_eq_some_iff.1 hs
    obtain ⟨batch, hflushing, rfl⟩ := map_eq_some_iff.1 hs
    rw [appendTorn_complete (hkeeps server hserver batch hflushing)]
    exact h.flushed hserver hflushing
  | crash lines cut =>
    obtain ⟨server, hserver, rfl⟩ := map_eq_some_iff.1 hs
    rcases hkeeps server hserver with ⟨hpending, hcomplete⟩ | ⟨hread, hnothing⟩
    · rw [appendTorn_complete hcomplete]
      exact h.crash_flushed hserver hpending
    · have hfile : s.file.appendTorn (server.flushing.getD []) lines cut = s.file := by
        rcases hnothing with hnone | ⟨rfl, rfl⟩
        · rw [hnone, getD_none, appendTorn_complete (Nat.zero_le _)]
          rfl
        · exact appendTorn_nothing _
      rw [hfile]
      exact h.crash_unwritten hread

theorem Sound.initial : Sound {} where
  numbered := fun _ => rfl
  known := fun _ hmem => absurd hmem not_mem_nil
  rest := rfl
  stopped := fun _ => Or.inl rfl
  running := fun _ hserver => by cases hserver

end JournalRun

/-- **Replays are exact.** As long as failed writes and crashes lose no line of a journal of which
something has been written, in every state the events of an epoch are numbered from 1 on, and a
replay for any cursor demands a resync or has exactly the events behind it. -/
theorem run_serves {l : List JournalEvent} {s : JournalRun}
    (h : Run JournalRun.step JournalRun.Keeps {} l s) : s.Serves := by
  have hsound : s.Sound :=
    h.invariant (I := JournalRun.Sound) JournalRun.Sound.initial
      fun _ _ _ ht hkeeps hs => ht.step hkeeps hs
  exact hsound.serves

/-- A turn that starts. -/
def startedTurn : SessionEvent where
  type := "turn.started"
  agentId := "main"

/-- A server that stops before its first write, and another one that starts twice. -/
theorem run_serves_restarts : ∃ s, Run JournalRun.step JournalRun.Keeps {}
    [.start "ep1", .publish startedTurn, .crash 0 .nothing, .start "ep2", .publish startedTurn,
      .flushed, .publish startedTurn, .flushed, .crash 0 .nothing, .start "ep3",
      .publish startedTurn] s ∧ s.Serves := by
  have hrun : ∃ s, Run JournalRun.step JournalRun.Keeps {}
      [.start "ep1", .publish startedTurn, .crash 0 .nothing, .start "ep2", .publish startedTurn,
        .flushed, .publish startedTurn, .flushed, .crash 0 .nothing, .start "ep3",
        .publish startedTurn] s ∧ (s.givenIn "ep2").length = 3 :=
    exists_run (by decide +kernel) (by decide +kernel)
  obtain ⟨s, hs, -⟩ := hrun
  exact ⟨s, hs, run_serves hs⟩

/-- **Two events with one number.** An event is sent to the clients and lost in a crash, and the
next one gets its number again, in the same epoch. -/
theorem not_run_serves : ¬ ∀ (l : List JournalEvent) (s : JournalRun),
    Run JournalRun.step always {} l s → s.Serves := by
  intro h
  have hrun : ∃ s, Run JournalRun.step always {}
      [.start "ep1", .publish startedTurn, .flushed, .publish startedTurn, .crash 0 .nothing,
        .start "ep2", .publish startedTurn] s ∧
      (s.givenIn "ep1").map (·.seq) = [1, 2, 2] :=
    exists_run (by decide +kernel) (legal_always _ _)
  obtain ⟨s, hs, hseqs⟩ := hrun
  have hnumbered := (h _ s hs).numbered "ep1"
  have hlength := congrArg List.length hseqs
  rw [List.length_map] at hlength
  rw [hseqs, hlength] at hnumbered
  exact absurd hnumbered (by decide)

end NoriCode
