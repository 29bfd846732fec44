/-
**The events of a session and its clients.**

A durable event of a session gets the next number of the session's journal, is appended to the
journal and to a tail kept in memory, and is sent to the connections whose filters let it pass.  A
client that comes back with the number it has seen last is sent the events behind it, read from the
tail if that reaches back far enough and from the journal otherwise, through a filter of its own.

The module embeds `services/gateway/wsBroadcastService.ts`, `readSince` of `sessionEventJournal.ts`
and the agent filter of `ws/connection.ts`.  Every line of the journal is taken to be written.  The
time of an envelope, the offset of a volatile frame and the payload that no filter reads are left
out.

Main definitions:

* `SessionEvent`, `EventEnvelope`, `BroadcastState` — events and the
  state;
* `dispatch`, `WsConnection.receives` — the live fan-out;
* `getBufferedSince`, `filterReplayEvents` — the replay.

Main results:

* `mem_replay_iff` — what a served replay sends;
* `replay_complete_iff` — **when a client that comes back misses nothing**.
-/

import NoriCode.JsText

namespace NoriCode

open List

/-! ### Events -/

/-- An event of a session, as far as the filters read it. -/
structure SessionEvent where
  type : String
  agentId : String
  reason : Option String := none
  isError : Option Bool := none
  deriving DecidableEq

def VOLATILE_EVENT_TYPES : List String :=
  ["assistant.delta", "thinking.delta", "tool.call.delta", "tool.progress", "shell.output",
    "shell.started", "agent.status.updated"]

def isVolatileEventType (type : String) : Bool := VOLATILE_EVENT_TYPES.contains type

/-- Events of the shared state of a session. -/
def isSessionWideEvent (type : String) : Bool :=
  type == "discussion.updated" || type == "team.chat.updated"

def isGlobalSessionEvent (type : String) : Bool :=
  type == "error" || type == "event.session.created" || type == "event.session.status_changed" ||
    type == "session.meta.updated" || type == "event.config.changed" ||
    type == "event.model_catalog.changed" || type == "event.workspace.created" ||
    type == "event.workspace.updated" || type == "event.workspace.deleted" ||
    type == "event.approval.requested" || type == "event.approval.resolved"

def isFailedTurnEvent (event : SessionEvent) : Bool :=
  event.type == "turn.ended" && event.reason == some "failed"

def isToolFailureEvent (event : SessionEvent) : Bool :=
  event.type == "tool.result" && event.isError == some true

def isFailureEvent (event : SessionEvent) : Bool :=
  if event.type = "error" then true
  else if event.type = "turn.ended" then isFailedTurnEvent event
  else if event.type = "tool.result" then event.isError == some true
  else false

structure EventEnvelope where
  seq : ℕ
  epoch : String
  isVolatile : Bool := false
  payload : SessionEvent
  deriving DecidableEq

/-- `isGlobalFailureEnvelope`; the type of an envelope is that of its payload. -/
def isGlobalFailureEnvelope (envelope : EventEnvelope) : Bool :=
  if envelope.payload.type = "error" then true
  else if envelope.payload.type = "turn.ended" then envelope.payload.reason == some "failed"
  else if envelope.payload.type = "tool.result" then envelope.payload.isError == some true
  else false

/-! ### The journal -/

/-- A journal: its incarnation, the highest number given and the lines of the file. -/
structure SessionEventJournal where
  epoch : String
  seq : ℕ
  entries : List EventEnvelope

namespace SessionEventJournal

/-- The journal of a file that has been read. -/
def opened (epoch : String) (entries : List EventEnvelope) : SessionEventJournal where
  epoch := epoch
  seq := entries.foldl (fun lastSeq e => max lastSeq e.seq) 0
  entries := entries

def readSince (j : SessionEventJournal) (fromSeqExclusive limit : ℕ) : List EventEnvelope :=
  (j.entries.filter fun e => decide (e.seq > fromSeqExclusive)).take limit

end SessionEventJournal

def DEFAULT_MAX_BUFFER_SIZE : ℕ := 1000

structure BroadcastState where
  journal : SessionEventJournal
  tail : List EventEnvelope := []

/-! ### Live events -/

/-- A connection: whether it has subscribed to the session, and its filters. -/
structure WsConnection where
  subscribed : Bool
  agentIds : Option (List String)
  failureOnly : Bool

/-- A missing filter means every agent. -/
def WsConnection.acceptsAgentEvent (c : WsConnection) (agentId : String) : Bool :=
  match c.agentIds with
  | none => true
  | some agentIds => agentIds.contains agentId

/-- The connection is a target of the event, and no filter of it holds the event back. -/
def WsConnection.receives (c : WsConnection) (event : SessionEvent) : Bool :=
  let globalEvent :=
    isGlobalSessionEvent event.type || isFailedTurnEvent event || isToolFailureEvent event
  let ignoreAgentFilter := globalEvent || isSessionWideEvent event.type
  (globalEvent || c.subscribed) && !(c.failureOnly && !isFailureEvent event) &&
    (ignoreAgentFilter || c.acceptsAgentEvent event.agentId)

/-- The envelope an event gets. -/
def envelopeOf (s : BroadcastState) (event : SessionEvent) : EventEnvelope :=
  if isVolatileEventType event.type then ⟨s.journal.seq, s.journal.epoch, true, event⟩
  else ⟨s.journal.seq + 1, s.journal.epoch, false, event⟩

/-- The journal and the tail after an event: a volatile event leaves no trace. -/
def dispatch (s : BroadcastState) (event : SessionEvent) : BroadcastState :=
  if isVolatileEventType event.type then s
  else
    let envelope := envelopeOf s event
    let tail := s.tail ++ [envelope]
    { journal :=
        { s.journal with seq := s.journal.seq + 1, entries := s.journal.entries ++ [envelope] }
      tail := tail.drop (tail.length - DEFAULT_MAX_BUFFER_SIZE) }

/-- The state after events. -/
def dispatchAll (s : BroadcastState) (events : List SessionEvent) : BroadcastState :=
  events.foldl dispatch s

/-- What a connection is sent while events are dispatched. -/
def sentLive (c : WsConnection) : BroadcastState → List SessionEvent → List EventEnvelope
  | _, [] => []
  | s, event :: events =>
    (if c.receives event then [envelopeOf s event] else []) ++ sentLive c (dispatch s event) events

/-! ### Replay -/

structure SessionCursor where
  seq : ℕ
  epoch : Option String := none

inductive ResyncReason where
  | bufferOverflow
  | epochChanged
  deriving DecidableEq

structure BufferedSinceResult where
  events : List EventEnvelope
  resyncRequired : Option ResyncReason
  currentSeq : ℕ
  epoch : String
  deriving DecidableEq

def filterReplayEvents (entries : List EventEnvelope) (cursorSeq : ℕ)
    (agentIds : Option (List String)) (failureOnly : Bool) : List EventEnvelope :=
  let afterCursor := entries.filter fun entry =>
    decide (entry.seq > cursorSeq) && (!failureOnly || isGlobalFailureEnvelope entry)
  match agentIds with
  | none => afterCursor
  | some selected => afterCursor.filter fun entry =>
    selected.contains entry.payload.agentId || isSessionWideEvent entry.payload.type ||
      isGlobalFailureEnvelope entry

/-- The entries a replay reads: the tail, if it reaches back to the cursor. -/
def entriesSince (s : BroadcastState) (cursorSeq : ℕ) : List EventEnvelope :=
  if s.tail.head?.any fun e => decide (e.seq ≤ cursorSeq + 1) then s.tail
  else s.journal.readSince cursorSeq DEFAULT_MAX_BUFFER_SIZE

/-- **`getBufferedSince`.** -/
def getBufferedSince (s : BroadcastState) (cursor : SessionCursor)
    (agentIds : Option (List String)) (failureOnly : Bool) : BufferedSinceResult :=
  let currentSeq := s.journal.seq
  let epoch := s.journal.epoch
  if cursor.epoch.any (· != epoch) then ⟨[], some .epochChanged, currentSeq, epoch⟩
  else if cursor.seq > currentSeq ∨ currentSeq - cursor.seq > DEFAULT_MAX_BUFFER_SIZE then
    ⟨[], some (if cursor.seq > currentSeq then .epochChanged else .bufferOverflow), currentSeq,
      epoch⟩
  else if cursor.seq = currentSeq then ⟨[], none, currentSeq, epoch⟩
  else
    ⟨filterReplayEvents (entriesSince s cursor.seq) cursor.seq agentIds failureOnly, none,
      currentSeq, epoch⟩

/-! ### Envelopes -/

/-- The durable envelopes of events, in order. -/
def durableEnvelopes (s : BroadcastState) : List SessionEvent → List EventEnvelope
  | [] => []
  | event :: events =>
    (if isVolatileEventType event.type then [] else [envelopeOf s event]) ++
      durableEnvelopes (dispatch s event) events

section Envelopes

variable {s : BroadcastState}

theorem dispatch_of_volatile {event : SessionEvent} (h : isVolatileEventType event.type = true) :
    dispatch s event = s := by
  rw [dispatch, if_pos h]

theorem dispatchAll_append (s : BroadcastState) (before after : List SessionEvent) :
    dispatchAll s (before ++ after) = dispatchAll (dispatchAll s before) after :=
  foldl_append

theorem durableEnvelopes_append (before after : List SessionEvent) (s : BroadcastState) :
    durableEnvelopes s (before ++ after) =
      durableEnvelopes s before ++ durableEnvelopes (dispatchAll s before) after := by
  induction before generalizing s with
  | nil => rfl
  | cons event before ih =>
    rw [cons_append, durableEnvelopes, durableEnvelopes, ih, append_assoc]
    rfl

section

variable (events : List SessionEvent) (s : BroadcastState)

theorem entries_dispatchAll :
    (dispatchAll s events).journal.entries = s.journal.entries ++ durableEnvelopes s events := by
  induction events generalizing s with
  | nil => exact (append_nil _).symm
  | cons event events ih =>
    change (dispatchAll (dispatch s event) events).journal.entries = _
    rw [ih, durableEnvelopes]
    by_cases h : isVolatileEventType event.type = true
    · rw [dispatch_of_volatile h, if_pos h]
      rfl
    · rw [if_neg h, ← append_assoc]
      congr 1
      rw [dispatch, if_neg h]

theorem epoch_dispatchAll : (dispatchAll s events).journal.epoch = s.journal.epoch := by
  induction events generalizing s with
  | nil => rfl
  | cons event events ih =>
    change (dispatchAll (dispatch s event) events).journal.epoch = _
    rw [ih, dispatch]
    split_ifs <;> rfl

/-- The numbers of new envelopes: behind what there was, up to what there is, and increasing. -/
theorem seq_durableEnvelopes :
    s.journal.seq ≤ (dispatchAll s events).journal.seq ∧
      (∀ e ∈ durableEnvelopes s events,
        s.journal.seq < e.seq ∧ e.seq ≤ (dispatchAll s events).journal.seq) ∧
      (durableEnvelopes s events).Pairwise fun a b => a.seq < b.seq := by
  induction events generalizing s with
  | nil => exact ⟨Nat.le_refl _, fun e he => absurd he not_mem_nil, List.Pairwise.nil⟩
  | cons event events ih =>
    have hall : dispatchAll s (event :: events) = dispatchAll (dispatch s event) events := rfl
    obtain ⟨hle, hbounds, hsorted⟩ := ih (dispatch s event)
    rw [hall, durableEnvelopes]
    by_cases h : isVolatileEventType event.type = true
    · rw [dispatch_of_volatile h] at hle hbounds hsorted ⊢
      rw [if_pos h]
      exact ⟨hle, hbounds, hsorted⟩
    · have hseq : (dispatch s event).journal.seq = s.journal.seq + 1 := by
        rw [dispatch, if_neg h]
      have henvelope : (envelopeOf s event).seq = s.journal.seq + 1 := by
        rw [envelopeOf, if_neg h]
      rw [if_neg h]
      refine ⟨by omega, ?_, ?_⟩
      · intro e he
        rcases mem_cons.1 he with rfl | he
        · omega
        · have hbound := hbounds e he
          omega
      · refine pairwise_cons.2 ⟨fun e he => ?_, hsorted⟩
        have hbound := hbounds e he
        omega

theorem forall_durableEnvelopes {P : SessionEvent → Prop} :
    (∀ e ∈ durableEnvelopes s events, P e.payload) ↔
      ∀ event ∈ events, isVolatileEventType event.type = false → P event := by
  induction events generalizing s with
  | nil => simp [durableEnvelopes]
  | cons event events ih =>
    rw [durableEnvelopes, forall_mem_append, ih, forall_mem_cons]
    by_cases h : isVolatileEventType event.type = true
    · simp [h]
    · simp [h, envelopeOf]

end

theorem mem_sentLive_iff (c : WsConnection) (events : List SessionEvent) (s : BroadcastState)
    (e : EventEnvelope) :
    e ∈ sentLive c s events ∧ e.isVolatile = false ↔
      e ∈ durableEnvelopes s events ∧ c.receives e.payload = true := by
  induction events generalizing s with
  | nil => simp [sentLive, durableEnvelopes]
  | cons event events ih =>
    rw [sentLive, durableEnvelopes, mem_append, mem_append, or_and_right, or_and_right, ih]
    refine or_congr_left ?_
    constructor
    · rintro ⟨he, hdurable⟩
      split_ifs at he with hreceives
      · obtain rfl := mem_singleton.1 he
        by_cases h : isVolatileEventType event.type = true
        · rw [envelopeOf, if_pos h] at hdurable
          cases hdurable
        · rw [if_neg h]
          refine ⟨mem_singleton_self _, ?_⟩
          rw [envelopeOf, if_neg h]
          exact hreceives
      · cases he
    · rintro ⟨he, hreceives⟩
      split_ifs at he with h
      · cases he
      · obtain rfl := mem_singleton.1 he
        rw [envelopeOf, if_neg h] at hreceives ⊢
        rw [if_pos hreceives]
        exact ⟨mem_singleton_self _, rfl⟩

end Envelopes

/-! ### The tail and the journal -/

/-- **What the journal and the tail hold**: no number above the highest one given, and the tail is
the end of the journal, with smaller numbers in front of it. -/
structure JournalTail (s : BroadcastState) : Prop where
  bound : ∀ e ∈ s.journal.entries, e.seq ≤ s.journal.seq
  tail : ∃ front, s.journal.entries = front ++ s.tail ∧
    ∀ e ∈ front, ∀ first ∈ s.tail.head?, e.seq < first.seq
  sorted : s.tail.Pairwise fun a b => a.seq < b.seq

namespace JournalTail

variable {s : BroadcastState}

theorem opened (epoch : String) (entries : List EventEnvelope) :
    JournalTail { journal := .opened epoch entries } := by
  refine ⟨fun e he => ?_, ⟨entries, (append_nil _).symm, fun e _ first hfirst => ?_⟩,
    List.Pairwise.nil⟩
  · have hmax : ∀ (l : List EventEnvelope) (n : ℕ),
        n ≤ l.foldl (fun lastSeq e => max lastSeq e.seq) n ∧
          ∀ e ∈ l, e.seq ≤ l.foldl (fun lastSeq e => max lastSeq e.seq) n := by
      intro l
      induction l with
      | nil => exact fun n => ⟨Nat.le_refl n, fun e he => absurd he not_mem_nil⟩
      | cons a l ih =>
        intro n
        obtain ⟨hle, hall⟩ := ih (max n a.seq)
        refine ⟨(Nat.le_max_left _ _).trans hle, fun e he => ?_⟩
        rcases mem_cons.1 he with rfl | he
        · exact (Nat.le_max_right _ _).trans hle
        · exact hall e he
    exact (hmax entries 0).2 e he
  · cases hfirst

theorem dispatch (h : JournalTail s) (event : SessionEvent) : JournalTail (dispatch s event) := by
  unfold NoriCode.dispatch
  split_ifs with hvolatile
  · exact h
  · obtain ⟨front, hentries, hfront⟩ := h.tail
    have hseq : (envelopeOf s event).seq = s.journal.seq + 1 := by
      rw [envelopeOf, if_neg hvolatile]
    have htail : ∀ e ∈ s.tail, e.seq ≤ s.journal.seq := fun e he =>
      h.bound e (hentries ▸ mem_append_right _ he)
    have hsorted : (s.tail ++ [envelopeOf s event]).Pairwise fun a b => a.seq < b.seq := by
      refine pairwise_append.2 ⟨h.sorted, pairwise_singleton _ _, fun e he b hb => ?_⟩
      rw [mem_singleton.1 hb, hseq]
      have := htail e he
      omega
    generalize hdrop : (s.tail ++ [envelopeOf s event]).length - DEFAULT_MAX_BUFFER_SIZE = n
    have hsplit := take_append_drop n (s.tail ++ [envelopeOf s event])
    refine ⟨?_, ⟨front ++ (s.tail ++ [envelopeOf s event]).take n, ?_, ?_⟩, ?_⟩
    · refine forall_mem_append.2 ⟨fun e he => ?_, forall_mem_singleton.2 ?_⟩
      · have := h.bound e he
        change e.seq ≤ s.journal.seq + 1
        omega
      · exact Nat.le_of_eq hseq
    · change s.journal.entries ++ [envelopeOf s event] = _
      simp only [hdrop]
      rw [append_assoc, hsplit, hentries, append_assoc]
    · intro e he first hfirst
      simp only [hdrop] at hfirst
      have hmem : first ∈ (s.tail ++ [envelopeOf s event]).drop n := mem_of_mem_head? hfirst
      rcases mem_append.1 he with he | he
      · have hfirst' := (drop_sublist n _).mem hmem
        rcases mem_append.1 hfirst' with hfirst' | hfirst'
        · cases htl : s.tail with
          | nil =>
            rw [htl] at hfirst'
            cases hfirst'
          | cons a l =>
            have hlt := hfront e he a (by rw [htl]; rfl)
            rw [htl] at hfirst'
            rcases mem_cons.1 hfirst' with rfl | hfirst'
            · exact hlt
            · have hs := h.sorted
              rw [htl] at hs
              exact hlt.trans ((pairwise_cons.1 hs).1 first hfirst')
        · rw [mem_singleton.1 hfirst', hseq]
          have := h.bound e (hentries ▸ mem_append_left _ he)
          omega
      · rw [← hsplit] at hsorted
        exact (pairwise_append.1 hsorted).2.2 e he first hmem
    · simp only [hdrop]
      exact hsorted.sublist (drop_sublist n _)

theorem dispatchAll (h : JournalTail s) (events : List SessionEvent) :
    JournalTail (dispatchAll s events) := by
  induction events generalizing s with
  | nil => exact h
  | cons event events ih => exact ih (h.dispatch event)

/-- The tail, when it reaches back to the cursor, holds everything behind the cursor. -/
theorem filter_tail (h : JournalTail s) {cursorSeq : ℕ}
    (hreach : (s.tail.head?.any fun e => decide (e.seq ≤ cursorSeq + 1)) = true) :
    s.tail.filter (fun e => decide (e.seq > cursorSeq)) =
      s.journal.entries.filter fun e => decide (e.seq > cursorSeq) := by
  obtain ⟨front, hentries, hfront⟩ := h.tail
  obtain ⟨first, hfirst, hle⟩ := (Option.any_eq_true _ _).1 hreach
  have hle' : first.seq ≤ cursorSeq + 1 := of_decide_eq_true hle
  have hnone : front.filter (fun e => decide (e.seq > cursorSeq)) = [] := by
    refine filter_eq_nil_iff.2 fun e he => ?_
    have := hfront e he first hfirst
    simp only [decide_eq_true_eq]
    omega
  rw [hentries, filter_append, hnone, nil_append]

end JournalTail

/-- Increasing numbers behind `a` up to `b` are at most `b - a`. -/
theorem length_le_of_sorted {l : List EventEnvelope} (hsorted : l.Pairwise fun a b => a.seq < b.seq)
    {a b : ℕ} (hbounds : ∀ e ∈ l, a < e.seq ∧ e.seq ≤ b) : l.length ≤ b - a := by
  induction l generalizing a with
  | nil => exact Nat.zero_le _
  | cons e l ih =>
    obtain ⟨hfirst, hrest⟩ := pairwise_cons.1 hsorted
    obtain ⟨hlt, hle⟩ := hbounds e (.head _)
    have hlength := ih hrest (a := e.seq) fun x hx =>
      ⟨hfirst x hx, (hbounds x (.tail _ hx)).2⟩
    rw [length_cons]
    omega

/-! ### What a replay sends -/

/-- The replay lets an event pass. -/
def WsConnection.replays (c : WsConnection) (event : SessionEvent) : Bool :=
  (!c.failureOnly || isFailureEvent event) &&
    (c.acceptsAgentEvent event.agentId || isSessionWideEvent event.type || isFailureEvent event)

theorem isGlobalFailureEnvelope_eq (e : EventEnvelope) :
    isGlobalFailureEnvelope e = isFailureEvent e.payload := by
  unfold isGlobalFailureEnvelope isFailureEvent isFailedTurnEvent
  split_ifs with herror hended
  · rfl
  · rw [hended]
    rfl
  · rfl
  · rfl

theorem mem_filterReplayEvents (c : WsConnection) (entries : List EventEnvelope) (cursorSeq : ℕ)
    (e : EventEnvelope) :
    e ∈ filterReplayEvents entries cursorSeq c.agentIds c.failureOnly ↔
      (e ∈ entries.filter fun e => decide (e.seq > cursorSeq)) ∧ c.replays e.payload = true := by
  unfold filterReplayEvents WsConnection.replays WsConnection.acceptsAgentEvent
  simp only [isGlobalFailureEnvelope_eq]
  cases c.agentIds with
  | none => simp [mem_filter, and_assoc]
  | some agentIds =>
    simp only [mem_filter, Bool.and_eq_true, and_assoc]

/-- **What a served replay sends**: the entries behind the cursor that its filter lets pass. -/
theorem mem_replay_iff {s : BroadcastState} (h : JournalTail s) (events : List SessionEvent)
    {cursor : SessionCursor} (hfrom : s.journal.seq ≤ cursor.seq)
    (hto : cursor.seq ≤ (dispatchAll s events).journal.seq)
    (hepoch : ∀ epoch ∈ cursor.epoch, epoch = s.journal.epoch)
    (hgap : (dispatchAll s events).journal.seq - cursor.seq ≤ DEFAULT_MAX_BUFFER_SIZE)
    (c : WsConnection) (e : EventEnvelope) :
    e ∈ (getBufferedSince (dispatchAll s events) cursor c.agentIds c.failureOnly).events ↔
      e ∈ durableEnvelopes s events ∧ cursor.seq < e.seq ∧ c.replays e.payload = true := by
  obtain ⟨-, hbounds, hsorted⟩ := seq_durableEnvelopes events s
  have hall := h.dispatchAll events
  have hfilter : (dispatchAll s events).journal.entries.filter
      (fun e => decide (e.seq > cursor.seq)) =
      (durableEnvelopes s events).filter fun e => decide (e.seq > cursor.seq) := by
    have hold : s.journal.entries.filter (fun e => decide (e.seq > cursor.seq)) = [] := by
      refine filter_eq_nil_iff.2 fun e he => ?_
      have := h.bound e he
      simp only [decide_eq_true_eq]
      omega
    rw [entries_dispatchAll, filter_append, hold, nil_append]
  have hread : (entriesSince (dispatchAll s events) cursor.seq).filter
      (fun e => decide (e.seq > cursor.seq)) =
      (durableEnvelopes s events).filter fun e => decide (e.seq > cursor.seq) := by
    unfold entriesSince
    split_ifs with hreach
    · rw [hall.filter_tail hreach, hfilter]
    · have hlength : ((durableEnvelopes s events).filter
          fun e => decide (e.seq > cursor.seq)).length ≤ DEFAULT_MAX_BUFFER_SIZE := by
        refine (length_le_of_sorted (hsorted.filter _) fun e he => ?_).trans hgap
        obtain ⟨he, hseq⟩ := mem_filter.1 he
        exact ⟨of_decide_eq_true hseq, (hbounds e he).2⟩
      rw [SessionEventJournal.readSince, hfilter, take_of_length_le hlength, filter_filter]
      simp
  have hsame : cursor.epoch.any (· != (dispatchAll s events).journal.epoch) = false := by
    rw [epoch_dispatchAll]
    cases hcursor : cursor.epoch with
    | none => rfl
    | some epoch =>
      rw [hepoch epoch hcursor, Option.any_some]
      exact bne_self_eq_false _
  unfold getBufferedSince
  simp only [hsame, Bool.false_eq_true, if_false]
  rw [if_neg (by omega)]
  split_ifs with hcurrent
  · constructor
    · exact fun he => absurd he not_mem_nil
    · rintro ⟨he, hlt, -⟩
      have := (hbounds e he).2
      omega
  · rw [mem_filterReplayEvents, hread, mem_filter, and_assoc, decide_eq_true_eq]

theorem replay_refused {s : BroadcastState} {cursor : SessionCursor}
    (hgap : ¬ s.journal.seq - cursor.seq ≤ DEFAULT_MAX_BUFFER_SIZE)
    (agentIds : Option (List String)) (failureOnly : Bool) :
    (getBufferedSince s cursor agentIds failureOnly).events = [] := by
  unfold getBufferedSince
  simp only [if_pos (Or.inr (Nat.lt_of_not_le hgap) :
    cursor.seq > s.journal.seq ∨ s.journal.seq - cursor.seq > DEFAULT_MAX_BUFFER_SIZE)]
  split_ifs <;> rfl

/-! ### The two filters -/

theorem isSessionWideEvent_of_global {type : String} (h : isGlobalSessionEvent type = true) :
    isSessionWideEvent type = false := by
  unfold isGlobalSessionEvent at h
  simp only [Bool.or_eq_true, beq_iff_eq, or_assoc] at h
  rcases h with rfl | rfl | rfl | rfl | rfl | rfl | rfl | rfl | rfl | rfl | rfl <;> decide

theorem isFailureEvent_of_global {event : SessionEvent}
    (h : isGlobalSessionEvent event.type = true) (herror : event.type ≠ "error") :
    isFailureEvent event = false := by
  have hother : event.type ≠ "turn.ended" ∧ event.type ≠ "tool.result" := by
    constructor
    · intro heq
      rw [heq] at h
      exact absurd h (by decide)
    · intro heq
      rw [heq] at h
      exact absurd h (by decide)
  rw [isFailureEvent, if_neg herror, if_neg hother.1, if_neg hother.2]

theorem isFailureEvent_eq (event : SessionEvent) :
    isFailureEvent event =
      (event.type == "error" || isFailedTurnEvent event || isToolFailureEvent event) := by
  unfold isFailureEvent isFailedTurnEvent isToolFailureEvent
  split_ifs with herror hended hresult
  · simp [herror]
  · simp [hended]
  · simp [hresult]
  · simp [herror, hended, hresult]

section Filters

variable (agentIds : Option (List String)) (failureOnly : Bool) (event : SessionEvent)

theorem receives_iff : (WsConnection.mk true agentIds failureOnly).receives event = true ↔
    (failureOnly = true → isFailureEvent event = true) ∧
      (isGlobalSessionEvent event.type = true ∨ isFailureEvent event = true ∨
        isSessionWideEvent event.type = true ∨
          ∀ selected ∈ agentIds, event.agentId ∈ selected) := by
  have herror : (event.type == "error") = true → isGlobalSessionEvent event.type = true := by
    intro heq
    rw [beq_iff_eq.1 heq]
    decide
  have haccepts : (WsConnection.mk true agentIds failureOnly).acceptsAgentEvent event.agentId =
      true ↔ ∀ selected ∈ agentIds, event.agentId ∈ selected := by
    cases agentIds <;> simp [WsConnection.acceptsAgentEvent]
  have hfailure : isGlobalSessionEvent event.type = true ∨ isFailureEvent event = true ↔
      isGlobalSessionEvent event.type = true ∨ isFailedTurnEvent event = true ∨
        isToolFailureEvent event = true := by
    rw [isFailureEvent_eq, Bool.or_eq_true, Bool.or_eq_true]
    constructor
    · rintro (hglobal | (heq | hended) | hresult)
      · exact .inl hglobal
      · exact .inl (herror heq)
      · exact .inr (.inl hended)
      · exact .inr (.inr hresult)
    · rintro (hglobal | hended | hresult)
      · exact .inl hglobal
      · exact .inr (.inl (.inr hended))
      · exact .inr (.inr hresult)
  unfold WsConnection.receives
  rw [Bool.and_eq_true, Bool.and_eq_true, Bool.or_true, Bool.or_eq_true, Bool.or_eq_true,
    Bool.or_eq_true, Bool.or_eq_true, haccepts, ← or_assoc (b := isFailureEvent event = true),
    hfailure, or_assoc, or_assoc, or_assoc, or_assoc]
  refine and_congr ?_ (by simp only [or_assoc])
  cases failureOnly <;> simp

theorem replays_iff : (WsConnection.mk true agentIds failureOnly).replays event = true ↔
    (failureOnly = true → isFailureEvent event = true) ∧
      (isFailureEvent event = true ∨ isSessionWideEvent event.type = true ∨
        ∀ selected ∈ agentIds, event.agentId ∈ selected) := by
  have haccepts : (WsConnection.mk true agentIds failureOnly).acceptsAgentEvent event.agentId =
      true ↔ ∀ selected ∈ agentIds, event.agentId ∈ selected := by
    cases agentIds <;> simp [WsConnection.acceptsAgentEvent]
  unfold WsConnection.replays
  rw [Bool.and_eq_true, Bool.or_eq_true, Bool.or_eq_true, Bool.or_eq_true, haccepts]
  refine and_congr ?_ ?_
  · cases failureOnly <;> simp
  · rw [or_comm, or_comm (b := isSessionWideEvent event.type = true)]

theorem receives_of_replays (h : (WsConnection.mk true agentIds failureOnly).replays event = true) :
    (WsConnection.mk true agentIds failureOnly).receives event = true := by
  obtain ⟨honly, hagent⟩ := (replays_iff agentIds failureOnly event).1 h
  exact (receives_iff agentIds failureOnly event).2 ⟨honly, .inr hagent⟩

/-- **The events that are sent live and not again**: those of the whole session, apart from errors,
of an agent that is not selected. -/
theorem replays_of_receives_iff :
    ((WsConnection.mk true agentIds failureOnly).receives event = true →
        (WsConnection.mk true agentIds failureOnly).replays event = true) ↔
      failureOnly = true ∨ (isGlobalSessionEvent event.type = true → event.type = "error" ∨
        ∀ selected ∈ agentIds, event.agentId ∈ selected) := by
  rw [receives_iff, replays_iff]
  constructor
  · intro h
    refine or_iff_not_imp_left.2 fun hall hglobal => or_iff_not_imp_left.2 fun herror => ?_
    obtain ⟨-, hfail | hwide | hagent⟩ := h ⟨fun honly => absurd honly hall, .inl hglobal⟩
    · rw [isFailureEvent_of_global hglobal herror] at hfail
      cases hfail
    · rw [isSessionWideEvent_of_global hglobal] at hwide
      cases hwide
    · exact hagent
  · rintro hcondition ⟨honly, hsent⟩
    refine ⟨honly, ?_⟩
    rcases hsent with hglobal | hagent
    · rcases hcondition with hfailureOnly | hcondition
      · exact .inl (honly hfailureOnly)
      · rcases hcondition hglobal with herror | hagent
        · refine .inl ?_
          rw [isFailureEvent, if_pos herror]
        · exact .inr (.inr hagent)
    · exact hagent

end Filters

/-! ### Coming back -/

/-- The condition under which a client that comes back misses nothing.  A replay that reaches back
too far is refused. -/
def NothingMissed (c : WsConnection) (behind : ℕ) (missed : List SessionEvent) : Prop :=
  if behind ≤ DEFAULT_MAX_BUFFER_SIZE then
    c.failureOnly = true ∨ ∀ event ∈ missed, isVolatileEventType event.type = false →
      isGlobalSessionEvent event.type = true → event.type = "error" ∨
        ∀ agentIds ∈ c.agentIds, event.agentId ∈ agentIds
  else ∀ event ∈ missed, isVolatileEventType event.type = false → c.receives event = false

/-- **When a client that comes back misses nothing.**  Behind any journal and any events, a client
is connected while the events `before` are dispatched, away during `missed`, and comes back with any
number between the one it started at and the last one there was when it went.  It has then been sent
the durable events that a client is sent that stays, exactly when none of those missed is an event
of the whole session, other than an error, of an agent it has not selected. -/
theorem replay_complete_iff (epoch : String) (entries : List EventEnvelope)
    (earlier before missed : List SessionEvent) (agentIds : Option (List String))
    (failureOnly : Bool) (cursor : SessionCursor)
    (hfrom : (dispatchAll { journal := .opened epoch entries } earlier).journal.seq ≤ cursor.seq)
    (hto : cursor.seq ≤
      (dispatchAll { journal := .opened epoch entries } (earlier ++ before)).journal.seq)
    (hepoch : ∀ e ∈ cursor.epoch, e = epoch) :
    let c : WsConnection := ⟨true, agentIds, failureOnly⟩
    let s := dispatchAll { journal := .opened epoch entries } earlier
    let present := dispatchAll s (before ++ missed)
    (∀ e, e ∈ sentLive c s (before ++ missed) ∧ e.isVolatile = false ↔
        e ∈ sentLive c s before ∧ e.isVolatile = false ∨
          e ∈ (getBufferedSince present cursor agentIds failureOnly).events) ↔
      NothingMissed c (present.journal.seq - cursor.seq) missed := by
  intro c s present
  have hrecorded : JournalTail s := (JournalTail.opened epoch entries).dispatchAll earlier
  have hpresent : present = dispatchAll (dispatchAll s before) missed :=
    dispatchAll_append s before missed
  obtain ⟨-, hbefore, -⟩ := seq_durableEnvelopes before s
  obtain ⟨hlater, hmissed, -⟩ := seq_durableEnvelopes missed (dispatchAll s before)
  have hto' : cursor.seq ≤ (dispatchAll s before).journal.seq := by
    rw [dispatchAll_append] at hto
    exact hto
  have hepoch' : ∀ e ∈ cursor.epoch, e = s.journal.epoch := by
    intro e he
    rw [epoch_dispatchAll]
    exact hepoch e he
  simp only [mem_sentLive_iff, durableEnvelopes_append, mem_append]
  unfold NothingMissed
  split_ifs with hgap
  · have hreplay : ∀ e, e ∈ (getBufferedSince present cursor agentIds failureOnly).events ↔
        (e ∈ durableEnvelopes s before ∨ e ∈ durableEnvelopes (dispatchAll s before) missed) ∧
          cursor.seq < e.seq ∧ c.replays e.payload = true := by
      intro e
      have h := mem_replay_iff hrecorded (before ++ missed) hfrom
        (by rw [dispatchAll_append]; exact hto'.trans hlater) hepoch' hgap c e
      rw [durableEnvelopes_append, mem_append] at h
      exact h
    -- The condition is pointwise: what is received among the missed events is replayed.
    have hpointwise : (failureOnly = true ∨ ∀ event ∈ missed,
        isVolatileEventType event.type = false → isGlobalSessionEvent event.type = true →
          event.type = "error" ∨ ∀ agentIds' ∈ agentIds, event.agentId ∈ agentIds') ↔
        ∀ e ∈ durableEnvelopes (dispatchAll s before) missed,
          c.receives e.payload = true → c.replays e.payload = true := by
      rw [forall_durableEnvelopes (P := fun event => c.receives event = true →
        c.replays event = true)]
      simp only [c, replays_of_receives_iff, forall_or_left]
    rw [hpointwise]
    constructor
    · intro h e he hreceives
      rcases (h e).1 ⟨.inr he, hreceives⟩ with ⟨he', -⟩ | he'
      · have hold := (hbefore e he').2
        have hnew := (hmissed e he).1
        omega
      · exact ((hreplay e).1 he').2.2
    · intro h e
      constructor
      · rintro ⟨he | he, hreceives⟩
        · exact .inl ⟨he, hreceives⟩
        · have hnew := (hmissed e he).1
          exact .inr ((hreplay e).2 ⟨.inr he, by omega, h e he hreceives⟩)
      · rintro (⟨he, hreceives⟩ | he)
        · exact ⟨.inl he, hreceives⟩
        · obtain ⟨he, -, hreplays⟩ := (hreplay e).1 he
          exact ⟨he, receives_of_replays agentIds failureOnly e.payload hreplays⟩
  · rw [replay_refused hgap, ← forall_durableEnvelopes
      (P := fun event => c.receives event = false) missed (dispatchAll s before)]
    constructor
    · intro h e he
      by_contra hreceives
      rcases (h e).1 ⟨.inr he, Bool.not_eq_false _ ▸ hreceives⟩ with ⟨he', -⟩ | he'
      · have hold := (hbefore e he').2
        have hnew := (hmissed e he).1
        omega
      · exact not_mem_nil he'
    · intro h e
      constructor
      · rintro ⟨he | he, hreceives⟩
        · exact .inl ⟨he, hreceives⟩
        · rw [h e he] at hreceives
          cases hreceives
      · rintro (⟨he, hreceives⟩ | he)
        · exact ⟨.inl he, hreceives⟩
        · cases he

/-- The theorem at a client that has been away during an event of its agent. -/
theorem replay_complete_iff_ownEvent :
    NothingMissed ⟨true, some ["main"], false⟩ 1 [⟨"turn.started", "main", none, none⟩] ∧
      ∃ e, e ∈ (getBufferedSince
        (dispatchAll { journal := .opened "ep" [] } [⟨"turn.started", "main", none, none⟩])
          ⟨0, some "ep"⟩ (some ["main"]) false).events := by
  have h := replay_complete_iff "ep" [] [] [] [⟨"turn.started", "main", none, none⟩]
    (some ["main"]) false ⟨0, some "ep"⟩ (by decide) (by decide) (by simp)
  have hcondition : NothingMissed ⟨true, some ["main"], false⟩ 1
      [⟨"turn.started", "main", none, none⟩] := by
    rw [NothingMissed, if_pos (by decide)]
    exact .inr (by simp [isGlobalSessionEvent])
  refine ⟨hcondition, ⟨1, "ep", false, ⟨"turn.started", "main", none, none⟩⟩, ?_⟩
  exact ((h.2 hcondition _).1 ⟨by decide, rfl⟩).resolve_left fun h => absurd h.1 (by decide)

/-- **A request for approval is sent to every client, but not to one that comes back** and looks at
another agent. -/
theorem approvalRequested_not_replayed :
    let c : WsConnection := ⟨true, some ["main"], false⟩
    let start : BroadcastState := { journal := .opened "ep" [] }
    let missed : List SessionEvent := [⟨"event.approval.requested", "sub", none, none⟩]
    sentLive c start missed = [⟨1, "ep", false, ⟨"event.approval.requested", "sub", none, none⟩⟩] ∧
      getBufferedSince (dispatchAll start missed) ⟨0, some "ep"⟩ c.agentIds c.failureOnly =
        ⟨[], none, 1, "ep"⟩ := by
  decide +kernel

end NoriCode
