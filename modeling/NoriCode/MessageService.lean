/-
**The messages of a session, page by page.**

The ids of the messages are places in a list that is made anew for every request: the transcript of
the records on the disk, and behind it what the live history has beyond the folded length.  The ids
stay with their messages as long as entries only come at the end.  An undo takes entries away, and
the next message gets an id that another one had.

The module embeds `_getProtocolMessages` and `_readTranscriptCached` of
`services/message/messageService.ts`, for one session and the agent whose records are in the file.
The size of the file is the number of its records.

Main definitions:

* `MessageRun`, with `step` — the agent, the file, and the requests;
* `MessageRun.Orderly` — nothing that was listed is taken away, and the tail is plain;
* `MessageRun.Stable` — an id names one message.

Main results:

* `MessageRun.run_stable` — **ids stay with their messages**.
-/

import NoriCode.MessageListing
import NoriCode.TranscriptSession

namespace NoriCode

open List Option ContextMemory

variable (sessionId : String)

/-! ### State and steps -/

inductive ListStage
  | started
  | statted (size : ℕ)
  /-- The records that were read, unless reading failed. -/
  | read (records : Option (List AgentRecord))
  | answered
  deriving DecidableEq

structure MessageRun where
  agent : Agent := {}
  /-- How many of the records are on the disk. -/
  flushed : ℕ := 0
  /-- The size of the file when the cached transcript was read, and its records. -/
  cache : Option (ℕ × List AgentRecord) := none
  requests : List ListStage := []
  listings : List MessageListing := []

inductive MessageRunEvent
  | live (op : ContextOp)
  | flush (count : ℕ)
  /-- The process stops, and the session is resumed from what is on the disk. -/
  | restart
  | evict
  | request
  | stat (i : ℕ)
  | read (i : ℕ)
  | readFails (i : ℕ)
  | answer (i : ℕ) (query : MessageListQuery)

namespace MessageRun

def setRequest (s : MessageRun) (i : ℕ) (stage : ListStage) : MessageRun :=
  { s with requests := s.requests.set i stage }

/-- The records on the disk. -/
def file (s : MessageRun) : List AgentRecord := s.agent.records.take s.flushed

/-- The listing of a request that has read the file, made from the live context. -/
def listing (s : MessageRun) (records : Option (List AgentRecord)) (query : MessageListQuery) :
    MessageListing where
  query := query
  entries := getTranscriptEntries (records.map reduceWireRecords) s.agent.context.messages
  log := s.agent.records

def step (s : MessageRun) : MessageRunEvent → Option MessageRun
  | .live op => (sessionStep s.agent (.live op)).map fun agent => { s with agent := agent }
  | .flush count =>
    some { s with flushed := min (s.flushed + count) s.agent.records.length }
  | .restart => (sessionStep s.agent (.resume s.flushed)).map fun agent => { s with agent := agent }
  | .evict => some { s with cache := none }
  | .request => some { s with requests := s.requests ++ [.started] }
  | .stat i =>
    match s.requests[i]?, s.cache with
    | some .started, some (size, records) =>
      if size = s.flushed then some (s.setRequest i (.read (some records)))
      else some (s.setRequest i (.statted s.flushed))
    | some .started, none => some (s.setRequest i (.statted s.flushed))
    | _, _ => none
  | .read i =>
    match s.requests[i]? with
    | some (.statted size) =>
      some { s.setRequest i (.read (some s.file)) with cache := some (size, s.file) }
    | _ => none
  | .readFails i =>
    match s.requests[i]? with
    | some .started | some (.statted _) => some (s.setRequest i (.read none))
    | _ => none
  | .answer i query =>
    match s.requests[i]? with
    | some (.read records) =>
      some { s.setRequest i .answered with
        listings := s.listings ++ [s.listing records query] }
    | _ => none

/-! ### The condition -/

/-- What the log of the agent replays to. -/
def replayed (s : MessageRun) : ContextMemory := s.agent.records.foldl restored {}

/-- **The listing goes to the end.**  The records that were not read add nothing, and nothing is
taken from the live history; or they only append, and what is taken is what they replay to. -/
def Shows (s : MessageRun) (read : List AgentRecord) : Prop :=
  let unread := s.agent.records.drop read.length
  let transcript := reduceWireRecords read
  (s.agent.context.history.length ≤ transcript.foldedLength ∧
      ∀ r ∈ unread, r.addsNothing = true) ∨
    ((∀ r ∈ unread, r.isPlain = true) ∧ transcript.transcriptOnlyDeferred = [] ∧
      s.agent.context.messages.drop transcript.foldedLength =
        s.replayed.messages.drop transcript.foldedLength)

instance (s : MessageRun) (read : List AgentRecord) : Decidable (s.Shows read) :=
  inferInstanceAs (Decidable (_ ∨ _))

/-- An undo takes no listed entry away. -/
def SparesListed (s : MessageRun) : ContextOp → Prop
  | .undo count =>
    ∀ l ∈ s.listings, UndoLeaves (reduceWireRecords s.agent.records) count l.entries.length
  | _ => True

instance (s : MessageRun) (op : ContextOp) : Decidable (s.SparesListed op) := by
  cases op <;> unfold SparesListed <;> infer_instance

/-- **The condition.**  Operations keep the folded length right and take no listed entry away; a
restart finds the records of every listing on the disk; and a listing goes to the end. -/
def Orderly (s : MessageRun) : MessageRunEvent → Prop
  | .live op => KeepsLength s.agent.context op ∧ s.SparesListed op
  | .restart => ∀ l ∈ s.listings, l.log.length ≤ s.flushed
  | .answer i _ => ∀ stage ∈ s.requests[i]?,
      match stage with
      | .read records => s.Shows (records.getD [])
      | _ => True
  | _ => True

instance (s : MessageRun) (e : MessageRunEvent) : Decidable (s.Orderly e) := by
  cases e with
  | answer i query =>
    unfold Orderly
    have hstage : ∀ stage : ListStage, Decidable
        (match stage with | .read records => s.Shows (records.getD []) | _ => True) :=
      fun stage => by cases stage <;> infer_instance
    infer_instance
  | _ => unfold Orderly; infer_instance

/-! ### What is promised -/

/-- **An id names one message.**  A listing has the ids that its whole log has, once it is flushed,
each once; they stay with their messages in the log; two listings agree on them; and a client that
goes on with the last id of each page comes to an end, and has got the messages of its first
listing, each once. -/
structure Stable (s : MessageRun) : Prop where
  complete : ∀ l ∈ s.listings, (l.all sessionId).map (·.id) =
    (protocolMessages sessionId (reduceWireRecords l.log).toEntries).map (·.id)
  nodup : ∀ l ∈ s.listings, ((l.all sessionId).map (·.id)).Nodup
  flushed : ∀ l ∈ s.listings, ∀ m ∈ l.all sessionId,
    ∃ m' ∈ protocolMessages sessionId (reduceWireRecords s.agent.records).toEntries,
      m'.id = m.id ∧ FormOf m.message m'.message
  same : ∀ l ∈ s.listings, ∀ l' ∈ s.listings, ∀ m ∈ l.all sessionId, ∀ m' ∈ l'.all sessionId,
    m.id = m'.id → l.SameMessage sessionId l' m m'
  paging : ∀ (first : MessageListing) (rest : List MessageListing),
    (first :: rest).Sublist s.listings → first.IsFirst →
    List.IsChain (MessageListing.GoesOn sessionId) (first :: rest) →
    (((first :: rest).getLast (List.cons_ne_nil _ _)).response sessionId).hasMore = false →
    ((first :: rest).flatMap fun l => (l.response sessionId).items).map (·.id) =
      ((first.all sessionId).map (·.id)).reverse
  ends : ∀ (first : MessageListing) (rest : List MessageListing),
    (first :: rest).Sublist s.listings → first.IsFirst →
    List.IsChain (MessageListing.GoesOn sessionId) (first :: rest) →
    rest.length ≤ (first.all sessionId).length

/-! ### Listings of a run -/

variable {s s' : MessageRun}

theorem forall₂_getElem? {α β : Type} {R : α → β → Prop} {l : List α} {l' : List β}
    (h : List.Forall₂ R l l') {i : ℕ} {a : α} (ha : l[i]? = some a) :
    ∃ b, l'[i]? = some b ∧ R a b := by
  induction h generalizing i with
  | nil => cases ha
  | cons hab _ ih =>
    cases i with
    | zero =>
      cases ha
      exact ⟨_, rfl, hab⟩
    | succ i => exact ih ha

/-- What is taken from the live history are the messages of the places that were not read. -/
theorem Shows.tail {read unread : List AgentRecord} (h : s.Shows read) (hlog : LogFits s.agent)
    (hunread : read ++ unread = s.agent.records) :
    (∀ r ∈ unread, r.isUndo = false) ∧
      List.Forall₂ FormOf
        (s.agent.context.messages.drop (reduceWireRecords read).foldedLength)
        ((reduceWireRecords s.agent.records).messages.drop
          (reduceWireRecords read).transcript.length) := by
  have hdrop : s.agent.records.drop read.length = unread := by
    rw [← hunread, drop_left]
  unfold Shows at h
  rw [hdrop] at h
  rcases h with ⟨hshort, hnothing⟩ | ⟨hplain, honly, htail⟩
  · refine ⟨fun r hr => AgentRecord.isUndo_of_addsNothing (hnothing r hr), ?_⟩
    have hlength : (reduceWireRecords (read ++ unread)).transcript.length =
        (reduceWireRecords read).transcript.length := length_of_addsNothing hnothing
    rw [hunread] at hlength
    rw [drop_eq_nil_of_le (by rw [messages, length_map]; exact hshort),
      drop_eq_nil_of_le (by rw [WireTranscript.messages, length_map, hlength])]
    exact .nil
  · refine ⟨fun r hr => AgentRecord.isUndo_of_isPlain (hplain r hr), ?_⟩
    have hpairs := tail_of_plain (hunread ▸ hlog.fits) hplain honly
    rw [hunread] at hpairs
    rw [htail]
    exact hpairs.imp fun _ _ => ToldAs.formOf

/-- **A listing that goes to the end** has the places of the log. -/
theorem listing_keptIn {records : Option (List AgentRecord)} (hlog : LogFits s.agent)
    (hread : records.getD [] <+: s.agent.records) (hshows : s.Shows (records.getD []))
    (query : MessageListQuery) : (s.listing records query).KeptIn s.agent.records := by
  obtain ⟨unread, hunread⟩ := hread
  obtain ⟨hundo, htail⟩ := hshows.tail hlog hunread
  have hentries : (s.listing records query).entries = _ := getTranscriptEntries_eq records _
  generalize records.getD [] = read at hunread htail hentries
  have hlater : WireTranscript.Extends (reduceWireRecords read)
      (reduceWireRecords (read ++ unread)) := extends_reduceWireRecords hundo
  have hkeeps : KeepsPlaces (reduceWireRecords read).transcript.length (reduceWireRecords read)
      (reduceWireRecords (read ++ unread)) := keepsPlaces_reduceWireRecords hundo _
  rw [hunread] at hkeeps hlater
  have hread : (reduceWireRecords read).toEntries.length =
      (reduceWireRecords read).transcript.length := List.length_map _
  have hle : (reduceWireRecords read).transcript.length ≤
      (reduceWireRecords s.agent.records).transcript.length := by
    by_contra hlt
    have hsome := List.getElem?_eq_getElem (Nat.lt_of_not_le hlt)
    obtain ⟨e', he', -⟩ := hlater.entries _ _ hsome
    exact absurd (List.getElem?_eq_some_iff.1 he').1 (Nat.lt_irrefl _)
  have hlength : (s.listing records query).entries.length =
      (reduceWireRecords s.agent.records).transcript.length := by
    have htails := htail.length_eq
    rw [List.length_drop (l := WireTranscript.messages _), WireTranscript.messages,
      List.length_map] at htails
    rw [hentries, List.length_append, List.length_map, hread, htails]
    omega
  refine ⟨hlength, fun i entry hentry => ?_⟩
  obtain ⟨e', he', hform⟩ : ∃ e' : MutableEntry,
      (reduceWireRecords s.agent.records).transcript[i]? = some e' ∧ FormOf entry.1 e'.message := by
    rw [hentries] at hentry
    rcases Nat.lt_or_ge i (reduceWireRecords read).toEntries.length with hlt | hge
    · rw [List.getElem?_append_left hlt] at hentry
      obtain ⟨e, he, hmessage⟩ := getElem?_toEntries hentry
      obtain ⟨e', he', -, hlater⟩ := hkeeps i (hread ▸ hlt) e he
      exact ⟨e', he', hmessage ▸ hlater.formOf⟩
    · rw [List.getElem?_append_right hge, List.getElem?_map] at hentry
      obtain ⟨message, hmessage, rfl⟩ := Option.map_eq_some_iff.1 hentry
      obtain ⟨message', hmessage', hform⟩ := forall₂_getElem? htail hmessage
      rw [List.getElem?_drop, WireTranscript.messages, List.getElem?_map] at hmessage'
      obtain ⟨e', he', rfl⟩ := Option.map_eq_some_iff.1 hmessage'
      refine ⟨e', ?_, hform⟩
      rw [← he']
      congr 1
      omega
  exact ⟨e', e', he', he', rfl, hform⟩

/-! ### The invariant -/

structure Sound (s : MessageRun) : Prop where
  log : LogFits s.agent
  flushed : s.flushed ≤ s.agent.records.length
  cache : ∀ c ∈ s.cache, c.2 <+: s.file
  requests : ∀ records, ListStage.read (some records) ∈ s.requests → records <+: s.file
  listings : ∀ l ∈ s.listings, l.log <+: s.agent.records ∧
    ∀ k, l.log.length ≤ k → l.KeptIn (s.agent.records.take k)
  ordered : s.listings.Pairwise fun l l' => l.log.length ≤ l'.log.length

namespace Sound

variable {l : MessageListing}

theorem keptIn (h : s.Sound) (hl : l ∈ s.listings) : l.KeptIn s.agent.records := by
  obtain ⟨hlog, hkept⟩ := h.listings l hl
  have hall := hkept s.agent.records.length hlog.length_le
  rwa [take_length] at hall

theorem keptIn_log (h : s.Sound) {l' : MessageListing} (hl : l ∈ s.listings)
    (hl' : l' ∈ s.listings) (hle : l.log.length ≤ l'.log.length) : l.KeptIn l'.log := by
  have hkept := (h.listings l hl).2 _ hle
  rwa [← prefix_iff_eq_take.1 (h.listings l' hl').1] at hkept

variable {sessionId}

theorem ids_isSuffix (h : s.Sound) (sessionId : String) {first : MessageListing}
    {rest : List MessageListing} (hsub : (first :: rest).Sublist s.listings) :
    ∀ q ∈ rest.map (MessageListing.asRequest sessionId),
      (first.asRequest sessionId).items.map (·.id) <:+ q.items.map (·.id) ∧
        (q.items.map (·.id)).Nodup := by
  intro q hq
  obtain ⟨l, hl, rfl⟩ := mem_map.1 hq
  have hordered := rel_of_pairwise_cons (h.ordered.sublist hsub) hl
  have hmem := hsub.subset (.tail _ hl)
  have hkept := h.keptIn_log (hsub.subset (.head _)) hmem hordered
  have hids : (first.all sessionId).map (·.id) <+: (l.all sessionId).map (·.id) :=
    hkept.ids_isPrefix (h.keptIn_log hmem hmem (Nat.le_refl _))
  unfold MessageListing.asRequest
  rw [map_reverse, map_reverse]
  exact ⟨reverse_suffix.2 hids, nodup_reverse.2 (nodup_ids _)⟩

/-- **An id names one message.** -/
theorem stable (h : s.Sound) : s.Stable sessionId where
  complete := fun l hl => (h.keptIn_log hl hl (Nat.le_refl _)).ids
  nodup := fun l _ => nodup_ids l.entries
  flushed := fun l hl m hm => by
    obtain ⟨i, -, e', hplace, -, he', -, hform, hshown⟩ := (h.keptIn hl).message hm
    refine ⟨⟨deriveMessageId sessionId i, sessionId, e'.message.role, e'.message, e'.turnId⟩, ?_,
      hplace.symm, hform⟩
    refine mem_protocolMessages.2 ⟨i, (e'.message, e'.turnId), ?_, hshown, mem_singleton.2 rfl⟩
    rw [WireTranscript.toEntries, getElem?_map, he']
    rfl
  same := fun l hl l' hl' m hm m' hm' hid => (h.keptIn hl).sameMessage (h.keptIn hl') hm hm' hid
  paging := fun first rest hsub hfirst hchain hlast => by
    obtain ⟨hall, hchain'⟩ := MessageListing.isChain_asRequest hfirst.backwards hchain
    have hsuffix := h.ids_isSuffix sessionId hsub
    have hitems : ((first :: rest).flatMap fun l => (l.response sessionId).items) =
        ((first :: rest).map (MessageListing.asRequest sessionId)).flatMap
          (LibPages.Request.page (·.id)) := by
      rw [flatMap_map]
      exact flatMap_congr fun l hl => (MessageListing.response_eq (hall l hl)).1
    have hmore : (((first :: rest).map (MessageListing.asRequest sessionId)).getLast
        (cons_ne_nil _ _)).more (·.id) = false := by
      rw [getLast_map, ← (MessageListing.response_eq (hall _ (getLast_mem _))).2]
      exact hlast
    rw [hitems, map_cons, LibPages.map_pages (first.asRequest sessionId) _
      (congrArg MessageListQuery.beforeId hfirst) (fun q hq => (hsuffix q hq).2)
      (fun q hq => (hsuffix q hq).1) hchain' hmore, MessageListing.asRequest, map_reverse]
  ends := fun first rest hsub hfirst hchain => by
    obtain ⟨-, hchain'⟩ := MessageListing.isChain_asRequest hfirst.backwards hchain
    have hsuffix := h.ids_isSuffix sessionId hsub
    have htodo : ((first.asRequest sessionId).rest (·.id)).map (·.id) =
        (first.asRequest sessionId).items.map (·.id) := by
      have hnew : (first.asRequest sessionId).cursor = none :=
        congrArg MessageListQuery.beforeId hfirst
      rw [LibPages.Request.rest, hnew, LibPages.behind_none]
    have hle := LibPages.length_rest_le htodo (fun q hq => (hsuffix q hq).2)
      (fun q hq => (hsuffix q hq).1) hchain'
    rwa [length_map, length_map, MessageListing.asRequest, length_reverse] at hle

/-! ### What a step leaves -/

variable {op : ContextOp}

theorem isUndo_logged {c : ContextMemory} (hop : ∀ count, op ≠ .undo count)
    {r : AgentRecord} (hr : r ∈ c.logged op) : r.isUndo = false := by
  have hclosing : ∀ r ∈ c.closingRecords, r.isUndo = false := by
    intro r hr
    obtain ⟨id, -, rfl⟩ := mem_map.1 hr
    rfl
  cases op with
  | undo count => exact absurd rfl (hop count)
  | finishResume => exact hclosing r hr
  | loopEvent event =>
    rcases mem_cons.1 hr with rfl | hr
    · rfl
    · cases event with
      | stepBegin uuid turnId => exact hclosing r hr
      | _ => cases hr
  | setTransientSystemReminder content origin =>
    rw [logged] at hr
    split at hr
    · cases hr
    · obtain rfl := mem_singleton.1 hr
      rfl
  | clearTransientSystemReminder | popMatchedMessage | importMigratedHistory => cases hr
  | _ =>
    obtain rfl := mem_singleton.1 hr
    rfl

variable {agent : Agent}

/-- A session that is resumed goes on with its records, and closes what was interrupted. -/
theorem records_resumed {records : List AgentRecord} (h : resumed records = some agent) :
    ∃ closing, agent.records = records ++ closing ∧ ∀ r ∈ closing, r.isUndo = false := by
  unfold resumed at h
  split at h <;> cases h
  rename_i b _
  have hperform := perform_records (a := { b with records, restoring := false }) rfl .finishResume
  refine ⟨_, hperform, fun r hr => isUndo_logged ?_ hr⟩
  exact fun count heq => by cases heq

theorem keptIn_append {log new : List AgentRecord}
    (hkept : ∀ k, l.log.length ≤ k → l.KeptIn (log.take k)) (hle : l.log.length ≤ log.length)
    (hnew : ∀ j, KeepsPlaces l.entries.length (reduceWireRecords log)
      (reduceWireRecords (log ++ new.take j))) :
    ∀ k, l.log.length ≤ k → l.KeptIn ((log ++ new).take k) := by
  intro k hk
  rcases Nat.le_total k log.length with hshort | hlong
  · rw [take_append_of_le_length hshort]
    exact hkept k hk
  · have hall := hkept log.length hle
    rw [take_length] at hall
    rw [take_append, take_of_length_le hlong]
    exact hall.of_keeps (hnew _)

theorem withAgent (h : s.Sound) (hlog : LogFits agent)
    (hflushed : s.flushed ≤ agent.records.length) (hfile : agent.records.take s.flushed = s.file)
    (hlistings : ∀ l ∈ s.listings, l.log <+: agent.records ∧
      ∀ k, l.log.length ≤ k → l.KeptIn (agent.records.take k)) :
    Sound { s with agent := agent } where
  log := hlog
  flushed := hflushed
  cache := fun c hc => by
    show c.2 <+: agent.records.take s.flushed
    rw [hfile]
    exact h.cache c hc
  requests := fun records hmem => by
    show records <+: agent.records.take s.flushed
    rw [hfile]
    exact h.requests records hmem
  listings := hlistings
  ordered := h.ordered

theorem keepsPlaces_logged {n : ℕ} {log : List AgentRecord} {c : ContextMemory}
    (h : ∀ count, op = .undo count → UndoLeaves (reduceWireRecords log) count n) (j : ℕ) :
    KeepsPlaces n (reduceWireRecords log) (reduceWireRecords (log ++ (c.logged op).take j)) := by
  by_cases hundo : ∃ count, op = .undo count
  · obtain ⟨count, rfl⟩ := hundo
    have hcases : ((c.logged (.undo count)).take j) = [] ∨
        ((c.logged (.undo count)).take j) = [.undo count] := by
      rw [logged]
      split
      · cases j with
        | zero => exact .inl rfl
        | succ j => exact .inr (by rw [take_succ_cons, take_nil])
      · exact .inl take_nil
    rcases hcases with hnil | hone
    · rw [hnil, append_nil]
      exact KeepsPlaces.refl _ _
    · rw [hone, reduceWireRecords, reduceWireRecords, foldl_append]
      exact KeepsPlaces.undo (h count rfl)
  · refine keepsPlaces_reduceWireRecords (fun r hr => ?_) n
    exact isUndo_logged (fun count heq => hundo ⟨count, heq⟩) (mem_of_mem_take hr)

theorem live (h : s.Sound) (hkeeps : KeepsLength s.agent.context op)
    (hspares : s.SparesListed op) : Sound { s with agent := perform s.agent op } := by
  have hrecords := perform_records h.log.live op
  have hfile : (perform s.agent op).records.take s.flushed = s.file := by
    rw [hrecords, take_append_of_le_length h.flushed]
    rfl
  refine h.withAgent (h.log.perform hkeeps) ?_ hfile fun l hl => ?_
  · rw [hrecords, length_append]
    exact Nat.le_add_right_of_le h.flushed
  · obtain ⟨hlog, hkept⟩ := h.listings l hl
    rw [hrecords]
    refine ⟨hlog.trans (prefix_append _ _), keptIn_append hkept hlog.length_le ?_⟩
    refine keepsPlaces_logged fun count heq => ?_
    rw [heq] at hspares
    exact hspares l hl

theorem restart (h : s.Sound) (hagent : resumed s.file = some agent)
    (hlistings : ∀ l ∈ s.listings, l.log.length ≤ s.flushed) :
    Sound { s with agent := agent } := by
  obtain ⟨closing, hrecords, hclosing⟩ := records_resumed hagent
  have hlength : s.file.length = s.flushed := length_take_of_le h.flushed
  have hfile : agent.records.take s.flushed = s.file := by
    rw [hrecords, take_left' hlength]
  refine h.withAgent (LogFits.resumed (h.log.fits.take _) hagent) ?_ hfile fun l hl => ?_
  · rw [hrecords, length_append, hlength]
    exact Nat.le_add_right _ _
  · obtain ⟨hlog, hkept⟩ := h.listings l hl
    have hle := hlistings l hl
    have hfront : l.log <+: s.file := prefix_take_iff.2 ⟨hlog, hle⟩
    rw [hrecords]
    refine ⟨hfront.trans (prefix_append _ _), keptIn_append (fun k hk => ?_) ?_ fun j => ?_⟩
    · rw [file, take_take]
      exact hkept _ (by omega)
    · rw [hlength]
      exact hle
    · exact keepsPlaces_reduceWireRecords (fun r hr => hclosing r (mem_of_mem_take hr)) _

theorem setRequest (h : s.Sound) (i : ℕ) {stage : ListStage}
    (hstage : ∀ records, stage = .read (some records) → records <+: s.file) :
    Sound (s.setRequest i stage) :=
  { h with
    requests := fun records hmem => by
      rcases mem_or_eq_of_mem_set hmem with hold | heq
      · exact h.requests records hold
      · exact hstage records heq.symm }

theorem flush (h : s.Sound) (count : ℕ) :
    Sound { s with flushed := min (s.flushed + count) s.agent.records.length } := by
  have hfile : s.file <+: s.agent.records.take
      (min (s.flushed + count) s.agent.records.length) := by
    have hle := h.flushed
    refine prefix_take_iff.2 ⟨List.take_prefix _ _, ?_⟩
    rw [file, length_take]
    omega
  exact { h with
    flushed := Nat.min_le_right _ _
    cache := fun c hc => (h.cache c hc).trans hfile
    requests := fun records hmem => (h.requests records hmem).trans hfile }

theorem answer (h : s.Sound) {i : ℕ} {records : Option (List AgentRecord)}
    (hstage : s.requests[i]? = some (.read records)) (hshows : s.Shows (records.getD []))
    (query : MessageListQuery) :
    Sound { s.setRequest i .answered with
      listings := s.listings ++ [s.listing records query] } := by
  have hread : records.getD [] <+: s.agent.records := by
    cases records with
    | none => exact nil_prefix
    | some records =>
      exact (h.requests records (mem_of_getElem? hstage)).trans (List.take_prefix _ _)
  have hkept := listing_keptIn h.log hread hshows query
  have hset : Sound (s.setRequest i .answered) := h.setRequest i fun records heq => by cases heq
  exact { hset with
    listings := fun l hl => by
      rcases mem_append.1 hl with hold | hnew
      · exact h.listings l hold
      · obtain rfl := mem_singleton.1 hnew
        refine ⟨prefix_rfl, fun k hk => ?_⟩
        have hall : s.agent.records.take k = s.agent.records := take_of_length_le hk
        exact hall.symm ▸ hkept
    ordered := by
      refine pairwise_append.2 ⟨h.ordered, pairwise_singleton _ _, fun l hl l' hl' => ?_⟩
      obtain rfl := mem_singleton.1 hl'
      exact (h.listings l hl).1.length_le }

/-- **What every step preserves.** -/
theorem step (h : s.Sound) {e : MessageRunEvent} (ho : s.Orderly e)
    (hstep : MessageRun.step s e = some s') : s'.Sound := by
  cases e <;> unfold MessageRun.step at hstep
  case live op =>
    cases hstep
    exact h.live ho.1 ho.2
  case flush count =>
    cases hstep
    exact h.flush count
  case restart =>
    obtain ⟨agent, hagent, rfl⟩ := map_eq_some_iff.1 hstep
    exact h.restart hagent ho
  case evict =>
    cases hstep
    exact { h with cache := fun c hc => by cases hc }
  case request =>
    cases hstep
    exact { h with
      requests := fun records hmem => by
        rcases mem_append.1 hmem with hold | hnew
        · exact h.requests records hold
        · cases mem_singleton.1 hnew }
  case stat i =>
    dsimp only at hstep
    split at hstep
    · rename_i size records _ hcache
      split at hstep
      · cases hstep
        refine h.setRequest i fun records' heq => ?_
        cases heq
        exact h.cache _ hcache
      · cases hstep
        exact h.setRequest i fun records' heq => by cases heq
    · cases hstep
      exact h.setRequest i fun records' heq => by cases heq
    · cases hstep
  case read i =>
    dsimp only at hstep
    split at hstep <;> cases hstep
    have hset : Sound (s.setRequest i (.read (some s.file))) :=
      h.setRequest i fun records heq => by
        cases heq
        exact prefix_rfl
    exact { hset with
      cache := fun c hc => by
        cases hc
        exact prefix_rfl }
  case readFails i =>
    dsimp only at hstep
    split at hstep
    · cases hstep
      exact h.setRequest i fun records heq => by cases heq
    · cases hstep
      exact h.setRequest i fun records heq => by cases heq
    · cases hstep
  case answer i query =>
    dsimp only at hstep
    split at hstep <;> cases hstep
    rename_i records hstage
    exact h.answer hstage (ho _ hstage) query

theorem start : Sound {} where
  log := ⟨rfl, StepEntries.initial, trivial, SameMarks.refl _⟩
  flushed := Nat.le_refl _
  cache := fun c hc => by cases hc
  requests := fun records hmem => by cases hmem
  listings := fun l hl => by cases hl
  ordered := List.Pairwise.nil

end Sound

/-! ### Runs -/

variable {sessionId}

/-- **Ids stay with their messages.**  In every run in which operations keep the folded length right
and take no listed entry away, a restart finds the records of every listing on the disk, and a
listing goes to the end, an id names one message. -/
theorem run_stable {l : List MessageRunEvent} (h : LibRun.Run step Orderly {} l s) :
    s.Stable sessionId :=
  (h.invariant Sound.start fun _ _ _ ht ho hu => ht.step ho hu).stable

/-- **What was listed can be fetched**: in such a run, a later request finds the message of an id
that an earlier listing has shown. -/
theorem run_gets {es : List MessageRunEvent} (hid : sessionId ≠ "")
    (h : LibRun.Run step Orderly {} es s) {l l' : MessageListing}
    (hsub : [l, l'].Sublist s.listings) {m : ProtocolMessage} (hm : m ∈ l.all sessionId) :
    ∃ m', getMessage sessionId (l'.all sessionId) m.id = some m' ∧
      l.SameMessage sessionId l' m m' := by
  have hs : s.Sound := h.invariant Sound.start fun _ _ _ ht ho hu => ht.step ho hu
  have hl : l ∈ s.listings := hsub.subset (.head _)
  have hl' : l' ∈ s.listings := hsub.subset (.tail _ (.head _))
  have hle := rel_of_pairwise_cons (hs.ordered.sublist hsub) (.head _)
  -- the later listing has all ids of the earlier one
  have hids : (l.all sessionId).map (·.id) <+: (l'.all sessionId).map (·.id) :=
    (hs.keptIn_log hl hl' hle).ids_isPrefix (hs.keptIn_log hl' hl' (Nat.le_refl _))
  obtain ⟨m₁, hm₁, heq⟩ := mem_map.1 (hids.subset (mem_map_of_mem hm))
  obtain ⟨m', hfind⟩ := isSome_iff_exists.1
    (find?_isSome.2 ⟨m₁, hm₁, decide_eq_true heq⟩ :
      ((l'.all sessionId).find? fun x => x.id = m.id).isSome)
  obtain ⟨i, -, -, hplace, -⟩ := (hs.keptIn hl).message hm
  have hsame : m'.id = m.id := by simpa using find?_some hfind
  refine ⟨m', ?_, (hs.keptIn hl).sameMessage (hs.keptIn hl') hm (mem_of_find?_eq_some hfind)
    hsame.symm⟩
  unfold getMessage
  rw [hplace, parseMessageId_deriveMessageId hid, ← hplace]
  exact (if_pos rfl).trans hfind

/-- What a user says, by its text. -/
def userSays (text : String) : ContextMessage where
  role := .user
  content := [.text text]
  toolCalls := []
  origin := some ⟨.user, none⟩

/-- A client lists a turn that is not on the disk, newest message first; a prompt is undone, the
process stops, and the client goes on while a new prompt is not yet on the disk. -/
def pagedEvents : List MessageRunEvent :=
  [.live (.appendMessage (userSays "go")), .live (.loopEvent (.stepBegin "s" "0")),
    .live (.loopEvent (.contentPart "s" (.text "done"))), .flush 1, .request, .stat 0, .read 0,
    .answer 0 { pageSize := some 1 }, .live (.loopEvent (.stepEnd "s" none)),
    .live (.appendMessage (userSays "stop")), .live (.undo 1), .flush 5, .restart,
    .live (.appendMessage (userSays "more")), .request, .stat 1, .read 1,
    .answer 1 { beforeId := some "msg_s_000001", pageSize := some 1 }]

/-- The ids of the pages. -/
def pages (s : MessageRun) : List (List String × Bool) :=
  s.listings.map fun l =>
    ((l.response "s").items.map (·.id), (l.response "s").hasMore)

theorem run_stable_example :
    ∃ s : MessageRun, s.pages = [(["msg_s_000001"], true), (["msg_s_000000"], false)] ∧
      s.Stable "s" := by
  have hrun : ∃ s, LibRun.Run step Orderly {} pagedEvents s ∧
      s.pages = [(["msg_s_000001"], true), (["msg_s_000000"], false)] :=
    LibRun.exists_run (by decide +kernel) (by decide +kernel)
  obtain ⟨s, hs, hpages⟩ := hrun
  exact ⟨s, hpages, run_stable hs⟩

theorem run_gets_example : ∃ (l l' : MessageListing) (m m' : ProtocolMessage),
    m.id = "msg_s_000000" ∧ getMessage "s" (l'.all "s") m.id = some m' ∧
      l.SameMessage "s" l' m m' := by
  have hrun : ∃ s, LibRun.Run step Orderly {} pagedEvents s ∧
      s.listings.length = 2 ∧
        s.listings.map (fun l => ((l.all "s").head?.map (·.id))) =
          [some "msg_s_000000", some "msg_s_000000"] :=
    LibRun.exists_run (by decide +kernel) (by decide +kernel)
  obtain ⟨s, hs, hlength, hheads⟩ := hrun
  obtain ⟨l, l', hlistings⟩ := List.length_eq_two.1 hlength
  rw [hlistings] at hheads
  obtain ⟨m, hm, hid⟩ := map_eq_some_iff.1 (List.cons.inj hheads).1
  have hsub : [l, l'].Sublist s.listings := by rw [hlistings]
  obtain ⟨m', hget, hsame⟩ := run_gets (by decide) hs hsub (mem_of_head? hm)
  exact ⟨l, l', m, m', hid, hget, hsame⟩

/-- A prompt is listed and undone, and the next one is listed. -/
def undoneEvents : List MessageRunEvent :=
  [.live (.appendMessage (userSays "go")), .flush 1, .request, .stat 0, .read 0, .answer 0 {},
    .live (.undo 1), .live (.appendMessage (userSays "stop")), .flush 2, .request, .stat 1,
    .read 1, .answer 1 {}]

/-- The messages of the listings, by their ids. -/
def listed (s : MessageRun) : List (List (String × ContextMessage)) :=
  s.listings.map fun l => (l.all "s").map fun m => (m.id, m.message)

/-- **The next message has the id of the one that was undone.** -/
theorem not_stable :
    ∃ s, LibRun.Run step LibRun.always {} undoneEvents s ∧
      (s.listed = [[("msg_s_000000", userSays "go")], [("msg_s_000000", userSays "stop")]] ∧
        ¬ s.Stable "s") := by
  have hrun : ∃ s, LibRun.Run step LibRun.always {} undoneEvents s ∧
      s.listed = [[("msg_s_000000", userSays "go")], [("msg_s_000000", userSays "stop")]] :=
    LibRun.exists_run (by decide +kernel) (LibRun.legal_always _ _)
  obtain ⟨s, hs, hlisted⟩ := hrun
  refine ⟨s, hs, hlisted, fun hstable => ?_⟩
  obtain ⟨l, l', hlistings, hl, hl'⟩ : ∃ l l', s.listings = [l, l'] ∧
      (l.all "s").map (fun m => (m.id, m.message)) = [("msg_s_000000", userSays "go")] ∧
      (l'.all "s").map (fun m => (m.id, m.message)) = [("msg_s_000000", userSays "stop")] := by
    obtain ⟨l, ls, hlistings, hl, hls⟩ := List.map_eq_cons_iff.1 hlisted
    obtain ⟨l', ls', rfl, hl', hnil⟩ := List.map_eq_cons_iff.1 hls
    obtain rfl := List.map_eq_nil_iff.1 hnil
    exact ⟨l, l', hlistings, hl, hl'⟩
  obtain ⟨m, ms, hm, hpair, -⟩ := List.map_eq_cons_iff.1 hl
  obtain ⟨m', ms', hm', hpair', -⟩ := List.map_eq_cons_iff.1 hl'
  obtain ⟨hid, hmessage⟩ := Prod.mk.inj hpair
  obtain ⟨hid', hmessage'⟩ := Prod.mk.inj hpair'
  have hsame := hstable.same l (by simp [hlistings]) l' (by simp [hlistings]) m (by simp [hm]) m'
    (by simp [hm']) (hid.trans hid'.symm)
  obtain ⟨later, hform, hform'⟩ := hsame.forms
  rw [hmessage] at hform
  rw [hmessage'] at hform'
  have heq := (hform.eq_of_user rfl).symm.trans (hform'.eq_of_user rfl)
  exact absurd heq (by decide)

end MessageRun

end NoriCode
