/-
**A listing of messages.**

The ids of listed messages are places among the entries that the listing was made of.  So two
listings agree on their ids as far as their entries stand at the same places, and a client that goes
on with the last id of each page reads on in its first listing, whatever comes behind it.

The module embeds `list`, `get` and `_getTranscriptEntries` of `services/message/messageService.ts`,
which leaves the entries to `toProtocolMessages`.

Main definitions:

* `listMessages` — a page of a listing;
* `getTranscriptEntries` — the transcript, and the live tail;
* `FormOf` — a message as it was listed, and as it is in the log later;
* `MessageListing.KeptIn` — what was listed is in a log.

Main results:

* `ids_isPrefix` — entries that are shown alike have the same ids;
* `MessageListing.KeptIn.sameMessage` — **two listings agree on an id**;
* `MessageListing.isChain_asRequest` — a client that goes on.
-/

import NoriCode.LibPages
import NoriCode.LiveTail

namespace NoriCode

open List Option WireTranscript

/-! ### Pages -/

/-- `DEFAULT_PAGE_SIZE` -/
def defaultPageSize : ℤ := 50

/-- `MAX_PAGE_SIZE` -/
def maxPageSize : ℤ := 100

structure MessageListQuery where
  beforeId : Option String := none
  afterId : Option String := none
  pageSize : Option ℤ := none
  role : Option Role := none

structure PageResponse where
  items : List ProtocolMessage
  hasMore : Bool

def MessageListQuery.clampedSize (query : MessageListQuery) : ℕ :=
  (min (max (query.pageSize.getD defaultPageSize) 1) maxPageSize).toNat

/-- `list`, from the messages in the order of their places. -/
def listMessages (all : List ProtocolMessage) (query : MessageListQuery) : PageResponse :=
  let desc := all.reverse
  let pivotIndex (id : String) := desc.findIdx? fun m => m.id = id
  let slice :=
    match query.beforeId, query.afterId with
    | some id, _ =>
      match pivotIndex id with
      | some i => desc.drop (i + 1)
      | none => desc
    | none, some id =>
      match pivotIndex id with
      | some i => desc.take i
      | none => desc
    | none, none => desc
  let page := slice.take query.clampedSize
  { items :=
      match query.role with
      | some role => page.filter fun m => m.role = role
      | none => page
    hasMore := decide (slice.length > query.clampedSize) }

/-- `get`; `none` is the `MessageNotFoundError`. -/
def getMessage (sessionId : String) (all : List ProtocolMessage) (messageId : String) :
    Option ProtocolMessage :=
  match parseMessageId messageId with
  | some parsed =>
    if parsed.1 = sessionId then all.find? fun m => m.id = messageId else none
  | none => none

/-! ### Entries -/

def WireTranscript.toEntries (t : WireTranscript) : List (ContextMessage × Option String) :=
  t.transcript.map fun e => (e.message, e.turnId)

def getTranscriptEntries (transcript : Option WireTranscript) (history : List ContextMessage) :
    List (ContextMessage × Option String) :=
  match transcript with
  | none => history.map fun message => (message, none)
  | some t =>
    if history.length ≤ t.foldedLength then t.toEntries
    else t.toEntries ++ (history.drop t.foldedLength).map fun message => (message, none)

/-- A listing that was answered, with the records that had been logged then. -/
structure MessageListing where
  query : MessageListQuery
  entries : List (ContextMessage × Option String)
  log : List AgentRecord

variable (sessionId : String)

namespace MessageListing

/-- `_getProtocolMessages` -/
def all (l : MessageListing) : List ProtocolMessage := protocolMessages sessionId l.entries

def response (l : MessageListing) : PageResponse := listMessages (l.all sessionId) l.query

end MessageListing

/-! ### One message -/

/-- A message as it was listed, and the same message in the transcript of a later log. -/
inductive FormOf : ContextMessage → ContextMessage → Prop
  | same (m : ContextMessage) : FormOf m m
  | grown {m m' : ContextMessage} (hrole : m.role = .assistant) (hgrows : Grows m m') : FormOf m m'
  | told (toolCallId : String) (r : ExecutableToolResult) :
      FormOf (toolResultMessage toolCallId r) (transcriptToolMessage toolCallId r)

namespace MessageListing

/-- Two listed messages are one: the object at their place is the same in the logs of both
listings, and there is a message that both are forms of. -/
structure SameMessage (l l' : MessageListing) (m m' : ProtocolMessage) : Prop where
  object : ∃ (i : ℕ) (e e' : MutableEntry), m.id = deriveMessageId sessionId i ∧
    (reduceWireRecords l.log).transcript[i]? = some e ∧
    (reduceWireRecords l'.log).transcript[i]? = some e' ∧ e.ref = e'.ref
  forms : ∃ later, FormOf m.message later ∧ FormOf m'.message later

/-- The request for the newest messages. -/
def IsFirst (l : MessageListing) : Prop := l.query = { pageSize := l.query.pageSize }

/-- There were more messages, and the next request goes on before the last one. -/
def GoesOn (l l' : MessageListing) : Prop :=
  (l.response sessionId).hasMore = true ∧
    ∃ m, (l.response sessionId).items.getLast? = some m ∧
      l'.query = { beforeId := some m.id, pageSize := l'.query.pageSize }

end MessageListing

/-! ### Forms -/

theorem LaterForm.formOf {m m' : ContextMessage} (h : LaterForm m m') : FormOf m m' := by
  rcases h with rfl | ⟨hrole, hgrows⟩
  · exact .same _
  · exact .grown hrole hgrows

theorem ToldAs.formOf {m m' : ContextMessage} (h : ToldAs m m') : FormOf m m' := by
  cases h with
  | same => exact .same _
  | result toolCallId r => exact .told toolCallId r

namespace FormOf

variable {m m' m'' : ContextMessage}

theorem later (h : FormOf m m') (h' : LaterForm m' m'') : FormOf m m'' := by
  cases h with
  | same => exact h'.formOf
  | grown hrole hgrows =>
    rcases h' with rfl | ⟨-, hgrows'⟩
    · exact .grown hrole hgrows
    · exact .grown hrole (hgrows.trans hgrows')
  | told toolCallId r =>
    rcases h' with rfl | ⟨hrole, -⟩
    · exact .told toolCallId r
    · cases hrole

theorem shown (h : FormOf m m') :
    isInternalTeamDirectMessage m' = isInternalTeamDirectMessage m := by
  have hnone : ∀ m : ContextMessage, m.role ≠ .user → isInternalTeamDirectMessage m = false := by
    intro m hrole
    unfold isInternalTeamDirectMessage
    rw [beq_eq_false_iff_ne.2 hrole, Bool.false_and]
  cases h with
  | same => rfl
  | grown hrole hgrows =>
    rw [hnone m (by rw [hrole]; decide), hnone m' (by rw [hgrows.role, hrole]; decide)]
  | told toolCallId r =>
    rw [hnone _ (fun hrole => by cases hrole), hnone _ (fun hrole => by cases hrole)]

theorem eq_of_user (h : FormOf m m') (hrole : m.role = .user) : m' = m := by
  cases h with
  | same => rfl
  | grown hassistant _ =>
    rw [hrole] at hassistant
    cases hassistant
  | told toolCallId r => cases hrole

end FormOf

/-! ### Ids -/

/-- The ids of entries whose places start somewhere. -/
def idsFrom (start : ℕ) : List (ContextMessage × Option String) → List String
  | [] => []
  | entry :: entries =>
    if isInternalTeamDirectMessage entry.1 then idsFrom (start + 1) entries
    else deriveMessageId sessionId start :: idsFrom (start + 1) entries

/-- Entries that are shown alike, as far as the first ones go. -/
def ShownAlike (l l' : List (ContextMessage × Option String)) : Prop :=
  ∀ (i : ℕ) (entry : ContextMessage × Option String), l[i]? = some entry →
    ∃ entry' : ContextMessage × Option String, l'[i]? = some entry' ∧
      isInternalTeamDirectMessage entry'.1 = isInternalTeamDirectMessage entry.1

section

variable {sessionId} {l l' : List (ContextMessage × Option String)}

theorem ids_eq (l : List (ContextMessage × Option String)) :
    (protocolMessages sessionId l).map (·.id) = idsFrom sessionId 0 l := by
  have hids : ∀ (start : ℕ) (l : List (ContextMessage × Option String)),
      ((l.zipIdx start).flatMap fun entry =>
        if isInternalTeamDirectMessage entry.1.1 then []
        else toProtocolMessages sessionId entry.2 entry.1.1 entry.1.2).map (·.id) =
        idsFrom sessionId start l := by
    intro start l
    induction l generalizing start with
    | nil => rfl
    | cons entry l ih =>
      rw [zipIdx_cons, flatMap_cons, map_append, ih (start + 1), idsFrom]
      split <;> rfl
  exact hids 0 l

theorem idsFrom_isPrefix (start : ℕ) (h : ShownAlike l l') :
    idsFrom sessionId start l <+: idsFrom sessionId start l' := by
  induction l generalizing start l' with
  | nil => exact nil_prefix
  | cons entry l ih =>
    obtain ⟨entry', hentry', hshown⟩ := h 0 entry rfl
    cases l' with
    | nil => cases hentry'
    | cons e l' =>
      cases hentry'
      have hrest := ih (start + 1) fun i x hx => h (i + 1) x hx
      rw [idsFrom, idsFrom, hshown]
      split
      · exact hrest
      · exact (prefix_cons_inj _).2 hrest

theorem ids_isPrefix (h : ShownAlike l l') :
    (protocolMessages sessionId l).map (·.id) <+: (protocolMessages sessionId l').map (·.id) := by
  rw [ids_eq, ids_eq]
  exact idsFrom_isPrefix 0 h

theorem ShownAlike.symm (h : ShownAlike l l') (hlength : l.length = l'.length) :
    ShownAlike l' l := by
  intro i entry hentry
  have hlt := (List.getElem?_eq_some_iff.1 hentry).1
  have hsome : l[i]? = some l[i] := List.getElem?_eq_getElem (hlength ▸ hlt)
  obtain ⟨entry', hentry', hshown⟩ := h i _ hsome
  obtain rfl := some.inj (hentry'.symm.trans hentry)
  exact ⟨l[i], hsome, hshown.symm⟩

theorem ids_congr (h : ShownAlike l l') (hlength : l.length = l'.length) :
    (protocolMessages sessionId l).map (·.id) = (protocolMessages sessionId l').map (·.id) := by
  have hfront : (protocolMessages sessionId l).map (·.id) <+:
      (protocolMessages sessionId l').map (·.id) := ids_isPrefix h
  exact hfront.eq_of_length_le (ids_isPrefix (h.symm hlength)).length_le

theorem mem_idsFrom {start : ℕ} {id : String} (h : id ∈ idsFrom sessionId start l) :
    ∃ i, start ≤ i ∧ id = deriveMessageId sessionId i := by
  induction l generalizing start with
  | nil => cases h
  | cons entry l ih =>
    rw [idsFrom] at h
    split at h
    · obtain ⟨i, hi, rfl⟩ := ih h
      exact ⟨i, Nat.le_of_succ_le hi, rfl⟩
    · rcases mem_cons.1 h with rfl | h
      · exact ⟨start, Nat.le_refl _, rfl⟩
      · obtain ⟨i, hi, rfl⟩ := ih h
        exact ⟨i, Nat.le_of_succ_le hi, rfl⟩

theorem nodup_ids (l : List (ContextMessage × Option String)) :
    ((protocolMessages sessionId l).map (·.id)).Nodup := by
  have hids : ∀ (start : ℕ) (l : List (ContextMessage × Option String)),
      (idsFrom sessionId start l).Nodup := by
    intro start l
    induction l generalizing start with
    | nil => exact nodup_nil
    | cons entry l ih =>
      rw [idsFrom]
      split
      · exact ih _
      · refine nodup_cons.2 ⟨fun hmem => ?_, ih _⟩
        obtain ⟨i, hi, heq⟩ := mem_idsFrom hmem
        have hsame : start = i := deriveMessageId_injective sessionId heq
        omega
  rw [ids_eq]
  exact hids 0 l

end

/-! ### One listing -/

/-- The live history that is shown is what it has beyond the folded length; without a transcript
that is all of it. -/
theorem getTranscriptEntries_eq (records : Option (List AgentRecord))
    (history : List ContextMessage) :
    getTranscriptEntries (records.map reduceWireRecords) history =
      (reduceWireRecords (records.getD [])).toEntries ++
        (history.drop (reduceWireRecords (records.getD [])).foldedLength).map
          fun message => (message, none) := by
  cases records with
  | none => rfl
  | some records =>
    rw [map_some, getD_some, getTranscriptEntries]
    split
    · rename_i hle
      rw [drop_eq_nil_of_le hle, map_nil, append_nil]
    · rfl

theorem getElem?_toEntries {t : WireTranscript} {i : ℕ} {entry : ContextMessage × Option String}
    (h : t.toEntries[i]? = some entry) :
    ∃ e : MutableEntry, t.transcript[i]? = some e ∧ e.message = entry.1 := by
  rw [toEntries, getElem?_map] at h
  obtain ⟨e, he, rfl⟩ := map_eq_some_iff.1 h
  exact ⟨e, he, rfl⟩

namespace MessageListing

/-- **What was listed is in the log**, at the same places, with the same objects. -/
structure KeptIn (l : MessageListing) (log : List AgentRecord) : Prop where
  length : l.entries.length = (reduceWireRecords l.log).transcript.length
  entries : ∀ (i : ℕ) (entry : ContextMessage × Option String), l.entries[i]? = some entry →
    ∃ e e' : MutableEntry, (reduceWireRecords l.log).transcript[i]? = some e ∧
      (reduceWireRecords log).transcript[i]? = some e' ∧ e'.ref = e.ref ∧ FormOf entry.1 e'.message

namespace KeptIn

variable {sessionId} {l l' : MessageListing} {log log' : List AgentRecord}

theorem of_keeps (h : l.KeptIn log) (hk : KeepsPlaces l.entries.length (reduceWireRecords log)
    (reduceWireRecords log')) : l.KeptIn log' where
  length := h.length
  entries := fun i entry hentry => by
    obtain ⟨e, e', he, he', href, hform⟩ := h.entries i entry hentry
    have hlt := (List.getElem?_eq_some_iff.1 hentry).1
    obtain ⟨e'', he'', href', hlater⟩ := hk i hlt e' he'
    exact ⟨e, e'', he, he'', href'.trans href, hform.later hlater⟩

theorem shownAlike (h : l.KeptIn log) : ShownAlike l.entries (reduceWireRecords log).toEntries := by
  intro i entry hentry
  obtain ⟨-, e', -, he', -, hform⟩ := h.entries i entry hentry
  refine ⟨(e'.message, e'.turnId), ?_, hform.shown⟩
  rw [toEntries, getElem?_map, he']
  rfl

theorem ids (h : l.KeptIn l.log) : (l.all sessionId).map (·.id) =
    (protocolMessages sessionId (reduceWireRecords l.log).toEntries).map (·.id) := by
  refine ids_congr h.shownAlike ?_
  rw [h.length, toEntries, length_map]

theorem ids_isPrefix (h : l.KeptIn l'.log) (h' : l'.KeptIn l'.log) :
    (l.all sessionId).map (·.id) <+: (l'.all sessionId).map (·.id) := by
  rw [h'.ids]
  exact NoriCode.ids_isPrefix h.shownAlike

theorem message (h : l.KeptIn log) {m : ProtocolMessage} (hm : m ∈ l.all sessionId) :
    ∃ (i : ℕ) (e e' : MutableEntry), m.id = deriveMessageId sessionId i ∧
      (reduceWireRecords l.log).transcript[i]? = some e ∧
      (reduceWireRecords log).transcript[i]? = some e' ∧ e'.ref = e.ref ∧
      FormOf m.message e'.message ∧ isInternalTeamDirectMessage e'.message = false := by
  obtain ⟨i, entry, hentry, hshown, hm⟩ := mem_protocolMessages.1 hm
  obtain rfl := mem_singleton.1 hm
  obtain ⟨e, e', he, he', href, hform⟩ := h.entries i entry hentry
  exact ⟨i, e, e', rfl, he, he', href, hform, hform.shown.trans hshown⟩

theorem sameMessage (h : l.KeptIn log) (h' : l'.KeptIn log) {m m' : ProtocolMessage}
    (hm : m ∈ l.all sessionId) (hm' : m' ∈ l'.all sessionId) (hid : m.id = m'.id) :
    l.SameMessage sessionId l' m m' := by
  obtain ⟨i, e, e₁, hplace, he, he₁, href, hform, -⟩ := h.message hm
  obtain ⟨j, e', e₂, hplace', he', he₂, href', hform', -⟩ := h'.message hm'
  obtain rfl : i = j := deriveMessageId_injective sessionId (hplace.symm.trans (hid.trans hplace'))
  cases he₁.symm.trans he₂
  exact ⟨⟨i, e, e', hplace, he, he', href.symm.trans href'⟩, e₁.message, hform, hform'⟩

end KeptIn

end MessageListing

/-! ### A client that goes on -/

namespace MessageListing

/-- What a client asks for, as a request for a page. -/
def asRequest (l : MessageListing) : LibPages.Request ProtocolMessage String where
  items := (l.all sessionId).reverse
  cursor := l.query.beforeId
  size := l.query.clampedSize

/-- The query is for messages of any role, and not for newer ones. -/
def Backwards (l : MessageListing) : Prop := l.query.afterId = none ∧ l.query.role = none

variable {sessionId} {l first : MessageListing} {rest : List MessageListing}

theorem IsFirst.backwards (h : l.IsFirst) : l.Backwards := by
  unfold Backwards
  rw [h]
  exact ⟨rfl, rfl⟩

theorem response_eq (h : l.Backwards) :
    (l.response sessionId).items = (l.asRequest sessionId).page (·.id) ∧
      (l.response sessionId).hasMore = (l.asRequest sessionId).more (·.id) := by
  obtain ⟨hafter, hrole⟩ := h
  unfold response listMessages LibPages.Request.page LibPages.Request.more LibPages.Request.rest
    LibPages.behind asRequest
  rw [hafter, hrole]
  cases l.query.beforeId with
  | none => exact ⟨rfl, rfl⟩
  | some id =>
    cases hfind : (l.all sessionId).reverse.findIdx? fun m => m.id = id with
    | none | some => simp only [hfind, and_self, gt_iff_lt]

theorem isChain_asRequest (hfirst : first.Backwards)
    (hchain : List.IsChain (GoesOn sessionId) (first :: rest)) :
    (∀ l ∈ first :: rest, l.Backwards) ∧
      List.IsChain (LibPages.Request.GoesOn (·.id))
        ((first :: rest).map (asRequest sessionId)) := by
  induction rest generalizing first with
  | nil =>
    refine ⟨fun l hl => ?_, isChain_singleton _⟩
    obtain rfl := mem_singleton.1 hl
    exact hfirst
  | cons next rest ih =>
    obtain ⟨⟨hmore, m, hlast, hquery⟩, hrest⟩ := isChain_cons_cons.1 hchain
    have hnext : next.Backwards := by
      unfold Backwards
      rw [hquery]
      exact ⟨rfl, rfl⟩
    obtain ⟨hall, hchain'⟩ := ih hnext hrest
    refine ⟨fun l hl => ?_, isChain_cons_cons.2 ⟨⟨?_, m, ?_, ?_⟩, hchain'⟩⟩
    · rcases mem_cons.1 hl with rfl | hl
      · exact hfirst
      · exact hall l hl
    · rw [← (response_eq hfirst).2]
      exact hmore
    · rw [← (response_eq hfirst).1]
      exact hlast
    · rw [asRequest, hquery]

end MessageListing

end NoriCode
