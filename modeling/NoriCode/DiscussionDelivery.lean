/-
**The delivery of discussion statements.**

The statements of a discussion are stored with it, and each member has a cursor: the id of the last
statement that was delivered to it.  A turn reads what is behind the cursor, prompts the member with
it, and acknowledges once the prompt is accepted.  The statements of older discussions are in the
transcript only, and are read from there.

The module embeds, of `session/index.ts`, `publishDiscussionStatementAs` and
`publishLeadDiscussionStatement` as far as they store statements, `unreadTeamDiscussionStatements`,
`readLegacyTeamDiscussionStatements`, `acknowledgeTeamDiscussionStatements` and the part of
`updateTeamDiscussion` and `removeDismissedAgentsFromDiscussions` that is about members; and the
delivery in `runTeamDiscussionRound` and `runTeamVote` of `session/subagent-host.ts`.

Main definitions:

* `DiscussionStore`, with `step` — a discussion, and the deliveries under way;
* `DiscussionStore.Orderly` — one delivery at a time to a member, acknowledged, and no new
  statement behind those of a transcript;
* `DiscussionStore.InOrder` — what is promised.

Main results:

* `DiscussionStore.run_delivers` — **every statement is delivered once, in order**.
-/

import Mathlib.Data.List.Sort
import NoriCode.DiscussionTurn
import NoriCode.LibCursor

namespace NoriCode

open List Option Function LibRun LibPlaces

/-! ### The store of a discussion -/

inductive DeliveryPhase
  /-- The transcript is being resumed. -/
  | reading
  /-- The statements are read, and the member is not prompted yet. -/
  | read
  /-- The member has accepted the prompt. -/
  | accepted
  deriving DecidableEq

/-- A turn of a round or of a vote, on its way from reading to acknowledging. -/
structure Delivery where
  recipient : ℕ
  cursor : ℕ
  statements : List TeamDiscussionStatementRecord
  phase : DeliveryPhase
  deriving DecidableEq

structure DiscussionStore where
  leader : ℕ
  participantAgentIds : List ℕ
  /-- The agents of the leader's team that are in the leader's session. -/
  team : List ℕ := []
  active : Bool := true
  nextStatementId : Option ℕ := some 0
  /-- Older discussions have none. -/
  statements : Option (List TeamDiscussionStatementRecord) := some []
  readCursors : ℕ → Option ℕ := fun _ => none
  transcript : List TeamDiscussionStatementRecord := []
  /-- Statements that wait for the transcript. -/
  appending : List TeamDiscussionStatementRecord := []
  deliveries : List Delivery := []
  /-- History: all statements. -/
  published : List TeamDiscussionStatementRecord := []
  /-- History: what each member was prompted with. -/
  delivered : ℕ → List TeamDiscussionStatementRecord := fun _ => []

inductive StoreEvent
  /-- A statement of a member, or of the leader. -/
  | publish (a : ℕ) (name message : String)
  | append (k : ℕ)
  | read (a : ℕ)
  | readTranscript (k : ℕ)
  /-- The prompt is rejected, or the turn cannot be opened. -/
  | reject (k : ℕ)
  | accept (k : ℕ)
  | acknowledge (k : ℕ)
  /-- Members are invited or kicked, or the discussion is archived. -/
  | update (participantAgentIds : List ℕ) (active : Bool)
  | dismiss (a : ℕ)

namespace DiscussionStore

variable {s t : DiscussionStore}

/-! ### Steps -/

def cursor (s : DiscussionStore) (a : ℕ) : ℕ := (s.readCursors a).getD 0

/-- Who may read the statements, and acknowledge them. -/
def MayRead (s : DiscussionStore) (a : ℕ) : Prop := a ∈ s.participantAgentIds ∨ a ∈ s.team

instance (s : DiscussionStore) (a : ℕ) : Decidable (s.MayRead a) :=
  inferInstanceAs (Decidable (_ ∨ _))

/-- `readLegacyTeamDiscussionStatements`: the messages of the transcript with text. -/
def readLegacy (s : DiscussionStore) : List TeamDiscussionStatementRecord :=
  s.transcript.filterMap fun statement =>
    if isBlank statement.message then none
    else some { statement with message := trim statement.message }

/-- The statements of others behind a cursor, sorted by id. -/
def unread (statements : List TeamDiscussionStatementRecord) (a cursor : ℕ) :
    List TeamDiscussionStatementRecord :=
  (statements.filter fun statement =>
    decide (cursor < statement.entryId) && decide (statement.agentId ≠ a)).insertionSort
      fun left right => left.entryId ≤ right.entryId

/-- The delivery of what is unread. -/
def deliver (statements : List TeamDiscussionStatementRecord) (a cursor : ℕ) : Delivery where
  recipient := a
  cursor := LibCursor.lastKey TeamDiscussionStatementRecord.entryId cursor
    (unread statements a cursor)
  statements := unread statements a cursor
  phase := .read

/-- A turn reads what is unread; from a transcript later. -/
def unreadTeamDiscussionStatements (s : DiscussionStore) (a : ℕ) : Delivery :=
  match s.statements with
  | some statements => deliver statements a (s.cursor a)
  | none => ⟨a, s.cursor a, [], .reading⟩

/-- The statement gets the next id, and is put behind those that are stored. -/
def publishDiscussionStatement (s : DiscussionStore) (a : ℕ) (name message : String) :
    DiscussionStore :=
  let entryId := s.nextStatementId.getD 0 + 1
  let record : TeamDiscussionStatementRecord :=
    { entryId := entryId, agentId := a, name := name, message := trim message }
  { s with
    nextStatementId := some entryId
    statements := some (s.statements.getD [] ++ [record])
    appending := s.appending ++ [record]
    published := s.published ++ [record] }

def acknowledgeTeamDiscussionStatements (s : DiscussionStore) (a cursor : ℕ) : DiscussionStore :=
  if s.MayRead a ∧ s.cursor a < cursor then
    { s with
      readCursors :=
        update s.readCursors a (some (min cursor (s.nextStatementId.getD 0))) }
  else s

def step (s : DiscussionStore) : StoreEvent → Option DiscussionStore
  | .publish a name message =>
    if s.active = true ∧ (a = s.leader ∨ a ∈ s.participantAgentIds) then
      some (s.publishDiscussionStatement a name message)
    else none
  | .append k => s.appending[k]?.map fun record =>
    { s with transcript := s.transcript ++ [record], appending := s.appending.eraseIdx k }
  | .read a =>
    if s.MayRead a then
      some { s with deliveries := s.deliveries ++ [s.unreadTeamDiscussionStatements a] }
    else none
  | .readTranscript k => s.deliveries[k]?.bind fun d =>
    if d.phase = .reading then
      some { s with deliveries := s.deliveries.set k (deliver s.readLegacy d.recipient d.cursor) }
    else none
  | .reject k => s.deliveries[k]?.bind fun d =>
    if d.phase = .accepted then none
    else some { s with deliveries := s.deliveries.eraseIdx k }
  | .accept k => s.deliveries[k]?.bind fun d =>
    if d.phase = .read then
      some { s with
        deliveries := s.deliveries.set k { d with phase := .accepted }
        delivered := update s.delivered d.recipient (s.delivered d.recipient ++ d.statements) }
    else none
  | .acknowledge k => s.deliveries[k]?.bind fun d =>
    if d.phase = .accepted then
      some (acknowledgeTeamDiscussionStatements { s with deliveries := s.deliveries.eraseIdx k }
        d.recipient d.cursor)
    else none
  | .update participantAgentIds active => some { s with
      participantAgentIds := participantAgentIds
      active := active
      readCursors := fun a =>
        if a ∈ participantAgentIds ∧ s.readCursors a = none then some 0 else s.readCursors a }
  -- who is hired again begins anew
  | .dismiss a => some { s with
      participantAgentIds := s.participantAgentIds.filter (· ≠ a)
      team := s.team.filter (· ≠ a)
      active := s.active && !(s.participantAgentIds.filter (· ≠ a)).isEmpty
      readCursors := update s.readCursors a none
      delivered := update s.delivered a [] }

/-- **What is asked of an older discussion and of overlapping deliveries.** -/
def Orderly (s : DiscussionStore) : StoreEvent → Prop
  -- no statement is stored while those of a transcript are not
  | .publish _ _ _ => s.statements ≠ none ∨
      (s.readLegacy = [] ∧ ∀ d ∈ s.deliveries, d.phase ≠ .reading)
  -- one delivery to a member at a time
  | .read a => ∀ d ∈ s.deliveries, d.recipient ≠ a
  -- an accepted prompt can be acknowledged, up to the last id
  | .acknowledge k => ∀ d ∈ s.deliveries[k]?, s.MayRead d.recipient ∧
      (s.statements = none → d.cursor ≤ s.nextStatementId.getD 0)
  -- nobody is dismissed during a delivery
  | .dismiss a => ∀ d ∈ s.deliveries, d.recipient ≠ a
  | _ => True

instance (s : DiscussionStore) (e : StoreEvent) : Decidable (s.Orderly e) := by
  cases e <;> unfold Orderly <;> infer_instance

/-! ### What is promised -/

/-- The statements that are for a member: those of the others. -/
def shared (s : DiscussionStore) (a : ℕ) : List TeamDiscussionStatementRecord :=
  s.published.filter fun statement => statement.agentId ≠ a

/-- **Ids increase, and what a member was prompted with is what the others said, up to some point:**
nothing is skipped, nothing comes twice, and all is in order. -/
structure InOrder (s : DiscussionStore) : Prop where
  ids : LibCursor.Increasing TeamDiscussionStatementRecord.entryId s.published
  prompted : ∀ a, s.delivered a <+: s.shared a

/-- A turn reads all that the others have said and that was not delivered. -/
def Reads (s t : DiscussionStore) : Prop := ∀ d ∈ t.deliveries, d.phase = .read →
  d ∈ s.deliveries ∨ s.delivered d.recipient ++ d.statements = s.shared d.recipient

/-! ### The invariant -/

/-- The part of a member's statements up to a cursor. -/
def upTo (s : DiscussionStore) (a c : ℕ) : List TeamDiscussionStatementRecord :=
  LibCursor.upTo TeamDiscussionStatementRecord.entryId c (s.shared a)

/-- No later statement gets an id below the cursor: it is not above the last id, or no statement is
added to those of a transcript. -/
def Below (s : DiscussionStore) (c : ℕ) : Prop :=
  c ≤ s.nextStatementId.getD 0 ∨ s.statements = none ∧ s.published ≠ []

/-- Where a delivery stands. -/
structure Stands (s : DiscussionStore) (d : Delivery) : Prop where
  reading : d.phase = .reading → d.cursor = s.cursor d.recipient ∧ s.statements = none
  behind : s.cursor d.recipient ≤ d.cursor
  below : s.Below d.cursor
  read : d.phase = .read → d.statements = LibCursor.after TeamDiscussionStatementRecord.entryId
    (s.cursor d.recipient) (s.upTo d.recipient d.cursor)
  accepted : d.phase = .accepted → s.delivered d.recipient = s.upTo d.recipient d.cursor

/-- **The invariant.** What was delivered to a member is what is up to its cursor, or up to that of
the delivery that it has accepted. -/
structure Delivers (s : DiscussionStore) : Prop where
  ids : LibCursor.Increasing TeamDiscussionStatementRecord.entryId s.published
  pos : ∀ statement ∈ s.published, 0 < statement.entryId
  store : ∀ l, s.statements = some l → l = s.published
  legacy : s.statements = none → s.published = s.readLegacy ∧ s.appending = []
  next : s.statements ≠ none → ∀ statement ∈ s.published,
    statement.entryId ≤ s.nextStatementId.getD 0
  cursors : ∀ a, s.cursor a ≤ s.nextStatementId.getD 0
  single : (s.deliveries.map Delivery.recipient).Nodup
  stands : ∀ d ∈ s.deliveries, s.Stands d
  quiet : ∀ a, (∀ d ∈ s.deliveries, d.recipient = a → d.phase ≠ .accepted) →
    s.delivered a = s.upTo a (s.cursor a)

theorem shared_increasing
    (h : LibCursor.Increasing TeamDiscussionStatementRecord.entryId s.published) (a : ℕ) :
    LibCursor.Increasing TeamDiscussionStatementRecord.entryId (s.shared a) :=
  h.filter _

theorem Delivers.upTo_prefix (h : s.Delivers) (a c : ℕ) : s.upTo a c <+: s.shared a :=
  LibCursor.upTo_prefix (shared_increasing h.ids a) c

/-- **What is promised follows from the invariant.** -/
theorem Delivers.inOrder (h : s.Delivers) : s.InOrder where
  ids := h.ids
  prompted := by
    intro a
    by_cases hquiet : ∀ d ∈ s.deliveries, d.recipient = a → d.phase ≠ .accepted
    · rw [h.quiet a hquiet]
      exact h.upTo_prefix a _
    · push Not at hquiet
      obtain ⟨d, hd, rfl, hphase⟩ := hquiet
      rw [(h.stands d hd).accepted hphase]
      exact h.upTo_prefix d.recipient _

theorem unread_eq {l : List TeamDiscussionStatementRecord}
    (h : LibCursor.Increasing TeamDiscussionStatementRecord.entryId l) (a c : ℕ) :
    unread l a c = LibCursor.after TeamDiscussionStatementRecord.entryId c
      (l.filter fun statement => statement.agentId ≠ a) := by
  rw [unread, LibCursor.after, List.filter_filter]
  refine List.Pairwise.insertionSort_eq ?_
  exact (List.Pairwise.filter _ h).imp fun hlt => Nat.le_of_lt hlt

/-- **A reading.** The delivery has all that the member has not got. -/
theorem Delivers.deliver (h : s.Delivers) (a : ℕ) :
    s.Stands (deliver s.published a (s.cursor a)) ∧
      s.upTo a (s.cursor a) ++ (deliver s.published a (s.cursor a)).statements = s.shared a := by
  have hunread : unread s.published a (s.cursor a) =
      LibCursor.after TeamDiscussionStatementRecord.entryId (s.cursor a) (s.shared a) :=
    unread_eq h.ids a _
  have hall := LibCursor.upTo_lastKey (shared_increasing h.ids a) (s.cursor a)
  refine ⟨⟨(fun hphase => by cases hphase), ?_, ?_, fun _ => ?_, (fun hphase => by cases hphase)⟩,
    ?_⟩
  · dsimp only [DiscussionStore.deliver]
    rw [hunread]
    exact LibCursor.le_lastKey_after _ _
  · dsimp only [DiscussionStore.deliver]
    rw [hunread]
    rcases LibCursor.lastKey_mem TeamDiscussionStatementRecord.entryId (s.cursor a)
      (LibCursor.after TeamDiscussionStatementRecord.entryId (s.cursor a) (s.shared a))
      with hc | ⟨x, hx, hc⟩
    · refine .inl ?_
      rw [hc]
      exact h.cursors a
    · have hmem : x ∈ s.published := mem_of_mem_filter (mem_of_mem_filter hx)
      rw [hc]
      by_cases hstatements : s.statements = none
      · exact .inr ⟨hstatements, ne_nil_of_mem hmem⟩
      · exact .inl (h.next hstatements x hmem)
  · dsimp only [DiscussionStore.deliver]
    rw [hunread, upTo, hall]
  · dsimp only [DiscussionStore.deliver]
    rw [hunread]
    exact LibCursor.upTo_append_after (shared_increasing h.ids a) _

variable {k : ℕ} {d : Delivery}

theorem mem_set_self {l : List Delivery} (hk : l[k]? = some d) (d' : Delivery) : d' ∈ l.set k d' :=
  List.mem_set (List.getElem?_eq_some_iff.1 hk).1 d'

/-! ### Steps -/

section

variable (h : s.Delivers)

include h

theorem Delivers.add (hd : s.Stands d) (hnew : ∀ d' ∈ s.deliveries, d'.recipient ≠ d.recipient) :
    ({ s with deliveries := s.deliveries ++ [d] } : DiscussionStore).Delivers := by
  refine ⟨h.ids, h.pos, h.store, h.legacy, h.next, h.cursors, ?_, fun d' hd' => ?_,
    fun a hquiet => h.quiet a fun d' hd' => hquiet d' (mem_append_left _ hd')⟩
  · show ((s.deliveries ++ [d]).map Delivery.recipient).Nodup
    rw [map_append, map_singleton]
    refine nodup_append.2 ⟨h.single, nodup_singleton _, fun r hr r' hr' => ?_⟩
    obtain ⟨d', hd', rfl⟩ := mem_map.1 hr
    rw [mem_singleton.1 hr']
    exact hnew d' hd'
  · have hstands : s.Stands d' := by
      rcases mem_append.1 hd' with hold | hlast
      · exact h.stands d' hold
      · rwa [mem_singleton.1 hlast]
    exact ⟨hstands.reading, hstands.behind, hstands.below, hstands.read, hstands.accepted⟩

theorem Delivers.read {a : ℕ} (hnew : ∀ d ∈ s.deliveries, d.recipient ≠ a) :
    let t : DiscussionStore :=
      { s with deliveries := s.deliveries ++ [s.unreadTeamDiscussionStatements a] }
    t.Delivers ∧ s.Reads t := by
  rw [unreadTeamDiscussionStatements]
  split
  · rename_i l hstatements
    obtain rfl := h.store l hstatements
    obtain ⟨hstands, hall⟩ := h.deliver a
    refine ⟨h.add hstands hnew, fun d hd _ => ?_⟩
    rcases mem_append.1 hd with hold | hlast
    · exact .inl hold
    · obtain rfl := mem_singleton.1 hlast
      have hquiet : s.delivered a = s.upTo a (s.cursor a) :=
        h.quiet a fun d hd hrecipient => absurd hrecipient (hnew d hd)
      exact .inr ((congrArg (· ++ _) hquiet).trans hall)
  · rename_i hstatements
    have hstands : s.Stands ⟨a, s.cursor a, [], .reading⟩ :=
      ⟨fun _ => ⟨rfl, hstatements⟩, Nat.le_refl _, .inl (h.cursors a),
        (fun hphase => by cases hphase), (fun hphase => by cases hphase)⟩
    refine ⟨h.add hstands hnew, fun d hd hphase => ?_⟩
    rcases mem_append.1 hd with hold | hlast
    · exact .inl hold
    · obtain rfl := mem_singleton.1 hlast
      cases hphase

theorem Delivers.readTranscript (hk : s.deliveries[k]? = some d) (hphase : d.phase = .reading) :
    let t : DiscussionStore := { s with
      deliveries := s.deliveries.set k (DiscussionStore.deliver s.readLegacy d.recipient d.cursor) }
    t.Delivers ∧ s.Reads t := by
  have hd := h.stands d (mem_of_getElem? hk)
  obtain ⟨hcursor, hstatements⟩ := hd.reading hphase
  rw [← (h.legacy hstatements).1, hcursor]
  obtain ⟨hstands, hall⟩ := h.deliver d.recipient
  have hnot : ∀ x ∈ s.deliveries, x.recipient = d.recipient → x.phase ≠ .accepted := by
    intro x hx hrecipient
    rw [inj_on_of_nodup_map h.single hx (mem_of_getElem? hk) hrecipient, hphase]
    exact fun hfalse => by cases hfalse
  refine ⟨⟨h.ids, h.pos, h.store, h.legacy, h.next, h.cursors, ?_, fun x hx => ?_,
    fun a hquiet => ?_⟩, fun x hx _ => ?_⟩
  · have hmap : (s.deliveries.set k (DiscussionStore.deliver s.published d.recipient
        (s.cursor d.recipient))).map Delivery.recipient = s.deliveries.map Delivery.recipient :=
      map_set_of_eq hk rfl
    exact hmap ▸ h.single
  · have hx' : s.Stands x := by
      rcases mem_or_eq_of_mem_set hx with hold | rfl
      · exact h.stands x hold
      · exact hstands
    exact ⟨hx'.reading, hx'.behind, hx'.below, hx'.read, hx'.accepted⟩
  · refine h.quiet a fun x hx hrecipient => ?_
    by_cases heq : a = d.recipient
    · exact hnot x hx (hrecipient.trans heq)
    · refine hquiet x ?_ hrecipient
      obtain ⟨j, hj⟩ := mem_iff_getElem?.1 hx
      refine mem_iff_getElem?.2 ⟨j, ?_⟩
      rw [getElem?_set_ne, hj]
      rintro rfl
      rw [some.inj (hk.symm.trans hj)] at heq
      exact heq hrecipient.symm
  · rcases mem_or_eq_of_mem_set hx with hold | rfl
    · exact .inl hold
    · exact .inr ((congrArg (· ++ _) (h.quiet d.recipient hnot)).trans hall)

/-- **A statement is published**: it has an id above all cursors. -/
theorem Delivers.publish (a : ℕ) (name message : String)
    (horderly : s.Orderly (.publish a name message)) :
    (s.publishDiscussionStatement a name message).Delivers := by
  let record : TeamDiscussionStatementRecord :=
    ⟨s.nextStatementId.getD 0 + 1, a, name, trim message⟩
  have hstored : s.statements.getD [] = s.published := by
    cases hstatements : s.statements with
    | some l => exact h.store l hstatements
    | none =>
      rcases horderly with hsome | ⟨hempty, -⟩
      · exact absurd hstatements hsome
      · exact ((h.legacy hstatements).1.trans hempty).symm
  have hnext : ∀ statement ∈ s.published, statement.entryId ≤ s.nextStatementId.getD 0 := by
    intro statement hmem
    by_cases hstatements : s.statements = none
    · rw [hstatements] at hstored
      rw [← hstored] at hmem
      cases hmem
    · exact h.next hstatements statement hmem
  -- what is up to a cursor stays, since the new id is above the last one
  have hupTo : ∀ b c, c ≤ s.nextStatementId.getD 0 →
      (s.publishDiscussionStatement a name message).upTo b c = s.upTo b c := by
    intro b c hc
    have hshared : (s.publishDiscussionStatement a name message).shared b =
        s.shared b ++ [record].filter fun statement => statement.agentId ≠ b :=
      filter_append _ _
    rw [upTo, hshared, LibCursor.upTo_append, upTo]
    intro x hx
    obtain rfl := mem_singleton.1 (mem_of_mem_filter hx)
    exact Nat.lt_succ_of_le hc
  have hbelow : ∀ d ∈ s.deliveries, d.cursor ≤ s.nextStatementId.getD 0 := by
    intro d hd
    refine (h.stands d hd).below.resolve_right fun ⟨hnone, hne⟩ => hne ?_
    rw [hnone] at hstored
    exact hstored.symm
  refine ⟨?_, fun statement hmem => ?_, fun l hl => ?_, (fun hfalse => by cases hfalse),
    fun _ statement hmem => ?_, fun b => Nat.le_succ_of_le (h.cursors b), h.single,
    fun d hd => ?_, fun b hquiet => ?_⟩
  · refine pairwise_append.2 ⟨h.ids, pairwise_singleton _ _, fun x hx y hy => ?_⟩
    rw [mem_singleton.1 hy]
    exact Nat.lt_succ_of_le (hnext x hx)
  · rcases mem_append.1 hmem with hold | hlast
    · exact h.pos statement hold
    · rw [mem_singleton.1 hlast]
      exact Nat.succ_pos _
  · cases hl
    exact congrArg (· ++ _) hstored
  · rcases mem_append.1 hmem with hold | hlast
    · exact Nat.le_succ_of_le (hnext statement hold)
    · rw [mem_singleton.1 hlast]
      exact Nat.le_refl _
  · have hstands := h.stands d hd
    have hsame := hupTo d.recipient d.cursor (hbelow d hd)
    refine ⟨fun hphase => ?_, hstands.behind, .inl (Nat.le_succ_of_le (hbelow d hd)),
      fun hphase => ?_, fun hphase => ?_⟩
    · rcases horderly with hsome | ⟨-, hno⟩
      · exact absurd (hstands.reading hphase).2 hsome
      · exact absurd hphase (hno d hd)
    · rw [hsame]
      exact hstands.read hphase
    · rw [hsame]
      exact hstands.accepted hphase
  · rw [show (s.publishDiscussionStatement a name message).cursor b = s.cursor b from rfl,
      hupTo b _ (h.cursors b)]
    exact h.quiet b hquiet

theorem Delivers.append {record : TeamDiscussionStatementRecord}
    (hk : s.appending[k]? = some record) :
    ({ s with
      transcript := s.transcript ++ [record]
      appending := s.appending.eraseIdx k } : DiscussionStore).Delivers := by
  refine ⟨h.ids, h.pos, h.store, fun hnone => ?_, h.next, h.cursors, h.single, fun d hd => ?_,
    h.quiet⟩
  · have hempty := (h.legacy hnone).2
    rw [hempty] at hk
    cases hk
  · have hstands := h.stands d hd
    exact ⟨hstands.reading, hstands.behind, hstands.below, hstands.read, hstands.accepted⟩

theorem Delivers.reject (hk : s.deliveries[k]? = some d) (hphase : d.phase ≠ .accepted) :
    ({ s with deliveries := s.deliveries.eraseIdx k } : DiscussionStore).Delivers := by
  refine ⟨h.ids, h.pos, h.store, h.legacy, h.next, h.cursors,
    h.single.sublist ((eraseIdx_sublist _ _).map _), fun x hx => ?_, fun a hquiet => ?_⟩
  · have hstands := h.stands x (mem_of_mem_eraseIdx hx)
    exact ⟨hstands.reading, hstands.behind, hstands.below, hstands.read, hstands.accepted⟩
  · refine h.quiet a fun x hx hrecipient => ?_
    rcases mem_eraseIdx_or_eq hk hx with hold | rfl
    · exact hquiet x hold hrecipient
    · exact hphase

/-- **A prompt is accepted**: all that was read is delivered. -/
theorem Delivers.accept (hk : s.deliveries[k]? = some d) (hphase : d.phase = .read) :
    ({ s with
      deliveries := s.deliveries.set k { d with phase := .accepted }
      delivered := update s.delivered d.recipient
        (s.delivered d.recipient ++ d.statements) } : DiscussionStore).Delivers := by
  have hmem := mem_of_getElem? hk
  have hd := h.stands d hmem
  have hmap : (s.deliveries.set k { d with phase := .accepted }).map Delivery.recipient =
      s.deliveries.map Delivery.recipient := map_set_of_eq hk rfl
  have hbefore : s.delivered d.recipient = s.upTo d.recipient (s.cursor d.recipient) := by
    refine h.quiet d.recipient fun x hx hrecipient => ?_
    rw [inj_on_of_nodup_map h.single hx hmem hrecipient, hphase]
    exact fun hfalse => by cases hfalse
  have hnow : s.delivered d.recipient ++ d.statements = s.upTo d.recipient d.cursor := by
    rw [hbefore, hd.read hphase]
    have hcursor := LibCursor.upTo_append_after_upTo (shared_increasing h.ids d.recipient) hd.behind
    exact hcursor
  have hother : ∀ x ∈ s.deliveries.set k { d with phase := .accepted },
      x ≠ { d with phase := .accepted } → x ∈ s.deliveries ∧ x.recipient ≠ d.recipient := by
    intro x hx hne
    refine ⟨(mem_or_eq_of_mem_set hx).resolve_right hne, fun hrecipient => hne ?_⟩
    exact inj_on_of_nodup_map (hmap ▸ h.single) hx (mem_set_self hk _) hrecipient
  refine ⟨h.ids, h.pos, h.store, h.legacy, h.next, h.cursors, hmap ▸ h.single, fun x hx => ?_,
    fun a hquiet => ?_⟩
  · by_cases hx' : x = { d with phase := .accepted }
    · subst hx'
      refine ⟨(fun hfalse => by cases hfalse), hd.behind, hd.below, (fun hfalse => by cases hfalse),
        fun _ => ?_⟩
      show update s.delivered d.recipient _ d.recipient = _
      rw [update_self]
      exact hnow
    · obtain ⟨hold, hne⟩ := hother x hx hx'
      have hstands := h.stands x hold
      refine ⟨hstands.reading, hstands.behind, hstands.below, hstands.read, fun haccepted => ?_⟩
      show update s.delivered d.recipient _ x.recipient = _
      rw [update_of_ne hne]
      exact hstands.accepted haccepted
  · have hne : a ≠ d.recipient := by
      rintro rfl
      exact hquiet _ (mem_set_self hk _) rfl rfl
    show update s.delivered d.recipient _ a = _
    rw [update_of_ne hne]
    refine h.quiet a fun x hx hrecipient => ?_
    refine hquiet x ?_ hrecipient
    obtain ⟨j, hj⟩ := mem_iff_getElem?.1 hx
    refine mem_iff_getElem?.2 ⟨j, ?_⟩
    rw [getElem?_set_ne, hj]
    rintro rfl
    rw [some.inj (hk.symm.trans hj)] at hne
    exact hne hrecipient.symm

/-- **The delivery is acknowledged**: the cursor goes on to what was delivered. -/
theorem Delivers.acknowledge (hk : s.deliveries[k]? = some d) (hphase : d.phase = .accepted)
    (horderly : s.Orderly (.acknowledge k)) :
    (acknowledgeTeamDiscussionStatements { s with deliveries := s.deliveries.eraseIdx k }
      d.recipient d.cursor).Delivers := by
  have hd := h.stands d (mem_of_getElem? hk)
  obtain ⟨hread, hlegacy⟩ := horderly d hk
  have hcursor : d.cursor ≤ s.nextStatementId.getD 0 := by
    rcases hd.below with hle | ⟨hnone, -⟩
    · exact hle
    · exact hlegacy hnone
  have hsingle : ((s.deliveries.eraseIdx k).map Delivery.recipient).Nodup :=
    h.single.sublist ((eraseIdx_sublist _ _).map _)
  -- deliveries to others do not see the cursor
  have hother : ∀ x ∈ s.deliveries.eraseIdx k, x.recipient ≠ d.recipient := fun x hx =>
    ne_of_mem_eraseIdx h.single hk hx
  have hquiet_of : ∀ a, a ≠ d.recipient → (∀ x ∈ s.deliveries.eraseIdx k, x.recipient = a →
      x.phase ≠ .accepted) → s.delivered a = s.upTo a (s.cursor a) := by
    intro a hne hquiet
    refine h.quiet a fun x hx hrecipient => ?_
    rcases mem_eraseIdx_or_eq hk hx with hold | rfl
    · exact hquiet x hold hrecipient
    · exact absurd hrecipient.symm hne
  rw [acknowledgeTeamDiscussionStatements]
  split
  · have hupdate : ∀ a, a ≠ d.recipient → (update s.readCursors d.recipient
        (some (min d.cursor (s.nextStatementId.getD 0))) a).getD 0 = s.cursor a := by
      intro a hne
      rw [update_of_ne hne, cursor]
    have hself : (update s.readCursors d.recipient
        (some (min d.cursor (s.nextStatementId.getD 0))) d.recipient).getD 0 = d.cursor := by
      rw [update_self, getD_some, Nat.min_eq_left hcursor]
    refine ⟨h.ids, h.pos, h.store, h.legacy, h.next, fun a => ?_, hsingle, fun x hx => ?_,
      fun a hquiet => ?_⟩
    · by_cases heq : a = d.recipient
      · subst heq
        exact (Nat.le_of_eq hself).trans hcursor
      · exact (Nat.le_of_eq (hupdate a heq)).trans (h.cursors a)
    · have hstands := h.stands x (mem_of_mem_eraseIdx hx)
      have hsame := hupdate x.recipient (hother x hx)
      refine ⟨fun hreading => ⟨?_, (hstands.reading hreading).2⟩, ?_, hstands.below,
        fun hread' => ?_, hstands.accepted⟩
      · exact (hstands.reading hreading).1.trans hsame.symm
      · exact (Nat.le_of_eq hsame).trans hstands.behind
      · rw [cursor, hsame]
        exact hstands.read hread'
    · by_cases heq : a = d.recipient
      · subst heq
        rw [cursor, hself]
        exact hd.accepted hphase
      · rw [cursor, hupdate a heq]
        exact hquiet_of a heq hquiet
  · rename_i hguard
    have hbehind : d.cursor ≤ s.cursor d.recipient := by
      by_contra hlt
      exact hguard ⟨hread, Nat.not_le.1 hlt⟩
    refine ⟨h.ids, h.pos, h.store, h.legacy, h.next, h.cursors, hsingle, fun x hx => ?_,
      fun a hquiet => ?_⟩
    · have hstands := h.stands x (mem_of_mem_eraseIdx hx)
      exact ⟨hstands.reading, hstands.behind, hstands.below, hstands.read, hstands.accepted⟩
    · by_cases heq : a = d.recipient
      · subst heq
        have hdelivered := hd.accepted hphase
        rw [Nat.le_antisymm hbehind hd.behind] at hdelivered
        exact hdelivered
      · exact hquiet_of a heq hquiet

theorem Delivers.update (participantAgentIds : List ℕ) (active : Bool) :
    ({ s with
      participantAgentIds := participantAgentIds
      active := active
      readCursors := fun a =>
        if a ∈ participantAgentIds ∧ s.readCursors a = none then some 0 else s.readCursors a } :
      DiscussionStore).Delivers := by
  have hcursor : ∀ a, (if a ∈ participantAgentIds ∧ s.readCursors a = none then some 0
      else s.readCursors a).getD 0 = s.cursor a := by
    intro a
    split
    · rename_i hguard
      rw [cursor, hguard.2]
      rfl
    · rfl
  refine ⟨h.ids, h.pos, h.store, h.legacy, h.next, fun a => ?_, h.single, fun d hd => ?_,
    fun a hquiet => ?_⟩
  · exact (Nat.le_of_eq (hcursor a)).trans (h.cursors a)
  · have hstands := h.stands d hd
    refine ⟨fun hphase => ⟨?_, (hstands.reading hphase).2⟩, ?_, hstands.below, fun hphase => ?_,
      hstands.accepted⟩
    · exact (hstands.reading hphase).1.trans (hcursor _).symm
    · exact (Nat.le_of_eq (hcursor _)).trans hstands.behind
    · rw [cursor, hcursor]
      exact hstands.read hphase
  · rw [cursor, hcursor]
    exact h.quiet a hquiet

theorem Delivers.dismiss {a : ℕ} (horderly : ∀ d ∈ s.deliveries, d.recipient ≠ a) :
    ({ s with
      participantAgentIds := s.participantAgentIds.filter (· ≠ a)
      team := s.team.filter (· ≠ a)
      active := s.active && !(s.participantAgentIds.filter (· ≠ a)).isEmpty
      readCursors := Function.update s.readCursors a none
      delivered := Function.update s.delivered a [] } : DiscussionStore).Delivers := by
  have hcursor : ∀ b, b ≠ a → (Function.update s.readCursors a none b).getD 0 = s.cursor b := by
    intro b hne
    rw [Function.update_of_ne hne, cursor]
  have hself : (Function.update s.readCursors a none a).getD 0 = 0 := by
    rw [Function.update_self]
    rfl
  refine ⟨h.ids, h.pos, h.store, h.legacy, h.next, fun b => ?_, h.single, fun d hd => ?_,
    fun b hquiet => ?_⟩
  · by_cases heq : b = a
    · subst heq
      exact (Nat.le_of_eq hself).trans (Nat.zero_le _)
    · exact (Nat.le_of_eq (hcursor b heq)).trans (h.cursors b)
  · have hstands := h.stands d hd
    have hsame := hcursor d.recipient (horderly d hd)
    refine ⟨fun hphase => ⟨?_, (hstands.reading hphase).2⟩, ?_, hstands.below, fun hphase => ?_,
      fun hphase => ?_⟩
    · exact (hstands.reading hphase).1.trans hsame.symm
    · exact (Nat.le_of_eq hsame).trans hstands.behind
    · rw [cursor, hsame]
      exact hstands.read hphase
    · show Function.update s.delivered a [] d.recipient = _
      rw [Function.update_of_ne (horderly d hd)]
      exact hstands.accepted hphase
  · by_cases heq : b = a
    · subst heq
      rw [cursor, hself]
      show Function.update s.delivered b [] b = _
      rw [Function.update_self]
      exact (LibCursor.upTo_eq_nil fun x hx => h.pos x (mem_of_mem_filter hx)).symm
    · rw [cursor, hcursor b heq]
      show Function.update s.delivered a [] b = _
      rw [Function.update_of_ne heq]
      exact h.quiet b hquiet

end

/-! ### Runs -/

theorem reads_of_subset (h : ∀ d ∈ t.deliveries, d ∈ s.deliveries) : s.Reads t :=
  fun d hd _ => .inl (h d hd)

/-- **Every step keeps the invariant**, and every turn reads all that is unread. -/
theorem Delivers.step (h : s.Delivers) {e : StoreEvent} (horderly : s.Orderly e)
    (hstep : s.step e = some t) : t.Delivers ∧ s.Reads t := by
  cases e with
  | publish a name message =>
    dsimp only [DiscussionStore.step] at hstep
    split at hstep <;> cases hstep
    exact ⟨h.publish a name message horderly, reads_of_subset fun _ hd => hd⟩
  | append k =>
    obtain ⟨record, hk, rfl⟩ := map_eq_some_iff.1 hstep
    exact ⟨h.append hk, reads_of_subset fun _ hd => hd⟩
  | read a =>
    dsimp only [DiscussionStore.step] at hstep
    split at hstep <;> cases hstep
    exact h.read horderly
  | readTranscript k =>
    obtain ⟨d, hk, hstep⟩ := bind_eq_some_iff.1 hstep
    split at hstep <;> cases hstep
    rename_i hphase
    exact h.readTranscript hk hphase
  | reject k =>
    obtain ⟨d, hk, hstep⟩ := bind_eq_some_iff.1 hstep
    split at hstep <;> cases hstep
    rename_i hphase
    exact ⟨h.reject hk hphase, reads_of_subset fun _ hd => mem_of_mem_eraseIdx hd⟩
  | accept k =>
    obtain ⟨d, hk, hstep⟩ := bind_eq_some_iff.1 hstep
    split at hstep <;> cases hstep
    rename_i hphase
    refine ⟨h.accept hk hphase, fun x hx hread => ?_⟩
    rcases mem_or_eq_of_mem_set hx with hold | rfl
    · exact .inl hold
    · cases hread
  | acknowledge k =>
    obtain ⟨d, hk, hstep⟩ := bind_eq_some_iff.1 hstep
    split at hstep <;> cases hstep
    rename_i hphase
    refine ⟨h.acknowledge hk hphase horderly, reads_of_subset fun x hx => ?_⟩
    rw [acknowledgeTeamDiscussionStatements] at hx
    split at hx <;> exact mem_of_mem_eraseIdx hx
  | update participantAgentIds active =>
    cases hstep
    exact ⟨h.update participantAgentIds active, reads_of_subset fun _ hd => hd⟩
  | dismiss a =>
    cases hstep
    exact ⟨h.dismiss horderly, reads_of_subset fun _ hd => hd⟩

/-- A discussion at rest: what is stored, or else what the transcript has, was published, and what
is up to a member's cursor was delivered. -/
structure AtRest (s : DiscussionStore) : Prop where
  published : s.published = s.statements.getD s.readLegacy
  ids : LibCursor.Increasing TeamDiscussionStatementRecord.entryId s.published
  pos : ∀ statement ∈ s.published, 0 < statement.entryId
  next : s.statements ≠ none → ∀ statement ∈ s.published,
    statement.entryId ≤ s.nextStatementId.getD 0
  cursors : ∀ a, s.cursor a ≤ s.nextStatementId.getD 0
  delivered : ∀ a, s.delivered a = s.upTo a (s.cursor a)
  appending : s.appending = []
  deliveries : s.deliveries = []

theorem AtRest.delivers (h : s.AtRest) : s.Delivers where
  ids := h.ids
  pos := h.pos
  store := by
    intro l hl
    rw [h.published, hl]
    rfl
  legacy := by
    intro hnone
    rw [h.published, hnone]
    exact ⟨rfl, h.appending⟩
  next := h.next
  cursors := h.cursors
  single := by
    rw [h.deliveries]
    exact nodup_nil
  stands := by
    intro d hd
    rw [h.deliveries] at hd
    cases hd
  quiet := fun a _ => h.delivered a

theorem atRest_opened (leader : ℕ) (participantAgentIds team : List ℕ) :
    AtRest { leader := leader, participantAgentIds := participantAgentIds, team := team } where
  published := rfl
  ids := List.Pairwise.nil
  pos := by simp
  next := by simp
  cursors := fun _ => Nat.le_refl _
  delivered := fun _ => rfl
  appending := rfl
  deliveries := rfl

/-- **Every statement is delivered once, in order.** In every orderly run of a discussion ids
increase; what a member was prompted with is what the others have said, in order and without gaps,
up to some statement; and a turn that reads takes up exactly where that ends, and has all that was
said since. -/
theorem run_delivers (s₀ : DiscussionStore) (h₀ : s₀.AtRest) (l : List StoreEvent)
    (s : DiscussionStore) (h : LibRun.Run step Orderly s₀ l s) :
    s.InOrder ∧ ∀ (e : StoreEvent) (t : DiscussionStore), s.Orderly e → s.step e = some t →
      s.Reads t := by
  have hs : s.Delivers :=
    h.invariant h₀.delivers fun _ _ _ ht horderly hstep => (ht.step horderly hstep).1
  exact ⟨hs.inOrder, fun e t horderly hstep => (hs.step horderly hstep).2⟩

/-- A statement comes between the reading of another one and its acknowledgement. -/
theorem run_delivers_example : ∃ s, LibRun.Run step Orderly
      { leader := 0, participantAgentIds := [1, 2] }
      [.publish 0 "Lead" "a", .append 0, .read 1, .publish 2 "B" "b", .accept 0, .acknowledge 0,
        .read 2, .reject 0, .read 2, .accept 0, .acknowledge 0] s ∧
    s.InOrder ∧ ∃ t, s.step (.read 1) = some t ∧ s.Reads t := by
  have hrun : ∃ s, LibRun.Run step Orderly { leader := 0, participantAgentIds := [1, 2] }
      [.publish 0 "Lead" "a", .append 0, .read 1, .publish 2 "B" "b", .accept 0, .acknowledge 0,
        .read 2, .reject 0, .read 2, .accept 0, .acknowledge 0] s ∧
      (s.Orderly (.read 1) ∧ (s.step (.read 1)).isSome) :=
    exists_run (by decide +kernel) (by decide +kernel)
  obtain ⟨s, hs, horderly, hstep⟩ := hrun
  obtain ⟨t, ht⟩ := Option.isSome_iff_exists.1 hstep
  obtain ⟨hinOrder, hreads⟩ := run_delivers _ (atRest_opened 0 [1, 2] []) _ s hs
  exact ⟨s, hs, hinOrder, t, ht, hreads _ t horderly ht⟩

/-- **Four ways in which statements are not delivered once and in order.** An older discussion is
continued with a statement of the leader: what its transcript has is skipped. Without a last id its
statements get ids for the second time. Two turns of a member read the same. A member is kicked
after it has accepted a prompt, and invited again. -/
theorem not_in_order :
    (∃ s, LibRun.Run step always
      { leader := 0, participantAgentIds := [1], nextStatementId := some 1, statements := none
        transcript := [⟨1, 0, "Lead", "a"⟩], published := [⟨1, 0, "Lead", "a"⟩] }
      [.publish 0 "Lead" "b", .read 1, .accept 0, .acknowledge 0] s ∧ ¬s.InOrder) ∧
    (∃ s, LibRun.Run step always
      { leader := 0, participantAgentIds := [1], nextStatementId := none, statements := none
        transcript := [⟨1, 0, "Lead", "a"⟩], published := [⟨1, 0, "Lead", "a"⟩] }
      [.publish 0 "Lead" "b"] s ∧ ¬s.InOrder) ∧
    (∃ s, LibRun.Run step always { leader := 0, participantAgentIds := [1] }
      [.publish 0 "Lead" "a", .read 1, .read 1, .accept 0, .acknowledge 0, .accept 0] s ∧
      ¬s.InOrder) ∧
    ∃ s, LibRun.Run step always { leader := 0, participantAgentIds := [1, 2] }
      [.publish 0 "Lead" "a", .read 1, .accept 0, .update [2] true, .acknowledge 0,
        .update [1, 2] true, .read 1, .accept 0] s ∧ ¬s.InOrder := by
  have hprompted : ∀ {s₀ : DiscussionStore} {l : List StoreEvent},
      (∃ s, LibRun.Run step always s₀ l s ∧ ¬s.delivered 1 <+: s.shared 1) →
      ∃ s, LibRun.Run step always s₀ l s ∧ ¬s.InOrder := by
    rintro s₀ l ⟨s, hs, hnot⟩
    exact ⟨s, hs, fun hinOrder => hnot (hinOrder.prompted 1)⟩
  refine ⟨hprompted ?_, ?_, hprompted ?_, hprompted ?_⟩
  · exact exists_run (by decide +kernel) (legal_always _ _)
  · have hrun : ∃ s, LibRun.Run step always
        { leader := 0, participantAgentIds := [1], nextStatementId := none, statements := none
          transcript := [⟨1, 0, "Lead", "a"⟩], published := [⟨1, 0, "Lead", "a"⟩] }
        [.publish 0 "Lead" "b"] s ∧
        s.published = [⟨1, 0, "Lead", "a"⟩, ⟨1, 0, "Lead", "b"⟩] :=
      exists_run (by decide +kernel) (legal_always _ _)
    obtain ⟨s, hs, hpublished⟩ := hrun
    refine ⟨s, hs, fun hinOrder => ?_⟩
    have hids := hinOrder.ids
    rw [hpublished] at hids
    exact absurd ((List.pairwise_cons.1 hids).1 _ (.head _)) (by decide)
  · exact exists_run (by decide +kernel) (legal_always _ _)
  · exact exists_run (by decide +kernel) (legal_always _ _)

end DiscussionStore

end NoriCode
