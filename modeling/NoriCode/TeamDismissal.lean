/-
**A dismissal that cannot be persisted.**

A dismissal takes a branch of team members out of the metadata of a session, takes its members out
of the discussions that remain and out of the maps that schedule their turns, and then writes the
metadata.  If that fails twice, the members are put back, and the dismissal throws.

The module embeds `dismissTeamMembersUnlocked` of `session/index.ts` up to the write of the
metadata, `descendantAgentIds` and `removeDismissedAgentsFromDiscussions`.

Main definitions:

* `TeamSession` — the metadata of the agents, and the maps of the discussions;
* `dismissTeamMembersUnlocked` — a dismissal, with the fate of its two writes;
* `TeamSession.Unmentioned` — nothing outside the branch speaks of it.

Main results:

* `aborted_dismissal_iff` — **an aborted dismissal changes nothing exactly if the branch is
  unmentioned**.
-/

import NoriCode.JsText
import NoriCode.MountForest

namespace NoriCode

open List

/-! ### The metadata of a session -/

structure DiscussionMeta where
  participantAgentIds : List String
  active : Bool := true
  currentTurnAgentId : Option String := none
  readCursors : Option (List (String × ℕ)) := none
  updatedAt : String := ""
  deriving DecidableEq

structure TeamAgentMeta where
  isTeam : Bool := true
  parentAgentId : Option String := none
  teamLeaderAgentId : Option String := none
  mountedSessionId : Option String := none
  discussion : Option DiscussionMeta := none
  deriving DecidableEq

/-- The records and maps are lists of entries, in the order of insertion. A statement stands for
itself. -/
structure TeamSession where
  agents : List (String × TeamAgentMeta)
  /-- `activeTeamDiscussionTurns`: who has the floor, by discussion. -/
  turns : List (String × String) := []
  /-- `teamDiscussionSpeaks`: what was said in the turns, by discussion and member. -/
  speaks : List (String × List (String × String)) := []

namespace TeamSession

variable (s : TeamSession)

/-- The search through the branch, one member after the other. -/
def descendantsFrom : ℕ → List String → List String → List String
  | 0, _, _ => []
  | _ + 1, [], _ => []
  | fuel + 1, parentAgentId :: queue, seen =>
    let found := (s.agents.filter fun entry =>
      entry.2.parentAgentId = some parentAgentId ∧ entry.1 ∉ seen).map Prod.fst
    found ++ descendantsFrom fuel (queue ++ found) (seen ++ found)

/-- Every agent comes into the queue once. -/
def descendantAgentIds (rootIds : List String) : List String :=
  s.descendantsFrom (rootIds.length + s.agents.length + 1) rootIds rootIds

/-- The discussions whose turn is taken from a dismissed member. -/
def clearedDiscussionTurns (dismissed : List String) : List String :=
  (s.turns.filter fun turn => turn.1 ∉ dismissed ∧ turn.2 ∈ dismissed).map Prod.fst

/-- What becomes of the discussion of an agent that remains. -/
def withoutDismissed (dismissed : List String) (now discussionAgentId : String)
    (d : DiscussionMeta) : DiscussionMeta :=
  let participantAgentIds := d.participantAgentIds.filter (· ∉ dismissed)
  let currentTurnCleared := d.currentTurnAgentId.any (· ∈ dismissed) ∨
    discussionAgentId ∈ s.clearedDiscussionTurns dismissed
  let nextReadCursors := d.readCursors.map (·.filter fun cursor => cursor.1 ∉ dismissed)
  let cursorsChanged := nextReadCursors.map length ≠ d.readCursors.map length
  let participantsChanged := participantAgentIds.length ≠ d.participantAgentIds.length
  let statusChanged := participantAgentIds = [] ∧ d.active = true
  if ¬participantsChanged ∧ ¬statusChanged ∧ ¬cursorsChanged ∧ ¬currentTurnCleared then d
  else
    { participantAgentIds
      active := if participantAgentIds = [] then false else d.active
      currentTurnAgentId := if currentTurnCleared then none else d.currentTurnAgentId
      readCursors := nextReadCursors
      updatedAt := now }

def removeDismissedAgentsFromDiscussions (dismissed : List String) (now : String) :
    TeamSession where
  agents := s.agents.map fun entry =>
    (entry.1, { entry.2 with
      discussion := entry.2.discussion.map (s.withoutDismissed dismissed now entry.1) })
  turns := s.turns.filter fun turn => turn.1 ∉ dismissed ∧ turn.2 ∉ dismissed
  speaks := ((s.speaks.filter (·.1 ∉ dismissed)).map fun speaks =>
    (speaks.1, speaks.2.filter (·.1 ∉ dismissed))).filter (·.2 ≠ [])

/-- The session when the write is tried: the branch is taken out. -/
def dismissed (branchIds : List String) (now : String) : TeamSession :=
  { s with agents := s.agents.filter (·.1 ∉ branchIds) }.removeDismissedAgentsFromDiscussions
    branchIds now

/-- The members are put back, behind the others. -/
def restored (branchIds : List String) (now : String) : TeamSession :=
  { s.dismissed branchIds now with
    agents := (s.dismissed branchIds now).agents ++
      branchIds.filterMap fun id => (s.agents.lookup id).map (id, ·) }

end TeamSession

/-! ### The dismissal -/

/-- What a session knows besides. -/
structure TeamHost where
  sessionId : String
  departmentChildIds : List String := []
  mountedIds : List String := []
  /-- A turn or a background task of the agent is running. -/
  isActive : String → Bool := fun _ => false

inductive DismissError
  | agentNotFound
  | notChair
  | reasonRequired
  | specifyOnce
  | memberNotFound (id : String)
  | working

inductive DismissOutcome
  | rejected (error : DismissError)
  /-- "Team member dismissal aborted: agent removal could not be persisted." -/
  | aborted (s : TeamSession)
  | persisted (s : TeamSession)

def assertTeamManager (host : TeamHost) (s : TeamSession) (agentId : String) :
    Option DismissError :=
  if agentId = "main" ∨ agentId = host.sessionId then none
  else if agentId ∈ host.departmentChildIds ∨ agentId ∈ host.mountedIds then none
  else match s.agents.lookup agentId with
    | none => some .agentNotFound
    | some agent => if agent.isTeam then none else some .notChair

/-- The member is one of this leader. -/
def isDismissible (host : TeamHost) (s : TeamSession) (leaderAgentId id : String) : Bool :=
  let agent := s.agents.lookup id
  let mountedMember := id ∈ host.departmentChildIds ∨ agent.any (·.mountedSessionId = some id)
  agent.any (fun agent => agent.isTeam ∧ agent.teamLeaderAgentId = some leaderAgentId) ∨
    mountedMember ∧ (leaderAgentId = "main" ∨ leaderAgentId = host.sessionId)

/-- A dismissal up to the write of the metadata, which is tried twice. -/
def dismissTeamMembersUnlocked (host : TeamHost) (s : TeamSession) (leaderAgentId : String)
    (agentIds : List String) (reason : String) (confirmActive : Bool) (now : String)
    (write retry : Bool) : DismissOutcome :=
  match assertTeamManager host s leaderAgentId with
  | some error => .rejected error
  | none =>
    if isBlank reason then .rejected .reasonRequired
    else if agentIds = [] ∨ ¬agentIds.Nodup then .rejected .specifyOnce
    else match agentIds.find? fun id => !isDismissible host s leaderAgentId id with
      | some id => .rejected (.memberNotFound id)
      | none =>
        let branchIds := agentIds ++ s.descendantAgentIds agentIds
        if branchIds.any host.isActive ∧ confirmActive = false then .rejected .working
        else if write ∨ retry then .persisted (s.dismissed branchIds now)
        else .aborted (s.restored branchIds now)

/-! ### What an abort leaves -/

namespace TeamSession

/-- The same agents with the same data, and the same maps. -/
structure SameAs (s t : TeamSession) : Prop where
  agents : ∀ id, s.agents.lookup id = t.agents.lookup id
  turns : s.turns = t.turns
  speaks : s.speaks = t.speaks

/-- The discussion of an agent outside the branch does not speak of it, and is not active without
participants. -/
structure DiscussionUnmentioned (branchIds : List String) (d : DiscussionMeta) : Prop where
  participants : ∀ id ∈ d.participantAgentIds, id ∉ branchIds
  current : ∀ id, d.currentTurnAgentId = some id → id ∉ branchIds
  cursors : ∀ cursors, d.readCursors = some cursors → ∀ cursor ∈ cursors, cursor.1 ∉ branchIds
  nonempty : d.active = true → d.participantAgentIds ≠ []

/-- **Nothing outside the branch speaks of it.** -/
structure Unmentioned (s : TeamSession) (branchIds : List String) : Prop where
  discussions : ∀ entry ∈ s.agents, entry.1 ∉ branchIds →
    ∀ d, entry.2.discussion = some d → DiscussionUnmentioned branchIds d
  turns : ∀ turn ∈ s.turns, turn.1 ∉ branchIds ∧ turn.2 ∉ branchIds
  speaks : ∀ speaks ∈ s.speaks, speaks.1 ∉ branchIds ∧ speaks.2 ≠ [] ∧
    ∀ speak ∈ speaks.2, speak.1 ∉ branchIds

end TeamSession

/-! ### Entries by key -/

section

variable {β : Type} {l : List (String × β)} {id : String}

theorem lookup_of_mem {value : β} (hkeys : (l.map Prod.fst).Nodup) (h : (id, value) ∈ l) :
    l.lookup id = some value := by
  induction l with
  | nil => cases h
  | cons entry rest ih =>
    obtain ⟨hnot, hrest⟩ := nodup_cons.1 hkeys
    rcases mem_cons.1 h with rfl | h
    · simp
    · have hne : id ≠ entry.1 := by
        rintro rfl
        have hfst := mem_map_of_mem (f := Prod.fst) h
        exact hnot hfst
      rw [lookup_cons_of_ne hne]
      exact ih hrest h

theorem lookup_put_back (ids : List String) (get : String → Option β) (id : String) :
    (ids.filterMap fun key => (get key).map (key, ·)).lookup id =
      if id ∈ ids then get id else none := by
  induction ids with
  | nil => rfl
  | cons key rest ih =>
    cases hget : get key with
    | none =>
      rw [filterMap_cons_none (by simp [hget]), ih]
      by_cases hid : id = key
      · simp [hid, hget]
      · simp [hid]
    | some value =>
      rw [filterMap_cons_some (by simp [hget]; rfl)]
      by_cases hid : id = key
      · simp [hid, hget]
      · rw [lookup_cons_of_ne hid, ih]
        simp [hid]

end

namespace TeamSession

variable {s : TeamSession} {branchIds : List String} {now : String}

/-- What the dismissal makes of an agent that remains. -/
def adjusted (s : TeamSession) (branchIds : List String) (now id : String)
    (agent : TeamAgentMeta) : TeamAgentMeta :=
  { agent with discussion := agent.discussion.map (s.withoutDismissed branchIds now id) }

theorem lookup_restored (id : String) :
    (s.restored branchIds now).agents.lookup id =
      if id ∈ branchIds then s.agents.lookup id
      else (s.agents.lookup id).map (s.adjusted branchIds now id) := by
  have hremain := lookup_adjust s.agents (fun id => decide (id ∉ branchIds))
    (s.adjusted branchIds now) id
  have hback := lookup_put_back branchIds (fun id => s.agents.lookup id) id
  refine List.lookup_append.trans ?_
  refine (congrArg₂ _ hremain hback).trans ?_
  by_cases hid : id ∈ branchIds <;> simp [hid]

theorem filter_eq_self_iff {α : Type} {l : List α} {f : α → String} :
    (l.filter fun a => decide (f a ∉ branchIds)) = l ↔ ∀ a ∈ l, f a ∉ branchIds := by
  simp [filter_eq_self]

/-- **A discussion stays as it is exactly if it does not speak of the branch**, as long as no turn
is taken from a member. -/
theorem withoutDismissed_eq_iff {discussionAgentId : String} {d : DiscussionMeta}
    (hcleared : s.clearedDiscussionTurns branchIds = []) :
    s.withoutDismissed branchIds now discussionAgentId d = d ↔
      DiscussionUnmentioned branchIds d := by
  obtain ⟨participants, active, current, cursors, updatedAt⟩ := d
  have hparticipants : participants.filter (fun id => decide (id ∉ branchIds)) = participants ↔
      ∀ id ∈ participants, id ∉ branchIds := filter_eq_self_iff
  have hkept : participants.filter (fun id => decide (id ∉ branchIds)) = participants →
      active = true → participants = [] →
      participants.filter (fun id => decide (id ∉ branchIds)) = [] ∧ active = true :=
    fun hkeep hactive hnone => ⟨hkeep.trans hnone, hactive⟩
  simp only [withoutDismissed, hcleared, not_mem_nil, or_false, ne_eq, not_not]
  constructor
  · intro h
    by_cases hsame : (participants.filter (· ∉ branchIds)).length = participants.length ∧
        ¬ (participants.filter (· ∉ branchIds) = [] ∧ active = true) ∧
        (cursors.map (·.filter fun cursor => cursor.1 ∉ branchIds)).map length =
          cursors.map length ∧ ¬ current.any (· ∈ branchIds) = true
    · obtain ⟨hlength, hstatus, hcursors, hcurrent⟩ := hsame
      have hkeep := filter_eq_self.2 (length_filter_eq_length_iff.1 hlength)
      refine ⟨hparticipants.1 hkeep, ?_, ?_, fun ha hn => hstatus (hkept hkeep ha hn)⟩
      · rintro a rfl ha
        simp [ha] at hcurrent
      · rintro l rfl
        simpa [length_filter_eq_length_iff] using hcursors
    · rw [if_neg hsame, DiscussionMeta.mk.injEq] at h
      obtain ⟨hkeep, hactive, hcurrent, hcursors, -⟩ := h
      refine ⟨hparticipants.1 hkeep, ?_, ?_, fun ha hn => ?_⟩
      · rintro a rfl ha
        simp [ha] at hcurrent
      · rintro l rfl
        exact filter_eq_self_iff.1 (Option.some.inj hcursors)
      · rw [if_pos (hkept hkeep ha hn).1] at hactive
        cases hactive.trans ha
  · rintro ⟨hkeep, hcurrent, hcursors, hnonempty⟩
    have hfilter := hparticipants.2 hkeep
    refine if_pos ⟨congrArg length hfilter, ?_, ?_, ?_⟩
    · rintro ⟨hnone, hactive⟩
      exact hnonempty hactive (hfilter.symm.trans hnone)
    · cases cursors with
      | none => rfl
      | some l => simpa [length_filter_eq_length_iff] using hcursors l rfl
    · cases current with
      | none => simp
      | some a => simpa using hcurrent a rfl

theorem clearedDiscussionTurns_eq_nil
    (hturns : ∀ turn ∈ s.turns, turn.1 ∉ branchIds ∧ turn.2 ∉ branchIds) :
    s.clearedDiscussionTurns branchIds = [] := by
  rw [clearedDiscussionTurns, filter_eq_nil_iff.2 fun turn hturn => ?_, map_nil]
  simp [(hturns turn hturn).2]

theorem speaks_eq_iff (speaks : List (String × List (String × String))) :
    ((speaks.filter (·.1 ∉ branchIds)).map fun speaks =>
      (speaks.1, speaks.2.filter (·.1 ∉ branchIds))).filter (·.2 ≠ []) = speaks ↔
    ∀ entry ∈ speaks, entry.1 ∉ branchIds ∧ entry.2 ≠ [] ∧
      ∀ speak ∈ entry.2, speak.1 ∉ branchIds := by
  constructor
  · intro h entry hentry
    rw [← h] at hentry
    simp only [mem_filter, mem_map] at hentry
    obtain ⟨⟨old, ⟨-, hold⟩, rfl⟩, hne⟩ := hentry
    exact ⟨by simpa using hold, by simpa using hne, fun speak hspeak => by
      simpa using (mem_filter.1 hspeak).2⟩
  · intro h
    have hfirst : speaks.filter (·.1 ∉ branchIds) = speaks :=
      filter_eq_self.2 fun entry hentry => by simpa using (h entry hentry).1
    have hmap : (speaks.map fun entry => (entry.1, entry.2.filter (·.1 ∉ branchIds))) = speaks := by
      refine (map_congr_left (g := id) fun entry hentry => ?_).trans (map_id speaks)
      exact Prod.ext rfl (filter_eq_self.2 fun speak hspeak => by
        simpa using (h entry hentry).2.2 speak hspeak)
    rw [hfirst, hmap]
    exact filter_eq_self.2 fun entry hentry => by simpa using (h entry hentry).2.1

/-- **What is put back is what there was exactly if the branch is unmentioned.** -/
theorem sameAs_restored_iff (hkeys : (s.agents.map Prod.fst).Nodup) :
    (s.restored branchIds now).SameAs s ↔ s.Unmentioned branchIds := by
  constructor
  · rintro ⟨hagents, hturns, hspeaks⟩
    have hturns' : ∀ turn ∈ s.turns, turn.1 ∉ branchIds ∧ turn.2 ∉ branchIds := by
      have hself := filter_eq_self.1 hturns
      simpa using hself
    refine ⟨fun entry hentry hid d hd => ?_, hturns', (speaks_eq_iff s.speaks).1 hspeaks⟩
    obtain ⟨id, agent⟩ := entry
    have hlookup := hagents id
    rw [lookup_restored, if_neg hid, lookup_of_mem hkeys hentry] at hlookup
    have hsame := congrArg TeamAgentMeta.discussion (Option.some.inj hlookup)
    change agent.discussion = some d at hd
    simp only [adjusted, hd, Option.map_some] at hsame
    exact (withoutDismissed_eq_iff (clearedDiscussionTurns_eq_nil hturns')).1
      (Option.some.inj hsame)
  · rintro ⟨hdiscussions, hturns, hspeaks⟩
    refine ⟨fun id => ?_, filter_eq_self.2 fun turn hturn => ?_, (speaks_eq_iff s.speaks).2 hspeaks⟩
    · rw [lookup_restored]
      split
      · rfl
      · rename_i hid
        cases hlookup : s.agents.lookup id with
        | none => rfl
        | some agent =>
          have hentry := mem_of_lookup hlookup
          have hsame : agent.discussion.map (s.withoutDismissed branchIds now id) =
              agent.discussion := by
            cases hd : agent.discussion with
            | none => rfl
            | some d =>
              exact congrArg some ((withoutDismissed_eq_iff
                (clearedDiscussionTurns_eq_nil hturns)).2 (hdiscussions _ hentry hid d hd))
          simp [adjusted, hsame]
    · simpa using hturns turn hturn

end TeamSession

/-- **An aborted dismissal changes nothing exactly if the branch is unmentioned.** -/
theorem aborted_dismissal_iff {host : TeamHost} {s t : TeamSession} {leaderAgentId : String}
    {agentIds : List String} {reason : String} {confirmActive : Bool} {now : String}
    {write retry : Bool} (hkeys : (s.agents.map Prod.fst).Nodup)
    (h : dismissTeamMembersUnlocked host s leaderAgentId agentIds reason confirmActive now
      write retry = .aborted t) :
    t.SameAs s ↔ s.Unmentioned (agentIds ++ s.descendantAgentIds agentIds) := by
  unfold dismissTeamMembersUnlocked at h
  split at h
  · cases h
  · split at h
    · cases h
    · split at h
      · cases h
      · split at h
        · cases h
        · dsimp only at h
          split_ifs at h
          obtain rfl := DismissOutcome.aborted.inj h
          exact TeamSession.sameAs_restored_iff hkeys

/-- A member, and a discussion that it is alone in. -/
def soloDiscussion : TeamSession where
  agents := [("a", { teamLeaderAgentId := some "main" }),
    ("d", { isTeam := false, teamLeaderAgentId := some "main",
            discussion := some { participantAgentIds := ["a"] } })]

theorem aborted_dismissal_iff_solo :
    (soloDiscussion.restored ["a"] "now").SameAs soloDiscussion ↔
      soloDiscussion.Unmentioned ["a"] :=
  @aborted_dismissal_iff ⟨"s", [], [], fun _ => false⟩ _ _ "main" ["a"] "done" false "now" false
    false (by decide) rfl

/-- The member is back, and its discussion is ended. -/
theorem aborted_dismissal_forgets :
    ∃ t, dismissTeamMembersUnlocked ⟨"s", [], [], fun _ => false⟩ soloDiscussion "main" ["a"] "done"
        false "now" false false = .aborted t ∧
      t.agents.lookup "a" = soloDiscussion.agents.lookup "a" ∧
      (t.agents.lookup "d").bind (·.discussion.map (·.active)) = some false := by
  exact ⟨_, rfl, by decide⟩

end NoriCode
