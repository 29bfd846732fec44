/-
**One discussion for each node of the department tree.**

A leader discusses with its members, and a member may lead a department of its own.  A node is to
discuss in one department at a time.  That is checked when a discussion is started, in the metadata
of the session that the leader is in, before some awaits; it is not checked when members are
invited, nor when a round writes back the discussion that it has read.

The module embeds, of `session/index.ts`, `createTeamDiscussion`, `activeTeamDiscussion`,
`updateTeamDiscussion` and `removeDismissedAgentsFromDiscussions`, `activeDiscussionAsParticipant`
of `session/team-tree.ts`, and `inviteToDiscussion`, `kickFromDiscussion` and `decideTeamDiscussion`
of `session/subagent-host.ts`, as far as they are about who takes part.

Main definitions:

* `DiscussionTree`, with `step` — the nodes, their discussions and the calls under way;
* `DiscussionTree.Orderly` — what the checks leave out;
* `DiscussionTree.OneDiscussion` — what is promised.

Main results:

* `DiscussionTree.run_single` — **every node discusses in one department at most**.
-/

import Mathlib.Data.List.Dedup
import NoriCode.LibRun
import NoriCode.LibPlaces

namespace NoriCode

open List Option Function LibRun

/-! ### Departments and their discussions -/

structure TeamDiscussion where
  leader : ℕ
  participantAgentIds : List ℕ
  active : Bool := true
  /-- The transcript was deleted with its branch. -/
  deleted : Bool := false
  deriving DecidableEq

/-- The department tree. A node is an agent of a session, or the main agent of a mounted session. -/
structure DiscussionTree where
  /-- The leader of a member. -/
  leaderOf : ℕ → Option ℕ := fun _ => none
  /-- The session whose metadata has the discussions of a node. -/
  session : ℕ → ℕ := id
  /-- All discussions, also those that are archived. -/
  discussions : List TeamDiscussion := []
  /-- Calls of `createTeamDiscussion` that have passed their checks. -/
  starting : List (ℕ × List ℕ) := []
  /-- Continued discussions, by their place, with the participants as they were read. -/
  continuing : List (ℕ × List ℕ) := []
  archiving : List (ℕ × List ℕ) := []

inductive DiscussionEvent
  | hire (n leader : ℕ)
  /-- The checks of a start. -/
  | start (leader : ℕ) (participantAgentIds : List ℕ)
  /-- The discussion is written. -/
  | create (k : ℕ)
  | startFails (k : ℕ)
  | invite (leader : ℕ) (agentIds : List ℕ)
  | kick (leader : ℕ) (agentIds : List ℕ)
  /-- The active discussion is read, to be continued. -/
  | continueWith (leader : ℕ)
  /-- A round of the continued discussion begins. -/
  | round (k : ℕ)
  /-- The active discussion is read, to be archived. -/
  | archive (leader : ℕ)
  | archived (k : ℕ)
  | dismiss (leader : ℕ) (agentIds : List ℕ)

namespace DiscussionTree

variable {s t : DiscussionTree}

/-! ### Steps -/

def ActiveOf (leader : ℕ) (d : TeamDiscussion) : Prop := d.leader = leader ∧ d.active = true

instance (leader : ℕ) (d : TeamDiscussion) : Decidable (ActiveOf leader d) :=
  inferInstanceAs (Decidable (_ ∧ _))

/-- The place of the first active discussion of a leader. -/
def activeTeamDiscussion (s : DiscussionTree) (leader : ℕ) : Option ℕ :=
  s.discussions.findIdx? fun d => ActiveOf leader d

/-- Some active discussion in the metadata of the node's session has the node as a participant. -/
def ActiveAsParticipant (s : DiscussionTree) (n : ℕ) : Prop :=
  ∃ d ∈ s.discussions, d.active = true ∧ s.session d.leader = s.session n ∧
    n ∈ d.participantAgentIds

instance (s : DiscussionTree) (n : ℕ) : Decidable (s.ActiveAsParticipant n) :=
  inferInstanceAs (Decidable (∃ d ∈ s.discussions, _))

def IsMember (s : DiscussionTree) (leader n : ℕ) : Prop := s.leaderOf n = some leader

instance (s : DiscussionTree) (leader n : ℕ) : Decidable (s.IsMember leader n) :=
  inferInstanceAs (Decidable (_ = _))

/-- `updateTeamDiscussion` writes what it is given; it throws where the discussion is deleted. -/
def updateTeamDiscussion (s : DiscussionTree) (i : ℕ) (participantAgentIds : List ℕ)
    (active : Bool) : Option DiscussionTree :=
  s.discussions[i]?.bind fun d =>
    if d.deleted then none
    else some { s with
      discussions := s.discussions.set i
        { d with participantAgentIds := participantAgentIds, active := active } }

/-- `removeDismissedAgentsFromDiscussions`, in one session. -/
def withoutDismissed (s : DiscussionTree) (leader : ℕ) (dismissed : List ℕ) (d : TeamDiscussion) :
    TeamDiscussion :=
  if s.session d.leader = s.session leader then
    if d.leader ∈ dismissed then { d with active := false, deleted := true }
    else
      let participantAgentIds := d.participantAgentIds.filter (· ∉ dismissed)
      { d with
        participantAgentIds := participantAgentIds
        active := d.active && !participantAgentIds.isEmpty }
  else d

/-- The nodes are members of departments in the leader's session. -/
def CanDismiss (s : DiscussionTree) (leader : ℕ) (dismissed : List ℕ) : Prop :=
  ∀ n ∈ dismissed, ∃ l ∈ s.leaderOf n, s.session l = s.session leader

instance (s : DiscussionTree) (leader : ℕ) (dismissed : List ℕ) :
    Decidable (s.CanDismiss leader dismissed) :=
  inferInstanceAs (Decidable (∀ n ∈ dismissed, _))

def step (s : DiscussionTree) : DiscussionEvent → Option DiscussionTree
  | .hire n leader =>
    if s.leaderOf n = none ∧ n ≠ leader then
      some { s with leaderOf := update s.leaderOf n (some leader) }
    else none
  | .start leader participantAgentIds =>
    if s.activeTeamDiscussion leader = none ∧ ¬s.ActiveAsParticipant leader ∧
        participantAgentIds ≠ [] ∧ participantAgentIds.Nodup ∧
        ∀ n ∈ participantAgentIds, s.IsMember leader n then
      some { s with starting := s.starting ++ [(leader, participantAgentIds)] }
    else none
  | .create k => s.starting[k]?.map fun call => { s with
      starting := s.starting.eraseIdx k
      discussions := s.discussions ++ [{ leader := call.1, participantAgentIds := call.2 }] }
  | .startFails k => s.starting[k]?.map fun _ => { s with starting := s.starting.eraseIdx k }
  | .invite leader agentIds => (s.activeTeamDiscussion leader).bind fun i =>
    s.discussions[i]?.bind fun d =>
      if ∀ n ∈ agentIds, s.IsMember leader n then
        s.updateTeamDiscussion i
          (d.participantAgentIds ++ agentIds.dedup.filter (· ∉ d.participantAgentIds)) d.active
      else none
  | .kick leader agentIds => (s.activeTeamDiscussion leader).bind fun i =>
    s.discussions[i]?.bind fun d =>
      let remaining := d.participantAgentIds.filter (· ∉ agentIds)
      if (∀ n ∈ agentIds, n ∈ d.participantAgentIds) ∧ agentIds.Nodup ∧ remaining ≠ [] then
        s.updateTeamDiscussion i remaining d.active
      else none
  | .continueWith leader => (s.activeTeamDiscussion leader).bind fun i =>
    s.discussions[i]?.map fun d =>
      { s with continuing := s.continuing ++ [(i, d.participantAgentIds)] }
  | .round k => s.continuing[k]?.bind fun call =>
    { s with continuing := s.continuing.eraseIdx k }.updateTeamDiscussion call.1 call.2 true
  | .archive leader => (s.activeTeamDiscussion leader).bind fun i =>
    s.discussions[i]?.map fun d =>
      { s with archiving := s.archiving ++ [(i, d.participantAgentIds)] }
  | .archived k => s.archiving[k]?.bind fun call =>
    { s with archiving := s.archiving.eraseIdx k }.updateTeamDiscussion call.1 call.2 false
  | .dismiss leader agentIds =>
    if s.CanDismiss leader agentIds then
      some { s with
        leaderOf := fun n => if n ∈ agentIds then none else s.leaderOf n
        discussions := s.discussions.map (s.withoutDismissed leader agentIds) }
    else none

/-- No active discussion is led by the node. -/
def Free (s : DiscussionTree) (n : ℕ) : Prop := ∀ d ∈ s.discussions, ¬ActiveOf n d

instance (s : DiscussionTree) (n : ℕ) : Decidable (s.Free n) :=
  inferInstanceAs (Decidable (∀ d ∈ s.discussions, _))

/-- **What the checks leave out.** -/
def Orderly (s : DiscussionTree) : DiscussionEvent → Prop
  -- when a discussion is written its leader still has none and takes part in none, of any session;
  -- and the participants are still members, and lead no active discussion
  | .create k => ∀ call ∈ s.starting[k]?, s.Free call.1 ∧
      (∀ d ∈ s.discussions, d.active = true → call.1 ∉ d.participantAgentIds) ∧
      ∀ n ∈ call.2, s.IsMember call.1 n ∧ s.Free n
  -- who is invited leads no active discussion
  | .invite _ agentIds => ∀ n ∈ agentIds, s.Free n
  -- a continued discussion is still active, and who comes back is a member that leads none
  | .round k => ∀ call ∈ s.continuing[k]?, ∀ d ∈ s.discussions[call.1]?, d.active = true ∧
      ∀ n ∈ call.2, n ∈ d.participantAgentIds ∨ s.IsMember d.leader n ∧ s.Free n
  | _ => True

instance (s : DiscussionTree) (e : DiscussionEvent) : Decidable (s.Orderly e) := by
  cases e <;> unfold Orderly <;> infer_instance

/-! ### What is promised -/

/-- The node leads the discussion or takes part in it. -/
def Discusses (n : ℕ) (d : TeamDiscussion) : Prop := d.leader = n ∨ n ∈ d.participantAgentIds

/-- **Each leader has one active discussion at most, and each node discusses in one at most.** -/
structure OneDiscussion (s : DiscussionTree) : Prop where
  leaders : ∀ (i j : ℕ) (d d' : TeamDiscussion), s.discussions[i]? = some d →
    s.discussions[j]? = some d' → d.active = true → d'.active = true → d.leader = d'.leader → i = j
  nodes : ∀ (n i j : ℕ) (d d' : TeamDiscussion), s.discussions[i]? = some d →
    s.discussions[j]? = some d' → d.active = true → d'.active = true →
    Discusses n d → Discusses n d' → i = j

/-! ### The invariant -/

/-- **The invariant.** Participants are members of the leader, and lead no active discussion. -/
structure Single (s : DiscussionTree) : Prop where
  tree : ∀ n, s.leaderOf n ≠ some n
  leaders : ∀ (i j : ℕ) (d d' : TeamDiscussion), s.discussions[i]? = some d →
    s.discussions[j]? = some d' → d.active = true → d'.active = true → d.leader = d'.leader → i = j
  members : ∀ d ∈ s.discussions, d.active = true → ∀ n ∈ d.participantAgentIds,
    s.IsMember d.leader n ∧ s.Free n

/-- **What is promised follows from the invariant.** -/
theorem Single.oneDiscussion (h : s.Single) : s.OneDiscussion where
  leaders := h.leaders
  nodes := by
    intro n i j d d' hi hj hactive hactive' hd hd'
    have hmem := mem_of_getElem? hi
    have hmem' := mem_of_getElem? hj
    rcases hd with hleads | htakes <;> rcases hd' with hleads' | htakes'
    · exact h.leaders i j d d' hi hj hactive hactive' (hleads.trans hleads'.symm)
    · exact absurd ⟨hleads, hactive⟩ ((h.members d' hmem' hactive' n htakes').2 d hmem)
    · exact absurd ⟨hleads', hactive'⟩ ((h.members d hmem hactive n htakes).2 d' hmem')
    · -- the node has one leader, so both discussions are of that leader
      have hleader := (h.members d hmem hactive n htakes).1
      have hleader' := (h.members d' hmem' hactive' n htakes').1
      have hsame : d.leader = d'.leader := some.inj (hleader.symm.trans hleader')
      exact h.leaders i j d d' hi hj hactive hactive' hsame

/-! ### Steps -/

theorem Single.calls (h : s.Single) (hleaderOf : t.leaderOf = s.leaderOf)
    (hdiscussions : t.discussions = s.discussions) : t.Single where
  tree := by
    rw [hleaderOf]
    exact h.tree
  leaders := by
    rw [hdiscussions]
    exact h.leaders
  members := by
    intro d hd hactive n hn
    rw [hdiscussions] at hd
    obtain ⟨hleader, hfree⟩ := h.members d hd hactive n hn
    refine ⟨?_, ?_⟩
    · rw [IsMember, hleaderOf]
      exact hleader
    · rw [Free, hdiscussions]
      exact hfree

theorem Single.hire (h : s.Single) {n leader : ℕ} (hnone : s.leaderOf n = none)
    (hne : n ≠ leader) :
    ({ s with leaderOf := update s.leaderOf n (some leader) } : DiscussionTree).Single where
  tree := by
    intro m
    by_cases hm : m = n
    · subst hm
      show update s.leaderOf m (some leader) m ≠ some m
      rw [update_self]
      exact fun heq => hne (some.inj heq).symm
    · show update s.leaderOf n (some leader) m ≠ some m
      rw [update_of_ne hm]
      exact h.tree m
  leaders := h.leaders
  members := by
    intro d hd hactive m hm
    obtain ⟨hleader, hfree⟩ := h.members d hd hactive m hm
    have hmn : m ≠ n := by
      rintro rfl
      rw [IsMember, hnone] at hleader
      cases hleader
    refine ⟨?_, hfree⟩
    show update s.leaderOf n (some leader) m = _
    rw [update_of_ne hmn]
    exact hleader

/-- **A discussion is written**: its leader has no other, and its participants lead none. -/
theorem Single.create (h : s.Single) {leader : ℕ} {participantAgentIds : List ℕ}
    (hfree : s.Free leader)
    (hnot : ∀ d ∈ s.discussions, d.active = true → leader ∉ d.participantAgentIds)
    (hmembers : ∀ n ∈ participantAgentIds, s.IsMember leader n ∧ s.Free n)
    (hleaderOf : t.leaderOf = s.leaderOf)
    (hdiscussions : t.discussions = s.discussions ++
      [{ leader := leader, participantAgentIds := participantAgentIds }]) : t.Single where
  tree := by
    rw [hleaderOf]
    exact h.tree
  leaders := by
    intro i j d d' hi hj hactive hactive' hleader
    rw [hdiscussions] at hi hj
    rcases LibPlaces.getElem?_append_singleton hi with hi | ⟨rfl, rfl⟩ <;>
      rcases LibPlaces.getElem?_append_singleton hj with hj | ⟨rfl, rfl⟩
    · exact h.leaders i j d d' hi hj hactive hactive' hleader
    · exact absurd ⟨hleader, hactive⟩ (hfree d (mem_of_getElem? hi))
    · exact absurd ⟨hleader.symm, hactive'⟩ (hfree d' (mem_of_getElem? hj))
    · rfl
  members := by
    intro d hd hactive n hn
    have hleads : ∀ d' ∈ t.discussions, s.Free n → n ≠ leader → ¬ActiveOf n d' := by
      intro d' hd' hn' hne
      rw [hdiscussions] at hd'
      rcases mem_append.1 hd' with hold | hlast
      · exact hn' d' hold
      · rw [mem_singleton.1 hlast]
        exact fun hactive => hne hactive.1.symm
    rw [hdiscussions] at hd
    rcases mem_append.1 hd with hold | hlast
    · obtain ⟨hleader, hn'⟩ := h.members d hold hactive n hn
      refine ⟨by rw [IsMember, hleaderOf]; exact hleader, fun d' hd' => hleads d' hd' hn' ?_⟩
      rintro rfl
      exact hnot d hold hactive hn
    · rw [mem_singleton.1 hlast] at hn ⊢
      obtain ⟨hleader, hn'⟩ := hmembers n hn
      refine ⟨by rw [IsMember, hleaderOf]; exact hleader, fun d' hd' => hleads d' hd' hn' ?_⟩
      rintro rfl
      exact h.tree n hleader

/-- **A discussion is written back**, with members that may take part. -/
theorem Single.update (h : s.Single) {i : ℕ} {participantAgentIds : List ℕ} {active : Bool}
    (ht : s.updateTeamDiscussion i participantAgentIds active = some t)
    (hactive : ∀ d ∈ s.discussions[i]?, active = true → d.active = true)
    (hmembers : ∀ d ∈ s.discussions[i]?, active = true → ∀ n ∈ participantAgentIds,
      n ∈ d.participantAgentIds ∨ s.IsMember d.leader n ∧ s.Free n) : t.Single := by
  obtain ⟨d, hd, ht⟩ := bind_eq_some_iff.1 ht
  split at ht <;> cases ht
  have hfree : ∀ n, s.Free n → ∀ d' ∈ s.discussions.set i
      { d with participantAgentIds := participantAgentIds, active := active },
      ¬ActiveOf n d' := by
    intro n hn d' hd' hleads
    rcases mem_or_eq_of_mem_set hd' with hold | rfl
    · exact hn d' hold hleads
    · exact hn d (mem_of_getElem? hd) ⟨hleads.1, hactive d hd hleads.2⟩
  refine ⟨h.tree, fun j j' e e' hj hj' he he' hleader => ?_, fun e he hactive' n hn => ?_⟩
  · -- the discussion that is written had its leader and was active before
    have hbefore : ∀ {k : ℕ} {e : TeamDiscussion}, (s.discussions.set i
        { d with participantAgentIds := participantAgentIds, active := active })[k]? = some e →
        e.active = true → ∃ e₀, s.discussions[k]? = some e₀ ∧ e₀.active = true ∧
          e₀.leader = e.leader := by
      intro k e hk hactive'
      rcases LibPlaces.getElem?_set_cases hk with ⟨rfl, rfl⟩ | ⟨-, hold⟩
      · exact ⟨d, hd, hactive d hd hactive', rfl⟩
      · exact ⟨e, hold, hactive', rfl⟩
    obtain ⟨e₀, hj₀, he₀, hleader₀⟩ := hbefore hj he
    obtain ⟨e₁, hj₁, he₁, hleader₁⟩ := hbefore hj' he'
    exact h.leaders j j' e₀ e₁ hj₀ hj₁ he₀ he₁ (hleader₀.trans (hleader.trans hleader₁.symm))
  · rcases mem_or_eq_of_mem_set he with hold | rfl
    · obtain ⟨hleader, hn'⟩ := h.members e hold hactive' n hn
      exact ⟨hleader, hfree n hn'⟩
    · rcases hmembers d hd hactive' n hn with hold | ⟨hleader, hn'⟩
      · obtain ⟨hleader, hn'⟩ := h.members d (mem_of_getElem? hd) (hactive d hd hactive') n hold
        exact ⟨hleader, hfree n hn'⟩
      · exact ⟨hleader, hfree n hn'⟩

theorem Single.dismiss (h : s.Single) {leader : ℕ} {dismissed : List ℕ}
    (hdismiss : s.CanDismiss leader dismissed) :
    ({ s with
      leaderOf := fun n => if n ∈ dismissed then none else s.leaderOf n
      discussions := s.discussions.map (s.withoutDismissed leader dismissed) } :
      DiscussionTree).Single := by
  have hbefore : ∀ d, (s.withoutDismissed leader dismissed d).leader = d.leader ∧
      ((s.withoutDismissed leader dismissed d).active = true → d.active = true) ∧
      ∀ n ∈ (s.withoutDismissed leader dismissed d).participantAgentIds,
        n ∈ d.participantAgentIds := by
    intro d
    rw [withoutDismissed]
    split
    · split
      · exact ⟨rfl, (fun hfalse => by cases hfalse), fun _ hn => hn⟩
      · exact ⟨rfl, fun hactive => (Bool.and_eq_true_iff.1 hactive).1,
          fun n hn => mem_of_mem_filter hn⟩
    · exact ⟨rfl, fun hactive => hactive, fun _ hn => hn⟩
  refine ⟨fun n => ?_, fun i j d d' hi hj hactive hactive' hleader => ?_,
    fun d hd hactive n hn => ?_⟩
  · show (if n ∈ dismissed then none else s.leaderOf n) ≠ some n
    split
    · exact (some_ne_none n).symm
    · exact h.tree n
  · obtain ⟨e, he, rfl⟩ := map_eq_some_iff.1 ((getElem?_map ..).symm.trans hi)
    obtain ⟨e', he', rfl⟩ := map_eq_some_iff.1 ((getElem?_map ..).symm.trans hj)
    refine h.leaders i j e e' he he' ((hbefore e).2.1 hactive) ((hbefore e').2.1 hactive') ?_
    exact (hbefore e).1.symm.trans (hleader.trans (hbefore e').1)
  · obtain ⟨e, he, rfl⟩ := mem_map.1 hd
    obtain ⟨hleader, hactive₀, hparticipants⟩ := hbefore e
    obtain ⟨hmember, hfree⟩ := h.members e he (hactive₀ hactive) n (hparticipants n hn)
    refine ⟨?_, fun d' hd' hleads => ?_⟩
    · -- who was dismissed takes part no more: its discussion is in the leader's session
      have hstays : n ∉ dismissed := by
        intro hgone
        obtain ⟨l, hl, hsession⟩ := hdismiss n hgone
        cases hmember.symm.trans hl
        rw [withoutDismissed, if_pos hsession] at hn hactive
        split at hn
        · rename_i hleader'
          rw [if_pos hleader'] at hactive
          cases hactive
        · exact absurd hgone (by simpa using (List.mem_filter.1 hn).2)
      show (if n ∈ dismissed then none else s.leaderOf n) = _
      rw [if_neg hstays, hleader]
      exact hmember
    · obtain ⟨e', he', rfl⟩ := mem_map.1 hd'
      exact hfree e' he' ⟨(hbefore e').1.symm.trans hleads.1, (hbefore e').2.1 hleads.2⟩

theorem active_of_activeTeamDiscussion {leader i : ℕ} (h : s.activeTeamDiscussion leader = some i)
    {d : TeamDiscussion} (hd : s.discussions[i]? = some d) : ActiveOf leader d := by
  obtain ⟨hlt, hactive, -⟩ := List.findIdx?_eq_some_iff_getElem.1 h
  obtain ⟨hlt', rfl⟩ := List.getElem?_eq_some_iff.1 hd
  exact of_decide_eq_true hactive

/-- **Every orderly step keeps the invariant.** -/
theorem Single.step (h : s.Single) {e : DiscussionEvent} (horderly : s.Orderly e)
    (ht : s.step e = some t) : t.Single := by
  cases e with
  | hire n leader =>
    rw [DiscussionTree.step] at ht
    split at ht <;> cases ht
    rename_i hguard
    exact h.hire hguard.1 hguard.2
  | start leader participantAgentIds =>
    rw [DiscussionTree.step] at ht
    split at ht <;> cases ht
    exact h.calls rfl rfl
  | create k =>
    obtain ⟨call, hcall, rfl⟩ := map_eq_some_iff.1 ht
    obtain ⟨hfree, hnot, hmembers⟩ := horderly call hcall
    exact h.create hfree hnot hmembers rfl rfl
  | startFails k =>
    obtain ⟨call, hcall, rfl⟩ := map_eq_some_iff.1 ht
    exact h.calls rfl rfl
  | invite leader agentIds =>
    obtain ⟨i, hi, ht⟩ := bind_eq_some_iff.1 ht
    obtain ⟨d, hd, ht⟩ := bind_eq_some_iff.1 ht
    split at ht
    · rename_i hmembers
      refine h.update ht (fun d' hd' hactive => ?_) fun d' hd' hactive n hn => ?_
      · cases hd.symm.trans hd'
        exact hactive
      · cases hd.symm.trans hd'
        rcases mem_append.1 hn with hold | hadded
        · exact .inl hold
        · have hasked : n ∈ agentIds := mem_dedup.1 (mem_of_mem_filter hadded)
          have hleader : d.leader = leader := (active_of_activeTeamDiscussion hi hd).1
          exact .inr ⟨hleader ▸ hmembers n hasked, horderly n hasked⟩
    · cases ht
  | kick leader agentIds =>
    obtain ⟨i, hi, ht⟩ := bind_eq_some_iff.1 ht
    obtain ⟨d, hd, ht⟩ := bind_eq_some_iff.1 ht
    dsimp only at ht
    split at ht
    · refine h.update ht (fun d' hd' hactive => ?_) fun d' hd' hactive n hn => ?_
      · cases hd.symm.trans hd'
        exact hactive
      · cases hd.symm.trans hd'
        exact .inl (mem_of_mem_filter hn)
    · cases ht
  | continueWith | archive =>
    obtain ⟨i, hi, ht⟩ := bind_eq_some_iff.1 ht
    obtain ⟨d, hd, rfl⟩ := map_eq_some_iff.1 ht
    exact h.calls rfl rfl
  | round k =>
    obtain ⟨call, hcall, ht⟩ := bind_eq_some_iff.1 ht
    -- what the round reads is not changed when it is taken from the calls under way
    have hs : ({ s with continuing := s.continuing.eraseIdx k } : DiscussionTree).Single :=
      h.calls rfl rfl
    exact hs.update ht (fun d hd _ => (horderly call hcall d hd).1)
      fun d hd _ => (horderly call hcall d hd).2
  | archived k =>
    obtain ⟨call, hcall, ht⟩ := bind_eq_some_iff.1 ht
    have hs : ({ s with archiving := s.archiving.eraseIdx k } : DiscussionTree).Single :=
      h.calls rfl rfl
    exact hs.update ht (fun d hd hfalse => by cases hfalse) fun d hd hfalse => by cases hfalse
  | dismiss leader agentIds =>
    rw [DiscussionTree.step] at ht
    split at ht <;> cases ht
    rename_i hdismiss
    exact h.dismiss hdismiss

/-! ### Runs -/

/-- Nothing has been discussed, no call is under way, and no node leads itself. -/
structure Quiet (s : DiscussionTree) : Prop where
  tree : ∀ n, s.leaderOf n ≠ some n
  discussions : s.discussions = []
  starting : s.starting = []
  continuing : s.continuing = []
  archiving : s.archiving = []

theorem Quiet.single (h : s.Quiet) : s.Single := by
  refine ⟨h.tree, fun i j d d' hi => ?_, fun d hd => ?_⟩
  · rw [h.discussions] at hi
    cases hi
  · rw [h.discussions] at hd
    cases hd

/-- **Each leader has one active discussion at most, and each node discusses in one at most.** In
every run in which the checks that are left out hold, from a state in which nothing is discussed. -/
theorem run_single (s₀ : DiscussionTree) (h₀ : s₀.Quiet) (l : List DiscussionEvent)
    (s : DiscussionTree) (h : LibRun.Run step Orderly s₀ l s) : s.OneDiscussion := by
  have hs : s.Single := h.invariant h₀.single fun _ _ _ ht horderly hu => ht.step horderly hu
  exact hs.oneDiscussion

/-- Two departments, one below the other: the lower one starts its discussion when that of the upper
one is over. -/
theorem run_single_example : ∃ s, LibRun.Run step Orderly { session := fun _ => 0 }
      [.hire 1 0, .hire 2 0, .hire 3 1, .start 0 [1], .create 0, .invite 0 [2], .continueWith 0,
        .round 0, .kick 0 [2], .archive 0, .archived 0, .start 1 [3], .create 0, .dismiss 0 [2]] s ∧
    s.OneDiscussion := by
  have hquiet : Quiet { session := fun _ => 0 } := ⟨(fun n h => by cases h), rfl, rfl, rfl, rfl⟩
  have hrun : ∃ s, LibRun.Run step Orderly { session := fun _ => 0 }
      [.hire 1 0, .hire 2 0, .hire 3 1, .start 0 [1], .create 0, .invite 0 [2], .continueWith 0,
        .round 0, .kick 0 [2], .archive 0, .archived 0, .start 1 [3], .create 0, .dismiss 0 [2]] s ∧
      s.discussions.length = 2 :=
    exists_run (by decide +kernel) (by decide +kernel)
  obtain ⟨s, hs, -⟩ := hrun
  exact ⟨s, hs, run_single _ hquiet _ s hs⟩

theorem not_oneDiscussion {n : ℕ} {d d' : TeamDiscussion} {l : List TeamDiscussion}
    (h : s.discussions = d :: d' :: l) (hactive : d.active = true) (hactive' : d'.active = true)
    (hd : Discusses n d) (hd' : Discusses n d') : ¬s.OneDiscussion := by
  intro hone
  have hsame : 0 = 1 := hone.nodes n 0 1 d d' (by rw [h]; rfl) (by rw [h]; rfl) hactive hactive'
    hd hd'
  cases hsame

/-- **Four ways to be in two discussions.** Two starts both pass the checks before one of them is
written. Who chairs a discussion is made a participant of another one. A round that has read a
discussion makes it active again after it was archived and a new one was started. And the leader of
another session takes part in a discussion that the check of its own session does not see. -/
theorem not_single :
    (∃ s, LibRun.Run step always { session := fun _ => 0 }
      [.hire 1 0, .start 0 [1], .start 0 [1], .create 0, .create 0] s ∧ ¬s.OneDiscussion) ∧
    (∃ s, LibRun.Run step always { session := fun _ => 0 }
      [.hire 1 0, .hire 2 1, .start 1 [2], .create 0, .start 0 [1], .create 0] s ∧
        ¬s.OneDiscussion) ∧
    (∃ s, LibRun.Run step always { session := fun _ => 0 }
      [.hire 1 0, .start 0 [1], .create 0, .continueWith 0, .archive 0, .archived 0, .start 0 [1],
        .create 0, .round 0] s ∧ ¬s.OneDiscussion) ∧
    ∃ s, LibRun.Run step always { session := fun n => if n = 0 then 0 else 1 }
      [.hire 1 0, .hire 2 1, .start 0 [1], .create 0, .start 1 [2], .create 0] s ∧
        ¬s.OneDiscussion := by
  refine ⟨?_, ?_, ?_, ?_⟩
  · have hrun : ∃ s, LibRun.Run step always { session := fun _ => 0 }
        [.hire 1 0, .start 0 [1], .start 0 [1], .create 0, .create 0] s ∧
        s.discussions = [⟨0, [1], true, false⟩, ⟨0, [1], true, false⟩] :=
      exists_run (by decide +kernel) (legal_always _ _)
    obtain ⟨s, hs, htwo⟩ := hrun
    exact ⟨s, hs, not_oneDiscussion htwo rfl rfl (.inl rfl) (.inl rfl)⟩
  · have hrun : ∃ s, LibRun.Run step always { session := fun _ => 0 }
        [.hire 1 0, .hire 2 1, .start 1 [2], .create 0, .start 0 [1], .create 0] s ∧
        s.discussions = [⟨1, [2], true, false⟩, ⟨0, [1], true, false⟩] :=
      exists_run (by decide +kernel) (legal_always _ _)
    obtain ⟨s, hs, htwo⟩ := hrun
    exact ⟨s, hs, not_oneDiscussion htwo rfl rfl (.inl rfl) (.inr (.head _))⟩
  · have hrun : ∃ s, LibRun.Run step always { session := fun _ => 0 }
        [.hire 1 0, .start 0 [1], .create 0, .continueWith 0, .archive 0, .archived 0,
          .start 0 [1], .create 0, .round 0] s ∧
        s.discussions = [⟨0, [1], true, false⟩, ⟨0, [1], true, false⟩] :=
      exists_run (by decide +kernel) (legal_always _ _)
    obtain ⟨s, hs, htwo⟩ := hrun
    exact ⟨s, hs, not_oneDiscussion htwo rfl rfl (.inl rfl) (.inl rfl)⟩
  · have hrun : ∃ s, LibRun.Run step always { session := fun n => if n = 0 then 0 else 1 }
        [.hire 1 0, .hire 2 1, .start 0 [1], .create 0, .start 1 [2], .create 0] s ∧
        s.discussions = [⟨0, [1], true, false⟩, ⟨1, [2], true, false⟩] :=
      exists_run (by decide +kernel) (legal_always _ _)
    obtain ⟨s, hs, htwo⟩ := hrun
    exact ⟨s, hs, not_oneDiscussion htwo rfl rfl (.inr (.head _)) (.inl rfl)⟩

end DiscussionTree

end NoriCode
