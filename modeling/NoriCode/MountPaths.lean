/-
**The two ways to mount a session.**

A session is mounted by the tools of the model, through the core, and by clients, through the
session service.  Each of the two checks that the sessions exist, that they differ, and that no
cycle arises, and writes the metadata of the child.  The service fills in a role, a mandate and a
name that the request does not give, for a session that comes under a new parent.

The module embeds, of `sessionService.ts`, `applyMount`, `assertAcyclicMount`, `writeMountMetadata`
and `resolveMountMemberIdentity`, and `toProtocolSession` of `session.ts`; the core is that of
`applySessionMount`.  No call fails, and what a loaded session has in memory has been written.

Main definitions:

* `MountMetadata.SessionTree` — the sessions;
* `MountMetadata.mountSession`, `MountMetadata.applyMount` — the two ways;
* `MountMetadata.Alike` — requests that leave nothing to be filled in, for sessions that
  are not archived.

Main results:

* `mount_alike_iff` — **both ways do the same, if and only if the request is alike**.
-/

import NoriCode.MountRollback

namespace NoriCode

namespace MountMetadata

open LibOrdMap LibForest

def DEFAULT_MOUNT_MEMBER_ROLE : String := "member"
def DEFAULT_MOUNT_MEMBER_MANDATE : String := "Member mounted on the conversation map."

/-! ### The sessions -/

/-- A session: what a summary has of it, and what it has in memory if it is loaded. -/
structure StoredSession where
  archived : Bool
  /-- The custom metadata, in `state.json` and in memory. -/
  metadata : Custom
  workDir : String
  /-- The title of the summary, without hidden ones. -/
  summaryTitle : Option String
  loaded : Bool
  /-- The title in memory. -/
  title : Option String

abbrev SessionTree := List (String × StoredSession)

namespace SessionTree

/-- The parents by session id, archived sessions among them. -/
def parentById (tree : SessionTree) : SessionMountTree :=
  tree.map fun entry => (entry.1, readParentSessionId entry.2.metadata)

/-- The parents, when the child is mounted. -/
def mountedParentById (tree : SessionTree) (sessionId parentSessionId : String) :
    SessionMountTree :=
  (sessionId, some parentSessionId) :: tree.parentById

/-- A session that `listSessions` gives without the archived ones. -/
def listed (tree : SessionTree) (id : String) : Option StoredSession :=
  (tree.lookup id).filter fun session => !session.archived

end SessionTree

namespace StoredSession

/-- `tryGetMeta`, of which only a loaded session has one. -/
def metaCustom (session : StoredSession) : Option Custom :=
  if session.loaded then some session.metadata else none

def metaTitle (session : StoredSession) : Option String :=
  if session.loaded then session.title else none

/-- The metadata that `toProtocolSession` gives out. -/
def protocolMetadata (session : StoredSession) : Custom :=
  let custom := session.metaCustom.getD OrdMap.empty
  let cwd := ((readText custom "cwd").or (readText session.metadata "cwd")).getD session.workDir
  (spread (session.metadata.erase "goal") (custom.erase "goal")).set "cwd" (.text cwd)

end StoredSession

/-! ### The core -/

/-- `mountSession` and `remountSession`: the metadata of the child afterwards, or nothing if the
request is rejected. -/
def mountSession (tree : SessionTree) (sessionId : String) (input : MountPayload) : Option Custom :=
  match tree.lookup sessionId with
  | none => none
  | some child =>
    let throws : MountCall → Option Empty := fun _ => none
    match applySessionMount ⟨sessionId, tree.parentById⟩ ⟨child.metadata, child.metaCustom⟩ input
      throws throws with
    | (.done, s) => some s.stored
    | _ => none

/-! ### The session service -/

def readMountName (metadata : Custom) : Option String := readText metadata MOUNT_NAME_KEY

/-- The loop of `assertAcyclicMount`. -/
def assertAcyclicMount (tree : SessionTree) (sessionId parentSessionId : String) : Bool :=
  let parentById := tree.mountedParentById sessionId parentSessionId
  !comesBack (parentOf parentById) (parentById.length + 2) [sessionId] (some parentSessionId)

/-- The session is loaded before its metadata is asked for. -/
def writeMountMetadata (session : StoredSession) (opts : WriteOptions) : Custom :=
  nextCustom (spread session.metadata session.metadata) opts

structure MountMemberIdentity where
  name : String
  role : String
  mandate : String

def resolveMountMemberIdentity (sessionId : String) (session : StoredSession)
    (role mandate : Option String) : MountMemberIdentity :=
  let custom := spread session.metadata (session.metaCustom.getD OrdMap.empty)
  { name := (((normalizeOptionalMountString session.metaTitle).or
      (normalizeOptionalMountString session.summaryTitle)).or (readMountName custom)).getD sessionId
    role := ((normalizeOptionalMountString role).or (readMountRole custom)).getD
      DEFAULT_MOUNT_MEMBER_ROLE
    mandate := ((normalizeOptionalMountString mandate).or (readMountMandate custom)).getD
      DEFAULT_MOUNT_MEMBER_MANDATE }

/-- `mount` and `remount`: the metadata of the child afterwards, or nothing if the request is
rejected. -/
def applyMount (tree : SessionTree) (id : String) (input : MountPayload) : Option Custom :=
  if input.parentSessionId = id then none
  else
    match tree.listed id, tree.listed input.parentSessionId with
    | some session, some _ =>
      let name := normalizeOptionalMountString input.name
      if readParentSessionId session.protocolMetadata = some input.parentSessionId then
        let role := normalizeOptionalMountString input.role
        let mandate := normalizeOptionalMountString input.mandate
        if role = none ∧ mandate = none ∧ name = none then some session.metadata
        else some (writeMountMetadata session
          { parentSessionId := some input.parentSessionId
            role := role
            mandate := mandate
            name := name
            clearIdentity := false })
      else if assertAcyclicMount tree id input.parentSessionId then
        let identity := resolveMountMemberIdentity id session input.role input.mandate
        some (writeMountMetadata session
          { parentSessionId := some input.parentSessionId
            role := some identity.role
            mandate := some identity.mandate
            name := some (name.getD identity.name)
            clearIdentity := false })
      else none
    | _, _ => none

/-! ### When both do the same -/

/-- Both reject a request, or leave the same place of the child. -/
def SameOutcome : Option Custom → Option Custom → Prop
  | none, none => True
  | some metadata, some metadata' => ∀ key ∈ mountKeys, metadata.get key = metadata'.get key
  | _, _ => False

instance (outcome outcome' : Option Custom) : Decidable (SameOutcome outcome outcome') :=
  match outcome, outcome' with
  | none, none => inferInstanceAs (Decidable True)
  | some metadata, some metadata' =>
    inferInstanceAs (Decidable (∀ key ∈ mountKeys, metadata.get key = metadata'.get key))
  | none, some _ => inferInstanceAs (Decidable False)
  | some _, none => inferInstanceAs (Decidable False)

/-- The trimmed title is the name already; without a title, there is a name, or the id is it. -/
def Named (sessionId : String) (child : StoredSession) : Prop :=
  match (normalizeOptionalMountString child.metaTitle).or
    (normalizeOptionalMountString child.summaryTitle) with
  | some title => child.metadata.get MOUNT_NAME_KEY = some (.text title)
  | none => readMountName child.metadata ≠ none ∨
      child.metadata.get MOUNT_NAME_KEY = some (.text sessionId)

/-- **What the request does not give, the child has.** -/
structure KeepsIdentity (sessionId : String) (child : StoredSession) (input : MountPayload) :
    Prop where
  role : normalizeOptionalMountString input.role ≠ none ∨ readMountRole child.metadata ≠ none
  mandate : normalizeOptionalMountString input.mandate ≠ none ∨
    readMountMandate child.metadata ≠ none
  name : normalizeOptionalMountString input.name ≠ none ∨ Named sessionId child

/-- **The condition**: two sessions that may be mounted are not archived, and the child is under
this parent already or has what the request does not give. -/
def Alike (tree : SessionTree) (sessionId : String) (input : MountPayload) : Prop :=
  ∀ child parent, tree.lookup sessionId = some child →
    tree.lookup input.parentSessionId = some parent → sessionId ≠ input.parentSessionId →
    readParentSessionId child.metadata = some input.parentSessionId ∨
      wouldCreateMountCycle sessionId input.parentSessionId
        (tree.mountedParentById sessionId input.parentSessionId) = false →
    child.archived = false ∧ parent.archived = false ∧
      (readParentSessionId child.metadata = some input.parentSessionId ∨
        KeepsIdentity sessionId child input)

/-! ### What is read and written -/

variable {ε : Type} {tree : SessionTree} {sessionId : String} {session child : StoredSession}
  {input : MountPayload}

theorem get_spread_self (metadata : Custom) (key : String) :
    (spread metadata metadata).get key = metadata.get key := by
  rw [get_spread, Option.or_self]

theorem get_spread_metaCustom (session : StoredSession) (key : String) :
    (spread session.metadata (session.metaCustom.getD OrdMap.empty)).get key =
      session.metadata.get key := by
  unfold StoredSession.metaCustom
  cases session.loaded with
  | true => exact get_spread_self _ _
  | false => exact (get_spread _ _ _).trans Option.none_or

variable {metadata : Custom} {key : String}

theorem readText_congr {metadata' : Custom} (h : metadata.get key = metadata'.get key) :
    readText metadata key = readText metadata' key := by
  unfold readText
  rw [h]

theorem readParentSessionId_protocolMetadata (session : StoredSession) :
    readParentSessionId session.protocolMetadata = readParentSessionId session.metadata := by
  have hgoal : PARENT_SESSION_ID_KEY ≠ "goal" := by decide
  have hcwd : PARENT_SESSION_ID_KEY ≠ "cwd" := by decide
  refine readText_congr ?_
  simp only [StoredSession.protocolMetadata, OrdMap.get_set, get_spread, OrdMap.get_erase, hgoal,
    hcwd, if_false]
  exact (get_spread _ _ _).symm.trans (get_spread_metaCustom session _)

theorem get_mounted (custom : Custom) (parent : String) (role mandate name : Option String) :
    (nextCustom custom ⟨some parent, role, mandate, name, false⟩).get PARENT_SESSION_ID_KEY =
        some (.text parent) ∧
    (nextCustom custom ⟨some parent, role, mandate, name, false⟩).get CHILD_SESSION_KIND_KEY =
        some (.text CHILD_SESSION_KIND) ∧
    (nextCustom custom ⟨some parent, role, mandate, name, false⟩).get MOUNT_ROLE_KEY =
        (written role).or (custom.get MOUNT_ROLE_KEY) ∧
    (nextCustom custom ⟨some parent, role, mandate, name, false⟩).get MOUNT_MANDATE_KEY =
        (written mandate).or (custom.get MOUNT_MANDATE_KEY) ∧
    (nextCustom custom ⟨some parent, role, mandate, name, false⟩).get MOUNT_NAME_KEY =
        (written name).or (custom.get MOUNT_NAME_KEY) := by
  simp [nextCustom, get_setText, PARENT_SESSION_ID_KEY, CHILD_SESSION_KIND_KEY, MOUNT_ROLE_KEY,
    MOUNT_MANDATE_KEY, MOUNT_NAME_KEY]

theorem syncTeamAgents_done (all : List String) (id : String) (old new : Option String) :
    syncTeamAgentsFromCoreMount all id old new (fun _ => (none : Option ε)) = none := by
  exact List.findSome?_eq_none_iff.2 fun _ _ => rfl

theorem sync_done (scene : MountScene) (s : ChildSession) (sync : SyncInput)
    (throwsBack : MountCall → Option ε) :
    syncCoreMountWithRollback scene s sync (fun _ => none) throwsBack = (.done, s) := by
  simp [syncCoreMountWithRollback, syncTeamAgents_done]

theorem writeAndSync_done (scene : MountScene) (s : ChildSession) (opts : WriteOptions)
    (sync : SyncInput) (throwsBack : MountCall → Option ε) :
    writeAndSync scene s opts sync (fun _ => none) throwsBack =
      (.done, ⟨nextCustom (spread s.stored (s.loaded.getD s.stored)) opts,
        some (nextCustom (spread s.stored (s.loaded.getD s.stored)) opts)⟩) := by
  simp [writeAndSync, writeSessionMountMetadata, sync_done]

/-! ### What is filled in -/

variable {d : String}

theorem written_getD_iff {metadata' : Custom} {value : Option String} :
    (written value).or (metadata.get key) = (written (some (value.getD d))).or (metadata'.get key) ↔
      value ≠ none ∨ metadata.get key = some (.text d) := by
  cases value <;> simp [written]

/-- What is filled in for a stored text is that text, or the default is what is stored. -/
theorem get_eq_readText_getD_iff :
    metadata.get key = some (.text ((readText metadata key).getD d)) ↔
      readText metadata key ≠ none ∨ metadata.get key = some (.text d) := by
  unfold readText
  rcases metadata.get key with - | (s | json)
  · simp
  · by_cases hs : s = "" <;> simp [hs]
  · simp

theorem get_eq_default_iff (hd : d ≠ "") :
    metadata.get key = some (.text ((readText metadata key).getD d)) ↔
      readText metadata key ≠ none := by
  refine get_eq_readText_getD_iff.trans ⟨?_, Or.inl⟩
  rintro (hread | hget)
  · exact hread
  · simp [readText, hget, hd]

theorem named_iff : Named sessionId child ↔ child.metadata.get MOUNT_NAME_KEY =
    some (.text ((((normalizeOptionalMountString child.metaTitle).or
      (normalizeOptionalMountString child.summaryTitle)).or
        (readMountName child.metadata)).getD sessionId)) := by
  unfold Named
  cases (normalizeOptionalMountString child.metaTitle).or
      (normalizeOptionalMountString child.summaryTitle) with
  | some title => exact Iff.rfl
  | none => exact get_eq_readText_getD_iff.symm

/-! ### What each of the two does -/

theorem hasOwn_parentById (tree : SessionTree) (id : String) :
    hasOwn tree.parentById id = (tree.lookup id).isSome := by
  have hlookup : tree.parentById.lookup id =
      (tree.lookup id).map fun session => readParentSessionId session.metadata :=
    lookup_map tree (fun session => readParentSessionId session.metadata) id
  rw [hasOwn, hlookup, Option.isSome_map]

theorem mountSession_of_lookup (hchild : tree.lookup sessionId = some child) :
    mountSession tree sessionId input =
      let opts : WriteOptions :=
        { parentSessionId := some input.parentSessionId
          role := normalizeOptionalMountString input.role
          mandate := normalizeOptionalMountString input.mandate
          name := normalizeOptionalMountString input.name
          clearIdentity := false }
      if sessionId = input.parentSessionId ∨ tree.lookup input.parentSessionId = none then none
      else if readParentSessionId child.metadata = some input.parentSessionId then
        if opts.role = none ∧ opts.mandate = none ∧ opts.name = none then some child.metadata
        else some (nextCustom (spread child.metadata (child.metaCustom.getD child.metadata)) opts)
      else if wouldCreateMountCycle sessionId input.parentSessionId
          (tree.mountedParentById sessionId input.parentSessionId) = true then none
      else some
        (nextCustom (spread child.metadata (child.metaCustom.getD child.metadata)) opts) := by
  have hparent : (¬hasOwn tree.parentById input.parentSessionId = true) ↔
      tree.lookup input.parentSessionId = none := by
    rw [hasOwn_parentById, Option.not_isSome_iff_eq_none]
  simp only [mountSession, hchild, applySessionMount, hparent, sync_done, writeAndSync_done]
  split_ifs <;> first | rfl | contradiction

theorem listed_of_lookup (hchild : tree.lookup sessionId = some child) :
    tree.listed sessionId = if child.archived then none else some child := by
  rw [SessionTree.listed, hchild]
  cases harchived : child.archived <;> simp [Option.filter, harchived]

theorem assertAcyclicMount_eq {parentSessionId : String} (hne : sessionId ≠ parentSessionId) :
    assertAcyclicMount tree sessionId parentSessionId =
      !wouldCreateMountCycle sessionId parentSessionId
        (tree.mountedParentById sessionId parentSessionId) := by
  simp [assertAcyclicMount, wouldCreateMountCycle, hne]

theorem applyMount_of_lookup {parent : StoredSession} (hchild : tree.lookup sessionId = some child)
    (hparent : tree.lookup input.parentSessionId = some parent)
    (hne : sessionId ≠ input.parentSessionId) :
    applyMount tree sessionId input =
      let identity := resolveMountMemberIdentity sessionId child input.role input.mandate
      let name := normalizeOptionalMountString input.name
      if child.archived = true ∨ parent.archived = true then none
      else if readParentSessionId child.metadata = some input.parentSessionId then
        if normalizeOptionalMountString input.role = none ∧
            normalizeOptionalMountString input.mandate = none ∧ name = none then
          some child.metadata
        else some (writeMountMetadata child ⟨some input.parentSessionId,
          normalizeOptionalMountString input.role, normalizeOptionalMountString input.mandate,
          name, false⟩)
      else if wouldCreateMountCycle sessionId input.parentSessionId
          (tree.mountedParentById sessionId input.parentSessionId) = true then none
      else some (writeMountMetadata child ⟨some input.parentSessionId, some identity.role,
        some identity.mandate, some (name.getD identity.name), false⟩) := by
  simp only [applyMount, Ne.symm hne, if_false, listed_of_lookup hchild, listed_of_lookup hparent,
    assertAcyclicMount_eq hne, readParentSessionId_protocolMetadata]
  cases child.archived with
  | true => rfl
  | false =>
    cases parent.archived with
    | true => rfl
    | false =>
      cases wouldCreateMountCycle sessionId input.parentSessionId
        (tree.mountedParentById sessionId input.parentSessionId) <;> rfl

theorem sameOutcome_mounted_iff {custom custom' : Custom} {parent : String}
    {role mandate name : Option String} {role' mandate' name' : String}
    (hget : ∀ key, custom.get key = child.metadata.get key) :
    SameOutcome (some (nextCustom custom ⟨some parent, role, mandate, name, false⟩))
        (some (nextCustom custom' ⟨some parent, some (role.getD role'),
          some (mandate.getD mandate'), some (name.getD name'), false⟩)) ↔
      (role ≠ none ∨ child.metadata.get MOUNT_ROLE_KEY = some (.text role')) ∧
      (mandate ≠ none ∨ child.metadata.get MOUNT_MANDATE_KEY = some (.text mandate')) ∧
      (name ≠ none ∨ child.metadata.get MOUNT_NAME_KEY = some (.text name')) := by
  obtain ⟨hp, hk, hr, hm, hn⟩ := get_mounted custom parent role mandate name
  obtain ⟨hp', hk', hr', hm', hn'⟩ := get_mounted custom' parent (some (role.getD role'))
    (some (mandate.getD mandate')) (some (name.getD name'))
  simp [SameOutcome, mountKeys, hp, hk, hr, hm, hn, hp', hk', hr', hm', hn', written_getD_iff, hget]

theorem resolveMountMemberIdentity_eq (sessionId : String) (session : StoredSession)
    (role mandate : Option String) :
    resolveMountMemberIdentity sessionId session role mandate =
      { name := (((normalizeOptionalMountString session.metaTitle).or
          (normalizeOptionalMountString session.summaryTitle)).or
            (readMountName session.metadata)).getD sessionId
        role := (normalizeOptionalMountString role).getD
          ((readMountRole session.metadata).getD DEFAULT_MOUNT_MEMBER_ROLE)
        mandate := (normalizeOptionalMountString mandate).getD
          ((readMountMandate session.metadata).getD DEFAULT_MOUNT_MEMBER_MANDATE) } := by
  have hread : ∀ key, readText
      (spread session.metadata (session.metaCustom.getD OrdMap.empty)) key =
        readText session.metadata key :=
    fun key => readText_congr (get_spread_metaCustom session key)
  simp [resolveMountMemberIdentity, readMountName, readMountRole, readMountMandate, hread]

theorem get_spread_loaded (session : StoredSession) (key : String) :
    (spread session.metadata (session.metaCustom.getD session.metadata)).get key =
      session.metadata.get key := by
  unfold StoredSession.metaCustom
  cases session.loaded <;> exact get_spread_self _ _

theorem sameOutcome_congr {custom custom' : Custom} {parent : String}
    {role mandate name : Option String} (hget : ∀ key, custom.get key = custom'.get key) :
    SameOutcome (some (nextCustom custom ⟨some parent, role, mandate, name, false⟩))
      (some (nextCustom custom' ⟨some parent, role, mandate, name, false⟩)) := by
  obtain ⟨hp, hk, hr, hm, hn⟩ := get_mounted custom parent role mandate name
  obtain ⟨hp', hk', hr', hm', hn'⟩ := get_mounted custom' parent role mandate name
  simp [SameOutcome, mountKeys, hp, hk, hr, hm, hn, hp', hk', hr', hm', hn', hget]

/-- **A request that the core accepts.** -/
theorem sameOutcome_accepted_iff {parent : StoredSession}
    (hchild : tree.lookup sessionId = some child)
    (hparent : tree.lookup input.parentSessionId = some parent)
    (hne : sessionId ≠ input.parentSessionId)
    (haccepted : readParentSessionId child.metadata = some input.parentSessionId ∨
      wouldCreateMountCycle sessionId input.parentSessionId
        (tree.mountedParentById sessionId input.parentSessionId) = false) :
    SameOutcome (mountSession tree sessionId input) (applyMount tree sessionId input) ↔
      child.archived = false ∧ parent.archived = false ∧
        (readParentSessionId child.metadata = some input.parentSessionId ∨
          KeepsIdentity sessionId child input) := by
  have hfound : ¬(sessionId = input.parentSessionId ∨
      tree.lookup input.parentSessionId = none) := by
    rw [hparent]
    rintro (heq | hnone)
    · exact hne heq
    · cases hnone
  rw [mountSession_of_lookup hchild, applyMount_of_lookup hchild hparent hne]
  simp only [if_neg hfound]
  by_cases harchived : child.archived = true ∨ parent.archived = true
  · -- the core accepts, and the service does not find the archived session
    rw [if_pos harchived]
    have hnot : ¬(child.archived = false ∧ parent.archived = false ∧
        (readParentSessionId child.metadata = some input.parentSessionId ∨
          KeepsIdentity sessionId child input)) := by
      rintro ⟨hchild, hparent, -⟩
      rw [hchild, hparent] at harchived
      simp at harchived
    refine ⟨fun h => False.elim ?_, fun h => absurd h hnot⟩
    split_ifs at h with hsame hnone hcycle
    · exact h
    · exact h
    · rw [haccepted.resolve_left hsame] at hcycle
      cases hcycle
    · exact h
  · obtain ⟨hchild', hparent'⟩ := not_or.1 harchived
    rw [Bool.not_eq_true] at hchild' hparent'
    rw [if_neg harchived]
    by_cases hsame : readParentSessionId child.metadata = some input.parentSessionId
    · simp only [if_pos hsame]
      refine ⟨fun _ => ⟨hchild', hparent', .inl hsame⟩, fun _ => ?_⟩
      split_ifs with hnone
      · exact fun _ _ => rfl
      · refine sameOutcome_congr fun key => ?_
        rw [get_spread_loaded, get_spread_self]
    · -- under a new parent, the service fills in what is missing
      have hcycle : ¬wouldCreateMountCycle sessionId input.parentSessionId
          (tree.mountedParentById sessionId input.parentSessionId) = true := by
        rw [haccepted.resolve_left hsame]
        exact Bool.false_ne_true
      simp only [if_neg hsame, if_neg hcycle, resolveMountMemberIdentity_eq, writeMountMetadata]
      rw [sameOutcome_mounted_iff (get_spread_loaded child)]
      have hrole : child.metadata.get MOUNT_ROLE_KEY = some (.text
          ((readMountRole child.metadata).getD DEFAULT_MOUNT_MEMBER_ROLE)) ↔
            readMountRole child.metadata ≠ none := get_eq_default_iff (by decide)
      have hmandate : child.metadata.get MOUNT_MANDATE_KEY = some (.text
          ((readMountMandate child.metadata).getD DEFAULT_MOUNT_MEMBER_MANDATE)) ↔
            readMountMandate child.metadata ≠ none := get_eq_default_iff (by decide)
      rw [hrole, hmandate, ← named_iff]
      refine ⟨fun ⟨hr, hm, hn⟩ => ⟨hchild', hparent', .inr ⟨hr, hm, hn⟩⟩, fun h => ?_⟩
      obtain ⟨hr, hm, hn⟩ := h.2.2.resolve_left hsame
      exact ⟨hr, hm, hn⟩

end MountMetadata

open MountMetadata

/-- **Both ways do the same, if and only if the request is alike.** The core and the service accept
the same requests and leave the same place of the child exactly if, wherever the core accepts, none
of the two sessions is archived, and the child is under the parent already or has the role, the
mandate and the name that the request does not give. -/
theorem mount_alike_iff (tree : SessionTree) (sessionId : String) (input : MountPayload) :
    SameOutcome (mountSession tree sessionId input) (applyMount tree sessionId input) ↔
      Alike tree sessionId input := by
  cases hchild : tree.lookup sessionId with
  | none =>
    have hcore : mountSession tree sessionId input = none := by
      simp [mountSession, hchild]
    have hservice : applyMount tree sessionId input = none := by
      simp [applyMount, SessionTree.listed, hchild]
    rw [hcore, hservice]
    exact ⟨fun _ child parent hsome => by simp [hchild] at hsome, fun _ => trivial⟩
  | some child =>
    by_cases hsame : sessionId = input.parentSessionId
    · have hcore : mountSession tree sessionId input = none := by
        rw [mountSession_of_lookup hchild]
        exact if_pos (.inl hsame)
      have hservice : applyMount tree sessionId input = none := if_pos hsame.symm
      rw [hcore, hservice]
      exact ⟨fun _ _ _ _ _ hne => absurd hsame hne, fun _ => trivial⟩
    · cases hparent : tree.lookup input.parentSessionId with
      | none =>
        have hcore : mountSession tree sessionId input = none := by
          rw [mountSession_of_lookup hchild]
          exact if_pos (.inr hparent)
        have hservice : applyMount tree sessionId input = none := by
          simp [applyMount, SessionTree.listed, hparent]
        rw [hcore, hservice]
        exact ⟨fun _ child parent _ hsome => by simp [hparent] at hsome, fun _ => trivial⟩
      | some parent =>
        by_cases haccepted : MountMetadata.readParentSessionId child.metadata =
            some input.parentSessionId ∨ wouldCreateMountCycle sessionId input.parentSessionId
              (tree.mountedParentById sessionId input.parentSessionId) = false
        · rw [sameOutcome_accepted_iff hchild hparent hsame haccepted]
          refine ⟨fun h child' parent' hchild' hparent' _ _ => ?_, fun h => ?_⟩
          · rw [hchild] at hchild'
            rw [hparent] at hparent'
            cases hchild'
            cases hparent'
            exact h
          · exact h child parent hchild hparent hsame haccepted
        · -- a new parent, and a cycle
          obtain ⟨hold, hcycle⟩ := not_or.1 haccepted
          rw [Bool.not_eq_false] at hcycle
          have hcore : mountSession tree sessionId input = none := by
            rw [mountSession_of_lookup hchild]
            simp [if_neg hold, hcycle]
          have hservice : applyMount tree sessionId input = none := by
            rw [applyMount_of_lookup hchild hparent hsame]
            simp [if_neg hold, hcycle]
          rw [hcore, hservice]
          refine ⟨fun _ child' parent' hchild' _ _ haccepted' => ?_, fun _ => trivial⟩
          rw [hchild] at hchild'
          cases hchild'
          exact absurd haccepted' haccepted

/-- A session and another one that is to be mounted under it, both not loaded. -/
def twoSessions (archived : Bool) : SessionTree :=
  [("root", { archived := false
              metadata := LibOrdMap.OrdMap.empty
              workDir := "/work"
              summaryTitle := none
              loaded := false
              title := none }),
    ("a", { archived := archived
            metadata := LibOrdMap.OrdMap.empty
            workDir := "/work"
            summaryTitle := none
            loaded := false
            title := none })]

/-- **A request without a role, and one for an archived session.** The core writes the parent and
the kind alone, where the service writes the role of a member; and the service does not find a
session that the core mounts. -/
theorem not_mount_alike :
    (¬SameOutcome (mountSession (twoSessions false) "a" { parentSessionId := "root" })
        (applyMount (twoSessions false) "a" { parentSessionId := "root" }) ∧
      ((mountSession (twoSessions false) "a" { parentSessionId := "root" }).bind
        fun metadata => metadata.get MOUNT_ROLE_KEY) = none ∧
      ((applyMount (twoSessions false) "a" { parentSessionId := "root" }).bind
        fun metadata => metadata.get MOUNT_ROLE_KEY) = some (.text "member")) ∧
    (mountSession (twoSessions true) "a" ⟨"root", some "r", some "m", some "n"⟩).isSome = true ∧
      (applyMount (twoSessions true) "a" ⟨"root", some "r", some "m", some "n"⟩).isSome =
        false := by
  refine ⟨⟨?_, ?_, ?_⟩, ?_, ?_⟩ <;> decide +kernel

end NoriCode
