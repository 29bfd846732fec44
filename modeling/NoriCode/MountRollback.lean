/-
**Taking a mount back.**

Mounting, remounting and unmounting write the place of a session into its metadata, synchronize the
other sessions with it, and when that fails write the old place again.  The old place is written
from what was remembered of it: the parent, the role and the mandate.

The module embeds the readers of `session/mount-metadata.ts` and, of `rpc/core-impl.ts`,
`applySessionMount`, `unmountSession`, `syncCoreMountWithRollback` and `writeSessionMountMetadata`.
Which calls fail is given: an operation gets what each of its calls throws, if it does.

Main definitions:

* `MountMetadata.ChildSession` — the metadata of a session, stored and in memory;
* `MountMetadata.MountOperation.run` — the operations;
* `MountMetadata.Restorable` — metadata that can be written from what is remembered.

Main results:

* `MountMetadata.get_rolledBack` — what is stored after a rollback;
* `MountMetadata.rollback_iff` — **a failed operation leaves the place as it was, if and
  only if the metadata was restorable**.
-/

import NoriCode.JsText
import NoriCode.LibOrdMap
import NoriCode.MountForest

namespace NoriCode

namespace MountMetadata

open LibOrdMap

/-! ### Metadata -/

/-- A value of the metadata: a text, or another one, as JSON. -/
inductive MetadataValue
  | text (s : String)
  | other (json : String)
  deriving DecidableEq

abbrev Custom := OrdMap String MetadataValue

def PARENT_SESSION_ID_KEY : String := "parent_session_id"
def CHILD_SESSION_KIND_KEY : String := "child_session_kind"
def CHILD_SESSION_KIND : String := "child"
def MOUNT_ROLE_KEY : String := "mount_role"
def MOUNT_MANDATE_KEY : String := "mount_mandate"
def MOUNT_NAME_KEY : String := "mount_name"

/-- The keys of the place of a session. -/
def mountKeys : List String :=
  [PARENT_SESSION_ID_KEY, CHILD_SESSION_KIND_KEY, MOUNT_ROLE_KEY, MOUNT_MANDATE_KEY, MOUNT_NAME_KEY]

/-- A text that is not empty. -/
def readText (metadata : Custom) (key : String) : Option String :=
  match metadata.get key with
  | some (.text s) => if s = "" then none else some s
  | _ => none

def readParentSessionId (metadata : Custom) : Option String :=
  readText metadata PARENT_SESSION_ID_KEY

def readMountRole (metadata : Custom) : Option String := readText metadata MOUNT_ROLE_KEY

def readMountMandate (metadata : Custom) : Option String := readText metadata MOUNT_MANDATE_KEY

def normalizeOptionalMountString (value : Option String) : Option String :=
  (value.map trim).filter (· ≠ "")

/-- `{ ...metadata, ...other }` -/
def spread (metadata other : Custom) : Custom :=
  other.entries.foldl (fun result entry => result.set entry.1 entry.2) metadata

/-- `if (value !== undefined) custom[key] = value` -/
def setText (metadata : Custom) (key : String) (value : Option String) : Custom :=
  match value with
  | none => metadata
  | some s => metadata.set key (.text s)

/-! ### The operations -/

/-- The metadata of a session: what is stored, and what is in memory when it is loaded. -/
structure ChildSession where
  stored : Custom
  loaded : Option Custom

/-- The calls of an operation that can fail. `resume` and `detach` are those on another session. -/
inductive MountCall
  | store
  | list
  | resume (sessionId : String)
  | detach (sessionId : String)
  | refreshChild
  | refreshParent
  /-- What `emitCoreMountChanged` does before it comes to its recipients. -/
  | notice
  deriving DecidableEq

structure WriteOptions where
  parentSessionId : Option String
  role : Option String
  mandate : Option String
  name : Option String := none
  clearIdentity : Bool

variable {ε : Type}

/-- The metadata that `writeSessionMountMetadata` writes. -/
def nextCustom (custom : Custom) (opts : WriteOptions) : Custom :=
  let placed := match opts.parentSessionId with
    | none => (custom.erase PARENT_SESSION_ID_KEY).erase CHILD_SESSION_KIND_KEY
    | some parent => (custom.set PARENT_SESSION_ID_KEY (.text parent)).set CHILD_SESSION_KIND_KEY
        (.text CHILD_SESSION_KIND)
  let cleared :=
    if opts.clearIdentity then
      ((placed.erase MOUNT_ROLE_KEY).erase MOUNT_MANDATE_KEY).erase MOUNT_NAME_KEY
    else placed
  setText (setText (setText cleared MOUNT_ROLE_KEY opts.role) MOUNT_MANDATE_KEY opts.mandate)
    MOUNT_NAME_KEY opts.name

/-- The session is loaded, gets the metadata, and stores it. -/
def writeSessionMountMetadata (s : ChildSession) (opts : WriteOptions)
    (throws : MountCall → Option ε) : Option ε × ChildSession :=
  let next := nextCustom (spread s.stored (s.loaded.getD s.stored)) opts
  match throws .store with
  | some e => (some e, { s with loaded := some next })
  | none => (none, { stored := next, loaded := some next })

/-- The calls of `syncTeamAgentsFromCoreMount`, none of which changes the metadata of the child. -/
def syncCalls (all : List String) (child : String) (old new : Option String) : List MountCall :=
  (if old ≠ none ∧ old = new then []
    else .list :: (all.filter (· ≠ child)).flatMap fun id => [.resume id, .detach id]) ++
  (if new = none then [] else [.refreshChild, .refreshParent])

def syncTeamAgentsFromCoreMount (all : List String) (child : String) (old new : Option String)
    (throws : MountCall → Option ε) : Option ε :=
  (syncCalls all child old new).findSome? throws

inductive MountOutcome (ε : Type)
  | done
  /-- Nothing was written. -/
  | rejected
  /-- The first write failed. -/
  | unwritten (error : ε)
  /-- The original error, after a rollback. -/
  | original (error : ε)
  | aggregate (error rollbackError : ε)
  deriving DecidableEq

/-- What is there besides the session: its id, all sessions and their parents. -/
structure MountScene where
  sessionId : String
  parentById : SessionMountTree

def MountScene.all (scene : MountScene) : List String := scene.parentById.map Prod.fst

structure SyncInput where
  oldParentSessionId : Option String
  newParentSessionId : Option String
  previousRole : Option String
  previousMandate : Option String
  /-- Whether the change is announced. -/
  afterSync : Bool

/-- The metadata that a rollback writes. -/
def SyncInput.rollback (input : SyncInput) : WriteOptions where
  parentSessionId := input.oldParentSessionId
  role := input.previousRole
  mandate := input.previousMandate
  clearIdentity := true

/-- `throws` is for the calls of the operation, `throwsBack` for those of its rollback. -/
def syncCoreMountWithRollback (scene : MountScene) (s : ChildSession) (input : SyncInput)
    (throws throwsBack : MountCall → Option ε) : MountOutcome ε × ChildSession :=
  let sync := syncTeamAgentsFromCoreMount scene.all scene.sessionId input.oldParentSessionId
    input.newParentSessionId throws
  match sync.or (if input.afterSync then throws .notice else none) with
  | none => (.done, s)
  | some error =>
    match writeSessionMountMetadata s input.rollback throwsBack with
    | (some rollbackError, s') => (.aggregate error rollbackError, s')
    | (none, s') =>
      match syncTeamAgentsFromCoreMount scene.all scene.sessionId input.newParentSessionId
        input.oldParentSessionId throwsBack with
      | some rollbackError => (.aggregate error rollbackError, s')
      | none => (.original error, s')

/-- The metadata is written, and then synchronized. -/
def writeAndSync (scene : MountScene) (s : ChildSession) (opts : WriteOptions) (input : SyncInput)
    (throws throwsBack : MountCall → Option ε) : MountOutcome ε × ChildSession :=
  match writeSessionMountMetadata s opts throws with
  | (some error, s') => (.unwritten error, s')
  | (none, s') => syncCoreMountWithRollback scene s' input throws throwsBack

structure MountPayload where
  parentSessionId : String
  role : Option String := none
  mandate : Option String := none
  name : Option String := none

/-- `applySessionMount`, for `mountSession` and `remountSession`. -/
def applySessionMount (scene : MountScene) (s : ChildSession) (input : MountPayload)
    (throws throwsBack : MountCall → Option ε) : MountOutcome ε × ChildSession :=
  if scene.sessionId = input.parentSessionId ∨
      ¬hasOwn scene.parentById input.parentSessionId = true then (.rejected, s)
  else
    let oldParentId := readParentSessionId s.stored
    let role := normalizeOptionalMountString input.role
    let mandate := normalizeOptionalMountString input.mandate
    let name := normalizeOptionalMountString input.name
    let opts : WriteOptions := {
      parentSessionId := some input.parentSessionId
      role := role
      mandate := mandate
      name := name
      clearIdentity := false }
    let sync : SyncInput := {
      oldParentSessionId := oldParentId
      newParentSessionId := some input.parentSessionId
      previousRole := readMountRole s.stored
      previousMandate := readMountMandate s.stored
      afterSync := true }
    if oldParentId = some input.parentSessionId then
      if role = none ∧ mandate = none ∧ name = none then
        syncCoreMountWithRollback scene s { sync with afterSync := false } throws throwsBack
      else writeAndSync scene s opts sync throws throwsBack
    else if wouldCreateMountCycle scene.sessionId input.parentSessionId
        ((scene.sessionId, some input.parentSessionId) :: scene.parentById) then (.rejected, s)
    else writeAndSync scene s opts sync throws throwsBack

def unmountSession (scene : MountScene) (s : ChildSession)
    (throws throwsBack : MountCall → Option ε) : MountOutcome ε × ChildSession :=
  match readParentSessionId s.stored with
  | none => (.done, s)
  | some oldParentId =>
    writeAndSync scene s
      { parentSessionId := none, role := none, mandate := none, clearIdentity := true }
      { oldParentSessionId := some oldParentId
        newParentSessionId := none
        previousRole := readMountRole s.stored
        previousMandate := readMountMandate s.stored
        afterSync := true }
      throws throwsBack

inductive MountOperation
  | mount (input : MountPayload)
  | remount (input : MountPayload)
  | unmount

def MountOperation.run (op : MountOperation) (scene : MountScene) (s : ChildSession)
    (throws throwsBack : MountCall → Option ε) : MountOutcome ε × ChildSession :=
  match op with
  | .mount input | .remount input => applySessionMount scene s input throws throwsBack
  | .unmount => unmountSession scene s throws throwsBack

theorem get_spread (metadata other : Custom) (key : String) :
    (spread metadata other).get key = (other.get key).or (metadata.get key) := by
  have hspread : spread metadata other = metadata.putAll other.settings := by
    rw [spread, OrdMap.putAll, OrdMap.settings, List.foldl_map]
    rfl
  rw [hspread, OrdMap.get_putAll_settings]

/-! ### What a rollback stores -/

/-- The value that is written for a remembered text. -/
def written (value : Option String) : Option MetadataValue := value.map .text

theorem get_setText (metadata : Custom) (key j : String) (value : Option String) :
    (setText metadata key value).get j =
      if j = key then (written value).or (metadata.get key) else metadata.get j := by
  cases value with
  | none | some => by_cases hj : j = key <;> simp [setText, written, hj]

/-- What a rollback writes, key by key. The name is not among what is remembered. -/
theorem get_rolledBack (custom : Custom) (input : SyncInput) :
    (nextCustom custom input.rollback).get PARENT_SESSION_ID_KEY =
        written input.oldParentSessionId ∧
    (nextCustom custom input.rollback).get CHILD_SESSION_KIND_KEY =
        written (input.oldParentSessionId.map fun _ => CHILD_SESSION_KIND) ∧
    (nextCustom custom input.rollback).get MOUNT_ROLE_KEY = written input.previousRole ∧
    (nextCustom custom input.rollback).get MOUNT_MANDATE_KEY = written input.previousMandate ∧
    (nextCustom custom input.rollback).get MOUNT_NAME_KEY = none := by
  cases hold : input.oldParentSessionId with
  | none | some =>
    simp [nextCustom, SyncInput.rollback, get_setText, hold, written, PARENT_SESSION_ID_KEY,
      CHILD_SESSION_KIND_KEY, MOUNT_ROLE_KEY, MOUNT_MANDATE_KEY, MOUNT_NAME_KEY]

variable {scene : MountScene} {s s' : ChildSession} {throws throwsBack : MountCall → Option ε}
    {error : ε}

theorem sync_original {input : SyncInput}
 (h : syncCoreMountWithRollback scene s input throws throwsBack = (.original error, s')) :
    ∃ custom, s'.stored = nextCustom custom input.rollback := by
  simp only [syncCoreMountWithRollback] at h
  split at h
  · cases h
  · -- the operation failed: the old place is written, and the others are synchronized again
    rw [writeSessionMountMetadata] at h
    cases hstore : throwsBack .store with
    | some e => simp [hstore] at h
    | none =>
      simp only [hstore] at h
      split at h
      · cases h
      · exact ⟨_, congrArg (fun result => result.2.stored) h.symm⟩

theorem writeAndSync_original {opts : WriteOptions} {input : SyncInput}
    (h : writeAndSync scene s opts input throws throwsBack = (.original error, s')) :
    ∃ custom, s'.stored = nextCustom custom input.rollback := by
  simp only [writeAndSync] at h
  split at h
  · cases h
  · exact sync_original h

/-- An operation that fails with its original error has written what was remembered. -/
theorem run_original {op : MountOperation}
 (h : op.run scene s throws throwsBack = (.original error, s')) :
    ∃ custom input, s'.stored = nextCustom custom (SyncInput.rollback input) ∧
      input.oldParentSessionId = readParentSessionId s.stored ∧
      input.previousRole = readMountRole s.stored ∧
      input.previousMandate = readMountMandate s.stored := by
  have hmount : ∀ input, applySessionMount scene s input throws throwsBack = (.original error, s') →
      ∃ custom input, s'.stored = nextCustom custom (SyncInput.rollback input) ∧
        input.oldParentSessionId = readParentSessionId s.stored ∧
        input.previousRole = readMountRole s.stored ∧
        input.previousMandate = readMountMandate s.stored := by
    intro input h
    simp only [applySessionMount] at h
    split at h
    · cases h
    · split at h
      · split at h
        · obtain ⟨custom, hstored⟩ := sync_original h
          exact ⟨custom, _, hstored, rfl, rfl, rfl⟩
        · obtain ⟨custom, hstored⟩ := writeAndSync_original h
          exact ⟨custom, _, hstored, rfl, rfl, rfl⟩
      · split at h
        · cases h
        · obtain ⟨custom, hstored⟩ := writeAndSync_original h
          exact ⟨custom, _, hstored, rfl, rfl, rfl⟩
  cases op with
  | mount input | remount input => exact hmount input h
  | unmount =>
    simp only [MountOperation.run, unmountSession] at h
    split at h
    · cases h
    · rename_i parent hparent
      obtain ⟨custom, hstored⟩ := writeAndSync_original h
      exact ⟨custom, _, hstored, hparent.symm, rfl, rfl⟩

/-! ### What was there before -/

/-- No value, or a text that is not empty. -/
def IsText (value : Option MetadataValue) : Prop := ∀ v ∈ value, ∃ s, s ≠ "" ∧ v = .text s

/-- **Metadata that can be written from what is remembered:** texts that are not empty, the kind of
a child for one with a parent and for no other, and no name. -/
structure Restorable (metadata : Custom) : Prop where
  parent : IsText (metadata.get PARENT_SESSION_ID_KEY)
  kind : metadata.get CHILD_SESSION_KIND_KEY =
    if (metadata.get PARENT_SESSION_ID_KEY).isSome = true then some (.text CHILD_SESSION_KIND)
    else none
  role : IsText (metadata.get MOUNT_ROLE_KEY)
  mandate : IsText (metadata.get MOUNT_MANDATE_KEY)
  name : metadata.get MOUNT_NAME_KEY = none

theorem written_readText_iff {metadata : Custom} {key : String} :
    written (readText metadata key) = metadata.get key ↔ IsText (metadata.get key) := by
  unfold readText IsText
  rcases metadata.get key with - | (s | json)
  · simp [written]
  · by_cases hs : s = "" <;> simp [written, hs]
  · simp [written]

/-- **A failed operation leaves the place as it was, if and only if the metadata was restorable.**
Whatever call of the synchronization fails, when the operation throws its original error the stored
parent, kind, role, mandate and name are those of before exactly for restorable metadata. -/
theorem rollback_iff (op : MountOperation) (scene : MountScene) (s s' : ChildSession)
    (throws throwsBack : MountCall → Option ε) (error : ε)
    (h : op.run scene s throws throwsBack = (.original error, s')) :
    (∀ key ∈ mountKeys, s'.stored.get key = s.stored.get key) ↔ Restorable s.stored := by
  obtain ⟨custom, input, hstored, hold, hrole, hmandate⟩ := run_original h
  obtain ⟨hp, hk, hr, hm, hn⟩ := get_rolledBack custom input
  rw [← hstored] at hp hk hr hm hn
  simp only [mountKeys, List.forall_mem_cons, hp, hk, hr, hm, hn, hold, hrole, hmandate]
  refine ⟨?_, ?_⟩
  · rintro ⟨hparent, hk, hrole, hmandate, hname, -⟩
    refine ⟨written_readText_iff.1 hparent, ?_, written_readText_iff.1 hrole,
      written_readText_iff.1 hmandate, hname.symm⟩
    rw [← hk, ← hparent]
    cases readParentSessionId s.stored <;> rfl
  · rintro ⟨hparent, hk, hrole, hmandate, hname⟩
    have hparent' := written_readText_iff.2 hparent
    refine ⟨hparent', ?_, written_readText_iff.2 hrole, written_readText_iff.2 hmandate,
      hname.symm, by simp⟩
    rw [hk, ← hparent']
    change _ = if (written (readParentSessionId s.stored)).isSome = true then _ else _
    cases readParentSessionId s.stored <;> rfl

/-- A role of a mounted session, and no name. -/
def mounted : Custom :=
  ((OrdMap.empty.set PARENT_SESSION_ID_KEY (.text "root")).set CHILD_SESSION_KIND_KEY
    (.text CHILD_SESSION_KIND)).set MOUNT_ROLE_KEY (.text "reviewer")

theorem restorable_mounted : Restorable mounted where
  parent := by
    intro v hv
    cases hv
    exact ⟨"root", by decide, rfl⟩
  kind := by decide +kernel
  role := by
    intro v hv
    cases hv
    exact ⟨"reviewer", by decide, rfl⟩
  mandate := by
    intro v hv
    cases hv
  name := by decide +kernel

/-- The session is unmounted, and the change cannot be announced. -/
theorem rollback_iff_example : ∃ s', MountOperation.unmount.run
      ⟨"a", [("root", none), ("a", some "root")]⟩ ⟨mounted, none⟩
      (fun call => if call = .notice then some () else none) (fun _ => none) = (.original (), s') ∧
    ∀ key ∈ mountKeys, s'.stored.get key = mounted.get key := by
  have hrun : ∃ s', MountOperation.unmount.run ⟨"a", [("root", none), ("a", some "root")]⟩
      ⟨mounted, none⟩ (fun call => if call = .notice then some () else none) (fun _ => none) =
        (.original (), s') := ⟨_, rfl⟩
  obtain ⟨s', hs'⟩ := hrun
  have hiff := rollback_iff .unmount _ ⟨mounted, none⟩ s' _ _ () hs'
  exact ⟨s', hs', hiff.2 restorable_mounted⟩

/-- **A name is lost.** The same operation on a session that has a name. -/
theorem name_lost :
    let result := MountOperation.unmount.run ⟨"a", [("root", none), ("a", some "root")]⟩
      ⟨mounted.set MOUNT_NAME_KEY (.text "Ada"), none⟩
      (fun call => if call = .notice then some () else none) fun _ => none
    result.1 = .original () ∧ MOUNT_NAME_KEY ∈ mountKeys ∧
      (mounted.set MOUNT_NAME_KEY (.text "Ada")).get MOUNT_NAME_KEY = some (.text "Ada") ∧
      result.2.stored.get MOUNT_NAME_KEY = none := by
  refine ⟨by decide +kernel, by decide +kernel, by decide +kernel, by decide +kernel⟩

end MountMetadata

end NoriCode
