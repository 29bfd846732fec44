/-
**The custom metadata of a session that is loaded.**

What tools, clients and settings keep about a session stands in one object, `metadata.custom`.  It
is in memory, and every change of it is written to `state.json`, one write behind the other.  Some
operations change the object where it is.  The others put together a new object out of what they
have read, and write that over it: the two services read `state.json` and the object itself, with
waits between their reads and the write.

The module embeds `updateSessionMetadata` of `session/rpc.ts`, of `rpc/core-impl.ts`
`writeSessionMountMetadata`, `patchMember`, `applySessionIdentityUpdate` and
`refreshCoreSessionSelf`, of `sessionService.ts` `writeMountMetadata`, `refreshSessionSelfPrompt`
and `update`, and of `session/index.ts` the settings and what is changed in memory.  What an
operation is about is the list of the changes that it makes; the session stays loaded.

Main definitions:

* `CustomMetadata.LiveSession`, with `step` — the object, the file and the operations under
  way, and the changes of those that have written;
* `CustomMetadata.Fresh` — what an operation has read is still what the session holds, for
  the keys that it is not about.

Main results:

* `CustomMetadata.Kept.write` — **what a write keeps**;
* `run_keeps_changes` — **no change is dropped or reverted**, in every such run.
-/

import NoriCode.LibJson
import NoriCode.MountRollback

namespace NoriCode

namespace CustomMetadata

open LibOrdMap LibOrdMap.OrdMap LibRun MountMetadata

/-! ### What the operations are about -/

def SESSION_TAGS_KEY : String := "session_tags"
def SESSION_SELF_KEY : String := "session_self"
def NORI_RUNTIME_METADATA_KEY : String := "noriRuntime"
def DEPARTMENT_ASSIGNED_TASK_KEY : String := "department_assigned_task"
def DEPARTMENT_ASSIGNED_AT_KEY : String := "department_assigned_at"
def DEPARTMENT_TEAM_REPORT_KEY : String := "department_team_report"
def DEPARTMENT_LAST_TURN_SKIP_KEY : String := "department_last_turn_skip"

/-- Keys that are set or deleted, one after the other. -/
abbrev Changes := List (String × Option MetadataValue)

/-- The keys that changes are about. -/
def Changes.keys (changes : Changes) : List String := changes.map (·.1)

/-- `if (value !== undefined) custom[key] = value` -/
def given (key : String) (value : Option String) : Changes :=
  value.toList.map fun s => (key, some (.text s))

/-- What `writeSessionMountMetadata` and `writeMountMetadata` set and delete. -/
def mountChanges (opts : WriteOptions) : Changes :=
  (match opts.parentSessionId with
    | none => [(PARENT_SESSION_ID_KEY, none), (CHILD_SESSION_KIND_KEY, none)]
    | some parent => [(PARENT_SESSION_ID_KEY, some (.text parent)),
        (CHILD_SESSION_KIND_KEY, some (.text CHILD_SESSION_KIND))]) ++
  (if opts.clearIdentity then
    [(MOUNT_ROLE_KEY, none), (MOUNT_MANDATE_KEY, none), (MOUNT_NAME_KEY, none)]
  else []) ++
  given MOUNT_ROLE_KEY opts.role ++ given MOUNT_MANDATE_KEY opts.mandate ++
    given MOUNT_NAME_KEY opts.name

structure IdentityPayload where
  name : Option String
  role : Option String
  mandate : Option String
  tags : Option (List String)

/-- A list of texts, as a value. -/
def tagsValue (tags : List String) : MetadataValue :=
  .other (String.ofList (LibJson.stringify (.arr (tags.map fun tag => .str tag.toList))))

def normalizeTags (tags : List String) : List String := (tags.map trim).filter (· ≠ "")

/-- What `applySessionIdentityUpdate` sets and deletes; without any of them it throws. -/
def identityChanges (input : IdentityPayload) : Option Changes :=
  let name := normalizeOptionalMountString input.name
  let role := normalizeOptionalMountString input.role
  let mandate := normalizeOptionalMountString input.mandate
  let tags := input.tags.map normalizeTags
  if name = none ∧ role = none ∧ mandate = none ∧ tags = none then none
  else some (given MOUNT_NAME_KEY name ++ given MOUNT_ROLE_KEY role ++
    given MOUNT_MANDATE_KEY mandate ++
    tags.toList.map fun tags =>
      (SESSION_TAGS_KEY, if tags = [] then none else some (tagsValue tags)))

/-- `null` deletes, and what is absent stays. -/
structure DepartmentMemberPatch where
  assignedTask : Option (Option MetadataValue)
  assignedAt : Option (Option MetadataValue)
  teamReport : Option (Option MetadataValue)
  lastTurnSkip : Option (Option MetadataValue)

/-- What `patchMember` sets and deletes. -/
def memberChanges (patch : DepartmentMemberPatch) : Changes :=
  patch.assignedTask.toList.map (DEPARTMENT_ASSIGNED_TASK_KEY, ·) ++
  patch.assignedAt.toList.map (DEPARTMENT_ASSIGNED_AT_KEY, ·) ++
  patch.teamReport.toList.map (DEPARTMENT_TEAM_REPORT_KEY, ·) ++
  patch.lastTurnSkip.toList.map (DEPARTMENT_LAST_TURN_SKIP_KEY, ·)

/-- What the two refreshes of the self-description set. -/
def selfChanges (block : String) : Changes := [(SESSION_SELF_KEY, some (.text block))]

/-! ### The session -/

/-- An operation under way, with what it has read. -/
inductive Operation
  /-- `writeSessionMountMetadata`, `patchMember` or `applySessionIdentityUpdate`, before
  `state.json` is read. -/
  | core (changes : Changes)
  | coreRead (changes : Changes) (summary : Custom)
  /-- `refreshCoreSessionSelf`, before `state.json` is read. -/
  | self (block : String)
  | selfRead (block : String) (summary : Custom)
  /-- `writeMountMetadata`, before the metadata is asked for. -/
  | mount (changes : Changes)
  | mountMeta (changes : Changes) (custom : Custom)
  /-- `refreshSessionSelfPrompt`, before the metadata is asked for. -/
  | prompt (block : String)
  /-- All that is written over has been read. -/
  | ready (changes : Changes) (custom : Custom)

structure LiveSession where
  /-- `metadata.custom` -/
  custom : Custom
  /-- The custom metadata in `state.json`. -/
  disk : Custom
  /-- The writes of `state.json` that wait for each other. -/
  queue : List Custom
  operations : List Operation
  /-- The changes of the operations that have written, in the order of their writes. -/
  log : Changes

/-- A session that has been loaded from `state.json`. -/
def loaded (custom : Custom) : LiveSession where
  custom := custom
  disk := custom
  queue := []
  operations := []
  log := []

namespace LiveSession

def start (s : LiveSession) (op : Operation) : LiveSession :=
  { s with operations := s.operations ++ [op] }

/-- The operation goes on to its next wait. -/
def wait (s : LiveSession) (i : ℕ) (op : Operation) : LiveSession :=
  { s with operations := s.operations.set i op }

def finish (s : LiveSession) (i : ℕ) : LiveSession :=
  { s with operations := s.operations.eraseIdx i }

/-- `metadata.custom` gets new contents, from an operation that is about these changes. -/
def assign (s : LiveSession) (changes : Changes) (custom : Custom) : LiveSession :=
  { s with
    custom := custom
    log := s.log ++ changes }

/-- `writeMetadata`: the text is made at once, and written behind the writes before it. -/
def writeMetadata (s : LiveSession) : LiveSession := { s with queue := s.queue ++ [s.custom] }

/-- `updateSessionMetadata`: the object is replaced. -/
def updateSessionMetadata (s : LiveSession) (changes : Changes) (custom : Custom) : LiveSession :=
  (s.assign changes custom).writeMetadata

/-- An operation under way goes on behind its wait. -/
def advance (s : LiveSession) (i : ℕ) : Operation → LiveSession
  | .core changes => s.wait i (.coreRead changes s.disk)
  -- the object is read in the moment in which it is replaced
  | .coreRead changes summary =>
    (s.updateSessionMetadata changes ((spread summary s.custom).putAll changes)).finish i
  | .self block => s.wait i (.selfRead block s.disk)
  -- all sessions are listed between this and the write
  | .selfRead block summary => s.wait i (.ready (selfChanges block) (spread summary s.custom))
  | .mount changes => s.wait i (.mountMeta changes s.custom)
  | .mountMeta changes custom => s.wait i (.ready changes (spread s.disk custom))
  | .prompt block => s.wait i (.ready (selfChanges block) s.custom)
  | .ready changes custom =>
    (s.updateSessionMetadata changes (custom.putAll changes)).finish i

end LiveSession

/-- What can happen next. -/
inductive Act
  | writeSessionMountMetadata (opts : WriteOptions)
  | patchMember (patch : DepartmentMemberPatch)
  | updateSessionIdentity (input : IdentityPayload)
  | refreshCoreSessionSelf (block : String)
  | writeMountMetadata (opts : WriteOptions)
  | refreshSessionSelfPrompt (block : String)
  /-- The metadata that a client sends. -/
  | update (metadata : Custom)
  | setNoriRuntimeSettings (next : MetadataValue)
  | persistDefaultNoriRuntimeSettings (settings : MetadataValue)
  /-- The members, the own report and the self-description, which are changed in memory. -/
  | inMemory (key : String) (value : Option MetadataValue)
  /-- An operation under way goes on. -/
  | advance (i : ℕ)
  /-- An operation under way throws. -/
  | fail (i : ℕ)
  /-- The session is written for another reason. -/
  | writeMetadata
  /-- The first write of `state.json` is done. -/
  | written

def step (s : LiveSession) : Act → Option LiveSession
  | .writeSessionMountMetadata opts => some (s.start (.core (mountChanges opts)))
  | .patchMember patch => some (s.start (.core (memberChanges patch)))
  | .updateSessionIdentity input =>
    (identityChanges input).map fun changes => s.start (.core changes)
  | .refreshCoreSessionSelf block => some (s.start (.self block))
  | .writeMountMetadata opts => some (s.start (.mount (mountChanges opts)))
  | .refreshSessionSelfPrompt block => some (s.start (.prompt block))
  | .update metadata =>
    -- what the client sends takes the place of the whole object
    if metadata.entries = [] then some s
    else some (s.updateSessionMetadata metadata.settings metadata)
  | .setNoriRuntimeSettings next =>
    some (s.updateSessionMetadata [(NORI_RUNTIME_METADATA_KEY, some next)]
      (s.custom.set NORI_RUNTIME_METADATA_KEY next))
  | .persistDefaultNoriRuntimeSettings settings =>
    if s.custom.get NORI_RUNTIME_METADATA_KEY ≠ none then some s
    else some (s.updateSessionMetadata [(NORI_RUNTIME_METADATA_KEY, some settings)]
      (s.custom.set NORI_RUNTIME_METADATA_KEY settings))
  | .inMemory key value => some (s.assign [(key, value)] (s.custom.put key value))
  | .advance i => s.operations[i]?.map (s.advance i)
  | .fail i => s.operations[i]?.map fun _ => s.finish i
  | .writeMetadata => some s.writeMetadata
  | .written => s.queue.head?.map fun custom =>
    { s with
      disk := custom
      queue := s.queue.tail }

/-! ### Operations that have read what the session holds -/

/-- **What an operation has read is still what the session holds,** for the keys that it is not
about.  One that reads the object as it replaces it brings no key back from `state.json`. -/
def Operation.Fresh (s : LiveSession) : Operation → Prop
  | .coreRead changes summary => ∀ key ∈ summary.keys, key ∈ s.custom.keys ∨ key ∈ changes.keys
  | .ready changes custom => AgreeOff changes.keys custom s.custom
  | _ => True

/-- Operations write what they have read of the session, and a client sends a value for every key
that the session holds. -/
def Fresh (s : LiveSession) : Act → Prop
  | .advance i => ∀ op ∈ s.operations[i]?, op.Fresh s
  | .update metadata => metadata.entries = [] ∨ ∀ key ∈ s.custom.keys, key ∈ metadata.keys
  | _ => True

instance (s : LiveSession) (op : Operation) : Decidable (op.Fresh s) := by
  cases op <;> unfold Operation.Fresh <;> infer_instance

instance (s : LiveSession) (a : Act) : Decidable (Fresh s a) := by
  cases a <;> unfold Fresh <;> infer_instance

/-! ### What is kept -/

/-- What was there at first, with changes made one after the other. -/
def Holds (initial : Custom) (log : Changes) (custom : Custom) : Prop :=
  ∀ key, custom.get key = (initial.putAll log).get key

/-- **The invariant**: the session holds all changes, and the file those up to some time. -/
structure Kept (initial : Custom) (s : LiveSession) : Prop where
  memory : Holds initial s.log s.custom
  files : ∀ custom ∈ s.disk :: s.queue, ∃ log, log <+: s.log ∧ Holds initial log custom

variable {initial : Custom} {s s' : LiveSession}

theorem Kept.loaded (initial : Custom) : Kept initial (loaded initial) where
  memory := fun _ => rfl
  files := by
    intro custom hcustom
    obtain rfl := List.mem_singleton.1 hcustom
    exact ⟨[], List.nil_prefix, fun _ => rfl⟩

/-- Changes are made of what the session holds, for the keys that they are not about. -/
theorem Holds.putAll {log changes : Changes} {custom read : Custom} (h : Holds initial log custom)
    (hagree : AgreeOff changes.keys read custom) :
    Holds initial (log ++ changes) (read.putAll changes) := by
  intro key
  rw [putAll_append, get_putAll, get_putAll]
  cases hlast : lastChange key changes with
  | some value => rfl
  | none =>
    have hread : read.get key = custom.get key := hagree key (lastChange_eq_none.1 hlast)
    rw [Option.getD_none, Option.getD_none, hread]
    exact h key

theorem Holds.congr {log : Changes} {custom custom' : Custom} (h : Holds initial log custom)
    (hget : ∀ key, custom'.get key = custom.get key) : Holds initial log custom' :=
  fun key => (hget key).trans (h key)

section

variable (h : Kept initial s)

include h

theorem Kept.of_eq (hcustom : s'.custom = s.custom) (hlog : s'.log = s.log)
    (hfiles : ∀ custom ∈ s'.disk :: s'.queue, custom ∈ s.disk :: s.queue) : Kept initial s' where
  memory := by
    rw [hcustom, hlog]
    exact h.memory
  files := by
    rw [hlog]
    exact fun custom hmem => h.files custom (hfiles custom hmem)

theorem Kept.assign {changes : Changes} {custom : Custom}
    (hnew : Holds initial (s.log ++ changes) custom) : Kept initial (s.assign changes custom) where
  memory := hnew
  files := by
    intro old hold
    obtain ⟨log, hlog, hholds⟩ := h.files old hold
    exact ⟨log, hlog.trans (List.prefix_append _ _), hholds⟩

theorem Kept.writeMetadata : Kept initial s.writeMetadata where
  memory := h.memory
  files := by
    intro custom hcustom
    have hor : custom ∈ s.disk :: s.queue ∨ custom ∈ [s.custom] := List.mem_append.1 hcustom
    rcases hor with hold | hnew
    · exact h.files custom hold
    · obtain rfl := List.mem_singleton.1 hnew
      exact ⟨s.log, List.prefix_rfl, h.memory⟩

/-- **What a write keeps.** The changes are made of something that agrees with what the session
holds, for the keys that they are not about. -/
theorem Kept.write {changes : Changes} {read : Custom}
    (hagree : AgreeOff changes.keys read s.custom) :
    Kept initial (s.updateSessionMetadata changes (read.putAll changes)) :=
  (h.assign (h.memory.putAll hagree)).writeMetadata

theorem Kept.start (op : Operation) : Kept initial (s.start op) :=
  h.of_eq rfl rfl fun _ hmem => hmem

theorem Kept.wait (i : ℕ) (op : Operation) : Kept initial (s.wait i op) :=
  h.of_eq rfl rfl fun _ hmem => hmem

theorem Kept.finish (i : ℕ) : Kept initial (s.finish i) :=
  h.of_eq rfl rfl fun _ hmem => hmem

end

/-- What is read as it is replaced is the object, but for keys that only the file has. -/
theorem agreeOff_spread {changes : Changes} {summary custom : Custom}
    (h : ∀ key ∈ summary.keys, key ∈ custom.keys ∨ key ∈ changes.keys) :
    AgreeOff changes.keys (spread summary custom) custom := by
  intro key hkey
  rw [get_spread]
  cases hcustom : custom.get key with
  | some value => rfl
  | none =>
    have hnot : key ∉ summary.keys := fun hmem =>
      (h key hmem).elim (get_eq_none.1 hcustom) hkey
    rw [get_eq_none.2 hnot]
    rfl

theorem Kept.advance (h : Kept initial s) (i : ℕ) (op : Operation) (hfresh : op.Fresh s) :
    Kept initial (s.advance i op) := by
  cases op with
  | core | self | selfRead | mount | mountMeta | prompt => exact h.wait i _
  | coreRead changes summary => exact (h.write (agreeOff_spread hfresh)).finish i
  | ready changes custom => exact (h.write hfresh).finish i

theorem Kept.change (h : Kept initial s) (key : String) (value : Option MetadataValue) :
    Kept initial (s.assign [(key, value)] (s.custom.put key value)) :=
  h.assign (h.memory.putAll fun _ _ => rfl)

/-- A client that sends a value for every key makes changes of all that the session holds. -/
theorem Kept.update {metadata : Custom} (h : Kept initial s)
    (hkeys : ∀ key ∈ s.custom.keys, key ∈ metadata.keys) :
    Kept initial (s.updateSessionMetadata metadata.settings metadata) := by
  refine (h.assign ?_).writeMetadata
  have hagree : AgreeOff (Changes.keys metadata.settings) s.custom s.custom := fun _ _ => rfl
  refine (h.memory.putAll hagree).congr fun key => ?_
  rw [get_putAll_settings]
  cases hget : metadata.get key with
  | some value => rfl
  | none =>
    have hnot : key ∉ s.custom.keys := fun hmem => get_eq_none.1 hget (hkeys key hmem)
    rw [get_eq_none.2 hnot]
    rfl

/-- **What every step preserves.** -/
theorem Kept.step {a : Act} (h : Kept initial s) (hfresh : Fresh s a)
    (hs : CustomMetadata.step s a = some s') : Kept initial s' := by
  cases a with
  | writeSessionMountMetadata | patchMember | refreshCoreSessionSelf | writeMountMetadata
  | refreshSessionSelfPrompt =>
    cases hs
    exact h.start _
  | updateSessionIdentity input =>
    obtain ⟨changes, -, rfl⟩ := Option.map_eq_some_iff.1 hs
    exact h.start _
  | update metadata =>
    simp only [CustomMetadata.step] at hs
    split at hs
    · cases hs
      exact h
    · rename_i hne
      cases hs
      exact h.update (hfresh.resolve_left hne)
  | setNoriRuntimeSettings next =>
    cases hs
    exact (h.change NORI_RUNTIME_METADATA_KEY (some next)).writeMetadata
  | persistDefaultNoriRuntimeSettings settings =>
    simp only [CustomMetadata.step] at hs
    split at hs
    · cases hs
      exact h
    · cases hs
      exact (h.change NORI_RUNTIME_METADATA_KEY (some settings)).writeMetadata
  | inMemory key value =>
    cases hs
    exact h.change key value
  | advance i =>
    obtain ⟨op, hop, rfl⟩ := Option.map_eq_some_iff.1 hs
    exact h.advance i op (hfresh op hop)
  | fail i =>
    obtain ⟨op, -, rfl⟩ := Option.map_eq_some_iff.1 hs
    exact h.finish i
  | writeMetadata =>
    cases hs
    exact h.writeMetadata
  | written =>
    obtain ⟨custom, hhead, rfl⟩ := Option.map_eq_some_iff.1 hs
    have hqueue : s.queue = custom :: s.queue.tail := (List.cons_head?_tail hhead).symm
    refine h.of_eq rfl rfl fun c hc => .tail _ ?_
    rw [hqueue]
    exact hc

end CustomMetadata

open LibRun CustomMetadata MountMetadata

/-- **No change is dropped or reverted.** As long as operations write what they have read of the
session, for the keys that they are not about, and clients send all keys that it holds, every key
is what the changes have made of it, one after the other, whatever operations overlap; and so is
every key in the file, for the changes up to some time. -/
theorem run_keeps_changes (initial : Custom) {l : List Act} {s : LiveSession}
    (h : Run CustomMetadata.step Fresh (loaded initial) l s) :
    (∀ key, s.custom.get key = (initial.putAll s.log).get key) ∧
      ∃ log, log <+: s.log ∧ ∀ key, s.disk.get key = (initial.putAll log).get key := by
  have hkept : Kept initial s :=
    h.invariant (I := Kept initial) (Kept.loaded initial) fun _ _ _ ht hok hs => ht.step hok hs
  exact ⟨hkept.memory, hkept.files s.disk (.head _)⟩

/-- A session with a parent and a role. -/
def reviewerSession : Custom :=
  ((LibOrdMap.OrdMap.empty.set PARENT_SESSION_ID_KEY (.text "root")).set CHILD_SESSION_KIND_KEY
    (.text CHILD_SESSION_KIND)).set MOUNT_ROLE_KEY (.text "reviewer")

/-- Settings that are set while a member is patched, and a refresh behind them. -/
theorem run_keeps_changes_overlapping : ∃ s, Run CustomMetadata.step Fresh (loaded reviewerSession)
    [.patchMember ⟨some (some (.text "t")), none, none, none⟩, .advance 0,
      .setNoriRuntimeSettings (.other "\x7b\x7d"), .advance 0, .refreshSessionSelfPrompt "self",
      .advance 0, .advance 0, .written] s ∧
    (∀ key, s.custom.get key = (reviewerSession.putAll s.log).get key) ∧
    ∃ log, log <+: s.log ∧ ∀ key, s.disk.get key = (reviewerSession.putAll log).get key := by
  have hrun : ∃ s, Run CustomMetadata.step Fresh (loaded reviewerSession)
      [.patchMember ⟨some (some (.text "t")), none, none, none⟩, .advance 0,
        .setNoriRuntimeSettings (.other "\x7b\x7d"), .advance 0, .refreshSessionSelfPrompt "self",
        .advance 0, .advance 0, .written] s ∧ s.log.length = 3 :=
    exists_run (by decide +kernel) (by decide +kernel)
  obtain ⟨s, hs, -⟩ := hrun
  exact ⟨s, hs, run_keeps_changes reviewerSession hs⟩

/-- **A parent that is dropped, and settings that are reverted.** A client sends one key of its
own, and the session is detached from its parent.  A refresh of the self-description has read the
session before its settings are set, and writes it behind them. -/
theorem not_run_keeps_changes :
    (∃ s, Run CustomMetadata.step always (loaded reviewerSession)
      [.update (LibOrdMap.OrdMap.empty.set "colour" (.text "red"))] s ∧
      s.custom.get PARENT_SESSION_ID_KEY = none ∧
      (reviewerSession.putAll s.log).get PARENT_SESSION_ID_KEY = some (.text "root")) ∧
    ∃ s, Run CustomMetadata.step always (loaded reviewerSession)
      [.refreshCoreSessionSelf "self", .advance 0, .advance 0,
        .setNoriRuntimeSettings (.other "\x7b\x7d"), .advance 0] s ∧
      s.custom.get NORI_RUNTIME_METADATA_KEY = none ∧
      (reviewerSession.putAll s.log).get NORI_RUNTIME_METADATA_KEY = some (.other "\x7b\x7d") :=
  ⟨exists_run (by decide +kernel) (legal_always _ _),
    exists_run (by decide +kernel) (legal_always _ _)⟩

end NoriCode
