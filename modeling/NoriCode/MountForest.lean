/-
**The forest of mounted sessions.**

A session that is mounted has the id of its parent in its metadata.  Mounting checks that no cycle
arises, and hiring that the new member does not come to stand too deep.  Both read the parents of
all sessions, and write the link later; creating and forking a session write the one they are given.

The module embeds `session/mount-metadata.ts`, the session mount tree of `session/team-tree.ts`, the
guard of hiring of `session/index.ts`, and of `rpc/core-impl.ts` what writes the link of a session.
Dismissing a member unmounts its children and deletes it.

Main definitions:

* `wouldCreateMountCycle`, `sessionMountDepth`, `departmentDepth` — the
  checks;
* `MountedSessions`, with `step` — the stored sessions, and the operations under way;
* `MountedSessions.Current` — a link is written while what stands above the new parent is
  what was read.

Main results:

* `wouldCreateMountCycle_eq_false_iff` — what the cycle check finds;
* `MountedSessions.run_forest` — **the parents form a forest, and members are not too
  deep**.
-/

import NoriCode.LibForest
import NoriCode.LibRun

namespace NoriCode

open LibForest List Option LibRun

/-! ### The mount tree -/

/-- `SessionMountTree`, the parents by session id. -/
abbrev SessionMountTree := List (String × Option String)

/-- `parentById[id]` -/
def parentOf (parentById : SessionMountTree) (id : String) : Option String :=
  (parentById.lookup id).join

/-- `Object.hasOwn(parentById, id)` -/
def hasOwn (parentById : SessionMountTree) (id : String) : Bool := (parentById.lookup id).isSome

/-- The empty id counts as none. -/
def readParentSessionId (value : Option String) : Option String := value.filter (· ≠ "")

def wouldCreateMountCycle (sessionId parentSessionId : String) (parentById : SessionMountTree) :
    Bool :=
  sessionId = parentSessionId ||
    comesBack (parentOf parentById) (parentById.length + 2) [sessionId] (some parentSessionId)

/-- What the loop of `sessionMountDepth` visits. -/
def ancestors (parentById : SessionMountTree) (sessionId : String) : List String :=
  climb (parentOf parentById) (parentById.length + 1) [sessionId] (parentOf parentById sessionId)

def sessionMountDepth (parentById : SessionMountTree) (sessionId : String) : ℕ :=
  (ancestors parentById sessionId).length

/-- The fields of an agent that the depth of a department depends on. -/
structure TeamTreeNode where
  teamLeaderAgentId : Option String := none
  mountedSessionId : Option String := none

abbrev TeamTree := List (String × TeamTreeNode)

def leaderOf (agents : TeamTree) (agentId : String) : Option String :=
  (agents.lookup agentId).bind TeamTreeNode.teamLeaderAgentId

/-- The depth below `main`, at which the loop ends. -/
def teamDepth (agents : TeamTree) (agentId : String) : ℕ :=
  (climb (fun current => if current = "main" then none else leaderOf agents current)
    (agents.length + 2) [agentId] (leaderOf agents agentId)).length

def departmentDepth (agents : TeamTree) (agentId : String) (parentById : SessionMountTree)
    (sessionIdForAgent : String) : ℕ :=
  if hasOwn parentById sessionIdForAgent = true then
    sessionMountDepth parentById sessionIdForAgent
  else teamDepth agents agentId

/-- What a session that hires has in memory. -/
structure HiringSession where
  id : String
  agents : TeamTree := []
  mountParentById : SessionMountTree := []

def HiringSession.sessionIdForLeader (host : HiringSession) (leaderAgentId : String) : String :=
  if leaderAgentId = "main" ∨ leaderAgentId = host.id then host.id
  else ((host.agents.lookup leaderAgentId).bind TeamTreeNode.mountedSessionId).getD
    (if hasOwn host.mountParentById leaderAgentId = true then leaderAgentId else host.id)

/-- `assertCanCreateDepartment` -/
def HiringSession.canCreateDepartment (host : HiringSession) (leaderAgentId : String)
    (parentById : SessionMountTree) (maxDepth : ℕ) : Bool :=
  departmentDepth host.agents leaderAgentId parentById (host.sessionIdForLeader leaderAgentId)
    < maxDepth

/-! ### Sessions by id -/

variable {β : Type}

theorem lookup_cons_of_ne {b key : String} (hb : b ≠ key) (value : β)
    (rest : List (String × β)) : ((key, value) :: rest).lookup b = rest.lookup b := by
  rw [lookup_cons, beq_eq_false_iff_ne.2 hb]

variable {id : String}

theorem mem_of_lookup {sessions : List (String × β)} {value : β}
    (h : sessions.lookup id = some value) : (id, value) ∈ sessions := by
  obtain ⟨front, rest, rfl, -⟩ := List.lookup_eq_some_iff.1 h
  exact mem_append_right _ (.head _)

theorem lookup_adjust {γ : Type} (l : List (String × β)) (keep : String → Bool)
    (f : String → β → γ) (id : String) : ((l.filter fun entry => keep entry.1).map
        fun entry => (entry.1, f entry.1 entry.2)).lookup id =
      if keep id then (l.lookup id).map (f id) else none := by
  induction l with
  | nil => simp
  | cons entry rest ih =>
    obtain ⟨key, value⟩ := entry
    by_cases hid : id = key
    · subst hid
      by_cases hkeep : keep id
      · simp [hkeep]
      · simpa [hkeep] using ih
    · by_cases hkeep : keep key
      · simp only [filter_cons, hkeep, if_true, map_cons]
        rw [lookup_cons_of_ne hid, lookup_cons_of_ne hid, ih]
      · simp only [filter_cons, hkeep]
        rw [lookup_cons_of_ne hid]
        exact ih

section

variable (sessions : List (String × β))

theorem lookup_map {γ : Type} (change : β → γ) (id : String) :
    (sessions.map fun entry => (entry.1, change entry.2)).lookup id =
      (sessions.lookup id).map change := by
  simpa using lookup_adjust sessions (fun _ => true) (fun _ => change) id

theorem lookup_change (id : String) (change : β → β) (b : String) : (sessions.map fun entry =>
        if entry.1 = id then (entry.1, change entry.2) else entry).lookup b =
      (sessions.lookup b).map fun value => if b = id then change value else value := by
  have hentry (entry : String × β) : (if entry.1 = id then (entry.1, change entry.2) else entry) =
      (entry.1, if entry.1 = id then change entry.2 else entry.2) := by
    split <;> rfl
  simpa [hentry] using lookup_adjust sessions (fun _ => true)
    (fun key value => if key = id then change value else value) b

theorem lookup_append (value : β) (hid : (sessions.lookup id).isSome = false) (b : String) :
    (sessions ++ [(id, value)]).lookup b = if b = id then some value else sessions.lookup b := by
  rw [List.lookup_append]
  by_cases hb : b = id
  · subst hb
    simp [Option.not_isSome_iff_eq_none.1 (Bool.not_eq_true _ ▸ hid)]
  · simp [lookup_cons_of_ne hb, hb]

theorem lookup_filter_ne (id b : String) :
    (sessions.filter fun entry => entry.1 ≠ id).lookup b =
      if b = id then none else sessions.lookup b := by
  have h := lookup_adjust sessions (fun key => decide (key ≠ id)) (fun _ value => value) b
  simpa using h

end

/-! ### What the checks find -/

variable {parentById : SessionMountTree}

theorem mem_keys_of_parentOf
    (h : parentOf parentById id ≠ none) : id ∈ parentById.map Prod.fst := by
  induction parentById with
  | nil => exact absurd rfl h
  | cons entry rest ih =>
    by_cases heq : id = entry.1
    · exact heq ▸ (.head _)
    · refine .tail _ (ih ?_)
      rwa [parentOf, lookup_cons_of_ne heq] at h

theorem mem_of_parentOf {p : String}
    (h : parentOf parentById id = some p) : ∃ entry ∈ parentById, entry.2 = some p := by
  induction parentById with
  | nil => cases h
  | cons entry rest ih =>
    obtain ⟨key, value⟩ := entry
    by_cases heq : id = key
    · subst heq
      exact ⟨(id, value), (.head _), by simpa [parentOf] using h⟩
    · rw [parentOf, lookup_cons_of_ne heq] at h
      obtain ⟨entry', hmem, hvalue⟩ := ih h
      exact ⟨entry', .tail _ hmem, hvalue⟩

theorem line_length_le {l : List String}
    (h : Line (parentOf parentById) id l) : l.length ≤ parentById.length := by
  have hle := h.length_le fun _ hb => mem_keys_of_parentOf hb
  rwa [length_map] at hle

/-- The loop finds what is above a session, as far as the parents lead to a root. -/
theorem ancestors_of_line {l : List String}
    (h : Line (parentOf parentById) id l) : ancestors parentById id = l := by
  refine climb_of_line h (Nat.lt_succ_of_le (line_length_le h)) fun b hb hmem => ?_
  rw [mem_singleton.1 hmem] at hb
  exact h.not_mem hb

theorem line_ancestors (h : IsForest (parentOf parentById))
    (id : String) : Line (parentOf parentById) id (ancestors parentById id) := by
  obtain ⟨l, hl⟩ := h id
  rwa [ancestors_of_line hl]

theorem mem_ancestors {p : String}
    (h : p ∈ ancestors parentById id) : ∃ b, parentOf parentById b = some p := by
  have hclimb : ∀ (fuel : ℕ) (seen : List String) (b : String),
      p ∈ climb (parentOf parentById) fuel seen (parentOf parentById b) →
        ∃ b, parentOf parentById b = some p := by
    intro fuel
    induction fuel with
    | zero => intro seen b hp; cases hp
    | succ n ih =>
      intro seen b hp
      cases hb : parentOf parentById b with
      | none => rw [hb] at hp; cases hp
      | some q =>
        rw [hb, climb] at hp
        split at hp
        · cases hp
        · rcases mem_cons.1 hp with rfl | hp
          · exact ⟨b, hb⟩
          · exact ih _ _ hp
  exact hclimb _ _ _ h

/-- **The cycle check passes** when the parents of the new parent lead to a root, and the session is
not among them. -/
theorem wouldCreateMountCycle_eq_false_iff {sessionId parentSessionId : String} :
    wouldCreateMountCycle sessionId parentSessionId parentById = false ↔
      ∃ l, Line (parentOf parentById) parentSessionId l ∧ sessionId ∉ parentSessionId :: l := by
  simp only [wouldCreateMountCycle, Bool.or_eq_false_iff, decide_eq_false_iff_not]
  refine ⟨?_, ?_⟩
  · rintro ⟨-, hback⟩
    obtain ⟨l, hline, hseen⟩ := line_of_comesBack hback
    exact ⟨l, hline, fun hmem => hseen _ hmem (mem_singleton.2 rfl)⟩
  · rintro ⟨l, hline, hnot⟩
    refine ⟨fun heq => hnot (heq ▸ (.head _)), comesBack_of_line hline ?_ ?_⟩
    · exact Nat.succ_lt_succ (Nat.lt_succ_of_le (line_length_le hline))
    · rintro b hb hmem
      rw [mem_singleton.1 hmem] at hb
      exact hnot hb

/-- Mounting checks a tree in which the session has the new parent already. -/
theorem not_mem_of_mountCheck {sessionId parentSessionId : String}
    (h : wouldCreateMountCycle sessionId parentSessionId
      ((sessionId, some parentSessionId) :: parentById) = false) :
    sessionId ∉ parentSessionId :: ancestors parentById parentSessionId := by
  obtain ⟨l, hline, hnot⟩ := wouldCreateMountCycle_eq_false_iff.1 h
  have hsame : Line (parentOf parentById) parentSessionId l := by
    refine hline.congr fun b hb => ?_
    have hne : b ≠ sessionId := fun heq => hnot (heq ▸ hb)
    rw [parentOf, parentOf, lookup_cons_of_ne hne]
  rwa [ancestors_of_line hsame]

/-! ### The sessions and the operations on them -/

/-- The stored state of a session: `custom.parent_session_id`, and whether it is archived. -/
structure SessionRecord where
  parent : Option String
  archived : Bool := false

inductive LinkTaskKind
  /-- `mountSession`, `remountSession` or `unmountSession`, inside the mutation lock. -/
  | mount
  /-- `createMountedChild`: the limit when it was accepted, and the session that was looked up. -/
  | hire (maxDepth : ℕ) (department : String)
  /-- `refreshSessionSelf`, which writes the metadata that it has read. -/
  | refresh
  deriving DecidableEq

/-- The depth that a hire has checked is the one of the new parent. -/
def LinkTaskKind.ofParent (kind : LinkTaskKind) (read : SessionMountTree) (id : String) : Bool :=
  match kind with
  | .hire _ department => department = id && hasOwn read id
  | _ => true

/-- An operation that writes the parent of a session: what it has read, and what it will write. -/
structure LinkTask where
  kind : LinkTaskKind
  /-- The session. A hire has none before it has created its child. -/
  session : Option String
  parent : Option String
  /-- What a rollback writes. -/
  previous : Option String := none
  read : SessionMountTree
  written : Bool := false

structure MountedSessions where
  sessions : List (String × SessionRecord) := []
  tasks : List LinkTask := []

inductive MountEvent
  /-- `createSession`, with the parent that the given metadata has. -/
  | create (id : String) (parent : Option String)
  | fork (sourceId targetId : String) (parent : Option String)
  | archive (id : String)
  | delete (id : String)
  /-- `applySessionMount` up to the write. -/
  | mountCheck (sessionId parentSessionId : String)
  | unmountCheck (sessionId : String)
  | hireCheck (host : HiringSession) (parentSessionId : String) (maxDepth : ℕ)
  /-- The child of a hire is created, under an id that is used nowhere. -/
  | hireCreate (k : ℕ) (child : String)
  | refresh (sessionId : String)
  /-- A task writes the link. -/
  | write (k : ℕ)
  /-- The synchronization failed: a mount writes the previous parent. -/
  | rollback (k : ℕ)
  | finish (k : ℕ)

namespace MountedSessions

/-- The parents of all sessions: `list({ includeArchive: true })`. -/
def tree (s : MountedSessions) : SessionMountTree :=
  s.sessions.map fun entry => (entry.1, readParentSessionId entry.2.parent)

/-- The parents as hiring reads them: `list({})`, without archived sessions. -/
def listMountParentById (s : MountedSessions) : SessionMountTree :=
  (s.sessions.filter fun entry => !entry.2.archived).map fun entry =>
    (entry.1, readParentSessionId entry.2.parent)

def has (s : MountedSessions) (id : String) : Bool := (s.sessions.lookup id).isSome

/-- The mutation lock is free. -/
def unlocked (s : MountedSessions) : Bool := s.tasks.all fun task => task.kind ≠ .mount

/-- All ids in use. A new one is different from them. -/
def ids (s : MountedSessions) : List String :=
  s.sessions.flatMap (fun entry => entry.1 :: entry.2.parent.toList) ++
    s.tasks.flatMap fun task =>
      task.parent.toList ++ task.read.flatMap fun entry => entry.1 :: entry.2.toList

def add (s : MountedSessions) (id : String) (record : SessionRecord) : MountedSessions :=
  { s with sessions := s.sessions ++ [(id, record)] }

def start (s : MountedSessions) (task : LinkTask) : MountedSessions :=
  { s with tasks := s.tasks ++ [task] }

/-- The metadata of a session is stored. -/
def put (s : MountedSessions) (id : String) (change : SessionRecord → SessionRecord) :
    MountedSessions :=
  { s with sessions := s.sessions.map fun entry =>
      if entry.1 = id then (entry.1, change entry.2) else entry }

/-- `forkCustomMetadata`: the metadata given to the fork wins. -/
def forkedParent (source : SessionRecord) (parent : Option String) : Option String :=
  parent.or source.parent

def step (s : MountedSessions) : MountEvent → Option MountedSessions
  | .create id parent => if s.has id then none else some (s.add id { parent := parent })
  | .fork sourceId targetId parent => (s.sessions.lookup sourceId).bind fun source =>
    if s.has targetId then none
    else some (s.add targetId { source with parent := forkedParent source parent })
  | .archive id =>
    if s.has id then some (s.put id fun record => { record with archived := true }) else none
  | .delete id =>
    if s.unlocked && s.has id then
      some { s with sessions := s.sessions.filter fun entry => entry.1 ≠ id }
    else none
  | .mountCheck sessionId parentSessionId =>
    if s.unlocked && s.has sessionId && s.has parentSessionId && sessionId ≠ parentSessionId &&
        (parentOf s.tree sessionId = some parentSessionId ||
          !wouldCreateMountCycle sessionId parentSessionId
            ((sessionId, some parentSessionId) :: s.tree)) then
      some (s.start {
        kind := .mount
        session := some sessionId
        parent := some parentSessionId
        previous := parentOf s.tree sessionId
        read := s.tree })
    else none
  | .unmountCheck sessionId =>
    if s.unlocked && s.has sessionId && (parentOf s.tree sessionId).isSome then
      some (s.start {
        kind := .mount
        session := some sessionId
        parent := none
        previous := parentOf s.tree sessionId
        read := s.tree })
    else none
  | .hireCheck host parentSessionId maxDepth =>
    if host.canCreateDepartment parentSessionId s.listMountParentById maxDepth then
      some (s.start {
        kind := .hire maxDepth (host.sessionIdForLeader parentSessionId)
        session := none
        parent := some parentSessionId
        read := s.listMountParentById })
    else none
  | .hireCreate k child => (s.tasks[k]?).bind fun task =>
    if task.session = none ∧ child ∉ s.ids then
      some { (s.add child { parent := none }) with
        tasks := s.tasks.set k { task with session := some child } }
    else none
  | .refresh sessionId =>
    if s.has sessionId then
      some (s.start {
        kind := .refresh
        session := some sessionId
        parent := parentOf s.tree sessionId
        read := s.tree })
    else none
  | .write k => (s.tasks[k]?).bind fun task => task.session.bind fun id =>
    if s.has id && !task.written then
      some { (s.put id fun record => { record with parent := task.parent }) with
        tasks := s.tasks.set k { task with written := true } }
    else none
  | .rollback k => (s.tasks[k]?).bind fun task => task.session.bind fun id =>
    if s.has id && task.kind = .mount then
      some (s.put id fun record => { record with parent := task.previous })
    else none
  | .finish k => if k < s.tasks.length then some { s with tasks := s.tasks.eraseIdx k } else none

/-- What stands above a session is what a task has read. -/
def AsRead (s : MountedSessions) (task : LinkTask) (id : String) : Prop :=
  ancestors s.tree id = ancestors task.read id

/-- **A link is written while what was checked still holds.** What stands above the new parent is
what the operation has read, a hire has read the new parent among the sessions, and the parent that
a new session is given does not stand below it. -/
def Current (s : MountedSessions) : MountEvent → Prop
  | .create id parent => ∀ p ∈ readParentSessionId parent, wouldCreateMountCycle id p s.tree = false
  | .fork sourceId targetId parent => ∀ source ∈ s.sessions.lookup sourceId,
      ∀ p ∈ readParentSessionId (forkedParent source parent),
        wouldCreateMountCycle targetId p s.tree = false
  | .write k => ∀ task ∈ s.tasks[k]?, ∀ p ∈ task.parent,
      s.AsRead task p ∧ task.kind.ofParent task.read p = true
  | .rollback k => ∀ task ∈ s.tasks[k]?, ∀ p ∈ task.previous, s.AsRead task p
  | _ => True

instance (s : MountedSessions) (e : MountEvent) : Decidable (s.Current e) := by
  cases e <;> unfold Current <;> try unfold AsRead
  all_goals infer_instance

/-! ### What every step keeps -/

end MountedSessions

/-- What an operation under way has checked: the session is not above its new parent nor its old
one, and the department is not at the limit. -/
structure LinkTask.Checked (task : LinkTask) : Prop where
  apart : ∀ id ∈ task.session, ∀ p, p ∈ task.parent ∨ p ∈ task.previous →
    id ∉ p :: ancestors task.read p
  unborn : task.session = none → task.previous = none
  shallow : ∀ (maxDepth : ℕ) (department : String), task.kind = .hire maxDepth department →
    hasOwn task.read department = true → sessionMountDepth task.read department < maxDepth

namespace MountedSessions

/-- **The invariant.** -/
structure Mounted (s : MountedSessions) : Prop where
  forest : IsForest (parentOf s.tree)
  checked : ∀ task ∈ s.tasks, task.Checked

variable {s t : MountedSessions}

theorem mounted_empty : Mounted {} where
  forest := fun _ => ⟨[], Line.root rfl⟩
  checked := by simp

theorem parentOf_tree (s : MountedSessions) (id : String) : parentOf s.tree id =
    (s.sessions.lookup id).bind fun record => readParentSessionId record.parent := by
  unfold tree parentOf
  rw [lookup_map s.sessions (fun record => readParentSessionId record.parent) id]
  cases s.sessions.lookup id <;> rfl

theorem lookup_put (s : MountedSessions) (id : String) (change : SessionRecord → SessionRecord)
    (b : String) : (s.put id change).sessions.lookup b =
      (s.sessions.lookup b).map fun record => if b = id then change record else record :=
  lookup_change s.sessions id change b

variable {id p : String}

/-- **A link that is written keeps the forest** when the session is not above its new parent. -/
theorem Mounted.link (h : s.Mounted) (hid : id ∉ p :: ancestors s.tree p)
    (hnew : parentOf t.tree id = some p)
    (hother : ∀ b, b ≠ id → parentOf t.tree b = parentOf s.tree b) :
    IsForest (parentOf t.tree) :=
  h.forest.link (line_ancestors h.forest p) hid hnew hother

/-- The links of the others stay, and the session gets the parent, or none. -/
theorem Mounted.relink (h : s.Mounted) {parent : Option String}
    (hid : ∀ p ∈ readParentSessionId parent, id ∉ p :: ancestors s.tree p)
    (hnew : parentOf t.tree id = readParentSessionId parent)
    (hother : ∀ b, b ≠ id → parentOf t.tree b = parentOf s.tree b) :
    IsForest (parentOf t.tree) := by
  cases hread : readParentSessionId parent with
  | none =>
    refine h.forest.cut fun b => ?_
    by_cases hb : b = id
    · exact .inr (hb ▸ hnew.trans hread)
    · exact .inl (hother b hb)
  | some p => exact h.link (hid p hread) (hnew.trans hread) hother

theorem parentOf_put_parent (parent : Option String) (hid : s.has id = true) :
    parentOf (s.put id fun record => { record with parent := parent }).tree id =
      readParentSessionId parent := by
  obtain ⟨record, hrecord⟩ := isSome_iff_exists.1 hid
  simp [parentOf_tree, lookup_put, hrecord]

theorem parentOf_put_other {b : String} (change : SessionRecord → SessionRecord)
    (hb : b ≠ id) : parentOf (s.put id change).tree b = parentOf s.tree b := by
  simp [parentOf_tree, lookup_put, if_neg hb]

theorem parentOf_add (record : SessionRecord) (hid : s.has id = false) (b : String) :
    parentOf (s.add id record).tree b =
      if b = id then readParentSessionId record.parent else parentOf s.tree b := by
  rw [parentOf_tree, parentOf_tree, add, lookup_append _ _ hid]
  split <;> rfl

theorem Mounted.add (h : s.Mounted) {record : SessionRecord}
    (hid : s.has id = false) (hparent : ∀ p ∈ readParentSessionId record.parent,
      wouldCreateMountCycle id p s.tree = false) : (s.add id record).Mounted where
  forest := by
    refine h.relink ?_ ((parentOf_add record hid id).trans (if_pos rfl)) ?_
    · intro p hp
      obtain ⟨l, hline, hnot⟩ := wouldCreateMountCycle_eq_false_iff.1 (hparent p hp)
      rwa [ancestors_of_line hline]
    · intro b hb
      rw [parentOf_add record hid, if_neg hb]
  checked := h.checked

variable {task : LinkTask}

theorem Mounted.start (h : s.Mounted) (htask : task.Checked) : (s.start task).Mounted where
  forest := h.forest
  checked := by
    intro task' hmem
    rcases mem_append.1 hmem with hmem | hmem
    · exact h.checked task' hmem
    · rwa [mem_singleton.1 hmem]

theorem Mounted.apart_parent (h : s.Mounted) (hp : parentOf s.tree id = some p) :
    id ∉ p :: ancestors s.tree p := (Line.up hp (line_ancestors h.forest p)).not_mem

theorem mem_of_mem_readParentSessionId {value : Option String}
    (h : p ∈ readParentSessionId value) : p ∈ value := (mem_filter_iff.1 h).1

/-- A task writes a parent that its session is not above, as far as it has read what is. -/
theorem Mounted.write (h : s.Mounted) {parent : Option String}
    (hid : s.has id = true) (hread : ∀ p ∈ parent, s.AsRead task p)
    (hapart : ∀ p ∈ parent, id ∉ p :: ancestors task.read p) :
    IsForest (parentOf (s.put id fun record => { record with parent := parent }).tree) := by
  refine h.relink ?_ (parentOf_put_parent parent hid) fun b hb => parentOf_put_other _ hb
  intro p hp
  have hp' := mem_of_mem_readParentSessionId hp
  rw [hread p hp']
  exact hapart p hp'

variable {child : String}

theorem has_eq_false_of_not_mem_ids (hchild : child ∉ s.ids) : s.has child = false := by
  by_contra hhas
  obtain ⟨record, hrecord⟩ := isSome_iff_exists.1 (Bool.not_eq_false _ ▸ hhas)
  refine hchild (mem_append_left _ (mem_flatMap.2 ⟨(child, record), ?_, ?_⟩))
  · exact mem_of_lookup hrecord
  · exact (.head _)

theorem not_mem_of_not_mem_ids (htask : task ∈ s.tasks)
    (hchild : child ∉ s.ids) (hp : p ∈ task.parent) : child ∉ p :: ancestors task.read p := by
  have hids : ∀ b ∈ task.parent.toList ++
      task.read.flatMap (fun entry => entry.1 :: entry.2.toList), b ∈ s.ids := fun b hb =>
    mem_append_right _ (mem_flatMap.2 ⟨task, htask, hb⟩)
  intro hmem
  rcases mem_cons.1 hmem with rfl | hmem
  · exact hchild (hids _ (mem_append_left _ (mem_toList.2 hp)))
  · obtain ⟨b, hb⟩ := mem_ancestors hmem
    obtain ⟨entry, hentry, hvalue⟩ := mem_of_parentOf hb
    refine hchild (hids _ (mem_append_right _ (mem_flatMap.2 ⟨entry, hentry, ?_⟩)))
    exact .tail _ (mem_toList.2 hvalue)

/-- **Every step keeps the invariant.** -/
theorem Mounted.step (h : s.Mounted) {e : MountEvent} (hcurrent : s.Current e)
    (hstep : s.step e = some t) : t.Mounted := by
  cases e <;> dsimp only [MountedSessions.step] at hstep
  case create id parent =>
    split at hstep <;> cases hstep
    rename_i hid
    exact h.add (Bool.not_eq_true _ ▸ hid) hcurrent
  case fork sourceId targetId parent =>
    obtain ⟨source, hsource, hstep⟩ := bind_eq_some_iff.1 hstep
    split at hstep <;> cases hstep
    rename_i hid
    exact h.add (Bool.not_eq_true _ ▸ hid) (hcurrent source hsource)
  case archive id =>
    split at hstep <;> cases hstep
    refine ⟨h.forest.cut fun b => .inl ?_, h.checked⟩
    rw [parentOf_tree, parentOf_tree, lookup_put]
    cases s.sessions.lookup b with
    | none => rfl
    | some record => by_cases hb : b = id <;> simp [hb]
  case delete id =>
    split at hstep <;> cases hstep
    refine ⟨h.forest.cut fun b => ?_, h.checked⟩
    rw [parentOf_tree, parentOf_tree, lookup_filter_ne]
    by_cases hb : b = id
    · exact .inr (by simp [hb])
    · exact .inl (by rw [if_neg hb])
  case mountCheck sessionId parentSessionId =>
    split at hstep <;> cases hstep
    rename_i hguard
    simp only [Bool.and_eq_true, Bool.or_eq_true, decide_eq_true_eq, Bool.not_eq_true'] at hguard
    obtain ⟨-, hcycle⟩ := hguard
    refine h.start ⟨?_, by simp, by simp⟩
    rintro id hid p (hp | hp)
    · cases hid
      cases hp
      rcases hcycle with hsame | hcycle
      · exact h.apart_parent hsame
      · exact not_mem_of_mountCheck hcycle
    · cases hid
      exact h.apart_parent hp
  case unmountCheck sessionId =>
    split at hstep <;> cases hstep
    refine h.start ⟨?_, by simp, by simp⟩
    rintro id hid p (hp | hp)
    · cases hp
    · cases hid
      exact h.apart_parent hp
  case hireCheck host parentSessionId maxDepth =>
    split at hstep <;> cases hstep
    rename_i hguard
    refine h.start ⟨by simp, fun _ => rfl, ?_⟩
    rintro maxDepth' department hkind hhas
    cases hkind
    simpa [HiringSession.canCreateDepartment, departmentDepth, hhas] using hguard
  case hireCreate k child =>
    obtain ⟨task, htask, hstep⟩ := bind_eq_some_iff.1 hstep
    split at hstep
    · rename_i hguard
      obtain ⟨hunborn, hchild⟩ := hguard
      cases hstep
      have hmem := mem_of_getElem? htask
      have hnew : s.has child = false := has_eq_false_of_not_mem_ids hchild
      have hadd : (s.add child { parent := none }).Mounted :=
        h.add hnew (by simp [readParentSessionId])
      refine ⟨hadd.forest, fun task' hmem' => ?_⟩
      rcases mem_or_eq_of_mem_set hmem' with hmem' | rfl
      · exact h.checked task' hmem'
      · have hold := h.checked task hmem
        refine ⟨?_, by simp, hold.shallow⟩
        rintro id hid p (hp | hp)
        · cases hid
          have hp' : p ∈ task.parent := hp
          have hnot : child ∉ p :: ancestors task.read p := not_mem_of_not_mem_ids hmem hchild hp'
          exact hnot
        · have hprevious : p ∈ task.previous := hp
          rw [hold.unborn hunborn] at hprevious
          cases hprevious
    · cases hstep
  case refresh sessionId =>
    split at hstep <;> cases hstep
    refine h.start ⟨?_, by simp, by simp⟩
    rintro id hid p (hp | hp)
    · cases hid
      exact h.apart_parent hp
    · cases hp
  case write k =>
    obtain ⟨task, htask, hstep⟩ := bind_eq_some_iff.1 hstep
    obtain ⟨id, hsession, hstep⟩ := bind_eq_some_iff.1 hstep
    split at hstep
    · rename_i hguard
      cases hstep
      have hold := h.checked task (mem_of_getElem? htask)
      refine ⟨?_, fun task' hmem' => ?_⟩
      · exact h.write (Bool.and_eq_true_iff.1 hguard).1 (fun p hp => (hcurrent task htask p hp).1)
          fun p hp => hold.apart id hsession p (.inl hp)
      · rcases mem_or_eq_of_mem_set hmem' with hmem' | rfl
        · exact h.checked task' hmem'
        · exact ⟨hold.apart, hold.unborn, hold.shallow⟩
    · cases hstep
  case rollback k =>
    obtain ⟨task, htask, hstep⟩ := bind_eq_some_iff.1 hstep
    obtain ⟨id, hsession, hstep⟩ := bind_eq_some_iff.1 hstep
    split at hstep
    · rename_i hguard
      cases hstep
      have hold := h.checked task (mem_of_getElem? htask)
      refine ⟨?_, h.checked⟩
      exact h.write (Bool.and_eq_true_iff.1 hguard).1 (hcurrent task htask)
        fun p hp => hold.apart id hsession p (.inr hp)
    · cases hstep
  case finish k =>
    split at hstep <;> cases hstep
    exact ⟨h.forest, fun task htask => h.checked task (mem_of_mem_eraseIdx htask)⟩

/-! ### Runs -/

/-- A hire that writes the link of its child as `Current` says leaves it within the limit. -/
theorem Mounted.hired (h : s.Mounted) {k : ℕ} {maxDepth : ℕ}
    {department : String} (htask : s.tasks[k]? = some task)
    (hkind : task.kind = .hire maxDepth department) (hsession : task.session = some child)
    (hparent : task.parent = some p) (hcurrent : s.Current (.write k))
    (hstep : s.step (.write k) = some t) :
    ∃ line, Line (parentOf t.tree) child line ∧ line.length ≤ maxDepth := by
  have hchecked := h.checked task (mem_of_getElem? htask)
  obtain ⟨hread, hof⟩ := hcurrent task htask p hparent
  simp only [LinkTaskKind.ofParent, hkind, Bool.and_eq_true, decide_eq_true_eq] at hof
  obtain ⟨rfl, hhas⟩ := hof
  have hapart : child ∉ department :: ancestors s.tree department := by
    rw [hread]
    exact hchecked.apart child hsession department (.inl hparent)
  have hdepth : (ancestors s.tree department).length < maxDepth := by
    rw [hread]
    exact hchecked.shallow maxDepth department hkind hhas
  simp only [MountedSessions.step, htask, hsession, bind_some] at hstep
  split at hstep <;> cases hstep
  rename_i hguard
  have hnew := parentOf_put_parent (s := s) task.parent (Bool.and_eq_true_iff.1 hguard).1
  cases hempty : readParentSessionId task.parent with
  | none => exact ⟨[], Line.root (hnew.trans hempty), Nat.zero_le _⟩
  | some q =>
    obtain rfl := some.inj (hparent.symm.trans (mem_of_mem_readParentSessionId hempty))
    refine ⟨department :: ancestors s.tree department, Line.up (hnew.trans hempty) ?_, hdepth⟩
    refine (line_ancestors h.forest department).congr fun b hb => ?_
    have hb' : b ≠ child := by
      rintro rfl
      exact hapart hb
    exact parentOf_put_other (s := s) (fun record => { record with parent := task.parent }) hb'

/-- **The parents form a forest, and members are not too deep.** In every run in which the links
are written while what was checked still holds, the parents of every session lead to a root, and the
child of a hire comes to stand within the limit that the hire was accepted with. -/
theorem run_forest (l : List MountEvent) (s : MountedSessions)
    (h : LibRun.Run step Current {} l s) :
    IsForest (parentOf s.tree) ∧
    ∀ (k : ℕ) (task : LinkTask) (child p : String) (maxDepth : ℕ) (department : String)
      (t : MountedSessions), s.tasks[k]? = some task → task.kind = .hire maxDepth department →
      task.session = some child → task.parent = some p → s.Current (.write k) →
      s.step (.write k) = some t →
      ∃ line, Line (parentOf t.tree) child line ∧ line.length ≤ maxDepth := by
  have hs : s.Mounted :=
    h.invariant mounted_empty fun _ _ _ ht hcurrent hstep => ht.step hcurrent hstep
  exact ⟨hs.forest, fun k task child p maxDepth department t htask hkind hsession hparent hc hstep =>
    hs.hired htask hkind hsession hparent hc hstep⟩

/-- A session is mounted and hires a member, at the limit. -/
theorem run_forest_example : ∃ s, LibRun.Run step Current {}
    [.create "root" none, .create "a" none, .mountCheck "a" "root", .write 0, .finish 0,
      .hireCheck { id := "a" } "a" 2, .hireCreate 0 "b"] s ∧
    (∃ t, s.step (.write 0) = some t ∧ ∃ line, Line (parentOf t.tree) "b" line ∧
      line.length ≤ 2) ∧ IsForest (parentOf s.tree) := by
  have hrun : ∃ s, LibRun.Run step Current {}
      [.create "root" none, .create "a" none, .mountCheck "a" "root", .write 0, .finish 0,
        .hireCheck { id := "a" } "a" 2, .hireCreate 0 "b"] s ∧
      s.Current (.write 0) ∧ (s.step (.write 0)).isSome = true ∧ ∃ task ∈ s.tasks[0]?,
        task.kind = .hire 2 "a" ∧ task.session = some "b" ∧ task.parent = some "a" :=
    exists_run (by decide +kernel) (by decide +kernel)
  obtain ⟨s, hs, hcurrent, hsome, task, htask, hkind, hsession, hparent⟩ := hrun
  obtain ⟨t, ht⟩ := Option.isSome_iff_exists.1 hsome
  obtain ⟨hforest, hhired⟩ := run_forest _ s hs
  exact ⟨s, hs, ⟨t, ht, hhired 0 task "b" "a" 2 "a" t htask hkind hsession hparent hcurrent ht⟩,
    hforest⟩

/-- **A member that is too deep, and a cycle.** The depth check does not see archived sessions:
below one it counts from there, and a member is hired at depth three with a limit of two. And two
sessions are created with each other as parents. -/
theorem too_deep :
    (∃ s, LibRun.Run step always {}
      [.create "root" none, .create "a" none, .create "b" none, .mountCheck "a" "root", .write 0,
        .finish 0, .mountCheck "b" "a", .write 0, .finish 0, .archive "a",
        .hireCheck { id := "b" } "b" 2, .hireCreate 0 "c", .write 0] s ∧
      Line (parentOf s.tree) "c" ["b", "a", "root"]) ∧
    ∃ s, LibRun.Run step always {} [.create "a" (some "b"), .create "b" (some "a")] s ∧
      ¬IsForest (parentOf s.tree) := by
  have hdeep : ∃ s, LibRun.Run step always {}
      [.create "root" none, .create "a" none, .create "b" none, .mountCheck "a" "root", .write 0,
        .finish 0, .mountCheck "b" "a", .write 0, .finish 0, .archive "a",
        .hireCheck { id := "b" } "b" 2, .hireCreate 0 "c", .write 0] s ∧
      parentOf s.tree "c" = some "b" ∧ parentOf s.tree "b" = some "a" ∧
      parentOf s.tree "a" = some "root" ∧ parentOf s.tree "root" = none :=
    exists_run (by decide +kernel) (legal_always _ _)
  have hcycle : ∃ s, LibRun.Run step always {}
      [.create "a" (some "b"), .create "b" (some "a")] s ∧
      parentOf s.tree "a" = some "b" ∧ parentOf s.tree "b" = some "a" :=
    exists_run (by decide +kernel) (legal_always _ _)
  refine ⟨?_, ?_⟩
  · obtain ⟨s, hs, hc, hb, ha, hroot⟩ := hdeep
    exact ⟨s, hs, Line.up hc (Line.up hb (Line.up ha (Line.root hroot)))⟩
  · obtain ⟨s, hs, ha, hb⟩ := hcycle
    refine ⟨s, hs, fun hforest => ?_⟩
    obtain ⟨l, hl⟩ := hforest "a"
    exact (Line.up ha (Line.up hb hl)).not_mem (.tail _ List.mem_cons_self)

end MountedSessions

end NoriCode
