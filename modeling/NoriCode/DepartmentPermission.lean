/-
**The permission mode of a department.**

The sessions of a department have one switch.  A change on one of them is applied there at once, and
then a walk carries it to the others, one after the other; while a walk from a session is under way,
another change there starts none.

The module embeds `departmentSessionIds` of `session/team-tree.ts`, `applySessionPermissionMode` of
`session/index.ts` and `propagateDepartmentPermission` of `rpc/core-impl.ts`.  The steps of the
walks come in any order, and so do the changes.

Main definitions:

* `departmentSessionIds` — the sessions of a tree;
* `Permissions`, with `step` — the modes of the sessions, and the walks under way;
* `Permissions.Undisturbed` — no other mode is under way when one is chosen.

Main results:

* `Department.mem_sessionIds_iff` — the walk goes to all sessions with the same root;
* `departmentSessionIds_component` — the sessions of any parent map, also with cycles;
* `Permissions.run_converges` — **in the end all sessions have the mode of the last
  change**.
-/

import NoriCode.MountForest

namespace NoriCode

open LibForest List Option

/-! ### The sessions of a tree -/

/-- The root is looked for upwards, and then everything below it. -/
def departmentSessionIds (parentById : SessionMountTree) (originId : String) : List String :=
  let root := rootFrom (fun id => (parentOf parentById id).filter (· ≠ ""))
    (parentById.length + 2) [] originId
  descend parentById (parentById.length + 1) [root] []

theorem parentOf_iff {parentById : SessionMountTree} (hnodup : (parentById.map Prod.fst).Nodup)
    {a p : String} : parentOf parentById a = some p ↔ (a, some p) ∈ parentById := by
  induction parentById with
  | nil => simp [parentOf]
  | cons entry rest ih =>
    obtain ⟨key, value⟩ := entry
    obtain ⟨hkey, hrest⟩ := nodup_cons.1 hnodup
    by_cases ha : a = key
    · subst ha
      have hnot : (a, some p) ∉ rest := by
        intro hmem
        have hfst := mem_map_of_mem (f := Prod.fst) hmem
        exact hkey hfst
      simp [parentOf, hnot, eq_comm]
    · rw [parentOf, lookup_cons_of_ne ha, mem_cons]
      simp only [Prod.mk.injEq, ha, false_and, false_or]
      exact ih hrest

/-- A department: what `listMountParentById` gives, a map of sessions whose parents form a forest,
and a session of it. -/
structure Department where
  parentById : SessionMountTree
  member : String
  nodup : (parentById.map Prod.fst).Nodup
  parents : ∀ entry ∈ parentById, entry.2 ≠ some ""
  forest : IsForest (parentOf parentById)

namespace Department

variable (d : Department)

def sessionIds : List String := departmentSessionIds d.parentById d.member

variable {d}

theorem parentOf_eq_some_iff {a p : String} :
    parentOf d.parentById a = some p ↔ (a, some p) ∈ d.parentById :=
  parentOf_iff d.nodup

theorem parentOf_filter (id : String) :
    (parentOf d.parentById id).filter (· ≠ "") = parentOf d.parentById id := by
  cases hparent : parentOf d.parentById id with
  | none => rfl
  | some p =>
    have hne : p ≠ "" := fun heq => d.parents (id, some p) (parentOf_eq_some_iff.1 hparent)
      (congrArg some heq)
    simp [Option.filter, hne]

theorem exists_top (id : String) : ∃ r, Top (parentOf d.parentById) id r := by
  obtain ⟨l, hl⟩ := d.forest id
  exact ⟨_, top_rootFrom hl (Nat.lt_succ_self _) fun _ _ => not_mem_nil⟩

theorem mem_departmentSessionIds_iff {originId id r : String}
    (hr : Top (parentOf d.parentById) originId r) :
    id ∈ departmentSessionIds d.parentById originId ↔ Top (parentOf d.parentById) id r := by
  obtain ⟨l, hl⟩ := d.forest originId
  have hfuel : l.length < d.parentById.length + 2 :=
    Nat.lt_succ_of_le (Nat.le_succ_of_le (line_length_le hl))
  have hroot : Top (parentOf d.parentById) originId
      (rootFrom (parentOf d.parentById) (d.parentById.length + 2) [] originId) :=
    top_rootFrom hl hfuel fun _ _ => not_mem_nil
  unfold departmentSessionIds
  simp only [parentOf_filter]
  rw [hroot.unique hr]
  exact mem_descend_iff (fun a p => parentOf_eq_some_iff) (top_is_root hr) (Nat.le_refl _)

theorem mem_sessionIds_iff {id r : String} (hr : Top (parentOf d.parentById) d.member r) :
    id ∈ d.sessionIds ↔ Top (parentOf d.parentById) id r :=
  mem_departmentSessionIds_iff hr

/-- The walks from two sessions of the department go to the same sessions. -/
theorem mem_of_mem_sessionIds {originId id : String} (horigin : originId ∈ d.sessionIds)
    (hid : id ∈ d.sessionIds) : id ∈ departmentSessionIds d.parentById originId := by
  obtain ⟨r, hr⟩ := d.exists_top d.member
  exact (mem_departmentSessionIds_iff ((mem_sessionIds_iff hr).1 horigin)).2
    ((mem_sessionIds_iff hr).1 hid)

end Department

section

variable {parentById : SessionMountTree} (hkeys : (parentById.map Prod.fst).Nodup)
include hkeys

/-- Both loops end, also on cycles. -/
theorem departmentSessionIds_ends (originId : String) :
    ∃ root, Climbs (fun id => (parentOf parentById id).filter (· ≠ "")) [] originId root ∧
      Descends parentById [root] [] (departmentSessionIds parentById originId) := by
  have hnodes : ∀ id, (parentOf parentById id).filter (· ≠ "") ≠ none →
      id ∈ parentById.map Prod.fst := by
    intro id hid
    obtain ⟨p, hp⟩ := Option.ne_none_iff_exists'.1 hid
    exact mem_map_of_mem ((parentOf_iff hkeys).1 (Option.filter_eq_some_iff.1 hp).1)
  exact ⟨_, climbs_rootFrom hnodes nodup_nil (nil_subset _) (by simp),
    descends_root (Nat.le_refl _)⟩

/-- Where no session has an empty parent id, but perhaps an empty id itself, what is found is the
component of the session. -/
theorem mem_departmentSessionIds_component (hempty : ∀ id, (id, some "") ∈ parentById → id = "")
    (originId : String) {id : String} :
    id ∈ departmentSessionIds parentById originId ↔
      Relation.EqvGen (fun a p => (a, some p) ∈ parentById) originId id := by
  obtain ⟨root, hclimb, hdescend⟩ := departmentSessionIds_ends hkeys originId
  have hlink : ∀ a p, (parentOf parentById a).filter (· ≠ "") = some p → (a, some p) ∈ parentById :=
    fun a p h => (parentOf_iff hkeys).1 (Option.filter_eq_some_iff.1 h).1
  have hentries : ∀ a p, (a, some p) ∈ parentById →
      (parentOf parentById a).filter (· ≠ "") = some p ∨ a = p := by
    intro a p h
    by_cases hp : p = ""
    · subst hp
      exact .inr (hempty a h)
    · exact .inl (Option.filter_eq_some_iff.2 ⟨(parentOf_iff hkeys).2 h, by simpa using hp⟩)
  rw [hdescend.mem_iff hlink hentries, hclimb.connected_iff hlink hentries]

end

/-- **Any parent map.** The loops end, each session of the component of the origin is found once,
from every member of it, and in a forest that is the tree of the root. -/
theorem departmentSessionIds_component {parentById : SessionMountTree}
    (hkeys : (parentById.map Prod.fst).Nodup)
    (hempty : ∀ id, (id, some "") ∈ parentById → id = "") (originId : String) :
    (∃ root, Climbs (fun id => (parentOf parentById id).filter (· ≠ "")) [] originId root ∧
      Descends parentById [root] [] (departmentSessionIds parentById originId)) ∧
    (departmentSessionIds parentById originId).Nodup ∧
    (∀ id, id ∈ departmentSessionIds parentById originId ↔
      Relation.EqvGen (fun a p => (a, some p) ∈ parentById) originId id) ∧
    (∀ member ∈ departmentSessionIds parentById originId, ∀ id,
      id ∈ departmentSessionIds parentById member ↔ id ∈ departmentSessionIds parentById originId) ∧
    (IsForest (parentOf parentById) → ∃ root, Top (parentOf parentById) originId root ∧
      ∀ id, id ∈ departmentSessionIds parentById originId ↔ Top (parentOf parentById) id root) := by
  have hmem := @mem_departmentSessionIds_component parentById hkeys hempty
  obtain ⟨root, hclimb, hdescend⟩ := departmentSessionIds_ends hkeys originId
  refine ⟨⟨root, hclimb, hdescend⟩, hdescend.nodup nodup_nil, fun _ => hmem originId, ?_, ?_⟩
  · intro member hmember id
    have hlinked := (hmem originId).1 hmember
    rw [hmem member, hmem originId]
    exact ⟨hlinked.trans _ _ _, (hlinked.symm _ _).trans _ _ _⟩
  · intro hforest
    have hparents : ∀ entry ∈ parentById, entry.2 ≠ some "" := by
      rintro ⟨id, parent⟩ hentry rfl
      obtain rfl := hempty id hentry
      obtain ⟨l, hl⟩ := hforest ""
      have hself : parentOf parentById "" = some "" := (parentOf_iff hkeys).2 hentry
      cases hl with
      | root hroot => cases hroot.symm.trans hself
      | up hup hline =>
        cases hup.symm.trans hself
        exact (Line.up hup hline).not_mem (.head _)
    let d : Department := ⟨parentById, originId, hkeys, hparents, hforest⟩
    obtain ⟨r, hr⟩ := d.exists_top originId
    exact ⟨r, hr, fun _ => d.mem_sessionIds_iff hr⟩

theorem departmentSessionIds_component_cycle :
    "b" ∈ departmentSessionIds [("a", some "b"), ("b", some "a"), ("c", some "a")] "c" ↔
      Relation.EqvGen (fun a p =>
        (a, some p) ∈ [("a", some "b"), ("b", some "a"), ("c", some "a")]) "c" "b" :=
  (departmentSessionIds_component (by decide) (by simp) "c").2.2.1 "b"

/-- An empty parent id is none on the way up, and a parent on the way down. -/
theorem departmentSessionIds_empty_id :
    "a" ∈ departmentSessionIds [("a", some "")] "" ∧
      "" ∉ departmentSessionIds [("a", some "")] "a" := by
  decide

/-! ### The walks -/

inductive PermissionMode
  | manual
  | yolo
  | auto
  deriving DecidableEq

/-- The mode that a session remembers, that of its main agent, and whether this one is locked. -/
structure SessionModes where
  sessionPermissionMode : Option PermissionMode := none
  mode : PermissionMode := .manual
  teamWriteLocked : Bool := false

def applySessionPermissionMode (s : SessionModes) (mode : PermissionMode) : SessionModes :=
  { s with
    sessionPermissionMode := some mode
    mode := if ¬s.teamWriteLocked = true ∧ s.mode ≠ mode then mode else s.mode }

/-- A call of `propagateDepartmentPermission`: before it has the list of sessions, or with those it
has still to go to. -/
structure PermissionWalk where
  originSessionId : String
  mode : PermissionMode
  pending : Option (List String) := none

/-- The origins of the walks are what `permissionPropagation` contains. -/
structure Permissions where
  modes : String → SessionModes
  walks : List PermissionWalk := []
  /-- The mode of the last change. -/
  last : Option PermissionMode := none

inductive PermissionEvent
  | change (sessionId : String) (mode : PermissionMode)
  /-- The sessions are listed, or that fails. -/
  | list (k : ℕ) (ok : Bool)
  /-- The next session of a walk is loaded and gets the mode, or that fails. -/
  | visit (k : ℕ) (ok : Bool)

namespace Permissions

def set (s : Permissions) (id : String) (mode : PermissionMode) : Permissions :=
  { s with modes := fun other =>
      if other = id then applySessionPermissionMode (s.modes id) mode else s.modes other }

/-- A walk goes on with the sessions that are left, or it is over. -/
def proceed (s : Permissions) (k : ℕ) (walk : PermissionWalk) (rest : List String) : Permissions :=
  { s with walks :=
      if rest = [] then s.walks.eraseIdx k else s.walks.set k { walk with pending := some rest } }

def step (d : Department) (s : Permissions) : PermissionEvent → Option Permissions
  | .change sessionId mode =>
    if sessionId ∈ d.sessionIds then
      let changed := { s.set sessionId mode with last := some mode }
      if s.walks.any fun walk => walk.originSessionId = sessionId then some changed
      else some { changed with walks := s.walks ++ [⟨sessionId, mode, none⟩] }
    else none
  | .list k ok => (s.walks[k]?).bind fun walk =>
    if walk.pending = none then
      if ok then
        some (s.proceed k walk ((departmentSessionIds d.parentById walk.originSessionId).filter
          (· ≠ walk.originSessionId)))
      else some { s with walks := s.walks.eraseIdx k }
    else none
  | .visit k ok => (s.walks[k]?).bind fun walk =>
    match walk.pending with
    | some (id :: rest) =>
      some ((if ok then s.set id walk.mode else s).proceed k walk rest)
    | _ => none

/-- **No other mode is under way when one is chosen**, and all sessions can be listed and loaded. -/
def Undisturbed (s : Permissions) : PermissionEvent → Prop
  | .change _ mode => ∀ walk ∈ s.walks, walk.mode = mode
  | .list _ ok => ok = true
  | .visit _ ok => ok = true

instance (s : Permissions) (e : PermissionEvent) : Decidable (s.Undisturbed e) := by
  cases e <;> unfold Undisturbed <;> infer_instance

/-! ### What every step keeps -/

/-- The sessions that a walk has still to go to. -/
def todo (d : Department) (walk : PermissionWalk) : List String :=
  walk.pending.getD ((departmentSessionIds d.parentById walk.originSessionId).filter
    (· ≠ walk.originSessionId))

/-- The session has taken the mode, and its main agent has it if it is not locked. -/
def Has (s : SessionModes) (mode : PermissionMode) : Prop :=
  s.sessionPermissionMode = some mode ∧ (s.teamWriteLocked = false → s.mode = mode)

/-- **The invariant.** Every walk carries the mode of the last change, and what has not taken this
mode is still to be gone to. -/
structure Covered (d : Department) (s : Permissions) : Prop where
  mode : ∀ walk ∈ s.walks, s.last = some walk.mode
  covered : ∀ m ∈ s.last, ∀ id ∈ d.sessionIds, Has (s.modes id) m ∨
    ∃ walk ∈ s.walks, id ∈ todo d walk

variable {d : Department} {s t : Permissions}

theorem covered_start (d : Department) (modes : String → SessionModes) :
    Covered d { modes := modes } where
  mode := by simp
  covered := by simp

theorem has_apply (s : SessionModes) (mode : PermissionMode) :
    Has (applySessionPermissionMode s mode) mode := by
  refine ⟨rfl, fun hlocked => ?_⟩
  have hlocked' : s.teamWriteLocked = false := hlocked
  by_cases hmode : s.mode = mode <;> simp [applySessionPermissionMode, hlocked', hmode]

theorem has_set {id other : String} {mode : PermissionMode} (h : Has (s.modes other) mode) :
    Has ((s.set id mode).modes other) mode := by
  by_cases hother : other = id
  · subst hother
    simpa [set] using has_apply (s.modes other) mode
  · simpa [set, hother] using h

/-- A walk that goes on has still to go to the rest, and the others are not changed. -/
theorem exists_todo_proceed {k : ℕ} {walk : PermissionWalk} {rest : List String} {id : String}
    (hwalk : s.walks[k]? = some walk) (hrest : id ∈ todo d walk → id ∈ rest)
    (h : ∃ w ∈ s.walks, id ∈ todo d w) :
    ∃ w ∈ (s.proceed k walk rest).walks, id ∈ todo d w := by
  obtain ⟨walk', hmem, htodo⟩ := h
  obtain ⟨j, hj⟩ := List.mem_iff_getElem?.1 hmem
  dsimp only [proceed]
  by_cases hjk : j = k
  · subst hjk
    cases hwalk.symm.trans hj
    have hid := hrest htodo
    simp only [if_neg (List.ne_nil_of_mem hid)]
    refine ⟨{ walk with pending := some rest }, ?_, hid⟩
    exact List.mem_set (List.getElem?_eq_some_iff.1 hj).1 _
  · split
    · refine ⟨walk', List.mem_eraseIdx_iff_getElem?.2 ⟨j, hjk, hj⟩, htodo⟩
    · refine ⟨walk', List.mem_iff_getElem?.2 ⟨j, ?_⟩, htodo⟩
      rw [List.getElem?_set_ne (Ne.symm hjk)]
      exact hj

theorem mode_of_mem_proceed {k : ℕ} {walk walk' : PermissionWalk} {rest : List String}
    (hwalk : s.walks[k]? = some walk) (h : walk' ∈ (s.proceed k walk rest).walks) :
    ∃ w ∈ s.walks, w.mode = walk'.mode := by
  unfold proceed at h
  split at h
  · exact ⟨walk', mem_of_mem_eraseIdx h, rfl⟩
  · rcases mem_or_eq_of_mem_set h with h | rfl
    · exact ⟨walk', h, rfl⟩
    · exact ⟨walk, mem_of_getElem? hwalk, rfl⟩

/-- **Every step keeps the invariant.** -/
theorem Covered.step (h : Covered d s) {e : PermissionEvent} (hok : s.Undisturbed e)
    (hstep : s.step d e = some t) : Covered d t := by
  cases e with
  | change sessionId mode =>
    dsimp only [Permissions.step] at hstep
    split at hstep
    · rename_i horigin
      split at hstep
      · -- a walk from this session is under way: it carries the mode already
        rename_i hany
        cases hstep
        obtain ⟨walk, hwalk, -⟩ := any_eq_true.1 hany
        have hlast : s.last = some mode := (h.mode walk hwalk).trans (congrArg some (hok walk hwalk))
        refine ⟨fun walk hwalk => congrArg some (hok walk hwalk).symm, ?_⟩
        intro m hm id hid
        cases hm
        rcases h.covered mode hlast id hid with hhas | htodo
        · exact .inl (has_set hhas)
        · exact .inr htodo
      · cases hstep
        refine ⟨?_, ?_⟩
        · intro walk hwalk
          rcases mem_append.1 hwalk with hwalk | hwalk
          · exact congrArg some (hok walk hwalk).symm
          · rw [mem_singleton.1 hwalk]
        · intro m hm id hid
          cases hm
          by_cases hself : id = sessionId
          · subst hself
            refine .inl ?_
            simpa [set] using has_apply (s.modes id) mode
          · refine .inr ⟨⟨sessionId, mode, none⟩, mem_append_right _ (mem_singleton.2 rfl), ?_⟩
            exact List.mem_filter.2 ⟨Department.mem_of_mem_sessionIds horigin hid, by simpa using hself⟩
    · cases hstep
  | list k ok =>
    obtain ⟨walk, hwalk, hstep⟩ := bind_eq_some_iff.1 hstep
    obtain rfl : ok = true := hok
    split at hstep <;> cases hstep
    rename_i hnone
    refine ⟨?_, ?_⟩
    · intro walk' hwalk'
      obtain ⟨w, hw, hmode⟩ := mode_of_mem_proceed hwalk hwalk'
      exact hmode ▸ h.mode w hw
    · intro m hm id hid
      rcases h.covered m hm id hid with hhas | htodo
      · exact .inl hhas
      · refine .inr (exists_todo_proceed hwalk (fun hmem => ?_) htodo)
        rwa [todo, hnone] at hmem
  | visit k ok =>
    obtain ⟨walk, hwalk, hstep⟩ := bind_eq_some_iff.1 hstep
    obtain rfl : ok = true := hok
    split at hstep <;> cases hstep
    rename_i id rest hpending
    refine ⟨?_, ?_⟩
    · intro walk' hwalk'
      obtain ⟨w, hw, hmode⟩ := mode_of_mem_proceed (s := s.set id walk.mode) hwalk hwalk'
      exact hmode ▸ h.mode w hw
    · intro m hm other hother
      have hmode : m = walk.mode :=
        some.inj (hm.symm.trans (h.mode walk (mem_of_getElem? hwalk)))
      subst hmode
      by_cases hself : other = id
      · subst hself
        refine .inl ?_
        simpa [set, proceed] using has_apply (s.modes other) walk.mode
      · rcases h.covered walk.mode hm other hother with hhas | htodo
        · exact .inl (has_set hhas)
        · refine .inr (exists_todo_proceed (s := s.set id walk.mode) hwalk ?_ htodo)
          intro hmem
          rw [todo, hpending] at hmem
          exact (mem_cons.1 hmem).resolve_left hself

/-! ### Runs -/

/-- **In the end all sessions have the mode of the last change.** In every run in which no other
mode is under way when one is chosen, when no walk is left every session of the department has taken
the mode of the last change, and the main agent of every session that is not locked is in it. -/
theorem run_converges (d : Department) (modes : String → SessionModes) (l : List PermissionEvent)
    (s : Permissions) (h : LibRun.Run (step d) Undisturbed { modes := modes } l s)
    (hsettled : s.walks = []) (m : PermissionMode) (hlast : s.last = some m) :
    ∀ id ∈ d.sessionIds, (s.modes id).sessionPermissionMode = some m ∧
      ((s.modes id).teamWriteLocked = false → (s.modes id).mode = m) := by
  have hs : Covered d s :=
    h.invariant (covered_start d modes) fun _ _ _ ht hok hstep => ht.step hok hstep
  intro id hid
  rcases hs.covered m hlast id hid with hhas | ⟨walk, hwalk, -⟩
  · exact hhas
  · rw [hsettled] at hwalk
    cases hwalk

/-- A root and a member. -/
def pair : Department where
  parentById := [("root", none), ("a", some "root")]
  member := "root"
  nodup := by decide
  parents := by decide
  forest := by
    have hnone : IsForest fun _ : String => (none : Option String) := fun _ => ⟨[], Line.root rfl⟩
    refine hnone.link (Line.root rfl) (by decide : "a" ∉ ["root"]) (by decide) fun b hb => ?_
    rw [parentOf]
    by_cases hroot : b = "root"
    · rw [hroot]
      rfl
    · rw [lookup_cons_of_ne hroot, lookup_cons_of_ne hb]
      rfl

theorem run_converges_example : ∃ s, LibRun.Run (step pair) Undisturbed { modes := fun _ => {} }
      [.change "root" .auto, .list 0 true, .visit 0 true, .change "a" .yolo, .list 0 true,
        .visit 0 true] s ∧
    ∀ id ∈ pair.sessionIds, (s.modes id).sessionPermissionMode = some .yolo ∧
      ((s.modes id).teamWriteLocked = false → (s.modes id).mode = .yolo) := by
  have hrun : ∃ s, LibRun.Run (step pair) Undisturbed { modes := fun _ => {} }
      [.change "root" .auto, .list 0 true, .visit 0 true, .change "a" .yolo, .list 0 true,
        .visit 0 true] s ∧ s.walks = [] ∧ s.last = some .yolo :=
    LibRun.exists_run (by decide +kernel) (by decide +kernel)
  obtain ⟨s, hs, hwalks, hlast⟩ := hrun
  exact ⟨s, hs, run_converges pair _ _ s hs hwalks .yolo hlast⟩

/-- **Two changes on the root.** The second one comes while the walk of the first is under way, and
starts none: the root has the second mode in the end, and the member the first. -/
theorem two_modes : ∃ s, LibRun.Run (step pair) LibRun.always { modes := fun _ => {} }
      [.change "root" .auto, .change "root" .yolo, .list 0 true, .visit 0 true] s ∧
    s.walks = [] ∧ "root" ∈ pair.sessionIds ∧ "a" ∈ pair.sessionIds ∧
    (s.modes "root").teamWriteLocked = false ∧ (s.modes "a").teamWriteLocked = false ∧
    (s.modes "root").mode = .yolo ∧ (s.modes "a").mode = .auto :=
  LibRun.exists_run (by decide +kernel) (LibRun.legal_always _ _)

end Permissions

end NoriCode
