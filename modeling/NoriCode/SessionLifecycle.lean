/-
**The live sessions of the core.**

A session is an object with a writer of its own, and a map of the core says which object stands for
an id.  Operations on an id construct such an object and put it into the map when it is ready, or
take it out of the map and close it; between these they await many things.  Most of them run in a
queue of the id.  An operation that needs another session, and the creation of a session, do not.

The module embeds `withSessionLifecycle`, `createSession`, `resumeSessionWithOverridesUnlocked`,
`reloadSession`, `closeSession`, `archiveSession`, `deleteSession` and the frame of the mount and
identity operations of `rpc/core-impl.ts`.  An operation goes from one await to the next, and what
it awaits succeeds or fails at any time.  What a session is configured with, and what is written
into its metadata, is left out.

Main definitions:

* `TaskStage`, `SessionTask.advance` — an operation on an id, and its next part;
* `Core`, with `step` — all operations;
* `Core.Undisturbed` — an operation without the queue keeps out of the way of others.

Main results:

* `SessionTask.advance_part` — what the parts of an operation do to the sessions;
* `SessionTask.Part.consistent` — they keep the map and the objects in step;
* `Core.OneHolder.goes`, `Core.Ordered.step` — **one operation has an id, or none has**;
* `Core.run_one_live` — **at most one object of an id is live**.
-/

import NoriCode.LibKeyedLock
import NoriCode.LibRun

namespace NoriCode

open LibKeyedLock LibPlaces

/-! ### Sessions -/

/-- A `Session` object that was constructed. -/
structure SessionObject where
  id : String
  closed : Bool
  deriving DecidableEq

/-- The map of the core, all objects that were constructed, and the ids in the store. -/
structure CoreWorld where
  sessions : String → Option ℕ := fun _ => none
  objects : List SessionObject := []
  stored : String → Bool := fun _ => false

namespace CoreWorld

/-- An object of the id that is not closed. -/
def Live (w : CoreWorld) (id : String) (o : ℕ) : Prop := w.objects[o]? = some ⟨id, false⟩

instance (w : CoreWorld) (id : String) (o : ℕ) : Decidable (w.Live id o) :=
  inferInstanceAs (Decidable (_ = _))

def construct (w : CoreWorld) (id : String) : CoreWorld :=
  { w with objects := w.objects ++ [⟨id, false⟩] }

def close (w : CoreWorld) (o : ℕ) : CoreWorld :=
  { w with objects := w.objects.modify o fun object => { object with closed := true } }

def publish (w : CoreWorld) (id : String) (entry : Option ℕ) : CoreWorld :=
  { w with sessions := Function.update w.sessions id entry }

def setStored (w : CoreWorld) (id : String) (stored : Bool) : CoreWorld :=
  { w with stored := Function.update w.stored id stored }

end CoreWorld

/-! ### Operations -/

inductive TaskKind
  | create
  | resume
  | reload
  | close
  | archive
  | delete
  | mount
  deriving DecidableEq

/-- What an operation awaits. -/
inductive TaskStage
  /-- `createSession`, up to the look into the store, up to the entry there and up to the
  constructor. -/
  | creatingStore
  | creatingEntry
  | createPreparing
  | creating (o : ℕ)
  /-- The unlocked resume, up to the entry, up to the look into the map, up to the constructor. -/
  | resumeGetting
  | resumeReading
  | preparing
  | resuming (o : ℕ)
  | closingFailed (o : ℕ)
  | reloadReading
  | reloading (active : Option ℕ)
  | closingForReload (o : ℕ)
  | closeReading
  | closing (o : ℕ)
  /-- The store is changed behind a closed session. -/
  | storing
  /-- A mount or identity operation between two resumes. -/
  | idle
  | done
  deriving DecidableEq

structure SessionTask where
  id : String
  kind : TaskKind
  stage : TaskStage

def TaskKind.begin : TaskKind → TaskStage
  | create => .creatingStore
  | resume => .resumeGetting
  | reload => .reloadReading
  | close | archive | delete => .closeReading
  | mount => .idle

/-- A resume is over. -/
def TaskKind.resumed : TaskKind → TaskStage
  | mount => .idle
  | _ => .done

/-- The session is closed, or there was none. -/
def TaskKind.closed : TaskKind → TaskStage
  | archive | delete => .storing
  | _ => .done

/-- The next part of an operation, when what it awaits succeeded (`ok`) or failed. -/
def SessionTask.advance (task : SessionTask) (w : CoreWorld) (ok : Bool) :
    Option (TaskStage × CoreWorld) :=
  match task.stage, ok with
  | .creatingStore, true =>
    if w.stored task.id = true then none else some (.creatingEntry, w)
  | .creatingStore, false => some (.done, w)
  | .creatingEntry, true => some (.createPreparing, w.setStored task.id true)
  | .creatingEntry, false => some (.done, w)
  | .createPreparing, true => some (.creating w.objects.length, w.construct task.id)
  | .createPreparing, false => some (.done, w)
  | .creating o, true => some (.done, w.publish task.id (some o))
  | .creating o, false => some (.closingFailed o, w)
  | .resumeGetting, true => if w.stored task.id = true then some (.resumeReading, w) else none
  | .resumeGetting, false => some (task.kind.resumed, w)
  | .resumeReading, true =>
    match w.sessions task.id with
    | some _ => some (task.kind.resumed, w)
    | none => some (.preparing, w)
  | .resumeReading, false => some (task.kind.resumed, w)
  | .preparing, true => some (.resuming w.objects.length, w.construct task.id)
  | .preparing, false => some (task.kind.resumed, w)
  | .resuming o, true => some (task.kind.resumed, w.publish task.id (some o))
  | .resuming o, false => some (.closingFailed o, w)
  | .closingFailed o, _ => some (task.kind.resumed, w.close o)
  | .reloadReading, true =>
    if w.stored task.id = true then some (.reloading (w.sessions task.id), w) else none
  | .reloadReading, false => some (.done, w)
  | .reloading (some o), true => some (.closingForReload o, w.publish task.id none)
  | .reloading none, true => some (.resumeGetting, w)
  | .reloading _, false => some (.done, w)
  | .closingForReload o, true => some (.resumeGetting, w.close o)
  | .closingForReload o, false => some (.done, w.close o)
  | .closeReading, true =>
    match w.sessions task.id with
    | some o => some (.closing o, w.publish task.id none)
    | none => some (task.kind.closed, w)
  | .closeReading, false => some (.done, w)
  | .closing o, true => some (task.kind.closed, w.close o)
  | .closing o, false => some (.done, w.close o)
  | .storing, true =>
    some (.done, if task.kind = .delete then w.setStored task.id false else w)
  | .storing, false => some (.done, w)
  | .idle, true => some (.resumeGetting, w)
  | .idle, false => some (.done, w)
  | .done, _ => none

namespace TaskStage

/-- The operation constructs or closes a session, or is about to. -/
def busy : TaskStage → Bool
  | .createPreparing | .creating _ | .preparing | .resuming _ | .closingFailed _ | .reloading _
  | .closingForReload _ | .closing _ | .storing => true
  | _ => false

/-- The object that the operation has, and the map does not. -/
def owned : TaskStage → Option ℕ
  | .creating o | .resuming o | .closingFailed o | .closingForReload o | .closing o => some o
  | _ => none

/-- The stage of an operation that holds the id. -/
def holds (stage : TaskStage) : Option TaskStage := if stage.busy then some stage else none

end TaskStage

open TaskStage

/-! ### All operations -/

/-- The operations in the queues of the ids, and those without a queue. -/
structure Core where
  queue : Locks String SessionTask := {}
  free : List SessionTask := []
  world : CoreWorld := {}

/-- What happens: an operation is queued, begins, goes on, ends; one without a queue starts, goes
on; a session is forked into a new id. -/
inductive CoreEvent
  | enqueue (id : String) (kind : TaskKind)
  | resume (i : ℕ)
  | queuedStep (i : ℕ) (ok : Bool)
  | release (i : ℕ)
  | start (id : String) (kind : TaskKind)
  | freeStep (i : ℕ) (ok : Bool)
  | fork (id : String)

/-- Creations, and the resumes for other sessions and of identity operations, are not queued. -/
def TaskKind.unqueued : TaskKind → Bool
  | create | resume => true
  | _ => false

namespace Core

def queuedStep (s : Core) (i : ℕ) (ok : Bool) : Option Core :=
  (s.queue.ops[i]?).bind fun op =>
    if op.phase = .running then
      (op.body.advance s.world ok).map fun next =>
        { s with
          queue := s.queue.work i fun task => { task with stage := next.1 }
          world := next.2 }
    else none

def freeStep (s : Core) (i : ℕ) (ok : Bool) : Option Core :=
  (s.free[i]?).bind fun task =>
    (task.advance s.world ok).map fun next =>
      { s with
        free := s.free.modify i fun task => { task with stage := next.1 }
        world := next.2 }

def step (s : Core) : CoreEvent → Option Core
  | .enqueue id kind =>
    if kind = .create then none
    else some { s with queue := s.queue.enter id ⟨id, kind, kind.begin⟩ }
  | .resume i => (s.queue.resume i).map fun queue => { s with queue := queue }
  | .queuedStep i ok => s.queuedStep i ok
  | .release i =>
    if (s.queue.ops[i]?).any (·.body.stage = .done) then
      (s.queue.release i).map fun queue => { s with queue := queue }
    else none
  | .start id kind =>
    if kind.unqueued then some { s with free := s.free ++ [⟨id, kind, kind.begin⟩] } else none
  | .freeStep i ok => s.freeStep i ok
  | .fork id =>
    if s.world.stored id = true then none else some { s with world := s.world.setStored id true }

/-- The operation begins to construct or to close with this part. -/
def Begins (s : Core) (task : SessionTask) (ok : Bool) : Prop :=
  task.stage.busy = false ∧ ((task.advance s.world ok).any fun next => next.1.busy) = true

instance (s : Core) (task : SessionTask) (ok : Bool) : Decidable (s.Begins task ok) :=
  inferInstanceAs (Decidable (_ ∧ _))

/-- **Nothing without the queue comes in between.** A queued operation begins when no unqueued one
of its id is constructing; an unqueued one begins when no operation of its id is constructing or
closing at all, and nothing is created under the id of an open session. -/
def Undisturbed (s : Core) : CoreEvent → Prop
  | .queuedStep i ok =>
    ∀ op ∈ s.queue.ops[i]?, s.Begins op.body ok →
      ∀ task ∈ s.free, task.id = op.body.id → task.stage.busy = false
  | .freeStep i ok =>
    ∀ task ∈ s.free[i]?, s.Begins task ok →
      (∀ task' ∈ s.free, task'.id = task.id → task'.stage.busy = false) ∧
      (∀ op ∈ s.queue.ops, op.body.id = task.id → op.body.stage.busy = false) ∧
      (task.stage = .creatingEntry → s.world.sessions task.id = none)
  | _ => True

instance (s : Core) (e : CoreEvent) : Decidable (s.Undisturbed e) := by
  cases e <;> unfold Undisturbed <;> infer_instance

end Core

/-! ### One part of an operation -/

namespace CoreWorld

variable {w : CoreWorld} {id : String} {o : ℕ}

variable {id' : String}

@[simp] theorem live_publish (entry : Option ℕ) :
    (w.publish id entry).Live id' o ↔ w.Live id' o := Iff.rfl

theorem live_construct :
    (w.construct id).Live id' o ↔ w.Live id' o ∨ id' = id ∧ o = w.objects.length := by
  constructor
  · intro h
    rcases getElem?_append_singleton h with h | ⟨ho, hid⟩
    · exact Or.inl h
    · exact Or.inr ⟨(congrArg SessionObject.id hid).symm, ho⟩
  · rintro (h | ⟨rfl, rfl⟩)
    · exact (List.getElem?_append_left (List.getElem?_eq_some_iff.1 h).1).trans h
    · exact List.getElem?_concat_length

theorem live_close {o' : ℕ} : (w.close o').Live id o ↔ w.Live id o ∧ o ≠ o' := by
  unfold Live close
  constructor
  · intro h
    obtain ⟨object, hobject, heq⟩ := getElem?_modify_some h
    split at heq
    case isTrue => cases heq
    case isFalse hne => exact ⟨heq ▸ hobject, fun heq' => hne heq'.symm⟩
  · rintro ⟨h, hne⟩
    exact (getElem?_modify_of_some _ o' h).trans (by rw [if_neg (Ne.symm hne)])

end CoreWorld

/-- What the map says while an operation is at a stage. -/
def TaskStage.entry : TaskStage → Option ℕ
  | .reloading active => active
  | _ => none

/-- **The map, the objects and the operation that has the id.** What is live is in the map or in the
hands of that operation, and what is in the map is live. -/
structure Consistent (w : CoreWorld) (id : String) (holder : Option TaskStage) : Prop where
  live : ∀ o, w.Live id o ↔ w.sessions id = some o ∨ holder.bind TaskStage.owned = some o
  aside : ∀ stage ∈ holder, w.sessions id = stage.entry

namespace Consistent

variable {w w' : CoreWorld} {id : String} {holder : Option TaskStage}

theorem congr (h : Consistent w id holder) (hsessions : w'.sessions id = w.sessions id)
    (hlive : ∀ o, w'.Live id o ↔ w.Live id o) : Consistent w' id holder where
  live := fun o => by rw [hlive, hsessions, h.live]
  aside := fun stage hstage => by rw [hsessions, h.aside stage hstage]

/-- **At most one is live.** -/
theorem live_unique (h : Consistent w id holder) {o o' : ℕ} (ho : w.Live id o)
    (ho' : w.Live id o') : o = o' := by
  cases holder with
  | none =>
    have hin := (h.live o).1 ho
    have hin' := (h.live o').1 ho'
    simp only [Option.bind_none, reduceCtorEq, or_false] at hin hin'
    exact Option.some.inj (hin.symm.trans hin')
  | some stage =>
    have hentry := h.aside stage rfl
    have hin := (h.live o).1 ho
    have hin' := (h.live o').1 ho'
    cases stage <;> simp_all [owned, TaskStage.entry]

end Consistent

section

variable (kind : TaskKind)

@[simp] theorem TaskKind.busy_resumed : kind.resumed.busy = false := by
  cases kind <;> rfl

@[simp] theorem TaskKind.owned_resumed : kind.resumed.owned = none := by
  cases kind <;> rfl

@[simp] theorem TaskKind.entry_resumed : kind.resumed.entry = none := by
  cases kind <;> rfl

@[simp] theorem TaskKind.owned_closed : kind.closed.owned = none := by
  cases kind <;> rfl

@[simp] theorem TaskKind.entry_closed : kind.closed.entry = none := by
  cases kind <;> rfl

@[simp] theorem TaskKind.busy_begin : kind.begin.busy = false := by
  cases kind <;> rfl

end

theorem TaskKind.begin_creates {kind : TaskKind} (h : kind ≠ .create) :
    kind.begin ≠ .creatingStore ∧ kind.begin ≠ .creatingEntry := by
  cases kind <;> first | exact absurd rfl h | decide

variable {stage : TaskStage}

theorem TaskStage.busy_of_owned {o : ℕ} (h : stage.owned = some o) :
    stage.busy = true ∧ stage.entry = none := by
  cases stage <;> first | exact ⟨rfl, rfl⟩ | cases h

theorem TaskStage.holds_of_not_busy (h : stage.busy = false) : stage.holds = none := by
  simp [TaskStage.holds, h]

theorem TaskStage.holds_of_busy (h : stage.busy = true) : stage.holds = some stage := by
  simp [TaskStage.holds, h]

theorem TaskStage.mem_holds {stage' : TaskStage} :
    stage' ∈ stage.holds ↔ stage' = stage ∧ stage.busy = true := by
  cases h : stage.busy <;> simp [TaskStage.holds, h, eq_comm]

@[simp] theorem TaskStage.owned_holds (stage : TaskStage) :
    stage.holds.bind owned = stage.owned := by
  cases stage <;> rfl

namespace SessionTask

/-- What a part of an operation does to the sessions of its id. -/
inductive Part (task : SessionTask) (w : CoreWorld) (stage : TaskStage) : CoreWorld → Prop
  | keep {w' : CoreWorld} (hsessions : w'.sessions = w.sessions) (hobjects : w'.objects = w.objects)
      (howned : stage.owned = task.stage.owned)
      (hentry : stage.busy = true → w.sessions task.id = stage.entry ∨ stage.entry = none ∧
        (task.stage = .creatingEntry ∨ task.stage.busy = true ∧ task.stage.entry = none)) :
      Part task w stage w'
  | construct (hbusy : task.stage.busy = true) (hentry : task.stage.entry = none)
      (howned : task.stage.owned = none) (howned' : stage.owned = some w.objects.length) :
      Part task w stage (w.construct task.id)
  | publish {o : ℕ} (howned : task.stage.owned = some o) (hbusy : stage.busy = false) :
      Part task w stage (w.publish task.id (some o))
  | take {o : ℕ} (hsession : w.sessions task.id = some o ∨ task.stage = .reloading (some o))
      (howned : task.stage.owned = none) (howned' : stage.owned = some o) :
      Part task w stage (w.publish task.id none)
  | close {o : ℕ} (howned : task.stage.owned = some o) (howned' : stage.owned = none)
      (hentry : stage.entry = none) : Part task w stage (w.close o)

variable {task : SessionTask} {w w' : CoreWorld} {ok : Bool} {stage : TaskStage}

theorem Part.rest (howned : stage.owned = task.stage.owned) (hbusy : stage.busy = false) :
    Part task w stage w :=
  .keep rfl rfl howned fun h => Bool.noConfusion (hbusy.symm.trans h)

/-- **What every part does.** -/
theorem advance_part (h : task.advance w ok = some (stage, w')) : Part task w stage w' := by
  obtain ⟨id, kind, stage₀⟩ := task
  cases stage₀ <;> cases ok <;> dsimp only [advance] at h
  case creatingStore.false | creatingEntry.false | createPreparing.false | reloadReading.false |
      closeReading.false | storing.false | idle.false | idle.true =>
    cases h
    exact Part.rest rfl rfl
  case resumeGetting.false | resumeReading.false | preparing.false =>
    cases h
    exact Part.rest kind.owned_resumed kind.busy_resumed
  case creatingStore.true =>
    split at h
    · cases h
    · cases h
      exact Part.rest rfl rfl
  case creatingEntry.true =>
    cases h
    exact .keep rfl rfl rfl fun _ => Or.inr ⟨rfl, Or.inl rfl⟩
  case createPreparing.true | preparing.true =>
    cases h
    exact .construct rfl rfl rfl rfl
  case creating.true o =>
    cases h
    exact .publish rfl rfl
  case resuming.true o =>
    cases h
    exact .publish rfl kind.busy_resumed
  case creating.false o | resuming.false o =>
    cases h
    exact .keep rfl rfl rfl fun _ => Or.inr ⟨rfl, Or.inr ⟨rfl, rfl⟩⟩
  case closingFailed.false o | closingFailed.true o =>
    cases h
    exact .close rfl kind.owned_resumed kind.entry_resumed
  case closing.true o =>
    cases h
    exact .close rfl kind.owned_closed kind.entry_closed
  case closing.false o | closingForReload.false o | closingForReload.true o =>
    cases h
    exact .close rfl rfl rfl
  case resumeGetting.true =>
    split at h
    · cases h
      exact Part.rest rfl rfl
    · cases h
  case resumeReading.true =>
    split at h
    · cases h
      exact Part.rest kind.owned_resumed kind.busy_resumed
    · rename_i hnone
      cases h
      exact .keep rfl rfl rfl fun _ => Or.inl hnone
  case reloadReading.true =>
    split at h
    · cases h
      exact .keep rfl rfl rfl fun _ => Or.inl rfl
    · cases h
  case reloading.false active =>
    obtain ⟨rfl, rfl⟩ : stage = .done ∧ w' = w := by cases active <;> simp_all
    exact Part.rest rfl rfl
  case reloading.true active =>
    cases active with
    | none =>
      cases h
      exact Part.rest rfl rfl
    | some o =>
      cases h
      exact .take (Or.inr rfl) rfl rfl
  case closeReading.true =>
    split at h
    · rename_i o ho
      cases h
      exact .take (Or.inl ho) rfl rfl
    · rename_i hnone
      cases h
      exact .keep rfl rfl kind.owned_closed fun _ => Or.inl (hnone.trans kind.entry_closed.symm)
  case storing.true =>
    cases h
    refine .keep ?_ ?_ rfl fun hbusy => by cases hbusy
    · split <;> rfl
    · split <;> rfl
  case done.false | done.true => cases h

theorem advance_creates (h : task.advance w ok = some (stage, w'))
    (htask : task.stage ≠ .creatingStore) : stage ≠ .creatingStore ∧ stage ≠ .creatingEntry := by
  obtain ⟨id, kind, stage₀⟩ := task
  have hresumed : kind.resumed ≠ .creatingStore ∧ kind.resumed ≠ .creatingEntry := by
    cases kind <;> decide
  have hclosed : kind.closed ≠ .creatingStore ∧ kind.closed ≠ .creatingEntry := by
    cases kind <;> decide
  cases stage₀ <;> cases ok <;> dsimp only [advance] at h <;> grind

/-- An operation that neither was constructing or closing nor is does nothing to sessions. -/
theorem Part.quiet (h : Part task w stage w') (hbefore : task.stage.busy = false)
    (hafter : stage.busy = false) : w'.sessions = w.sessions ∧ w'.objects = w.objects := by
  cases h with
  | keep hsessions hobjects _ _ => exact ⟨hsessions, hobjects⟩
  | construct hbusy _ _ _ => simp [hbusy] at hbefore
  | publish howned _ | close howned _ _ => simp [(busy_of_owned howned).1] at hbefore
  | take _ _ howned' => simp [(busy_of_owned howned').1] at hafter

theorem Part.frame (h : Part task w stage w') (hw : Consistent w task.id task.stage.holds)
    {id : String} (hid : id ≠ task.id) :
    w'.sessions id = w.sessions id ∧ ∀ o, w'.Live id o ↔ w.Live id o := by
  cases h with
  | keep hsessions hobjects _ _ =>
    refine ⟨congrFun hsessions id, fun o => ?_⟩
    unfold CoreWorld.Live
    rw [hobjects]
  | construct _ _ _ _ =>
    refine ⟨rfl, fun o => CoreWorld.live_construct.trans (or_iff_left fun h => hid h.1)⟩
  | publish _ _ | take _ _ _ => exact ⟨Function.update_of_ne hid _ _, fun o => Iff.rfl⟩
  | @close o howned _ _ =>
    -- the closed object is one of `task.id`
    have hlive : w.Live task.id o := (hw.live o).2 (Or.inr ((task.stage.owned_holds).trans howned))
    refine ⟨rfl, fun o' => CoreWorld.live_close.trans (and_iff_left_of_imp fun hlive' => ?_)⟩
    rintro rfl
    exact hid (congrArg SessionObject.id (Option.some.inj (hlive'.symm.trans hlive)))

/-- **A part of the operation that has the id keeps the map and the objects in step.** -/
theorem Part.consistent (h : Part task w stage w')
    (hcreate : task.stage = .creatingEntry → w.sessions task.id = none)
    (hw : Consistent w task.id task.stage.holds) : Consistent w' task.id stage.holds := by
  have hentry₀ : task.stage.busy = true → w.sessions task.id = task.stage.entry :=
    fun hbusy => hw.aside _ (mem_holds.2 ⟨rfl, hbusy⟩)
  have hlive₀ : ∀ o, w.Live task.id o ↔ w.sessions task.id = some o ∨ task.stage.owned = some o :=
    fun o => by rw [hw.live, owned_holds]
  -- at a stage that owns an object the map has none
  have hnone : ∀ o, task.stage.owned = some o → w.sessions task.id = none := fun o howned =>
    (hentry₀ (busy_of_owned howned).1).trans (busy_of_owned howned).2
  cases h with
  | keep hsessions hobjects howned hentry =>
    refine ⟨fun o => ?_, fun stage' hstage' => ?_⟩
    · rw [owned_holds, howned, hsessions, ← hlive₀, CoreWorld.Live, CoreWorld.Live, hobjects]
    · obtain ⟨rfl, hbusy⟩ := mem_holds.1 hstage'
      rw [hsessions]
      rcases hentry hbusy with hsame | ⟨hnone', hfrom | ⟨hbusy', hentry'⟩⟩
      · exact hsame
      · rw [hnone', hcreate hfrom]
      · rw [hnone', hentry₀ hbusy', hentry']
  | construct hbusy hentry howned howned' =>
    have hempty : w.sessions task.id = none := (hentry₀ hbusy).trans hentry
    refine ⟨fun o => ?_, fun stage' hstage' => ?_⟩
    · rw [owned_holds, howned', CoreWorld.live_construct, hlive₀, howned]
      simp only [CoreWorld.construct, hempty, reduceCtorEq, or_self, true_and, false_or,
        Option.some.injEq, eq_comm]
    · obtain ⟨rfl, -⟩ := mem_holds.1 hstage'
      exact hempty.trans (busy_of_owned howned').2.symm
  | @publish o howned hbusy =>
    refine ⟨fun o' => ?_, fun stage' hstage' => ?_⟩
    · rw [holds_of_not_busy hbusy, CoreWorld.live_publish, hlive₀, howned, hnone o howned]
      simp [CoreWorld.publish]
    · rw [holds_of_not_busy hbusy] at hstage'
      cases hstage'
  | @take o hsession howned howned' =>
    have hopen : w.sessions task.id = some o := by
      rcases hsession with hsession | hstage
      · exact hsession
      · rw [hentry₀ (by rw [hstage]; rfl), hstage]
        rfl
    refine ⟨fun o' => ?_, fun stage' hstage' => ?_⟩
    · rw [owned_holds, howned', CoreWorld.live_publish, hlive₀, howned, hopen]
      simp [CoreWorld.publish]
    · obtain ⟨rfl, -⟩ := mem_holds.1 hstage'
      rw [(busy_of_owned howned').2]
      exact Function.update_self _ _ _
  | @close o howned howned' hentry =>
    have hempty : w.sessions task.id = none := hnone o howned
    refine ⟨fun o' => ?_, fun stage' hstage' => ?_⟩
    · rw [owned_holds, howned', CoreWorld.live_close, hlive₀, howned]
      refine iff_of_false ?_ (by simp [CoreWorld.close, hempty])
      rintro ⟨hin | hin, hne⟩
      · exact Option.some_ne_none o' (hin.symm.trans hempty)
      · exact hne (Option.some.inj hin).symm
    · obtain ⟨rfl, -⟩ := mem_holds.1 hstage'
      exact hempty.trans hentry.symm

end SessionTask

/-! ### All operations of an id -/

/-- Where an operation stands. -/
inductive TaskRef
  | queued (i : ℕ)
  | free (i : ℕ)
  deriving DecidableEq

namespace Core

def taskAt (s : Core) : TaskRef → Option SessionTask
  | .queued i => (s.queue.ops[i]?).map fun op => op.body
  | .free i => s.free[i]?

/-- The operation constructs or closes a session of the id. -/
def Holder (s : Core) (id : String) (r : TaskRef) (stage : TaskStage) : Prop :=
  ∃ task, s.taskAt r = some task ∧ task.id = id ∧ task.stage = stage ∧ stage.busy = true

/-- **One operation has an id, or none has.** -/
structure OneHolder (s : Core) : Prop where
  one : ∀ id r r' stage stage', s.Holder id r stage → s.Holder id r' stage' → r = r'
  held : ∀ id r stage, s.Holder id r stage → Consistent s.world id (some stage)
  free : ∀ id, (∀ r stage, ¬ s.Holder id r stage) → Consistent s.world id none

variable {s t : Core}

theorem OneHolder.congr (h : s.OneHolder)
    (hholder : ∀ id r stage, t.Holder id r stage ↔ s.Holder id r stage)
    (hsessions : t.world.sessions = s.world.sessions)
    (hobjects : t.world.objects = s.world.objects) : t.OneHolder := by
  have hcongr : ∀ {id holder}, Consistent s.world id holder → Consistent t.world id holder := by
    intro id holder hw
    refine hw.congr (congrFun hsessions id) fun o => ?_
    unfold CoreWorld.Live
    rw [hobjects]
  refine ⟨fun id r r' stage stage' hr hr' => ?_, fun id r stage hr => ?_, fun id hnone => ?_⟩
  · exact h.one id r r' stage stage' ((hholder _ _ _).1 hr) ((hholder _ _ _).1 hr')
  · exact hcongr (h.held id r stage ((hholder _ _ _).1 hr))
  · exact hcongr (h.free id fun r stage hr => hnone r stage ((hholder _ _ _).2 hr))

/-- An operation goes on while the others stay. -/
structure Goes (s t : Core) (r : TaskRef) (task : SessionTask) (stage : TaskStage) : Prop where
  before : s.taskAt r = some task
  after : t.taskAt r = some { task with stage := stage }
  others : ∀ r', r' ≠ r → t.taskAt r' = s.taskAt r'
  part : task.Part s.world stage t.world

theorem Goes.holder {r : TaskRef} {task : SessionTask} {stage : TaskStage}
    (h : s.Goes t r task stage) (id : String) (r' : TaskRef) (stage' : TaskStage) :
    t.Holder id r' stage' ↔
      if r' = r then id = task.id ∧ stage' = stage ∧ stage.busy = true
      else s.Holder id r' stage' := by
  by_cases hr : r' = r
  · subst hr
    rw [if_pos rfl]
    constructor
    · rintro ⟨task', htask', rfl, rfl, hbusy⟩
      obtain rfl := Option.some.inj (h.after.symm.trans htask')
      exact ⟨rfl, rfl, hbusy⟩
    · rintro ⟨rfl, rfl, hbusy⟩
      exact ⟨_, h.after, rfl, rfl, hbusy⟩
  · rw [if_neg hr]
    unfold Holder
    rw [h.others r' hr]

/-- **One holder stays one.** What begins, begins when nobody has the id. -/
theorem OneHolder.goes {r : TaskRef} {task : SessionTask} {stage : TaskStage} (h : s.OneHolder)
    (hgoes : s.Goes t r task stage)
    (hbegins : task.stage.busy = false → stage.busy = true →
      (∀ r' stage', ¬ s.Holder task.id r' stage') ∧
        (task.stage = .creatingEntry → s.world.sessions task.id = none)) : t.OneHolder := by
  by_cases hquiet : task.stage.busy = false ∧ stage.busy = false
  · obtain ⟨hsessions, hobjects⟩ := hgoes.part.quiet hquiet.1 hquiet.2
    refine h.congr (fun id r' stage' => ?_) hsessions hobjects
    rw [hgoes.holder]
    split
    case isTrue hr =>
      subst hr
      refine iff_of_false (fun hand => ?_) ?_
      · exact Bool.noConfusion (hquiet.2.symm.trans hand.2.2)
      · rintro ⟨task', htask', -, rfl, hbusy⟩
        obtain rfl := Option.some.inj (hgoes.before.symm.trans htask')
        exact Bool.noConfusion (hquiet.1.symm.trans hbusy)
    case isFalse => exact Iff.rfl
  · -- the operation has the id, before or after, and nobody else does
    have hothers : ∀ r' stage', r' ≠ r → ¬ s.Holder task.id r' stage' := by
      intro r' stage' hr hholder
      cases hbusy : task.stage.busy with
      | false =>
        have hafter : stage.busy = true := by simpa [hbusy] using hquiet
        exact (hbegins hbusy hafter).1 r' stage' hholder
      | true => exact hr (h.one _ _ _ _ _ hholder ⟨task, hgoes.before, rfl, rfl, hbusy⟩)
    have hcreate : task.stage = .creatingEntry → s.world.sessions task.id = none := by
      intro hstage
      have hbefore : task.stage.busy = false := by rw [hstage]; rfl
      exact (hbegins hbefore (by simpa [hbefore] using hquiet)).2 hstage
    have hw : Consistent s.world task.id task.stage.holds := by
      cases hbusy : task.stage.busy with
      | false =>
        rw [holds_of_not_busy hbusy]
        refine h.free task.id fun r' stage' hholder => ?_
        by_cases hr : r' = r
        · subst hr
          obtain ⟨task', htask', -, rfl, hbusy'⟩ := hholder
          obtain rfl := Option.some.inj (hgoes.before.symm.trans htask')
          exact Bool.noConfusion (hbusy.symm.trans hbusy')
        · exact hothers r' stage' hr hholder
      | true =>
        rw [holds_of_busy hbusy]
        exact h.held _ r _ ⟨task, hgoes.before, rfl, rfl, hbusy⟩
    have hw' := hgoes.part.consistent hcreate hw
    have hframe : ∀ {id holder}, id ≠ task.id → Consistent s.world id holder →
        Consistent t.world id holder := fun hid hold =>
      hold.congr (hgoes.part.frame hw hid).1 (hgoes.part.frame hw hid).2
    have hafter : ∀ {id r' stage'}, t.Holder id r' stage' →
        r' = r ∧ id = task.id ∧ stage' = stage ∧ stage.busy = true ∨
          id ≠ task.id ∧ s.Holder id r' stage' := by
      intro id r' stage' hholder
      rw [hgoes.holder] at hholder
      split at hholder
      case isTrue hr => exact Or.inl ⟨hr, hholder⟩
      case isFalse hr =>
        refine Or.inr ⟨?_, hholder⟩
        rintro rfl
        exact hothers r' stage' hr hholder
    refine ⟨fun id r₁ r₂ stage₁ stage₂ h₁ h₂ => ?_, fun id r' stage' hholder => ?_,
      fun id hnone => ?_⟩
    · rcases hafter h₁ with ⟨hr₁, hid₁, -⟩ | ⟨hid₁, hold₁⟩
      · rcases hafter h₂ with ⟨hr₂, -⟩ | ⟨hid₂, -⟩
        · exact hr₁.trans hr₂.symm
        · exact absurd hid₁ hid₂
      · rcases hafter h₂ with ⟨-, hid₂, -⟩ | ⟨-, hold₂⟩
        · exact absurd hid₂ hid₁
        · exact h.one _ _ _ _ _ hold₁ hold₂
    · rcases hafter hholder with ⟨-, rfl, rfl, hbusy⟩ | ⟨hid, hold⟩
      · exact holds_of_busy hbusy ▸ hw'
      · exact hframe hid (h.held id r' stage' hold)
    · by_cases hid : id = task.id
      · subst hid
        have hrests : stage.busy = false := by
          by_contra hbusy
          refine hnone r stage ((hgoes.holder _ _ _).2 ?_)
          rw [if_pos rfl]
          exact ⟨rfl, rfl, Bool.not_eq_false _ ▸ hbusy⟩
        exact holds_of_not_busy hrests ▸ hw'
      · refine hframe hid (h.free id fun r' stage' hold => ?_)
        by_cases hr : r' = r
        · subst hr
          obtain ⟨task', htask', hid', -⟩ := hold
          obtain rfl := Option.some.inj (hgoes.before.symm.trans htask')
          exact hid hid'.symm
        · refine hnone r' stage' ((hgoes.holder _ _ _).2 ?_)
          rwa [if_neg hr]

theorem OneHolder.added (h : s.OneHolder)
    (hold : ∀ r task, s.taskAt r = some task → t.taskAt r = some task)
    (hnew : ∀ r task, t.taskAt r = some task → s.taskAt r = some task ∨ task.stage.busy = false)
    (hsessions : t.world.sessions = s.world.sessions)
    (hobjects : t.world.objects = s.world.objects) : t.OneHolder := by
  refine h.congr (fun id r stage => ?_) hsessions hobjects
  constructor
  · rintro ⟨task, htask, hid, rfl, hbusy⟩
    rcases hnew r task htask with hbefore | hrests
    · exact ⟨task, hbefore, hid, rfl, hbusy⟩
    · exact Bool.noConfusion (hrests.symm.trans hbusy)
  · rintro ⟨task, htask, hid, hstage, hbusy⟩
    exact ⟨task, hold r task htask, hid, hstage, hbusy⟩

/-! ### Runs -/

/-- An operation in a queue: it has the key of its id, is at rest unless it runs, and does not
create. -/
structure Placed (op : Op String SessionTask) : Prop where
  key : op.key = op.body.id
  rests : op.phase ≠ .running → op.body.stage.busy = false
  creates : op.body.stage ≠ .creatingStore ∧ op.body.stage ≠ .creatingEntry

/-- **The queues, and one holder of each id.** -/
structure Ordered (s : Core) : Prop where
  chained : Chained s.queue
  placed : ∀ (i : ℕ) (op : Op String SessionTask), s.queue.ops[i]? = some op → Placed op
  holder : s.OneHolder

theorem ordered_start (stored : String → Bool) : Ordered { world := { stored := stored } } where
  chained := Chained.empty
  placed := by simp
  holder := by
    have hnone : ∀ {id r stage}, ¬ Holder { world := { stored := stored } } id r stage := by
      rintro id (i | i) stage ⟨task, htask, -⟩ <;> simp [taskAt] at htask
    refine ⟨fun id r r' stage stage' hr => absurd hr hnone, fun id r stage hr => absurd hr hnone,
      fun id _ => ⟨fun o => ?_, fun stage hstage => by cases hstage⟩⟩
    simp [CoreWorld.Live]

variable {i : ℕ} {ok : Bool}

theorem queuedStep_cases (h : s.queuedStep i ok = some t) :
    ∃ op stage, s.queue.ops[i]? = some op ∧ op.phase = .running ∧
      op.body.advance s.world ok = some (stage, t.world) ∧ t.free = s.free ∧
      t.queue = s.queue.work i fun task => { task with stage := stage } := by
  obtain ⟨op, hop, h⟩ := Option.bind_eq_some_iff.1 h
  obtain ⟨hrunning, h⟩ := Option.ite_none_right_eq_some.1 h
  obtain ⟨next, hadvance, rfl⟩ := Option.map_eq_some_iff.1 h
  exact ⟨op, next.1, hop, hrunning, hadvance, rfl, rfl⟩

theorem freeStep_cases (h : s.freeStep i ok = some t) :
    ∃ task stage, s.free[i]? = some task ∧ task.advance s.world ok = some (stage, t.world) ∧
      t.queue = s.queue ∧ t.free = s.free.modify i fun task => { task with stage := stage } := by
  obtain ⟨task, htask, h⟩ := Option.bind_eq_some_iff.1 h
  obtain ⟨next, hadvance, rfl⟩ := Option.map_eq_some_iff.1 h
  exact ⟨task, next.1, htask, hadvance, rfl, rfl⟩

theorem Ordered.queuedStep (h : s.Ordered)
    (hok : s.Undisturbed (.queuedStep i ok)) (ht : s.queuedStep i ok = some t) : t.Ordered := by
  obtain ⟨op, stage, hop, hrunning, hadvance, hfree, hqueue⟩ := queuedStep_cases ht
  have hplaced := h.placed i op hop
  have hgoes : s.Goes t (.queued i) op.body stage := {
    before := by simp [taskAt, hop]
    after := by simp [taskAt, hqueue, Locks.work, hop]
    others := by
      rintro (j | j) hj
      · have hij : i ≠ j := fun heq => hj (heq ▸ rfl)
        simp [taskAt, hqueue, Locks.work, hij]
      · simp [taskAt, hfree]
    part := SessionTask.advance_part hadvance }
  refine ⟨hqueue ▸ h.chained.work i _, fun j op' hop' => ?_, h.holder.goes hgoes ?_⟩
  · rw [hqueue] at hop'
    obtain ⟨op₀, hop₀, rfl⟩ := getElem?_modify_some hop'
    split
    case isTrue hij =>
      subst hij
      cases hop.symm.trans hop₀
      exact ⟨hplaced.key, fun hphase => absurd hrunning hphase,
        SessionTask.advance_creates hadvance hplaced.creates.1⟩
    case isFalse => exact h.placed j op₀ hop₀
  · intro hbefore hafter
    refine ⟨?_, fun hstage => absurd hstage hplaced.creates.2⟩
    rintro (j | j) stage' ⟨task, htask, hid, rfl, hbusy⟩
    · -- two operations of a queue do not run at once
      obtain ⟨op', hop', rfl⟩ := Option.map_eq_some_iff.1 htask
      have hplaced' := h.placed j op' hop'
      have hrunning' : op'.phase = .running := by
        by_contra hphase
        exact Bool.noConfusion ((hplaced'.rests hphase).symm.trans hbusy)
      have hkeys : op'.key = op.key := by rw [hplaced'.key, hplaced.key, hid]
      rcases Nat.lt_trichotomy i j with hij | rfl | hji
      · have hfinished := h.chained.earlier_finished hop' (by simp [hrunning']) hij hop hkeys.symm
        simp [hrunning] at hfinished
      · cases hop.symm.trans hop'
        exact Bool.noConfusion (hbefore.symm.trans hbusy)
      · have hfinished := h.chained.earlier_finished hop (by simp [hrunning]) hji hop' hkeys
        simp [hrunning'] at hfinished
    · have hbegins : s.Begins op.body ok := by
        refine ⟨hbefore, (Option.any_eq_true _ _).2 ⟨_, hadvance, hafter⟩⟩
      have hrests := hok op hop hbegins task (List.mem_of_getElem? htask) hid
      exact Bool.noConfusion (hrests.symm.trans hbusy)

theorem Ordered.freeStep (h : s.Ordered)
    (hok : s.Undisturbed (.freeStep i ok)) (ht : s.freeStep i ok = some t) : t.Ordered := by
  obtain ⟨task, stage, htask, hadvance, hqueue, hfree⟩ := freeStep_cases ht
  have hgoes : s.Goes t (.free i) task stage := {
    before := htask
    after := by simp [taskAt, hfree, htask]
    others := by
      rintro (j | j) hj
      · simp [taskAt, hqueue]
      · have hij : i ≠ j := fun heq => hj (heq ▸ rfl)
        simp [taskAt, hfree, hij]
    part := SessionTask.advance_part hadvance }
  refine ⟨hqueue ▸ h.chained, fun j op hop => h.placed j op (hqueue ▸ hop), h.holder.goes hgoes ?_⟩
  intro hbefore hafter
  obtain ⟨hothers, hqueued, hcreate⟩ :=
    hok task htask ⟨hbefore, (Option.any_eq_true _ _).2 ⟨_, hadvance, hafter⟩⟩
  refine ⟨?_, hcreate⟩
  rintro (j | j) stage' ⟨task', htask', hid, rfl, hbusy⟩
  · obtain ⟨op, hop, rfl⟩ := Option.map_eq_some_iff.1 htask'
    exact Bool.noConfusion ((hqueued op (List.mem_of_getElem? hop) hid).symm.trans hbusy)
  · exact Bool.noConfusion ((hothers task' (List.mem_of_getElem? htask') hid).symm.trans hbusy)

theorem OneHolder.phase (h : s.OneHolder) (hfree : t.free = s.free) (hworld : t.world = s.world)
    {phase : Phase}
    (hops : t.queue.ops = s.queue.ops.modify i fun op => { op with phase := phase }) :
    t.OneHolder := by
  have htasks : t.taskAt = s.taskAt := by
    funext r
    cases r with
    | queued j =>
      simp only [taskAt, hops, List.getElem?_modify]
      cases s.queue.ops[j]? with
      | none => rfl
      | some op => by_cases hij : i = j <;> simp [hij]
    | free j => simp only [taskAt, hfree]
  refine h.added (fun r task htask => htasks ▸ htask) (fun r task htask => Or.inl (htasks ▸ htask))
    ?_ ?_
  · rw [hworld]
  · rw [hworld]

/-- **Every step keeps the order.** -/
theorem Ordered.step {e : CoreEvent} (h : s.Ordered) (hok : s.Undisturbed e)
    (ht : s.step e = some t) : t.Ordered := by
  cases e with
  | enqueue id kind =>
    dsimp only [Core.step] at ht
    split at ht
    case isTrue => cases ht
    case isFalse hkind =>
      cases ht
      refine ⟨h.chained.enter id _, fun i op hop => ?_, h.holder.added ?_ ?_ rfl rfl⟩
      · rcases getElem?_append_singleton hop with hop | ⟨-, rfl⟩
        · exact h.placed i op hop
        · refine ⟨rfl, fun _ => kind.busy_begin, ?_⟩
          exact TaskKind.begin_creates hkind
      · rintro (i | i) task htask
        · obtain ⟨op, hop, rfl⟩ := Option.map_eq_some_iff.1 htask
          have hlt := (List.getElem?_eq_some_iff.1 hop).1
          exact Option.map_eq_some_iff.2 ⟨op, (List.getElem?_append_left hlt).trans hop, rfl⟩
        · exact htask
      · rintro (i | i) task htask
        · obtain ⟨op, hop, rfl⟩ := Option.map_eq_some_iff.1 htask
          rcases getElem?_append_singleton hop with hop | ⟨-, rfl⟩
          · exact Or.inl (Option.map_eq_some_iff.2 ⟨op, hop, rfl⟩)
          · exact Or.inr kind.busy_begin
        · exact Or.inl htask
  | resume i =>
    obtain ⟨queue, hqueue, rfl⟩ := Option.map_eq_some_iff.1 ht
    obtain ⟨op, hop, hwaiting, -, rfl⟩ := Chained.resume_cases hqueue
    refine ⟨h.chained.resume hqueue, fun j op' hop' => ?_, h.holder.phase rfl rfl rfl⟩
    obtain ⟨op₀, hop₀, rfl⟩ := getElem?_modify_some hop'
    have hplaced := h.placed j op₀ hop₀
    split
    · exact ⟨hplaced.key, fun hphase => absurd rfl hphase, hplaced.creates⟩
    · exact hplaced
  | queuedStep i ok => exact h.queuedStep hok ht
  | release i =>
    obtain ⟨hdone, ht⟩ := Option.ite_none_right_eq_some.1 ht
    obtain ⟨queue, hqueue, rfl⟩ := Option.map_eq_some_iff.1 ht
    obtain ⟨op, hop, -, hops, -⟩ := Chained.release_cases hqueue
    refine ⟨h.chained.release hqueue, fun j op' hop' => ?_, h.holder.phase rfl rfl hops⟩
    rw [hops] at hop'
    obtain ⟨op₀, hop₀, rfl⟩ := getElem?_modify_some hop'
    have hplaced := h.placed j op₀ hop₀
    split
    case isTrue hij =>
      subst hij
      have hstage : op₀.body.stage = .done := by simpa [hop₀] using hdone
      exact ⟨hplaced.key, fun _ => by simp [hstage, TaskStage.busy], hplaced.creates⟩
    case isFalse => exact hplaced
  | start id kind =>
    obtain ⟨-, ht⟩ := Option.ite_none_right_eq_some.1 ht
    cases ht
    refine ⟨h.chained, h.placed, h.holder.added ?_ ?_ rfl rfl⟩
    · rintro (i | i) task htask
      · exact htask
      · have hlt := (List.getElem?_eq_some_iff.1 htask).1
        exact (List.getElem?_append_left hlt).trans htask
    · rintro (i | i) task htask
      · exact Or.inl htask
      · rcases getElem?_append_singleton htask with htask | ⟨-, rfl⟩
        · exact Or.inl htask
        · exact Or.inr kind.busy_begin
  | freeStep i ok => exact h.freeStep hok ht
  | fork id =>
    dsimp only [Core.step] at ht
    split at ht
    case isTrue => cases ht
    case isFalse =>
      cases ht
      exact ⟨h.chained, h.placed, h.holder.congr (fun _ _ _ => Iff.rfl) rfl rfl⟩

/-- No operation is constructing or closing a session of the id. -/
def Quiet (s : Core) (id : String) : Prop := ∀ r stage, ¬ s.Holder id r stage

/-- **At most one object of an id is live** in a run whose unqueued operations come when no other
operation of their id is constructing or closing. The object in the map is live, and when nothing
is being constructed or closed the live one is in the map. -/
theorem run_one_live {stored : String → Bool} {l : List CoreEvent} {s : Core}
    (h : LibRun.Run step Undisturbed { world := { stored := stored } } l s) (id : String) :
    (∀ o o', s.world.Live id o → s.world.Live id o' → o = o') ∧
    (∀ o, s.world.sessions id = some o → s.world.Live id o) ∧
    (s.Quiet id → ∀ o, s.world.Live id o → s.world.sessions id = some o) := by
  have hordered : s.Ordered :=
    h.invariant (ordered_start stored) fun _ _ _ hs hok hstep => hs.step hok hstep
  have hw : ∃ holder, Consistent s.world id holder := by
    by_cases hquiet : s.Quiet id
    · exact ⟨none, hordered.holder.free id hquiet⟩
    · simp only [Quiet, not_forall, not_not] at hquiet
      obtain ⟨r, stage, hholder⟩ := hquiet
      exact ⟨some stage, hordered.holder.held id r stage hholder⟩
  obtain ⟨holder, hw⟩ := hw
  refine ⟨fun o o' => hw.live_unique, fun o ho => (hw.live o).2 (Or.inl ho), fun hquiet o ho => ?_⟩
  have hfree := ((hordered.holder.free id hquiet).live o).1 ho
  simpa using hfree

/-- A session is created, closed by a queued operation and resumed by the next one. -/
theorem run_one_live_example :
    ∃ s, LibRun.Run step Undisturbed { world := { stored := fun _ => false } }
      [.start "a" .create, .freeStep 0 true, .freeStep 0 true, .freeStep 0 true, .freeStep 0 true,
        .enqueue "a" .close, .enqueue "a" .resume, .queuedStep 0 true, .queuedStep 0 true,
        .release 0, .resume 1, .queuedStep 1 true, .queuedStep 1 true, .queuedStep 1 true,
        .queuedStep 1 true] s ∧
      s.world.sessions "a" = some 1 ∧
      (∀ o o', s.world.Live "a" o → s.world.Live "a" o' → o = o') ∧
      (∀ o, s.world.sessions "a" = some o → s.world.Live "a" o) ∧
      (s.Quiet "a" → ∀ o, s.world.Live "a" o → s.world.sessions "a" = some o) := by
  have hrun : ∃ s, LibRun.Run step Undisturbed { world := { stored := fun _ => false } }
      [.start "a" .create, .freeStep 0 true, .freeStep 0 true, .freeStep 0 true, .freeStep 0 true,
        .enqueue "a" .close, .enqueue "a" .resume, .queuedStep 0 true, .queuedStep 0 true,
        .release 0, .resume 1, .queuedStep 1 true, .queuedStep 1 true, .queuedStep 1 true,
        .queuedStep 1 true] s ∧ s.world.sessions "a" = some 1 :=
    LibRun.exists_run (by decide +kernel) (by decide +kernel)
  obtain ⟨s, hrun, hsession⟩ := hrun
  exact ⟨s, hrun, hsession, run_one_live hrun "a"⟩

/-- Two resumes without the queue each construct an object, and neither is in the map. One resume in
the queue is enough for a live object that is not in the map. -/
theorem two_live :
    (∃ s, LibRun.Run step LibRun.always { world := { stored := fun _ => true } }
      [.start "a" .resume, .start "a" .resume, .freeStep 0 true, .freeStep 0 true, .freeStep 1 true,
        .freeStep 1 true, .freeStep 0 true, .freeStep 1 true] s ∧
      s.world.Live "a" 0 ∧ s.world.Live "a" 1) ∧
    ∃ s, LibRun.Run step LibRun.always { world := { stored := fun _ => true } }
      [.enqueue "a" .resume, .queuedStep 0 true, .queuedStep 0 true, .queuedStep 0 true] s ∧
      s.world.Live "a" 0 ∧ s.world.sessions "a" = none := by
  refine ⟨?_, ?_⟩ <;> exact LibRun.exists_run (by decide +kernel) (LibRun.legal_always _ _)

end Core

end NoriCode
