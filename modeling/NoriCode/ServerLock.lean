/-
**The lock of the server.**

A server writes a lock file with its process id before it starts.  The file is created only where
none is; one that cannot be read, or whose process is gone, is deleted and created again.  The
handle of the lock rewrites the file by a rename and deletes it on release, both only while the file
is its own.  Creating, writing, reading, probing and deleting are steps of their own, and other
processes act in between.

The module embeds `lock.ts`.  Processes have distinct ids while they live, and an id may be used
again.  A file is a place in a list, so a process may write to a file that is no longer at the path.

Main definitions:

* `sameLockOwner` — whether two locks have one owner;
* `ServerLock`, with `step` — the files, the path, the processes, and what was lost;
* `ServerLock.Inspected` — what is deleted is what was read, and nobody writes it;
* `ServerLock.Exclusive` — one holder, and no lock of a live process was lost.

Main results:

* `ServerLock.run_single_holder` — **one holder**, however processes come, act and go.
-/

import Mathlib.Data.Int.Notation
import Mathlib.Data.Option.Basic
import NoriCode.LibPlaces
import NoriCode.LibRun

namespace NoriCode

open List Option LibPlaces LibRun

/-! ### Locks -/

inductive ServerLockState
  | starting
  | ready
  deriving DecidableEq

/-- What is read from a lock file. -/
structure LockContents where
  schemaVersion : Option ℕ := none
  launchId : Option String := none
  state : Option ServerLockState := none
  pid : ℤ
  startedAt : String
  readyAt : Option String := none
  host : Option String := none
  port : ℤ
  hostVersion : Option String := none
  entry : Option String := none
  deriving DecidableEq

/-- `SERVER_LOCK_SCHEMA_VERSION` -/
def serverLockSchemaVersion : ℕ := 2

def isServerLockV2 (lock : LockContents) : Bool :=
  lock.schemaVersion == some serverLockSchemaVersion
    && lock.launchId.any (fun launchId => 0 < launchId.length)
    && lock.state.isSome

def sameLockOwner (left right : LockContents) : Bool :=
  if isServerLockV2 left || isServerLockV2 right then
    isServerLockV2 left
      && isServerLockV2 right
      && left.pid == right.pid
      && left.launchId == right.launchId
  else
    left.pid == right.pid
      && left.startedAt == right.startedAt
      && left.host == right.host
      && left.port == right.port
      && left.hostVersion == right.hostVersion
      && left.entry == right.entry

theorem pid_eq_of_sameLockOwner {left right : LockContents} (h : sameLockOwner left right = true) :
    left.pid = right.pid := by
  unfold sameLockOwner at h
  split at h
  · simp only [Bool.and_eq_true, beq_iff_eq] at h
    exact h.1.2
  · simp only [Bool.and_eq_true, beq_iff_eq] at h
    exact h.1.1.1.1.1

structure AcquireLockOptions where
  port : ℤ
  host : Option String := none
  hostVersion : Option String := none
  entry : Option String := none
  startedAt : String
  launchId : String

/-- The lock that a process writes. -/
def AcquireLockOptions.contents (opts : AcquireLockOptions) (pid : ℤ) : LockContents where
  schemaVersion := some serverLockSchemaVersion
  launchId := some opts.launchId
  state := some .starting
  pid := pid
  startedAt := opts.startedAt
  host := opts.host
  port := opts.port
  hostVersion := opts.hostVersion
  entry := opts.entry

structure ServerLockedError where
  message : String
  existing : LockContents

def ServerLockedError.running (existing : LockContents) : ServerLockedError :=
  let pid := existing.pid
  let port := existing.port
  let started := existing.startedAt
  { message := s!"server already running (pid={pid}, port={port}, started={started})"
    existing := existing }

/-- The error when a lock was created while an old one was deleted. -/
def ServerLockedError.slippedIn (winner : Option LockContents) (port : ℤ) : ServerLockedError :=
  match winner with
  | some winner => .running winner
  | none =>
    { message := "lock file present but unreadable"
      existing :=
        { pid := -1
          startedAt := ""
          port := port } }

/-- What is written over a lock. -/
inductive LockUpdate
  | port (bound : ℤ)
  | ready (bound : ℤ) (readyAt : String)
  deriving DecidableEq

/-- There is something to write. -/
def LockUpdate.applies (update : LockUpdate) (contents : LockContents) : Bool :=
  match update with
  | .port bound => contents.port != bound
  | .ready _ _ => true

def LockUpdate.apply (update : LockUpdate) (owner contents : LockContents) : LockContents :=
  match update with
  | .port bound => { contents with port := bound }
  | .ready bound readyAt =>
    { contents with
      schemaVersion := some serverLockSchemaVersion
      launchId := owner.launchId
      state := some .ready
      readyAt := some readyAt
      port := bound }

theorem LockUpdate.apply_pid (update : LockUpdate) (owner contents : LockContents) :
    (update.apply owner contents).pid = contents.pid := by
  cases update <;> rfl

/-! ### Processes -/

/-- The next operation of a process on the file. -/
inductive LockStage
  | idle
  | creating (contents : LockContents) (retry : Bool)
  | writing (contents : LockContents) (file : ℕ)
  | inspecting (contents : LockContents)
  | probing (contents : LockContents) (seen : Option ℕ) (existing : LockContents)
  /-- The file that was seen, and what was read, are to be taken over. -/
  | unlinking (contents : LockContents) (seen : Option ℕ) (existing : Option LockContents)
  | diagnosing (contents : LockContents)
  | releasing (owner : LockContents)
  | releaseReading (owner : LockContents)
  | releaseUnlinking
  | updating (owner : LockContents) (update : LockUpdate)
  | updateReading (owner : LockContents) (update : LockUpdate)
  | replacing (contents : LockContents)
  deriving DecidableEq

structure LockHandle where
  owner : LockContents
  released : Bool := false

structure LockProcess where
  pid : ℤ
  alive : Bool := true
  stage : LockStage := .idle
  handles : List LockHandle := []
  errors : List ServerLockedError := []

/-- A file, and the process that has made it. One that was never written, or only in part, cannot be
read. -/
structure LockFile where
  content : Option LockContents
  maker : Option ℕ

structure ServerLock where
  files : List LockFile
  /-- The file at the path of the lock. -/
  path : Option ℕ
  processes : List LockProcess := []
  /-- Ids of processes that are no servers. -/
  others : List ℤ := []
  /-- Which process has deleted or replaced the lock of which live process. -/
  lost : List (ℕ × ℕ) := []

inductive ServerLockEvent
  | spawn (pid : ℤ)
  | crash (i : ℕ)
  | others (pids : List ℤ)
  | acquire (i : ℕ) (opts : AcquireLockOptions)
  | release (i k : ℕ)
  | update (i k : ℕ) (update : LockUpdate)
  /-- A process does its next operation. -/
  | next (i : ℕ)
  /-- The operation fails. -/
  | fails (i : ℕ)
  /-- The lock is there and cannot be read. -/
  | readFails (i : ℕ)

namespace ServerLock

/-- The lock file is missing, or it has any content. -/
def start (file : Option (Option LockContents)) (others : List ℤ) : ServerLock :=
  match file with
  | none =>
    { files := []
      path := none
      others := others }
  | some content =>
    { files := [{ content := content, maker := none }]
      path := some 0
      others := others }

def file (s : ServerLock) : Option LockFile := s.path.bind fun n => s.files[n]?

def maker (s : ServerLock) : Option ℕ := s.file.bind LockFile.maker

def readLockContents (s : ServerLock) : Option LockContents := s.file.bind LockFile.content

def pidAlive (s : ServerLock) (pid : ℤ) : Bool :=
  (s.processes.any fun p => p.alive && p.pid == pid) || pid ∈ s.others

/-- The process is about to write the file. -/
def writes (stage : LockStage) (path : Option ℕ) : Bool :=
  match stage with
  | .writing _ n => path == some n
  | _ => false

/-- The live process whose lock is at the path, written or about to be written. -/
def lockOwner (s : ServerLock) : Option ℕ :=
  s.maker.filter fun j => (s.processes[j]?).any fun p =>
    p.alive && (s.readLockContents.isSome || writes p.stage s.path)

/-- What is lost when a process deletes or replaces the file. -/
def lostBy (s : ServerLock) (i : ℕ) : List (ℕ × ℕ) :=
  match s.lockOwner with
  | some j => if j = i then [] else [(i, j)]
  | none => []

def setProcess (s : ServerLock) (i : ℕ) (p : LockProcess) : ServerLock :=
  { s with processes := s.processes.set i p }

def setStage (s : ServerLock) (i : ℕ) (p : LockProcess) (stage : LockStage) : ServerLock :=
  s.setProcess i { p with stage := stage }

/-- The acquisition ends with an error. -/
def throws (s : ServerLock) (i : ℕ) (p : LockProcess) (error : ServerLockedError) : ServerLock :=
  s.setProcess i { p with
    stage := .idle
    errors := p.errors ++ [error] }

/-- The file is deleted, if there is one. -/
def unlink (s : ServerLock) (i : ℕ) : ServerLock :=
  { s with
    path := none
    lost := s.lost ++ s.lostBy i }

/-- A file with these contents is at the path. -/
def put (s : ServerLock) (i : ℕ) (content : Option LockContents) : ServerLock :=
  { s with
    files := s.files ++ [{ content := content, maker := some i }]
    path := some s.files.length
    lost := s.lost ++ s.lostBy i }

/-- The contents are written, to whichever file was created, and there is a handle. -/
def write (s : ServerLock) (i : ℕ) (p : LockProcess) (contents : LockContents) (n : ℕ) :
    ServerLock :=
  { s.setProcess i { p with
      stage := .idle
      handles := p.handles ++ [{ owner := contents }] } with
    files := s.files.modify n fun file => { file with content := some contents } }

/-- The next operation of a process. -/
def next (s : ServerLock) (i : ℕ) (p : LockProcess) : Option ServerLock :=
  match p.stage with
  | .idle => none
  | .creating contents retry =>
    match s.path with
    | none => some ((s.put i none).setStage i p (.writing contents s.files.length))
    | some _ =>
      some (s.setStage i p (if retry then .diagnosing contents else .inspecting contents))
  | .writing contents n => some (s.write i p contents n)
  | .inspecting contents =>
    match s.readLockContents with
    | some existing => some (s.setStage i p (.probing contents s.path existing))
    | none => some (s.setStage i p (.unlinking contents s.path none))
  | .probing contents seen existing =>
    if s.pidAlive existing.pid then some (s.throws i p (.running existing))
    else some (s.setStage i p (.unlinking contents seen (some existing)))
  | .unlinking contents _ _ => some ((s.unlink i).setStage i p (.creating contents true))
  | .diagnosing contents =>
    some (s.throws i p (.slippedIn s.readLockContents contents.port))
  | .releasing owner =>
    some (s.setStage i p (if s.path = none then .idle else .releaseReading owner))
  | .releaseReading owner =>
    match s.readLockContents with
    | some contents =>
      some (s.setStage i p (if sameLockOwner contents owner then .releaseUnlinking else .idle))
    | none => some (s.setStage i p .releaseUnlinking)
  | .releaseUnlinking => some ((s.unlink i).setStage i p .idle)
  | .updating owner update =>
    some (s.setStage i p (if s.path = none then .idle else .updateReading owner update))
  | .updateReading owner update =>
    match s.readLockContents with
    | some contents =>
      if sameLockOwner contents owner && update.applies contents then
        some (s.setStage i p (.replacing (update.apply owner contents)))
      else some (s.setStage i p .idle)
    | none => some (s.setStage i p .idle)
  | .replacing contents => some ((s.put i (some contents)).setStage i p .idle)

/-- A process comes. -/
def spawn (s : ServerLock) (pid : ℤ) : ServerLock :=
  { s with processes := s.processes ++ [{ pid := pid }] }

def step (s : ServerLock) : ServerLockEvent → Option ServerLock
  | .spawn pid =>
    if s.processes.any fun p => p.alive && p.pid == pid then none
    else some (s.spawn pid)
  | .crash i =>
    match s.processes[i]? with
    | some p => some (s.setProcess i { p with alive := false })
    | none => none
  | .others pids => some { s with others := pids }
  | .acquire i opts =>
    match s.processes[i]? with
    | some p =>
      if p.alive ∧ p.stage = .idle then
        some (s.setStage i p (.creating (opts.contents p.pid) false))
      else none
    | none => none
  | .release i k =>
    match s.processes[i]? with
    | some p =>
      match p.handles[k]? with
      | some handle =>
        if p.alive ∧ p.stage = .idle ∧ handle.released = false then
          some (s.setProcess i { p with
            stage := .releasing handle.owner
            handles := p.handles.set k { handle with released := true } })
        else none
      | none => none
    | none => none
  | .update i k update =>
    match s.processes[i]? with
    | some p =>
      match p.handles[k]? with
      | some handle =>
        if p.alive ∧ p.stage = .idle then
          some (s.setStage i p (.updating handle.owner update))
        else none
      | none => none
    | none => none
  | .next i =>
    match s.processes[i]? with
    | some p => if p.alive then s.next i p else none
    | none => none
  | .fails i =>
    match s.processes[i]? with
    | some p => if p.alive then some (s.setStage i p .idle) else none
    | none => none
  | .readFails i =>
    match s.processes[i]? with
    | some p =>
      match p.alive, p.stage with
      | true, .inspecting contents => some (s.setStage i p (.unlinking contents s.path none))
      | true, .releaseReading _ => some (s.setStage i p .releaseUnlinking)
      | true, .updateReading _ _ => some (s.setStage i p .idle)
      | _, _ => none
    | none => none

/-! ### What is claimed -/

/-- **What a takeover deletes is what it has read**: the same file with the same content, and no
live process is about to write it. -/
def Inspected (s : ServerLock) : LockStage → Prop
  | .unlinking _ seen existing => s.path = none ∨
      (s.path = seen ∧ s.readLockContents = existing ∧
        ∀ p ∈ s.processes, p.alive = true → writes p.stage s.path = false)
  | _ => True

instance (s : ServerLock) (stage : LockStage) : Decidable (s.Inspected stage) := by
  cases stage <;> unfold Inspected <;> infer_instance

/-- The condition on a step. -/
def Orderly (s : ServerLock) : ServerLockEvent → Prop
  | .next i => ∀ p ∈ s.processes[i]?, s.Inspected p.stage
  | _ => True

instance (s : ServerLock) (e : ServerLockEvent) : Decidable (s.Orderly e) := by
  cases e <;> unfold Orderly <;> infer_instance

/-- A live process that has a handle and did not release it. -/
def Holds (s : ServerLock) (i : ℕ) : Prop :=
  ∃ p ∈ s.processes[i]?, p.alive = true ∧ ∃ handle ∈ p.handles, handle.released = false

instance (s : ServerLock) (i : ℕ) : Decidable (s.Holds i) :=
  inferInstanceAs (Decidable (∃ p ∈ s.processes[i]?, _))

/-- **One process holds the lock, and no lock of a live process was deleted or replaced by
another.** -/
structure Exclusive (s : ServerLock) : Prop where
  one : ∀ i j : ℕ, s.Holds i → s.Holds j → i = j
  kept : s.lost = []

/-! ### The invariant -/

def pidOf (s : ServerLock) (j : ℕ) : Option ℤ := (s.processes[j]?).map LockProcess.pid

def aliveAt (s : ServerLock) (j : ℕ) : Option Bool := (s.processes[j]?).map LockProcess.alive

/-- The file at the path is one that the process has made and written. -/
def Owns (s : ServerLock) (i : ℕ) : Prop := s.maker = some i ∧ s.readLockContents.isSome = true

/-- Something is so of the process that has made the file that was seen. -/
def SeenBy (s : ServerLock) (seen : Option ℕ) (P : ℕ → Prop) : Prop :=
  ∀ n : ℕ, seen = some n → ∃ f, s.files[n]? = some f ∧ ∀ j : ℕ, f.maker = some j → P j

/-- The stages in which the file at the path is that of the process. -/
def claims : LockStage → Bool
  | .writing _ _ | .releasing _ | .releaseReading _ | .releaseUnlinking | .replacing _ => true
  | _ => false

/-- The process is at no such stage, and its handles are released. -/
structure Unclaimed (p : LockProcess) : Prop where
  stage : claims p.stage = false
  handles : ∀ handle ∈ p.handles, handle.released = true

def StageSound (s : ServerLock) (i : ℕ) (p : LockProcess) : Prop :=
  match p.stage with
  | .idle => True
  | .creating contents _ | .inspecting contents | .diagnosing contents => contents.pid = p.pid
  | .writing contents n => contents.pid = p.pid ∧ s.path = some n ∧ s.maker = some i ∧
      ∀ handle ∈ p.handles, handle.released = true
  | .probing contents seen existing => contents.pid = p.pid ∧
      s.SeenBy seen fun j => s.pidOf j = some existing.pid
  | .unlinking contents seen existing => contents.pid = p.pid ∧
      (existing.isSome = true → s.SeenBy seen fun j => s.aliveAt j = some false)
  | .releasing _ | .releaseReading _ | .releaseUnlinking =>
    s.Owns i ∧ ∀ handle ∈ p.handles, handle.released = true
  | .updating owner _ | .updateReading owner _ => owner.pid = p.pid ∧ p.handles ≠ []
  | .replacing contents => contents.pid = p.pid ∧ s.Owns i

/-- What holds of a live process. -/
structure ProcessSound (s : ServerLock) (i : ℕ) (p : LockProcess) : Prop where
  stage : s.StageSound i p
  owner : ∀ handle ∈ p.handles, handle.owner.pid = p.pid
  held : ∀ handle ∈ p.handles, handle.released = false → s.Owns i
  single : ∀ (k k' : ℕ) (handle handle' : LockHandle), p.handles[k]? = some handle →
    p.handles[k']? = some handle' → handle.released = false → handle'.released = false → k = k'
  own : p.handles ≠ [] → ∀ contents, s.readLockContents = some contents →
    contents.pid = p.pid → s.maker = some i

/-- A file was made by a process, whose id is in it. -/
def Made (s : ServerLock) : Prop :=
  ∀ (n : ℕ) (f : LockFile) (j : ℕ), s.files[n]? = some f → f.maker = some j →
    ∃ pid, s.pidOf j = some pid ∧ ∀ contents, f.content = some contents → contents.pid = pid

structure Sound (s : ServerLock) : Prop where
  made : s.Made
  pids : ∀ (i j : ℕ) (p q : LockProcess), s.processes[i]? = some p → s.processes[j]? = some q →
    p.alive = true → q.alive = true → p.pid = q.pid → i = j
  processes : ∀ (i : ℕ) (p : LockProcess), s.processes[i]? = some p → p.alive = true →
    s.ProcessSound i p
  lost : s.lost = []

/-- What stays so for good. -/
structure Before (s s' : ServerLock) : Prop where
  pid : ∀ (j : ℕ) (pid : ℤ), s.pidOf j = some pid → s'.pidOf j = some pid
  dead : ∀ j : ℕ, s.aliveAt j = some false → s'.aliveAt j = some false
  files : ∀ (n : ℕ) (f : LockFile), s.files[n]? = some f →
    ∃ f', s'.files[n]? = some f' ∧ f'.maker = f.maker

variable {s s' : ServerLock} {i k : ℕ} {p p' q : LockProcess}

theorem Sound.exclusive (h : s.Sound) : s.Exclusive where
  one := fun i j hi hj => by
    obtain ⟨p, hp, halive, handle, hhandle, hheld⟩ := hi
    obtain ⟨q, hq, halive', handle', hhandle', hheld'⟩ := hj
    have howns := ((h.processes i p hp halive).held handle hhandle hheld).1
    have howns' := ((h.processes j q hq halive').held handle' hhandle' hheld').1
    exact some.inj (howns.symm.trans howns')
  kept := h.lost

/-! ### What a change leaves -/

variable {seen : Option ℕ}

theorem SeenBy.imp {P Q : ℕ → Prop} (h : s.SeenBy seen P) (hb : s.Before s')
    (himp : ∀ j, P j → Q j) : s'.SeenBy seen Q := by
  intro n hn
  obtain ⟨f, hf, hmaker⟩ := h n hn
  obtain ⟨f', hf', heq⟩ := hb.files n f hf
  exact ⟨f', hf', fun j hj => himp j (hmaker j (heq ▸ hj))⟩

theorem StageSound.of_before (h : s.StageSound k q) (hb : s.Before s')
    (hclaims : claims q.stage = true → s'.path = s.path ∧ s'.maker = s.maker ∧
      s'.readLockContents = s.readLockContents) : s'.StageSound k q := by
  unfold StageSound at h ⊢
  cases hcase : q.stage with
  | idle => trivial
  | creating _ _ | inspecting _ | diagnosing _ | updating _ _ | updateReading _ _ =>
    rw [hcase] at h
    exact h
  | probing contents seen existing =>
    rw [hcase] at h
    exact ⟨h.1, h.2.imp hb fun j hj => hb.pid j _ hj⟩
  | unlinking contents seen existing =>
    rw [hcase] at h
    exact ⟨h.1, fun hsome => (h.2 hsome).imp hb fun j hj => hb.dead j hj⟩
  | writing _ _ | releasing _ | releaseReading _ | releaseUnlinking | replacing _ =>
    rw [hcase] at h hclaims
    obtain ⟨hpath, hmaker, hread⟩ := hclaims rfl
    simp only [Owns, hpath, hmaker, hread]
    exact h

theorem ProcessSound.of_unclaimed (h : s.ProcessSound k q) (hb : s.Before s') (hq : Unclaimed q)
    (hown : q.handles ≠ [] → ∀ contents, s'.readLockContents = some contents →
      contents.pid = q.pid → s'.maker = some k) : s'.ProcessSound k q where
  stage := h.stage.of_before hb fun hclaims => by
    rw [hq.stage] at hclaims
    cases hclaims
  owner := h.owner
  held := fun handle hhandle hheld => by
    rw [hq.handles handle hhandle] at hheld
    cases hheld
  single := h.single
  own := hown

theorem ProcessSound.of_same (h : s.ProcessSound k q) (hb : s.Before s') (hpath : s'.path = s.path)
    (hmaker : s'.maker = s.maker) (hread : s'.readLockContents = s.readLockContents) :
    s'.ProcessSound k q where
  stage := h.stage.of_before hb fun _ => ⟨hpath, hmaker, hread⟩
  owner := h.owner
  held := fun handle hhandle hheld => by
    rw [Owns, hmaker, hread]
    exact h.held handle hhandle hheld
  single := h.single
  own := by
    rw [hmaker, hread]
    exact h.own

theorem ProcessSound.unclaimed_of_maker_ne (h : s.ProcessSound k q) (hne : s.maker ≠ some k) :
    Unclaimed q where
  stage := by
    have hstage := h.stage
    unfold StageSound at hstage
    cases hcase : q.stage with
    | writing contents n =>
      rw [hcase] at hstage
      exact absurd hstage.2.2.1 hne
    | releasing _ | releaseReading _ | releaseUnlinking =>
      rw [hcase] at hstage
      exact absurd hstage.1.1 hne
    | replacing contents =>
      rw [hcase] at hstage
      exact absurd hstage.2.1 hne
    | _ => rfl
  handles := fun handle hhandle => by
    by_contra hheld
    exact hne (h.held handle hhandle ((Bool.not_eq_true _).mp hheld)).1

theorem ProcessSound.unclaimed_of_unread (h : s.ProcessSound k q)
    (hread : s.readLockContents = none) (hwrites : writes q.stage s.path = false) :
    Unclaimed q where
  stage := by
    have hstage := h.stage
    unfold StageSound Owns at hstage
    rw [hread] at hstage
    cases hcase : q.stage with
    | writing contents n =>
      rw [hcase] at hstage
      rw [hcase, writes, hstage.2.1] at hwrites
      simp at hwrites
    | releasing _ | releaseReading _ | releaseUnlinking =>
      rw [hcase] at hstage
      cases hstage.1.2
    | replacing contents =>
      rw [hcase] at hstage
      cases hstage.2.2
    | _ => rfl
  handles := fun handle hhandle => by
    by_contra hheld
    have howns := (h.held handle hhandle ((Bool.not_eq_true _).mp hheld)).2
    rw [hread] at howns
    cases howns

/-! ### What is lost -/

theorem lockOwner_eq_some {j : ℕ} (h : s.lockOwner = some j) : s.maker = some j ∧
    ∃ q, s.processes[j]? = some q ∧ q.alive = true ∧
      (s.readLockContents.isSome = true ∨ writes q.stage s.path = true) := by
  obtain ⟨hmaker, hany⟩ := filter_eq_some_iff.1 h
  obtain ⟨q, hq, hboth⟩ := (any_eq_true _ _).1 hany
  rw [Bool.and_eq_true, Bool.or_eq_true] at hboth
  exact ⟨hmaker, q, hq, hboth⟩

theorem lostBy_of_maker (h : ∀ j, s.maker = some j → j = i) : s.lostBy i = [] := by
  unfold lostBy
  split
  · rename_i j howner
    rw [if_pos (h j (lockOwner_eq_some howner).1)]
  · rfl

theorem lostBy_of_lockOwner (h : s.lockOwner = none) : s.lostBy i = [] := by
  unfold lostBy
  rw [h]

variable {contents : LockContents}

/-- **A takeover deletes what nobody claims.** -/
theorem Sound.takeover (h : s.Sound) (hi : s.processes[i]? = some p) (halive : p.alive = true)
    {existing : Option LockContents}
    (hstage : p.stage = .unlinking contents seen existing) (ho : s.Inspected p.stage) :
    s.lockOwner = none ∧ ∀ (k : ℕ) (q : LockProcess), s.processes[k]? = some q →
      q.alive = true → Unclaimed q := by
  have hsound := (h.processes i p hi halive).stage
  unfold StageSound at hsound
  rw [hstage] at hsound ho
  have hmissing : s.path = none → s.maker = none := by
    intro hpath
    unfold maker file
    rw [hpath]
    rfl
  -- who has made a file that was read is gone
  have hgone : s.readLockContents.isSome = true → ∀ j, s.maker = some j →
      s.aliveAt j = some false := by
    intro hsome j hj
    rcases ho with hpath | ⟨hseen, hread, -⟩
    · rw [hmissing hpath] at hj
      cases hj
    · rw [hread] at hsome
      obtain ⟨f, hf, hmaker⟩ := bind_eq_some_iff.1 hj
      obtain ⟨n, hn, hfile⟩ := bind_eq_some_iff.1 hf
      obtain ⟨f', hf', hby⟩ := hsound.2 hsome n (hseen.symm.trans hn)
      cases hfile.symm.trans hf'
      exact hby j hmaker
  have hlive : ∀ (j : ℕ) (q : LockProcess), s.processes[j]? = some q → q.alive = true →
      s.aliveAt j ≠ some false := by
    intro j q hq hqalive hdead
    rw [aliveAt, hq, map_some, hqalive] at hdead
    cases hdead
  constructor
  · cases howner : s.lockOwner with
    | none => rfl
    | some j =>
      obtain ⟨hmaker, q, hq, hqalive, hclaim⟩ := lockOwner_eq_some howner
      rcases hclaim with hsome | hwrites
      · exact absurd (hgone hsome j hmaker) (hlive j q hq hqalive)
      · rcases ho with hpath | ⟨-, -, hnone⟩
        · rw [hmissing hpath] at hmaker
          cases hmaker
        · rw [hnone q (mem_of_getElem? hq) hqalive] at hwrites
          cases hwrites
  · intro k q hq hqalive
    have hprocess := h.processes k q hq hqalive
    cases hread : s.readLockContents with
    | some existing =>
      refine hprocess.unclaimed_of_maker_ne fun hmaker => ?_
      exact hlive k q hq hqalive (hgone (by rw [hread]; rfl) k hmaker)
    | none =>
      rcases ho with hpath | ⟨-, -, hnone⟩
      · refine hprocess.unclaimed_of_maker_ne fun hmaker => ?_
        rw [hmissing hpath] at hmaker
        cases hmaker
      · exact hprocess.unclaimed_of_unread hread (hnone q (mem_of_getElem? hq) hqalive)

/-! ### What a step does to the processes -/

theorem before_of_set (hi : s.processes[i]? = some p)
    (hprocesses : s'.processes = s.processes.set i p') (hpid : p'.pid = p.pid)
    (halive : p'.alive = true → p.alive = true)
    (hfiles : ∀ (n : ℕ) (f : LockFile), s.files[n]? = some f →
      ∃ f', s'.files[n]? = some f' ∧ f'.maker = f.maker) : s.Before s' where
  pid := fun j pid hj => by
    unfold pidOf at hj ⊢
    rw [hprocesses]
    by_cases hij : j = i
    · subst hij
      rw [hi] at hj
      rw [getElem?_set_of_some hi, map_some, hpid]
      exact hj
    · rw [getElem?_set_ne (Ne.symm hij)]
      exact hj
  dead := fun j hj => by
    unfold aliveAt at hj ⊢
    rw [hprocesses]
    by_cases hij : j = i
    · subst hij
      rw [hi] at hj
      rw [getElem?_set_of_some hi, map_some]
      have hdead : p.alive = false := some.inj hj
      cases hcase : p'.alive with
      | false => rfl
      | true => rw [halive hcase] at hdead; cases hdead
    · rw [getElem?_set_ne (Ne.symm hij)]
      exact hj
  files := hfiles

theorem Made.of_before (h : s.Made) (hb : s.Before s') (hfiles : s'.files = s.files) : s'.Made := by
  intro n f j hf hj
  rw [hfiles] at hf
  obtain ⟨pid, hpid, hcontent⟩ := h n f j hf hj
  exact ⟨pid, hb.pid j pid hpid, hcontent⟩

/-- A process acts on the files: the others are as they were, or claim nothing. -/
theorem Sound.acts (h : s.Sound) (hi : s.processes[i]? = some p)
    (hprocesses : s'.processes = s.processes.set i p') (hpid : p'.pid = p.pid)
    (halive : p'.alive = true → p.alive = true)
    (hmade : s'.Made) (hothers : ∀ (k : ℕ) (q : LockProcess), k ≠ i →
      s.processes[k]? = some q → q.alive = true → s'.ProcessSound k q)
    (hself : p'.alive = true → s'.ProcessSound i p') (hlost : s'.lost = []) : s'.Sound where
  made := hmade
  pids := fun j k q r hj hk hq hr heq => by
    rw [hprocesses] at hj hk
    rcases getElem?_set_cases hj with ⟨rfl, rfl⟩ | ⟨hne, hold⟩
    · rcases getElem?_set_cases hk with ⟨rfl, rfl⟩ | ⟨-, hold'⟩
      · rfl
      · exact h.pids j k p r hi hold' (halive hq) hr (hpid.symm.trans heq)
    · rcases getElem?_set_cases hk with ⟨rfl, rfl⟩ | ⟨-, hold'⟩
      · exact h.pids j k q p hold hi hq (halive hr) (heq.trans hpid)
      · exact h.pids j k q r hold hold' hq hr heq
  processes := fun k q hk hq => by
    rw [hprocesses] at hk
    rcases getElem?_set_cases hk with ⟨rfl, rfl⟩ | ⟨hne, hold⟩
    · exact hself hq
    · exact hothers k q hne hold hq
  lost := hlost

theorem Sound.setProcess (h : s.Sound) (hi : s.processes[i]? = some p) (hpid : p'.pid = p.pid)
    (halive : p'.alive = true → p.alive = true)
    (hself : p'.alive = true → s.ProcessSound i p') : (s.setProcess i p').Sound := by
  have hb : s.Before (s.setProcess i p') :=
    before_of_set hi rfl hpid halive fun n f hf => ⟨f, hf, rfl⟩
  refine h.acts hi rfl hpid halive (h.made.of_before hb rfl) (fun k q _ hk hq => ?_)
    (fun hlive => ?_) h.lost
  · exact (h.processes k q hk hq).of_same hb rfl rfl rfl
  · exact (hself hlive).of_same hb rfl rfl rfl

theorem ProcessSound.of_handles (h : s.ProcessSound i p) (hpid : p'.pid = p.pid)
    (hhandles : p'.handles = p.handles) (hstage : s.StageSound i p') : s.ProcessSound i p' where
  stage := hstage
  owner := by
    rw [hhandles, hpid]
    exact h.owner
  held := by
    rw [hhandles]
    exact h.held
  single := by
    rw [hhandles]
    exact h.single
  own := by
    rw [hhandles, hpid]
    exact h.own

theorem Sound.setStage (h : s.Sound) (hi : s.processes[i]? = some p) {stage : LockStage}
    (hstage : p.alive = true → s.StageSound i { p with stage := stage }) :
    (s.setStage i p stage).Sound :=
  h.setProcess hi rfl id fun hlive => (h.processes i p hi hlive).of_handles rfl rfl (hstage hlive)

theorem Sound.throws (h : s.Sound) (hi : s.processes[i]? = some p) (error : ServerLockedError) :
    (s.throws i p error).Sound :=
  h.setProcess hi rfl id fun hlive => (h.processes i p hi hlive).of_handles rfl rfl trivial

/-! ### Files that are made, written and deleted -/

variable (content : Option LockContents)

@[simp] theorem put_file :
    (s.put i content).file = some { content := content, maker := some i } := by
  simp [file, put]

theorem put_maker : (s.put i content).maker = some i := by
  simp [maker]

theorem put_read : (s.put i content).readLockContents = content := by
  simp [readLockContents]

theorem made_put (h : s.Made) (hb : s.Before s') (hi : s'.pidOf i = some p.pid)
    {content : Option LockContents}
    (hfiles : s'.files = s.files ++ [{ content := content, maker := some i }])
    (hcontent : ∀ contents, content = some contents → contents.pid = p.pid) : s'.Made := by
  intro n f j hf hj
  rw [hfiles] at hf
  rcases getElem?_append_singleton hf with hold | ⟨-, rfl⟩
  · obtain ⟨pid, hpid, hcontents⟩ := h n f j hold hj
    exact ⟨pid, hb.pid j pid hpid, hcontents⟩
  · cases hj
    exact ⟨p.pid, hi, hcontent⟩

theorem before_put (hi : s.processes[i]? = some p) (p' : LockProcess) (hpid : p'.pid = p.pid)
    (halive : p'.alive = p.alive) (content : Option LockContents) :
    s.Before ((s.put i content).setProcess i p') := by
  refine before_of_set hi rfl hpid (fun hlive => halive ▸ hlive) fun n f hf => ⟨f, ?_, rfl⟩
  have hlt : n < s.files.length := (List.getElem?_eq_some_iff.1 hf).1
  exact (List.getElem?_append_left hlt).trans hf

theorem pidOf_setProcess (hi : s.processes[i]? = some p) (hpid : p'.pid = p.pid) :
    (s.setProcess i p').pidOf i = some p.pid := by
  have hset : (s.setProcess i p').processes[i]? = some p' := getElem?_set_of_some hi
  rw [pidOf, hset, map_some, hpid]

section

variable (h : s.Sound) (hi : s.processes[i]? = some p) (halive : p.alive = true)

include h hi halive

/-- **The lock file is created.** -/
theorem Sound.create (hpath : s.path = none) (hcontents : contents.pid = p.pid) :
    ((s.put i none).setStage i p (.writing contents s.files.length)).Sound := by
  have hmaker : s.maker = none := by
    unfold maker file
    rw [hpath]
    rfl
  have hunclaimed : ∀ (k : ℕ) (q : LockProcess), s.processes[k]? = some q → q.alive = true →
      Unclaimed q := by
    intro k q hk hq
    refine (h.processes k q hk hq).unclaimed_of_maker_ne ?_
    rw [hmaker]
    exact nofun
  have hb := before_put hi { p with stage := .writing contents s.files.length } rfl rfl none
  refine h.acts hi rfl rfl id ?_ (fun k q _ hk hq => ?_) (fun _ => ?_) ?_
  · refine made_put h.made hb (pidOf_setProcess (s := s.put i none) hi rfl) rfl ?_
    intro contents hnone
    cases hnone
  · refine (h.processes k q hk hq).of_unclaimed hb (hunclaimed k q hk hq) fun _ c hc => ?_
    have hnone := (put_read (s := s) (i := i) none).symm.trans hc
    cases hnone
  · have hp := h.processes i p hi halive
    have hreleased := (hunclaimed i p hi halive).handles
    refine { stage := ?_, owner := hp.owner, held := ?_, single := hp.single, own := ?_ }
    · exact ⟨hcontents, rfl, put_maker none, hreleased⟩
    · intro handle hhandle hheld
      rw [hreleased handle hhandle] at hheld
      cases hheld
    · intro _ c hc
      have hnone := (put_read (s := s) (i := i) none).symm.trans hc
      cases hnone
  · have hlost : s.lostBy i = [] := lostBy_of_maker fun j hj => by
      rw [hmaker] at hj
      cases hj
    change s.lost ++ s.lostBy i = []
    rw [hlost, h.lost, append_nil]

/-- **The lock file is replaced by its owner.** -/
theorem Sound.replace (hcontents : contents.pid = p.pid) (howns : s.Owns i) :
    ((s.put i (some contents)).setStage i p .idle).Sound := by
  have hb := before_put hi { p with stage := .idle } rfl rfl (some contents)
  have hown : ∀ (k : ℕ) (q : LockProcess), s.processes[k]? = some q → q.alive = true →
      ∀ c, (s.put i (some contents)).readLockContents = some c → c.pid = q.pid → k = i := by
    intro k q hk hq c hc hpid
    rw [put_read] at hc
    cases hc
    exact h.pids k i q p hk hi hq halive (hpid.symm.trans hcontents)
  refine h.acts hi rfl rfl id ?_ (fun k q hne hk hq => ?_) (fun _ => ?_) ?_
  · refine made_put h.made hb (pidOf_setProcess (s := s.put i (some contents)) hi rfl) rfl ?_
    intro c hc
    cases hc
    exact hcontents
  · have hq' := h.processes k q hk hq
    refine hq'.of_unclaimed hb (hq'.unclaimed_of_maker_ne ?_) fun _ c hc hpid => ?_
    · rw [howns.1]
      exact fun heq => hne (some.inj heq).symm
    · exact absurd (hown k q hk hq c hc hpid) hne
  · have hp := h.processes i p hi halive
    have howns' : (s.put i (some contents)).Owns i := ⟨put_maker _, by rw [put_read]; rfl⟩
    exact { hp with
      stage := trivial
      held := fun _ _ _ => howns'
      own := fun _ _ _ _ => howns'.1 }
  · have hlost : s.lostBy i = [] := lostBy_of_maker fun j hj =>
      some.inj (hj.symm.trans howns.1)
    change s.lost ++ s.lostBy i = []
    rw [hlost, h.lost, append_nil]

/-- **The lock file is deleted**, and nobody claims it. -/
theorem Sound.unlink {stage : LockStage}
    (hstage : ∀ t : ServerLock, t.StageSound i { p with stage := stage }) (hlost : s.lostBy i = [])
    (hreleased : ∀ handle ∈ p.handles, handle.released = true)
    (hunclaimed : ∀ (k : ℕ) (q : LockProcess), k ≠ i → s.processes[k]? = some q →
      q.alive = true → Unclaimed q) : ((s.unlink i).setStage i p stage).Sound := by
  have hb : s.Before ((s.unlink i).setStage i p stage) :=
    before_of_set hi rfl rfl id fun n f hf => ⟨f, hf, rfl⟩
  refine h.acts hi rfl rfl id (h.made.of_before hb rfl) (fun k q hne hk hq => ?_) (fun _ => ?_) ?_
  · refine (h.processes k q hk hq).of_unclaimed hb (hunclaimed k q hne hk hq) fun _ c hc => ?_
    cases hc
  · have hp := h.processes i p hi halive
    refine { stage := hstage _, owner := hp.owner, held := ?_, single := hp.single, own := ?_ }
    · intro handle hhandle hheld
      rw [hreleased handle hhandle] at hheld
      cases hheld
    · intro _ c hc
      cases hc
  · change s.lost ++ s.lostBy i = []
    rw [hlost, h.lost, append_nil]

/-- **What was written is read by its maker's id.** -/
theorem Sound.write {n : ℕ} (hstage : p.stage = .writing contents n) :
    (s.write i p contents n).Sound := by
  have hp := h.processes i p hi halive
  obtain ⟨hcontents, hpath, hmaker, hreleased⟩ : contents.pid = p.pid ∧ s.path = some n ∧
      s.maker = some i ∧ ∀ handle ∈ p.handles, handle.released = true := by
    have hsound := hp.stage
    unfold StageSound at hsound
    rw [hstage] at hsound
    exact hsound
  obtain ⟨f, hf, hfmaker⟩ := bind_eq_some_iff.1 hmaker
  have hn : s.files[n]? = some f := by
    rw [file, hpath] at hf
    exact hf
  have hfile : (s.write i p contents n).file = some { f with content := some contents } := by
    have hmodify := getElem?_modify_of_some
      (fun file : LockFile => { file with content := some contents }) n hn
    rw [if_pos rfl] at hmodify
    change s.path.bind _ = _
    rw [hpath]
    exact hmodify
  have hmaker' : (s.write i p contents n).maker = some i := by
    rw [maker, hfile]
    exact hfmaker
  have hread' : (s.write i p contents n).readLockContents = some contents := by
    rw [readLockContents, hfile]
    rfl
  have hb : s.Before (s.write i p contents n) := by
    refine before_of_set hi rfl rfl id fun m g hg => ?_
    refine ⟨_, getElem?_modify_of_some _ n hg, ?_⟩
    split <;> rfl
  refine h.acts hi rfl rfl id ?_ (fun k q hne hk hq => ?_) (fun _ => ?_) h.lost
  · intro m g j hg hj
    obtain ⟨g₀, hg₀, rfl⟩ := getElem?_modify_some hg
    split at hj
    · rename_i hnm
      subst hnm
      cases hn.symm.trans hg₀
      cases hfmaker.symm.trans hj
      refine ⟨p.pid, pidOf_setProcess hi rfl, fun c hc => ?_⟩
      rw [if_pos rfl] at hc
      cases hc
      exact hcontents
    · rename_i hnm
      obtain ⟨pid, hpid, hcontent⟩ := h.made m g₀ j hg₀ hj
      refine ⟨pid, hb.pid j pid hpid, ?_⟩
      rw [if_neg hnm]
      exact hcontent
  · have hq' := h.processes k q hk hq
    refine hq'.of_unclaimed hb (hq'.unclaimed_of_maker_ne ?_) fun _ c hc hpid => ?_
    · rw [hmaker]
      exact fun heq => hne (some.inj heq).symm
    · obtain rfl := some.inj (hread'.symm.trans hc)
      exact absurd (h.pids k i q p hk hi hq halive (hpid.symm.trans hcontents)) hne
  · have howns : (s.write i p contents n).Owns i := ⟨hmaker', by rw [hread']; rfl⟩
    refine ⟨trivial, ?_, fun _ _ _ => howns, ?_, fun _ _ _ _ => hmaker'⟩
    · intro handle hhandle
      rcases mem_append.1 hhandle with hold | hnew
      · exact hp.owner handle hold
      · obtain rfl := mem_singleton.1 hnew
        exact hcontents
    · -- the handles from before are released
      have hlast : ∀ (k : ℕ) (handle : LockHandle),
          (p.handles ++ [({ owner := contents } : LockHandle)])[k]? = some handle →
          handle.released = false → k = p.handles.length := by
        intro k handle hk hheld
        rcases getElem?_append_singleton hk with hold | ⟨heq, -⟩
        · rw [hreleased handle (mem_of_getElem? hold)] at hheld
          cases hheld
        · exact heq
      intro k k' handle handle' hk hk' hheld hheld'
      rw [hlast k handle hk hheld, hlast k' handle' hk' hheld']

end

/-! ### Steps -/

section

variable (h : s.Sound) (hi : s.processes[i]? = some p)

include h hi

theorem Sound.inspect {existing : LockContents} (hcontents : contents.pid = p.pid)
    (hread : s.readLockContents = some existing) :
    (s.setStage i p (.probing contents s.path existing)).Sound := by
  refine h.setStage hi fun _ => ⟨hcontents, fun n hn => ?_⟩
  obtain ⟨f, hf, hcontent⟩ := bind_eq_some_iff.1 hread
  rw [file, hn] at hf
  refine ⟨f, hf, fun j hj => ?_⟩
  obtain ⟨pid, hpid, hpids⟩ := h.made n f j hf hj
  rw [hpids existing hcontent]
  exact hpid

theorem Sound.probe {existing : LockContents} (hcontents : contents.pid = p.pid)
    (hseen : s.SeenBy seen fun j => s.pidOf j = some existing.pid)
    (hdead : s.pidAlive existing.pid = false) :
    (s.setStage i p (.unlinking contents seen (some existing))).Sound := by
  refine h.setStage hi fun _ => ⟨hcontents, fun _ n hn => ?_⟩
  obtain ⟨f, hf, hby⟩ := hseen n hn
  refine ⟨f, hf, fun j hj => ?_⟩
  obtain ⟨q, hq, hpid⟩ := map_eq_some_iff.1 (hby j hj)
  rw [aliveAt, hq, map_some]
  cases hcase : q.alive with
  | false => rfl
  | true =>
    rw [pidAlive, Bool.or_eq_false_iff] at hdead
    have hnone := (any_eq_false.1 hdead.1) q (mem_of_getElem? hq)
    rw [hcase, hpid, Bool.true_and, beq_iff_eq] at hnone
    exact absurd rfl hnone

theorem Sound.release (halive : p.alive = true) (howns : s.Owns i)
    (hreleased : ∀ handle ∈ p.handles, handle.released = true) :
    ((s.unlink i).setStage i p .idle).Sound := by
  refine h.unlink hi halive (fun _ => trivial) ?_ hreleased fun k q hne hk hq => ?_
  · exact lostBy_of_maker fun j hj => some.inj (hj.symm.trans howns.1)
  · refine (h.processes k q hk hq).unclaimed_of_maker_ne ?_
    rw [howns.1]
    exact fun heq => hne (some.inj heq).symm

/-- **What the next operation of a process preserves.** -/
theorem Sound.next (halive : p.alive = true) (ho : s.Inspected p.stage) (hs : s.next i p = some s')
    : s'.Sound := by
  have hsound := (h.processes i p hi halive).stage
  unfold StageSound at hsound
  unfold ServerLock.next at hs
  cases hstage : p.stage with
  | idle =>
    rw [hstage] at hs
    cases hs
  | creating contents retry =>
    rw [hstage] at hs hsound
    dsimp only at hs hsound
    split at hs
    · rename_i hpath
      cases hs
      exact h.create hi halive hpath hsound
    · cases hs
      refine h.setStage hi fun _ => ?_
      cases retry
      · exact hsound
      · exact hsound
  | writing contents n =>
    rw [hstage] at hs
    cases hs
    exact h.write hi halive hstage
  | inspecting contents =>
    rw [hstage] at hs hsound
    dsimp only at hs hsound
    split at hs
    · rename_i existing hread
      cases hs
      exact h.inspect hi hsound hread
    · cases hs
      exact h.setStage hi fun _ => ⟨hsound, nofun⟩
  | probing contents seen existing =>
    rw [hstage] at hs hsound
    dsimp only at hs hsound
    split at hs
    · cases hs
      exact h.throws hi _
    · rename_i hdead
      cases hs
      exact h.probe hi hsound.1 hsound.2 ((Bool.not_eq_true _).mp hdead)
  | unlinking contents seen existing =>
    obtain ⟨howner, hunclaimed⟩ := h.takeover hi halive hstage ho
    rw [hstage] at hs hsound
    cases hs
    exact h.unlink hi halive (fun _ => hsound.1) (lostBy_of_lockOwner howner)
      (hunclaimed i p hi halive).handles fun k q _ hk hq => hunclaimed k q hk hq
  | diagnosing contents =>
    rw [hstage] at hs
    cases hs
    exact h.throws hi _
  | releasing | updating =>
    rw [hstage] at hs hsound
    cases hs
    refine h.setStage hi fun _ => ?_
    split
    · trivial
    · exact hsound
  | releaseReading owner =>
    rw [hstage] at hs hsound
    dsimp only at hs hsound
    split at hs
    · cases hs
      refine h.setStage hi fun _ => ?_
      split
      · exact hsound
      · trivial
    · cases hs
      exact h.setStage hi fun _ => hsound
  | releaseUnlinking =>
    rw [hstage] at hs hsound
    cases hs
    exact h.release hi halive hsound.1 hsound.2
  | updateReading owner update =>
    rw [hstage] at hs hsound
    dsimp only at hs hsound
    split at hs
    · rename_i contents hread
      split at hs
      · rename_i happlies
        cases hs
        -- the file has the id of the owner, so the process has made it
        have hpid : contents.pid = p.pid :=
          (pid_eq_of_sameLockOwner (Bool.and_eq_true_iff.1 happlies).1).trans hsound.1
        have hmaker := (h.processes i p hi halive).own hsound.2 contents hread hpid
        refine h.setStage hi fun _ => ⟨?_, hmaker, ?_⟩
        · rw [LockUpdate.apply_pid]
          exact hpid
        · rw [hread]
          rfl
      · cases hs
        exact h.setStage hi fun _ => trivial
    · cases hs
      exact h.setStage hi fun _ => trivial
  | replacing contents =>
    rw [hstage] at hs hsound
    cases hs
    exact h.replace hi halive hsound.1 hsound.2

/-- A handle is marked as released, and the file is still to be deleted. -/
theorem Sound.startRelease {k : ℕ} {handle : LockHandle} (hk : p.handles[k]? = some handle)
    (hheld : handle.released = false) :
    (s.setProcess i { p with
      stage := .releasing handle.owner
      handles := p.handles.set k { handle with released := true } }).Sound := by
  refine h.setProcess hi rfl id fun hlive => ?_
  have hp := h.processes i p hi hlive
  have hreleased : ∀ other ∈ p.handles.set k { handle with released := true },
      other.released = true := by
    intro other hother
    obtain ⟨k', hk'⟩ := getElem?_of_mem hother
    rcases getElem?_set_cases hk' with ⟨-, rfl⟩ | ⟨hne, hold⟩
    · rfl
    · by_contra hfalse
      exact hne (hp.single k' k other handle hold hk ((Bool.not_eq_true _).mp hfalse) hheld)
  refine { stage := ?_, owner := ?_, held := ?_, single := ?_, own := ?_ }
  · exact ⟨hp.held handle (mem_of_getElem? hk) hheld, hreleased⟩
  · intro other hother
    rcases mem_or_eq_of_mem_set hother with hold | rfl
    · exact hp.owner other hold
    · exact hp.owner handle (mem_of_getElem? hk)
  · intro other hother hfalse
    rw [hreleased other hother] at hfalse
    cases hfalse
  · intro j j' other other' hj _ hfalse
    rw [hreleased other (mem_of_getElem? hj)] at hfalse
    cases hfalse
  · intro _
    exact hp.own (ne_nil_of_mem (mem_of_getElem? hk))

end

/-- **A process comes.** -/
theorem Sound.spawn (h : s.Sound) {pid : ℤ}
    (hfresh : ∀ p ∈ s.processes, p.alive = true → p.pid ≠ pid) : (s.spawn pid).Sound := by
  have hget : ∀ (j : ℕ) (q : LockProcess), s.processes[j]? = some q →
      (s.spawn pid).processes[j]? = some q := by
    intro j q hq
    rw [ServerLock.spawn, List.getElem?_append_left (List.getElem?_eq_some_iff.1 hq).1]
    exact hq
  have hb : s.Before (s.spawn pid) := by
    refine ⟨fun j pid' hj => ?_, fun j hj => ?_, fun n f hf => ⟨f, hf, rfl⟩⟩
    · obtain ⟨q, hq, hqpid⟩ := map_eq_some_iff.1 hj
      exact map_eq_some_iff.2 ⟨q, hget j q hq, hqpid⟩
    · obtain ⟨q, hq, hqdead⟩ := map_eq_some_iff.1 hj
      exact map_eq_some_iff.2 ⟨q, hget j q hq, hqdead⟩
  refine { made := h.made.of_before hb rfl, pids := ?_, processes := ?_, lost := h.lost }
  · intro j k q r hj hk hq hr heq
    rcases getElem?_append_singleton hj with hold | ⟨rfl, rfl⟩
    · rcases getElem?_append_singleton hk with hold' | ⟨rfl, rfl⟩
      · exact h.pids j k q r hold hold' hq hr heq
      · exact absurd heq (hfresh q (List.mem_of_getElem? hold) hq)
    · rcases getElem?_append_singleton hk with hold' | ⟨rfl, rfl⟩
      · exact absurd heq.symm (hfresh r (List.mem_of_getElem? hold') hr)
      · rfl
  · intro j q hj hq
    rcases getElem?_append_singleton hj with hold | ⟨rfl, rfl⟩
    · exact (h.processes j q hold hq).of_same hb rfl rfl rfl
    · exact {
        stage := trivial
        owner := fun handle hhandle => by cases hhandle
        held := fun handle hhandle => by cases hhandle
        single := fun k k' handle handle' hk => by cases hk
        own := fun hne => absurd rfl hne }

variable {e : ServerLockEvent}

/-- **What every step preserves.** -/
theorem Sound.step (h : s.Sound) (ho : s.Orderly e) (hs : s.step e = some s') : s'.Sound := by
  cases e <;> simp only [ServerLock.step] at hs
  case spawn pid =>
    split at hs <;> cases hs
    rename_i hnone
    refine h.spawn fun p hp halive hpid => hnone ?_
    refine any_eq_true.2 ⟨p, hp, ?_⟩
    rw [halive, hpid, Bool.true_and, beq_self_eq_true]
  case crash i =>
    split at hs <;> cases hs
    rename_i p hi
    exact h.setProcess hi rfl nofun nofun
  case others pids =>
    cases hs
    have hb : s.Before { s with others := pids } :=
      { pid := fun _ _ hj => hj, dead := fun _ hj => hj, files := fun n f hf => ⟨f, hf, rfl⟩ }
    exact { h with
      made := h.made.of_before hb rfl
      processes := fun j q hj hq => (h.processes j q hj hq).of_same hb rfl rfl rfl }
  case acquire i opts =>
    split at hs
    · rename_i p hi
      split at hs <;> cases hs
      exact h.setStage hi fun _ => rfl
    · cases hs
  case release i k =>
    split at hs
    · rename_i p hi
      split at hs
      · rename_i handle hk
        split at hs <;> cases hs
        rename_i hcond
        exact h.startRelease hi hk hcond.2.2
      · cases hs
    · cases hs
  case update i k update =>
    split at hs
    · rename_i p hi
      split at hs
      · rename_i handle hk
        split at hs <;> cases hs
        refine h.setStage hi fun hlive => ⟨?_, ?_⟩
        · exact (h.processes i p hi hlive).owner handle (mem_of_getElem? hk)
        · exact ne_nil_of_mem (mem_of_getElem? hk)
      · cases hs
    · cases hs
  case next i =>
    split at hs
    · rename_i p hi
      split at hs
      · rename_i halive
        exact h.next hi halive (ho p hi) hs
      · cases hs
    · cases hs
  case fails i =>
    split at hs
    · rename_i p hi
      split at hs <;> cases hs
      exact h.setStage hi fun _ => trivial
    · cases hs
  case readFails i =>
    split at hs
    · rename_i p hi
      split at hs
      · rename_i contents halive hstage
        cases hs
        have hsound := (h.processes i p hi halive).stage
        unfold StageSound at hsound
        rw [hstage] at hsound
        exact h.setStage hi fun _ => ⟨hsound, nofun⟩
      · rename_i owner halive hstage
        cases hs
        have hsound := (h.processes i p hi halive).stage
        unfold StageSound at hsound
        rw [hstage] at hsound
        exact h.setStage hi fun _ => hsound
      · cases hs
        exact h.setStage hi fun _ => trivial
      · cases hs
    · cases hs

theorem Sound.start (file : Option (Option LockContents)) (others : List ℤ) :
    (start file others).Sound := by
  cases file with
  | none =>
    exact {
      made := fun n f j hf => by cases hf
      pids := fun j k p q hj => by cases hj
      processes := fun j p hj => by cases hj
      lost := rfl }
  | some content =>
    exact {
      made := fun n f j hf hj => by
        obtain rfl := mem_singleton.1 (mem_of_getElem? hf)
        cases hj
      pids := fun j k p q hj => by cases hj
      processes := fun j p hj => by cases hj
      lost := rfl }

/-! ### Runs -/

/-- **One process holds the lock.** From any content of the file, in every run in which a takeover
deletes only what it has read and nobody writes, at most one live process holds a handle, and no
lock of a live process is deleted or replaced by another. -/
theorem run_single_holder {file : Option (Option LockContents)} {others : List ℤ}
    {l : List ServerLockEvent} (h : LibRun.Run step Orderly (start file others) l s) :
    s.Exclusive :=
  (h.invariant (Sound.start file others) fun _ _ _ ht ho hu => ht.step ho hu).exclusive

/-- What a process asks for. -/
def options (launchId : String) : AcquireLockOptions where
  port := 58627
  startedAt := "2026-01-01T00:00:00.000Z"
  launchId := launchId

/-- The lock of a process that is gone. -/
def staleLock : LockContents where
  pid := 7
  startedAt := "2025-12-31T00:00:00.000Z"
  port := 58627

/-- Two processes find a stale lock; one takes it over and updates it, and the other one is refused.
-/
theorem run_single_holder_example :
    ∃ s : ServerLock, s.Holds 0 ∧ s.readLockContents.any (fun lock => lock.port == 58628) = true ∧
      (s.processes[1]?.any fun p => p.errors.length == 1) = true ∧ s.Exclusive := by
  have hrun : ∃ s, LibRun.Run step Orderly (start (some (some staleLock)) [])
      [.spawn 1, .spawn 2, .acquire 0 (options "a"), .next 0, .next 0, .next 0, .next 0, .next 0,
        .next 0, .acquire 1 (options "b"), .next 1, .next 1, .next 1,
        .update 0 0 (.ready 58628 "2026-01-01T00:00:01.000Z"), .next 0, .next 0, .next 0] s ∧
      (s.Holds 0 ∧ s.readLockContents.any (fun lock => lock.port == 58628) = true ∧
        (s.processes[1]?.any fun p => p.errors.length == 1) = true) :=
    exists_run (by decide +kernel) (by decide +kernel)
  obtain ⟨s, hs, hholds, hport, herrors⟩ := hrun
  exact ⟨s, hholds, hport, herrors, run_single_holder hs⟩

/-- **Two processes take over one stale lock, and both hold it**: the second one has read the stale
file before the first one deletes it, and deletes the new one. Or the second one reads the file of
the first one before it is written. -/
theorem not_single_holder :
    (∃ s, LibRun.Run step always (start (some (some staleLock)) [])
      [.spawn 1, .spawn 2, .acquire 0 (options "a"), .acquire 1 (options "b"), .next 0, .next 0,
        .next 0, .next 1, .next 1, .next 1, .next 0, .next 0, .next 0, .next 1, .next 1,
        .next 1] s ∧
      (s.Holds 0 ∧ s.Holds 1 ∧ s.lost = [(1, 0)])) ∧
    ∃ s, LibRun.Run step always (start none [])
      [.spawn 1, .spawn 2, .acquire 0 (options "a"), .acquire 1 (options "b"), .next 0, .next 1,
        .next 1, .next 1, .next 0, .next 1, .next 1] s ∧
      (s.Holds 0 ∧ s.Holds 1 ∧ s.lost = [(1, 0)]) :=
  ⟨exists_run (by decide +kernel) (legal_always _ _),
    exists_run (by decide +kernel) (legal_always _ _)⟩

end ServerLock

end NoriCode
