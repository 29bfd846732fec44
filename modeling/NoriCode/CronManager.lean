/-
**The cron tasks of a session and their files.**

The tasks are kept in memory, in the order in which they were added, and every change is mirrored to
a file per task.  The changes of one file are done one after the other, at any time later; those of
different files in any order.  After a restart the files are listed and read one by one, and then
the tasks in memory are replaced by what was read.  Tasks may be added, removed and fired meanwhile.

The module embeds `tools/cron/session-store.ts` and, of `agent/cron/manager.ts`, the changes and
`loadFromDisk`, which is cut at the points where it waits.  The files are those of
`utils/per-id-json-store.ts`: a file holds a task, and is written and deleted as a whole.  A manager
without a directory, and files that do not hold a task, are left out.

Main definitions:

* `SessionCronStore` — the tasks in memory;
* `CronManager` — the state;
* `CronManager.step` — one step.
-/

import NoriCode.LibOrdMap
import NoriCode.LibRun
import Mathlib.Data.Int.Notation

namespace NoriCode

open LibOrdMap

/-! ### The tasks in memory -/

structure CronTask where
  id : String
  cron : String
  prompt : String
  createdAt : ℤ
  recurring : Option Bool := none
  lastFiredAt : Option ℤ := none
  deriving DecidableEq

/-- What is supplied for a new task. -/
structure SessionCronTaskInit where
  cron : String
  prompt : String
  recurring : Option Bool := none

abbrev SessionCronStore := OrdMap String CronTask

namespace SessionCronStore

/-- Eight lower-case hexadecimal digits. -/
def ID_REGEX (id : String) : Bool :=
  id.toList.length == 8 && id.toList.all fun c => c.isDigit || ('a' ≤ c && c ≤ 'f')

def MAX_ID_ATTEMPTS : ℕ := 8

/-- The first of the random candidates that is not in use. -/
def generateUniqueId (store : SessionCronStore) (candidates : List String) : Option String :=
  (candidates.take MAX_ID_ATTEMPTS).find? fun candidate =>
    ID_REGEX candidate && (store.get candidate).isNone

/-- The task that is added. -/
def newTask (init : SessionCronTaskInit) (id : String) (nowMs : ℤ) : CronTask where
  id := id
  cron := init.cron
  prompt := init.prompt
  createdAt := nowMs
  recurring := init.recurring

def adopt (store : SessionCronStore) (task : CronTask) : SessionCronStore := store.set task.id task

def markFired (store : SessionCronStore) (id : String) (lastFiredAt : ℤ) : Option CronTask :=
  (store.get id).map fun existing => { existing with lastFiredAt := some lastFiredAt }

/-- The ids among these that are there, each at its first place. -/
def remove (store : SessionCronStore) : List String → SessionCronStore × List String
  | [] => (store, [])
  | id :: ids =>
    if (store.get id).isSome then
      let (store, removed) := remove (store.erase id) ids
      (store, id :: removed)
    else remove store ids

end SessionCronStore

/-! ### State -/

/-- What is to be done with a file. -/
inductive PersistWork where
  | write (task : CronTask)
  | remove

/-- What the file holds then. -/
def PersistWork.result : PersistWork → Option CronTask
  | .write task => some task
  | .remove => none

/-- What `loadFromDisk` waits for: the names of the files, or the next file. -/
inductive CronLoad where
  | opening
  | reading (entries : List String) (out : List CronTask)
  deriving DecidableEq

structure CronManager where
  store : SessionCronStore := .empty
  /-- The work on the files, by id; an id without work has no queue. -/
  persistQueues : OrdMap String (List PersistWork) := .empty
  files : OrdMap String CronTask := .empty
  loading : Option CronLoad := none
  /-- A load has ended, or there was nothing to load. -/
  loaded : Bool
  /-- The tasks there should be: those that were there, were added and have not been removed. -/
  expected : OrdMap String CronTask

namespace CronManager

/-- A process starts, on the files that are there. -/
def opened (files : OrdMap String CronTask) : CronManager where
  files := files
  loaded := files.entries.isEmpty
  expected := files

/-- The work that is still to be done on a file. -/
def queue (s : CronManager) (id : String) : List PersistWork := (s.persistQueues.get id).getD []

/-- Nothing is being written, deleted or read. -/
def settled (s : CronManager) : Bool := s.persistQueues.entries.isEmpty && s.loading.isNone

/-! ### Changes -/

def persistEnqueue (s : CronManager) (id : String) (work : PersistWork) : CronManager :=
  { s with persistQueues := s.persistQueues.set id (s.queue id ++ [work]) }

/-- **`addTask`**, with the random candidates for its id. -/
def addTask (s : CronManager) (init : SessionCronTaskInit) (candidates : List String)
    (nowMs : ℤ) : Option CronManager :=
  (s.store.generateUniqueId candidates).map fun id =>
    let task := SessionCronStore.newTask init id nowMs
    { s.persistEnqueue id (.write task) with
      store := s.store.set id task
      expected := s.expected.set id task }

/-- A task that was in the store is gone. -/
def removed (s : CronManager) (id : String) : CronManager :=
  { s.persistEnqueue id .remove with expected := s.expected.erase id }

/-- **`removeTasks`.** -/
def removeTasks (s : CronManager) (ids : List String) : CronManager :=
  let (store, gone) := s.store.remove ids
  gone.foldl removed { s with store }

/-- **`advanceCursor`.** -/
def advanceCursor (s : CronManager) (id : String) (lastFiredAt : ℤ) : CronManager :=
  match s.store.markFired id lastFiredAt with
  | none => s
  | some updated =>
    { s.persistEnqueue id (.write updated) with
      store := s.store.set id updated
      expected := s.expected.set id updated }

/-! ### Files -/

/-- The next work on a file is done. -/
def persist (s : CronManager) (id : String) : Option CronManager :=
  match s.queue id with
  | [] => none
  | work :: rest =>
    some { s with
      files := match work with
        | .write task => s.files.set id task
        | .remove => s.files.erase id
      persistQueues :=
        if rest.isEmpty then s.persistQueues.erase id else s.persistQueues.set id rest }

/-- The file of an entry is read; it may be gone. -/
def readEntry (s : CronManager) : Option CronManager :=
  match s.loading with
  | some (.reading (id :: entries) out) =>
    some { s with loading := some (.reading entries (out ++ (s.files.get id).toList)) }
  | _ => none

/-- `loadFromDisk`, when everything has been read: the store is cleared and filled again. -/
def finishLoad (s : CronManager) : Option CronManager :=
  match s.loading with
  | some (.reading [] tasks) =>
    some { s with
      store := tasks.foldl SessionCronStore.adopt .empty
      loading := none
      loaded := true }
  | _ => none

end CronManager

inductive CronStep where
  | add (init : SessionCronTaskInit) (candidates : List String) (nowMs : ℤ)
  | remove (ids : List String)
  | advance (id : String) (lastFiredAt : ℤ)
  | persist (id : String)
  | loadFromDisk
  /-- The directory is listed, in any order. -/
  | readdir (entries : List String)
  | read
  | finishLoad
  /-- The process ends, and a new one starts on the files. -/
  | restart

namespace CronManager

def step (s : CronManager) : CronStep → Option CronManager
  | .add init candidates nowMs => s.addTask init candidates nowMs
  | .remove ids => some (s.removeTasks ids)
  | .advance id lastFiredAt => some (s.advanceCursor id lastFiredAt)
  | .persist id => s.persist id
  | .loadFromDisk => if s.loading.isSome then none else some { s with loading := some .opening }
  | .readdir entries =>
    if s.loading = some .opening ∧ entries.Perm s.files.keys then
      some { s with loading := some (.reading entries []) }
    else none
  | .read => s.readEntry
  | .finishLoad => s.finishLoad
  | .restart => some (opened s.files)

end CronManager

end NoriCode
