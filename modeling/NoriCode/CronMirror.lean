/-
**The tasks in memory and the files of them agree.**

What is waiting to be done with a file makes it hold the task there should be, if any.  So once
nothing waits, the files are right.  The tasks in memory are right from the end of a load on, as
long as the load has read what there should be: it replaces the tasks in memory by what it has read,
so a change that is made behind its back is lost or undone.

Main definitions:

* `CronManager.Undisturbed` — the condition on a step: no change is made behind the back of
  a load;
* `CronManager.Mirrors` — the invariant.

Main results:

* `cron_files_mirror` — **memory and files agree** in every run of undisturbed steps.
-/

import NoriCode.CronManager

namespace NoriCode

open LibOrdMap List Option OrdMap

namespace CronManager

/-! ### Undisturbed loads -/

/-- A load is still going to read the file with this id, or there is no load that has begun to. -/
def stillToRead (s : CronManager) (id : String) : Bool :=
  match s.loading with
  | some (.reading entries _) => entries.contains id
  | _ => true

/-- **No change behind the back of a load.**  When the directory is listed, no file is still to be
written for the first time; when a file is read, no work on it waits; and no task is added, removed
or fired whose file will not be read any more.  A new id is not the one of a file that was not
loaded. -/
def Undisturbed (s : CronManager) : CronStep → Prop
  | .add _ candidates _ => ∀ id ∈ s.store.generateUniqueId candidates,
      s.expected.get id = none ∧ s.stillToRead id = true
  | .remove ids => ∀ id ∈ ids, (s.store.get id).isSome = true → s.stillToRead id = true
  | .advance id _ => (s.store.get id).isSome = true → s.stillToRead id = true
  | .readdir _ => ∀ id ∈ s.persistQueues.keys, id ∈ s.files.keys
  | .read =>
    match s.loading with
    | some (.reading (id :: _) _) => s.queue id = []
    | _ => True
  | _ => True

/-! ### The invariant -/

/-- What a file holds when the work on it has been done. -/
def after (works : List PersistWork) (file : Option CronTask) : Option CronTask :=
  works.foldl (fun _ work => work.result) file

@[simp] theorem after_append_singleton (works : List PersistWork) (work : PersistWork)
    (file : Option CronTask) : after (works ++ [work]) file = work.result := by
  simp [after]

/-- What a load has read. -/
def adopted (tasks : List CronTask) : SessionCronStore := tasks.foldl SessionCronStore.adopt .empty

/-- What a load has read is right, but for the files it has still to read. -/
structure Reads (s : CronManager) (entries : List String) (out : List CronTask) : Prop where
  nodup : entries.Nodup
  unread : ∀ id ∈ entries, (adopted out).get id = none
  settled : ∀ id, id ∉ entries → s.queue id = []
  read : ∀ id, id ∉ entries → (adopted out).get id = s.expected.get id

/-- **The invariant.** -/
structure Mirrors (s : CronManager) : Prop where
  /-- The work on a file makes it hold what there should be. -/
  settles : ∀ id, after (s.queue id) (s.files.get id) = s.expected.get id
  waiting : ∀ id works, s.persistQueues.get id = some works → works ≠ []
  fileIds : ∀ id task, s.files.get id = some task → task.id = id
  workIds : ∀ id task, .write task ∈ s.queue id → task.id = id
  storeIds : ∀ id task, s.store.get id = some task → task.id = id
  known : ∀ id task, s.store.get id = some task → s.expected.get id = some task
  complete : s.loaded = true → ∀ id, s.store.get id = s.expected.get id
  reads : ∀ entries out, s.loading = some (.reading entries out) → Reads s entries out

@[simp] theorem queue_persistEnqueue (s : CronManager) (id j : String) (work : PersistWork) :
    (s.persistEnqueue id work).queue j = if j = id then s.queue id ++ [work] else s.queue j := by
  simp only [queue, persistEnqueue, get_set]
  split_ifs <;> rfl

theorem Mirrors.opened {files : OrdMap String CronTask}
    (hids : ∀ id task, files.get id = some task → task.id = id) : Mirrors (opened files) := by
  refine ⟨fun id => rfl, ?_, hids, ?_, ?_, ?_, fun hloaded id => ?_, ?_⟩
  · intro id works h
    cases h
  · intro id task h
    cases h
  · intro id task h
    cases h
  · intro id task h
    cases h
  · -- there was nothing to load
    have hnil : files.entries = [] := List.isEmpty_iff.1 hloaded
    symm
    change files.get id = none
    rw [OrdMap.get_eq_none, OrdMap.keys, hnil]
    simp
  · intro entries out h
    cases h

namespace Mirrors

variable {s t : CronManager}

variable {id : String}

theorem queue_eq_nil (h : Mirrors s) : s.queue id = [] ↔ id ∉ s.persistQueues.keys := by
  rw [← get_eq_none]
  unfold queue
  cases hqueue : s.persistQueues.get id with
  | none => simp
  | some works => simpa using h.waiting id works hqueue

/-! ### Changes -/

/-- **A change of one task**: it is made in memory and is written, or deleted, later. -/
theorem change (h : Mirrors s) (work : PersistWork) (store : SessionCronStore)
    (expected : OrdMap String CronTask) (hstore : ∀ j, store.get j =
      if j = id then work.result else s.store.get j)
    (hexpected : ∀ j, expected.get j = if j = id then work.result else s.expected.get j)
    (hids : ∀ task, work = .write task → task.id = id) (hread : s.stillToRead id = true) :
    Mirrors { s.persistEnqueue id work with store, expected } := by
  have hresult : ∀ task, work.result = some task → task.id = id := by
    intro task htask
    cases work with
    | write written => exact hids task (congrArg PersistWork.write (some.inj htask))
    | remove => cases htask
  refine ⟨fun j => ?_, fun j works hworks => ?_, h.fileIds, fun j task htask => ?_,
    fun j task htask => ?_, fun j task htask => ?_, fun hloaded j => ?_,
    fun entries out hloading => ?_⟩
  · change after ((s.persistEnqueue id work).queue j) (s.files.get j) = expected.get j
    rw [queue_persistEnqueue, hexpected]
    split_ifs
    · exact after_append_singleton _ _ _
    · exact h.settles j
  · change (s.persistQueues.set id _).get j = some works at hworks
    rw [get_set] at hworks
    split_ifs at hworks
    · cases hworks
      simp
    · exact h.waiting j works hworks
  · change PersistWork.write task ∈ (s.persistEnqueue id work).queue j at htask
    rw [queue_persistEnqueue] at htask
    split_ifs at htask with hj
    · rcases mem_append.1 htask with hold | hnew
      · rw [hj]
        exact h.workIds id task hold
      · rw [hj]
        exact hids task (mem_singleton.1 hnew).symm
    · exact h.workIds j task htask
  · change store.get j = some task at htask
    rw [hstore] at htask
    split_ifs at htask with hj
    · rw [hj]
      exact hresult task htask
    · exact h.storeIds j task htask
  · change store.get j = some task at htask
    rw [hstore] at htask
    rw [hexpected]
    split_ifs at htask ⊢
    · exact htask
    · exact h.known j task htask
  · change store.get j = expected.get j
    rw [hstore, hexpected]
    split_ifs
    · rfl
    · exact h.complete hloaded j
  · have hreads := h.reads entries out hloading
    have hid : id ∈ entries := by
      change s.loading = _ at hloading
      simpa [stillToRead, hloading] using hread
    -- the load still has to read the file of the task
    refine ⟨hreads.nodup, hreads.unread, fun j hj => ?_, fun j hj => ?_⟩
    · change (s.persistEnqueue id work).queue j = []
      rw [queue_persistEnqueue, if_neg (ne_of_mem_of_not_mem hid hj).symm]
      exact hreads.settled j hj
    · change (adopted out).get j = expected.get j
      rw [hexpected, if_neg (ne_of_mem_of_not_mem hid hj).symm]
      exact hreads.read j hj

theorem add (h : Mirrors s) {init : SessionCronTaskInit} {candidates : List String} {nowMs : ℤ}
    (hok : Undisturbed s (.add init candidates nowMs))
    (ht : s.addTask init candidates nowMs = some t) : Mirrors t := by
  obtain ⟨id, hid, rfl⟩ := map_eq_some_iff.1 ht
  refine h.change (.write (SessionCronStore.newTask init id nowMs)) _ _ (fun j => ?_) (fun j => ?_)
    (fun task htask => ?_) (hok id hid).2
  · rw [get_set]
    rfl
  · rw [get_set]
    rfl
  · cases htask
    rfl

theorem advance (h : Mirrors s) {lastFiredAt : ℤ} (hok : Undisturbed s (.advance id lastFiredAt)) :
    Mirrors (s.advanceCursor id lastFiredAt) := by
  unfold advanceCursor SessionCronStore.markFired
  cases htask : s.store.get id with
  | none => exact h
  | some existing =>
    refine h.change (.write { existing with lastFiredAt := some lastFiredAt }) _ _ (fun j => ?_)
      (fun j => ?_) (fun task hwork => ?_) (hok (by rw [htask]; rfl))
    · rw [get_set]
      rfl
    · rw [get_set]
      rfl
    · cases hwork
      exact h.storeIds id existing htask

theorem removeTask (h : Mirrors s) (hread : s.stillToRead id = true) :
    Mirrors { s.removed id with store := s.store.erase id } := by
  refine h.change .remove (s.store.erase id) (s.expected.erase id) (fun j => ?_) (fun j => ?_)
    (fun task hwork => ?_) hread
  · rw [get_erase]
    rfl
  · rw [get_erase]
    rfl
  · cases hwork

theorem removeTasks_cons (s : CronManager) (id : String) (ids : List String) :
    s.removeTasks (id :: ids) =
      if (s.store.get id).isSome then
        { s.removed id with store := s.store.erase id }.removeTasks ids
      else s.removeTasks ids := by
  simp only [removeTasks, SessionCronStore.remove]
  split_ifs <;> rfl

theorem remove (h : Mirrors s) {ids : List String} (hok : Undisturbed s (.remove ids)) :
    Mirrors (s.removeTasks ids) := by
  induction ids generalizing s with
  | nil => exact h
  | cons id ids ih =>
    rw [removeTasks_cons]
    split_ifs with hid
    · refine ih (h.removeTask (hok id (.head _) hid)) fun j hj hstored => ?_
      refine hok j (mem_cons_of_mem id hj) ?_
      rw [get_erase] at hstored
      split_ifs at hstored
      · cases hstored
      · exact hstored
    · exact ih h fun j hj => hok j (mem_cons_of_mem id hj)

/-! ### Files -/

theorem persist (h : Mirrors s) (ht : s.persist id = some t) : Mirrors t := by
  unfold CronManager.persist at ht
  cases hqueue : s.queue id with
  | nil => simp [hqueue] at ht
  | cons work rest =>
    simp only [hqueue, some.injEq] at ht
    have hfiles : ∀ j, t.files.get j = if j = id then work.result else s.files.get j := by
      intro j
      rw [← ht]
      cases work with
      | write task => exact get_set _ _ _ _
      | remove => exact get_erase _ _ _
    have hrest : ∀ j, t.queue j = if j = id then rest else s.queue j := by
      intro j
      rw [← ht]
      simp only [queue]
      split_ifs with hnil hj hj
      · simp [get_erase, hj, List.isEmpty_iff.1 hnil]
      · simp [get_erase, hj]
      · simp [get_set, hj]
      · simp [get_set, hj]
    have hframe : t.store = s.store ∧ t.expected = s.expected ∧ t.loaded = s.loaded ∧
        t.loading = s.loading := by
      rw [← ht]
      exact ⟨rfl, rfl, rfl, rfl⟩
    obtain ⟨hstore, hexpected, hloaded, hloading⟩ := hframe
    refine ⟨fun j => ?_, fun j works hworks => ?_, fun j task htask => ?_, fun j task htask => ?_,
      hstore ▸ h.storeIds, hstore ▸ hexpected ▸ h.known, ?_, ?_⟩
    · rw [hfiles, hrest, hexpected]
      split_ifs with hj
      · rw [hj, ← h.settles id, hqueue]
        rfl
      · exact h.settles j
    · rw [← ht] at hworks
      split_ifs at hworks with hnil
      · rw [get_erase] at hworks
        split_ifs at hworks
        exact h.waiting j works hworks
      · rw [get_set] at hworks
        split_ifs at hworks
        · cases hworks
          simpa using hnil
        · exact h.waiting j works hworks
    · rw [hfiles] at htask
      split_ifs at htask with hj
      · refine hj ▸ h.workIds id task ?_
        rw [hqueue]
        cases work with
        | write written =>
          cases htask
          exact (.head _)
        | remove => cases htask
      · exact h.fileIds j task htask
    · rw [hrest] at htask
      split_ifs at htask with hj
      · refine hj ▸ h.workIds id task ?_
        rw [hqueue]
        exact mem_cons_of_mem work htask
      · exact h.workIds j task htask
    · rw [hstore, hexpected, hloaded]
      exact h.complete
    · intro entries out hreading
      rw [hloading] at hreading
      have hreads := h.reads entries out hreading
      refine ⟨hreads.nodup, hreads.unread, fun j hj => ?_, fun j hj => ?_⟩
      · have hnil := hreads.settled j hj
        rw [hrest]
        split_ifs with hid
        · rw [← hid, hnil] at hqueue
          cases hqueue
        · exact hnil
      · rw [hexpected]
        exact hreads.read j hj

/-! ### Loads -/

theorem loads (h : Mirrors s) {loading : Option CronLoad}
    (hreads : ∀ entries out, loading = some (.reading entries out) → Reads s entries out) :
    Mirrors { s with loading } :=
  ⟨h.settles, h.waiting, h.fileIds, h.workIds, h.storeIds, h.known, h.complete,
    fun entries out hloading =>
      have hs := hreads entries out hloading
      ⟨hs.nodup, hs.unread, hs.settled, hs.read⟩⟩

theorem readdir (h : Mirrors s) {entries : List String} (hok : Undisturbed s (.readdir entries))
    (ht : s.step (.readdir entries) = some t) : Mirrors t := by
  simp only [CronManager.step] at ht
  split_ifs at ht with hopening
  cases ht
  refine h.loads fun entries' out hloading => ?_
  obtain ⟨rfl, rfl⟩ := hloading
  have hfiles : ∀ id, id ∉ entries → s.files.get id = none := fun id hid =>
    get_eq_none.2 fun hmem => hid (hopening.2.symm.subset hmem)
  have hqueue : ∀ id, id ∉ entries → s.queue id = [] := fun id hid =>
    h.queue_eq_nil.2 fun hmem => hid (hopening.2.symm.subset (hok id hmem))
  refine ⟨hopening.2.symm.nodup s.files.nodup, fun id _ => rfl, hqueue, fun id hid => ?_⟩
  rw [← h.settles id, hqueue id hid, hfiles id hid]
  rfl

theorem read (h : Mirrors s) (hok : Undisturbed s .read) (ht : s.readEntry = some t) :
    Mirrors t := by
  unfold readEntry at ht
  split at ht <;> cases ht
  rename_i id entries out hloading
  have hreads := h.reads _ _ hloading
  have hid : id ∉ entries := (nodup_cons.1 hreads.nodup).1
  have hnil : s.queue id = [] := by
    simpa only [Undisturbed, hloading] using hok
  have hfile : s.files.get id = s.expected.get id := by
    rw [← h.settles id, hnil]
    rfl
  have hadopted : ∀ j, (adopted (out ++ (s.files.get id).toList)).get j =
      if j = id then s.expected.get id else (adopted out).get j := by
    intro j
    cases htask : s.files.get id with
    | none =>
      rw [toList_none, append_nil, ← hfile, htask]
      split_ifs with hj
      · rw [hj]
        exact hreads.unread id (.head _)
      · rfl
    | some task =>
      have htaskId := h.fileIds id task htask
      simp [adopted, SessionCronStore.adopt, get_set, htaskId, ← hfile, htask]
  refine h.loads fun entries' out' hloading' => ?_
  obtain ⟨rfl, rfl⟩ := hloading'
  refine ⟨(nodup_cons.1 hreads.nodup).2, fun j hj => ?_, fun j hj => ?_, fun j hj => ?_⟩
  · rw [hadopted, if_neg (ne_of_mem_of_not_mem hj hid)]
    exact hreads.unread j (mem_cons_of_mem id hj)
  · by_cases hjid : j = id
    · rw [hjid]
      exact hnil
    · exact hreads.settled j (not_mem_cons_of_ne_of_not_mem hjid hj)
  · rw [hadopted]
    split_ifs with hjid
    · rw [hjid]
    · exact hreads.read j (not_mem_cons_of_ne_of_not_mem hjid hj)

/-- **The store is filled** with what was read. -/
theorem finishLoad (h : Mirrors s) (ht : s.finishLoad = some t) : Mirrors t := by
  unfold CronManager.finishLoad at ht
  split at ht <;> cases ht
  rename_i tasks hloading
  have hreads := h.reads _ _ hloading
  have hstore : ∀ id, (adopted tasks).get id = s.expected.get id :=
    fun id => hreads.read id not_mem_nil
  refine ⟨h.settles, h.waiting, h.fileIds, h.workIds, fun id task htask => ?_,
    fun id task htask => ?_, fun _ => hstore, fun entries out hfalse => ?_⟩
  · change (adopted tasks).get id = some task at htask
    rw [hstore, ← h.settles id, hreads.settled id not_mem_nil] at htask
    exact h.fileIds id task htask
  · rw [← htask]
    exact (hstore id).symm
  · cases hfalse

/-- **Every undisturbed step** keeps the invariant. -/
theorem step (h : Mirrors s) {a : CronStep} (hok : Undisturbed s a) (ht : s.step a = some t) :
    Mirrors t := by
  cases a with
  | add init candidates nowMs => exact h.add hok ht
  | remove ids =>
    cases ht
    exact h.remove hok
  | advance id lastFiredAt =>
    cases ht
    exact h.advance hok
  | persist id => exact h.persist ht
  | loadFromDisk =>
    simp only [CronManager.step] at ht
    split_ifs at ht
    cases ht
    refine h.loads fun entries out hloading => ?_
    cases hloading
  | readdir entries => exact h.readdir hok ht
  | read => exact h.read hok ht
  | finishLoad => exact h.finishLoad ht
  | restart =>
    cases ht
    exact Mirrors.opened h.fileIds

theorem files_eq (h : Mirrors s) (hsettled : s.settled = true) (id : String) :
    s.files.get id = s.expected.get id := by
  have hnone : s.persistQueues.keys = [] := by
    rw [settled, Bool.and_eq_true, List.isEmpty_iff] at hsettled
    rw [OrdMap.keys, hsettled.1]
    rfl
  have hnil : s.queue id = [] := h.queue_eq_nil.2 (by simp [hnone])
  rw [← h.settles id, hnil]
  rfl

end Mirrors

end CronManager

/-! ### The tasks of a session -/

/-- **Memory and files agree**, while no change is made behind the back of a load.  The tasks in
memory are tasks there should be, and all of them once they have been loaded, each with its last
occurrence.  When nothing is being written or read, the files hold the tasks there should be, and so
the same ones as the memory once they have been loaded. -/
theorem cron_files_mirror {s : CronManager} {steps : List CronStep}
    (h : LibRun.Run CronManager.step CronManager.Undisturbed (.opened .empty) steps s) :
    (∀ id task, s.store.get id = some task → s.expected.get id = some task) ∧
      (s.loaded = true → ∀ id, s.store.get id = s.expected.get id) ∧
      (s.settled = true → ∀ id, s.files.get id = s.expected.get id) ∧
      (s.settled = true → s.loaded = true → ∀ id, s.store.get id = s.files.get id) := by
  have hmirrors : CronManager.Mirrors s :=
    h.invariant (CronManager.Mirrors.opened fun id task htask => by cases htask)
      fun _ _ _ ht hok hu => ht.step hok hu
  refine ⟨hmirrors.known, hmirrors.complete, hmirrors.files_eq, fun hsettled hloaded id => ?_⟩
  rw [hmirrors.files_eq hsettled id, hmirrors.complete hloaded id]

/-! ### Examples -/

instance CronManager.Undisturbed.decidable (s : CronManager) (a : CronStep) :
    Decidable (CronManager.Undisturbed s a) :=
  match a with
  | .add _ candidates _ =>
    match h : s.store.generateUniqueId candidates with
    | none => isTrue fun id hid => by simp [h] at hid
    | some id => decidable_of_iff (s.expected.get id = none ∧ s.stillToRead id = true)
        (by simp [CronManager.Undisturbed, h])
  | .remove ids => inferInstanceAs
      (Decidable (∀ id ∈ ids, (s.store.get id).isSome = true → s.stillToRead id = true))
  | .advance id _ => inferInstanceAs
      (Decidable ((s.store.get id).isSome = true → s.stillToRead id = true))
  | .readdir _ => inferInstanceAs
      (Decidable (∀ id ∈ s.persistQueues.keys, id ∈ s.files.keys))
  | .read =>
    match h : s.loading with
    | some (.reading (id :: _) _) => decidable_of_iff (s.queue id = [])
        (by simp [CronManager.Undisturbed, h])
    | none => isTrue (by simp [CronManager.Undisturbed, h])
    | some .opening => isTrue (by simp [CronManager.Undisturbed, h])
    | some (.reading [] _) => isTrue (by simp [CronManager.Undisturbed, h])
  | .persist _ | .loadFromDisk | .finishLoad | .restart => inferInstanceAs (Decidable True)

/-- A reminder for every morning. -/
def standup : SessionCronTaskInit := ⟨"0 9 * * *", "stand-up", some true⟩

/-- Two reminders are written; after a restart, one of them fires and is removed during the load,
before its file is read. -/
def removeWhileLoading : List CronStep :=
  [.add standup ["0000000a"] 0, .add standup ["0000000a", "0000000b"] 5, .persist "0000000b",
    .persist "0000000a", .restart, .loadFromDisk, .readdir ["0000000a", "0000000b"], .read, .read,
    .finishLoad, .advance "0000000a" 7, .loadFromDisk, .readdir ["0000000b", "0000000a"], .read,
    .remove ["0000000a"], .persist "0000000a", .persist "0000000a", .read, .finishLoad]

theorem cron_files_mirror_removeWhileLoading : ∃ s : CronManager,
    s.settled = true ∧ s.loaded = true ∧ s.store.keys = ["0000000b"] ∧
      ∀ id, s.store.get id = s.files.get id := by
  have hrun : ∃ s, LibRun.Run CronManager.step CronManager.Undisturbed (.opened .empty)
      removeWhileLoading s ∧ s.settled = true ∧ s.loaded = true ∧ s.store.keys = ["0000000b"] :=
    ⟨_, LibRun.run_of_exec rfl (by decide +kernel), by decide +kernel, by decide +kernel,
      by decide +kernel⟩
  obtain ⟨s, hs, hsettled, hloaded, hkeys⟩ := hrun
  exact ⟨s, hsettled, hloaded, hkeys, (cron_files_mirror hs).2.2.2 hsettled hloaded⟩

/-- **A task that is added during a load is lost**: it is written after the directory has been
listed, so its file is there, and the task is not. -/
theorem added_while_loading_lost : ∃ s : CronManager,
    LibRun.Run CronManager.step LibRun.always (.opened .empty)
        [.loadFromDisk, .readdir [], .add standup ["0000000a"] 0, .finishLoad,
          .persist "0000000a"] s ∧
      s.settled = true ∧ s.loaded = true ∧ s.store.get "0000000a" = none ∧
        s.files.get "0000000a" = some (SessionCronStore.newTask standup "0000000a" 0) :=
  ⟨_, LibRun.run_of_exec rfl (LibRun.legal_always _ _), by decide +kernel, by decide +kernel,
    by decide +kernel, by decide +kernel⟩

end NoriCode
