/-
**The store of sessions and its index.**

A session has a directory, and a line in the index of the home directory.  Creating and forking
check that neither is there, make the directory and append the line; a fork that fails deletes the
directory it was making.  Deleting removes the directory, reads the index, writes what is left of
it to a temporary file and renames that.  Every file access is awaited, several services may share
the home directory, and nothing is locked.

The module embeds `session/store/session-index.ts` and `create`, `fork` and `delete` of
`session-store.ts`.  The index is the list of its lines that pass the checks of `readSessionIndex`;
the name of a session's directory is then the id of the session.  Work directories are normalized,
and the hash that names the bucket of a work directory is a parameter.

Main definitions:

* `readSessionIndex` — the index as a map, the last line of a session wins;
* `SessionStore`, with `step` — the files, and the operations under way;
* `SessionStore.ActsOnWhatItRead` — what an operation has checked still holds when it acts;
* `SessionStore.Consistent` — what exists is found, what is deleted is not.

Main results:

* `run_consistent` — **the index and the sessions agree**, in every such run.
-/

import NoriCode.LibOrdMap
import NoriCode.LibRun

namespace NoriCode

open LibOrdMap LibRun List Option Function

/-! ### The index -/

/-- A line of the index; the bucket is the directory of the work directory under `sessions`. -/
structure SessionIndexEntry where
  sessionId : String
  bucket : String
  workDir : String
  deriving DecidableEq

/-- The directory of a session. -/
def SessionIndexEntry.sessionDir (e : SessionIndexEntry) : String × String :=
  (e.bucket, e.sessionId)

/-- **`readSessionIndex`.** -/
def readSessionIndex (lines : List SessionIndexEntry) : OrdMap String SessionIndexEntry :=
  lines.foldl (fun m e => m.set e.sessionId e) .empty

/-- The lines that `removeSessionIndexEntry` writes. -/
def withoutSession (lines : List SessionIndexEntry) (sessionId : String) : List SessionIndexEntry :=
  ((readSessionIndex lines).erase sessionId).values

section

variable {lines : List SessionIndexEntry} {e : SessionIndexEntry} {id : String}

theorem readSessionIndex_append (lines : List SessionIndexEntry) (e : SessionIndexEntry) :
    readSessionIndex (lines ++ [e]) = (readSessionIndex lines).set e.sessionId e :=
  foldl_append

theorem sessionId_of_get (h : (readSessionIndex lines).get id = some e) : e.sessionId = id := by
  induction lines using reverseRecOn with
  | nil => cases h
  | append_singleton lines x ih =>
    rw [readSessionIndex_append, OrdMap.get_set] at h
    split_ifs at h with hid
    · rw [← some.inj h]
      exact hid.symm
    · exact ih h

theorem get_readSessionIndex_of_nodup (h : (lines.map (·.sessionId)).Nodup) :
    (readSessionIndex lines).get id = some e ↔ e ∈ lines ∧ e.sessionId = id := by
  induction lines using reverseRecOn with
  | nil => simp [readSessionIndex, OrdMap.get, OrdMap.empty]
  | append_singleton lines x ih =>
    rw [map_append, nodup_append] at h
    obtain ⟨hlines, -, hnew⟩ := h
    rw [readSessionIndex_append, OrdMap.get_set]
    split_ifs with hid
    · constructor
      · intro hx
        cases hx
        exact ⟨mem_append_right _ (mem_singleton_self _), hid.symm⟩
      · rintro ⟨he, hkey⟩
        rcases mem_append.1 he with he | he
        · exact absurd (hkey.trans hid) (hnew _ (mem_map_of_mem he) _ (mem_singleton_self _))
        · rw [mem_singleton.1 he]
    · rw [ih hlines, mem_append, mem_singleton]
      constructor
      · exact fun he => ⟨Or.inl he.1, he.2⟩
      · rintro ⟨he | rfl, hkey⟩
        · exact ⟨he, hkey⟩
        · exact absurd hkey.symm hid

theorem get_withoutSession (lines : List SessionIndexEntry) (sessionId id : String) :
    (readSessionIndex (withoutSession lines sessionId)).get id =
      if id = sessionId then none else (readSessionIndex lines).get id := by
  have hkeys : ∀ m : OrdMap String SessionIndexEntry, (∀ k e, m.get k = some e → e.sessionId = k) →
      m.values.map (·.sessionId) = m.keys := by
    intro m hm
    rw [OrdMap.values, OrdMap.keys, List.map_map]
    exact List.map_congr_left fun x hx => hm x.1 x.2 (OrdMap.get_eq_some.2 hx)
  have herased : ∀ k e, ((readSessionIndex lines).erase sessionId).get k = some e →
      e.sessionId = k := by
    intro k e he
    rw [OrdMap.get_erase] at he
    split_ifs at he
    exact sessionId_of_get he
  have hnodup : ((withoutSession lines sessionId).map (·.sessionId)).Nodup := by
    rw [withoutSession, hkeys _ herased]
    exact OrdMap.nodup _
  rw [← OrdMap.get_erase]
  ext e
  rw [get_readSessionIndex_of_nodup hnodup, withoutSession, OrdMap.mem_values]
  constructor
  · rintro ⟨⟨k, hk⟩, rfl⟩
    rwa [herased k e hk]
  · exact fun he => ⟨⟨id, he⟩, herased id e he⟩

end

/-! ### Operations -/

def isSafeSessionId (id : String) : Bool :=
  id.toList ≠ [] && id.toList.all (fun c => c.isAlphanum || c == '.' || c == '_' || c == '-')
    && id ≠ "." && id ≠ ".."

/-- Where an operation waits: for the file access it is named after.  `source` is the session a
fork copies; a create has none. -/
inductive SessionStorePhase where
  | idle
  | forkSource (sourceId targetId : String)
  | forkSourceDir (source : SessionIndexEntry) (targetId : String)
  | targetRead (source : Option SessionIndexEntry) (entry : SessionIndexEntry)
  | targetCheck (source : Option SessionIndexEntry) (entry : SessionIndexEntry)
  | targetMake (source : Option SessionIndexEntry) (entry : SessionIndexEntry)
  | targetPrepare (entry : SessionIndexEntry)
  | targetAppend (forked : Bool) (entry : SessionIndexEntry)
  /-- The `rm` of a fork that has failed, and whether its copy had made the directory. -/
  | cleanup (entry : SessionIndexEntry) (made : Bool)
  | deleteRead (id : String)
  | deleteCheck (entry : SessionIndexEntry)
  | deleteRemove (entry : SessionIndexEntry)
  | removeRead (entry : SessionIndexEntry)
  | removeWrite (entry : SessionIndexEntry) (lines : List SessionIndexEntry)
  | removeRename (entry : SessionIndexEntry) (lines : List SessionIndexEntry) (stamp : ℕ)
  | settled
  deriving DecidableEq

inductive SessionStoreEvent where
  | create (k : ℕ) (id workDir : String)
  | fork (k : ℕ) (sourceId targetId : String)
  | delete (k : ℕ) (id : String)
  /-- The access an operation waits for succeeds.  The stamp is the process and the time that name
  a temporary file. -/
  | advance (k stamp : ℕ)
  /-- It fails; a copy may have made the directory. -/
  | fail (k : ℕ) (made : Bool)

/-- **The files of the home directory, and the operations under way.**  A directory knows the
operations that have put files into it.  The last three fields are no state of the code. -/
structure SessionStore where
  index : List SessionIndexEntry := []
  files : String × String → Option (List ℕ) := fun _ => none
  temporaries : ℕ → Option (List SessionIndexEntry) := fun _ => none
  phase : ℕ → SessionStorePhase := fun _ => .idle
  /-- The sessions that were created and whose deletion has not returned. -/
  created : List SessionIndexEntry := []
  /-- Those of them whose directory a delete has removed. -/
  removed : List SessionIndexEntry := []
  /-- The sessions that were deleted and not created again. -/
  deleted : List String := []
  /-- A failed fork has removed files that another operation had made. -/
  harmed : Bool := false

namespace SessionStore

def setPhase (s : SessionStore) (k : ℕ) (phase : SessionStorePhase) : SessionStore :=
  { s with phase := update s.phase k phase }

def findSessionEntry (s : SessionStore) (id : String) : Option SessionIndexEntry :=
  if isSafeSessionId id then (readSessionIndex s.index).get id else none

def isDirectory (s : SessionStore) (dir : String × String) : Bool := (s.files dir).isSome

/-- An operation puts files into the directory of a session, which is made if it is not there. -/
def make (s : SessionStore) (k : ℕ) (e : SessionIndexEntry) : SessionStore :=
  { s with files :=
      update s.files e.sessionDir (some ((s.files e.sessionDir).getD [] ++ [k])) }

/-- `appendSessionIndexEntry`, which makes the session exist. -/
def appendSessionIndexEntry (s : SessionStore) (e : SessionIndexEntry) : SessionStore :=
  { s with
    index := s.index ++ [e]
    created := s.created ++ [e]
    removed := s.removed.filter (· ≠ e)
    deleted := s.deleted.filter (· ≠ e.sessionId) }

/-- The `rm` of a fork that has failed. -/
def clean (s : SessionStore) (k : ℕ) (e : SessionIndexEntry) : SessionStore :=
  { s with
    files := update s.files e.sessionDir none
    harmed := s.harmed || (s.files e.sessionDir).any fun writers => writers.any (· ≠ k) }

/-- The `rm` of a delete. -/
def removeDir (s : SessionStore) (e : SessionIndexEntry) : SessionStore :=
  { s with
    files := update s.files e.sessionDir none
    removed := s.removed ++ [e] }

/-- The `rename` that ends a delete. -/
def replaceIndex (s : SessionStore) (e : SessionIndexEntry) (stamp : ℕ)
    (content : List SessionIndexEntry) : SessionStore :=
  { s with
    index := content
    temporaries := update s.temporaries stamp none
    created := s.created.filter (·.sessionId ≠ e.sessionId)
    deleted := e.sessionId :: s.deleted }

section

variable (encodeWorkDirKey : String → String)

/-- The line of a session that is to be created. -/
def entryFor (id workDir : String) : SessionIndexEntry :=
  ⟨id, encodeWorkDirKey workDir, workDir⟩

/-- The access that operation `k` waits for succeeds. -/
def advance (s : SessionStore) (k stamp : ℕ) : Option SessionStore :=
  match s.phase k with
  | .idle => none
  | .settled => none
  | .forkSource sourceId targetId =>
    match s.findSessionEntry sourceId with
    | some source => some (s.setPhase k (.forkSourceDir source targetId))
    | none => some (s.setPhase k .settled)
  | .forkSourceDir source targetId =>
    if s.isDirectory source.sessionDir && isSafeSessionId targetId then
      some (s.setPhase k
        (.targetRead (some source) (entryFor encodeWorkDirKey targetId source.workDir)))
    else some (s.setPhase k .settled)
  | .targetRead source e =>
    if (s.findSessionEntry e.sessionId).isSome then some (s.setPhase k .settled)
    else some (s.setPhase k (.targetCheck source e))
  | .targetCheck source e =>
    if s.isDirectory e.sessionDir then some (s.setPhase k .settled)
    else some (s.setPhase k (.targetMake source e))
  | .targetMake none e => some ((s.make k e).setPhase k (.targetAppend false e))
  | .targetMake (some source) e =>
    if s.isDirectory source.sessionDir then some ((s.make k e).setPhase k (.targetPrepare e))
    else none
  | .targetPrepare e => some (s.setPhase k (.targetAppend true e))
  | .targetAppend _ e => some ((s.appendSessionIndexEntry e).setPhase k .settled)
  | .cleanup e _ => some ((s.clean k e).setPhase k .settled)
  | .deleteRead id =>
    match s.findSessionEntry id with
    | some e => some (s.setPhase k (.deleteCheck e))
    | none => some (s.setPhase k .settled)
  | .deleteCheck e =>
    if s.isDirectory e.sessionDir then some (s.setPhase k (.deleteRemove e))
    else some (s.setPhase k .settled)
  | .deleteRemove e =>
    if s.isDirectory e.sessionDir then some ((s.removeDir e).setPhase k (.removeRead e))
    else none
  | .removeRead e => some (s.setPhase k (.removeWrite e s.index))
  | .removeWrite e lines =>
    some ({ s with
      temporaries := update s.temporaries stamp
        (some (withoutSession lines e.sessionId)) }.setPhase k (.removeRename e lines stamp))
  | .removeRename e _ stamp =>
    (s.temporaries stamp).map fun content =>
      (s.replaceIndex e stamp content).setPhase k .settled

/-- The access that operation `k` waits for fails. -/
def fail (s : SessionStore) (k : ℕ) (made : Bool) : Option SessionStore :=
  match s.phase k with
  | .idle => none
  | .settled => none
  -- an index that cannot be read is empty, and what cannot be looked at is no directory
  | .targetRead source e => some (s.setPhase k (.targetCheck source e))
  | .targetCheck source e => some (s.setPhase k (.targetMake source e))
  | .removeRead e => some (s.setPhase k (.removeWrite e []))
  | .targetMake (some _) e =>
    some ((if made then s.make k e else s).setPhase k (.cleanup e made))
  | .targetPrepare e => some (s.setPhase k (.cleanup e true))
  | .targetAppend true e => some (s.setPhase k (.cleanup e true))
  | _ => some (s.setPhase k .settled)

def step (s : SessionStore) : SessionStoreEvent → Option SessionStore
  | .create k id workDir =>
    if s.phase k = .idle then
      some (s.setPhase k (if isSafeSessionId id then
        .targetRead none (entryFor encodeWorkDirKey id workDir) else .settled))
    else none
  | .fork k sourceId targetId =>
    if s.phase k = .idle then some (s.setPhase k (.forkSource sourceId targetId)) else none
  | .delete k id =>
    if s.phase k = .idle then some (s.setPhase k (.deleteRead id)) else none
  | .advance k stamp => s.advance encodeWorkDirKey k stamp
  | .fail k made => s.fail k made

end

/-! ### The claim and the condition -/

/-- **What exists is found, what is deleted is not**: a session that was created is found until
its deletion returns, and has its directory until a delete removes it; a deleted session is not
found; no failed operation has removed files of another one. -/
structure Consistent (s : SessionStore) : Prop where
  found : ∀ e ∈ s.created, (readSessionIndex s.index).get e.sessionId = some e
  kept : ∀ e ∈ s.created, e ∉ s.removed → s.isDirectory e.sessionDir = true
  gone : ∀ id ∈ s.deleted, (readSessionIndex s.index).get id = none
  harmless : s.harmed = false

/-- What an operation has checked, or written, still holds when it acts on it. -/
def StillHolds (s : SessionStore) (k : ℕ) : Prop :=
  match s.phase k with
  -- neither the directory nor the line of the session is there
  | .targetMake _ e =>
    s.isDirectory e.sessionDir = false ∧ (readSessionIndex s.index).get e.sessionId = none
  | .targetAppend _ e => (readSessionIndex s.index).get e.sessionId = none
  -- a directory that the copy did not make is still not there
  | .cleanup e made => made = false → s.isDirectory e.sessionDir = false
  | .deleteRemove e => (readSessionIndex s.index).get e.sessionId = some e
  -- the index is the one that was read, and the temporary file the one that was written
  | .removeRename e lines stamp =>
    s.index = lines ∧ s.temporaries stamp = some (withoutSession lines e.sessionId)
  | _ => True

instance (s : SessionStore) (k : ℕ) : Decidable (s.StillHolds k) := by
  unfold StillHolds
  split <;> infer_instance

/-- The operation waits for the copy of a fork. -/
def copies (s : SessionStore) (k : ℕ) : Bool :=
  match s.phase k with
  | .targetMake (some _) _ => true
  | _ => false

/-- **The condition on a step**: the access acts on what still holds.  A failed access acts on
nothing, unless a copy has made the directory. -/
def ActsOnWhatItRead (s : SessionStore) : SessionStoreEvent → Prop
  | .advance k _ => s.StillHolds k
  | .fail k made => made = true → s.copies k = true → s.StillHolds k
  | _ => True

instance (s : SessionStore) (e : SessionStoreEvent) : Decidable (s.ActsOnWhatItRead e) := by
  cases e <;> unfold ActsOnWhatItRead <;> infer_instance

end SessionStore

/-! ### The invariant -/

/-- The session whose directory an operation has made, without a line in the index so far. -/
def SessionStorePhase.building : SessionStorePhase → Option SessionIndexEntry
  | .targetPrepare e => some e
  | .targetAppend _ e => some e
  | .cleanup e true => some e
  | _ => none

/-- The session whose directory an operation has removed, and not yet its line. -/
def SessionStorePhase.deleting : SessionStorePhase → Option SessionIndexEntry
  | .removeRead e => some e
  | .removeWrite e _ => some e
  | .removeRename e _ _ => some e
  | _ => none

namespace SessionStore

/-- **The invariant.** -/
structure Sound (s : SessionStore) : Prop extends Consistent s where
  /-- A directory that is being filled belongs to one operation, and to no line. -/
  built : ∀ k e, (s.phase k).building = some e →
    s.files e.sessionDir = some [k] ∧
      ∀ e', (readSessionIndex s.index).get e.sessionId = some e' → e'.sessionDir ≠ e.sessionDir
  /-- A session that is being deleted has its line, and no directory. -/
  deleting : ∀ k e, (s.phase k).deleting = some e →
    s.files e.sessionDir = none ∧ (readSessionIndex s.index).get e.sessionId = some e
  /-- One operation deletes a session. -/
  one : ∀ k k' e, (s.phase k).deleting = some e → (s.phase k').deleting = some e → k = k'

namespace Sound

variable {s t : SessionStore} {k : ℕ} {e : SessionIndexEntry} {phase : SessionStorePhase}

theorem setPhase_same : (s.setPhase k phase).phase k = phase := update_self _ _ _

theorem setPhase_other {k' : ℕ} (h : k' ≠ k) : (s.setPhase k phase).phase k' = s.phase k' :=
  update_of_ne h _ _

theorem initial : Sound {} where
  found := fun e he => by cases he
  kept := fun e he => by cases he
  gone := fun e he => by cases he
  harmless := rfl
  built := fun k e he => by cases he
  deleting := fun k e he => by cases he
  one := fun k k' e he => by cases he

/-- An operation goes on.  What it is building or deleting from now on has to be its own. -/
theorem setPhase (h : s.Sound)
    (hb : ∀ e, phase.building = some e → s.files e.sessionDir = some [k] ∧
      ∀ e', (readSessionIndex s.index).get e.sessionId = some e' → e'.sessionDir ≠ e.sessionDir)
    (hd : ∀ e, phase.deleting = some e →
      s.files e.sessionDir = none ∧ (readSessionIndex s.index).get e.sessionId = some e ∧
        ∀ k', (s.phase k').deleting = some e → k' = k) :
    (s.setPhase k phase).Sound where
  found := h.found
  kept := h.kept
  gone := h.gone
  harmless := h.harmless
  built := by
    intro k' e he
    by_cases hk : k' = k
    · subst hk
      rw [setPhase_same] at he
      exact hb e he
    · rw [setPhase_other hk] at he
      exact h.built k' e he
  deleting := by
    intro k' e he
    by_cases hk : k' = k
    · subst hk
      rw [setPhase_same] at he
      exact ⟨(hd e he).1, (hd e he).2.1⟩
    · rw [setPhase_other hk] at he
      exact h.deleting k' e he
  one := by
    intro k₁ k₂ e h₁ h₂
    by_cases hk₁ : k₁ = k
    · by_cases hk₂ : k₂ = k
      · rw [hk₁, hk₂]
      · rw [hk₁, setPhase_same] at h₁
        rw [setPhase_other hk₂] at h₂
        exact hk₁.trans ((hd e h₁).2.2 k₂ h₂).symm
    · by_cases hk₂ : k₂ = k
      · rw [hk₂, setPhase_same] at h₂
        rw [setPhase_other hk₁] at h₁
        exact ((hd e h₂).2.2 k₁ h₁).trans hk₂.symm
      · rw [setPhase_other hk₁] at h₁
        rw [setPhase_other hk₂] at h₂
        exact h.one k₁ k₂ e h₁ h₂

theorem goOn (h : s.Sound) (hb : ∀ e, phase.building = some e → (s.phase k).building = some e)
    (hd : ∀ e, phase.deleting = some e → (s.phase k).deleting = some e) :
    (s.setPhase k phase).Sound :=
  h.setPhase (fun e he => h.built k e (hb e he)) fun e he =>
    ⟨(h.deleting k e (hd e he)).1, (h.deleting k e (hd e he)).2,
      fun k' hk' => h.one k' k e hk' (hd e he)⟩

theorem rest (h : s.Sound) (hb : phase.building = none) (hd : phase.deleting = none) :
    (s.setPhase k phase).Sound :=
  h.goOn (fun e he => by rw [hb] at he; cases he) fun e he => by rw [hd] at he; cases he

theorem get_ne_of_sessionDir_ne {e e' : SessionIndexEntry}
    (h : ∀ x, (readSessionIndex s.index).get e.sessionId = some x → x.sessionDir ≠ e.sessionDir)
    (he' : (readSessionIndex s.index).get e'.sessionId = some e') :
    e'.sessionDir ≠ e.sessionDir := by
  intro hdir
  have hid : e'.sessionId = e.sessionId := congrArg Prod.snd hdir
  exact h e' (hid ▸ he') hdir

section

variable (h : s.Sound) (hdir : s.files e.sessionDir = none)
  (hline : (readSessionIndex s.index).get e.sessionId = none) (k : ℕ)

include h hdir hline

theorem make : (s.make k e).Sound := by
  have hnone : ∀ x, (readSessionIndex s.index).get e.sessionId = some x →
      x.sessionDir ≠ e.sessionDir := by
    intro x hx
    rw [hline] at hx
    cases hx
  have hother : ∀ {d}, d ≠ e.sessionDir → (s.make k e).files d = s.files d := fun hd =>
    update_of_ne hd _ _
  refine ⟨⟨h.found, fun e' he' hrem => ?_, h.gone, h.harmless⟩, fun k' e' he' => ?_,
    fun k' e' he' => ?_, h.one⟩
  · rw [isDirectory, hother (get_ne_of_sessionDir_ne hnone (h.found e' he'))]
    exact h.kept e' he' hrem
  · obtain ⟨hfiles, hlines⟩ := h.built k' e' he'
    refine ⟨?_, hlines⟩
    rw [hother, hfiles]
    intro hsame
    rw [hsame, hdir] at hfiles
    cases hfiles
  · obtain ⟨hfiles, hget⟩ := h.deleting k' e' he'
    refine ⟨?_, hget⟩
    rw [hother (get_ne_of_sessionDir_ne hnone hget), hfiles]

theorem makes (hb : phase.building = some e) (hd : phase.deleting = none) :
    ((s.make k e).setPhase k phase).Sound := by
  refine (h.make hdir hline k).setPhase (fun e' he' => ?_) fun e' he' => ?_
  · cases hb.symm.trans he'
    refine ⟨?_, fun x hx => ?_⟩
    · have hself : (s.make k e).files e.sessionDir =
          some ((s.files e.sessionDir).getD [] ++ [k]) := update_self _ _ _
      rw [hself, hdir]
      rfl
    · cases hline.symm.trans hx
  · rw [hd] at he'
    cases he'

end

theorem appendSessionIndexEntry (h : s.Sound)
    (hline : (readSessionIndex s.index).get e.sessionId = none)
    (hdir : s.isDirectory e.sessionDir = true)
    (hothers : ∀ k' e', (s.phase k').building = some e' → e'.sessionDir ≠ e.sessionDir) :
    (s.appendSessionIndexEntry e).Sound := by
  have hget : ∀ j, (readSessionIndex (s.appendSessionIndexEntry e).index).get j =
      if j = e.sessionId then some e else (readSessionIndex s.index).get j := by
    intro j
    rw [SessionStore.appendSessionIndexEntry, readSessionIndex_append, OrdMap.get_set]
  have hne : ∀ {e'}, (readSessionIndex s.index).get e'.sessionId = some e' →
      e'.sessionId ≠ e.sessionId := by
    intro e' he' hid
    rw [hid, hline] at he'
    cases he'
  refine ⟨⟨fun e' he' => ?_, fun e' he' hrem => ?_, fun id hid => ?_, h.harmless⟩,
    fun k' e' he' => ?_, fun k' e' he' => ?_, h.one⟩
  · rw [hget]
    rcases mem_append.1 he' with he' | he'
    · rw [if_neg (hne (h.found e' he'))]
      exact h.found e' he'
    · rw [mem_singleton.1 he', if_pos rfl]
  · rcases mem_append.1 he' with hold | hnew
    · have hdiff : e' ≠ e := fun heq => hne (h.found e' hold) (congrArg _ heq)
      exact h.kept e' hold fun hmem => hrem (List.mem_filter.2 ⟨hmem, decide_eq_true hdiff⟩)
    · rw [mem_singleton.1 hnew]
      exact hdir
  · obtain ⟨hmem, hid⟩ := List.mem_filter.1 hid
    rw [hget, if_neg (of_decide_eq_true hid)]
    exact h.gone id hmem
  · obtain ⟨hfiles, hlines⟩ := h.built k' e' he'
    refine ⟨hfiles, fun x hx => ?_⟩
    rw [hget] at hx
    split_ifs at hx with hid
    · rw [← some.inj hx]
      exact (hothers k' e' he').symm
    · exact hlines x hx
  · obtain ⟨hfiles, hline'⟩ := h.deleting k' e' he'
    refine ⟨hfiles, ?_⟩
    rw [hget, if_neg (hne hline')]
    exact hline'

theorem clean (h : s.Sound)
    (hline : ∀ x, (readSessionIndex s.index).get e.sessionId = some x → x.sessionDir ≠ e.sessionDir)
    (hothers : ∀ k' e', (s.phase k').building = some e' → e'.sessionDir ≠ e.sessionDir)
    (hown : s.files e.sessionDir = none ∨ s.files e.sessionDir = some [k]) :
    (s.clean k e).Sound := by
  have hother : ∀ {d}, d ≠ e.sessionDir → (s.clean k e).files d = s.files d := fun hd =>
    update_of_ne hd _ _
  refine ⟨⟨h.found, fun e' he' hrem => ?_, h.gone, ?_⟩, fun k' e' he' => ?_, fun k' e' he' => ?_,
    h.one⟩
  · rw [isDirectory, hother (get_ne_of_sessionDir_ne hline (h.found e' he'))]
    exact h.kept e' he' hrem
  · rw [SessionStore.clean, h.harmless]
    rcases hown with hown | hown <;> simp [hown]
  · rw [hother (hothers k' e' he')]
    exact h.built k' e' he'
  · rw [hother (get_ne_of_sessionDir_ne hline (h.deleting k' e' he').2)]
    exact h.deleting k' e' he'

theorem removeDir (h : s.Sound)
    (hline : (readSessionIndex s.index).get e.sessionId = some e) : (s.removeDir e).Sound := by
  have hother : ∀ {d}, d ≠ e.sessionDir → (s.removeDir e).files d = s.files d := fun hd =>
    update_of_ne hd _ _
  refine ⟨⟨h.found, fun e' he' hrem => ?_, h.gone, h.harmless⟩, fun k' e' he' => ?_,
    fun k' e' he' => ⟨?_, (h.deleting k' e' he').2⟩, h.one⟩
  · have hne : e'.sessionDir ≠ e.sessionDir := by
      intro hdir
      have hid : e'.sessionId = e.sessionId := congrArg Prod.snd hdir
      have hget := h.found e' he'
      rw [hid, hline] at hget
      cases hget
      exact hrem (mem_append_right _ (mem_singleton_self _))
    rw [isDirectory, hother hne]
    exact h.kept e' he' fun hmem => hrem (mem_append_left _ hmem)
  · obtain ⟨hfiles, hlines⟩ := h.built k' e' he'
    rw [hother (get_ne_of_sessionDir_ne hlines hline).symm]
    exact ⟨hfiles, hlines⟩
  · by_cases hdir : e'.sessionDir = e.sessionDir
    · rw [hdir]
      exact update_self _ _ _
    · rw [hother hdir]
      exact (h.deleting k' e' he').1

theorem replaceIndex (h : s.Sound) (stamp : ℕ)
    (hothers : ∀ k' e', (s.phase k').deleting = some e' → e'.sessionId ≠ e.sessionId) :
    (s.replaceIndex e stamp (withoutSession s.index e.sessionId)).Sound := by
  have hget : ∀ j, (readSessionIndex (s.replaceIndex e stamp
      (withoutSession s.index e.sessionId)).index).get j =
      if j = e.sessionId then none else (readSessionIndex s.index).get j :=
    get_withoutSession s.index e.sessionId
  refine ⟨⟨fun e' he' => ?_, fun e' he' hrem => ?_, fun id hid => ?_, h.harmless⟩,
    fun k' e' he' => ?_, fun k' e' he' => ?_, h.one⟩
  · obtain ⟨hmem, hid⟩ := List.mem_filter.1 he'
    rw [hget, if_neg (of_decide_eq_true hid)]
    exact h.found e' hmem
  · exact h.kept e' (List.mem_filter.1 he').1 hrem
  · rw [hget]
    split_ifs with hsame
    · rfl
    · rcases mem_cons.1 hid with rfl | hid
      · exact absurd rfl hsame
      · exact h.gone id hid
  · obtain ⟨hfiles, hlines⟩ := h.built k' e' he'
    refine ⟨hfiles, fun x hx => ?_⟩
    rw [hget] at hx
    split_ifs at hx
    exact hlines x hx
  · obtain ⟨hfiles, hline⟩ := h.deleting k' e' he'
    refine ⟨hfiles, ?_⟩
    rw [hget, if_neg (hothers k' e' he')]
    exact hline

theorem settled_built_ne (h : s.Sound) {k' : ℕ} {e' : SessionIndexEntry}
    (he : s.files e.sessionDir = some [k])
    (he' : ((s.setPhase k .settled).phase k').building = some e') :
    e'.sessionDir ≠ e.sessionDir := by
  by_cases hk : k' = k
  · rw [hk, setPhase_same] at he'
    cases he'
  · rw [setPhase_other hk] at he'
    intro hsame
    have hfiles := (h.built k' e' he').1
    rw [hsame, he] at hfiles
    exact hk (singleton_inj.1 (some.inj hfiles)).symm

theorem settled_deleting_ne (h : s.Sound) {k' : ℕ} {e' : SessionIndexEntry}
    (he : (s.phase k).deleting = some e)
    (he' : ((s.setPhase k .settled).phase k').deleting = some e') :
    e'.sessionId ≠ e.sessionId := by
  by_cases hk : k' = k
  · rw [hk, setPhase_same] at he'
    cases he'
  · rw [setPhase_other hk] at he'
    intro hid
    have hline := (h.deleting k' e' he').2
    rw [hid, (h.deleting k e he).2] at hline
    cases hline
    exact hk (h.one k' k e he' he)

theorem clean_of_none (h : s.files e.sessionDir = none) : s.clean k e = s := by
  have hfiles : update s.files e.sessionDir none = s.files := by
    rw [← h]
    exact update_eq_self _ _
  rw [SessionStore.clean, hfiles, h]
  simp

/-- **A file access that succeeds.** -/
theorem advance (h : s.Sound) {encodeWorkDirKey : String → String} {stamp : ℕ}
    (hok : s.StillHolds k) (hs : s.advance encodeWorkDirKey k stamp = some t) : t.Sound := by
  unfold SessionStore.advance at hs
  unfold StillHolds at hok
  have hrest : (s.setPhase k .settled).Sound := h.rest rfl rfl
  cases hphase : s.phase k <;> simp only [hphase, reduceCtorEq] at hok hs
  case forkSource | forkSourceDir | targetRead | targetCheck | deleteRead | deleteCheck =>
    split at hs <;> exact some.inj hs ▸ h.rest rfl rfl
  case targetMake source e =>
    have hfiles := not_isSome_iff_eq_none.1 (Bool.eq_false_iff.1 hok.1)
    cases source with
    | none => exact some.inj hs ▸ h.makes hfiles hok.2 k rfl rfl
    | some source =>
      obtain ⟨-, hs⟩ := ite_none_right_eq_some.1 hs
      exact some.inj hs ▸ h.makes hfiles hok.2 k rfl rfl
  case targetPrepare e =>
    exact some.inj hs ▸ h.goOn (fun e' he' => by rw [hphase]; exact he')
      fun e' he' => by cases he'
  case targetAppend forked e =>
    have hfiles := (h.built k e (by rw [hphase]; rfl)).1
    have hdir : s.isDirectory e.sessionDir = true := by rw [isDirectory, hfiles]; rfl
    exact some.inj hs ▸ hrest.appendSessionIndexEntry hok hdir fun k' e' he' =>
      h.settled_built_ne hfiles he'
  case cleanup e made =>
    cases made with
    | true =>
      obtain ⟨hfiles, hlines⟩ := h.built k e (by rw [hphase]; rfl)
      exact some.inj hs ▸ hrest.clean hlines
        (fun k' e' he' => h.settled_built_ne hfiles he') (Or.inr hfiles)
    | false =>
      have hnone := not_isSome_iff_eq_none.1 (Bool.eq_false_iff.1 (hok rfl))
      rw [clean_of_none hnone] at hs
      exact some.inj hs ▸ hrest
  case deleteRemove e =>
    obtain ⟨hdir, hs⟩ := ite_none_right_eq_some.1 hs
    cases hs
    refine (h.removeDir hok).setPhase (fun e' he' => by cases he') fun e' he' => ?_
    cases he'
    refine ⟨update_self _ _ _, hok, fun k' hk' => ?_⟩
    have hnone := (h.deleting k' e hk').1
    rw [isDirectory, hnone] at hdir
    cases hdir
  case removeRead e =>
    exact some.inj hs ▸ h.goOn (fun e' he' => by cases he')
      fun e' he' => by rw [hphase]; exact he'
  case removeWrite e lines =>
    have hwrite : Sound { s with
        temporaries := update s.temporaries stamp (some (withoutSession lines e.sessionId)) } :=
      ⟨⟨h.found, h.kept, h.gone, h.harmless⟩, h.built, h.deleting, h.one⟩
    exact some.inj hs ▸ hwrite.goOn (fun e' he' => by cases he')
      fun e' he' => by rw [hphase]; exact he'
  case removeRename e lines stamp =>
    obtain ⟨hindex, htemp⟩ := hok
    rw [htemp] at hs
    obtain rfl := hindex
    have hdeleting : (s.phase k).deleting = some e := by rw [hphase]; rfl
    exact some.inj hs ▸ hrest.replaceIndex stamp fun k' e' he' =>
      h.settled_deleting_ne hdeleting he'

/-- **A file access that fails.** -/
theorem fail (h : s.Sound) {made : Bool}
    (hok : made = true → s.copies k = true → s.StillHolds k) (hs : s.fail k made = some t) :
    t.Sound := by
  unfold SessionStore.fail at hs
  unfold copies StillHolds at hok
  cases hphase : s.phase k <;> simp only [hphase, reduceCtorEq] at hok hs
  case targetMake source e =>
    cases source with
    | none => exact some.inj hs ▸ h.rest rfl rfl
    | some source =>
      cases made with
      | true =>
        obtain ⟨hdir, hline⟩ := hok rfl rfl
        have hfiles := not_isSome_iff_eq_none.1 (Bool.eq_false_iff.1 hdir)
        exact some.inj hs ▸ h.makes hfiles hline k rfl rfl
      | false => exact some.inj hs ▸ h.rest rfl rfl
  case targetPrepare e =>
    exact some.inj hs ▸ h.goOn (fun e' he' => by rw [hphase]; exact he')
      fun e' he' => by cases he'
  case targetAppend forked e =>
    cases forked with
    | true =>
      exact some.inj hs ▸ h.goOn (fun e' he' => by rw [hphase]; exact he')
        fun e' he' => by cases he'
    | false => exact some.inj hs ▸ h.rest rfl rfl
  case removeRead e =>
    exact some.inj hs ▸ h.goOn (fun e' he' => by cases he')
      fun e' he' => by rw [hphase]; exact he'
  -- the operation ends, or goes on as if there were nothing
  all_goals exact some.inj hs ▸ h.rest rfl rfl

/-- **Every step preserves the invariant.** -/
theorem step (h : s.Sound) {encodeWorkDirKey : String → String} {event : SessionStoreEvent}
    (hok : s.ActsOnWhatItRead event) (hs : s.step encodeWorkDirKey event = some t) : t.Sound := by
  cases event with
  | create k id workDir =>
    obtain ⟨-, hs⟩ := ite_none_right_eq_some.1 hs
    cases hs
    split_ifs <;> exact h.rest rfl rfl
  | fork | delete =>
    obtain ⟨-, hs⟩ := ite_none_right_eq_some.1 hs
    exact some.inj hs ▸ h.rest rfl rfl
  | advance k stamp => exact h.advance hok hs
  | fail k made => exact h.fail hok hs

end Sound

end SessionStore

/-- **The index and the sessions agree**, whatever the services that share the home directory do,
as long as every operation acts on what still holds. -/
theorem run_consistent {encodeWorkDirKey : String → String} {l : List SessionStoreEvent}
    {s : SessionStore}
    (h : Run (SessionStore.step encodeWorkDirKey) SessionStore.ActsOnWhatItRead {} l s) :
    s.Consistent := by
  have hsound : s.Sound :=
    h.invariant (I := SessionStore.Sound) SessionStore.Sound.initial
      fun _ _ _ ht hok hs => ht.step hok hs
  exact hsound.toConsistent

/-- The accesses of an operation, one after the other. -/
def advances (k n : ℕ) : List SessionStoreEvent := List.replicate n (.advance k 0)

/-- One run: a session is forked while another one is created, then it is deleted. -/
theorem run_consistent_fork : ∃ s,
    Run (SessionStore.step fun workDir => "wd_" ++ workDir) SessionStore.ActsOnWhatItRead {}
      (.create 0 "a" "/w" :: advances 0 4 ++ [.create 1 "b" "/w", .fork 2 "a" "c"] ++
        advances 1 2 ++ advances 2 4 ++ advances 1 2 ++ advances 2 3 ++ .delete 3 "a" ::
        advances 3 6) s ∧
      s.Consistent ∧
      s.created.map SessionIndexEntry.sessionId = ["b", "c"] ∧ s.deleted = ["a"] := by
  have hrun : ∃ s,
      Run (SessionStore.step fun workDir => "wd_" ++ workDir) SessionStore.ActsOnWhatItRead {}
        (.create 0 "a" "/w" :: advances 0 4 ++ [.create 1 "b" "/w", .fork 2 "a" "c"] ++
          advances 1 2 ++ advances 2 4 ++ advances 1 2 ++ advances 2 3 ++ .delete 3 "a" ::
          advances 3 6) s ∧
        (s.created.map SessionIndexEntry.sessionId = ["b", "c"] ∧ s.deleted = ["a"]) :=
    exists_run (by decide +kernel) (by decide +kernel)
  obtain ⟨s, hs, hsessions⟩ := hrun
  exact ⟨s, hs, run_consistent hs, hsessions⟩

/-- **A session that is created while another one is deleted.**  Its line comes after the delete
has read the index, and is gone after the rename. -/
theorem not_run_consistent : ¬ ∀ (encodeWorkDirKey : String → String) (l : List SessionStoreEvent)
    (s : SessionStore), Run (SessionStore.step encodeWorkDirKey) always {} l s → s.Consistent := by
  intro h
  have hrun : ∃ s, Run (SessionStore.step fun workDir => "wd_" ++ workDir) always {}
      (.create 0 "a" "/w" :: advances 0 4 ++ .create 1 "b" "/w" :: advances 1 3 ++
        .delete 2 "a" :: advances 2 4 ++ advances 1 1 ++ advances 2 2) s ∧
      (s.created = [⟨"b", "wd_/w", "/w"⟩] ∧ s.index = []) :=
    exists_run (by decide +kernel) (legal_always _ _)
  obtain ⟨s, hs, hcreated, hindex⟩ := hrun
  have hmem : (⟨"b", "wd_/w", "/w"⟩ : SessionIndexEntry) ∈ s.created := by
    rw [hcreated]
    exact (.head _)
  have hfound := (h _ _ s hs).found _ hmem
  rw [hindex] at hfound
  cases hfound

end NoriCode
