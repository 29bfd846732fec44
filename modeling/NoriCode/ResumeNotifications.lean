/-
**What becomes of the notifications of the previous process.**

`resume` sends the notification of every task that has ended and whose notification has not been
delivered.  On its way it is in the context, or waits in the steer buffer, or a turn has been
launched with it.  At the end the messages that the context has deferred come into the history, but
the steer buffer is emptied: what waits only there is dropped.

Main definitions:

* `ResumeState.Placed` — where a notification may end up;
* `ResumeInvariant` — where the notifications are on the way;
* `KeepsNotifications` — the condition on the last step.

Main results:

* `resume_places_notifications` — **no notification is dropped in a run that meets the
  condition**.
-/

import NoriCode.ContextDeferred

namespace NoriCode

open List Option ResumeState

/-! ### Notifications in a context -/

namespace ContextMemory

/-- A notification is in the history. -/
def Shows (c : ContextMemory) (key : String) : Prop :=
  ∃ m ∈ c.messages, m.notificationKey = some key

/-- A notification is deferred. -/
def Defers (c : ContextMemory) (key : String) : Prop :=
  ∃ m ∈ c.deferredMessages, m.notificationKey = some key

/-- Notifications stay in the history, and leave the deferred messages for the history. -/
structure Grows (c d : ContextMemory) : Prop where
  shows : ∀ key, c.Shows key → d.Shows key
  defers : ∀ key, c.Defers key → d.Defers key ∨ d.Shows key

namespace Grows

variable {c d e : ContextMemory}

theorem of_eq (hmessages : d.messages = c.messages)
    (hdeferred : d.deferredMessages = c.deferredMessages) : Grows c d where
  shows _ h := by rwa [Shows, hmessages]
  defers _ h := Or.inl (by rwa [Defers, hdeferred])

theorem refl (c : ContextMemory) : Grows c c := of_eq rfl rfl

theorem trans (h : Grows c d) (h' : Grows d e) : Grows c e where
  shows key hc := h'.shows key (h.shows key hc)
  defers key hc := (h.defers key hc).elim (h'.defers key) fun hd => Or.inr (h'.shows key hd)

variable (c : ContextMemory)

theorem pushHistory (ms : List ContextMessage) : Grows c (c.pushHistory ms) where
  shows key := by
    rintro ⟨m, hm, hkey⟩
    exact ⟨m, by simp [messages_pushHistory, hm], hkey⟩
  defers _ h := Or.inl h

theorem flush : Grows c c.flushDeferredMessagesIfToolExchangeClosed := by
  unfold flushDeferredMessagesIfToolExchangeClosed
  split_ifs
  · exact refl c
  · refine ⟨(pushHistory c c.deferredMessages).shows, fun key => ?_⟩
    rintro ⟨m, hm, hkey⟩
    exact Or.inr ⟨m, by simp [messages, ContextMemory.pushHistory, hm], hkey⟩

theorem append (m : ContextMessage) : Grows c (c.append m) := by
  unfold ContextMemory.append
  split_ifs
  · refine ⟨fun _ h => h, fun key => ?_⟩
    rintro ⟨m', hm', hkey⟩
    exact Or.inl ⟨m', mem_append_left _ hm', hkey⟩
  · exact pushHistory c [m]

theorem toolResult (id : String) (result : ExecutableToolResult) :
    Grows c (c.toolResult id result) := by
  unfold ContextMemory.toolResult
  split_ifs
  · have hanswer : Grows c (c.answer id result) :=
      (pushHistory c [toolResultMessage id result]).trans (of_eq rfl rfl)
    exact hanswer.trans (flush _)
  · exact refl c

theorem closePending : Grows c c.closePending :=
  closePending_rule (refl c) fun _ h id => h.trans (toolResult _ id interruptedResult)

theorem beginStep (uuid : String) : Grows c (c.beginStep uuid) where
  shows key := by
    rintro ⟨m, hm, hkey⟩
    refine ⟨m, ?_, hkey⟩
    rw [messages, ContextMemory.beginStep, map_append]
    exact mem_append_left _ hm
  defers _ h := Or.inl h

theorem updateStep (n : ℕ) {f : ContextMessage → ContextMessage} (hf : ∀ m, (f m).origin = m.origin)
    : Grows c (c.updateStep n f) where
  shows key := by
    rintro ⟨m, hm, hkey⟩
    obtain ⟨e, he, rfl⟩ := mem_map.1 hm
    have hmem : (if e.step = some n then { e with message := f e.message } else e).message ∈
        (c.updateStep n f).messages :=
      mem_map_of_mem (mem_map_of_mem he)
    refine ⟨_, hmem, ?_⟩
    split_ifs
    · rw [← hkey, ContextMessage.notificationKey, hf, ContextMessage.notificationKey]
    · exact hkey
  defers _ h := Or.inl h

theorem endStep (uuid : String) (usage : Option TokenUsage) : Grows c (c.endStep uuid usage) := by
  have hclosed : Grows c { c with openSteps := mapDelete c.openSteps uuid } := of_eq rfl rfl
  cases usage with
  | none => exact hclosed.trans (flush _)
  | some usage =>
    refine hclosed.trans (Grows.trans ?_ (flush _))
    exact of_eq (account_messages _ usage _) (account_rest _ usage _).2.1

theorem loopEvent (e : LoopRecordedEvent) : Grows c (c.loopEvent e) := by
  refine loopEvent_rule (refl c) (fun uuid => (closePending c).trans (beginStep _ uuid)) (endStep c)
    (fun n _ => updateStep c n fun _ => rfl) (fun n toolCall => ?_) (toolResult c) e
  have hupd : Grows c (c.updateStep n (ContextMessage.addToolCall toolCall)) :=
    updateStep c n fun _ => rfl
  exact hupd.trans (of_eq rfl rfl)

theorem appendUser (steer : BufferedSteer) : Grows c (c.appendUser steer) := by
  unfold ContextMemory.appendUser
  split_ifs
  · exact refl c
  · exact append c _

theorem finishResume : Grows c (c.performed .finishResume) :=
  have hsteps : Grows c { c with openSteps := [] } := of_eq rfl rfl
  hsteps.trans (closePending _)

end Grows

end ContextMemory

/-- What every restored record keeps holds of the context a log replays to. -/
theorem Replays.invariant {I : ContextMemory → Prop} {records : List AgentRecord}
    {c : ContextMemory} (h : Replays records c) (h₀ : I {})
    (hstep : ∀ c r, I c → I (c.restored r)) : I c := by
  have hfrom : ∀ (rs : List AgentRecord) (a b : Agent), I a.context → replayFrom a rs = .ok b →
      I b.context := by
    intro rs
    induction rs with
    | nil =>
      intro a b ha hb
      cases hb
      exact ha
    | cons r rs ih =>
      intro a b ha hb
      rw [replayFrom] at hb
      cases herror : (restore a r).2 with
      | some e => simp [herror] at hb
      | none =>
        simp only [herror] at hb
        exact ih _ b (restore_context a r ▸ hstep _ r ha) hb
  obtain ⟨b, hb, rfl⟩ := h
  exact hfrom records {} b h₀ hb

/-! ### Where a notification is -/

/-- Input that is the notification with this key, and is not empty. -/
def BufferedSteer.Carries (steer : BufferedSteer) (key : String) : Prop :=
  steer.origin.notificationKey = some key ∧ steer.input.length ≠ 0

namespace ContextMemory

theorem appendUser_carries (c : ContextMemory) {steer : BufferedSteer} {key : String}
    (h : steer.Carries key) :
    (c.appendUser steer).Defers key ∨ (c.appendUser steer).Shows key := by
  obtain ⟨hkey, hinput⟩ := h
  have happended : (appended steer).notificationKey = some key := hkey
  unfold appendUser append
  rw [if_neg hinput]
  split_ifs
  · exact Or.inl ⟨appended steer, by simp, happended⟩
  · exact Or.inr ⟨appended steer, by simp [messages_pushHistory], happended⟩

theorem Grows.foldl_appendUser (c : ContextMemory) (steers : List BufferedSteer) :
    Grows c (steers.foldl ContextMemory.appendUser c) := by
  induction steers generalizing c with
  | nil => exact refl c
  | cons steer steers ih => exact (appendUser c steer).trans (ih _)

theorem foldl_appendUser_carries (c : ContextMemory) {steers : List BufferedSteer}
    {steer : BufferedSteer} {key : String} (hsteer : steer ∈ steers) (h : steer.Carries key) :
    (steers.foldl appendUser c).Defers key ∨ (steers.foldl appendUser c).Shows key := by
  induction steers generalizing c with
  | nil => cases hsteer
  | cons x steers ih =>
    rcases mem_cons.1 hsteer with rfl | hsteer
    · have hgrows := Grows.foldl_appendUser (c.appendUser steer) steers
      rcases c.appendUser_carries h with hkey | hkey
      · exact hgrows.defers key hkey
      · exact Or.inr (hgrows.shows key hkey)
    · exact ih _ hsteer

end ContextMemory

/-- The task has been detached, and its notification is not suppressed. -/
def BackgroundTaskInfo.Notifies (info : BackgroundTaskInfo) : Prop :=
  info.detached ≠ some false ∧ info.terminalNotificationSuppressed ≠ some true

/-- The tasks have been loaded, and marked. -/
def ResumePhase.isReconciled : ResumePhase → Bool
  | .loadFromDisk | .markLost | .failed => false
  | .restore _ | .output _ _ | .loadCron | .returned => true

namespace ResumeState

/-- **Where a notification may end up**: in the history, in the steer buffer or in a launched
turn. -/
def Placed (s : ResumeState) (key : String) : Prop :=
  s.context.Shows key ∨ ∃ steer, s.flow.Has steer ∧ steer.Carries key

/-- Where a notification is on the way there: the context may have deferred it. -/
def Holds (s : ResumeState) (key : String) : Prop :=
  s.context.Defers key ∨ s.Placed key

/-- The tasks that are still to be looked at; the first of them may be waiting for its output. -/
def remaining (s : ResumeState) : List BackgroundTaskInfo :=
  match s.phase with
  | .restore rest => rest
  | .output info rest => info :: rest
  | _ => []

/-- The key whose notification waits for its output. -/
def inWork (s : ResumeState) : Option String :=
  match s.phase with
  | .output info _ => some info.key
  | _ => none

/-- The tasks of the previous process, as `resume` sees them. -/
def reconciled (disk : List BackgroundTaskInfo) : GhostMap :=
  (GhostMap.loadFromDisk disk).markLoadedTasksLost

end ResumeState

open ResumeState

/-- **On the way.**  `D` are the keys delivered before `resume` began. -/
structure ResumeInvariant (D : List String) (disk : List BackgroundTaskInfo) (s : ResumeState) :
    Prop where
  disk_eq : s.disk = disk
  flushed : s.context.Flushed
  delivered : ∀ key ∈ s.deliveredNotificationKeys, key ∈ D ∨ s.context.Shows key
  scheduled : s.phase ≠ .returned → s.phase ≠ .failed → ∀ key ∈ s.scheduledNotificationKeys,
    s.Holds key ∨ s.inWork = some key
  /-- What the phases rest on. -/
  loaded : s.phase = .markLost → s.ghosts = .loadFromDisk disk
  ghosts_eq : s.phase.isReconciled = true → s.ghosts = reconciled disk
  subset : s.remaining ⊆ (reconciled disk).infos
  /-- The task in work is one that notifies. -/
  notifies : ∀ info rest, s.phase = .output info rest → info.Notifies
  progress : s.phase.isReconciled = true → ∀ info ∈ (reconciled disk).infos, info.Notifies →
    info.key ∉ D → info ∈ s.remaining ∨ s.Holds info.key
  returned : s.phase = .returned → ∀ info ∈ (reconciled disk).infos, info.Notifies →
    info.key ∉ D → s.Placed info.key

/-! ### Meanwhile -/

/-- What steps change that are not steps of `resume` itself. -/
structure Meanwhile (s u : ResumeState) : Prop where
  disk_eq : u.disk = s.disk
  ghosts_eq : u.ghosts = s.ghosts
  phase_eq : u.phase = s.phase
  scheduled_eq : u.scheduledNotificationKeys = s.scheduledNotificationKeys
  flushed : s.context.Flushed → u.context.Flushed
  shows : ∀ key, s.context.Shows key → u.context.Shows key
  delivered : ∀ key ∈ u.deliveredNotificationKeys,
    key ∈ s.deliveredNotificationKeys ∨ u.context.Shows key
  holds : ∀ key, s.Holds key → u.Holds key

namespace Meanwhile

variable {s t u : ResumeState}

theorem trans (h : Meanwhile s t) (h' : Meanwhile t u) : Meanwhile s u where
  disk_eq := h'.disk_eq.trans h.disk_eq
  ghosts_eq := h'.ghosts_eq.trans h.ghosts_eq
  phase_eq := h'.phase_eq.trans h.phase_eq
  scheduled_eq := h'.scheduled_eq.trans h.scheduled_eq
  flushed := h'.flushed ∘ h.flushed
  shows key hs := h'.shows key (h.shows key hs)
  delivered key hu := (h'.delivered key hu).elim
    (fun ht => (h.delivered key ht).imp id (h'.shows key)) Or.inr
  holds key hs := h'.holds key (h.holds key hs)

variable (s : ResumeState)

/-- Input comes and goes, but none that carries a notification is dropped. -/
theorem flow {flow : TurnFlow}
    (h : ∀ steer key, steer.Carries key → s.flow.Has steer → flow.Has steer) :
    Meanwhile s { s with flow } where
  disk_eq := rfl
  ghosts_eq := rfl
  phase_eq := rfl
  scheduled_eq := rfl
  flushed := id
  shows _ := id
  delivered _ := Or.inl
  holds key := by
    rintro (hdefers | hshows | ⟨steer, hhas, hcarries⟩)
    · exact Or.inl hdefers
    · exact Or.inr (Or.inl hshows)
    · exact Or.inr (Or.inr ⟨steer, h steer key hcarries hhas, hcarries⟩)

theorem withContext {c : ContextMemory} (hgrows : s.context.Grows c)
    (hflushed : s.context.Flushed → c.Flushed) : Meanwhile s (s.withContext c) where
  disk_eq := rfl
  ghosts_eq := rfl
  phase_eq := rfl
  scheduled_eq := rfl
  flushed := hflushed
  shows := hgrows.shows
  delivered key hkey := by
    rcases mem_append.1 hkey with hkey | hkey
    · exact Or.inl hkey
    · obtain ⟨m, hm, hmkey⟩ := mem_filterMap.1 hkey
      exact Or.inr ⟨m, mem_of_mem_drop hm, hmkey⟩
  holds key := by
    rintro (hdefers | hshows | hhas)
    · exact (hgrows.defers key hdefers).imp id Or.inl
    · exact Or.inr (Or.inl (hgrows.shows key hshows))
    · exact Or.inr (Or.inr hhas)

theorem append (m : ContextMessage) : Meanwhile s (s.withContext (s.context.append m)) :=
  withContext s (.append _ m) fun h => h.append m

theorem loopEvent (e : LoopRecordedEvent) : Meanwhile s (s.withContext (s.context.loopEvent e)) :=
  withContext s (.loopEvent _ e) fun h => h.loopEvent e

theorem flushSteerBuffer : Meanwhile s s.flushSteerBuffer := by
  have hgrows := ContextMemory.Grows.foldl_appendUser s.context s.flow.steerBuffer
  have hcontext := withContext s hgrows fun h => h.foldl_appendUser s.flow.steerBuffer
  refine { hcontext with holds := fun key hkey => ?_ }
  rcases hkey with hdefers | hshows | ⟨steer, hwaits | hlaunched, hcarries⟩
  · exact (hgrows.defers key hdefers).imp id Or.inl
  · exact Or.inr (Or.inl (hgrows.shows key hshows))
  · rcases ContextMemory.foldl_appendUser_carries s.context hwaits hcarries with h | h
    · exact Or.inl h
    · exact Or.inr (Or.inl h)
  · exact Or.inr (Or.inr ⟨steer, Or.inr hlaunched, hcarries⟩)

theorem onCompactionFinished : Meanwhile s s.onCompactionFinished := by
  have hflag : Meanwhile s { s with flow := { s.flow with isCompacting := false } } :=
    flow s fun _ _ _ h => h
  unfold ResumeState.onCompactionFinished
  dsimp only
  split_ifs
  · exact hflag.trans (flushSteerBuffer _)
  · exact hflag.trans (flow _ fun _ _ _ h => h.launchBufferedSteerIfIdle)

end Meanwhile

/-! ### Steps -/

namespace ResumeInvariant

variable {D : List String} {disk : List BackgroundTaskInfo} {s u : ResumeState}

theorem meanwhile (h : ResumeInvariant D disk s) (hu : Meanwhile s u)
    (hreturned : s.phase ≠ .returned) : ResumeInvariant D disk u := by
  have hremaining : u.remaining = s.remaining := by
    rw [ResumeState.remaining, hu.phase_eq, ResumeState.remaining]
  have hinWork : u.inWork = s.inWork := by rw [inWork, hu.phase_eq, inWork]
  refine {
    disk_eq := hu.disk_eq.trans h.disk_eq
    flushed := hu.flushed h.flushed
    delivered := fun key hkey => ?_
    scheduled := fun _ hfailed key hkey => ?_
    loaded := fun hphase => hu.ghosts_eq.trans (h.loaded (hu.phase_eq ▸ hphase))
    ghosts_eq := ?_
    subset := ?_
    notifies := ?_
    progress := ?_
    returned := fun hphase => absurd (hu.phase_eq ▸ hphase) hreturned }
  · rcases hu.delivered key hkey with hkey | hkey
    · exact (h.delivered key hkey).imp id (hu.shows key)
    · exact Or.inr hkey
  · rw [hu.scheduled_eq] at hkey
    rw [hinWork]
    exact (h.scheduled hreturned (hu.phase_eq ▸ hfailed) key hkey).imp (hu.holds key) id
  · rw [hu.phase_eq, hu.ghosts_eq]
    exact h.ghosts_eq
  · rw [hremaining]
    exact h.subset
  · rw [hu.phase_eq]
    exact h.notifies
  · rw [hu.phase_eq, hremaining]
    intro hphase info hinfo hnotifies hkey
    exact (h.progress hphase info hinfo hnotifies hkey).imp id (hu.holds _)

/-! ### Phases -/

theorem scheduled_holds (h : ResumeInvariant D disk s) (hphase : s.phase ≠ .returned)
    (hfailed : s.phase ≠ .failed) (hwork : s.inWork = none) {key : String}
    (hkey : key ∈ s.scheduledNotificationKeys) :
    s.Holds key := by
  rcases h.scheduled hphase hfailed key hkey with hholds | hin
  · exact hholds
  · rw [hwork] at hin
    cases hin

theorem loadedStep (h : ResumeInvariant D disk s) (hphase : s.phase = .loadFromDisk) :
    ResumeInvariant D disk { s with ghosts := .loadFromDisk s.disk, phase := .markLost } := by
  refine { h with
    scheduled := fun _ _ key hkey => ?_
    loaded := fun _ => congrArg _ h.disk_eq
    ghosts_eq := by simp [ResumePhase.isReconciled]
    subset := by simp [ResumeState.remaining]
    notifies := by simp
    progress := by simp [ResumePhase.isReconciled]
    returned := by simp }
  exact Or.inl
    (h.scheduled_holds (by simp [hphase]) (by simp [hphase]) (by simp [inWork, hphase]) hkey)

theorem markedStep (h : ResumeInvariant D disk s) (hphase : s.phase = .markLost) :
    ResumeInvariant D disk { s with
      ghosts := s.ghosts.markLoadedTasksLost
      phase := .restore s.ghosts.markLoadedTasksLost.infos } := by
  have hghosts : s.ghosts.markLoadedTasksLost = reconciled disk :=
    congrArg GhostMap.markLoadedTasksLost (h.loaded hphase)
  rw [hghosts]
  exact { h with
    scheduled := fun _ _ key hkey =>
      Or.inl
        (h.scheduled_holds (by simp [hphase]) (by simp [hphase]) (by simp [inWork, hphase]) hkey)
    loaded := by simp
    ghosts_eq := fun _ => rfl
    subset := fun info hinfo => hinfo
    notifies := by simp
    progress := fun _ info hinfo _ _ => Or.inl hinfo
    returned := by simp }

variable {info : BackgroundTaskInfo} {rest : List BackgroundTaskInfo}

section

variable (h : ResumeInvariant D disk s)

include h

theorem done (hremaining : s.remaining = info :: rest) (hphase : s.phase.isReconciled = true)
    (hreturned : s.phase ≠ .returned) (hfailed : s.phase ≠ .failed)
    (hholds : info ∈ (reconciled disk).infos → info.Notifies → info.key ∉ D → s.Holds info.key)
    (hwork : ∀ key, s.inWork = some key → s.Holds key) :
    ResumeInvariant D disk { s with phase := .restore rest } := by
  refine { h with
    scheduled := fun _ _ key hkey =>
      Or.inl ((h.scheduled hreturned hfailed key hkey).elim id (hwork key))
    loaded := by simp
    ghosts_eq := fun _ => h.ghosts_eq hphase
    subset := fun x hx => h.subset (hremaining ▸ mem_cons_of_mem info hx)
    notifies := by simp
    progress := fun _ x hx hnotifies hkey => ?_
    returned := by simp }
  rcases h.progress hphase x hx hnotifies hkey with hmem | hx'
  · rw [hremaining, mem_cons] at hmem
    rcases hmem with rfl | hmem
    · exact Or.inr (hholds hx hnotifies hkey)
    · exact Or.inl hmem
  · exact Or.inr hx'

theorem visitNil (hphase : s.phase = .restore []) :
    ResumeInvariant D disk { s with phase := .loadCron } := by
  have hrec : s.phase.isReconciled = true := by rw [hphase, ResumePhase.isReconciled]
  refine { h with
    scheduled := fun _ _ key hkey =>
      Or.inl
        (h.scheduled_holds (by simp [hphase]) (by simp [hphase]) (by simp [inWork, hphase]) hkey)
    loaded := by simp
    ghosts_eq := fun _ => h.ghosts_eq hrec
    subset := by simp [ResumeState.remaining]
    notifies := by simp
    progress := fun _ x hx hnotifies hkey => ?_
    returned := by simp }
  rcases h.progress hrec x hx hnotifies hkey with hmem | hx'
  · simp [ResumeState.remaining, hphase] at hmem
  · exact Or.inr hx'

theorem suppressed_iff (hphase : s.phase.isReconciled = true) (hinfo : info ∈ s.remaining) :
    s.ghosts.isTerminalNotificationSuppressed info.taskId = true ↔
      info.terminalNotificationSuppressed = some true := by
  have hmem := h.subset hinfo
  rw [← h.ghosts_eq hphase] at hmem
  simp [GhostMap.isTerminalNotificationSuppressed, GhostMap.get_of_mem hmem]

theorem scheduleStep (hphase : s.phase = .restore (info :: rest)) :
    ResumeInvariant D disk (s.schedule info rest) := by
  have hrec : s.phase.isReconciled = true := by rw [hphase, ResumePhase.isReconciled]
  have hremaining : s.remaining = info :: rest := by simp [ResumeState.remaining, hphase]
  have hwork : s.inWork = none := by simp [inWork, hphase]
  have hreturned : s.phase ≠ .returned := by simp [hphase]
  have hfailed : s.phase ≠ .failed := by simp [hphase]
  have hsuppressed := h.suppressed_iff hrec (hremaining ▸ mem_cons_self)
  unfold schedule
  split_ifs with hskip
  · refine h.done hremaining hrec hreturned hfailed (fun _ hnotifies hkey => ?_) (by simp [hwork])
    rcases hskip with hdetached | hskip | hscheduled | hdelivered
    · exact absurd hdetached hnotifies.1
    · exact absurd (hsuppressed.1 hskip) hnotifies.2
    · exact h.scheduled_holds hreturned hfailed hwork hscheduled
    · exact Or.inr (Or.inl ((h.delivered _ hdelivered).resolve_left hkey))
  · simp only [not_or] at hskip
    obtain ⟨hdetached, hnot, -, -⟩ := hskip
    exact { h with
      scheduled := fun _ _ key hkey => by
        rcases mem_append.1 hkey with hkey | hkey
        · exact Or.inl (h.scheduled_holds hreturned hfailed hwork hkey)
        · exact Or.inr (congrArg some (mem_singleton.1 hkey).symm)
      loaded := by simp
      ghosts_eq := fun _ => h.ghosts_eq hrec
      subset := fun x hx => h.subset (hremaining ▸ hx)
      notifies := fun info' rest' heq => by
        obtain ⟨rfl, -⟩ := ResumePhase.output.inj heq
        exact ⟨hdetached, fun hs => hnot (hsuppressed.2 hs)⟩
      progress := fun _ x hx hnotifies hkey =>
        (h.progress hrec x hx hnotifies hkey).imp
          (fun hmem => show x ∈ info :: rest from hremaining ▸ hmem) id
      returned := by simp }

theorem visit (hphase : s.phase = .restore rest) : ResumeInvariant D disk (s.visit rest) := by
  cases rest with
  | nil => exact h.visitNil hphase
  | cons info rest =>
    have hremaining : s.remaining = info :: rest := by simp [ResumeState.remaining, hphase]
    simp only [visit]
    split_ifs with hterminal
    · exact h.scheduleStep hphase
    · -- every task that is loaded has been marked
      refine h.done hremaining (by rw [hphase, ResumePhase.isReconciled]) (by simp [hphase])
        (by simp [hphase]) (fun hinfo _ _ => ?_) (by simp [inWork, hphase])
      obtain ⟨x, -, rfl⟩ := mem_map.1 hinfo
      exact absurd (GhostMap.markLost_isTerminal x) hterminal

theorem notify (hphase : s.phase = .output info rest) (output : BackgroundTaskOutputSnapshot) :
    ResumeInvariant D disk { s.notify info output with phase := .restore rest } := by
  have hrec : s.phase.isReconciled = true := by rw [hphase, ResumePhase.isReconciled]
  have hremaining : s.remaining = info :: rest := by simp [ResumeState.remaining, hphase]
  have hsuppressed := h.suppressed_iff hrec (hremaining ▸ mem_cons_self)
  have hnot : ¬ s.ghosts.isTerminalNotificationSuppressed info.taskId = true :=
    fun hs => (h.notifies info rest hphase).2 (hsuppressed.1 hs)
  have hcarries : (buildBackgroundTaskNotification info output).Carries info.key :=
    ⟨info.notificationKey_origin, Nat.one_ne_zero⟩
  have hsent : Meanwhile s (s.notify info output) ∧ (s.notify info output).Holds info.key := by
    unfold ResumeState.notify
    rw [if_neg hnot]
    split_ifs
    · refine ⟨Meanwhile.flow s fun _ _ _ hhas => hhas.steer, Or.inr (Or.inr ⟨_, ?_, hcarries⟩)⟩
      exact TurnFlow.has_steer _ _
    · refine ⟨Meanwhile.withContext s (.appendUser _ _) fun hf => hf.appendUser _, ?_⟩
      exact (s.context.appendUser_carries hcarries).imp id Or.inl
  have hnext := h.meanwhile hsent.1 (by simp [hphase])
  have hphase' : (s.notify info output).phase = .output info rest := hsent.1.phase_eq.trans hphase
  refine hnext.done (by simp [ResumeState.remaining, hphase']) (hsent.1.phase_eq ▸ hrec)
    (by simp [hphase'])
    (by simp [hphase']) (fun _ _ _ => hsent.2) fun key hkey => ?_
  simp only [inWork, hphase', some.injEq] at hkey
  exact hkey ▸ hsent.2

end

/-! ### The end of resume -/

end ResumeInvariant

/-- **The condition on the last step.**  No notification that is due and has not come into the
history waits in the steer buffer only: the context has deferred it, or a turn has been launched
with it. -/
def KeepsNotifications (s : ResumeState) : ResumeStep → Prop
  | .finished => ∀ info ∈ s.ghosts.infos, info.Notifies → info.key ∉ s.deliveredNotificationKeys →
      (∃ steer ∈ s.flow.steerBuffer, steer.Carries info.key) →
      s.context.Defers info.key ∨ ∃ steer ∈ s.flow.launched, steer.Carries info.key
  | _ => True

namespace ResumeInvariant

variable {D : List String} {disk : List BackgroundTaskInfo} {s u : ResumeState}

theorem shows_finishResume (h : ResumeInvariant D disk s) {key : String}
    (hkey : s.context.Defers key ∨ s.context.Shows key) :
    (s.context.performed .finishResume).Shows key := by
  have hflushed := ContextMemory.Flushed.finishResume h.flushed
  have hgrows := ContextMemory.Grows.finishResume s.context
  have hnone : (s.context.performed .finishResume).deferredMessages = [] := by
    refine hflushed ?_
    simp [ContextMemory.performed, ContextMemory.hasOpenToolExchange, closePending_pending]
  rcases hkey with hkey | hkey
  · rcases hgrows.defers key hkey with ⟨m, hm, -⟩ | hshows
    · rw [hnone] at hm
      cases hm
    · exact hshows
  · exact hgrows.shows key hkey

theorem finish (h : ResumeInvariant D disk s) (hphase : s.phase = .loadCron)
    (hkeeps : KeepsNotifications s .finished) : ResumeInvariant D disk s.finish := by
  have hrec : s.phase.isReconciled = true := by rw [hphase, ResumePhase.isReconciled]
  have hremaining : s.remaining = [] := by simp [ResumeState.remaining, hphase]
  have hnext := h.meanwhile (Meanwhile.withContext s (.finishResume _) fun hf => hf.finishResume)
    (by simp [hphase])
  have hplaced : ∀ info ∈ (reconciled disk).infos, info.Notifies → info.key ∉ D →
      s.finish.Placed info.key := by
    intro info hinfo hnotifies hkey
    have hholds : s.Holds info.key := by
      rcases h.progress hrec info hinfo hnotifies hkey with hmem | hholds
      · simp [hremaining] at hmem
      · exact hholds
    by_cases hshown : s.context.Defers info.key ∨ s.context.Shows info.key
    · exact Or.inl (h.shows_finishResume hshown)
    · -- it is not in the context, so it has not been delivered
      obtain ⟨hnotDeferred, hnotShown⟩ := not_or.1 hshown
      have hundelivered : info.key ∉ s.deliveredNotificationKeys := fun hmem =>
        (h.delivered _ hmem).elim hkey hnotShown
      obtain ⟨steer, hwaits | hlaunched, hcarries⟩ :=
        (hholds.resolve_left hnotDeferred).resolve_left hnotShown
      · obtain ⟨steer', hlaunched, hcarries'⟩ := (hkeeps info (h.ghosts_eq hrec ▸ hinfo) hnotifies
          hundelivered ⟨steer, hwaits, hcarries⟩).resolve_left hnotDeferred
        exact Or.inr ⟨steer', Or.inr hlaunched, hcarries'⟩
      · exact Or.inr ⟨steer, Or.inr hlaunched, hcarries⟩
  exact { hnext with
    scheduled := fun hnot _ => absurd rfl hnot
    loaded := by simp [ResumeState.finish]
    ghosts_eq := fun _ => h.ghosts_eq hrec
    subset := by simp [ResumeState.remaining, ResumeState.finish]
    notifies := by simp [ResumeState.finish]
    progress := fun _ info hinfo hnotifies hkey =>
      Or.inr (Or.inr (hplaced info hinfo hnotifies hkey))
    returned := fun _ => hplaced }

theorem step (h : ResumeInvariant D disk s) {a : ResumeStep} (ha : KeepsNotifications s a)
    (hu : s.step a = some u) : ResumeInvariant D disk u := by
  unfold ResumeState.step at hu
  split_ifs at hu with hreturned
  have hmeanwhile : ∀ {t : ResumeState}, Meanwhile s t → ResumeInvariant D disk t :=
    fun ht => h.meanwhile ht hreturned
  cases a <;> simp only [ResumeState.next] at hu
  case loaded =>
    split_ifs at hu with hphase
    exact some.inj hu ▸ h.loadedStep hphase
  case marked =>
    split_ifs at hu with hphase
    exact some.inj hu ▸ h.markedStep hphase
  case visited =>
    split at hu
    next rest hphase => exact some.inj hu ▸ h.visit hphase
    next => cases hu
  case outputRead output =>
    split at hu
    next info rest hphase => exact some.inj hu ▸ h.notify hphase output
    next => cases hu
  case failed =>
    cases hu
    exact { h with
      scheduled := fun _ hnot => absurd rfl hnot
      loaded := by simp
      ghosts_eq := by simp [ResumePhase.isReconciled]
      subset := by simp [ResumeState.remaining]
      notifies := by simp
      progress := by simp [ResumePhase.isReconciled]
      returned := by simp }
  case finished =>
    split_ifs at hu with hphase
    exact some.inj hu ▸ h.finish hphase ha
  case append message => exact some.inj hu ▸ hmeanwhile (.append s message)
  case loopEvent event => exact some.inj hu ▸ hmeanwhile (.loopEvent s event)
  case flushSteers =>
    split at hu
    next => exact some.inj hu ▸ hmeanwhile (.flushSteerBuffer s)
    next => cases hu
  case turnEnded =>
    split at hu
    next => exact some.inj hu ▸ hmeanwhile (.flow s fun _ _ _ hhas => hhas.turnEnded)
    next => cases hu
  case prompt steer =>
    exact some.inj hu ▸ hmeanwhile (.flow s fun _ _ _ hhas => hhas.requestPrompt)
  case steer steer => exact some.inj hu ▸ hmeanwhile (.flow s fun _ _ _ hhas => hhas.steer)
  case cancel turnId =>
    refine some.inj hu ▸ hmeanwhile (.flow s fun steer key hcarries hhas => ?_)
    refine hhas.cancel (fun huser => ?_) turnId
    have hkey := hcarries.1
    simp [PromptOrigin.notificationKey, huser] at hkey
  case compactionBegan => exact some.inj hu ▸ hmeanwhile (.flow s fun _ _ _ hhas => hhas)
  case compactionEnded => exact some.inj hu ▸ hmeanwhile (.onCompactionFinished s)

end ResumeInvariant

/-! ### Runs -/

/-- The state in which the records have been replayed, in a new process. -/
structure ResumeState.Started (s : ResumeState) : Prop where
  phase_eq : s.phase = .loadFromDisk
  scheduled_eq : s.scheduledNotificationKeys = []
  replays : ∃ records, Replays records s.context

theorem ResumeInvariant.started {s : ResumeState} (h : s.Started) :
    ResumeInvariant s.deliveredNotificationKeys s.disk s := by
  obtain ⟨records, hreplays⟩ := h.replays
  refine {
    disk_eq := rfl
    flushed := hreplays.invariant (fun _ => rfl) fun c r hc => ContextMemory.Flushed.restored hc r
    delivered := fun key hkey => Or.inl hkey
    scheduled := by simp [h.scheduled_eq]
    loaded := by simp [h.phase_eq]
    ghosts_eq := by simp [h.phase_eq, ResumePhase.isReconciled]
    subset := by simp [ResumeState.remaining, h.phase_eq]
    notifies := by simp [h.phase_eq]
    progress := by simp [h.phase_eq, ResumePhase.isReconciled]
    returned := by simp [h.phase_eq] }

/-- **No notification is dropped in a run that meets the condition.**  When `resume` has returned,
the notification of every task of the previous process is placed, if the task has been detached,
the notification is not suppressed, and it had not been delivered before. -/
theorem resume_places_notifications {s u : ResumeState} {steps : List ResumeStep} (hs : s.Started)
    (h : LibRun.Run step KeepsNotifications s steps u) (hu : u.phase = .returned) :
    ∀ info ∈ (reconciled s.disk).infos, info.Notifies → info.key ∉ s.deliveredNotificationKeys →
      u.Placed info.key :=
  (h.invariant (ResumeInvariant.started hs) fun _ _ _ ht ha hu' => ht.step ha hu').returned hu

/-! ### A run that meets the condition, and one that does not -/

instance BackgroundTaskInfo.Notifies.decidable (info : BackgroundTaskInfo) :
    Decidable info.Notifies :=
  inferInstanceAs (Decidable (_ ∧ _))

instance BufferedSteer.Carries.decidable (steer : BufferedSteer) (key : String) :
    Decidable (steer.Carries key) :=
  inferInstanceAs (Decidable (_ ∧ _))

instance ContextMemory.Shows.decidable (c : ContextMemory) (key : String) :
    Decidable (c.Shows key) :=
  inferInstanceAs (Decidable (∃ m ∈ c.messages, m.notificationKey = some key))

instance ContextMemory.Defers.decidable (c : ContextMemory) (key : String) :
    Decidable (c.Defers key) :=
  inferInstanceAs (Decidable (∃ m ∈ c.deferredMessages, m.notificationKey = some key))

instance KeepsNotifications.decidable (s : ResumeState) (a : ResumeStep) :
    Decidable (KeepsNotifications s a) :=
  match a with
  | .finished => inferInstanceAs (Decidable (∀ info ∈ s.ghosts.infos, info.Notifies →
      info.key ∉ s.deliveredNotificationKeys →
      (∃ steer ∈ s.flow.steerBuffer, steer.Carries info.key) →
      s.context.Defers info.key ∨ ∃ steer ∈ s.flow.launched, steer.Carries info.key))
  | .loaded | .marked | .visited | .outputRead _ | .failed | .append _ | .loopEvent _
  | .flushSteers | .turnEnded | .prompt _ | .steer _ | .cancel _ | .compactionBegan
  | .compactionEnded => inferInstanceAs (Decidable True)

/-- A command that was running when the previous process stopped. -/
def runningTask : BackgroundTaskInfo where
  taskId := "bash-00000000"
  kind := .process
  description := "tests"
  status := .running

/-- A command that had completed. -/
def completedTask : BackgroundTaskInfo :=
  { runningTask with taskId := "bash-00000001", status := .completed }

/-- The last turn of the previous process was cancelled, so no marker is left. -/
def afterCancel : ResumeState where
  disk := [runningTask, completedTask]
  flow := (TurnFlow.restorePrompt {}).cancel none

theorem resume_places_notifications_afterCancel :
    ∃ u : ResumeState, u.Placed (GhostMap.markLost runningTask).key ∧
      u.Placed completedTask.key ∧ u.flow.launched.length = 1 ∧ u.context.messages.length = 1 := by
  have hrun : ∃ u, LibRun.Run step KeepsNotifications afterCancel
      [.loaded, .marked, .visited, .outputRead {}, .visited, .outputRead {}, .visited, .finished]
      u ∧ u.phase = .returned ∧ u.flow.launched.length = 1 ∧ u.context.messages.length = 1 :=
    ⟨_, LibRun.run_of_exec rfl (by decide +kernel), by decide +kernel⟩
  obtain ⟨u, hu, hreturned, hsizes⟩ := hrun
  have hplaced := resume_places_notifications ⟨rfl, rfl, [], Replays.nil⟩ hu hreturned
  refine ⟨u, hplaced (GhostMap.markLost runningTask) ?_ (by decide) (by decide),
    hplaced completedTask ?_ (by decide) (by decide), hsizes⟩
  · decide +kernel
  · decide +kernel

/-- **The notification of a lost task, dropped.**  The log of the previous process ends behind a
prompt, so the marker `resuming` makes the notification wait until `finishResume` empties the steer
buffer. -/
theorem resume_drops_lost_task : ∃ s u, s.Started ∧ u.phase = .returned ∧
    LibRun.Run step LibRun.always s
      [.loaded, .marked, .visited, .outputRead {}, .visited, .finished] u ∧
    ∃ info ∈ (reconciled s.disk).infos, info.Notifies ∧
      info.key ∉ s.deliveredNotificationKeys ∧ ¬ u.Placed info.key := by
  refine ⟨{ disk := [runningTask], flow := TurnFlow.restorePrompt {} }, _,
    ⟨rfl, rfl, [], Replays.nil⟩, ?_, LibRun.run_of_exec rfl (LibRun.legal_always _ _),
    GhostMap.markLost runningTask, by decide +kernel, by decide, by decide, ?_⟩
  · rfl
  · rintro (hshows | ⟨steer, hwaits | hlaunched, -⟩)
    · exact absurd hshows (by decide +kernel)
    · cases hwaits
    · cases hlaunched

end NoriCode
