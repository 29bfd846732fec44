/-
**Where the reminders of the injectors stand.**

The dynamic injectors append reminders to the context of an agent.  Each remembers in `injectedAt`
the index of its reminder in the history, and is told of every message that an undo removes in
front of it, of a clear and of a compaction.  The index is predicted before the message is
appended; while a tool exchange is open the message is deferred behind the results of the calls,
and the index is that of another message.

The module embeds `DynamicInjector` and the injectors of `agent/injection/`, over the context of
`agent/context/index.ts`.  `inject` awaits the text between the decision and the append, so the two
are separate events.  The texts are left out: the event that asks an injector carries the text that
is rendered, empty if there is none.

Main definitions:

* `InjectionState`, `InjectionState.step` — an agent with its injectors;
* `ReminderPlace.moved` — where an operation takes a message;
* `InjectionState.Tracks` — an injector points to the reminder it has appended last.

Main results:

* `undoKept_place` — **the notifications of an undo follow the messages that stay**;
* `ContextMemory.Holds.performed` — what an operation that removes nothing leaves alone;
* `run_tracks` — **an injector that injects outside tool exchanges tracks its reminder**.
-/

import NoriCode.DepartmentPermission
import NoriCode.TranscriptUndo
import NoriCode.ContextReplay

namespace NoriCode

open LibRun List Option ContextMemory Function HistoryEntry

/-! ### Removed messages -/

/-- `onContextMessageRemoved`, on `injectedAt`. -/
def onContextMessageRemoved (injectedAt : Option ℕ) (index : ℕ) : Option ℕ :=
  match injectedAt with
  | none => none
  | some n => if index < n then some (n - 1) else if index = n then none else some n

section

variable {α : Type} (msg : α → ContextMessage)

/-- **The indices the loop of `undo` removes**, newest entry first, in the order in which it
announces them. -/
def undoRemovals (count : ℤ) : ℤ → List α → List ℕ
  | _, [] => []
  | removed, e :: older =>
    if (msg e).isInjection then undoRemovals count removed older
    else if (msg e).isCompactionSummary then []
    else if isRealUserInput (msg e) then
      older.length :: if removed + 1 ≥ count then [] else undoRemovals count (removed + 1) older
    else older.length :: undoRemovals count removed older

variable {msg}

/-- A place behind everything that is removed moves by the number of removals. -/
theorem foldl_onContextMessageRemoved_length {count removed : ℤ} (l : List α) :
    (undoRemovals msg count removed l).foldl onContextMessageRemoved (some l.length) =
      some (undoKept msg count removed l).length := by
  suffices hsuff : ∀ d, (undoRemovals msg count removed l).foldl onContextMessageRemoved
      (some (l.length + d)) = some ((undoKept msg count removed l).length + d) from hsuff 0
  intro d
  induction l generalizing removed d with
  | nil => rfl
  | cons e l ih =>
    have hremove : ∀ d, onContextMessageRemoved (some ((e :: l).length + d)) l.length =
        some (l.length + d) := by
      intro d
      simp only [onContextMessageRemoved, length_cons]
      rw [if_pos (by omega)]
      congr 1
      omega
    unfold undoRemovals undoKept
    split_ifs with hinj hsum hreal hcount
    · rw [length_append, length_singleton, length_cons, Nat.add_assoc, ih, Nat.add_assoc]
    · simp
    · rw [foldl_cons, hremove, foldl_nil, length_reverse]
    · rw [foldl_cons, hremove, ih]
    · rw [foldl_cons, hremove, ih]

/-- **The notifications of an undo follow the messages that stay.**  An injection at a place is
found, after the loop, where the announced removals have moved the place. -/
theorem undoKept_place (msg : α → ContextMessage) (count removed : ℤ) {l : List α} {n : ℕ} {e : α}
    (he : l.reverse[n]? = some e) (hinj : (msg e).isInjection = true) :
    ∃ k, (undoRemovals msg count removed l).foldl onContextMessageRemoved (some n) = some k ∧
      (undoKept msg count removed l)[k]? = some e := by
  induction l generalizing removed with
  | nil => simp at he
  | cons x l ih =>
    rw [List.reverse_cons] at he
    rcases Nat.lt_or_ge n l.length with hn | hn
    · -- the entry is an older one: what is removed at the top is behind it
      rw [List.getElem?_append_left (by simpa using hn)] at he
      have htop : onContextMessageRemoved (some n) l.length = some n := by
        simp only [onContextMessageRemoved]
        rw [if_neg (by omega), if_neg (by omega)]
      unfold undoRemovals undoKept
      split_ifs with hx hsum hreal hcount
      · obtain ⟨k, hk, hget⟩ := ih _ he
        refine ⟨k, hk, ?_⟩
        rw [List.getElem?_append_left (List.getElem?_eq_some_iff.1 hget).1, hget]
      · refine ⟨n, rfl, ?_⟩
        rw [List.reverse_cons, List.getElem?_append_left (by simpa using hn)]
        exact he
      · exact ⟨n, by rw [List.foldl_cons, htop, List.foldl_nil], he⟩
      · rw [List.foldl_cons, htop]
        exact ih _ he
      · rw [List.foldl_cons, htop]
        exact ih _ he
    · -- the entry is the newest one, and stays
      have hlen : n = l.length := by
        have hlt := (List.getElem?_eq_some_iff.1 he).1
        simp only [List.length_append, List.length_reverse, List.length_singleton] at hlt
        omega
      subst hlen
      have hx : x = e := by simpa using he
      subst hx
      refine ⟨(undoKept msg count removed l).length, ?_, ?_⟩
      · rw [undoRemovals, if_pos hinj, foldl_onContextMessageRemoved_length]
      · rw [undoKept, if_pos hinj, List.getElem?_append_right (le_refl _), Nat.sub_self]
        rfl

end

/-! ### A message that stays -/

theorem not_matches_of_isInjection {m : ContextMessage} (h : m.isInjection = true)
    (reminder : Reminder) : reminder.matches m.origin = false := by
  unfold ContextMessage.isInjection ContextMessage.originKind at h
  unfold Reminder.matches
  cases reminder <;> split <;> simp_all

namespace ContextMemory

variable {c d : ContextMemory} {n : ℕ} {m : ContextMessage}

/-- A message that no step writes to stands at an index of the history. -/
def Holds (c : ContextMemory) (n : ℕ) (m : ContextMessage) : Prop :=
  (c.history.map core)[n]? = some (m, none)

instance (c : ContextMemory) (n : ℕ) (m : ContextMessage) : Decidable (c.Holds n m) := by
  unfold Holds
  infer_instance

namespace Holds

theorem messages (h : c.Holds n m) : c.messages[n]? = some m := by
  have hget := congrArg (Option.map Prod.fst) h
  rwa [← List.getElem?_map, List.map_map] at hget

theorem exists_entry (h : c.Holds n m) :
    ∃ e, c.history[n]? = some e ∧ e.message = m ∧ e.step = none := by
  rw [Holds, getElem?_map, map_eq_some_iff] at h
  obtain ⟨e, he, hcore⟩ := h
  exact ⟨e, he, congrArg Prod.fst hcore, congrArg Prod.snd hcore⟩

theorem of_entry {e : HistoryEntry} (he : c.history[n]? = some e) (hm : e.message = m)
    (hstep : e.step = none) : c.Holds n m := by
  rw [Holds, getElem?_map, he]
  exact congrArg some (Prod.ext hm hstep)

variable (h : c.Holds n m)

include h

theorem congr (hcore : d.history.map core = c.history.map core) : d.Holds n m := by
  rwa [Holds, hcore]

theorem of_append {back : List HistoryEntry} (hd : d.history = c.history ++ back) :
    d.Holds n m := by
  obtain ⟨e, he, hm, hstep⟩ := h.exists_entry
  refine of_entry ?_ hm hstep
  rw [hd, List.getElem?_append_left (List.getElem?_eq_some_iff.1 he).1, he]

theorem pushHistory (ms : List ContextMessage) : (c.pushHistory ms).Holds n m :=
  h.of_append rfl

theorem flush : c.flushDeferredMessagesIfToolExchangeClosed.Holds n m := by
  unfold flushDeferredMessagesIfToolExchangeClosed
  split_ifs
  · exact h
  · exact (h.pushHistory _).congr rfl

theorem append (message : ContextMessage) : (c.append message).Holds n m := by
  unfold ContextMemory.append
  split_ifs
  · exact h.congr rfl
  · exact h.pushHistory [message]

theorem answer (id : String) (result : ExecutableToolResult) : (c.answer id result).Holds n m :=
  (h.pushHistory [toolResultMessage id result]).congr rfl

theorem toolResult (id : String) (result : ExecutableToolResult) :
    (c.toolResult id result).Holds n m := by
  unfold ContextMemory.toolResult
  split_ifs
  · exact (h.answer id result).flush
  · exact h

theorem closePending : c.closePending.Holds n m :=
  closePending_rule (P := (·.Holds n m)) h fun _ h id => h.toolResult id interruptedResult

theorem updateStep (step : ℕ) (f : ContextMessage → ContextMessage) :
    (c.updateStep step f).Holds n m := by
  obtain ⟨e, he, hm, hstep⟩ := h.exists_entry
  refine of_entry (e := e) ?_ hm hstep
  simp [ContextMemory.updateStep, he, hstep]

theorem endStep (uuid : String) (usage : Option TokenUsage) : (c.endStep uuid usage).Holds n m := by
  have hclosed : Holds { c with openSteps := mapDelete c.openSteps uuid } n m := h.congr rfl
  cases usage with
  | none => exact hclosed.flush
  | some usage => exact (hclosed.congr (account_core _ usage _)).flush

theorem loopEvent (e : LoopRecordedEvent) : (c.loopEvent e).Holds n m :=
  loopEvent_rule (P := (·.Holds n m)) h (fun _ => h.closePending.of_append rfl) h.endStep
    (fun step _ => h.updateStep step _) (fun step _ => (h.updateStep step _).congr rfl)
    h.toolResult e

/-- A reminder is never taken back: what is taken back has been triggered by the system. -/
theorem popMatched (hinj : m.isInjection = true) (reminder : Reminder) :
    (c.popMatched reminder.matches).Holds n m := by
  unfold ContextMemory.popMatched ContextMemory.dropLastMessage
  split_ifs with hlast hdeferred
  · exact h.congr rfl
  · obtain ⟨e, he, rfl, hstep⟩ := h.exists_entry
    obtain ⟨hlt, hget⟩ := List.getElem?_eq_some_iff.1 he
    refine of_entry (e := e) ?_ rfl hstep
    have hne : n ≠ c.history.length - 1 := by
      rintro rfl
      have hnil : c.deferredMessages = [] :=
        List.length_eq_zero_iff.1 (Nat.eq_zero_of_not_pos hdeferred)
      have hlastEntry : c.history.getLast? = some e := by rw [List.getLast?_eq_getElem?, he]
      simp only [ContextMemory.lastMessage, hnil, List.getLast?_nil, Option.none_or, hlastEntry,
        Option.map_some, Option.any_some] at hlast
      rw [not_matches_of_isInjection hinj] at hlast
      cases hlast
    rw [List.getElem?_dropLast, if_pos (by omega), he]
  · exact h

end Holds

end ContextMemory

/-! ### Places -/

/-- Where an appended message stands: nowhere any more, at an index of the history, or at an index
of the deferred messages. -/
inductive ReminderPlace where
  | gone
  | inHistory (index : ℕ)
  | deferred (index : ℕ)
  deriving DecidableEq

namespace ContextMemory

/-- The indices an undo announces. -/
def undoRemovals (c : ContextMemory) (count : ℤ) : List ℕ :=
  if c.canUndo count then NoriCode.undoRemovals (·.message) count 0 c.history.reverse else []

/-- The indices of the messages that an undo keeps. -/
def undoneIndices (c : ContextMemory) (count : ℤ) : List ℕ :=
  (undoKept (·.1.message) count 0 c.history.zipIdx.reverse).map (·.2)

/-- The last message is taken back by an operation. -/
def takesBack (c : ContextMemory) (reminder : Reminder) : Bool :=
  c.lastMessage.any fun m => reminder.matches m.origin

end ContextMemory

/-- **Where an operation takes a message** of the context. -/
def ReminderPlace.moved (c : ContextMemory) (op : ContextOp) : ReminderPlace → ReminderPlace
  | .gone => .gone
  | .inHistory n =>
    match op with
    | .popMatchedMessage reminder =>
      if c.takesBack reminder ∧ c.deferredMessages = [] ∧ n + 1 = c.history.length then .gone
      else .inHistory n
    | .undo count =>
      if c.canUndo count then
        if n ∈ c.undoneIndices count then .inHistory ((c.undoneIndices count).idxOf n)
        else .gone
      else .inHistory n
    | .clear | .applyCompaction .. | .useProjectedHistoryFrom _ => .gone
    | _ => .inHistory n
  | .deferred k =>
    match op with
    -- the results of the interrupted calls come first
    | .loopEvent (.stepBegin ..) | .finishResume =>
      if c.hasOpenToolExchange then
        .inHistory (c.history.length + c.pendingToolResultIds.toList.length + k)
      else .deferred k
    | .loopEvent (.stepEnd ..) =>
      if c.hasOpenToolExchange then .deferred k else .inHistory (c.history.length + k)
    -- the result of the last waiting call comes first
    | .loopEvent (.toolResult id _) =>
      if id ∈ c.pendingToolResultIds ∧ (c.pendingToolResultIds.erase id).isEmpty then
        .inHistory (c.history.length + 1 + k)
      else .deferred k
    | .popMatchedMessage reminder =>
      if c.takesBack reminder ∧ k + 1 = c.deferredMessages.length then .gone else .deferred k
    | .undo count => if c.canUndo count then .gone else .deferred k
    | .clear | .applyCompaction .. | .useProjectedHistoryFrom _ => .gone
    | _ => .deferred k

theorem ContextMemory.Holds.popMatched_place {c : ContextMemory} {n : ℕ} {m : ContextMessage}
    (h : c.Holds n m) (hinj : m.isInjection = true) (reminder : Reminder) :
    (ReminderPlace.inHistory n).moved c (.popMatchedMessage reminder) = .inHistory n ∧
      (c.popMatched reminder.matches).Holds n m := by
  have hkept := h.popMatched hinj reminder
  refine ⟨if_neg ?_, hkept⟩
  rintro ⟨htakes, hnil, hlast⟩
  obtain ⟨e, he, -⟩ := hkept.exists_entry
  have hlt := (List.getElem?_eq_some_iff.1 he).1
  have hdrop : c.popMatched reminder.matches = c.dropLastMessage := if_pos htakes
  rw [hdrop, dropLastMessage, if_neg (by simp [hnil]), List.length_dropLast] at hlt
  omega

section

variable {α β : Type} {msg : α → ContextMessage}

theorem undoRemovals_map (f : β → α) (count removed : ℤ) (l : List β) :
    undoRemovals msg count removed (l.map f) =
      undoRemovals (fun x => msg (f x)) count removed l := by
  induction l generalizing removed with
  | nil => rfl
  | cons e l ih => simp only [map_cons, undoRemovals, length_map, ih]

theorem undoKept_sublist (count removed : ℤ) (l : List α) :
    (undoKept msg count removed l).Sublist l.reverse := by
  induction l generalizing removed with
  | nil => exact List.Sublist.refl _
  | cons e l ih =>
    rw [reverse_cons]
    unfold undoKept
    split_ifs
    · exact (ih removed).append (List.Sublist.refl _)
    · rw [reverse_cons]
    · exact sublist_append_left _ _
    · exact (ih _).trans (sublist_append_left _ _)
    · exact (ih _).trans (sublist_append_left _ _)

end

namespace ContextMemory

variable {c : ContextMemory} {n : ℕ} {m : ContextMessage} {count : ℤ}

theorem undone_history (h : c.canUndo count = true) :
    (c.undone count).history = undoKept (·.message) count 0 c.history.reverse := by
  unfold undone
  rw [if_pos h]
  have hkept := undoFrom_kept count c.history.reverse
    { kept := [], covered := c.tokenCountCoveredMessageCount, tokenCount := c.tokenCount }
  rw [append_nil] at hkept
  exact hkept

/-- **An undo takes an injection where its notifications say.** -/
theorem Holds.undone (h : c.Holds n m) (hinj : m.isInjection = true) (count : ℤ) :
    ∃ k, (c.undoRemovals count).foldl onContextMessageRemoved (some n) = some k ∧
      (ReminderPlace.inHistory n).moved c (.undo count) = .inHistory k ∧
      (c.undone count).Holds k m := by
  obtain ⟨e, he, rfl, hstep⟩ := h.exists_entry
  unfold undoRemovals ReminderPlace.moved
  by_cases hundo : c.canUndo count = true
  · simp only [if_pos hundo]
    have hrev : c.history.reverse.reverse[n]? = some e := by rwa [List.reverse_reverse]
    obtain ⟨k, hk, hget⟩ := undoKept_place (·.message) count 0 hrev hinj
    refine ⟨k, hk, ?_, Holds.of_entry (by rw [undone_history hundo, hget]) rfl hstep⟩
    -- the same loop over the entries with their indices
    have hzip : c.history.zipIdx.reverse.reverse[n]? = some (e, n) := by
      rw [List.reverse_reverse, List.getElem?_zipIdx, he]
      simp
    obtain ⟨k', hk', hget'⟩ := undoKept_place (fun x : HistoryEntry × ℕ => x.1.message)
      count 0 hzip hinj
    have hmap : c.history.reverse = c.history.zipIdx.reverse.map Prod.fst := by
      rw [List.map_reverse, List.zipIdx_map_fst]
    rw [hmap, undoRemovals_map, hk'] at hk
    obtain rfl := some.inj hk
    have hnodup : (c.undoneIndices count).Nodup := by
      refine List.Nodup.sublist ((undoKept_sublist count 0 _).map Prod.snd) ?_
      rw [List.reverse_reverse, List.zipIdx_map_snd]
      exact List.nodup_range'
    have hindex : (c.undoneIndices count)[k']? = some n := by
      rw [undoneIndices, List.getElem?_map, hget']
      rfl
    obtain ⟨hlt, hval⟩ := List.getElem?_eq_some_iff.1 hindex
    have hidx := hnodup.idxOf_getElem k' hlt
    rw [hval] at hidx
    rw [if_pos (List.mem_of_getElem? hindex), hidx]
  · simp only [if_neg hundo]
    refine ⟨n, rfl, rfl, ?_⟩
    rw [undone_of_not_canUndo (Bool.not_eq_true _ ▸ hundo)]
    exact h

end ContextMemory

/-! ### Injectors -/

inductive Injector where
  | pluginSessionStart
  | goalIntake
  | responseSummary
  | todoList
  | discussMode
  | permissionMode
  | goal
  deriving DecidableEq

def Injector.injectionVariant : Injector → String
  | .pluginSessionStart => "plugin_session_start"
  | .goalIntake => "goal_intake"
  | .responseSummary => "response_summary"
  | .todoList => "todo_list_reminder"
  | .discussMode => "discuss_mode"
  | .permissionMode => "permission_mode"
  | .goal => "goal"

/-- The origin of the reminders of an injector. -/
def Injector.origin (i : Injector) : PromptOrigin := { kind := .injection i.injectionVariant }

/-- A reminder that an injector has appended, and where it stands. -/
structure AppendedReminder where
  message : ContextMessage
  place : ReminderPlace

/-- **An agent with its injectors.**  `waiting` holds the injections between the decision and the
append.  `appended` is no state of the code: it follows the reminder that each injector has
appended last. -/
structure InjectionState where
  isMain : Bool
  context : ContextMemory := {}
  injectedAt : Injector → Option ℕ := fun _ => none
  waiting : List (Injector × String) := []
  discussModeActive : Bool := false
  wasActive : Bool := false
  mode : PermissionMode := .manual
  lastMode : Option PermissionMode := none
  refreshAfterCompaction : Bool := false
  appended : Injector → Option AppendedReminder := fun _ => none

inductive InjectionEvent where
  /-- `inject`, up to the append, with the text that is rendered. -/
  | inject (i : Injector) (text : String)
  /-- The rest of a waiting `inject`. -/
  | resume (index : ℕ)
  | context (op : ContextOp)
  | setDiscussMode (active : Bool)
  | setMode (mode : PermissionMode)

def isUserPrompt (m : ContextMessage) : Bool := m.originKind == some .user

inductive DiscussModeVariant where
  | full
  | sparse

def DISCUSS_MODE_DEDUP_MIN_TURNS : ℕ := 2

def DISCUSS_MODE_FULL_REFRESH_TURNS : ℕ := 5

/-- The loop of `getVariant` over the messages behind the last reminder. -/
def discussVariantFrom : ℕ → List ContextMessage → Option DiscussModeVariant
  | assistantTurnsSince, [] =>
    if assistantTurnsSince ≥ DISCUSS_MODE_FULL_REFRESH_TURNS then some .full
    else if assistantTurnsSince ≥ DISCUSS_MODE_DEDUP_MIN_TURNS then some .sparse
    else none
  | assistantTurnsSince, m :: rest =>
    if m.role = .assistant then discussVariantFrom (assistantTurnsSince + 1) rest
    else if m.role = .user then some .full
    else discussVariantFrom assistantTurnsSince rest

namespace InjectionState

/-- `getVariant` of the discuss mode. -/
def getVariant (s : InjectionState) : Option DiscussModeVariant :=
  match s.injectedAt .discussMode with
  | none => some .full
  | some n => discussVariantFrom 0 (s.context.messages.drop (n + 1))

def setInjectedAt (s : InjectionState) (i : Injector) (index : Option ℕ) : InjectionState :=
  { s with injectedAt := update s.injectedAt i index }

/-- The first reminder of plugin session starts in the history, which is taken over. -/
def replayedAt (s : InjectionState) : Option ℕ :=
  s.context.messages.findIdx? fun m =>
    m.originKind == some (.injection Injector.pluginSessionStart.injectionVariant)

/-- **`getInjection`**: what is noted down, and whether the text is injected. -/
def getInjection (s : InjectionState) : Injector → InjectionState × Bool
  | .pluginSessionStart =>
    if s.injectedAt .pluginSessionStart ≠ none then (s, false)
    else if s.replayedAt ≠ none then (s.setInjectedAt .pluginSessionStart s.replayedAt, false)
    else (s, true)
  | .responseSummary => (s, s.isMain && s.context.messages.any isUserPrompt)
  | .discussMode =>
    if s.discussModeActive then
      let s :=
        if s.wasActive then s else { s.setInjectedAt .discussMode none with wasActive := true }
      (s, s.getVariant.isSome)
    else if s.wasActive then
      ({ s.setInjectedAt .discussMode none with wasActive := false }, true)
    else (s, false)
  | .permissionMode =>
    if s.refreshAfterCompaction = false ∧ s.lastMode = some s.mode then (s, false)
    else
      ({ s with refreshAfterCompaction := false, lastMode := some s.mode },
        s.mode == .auto || s.lastMode == some .auto)
  | .goalIntake | .todoList => (s, true)
  | .goal => (s, s.isMain)

/-- The append of `inject`: the index is predicted, then the message is appended. -/
def appendReminder (s : InjectionState) (i : Injector) (text : String) : InjectionState :=
  { s.setInjectedAt i (some s.context.history.length) with
    context := s.context.append (systemReminderMessage text i.origin)
    appended := update s.appended i (some
      { message := systemReminderMessage text i.origin
        place :=
          if s.context.hasOpenToolExchange then .deferred s.context.deferredMessages.length
          else .inHistory s.context.history.length }) }

/-- `inject` up to the append.  The response summary does not append: it sets the transient
reminder. -/
def beginInject (s : InjectionState) (i : Injector) (text : String) : InjectionState :=
  if i = .responseSummary then
    if (s.getInjection i).2 then
      { s.setInjectedAt i (some s.context.history.length) with
        context := s.context.performed (.setTransientSystemReminder text i.origin) }
    else { s with context := s.context.performed .clearTransientSystemReminder }
  else if (s.getInjection i).2 ∧ text ≠ "" then
    { (s.getInjection i).1 with waiting := s.waiting ++ [(i, text)] }
  else (s.getInjection i).1

/-- What the injectors are told of an operation on the context. -/
def notified (s : InjectionState) (op : ContextOp) : Injector → Option ℕ :=
  match op with
  | .undo count => fun i =>
    (s.context.undoRemovals count).foldl onContextMessageRemoved (s.injectedAt i)
  | .clear | .applyCompaction .. | .useProjectedHistoryFrom _ => fun _ => none
  | _ => s.injectedAt

/-- An operation on the context, with what the injectors are told. -/
def performed (s : InjectionState) (op : ContextOp) : InjectionState :=
  { s with
    context := s.context.performed op
    injectedAt := s.notified op
    wasActive :=
      match op with
      | .clear | .useProjectedHistoryFrom _ => s.discussModeActive
      | _ => s.wasActive
    refreshAfterCompaction :=
      match op with
      | .applyCompaction .. => true
      | _ => s.refreshAfterCompaction
    appended := fun i =>
      (s.appended i).map fun r => { r with place := r.place.moved s.context op } }

def step (s : InjectionState) : InjectionEvent → Option InjectionState
  | .inject i text => some (s.beginInject i text)
  | .resume index =>
    s.waiting[index]?.map fun w =>
      { s with waiting := s.waiting.eraseIdx index }.appendReminder w.1 w.2
  | .context op => some (s.performed op)
  | .setDiscussMode active => some { s with discussModeActive := active }
  | .setMode mode => some { s with mode := mode }

/-- A fresh agent. -/
def init (isMain : Bool) : InjectionState := { isMain := isMain }

/-! ### Tracking -/

/-- **An injector tracks its reminder**: its `injectedAt` is null, or the index in the history of
the reminder it has appended last. -/
def Tracks (s : InjectionState) (i : Injector) : Prop :=
  ∀ n ∈ s.injectedAt i, ∃ m, s.appended i = some ⟨m, .inHistory n⟩ ∧
    s.context.messages[n]? = some m

/-- An event of an injector that does what it should: what it appends is not deferred, it does not
point to a reminder it only sets for a request, and it takes over no reminder of others. -/
def AppendsAtOnce (i : Injector) (s : InjectionState) : InjectionEvent → Prop
  | .inject j _ =>
    j = i →
      (i = .responseSummary → (s.getInjection i).2 = false) ∧
      (i = .pluginSessionStart → s.injectedAt i = none → s.replayedAt = none)
  | .resume index => ∀ w ∈ s.waiting[index]?, w.1 = i → s.context.hasOpenToolExchange = false
  | _ => True

instance (i : Injector) (s : InjectionState) (e : InjectionEvent) :
    Decidable (AppendsAtOnce i s e) := by
  cases e <;> unfold AppendsAtOnce <;> infer_instance

/-- The invariant of an injector: the reminder stands where the injector points to, and belongs to
no step. -/
def Points (s : InjectionState) (i : Injector) : Prop :=
  ∀ n ∈ s.injectedAt i, ∃ m, s.appended i = some ⟨m, .inHistory n⟩ ∧ m.isInjection = true ∧
    s.context.Holds n m

variable {s t : InjectionState} {i : Injector}

/-- The decision notes down no new index, unless a reminder is taken over. -/
theorem injectedAt_getInjection (j : Injector)
    (hadopt : j = i → i = .pluginSessionStart → s.injectedAt i = none → s.replayedAt = none) :
    ∀ n ∈ (s.getInjection j).1.injectedAt i, n ∈ s.injectedAt i := by
  have hforget : ∀ k : Injector, ∀ n ∈ update s.injectedAt k none i, n ∈ s.injectedAt i := by
    intro k n hn
    by_cases hk : i = k
    · subst hk
      rw [update_self] at hn
      cases hn
    · rwa [update_of_ne hk] at hn
  intro n hn
  cases j with
  | pluginSessionStart =>
    simp only [getInjection] at hn
    split_ifs at hn with hset hreplayed
    · exact hn
    · by_cases hi : i = .pluginSessionStart
      · subst hi
        exact absurd (hadopt rfl rfl (not_not.1 hset)) hreplayed
      · have hsame : update s.injectedAt .pluginSessionStart s.replayedAt i =
            s.injectedAt i := update_of_ne hi _ _
        exact hsame ▸ hn
    · exact hn
  | discussMode =>
    simp only [getInjection] at hn
    split_ifs at hn with hactive hwas hwas
    · exact hn
    · exact hforget _ n hn
    · exact hforget _ n hn
    · exact hn
  | permissionMode =>
    simp only [getInjection] at hn
    split_ifs at hn <;> exact hn
  | goalIntake | responseSummary | todoList | goal => exact hn

theorem getInjection_rest (s : InjectionState) (j : Injector) :
    (s.getInjection j).1.context = s.context ∧ (s.getInjection j).1.appended = s.appended := by
  cases j with
  | pluginSessionStart | discussMode | permissionMode =>
    simp only [getInjection]
    split_ifs <;> exact ⟨rfl, rfl⟩
  | goalIntake | responseSummary | todoList | goal => exact ⟨rfl, rfl⟩

theorem performed_appended {op : ContextOp} {m : ContextMessage} {n k : ℕ}
    (hm : s.appended i = some ⟨m, .inHistory n⟩)
    (hplace : (ReminderPlace.inHistory n).moved s.context op = .inHistory k) :
    (s.performed op).appended i = some ⟨m, .inHistory k⟩ := by
  have hmoved : (s.performed op).appended i =
      (s.appended i).map fun r => { r with place := r.place.moved s.context op } := rfl
  rw [hmoved, hm, map_some, hplace]

namespace Points

theorem initial (isMain : Bool) (i : Injector) : (init isMain).Points i := fun n hn => by cases hn

variable (h : s.Points i)

include h

theorem mono (hsub : ∀ n ∈ t.injectedAt i, n ∈ s.injectedAt i)
    (happended : t.appended i = s.appended i) (hhistory : t.context.history = s.context.history) :
    t.Points i := by
  intro n hn
  obtain ⟨m, hm, hinj, hholds⟩ := h n (hsub n hn)
  exact ⟨m, happended.trans hm, hinj, hholds.congr (congrArg _ hhistory)⟩

theorem beginInject {j : Injector} {text : String} (hok : AppendsAtOnce i s (.inject j text)) :
    (s.beginInject j text).Points i := by
  obtain ⟨hcontext, happended⟩ := s.getInjection_rest j
  have hsub := injectedAt_getInjection (s := s) (i := i) j fun hj => (hok hj).2
  unfold InjectionState.beginInject
  split_ifs with hsummary hset hwait
  · subst hsummary
    refine h.mono (fun n hn => ?_) rfl rfl
    have hne : i ≠ .responseSummary := by
      rintro rfl
      rw [(hok rfl).1 rfl] at hset
      cases hset
    have hsame : update s.injectedAt .responseSummary (some s.context.history.length) i =
        s.injectedAt i := update_of_ne hne _ _
    exact hsame ▸ hn
  · exact h.mono (fun n hn => hn) rfl rfl
  · exact h.mono hsub (congrFun happended i) (congrArg _ hcontext)
  · exact h.mono hsub (congrFun happended i) (congrArg _ hcontext)

theorem appendReminder {j : Injector} {text : String}
    (hok : j = i → s.context.hasOpenToolExchange = false) : (s.appendReminder j text).Points i := by
  intro n hn
  by_cases hj : i = j
  · subst hj
    have hclosed := hok rfl
    have hself : update s.injectedAt i (some s.context.history.length) i =
        some s.context.history.length := update_self ..
    obtain rfl : s.context.history.length = n := some.inj (hself.symm.trans hn)
    refine ⟨systemReminderMessage text i.origin, ?_, rfl, ?_⟩
    · simp [InjectionState.appendReminder, hclosed]
    · simp [InjectionState.appendReminder, append, hclosed, pushHistory, ContextMemory.Holds, core]
  · have hsame : update s.injectedAt j (some s.context.history.length) i =
        s.injectedAt i := update_of_ne hj _ _
    obtain ⟨m, hm, hinj, hholds⟩ := h n (hsame ▸ hn)
    exact ⟨m, (update_of_ne hj _ _).trans hm, hinj, hholds.append _⟩

/-- **An operation on the context.** -/
theorem performed (op : ContextOp) : (s.performed op).Points i := by
  -- where the injector is told nothing, the reminder has to stay where it is
  have hstay : s.notified op i = s.injectedAt i →
      (∀ n m, s.context.Holds n m → m.isInjection = true →
        (ReminderPlace.inHistory n).moved s.context op = .inHistory n ∧
          (s.context.performed op).Holds n m) → (s.performed op).Points i := by
    intro hnotified hkept n hn
    obtain ⟨m, hm, hinj, hholds⟩ := h n (hnotified ▸ hn)
    obtain ⟨hplace, hholds⟩ := hkept n m hholds hinj
    exact ⟨m, performed_appended hm hplace, hinj, hholds⟩
  cases op with
  | appendMessage message => exact hstay rfl fun n m hholds _ => ⟨rfl, hholds.append message⟩
  | appendTranscriptMessage | turnPrompt => exact hstay rfl fun n m hholds _ => ⟨rfl, hholds⟩
  | setTransientSystemReminder | clearTransientSystemReminder =>
    exact hstay rfl fun n m hholds _ => ⟨rfl, hholds.congr rfl⟩
  | loopEvent e => exact hstay rfl fun n m hholds _ => ⟨rfl, hholds.loopEvent e⟩
  | popMatchedMessage reminder =>
    exact hstay rfl fun n m hholds hinj => hholds.popMatched_place hinj reminder
  | undo count =>
    intro n hn
    cases hat : s.injectedAt i with
    | none =>
      have hnone : ∀ l : List ℕ, l.foldl onContextMessageRemoved none = none := by
        intro l
        induction l with
        | nil => rfl
        | cons k l ih => exact ih
      have hnot : s.notified (.undo count) i = none := by
        simp [notified, hat, hnone]
      cases hnot.symm.trans hn
    | some k =>
      obtain ⟨m, hm, hinj, hholds⟩ := h k hat
      obtain ⟨k', hfold, hplace, hholds⟩ := hholds.undone hinj count
      have hnot : s.notified (.undo count) i = some k' := by
        simp [notified, hat, hfold]
      cases hnot.symm.trans hn
      exact ⟨m, performed_appended hm hplace, hinj, hholds⟩
  | clear | applyCompaction | useProjectedHistoryFrom => exact fun n hn => by cases hn
  | finishResume =>
    exact hstay rfl fun n m hholds _ =>
      ⟨rfl, ContextMemory.Holds.closePending (hholds.congr rfl)⟩
  | importMigratedHistory messages =>
    exact hstay rfl fun n m hholds _ => ⟨rfl, hholds.pushHistory messages⟩

theorem step {e : InjectionEvent} (hok : AppendsAtOnce i s e) (hs : s.step e = some t) :
    t.Points i := by
  cases e with
  | inject j text =>
    cases hs
    exact h.beginInject hok
  | resume index =>
    obtain ⟨w, hw, rfl⟩ := map_eq_some_iff.1 hs
    have hrest : Points { s with waiting := s.waiting.eraseIdx index } i :=
      h.mono (fun n hn => hn) rfl rfl
    exact hrest.appendReminder (hok w hw)
  | context op =>
    cases hs
    exact h.performed op
  | setDiscussMode | setMode =>
    cases hs
    exact h.mono (fun n hn => hn) rfl rfl

theorem tracks : s.Tracks i := by
  intro n hn
  obtain ⟨m, hm, _, hholds⟩ := h n hn
  exact ⟨m, hm, hholds.messages⟩

end Points

end InjectionState

/-- **An injector that appends at once tracks its reminder**, whatever the other injectors do, and
whatever is removed, cleared or compacted. -/
theorem run_tracks {isMain : Bool} {i : Injector} {l : List InjectionEvent} {s : InjectionState}
    (h : Run InjectionState.step (InjectionState.AppendsAtOnce i) (.init isMain) l s) :
    s.Tracks i := by
  have hpoints : s.Points i :=
    h.invariant (I := fun t => t.Points i) (InjectionState.Points.initial isMain i)
      fun _ _ _ ht hok hs => ht.step hok hs
  exact hpoints.tracks

def AUTO_MODE_ENTER_REMINDER : String :=
  "Auto permission mode is active. Tool approvals will be handled automatically while this mode " ++
    "remains enabled.\n" ++
    "  - Continue normally without pausing for approval prompts.\n" ++
    "  - Do NOT call AskUserQuestion while auto mode is active. Make a reasonable decision and " ++
    "continue without asking the user."

/-- A prompt of the user. -/
def userHello : ContextMessage where
  role := .user
  content := [.text "Hello"]
  toolCalls := []
  origin := some { kind := .user }

/-- One run of the permission mode: a reminder is appended between two exchanges, the answered
prompt in front of it is undone, and the index moves. -/
theorem run_tracks_undone : ∃ s,
    Run InjectionState.step (InjectionState.AppendsAtOnce .permissionMode) (.init true)
      [.context (.appendMessage userHello), .setMode .auto,
        .inject .permissionMode AUTO_MODE_ENTER_REMINDER, .resume 0,
        .context (.undo 1)] s ∧
      s.Tracks .permissionMode ∧ s.injectedAt .permissionMode = some 0 := by
  have hrun : ∃ s,
      Run InjectionState.step (InjectionState.AppendsAtOnce .permissionMode) (.init true)
        [.context (.appendMessage userHello), .setMode .auto,
          .inject .permissionMode AUTO_MODE_ENTER_REMINDER, .resume 0,
          .context (.undo 1)] s ∧ s.injectedAt .permissionMode = some 0 :=
    exists_run (by decide +kernel) (by decide +kernel)
  obtain ⟨s, hs, hat⟩ := hrun
  exact ⟨s, hs, run_tracks hs, hat⟩

/-- **A reminder injected while a call waits.**  It is deferred behind the result, and the
injector points to the result. -/
theorem not_run_tracks : ¬ ∀ (isMain : Bool) (i : Injector) (l : List InjectionEvent)
    (s : InjectionState), Run InjectionState.step always (.init isMain) l s → s.Tracks i := by
  intro h
  have hrun : ∃ s, Run InjectionState.step always (.init true)
      [.context (.loopEvent (.stepBegin "s1" "t1")),
        .context (.loopEvent (.toolCall "s1" "a" "Bash" none)), .setMode .auto,
        .inject .permissionMode AUTO_MODE_ENTER_REMINDER, .resume 0,
        .context (.loopEvent (.toolResult "a" { output := .text "done" }))] s ∧
      (s.injectedAt .permissionMode = some 1 ∧
        (s.appended .permissionMode).map AppendedReminder.place = some (.inHistory 2)) :=
    exists_run (by decide +kernel) (legal_always _ _)
  obtain ⟨s, hs, hat, hplace⟩ := hrun
  obtain ⟨m, hm, -⟩ := h _ .permissionMode _ s hs 1 hat
  rw [hm] at hplace
  cases hplace

end NoriCode
