/-
**An undo that reaches its limit.**

`undo` walks back through the history and removes what it passes, except injections, until it has
removed the requested number of user inputs.  It does not pass a compaction summary.  Whether there
are enough inputs is only known at the end of the walk: when there are not, everything that can be
undone has been undone, the record has been logged, and an error says how many inputs that were.
The RPC then leaves the goal alone.

The module embeds `undoHistory` of `agent/index.ts` over `undo` of `agent/context/index.ts`, and
`canUndoHistory`, which the service asks first, of `sessionService.ts`.

Main definitions:

* `ContextMemory.boundary`, `ContextMemory.active` — the history up to the last
  summary, and behind it;
* `GoalAgent`, `GoalAgent.undoHistory` — the RPC;
* `canUndoHistory` — the question of the service.

Main results:

* `undoError_ne_none_iff` — an undo raises an error exactly when the history has too few
  inputs behind the last summary;
* `undoHistory_limit` — **what an undo that raises an error has done**;
* `canUndoHistory_iff` — **the service asks for what is needed**;
* `ContextMemory.undone_undone` — **one undo after another is one undo**.
-/

import NoriCode.ContextReplayLive
import NoriCode.ContextTokens
import NoriCode.LiveAgent

namespace NoriCode

open List ContextMemory

/-! ### What can be undone -/

namespace ContextMemory

/-- The history up to the last compaction summary, which no undo passes. -/
def boundary (c : ContextMemory) : List HistoryEntry :=
  c.history.rdropWhile (!·.message.isCompactionSummary)

/-- The history behind the last compaction summary. -/
def active (c : ContextMemory) : List HistoryEntry :=
  c.history.rtakeWhile (!·.message.isCompactionSummary)

/-- The number of inputs that can be undone. -/
def undoableCount (c : ContextMemory) : ℕ := c.active.countP (isRealUserInput ·.message)

/-- Of the first `n` entries, those that an undo of all of them removes. -/
def undoneOf (n : ℕ) (entries : List HistoryEntry) : List HistoryEntry :=
  (entries.take n).filter (!·.message.isInjection)

/-- The covered messages an undo of everything that can be undone removes. -/
def undoneCovered (c : ContextMemory) : List HistoryEntry :=
  undoneOf (c.tokenCountCoveredMessageCount - c.boundary.length) c.active

theorem boundary_append_active (c : ContextMemory) : c.boundary ++ c.active = c.history :=
  rdropWhile_append_rtakeWhile

theorem active_not_summary (c : ContextMemory) :
    ∀ e ∈ c.active, e.message.isCompactionSummary = false := by
  intro e he
  simpa using mem_rtakeWhile_imp he

theorem boundary_reverse (c : ContextMemory) : c.boundary.reverse = [] ∨
    ∃ e older, c.boundary.reverse = e :: older ∧ e.message.isCompactionSummary = true := by
  cases hreverse : c.boundary.reverse with
  | nil => exact .inl rfl
  | cons e older =>
    have hne : c.boundary ≠ [] := by
      intro hnil
      rw [hnil] at hreverse
      cases hreverse
    have hlast := rdropWhile_last_not (fun e : HistoryEntry =>
      !e.message.isCompactionSummary) c.history hne
    have he : c.boundary.getLast hne = e := by
      rw [← head_reverse (reverse_ne_nil_iff.2 hne)]
      simp [hreverse, head_cons]
    change ¬ (!(c.boundary.getLast hne).message.isCompactionSummary) = true at hlast
    rw [he] at hlast
    exact .inr ⟨e, older, rfl, by simpa using hlast⟩

end ContextMemory

open ContextMemory

/-! ### The walk -/

theorem isInjection_of_isCompactionSummary {m : ContextMessage}
    (h : m.isCompactionSummary = true) : m.isInjection = false := by
  simp only [ContextMessage.isCompactionSummary, beq_iff_eq] at h
  rw [ContextMessage.isInjection, h]

section

variable {count : ℤ} {older : List HistoryEntry} {e : HistoryEntry} {s : UndoState}

theorem undoFrom_injection (h : e.message.isInjection = true) :
    undoFrom count (e :: older) s = undoFrom count older { s with kept := e :: s.kept } := by
  rw [undoFrom, if_pos h]

theorem undoFrom_summary (h : e.message.isCompactionSummary = true) :
    undoFrom count (e :: older) s = { s.keepAll (e :: older) with stoppedAtBoundary := true } := by
  rw [undoFrom, isInjection_of_isCompactionSummary h, if_neg Bool.false_ne_true, if_pos h]

theorem undoFrom_input (h : isRealUserInput e.message = true)
    (hcount : s.removedUserCount + 1 < count) :
    undoFrom count (e :: older) s = undoFrom count older (s.remove older.length e).countUser := by
  rw [undoFrom, isInjection_of_isRealUserInput h, if_neg Bool.false_ne_true,
    isCompactionSummary_of_isRealUserInput h, if_neg Bool.false_ne_true, if_pos h,
    if_neg (by omega)]

theorem undoFrom_last (h : isRealUserInput e.message = true)
    (hcount : count ≤ s.removedUserCount + 1) :
    undoFrom count (e :: older) s = (s.remove older.length e).countUser.keepAll older := by
  rw [undoFrom, isInjection_of_isRealUserInput h, if_neg Bool.false_ne_true,
    isCompactionSummary_of_isRealUserInput h, if_neg Bool.false_ne_true, if_pos h, if_pos hcount]

theorem undoFrom_other (hinjection : e.message.isInjection = false)
    (hsummary : e.message.isCompactionSummary = false)
    (hinput : isRealUserInput e.message = false) :
    undoFrom count (e :: older) s = undoFrom count older (s.remove older.length e) := by
  rw [undoFrom, hinjection, hsummary, hinput]
  simp

end

variable {entries : List HistoryEntry} {e : HistoryEntry}

/-- The covered entries of a list that stands behind `n` entries. -/
theorem undoneOf_append {covered n : ℕ} (h : e.message.isInjection = false) :
    undoneOf (covered - n) (entries ++ [e]) =
      if entries.length + n < covered then entries.filter (!·.message.isInjection) ++ [e]
      else undoneOf (covered - n) entries := by
  unfold undoneOf
  split_ifs with hlt
  · rw [take_of_length_le (by simp only [length_append, length_singleton]; omega),
      filter_append, filter_cons_of_pos (by rw [h]; rfl), filter_nil]
  · rw [take_append_of_le_length (by omega)]

theorem undoneOf_append_injection {n : ℕ} (h : e.message.isInjection = true) :
    undoneOf n (entries ++ [e]) = undoneOf n entries := by
  unfold undoneOf
  rw [take_append, filter_append]
  have hnone : ([e].take (n - entries.length)).filter (!·.message.isInjection) = [] := by
    rw [filter_eq_nil_iff]
    intro x hx
    obtain rfl := mem_singleton.1 (mem_of_mem_take hx)
    simp [h]
  rw [hnone, append_nil]

/-- The loop when it has walked over `entries` without finding enough inputs: behind the walk are
`older` entries, of which the newest, if any, is a summary. -/
def walked (s : UndoState) (entries older : List HistoryEntry) : UndoState where
  kept := older.reverse ++ (entries.filter (·.message.isInjection) ++ s.kept)
  covered := s.covered - (undoneOf (s.covered - older.length) entries).length
  tokenCount := s.tokenCount -
    ((undoneOf (s.covered - older.length) entries).map HistoryEntry.estimate).sum
  removedUserCount := s.removedUserCount + entries.countP (isRealUserInput ·.message)
  stoppedAtBoundary := !older.isEmpty || s.stoppedAtBoundary

variable {older : List HistoryEntry}

theorem undoFrom_boundary (s : UndoState) (count : ℤ)
    (h : older = [] ∨ ∃ e rest, older = e :: rest ∧ e.message.isCompactionSummary = true) :
    undoFrom count older s = walked s [] older := by
  have hnone : ∀ n, undoneOf n [] = [] := by
    intro n
    rw [undoneOf, take_nil, filter_nil]
  rcases h with rfl | ⟨e, rest, rfl, he⟩
  · simp [undoFrom, walked, hnone]
  · rw [undoFrom_summary he]
    simp [walked, hnone, UndoState.keepAll]

theorem walked_remove (s : UndoState) (h : e.message.isInjection = false) (removed : ℤ)
    (hremoved : removed = if isRealUserInput e.message then 1 else 0) :
    walked { s.remove (entries.length + older.length) e with
      removedUserCount := s.removedUserCount + removed } entries older =
      walked s (entries ++ [e]) older := by
  have hinjection : ([e].filter (·.message.isInjection)) = [] := by
    rw [filter_cons_of_neg (by rw [h]; exact Bool.false_ne_true), filter_nil]
  have hinput : (([e].countP (isRealUserInput ·.message) : ℕ) : ℤ) = removed := by
    rw [hremoved, countP_singleton]
    split_ifs <;> rfl
  unfold walked UndoState.remove
  rw [undoneOf_append h, filter_append, hinjection, append_nil, countP_append]
  by_cases hcovered : entries.length + older.length < s.covered
  · -- the entry is covered, and with it everything in front of it
    have hall : undoneOf (s.covered - 1 - older.length) entries =
        entries.filter (!·.message.isInjection) := by
      rw [undoneOf, take_of_length_le (by omega)]
    rw [if_pos hcovered, if_pos hcovered]
    simp only [hall, length_append, length_singleton, map_append,
      map_singleton, sum_append, sum_singleton, UndoState.mk.injEq, true_and]
    have hle : (entries.filter (!·.message.isInjection)).length ≤ entries.length :=
      length_filter_le _ _
    refine ⟨by omega, ?_, ?_, trivial⟩
    · push_cast
      omega
    · rw [← hinput]
      push_cast
      omega
  · rw [if_neg hcovered, if_neg hcovered]
    simp only [UndoState.mk.injEq, true_and]
    refine ⟨?_, trivial⟩
    rw [← hinput]
    push_cast
    omega

theorem stoppedAtBoundary_remove (s : UndoState) (i : ℕ) (e : HistoryEntry) :
    (s.remove i e).stoppedAtBoundary = s.stoppedAtBoundary := by
  unfold UndoState.remove
  split_ifs <;> rfl

/-- **A walk that does not find enough inputs** removes everything it passes except injections; one
that does stops at the last of them. -/
theorem undoFrom_walk (count : ℤ)
    (holder : older = [] ∨ ∃ e rest, older = e :: rest ∧ e.message.isCompactionSummary = true)
    (entries : List HistoryEntry)
    (hentries : ∀ e ∈ entries, e.message.isCompactionSummary = false) (s : UndoState) :
    (s.removedUserCount + entries.countP (isRealUserInput ·.message) < count →
      undoFrom count (entries.reverse ++ older) s = walked s entries older) ∧
    (s.removedUserCount < count →
      count ≤ s.removedUserCount + entries.countP (isRealUserInput ·.message) →
      (undoFrom count (entries.reverse ++ older) s).removedUserCount = count ∧
        (undoFrom count (entries.reverse ++ older) s).stoppedAtBoundary =
          s.stoppedAtBoundary) := by
  induction entries using reverseRecOn generalizing s with
  | nil =>
    refine ⟨fun _ => undoFrom_boundary s count holder, fun hfew hcount => ?_⟩
    rw [countP_nil] at hcount
    omega
  | append_singleton entries e ih =>
    have ih := ih fun x hx => hentries x (mem_append_left _ hx)
    have hsummary := hentries e (mem_append_right _ (mem_singleton_self e))
    have hlength : (entries.reverse ++ older).length = entries.length + older.length := by
      rw [length_append, length_reverse]
    rw [countP_append, countP_singleton, reverse_append, reverse_singleton, singleton_append,
      cons_append]
    cases hinjection : e.message.isInjection with
    | true =>
      have hinput : isRealUserInput e.message = false := by
        by_contra hinput
        rw [isInjection_of_isRealUserInput (Bool.not_eq_false _ ▸ hinput)] at hinjection
        cases hinjection
      obtain ⟨hwalked, henough⟩ := ih { s with kept := e :: s.kept }
      rw [hinput, if_neg Bool.false_ne_true, undoFrom_injection hinjection]
      refine ⟨fun hcount => ?_, henough⟩
      rw [hwalked hcount]
      unfold walked
      rw [undoneOf_append_injection hinjection, filter_append, countP_append]
      simp [hinjection, hinput]
    | false =>
      cases hinput : isRealUserInput e.message with
      | true =>
        rw [if_pos rfl]
        obtain ⟨hwalked, henough⟩ := ih (s.remove (entries.length + older.length) e).countUser
        have hcounted : (s.remove (entries.length + older.length) e).countUser.removedUserCount =
            s.removedUserCount + 1 := by
          rw [UndoState.countUser, Counts.removedUserCount_remove]
        rw [hcounted] at hwalked henough
        refine ⟨fun hcount => ?_, fun hfew hcount => ?_⟩
        · rw [undoFrom_input hinput (by omega), hlength, hwalked (by omega),
            ← walked_remove s hinjection 1 (by rw [hinput]; rfl), UndoState.countUser,
            Counts.removedUserCount_remove]
        · by_cases hlast : count ≤ s.removedUserCount + 1
          · rw [undoFrom_last hinput hlast, hlength]
            exact ⟨hcounted.trans (by omega), stoppedAtBoundary_remove _ _ _⟩
          · rw [undoFrom_input hinput (by omega), hlength]
            exact (henough (by omega) (by omega)).imp_right
              fun h => h.trans (stoppedAtBoundary_remove _ _ _)
      | false =>
        obtain ⟨hwalked, henough⟩ := ih (s.remove (entries.length + older.length) e)
        rw [Counts.removedUserCount_remove] at hwalked henough
        rw [if_neg Bool.false_ne_true, undoFrom_other hinjection hsummary hinput, hlength]
        refine ⟨fun hcount => ?_, fun hfew hcount => ?_⟩
        · rw [hwalked hcount, ← walked_remove s hinjection 0 (by rw [hinput]; rfl), Int.add_zero,
            ← Counts.removedUserCount_remove s (entries.length + older.length) e]
        · exact (henough hfew hcount).imp_right
            fun h => h.trans (stoppedAtBoundary_remove _ _ _)

/-! ### The error -/

/-- The walk before its first step. -/
def ContextMemory.undoStart (c : ContextMemory) : UndoState where
  kept := []
  covered := c.tokenCountCoveredMessageCount
  tokenCount := c.tokenCount

theorem ContextMemory.undoLoop_eq (c : ContextMemory) (count : ℤ) :
    c.undoLoop count = undoFrom count (c.active.reverse ++ c.boundary.reverse) c.undoStart := by
  rw [← reverse_append, c.boundary_append_active]
  rfl

theorem ContextMemory.undoLoop_walked {c : ContextMemory} {count : ℤ}
    (h : (c.undoableCount : ℤ) < count) :
    c.undoLoop count = walked c.undoStart c.active c.boundary.reverse := by
  rw [c.undoLoop_eq]
  refine (undoFrom_walk count c.boundary_reverse c.active c.active_not_summary c.undoStart).1 ?_
  change 0 + (c.undoableCount : ℤ) < count
  rwa [Int.zero_add]

/-- **An undo raises an error exactly when there are too few inputs behind the last summary.** -/
theorem undoError_ne_none_iff (a : Agent) {count : ℤ} (hpos : 0 < count) :
    undoError a count ≠ none ↔ a.restoring = false ∧ (a.context.undoableCount : ℤ) < count := by
  unfold undoError
  by_cases hfew : (a.context.undoableCount : ℤ) < count
  · have hremoved : (walked a.context.undoStart a.context.active
        a.context.boundary.reverse).removedUserCount = a.context.undoableCount := Int.zero_add _
    simp only [undoLoop_walked hfew, hremoved]
    simp [hfew]
  · have henough := (undoFrom_walk count a.context.boundary_reverse a.context.active
      a.context.active_not_summary a.context.undoStart).2 hpos (by
        change count ≤ 0 + (a.context.undoableCount : ℤ)
        omega)
    simp only [a.context.undoLoop_eq, henough.1, henough.2]
    simp [hfew, undoStart]

/-! ### The RPC -/

/-- An agent and its goal. -/
structure GoalAgent where
  agent : Agent := {}
  goal : GoalMode := {}

/-- **`undoHistory`**: the goal is rewound unless `undo` raises an error. -/
def GoalAgent.undoHistory (s : GoalAgent) (count now : ℤ) : GoalAgent × Option ContextError :=
  match undo s.agent count with
  | (agent, some error) => ({ s with agent }, some error)
  | (agent, none) => ({ agent, goal := s.goal.rewind count now }, none)

/-- **What an undo that raises an error has done.**  Of the history it has kept what stands up to
the last summary and the injections behind it, the counters have lost the covered messages that are
gone, and the record is logged; the goal is as it was.  Replaying the log gives the history and the
counters of the live agent if it did so before. -/
theorem undoHistory_limit (s t : GoalAgent) (count now : ℤ) {error : ContextError}
    (h : s.undoHistory count now = (t, some error)) :
    t.agent.context.history = s.agent.context.boundary ++
        s.agent.context.active.filter (·.message.isInjection) ∧
      t.agent.context.tokenCountCoveredMessageCount =
        s.agent.context.tokenCountCoveredMessageCount - s.agent.context.undoneCovered.length ∧
      t.agent.context.tokenCount = s.agent.context.tokenCount -
        (s.agent.context.undoneCovered.map HistoryEntry.estimate).sum ∧
      t.goal = s.goal ∧
      t.agent.records = s.agent.records ++ [.undo count] ∧
      (Replays s.agent.records s.agent.context → Replays t.agent.records t.agent.context) ∧
      (ReplaysToLive s.agent → ReplaysToLive t.agent) := by
  unfold GoalAgent.undoHistory at h
  generalize hundo : undo s.agent count = result at h
  obtain ⟨agent, none | raised⟩ := result
  · cases h
  obtain ⟨rfl, hraised⟩ := Prod.mk.inj h
  cases hcan : s.agent.context.canUndo count with
  | false =>
    rw [undo, hcan] at hundo
    cases hundo
  | true =>
    have hpos : 0 < count := by
      simp only [canUndo, Bool.not_eq_true', Bool.or_eq_false_iff, decide_eq_false_iff_not] at hcan
      exact Int.not_le.1 hcan.1
    have herror : undoError s.agent count = some error := by
      rw [undo, hcan, if_pos rfl] at hundo
      exact (Prod.mk.inj hundo).2.trans hraised
    have hagent : agent = (undo s.agent count).1 := by rw [hundo]
    obtain ⟨hlive, hfew⟩ := (undoError_ne_none_iff s.agent hpos).1 (by
      rw [herror]
      exact fun hnone => (by cases hnone))
    have hcontext : agent.context = s.agent.context.undone count := by
      rw [hagent, undo_context]
    have hloop := undoLoop_walked hfew
    have hrecords : agent.records = s.agent.records ++ [.undo count] := by
      rw [hagent, undo_records hlive, hcan, if_pos rfl]
    have hundone : s.agent.context.undone count = s.agent.context.afterUndo count := by
      rw [undone, if_pos hcan]
    refine ⟨?_, ?_, ?_, rfl, hrecords, ?_, ?_⟩
    · simp only [hcontext, hundone, afterUndo, hloop, walked]
      rw [List.reverse_reverse, undoStart, List.append_nil]
    · simp only [hcontext, hundone, afterUndo, hloop, walked]
      rw [List.length_reverse]
      rfl
    · simp only [hcontext, hundone, afterUndo, hloop, walked]
      rw [List.length_reverse]
      rfl
    · intro hreplays
      simp only [hrecords, hcontext]
      exact hreplays.snoc (r := .undo count) trivial
    · intro hreplays
      simp only [hagent]
      exact hreplays.undo count

/-- A prompt with its answer behind a summary, all of it logged. -/
def compactedAgent : GoalAgent where
  agent := performAll [.appendMessage goPrompt, .applyCompaction "short" "short" 1 10 none,
    .appendMessage goPrompt, .loopEvent (.stepBegin "s" "0"), .loopEvent (.stepEnd "s" none)]

theorem undoHistory_limit_compacted : ∃ t error,
    compactedAgent.undoHistory 2 0 = (t, some error) ∧
      t.agent.context.history = compactedAgent.agent.context.boundary ++
        compactedAgent.agent.context.active.filter (·.message.isInjection) := by
  have herror : (compactedAgent.undoHistory 2 0).2 = some (.undoLimit
      (formatUndoUnavailableMessage 2 1 true) 2 1 true) := by
    decide +kernel
  have hundo : compactedAgent.undoHistory 2 0 =
      ((compactedAgent.undoHistory 2 0).1, some (.undoLimit
        (formatUndoUnavailableMessage 2 1 true) 2 1 true)) := by
    rw [← herror]
  exact ⟨_, _, hundo, (undoHistory_limit compactedAgent _ 2 0 hundo).1⟩

/-- **The prompt and its answer are gone, and the record is logged**, although undoing two prompts
is refused. -/
theorem refused_undo_removes : ∃ t error,
    compactedAgent.undoHistory 2 0 = (t, some error) ∧
      t.agent.context.messages ≠ compactedAgent.agent.context.messages ∧
      t.agent.records ≠ compactedAgent.agent.records := by
  have herror : (compactedAgent.undoHistory 2 0).2 = some (.undoLimit
      (formatUndoUnavailableMessage 2 1 true) 2 1 true) := by
    decide +kernel
  refine ⟨(compactedAgent.undoHistory 2 0).1, _, Prod.ext_iff.2 ⟨rfl, herror⟩, ?_, ?_⟩
  · decide +kernel
  · decide +kernel

/-! ### The question of the service -/

/-- The loop of `canUndoHistory` over the messages from the newest. -/
def canUndoFrom (count : ℤ) : List ContextMessage → ℤ → Bool
  | [], _ => false
  | message :: older, found =>
    if message.isInjection then canUndoFrom count older found
    else if message.isCompactionSummary then false
    else if isRealUserInput message then
      if found + 1 ≥ count then true else canUndoFrom count older (found + 1)
    else canUndoFrom count older found

def canUndoHistory (history : List ContextMessage) (count : ℤ) : Bool :=
  canUndoFrom count history.reverse 0

theorem canUndoFrom_iff {count : ℤ} {older : List HistoryEntry}
    (holder : older = [] ∨ ∃ e rest, older = e :: rest ∧ e.message.isCompactionSummary = true)
    (newer : List HistoryEntry) (hnewer : ∀ e ∈ newer, e.message.isCompactionSummary = false)
    {found : ℤ} (hfew : found < count) :
    canUndoFrom count ((newer ++ older).map (·.message)) found = true ↔
      count ≤ found + newer.countP (isRealUserInput ·.message) := by
  induction newer generalizing found with
  | nil =>
    rw [nil_append, countP_nil]
    rcases holder with rfl | ⟨e, rest, rfl, he⟩
    · rw [map_nil, canUndoFrom]
      simpa using hfew
    · rw [map_cons, canUndoFrom, isInjection_of_isCompactionSummary he, he]
      simpa using hfew
  | cons e newer ih =>
    have ih {found : ℤ} := @ih (fun x hx => hnewer x (.tail _ hx)) found
    rw [cons_append, map_cons, canUndoFrom, hnewer e (.head _), countP_cons]
    cases hinput : isRealUserInput e.message with
    | true =>
      rw [isInjection_of_isRealUserInput hinput]
      by_cases hlast : found + 1 ≥ count
      · simp only [hlast, Bool.false_eq_true, if_false, if_true, true_iff]
        push_cast
        omega
      · simp only [hlast, Bool.false_eq_true, if_false, if_true, ih (Int.not_le.1 hlast)]
        push_cast
        omega
    | false =>
      simp only [Bool.false_eq_true, if_false, ite_self, ih hfew, Nat.add_zero]

/-- **The service asks for what is needed**: a live agent with a history undoes the requested number
of inputs exactly if the answer is yes. -/
theorem canUndoHistory_iff (a : Agent) {count : ℤ} (hpos : 0 < count)
    (hne : a.context.history ≠ []) :
    (undo a count).2 = none ↔
      a.restoring = true ∨ canUndoHistory a.context.messages count = true := by
  have hcan : a.context.canUndo count = true := by
    simp [canUndo, hne, hpos]
  have hasks : canUndoHistory a.context.messages count = true ↔
      count ≤ a.context.undoableCount := by
    have hiff := canUndoFrom_iff a.context.boundary_reverse a.context.active.reverse
      (fun e he => a.context.active_not_summary e (mem_reverse.1 he)) hpos
    rw [← reverse_append, a.context.boundary_append_active, countP_reverse, Int.zero_add] at hiff
    rw [canUndoHistory, messages, ← map_reverse]
    exact hiff
  rw [undo, if_pos hcan, hasks, ← not_iff_not, ← Ne.eq_def, undoError_ne_none_iff a hpos, not_or,
    Bool.not_eq_true, Int.not_le]

/-- A history with one prompt. -/
theorem canUndoHistory_iff_prompt :
    let a := performAll [.appendMessage goPrompt]
    (undo a 1).2 = none ↔ a.restoring = true ∨ canUndoHistory a.context.messages 1 = true :=
  canUndoHistory_iff (performAll [.appendMessage goPrompt]) (by decide) (by decide +kernel)

/-- On an empty history nothing is undone, and no error is raised. -/
theorem empty_history_undoes : (undo {} 1).2 = none ∧ canUndoHistory [] 1 = false := ⟨rfl, rfl⟩

/-! ### One undo after another -/

section

variable {n m : ℤ}

theorem undoFrom_injections {l : List HistoryEntry} (h : ∀ e ∈ l, e.message.isInjection = true)
    (count : ℤ) (older : List HistoryEntry) (s : UndoState) :
    undoFrom count (l ++ older) s =
      undoFrom count older { s with kept := l.reverse ++ s.kept } := by
  induction l generalizing s with
  | nil => rfl
  | cons e l ih =>
    obtain ⟨he, hl⟩ := forall_mem_cons.1 h
    rw [cons_append, undoFrom_injection he, ih hl]
    simp

/-- An undo of more inputs goes on with what an undo has kept. -/
theorem undoFrom_resume (hm : 0 < m) (l : List HistoryEntry) {s u : UndoState}
    (hs : s.removedUserCount < n) (hkept : ∀ e ∈ s.kept, e.message.isInjection = true)
    (hu : undoFrom n l s = u) (hstop : u.stoppedAtBoundary = false)
    (hfound : u.removedUserCount = n) :
    undoFrom (n + m) l s = undoFrom (n + m) u.kept.reverse { u with kept := [] } := by
  induction l generalizing s with
  | nil =>
    rw [undoFrom] at hu
    rw [hu, hfound] at hs
    omega
  | cons e older ih =>
    have hremove := Counts.kept_remove s older.length e
    have hcount := Counts.removedUserCount_remove s older.length e
    unfold undoFrom at hu
    split_ifs at hu with hinjection hsummary hinput hlast
    · rw [undoFrom_injection hinjection]
      exact ih hs (forall_mem_cons.2 ⟨hinjection, hkept⟩) hu
    · rw [← hu] at hstop
      cases hstop
    · have hreverse : u.kept.reverse = s.kept.reverse ++ older := by
        simp [← hu, UndoState.keepAll, UndoState.countUser, hremove]
      rw [undoFrom_input hinput (by omega), hreverse,
        undoFrom_injections fun x hx => hkept x (mem_reverse.1 hx), reverse_reverse, append_nil,
        ← hu, ← hremove]
      rfl
    · rw [undoFrom_input hinput (by omega)]
      refine ih ?_ (hremove ▸ hkept) hu
      change (s.remove older.length e).removedUserCount + 1 < n
      omega
    · rw [undoFrom_other (by simpa using hinjection) (by simpa using hsummary)
        (by simpa using hinput)]
      exact ih (hcount ▸ hs) (hremove ▸ hkept) hu

/-- More inputs have been removed before. -/
def UndoState.after (n : ℤ) (s : UndoState) : UndoState :=
  { s with removedUserCount := n + s.removedUserCount }

theorem undoFrom_after (l : List HistoryEntry) (s : UndoState) :
    undoFrom (n + m) l (s.after n) = (undoFrom m l s).after n := by
  induction l generalizing s with
  | nil => rfl
  | cons e older ih =>
    have hremove : (s.after n).remove older.length e = (s.remove older.length e).after n := by
      by_cases hcovered : older.length < s.covered <;>
        simp [UndoState.remove, UndoState.after, hcovered]
    have hcountUser : ∀ t : UndoState, (t.after n).countUser = t.countUser.after n := by
      intro t
      simp [UndoState.countUser, UndoState.after, Int.add_assoc]
    have hremoved : (s.after n).removedUserCount = n + s.removedUserCount := rfl
    simp only [undoFrom, hremove, hcountUser, hremoved]
    split_ifs
    · exact ih { s with kept := e :: s.kept }
    · rfl
    · rfl
    · omega
    · omega
    · exact ih _
    · exact ih _

namespace ContextMemory

theorem undoLoop_add (c : ContextMemory) (hn : 0 < n) (hm : 0 < m) (h : n ≤ c.undoableCount) :
    c.undoLoop (n + m) = ((c.afterUndo n).undoLoop m).after n := by
  obtain ⟨hfound, hstop⟩ := (undoFrom_walk n c.boundary_reverse c.active c.active_not_summary
    c.undoStart).2 hn (by
      change n ≤ 0 + (c.undoableCount : ℤ)
      rwa [Int.zero_add])
  rw [← c.undoLoop_eq] at hfound hstop
  have hstart : { c.undoLoop n with kept := [] } = (c.afterUndo n).undoStart.after n := by
    simp [UndoState.after, undoStart, afterUndo, hfound, hstop]
  calc c.undoLoop (n + m)
      = undoFrom (n + m) (c.undoLoop n).kept.reverse { c.undoLoop n with kept := [] } :=
        undoFrom_resume hm _ (s := c.undoStart) hn (by simp [undoStart]) rfl hstop hfound
    _ = ((c.afterUndo n).undoLoop m).after n := by
        rw [hstart, undoFrom_after]
        rfl

/-- **Undoing `n` inputs and then `m` more is undoing `n + m`**, for the history and the token
counters, where the first undo finds its inputs. -/
theorem undone_undone (c : ContextMemory) (hn : 0 < n) (hm : 0 < m) (h : n ≤ c.undoableCount) :
    (c.undone n).undone m = c.undone (n + m) := by
  have hhistory : c.history ≠ [] := by
    intro hnil
    simp [undoableCount, active, hnil] at h
    omega
  have hcan : ∀ {k : ℤ}, 0 < k → c.undone k = c.afterUndo k := fun hk =>
    if_pos (by simp [canUndo, hhistory, hk])
  have hboth : (c.afterUndo n).afterUndo m = c.afterUndo (n + m) := by
    simp only [afterUndo, c.undoLoop_add hn hm h, UndoState.after]
  rw [hcan hn, hcan (by omega), ← hboth, undone]
  split_ifs with hmore
  · rfl
  · -- nothing is left to undo
    have hnil : (c.afterUndo n).history = [] := by
      simpa [canUndo, hm] using hmore
    have hloop : (c.afterUndo n).undoLoop m = (c.afterUndo n).undoStart := by
      rw [undoLoop, hnil]
      rfl
    conv_rhs => rw [afterUndo, hloop]
    exact congrArg (fun l => { c.afterUndo n with history := l }) hnil

theorem undone_undone_prompts :
    let c := (performAll [.appendMessage goPrompt, .appendMessage goPrompt]).context
    (c.undone 1).undone 1 = c.undone (1 + 1) :=
  undone_undone _ (by decide) (by decide) (by decide +kernel)

end ContextMemory

end

end NoriCode
