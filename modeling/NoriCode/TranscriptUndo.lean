/-
**What an undo removes, in two lists.**

The history and the transcript are undone by the same loop over different lists: from the end,
injections stay, a summary ends the loop, everything else is removed until enough user input has
been.  How many entries the loop removes depends only on the entries behind the last summary that
are no injections, and on which of them are user input (`undoFlags`).

Main definitions:

* `undoKept` — what the loop keeps;
* `undoFlags`, `removals` — what it looks at, and how many entries it removes;
* `marks` — the user input and the summaries, which is what compaction looks at.

Main results:

* `undoFrom_kept`, `undoEntries_eq` — both loops are this one;
* `length_undoKept`, `undoFlags_undoKept`, `marks_undoKept`.
-/

import NoriCode.Transcript

namespace NoriCode

open List

/-! ### The loop -/

section

variable {α : Type} (msg : α → ContextMessage)

/-- **What an undo keeps** of a list, newest entry first. -/
def undoKept (count : ℤ) : ℤ → List α → List α
  | _, [] => []
  | removed, e :: older =>
    if (msg e).isInjection then undoKept count removed older ++ [e]
    else if (msg e).isCompactionSummary then (e :: older).reverse
    else if isRealUserInput (msg e) then
      if removed + 1 ≥ count then older.reverse else undoKept count (removed + 1) older
    else undoKept count removed older

end

/-- **What the loop looks at**: for each entry it may remove, whether it is user input. -/
def undoFlags : List ContextMessage → List Bool
  | [] => []
  | m :: older =>
    if m.isInjection then undoFlags older
    else if m.isCompactionSummary then []
    else isRealUserInput m :: undoFlags older

/-- How many entries the loop removes. -/
def removals (count : ℤ) : ℤ → List Bool → ℕ
  | _, [] => 0
  | removed, true :: flags =>
    if removed + 1 ≥ count then 1 else removals count (removed + 1) flags + 1
  | removed, false :: flags => removals count removed flags + 1

variable {α : Type} {msg : α → ContextMessage} {m : ContextMessage} {l l' : List ContextMessage}

variable (count removed : ℤ)

theorem length_undoKept (l : List α) :
    (undoKept msg count removed l).length + removals count removed (undoFlags (l.map msg)) =
      l.length := by
  induction l generalizing removed with
  | nil => rfl
  | cons e l ih =>
    rw [map_cons]
    unfold undoKept undoFlags
    split_ifs with hinj hsum hreal hcount
    · have hrest := ih removed
      rw [length_append, length_singleton, length_cons]
      omega
    · simp [removals]
    · simp [hreal, removals, hcount]
    · have hrest := ih (removed + 1)
      simp only [hreal, removals, if_neg hcount, length_cons]
      omega
    · have hrest := ih removed
      simp only [hreal, removals, length_cons]
      omega

theorem undoFlags_undoKept (l : List α) :
    undoFlags ((undoKept msg count removed l).map msg).reverse =
      (undoFlags (l.map msg)).drop (removals count removed (undoFlags (l.map msg))) := by
  induction l generalizing removed with
  | nil => rfl
  | cons e l ih =>
    rw [map_cons]
    unfold undoKept
    split_ifs with hinj hsum hreal hcount
    · simp [undoFlags, hinj, ih]
    · simp [undoFlags, hinj, hsum]
    · simp [undoFlags, hinj, hsum, hreal, removals, hcount]
    · simp [undoFlags, hinj, hsum, hreal, removals, hcount, ih]
    · simp [undoFlags, hinj, hsum, hreal, removals, ih]

theorem undoFlags_append_congr (h : undoFlags l = undoFlags l') (ms : List ContextMessage) :
    undoFlags (ms ++ l) = undoFlags (ms ++ l') := by
  induction ms with
  | nil => exact h
  | cons m ms ih => simp only [cons_append, undoFlags, ih]

theorem undoFlags_injection_append {ms : List ContextMessage}
    (h : ∀ m ∈ ms, m.isInjection = true) : undoFlags (ms ++ l) = undoFlags l := by
  induction ms with
  | nil => rfl
  | cons m ms ih =>
    obtain ⟨hm, hms⟩ := forall_mem_cons.1 h
    rw [cons_append, undoFlags, if_pos hm, ih hms]

/-! ### Marks -/

/-- User input and summaries. -/
def isMark (m : ContextMessage) : Bool := isRealUserInput m || m.isCompactionSummary

/-- The user input and the summaries of a list. -/
def marks (ms : List ContextMessage) : List ContextMessage := ms.filter isMark

theorem isInjection_of_isMark (h : isMark m = true) : m.isInjection = false := by
  rcases Bool.or_eq_true_iff.1 h with hreal | hsum
  · exact isInjection_of_isRealUserInput hreal
  · have hkind : m.originKind = some .compactionSummary := by
      simpa [ContextMessage.isCompactionSummary] using hsum
    simp [ContextMessage.isInjection, hkind]

theorem marks_append (ms ms' : List ContextMessage) : marks (ms ++ ms') = marks ms ++ marks ms' :=
  filter_append ms ms'

theorem marks_cons (ms : List ContextMessage) :
    marks (m :: ms) = if isMark m then m :: marks ms else marks ms :=
  filter_cons

theorem marks_undoKept (l : List α) :
    marks ((undoKept msg count removed l).map msg) =
      undoKept id count removed (marks (l.map msg)) := by
  induction l generalizing removed with
  | nil => rfl
  | cons e l ih =>
    rw [map_cons, marks_cons, undoKept]
    cases hinj : (msg e).isInjection with
    | true =>
      have hmark : isMark (msg e) = false := by
        rw [Bool.eq_false_iff]
        intro h
        rw [isInjection_of_isMark h] at hinj
        cases hinj
      have hnone : marks [msg e] = [] := by simp [marks, hmark]
      simp [hmark, marks_append, hnone, ih]
    | false =>
      cases hsum : (msg e).isCompactionSummary with
      | true =>
        have hmark : isMark (msg e) = true := by simp [isMark, hsum]
        simp [hmark, undoKept, hinj, hsum, marks]
      | false =>
        cases hreal : isRealUserInput (msg e) with
        | true =>
          have hmark : isMark (msg e) = true := by simp [isMark, hreal]
          by_cases hcount : removed + 1 ≥ count
          · simp [hmark, undoKept, hinj, hsum, hreal, hcount, marks]
          · simp [hmark, undoKept, hinj, hsum, hreal, hcount, ih]
        | false => simp [isMark, hsum, hreal, ih]

/-! ### Both loops -/

theorem undoFrom_kept (count : ℤ) (l : List HistoryEntry) (s : UndoState) :
    (undoFrom count l s).kept = undoKept (·.message) count s.removedUserCount l ++ s.kept := by
  induction l generalizing s with
  | nil => rfl
  | cons e l ih =>
    have hremove : (s.remove l.length e).kept = s.kept ∧
        (s.remove l.length e).removedUserCount = s.removedUserCount := by
      unfold UndoState.remove
      split_ifs <;> exact ⟨rfl, rfl⟩
    unfold undoFrom undoKept
    split_ifs with hinj hsum hreal hcount
    · rw [ih]
      simp
    · rfl
    · simp [UndoState.keepAll, UndoState.countUser, hremove.1]
    · rw [ih]
      simp [UndoState.countUser, hremove.1, hremove.2]
    · rw [ih, hremove.1, hremove.2]

theorem undoEntries_eq (l kept : List MutableEntry) (n : ℕ) :
    WireTranscript.undoEntries count l kept removed n =
      (undoKept (·.message) count removed l ++ kept,
        n - removals count removed (undoFlags (l.map (·.message)))) := by
  induction l generalizing removed kept n with
  | nil => rfl
  | cons e l ih =>
    rw [map_cons]
    unfold WireTranscript.undoEntries undoKept undoFlags
    split_ifs with hinj hsum hreal hcount
    · rw [ih]
      simp
    · rfl
    · simp [hreal, removals, hcount]
    · rw [ih]
      simp [hreal, removals, hcount, Nat.sub_sub, Nat.add_comm]
    · rw [ih]
      simp [hreal, removals, Nat.sub_sub, Nat.add_comm]

end NoriCode
