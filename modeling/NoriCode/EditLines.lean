/-
**What line operations leave of a text.**

Every operation names lines of the original text.  At each of its lines stands what is inserted
before it, then the line itself, or the content that replaces it, or nothing, and then what is
inserted after it; the new lines are what stands at all of them.  The operations are rejected
exactly when that makes no sense, and their order matters only where two insertions are at one
place.

The lines are joined by line feeds, with a last one if the text had one.  A text without a last line
feed has no way to end in an empty line, so an empty last line is lost.

Main definitions:

* `LineOps` — the operations that pass the schema;
* `Rejected` — the operations that make no sense for a text;
* `leftAt`, `expectedLines` — the lines that are left;
* `SameTargets` — a reordering of operations on distinct targets;
* `AppliesLines` — what is owed to a text and operations.

Main results:

* `groupOperations_spec` — the groups of the operations, or an error;
* `overlapError_eq_none_iff` — neighbours that do not overlap are enough;
* `writeLines_eq` — **the pass over the lines writes what is left at each of them**;
* `appliesLines_iff` — **when the new lines are the lines of the new text**.
-/

import Mathlib.Data.List.Chain
import Mathlib.Data.List.Infix
import NoriCode.EditTool

namespace NoriCode

open LibUtf8 List Option

/-! ### The operations -/

/-- The range of lines that an operation replaces. -/
def EditLineOperation.range? : EditLineOperation → Option RangeOperation
  | .swap start stop content => some ⟨start, stop, splitOperationContent content⟩
  | .del start stop => some ⟨start, stop, []⟩
  | _ => none

/-- What an operation inserts before a line. -/
def EditLineOperation.before (n : ℕ) : EditLineOperation → List (List Char)
  | .insertPre line content => if line = n then splitOperationContent content else []
  | _ => []

/-- What an operation inserts after a line. -/
def EditLineOperation.after (n : ℕ) : EditLineOperation → List (List Char)
  | .insertPost line content => if line = n then splitOperationContent content else []
  | _ => []

/-- The lines that an operation names. -/
def EditLineOperation.coordinates : EditLineOperation → List ℕ
  | .swap start stop _ | .del start stop => [start, stop]
  | .insertPre line _ | .insertPost line _ => [line]

/-- An insertion strictly inside a range. -/
def EditLineOperation.Inside (r : RangeOperation) : EditLineOperation → Prop
  | .insertPre line _ => r.start < line ∧ line ≤ r.stop
  | .insertPost line _ => r.start ≤ line ∧ line < r.stop
  | _ => False

/-- Operations as the schema takes them: at least one, on lines from one on. -/
structure LineOps where
  toList : List EditLineOperation
  ne_nil : toList ≠ []
  one_le : ∀ op ∈ toList, ∀ n ∈ op.coordinates, 1 ≤ n

variable {ops : List EditLineOperation} {lineCount n : ℕ}

def rangesOf (ops : List EditLineOperation) : List RangeOperation := ops.filterMap (·.range?)

def linesBefore (ops : List EditLineOperation) (n : ℕ) : List (List Char) :=
  ops.flatMap (·.before n)

def linesAfter (ops : List EditLineOperation) (n : ℕ) : List (List Char) :=
  ops.flatMap (·.after n)

/-- Two ranges that do not overlap. -/
def Apart (r r' : RangeOperation) : Prop := r.stop < r'.start ∨ r'.stop < r.start

/-- **The operations make no sense**: a line does not exist, a range is reversed, two ranges
overlap, or an insertion falls strictly inside a range. -/
def Rejected (ops : List EditLineOperation) (lineCount : ℕ) : Prop :=
  (∃ op ∈ ops, ∃ n ∈ op.coordinates, lineCount < n) ∨
    (∃ r ∈ rangesOf ops, r.stop < r.start) ∨
    ¬(rangesOf ops).Pairwise Apart ∨
    ∃ r ∈ rangesOf ops, ∃ op ∈ ops, op.Inside r

/-- What stands in the place of a line. -/
def keptAt (ranges : List RangeOperation) (n : ℕ) (line : List Char) : List (List Char) :=
  match ranges.find? fun r => r.start ≤ n ∧ n ≤ r.stop with
  | some r => if r.start = n then r.lines else []
  | none => [line]

/-- **The lines that are left at a line of the original.** -/
def leftAt (ops : List EditLineOperation) (n : ℕ) (line : List Char) : List (List Char) :=
  linesBefore ops n ++ keptAt (rangesOf ops) n line ++ linesAfter ops n

def expectedLines (ops : List EditLineOperation) (lines : List (List Char)) : List (List Char) :=
  (lines.zipIdx 1).flatMap fun p => leftAt ops p.2 p.1

/-! ### The groups -/

theorem insertionsAt_pushInsertion (line : ℕ) (lines : List (List Char)) (ins : Insertions)
    (n : ℕ) : insertionsAt (pushInsertion line lines ins) n =
      insertionsAt ins n ++ if line = n then lines else [] := by
  induction ins with
  | nil =>
    by_cases h : line = n <;> simp [pushInsertion, insertionsAt, h]
  | cons entry rest ih =>
    obtain ⟨key, entries⟩ := entry
    unfold insertionsAt at ih ⊢
    rw [pushInsertion]
    by_cases hkey : key = line
    · subst hkey
      by_cases h : key = n <;> simp [h]
    · rw [if_neg hkey]
      by_cases h : key = n
      · have hline : line ≠ n := fun hline => hkey (h.trans hline.symm)
        simp [h, hline]
      · simpa [h] using ih

theorem mem_keys_pushInsertion (line : ℕ) (lines : List (List Char)) (ins : Insertions) (n : ℕ) :
    n ∈ (pushInsertion line lines ins).map (·.1) ↔ n = line ∨ n ∈ ins.map (·.1) := by
  induction ins with
  | nil => simp [pushInsertion]
  | cons entry rest ih =>
    obtain ⟨key, entries⟩ := entry
    rw [pushInsertion]
    by_cases hkey : key = line
    · subst hkey
      simp
    · rw [if_neg hkey, map_cons, mem_cons, ih, map_cons, mem_cons]
      tauto

/-- The groups hold the operations. -/
structure GroupsHold (ops : List EditLineOperation) (groups : OperationGroups) : Prop where
  ranges : groups.ranges = rangesOf ops
  before : ∀ n, insertionsAt groups.insertBefore n = linesBefore ops n
  after : ∀ n, insertionsAt groups.insertAfter n = linesAfter ops n
  keysBefore : ∀ n, n ∈ groups.insertBefore.map (·.1) ↔ ∃ c, .insertPre n c ∈ ops
  keysAfter : ∀ n, n ∈ groups.insertAfter.map (·.1) ↔ ∃ c, .insertPost n c ∈ ops

/-- An operation on its own makes no sense. -/
def EditLineOperation.Invalid (lineCount : ℕ) (op : EditLineOperation) : Prop :=
  (∃ n ∈ op.coordinates, lineCount < n) ∨ ∃ r ∈ op.range?, r.stop < r.start

theorem validateLine_eq_ok : validateLine n lineCount = .ok () ↔ n ≤ lineCount := by
  unfold validateLine
  split_ifs with h
  · exact iff_of_false (by intro h; cases h) (by omega)
  · exact iff_of_true rfl (by omega)

theorem validateRange_eq_ok {start stop : ℕ} :
    validateRange start stop lineCount = .ok () ↔
      start ≤ stop ∧ start ≤ lineCount ∧ stop ≤ lineCount := by
  rw [← @validateLine_eq_ok lineCount start, ← @validateLine_eq_ok lineCount stop]
  unfold validateRange
  by_cases h : stop < start
  · rw [if_pos h]
    exact iff_of_false (by intro h; cases h) (fun hle => absurd hle.1 (by omega))
  · rw [if_neg h]
    have hle : start ≤ stop := by omega
    cases hstart : validateLine start lineCount with
    | error e => exact iff_of_false (by intro h; cases h) (fun h => by cases h.2.1)
    | ok _ => exact ⟨fun h => ⟨hle, rfl, h⟩, fun h => h.2.2⟩

theorem exists_error_of_ne_ok {r : Except String Unit} (h : r ≠ .ok ()) : ∃ e, r = .error e := by
  cases r with
  | error e => exact ⟨e, rfl⟩
  | ok _ => exact absurd rfl h

theorem validateRange_eq_error {start stop : ℕ}
    (h : ¬(start ≤ stop ∧ start ≤ lineCount ∧ stop ≤ lineCount)) :
    ∃ e, validateRange start stop lineCount = .error e :=
  exists_error_of_ne_ok fun hok => h (validateRange_eq_ok.1 hok)

variable {op : EditLineOperation}

theorem groupOperation_invalid (h : op.Invalid lineCount)
    (groups : OperationGroups) : ∃ e, groupOperation lineCount groups op = .error e := by
  cases op with
  | swap start stop content | del start stop =>
    obtain ⟨e, he⟩ : ∃ e, validateRange start stop lineCount = .error e := by
      refine validateRange_eq_error fun hok => ?_
      rcases h with ⟨n, hn, hlt⟩ | ⟨r, hr, hlt⟩
      · rcases mem_pair.1 hn with rfl | rfl <;> omega
      · cases hr
        exact absurd hlt (by simpa using hok.1)
    exact ⟨e, by rw [groupOperation, he]; rfl⟩
  | insertPre line content | insertPost line content =>
    obtain ⟨e, he⟩ : ∃ e, validateLine line lineCount = .error e := by
      refine exists_error_of_ne_ok fun hok => ?_
      have hle := validateLine_eq_ok.1 hok
      rcases h with ⟨n, hn, hlt⟩ | ⟨r, hr, hlt⟩
      · obtain rfl := mem_singleton.1 hn
        omega
      · cases hr
    exact ⟨e, by rw [groupOperation, he]; rfl⟩

variable {groups : OperationGroups}

theorem GroupsHold.range (hg : GroupsHold ops groups) {r : RangeOperation} (hr : op.range? = some r)
    : GroupsHold (ops ++ [op]) { groups with ranges := groups.ranges ++ [r] } := by
  have hbefore : ∀ n, op.before n = [] := by
    intro n
    cases op <;> first | rfl | cases hr
  have hafter : ∀ n, op.after n = [] := by
    intro n
    cases op <;> first | rfl | cases hr
  have hpre : ∀ n c, op ≠ .insertPre n c := by
    rintro n c rfl
    cases hr
  have hpost : ∀ n c, op ≠ .insertPost n c := by
    rintro n c rfl
    cases hr
  constructor
  · simp [rangesOf, hg.ranges, hr]
  · intro n
    simp [linesBefore, hbefore, hg.before]
  · intro n
    simp [linesAfter, hafter, hg.after]
  · intro n
    simp [hg.keysBefore, (hpre _ _).symm]
  · intro n
    simp [hg.keysAfter, (hpost _ _).symm]

theorem groupOperation_valid (h : ¬op.Invalid lineCount) (hg : GroupsHold ops groups) :
    ∃ groups', groupOperation lineCount groups op = .ok groups' ∧
      GroupsHold (ops ++ [op]) groups' := by
  obtain ⟨hlines, hranges⟩ := not_or.1 h
  cases op with
  | swap start stop content | del start stop =>
    have hok : validateRange start stop lineCount = .ok () := by
      refine validateRange_eq_ok.2 ⟨?_, ?_, ?_⟩
      · exact not_lt.1 fun hlt => hranges ⟨_, rfl, hlt⟩
      · exact not_lt.1 fun hlt => hlines ⟨start, (.head _), hlt⟩
      · exact not_lt.1 fun hlt => hlines ⟨stop, by simp [EditLineOperation.coordinates], hlt⟩
    exact ⟨_, by rw [groupOperation, hok]; rfl, hg.range rfl⟩
  | insertPre line content =>
    have hok : validateLine line lineCount = .ok () :=
      validateLine_eq_ok.2 (not_lt.1 fun hlt => hlines ⟨line, (.head _), hlt⟩)
    refine ⟨_, by rw [groupOperation, hok]; rfl, ?_, fun n => ?_, fun n => ?_, fun n => ?_,
      fun n => ?_⟩
    · simp [rangesOf, hg.ranges, EditLineOperation.range?]
    · simp [linesBefore, insertionsAt_pushInsertion, hg.before, EditLineOperation.before]
    · simp [linesAfter, hg.after, EditLineOperation.after]
    · rw [mem_keys_pushInsertion, hg.keysBefore]
      simp only [mem_append, mem_singleton, EditLineOperation.insertPre.injEq, exists_or]
      tauto
    · simp [hg.keysAfter]
  | insertPost line content =>
    have hok : validateLine line lineCount = .ok () :=
      validateLine_eq_ok.2 (not_lt.1 fun hlt => hlines ⟨line, (.head _), hlt⟩)
    refine ⟨_, by rw [groupOperation, hok]; rfl, ?_, fun n => ?_, fun n => ?_, fun n => ?_,
      fun n => ?_⟩
    · simp [rangesOf, hg.ranges, EditLineOperation.range?]
    · simp [linesBefore, hg.before, EditLineOperation.before]
    · simp [linesAfter, insertionsAt_pushInsertion, hg.after, EditLineOperation.after]
    · simp [hg.keysBefore]
    · rw [mem_keys_pushInsertion, hg.keysAfter]
      simp only [mem_append, mem_singleton, EditLineOperation.insertPost.injEq, exists_or]
      tauto

theorem groupsHold_nil : GroupsHold [] {} :=
  ⟨rfl, fun _ => rfl, fun _ => rfl, fun n => by simp, fun n => by simp⟩

/-- **The groups of the operations**, or an error if one makes no sense on its own. -/
theorem groupOperations_spec (ops : List EditLineOperation) (lineCount : ℕ) :
    ((∃ op ∈ ops, op.Invalid lineCount) ∧
      ∃ e, ops.foldlM (groupOperation lineCount) {} = .error e) ∨
    (∀ op ∈ ops, ¬op.Invalid lineCount) ∧
      ∃ groups, ops.foldlM (groupOperation lineCount) {} = .ok groups ∧ GroupsHold ops groups := by
  induction ops using reverseRecOn with
  | nil => exact .inr ⟨fun op h => absurd h not_mem_nil, {}, rfl, groupsHold_nil⟩
  | append_singleton ops op ih =>
    rw [foldlM_append]
    rcases ih with ⟨⟨bad, hmem, hbad⟩, e, he⟩ | ⟨hvalid, groups, hgroups, hg⟩
    · rw [he]
      exact .inl ⟨⟨bad, mem_append_left _ hmem, hbad⟩, e, rfl⟩
    · rw [hgroups]
      by_cases hop : op.Invalid lineCount
      · obtain ⟨e, he⟩ := groupOperation_invalid hop groups
        refine .inl ⟨⟨op, by simp, hop⟩, e, ?_⟩
        exact congrArg (· >>= pure) he
      · obtain ⟨groups', hgroups', hg'⟩ := groupOperation_valid hop hg
        refine .inr ⟨fun op' hmem => ?_, groups', ?_, hg'⟩
        · rcases mem_append.1 hmem with hmem | hmem
          · exact hvalid op' hmem
          · rwa [mem_singleton.1 hmem]
        · simp only [foldlM_cons, foldlM_nil]
          exact congrArg (· >>= pure) hgroups'

/-! ### Ranges that do not overlap -/

instance : Std.Symm Apart := ⟨fun _ _ => Or.symm⟩

theorem overlapError_eq_none {l : List RangeOperation} :
    overlapError l = none ↔ l.IsChain fun r r' => r.stop < r'.start := by
  induction l with
  | nil => exact iff_of_true rfl isChain_nil
  | cons r l ih =>
    cases l with
    | nil => exact iff_of_true rfl (isChain_singleton r)
    | cons r' l =>
      rw [overlapError, isChain_cons_cons, ← ih]
      split_ifs with h
      · exact iff_of_false (by intro h; cases h) fun hlt => absurd hlt.1 (by omega)
      · exact ⟨fun hrest => ⟨by omega, hrest⟩, fun hrest => hrest.2⟩

/-- **Neighbours that do not overlap are enough**, in the order of their starts. -/
theorem overlapError_eq_none_iff {l : List RangeOperation}
    (hsorted : l.Pairwise fun r r' => r.start ≤ r'.start) (hl : ∀ r ∈ l, r.start ≤ r.stop) :
    overlapError l = none ↔ l.Pairwise Apart := by
  rw [overlapError_eq_none]
  induction l with
  | nil => exact iff_of_true isChain_nil List.Pairwise.nil
  | cons r l ih =>
    obtain ⟨hr, hsorted⟩ := pairwise_cons.1 hsorted
    have ih := ih hsorted fun r' hr' => hl r' (.tail _ hr')
    rw [pairwise_cons, ← ih]
    cases l with
    | nil => simp
    | cons first l =>
      rw [isChain_cons_cons]
      refine and_congr_left fun hchain => ⟨fun hlt r' hr' => ?_, fun hapart => ?_⟩
      · -- a later range starts behind the next one
        have hle : first.start ≤ r'.start := by
          rcases mem_cons.1 hr' with rfl | hmem
          · exact le_refl _
          · exact (pairwise_cons.1 hsorted).1 r' hmem
        exact .inl (by omega)
      · have hfirst := hl first (.tail _ mem_cons_self)
        have hstart := hr first (.head _)
        have hself := hl r (.head _)
        rcases hapart first (.head _) with h | h <;> omega

/-- The ranges in the order of their starts. -/
def sortedRanges (ranges : List RangeOperation) : List RangeOperation :=
  ranges.insertionSort fun left right => left.start ≤ right.start

theorem sortedRanges_perm (ranges : List RangeOperation) : (sortedRanges ranges).Perm ranges :=
  perm_insertionSort _ ranges

theorem overlapError_sortedRanges {ranges : List RangeOperation}
    (h : ∀ r ∈ ranges, r.start ≤ r.stop) :
    overlapError (sortedRanges ranges) = none ↔ ranges.Pairwise Apart := by
  have hsorted : (sortedRanges ranges).Pairwise fun r r' => r.start ≤ r'.start := by
    have : Std.Total fun r r' : RangeOperation => r.start ≤ r'.start :=
      ⟨fun r r' => le_total r.start r'.start⟩
    have : IsTrans RangeOperation fun r r' => r.start ≤ r'.start := ⟨fun _ _ _ => le_trans⟩
    exact pairwise_insertionSort _ ranges
  rw [overlapError_eq_none_iff hsorted fun r hr => h r ((sortedRanges_perm ranges).mem_iff.1 hr)]
  exact (sortedRanges_perm ranges).pairwise_iff fun h => h.symm

theorem insideError_eq_none (hg : GroupsHold ops groups) {ranges : List RangeOperation} :
    insideError groups ranges = none ↔
      ∀ r ∈ ranges, ∀ op ∈ ops, ¬op.Inside r := by
  unfold insideError
  rw [findSome?_eq_none_iff]
  refine forall₂_congr fun r _ => ?_
  rw [orElse_eq_none, findSome?_eq_none_iff, findSome?_eq_none_iff]
  constructor
  · rintro ⟨hpre, hpost⟩ op hop hinside
    cases op with
    | swap | del => exact hinside
    | insertPre line content =>
      obtain ⟨⟨key, entries⟩, hentry, rfl⟩ := mem_map.1 ((hg.keysBefore line).2 ⟨content, hop⟩)
      have hat : r.start < key ∧ key ≤ r.stop := hinside
      have hnone := hpre _ hentry
      simp [hat] at hnone
    | insertPost line content =>
      obtain ⟨⟨key, entries⟩, hentry, rfl⟩ := mem_map.1 ((hg.keysAfter line).2 ⟨content, hop⟩)
      have hat : r.start ≤ key ∧ key < r.stop := hinside
      have hnone := hpost _ hentry
      simp [hat] at hnone
  · refine fun hall => ⟨fun entry hentry => if_neg fun hinside => ?_,
      fun entry hentry => if_neg fun hinside => ?_⟩
    · obtain ⟨content, hop⟩ := (hg.keysBefore entry.1).1 (mem_map_of_mem hentry)
      exact hall _ hop hinside
    · obtain ⟨content, hop⟩ := (hg.keysAfter entry.1).1 (mem_map_of_mem hentry)
      exact hall _ hop hinside

/-! ### The pass over the lines -/

section Pass

variable {ranges : List RangeOperation}

variable {r : RangeOperation}

theorem eq_of_covers (hapart : ranges.Pairwise Apart) {r' : RangeOperation} (hr : r ∈ ranges)
    (hr' : r' ∈ ranges) (h : r.start ≤ n ∧ n ≤ r.stop) (h' : r'.start ≤ n ∧ n ≤ r'.stop) :
    r = r' := by
  by_contra hne
  rcases hapart.forall hr hr' hne with hlt | hlt <;> omega

theorem keptAt_of_covers (hapart : ranges.Pairwise Apart) (hr : r ∈ ranges)
    (h : r.start ≤ n ∧ n ≤ r.stop) (line : List Char) :
    keptAt ranges n line = if r.start = n then r.lines else [] := by
  have hfound : (ranges.find? fun r => r.start ≤ n ∧ n ≤ r.stop) = some r := by
    cases hfind : ranges.find? fun r => r.start ≤ n ∧ n ≤ r.stop with
    | none => exact absurd h (by simpa using find?_eq_none.1 hfind r hr)
    | some r' =>
      have hcovers := find?_some hfind
      rw [decide_eq_true_eq] at hcovers
      rw [eq_of_covers hapart (mem_of_find?_eq_some hfind) hr hcovers h]
  rw [keptAt, hfound]

theorem keptAt_of_not_covers (h : ∀ r ∈ ranges, ¬(r.start ≤ n ∧ n ≤ r.stop)) (line : List Char) :
    keptAt ranges n line = [line] := by
  have hnone : (ranges.find? fun r => r.start ≤ n ∧ n ≤ r.stop) = none :=
    find?_eq_none.2 fun r hr => by simpa using h r hr
  rw [keptAt, hnone]

/-- What the pass owes to the lines from `n` on. -/
def written (before after : Insertions) (ranges : List RangeOperation) (n : ℕ)
    (lines : List (List Char)) : List (List Char) :=
  (lines.zipIdx n).flatMap fun p =>
    insertionsAt before p.2 ++ keptAt ranges p.2 p.1 ++ insertionsAt after p.2

theorem written_cons (before after : Insertions) (n : ℕ) (line : List Char)
    (lines : List (List Char)) : written before after ranges n (line :: lines) =
      insertionsAt before n ++ keptAt ranges n line ++ insertionsAt after n ++
        written before after ranges (n + 1) lines := by
  unfold written
  rw [zipIdx_cons, flatMap_cons]

variable {before after : Insertions}

theorem writeLines_start {resume : ℕ} (h : resume ≤ n)
    (hr : ranges.find? (fun r => r.start == n) = some r) (line : List Char)
    (lines : List (List Char)) : writeLines before after ranges n resume (line :: lines) =
      insertionsAt before n ++ (r.lines ++ (insertionsAt after r.stop ++
        writeLines before after ranges (n + 1) (r.stop + 1) lines)) := by
  rw [writeLines, if_neg (by omega), hr]

theorem writeLines_line {resume : ℕ} (h : resume ≤ n)
    (hr : ranges.find? (fun r => r.start == n) = none) (line : List Char)
    (lines : List (List Char)) : writeLines before after ranges n resume (line :: lines) =
      insertionsAt before n ++ (line :: (insertionsAt after n ++
        writeLines before after ranges (n + 1) resume lines)) := by
  rw [writeLines, if_neg (by omega), hr]

/-- **The pass over the lines writes what is left at each of them.**  Inside a range, what is
inserted after the range has been written ahead. -/
theorem writeLines_eq (hapart : ranges.Pairwise Apart) (hranges : ∀ r ∈ ranges, r.start ≤ r.stop)
    (hbefore : ∀ r ∈ ranges, ∀ n, r.start < n → n ≤ r.stop → insertionsAt before n = [])
    (hafter : ∀ r ∈ ranges, ∀ n, r.start ≤ n → n < r.stop → insertionsAt after n = [])
    (lines : List (List Char)) :
    (∀ n resume, resume ≤ n → (∀ r ∈ ranges, r.start < n → r.stop < n) →
      (∀ r ∈ ranges, r.stop < n + lines.length) →
      writeLines before after ranges n resume lines = written before after ranges n lines) ∧
    ∀ n, ∀ r ∈ ranges, r.start < n → n ≤ r.stop → (∀ r ∈ ranges, r.stop < n + lines.length) →
      insertionsAt after r.stop ++ writeLines before after ranges n (r.stop + 1) lines =
        written before after ranges n lines := by
  induction lines with
  | nil =>
    refine ⟨fun n resume _ _ _ => rfl, fun n r hr hstart hstop hcount => ?_⟩
    exact absurd (hcount r hr) (by simpa using hstop)
  | cons line lines ih =>
    obtain ⟨ihfree, ihin⟩ := ih
    constructor
    · intro n resume hresume hfree hcount
      have hcount' : ∀ r ∈ ranges, r.stop < n + 1 + lines.length := by
        intro r hr
        have hlt := hcount r hr
        rw [length_cons] at hlt
        omega
      rw [written_cons]
      cases hfind : ranges.find? fun r => r.start == n with
      | some r =>
        have hr := mem_of_find?_eq_some hfind
        have hstart : r.start = n := by simpa using find?_some hfind
        have hcovers : r.start ≤ n ∧ n ≤ r.stop := ⟨by omega, hstart ▸ hranges r hr⟩
        rw [writeLines_start hresume hfind, keptAt_of_covers hapart hr hcovers, if_pos hstart,
          append_assoc, append_assoc]
        congr 2
        by_cases hstop : r.stop = n
        · rw [hstop, ihfree (n + 1) (n + 1) (le_refl _) (fun r' hr' hlt => ?_) hcount']
          by_contra hnot
          have hsame := eq_of_covers hapart hr' hr ⟨by omega, by omega⟩ hcovers
          rw [hsame, hstop] at hnot
          omega
        · rw [hafter r hr n (by omega) (by omega), nil_append]
          exact ihin (n + 1) r hr (by omega) (by omega) hcount'
      | none =>
        have hstart : ∀ r ∈ ranges, r.start ≠ n := by
          intro r hr heq
          exact find?_eq_none.1 hfind r hr (beq_iff_eq.2 heq)
        have hnot : ∀ r ∈ ranges, ¬(r.start ≤ n ∧ n ≤ r.stop) := by
          intro r hr hcovers
          have hne := hstart r hr
          have hlt := hfree r hr (by omega)
          omega
        rw [writeLines_line hresume hfind, keptAt_of_not_covers hnot,
          ihfree (n + 1) resume (by omega) (fun r hr hlt => ?_) hcount']
        · simp
        · have hne := hstart r hr
          have hlt' := hfree r hr (by omega)
          omega
    · intro n r hr hstart hstop hcount
      have hcount' : ∀ r ∈ ranges, r.stop < n + 1 + lines.length := by
        intro r hr
        have hlt := hcount r hr
        rw [length_cons] at hlt
        omega
      rw [writeLines, if_pos (by omega), written_cons, hbefore r hr n hstart hstop,
        keptAt_of_covers hapart hr ⟨by omega, hstop⟩, if_neg (by omega), nil_append,
        nil_append]
      by_cases hend : n = r.stop
      · rw [hend, ihfree (r.stop + 1) (r.stop + 1) (le_refl _) (fun r' hr' hlt => ?_)
          (by rwa [← hend])]
        by_contra hnot
        have hsame := eq_of_covers hapart hr' hr (n := r.stop) ⟨by omega, by omega⟩
          ⟨by omega, by omega⟩
        rw [hsame] at hnot
        omega
      · rw [hafter r hr n (by omega) (by omega), nil_append]
        exact ihin (n + 1) r hr (by omega) (by omega) hcount'

end Pass

theorem keptAt_perm {ranges ranges' : List RangeOperation} (hperm : ranges'.Perm ranges)
    (hapart : ranges.Pairwise Apart) (n : ℕ) (line : List Char) :
    keptAt ranges' n line = keptAt ranges n line := by
  have hapart' : ranges'.Pairwise Apart := (hperm.pairwise_iff fun h => h.symm).2 hapart
  by_cases hcovers : ∃ r ∈ ranges, r.start ≤ n ∧ n ≤ r.stop
  · obtain ⟨r, hr, hcovers⟩ := hcovers
    rw [keptAt_of_covers hapart hr hcovers, keptAt_of_covers hapart' (hperm.mem_iff.2 hr) hcovers]
  · have hnot : ∀ r ∈ ranges, ¬(r.start ≤ n ∧ n ≤ r.stop) := fun r hr h => hcovers ⟨r, hr, h⟩
    rw [keptAt_of_not_covers hnot, keptAt_of_not_covers fun r hr => hnot r (hperm.mem_iff.1 hr)]

/-! ### The whole -/

theorem invalid_iff : (∃ op ∈ ops, op.Invalid lineCount) ↔
    (∃ op ∈ ops, ∃ n ∈ op.coordinates, lineCount < n) ∨ ∃ r ∈ rangesOf ops, r.stop < r.start := by
  constructor
  · rintro ⟨op, hop, hlines | ⟨r, hr, hlt⟩⟩
    · exact .inl ⟨op, hop, hlines⟩
    · exact .inr ⟨r, mem_filterMap.2 ⟨op, hop, hr⟩, hlt⟩
  · rintro (⟨op, hop, hlines⟩ | ⟨r, hr, hlt⟩)
    · exact ⟨op, hop, .inl hlines⟩
    · obtain ⟨op, hop, hr⟩ := mem_filterMap.1 hr
      exact ⟨op, hop, .inr ⟨r, hr, hlt⟩⟩

theorem mem_coordinates_of_range {op : EditLineOperation} {r : RangeOperation}
    (h : op.range? = some r) : r.start ∈ op.coordinates ∧ r.stop ∈ op.coordinates := by
  cases op <;> first | (obtain rfl := some.inj h; simp [EditLineOperation.coordinates]) |
    cases h

theorem flatMap_eq_nil_of_not_inside {r : RangeOperation} (h : ∀ op ∈ ops, ¬op.Inside r) :
    (∀ n, r.start < n → n ≤ r.stop → linesBefore ops n = []) ∧
      ∀ n, r.start ≤ n → n < r.stop → linesAfter ops n = [] := by
  constructor
  · refine fun n hstart hstop => flatMap_eq_nil_iff.2 fun op hop => ?_
    cases op with
    | insertPre line content =>
      refine if_neg ?_
      rintro rfl
      exact h _ hop ⟨hstart, hstop⟩
    | _ => rfl
  · refine fun n hstart hstop => flatMap_eq_nil_iff.2 fun op hop => ?_
    cases op with
    | insertPost line content =>
      refine if_neg ?_
      rintro rfl
      exact h _ hop ⟨hstart, hstop⟩
    | _ => rfl

theorem applyLineOperations_grouped {content : List Char} {groups : OperationGroups}
    (hempty : (editLines content).length ≠ 0)
    (hgroups : ops.foldlM (groupOperation (editLines content).length) {} = .ok groups) :
    ((overlapError (sortedRanges groups.ranges) ≠ none ∨
        insideError groups (sortedRanges groups.ranges) ≠ none) ∧
      ∃ e, applyLineOperations content ops = .error e) ∨
    (overlapError (sortedRanges groups.ranges) = none ∧
      insideError groups (sortedRanges groups.ranges) = none) ∧
      applyLineOperations content ops = .ok (joinLines content
        (writeLines groups.insertBefore groups.insertAfter (sortedRanges groups.ranges) 1 1
          (editLines content))) := by
  unfold sortedRanges
  simp only [applyLineOperations, if_neg hempty, hgroups]
  cases hoverlap : overlapError
      (groups.ranges.insertionSort fun left right => left.start ≤ right.start) with
  | some message =>
    refine .inl ⟨.inl (some_ne_none _), message, ?_⟩
    simp only [bind, Except.bind, hoverlap]
    rfl
  | none =>
    cases hinside : insideError groups
        (groups.ranges.insertionSort fun left right => left.start ≤ right.start) with
    | some message =>
      refine .inl ⟨.inr (some_ne_none _), message, ?_⟩
      simp only [bind, Except.bind, hoverlap, hinside]
      rfl
    | none =>
      refine .inr ⟨⟨rfl, rfl⟩, ?_⟩
      simp only [bind, Except.bind, hoverlap, hinside]
      rfl

theorem writeLines_groups {groups : OperationGroups} (hg : GroupsHold ops groups)
    {lines : List (List Char)} (hranges : ∀ r ∈ rangesOf ops, r.start ≤ r.stop)
    (hone : ∀ r ∈ rangesOf ops, 1 ≤ r.start) (hcount : ∀ r ∈ rangesOf ops, r.stop ≤ lines.length)
    (hapart : (rangesOf ops).Pairwise Apart)
    (hinside : ∀ r ∈ rangesOf ops, ∀ op ∈ ops, ¬op.Inside r) :
    writeLines groups.insertBefore groups.insertAfter (sortedRanges groups.ranges) 1 1 lines =
      expectedLines ops lines := by
  rw [hg.ranges]
  have hperm := sortedRanges_perm (rangesOf ops)
  have hsorted : (sortedRanges (rangesOf ops)).Pairwise Apart :=
    (hperm.pairwise_iff fun h => h.symm).2 hapart
  have hpass := (@writeLines_eq _ groups.insertBefore groups.insertAfter hsorted
    (fun r hr => hranges r (hperm.mem_iff.1 hr))
    (fun r hr n hstart hstop => (hg.before n).trans
      ((flatMap_eq_nil_of_not_inside (hinside r (hperm.mem_iff.1 hr))).1 n hstart hstop))
    (fun r hr n hstart hstop => (hg.after n).trans
      ((flatMap_eq_nil_of_not_inside (hinside r (hperm.mem_iff.1 hr))).2 n hstart hstop))
    lines).1 1 1 (le_refl 1)
    (fun r hr hlt => absurd (hone r (hperm.mem_iff.1 hr)) (by omega))
    (fun r hr => by have := hcount r (hperm.mem_iff.1 hr); omega)
  rw [hpass]
  unfold written expectedLines leftAt
  refine congrArg (fun f => (lines.zipIdx 1).flatMap f) (funext fun p => ?_)
  rw [hg.before, hg.after, keptAt_perm hperm hapart]

theorem rejected_zero (ops : LineOps) : Rejected ops.toList 0 := by
  obtain ⟨op, rest, hops⟩ := exists_cons_of_ne_nil ops.ne_nil
  have hmem : op ∈ ops.toList := hops ▸ (.head _)
  obtain ⟨n, hn⟩ : ∃ n, n ∈ op.coordinates := by
    cases op <;> exact ⟨_, (.head _)⟩
  exact .inl ⟨op, hmem, n, hn, ops.one_le op hmem n hn⟩

/-- **The operations are rejected, or the lines are what is left.** -/
theorem applyLineOperations_spec (content : List Char) (ops : LineOps) :
    (Rejected ops.toList (editLines content).length ∧
      ∃ e, applyLineOperations content ops.toList = .error e) ∨
    ¬Rejected ops.toList (editLines content).length ∧
      applyLineOperations content ops.toList =
        .ok (joinLines content (expectedLines ops.toList (editLines content))) := by
  by_cases hempty : (editLines content).length = 0
  · refine .inl ⟨?_, _, by rw [applyLineOperations, if_pos hempty]; rfl⟩
    rw [hempty]
    exact rejected_zero ops
  rcases groupOperations_spec ops.toList (editLines content).length with
    ⟨hbad, e, he⟩ | ⟨hvalid, groups, hgroups, hg⟩
  · refine .inl ⟨(invalid_iff.1 hbad).imp_right .inl, e, ?_⟩
    simp only [applyLineOperations, if_neg hempty, he]
    rfl
  have hnot := mt invalid_iff.2 fun ⟨op, hop, hinvalid⟩ => hvalid op hop hinvalid
  obtain ⟨hlines, hreversed⟩ := not_or.1 hnot
  have hranges : ∀ r ∈ rangesOf ops.toList, r.start ≤ r.stop :=
    fun r hr => not_lt.1 fun hlt => hreversed ⟨r, hr, hlt⟩
  have hperm := sortedRanges_perm (rangesOf ops.toList)
  have hoverlap := overlapError_sortedRanges hranges
  have hinside := @insideError_eq_none _ _ hg (sortedRanges (rangesOf ops.toList))
  rcases applyLineOperations_grouped hempty hgroups with ⟨hbad, herror⟩ | ⟨⟨hnone, hnone'⟩, hok⟩
  · rw [hg.ranges, ne_eq, hoverlap, ne_eq, hinside] at hbad
    refine .inl ⟨.inr (.inr (hbad.imp_right fun hbad => ?_)), herror⟩
    push Not at hbad
    obtain ⟨r, hr, op, hop, hin⟩ := hbad
    exact ⟨r, hperm.mem_iff.1 hr, op, hop, hin⟩
  · rw [hg.ranges] at hnone hnone'
    have hapart := hoverlap.1 hnone
    have hfree : ∀ r ∈ rangesOf ops.toList, ∀ op ∈ ops.toList, ¬op.Inside r :=
      fun r hr => hinside.1 hnone' r (hperm.mem_iff.2 hr)
    have hof : ∀ r ∈ rangesOf ops.toList, 1 ≤ r.start ∧ r.stop ≤ (editLines content).length := by
      intro r hr
      obtain ⟨op, hop, hrange⟩ := mem_filterMap.1 hr
      obtain ⟨hstart, hstop⟩ := mem_coordinates_of_range hrange
      exact ⟨ops.one_le op hop _ hstart, not_lt.1 fun hlt => hlines ⟨op, hop, _, hstop, hlt⟩⟩
    refine .inr ⟨?_, ?_⟩
    · rintro (h | h | h | ⟨r, hr, op, hop, hin⟩)
      · exact hlines h
      · exact hreversed h
      · exact h hapart
      · exact hfree r hr op hop hin
    · rw [hok, writeLines_groups hg hranges (fun r hr => (hof r hr).1) (fun r hr => (hof r hr).2)
        hapart hfree]

/-! ### The lines of the new text -/

/-- The mark that the text begins with, if it does. -/
def markOf (content : List Char) : List Char := if content.head? = some bom then [bom] else []

/-- Nothing is left behind an empty line: at the last line where something is left, it ends in an
empty line. -/
def EndsBlank (ops : List EditLineOperation) (lines : List (List Char)) : Prop :=
  ∃ before p behind, lines.zipIdx 1 = before ++ p :: behind ∧
    (leftAt ops p.2 p.1).getLast? = some [] ∧ ∀ q ∈ behind, leftAt ops q.2 q.1 = []

theorem endsBlank_iff {lines : List (List Char)} :
    EndsBlank ops lines ↔ (expectedLines ops lines).getLast? = some [] := by
  have hgeneral : ∀ l : List (List Char × ℕ),
      (∃ before p behind, l = before ++ p :: behind ∧
        (leftAt ops p.2 p.1).getLast? = some [] ∧ ∀ q ∈ behind, leftAt ops q.2 q.1 = []) ↔
      (l.flatMap fun p => leftAt ops p.2 p.1).getLast? = some [] := by
    intro l
    induction l using reverseRecOn with
    | nil => simp
    | append_singleton l p ih =>
      rw [flatMap_append, flatMap_singleton, getLast?_append]
      by_cases hp : leftAt ops p.2 p.1 = []
      · rw [hp, getLast?_nil, none_or, ← ih]
        constructor
        · rintro ⟨before, q, behind, hl, hlast, hnone⟩
          rcases eq_nil_or_concat' behind with rfl | ⟨behind, q', rfl⟩
          · obtain ⟨rfl, hq⟩ := append_inj' hl rfl
            rw [← (List.cons.inj hq).1, hp] at hlast
            cases hlast
          · have hsplit : l ++ [p] = (before ++ q :: behind) ++ [q'] := by
              rw [hl, append_assoc, cons_append]
            obtain ⟨rfl, -⟩ := append_inj' hsplit rfl
            exact ⟨before, q, behind, rfl, hlast, fun q hq => hnone q (mem_append_left _ hq)⟩
        · rintro ⟨before, q, behind, rfl, hlast, hnone⟩
          refine ⟨before, q, behind ++ [p], by rw [append_assoc, cons_append], hlast,
            fun q hq => ?_⟩
          rcases mem_append.1 hq with hq | hq
          · exact hnone q hq
          · rwa [mem_singleton.1 hq]
      · obtain ⟨last, hlast⟩ : ∃ last, (leftAt ops p.2 p.1).getLast? = some last :=
          ⟨_, getLast?_eq_some_getLast hp⟩
        rw [hlast, some_or]
        constructor
        · rintro ⟨before, q, behind, hl, hq, hnone⟩
          rcases eq_nil_or_concat' behind with rfl | ⟨behind, q', rfl⟩
          · obtain ⟨-, heq⟩ := append_inj' hl rfl
            rw [← (List.cons.inj heq).1, hlast] at hq
            exact hq
          · have hsplit : l ++ [p] = (before ++ q :: behind) ++ [q'] := by
              rw [hl, append_assoc, cons_append]
            obtain ⟨-, heq⟩ := append_inj' hsplit rfl
            rw [(List.cons.inj heq).1] at hp
            exact absurd (hnone q' (mem_append_right _ (.head _))) hp
        · exact fun h => ⟨l, p, [], rfl, hlast.trans h, fun q hq => absurd hq not_mem_nil⟩
  exact hgeneral (lines.zipIdx 1)

/-! ### Lines and texts -/

variable {line : List Char}

theorem notMem_lf_of_mem_splitLines {text : List Char} (h : line ∈ splitLines text) :
    '\n' ∉ line := by
  induction text generalizing line with
  | nil =>
    rw [mem_singleton.1 h]
    exact not_mem_nil
  | cons c text ih =>
    rw [splitLines] at h
    by_cases hc : c = '\n'
    · rw [if_pos hc] at h
      rcases mem_cons.1 h with rfl | h
      · exact not_mem_nil
      · exact ih h
    · rw [if_neg hc] at h
      obtain ⟨first, rest, hlines⟩ := exists_cons_of_ne_nil (splitLines_ne_nil text)
      rw [hlines] at h ih
      rcases mem_cons.1 h with rfl | h
      · have hfirst := ih (.head _)
        simp [hfirst, Ne.symm hc]
      · exact ih (.tail _ h)

theorem notMem_lf_of_mem_splitOperationContent {content : List Char}
    (h : line ∈ splitOperationContent content) : '\n' ∉ line := by
  unfold splitOperationContent at h
  split_ifs at h
  · exact notMem_lf_of_mem_splitLines (mem_of_mem_dropLast h)
  · exact notMem_lf_of_mem_splitLines h

theorem notMem_lf_of_mem_editLines {content : List Char} (h : line ∈ editLines content) :
    '\n' ∉ line := by
  unfold editLines splitFileLines at h
  split_ifs at h
  · cases h
  · exact notMem_lf_of_mem_splitLines (mem_of_mem_dropLast h)
  · exact notMem_lf_of_mem_splitLines h

theorem notMem_lf_of_mem_expectedLines {content line : List Char}
    (h : line ∈ expectedLines ops (editLines content)) : '\n' ∉ line := by
  obtain ⟨p, hp, hline⟩ := mem_flatMap.1 h
  rw [leftAt, mem_append, mem_append] at hline
  rcases hline with (hline | hline) | hline
  · obtain ⟨op, -, hop⟩ := mem_flatMap.1 hline
    cases op with
    | insertPre n c =>
      rw [EditLineOperation.before] at hop
      split_ifs at hop
      · exact notMem_lf_of_mem_splitOperationContent hop
      · cases hop
    | _ => cases hop
  · unfold keptAt at hline
    split at hline
    · rename_i r hfind
      split_ifs at hline
      · obtain ⟨op, -, hrange⟩ := mem_filterMap.1 (mem_of_find?_eq_some hfind)
        cases op with
        | swap start stop c =>
          cases hrange
          exact notMem_lf_of_mem_splitOperationContent hline
        | del start stop =>
          cases hrange
          cases hline
        | _ => cases hrange
      · cases hline
    · rw [mem_singleton.1 hline]
      exact notMem_lf_of_mem_editLines (fst_mem_of_mem_zipIdx hp)
  · obtain ⟨op, -, hop⟩ := mem_flatMap.1 hline
    cases op with
    | insertPost n c =>
      rw [EditLineOperation.after] at hop
      split_ifs at hop
      · exact notMem_lf_of_mem_splitOperationContent hop
      · cases hop
    | _ => cases hop

theorem splitLines_append_cons (h : '\n' ∉ line) (rest : List Char) :
    splitLines (line ++ '\n' :: rest) = line :: splitLines rest := by
  induction line with
  | nil => simp [splitLines]
  | cons c line ih =>
    obtain ⟨hc, hline⟩ := not_or.1 (mt mem_cons.2 h)
    rw [cons_append, splitLines, if_neg (Ne.symm hc), ih hline]

theorem splitLines_of_notMem (h : '\n' ∉ line) : splitLines line = [line] := by
  induction line with
  | nil => rfl
  | cons c line ih =>
    obtain ⟨hc, hline⟩ := not_or.1 (mt mem_cons.2 h)
    rw [splitLines, if_neg (Ne.symm hc), ih hline]

variable {lines : List (List Char)}

theorem splitLines_intercalate (hne : lines ≠ [])
    (h : ∀ line ∈ lines, '\n' ∉ line) : splitLines (intercalate ['\n'] lines) = lines := by
  induction lines with
  | nil => exact absurd rfl hne
  | cons line lines ih =>
    have hline := h line (.head _)
    cases lines with
    | nil => simpa using splitLines_of_notMem hline
    | cons line' lines =>
      have hrest := ih (cons_ne_nil _ _) fun l hl => h l (.tail _ hl)
      rw [intercalate_cons_cons, append_assoc, singleton_append,
        splitLines_append_cons hline, hrest]

theorem splitFileLines_intercalate_lf (hne : lines ≠ []) (h : ∀ line ∈ lines, '\n' ∉ line) :
    splitFileLines (intercalate ['\n'] lines ++ ['\n']) = lines := by
  rw [splitFileLines_of_ne_nil (by simp), stripTrailingLf, getLast?_concat, if_pos rfl,
    dropLast_concat, splitLines_intercalate hne h]

theorem intercalate_concat {front : List (List Char)} (hne : front ≠ []) (last : List Char) :
    intercalate ['\n'] (front ++ [last]) = intercalate ['\n'] front ++ '\n' :: last := by
  induction front with
  | nil => exact absurd rfl hne
  | cons line front ih =>
    cases front with
    | nil => simp [intercalate_cons_cons]
    | cons line' front =>
      have hrest := ih (cons_ne_nil _ _)
      rw [cons_append, cons_append, intercalate_cons_cons, ← cons_append,
        hrest, intercalate_cons_cons]
      simp

/-- **A text without a last line feed has no empty last line.** -/
theorem splitFileLines_intercalate (h : ∀ line ∈ lines, '\n' ∉ line) :
    splitFileLines (intercalate ['\n'] lines) = lines ↔ lines.getLast? ≠ some [] := by
  rcases eq_nil_or_concat' lines with rfl | ⟨front, last, rfl⟩
  · exact iff_of_true rfl (by simp)
  rw [getLast?_concat, ne_eq, some.injEq]
  by_cases hlast : last = []
  · subst hlast
    refine iff_of_false (fun heq => ?_) (not_not.2 rfl)
    by_cases hfront : front = []
    · rw [hfront] at heq
      cases heq
    · rw [intercalate_concat hfront, splitFileLines_intercalate_lf hfront
        fun l hl => h l (mem_append_left _ hl)] at heq
      have hlength := congrArg List.length heq
      rw [length_append, length_singleton] at hlength
      omega
  · refine iff_of_true ?_ hlast
    -- the text ends as its last line does, and that has no line feed
    obtain ⟨text, htext⟩ : ∃ text, intercalate ['\n'] (front ++ [last]) = text ++ last := by
      by_cases hfront : front = []
      · exact ⟨[], by rw [hfront]; simp⟩
      · exact ⟨intercalate ['\n'] front ++ ['\n'], by rw [intercalate_concat hfront]; simp⟩
    have hend : (text ++ last).getLast? ≠ some '\n' := by
      rw [getLast?_append_of_ne_nil _ hlast]
      intro hlf
      exact h last (mem_append_right _ (.head _)) (mem_of_getLast? hlf)
    have hsplit := splitLines_intercalate (append_ne_nil_of_right_ne_nil front
      (cons_ne_nil last [])) h
    rw [htext] at hsplit ⊢
    rw [splitFileLines_of_ne_nil (append_ne_nil_of_right_ne_nil _ hlast), stripTrailingLf,
      if_neg hend, hsplit]

inductive EditTarget
  | range (start stop : ℕ)
  | before (line : ℕ)
  | after (line : ℕ)
  deriving DecidableEq

def EditLineOperation.target : EditLineOperation → EditTarget
  | .swap start stop _ | .del start stop => .range start stop
  | .insertPre line _ => .before line
  | .insertPost line _ => .after line

/-- A reordering of operations on distinct targets: those on one target keep their order. -/
def SameTargets (ops ops' : List EditLineOperation) : Prop :=
  ops.Perm ops' ∧ ∀ t, ops.filter (·.target = t) = ops'.filter (·.target = t)

theorem flatMap_target {t : EditTarget} {lines : EditLineOperation → List (List Char)}
    (hnone : ∀ op, op.target ≠ t → lines op = []) (ops : List EditLineOperation) :
    ops.flatMap lines = (ops.filter (·.target = t)).flatMap lines := by
  induction ops with
  | nil => rfl
  | cons op ops ih =>
    rw [flatMap_cons, ih]
    by_cases htarget : op.target = t
    · rw [filter_cons_of_pos (by simpa using htarget), flatMap_cons]
    · rw [filter_cons_of_neg (by simpa using htarget), hnone op htarget, nil_append]

theorem linesBefore_eq (ops : List EditLineOperation) (n : ℕ) : linesBefore ops n =
    linesBefore (ops.filter (·.target = .before n)) n := by
  refine flatMap_target (fun op htarget => ?_) ops
  cases op with
  | insertPre line content => exact if_neg fun h => htarget (congrArg _ h)
  | _ => rfl

theorem linesAfter_eq (ops : List EditLineOperation) (n : ℕ) : linesAfter ops n =
    linesAfter (ops.filter (·.target = .after n)) n := by
  refine flatMap_target (fun op htarget => ?_) ops
  cases op with
  | insertPost line content => exact if_neg fun h => htarget (congrArg _ h)
  | _ => rfl

section Reorder

variable {ops' : List EditLineOperation}

theorem SameTargets.rangesOf_perm (h : SameTargets ops ops') :
    (rangesOf ops').Perm (rangesOf ops) := (h.1.filterMap _).symm

theorem SameTargets.rejected_iff (h : SameTargets ops ops') (lineCount : ℕ) :
    Rejected ops' lineCount ↔ Rejected ops lineCount := by
  have hmem : ∀ op, op ∈ ops' ↔ op ∈ ops := fun op => h.1.symm.mem_iff
  have hranges : ∀ r, r ∈ rangesOf ops' ↔ r ∈ rangesOf ops := fun r => h.rangesOf_perm.mem_iff
  unfold Rejected
  rw [h.rangesOf_perm.pairwise_iff fun h => h.symm]
  simp [hmem, hranges]

theorem SameTargets.expectedLines_eq (h : SameTargets ops ops')
    (hapart : (rangesOf ops).Pairwise Apart) (lines : List (List Char)) :
    expectedLines ops' lines = expectedLines ops lines := by
  refine congrArg (fun f => (lines.zipIdx 1).flatMap f) (funext fun p => ?_)
  unfold leftAt
  rw [linesBefore_eq ops', linesAfter_eq ops', ← h.2, ← h.2, ← linesBefore_eq, ← linesAfter_eq,
    keptAt_perm h.rangesOf_perm hapart]

end Reorder

/-! ### What is owed to a text and operations -/

/-- The operations are rejected when they make no sense, otherwise the lines of the new text are
those that are left, and the order of operations on distinct targets does not matter. -/
structure AppliesLines (content : List Char) (ops : LineOps) : Prop where
  rejects : (∃ e, applyLineOperations content ops.toList = .error e) ↔
    Rejected ops.toList (editLines content).length
  lines : ∀ new, applyLineOperations content ops.toList = .ok new →
    ∃ body, new = markOf content ++ body ∧
      splitFileLines body = expectedLines ops.toList (editLines content)
  reorders : ∀ ops' : LineOps, SameTargets ops.toList ops'.toList →
    (applyLineOperations content ops'.toList).toOption =
      (applyLineOperations content ops.toList).toOption

/-- The text behind the mark. -/
def joinBody (content : List Char) (lines : List (List Char)) : List Char :=
  if endsWithNewline (stripBom content) && 0 < lines.length then
    List.intercalate ['\n'] lines ++ ['\n']
  else List.intercalate ['\n'] lines

theorem joinLines_eq (content : List Char) (lines : List (List Char)) :
    joinLines content lines = markOf content ++ joinBody content lines := by
  simp only [joinLines, markOf, joinBody, beq_iff_eq]
  by_cases hmark : content.head? = some bom
  · rw [if_pos hmark, if_pos hmark, singleton_append]
  · rw [if_neg hmark, if_neg hmark, nil_append]

/-- **When the lines that are joined are the lines of the text.** -/
theorem splitFileLines_joinBody {content : List Char} {lines : List (List Char)}
    (h : ∀ line ∈ lines, '\n' ∉ line) : splitFileLines (joinBody content lines) = lines ↔
      endsWithNewline (stripBom content) = true ∨ lines.getLast? ≠ some [] := by
  unfold joinBody
  by_cases hend : endsWithNewline (stripBom content) = true
  · rw [hend, Bool.true_and]
    refine iff_of_true ?_ (.inl rfl)
    by_cases hne : lines = []
    · subst hne
      rfl
    · rw [if_pos (decide_eq_true (length_pos_iff.2 hne)), splitFileLines_intercalate_lf hne h]
  · rw [if_neg (by simp [hend]), splitFileLines_intercalate h]
    exact ⟨.inr, fun hor => hor.resolve_left hend⟩

/-- **When the new lines are the lines of the new text**: the text ends in a line feed, or what is
left does not end in an empty line. -/
theorem appliesLines_iff (content : List Char) (ops : LineOps) : AppliesLines content ops ↔
    Rejected ops.toList (editLines content).length ∨ endsWithNewline (stripBom content) = true ∨
      ¬EndsBlank ops.toList (editLines content) := by
  rw [endsBlank_iff]
  have hlf : ∀ line ∈ expectedLines ops.toList (editLines content), '\n' ∉ line :=
    fun line => notMem_lf_of_mem_expectedLines
  have hsplit := @splitFileLines_joinBody content _ hlf
  constructor
  · intro h
    rcases applyLineOperations_spec content ops with ⟨hrejected, -⟩ | ⟨-, hok⟩
    · exact .inl hrejected
    · obtain ⟨body, hbody, hlines⟩ := h.lines _ hok
      rw [joinLines_eq] at hbody
      rw [← List.append_cancel_left hbody] at hlines
      exact .inr (hsplit.1 hlines)
  · intro h
    constructor
    · rcases applyLineOperations_spec content ops with ⟨hrejected, herror⟩ | ⟨hnot, hok⟩
      · exact iff_of_true herror hrejected
      · rw [hok]
        exact iff_of_false (by rintro ⟨e, he⟩; cases he) hnot
    · intro new hnew
      rcases applyLineOperations_spec content ops with ⟨-, e, herror⟩ | ⟨hnot, hok⟩
      · rw [herror] at hnew
        cases hnew
      · rw [hok] at hnew
        cases hnew
        exact ⟨_, joinLines_eq content _, hsplit.2 (h.resolve_left hnot)⟩
    · intro ops' hsame
      have hrejected := hsame.rejected_iff (editLines content).length
      rcases applyLineOperations_spec content ops with ⟨hbad, e, herror⟩ | ⟨hnot, hok⟩
      · rcases applyLineOperations_spec content ops' with ⟨-, e', herror'⟩ | ⟨hnot', -⟩
        · rw [herror, herror']
          rfl
        · exact absurd (hrejected.2 hbad) hnot'
      · rcases applyLineOperations_spec content ops' with ⟨hbad', -⟩ | ⟨-, hok'⟩
        · exact absurd (hrejected.1 hbad') hnot
        · have hapart : (rangesOf ops.toList).Pairwise Apart :=
            not_not.1 fun h => hnot (.inr (.inr (.inl h)))
          rw [hok, hok', hsame.expectedLines_eq hapart]

/-- **Without a last line feed, deleting the last line takes an empty line before it along.** -/
theorem swallowed_line : ¬∀ (content : List Char) (ops : LineOps), AppliesLines content ops := by
  intro h
  obtain ⟨body, hbody, hlines⟩ := (h ['a', '\n', '\n', 'b']
    ⟨[.del 3 3], List.cons_ne_nil _ _, by decide⟩).lines ['a', '\n'] rfl
  obtain rfl : ['a', '\n'] = body := hbody
  exact absurd hlines (by decide)

end NoriCode
