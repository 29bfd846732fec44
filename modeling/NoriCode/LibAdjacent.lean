/-
**Merging neighbours while a list is built.**

A list is produced from left to right, and every new element is either merged into the last one
produced so far or put after it.  `LibAdjacent.appendMerging` is one such step, written against
the end of the output as an imperative loop does it; `LibAdjacent.mergeFrom` is the same pass by
recursion on the input, which is the form the proofs use.

Main definitions:

* `LibAdjacent.appendMerging`, `LibAdjacent.mergeAdjacent` — one step, and the whole pass;
* `LibAdjacent.mergeFrom` — the pass behind a given last element;
* `LibAdjacent.Merges`, `LibAdjacent.Grouped` — the runs of a list that the pass makes one.

Main results:

* `LibAdjacent.mergeAdjacent_cons` — the loop is the recursion;
* `LibAdjacent.mergeAdjacent_induct` — what every single merge preserves, the pass preserves;
* `LibAdjacent.mergeAdjacent_isChain` — neighbours of the result were refused by the merge;
* `LibAdjacent.mergeAdjacent_grouped` — the result is the runs of the list, in their order.
-/

import Mathlib.Data.List.Chain

namespace LibAdjacent

open List Option

variable {α : Type} (merge : α → α → Option α)

/-- One step: merge into the last element, or append. -/
def appendMerging (out : List α) (m : α) : List α :=
  match out.getLast? with
  | none => out ++ [m]
  | some p =>
    match merge p m with
    | some q => out.dropLast ++ [q]
    | none => out ++ [m]

def mergeAdjacent (l : List α) : List α := l.foldl (appendMerging merge) []

/-- The rest of the pass when `p` is the last element so far. -/
def mergeFrom : α → List α → List α
  | p, [] => [p]
  | p, m :: l =>
    match merge p m with
    | some q => mergeFrom q l
    | none => p :: mergeFrom m l

theorem appendMerging_append_singleton (out : List α) (p m : α) :
    appendMerging merge (out ++ [p]) m =
      match merge p m with
      | some q => out ++ [q]
      | none => out ++ [p, m] := by
  simp [appendMerging]

theorem foldl_appendMerging (out : List α) (p : α) (l : List α) :
    l.foldl (appendMerging merge) (out ++ [p]) = out ++ mergeFrom merge p l := by
  induction l generalizing out p with
  | nil => rfl
  | cons m l ih =>
    rw [foldl_cons, appendMerging_append_singleton, mergeFrom]
    cases merge p m with
    | some q => exact ih out q
    | none =>
      have h := ih (out ++ [p]) m
      simpa [append_assoc] using h

/-- The loop against the end of the output is the recursion on the input. -/
theorem mergeAdjacent_cons (m : α) (l : List α) :
    mergeAdjacent merge (m :: l) = mergeFrom merge m l :=
  foldl_appendMerging merge [] m l

/-- A property that the merge preserves in place is preserved by the whole pass: two neighbours
may be replaced by their merge, behind any output. -/
theorem foldl_appendMerging_induct {motive : List α → Prop}
    (hmerge : ∀ pre p m q post, merge p m = some q → motive (pre ++ p :: m :: post) →
      motive (pre ++ q :: post))
    (l : List α) : ∀ out, motive (out ++ l) → motive (l.foldl (appendMerging merge) out) := by
  induction l with
  | nil => intro out h; simpa using h
  | cons m l ih =>
    intro out h
    rw [foldl_cons]
    apply ih
    rcases eq_nil_or_concat out with rfl | ⟨pre, p, rfl⟩
    · simpa [appendMerging] using h
    · rw [concat_eq_append] at h ⊢
      rw [appendMerging_append_singleton]
      cases hq : merge p m with
      | none => simpa [append_assoc] using h
      | some q =>
        have h' : motive (pre ++ p :: m :: l) := by simpa [append_assoc] using h
        simpa [append_assoc] using hmerge pre p m q l hq h'

theorem mergeAdjacent_induct {motive : List α → Prop}
    (hmerge : ∀ pre p m q post, merge p m = some q → motive (pre ++ p :: m :: post) →
      motive (pre ++ q :: post))
    {l : List α} (h : motive l) : motive (mergeAdjacent merge l) :=
  foldl_appendMerging_induct merge hmerge l [] h

theorem mergeFrom_isChain {R : α → α → Prop} (hnone : ∀ a b, merge a b = none → R a b)
    (hsome : ∀ x p m q, R x p → merge p m = some q → R x q) (l : List α) (p : α) :
    (mergeFrom merge p l).IsChain R ∧ ∀ x, R x p → (x :: mergeFrom merge p l).IsChain R := by
  induction l generalizing p with
  | nil => simp [mergeFrom]
  | cons m l ih =>
    unfold mergeFrom
    cases hq : merge p m with
    | some q => exact ⟨(ih q).1, fun x hx => (ih q).2 x (hsome x p m q hx hq)⟩
    | none =>
      have hp := (ih m).2 p (hnone p m hq)
      exact ⟨hp, fun x hx => isChain_cons_cons.2 ⟨hx, hp⟩⟩

/-- Neighbours in the result of the pass stand in every relation that holds where the merge
refuses and that a merge on its right side keeps. -/
theorem mergeAdjacent_isChain {R : α → α → Prop} (hnone : ∀ a b, merge a b = none → R a b)
    (hsome : ∀ x p m q, R x p → merge p m = some q → R x q) (l : List α) :
    (mergeAdjacent merge l).IsChain R := by
  cases l with
  | nil => exact isChain_nil
  | cons m l =>
    rw [mergeAdjacent_cons]
    exact (mergeFrom_isChain merge hnone hsome l m).1

/-! ### Runs that become one -/

/-- The elements of a run are merged, one after the other, into what the first has become. -/
inductive Merges : α → List α → α → Prop
  | nil {p : α} : Merges p [] p
  | cons {p m q r : α} {run : List α} : merge p m = some q → Merges q run r →
      Merges p (m :: run) r

/-- **A list by its runs**: each run becomes one element, into which the next one does not merge. -/
inductive Grouped : List α → List α → Prop
  | nil : Grouped [] []
  | cons {p q : α} {run l out : List α} : Merges merge p run q →
      (∀ m ∈ l.head?, merge q m = none) → Grouped l out → Grouped (p :: (run ++ l)) (q :: out)

variable {merge}

theorem grouped_mergeFrom (l : List α) (p : α) : Grouped merge (p :: l) (mergeFrom merge p l) := by
  induction l generalizing p with
  | nil => exact .cons .nil (fun _ hm => (by cases hm)) .nil
  | cons m l ih =>
    unfold mergeFrom
    cases hq : merge p m with
    | none =>
      refine .cons .nil (fun x hx => ?_) (ih m)
      cases hx
      exact hq
    | some q =>
      show Grouped merge (p :: m :: l) (mergeFrom merge q l)
      have hrest := ih q
      generalize mergeFrom merge q l = out at hrest ⊢
      cases hrest with
      | cons hmerges hnext hl => exact .cons (.cons hq hmerges) hnext hl

theorem mergeAdjacent_grouped (l : List α) : Grouped merge l (mergeAdjacent merge l) := by
  cases l with
  | nil => exact .nil
  | cons m l =>
    rw [mergeAdjacent_cons]
    exact grouped_mergeFrom l m

/-- An element of the result comes from a run, with what stands before and behind it. -/
theorem Grouped.of_mem {l out : List α} (h : Grouped merge l out) {q : α} (hq : q ∈ out) :
    ∃ pre p run post, l = pre ++ p :: (run ++ post) ∧ Merges merge p run q ∧
      (∀ m ∈ post.head?, merge q m = none) ∧
      (pre = [] ∨ ∃ q' ∈ out, merge q' p = none ∧
        ∃ pre' p' run', pre = pre' ++ p' :: run' ∧ Merges merge p' run' q') := by
  induction h with
  | nil => cases hq
  | @cons p q₁ run l out hmerges hnext hl ih =>
    rcases mem_cons.1 hq with rfl | hq
    · exact ⟨[], p, run, l, rfl, hmerges, hnext, .inl rfl⟩
    · obtain ⟨pre, p₂, run₂, post, rfl, hmerges₂, hnext₂, hpre⟩ := ih hq
      refine ⟨p :: (run ++ pre), p₂, run₂, post, ?_, hmerges₂, hnext₂, .inr ?_⟩
      · rw [cons_append, append_assoc]
      · rcases hpre with rfl | ⟨q', hq', hnone, pre', p', run', rfl, hmerges'⟩
        · refine ⟨q₁, (.head _), hnext p₂ rfl, [], p, run, ?_, hmerges⟩
          rw [append_nil]
          rfl
        · refine ⟨q', .tail _ hq', hnone, p :: (run ++ pre'), p', run', ?_, hmerges'⟩
          rw [cons_append, append_assoc]

theorem Merges.mergeFrom_eq {p q : α} {run : List α} (h : Merges merge p run q) (post : List α) :
    mergeFrom merge p (run ++ post) = mergeFrom merge q post := by
  induction h with
  | nil => rfl
  | cons hq _ ih =>
    rw [cons_append, mergeFrom, hq]
    exact ih

theorem mem_mergeFrom {q : α} {post : List α} (h : ∀ m ∈ post.head?, merge q m = none) :
    q ∈ mergeFrom merge q post := by
  cases post with
  | nil => exact mem_singleton_self q
  | cons m post =>
    rw [mergeFrom, h m rfl]
    exact (.head _)

theorem mergeAdjacent_concat {m : α} (h : ∀ p, merge p m = none) (l : List α) :
    mergeAdjacent merge (l ++ [m]) = mergeAdjacent merge l ++ [m] := by
  rw [mergeAdjacent, foldl_append, foldl_cons, foldl_nil, appendMerging]
  cases (l.foldl (appendMerging merge) []).getLast? with
  | none => rfl
  | some p =>
    simp only [h p]
    rfl

/-- A run between elements that refuse it becomes an element of the result. -/
theorem Merges.mem_mergeAdjacent {p q : α} {run : List α} (h : Merges merge p run q)
    {pre post : List α} (hpre : ∀ x ∈ (mergeAdjacent merge pre).getLast?, merge x p = none)
    (hpost : ∀ m ∈ post.head?, merge q m = none) :
    q ∈ mergeAdjacent merge (pre ++ p :: (run ++ post)) := by
  have hstep : appendMerging merge (mergeAdjacent merge pre) p =
      mergeAdjacent merge pre ++ [p] := by
    rw [appendMerging]
    cases hlast : (mergeAdjacent merge pre).getLast? with
    | none => rfl
    | some x => simp only [hpre x hlast]
  have hsplit : mergeAdjacent merge (pre ++ p :: (run ++ post)) =
      mergeAdjacent merge pre ++ mergeFrom merge q post := by
    rw [← h.mergeFrom_eq post, ← foldl_appendMerging, ← hstep, mergeAdjacent, mergeAdjacent,
      foldl_append, foldl_cons]
  rw [hsplit]
  exact mem_append_right _ (mem_mergeFrom hpost)

end LibAdjacent
