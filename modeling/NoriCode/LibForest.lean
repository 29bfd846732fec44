/-
**Forests of parent links.**

A parent function gives at most one parent to each node.  The line of a node is the list of what is
above it, from its parent to the root, and a forest is a parent function under which every node has
one.  Cutting a link keeps a forest, and so does a new link from a node that is not in the line of
its new parent.  A walk that goes up and stops at what it has seen finds the line.

Main definitions:

* `LibForest.Line` — what is above a node;
* `LibForest.IsForest` — every node has a line;
* `LibForest.climb` — the walk, computed;
* `LibForest.Top`, `LibForest.rootFrom` — the root above a node, and the walk that looks for it;
* `LibForest.descend` — the walk down from a node to all that is below it;
* `LibForest.Climbs`, `LibForest.Descends` — the turns of the two walks.

Main results:

* `LibForest.Line.not_mem` — a node is not above itself;
* `LibForest.IsForest.link`, `LibForest.IsForest.cut` — **what keeps a forest**;
* `LibForest.climb_of_line`, `LibForest.Line.length_le` — the walk finds the line, in as many steps
  as there are nodes with a parent;
* `LibForest.mem_descend_iff` — **the walk down finds the tree of a root**;
* `LibForest.climbs_rootFrom`, `LibForest.descends_descend` — the walks end, also on cycles;
* `LibForest.Climbs.connected_iff` — **the component of a node.**
-/

import Mathlib.Data.List.Nodup
import Mathlib.Data.List.Perm.Subperm

namespace LibForest

open List

variable {α : Type} {f g : α → Option α}

/-- What is above a node, up to its root. -/
inductive Line (f : α → Option α) : α → List α → Prop
  | root {a : α} : f a = none → Line f a []
  | up {a p : α} {l : List α} : f a = some p → Line f p l → Line f a (p :: l)

/-- **A forest:** from every node the parents lead to a root in finitely many steps. -/
def IsForest (f : α → Option α) : Prop := ∀ a, ∃ l, Line f a l

variable {a : α} {l : List α}

theorem Line.unique {l' : List α} (h : Line f a l) (h' : Line f a l') : l = l' := by
  induction h generalizing l' with
  | root hroot =>
    cases h' with
    | root => rfl
    | up hup _ => cases hroot.symm.trans hup
  | up hup _ ih =>
    cases h' with
    | root hroot => cases hroot.symm.trans hup
    | up hup' hline =>
      cases hup.symm.trans hup'
      rw [ih hline]

variable {b : α}

theorem Line.above (h : Line f a l) (hb : b ∈ l) : ∃ l₁ l₂, l = l₁ ++ b :: l₂ ∧ Line f b l₂ := by
  induction h with
  | root => cases hb
  | @up a p l _ hline ih =>
    rcases mem_cons.1 hb with rfl | hb
    · exact ⟨[], l, rfl, hline⟩
    · obtain ⟨l₁, l₂, rfl, hline'⟩ := ih hb
      exact ⟨p :: l₁, l₂, rfl, hline'⟩

theorem Line.not_mem (h : Line f a l) : a ∉ l := by
  intro ha
  obtain ⟨l₁, l₂, hl, hline⟩ := h.above ha
  have hlength := congrArg List.length (h.unique hline)
  rw [hl, length_append, length_cons] at hlength
  omega

theorem Line.nodup (h : Line f a l) : (a :: l).Nodup := by
  induction h with
  | root => exact nodup_singleton _
  | up hup hline ih => exact nodup_cons.2 ⟨(Line.up hup hline).not_mem, ih⟩

theorem Line.congr (h : Line f a l) (hfg : ∀ b ∈ a :: l, g b = f b) : Line g a l := by
  induction h with
  | root hroot => exact Line.root ((hfg _ (.head _)).trans hroot)
  | up hup _ ih =>
    exact Line.up ((hfg _ (.head _)).trans hup) (ih fun b hb => hfg b (.tail _ hb))

/-- **A link to a node outside keeps a forest.** All links but the one of `a` are kept or cut, and
`a` is not above its new parent. -/
theorem IsForest.link [DecidableEq α] (h : IsForest f) {p : α} (hline : Line f p l)
    (ha : a ∉ p :: l) (hnew : g a = some p) (hg : ∀ b, b ≠ a → g b = f b) : IsForest g := by
  have hline' : Line g a (p :: l) := by
    refine Line.up hnew (hline.congr fun b hb => hg b ?_)
    rintro rfl
    exact ha hb
  have hup : ∀ (b : α) (l' : List α), Line f b l' → ∃ l'', Line g b l'' := by
    intro b l' hb
    induction hb with
    | @root b hroot =>
      by_cases hba : b = a
      · exact ⟨p :: l, hba ▸ hline'⟩
      · exact ⟨[], Line.root ((hg b hba).trans hroot)⟩
    | @up b q l' hbq _ ih =>
      by_cases hba : b = a
      · exact ⟨p :: l, hba ▸ hline'⟩
      · obtain ⟨l'', hq⟩ := ih
        exact ⟨q :: l'', Line.up ((hg b hba).trans hbq) hq⟩
  intro b
  obtain ⟨l', hb⟩ := h b
  exact hup b l' hb

/-- **Cutting links keeps a forest.** -/
theorem IsForest.cut (h : IsForest f) (hg : ∀ a, g a = f a ∨ g a = none) : IsForest g := by
  have hup : ∀ (a : α) (l : List α), Line f a l → ∃ l', Line g a l' := by
    intro a l ha
    induction ha with
    | @root a hroot => exact ⟨[], Line.root ((hg a).elim (fun heq => heq.trans hroot) id)⟩
    | @up a p l hap _ ih =>
      rcases hg a with heq | hnone
      · obtain ⟨l', hp⟩ := ih
        exact ⟨p :: l', Line.up (heq.trans hap) hp⟩
      · exact ⟨[], Line.root hnone⟩
  intro a
  obtain ⟨l, ha⟩ := h a
  exact hup a l ha

/-! ### The walk -/

/-- Goes up from a node's parent until there is none, or one that was seen. -/
def climb [DecidableEq α] (f : α → Option α) : ℕ → List α → Option α → List α
  | 0, _, _ => []
  | _ + 1, _, none => []
  | fuel + 1, seen, some a =>
    if a ∈ seen then [] else a :: climb f fuel (a :: seen) (f a)

/-- Whether the walk comes to a node that was seen. -/
def comesBack [DecidableEq α] (f : α → Option α) : ℕ → List α → Option α → Bool
  | 0, _, _ => true
  | _ + 1, _, none => false
  | fuel + 1, seen, some a => a ∈ seen || comesBack f fuel (a :: seen) (f a)

variable {seen : List α} {fuel : ℕ}

theorem climb_of_line [DecidableEq α] (h : Line f a l)
    (hfuel : l.length < fuel) (hseen : ∀ b ∈ l, b ∉ seen) : climb f fuel seen (f a) = l := by
  induction h generalizing seen fuel with
  | root hroot =>
    cases fuel with
    | zero => cases hfuel
    | succ n => rw [hroot]; rfl
  | @up a p l hap hline ih =>
    cases fuel with
    | zero => cases hfuel
    | succ n =>
      have hnext : climb f n (p :: seen) (f p) = l := by
        refine ih (Nat.lt_of_succ_lt_succ hfuel) fun b hb hmem => ?_
        rcases mem_cons.1 hmem with rfl | hmem
        · exact hline.not_mem hb
        · exact hseen b (.tail _ hb) hmem
      rw [hap, climb, if_neg (hseen p (.head _)), hnext]

/-- A walk that does not come back is at a root, and has met nothing that was seen. -/
theorem line_of_comesBack [DecidableEq α]
    (h : comesBack f fuel seen (some a) = false) : ∃ l, Line f a l ∧ ∀ b ∈ a :: l, b ∉ seen := by
  induction fuel generalizing a seen with
  | zero => cases h
  | succ n ih =>
    simp only [comesBack, Bool.or_eq_false_iff, decide_eq_false_iff_not] at h
    obtain ⟨ha, hrest⟩ := h
    cases hfa : f a with
    | none =>
      refine ⟨[], Line.root hfa, ?_⟩
      rintro b hb
      rwa [mem_singleton.1 hb]
    | some p =>
      rw [hfa] at hrest
      obtain ⟨l, hline, hnot⟩ := ih hrest
      refine ⟨p :: l, Line.up hfa hline, ?_⟩
      rintro b hb
      rcases mem_cons.1 hb with rfl | hb
      · exact ha
      · exact fun hmem => hnot b hb (.tail _ hmem)

/-- And where the parents lead to a root past nothing that was seen, the walk does not come back. -/
theorem comesBack_of_line [DecidableEq α] (h : Line f a l)
    (hfuel : l.length + 1 < fuel) (hseen : ∀ b ∈ a :: l, b ∉ seen) :
    comesBack f fuel seen (some a) = false := by
  induction h generalizing seen fuel with
  | @root a hroot =>
    obtain ⟨n, rfl⟩ : ∃ n, fuel = n + 2 := ⟨fuel - 2, by simp at hfuel; omega⟩
    simp [comesBack, hroot, hseen a (.head _)]
  | @up a p l hap hline ih =>
    cases fuel with
    | zero => cases hfuel
    | succ n =>
      have hnext : comesBack f n (a :: seen) (some p) = false := by
        refine ih (Nat.lt_of_succ_lt_succ hfuel) fun b hb hmem => ?_
        rcases mem_cons.1 hmem with rfl | hmem
        · exact (Line.up hap hline).not_mem hb
        · exact hseen b (.tail _ hb) hmem
      simp [comesBack, hap, hnext, hseen a (.head _)]

theorem Line.length_le {nodes : List α} (h : Line f a l)
    (hnodes : ∀ b, f b ≠ none → b ∈ nodes) : l.length ≤ nodes.length := by
  have hlast : ∀ b ∈ (a :: l).dropLast, f b ≠ none := by
    induction h with
    | root => simp
    | @up a p l hap _ ih =>
      intro b hb
      rw [dropLast_cons_of_ne_nil (cons_ne_nil _ _)] at hb
      rcases mem_cons.1 hb with rfl | hb
      · simp [hap]
      · exact ih b hb
  have hnodup : (a :: l).dropLast.Nodup := h.nodup.sublist (dropLast_sublist _)
  have hle := (hnodup.subperm fun b hb => hnodes b (hlast b hb)).length_le
  rwa [length_dropLast, length_cons, Nat.add_sub_cancel] at hle

/-! ### The tree of a root -/

/-- `b` is `a` or above it. -/
abbrev Above (f : α → Option α) : α → α → Prop :=
  Relation.ReflTransGen fun a p => f a = some p

/-- The root above a node. -/
inductive Top (f : α → Option α) : α → α → Prop
  | root {a : α} : f a = none → Top f a a
  | up {a p r : α} : f a = some p → Top f p r → Top f a r

variable {r : α}

theorem Top.unique {r' : α} (h : Top f a r) (h' : Top f a r') : r = r' := by
  induction h with
  | root hroot =>
    cases h' with
    | root => rfl
    | up hup _ => cases hroot.symm.trans hup
  | up hup _ ih =>
    cases h' with
    | root hroot => cases hroot.symm.trans hup
    | up hup' htop =>
      cases hup.symm.trans hup'
      exact ih htop

theorem top_is_root (h : Top f a r) : f r = none := by
  induction h with
  | root hroot => exact hroot
  | up _ _ ih => exact ih

/-- Goes up from a node until there is no parent, or to what was seen. -/
def rootFrom [DecidableEq α] (f : α → Option α) : ℕ → List α → α → α
  | 0, _, a => a
  | fuel + 1, guard, a =>
    if a ∈ guard then a
    else match f a with
      | none => a
      | some p => rootFrom f fuel (a :: guard) p

variable {guard : List α}

theorem top_rootFrom [DecidableEq α] (h : Line f a l)
    (hfuel : l.length < fuel) (hguard : ∀ b ∈ a :: l, b ∉ guard) :
    Top f a (rootFrom f fuel guard a) := by
  induction h generalizing guard fuel with
  | @root a hroot =>
    obtain ⟨n, rfl⟩ : ∃ n, fuel = n + 1 := ⟨fuel - 1, by omega⟩
    rw [rootFrom, if_neg (hguard a (.head _)), hroot]
    exact Top.root hroot
  | @up a p l hap hline ih =>
    obtain ⟨n, rfl⟩ : ∃ n, fuel = n + 1 := ⟨fuel - 1, by omega⟩
    rw [rootFrom, if_neg (hguard a (.head _)), hap]
    refine Top.up hap (ih (Nat.lt_of_succ_lt_succ hfuel) fun b hb hmem => ?_)
    rcases mem_cons.1 hmem with rfl | hmem
    · exact (Line.up hap hline).not_mem hb
    · exact hguard b (.tail _ hb) hmem

/-- The nodes with a parent, among nodes given with theirs. -/
def children [DecidableEq α] (entries : List (α × Option α)) (a : α) : List α :=
  (entries.filter fun entry => entry.2 = some a).map Prod.fst

variable {entries : List (α × Option α)}

theorem mem_children [DecidableEq α] : b ∈ children entries a ↔ (b, some a) ∈ entries := by
  simp [children]

/-- Takes nodes from a stack, and puts their children on it. -/
def descend [DecidableEq α] (entries : List (α × Option α)) : ℕ → List α → List α → List α
  | 0, _, ids => ids
  | _ + 1, [], ids => ids
  | fuel + 1, a :: stack, ids =>
    if a ∈ ids then descend entries fuel stack ids
    else descend entries fuel ((children entries a).reverse ++ stack) (ids ++ [a])

/-- How many links lead to nodes that were not found yet. -/
def unfollowed [DecidableEq α] (entries : List (α × Option α)) (ids : List α) : ℕ :=
  entries.countP fun entry => entry.2.any fun p => p ∉ ids

theorem unfollowed_append [DecidableEq α] {ids : List α} (ha : a ∉ ids) :
    unfollowed entries ids = (children entries a).length + unfollowed entries (ids ++ [a]) := by
  unfold unfollowed children
  rw [length_map, ← countP_eq_length_filter]
  induction entries with
  | nil => rfl
  | cons entry rest ih =>
    obtain ⟨b, p⟩ := entry
    rw [countP_cons, countP_cons, countP_cons, ih]
    cases p with
    | none => simp
    | some p =>
      by_cases hpa : p = a
      · subst hpa
        simp [ha]
        omega
      · by_cases hp : p ∈ ids
        · simp [hpa, hp]
        · simp [hpa, hp]
          omega

/-- The turns of the loop, and what it has found at its end. -/
inductive Descends [DecidableEq α] (entries : List (α × Option α)) :
    List α → List α → List α → Prop
  | done {ids : List α} : Descends entries [] ids ids
  | seen {a : α} {stack ids out : List α} : a ∈ ids → Descends entries stack ids out →
      Descends entries (a :: stack) ids out
  | push {a : α} {stack ids out : List α} : a ∉ ids →
      Descends entries ((children entries a).reverse ++ stack) (ids ++ [a]) out →
      Descends entries (a :: stack) ids out

/-- **The walk down ends.** -/
theorem descends_descend [DecidableEq α]
    {stack ids : List α} (hfuel : stack.length + unfollowed entries ids ≤ fuel) :
    Descends entries stack ids (descend entries fuel stack ids) := by
  induction fuel generalizing stack ids with
  | zero =>
    obtain rfl : stack = [] := eq_nil_of_length_eq_zero (by omega)
    exact Descends.done
  | succ n ih =>
    cases stack with
    | nil => exact Descends.done
    | cons a stack =>
      rw [length_cons] at hfuel
      rw [descend]
      split
      · rename_i ha
        exact Descends.seen ha (ih (by omega))
      · rename_i ha
        have hcount : unfollowed entries ids = _ := unfollowed_append ha
        refine Descends.push ha (ih ?_)
        rw [length_append, length_reverse]
        omega

theorem descends_root [DecidableEq α] (hfuel : entries.length + 1 ≤ fuel) :
    Descends entries [r] [] (descend entries fuel [r] []) := by
  have hle : unfollowed entries [] ≤ entries.length := countP_le_length
  refine descends_descend ?_
  rw [length_singleton]
  omega

section

variable [DecidableEq α] {entries : List (α × Option α)} {stack ids out : List α}

/-- What holds of the stack and of the children of all of which it holds, holds of what is found. -/
theorem Descends.forall (h : Descends entries stack ids out) {P : α → Prop}
    (hchild : ∀ a b, P a → (b, some a) ∈ entries → P b) (hstack : ∀ a ∈ stack, P a)
    (hids : ∀ a ∈ ids, P a) : ∀ a ∈ out, P a := by
  induction h with
  | done => exact hids
  | seen _ _ ih => exact ih (fun b hb => hstack b (.tail _ hb)) hids
  | @push a stack ids _ _ _ ih =>
    have ha := hstack a (.head _)
    refine ih (fun b hb => ?_) fun b hb => ?_
    · rcases mem_append.1 hb with hb | hb
      · exact hchild a b ha (mem_children.1 (mem_reverse.1 hb))
      · exact hstack b (.tail _ hb)
    · rcases mem_append.1 hb with hb | hb
      · exact hids b hb
      · exact mem_singleton.1 hb ▸ ha

theorem Descends.nodup (h : Descends entries stack ids out) (hids : ids.Nodup) : out.Nodup := by
  induction h with
  | done => exact hids
  | seen _ _ ih => exact ih hids
  | push ha _ ih => exact ih (by simpa using hids.concat ha)

/-- What is found or on the stack is found, with the children of all that is found. -/
theorem Descends.closed (h : Descends entries stack ids out)
    (hids : ∀ a ∈ ids, ∀ b, (b, some a) ∈ entries → b ∈ ids ∨ b ∈ stack) :
    (∀ a, a ∈ ids ∨ a ∈ stack → a ∈ out) ∧ ∀ a ∈ out, ∀ b, (b, some a) ∈ entries → b ∈ out := by
  induction h with
  | done => simpa using hids
  | @seen a stack ids _ ha _ ih =>
    have hold : ∀ b, b ∈ ids ∨ b ∈ a :: stack → b ∈ ids ∨ b ∈ stack := by
      rintro b (hb | hb)
      · exact .inl hb
      · rcases mem_cons.1 hb with rfl | hb
        · exact .inl ha
        · exact .inr hb
    obtain ⟨hin, hclosed⟩ := ih fun c hc b hb => hold b (hids c hc b hb)
    exact ⟨fun b hb => hin b (hold b hb), hclosed⟩
  | @push a stack ids _ _ _ ih =>
    have hold : ∀ b, b ∈ ids ∨ b ∈ a :: stack →
        b ∈ ids ++ [a] ∨ b ∈ (children entries a).reverse ++ stack := by
      intro b hb
      simp only [mem_append, mem_cons] at hb ⊢
      tauto
    obtain ⟨hin, hclosed⟩ := ih fun c hc b hb => by
      rcases mem_append.1 hc with hc | hc
      · exact hold b (hids c hc b hb)
      · obtain rfl := mem_singleton.1 hc
        exact .inr (mem_append_left _ (mem_reverse.2 (mem_children.2 hb)))
    exact ⟨fun b hb => hin b (hold b hb), hclosed⟩

/-- **The walk down finds what leads to where it begins**, when the links are those of `f` and
links from a node to itself. -/
theorem Descends.mem_iff {r a : α} (h : Descends entries [r] [] out)
    (hf : ∀ a p, f a = some p → (a, some p) ∈ entries)
    (hentries : ∀ a p, (a, some p) ∈ entries → f a = some p ∨ a = p) :
    a ∈ out ↔ Above f a r := by
  obtain ⟨hin, hclosed⟩ := h.closed (by simp)
  refine ⟨?_, fun ha => ?_⟩
  · refine h.forall (P := fun a => Above f a r) (fun p b hp hb => ?_) ?_ (by simp) a
    · rcases hentries b p hb with hb | rfl
      · exact .head hb hp
      · exact hp
    · intro b hb
      obtain rfl := mem_singleton.1 hb
      exact .refl
  · induction ha using Relation.ReflTransGen.head_induction_on with
    | refl => exact hin _ (.inr (.head _))
    | head hstep _ ih => exact hclosed _ ih _ (hf _ _ hstep)

end

/-- **The walk down finds the tree of a root:** what has that root above it. -/
theorem mem_descend_iff [DecidableEq α]
    (hf : ∀ a p, f a = some p ↔ (a, some p) ∈ entries) (hroot : f r = none)
    (hfuel : entries.length + 1 ≤ fuel) :
    a ∈ descend entries fuel [r] [] ↔ Top f a r := by
  rw [(descends_root hfuel).mem_iff (fun a p => (hf a p).1) fun a p h => .inl ((hf a p).2 h)]
  refine ⟨fun ha => ?_, fun htop => ?_⟩
  · induction ha using Relation.ReflTransGen.head_induction_on with
    | refl => exact Top.root hroot
    | head hstep _ ih => exact Top.up hstep ih
  · induction htop with
    | root => exact .refl
    | up hup _ ih => exact .head hup (ih hroot)

/-! ### Any parent function -/

/-- The turns of the loop of `rootFrom`, and where it ends. -/
inductive Climbs (f : α → Option α) : List α → α → α → Prop
  | seen {guard : List α} {a : α} : a ∈ guard → Climbs f guard a a
  | root {guard : List α} {a : α} : a ∉ guard → f a = none → Climbs f guard a a
  | up {guard : List α} {a p r : α} : a ∉ guard → f a = some p → Climbs f (a :: guard) p r →
      Climbs f guard a r

/-- **The walk up ends**, after as many turns as there are nodes with a parent. -/
theorem climbs_rootFrom [DecidableEq α] {nodes : List α}
    (hnodes : ∀ b, f b ≠ none → b ∈ nodes) (hguard : guard.Nodup) (hsub : guard ⊆ nodes)
    (hfuel : nodes.length < fuel + guard.length) : Climbs f guard a (rootFrom f fuel guard a) := by
  induction fuel generalizing guard a with
  | zero =>
    have hle := (hguard.subperm hsub).length_le
    omega
  | succ n ih =>
    rw [rootFrom]
    split
    · rename_i ha
      exact Climbs.seen ha
    · rename_i ha
      cases hfa : f a with
      | none => exact Climbs.root ha hfa
      | some p =>
        refine Climbs.up ha hfa (ih (nodup_cons.2 ⟨ha, hguard⟩)
          (cons_subset.2 ⟨hnodes a (by simp [hfa]), hsub⟩) ?_)
        rw [length_cons]
        omega

/-- **It ends above the node, and what is above its end leads back there:** that is a root or on a
cycle. -/
theorem Climbs.above (h : Climbs f guard a r)
    (hguard : ∀ g ∈ guard, ∃ p, f g = some p ∧ Above f p a) :
    Above f a r ∧ ∀ p, f r = some p → Above f p r := by
  induction h with
  | @seen guard a ha =>
    obtain ⟨p, hp, hback⟩ := hguard a ha
    refine ⟨.refl, fun q hq => ?_⟩
    rwa [← Option.some.inj (hp.symm.trans hq)]
  | root _ hroot => exact ⟨.refl, fun p hp => by cases hroot.symm.trans hp⟩
  | @up guard a p r _ hup _ ih =>
    obtain ⟨habove, hback⟩ := ih fun g hg => by
      rcases mem_cons.1 hg with rfl | hg
      · exact ⟨p, hup, .refl⟩
      · obtain ⟨q, hq, hqa⟩ := hguard g hg
        exact ⟨q, hq, hqa.tail hup⟩
    exact ⟨.head hup habove, hback⟩

/-- **A component is what leads to the end of the walk up from any of its nodes.** -/
theorem Climbs.connected_iff {R : α → α → Prop} (h : Climbs f [] a r)
    (hf : ∀ a p, f a = some p → R a p) (hR : ∀ a p, R a p → f a = some p ∨ a = p) :
    Relation.EqvGen R a b ↔ Above f b r := by
  obtain ⟨habove, hback⟩ := h.above (by simp)
  have hconnect : ∀ x, Above f x r → Relation.EqvGen R x r := by
    intro x hx
    induction hx using Relation.ReflTransGen.head_induction_on with
    | refl => exact .refl _
    | head hstep _ ih => exact .trans _ _ _ (.rel _ _ (hf _ _ hstep)) ih
  have hsame : ∀ x y, Relation.EqvGen R x y → (Above f x r ↔ Above f y r) := by
    intro x y hxy
    induction hxy with
    | rel x y hxy =>
      rcases hR x y hxy with hxy | rfl
      · refine ⟨fun hx => ?_, .head hxy⟩
        rcases hx.cases_head with rfl | ⟨p, hp, hpr⟩
        · exact hback y hxy
        · rwa [← Option.some.inj (hp.symm.trans hxy)]
      · rfl
    | refl => rfl
    | symm _ _ _ ih => exact ih.symm
    | trans _ _ _ _ _ ih ih' => exact ih.trans ih'
  exact ⟨fun hab => (hsame a b hab).1 habove, fun hb =>
    .trans _ _ _ (hconnect a habove) (.symm _ _ (hconnect b hb))⟩

end LibForest
