/-
**Paths as lists of segments.**

A separator cuts a path into segments.  A path lies below another one when its segments begin with
those of the other, which is the case exactly when its text begins with the text of the other and a
separator.  A separator at the end of a path adds no component to it.  An absolute path is
normalized by its segments alone: empty ones and single dots are dropped, and two dots take back the
segment before them.

Main definitions:

* `LibSegments.split` — the segments of a path; `List.intercalate` puts them together;
* `LibSegments.components` — the segments without the empty one behind a separator at the end;
* `LibSegments.Proper`, `LibSegments.resolveDots` — segments without dots;
* `LibSegments.normalize` — the lexical normalization of an absolute path.

Main results:

* `LibSegments.split_prefix_iff` — **when the segments of a path begin with those of another**;
* `LibSegments.components_prefix_iff` — the same for components, decided by the texts;
* `LibSegments.normalize_normalize` — normalization is idempotent.
-/

import Mathlib.Data.List.Infix

namespace LibSegments

open List

variable {α : Type} [DecidableEq α] (sep : α)

/-! ### Segments -/

def split : List α → List (List α)
  | [] => [[]]
  | a :: l =>
    if a = sep then [] :: split l
    else
      match split l with
      | [] => [[a]]
      | segment :: rest => (a :: segment) :: rest

/-- The text of segments. -/
def join (segments : List (List α)) : List α := [sep].intercalate segments

variable {sep}

theorem split_ne_nil (l : List α) : split sep l ≠ [] := by
  cases l with
  | nil => exact cons_ne_nil _ _
  | cons a l =>
    unfold split
    split
    · exact cons_ne_nil _ _
    · split <;> exact cons_ne_nil _ _

theorem split_cons_sep (l : List α) : split sep (sep :: l) = [] :: split sep l := if_pos rfl

theorem split_cons {a : α} (ha : a ≠ sep) (l : List α) :
    ∃ segment rest, split sep l = segment :: rest ∧
      split sep (a :: l) = (a :: segment) :: rest := by
  obtain ⟨segment, rest, hl⟩ := exists_cons_of_ne_nil (@split_ne_nil _ _ sep l)
  refine ⟨segment, rest, hl, ?_⟩
  rw [split, if_neg ha, hl]

variable {segments : List (List α)}

theorem join_cons (h : segments ≠ []) (segment : List α) :
    join sep (segment :: segments) = segment ++ sep :: join sep segments := by
  obtain ⟨next, rest, rfl⟩ := exists_cons_of_ne_nil h
  unfold join
  rw [intercalate_cons_cons, append_assoc]
  rfl

theorem join_append {front back : List (List α)} (hfront : front ≠ []) (hback : back ≠ []) :
    join sep (front ++ back) = join sep front ++ sep :: join sep back := by
  induction front with
  | nil => exact absurd rfl hfront
  | cons segment front ih =>
    rw [cons_append, join_cons (by simp [hback])]
    cases front with
    | nil => simp [join]
    | cons next rest =>
      rw [ih (cons_ne_nil _ _), join_cons (cons_ne_nil _ _)]
      simp

theorem join_split (l : List α) : join sep (split sep l) = l := by
  induction l with
  | nil => rfl
  | cons a l ih =>
    by_cases ha : a = sep
    · rw [ha, split_cons_sep, join_cons (split_ne_nil l), ih]
      rfl
    · obtain ⟨segment, rest, hl, hal⟩ := split_cons ha l
      rw [hal]
      rw [hl] at ih
      cases rest with
      | nil =>
        simp only [join, intercalate_singleton] at ih ⊢
        rw [ih]
      | cons next rest =>
        rw [join_cons (cons_ne_nil _ _)] at ih ⊢
        rw [cons_append, ih]

variable {l : List α}

theorem split_injective {m : List α} (h : split sep l = split sep m) : l = m := by
  rw [← @join_split _ _ sep l, h, join_split]

theorem split_append (l m : List α) : split sep (l ++ sep :: m) = split sep l ++ split sep m := by
  induction l with
  | nil => exact split_cons_sep m
  | cons a l ih =>
    by_cases ha : a = sep
    · rw [ha, cons_append, split_cons_sep, ih, split_cons_sep, cons_append]
    · obtain ⟨segment, rest, hl, hal⟩ := split_cons ha l
      rw [cons_append, split, if_neg ha, ih, hl, hal]
      rfl

/-- **When the segments of a path begin with those of another one.** -/
theorem split_prefix_iff {m : List α} : split sep l <+: split sep m ↔ m = l ∨ l ++ [sep] <+: m := by
  constructor
  · rintro ⟨rest, hrest⟩
    cases rest with
    | nil =>
      rw [append_nil] at hrest
      exact Or.inl (split_injective hrest.symm)
    | cons next rest =>
      refine Or.inr ⟨join sep (next :: rest), ?_⟩
      rw [append_assoc, ← @join_split _ _ sep m, ← hrest,
        join_append (split_ne_nil l) (cons_ne_nil _ _), join_split]
      rfl
  · rintro (rfl | ⟨rest, rfl⟩)
    · exact prefix_rfl
    · rw [append_assoc]
      exact (split_append l rest).symm ▸ prefix_append _ _

/-! ### Components -/

variable (sep)

/-- The path without a separator at its end. -/
def dropTrailing (l : List α) : List α := if l.getLast? = some sep then l.dropLast else l

/-- The components of a path: a separator at its end adds none. -/
def components (l : List α) : List (List α) := split sep (dropTrailing sep l)

variable {sep}

theorem eq_dropTrailing (l : List α) :
    (l = dropTrailing sep l ∧ l.getLast? ≠ some sep) ∨ l = dropTrailing sep l ++ [sep] := by
  unfold dropTrailing
  split
  · rename_i h
    exact Or.inr (dropLast_append_getLast? sep h).symm
  · exact Or.inl ⟨rfl, by assumption⟩

/-- **When a path is another one or lies below it**, decided by their texts: its text begins with
that of the other and a separator, or is the same. Only a path which is the other one without the
separator at its end is missed. -/
theorem components_prefix_iff (l m : List α) :
    (m = l ∨ dropTrailing sep l ++ [sep] <+: m) ↔
      components sep l <+: components sep m ∧ l ≠ m ++ [sep] := by
  unfold components
  rw [split_prefix_iff]
  have hl := @eq_dropTrailing _ _ sep l
  have hm := @eq_dropTrailing _ _ sep m
  generalize dropTrailing sep l = s at hl ⊢
  generalize dropTrailing sep m = t at hm ⊢
  have hconcat : ∀ path : List α, (path ++ [sep]).getLast? = some sep := fun path =>
    getLast?_concat
  have hlength : s ++ [sep] <+: t → s.length < t.length := fun h => by
    have hle := h.length_le
    rw [length_append, length_singleton] at hle
    omega
  rcases hm with ⟨rfl, hlast⟩ | rfl
  · -- the path has no separator at its end
    rcases hl with ⟨rfl, hlast'⟩ | rfl
    · have hne : l ≠ m ++ [sep] := fun heq => hlast' (heq ▸ hconcat m)
      exact (and_iff_left hne).symm
    · have hne : m ≠ s ++ [sep] := fun heq => hlast (heq ▸ hconcat s)
      rw [or_iff_right hne]
      constructor
      · intro h
        refine ⟨Or.inr h, fun heq => ?_⟩
        have := hlength h
        rw [append_cancel_right heq] at this
        exact lt_irrefl _ this
      · rintro ⟨rfl | h, hne'⟩
        · exact absurd rfl hne'
        · exact h
  · have hbelow : s ++ [sep] <+: t ++ [sep] ↔ t = s ∨ s ++ [sep] <+: t := by
      rw [prefix_concat_iff, append_left_inj]
      exact or_congr_left eq_comm
    have hlong : t = s ∨ s ++ [sep] <+: t → l ≠ t ++ [sep] ++ [sep] := by
      intro h heq
      have hle : s.length ≤ t.length := by
        rcases h with rfl | h
        · exact le_rfl
        · exact (hlength h).le
      rcases hl with ⟨rfl, -⟩ | rfl
      · simp only [heq, length_append, length_singleton] at hle
        omega
      · have := append_cancel_right heq
        rw [this, length_append, length_singleton] at hle
        omega
    rw [hbelow]
    constructor
    · rintro (heq | h)
      · rcases hl with ⟨rfl, hlast'⟩ | rfl
        · exact absurd (heq ▸ hconcat t) hlast'
        · have hts := Or.inl (b := s ++ [sep] <+: t) (append_cancel_right heq)
          exact ⟨hts, hlong hts⟩
      · exact ⟨h, hlong h⟩
    · exact fun h => Or.inr h.1

/-! ### Dots -/

variable (sep) (dot : α)

/-- A name of a file or directory: not empty, no dots, no separator. -/
structure Proper (segment : List α) : Prop where
  nonempty : segment ≠ []
  not_dot : segment ≠ [dot]
  not_dots : segment ≠ [dot, dot]
  no_sep : sep ∉ segment

instance Proper.decidable (segment : List α) : Decidable (Proper sep dot segment) :=
  decidable_of_iff (segment ≠ [] ∧ segment ≠ [dot] ∧ segment ≠ [dot, dot] ∧ sep ∉ segment)
    ⟨fun ⟨hne, hdot, hdots, hsep⟩ => ⟨hne, hdot, hdots, hsep⟩,
      fun ⟨hne, hdot, hdots, hsep⟩ => ⟨hne, hdot, hdots, hsep⟩⟩

/-- One more segment; the last one stands first. -/
def pushSegment (stack : List (List α)) (segment : List α) : List (List α) :=
  if segment = [] ∨ segment = [dot] then stack
  else if segment = [dot, dot] then stack.tail
  else segment :: stack

/-- The segments with all dots carried out. -/
def resolveDots (segments : List (List α)) : List (List α) :=
  (segments.foldl (pushSegment dot) []).reverse

/-- The lexical normalization of an absolute path; a separator at its end stays. -/
def normalize (l : List α) : List α :=
  let segments := resolveDots dot (split sep l.tail)
  if segments = [] then [sep]
  else sep :: join sep segments ++ if l.getLast? = some sep then [sep] else []

variable {sep dot}

theorem pushSegment_proper {stack : List (List α)} {segment : List α}
    (hstack : ∀ s ∈ stack, Proper sep dot s) (hsegment : sep ∉ segment) :
    ∀ s ∈ pushSegment dot stack segment, Proper sep dot s := by
  unfold pushSegment
  split
  · exact hstack
  · rename_i hdot
    obtain ⟨hne, hdot⟩ := not_or.1 hdot
    split
    · exact fun s hs => hstack s (mem_of_mem_tail hs)
    · rename_i hdots
      exact forall_mem_cons.2 ⟨⟨hne, hdot, hdots, hsegment⟩, hstack⟩

theorem resolveDots_proper (h : ∀ s ∈ segments, sep ∉ s) :
    ∀ s ∈ resolveDots dot segments, Proper sep dot s := by
  have hfold : ∀ (segments stack : List (List α)), (∀ s ∈ segments, sep ∉ s) →
      (∀ s ∈ stack, Proper sep dot s) →
        ∀ s ∈ segments.foldl (pushSegment dot) stack, Proper sep dot s := by
    intro segments
    induction segments with
    | nil => exact fun stack _ hstack => hstack
    | cons segment segments ih =>
      intro stack hall hstack
      obtain ⟨hsegment, hall⟩ := forall_mem_cons.1 hall
      exact ih _ hall (pushSegment_proper hstack hsegment)
  intro s hs
  exact hfold segments [] h (fun _ hnil => absurd hnil not_mem_nil) s (mem_reverse.1 hs)

theorem resolveDots_of_proper (h : ∀ s ∈ segments, Proper sep dot s) :
    resolveDots dot segments = segments := by
  have hfold : ∀ (segments stack : List (List α)), (∀ s ∈ segments, Proper sep dot s) →
      segments.foldl (pushSegment dot) stack = segments.reverse ++ stack := by
    intro segments
    induction segments with
    | nil => exact fun stack _ => rfl
    | cons segment segments ih =>
      intro stack hall
      obtain ⟨hsegment, hall⟩ := forall_mem_cons.1 hall
      have hpush : pushSegment dot stack segment = segment :: stack := by
        unfold pushSegment
        rw [if_neg (not_or.2 ⟨hsegment.nonempty, hsegment.not_dot⟩), if_neg hsegment.not_dots]
      rw [foldl_cons, hpush, ih _ hall, reverse_cons, append_assoc]
      rfl
  unfold resolveDots
  rw [hfold segments [] h, append_nil, reverse_reverse]

theorem resolveDots_concat_nil (segments : List (List α)) :
    resolveDots dot (segments ++ [[]]) = resolveDots dot segments := by
  unfold resolveDots
  rw [foldl_append]
  rfl

theorem sep_not_mem_split (l : List α) : ∀ s ∈ split sep l, sep ∉ s := by
  induction l with
  | nil => exact forall_mem_singleton.2 not_mem_nil
  | cons a l ih =>
    by_cases ha : a = sep
    · rw [ha, split_cons_sep]
      exact forall_mem_cons.2 ⟨not_mem_nil, ih⟩
    · obtain ⟨segment, rest, hl, hal⟩ := split_cons ha l
      rw [hl] at ih
      obtain ⟨hsegment, hrest⟩ := forall_mem_cons.1 ih
      rw [hal]
      refine forall_mem_cons.2 ⟨fun hmem => ?_, hrest⟩
      rcases mem_cons.1 hmem with heq | hmem
      · exact ha heq.symm
      · exact hsegment hmem

theorem split_of_not_mem (h : sep ∉ l) : split sep l = [l] := by
  induction l with
  | nil => rfl
  | cons a l ih =>
    have ha : a ≠ sep := fun heq => h (heq ▸ (.head _))
    rw [split, if_neg ha, ih fun hmem => h (.tail _ hmem)]

theorem split_join (hne : segments ≠ [])
    (h : ∀ s ∈ segments, sep ∉ s) : split sep (join sep segments) = segments := by
  induction segments with
  | nil => exact absurd rfl hne
  | cons segment segments ih =>
    obtain ⟨hsegment, hrest⟩ := forall_mem_cons.1 h
    cases segments with
    | nil =>
      unfold join
      rw [intercalate_singleton]
      exact split_of_not_mem hsegment
    | cons next rest =>
      rw [join_cons (cons_ne_nil _ _), split_append, split_of_not_mem hsegment,
        ih (cons_ne_nil _ _) hrest]
      rfl

theorem getLast?_join (hne : segments ≠ []) (h : ∀ s ∈ segments, Proper sep dot s) :
    (sep :: join sep segments).getLast? ≠ some sep := by
  obtain ⟨front, last, rfl⟩ := eq_nil_or_concat' segments |>.resolve_left hne
  have hlast := h last (mem_append_right _ (mem_singleton_self _))
  obtain ⟨a, ha⟩ : ∃ a, last.getLast? = some a := ⟨_, getLast?_eq_some_getLast hlast.nonempty⟩
  have hend : ∃ text, sep :: join sep (front ++ [last]) = text ++ last := by
    cases front with
    | nil =>
      refine ⟨[sep], ?_⟩
      unfold join
      rw [nil_append, intercalate_singleton]
      rfl
    | cons first rest =>
      refine ⟨sep :: join sep (first :: rest) ++ [sep], ?_⟩
      rw [join_append (cons_ne_nil _ _) (cons_ne_nil _ _), append_assoc]
      unfold join
      rw [intercalate_singleton]
      rfl
  obtain ⟨text, htext⟩ := hend
  rw [htext, getLast?_append, ha]
  rintro heq
  cases heq
  exact hlast.no_sep (mem_of_getLast? ha)

theorem normalize_cases (l : List α) :
    ∃ segments, (∀ s ∈ segments, Proper sep dot s) ∧
      ((segments = [] ∧ normalize sep dot l = [sep]) ∨
        (segments ≠ [] ∧ (normalize sep dot l = sep :: join sep segments ∨
          normalize sep dot l = sep :: join sep segments ++ [sep]))) := by
  refine ⟨resolveDots dot (split sep l.tail), resolveDots_proper (sep_not_mem_split _), ?_⟩
  unfold normalize
  by_cases hnil : resolveDots dot (split sep l.tail) = []
  · exact Or.inl ⟨hnil, if_pos hnil⟩
  · refine Or.inr ⟨hnil, ?_⟩
    rw [if_neg hnil]
    split
    · exact Or.inr rfl
    · exact Or.inl (append_nil _)

theorem head?_normalize (l : List α) : (normalize sep dot l).head? = some sep := by
  unfold normalize
  dsimp only
  split <;> rfl

/-- **Normalization is idempotent.** -/
theorem normalize_normalize (l : List α) :
    normalize sep dot (normalize sep dot l) = normalize sep dot l := by
  obtain ⟨segments, hproper, ⟨-, heq⟩ | ⟨hne, heq | heq⟩⟩ := @normalize_cases _ _ sep dot l
  · rw [heq]
    rfl
  · have hself := split_join hne fun s hs => (hproper s hs).no_sep
    rw [heq]
    unfold normalize
    dsimp only [tail_cons]
    rw [hself, resolveDots_of_proper hproper, if_neg hne, if_neg (getLast?_join hne hproper),
      append_nil]
  · have hself := split_join hne fun s hs => (hproper s hs).no_sep
    rw [heq]
    unfold normalize
    rw [getLast?_concat, cons_append, tail_cons, split_append, hself]
    have hresolve : resolveDots dot (segments ++ split sep []) = segments :=
      (resolveDots_concat_nil segments).trans (resolveDots_of_proper hproper)
    rw [hresolve, if_neg hne, if_pos rfl]
    rfl

theorem normalize_no_dots (l : List α) :
    ∀ s ∈ split sep (normalize sep dot l), s ≠ [dot] ∧ s ≠ [dot, dot] := by
  obtain ⟨segments, hproper, ⟨-, heq⟩ | ⟨hne, heq⟩⟩ := @normalize_cases _ _ sep dot l
  · rw [heq, split_cons_sep]
    intro s hs
    have hs : s = [] := by simpa [split] using hs
    rw [hs]
    exact ⟨(cons_ne_nil _ _).symm, (cons_ne_nil _ _).symm⟩
  · have hself := split_join hne fun s hs => (hproper s hs).no_sep
    have hsplit : ∀ s ∈ split sep (normalize sep dot l), s = [] ∨ s ∈ segments := by
      intro s hs
      rcases heq with heq | heq
      · rw [heq, split_cons_sep, hself] at hs
        exact mem_cons.1 hs
      · rw [heq, cons_append, split_cons_sep, split_append, hself] at hs
        simp only [split, mem_cons, mem_append, not_mem_nil, or_false] at hs
        rcases hs with hs | hs | hs
        · exact Or.inl hs
        · exact Or.inr hs
        · exact Or.inl hs
    intro s hs
    rcases hsplit s hs with rfl | hmem
    · exact ⟨(cons_ne_nil _ _).symm, (cons_ne_nil _ _).symm⟩
    · exact ⟨(hproper s hmem).not_dot, (hproper s hmem).not_dots⟩

end LibSegments
