/-
**Paging through a list that grows in front.**

A reader asks for a list page by page, newest items first, and goes on behind the last item it got.
In the meantime items may come in front.  The cursor is the key of an item, not its place, so what
comes in front shifts nothing: as long as the keys that were there at the first page stay where they
are, seen from the end, the reader gets each of them once.

Main definitions:

* `LibPages.behind` — what is behind a cursor;
* `LibPages.Request`, `LibPages.Request.GoesOn` — a request, and the one after it.

Main results:

* `LibPages.behind_some` — what is behind a key;
* `LibPages.map_pages` — **the pages have the keys of the first list**;
* `LibPages.length_rest_le` — there are at most as many pages.
-/

import Mathlib.Data.List.Chain
import Mathlib.Data.List.Infix

namespace LibPages

open List

variable {α κ : Type} [DecidableEq κ] (key : α → κ)

/-- The items behind the one that the cursor names; all of them if it names none. -/
def behind (cursor : Option κ) (items : List α) : List α :=
  match cursor with
  | none => items
  | some k =>
    match items.findIdx? fun a => key a = k with
    | none => items
    | some i => items.drop (i + 1)

/-- A request for a page of a list. -/
structure Request (α κ : Type) where
  items : List α
  cursor : Option κ
  size : ℕ

namespace Request

/-- What the page is cut from. -/
def rest (r : Request α κ) : List α := behind key r.cursor r.items

def page (r : Request α κ) : List α := (r.rest key).take r.size

def more (r : Request α κ) : Bool := decide (r.size < (r.rest key).length)

/-- There is more, and the next request goes on behind the last item. -/
def GoesOn (r r' : Request α κ) : Prop :=
  r.more key = true ∧ ∃ a, (r.page key).getLast? = some a ∧ r'.cursor = some (key a)

end Request

variable {key}

theorem behind_none (items : List α) : behind key none items = items := rfl

theorem behind_some {front back : List α} {a : α} (hfront : key a ∉ front.map key) :
    behind key (some (key a)) (front ++ a :: back) = back := by
  have hnone : front.findIdx? (fun b => key b = key a) = none := by
    rw [findIdx?_eq_none_iff]
    intro b hb
    refine decide_eq_false fun heq => hfront ?_
    rw [← heq]
    exact mem_map_of_mem hb
  have hfind : (front ++ a :: back).findIdx? (fun b => key b = key a) = some front.length := by
    rw [findIdx?_append, hnone, findIdx?_cons]
    simp
  rw [behind, hfind]
  dsimp only
  rw [← singleton_append, ← append_assoc, drop_left' (by simp)]

theorem map_behind {items : List α} {front back : List κ} {k : κ}
    (h : items.map key = front ++ k :: back) (hfront : k ∉ front) :
    (behind key (some k) items).map key = back := by
  obtain ⟨before, after, rfl, rfl, hafter⟩ := map_eq_append_iff.1 h
  obtain ⟨a, after, rfl, rfl, rfl⟩ := map_eq_cons_iff.1 hafter
  rw [behind_some hfront]

variable {r : Request α κ} {todo : List κ}

theorem map_rest_of_goesOn {q : Request α κ}
    (htodo : (r.rest key).map key = todo) (hnodup : (q.items.map key).Nodup)
    (hgrow : todo <:+ q.items.map key) (h : r.GoesOn key q) :
    (q.rest key).map key = todo.drop r.size := by
  obtain ⟨-, a, ha, hcursor⟩ := h
  -- the page ends with the cursor of the next request
  obtain ⟨init, hinit⟩ := getLast?_eq_some_iff.1 ha
  have hcut : todo = (init.map key ++ [key a]) ++ todo.drop r.size := by
    have heq : todo.take r.size = init.map key ++ [key a] := by
      rw [← htodo, ← map_take]
      exact (congrArg (List.map key) hinit).trans (map_append ..)
    rw [← heq, take_append_drop]
  obtain ⟨front, hfront⟩ := hgrow
  have hkeys : q.items.map key = (front ++ init.map key) ++ key a :: todo.drop r.size := by
    rw [← hfront]
    conv_lhs => rw [hcut]
    simp
  have hfresh : key a ∉ front ++ init.map key := by
    rw [hkeys] at hnodup
    exact fun hmem => (nodup_append.1 hnodup).2.2 _ hmem _ (.head _) rfl
  rw [Request.rest, hcursor]
  exact map_behind hkeys hfresh

theorem map_pages_of_rest {rest : List (Request α κ)} (htodo : (r.rest key).map key = todo)
    (hnodup : ∀ q ∈ rest, (q.items.map key).Nodup) (hgrow : ∀ q ∈ rest, todo <:+ q.items.map key)
    (hchain : List.IsChain (Request.GoesOn key) (r :: rest))
    (hlast : ((r :: rest).getLast (cons_ne_nil _ _)).more key = false) :
    ((r :: rest).flatMap (Request.page key)).map key = todo := by
  have hpage : (r.page key).map key = todo.take r.size := by
    rw [Request.page, map_take, htodo]
  induction rest generalizing r todo with
  | nil =>
    have hmore : ¬ r.size < (r.rest key).length := of_decide_eq_false hlast
    rw [flatMap_singleton, hpage, take_of_length_le]
    rw [← htodo, length_map]
    omega
  | cons q rest ih =>
    obtain ⟨hgoes, hchain'⟩ := isChain_cons_cons.1 hchain
    have hnext := map_rest_of_goesOn htodo (hnodup q (.head _)) (hgrow q (.head _)) hgoes
    have hrest := ih hnext (fun p hp => hnodup p (.tail _ hp))
      (fun p hp => (drop_suffix _ _).trans (hgrow p (.tail _ hp))) hchain'
      (by rw [getLast_cons (cons_ne_nil _ _)] at hlast; exact hlast)
      (by rw [Request.page, map_take, hnext])
    rw [flatMap_cons, map_append, hrest, hpage, take_append_drop]

/-- **The pages have the keys of the first list**: a reader that goes on until there is no more has
got each of them once. -/
theorem map_pages (first : Request α κ) (rest : List (Request α κ)) (hnew : first.cursor = none)
    (hnodup : ∀ q ∈ rest, (q.items.map key).Nodup)
    (hgrow : ∀ q ∈ rest, first.items.map key <:+ q.items.map key)
    (hchain : List.IsChain (Request.GoesOn key) (first :: rest))
    (hlast : ((first :: rest).getLast (cons_ne_nil _ _)).more key = false) :
    ((first :: rest).flatMap (Request.page key)).map key = first.items.map key := by
  refine map_pages_of_rest ?_ hnodup hgrow hchain hlast
  rw [Request.rest, hnew, behind_none]

/-- Every page but the last takes something away from what is still to come. -/
theorem length_rest_le {rest : List (Request α κ)} (htodo : (r.rest key).map key = todo)
    (hnodup : ∀ q ∈ rest, (q.items.map key).Nodup) (hgrow : ∀ q ∈ rest, todo <:+ q.items.map key)
    (hchain : List.IsChain (Request.GoesOn key) (r :: rest)) : rest.length ≤ todo.length := by
  induction rest generalizing r todo with
  | nil => exact Nat.zero_le _
  | cons q rest ih =>
    obtain ⟨hgoes, hchain'⟩ := isChain_cons_cons.1 hchain
    have hnext := map_rest_of_goesOn htodo (hnodup q (.head _)) (hgrow q (.head _)) hgoes
    have hrest := ih hnext (fun p hp => hnodup p (.tail _ hp))
      (fun p hp => (drop_suffix _ _).trans (hgrow p (.tail _ hp))) hchain'
    -- the page has a last item, so it takes at least one
    obtain ⟨hmore, a, ha, -⟩ := hgoes
    have hpos : 0 < r.size := by
      rcases Nat.eq_zero_or_pos r.size with hzero | hpos
      · rw [Request.page, hzero, take_zero] at ha
        cases ha
      · exact hpos
    have hlt : r.size < todo.length := by
      rw [← htodo, length_map]
      exact of_decide_eq_true hmore
    rw [length_drop] at hrest
    rw [length_cons]
    omega

end LibPages
