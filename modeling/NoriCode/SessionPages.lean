/-
**Pages of sessions.**

A client asks for sessions page by page, newest first, and goes on behind the last session it got.
The status is only looked at on the page that was cut, so that a page may be empty although there
are more.

The module embeds `list` and `listChildren` of `sessionService.ts`, over the sessions that the store
lists.

Main definitions:

* `SessionPages.list`, `SessionPages.listChildren` — a page;
* `SessionPages.Follows` — the pages a client gets;
* `SessionPages.Gapless` — no page would be empty.

Main results:

* `SessionPages.pages_complete_iff` — **when a client gets every session once**.
-/

import NoriCode.LibPages

namespace NoriCode

namespace SessionPages

open List

/-! ### A page -/

structure SessionSummary where
  id : String
  workDir : String := ""
  archived : Bool := false
  updatedAt : ℤ := 0
  lastPrompt : Option String := none
  parentSessionId : Option String := none
  deriving DecidableEq

structure SessionListQuery (σ : Type) where
  workDir : Option String := none
  includeArchive : Bool := false
  beforeId : Option String := none
  afterId : Option String := none
  pageSize : Option ℤ := none
  status : Option σ := none
  excludeEmpty : Bool := false

structure Page where
  items : List SessionSummary
  hasMore : Bool
  deriving DecidableEq

variable {σ : Type} [DecidableEq σ] (statusOf : SessionSummary → σ)

/-- What the store lists, the newest first. -/
def sorted (stored : List SessionSummary) (workDir : Option String) (includeArchive : Bool) :
    List SessionSummary :=
  (stored.filter fun s => workDir.all (· = s.workDir) && (includeArchive || !s.archived)).mergeSort
    fun a b => b.updatedAt ≤ a.updatedAt

def slice (visible : List SessionSummary) (query : SessionListQuery σ) : List SessionSummary :=
  match query.beforeId, query.afterId with
  | some id, _ => LibPages.behind (·.id) (some id) visible
  | none, some id =>
    match visible.findIdx? fun s => s.id = id with
    | some pivotIndex => visible.take pivotIndex
    | none => visible
  | none, none => visible

/-- `Math.min(Math.max(requestedSize, 1), MAX_PAGE_SIZE)`. -/
def pageSize (query : SessionListQuery σ) : ℕ := (min (max (query.pageSize.getD 20) 1) 100).toNat

def matchesStatus (query : SessionListQuery σ) (s : SessionSummary) : Bool :=
  match query.status with
  | none => true
  | some status => statusOf s = status

/-- The page that is cut from the visible sessions. -/
def pageOf (visible : List SessionSummary) (query : SessionListQuery σ) : Page where
  items := ((slice visible query).take (pageSize query)).filter (matchesStatus statusOf query)
  hasMore := decide ((slice visible query).length > pageSize query)

/-- The sessions of which `list` shows pages: with `excludeEmpty` those with a last prompt. -/
def visible (stored : List SessionSummary) (query : SessionListQuery σ) : List SessionSummary :=
  (sorted stored query.workDir query.includeArchive).filter fun s =>
    !query.excludeEmpty || s.lastPrompt.any (· ≠ "")

def list (stored : List SessionSummary) (query : SessionListQuery σ) : Page :=
  pageOf statusOf (visible stored query) query

def children (stored : List SessionSummary) (id : String) : List SessionSummary :=
  (sorted stored none false).filter fun s => s.parentSessionId = some id

/-- There is no page if there is no such session. -/
def listChildren (stored : List SessionSummary) (id : String) (query : SessionListQuery σ) :
    Option Page :=
  if (sorted stored none false).any (·.id = id) then
    some (pageOf statusOf (children stored id) query)
  else none

/-! ### Following the cursors -/

/-- The pages a client gets that goes on behind the last session of a page, while there is one and
there are more. -/
inductive Follows (request : Option String → Page) : Option String → List Page → Prop
  | last {cursor : Option String} :
      ((request cursor).hasMore = true → (request cursor).items = []) →
      Follows request cursor [request cursor]
  | next {cursor : Option String} {s : SessionSummary} {pages : List Page} :
      (request cursor).hasMore = true → (request cursor).items.getLast? = some s →
      Follows request (some s.id) pages → Follows request cursor (request cursor :: pages)

theorem Follows.unique {request : Option String → Page} {cursor : Option String}
    {pages pages' : List Page} (h : Follows request cursor pages)
    (h' : Follows request cursor pages') : pages' = pages := by
  induction h generalizing pages' with
  | last hstop =>
    cases h' with
    | last => rfl
    | next hmore hlast =>
      rw [hstop hmore] at hlast
      cases hlast
  | next hmore hlast _ ih =>
    cases h' with
    | last hstop =>
      rw [hstop hmore] at hlast
      cases hlast
    | next _ hlast' h' =>
      cases hlast.symm.trans hlast'
      rw [ih h']

/-- **No page would be empty**: from the first session, and from behind a match, one of the next
`size` sessions is a match, unless these are the last. -/
def Gapless {α : Type} (size : ℕ) (p : α → Bool) (l : List α) : Prop :=
  ∀ i, i + size < l.length → (∀ a ∈ (l.take i).getLast?, p a = true) →
    ∃ a ∈ (l.drop i).take size, p a = true

theorem gapless_behind {α : Type} {size : ℕ} {p : α → Bool} {front rest : List α} {a : α}
    (ha : p a = true) (hfront : front.length < size) :
    Gapless size p (front ++ [a] ++ rest) ↔ Gapless size p rest := by
  constructor
  · intro h i hi hlast
    rw [← drop_length_add_append]
    refine h _ (by simp only [length_append] at hi ⊢; omega) fun b hb => ?_
    rw [take_length_add_append, getLast?_append] at hb
    cases hrest : (rest.take i).getLast? with
    | none =>
      obtain rfl : a = b := by simpa [hrest] using hb
      exact ha
    | some c => exact hlast b (by simpa [hrest] using hb)
  · intro h i hi hlast
    by_cases hin : i ≤ front.length
    · refine ⟨a, ?_, ha⟩
      rw [append_assoc, drop_append_of_le_length hin, take_append]
      refine mem_append_right _ ?_
      rw [length_drop, ← Nat.sub_add_cancel (n := size - (front.length - i)) (m := 1) (by omega)]
      exact .head _
    · obtain ⟨j, rfl⟩ : ∃ j, i = (front ++ [a]).length + j :=
        Nat.exists_eq_add_of_le (by simp only [length_append, length_singleton]; omega)
      rw [drop_length_add_append]
      refine h j (by simp only [length_append] at hi; omega) fun b hb => hlast b ?_
      rw [take_length_add_append, getLast?_append, Option.mem_def.1 hb]
      rfl

theorem exists_last_match {α : Type} {p : α → Bool} {l : List α} {a : α}
    (h : (l.filter p).getLast? = some a) :
    ∃ front gap, l = front ++ [a] ++ gap ∧ p a = true ∧ gap.filter p = [] := by
  obtain ⟨init, hinit⟩ := getLast?_eq_some_iff.1 h
  obtain ⟨l₁, l₂, rfl, -, h₂⟩ := filter_eq_append_iff.1 hinit
  obtain ⟨m₁, m₂, rfl, -, ha, hgap⟩ := filter_eq_cons_iff.1 h₂
  exact ⟨l₁ ++ m₁, m₂, by simp, ha, hgap⟩

/-- The pages behind a cursor, where they are cut from the visible sessions. -/
theorem follows_behind {shown : List SessionSummary} (hids : (shown.map (·.id)).Nodup) {size : ℕ}
    {p : SessionSummary → Bool} {request : Option String → Page}
    (hrequest : ∀ cursor, request cursor =
      ⟨((LibPages.behind (·.id) cursor shown).take size).filter p,
        decide ((LibPages.behind (·.id) cursor shown).length > size)⟩)
    {front rest : List SessionSummary} {cursor : Option String} (hshown : shown = front ++ rest)
    (hcursor : LibPages.behind (·.id) cursor shown = rest) :
    ∃ pages, Follows request cursor pages ∧
      ((pages.flatMap (·.items) = rest.filter p ∧ ∀ page ∈ pages.getLast?, page.hasMore = false) ↔
        Gapless size p rest) := by
  induction hn : rest.length using Nat.strongRecOn generalizing front rest cursor with
  | ind n ih =>
    have hpage := hrequest cursor
    rw [hcursor] at hpage
    by_cases hmore : rest.length > size
    · cases hlast : ((rest.take size).filter p).getLast? with
      | none =>
        -- the page is empty, and there are more
        have hnone := getLast?_eq_none_iff.1 hlast
        refine ⟨_, .last fun _ => by rw [hpage]; exact hnone, iff_of_false ?_ fun hgapless => ?_⟩
        · rintro ⟨-, hend⟩
          have hend := hend _ rfl
          rw [hpage] at hend
          exact of_decide_eq_false hend hmore
        · obtain ⟨a, ha, hp⟩ := hgapless 0 (by omega) nofun
          exact filter_eq_nil_iff.1 hnone a ha hp
      | some a =>
        obtain ⟨pre, gap, htake, ha, hgap⟩ := exists_last_match hlast
        have hrest : rest = pre ++ [a] ++ (gap ++ rest.drop size) := by
          rw [← append_assoc, ← htake, take_append_drop]
        generalize gap ++ rest.drop size = tail at hrest
        have hlength : pre.length < size := by
          have := congrArg length htake
          simp only [length_take, length_append, length_singleton] at this
          omega
        subst hrest
        have hsplit : shown = (front ++ pre) ++ a :: tail := by simp [hshown]
        have hfresh : a.id ∉ (front ++ pre).map (·.id) := by
          rw [hsplit, map_append, map_cons] at hids
          exact fun hmem => (nodup_append.1 hids).2.2 _ hmem _ (.head _) rfl
        obtain ⟨pages, hfollows, hiff⟩ := ih tail.length (by simp [← hn]; omega)
          (hsplit.trans (append_cons _ _ _)) (hsplit ▸ LibPages.behind_some hfresh) rfl
        refine ⟨_, .next (by rw [hpage]; exact decide_eq_true hmore) (by rw [hpage]; exact hlast)
          hfollows, ?_⟩
        have hne : pages ≠ [] := by
          cases hfollows with
          | last | next => exact cons_ne_nil _ _
        have hitems : (request cursor).items = (pre ++ [a]).filter p := by
          rw [hpage]
          rw [htake, filter_append, hgap, append_nil]
        rw [flatMap_cons, hitems, filter_append (pre ++ [a]), append_right_inj,
          getLast?_cons_of_ne_nil hne, hiff, gapless_behind ha hlength]
    · refine ⟨_, .last fun hyes => ?_, iff_of_true ⟨?_, fun page hlast => ?_⟩ fun i hi => ?_⟩
      · rw [hpage] at hyes
        exact absurd (of_decide_eq_true hyes) hmore
      · rw [flatMap_singleton, hpage, take_of_length_le (not_lt.1 hmore)]
      · obtain rfl := Option.some.inj hlast
        rw [hpage]
        exact decide_eq_false hmore
      · omega

/-- A client gets one sequence of pages; and it gets every session that matches once, and then there
are no more, exactly if no page would be empty. -/
def PagesOf (shown : List SessionSummary) (query : SessionListQuery σ)
    (request : Option String → Page) : Prop :=
  ∃ pages, Follows request none pages ∧ (∀ other, Follows request none other → other = pages) ∧
    ((pages.flatMap (·.items) = shown.filter (matchesStatus statusOf query) ∧
      ∀ page ∈ pages.getLast?, page.hasMore = false) ↔
        Gapless (pageSize query) (matchesStatus statusOf query) shown)

theorem pagesOf {shown : List SessionSummary} (hids : (shown.map (·.id)).Nodup)
    (query : SessionListQuery σ) : PagesOf statusOf shown query fun cursor =>
      pageOf statusOf shown { query with beforeId := cursor, afterId := none } := by
  have hpage (cursor : Option String) :
      pageOf statusOf shown { query with beforeId := cursor, afterId := none } =
        ⟨((LibPages.behind (·.id) cursor shown).take (pageSize query)).filter
          (matchesStatus statusOf query),
        decide ((LibPages.behind (·.id) cursor shown).length > pageSize query)⟩ := by
    cases cursor <;> rfl
  obtain ⟨pages, hfollows, hiff⟩ :=
    follows_behind hids hpage (nil_append shown).symm (LibPages.behind_none shown)
  exact ⟨pages, hfollows, fun other hother => hfollows.unique hother, hiff⟩

/-- **When a client gets every session once**, from `list` and from `listChildren`. -/
theorem pages_complete_iff {stored : List SessionSummary} (hids : (stored.map (·.id)).Nodup)
    (query : SessionListQuery σ) :
    PagesOf statusOf (visible stored query) query (fun cursor =>
      list statusOf stored { query with beforeId := cursor, afterId := none }) ∧
    ∀ id ∈ (sorted stored none false).map (·.id), ∃ request, (∀ cursor, listChildren statusOf stored
      id { query with beforeId := cursor, afterId := none } = some (request cursor)) ∧
      PagesOf statusOf (children stored id) query request := by
  have hsorted (workDir : Option String) (includeArchive : Bool) :
      ((sorted stored workDir includeArchive).map (·.id)).Nodup :=
    ((mergeSort_perm _ _).map _).nodup_iff.2 (hids.sublist (filter_sublist.map _))
  have hsub {l : List SessionSummary} {p : SessionSummary → Bool} (hl : (l.map (·.id)).Nodup) :
      ((l.filter p).map (·.id)).Nodup := hl.sublist (filter_sublist.map _)
  refine ⟨pagesOf statusOf (hsub (hsorted _ _)) query, fun id hid => ?_⟩
  have hthere : (sorted stored none false).any (·.id = id) = true := by
    obtain ⟨s, hs, rfl⟩ := mem_map.1 hid
    exact any_eq_true.2 ⟨s, hs, decide_eq_true rfl⟩
  exact ⟨_, fun _ => if_pos hthere, pagesOf statusOf (hsub (hsorted _ _)) query⟩

/-- Two sessions, with their status as their title. -/
def twoSessions : List SessionSummary := [{ id := "b", updatedAt := 2 }, { id := "a" }]

theorem pages_complete_iff_twoSessions :
    PagesOf (·.id) (visible twoSessions { status := some "a" }) { status := some "a" }
      fun cursor => list (·.id) twoSessions { status := some "a", beforeId := cursor } :=
  (pages_complete_iff (·.id) (by decide) { status := some "a" }).1

/-- The first page is empty and there are more, one of which matches. -/
theorem first_page_empty :
    list (·.id) twoSessions { status := some "a", pageSize := some 1 } = ⟨[], true⟩ ∧
      list (·.id) twoSessions { status := some "a" } = ⟨[{ id := "a" }], false⟩ := by
  have hsorted : sorted twoSessions none false = twoSessions := mergeSort_of_pairwise (by decide)
  simp only [list, visible, hsorted]
  decide

end SessionPages

end NoriCode
