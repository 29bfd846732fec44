/-
**What the passes of the projection do to tool exchanges.**

A tool result answers a call when an assistant message before it calls its id and fewer earlier
results have that id than assistant messages wait for one.  A history without its answering
results is its *loose* part; the loose part is what the repair cannot put in order, because a
repaired history is its loose part with every call followed by one result for each of its ids.

That shape is the relation `Closes`, from a loose part to the repaired history, and every
later pass of the strict projection keeps it while it does to the loose part what it does to the
whole.

Main definitions:

* `Waiting`, `looseFrom`, `loose` — the loose part of a history;
* `AnswersAll`, `Closes` — the shape of a repaired history.

Main results:

* `closes_repair` — **the repair closes every exchange**;
* `Closes.merge`, `Closes.filter`, `Closes.dropLeading` — the shape
  through the three strict passes.
-/

import NoriCode.Projector

namespace NoriCode

open LibOrdSet List Option OrdSet Message

/-! ### Calls that wait for a result -/

/-- For every id, how many assistant messages wait for a result with it. -/
abbrev Waiting := String → ℕ

namespace Waiting

/-- Nothing waits. -/
def none : Waiting := fun _ => 0

/-- Every id of a set waits once more. -/
def add (k : Waiting) (ids : OrdSet String) : Waiting := fun id => k id + if id ∈ ids then 1 else 0

/-- One result for the id has come. -/
def take (k : Waiting) (id : String) : Waiting := fun x => if x = id then k x - 1 else k x

/-- What waits after a message that is no answer. -/
def after (k : Waiting) (m : Message) : Waiting :=
  if m.role = .assistant then k.add (.ofList m.callIds) else k

/-- The waiting id that a message answers. -/
def answeredBy (k : Waiting) (m : Message) : Option String :=
  if m.role = .tool then m.toolCallId.filter (0 < k ·) else .none

theorem none_answeredBy (m : Message) : none.answeredBy m = .none := by
  simp [answeredBy, none]

theorem answeredBy_of_ne_tool {m : Message} (h : m.role ≠ .tool) (k : Waiting) :
    k.answeredBy m = .none := by
  simp [answeredBy, h]

theorem add_of_isEmpty {ids : OrdSet String} (h : ids.isEmpty = true) (k : Waiting) :
    k.add ids = k := by
  funext x
  simp [add, isEmpty_iff.1 h x]

end Waiting

/-- The messages that answer no waiting call, when `k` waits at the start. -/
def looseFrom : Waiting → List Message → List Message
  | _, [] => []
  | k, m :: rest =>
    match k.answeredBy m with
    | some id => looseFrom (k.take id) rest
    | none => m :: looseFrom (k.after m) rest

/-- **The loose part of a history**: the history without the results that answer a call. -/
def loose (messages : List Message) : List Message := looseFrom .none messages

/-- What waits at the end of a history. -/
def waitingAfter : Waiting → List Message → Waiting
  | k, [] => k
  | k, m :: rest =>
    match k.answeredBy m with
    | some id => waitingAfter (k.take id) rest
    | none => waitingAfter (k.after m) rest

theorem looseFrom_append (k : Waiting) (l₁ l₂ : List Message) :
    looseFrom k (l₁ ++ l₂) = looseFrom k l₁ ++ looseFrom (waitingAfter k l₁) l₂ := by
  induction l₁ generalizing k with
  | nil => rfl
  | cons m l ih =>
    simp only [cons_append, looseFrom, waitingAfter]
    cases k.answeredBy m with
    | some id => exact ih _
    | none => simp [ih]

variable {m : Message}

theorem looseFrom_cons_of_ne_tool (h : m.role ≠ .tool) (k : Waiting)
    (rest : List Message) : looseFrom k (m :: rest) = m :: looseFrom (k.after m) rest := by
  simp [looseFrom, Waiting.answeredBy_of_ne_tool h]

theorem Waiting.after_of_ne_assistant (h : m.role ≠ .assistant) (k : Waiting) : k.after m = k := by
  simp [Waiting.after, h]

/-! ### The search for results -/

/-- The rest of a history without the messages at consumed positions. -/
def remaining : ℕ → List ℕ → List Message → List Message
  | _, _, [] => []
  | i, consumed, m :: rest =>
    if i ∈ consumed then remaining (i + 1) consumed rest
    else m :: remaining (i + 1) consumed rest

theorem remaining_cons_of_lt {p i : ℕ} (h : p < i) (consumed : List ℕ) (l : List Message) :
    remaining i (p :: consumed) l = remaining i consumed l := by
  induction l generalizing i with
  | nil => rfl
  | cons m l ih =>
    have hne : i ≠ p := by omega
    simp [remaining, hne, ih (show p < i + 1 by omega)]

theorem remaining_nil (i : ℕ) (l : List Message) : remaining i [] l = l := by
  induction l generalizing i with
  | nil => rfl
  | cons m l ih => simp [remaining, ih]

variable (l : List Message)

theorem consumed_subset (j : ℕ) (consumed : List ℕ) (pending : OrdSet String) :
    consumed ⊆ (pullResults j consumed pending l).consumed := by
  fun_induction pullResults j consumed pending l with
  | case1 | case2 => exact List.Subset.refl _
  | case3 _ _ _ _ _ _ _ ih | case5 _ _ _ _ _ _ _ _ ih => exact ih
  | case4 =>
    rename_i ih
    exact fun p hp => ih (.tail _ hp)

theorem mem_consumed_of_lt (j : ℕ) (consumed : List ℕ) (pending : OrdSet String) {p : ℕ}
    (hlt : p < j) (hp : p ∈ (pullResults j consumed pending l).consumed) : p ∈ consumed := by
  fun_induction pullResults j consumed pending l with
  | case1 | case2 => exact hp
  | case3 _ _ _ _ _ _ _ ih | case5 _ _ _ _ _ _ _ _ ih => exact ih (by omega) hp
  | case4 _ _ _ _ _ _ _ _ _ _ ih =>
    rcases mem_cons.1 (ih (by omega) hp) with rfl | h
    · omega
    · exact h

theorem notMem_pullResults {j : ℕ} {consumed : List ℕ} (h : j ∉ consumed) (pending : OrdSet String)
    (l : List Message) : j ∉ (pullResults (j + 1) consumed pending l).consumed := fun hin =>
  h (mem_consumed_of_lt l (j + 1) consumed pending (Nat.lt_succ_self j) hin)

variable {pending : OrdSet String} {id : String}

theorem answers?_eq_some (h : answers? pending m = some id) :
    m.role = .tool ∧ m.toolCallId = some id ∧ id ∈ pending := by
  unfold answers? at h
  split_ifs at h with hrole
  rw [filter_eq_some_iff] at h
  exact ⟨hrole, h.1, by simpa using h.2⟩

/-- A pending id is a waiting id, so a message the search takes answers it. -/
theorem answeredBy_of_answers?
    (h : answers? pending m = some id) (k : Waiting) : (k.add pending).answeredBy m = some id := by
  obtain ⟨hrole, hid, hmem⟩ := answers?_eq_some h
  simp [Waiting.answeredBy, hrole, hid, Option.filter, Waiting.add, hmem]

/-- What the search leaves in place answers a call exactly if it did so without the pending
ids. -/
theorem answeredBy_of_not_answers? (h : answers? pending m = none) (k : Waiting) :
    (k.add pending).answeredBy m = k.answeredBy m := by
  unfold answers? at h
  unfold Waiting.answeredBy
  split_ifs at h ⊢ with hrole
  · cases hid : m.toolCallId with
    | none => rfl
    | some id =>
      have hmem : id ∉ pending := by simpa [hid, Option.filter] using h
      simp [Option.filter, Waiting.add, hmem]
  · rfl

theorem Waiting.add_take_of_mem (k : Waiting)
    (h : id ∈ pending) : (k.add pending).take id = k.add (pending.erase id) := by
  funext x
  by_cases hx : x = id
  · subst hx; simp [Waiting.take, Waiting.add, h]
  · simp [Waiting.take, Waiting.add, hx]

theorem Waiting.add_take_of_answeredBy {k : Waiting} (h : k.answeredBy m = some id) :
    (k.add pending).take id = (k.take id).add pending := by
  have hpos : 0 < k id := by
    unfold Waiting.answeredBy at h
    split_ifs at h with hrole
    rw [filter_eq_some_iff] at h
    simpa using h.2
  funext x
  by_cases hx : x = id
  · subst hx; simp only [Waiting.take, Waiting.add, if_true]; omega
  · simp [Waiting.take, Waiting.add, hx]

theorem Waiting.add_after (k : Waiting) (pending : OrdSet String) (m : Message) :
    (k.add pending).after m = (k.after m).add pending := by
  unfold Waiting.after
  split_ifs
  · funext x
    simp only [Waiting.add]
    omega
  · rfl

/-- **Taking results out of a history is letting their calls wait**: the loose part of the rest
while the pending ids wait is the loose part of what the search leaves. -/
theorem looseFrom_pullResults (j : ℕ) (consumed : List ℕ) (pending : OrdSet String) (k : Waiting) :
    looseFrom (k.add pending) (remaining j consumed l) =
      looseFrom k (remaining j (pullResults j consumed pending l).consumed l) := by
  fun_induction pullResults j consumed pending l generalizing k with
  | case1 => rfl
  | case2 _ _ _ _ _ h₁ => rw [Waiting.add_of_isEmpty h₁]
  | case3 j consumed pending _ l _ h₂ ih =>
    have hj := consumed_subset l (j + 1) consumed pending h₂
    simp only [remaining, h₂, hj, if_true]
    exact ih _
  | case4 j consumed pending _ l _ h₂ id ha r ih =>
    obtain ⟨-, -, hmem⟩ := answers?_eq_some ha
    have hj := consumed_subset l (j + 1) (j :: consumed) (pending.erase id) (.head _)
    simp only [remaining, h₂, r, hj, if_true, if_false, looseFrom,
      answeredBy_of_answers? ha, k.add_take_of_mem hmem]
    rw [← ih, remaining_cons_of_lt (Nat.lt_succ_self j)]
  | case5 j consumed pending m l _ h₂ ha ih =>
    simp only [remaining, h₂, notMem_pullResults h₂, if_false, looseFrom,
      answeredBy_of_not_answers? ha]
    cases hk : k.answeredBy m with
    | some id =>
      simp only [Waiting.add_take_of_answeredBy hk]
      exact ih _
    | none =>
      simp only [Waiting.add_after]
      rw [ih]

/-! ### Closed exchanges -/

/-- One result for each id of the message, and no other message. -/
structure AnswersAll (a : Message) (results : List Message) : Prop where
  /-- Every message is a result for one of the ids. -/
  mem : ∀ r ∈ results, r.role = .tool ∧ ∃ id ∈ a.callIds, r.toolCallId = some id
  /-- Every id has one result. -/
  count : ∀ id ∈ a.callIds, results.countP (·.toolCallId = some id) = 1

/-- **The shape of a repaired history**, next to its loose part: every message that opens an
exchange is followed by one result for each of its ids. -/
inductive Closes : List Message → List Message → Prop
  | nil : Closes [] []
  | single {m : Message} {l out : List Message} : m.opensExchange = false → Closes l out →
      Closes (m :: l) (m :: out)
  | exchange {a : Message} {results l out : List Message} : a.opensExchange = true →
      AnswersAll a results → Closes l out → Closes (a :: l) (a :: (results ++ out))

/-- The search finds results for pending ids only, one for each id it does not leave pending. -/
theorem pullResults_results (j : ℕ) (consumed : List ℕ) (pending : OrdSet String) :
    (∀ r ∈ (pullResults j consumed pending l).results,
      r.role = .tool ∧ ∃ id ∈ pending, r.toolCallId = some id) ∧
    (∀ id ∈ (pullResults j consumed pending l).pending, id ∈ pending) ∧
    ∀ id, (pullResults j consumed pending l).results.countP (·.toolCallId = some id) =
      if id ∈ pending ∧ id ∉ (pullResults j consumed pending l).pending then 1 else 0 := by
  fun_induction pullResults j consumed pending l with
  | case1 | case2 => simp
  | case3 _ _ _ _ _ _ _ ih | case5 _ _ _ _ _ _ _ _ ih => exact ih
  | case4 j consumed pending _ l _ _ id ha r ih =>
    obtain ⟨hrole, hid, hmem⟩ := answers?_eq_some ha
    obtain ⟨ih₁, ih₂, ih₃⟩ := ih
    refine ⟨?_, fun x hx => (mem_erase.1 (ih₂ x hx)).1, fun x => ?_⟩
    · intro r hr
      rcases mem_cons.1 hr with rfl | hr
      · exact ⟨hrole, id, hmem, hid⟩
      · obtain ⟨hr, x, hx, hrx⟩ := ih₁ r hr
        exact ⟨hr, x, (mem_erase.1 hx).1, hrx⟩
    · simp only [r, countP_cons, ih₃ x, hid, mem_erase, some.injEq, decide_eq_true_eq]
      by_cases hx : x = id
      · subst hx
        have hnot : x ∉ (pullResults (j + 1) (j :: consumed) (pending.erase x) l).pending :=
          fun h => (mem_erase.1 (ih₂ x h)).2 rfl
        simp [hmem, hnot]
      · simp [hx, Ne.symm hx]

/-- The results found and the synthetic ones together answer the message. -/
theorem answersAll_pullResults (a : Message) (j : ℕ) (consumed : List ℕ) (l : List Message) :
    let r := pullResults j consumed (.ofList a.callIds) l
    AnswersAll a (r.results ++ r.pending.toList.map makeSyntheticToolResult) := by
  intro r
  obtain ⟨h₁, h₂, h₃⟩ := pullResults_results l j consumed (.ofList a.callIds)
  constructor
  · intro m hm
    rcases mem_append.1 hm with hm | hm
    · obtain ⟨hrole, id, hid, hm⟩ := h₁ m hm
      exact ⟨hrole, id, mem_ofList.1 hid, hm⟩
    · obtain ⟨id, hid, rfl⟩ := mem_map.1 hm
      exact ⟨rfl, id, mem_ofList.1 (h₂ id hid), rfl⟩
  · intro id hid
    have hsynth : (r.pending.toList.map makeSyntheticToolResult).countP
        (·.toolCallId = some id) = r.pending.toList.count id := by
      rw [countP_map, count]
      congr 1
      funext x
      rw [Bool.eq_iff_iff]
      simp [makeSyntheticToolResult]
    rw [countP_append, h₃ id, hsynth, r.pending.nodup.count]
    -- either the search found a result or the id is still pending
    by_cases hpending : id ∈ r.pending.toList
    · have hleft : id ∈ (pullResults j consumed (.ofList a.callIds) l).pending := hpending
      simp [hpending, hleft]
    · have hleft : id ∉ (pullResults j consumed (.ofList a.callIds) l).pending := hpending
      simp [hpending, hleft, hid]

theorem closes_repairFrom (e : ℕ) (l : List Message) : ∀ (i : ℕ) (consumed : List ℕ),
    Closes (loose (remaining i consumed l)) (repairFrom true e i consumed l) := by
  induction l with
  | nil => intro i consumed; exact Closes.nil
  | cons m l ih =>
    intro i consumed
    unfold remaining repairFrom
    split_ifs with h₁ h₂
    · exact ih _ _
    · have hopen : m.opensExchange = false := by
        rcases h₂ with h | h
        · simp [opensExchange, h]
        · simp [opensExchange, length_eq_zero_iff.1 h]
      have hafter : Waiting.none.after m = .none := by
        unfold Waiting.after
        split_ifs with hrole
        · have hcalls : m.toolCalls = [] := by simpa [hrole, opensExchange] using hopen
          funext x
          simp [callIds, hcalls, Waiting.add, Waiting.none]
        · rfl
      simp only [loose, looseFrom, Waiting.none_answeredBy, hafter]
      exact Closes.single hopen (ih _ _)
    · have hrole : m.role = .assistant := by
        by_contra h
        exact h₂ (Or.inl h)
      have hcalls : m.toolCalls ≠ [] := fun h => h₂ (Or.inr (by simp [h]))
      have hopen : m.opensExchange = true := by
        simp [opensExchange, hrole, hcalls]
      simp only [loose, looseFrom, Waiting.none_answeredBy, Waiting.after, hrole, if_true,
        Bool.true_or]
      rw [looseFrom_pullResults]
      exact Closes.exchange hopen (answersAll_pullResults m _ _ _) (ih _ _)

/-- **The repair closes every exchange.** -/
theorem closes_repair (messages : List Message) (options : ProjectOptions)
    (h : options.synthesizeMissing = true) :
    Closes (loose messages) (repairToolExchangeAdjacency messages options) := by
  have hclose := closes_repairFrom (lastNonToolIndex messages) messages 0 []
  rw [remaining_nil] at hclose
  rw [repairToolExchangeAdjacency, h]
  exact hclose

/-! ### The strict passes -/

theorem Message.role_of_opensExchange (h : m.opensExchange = true) : m.role = .assistant := by
  simp only [opensExchange, Bool.and_eq_true, beq_iff_eq] at h
  exact h.1

variable {a : Message}

theorem AnswersAll.ne_nil {results : List Message} (h : AnswersAll a results)
    (ha : a.opensExchange = true) : results ≠ [] := by
  rintro rfl
  cases hcalls : a.toolCalls with
  | nil => simp [opensExchange, hcalls] at ha
  | cons c cs =>
    have hcount := h.count c.id (by simp [callIds, hcalls])
    simp at hcount

variable {l₁ l₂ : List Message}

theorem append_eq_append_cons {pre post : List Message} {t : Message}
    (h : l₁ ++ l₂ = pre ++ t :: post) :
    (∃ c, l₁ = pre ++ t :: c ∧ post = c ++ l₂) ∨ ∃ c, pre = l₁ ++ c ∧ l₂ = c ++ t :: post := by
  rcases append_eq_append_iff.1 h with ⟨c, hpre, hc⟩ | ⟨c, hl₁, hc⟩
  · exact Or.inr ⟨c, hpre, hc⟩
  · cases c with
    | nil =>
      rw [nil_append] at hc
      exact Or.inr ⟨[], by simpa using hl₁.symm, hc.symm⟩
    | cons d c =>
      obtain ⟨rfl, hpost⟩ := cons_eq_cons.1 hc
      exact Or.inl ⟨c, hl₁, hpost⟩

variable {l : List Message}

theorem Closes.append_cons {pre post : List Message}
    (h : Closes l (pre ++ a :: post)) (ha : a.role = .assistant) :
    ∃ l₁ l₂, l = l₁ ++ a :: l₂ ∧ Closes l₁ pre ∧ ((a.opensExchange = false ∧ Closes l₂ post) ∨
        ∃ results out, a.opensExchange = true ∧ AnswersAll a results ∧ post = results ++ out ∧
          Closes l₂ out) := by
  generalize hout : pre ++ a :: post = out at h
  induction h generalizing pre with
  | nil => simp at hout
  | @single m l out hm hl ih =>
    cases pre with
    | nil =>
      obtain ⟨rfl, rfl⟩ := cons_eq_cons.1 hout
      exact ⟨[], l, rfl, Closes.nil, Or.inl ⟨hm, hl⟩⟩
    | cons b pre =>
      obtain ⟨rfl, hpost⟩ := cons_eq_cons.1 hout
      obtain ⟨l₁, l₂, rfl, h₁, h₂⟩ := ih hpost
      exact ⟨b :: l₁, l₂, rfl, Closes.single hm h₁, h₂⟩
  | @exchange b results l out hb hres hl ih =>
    cases pre with
    | nil =>
      obtain ⟨rfl, rfl⟩ := cons_eq_cons.1 hout
      exact ⟨[], l, rfl, Closes.nil, Or.inr ⟨results, out, hb, hres, rfl, hl⟩⟩
    | cons c pre =>
      obtain ⟨rfl, hpost⟩ := cons_eq_cons.1 hout
      rcases append_eq_append_cons hpost.symm with ⟨c', rfl, -⟩ | ⟨c', rfl, hc'⟩
      · -- an assistant message is not among the results
        have htool := (hres.mem a (by simp)).1
        rw [ha] at htool
        cases htool
      · obtain ⟨l₁, l₂, rfl, h₁, h₂⟩ := ih hc'.symm
        exact ⟨c :: l₁, l₂, rfl, Closes.exchange hb hres h₁, h₂⟩

variable {out : List Message}

theorem Closes.exists_of_mem (h : Closes l out) {t : Message} (ht : t ∈ l)
    (hrole : t.role = .tool) : ∃ l₁ pre post, out = pre ++ t :: post ∧ Closes l₁ pre := by
  induction h with
  | nil => simp at ht
  | @single m l out hm _ ih =>
    rcases mem_cons.1 ht with rfl | ht
    · exact ⟨[], [], out, rfl, Closes.nil⟩
    · obtain ⟨l₁, pre, post, rfl, h₁⟩ := ih ht
      exact ⟨m :: l₁, m :: pre, post, rfl, Closes.single hm h₁⟩
  | @exchange a results l out ha hres _ ih =>
    rcases mem_cons.1 ht with rfl | ht
    · rw [role_of_opensExchange ha] at hrole
      cases hrole
    · obtain ⟨l₁, pre, post, rfl, h₁⟩ := ih ht
      exact ⟨a :: l₁, a :: (results ++ pre), post, by simp, Closes.exchange ha hres h₁⟩

theorem mergeAssistant?_eq_some {p q : Message} (h : mergeAssistant? p m = some q) :
    p.role = .assistant ∧ m.role = .assistant ∧ q.role = .assistant ∧
      q.callIds = p.callIds ++ m.callIds := by
  unfold mergeAssistant? at h
  split_ifs at h with hrole
  cases h
  exact ⟨hrole.1, hrole.2, hrole.1, by simp [callIds]⟩

/-- The results that stand behind the first user message. -/
def lateResults (l : List Message) : List Message :=
  (dropLeadingNonUserMessages l).filter (·.role == .tool)

theorem lateResults_cons_of_user (h : m.role = .user) (l : List Message) :
    lateResults (m :: l) = l.filter (·.role == .tool) := by
  simp [lateResults, dropLeadingNonUserMessages, h]

theorem lateResults_cons_of_ne_user (h : m.role ≠ .user) (l : List Message) :
    lateResults (m :: l) = lateResults l := by
  simp [lateResults, dropLeadingNonUserMessages, h]

variable {x : List Message}

theorem filter_tool_append (h : ∀ m ∈ x, m.role ≠ .tool) (l : List Message) :
    (x ++ l).filter (·.role == .tool) = l.filter (·.role == .tool) := by
  rw [filter_append, filter_eq_nil_iff.2, nil_append]
  intro m hm
  simpa using h m hm

/-- Messages that are no results matter to the late results only by whether one is a user
message. -/
theorem lateResults_append (h : ∀ m ∈ x, m.role ≠ .tool) (l : List Message) :
    lateResults (x ++ l) =
      if ∃ m ∈ x, m.role = .user then l.filter (·.role == .tool) else lateResults l := by
  induction x with
  | nil => simp
  | cons m x ih =>
    have hx : ∀ b ∈ x, b.role ≠ .tool := fun b hb => h b (.tail _ hb)
    by_cases hm : m.role = .user
    · rw [cons_append, lateResults_cons_of_user hm, filter_tool_append hx]
      simp [hm]
    · rw [cons_append, lateResults_cons_of_ne_user hm, ih hx]
      simp [hm]

theorem lateResults_append_congr {y : List Message} (hx : ∀ m ∈ x, m.role ≠ .tool)
    (hy : ∀ m ∈ y, m.role ≠ .tool) (huser : (∃ m ∈ x, m.role = .user) ↔ ∃ m ∈ y, m.role = .user)
    (l₁ l₂ : List Message) : lateResults (l₁ ++ (x ++ l₂)) = lateResults (l₁ ++ (y ++ l₂)) := by
  induction l₁ with
  | nil => simp only [nil_append, lateResults_append hx, lateResults_append hy, huser]
  | cons b l ih =>
    by_cases hb : b.role = .user
    · simp [lateResults_cons_of_user hb, filter_tool_append hx, filter_tool_append hy]
    · simp [lateResults_cons_of_ne_user hb, ih]

theorem Closes.append {o₁ o₂ : List Message} (h₁ : Closes l₁ o₁) (h₂ : Closes l₂ o₂) :
    Closes (l₁ ++ l₂) (o₁ ++ o₂) := by
  induction h₁ with
  | nil => exact h₂
  | single hm _ ih => exact Closes.single hm ih
  | exchange ha hres _ ih =>
    rw [cons_append, cons_append, append_assoc]
    exact Closes.exchange ha hres ih

theorem Message.opensExchange_iff (h : m.role = .assistant) :
    m.opensExchange = true ↔ m.callIds ≠ [] := by
  simp [opensExchange, h, callIds]

theorem AnswersAll.congr {b : Message} {results : List Message} (h : AnswersAll a results)
    (hids : b.callIds = a.callIds) : AnswersAll b results :=
  ⟨hids ▸ h.mem, hids ▸ h.count⟩

/-- Merging neighbours keeps exchanges closed, and the late results as they are. -/
theorem Closes.merge (h : Closes l out) :
    ∃ l', Closes l' (mergeConsecutiveAssistantMessages out) ∧ lateResults l' = lateResults l := by
  refine LibAdjacent.mergeAdjacent_induct mergeAssistant?
    (motive := fun out => ∃ l', Closes l' out ∧ lateResults l' = lateResults l) ?_ ⟨l, h, rfl⟩
  rintro pre p m q post hq ⟨l', hl', hlate⟩
  obtain ⟨hp, hm, hqrole, hqids⟩ := mergeAssistant?_eq_some hq
  obtain ⟨l₁, l₂, rfl, h₁, hrest⟩ := hl'.append_cons hp
  rcases hrest with ⟨hpopen, hrest⟩ | ⟨results, out, hpopen, hres, hpost, -⟩
  · have hpids : p.callIds = [] := by
      by_contra hne
      rw [(opensExchange_iff hp).2 hne] at hpopen
      cases hpopen
    rw [hpids, nil_append] at hqids
    have hlates : ∀ l₂, lateResults (l₁ ++ q :: l₂) = lateResults (l₁ ++ p :: m :: l₂) := by
      intro l₂
      have hcongr := lateResults_append_congr (x := [q]) (y := [p, m]) (by simp [hqrole])
        (by simp [hp, hm]) (by simp [hp, hm, hqrole]) l₁ l₂
      simpa using hcongr
    have hnext : Closes l₂ ([] ++ m :: post) := hrest
    obtain ⟨l₃, l₄, rfl, h₃, hm'⟩ := hnext.append_cons hm
    cases h₃
    have hqopen : q.opensExchange = m.opensExchange := by
      rw [Bool.eq_iff_iff, opensExchange_iff hqrole, opensExchange_iff hm, hqids]
    refine ⟨l₁ ++ q :: l₄, ?_, by rw [hlates]; exact hlate⟩
    rcases hm' with ⟨hmopen, h₄⟩ | ⟨results, out, hmopen, hres, rfl, h₄⟩
    · exact h₁.append (Closes.single (hqopen.trans hmopen) h₄)
    · exact h₁.append (Closes.exchange (hqopen.trans hmopen) (hres.congr hqids) h₄)
  · -- an opening message is followed by a result, so it is not merged
    cases results with
    | nil => exact absurd rfl (hres.ne_nil hpopen)
    | cons r results =>
      obtain ⟨rfl, -⟩ := cons_eq_cons.1 hpost
      have htool := (hres.mem m (.head _)).1
      rw [hm] at htool
      cases htool

/-- Dropping messages that are results of no exchange of the history, or no results at all, keeps
exchanges closed. -/
theorem Closes.filter (h : Closes l out) {ids : List String}
    (hids : ∀ a ∈ l, a.role = .assistant → a.callIds ⊆ ids) :
    Closes (l.filter (!isOrphan ids ·)) (out.filter (!isOrphan ids ·)) := by
  induction h with
  | nil => exact Closes.nil
  | @single m l out hm _ ih =>
    have ih := ih fun a ha => hids a (.tail _ ha)
    simp only [filter_cons]
    split_ifs
    · exact Closes.single hm ih
    · exact ih
  | @exchange a results l out ha hres _ ih =>
    have ih := ih fun b hb => hids b (.tail _ hb)
    have hrole := role_of_opensExchange ha
    have hkeep : results.filter (!isOrphan ids ·) = results := by
      rw [filter_eq_self]
      intro r hr
      obtain ⟨-, id, hid, hr⟩ := hres.mem r hr
      simp [isOrphan, hr, hids a (.head _) hrole hid]
    have ha' : isOrphan ids a = false := by simp [isOrphan, hrole]
    simp only [filter_cons, ha', Bool.not_false, if_true, filter_append, hkeep]
    exact Closes.exchange ha hres ih

theorem Closes.dropLeading (h : Closes l out) :
    Closes (dropLeadingNonUserMessages l) (dropLeadingNonUserMessages out) := by
  unfold dropLeadingNonUserMessages
  induction h with
  | nil => exact Closes.nil
  | @single m l out hm hl ih =>
    simp only [dropWhile_cons]
    split_ifs
    · exact ih
    · exact Closes.single hm hl
  | @exchange a results l out ha hres hl ih =>
    have hrole := role_of_opensExchange ha
    have hdrop : (results ++ out).dropWhile (·.role != .user) =
        out.dropWhile (·.role != .user) := by
      rw [dropWhile_append_of_pos]
      intro r hr
      simp [(hres.mem r hr).1]
    simpa [dropWhile_cons, hrole, hdrop] using ih

/-! ### Ids through the passes -/

theorem toolUseIds_append (l₁ l₂ : List Message) :
    toolUseIds (l₁ ++ l₂) = toolUseIds l₁ ++ toolUseIds l₂ := by
  simp [toolUseIds]

theorem toolUseIds_cons_of_ne (h : m.role ≠ .assistant) (l : List Message) :
    toolUseIds (m :: l) = toolUseIds l := by
  simp [toolUseIds, h]

theorem toolUseIds_cons_of_eq (h : m.role = .assistant) (l : List Message) :
    toolUseIds (m :: l) = m.callIds ++ toolUseIds l := by
  simp [toolUseIds, h]

theorem toolUseIds_eq_nil (h : ∀ m ∈ l, m.role ≠ .assistant) : toolUseIds l = [] := by
  induction l with
  | nil => rfl
  | cons m l ih =>
    rw [toolUseIds_cons_of_ne (h m (.head _))]
    exact ih fun b hb => h b (.tail _ hb)

theorem callIds_subset_toolUseIds (ha : a ∈ l)
    (hrole : a.role = .assistant) : a.callIds ⊆ toolUseIds l := by
  intro id hid
  simp only [toolUseIds, mem_flatMap, List.mem_filter, beq_iff_eq]
  exact ⟨a, ⟨ha, hrole⟩, hid⟩

/-- Calls are in front of the same calls when a message is put in front. -/
theorem toolUseIds_cons_congr (m : Message)
    (h : toolUseIds l₁ = toolUseIds l₂) : toolUseIds (m :: l₁) = toolUseIds (m :: l₂) := by
  rw [← singleton_append, toolUseIds_append, h, ← toolUseIds_append, singleton_append]

theorem Closes.toolUseIds_eq (h : Closes l out) : toolUseIds out = toolUseIds l := by
  induction h with
  | nil => rfl
  | single _ _ ih => exact toolUseIds_cons_congr _ ih
  | @exchange a results l out _ hres _ ih =>
    apply toolUseIds_cons_congr
    rw [toolUseIds_append, toolUseIds_eq_nil, nil_append, ih]
    intro r hr
    simp [(hres.mem r hr).1]

theorem toolUseIds_looseFrom (k : Waiting) (l : List Message) :
    toolUseIds (looseFrom k l) = toolUseIds l := by
  induction l generalizing k with
  | nil => rfl
  | cons m l ih =>
    cases h : k.answeredBy m with
    | none =>
      simp only [looseFrom, h]
      exact toolUseIds_cons_congr m (ih _)
    | some id =>
      have hrole : m.role ≠ .assistant := by
        intro hrole
        rw [Waiting.answeredBy_of_ne_tool (by simp [hrole])] at h
        cases h
      simp only [looseFrom, h]
      rw [toolUseIds_cons_of_ne hrole]
      exact ih _

theorem toolUseIds_mergeConsecutive :
    toolUseIds (mergeConsecutiveAssistantMessages l) = toolUseIds l := by
  refine LibAdjacent.mergeAdjacent_induct mergeAssistant?
    (motive := fun out => toolUseIds out = toolUseIds l) ?_ rfl
  intro pre p m q post hq h
  obtain ⟨hp, hm, hqrole, hqids⟩ := mergeAssistant?_eq_some hq
  rw [← h, toolUseIds_append, toolUseIds_append, toolUseIds_cons_of_eq hp,
    toolUseIds_cons_of_eq hm, toolUseIds_cons_of_eq hqrole, hqids, append_assoc]

end NoriCode
