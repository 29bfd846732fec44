/-
**What the ordinary projection keeps.**

Without options the projection repairs tool exchanges but throws nothing away: a result is moved
up to its call, a lost result is replaced by a synthetic one, and everything else stays in its
order.  Only the trailing exchange may stay open, because its calls may still be running; a forked
agent gets the projection with that exchange cut off.

The module embeds `useProjectedHistoryFrom` of `agent/context/index.ts` over the passes of
`NoriCode/Projector.lean`.

Main definitions:

* `AnsweredBehind` — every call but those of the trailing exchange is answered at once;
* `useProjectedHistoryFrom` — the history of a forked agent.

Main results:

* `repair_perm`, `repair_filter` — the repair keeps all messages, and the order
  of those that are no results;
* `project_ordinary` — **the ordinary projection answers, keeps and adds what it should**;
* `useProjectedHistoryFrom_answered` — **a forked agent starts without open calls**.
-/

import NoriCode.ModelRequest
import Mathlib.Data.List.Flatten

namespace NoriCode

open LibOrdSet List Option Message

/-! ### What the search leaves -/

/-- The search moves messages: what it takes and what it leaves are what there was. -/
theorem pullResults_perm (l : List Message) (j : ℕ) (consumed : List ℕ)
    (pending : OrdSet String) :
    (remaining j consumed l).Perm ((pullResults j consumed pending l).results ++
      remaining j (pullResults j consumed pending l).consumed l) := by
  fun_induction pullResults j consumed pending l with
  | case1 => exact .nil
  | case2 => exact .refl _
  | case3 j consumed pending _ l _ h₂ ih =>
    have hj := consumed_subset l (j + 1) consumed pending h₂
    simp only [remaining, h₂, hj, if_true]
    exact ih
  | case4 j consumed pending m l _ h₂ id _ r ih =>
    have hj := consumed_subset l (j + 1) (j :: consumed) (pending.erase id) (.head _)
    rw [remaining_cons_of_lt (Nat.lt_succ_self j)] at ih
    simp only [remaining, h₂, r, hj, if_true, if_false]
    exact ih.cons m
  | case5 j consumed pending m l _ h₂ _ ih =>
    simp only [remaining, h₂, notMem_pullResults h₂, if_false]
    exact (ih.cons m).trans perm_middle.symm

theorem pullResults_filter (l : List Message) (j : ℕ) (consumed : List ℕ)
    (pending : OrdSet String) :
    (remaining j (pullResults j consumed pending l).consumed l).filter (·.role != .tool) =
      (remaining j consumed l).filter (·.role != .tool) := by
  fun_induction pullResults j consumed pending l with
  | case1 | case2 => rfl
  | case3 j consumed pending _ l _ h₂ ih =>
    have hj := consumed_subset l (j + 1) consumed pending h₂
    simp only [remaining, h₂, hj, if_true]
    exact ih
  | case4 j consumed pending _ l _ h₂ id ha r ih =>
    have hj := consumed_subset l (j + 1) (j :: consumed) (pending.erase id) (.head _)
    rw [remaining_cons_of_lt (Nat.lt_succ_self j)] at ih
    simp only [remaining, h₂, r, hj, if_true, if_false]
    rw [ih, filter_cons_of_neg (by simp [(answers?_eq_some ha).1])]
  | case5 j consumed pending _ l _ h₂ _ ih =>
    simp only [remaining, h₂, notMem_pullResults h₂, if_false]
    rw [filter_cons, filter_cons, ih]

variable {consumed : List ℕ} {l : List Message}

/-- What is taken for an exchange, and the synthetic results, are results. -/
theorem pullResults_role {j : ℕ} {pending : OrdSet String}
    {r : Message} (h : r ∈ (pullResults j consumed pending l).results) : r.role = .tool :=
  ((pullResults_results l j consumed pending).1 r h).1

/-- A call stays pending only when nothing that could be taken answers it. -/
theorem pullResults_pending (l : List Message) (j : ℕ) (consumed : List ℕ)
    (pending : OrdSet String) : ∀ id ∈ (pullResults j consumed pending l).pending,
    ∀ m ∈ remaining j consumed l, m.role = .tool → m.toolCallId ≠ some id := by
  intro id hid m hm hrole
  have hpending := (pullResults_results l j consumed pending).2.1 id hid
  fun_induction pullResults j consumed pending l with
  | case1 => cases hm
  | case2 _ _ _ _ _ h₁ => exact absurd hpending (OrdSet.isEmpty_iff.1 h₁ id)
  | case3 _ _ _ _ _ _ h₂ ih =>
    rw [remaining, if_pos h₂] at hm
    exact ih hid hm hpending
  | case4 j consumed pending _ l _ h₂ taken ha _ ih =>
    rw [remaining, if_neg h₂] at hm
    have hrest := (pullResults_results l (j + 1) (j :: consumed) (pending.erase taken)).2.1 id hid
    rcases mem_cons.1 hm with rfl | hm
    · rw [(answers?_eq_some ha).2.1]
      exact fun heq => (OrdSet.mem_erase.1 hrest).2 (some.inj heq).symm
    · exact ih hid ((remaining_cons_of_lt (Nat.lt_succ_self j) ..).symm ▸ hm) hrest
  | case5 _ _ _ _ _ _ h₂ ha ih =>
    rw [remaining, if_neg h₂] at hm
    rcases mem_cons.1 hm with rfl | hm
    · intro heq
      simp [answers?, hrole, heq, Option.filter, hpending] at ha
    · exact ih hid hm hpending

theorem pullResults_consumed (l : List Message) (j : ℕ) (consumed : List ℕ)
    (pending : OrdSet String) : ∀ p ∈ (pullResults j consumed pending l).consumed,
    p ∈ consumed ∨ ∃ k m id, p = j + k ∧ l[k]? = some m ∧ m.toolCallId = some id ∧
      id ∈ pending := by
  intro p hp
  have hshift {j : ℕ} {l : List Message} {pending pending' : OrdSet String} (x : Message)
      (hsub : ∀ id ∈ pending', id ∈ pending) :
      (∃ k m id, p = j + 1 + k ∧ l[k]? = some m ∧ m.toolCallId = some id ∧ id ∈ pending') →
      ∃ k m id, p = j + k ∧ (x :: l)[k]? = some m ∧ m.toolCallId = some id ∧ id ∈ pending := by
    rintro ⟨k, m, id, rfl, hk, hm, hid⟩
    exact ⟨k + 1, m, id, by omega, by simpa using hk, hm, hsub id hid⟩
  fun_induction pullResults j consumed pending l with
  | case1 | case2 => exact .inl hp
  | case3 _ _ _ x _ _ _ ih | case5 _ _ _ x _ _ _ _ ih =>
    exact (ih hp).imp_right (hshift x fun _ hid => hid)
  | case4 _ _ _ x _ _ _ taken ha _ ih =>
    rcases ih hp with hp | hp
    · rcases mem_cons.1 hp with rfl | hp
      · obtain ⟨-, hid, hmem⟩ := answers?_eq_some ha
        exact .inr ⟨0, x, taken, rfl, rfl, hid, hmem⟩
      · exact .inl hp
    · exact .inr (hshift x (fun _ hid => (OrdSet.mem_erase.1 hid).1) hp)

variable {i : ℕ} {m : Message}

theorem mem_remaining {k : ℕ}
    (hk : l[k]? = some m) (hfree : i + k ∉ consumed) : m ∈ remaining i consumed l := by
  induction l generalizing i k with
  | nil => cases hk
  | cons x l ih =>
    rw [remaining]
    cases k with
    | zero =>
      cases hk
      rw [Nat.add_zero] at hfree
      rw [if_neg hfree]
      exact (.head _)
    | succ k =>
      have hrest : m ∈ remaining (i + 1) consumed l :=
        ih (by simpa using hk) (by rwa [Nat.add_right_comm, Nat.add_assoc])
      split_ifs
      · exact hrest
      · exact .tail _ hrest

/-! ### What the repair keeps -/

variable {synthesize : Bool} {e : ℕ}

theorem repairFrom_cons_of_mem (h : i ∈ consumed) (m : Message) (l : List Message) :
    repairFrom synthesize e i consumed (m :: l) = repairFrom synthesize e (i + 1) consumed l := by
  rw [repairFrom, if_pos h]

theorem repairFrom_cons_single
    (h : i ∉ consumed) (hm : m.opensExchange = false) (l : List Message) :
    repairFrom synthesize e i consumed (m :: l) =
      m :: repairFrom synthesize e (i + 1) consumed l := by
  have hclosed : m.role ≠ .assistant ∨ m.toolCalls.length = 0 := by
    by_contra hopen
    rw [not_or, not_not] at hopen
    have hcalls : m.toolCalls ≠ [] := fun hnil => hopen.2 (by rw [hnil]; rfl)
    simp [opensExchange, hopen.1, hcalls] at hm
  rw [repairFrom, if_neg h, if_pos hclosed]

/-- The synthetic results of an exchange at position `i`. -/
def syntheticResults (synthesize : Bool) (e i : ℕ) (pending : OrdSet String) : List Message :=
  if synthesize || decide (i < e) then pending.toList.map makeSyntheticToolResult else []

theorem repairFrom_cons_exchange
    (h : i ∉ consumed) (hm : m.opensExchange = true) (l : List Message) :
    repairFrom synthesize e i consumed (m :: l) =
      m :: ((pullResults (i + 1) consumed (.ofList m.callIds) l).results ++
        syntheticResults synthesize e i
          (pullResults (i + 1) consumed (.ofList m.callIds) l).pending ++
        repairFrom synthesize e (i + 1)
          (pullResults (i + 1) consumed (.ofList m.callIds) l).consumed l) := by
  have hopen : ¬ (m.role ≠ .assistant ∨ m.toolCalls.length = 0) := by
    simp only [opensExchange, Bool.and_eq_true, beq_iff_eq, Bool.not_eq_true',
      isEmpty_eq_false_iff] at hm
    rintro (hrole | hcalls)
    · exact hrole hm.1
    · exact hm.2 (length_eq_zero_iff.1 hcalls)
  rw [repairFrom, if_neg h, if_neg hopen]
  rfl

theorem syntheticResults_eq (synthesize : Bool) (e i : ℕ) (pending : OrdSet String) :
    ∃ ids : List String, (∀ id ∈ ids, id ∈ pending) ∧
      syntheticResults synthesize e i pending = ids.map makeSyntheticToolResult := by
  unfold syntheticResults
  split_ifs
  · exact ⟨pending.toList, fun id hid => hid, rfl⟩
  · exact ⟨[], fun id hid => (by cases hid), rfl⟩

/-- What is consumed answers no call that is still to come. -/
def Unclaimed (i : ℕ) (consumed : List ℕ) (l : List Message) : Prop :=
  ∀ (k : ℕ) (m : Message) (id : String), l[k]? = some m → i + k ∈ consumed →
    m.toolCallId = some id → id ∉ toolUseIds l

/-- An id that is called and has no result behind the call. -/
def Lost (l : List Message) (id : String) : Prop :=
  ∃ pre a post, l = pre ++ a :: post ∧ a.role = .assistant ∧ id ∈ a.callIds ∧
    ∀ m ∈ post, m.role = .tool → m.toolCallId ≠ some id

theorem toolUseIds_sublist_cons (m : Message) (l : List Message) :
    (toolUseIds l).Sublist (toolUseIds (m :: l)) := by
  rw [← singleton_append, toolUseIds_append]
  exact sublist_append_right _ _

theorem Unclaimed.tail (h : Unclaimed i consumed (m :: l)) : Unclaimed (i + 1) consumed l := by
  intro k x id hk htook hx hmem
  refine h (k + 1) x id (by simpa using hk) (by rwa [← Nat.add_assoc, Nat.add_right_comm]) hx ?_
  exact (toolUseIds_sublist_cons m l).mem hmem

theorem Lost.cons {id : String} (h : Lost l id) (m : Message) : Lost (m :: l) id := by
  obtain ⟨pre, a, post, rfl, hrest⟩ := h
  exact ⟨m :: pre, a, post, rfl, hrest⟩

/-- **Nothing is lost**: a repaired history is a permutation of the history and of synthetic
results. -/
theorem repairFrom_perm (synthesize : Bool) (e : ℕ) (l : List Message) :
    ∀ (i : ℕ) (consumed : List ℕ), ∃ ids : List String,
      (repairFrom synthesize e i consumed l).Perm
        (remaining i consumed l ++ ids.map makeSyntheticToolResult) ∧
      ((toolUseIds l).Nodup → Unclaimed i consumed l → ∀ id ∈ ids, Lost l id) := by
  induction l with
  | nil =>
    intro i consumed
    exact ⟨[], .nil, fun _ _ id hid => (by cases hid)⟩
  | cons m l ih =>
    intro i consumed
    have htail : ∀ {consumed' : List ℕ} {ids : List String},
        ((toolUseIds l).Nodup → Unclaimed (i + 1) consumed' l → ∀ id ∈ ids, Lost l id) →
        ((toolUseIds (m :: l)).Nodup → Unclaimed i consumed (m :: l) →
          Unclaimed (i + 1) consumed' l) →
        (toolUseIds (m :: l)).Nodup → Unclaimed i consumed (m :: l) →
          ∀ id ∈ ids, Lost (m :: l) id := by
      intro consumed' ids hids hnext hnodup hfree id hid
      exact (hids (hnodup.sublist (toolUseIds_sublist_cons m l)) (hnext hnodup hfree) id hid).cons m
    by_cases hi : i ∈ consumed
    · obtain ⟨ids, hperm, hlost⟩ := ih (i + 1) consumed
      refine ⟨ids, ?_, htail hlost fun _ hfree => hfree.tail⟩
      rw [repairFrom_cons_of_mem hi, remaining, if_pos hi]
      exact hperm
    rw [remaining, if_neg hi]
    cases hm : m.opensExchange with
    | false =>
      obtain ⟨ids, hperm, hlost⟩ := ih (i + 1) consumed
      refine ⟨ids, ?_, htail hlost fun _ hfree => hfree.tail⟩
      rw [repairFrom_cons_single hi hm]
      exact hperm.cons m
    | true =>
      rw [repairFrom_cons_exchange hi hm]
      have hmoved := pullResults_perm l (i + 1) consumed (.ofList m.callIds)
      have hpending := pullResults_pending l (i + 1) consumed (.ofList m.callIds)
      have htaken := pullResults_consumed l (i + 1) consumed (.ofList m.callIds)
      have hcalled := (pullResults_results l (i + 1) consumed (.ofList m.callIds)).2.1
      generalize pullResults (i + 1) consumed (.ofList m.callIds) l = r at *
      obtain ⟨synth, hsub, hsynth⟩ := syntheticResults_eq synthesize e i r.pending
      obtain ⟨ids, hperm, hlost⟩ := ih (i + 1) r.consumed
      refine ⟨ids ++ synth, ?_, fun hnodup hfree id hid => ?_⟩
      · rw [hsynth, map_append, cons_append]
        refine .cons m ((hperm.append_left _).trans (.trans ?_ (hmoved.symm.append_right _)))
        -- the synthetic results of this exchange go behind everything else
        rw [append_assoc, append_assoc]
        refine List.Perm.append_left _ (perm_append_comm.trans ?_)
        rw [append_assoc]
      have hrole := role_of_opensExchange hm
      rcases mem_append.1 hid with hid | hid
      · refine htail hlost (fun hnodup hfree => ?_) hnodup hfree id hid
        rw [toolUseIds_cons_of_eq hrole] at hnodup
        intro k x y hk htook hx
        rcases htaken _ htook with hold | ⟨k', x', y', heq, hk', hx', hy'⟩
        · exact hfree.tail k x y hk hold hx
        · obtain rfl : k = k' := by omega
          cases hk.symm.trans hk'
          cases hx.symm.trans hx'
          exact disjoint_of_nodup_append hnodup (OrdSet.mem_ofList.1 hy')
      · have hmem : id ∈ m.callIds := OrdSet.mem_ofList.1 (hcalled id (hsub id hid))
        refine ⟨[], m, l, rfl, hrole, hmem, fun x hx htool hxid => ?_⟩
        obtain ⟨k, hk⟩ := mem_iff_getElem?.1 hx
        by_cases hold : i + 1 + k ∈ consumed
        · -- it was taken for another exchange, which called the same id
          refine hfree (k + 1) x id (by simpa using hk) (by rwa [← Nat.add_assoc,
            Nat.add_right_comm]) hxid ?_
          rw [toolUseIds_cons_of_eq hrole]
          exact mem_append_left _ hmem
        · exact hpending id (hsub id hid) x (mem_remaining hk hold) htool hxid

/-- **Order is kept**: the messages that are no results stand as they stood. -/
theorem repairFrom_filter (synthesize : Bool) (e : ℕ) (l : List Message) :
    ∀ (i : ℕ) (consumed : List ℕ),
      (repairFrom synthesize e i consumed l).filter (·.role != .tool) =
        (remaining i consumed l).filter (·.role != .tool) := by
  induction l with
  | nil => intro i consumed; rfl
  | cons m l ih =>
    intro i consumed
    by_cases hi : i ∈ consumed
    · rw [repairFrom_cons_of_mem hi, remaining, if_pos hi]
      exact ih (i + 1) consumed
    rw [remaining, if_neg hi]
    cases hm : m.opensExchange with
    | false =>
      rw [repairFrom_cons_single hi hm, filter_cons, filter_cons, ih (i + 1) consumed]
    | true =>
      have hkept := pullResults_filter l (i + 1) consumed (.ofList m.callIds)
      have hrole : ∀ x ∈ (pullResults (i + 1) consumed (.ofList m.callIds) l).results,
          x.role = .tool := fun x hx => pullResults_role hx
      rw [repairFrom_cons_exchange hi hm]
      generalize pullResults (i + 1) consumed (.ofList m.callIds) l = r at hkept hrole ⊢
      have hresults : (r.results ++ syntheticResults synthesize e i r.pending).filter
          (·.role != .tool) = [] := by
        rw [filter_eq_nil_iff]
        intro x hx
        rcases mem_append.1 hx with hx | hx
        · simp [hrole x hx]
        · obtain ⟨synth, -, hsynth⟩ := syntheticResults_eq synthesize e i r.pending
          rw [hsynth] at hx
          obtain ⟨id, -, rfl⟩ := mem_map.1 hx
          simp [makeSyntheticToolResult]
      rw [filter_cons, filter_cons, filter_append, hresults,
        nil_append, ih (i + 1) r.consumed, hkept]

theorem repair_perm (l : List Message) (options : ProjectOptions) :
    ∃ ids : List String, (repairToolExchangeAdjacency l options).Perm
      (l ++ ids.map makeSyntheticToolResult) ∧
      ((toolUseIds l).Nodup → ∀ id ∈ ids, Lost l id) := by
  obtain ⟨ids, hperm, hlost⟩ :=
    repairFrom_perm options.synthesizeMissing (lastNonToolIndex l) l 0 []
  rw [remaining_nil] at hperm
  exact ⟨ids, hperm, fun hnodup => hlost hnodup fun k m id _ htook => (by cases htook)⟩

theorem repair_filter (l : List Message) (options : ProjectOptions) :
    (repairToolExchangeAdjacency l options).filter (·.role != .tool) =
      l.filter (·.role != .tool) := by
  have h := repairFrom_filter options.synthesizeMissing (lastNonToolIndex l) l 0 []
  rw [remaining_nil] at h
  exact h

/-! ### What the repair answers -/

theorem remaining_sublist (i : ℕ) (consumed : List ℕ) (l : List Message) :
    (remaining i consumed l).Sublist l := by
  induction l generalizing i with
  | nil => exact .refl _
  | cons m l ih =>
    rw [remaining]
    split_ifs
    · exact (ih (i + 1)).cons m
    · exact (ih (i + 1)).cons_cons m

theorem mem_of_mem_repairFrom (h : m ∈ repairFrom synthesize e i consumed l)
    (hm : m.role ≠ .tool) : m ∈ l := by
  have hfilter : m ∈ (repairFrom synthesize e i consumed l).filter (·.role != .tool) :=
    mem_filter.2 ⟨h, by simpa using hm⟩
  rw [repairFrom_filter] at hfilter
  exact (remaining_sublist i consumed l).mem (mem_of_mem_filter hfilter)

/-- Every call that another message than a result comes after is answered in the messages right
behind it: one result for each of its ids, and nothing else. -/
def AnsweredBehind (out : List Message) : Prop :=
  ∀ pre a post, out = pre ++ a :: post → a.opensExchange = true → (∃ m ∈ post, m.role ≠ .tool) →
    ∃ results rest, post = results ++ rest ∧ AnswersAll a results

variable {out : List Message}

theorem AnsweredBehind.cons (hm : m.opensExchange = false)
    (h : AnsweredBehind out) : AnsweredBehind (m :: out) := by
  intro pre a post hout ha hlater
  cases pre with
  | nil =>
    obtain ⟨rfl, -⟩ := cons_eq_cons.1 hout
    rw [hm] at ha
    cases ha
  | cons b pre =>
    obtain ⟨rfl, hpost⟩ := cons_eq_cons.1 hout
    exact h pre a post hpost ha hlater

/-- An exchange in front: either it is answered, or nothing but results follows. -/
theorem AnsweredBehind.exchange {results : List Message} (hresults : ∀ r ∈ results, r.role = .tool)
    (hm : AnswersAll m results ∨ ∀ x ∈ out, x.role = .tool) (h : AnsweredBehind out) :
    AnsweredBehind (m :: (results ++ out)) := by
  intro pre a post hout ha hlater
  cases pre with
  | nil =>
    obtain ⟨rfl, rfl⟩ := cons_eq_cons.1 hout
    rcases hm with hm | hm
    · exact ⟨results, out, rfl, hm⟩
    · obtain ⟨x, hx, hrole⟩ := hlater
      rcases mem_append.1 hx with hx | hx
      · exact absurd (hresults x hx) hrole
      · exact absurd (hm x hx) hrole
  | cons b pre =>
    obtain ⟨rfl, hpost⟩ := cons_eq_cons.1 hout
    rcases append_eq_append_cons hpost with ⟨c, rfl, -⟩ | ⟨c, rfl, hc⟩
    · -- what opens an exchange is not among the results
      have htool := hresults a (by simp)
      rw [role_of_opensExchange ha] at htool
      cases htool
    · exact h c a post hc ha hlater

/-- **The repair answers every call that cannot be running**, when no message behind position `e`
is anything but a result. -/
theorem repairFrom_answeredBehind (synthesize : Bool) (e : ℕ) (l : List Message) :
    ∀ (i : ℕ) (consumed : List ℕ),
      (∀ (k : ℕ) (m : Message), l[k]? = some m → m.role ≠ .tool → i + k ≤ e) →
      AnsweredBehind (repairFrom synthesize e i consumed l) := by
  induction l with
  | nil =>
    intro i consumed _ pre a post hout
    cases pre <;> cases hout
  | cons m l ih =>
    intro i consumed he
    have hrest : ∀ (k : ℕ) (x : Message), l[k]? = some x → x.role ≠ .tool → i + 1 + k ≤ e := by
      intro k x hk hx
      have := he (k + 1) x (by simpa using hk) hx
      omega
    by_cases hi : i ∈ consumed
    · rw [repairFrom_cons_of_mem hi]
      exact ih (i + 1) consumed hrest
    cases hm : m.opensExchange with
    | false =>
      rw [repairFrom_cons_single hi hm]
      exact (ih (i + 1) consumed hrest).cons hm
    | true =>
      rw [repairFrom_cons_exchange hi hm]
      refine .exchange ?_ ?_ (ih (i + 1) _ hrest)
      · intro r hr
        rcases mem_append.1 hr with hr | hr
        · exact pullResults_role hr
        · obtain ⟨synth, -, hsynth⟩ := syntheticResults_eq synthesize e i
            (pullResults (i + 1) consumed (.ofList m.callIds) l).pending
          rw [hsynth] at hr
          obtain ⟨id, -, rfl⟩ := mem_map.1 hr
          rfl
      by_cases hlt : i < e
      · left
        have hclosed := answersAll_pullResults m (i + 1) consumed l
        rw [syntheticResults, decide_eq_true hlt, Bool.or_true, if_pos rfl]
        exact hclosed
      · right
        intro x hx
        by_contra hrole
        obtain ⟨k, hk⟩ := mem_iff_getElem?.1 (mem_of_mem_repairFrom hx hrole)
        have := hrest k x hk hrole
        omega

/-- No message behind the last one that is no result is anything but a result. -/
theorem le_lastNonToolIndex {k : ℕ} (hk : l[k]? = some m)
    (hm : m.role ≠ .tool) : k ≤ lastNonToolIndex l := by
  by_contra hlt
  have hsplit := rdropWhile_append_rtakeWhile (p := (·.role == .tool)) (l := l)
  have hbehind : (l.rdropWhile (·.role == .tool)).length ≤ k := by
    unfold lastNonToolIndex at hlt
    omega
  rw [← hsplit, getElem?_append_right hbehind] at hk
  have htool := mem_rtakeWhile_imp (mem_of_getElem? hk)
  exact hm (by simpa using htool)

theorem repair_answeredBehind (l : List Message) (options : ProjectOptions) :
    AnsweredBehind (repairToolExchangeAdjacency l options) := by
  refine repairFrom_answeredBehind _ _ l 0 [] fun k m hk hm => ?_
  rw [Nat.zero_add]
  exact le_lastNonToolIndex hk hm

/-! ### The ordinary projection -/

variable {history : List ContextMessage}

/-- Without options the projection is the repair of the merged survivors. -/
theorem project_ordinary_eq (h : project history {} = .ok out) :
    Sendable history ∧ out = repairToolExchangeAdjacency (mergedSurvivors history) {} := by
  by_cases hsend : Sendable history
  · refine ⟨hsend, ?_⟩
    have hproject : project history {} =
        .ok (repairToolExchangeAdjacency (mergedSurvivors history) {}) := by
      simp only [project, mergeAdjacentUserMessages_eq hsend]
      rfl
    exact Except.ok.inj (h.symm.trans hproject)
  · obtain ⟨e, he⟩ := project_error hsend {}
    rw [he] at h
    cases h

/-- Every id is called once, and no result stands before its call. -/
structure CallsOnce (history : List ContextMessage) : Prop where
  called : (toolUseIds (history.map stripContextMetadata)).Nodup
  behind : history.Pairwise fun t a => t.role = .tool → a.role = .assistant →
    ∀ call ∈ a.toolCalls, t.toolCallId ≠ some call.id

theorem toolUseIds_survivors_sublist (history : List ContextMessage) :
    (toolUseIds (survivors history)).Sublist (toolUseIds (history.map stripContextMetadata)) := by
  have hids : toolUseIds (survivors history) =
      toolUseIds ((history.filter survives).map stripContextMetadata) := by
    unfold survivors toolUseIds
    rw [List.map_map, List.filter_map, List.filter_map, List.flatMap_map, List.flatMap_map]
    rfl
  have hcalls : ∀ {l₁ l₂ : List Message}, l₁.Sublist l₂ → (toolUseIds l₁).Sublist (toolUseIds l₂) :=
    fun hsub => (hsub.filter _).flatMap _
  rw [hids]
  exact hcalls (List.filter_sublist.map _)

theorem mergedSurvivors_filter (history : List ContextMessage) :
    (mergedSurvivors history).filter (·.role != .user) =
      (survivors history).filter (·.role != .user) := by
  refine mergedSurvivors_congr (fun l => l.filter (·.role != .user)) ?_ history
  intro p m q hp hm hq pre post
  simp [filter_append, hp, hm, hq]

theorem results_mergedSurvivors (h : Sendable history) :
    (mergedSurvivors history).filter (·.role == .tool) =
      ((history.filter fun m => m.role == .tool && !m.isPartial).map withoutBlanks).map
        stripContextMetadata := by
  have hmerged : (mergedSurvivors history).filter (·.role == .tool) =
      (survivors history).filter (·.role == .tool) := by
    refine mergedSurvivors_congr (fun l => l.filter (·.role == .tool)) ?_ history
    intro p m q hp hm hq pre post
    simp [List.filter_append, hp, hm, hq]
  have hkeep : ∀ m ∈ history, (survives m && m.role == .tool) =
      (m.role == .tool && !m.isPartial) := by
    intro m hm
    by_cases hrole : m.role = .tool
    · cases hwhole : m.isPartial with
      | true => simp [survives, hwhole]
      | false => simp [survives, hwhole, hrole, h m hm hrole hwhole]
    · have hne : (m.role == .tool) = false := by simpa using hrole
      rw [hne, Bool.and_false, Bool.false_and]
  rw [hmerged, survivors, List.filter_map, List.filter_map, List.filter_filter]
  congr 2
  refine List.filter_congr fun m hm => ?_
  rw [← hkeep m hm, Bool.and_comm]
  rfl

/-- A call without a result behind it in the projection has none in the history. -/
theorem lost_of_callsOnce (hsend : Sendable history)
    (h : CallsOnce history) {id : String} (hlost : Lost (mergedSurvivors history) id) :
    ∀ t ∈ history, t.role = .tool → t.isPartial = false → t.toolCallId ≠ some id := by
  intro t ht hrole hwhole hid
  obtain ⟨pre, a, post, hsplit, ha, hcall, hnone⟩ := hlost
  have hmem : stripContextMetadata (withoutBlanks t) ∈ mergedSurvivors history := by
    have hresult : stripContextMetadata (withoutBlanks t) ∈
        (mergedSurvivors history).filter (·.role == .tool) := by
      rw [results_mergedSurvivors hsend]
      exact mem_map_of_mem (mem_map_of_mem (mem_filter.2 ⟨ht, by rw [hrole, hwhole]; rfl⟩))
    exact mem_of_mem_filter hresult
  -- the order of results and calls is the order of the history
  have horder : ((mergedSurvivors history).filter (·.role != .user)).Pairwise
      fun t a => t.role = .tool → a.role = .assistant →
        ∀ call ∈ a.toolCalls, t.toolCallId ≠ some call.id := by
    rw [mergedSurvivors_filter]
    refine List.Pairwise.filter _ ?_
    rw [survivors, pairwise_map, pairwise_map]
    exact h.behind.filter survives
  rw [hsplit] at hmem horder
  have hapart : (stripContextMetadata (withoutBlanks t)).role ≠ .assistant := by
    change t.role ≠ .assistant
    rw [hrole]
    decide
  rcases mem_append.1 hmem with hmem | hmem
  · rw [filter_append, pairwise_append] at horder
    obtain ⟨c, hc, rfl⟩ := mem_map.1 hcall
    refine horder.2.2 _ (mem_filter.2 ⟨hmem, ?_⟩) a (mem_filter.2
      ⟨(.head _), by rw [ha]; rfl⟩) hrole ha c hc hid
    change (t.role != .user) = true
    rw [hrole]
    rfl
  · rcases mem_cons.1 hmem with heq | hmem
    · rw [heq] at hapart
      exact hapart ha
    · exact hnone _ hmem hrole hid

/-- **What the ordinary projection does.**  When every id is called once and no result stands
before its call, every call outside the trailing exchange is answered right behind its message,
all messages that are no results keep their order, with adjacent prompts merged, every recorded
result is there once, and what is added are synthetic results of calls without a recorded one.
Partial messages and messages with nothing to send are no part of a request. -/
theorem project_ordinary {history : List ContextMessage} {out : List Message}
    (h : project history {} = .ok out) (hcalls : CallsOnce history) :
    AnsweredBehind out ∧
      (∃ kept, LibAdjacent.Grouped mergeUser? ((history.filter survives).map withoutBlanks) kept ∧
        out.filter (·.role != .tool) = (kept.map stripContextMetadata).filter (·.role != .tool)) ∧
      ∃ ids : List String,
        (out.filter (·.role == .tool)).Perm
          (((history.filter fun m => m.role == .tool && !m.isPartial).map withoutBlanks).map
            stripContextMetadata ++ ids.map makeSyntheticToolResult) ∧
        ∀ id ∈ ids, ∀ t ∈ history, t.role = .tool → t.isPartial = false →
          t.toolCallId ≠ some id := by
  obtain ⟨hsend, rfl⟩ := project_ordinary_eq h
  refine ⟨repair_answeredBehind _ _, ⟨_, LibAdjacent.mergeAdjacent_grouped _, ?_⟩, ?_⟩
  · exact repair_filter _ _
  · obtain ⟨ids, hperm, hlost⟩ := repair_perm (mergedSurvivors history) {}
    have hnodup : (toolUseIds (mergedSurvivors history)).Nodup := by
      rw [toolUseIds_mergedSurvivors]
      exact hcalls.called.sublist (toolUseIds_survivors_sublist history)
    refine ⟨ids, ?_, fun id hid => lost_of_callsOnce hsend hcalls (hlost hnodup id hid)⟩
    have htools := hperm.filter (·.role == .tool)
    rw [filter_append, results_mergedSurvivors hsend] at htools
    have hsynth : (ids.map makeSyntheticToolResult).filter (·.role == .tool) =
        ids.map makeSyntheticToolResult := by
      rw [filter_eq_self]
      intro m hm
      obtain ⟨id, -, rfl⟩ := mem_map.1 hm
      rfl
    rwa [hsynth] at htools

/-- A late result behind a prompt, and a call whose result is lost. -/
def scatteredResults : List ContextMessage :=
  [promptMessage "go", assistantMessage "reading" ["a", "b"], promptMessage "and",
    resultMessage "a", assistantMessage "done" []]

theorem project_ordinary_scattered : ∃ out, project scatteredResults {} = .ok out ∧
    AnsweredBehind out := by
  have hcalls : CallsOnce scatteredResults := by
    constructor <;> decide
  have hproject : project scatteredResults {} =
      .ok (repairToolExchangeAdjacency (scatteredResults.map stripContextMetadata) {}) := by
    decide +kernel
  exact ⟨_, hproject, (project_ordinary hproject hcalls).1⟩

/-! ### Cutting the trailing exchange off -/

variable {a : Message}

theorem AnswersAll.exists_result {results : List Message} (h : AnswersAll a results)
    {call : ToolCall} (hcall : call ∈ a.toolCalls) :
    ∃ t ∈ results, t.role = .tool ∧ t.toolCallId = some call.id := by
  have hone := h.count call.id (mem_map_of_mem hcall)
  have hpos : 0 < results.countP (·.toolCallId = some call.id) := by omega
  obtain ⟨t, ht, hid⟩ := countP_pos_iff.1 hpos
  exact ⟨t, ht, (h.mem t ht).1, by simpa using hid⟩

variable {d : Message}

/-- Where a call stands in a list by its last message that is no result. -/
theorem call_before_or_last {body tools pre post : List Message}
    (htools : ∀ t ∈ tools, t.role = .tool) (ha : a.role = .assistant)
    (h : body ++ d :: tools = pre ++ a :: post) :
    (∃ c, body = pre ++ a :: c ∧ post = c ++ d :: tools) ∨ (d = a ∧ tools = post) := by
  rcases append_eq_append_cons h with ⟨c, hbody, hpost⟩ | ⟨c, -, hc⟩
  · exact .inl ⟨c, hbody, hpost⟩
  · cases c with
    | nil =>
      obtain ⟨hd, hpost⟩ := cons_eq_cons.1 hc
      exact .inr ⟨hd, hpost⟩
    | cons x c =>
      obtain ⟨-, hpost⟩ := cons_eq_cons.1 hc
      have htool := htools a (by simp [hpost])
      rw [ha] at htool
      cases htool

/-- In a history whose earlier calls are answered, only those of the last message may be open. -/
theorem AnsweredBehind.before_last {body tools : List Message}
    (h : AnsweredBehind (body ++ d :: tools)) (hd : d.role ≠ .tool) {pre post : List Message}
    (hbody : body = pre ++ a :: post) (ha : a.role = .assistant) {call : ToolCall}
    (hcall : call ∈ a.toolCalls) : ∃ t ∈ post, t.role = .tool ∧ t.toolCallId = some call.id := by
  have hids : a.callIds ≠ [] := ne_nil_of_mem (mem_map_of_mem hcall)
  obtain ⟨results, rest, hsplit, hall⟩ := h pre a (post ++ d :: tools) (by simp [hbody])
    ((opensExchange_iff ha).2 hids) ⟨d, by simp, hd⟩
  obtain ⟨t, ht, hresult⟩ := hall.exists_result hcall
  rcases append_eq_append_cons hsplit.symm with ⟨c, rfl, -⟩ | ⟨c, rfl, -⟩
  · exact absurd (hall.mem d (by simp)).1 hd
  · exact ⟨t, mem_append_left _ ht, hresult⟩

theorem exists_last_of_getLast? (h : (out.rdropWhile (·.role == .tool)).getLast? = some d) :
    out.rdropWhile (·.role == .tool) = (out.rdropWhile (·.role == .tool)).dropLast ++ [d] ∧
      out = (out.rdropWhile (·.role == .tool)).dropLast ++ d :: out.rtakeWhile (·.role == .tool) ∧
      d.role ≠ .tool := by
  have hne : out.rdropWhile (·.role == .tool) ≠ [] := by
    intro hnil
    rw [hnil] at h
    cases h
  have hlast : (out.rdropWhile (·.role == .tool)).getLast hne = d :=
    some.inj ((getLast?_eq_some_getLast hne).symm.trans h)
  have hbody := dropLast_append_getLast hne
  rw [hlast] at hbody
  have hsplit := rdropWhile_append_rtakeWhile (p := (·.role == .tool)) (l := out)
  have hrole := rdropWhile_last_not (·.role == .tool) out hne
  rw [hlast] at hrole
  refine ⟨hbody.symm, ?_, by simpa using hrole⟩
  calc out = out.rdropWhile (·.role == .tool) ++ out.rtakeWhile (·.role == .tool) := hsplit.symm
    _ = ((out.rdropWhile (·.role == .tool)).dropLast ++ [d]) ++
        out.rtakeWhile (·.role == .tool) := by rw [hbody]
    _ = _ := by rw [append_assoc, singleton_append]

theorem trim_isPrefix (out : List Message) : trimTrailingOpenToolExchange out <+: out := by
  unfold trimTrailingOpenToolExchange
  split
  · exact nil_prefix
  · simp only
    split_ifs
    · exact prefix_refl _
    · exact prefix_refl _
    · exact (List.dropLast_prefix _).trans (List.rdropWhile_prefix _ _)

/-- Every call is answered by a result behind it. -/
def NoOpenCalls (out : List Message) : Prop :=
  ∀ pre a post, out = pre ++ a :: post → a.role = .assistant → ∀ call ∈ a.toolCalls,
    ∃ t ∈ post, t.role = .tool ∧ t.toolCallId = some call.id

theorem AnsweredBehind.trim (h : AnsweredBehind out) :
    NoOpenCalls (trimTrailingOpenToolExchange out) := by
  intro pre a post hout ha call hcall
  have htools : ∀ t ∈ out.rtakeWhile (·.role == .tool), t.role = .tool := by
    intro t ht
    simpa using mem_rtakeWhile_imp ht
  unfold trimTrailingOpenToolExchange at hout
  cases hlast : (out.rdropWhile (·.role == .tool)).getLast? with
  | none =>
    rw [hlast] at hout
    exact absurd hout (by simp)
  | some d =>
    rw [hlast] at hout
    obtain ⟨-, hsplit, hd⟩ := exists_last_of_getLast? hlast
    rw [hsplit] at h
    -- the case that the history is kept: only calls of its last message are in question
    have hwhole : (d = a → ∃ t ∈ out.rtakeWhile (·.role == .tool),
        t.toolCallId = some call.id) → out = pre ++ a :: post →
        ∃ t ∈ post, t.role = .tool ∧ t.toolCallId = some call.id := by
      intro hclosed hpost
      rw [hsplit] at hpost
      rcases call_before_or_last htools ha hpost with ⟨c, hbody, rfl⟩ | ⟨hda, rfl⟩
      · obtain ⟨t, ht, hresult⟩ := h.before_last hd hbody ha hcall
        exact ⟨t, mem_append_left _ ht, hresult⟩
      · obtain ⟨t, ht, hid⟩ := hclosed hda
        exact ⟨t, ht, htools t ht, hid⟩
    simp only at hout
    split_ifs at hout with hplain hclosed
    · refine hwhole (fun hda => ?_) hout
      subst hda
      rcases hplain with hrole | hcalls
      · exact absurd ha hrole
      · rw [length_eq_zero_iff.1 hcalls] at hcall
        cases hcall
    · refine hwhole (fun hda => ?_) hout
      subst hda
      have hin := all_eq_true.1 hclosed call.id (mem_map_of_mem hcall)
      obtain ⟨t, ht, hid⟩ := mem_filterMap.1 (contains_iff_mem.1 hin)
      exact ⟨t, ht, hid⟩
    · exact h.before_last hd hout ha hcall

/-! ### The history of a forked agent -/

/-- A message without an origin. -/
def Message.unattributed (m : Message) : ContextMessage := { m with }

/-- `useProjectedHistoryFrom`: the child is cleared first, also when the projection fails. -/
def useProjectedHistoryFrom (micro : MicroCompaction) (child source : ContextMemory) :
    ContextMemory × Except ProjectionError Unit :=
  match project (micro.compact source.messages) {} with
  | .error e => (child.cleared, .error e)
  | .ok projected =>
    (child.cleared.pushHistory
      ((trimTrailingOpenToolExchange projected).map unattributed), .ok ())

/-- **A forked agent starts without open calls.**  It receives the front of the projection of its
source, and every call in what it receives is answered by a result behind it. -/
theorem useProjectedHistoryFrom_answered (micro : MicroCompaction)
    (child source : ContextMemory) {forked : ContextMemory}
    (h : useProjectedHistoryFrom micro child source = (forked, .ok ())) :
    ∃ projected, project (micro.compact source.messages) {} = .ok projected ∧
      forked.messages.map stripContextMetadata = trimTrailingOpenToolExchange projected ∧
      trimTrailingOpenToolExchange projected <+: projected ∧
      NoOpenCalls (trimTrailingOpenToolExchange projected) := by
  unfold useProjectedHistoryFrom at h
  cases hproject : project (micro.compact source.messages) {} with
  | error e =>
    rw [hproject] at h
    cases (Prod.ext_iff.1 h).2
  | ok projected =>
    rw [hproject] at h
    obtain ⟨-, hprojected⟩ := project_ordinary_eq hproject
    have hforked := (Prod.ext_iff.1 h).1
    refine ⟨projected, rfl, ?_, trim_isPrefix projected, ?_⟩
    · simp only at hforked
      rw [← hforked, ContextMemory.messages_pushHistory]
      have hempty : child.cleared.messages = [] := rfl
      rw [hempty, List.nil_append, List.map_map]
      exact List.map_id _
    · rw [hprojected]
      exact (repair_answeredBehind _ _).trim

/-- An agent that has just called two tools, one of which has answered, forks. -/
def forkingAgent : ContextMemory :=
  ({} : ContextMemory).pushHistory
    [promptMessage "go", assistantMessage "reading" ["a", "b"], resultMessage "a"]

theorem useProjectedHistoryFrom_answered_fork : ∃ forked projected,
    useProjectedHistoryFrom ⟨true, 2, {}⟩ {} forkingAgent = (forked, .ok ()) ∧
      forked.messages.map stripContextMetadata = trimTrailingOpenToolExchange projected ∧
      NoOpenCalls (trimTrailingOpenToolExchange projected) := by
  have hfork : useProjectedHistoryFrom ⟨true, 2, {}⟩ {} forkingAgent =
      ((useProjectedHistoryFrom ⟨true, 2, {}⟩ {} forkingAgent).1, .ok ()) := by
    have hok : (useProjectedHistoryFrom ⟨true, 2, {}⟩ {} forkingAgent).2 = .ok () := by
      decide +kernel
    rw [← hok]
  obtain ⟨projected, -, hmessages, -, hanswered⟩ := useProjectedHistoryFrom_answered _ _ _ hfork
  exact ⟨_, projected, hfork, hmessages, hanswered⟩

end NoriCode
