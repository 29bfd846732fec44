/-
**When the results of repeated calls are right.**

Without repeated ids the finalization keeps this: the entries of the calls that are still to come
are the ones they were prepared with, and what has been finalized for a key is the result that has
been resolved for it.  With a repeated id the later call finds no entry, so it is neither counted
nor replaced.

Main definitions:

* `ToolCallDeduplicator.Registered` — the entries when the calls have been prepared;
* `ToolCallDeduplicator.Finalizing` — the finalization on its way.

Main results:

* `ToolCallDeduplicator.projectStreak_eq` — a finalization counts as `endStep` does;
* `dedup_right_iff` — **the results are right exactly when no prepared call repeats an
  id**.
-/

import NoriCode.ToolDedup

namespace NoriCode

open List Option Function

/-! ### Preparing -/

namespace ToolCallDeduplicator

variable {Args : Type} {canonicalTelemetryArgs : Args → String}

section

variable (d : ToolCallDeduplicator) (calls : List (StepCall Args))

theorem prepareAll_append_singleton (c : StepCall Args) :
    d.prepareAll canonicalTelemetryArgs (calls ++ [c]) =
      ((d.prepareAll canonicalTelemetryArgs calls).prepare canonicalTelemetryArgs c).1 := by
  simp [prepareAll]

/-- A result is deferred for every key that has been prepared, whatever the ids. -/
theorem stepDeferreds_prepareAll (k : String) :
    (d.beginStep.prepareAll canonicalTelemetryArgs calls).stepDeferreds k =
      if ∃ c ∈ calls, c.prepared = true ∧ c.key canonicalTelemetryArgs = k then some none
      else none := by
  induction calls using reverseRecOn with
  | nil => simp [prepareAll, beginStep]
  | append_singleton calls c ih =>
    have hkey : makeKey canonicalTelemetryArgs c.name c.args = c.key canonicalTelemetryArgs := rfl
    rw [prepareAll_append_singleton]
    generalize d.beginStep.prepareAll canonicalTelemetryArgs calls = e at ih
    simp only [prepare, mem_append, mem_singleton, or_and_right, exists_or, exists_eq_left]
    split_ifs with hc hk hk
    · -- the call comes to the hook, and its key is the one that is asked for, or was before
      by_cases hsame : k = c.key canonicalTelemetryArgs
      · subst hsame
        cases hdeferred : e.stepDeferreds (c.key canonicalTelemetryArgs) with
        | none => simp [checkSameStep, hkey, hdeferred]
        | some deferred =>
          have hnone : deferred = none := by
            rw [hdeferred] at ih
            split_ifs at ih
            exact some.inj ih
          simp [checkSameStep, hkey, hdeferred, hnone]
      · have hbefore : ∃ b ∈ calls, b.prepared = true ∧ b.key canonicalTelemetryArgs = k :=
          hk.elim id fun h => absurd h.2.symm hsame
        rw [if_pos hbefore] at ih
        cases hdeferred : e.stepDeferreds (c.key canonicalTelemetryArgs) with
        | none => simp [checkSameStep, hkey, hdeferred, update_of_ne hsame, ih]
        | some deferred => simp [checkSameStep, hkey, hdeferred, ih]
    · have hsame : k ≠ c.key canonicalTelemetryArgs := fun h => hk (Or.inr ⟨hc, h.symm⟩)
      rw [if_neg fun h => hk (Or.inl h)] at ih
      cases hdeferred : e.stepDeferreds (c.key canonicalTelemetryArgs) with
      | none => simp [checkSameStep, hkey, hdeferred, update_of_ne hsame, ih]
      | some deferred => simp [checkSameStep, hkey, hdeferred, ih]
    · rw [ih, if_pos (hk.elim id fun h => absurd h.1 hc)]
    · rw [ih, if_neg fun h => hk (Or.inl h)]

theorem original_iff (c : StepCall Args) : c.Original canonicalTelemetryArgs calls ↔
      (d.beginStep.prepareAll canonicalTelemetryArgs calls).stepDeferreds
        (c.key canonicalTelemetryArgs) = none := by
  rw [stepDeferreds_prepareAll]
  split_ifs with hsome
  · obtain ⟨b, hb, hprepared, hkey⟩ := hsome
    exact ⟨fun horiginal => absurd hkey (horiginal b hb hprepared), fun hnone => by cases hnone⟩
  · exact ⟨fun _ => rfl, fun _ b hb hprepared hkey => hsome ⟨b, hb, hprepared, hkey⟩⟩

end

/-- **What is registered** when these calls have been prepared, and no id was repeated. -/
structure Registered (canonicalTelemetryArgs : Args → String) (d₀ d : ToolCallDeduplicator)
    (calls : List (StepCall Args)) : Prop where
  stepCalls : d.stepCalls = (calls.filter (·.prepared)).map (·.key canonicalTelemetryArgs)
  consecutiveKey : d.consecutiveKey = d₀.consecutiveKey
  consecutiveCount : d.consecutiveCount = d₀.consecutiveCount
  entries : ∀ before c after, calls = before ++ c :: after → c.prepared = true →
    d.callKeyByCallId c.id = some (c.key canonicalTelemetryArgs) ∧
      (d.syntheticCallIds c.id = false ↔ c.Original canonicalTelemetryArgs before) ∧
      (c.Original canonicalTelemetryArgs before →
        d.originalCallIndex c.id = some (before.filter (·.prepared)).length)
  noOther : ∀ id, (∀ c ∈ calls, c.prepared = true → c.id ≠ id) →
    d.callKeyByCallId id = none ∧ d.syntheticCallIds id = false

theorem split_snoc {α : Type} {l before after : List α} {a x : α}
    (h : l ++ [a] = before ++ x :: after) :
    (before = l ∧ x = a) ∨ ∃ rest, l = before ++ x :: rest := by
  rcases eq_nil_or_concat after with rfl | ⟨rest, last, rfl⟩
  · obtain ⟨hl, hx⟩ := append_inj' h rfl
    exact Or.inl ⟨hl.symm, (singleton_inj.1 hx).symm⟩
  · rw [concat_eq_append, ← cons_append, ← append_assoc] at h
    exact Or.inr ⟨rest, (append_inj' h rfl).1⟩

namespace Registered

variable {d₀ d : ToolCallDeduplicator} {calls : List (StepCall Args)} {c : StepCall Args}

theorem initial (d : ToolCallDeduplicator) :
    Registered canonicalTelemetryArgs d.beginStep d.beginStep [] where
  stepCalls := rfl
  consecutiveKey := rfl
  consecutiveCount := rfl
  entries before c after h := by simp at h
  noOther id _ := ⟨rfl, rfl⟩

theorem skip (h : Registered canonicalTelemetryArgs d₀ d calls) (hc : c.prepared = false) :
    Registered canonicalTelemetryArgs d₀ d (calls ++ [c]) where
  stepCalls := by simp [h.stepCalls, hc]
  consecutiveKey := h.consecutiveKey
  consecutiveCount := h.consecutiveCount
  entries before x after hsplit hx := by
    rcases split_snoc hsplit with ⟨-, rfl⟩ | ⟨rest, hrest⟩
    · rw [hc] at hx
      cases hx
    · exact h.entries before x rest hrest hx
  noOther id hid := h.noOther id fun b hb => hid b (mem_append_left _ hb)

/-- **A call is prepared.** -/
theorem checkSameStep (h : Registered canonicalTelemetryArgs d₀ d calls) (hc : c.prepared = true)
    (hfresh : ∀ b ∈ calls, b.id ≠ c.id)
    (horiginal : c.Original canonicalTelemetryArgs calls ↔
      d.stepDeferreds (c.key canonicalTelemetryArgs) = none) :
    Registered canonicalTelemetryArgs d₀
      (d.checkSameStep canonicalTelemetryArgs c.id c.name c.args).1 (calls ++ [c]) := by
  have hnew := h.noOther c.id fun b hb _ => hfresh b hb
  have hold : ∀ before x after, calls = before ++ x :: after → x.id ≠ c.id := by
    intro before x after hsplit
    exact hfresh x (by simp [hsplit])
  have hkey : makeKey canonicalTelemetryArgs c.name c.args = c.key canonicalTelemetryArgs := rfl
  simp only [ToolCallDeduplicator.checkSameStep, hkey]
  cases hdeferred : d.stepDeferreds (c.key canonicalTelemetryArgs) with
  | some deferred =>
    have hnot : ¬c.Original canonicalTelemetryArgs calls := by
      rw [horiginal, hdeferred]
      exact some_ne_none _
    refine ⟨?_, h.consecutiveKey, h.consecutiveCount, ?_, fun id hid => ?_⟩
    · simp [h.stepCalls, hc]
    · intro before x after hsplit hx
      rcases split_snoc hsplit with ⟨rfl, rfl⟩ | ⟨rest, hrest⟩
      · exact ⟨by simp, by simp [hnot], fun h => absurd h hnot⟩
      · have hne := hold before x rest hrest
        simpa [hne] using h.entries before x rest hrest hx
    · have hne : id ≠ c.id := fun heq => hid c (by simp) hc heq.symm
      simpa [hne] using h.noOther id fun b hb => hid b (mem_append_left _ hb)
  | none =>
    have hyes : c.Original canonicalTelemetryArgs calls := horiginal.2 hdeferred
    refine ⟨?_, h.consecutiveKey, h.consecutiveCount, ?_, fun id hid => ?_⟩
    · simp [h.stepCalls, hc]
    · intro before x after hsplit hx
      rcases split_snoc hsplit with ⟨rfl, rfl⟩ | ⟨rest, hrest⟩
      · simp [hyes, hnew.2, h.stepCalls]
      · have hne := hold before x rest hrest
        simpa [hne] using h.entries before x rest hrest hx
    · have hne : id ≠ c.id := fun heq => hid c (by simp) hc heq.symm
      simpa [hne] using h.noOther id fun b hb => hid b (mem_append_left _ hb)

/-- **Every call is prepared.** -/
theorem prepareAll (d : ToolCallDeduplicator) (hfresh : FreshIds calls) :
    Registered canonicalTelemetryArgs d.beginStep
      (d.beginStep.prepareAll canonicalTelemetryArgs calls) calls := by
  induction calls using reverseRecOn with
  | nil => exact initial d
  | append_singleton calls c ih =>
    obtain ⟨hcalls, -, hlast⟩ := pairwise_append.1 hfresh
    have hc : c.prepared = true → ∀ b ∈ calls, b.id ≠ c.id :=
      fun hc b hb => hlast b hb c (mem_singleton_self c) hc
    rw [prepareAll_append_singleton, ToolCallDeduplicator.prepare]
    split_ifs with hprepared
    · exact (ih hcalls).checkSameStep hprepared (hc hprepared) (original_iff d calls c)
    · exact (ih hcalls).skip (Bool.eq_false_iff.2 hprepared)

end Registered

/-! ### Streaks -/

/-- Both loops count in the same way. -/
def countKey (last : Option String × ℕ) (key : String) : Option String × ℕ :=
  if some key = last.1 then (last.1, last.2 + 1) else (some key, 1)

theorem foldl_countCall (d : ToolCallDeduplicator) (keys : List String) :
    ((keys.foldl countCall d).consecutiveKey, (keys.foldl countCall d).consecutiveCount) =
      keys.foldl countKey (d.consecutiveKey, d.consecutiveCount) := by
  induction keys generalizing d with
  | nil => rfl
  | cons key keys ih =>
    rw [foldl_cons, foldl_cons, ih (d.countCall key)]
    congr 1
    unfold countCall countKey
    split_ifs <;> rfl

theorem foldl_range_getD (keys : List String) (last : Option String × ℕ) (n : ℕ)
    (hn : n ≤ keys.length) :
    (List.range n).foldl (fun last i => countKey last (keys.getD i "")) last =
      (keys.take n).foldl countKey last := by
  induction n with
  | zero => rfl
  | succ n ih =>
    have hlt : n < keys.length := by omega
    have hget : keys.getD n "" = keys[n] := by simp [hlt]
    rw [range_succ, foldl_append, ih (by omega), take_add_one,
      foldl_append, foldl_cons, foldl_nil, hget]
    simp [hlt]

/-- **The streak that a finalization counts is the one that `endStep` counts.** -/
theorem projectStreak_eq (d : ToolCallDeduplicator) {index : ℕ}
    (h : index < d.stepCalls.length) :
    (d.projectStreak index).2 = d.streakAfter (index + 1) := by
  have hloops := foldl_countCall d (d.stepCalls.take (index + 1))
  have hproject : d.projectStreak index =
      (d.stepCalls.take (index + 1)).foldl countKey (d.consecutiveKey, d.consecutiveCount) :=
    foldl_range_getD d.stepCalls _ (index + 1) h
  rw [hproject, ← hloops]
  rfl

theorem streakAfter_congr {d e : ToolCallDeduplicator} (hcalls : d.stepCalls = e.stepCalls)
    (hkey : d.consecutiveKey = e.consecutiveKey)
    (hcount : d.consecutiveCount = e.consecutiveCount) (n : ℕ) :
    d.streakAfter n = e.streakAfter n := by
  have hd := congrArg Prod.snd (foldl_countCall d (d.stepCalls.take n))
  have he := congrArg Prod.snd (foldl_countCall e (e.stepCalls.take n))
  rw [hcalls, hkey, hcount, ← he] at hd
  rwa [streakAfter, hcalls]

/-! ### Finalizing -/

/-- **The finalization on its way**: `done` are the calls whose results have been finalized, to
`outs`, and `rest` are the others. -/
structure Finalizing (canonicalTelemetryArgs : Args → String) (full : ToolCallDeduplicator)
    (done : List (StepCall Args)) (outs : List (LoopToolResult × Option ℕ))
    (d : ToolCallDeduplicator) (rest : List (StepCall Args)) : Prop where
  length : outs.length = done.length
  stepCalls : d.stepCalls =
    ((done ++ rest).filter (·.prepared)).map (·.key canonicalTelemetryArgs)
  streak : ∀ n, d.streakAfter n = full.streakAfter n
  /-- What has been finalized for a key is the result that has been resolved for it. -/
  shared : ∀ before c after, done = before ++ c :: after → c.prepared = true →
    ∃ out, outs[before.length]? = some out ∧
      d.stepDeferreds (c.key canonicalTelemetryArgs) = some (some out.1) ∧
      (c.Original canonicalTelemetryArgs before →
        out.2 = some (full.streakAfter ((before.filter (·.prepared)).length + 1)))
  waiting : ∀ c ∈ rest, c.prepared = true → c.Original canonicalTelemetryArgs done →
    d.stepDeferreds (c.key canonicalTelemetryArgs) = some none
  entries : ∀ before c after, rest = before ++ c :: after → c.prepared = true →
    d.callKeyByCallId c.id = some (c.key canonicalTelemetryArgs) ∧
      (d.syntheticCallIds c.id = false ↔
        c.Original canonicalTelemetryArgs (done ++ before)) ∧
      (c.Original canonicalTelemetryArgs (done ++ before) →
        d.originalCallIndex c.id = some ((done ++ before).filter (·.prepared)).length)
  noOther : ∀ id, (∀ c ∈ rest, c.prepared = true → c.id ≠ id) → d.callKeyByCallId id = none

namespace Finalizing

variable {full d : ToolCallDeduplicator} {done rest : List (StepCall Args)}
  {outs : List (LoopToolResult × Option ℕ)} {c : StepCall Args}

theorem start (d : ToolCallDeduplicator) {calls : List (StepCall Args)}
    (hfresh : FreshIds calls) :
    Finalizing canonicalTelemetryArgs (d.beginStep.prepareAll canonicalTelemetryArgs calls) [] []
      (d.beginStep.prepareAll canonicalTelemetryArgs calls) calls := by
  have h : Registered canonicalTelemetryArgs d.beginStep
      (d.beginStep.prepareAll canonicalTelemetryArgs calls) calls := Registered.prepareAll d hfresh
  refine ⟨rfl, h.stepCalls, fun _ => rfl, ?_, ?_, h.entries, fun id hid => (h.noOther id hid).1⟩
  · intro before c after hsplit
    simp at hsplit
  · intro c hc hprepared _
    rw [stepDeferreds_prepareAll, if_pos ⟨c, hc, hprepared, rfl⟩]

section

variable (h : Finalizing canonicalTelemetryArgs full done outs d (c :: rest))

include h

theorem entries_tail {e : ToolCallDeduplicator}
    (hkeys : ∀ id, id ≠ c.id → e.callKeyByCallId id = d.callKeyByCallId id)
    (hsynthetic : ∀ id, id ≠ c.id → e.syntheticCallIds id = d.syntheticCallIds id)
    (hindex : ∀ id, id ≠ c.id → e.originalCallIndex id = d.originalCallIndex id)
    (hfresh : FreshIds (c :: rest)) :
    ∀ before x after, rest = before ++ x :: after → x.prepared = true →
      e.callKeyByCallId x.id = some (x.key canonicalTelemetryArgs) ∧
        (e.syntheticCallIds x.id = false ↔
          x.Original canonicalTelemetryArgs ((done ++ [c]) ++ before)) ∧
        (x.Original canonicalTelemetryArgs ((done ++ [c]) ++ before) →
          e.originalCallIndex x.id =
            some (((done ++ [c]) ++ before).filter (·.prepared)).length) := by
  intro before x after hsplit hx
  have hne : x.id ≠ c.id := fun heq =>
    (pairwise_cons.1 hfresh).1 x (by simp [hsplit]) hx heq.symm
  rw [hkeys _ hne, hsynthetic _ hne, hindex _ hne, append_assoc, singleton_append]
  exact h.entries (c :: before) x after (by rw [hsplit, cons_append]) hx

theorem shared_snoc {e : ToolCallDeduplicator} {out : LoopToolResult × Option ℕ}
    (hdeferred : ∀ x ∈ done, x.prepared = true →
      e.stepDeferreds (x.key canonicalTelemetryArgs) =
        d.stepDeferreds (x.key canonicalTelemetryArgs)) (hnew : c.prepared = true →
      e.stepDeferreds (c.key canonicalTelemetryArgs) = some (some out.1) ∧
        (c.Original canonicalTelemetryArgs done →
          out.2 = some (full.streakAfter ((done.filter (·.prepared)).length + 1)))) :
    ∀ before x after, done ++ [c] = before ++ x :: after → x.prepared = true →
      ∃ o, (outs ++ [out])[before.length]? = some o ∧
        e.stepDeferreds (x.key canonicalTelemetryArgs) = some (some o.1) ∧
        (x.Original canonicalTelemetryArgs before →
          o.2 = some (full.streakAfter ((before.filter (·.prepared)).length + 1))) := by
  intro before x after hsplit hx
  rcases split_snoc hsplit with ⟨rfl, rfl⟩ | ⟨tail, htail⟩
  · exact ⟨out, by simp [← h.length], hnew hx⟩
  · obtain ⟨o, ho, hstored, hstreak⟩ := h.shared before x tail htail hx
    have hlt : before.length < outs.length := by
      rw [h.length, htail, length_append, length_cons]
      omega
    refine ⟨o, by rw [getElem?_append_left hlt, ho], ?_, hstreak⟩
    rw [hdeferred x (by simp [htail]) hx, hstored]

theorem length_snoc (out : LoopToolResult × Option ℕ) :
    (outs ++ [out]).length = (done ++ [c]).length := by
  rw [length_append, length_append, h.length]
  rfl

theorem skip (hfresh : FreshIds (c :: rest)) (hc : c.prepared = false) (pending : LoopToolResult) :
    d.finalizeResult canonicalTelemetryArgs c.id c.name c.finalArgs pending =
        (d, .returned pending none) ∧
      Finalizing canonicalTelemetryArgs full (done ++ [c]) (outs ++ [(pending, none)]) d rest := by
  have hnone : d.callKeyByCallId c.id = none := by
    refine h.noOther c.id fun x hx hprepared heq => ?_
    rcases mem_cons.1 hx with rfl | hx
    · rw [hc] at hprepared
      cases hprepared
    · exact (pairwise_cons.1 hfresh).1 x hx hprepared heq.symm
  refine ⟨by simp [ToolCallDeduplicator.finalizeResult, hnone], h.length_snoc _, ?_, h.streak,
    ?_, ?_, ?_, fun id hid => h.noOther id ?_⟩
  · rw [h.stepCalls, append_assoc, singleton_append]
  · refine h.shared_snoc (fun _ _ _ => rfl) fun hprepared => ?_
    rw [hc] at hprepared
    cases hprepared
  · intro x hx hprepared horiginal
    exact h.waiting x (mem_cons_of_mem c hx) hprepared
      fun b hb => horiginal b (mem_append_left _ hb)
  · exact h.entries_tail (fun _ _ => rfl) (fun _ _ => rfl) (fun _ _ => rfl) hfresh
  · intro x hx hprepared
    rcases mem_cons.1 hx with rfl | hx
    · rw [hc] at hprepared
      cases hprepared
    · exact hid x hx hprepared

theorem repeated (hfresh : FreshIds (c :: rest)) (hc : c.prepared = true)
    (hrepeated : ¬c.Original canonicalTelemetryArgs done) (pending : LoopToolResult) :
    ∃ e result, d.finalizeResult canonicalTelemetryArgs c.id c.name c.finalArgs pending =
        (e, .returned result none) ∧
      Finalizing canonicalTelemetryArgs full (done ++ [c]) (outs ++ [(result, none)]) e rest := by
  obtain ⟨hkey, hsynthetic, -⟩ := h.entries [] c rest rfl hc
  rw [append_nil] at hsynthetic
  have hdup : d.syntheticCallIds c.id = true := by
    rw [← Bool.not_eq_false, hsynthetic]
    exact hrepeated
  have hbefore : ∃ b ∈ done, b.prepared = true ∧
      b.key canonicalTelemetryArgs = c.key canonicalTelemetryArgs := by
    simpa [StepCall.Original] using hrepeated
  obtain ⟨b, hb, hprepared, hsame⟩ := hbefore
  obtain ⟨x, y, hsplit⟩ := append_of_mem hb
  obtain ⟨out, -, hstored, -⟩ := h.shared x b y hsplit hprepared
  rw [hsame] at hstored
  refine ⟨{ d with
      callKeyByCallId := update d.callKeyByCallId c.id none
      syntheticCallIds := update d.syntheticCallIds c.id false }, out.1,
    by simp [ToolCallDeduplicator.finalizeResult, hkey, hdup, hstored],
    h.length_snoc _, ?_, fun n => ?_, ?_, ?_, ?_, fun id hid => ?_⟩
  · simp [h.stepCalls]
  · rw [← h.streak n]
    refine streakAfter_congr ?_ ?_ ?_ n <;> rfl
  · exact h.shared_snoc (fun _ _ _ => rfl) fun _ => ⟨hstored, fun h => absurd h hrepeated⟩
  · intro x hx hprepared horiginal
    exact h.waiting x (mem_cons_of_mem c hx) hprepared
      fun b hb => horiginal b (mem_append_left _ hb)
  · refine h.entries_tail (fun id hid => ?_) (fun id hid => ?_) (fun _ _ => rfl) hfresh
    · exact update_of_ne hid _ _
    · exact update_of_ne hid _ _
  · by_cases hsame : id = c.id
    · rw [hsame]
      exact update_self _ _ _
    · refine (update_of_ne hsame _ _).trans (h.noOther id fun x hx hprepared => ?_)
      rcases mem_cons.1 hx with rfl | hx
      · exact Ne.symm hsame
      · exact hid x hx hprepared

theorem original (hfresh : FreshIds (c :: rest)) (hc : c.prepared = true)
    (horiginal : c.Original canonicalTelemetryArgs done) (pending : LoopToolResult) :
    ∃ e result streak,
      d.finalizeResult canonicalTelemetryArgs c.id c.name c.finalArgs pending =
        (e, .returned result (some streak)) ∧
      Finalizing canonicalTelemetryArgs full (done ++ [c]) (outs ++ [(result, some streak)]) e
        rest := by
  obtain ⟨hkey, hsynthetic, hindex⟩ := h.entries [] c rest rfl hc
  rw [append_nil] at hsynthetic hindex
  have hfirst := hsynthetic.2 horiginal
  have hat := hindex horiginal
  have hwaits := h.waiting c ((.head _)) hc horiginal
  have hlt : (done.filter (·.prepared)).length < d.stepCalls.length := by
    rw [h.stepCalls]
    simp [hc]
  set streak := (d.projectStreak (done.filter (·.prepared)).length).2 with hstreak
  have hcounted : streak = full.streakAfter ((done.filter (·.prepared)).length + 1) := by
    rw [hstreak, projectStreak_eq d hlt, h.streak]
  set result := remind c.name (canonicalTelemetryArgs c.finalArgs) streak pending with hresult
  refine ⟨{ d with
      callKeyByCallId := update d.callKeyByCallId c.id none
      originalCallIndex := update d.originalCallIndex c.id none
      stepDeferreds := update d.stepDeferreds (c.key canonicalTelemetryArgs)
        (some (some result)) }, result, streak, ?_, h.length_snoc _, ?_, fun n => ?_, ?_, ?_, ?_,
    fun id hid => ?_⟩
  · simp only [ToolCallDeduplicator.finalizeResult, hkey, hfirst, hat, resolve, hwaits]
    rfl
  · simp [h.stepCalls]
  · rw [← h.streak n]
    refine streakAfter_congr ?_ ?_ ?_ n <;> rfl
  · refine h.shared_snoc (fun x hx hprepared => ?_) fun _ => ⟨?_, fun _ => ?_⟩
    · exact update_of_ne (horiginal x hx hprepared) _ _
    · exact update_self _ _ _
    · exact congrArg some hcounted
  · intro x hx hprepared hx'
    have hne : x.key canonicalTelemetryArgs ≠ c.key canonicalTelemetryArgs :=
      fun heq => hx' c (by simp) hc heq.symm
    exact (update_of_ne hne _ _).trans (h.waiting x (mem_cons_of_mem c hx) hprepared
      fun b hb => hx' b (mem_append_left _ hb))
  · refine h.entries_tail (fun id hid => ?_) (fun _ _ => rfl) (fun id hid => ?_) hfresh
    · exact update_of_ne hid _ _
    · exact update_of_ne hid _ _
  · by_cases hsame : id = c.id
    · rw [hsame]
      exact update_self _ _ _
    · refine (update_of_ne hsame _ _).trans (h.noOther id fun x hx hprepared => ?_)
      rcases mem_cons.1 hx with rfl | hx
      · exact Ne.symm hsame
      · exact hid x hx hprepared

/-- **One step** of the finalization. -/
theorem finalizeResult (hfresh : FreshIds (c :: rest)) (pending : LoopToolResult) :
    ∃ e result streak,
      d.finalizeResult canonicalTelemetryArgs c.id c.name c.finalArgs pending =
        (e, .returned result streak) ∧
      Finalizing canonicalTelemetryArgs full (done ++ [c]) (outs ++ [(result, streak)]) e rest := by
  cases hc : c.prepared with
  | false => exact ⟨d, pending, none, h.skip hfresh hc pending⟩
  | true =>
    by_cases horiginal : c.Original canonicalTelemetryArgs done
    · obtain ⟨e, result, streak, he⟩ := h.original hfresh hc horiginal pending
      exact ⟨e, result, some streak, he⟩
    · obtain ⟨e, result, he⟩ := h.repeated hfresh hc horiginal pending
      exact ⟨e, result, none, he⟩

end

/-- **The whole finalization.** -/
theorem finalizeAll {pairs : List (StepCall Args × LoopToolResult)}
    (h : Finalizing canonicalTelemetryArgs full done outs d (pairs.map (·.1)))
    (hfresh : FreshIds (pairs.map (·.1))) :
    ∃ e, Finalizing canonicalTelemetryArgs full (done ++ pairs.map (·.1))
      (outs ++ d.finalizeAll canonicalTelemetryArgs pairs) e [] := by
  induction pairs generalizing d done outs with
  | nil => exact ⟨d, by simpa [ToolCallDeduplicator.finalizeAll] using h⟩
  | cons pair pairs ih =>
    obtain ⟨e, result, streak, he, hnext⟩ := h.finalizeResult hfresh pair.2
    obtain ⟨e', hend⟩ := ih hnext (pairwise_cons.1 hfresh).2
    refine ⟨e', ?_⟩
    rw [ToolCallDeduplicator.finalizeAll, he]
    simpa using hend

end Finalizing

variable (canonicalTelemetryArgs) in
theorem map_pendingResults (toolResult : ℕ → LoopToolResult) (d : ToolCallDeduplicator) (n : ℕ)
    (calls : List (StepCall Args)) :
    (pendingResults canonicalTelemetryArgs toolResult d n calls).map (·.1) = calls := by
  induction calls generalizing d n with
  | nil => rfl
  | cons c calls ih => simp [pendingResults, ih]

theorem deduplicates (d : ToolCallDeduplicator) {calls : List (StepCall Args)}
    (hfresh : FreshIds calls) (toolResult : ℕ → LoopToolResult) :
    Deduplicates canonicalTelemetryArgs d.beginStep calls toolResult := by
  have hmap := map_pendingResults canonicalTelemetryArgs toolResult d.beginStep 0 calls
  have hstart : Finalizing canonicalTelemetryArgs
      (d.beginStep.prepareAll canonicalTelemetryArgs calls) [] []
      (d.beginStep.prepareAll canonicalTelemetryArgs calls)
      ((pendingResults canonicalTelemetryArgs toolResult d.beginStep 0 calls).map (·.1)) := by
    rw [hmap]
    exact Finalizing.start d hfresh
  obtain ⟨e, hend⟩ := hstart.finalizeAll (hmap.symm ▸ hfresh)
  rw [hmap, nil_append, nil_append] at hend
  refine ⟨hend.length, ?_, ?_⟩
  · intro before c middle dup after hsplit hc horiginal hdup hkey
    obtain ⟨out, hout, hstored, -⟩ := hend.shared before c _ hsplit hc
    obtain ⟨out', hout', hstored', -⟩ := hend.shared (before ++ c :: middle) dup after
      (by simp [hsplit]) hdup
    rw [hkey, hstored] at hstored'
    have hlength : (before ++ c :: middle).length = before.length + 1 + middle.length := by
      simp only [length_append, length_cons]
      omega
    rw [hlength] at hout'
    rw [finalizeBatch, hout, hout', map_some, map_some]
    exact congrArg some (some.inj (some.inj hstored'))
  · intro before c after hsplit hc horiginal
    obtain ⟨out, hout, -, hstreak⟩ := hend.shared before c after hsplit hc
    rw [finalizeBatch, hout, bind_some, hstreak horiginal]

/-! ### Repeated ids -/

variable (canonicalTelemetryArgs) in
theorem callKeyByCallId_finalizeResult (d : ToolCallDeduplicator) (toolCallId toolName : String)
    (args : Args) (result : LoopToolResult) :
    (d.finalizeResult canonicalTelemetryArgs toolCallId toolName args result).1.callKeyByCallId =
      update d.callKeyByCallId toolCallId none := by
  cases hkey : d.callKeyByCallId toolCallId with
  | none =>
    have hsame : update d.callKeyByCallId toolCallId none = d.callKeyByCallId := by
      rw [← hkey, update_eq_self]
    rw [hsame]
    simp [finalizeResult, hkey]
  | some key =>
    simp only [finalizeResult, hkey]
    split_ifs
    · rcases d.stepDeferreds key with _ | _ | original <;> rfl
    · cases d.originalCallIndex toolCallId with
      | none => rfl
      | some index =>
        simp only [resolve]
        rcases d.stepDeferreds key with _ | _ | original <;> rfl

theorem finalizeAll_taken {before after : List (StepCall Args × LoopToolResult)}
    {c : StepCall Args} {pending : LoopToolResult} {d : ToolCallDeduplicator}
    (htaken : d.callKeyByCallId c.id = none ∨ ∃ b ∈ before, b.1.id = c.id)
    (hlength : (d.finalizeAll canonicalTelemetryArgs (before ++ (c, pending) :: after)).length =
      (before ++ (c, pending) :: after).length) :
    (d.finalizeAll canonicalTelemetryArgs (before ++ (c, pending) :: after))[before.length]? =
      some (pending, none) := by
  induction before generalizing d with
  | nil =>
    have hnone : d.callKeyByCallId c.id = none := htaken.elim id (by simp)
    simp [finalizeAll, finalizeResult, hnone]
  | cons b before ih =>
    have hkeys := callKeyByCallId_finalizeResult canonicalTelemetryArgs d b.1.id b.1.name
      b.1.finalArgs b.2
    rw [cons_append, finalizeAll] at hlength ⊢
    rcases hresult : d.finalizeResult canonicalTelemetryArgs b.1.id b.1.name b.1.finalArgs b.2
      with ⟨e, ⟨result, streak⟩ | -⟩
    · rw [hresult] at hlength hkeys
      simp only [length_cons, Nat.add_right_cancel_iff] at hlength
      refine ih (d := e) ?_ hlength
      rw [hkeys]
      by_cases hsame : b.1.id = c.id
      · exact Or.inl (by rw [hsame, update_self])
      · rw [update_of_ne (Ne.symm hsame)]
        refine htaken.imp id fun ⟨x, hx, hid⟩ => ?_
        rcases mem_cons.1 hx with rfl | hx
        · exact absurd hid hsame
        · exact ⟨x, hx, hid⟩
    · -- a finalization that waits leaves the list short
      rw [hresult] at hlength
      simp at hlength

theorem finalizeResult_streak {d e : ToolCallDeduplicator} {toolCallId toolName : String}
    {args : Args} {pending result : LoopToolResult} {streak : ℕ}
    (h : d.finalizeResult canonicalTelemetryArgs toolCallId toolName args pending =
      (e, .returned result (some streak))) :
    result = remind toolName (canonicalTelemetryArgs args) streak pending := by
  unfold finalizeResult at h
  cases hkey : d.callKeyByCallId toolCallId with
  | none => simp [hkey] at h
  | some key =>
    simp only [hkey] at h
    split_ifs at h
    · rcases hd : d.stepDeferreds key with _ | _ | original <;> simp [hd] at h
    · cases hindex : d.originalCallIndex toolCallId with
      | none => simp [hindex] at h
      | some index =>
        simp only [hindex, Prod.mk.injEq, Finalized.returned.injEq, some.injEq] at h
        obtain ⟨-, hresult, hstreak⟩ := h
        rw [← hresult, hstreak]

/-- A call that is counted has the result it came with, and perhaps a reminder. -/
theorem finalizeAll_streak {pairs : List (StepCall Args × LoopToolResult)}
    {d : ToolCallDeduplicator} {i : ℕ} {result : LoopToolResult} {streak : ℕ}
    (h : (d.finalizeAll canonicalTelemetryArgs pairs)[i]? = some (result, some streak)) :
    ∃ c pending, pairs[i]? = some (c, pending) ∧
      result = remind c.name (canonicalTelemetryArgs c.finalArgs) streak pending := by
  induction pairs generalizing d i with
  | nil => simp [finalizeAll] at h
  | cons pair pairs ih =>
    rw [finalizeAll] at h
    rcases hresult : d.finalizeResult canonicalTelemetryArgs pair.1.id pair.1.name
      pair.1.finalArgs pair.2 with ⟨e, ⟨out, counted⟩ | -⟩
    · rw [hresult] at h
      cases i with
      | zero =>
        obtain ⟨rfl, rfl⟩ : out = result ∧ counted = some streak := by simpa using h
        exact ⟨pair.1, pair.2, rfl, finalizeResult_streak hresult⟩
      | succ i => exact ih (by simpa using h)
    · rw [hresult] at h
      simp at h

variable (canonicalTelemetryArgs) in
theorem pendingResults_append (toolResult : ℕ → LoopToolResult) (d : ToolCallDeduplicator) (n : ℕ)
    (before after : List (StepCall Args)) (c : StepCall Args) :
    ∃ rest, pendingResults canonicalTelemetryArgs toolResult d n (before ++ c :: after) =
      pendingResults canonicalTelemetryArgs toolResult d n before ++
        (c, ((d.prepareAll canonicalTelemetryArgs before).prepare canonicalTelemetryArgs c).2.getD
          (toolResult (n + before.length))) :: rest := by
  induction before generalizing d n with
  | nil => exact ⟨_, rfl⟩
  | cons b before ih =>
    obtain ⟨rest, hrest⟩ := ih (d.prepare canonicalTelemetryArgs b).1 (n + 1)
    refine ⟨rest, ?_⟩
    have hindex : n + 1 + before.length = n + (before.length + 1) := by omega
    simp only [cons_append, pendingResults, hrest, length_cons, hindex]
    rfl

variable (canonicalTelemetryArgs) in
theorem length_pendingResults (toolResult : ℕ → LoopToolResult) (d : ToolCallDeduplicator) (n : ℕ)
    (calls : List (StepCall Args)) :
    (pendingResults canonicalTelemetryArgs toolResult d n calls).length = calls.length := by
  have hmap := congrArg List.length (map_pendingResults canonicalTelemetryArgs toolResult d n calls)
  rwa [length_map] at hmap

theorem exists_original {k : String} {calls : List (StepCall Args)}
    (h : ∃ b ∈ calls, b.prepared = true ∧ b.key canonicalTelemetryArgs = k) :
    ∃ before c after, calls = before ++ c :: after ∧ c.prepared = true ∧
      c.key canonicalTelemetryArgs = k ∧ c.Original canonicalTelemetryArgs before := by
  induction calls using reverseRecOn with
  | nil => simp at h
  | append_singleton calls a ih =>
    by_cases hbefore : ∃ b ∈ calls, b.prepared = true ∧ b.key canonicalTelemetryArgs = k
    · obtain ⟨before, c, after, hsplit, hc⟩ := ih hbefore
      exact ⟨before, c, after ++ [a], by simp [hsplit], hc⟩
    · obtain ⟨b, hb, hprepared, hkey⟩ := h
      rcases mem_append.1 hb with hb | hb
      · exact absurd ⟨b, hb, hprepared, hkey⟩ hbefore
      · obtain rfl := mem_singleton.1 hb
        refine ⟨calls, b, [], rfl, hprepared, hkey, fun x hx hxp heq => ?_⟩
        exact hbefore ⟨x, hx, hxp, heq.trans hkey⟩

theorem remind_ne_placeholder (toolName argsStr : String) (streak : ℕ) {result : LoopToolResult}
    (h : result.output = .text "done") :
    remind toolName argsStr streak result ≠ DEDUP_PLACEHOLDER_RESULT := by
  have happend : ∀ text, (appendReminder result text).output ≠ .text "" := by
    intro text heq
    simp [appendReminder, h] at heq
  intro heq
  have houtput := congrArg (fun r => r.output) heq
  simp only [remind] at houtput
  split_ifs at houtput
  · exact happend _ houtput
  · exact happend _ houtput
  · exact happend _ houtput
  · exact happend _ houtput
  · rw [h] at houtput
    simp [DEDUP_PLACEHOLDER_RESULT] at houtput

/-- **A prepared call that repeats an id** comes away with the result it came with. -/
theorem taken_of_repeated (d : ToolCallDeduplicator) {before after : List (StepCall Args)}
    {c b : StepCall Args} (hb : b ∈ before) (hid : b.id = c.id) {toolResult : ℕ → LoopToolResult}
    (h : Deduplicates canonicalTelemetryArgs d (before ++ c :: after) toolResult) :
    (d.finalizeBatch canonicalTelemetryArgs (before ++ c :: after) toolResult)[before.length]? =
      some (((d.prepareAll canonicalTelemetryArgs before).prepare
        canonicalTelemetryArgs c).2.getD (toolResult before.length), none) := by
  obtain ⟨rest, hrest⟩ := pendingResults_append canonicalTelemetryArgs toolResult d 0 before after c
  rw [Nat.zero_add] at hrest
  have hlength := h.settles
  rw [← length_pendingResults canonicalTelemetryArgs toolResult d 0 (before ++ c :: after)]
    at hlength
  have hmap := map_pendingResults canonicalTelemetryArgs toolResult d 0 before
  have hbefore : ∃ x ∈ pendingResults canonicalTelemetryArgs toolResult d 0 before,
      x.1.id = c.id := by
    rw [← hmap] at hb
    obtain ⟨x, hx, rfl⟩ := mem_map.1 hb
    exact ⟨x, hx, hid⟩
  rw [finalizeBatch, hrest] at hlength ⊢
  have htaken := finalizeAll_taken (Or.inr hbefore) hlength
  rw [length_pendingResults] at htaken
  exact htaken

theorem not_repeated (d : ToolCallDeduplicator) {before after : List (StepCall Args)}
    {c b : StepCall Args} (hc : c.prepared = true) (hb : b ∈ before)
    (h : Deduplicates canonicalTelemetryArgs d.beginStep (before ++ c :: after)
      fun _ => { output := .text "done" }) : b.id ≠ c.id := by
  intro hid
  have htaken := taken_of_repeated d.beginStep hb hid h
  by_cases horiginal : c.Original canonicalTelemetryArgs before
  · -- it is counted nowhere
    have hstreak := h.streaks before c after rfl hc horiginal
    rw [htaken] at hstreak
    cases hstreak
  · -- it comes with the placeholder, which is no result of the first call
    have hrepeated : ∃ b ∈ before, b.prepared = true ∧
        b.key canonicalTelemetryArgs = c.key canonicalTelemetryArgs := by
      simpa [StepCall.Original] using horiginal
    obtain ⟨first, e, tail, hsplit, he, hkey, hfirst⟩ := exists_original hrepeated
    subst hsplit
    have hcalls : (first ++ e :: tail) ++ c :: after = first ++ e :: (tail ++ c :: after) := by simp
    have hshares := h.shares first e tail c after hcalls he hfirst hc hkey.symm
    have hstreak := h.streaks first e (tail ++ c :: after) hcalls he hfirst
    have hplaceholder :
        ((d.beginStep.prepareAll canonicalTelemetryArgs (first ++ e :: tail)).prepare
        canonicalTelemetryArgs c).2 = some DEDUP_PLACEHOLDER_RESULT := by
      rw [original_iff d, ← ne_eq, ne_none_iff_exists'] at horiginal
      obtain ⟨deferred, hdeferred⟩ := horiginal
      have hkey' : makeKey canonicalTelemetryArgs c.name c.args =
        c.key canonicalTelemetryArgs := rfl
      simp [prepare, hc, checkSameStep, hkey', hdeferred]
    have hlength : (first ++ e :: tail).length = first.length + 1 + tail.length := by
      simp only [length_append, length_cons]
      omega
    rw [hlength, hplaceholder] at htaken
    rw [htaken] at hshares
    obtain ⟨⟨result, streak⟩, hout, hresult⟩ := map_eq_some_iff.1 hshares
    rw [hout, bind_some] at hstreak
    obtain rfl : streak = some _ := hstreak
    obtain ⟨x, pending, hpending, hremind⟩ := finalizeAll_streak hout
    obtain ⟨rest, hrest⟩ := pendingResults_append canonicalTelemetryArgs
      (fun _ => { output := .text "done" }) d.beginStep 0 first (tail ++ c :: after) e
    have hnone : ((d.beginStep.prepareAll canonicalTelemetryArgs first).prepare
        canonicalTelemetryArgs e).2 = none := by
      have hdeferred := (original_iff d first e).1 hfirst
      have hkey' : makeKey canonicalTelemetryArgs e.name e.args =
        e.key canonicalTelemetryArgs := rfl
      simp [prepare, he, checkSameStep, hkey', hdeferred]
    rw [hcalls, hrest, hnone, getElem?_append_right (by rw [length_pendingResults]),
      length_pendingResults, Nat.sub_self, getElem?_cons_zero] at hpending
    cases hpending
    exact remind_ne_placeholder _ _ _ rfl (hremind.symm.trans hresult)

end ToolCallDeduplicator

/-! ### The condition -/

/-- **The results are right, whatever the tools return, exactly when no prepared call has the id of
a call in front of it.** -/
theorem dedup_right_iff {Args : Type} (canonicalTelemetryArgs : Args → String)
    (d : ToolCallDeduplicator) (calls : List (StepCall Args)) :
    (∀ toolResult, Deduplicates canonicalTelemetryArgs d.beginStep calls toolResult) ↔
      FreshIds calls := by
  constructor
  · intro h
    refine List.pairwise_iff_getElem.2 fun i j hi hj hij hprepared => ?_
    have hsplit : calls = calls.take j ++ calls[j] :: calls.drop (j + 1) := by
      rw [List.getElem_cons_drop, List.take_append_drop]
    have hmem : calls[i] ∈ calls.take j := List.mem_take_iff_getElem.2 ⟨i, by omega, rfl⟩
    have hright : Deduplicates canonicalTelemetryArgs d.beginStep
        (calls.take j ++ calls[j] :: calls.drop (j + 1))
        fun _ => { output := .text "done" } := by
      rw [← hsplit]
      exact h _
    exact ToolCallDeduplicator.not_repeated d hprepared hmem hright
  · intro hfresh toolResult
    exact d.deduplicates hfresh toolResult

/-- Two calls of one step with the same id, name and arguments. -/
def repeatedId : List (StepCall String) :=
  [{ id := "call_0", name := "Bash", args := "{}", finalArgs := "{}" },
    { id := "call_0", name := "Bash", args := "{}", finalArgs := "{}" }]

/-- **A finalization that never ends.**  The first call is taken for the repeated one, and waits for
its own result. -/
theorem repeated_id_waits :
    ((({} : ToolCallDeduplicator).beginStep.finalizeBatch id repeatedId
      fun _ => { output := .text "done" }).length = 0) ∧
    ¬Deduplicates id ({} : ToolCallDeduplicator).beginStep repeatedId
      fun _ => { output := .text "done" } := by
  have hnone : ({} : ToolCallDeduplicator).beginStep.finalizeBatch id repeatedId
      (fun _ => { output := .text "done" }) = [] := by decide +kernel
  refine ⟨by rw [hnone]; rfl, fun h => ?_⟩
  have hsettles := h.settles
  rw [hnone] at hsettles
  cases hsettles

end NoriCode
