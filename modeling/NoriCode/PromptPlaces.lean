/-
**Where a prompt is.**

A prompt is active, waits in the queue, is held by a call that waits for the core, or has come to an
end that clients have been told of.  A steered prompt ends with the event `prompt.steered`, since it
has become part of the active turn, and an aborted prompt may keep the slot until its turn has
ended.  As long as nothing goes wrong at the points named by `KeepsPrompts`, every accepted prompt
is in exactly one of these places, and the core takes it at most once.

Main definitions:

* `PromptServiceState.places` — the number of places where a prompt is;
* `PromptServiceState.runs` — how often the core has taken or may yet take it;
* `PromptsPlaced` — the invariant;
* `KeepsPrompts` — the condition on a step.

Main results:

* `prompt_in_one_place` — **every accepted prompt is in exactly one place**.
-/

import NoriCode.PromptService

namespace NoriCode

open List Option PromptDispatch PromptServiceState

/-! ### Places -/

/-- The call holds its prompt, which is neither active nor queued. -/
def PromptDispatch.holds (d : PromptDispatch) (p : ℕ) : Bool :=
  d.promptId = p ∧ (d.phase = .preparing ∨ d.phase = .refused)

/-- The core may yet take the prompt, because of this call. -/
def PromptDispatch.mayRun (d : PromptDispatch) (p : ℕ) : Bool :=
  d.promptId = p ∧ d.phase ≠ .failing

/-- The event tells the end of a prompt. -/
def PromptEvent.ends (p : ℕ) : PromptEvent → Bool
  | .submitted _ _ => false
  | .completed q _ => q = p
  | .aborted q => q = p
  | .steered qs => qs.contains p

namespace PromptServiceState

/-- The prompt is active, and has not been aborted. -/
def activeCount (s : PromptServiceState) (p : ℕ) : ℕ :=
  if s.active = some p ∧ s.isAborted p = false then 1 else 0

def heldCount (s : PromptServiceState) (p : ℕ) : ℕ := s.dispatches.countP (·.holds p)

def mayRunCount (s : PromptServiceState) (p : ℕ) : ℕ := s.dispatches.countP (·.mayRun p)

def steerCount (s : PromptServiceState) (p : ℕ) : ℕ := s.steers.countP (·.promptIds.contains p)

def endCount (s : PromptServiceState) (p : ℕ) : ℕ := s.log.countP (·.ends p)

/-- **The number of places where a prompt is**: the slot, the queue, the calls that hold it, and the
events of its end. -/
def places (s : PromptServiceState) (p : ℕ) : ℕ :=
  s.activeCount p + s.queued.count p + s.heldCount p + s.steerCount p + s.aborts.count p +
    s.endCount p

/-- How often the core has taken a prompt, or may yet take it. -/
def runs (s : PromptServiceState) (p : ℕ) : ℕ :=
  s.queued.count p + s.mayRunCount p + s.steerCount p + s.launched.count p

end PromptServiceState

open PromptServiceState

/-- The submission of the prompt has not come back. -/
def PromptDispatch.submits (d : PromptDispatch) : Bool := d.fromQueue = false ∧ d.phase ≠ .failing

/-- **Every prompt is in one place.** -/
structure PromptsPlaced (s : PromptServiceState) : Prop where
  places_le : ∀ p, s.places p ≤ 1
  placed : ∀ p < s.prompts.length, p ∉ s.rejected → s.places p = 1
  /-- Prompts that do not exist are nowhere. -/
  fresh : ∀ p, s.prompts.length ≤ p → s.places p = 0 ∧ s.runs p = 0 ∧ p ∉ s.rejected
  runs_le : ∀ p, s.runs p ≤ 1
  /-- A prompt is flagged while its abort is under way, and when it has ended by one. -/
  flag : ∀ p, s.isAborted p = true → 1 ≤ s.aborts.count p + s.endCount p
  accepted : ∀ p ∈ s.accepted, p < s.prompts.length ∧ p ∉ s.rejected
  submitting : ∀ d ∈ s.dispatches, d.submits = true →
    d.promptId ∉ s.accepted ∧ d.promptId ∉ s.rejected

/-! ### Counting -/

theorem countP_erase_of_mem {α : Type} [BEq α] [LawfulBEq α] {l : List α} {a : α} (h : a ∈ l)
    (q : α → Bool) : (l.erase a).countP q + (if q a then 1 else 0) = l.countP q := by
  rw [(perm_cons_erase h).countP_eq q, countP_cons]

theorem count_erase_of_mem {l : List ℕ} {a : ℕ} (h : a ∈ l) (b : ℕ) :
    (l.erase a).count b + (if a = b then 1 else 0) = l.count b := by
  rw [(perm_cons_erase h).count_eq b, count_cons]
  simp

theorem not_of_mem_erase {α : Type} [BEq α] [LawfulBEq α] {l : List α} {a b : α} (ha : a ∈ l)
    (hb : b ∈ l.erase a) {q : α → Bool} (hqa : q a = true) (hle : l.countP q ≤ 1) :
    q b = false := by
  have hadd := countP_erase_of_mem ha q
  rw [if_pos hqa] at hadd
  by_contra hqb
  have hpos : 0 < (l.erase a).countP q := countP_pos_iff.2 ⟨b, hb, by simpa using hqb⟩
  omega

theorem count_filter_notContains (l qs : List ℕ) (p : ℕ) :
    (l.filter (!qs.contains ·)).count p = if qs.contains p then 0 else l.count p := by
  split_ifs with h
  · refine count_eq_zero.2 fun hmem => ?_
    have hnot := (List.mem_filter.1 hmem).2
    simp at hnot h
    exact hnot h
  · refine count_filter ?_
    simpa using h

theorem PromptServiceState.isAborted_updatePrompt (s : PromptServiceState) (p q : ℕ)
    (f : PromptState → PromptState) :
    (s.updatePrompt p f).isAborted q =
      if p = q then (s.prompts[q]?).any fun state => (f state).aborted else s.isAborted q := by
  unfold isAborted updatePrompt
  rw [getElem?_modify]
  split_ifs with h <;> cases s.prompts[q]? <;> rfl

/-! ### Moves -/

/-- Prompts are moved from one place to another. -/
structure Moves (s u : PromptServiceState) : Prop where
  length_eq : u.prompts.length = s.prompts.length
  accepted_eq : u.accepted = s.accepted
  rejected_eq : u.rejected = s.rejected
  places_eq : ∀ p, u.places p = s.places p
  runs_le : ∀ p, u.runs p ≤ s.runs p
  flag : ∀ p, u.isAborted p = true → s.isAborted p = true ∨ 1 ≤ u.aborts.count p + u.endCount p
  ends_le : ∀ p, u.isAborted p = true →
    s.aborts.count p + s.endCount p ≤ u.aborts.count p + u.endCount p
  submits : ∀ d ∈ u.dispatches, d.submits = true →
    ∃ d' ∈ s.dispatches, d'.submits = true ∧ d'.promptId = d.promptId

namespace Moves

variable {s t u : PromptServiceState}

theorem refl (s : PromptServiceState) : Moves s s where
  length_eq := rfl
  accepted_eq := rfl
  rejected_eq := rfl
  places_eq _ := rfl
  runs_le _ := Nat.le_refl _
  flag _ := Or.inl
  ends_le _ _ := Nat.le_refl _
  submits d hd hsubmits := ⟨d, hd, hsubmits, rfl⟩

theorem of_waiting (hprompts : u.prompts = s.prompts) (hactive : u.active = s.active)
    (haborts : u.aborts = s.aborts) (hlog : u.log = s.log) (haccepted : u.accepted = s.accepted)
    (hrejected : u.rejected = s.rejected) (hlaunched : u.launched = s.launched)
    (hplaces : ∀ p, u.queued.count p + u.heldCount p + u.steerCount p =
      s.queued.count p + s.heldCount p + s.steerCount p)
    (hruns : ∀ p, u.queued.count p + u.mayRunCount p + u.steerCount p ≤
      s.queued.count p + s.mayRunCount p + s.steerCount p)
    (hsubmits : ∀ d ∈ u.dispatches, d.submits = true →
      ∃ d' ∈ s.dispatches, d'.submits = true ∧ d'.promptId = d.promptId) : Moves s u := by
  have haborted : ∀ p, u.isAborted p = s.isAborted p := fun p => by
    rw [isAborted, hprompts, isAborted]
  have hends : ∀ p, u.endCount p = s.endCount p := fun p => by
    rw [endCount, hlog, endCount]
  refine ⟨congrArg _ hprompts, haccepted, hrejected, fun p => ?_, fun p => ?_, fun p hp => ?_,
    fun p _ => ?_, hsubmits⟩
  · have hwaits := hplaces p
    simp only [places, activeCount, hactive, haborted, haborts, hends]
    omega
  · have hwaits := hruns p
    simp only [runs, hlaunched]
    omega
  · exact Or.inl (haborted p ▸ hp)
  · exact Nat.le_of_eq (by rw [haborts, hends])

theorem startNextQueued (s : PromptServiceState) : Moves s s.startNextQueued := by
  unfold PromptServiceState.startNextQueued
  split_ifs
  · exact refl s
  · cases hqueued : s.queued with
    | nil => exact refl s
    | cons next rest =>
      refine of_waiting rfl rfl rfl rfl rfl rfl rfl (fun p => ?_) (fun p => ?_) fun d hd hsub => ?_
      · simp [PromptServiceState.startPrompt, heldCount,
          steerCount, hqueued, count_cons, countP_cons,
          PromptDispatch.holds]
        omega
      · simp [PromptServiceState.startPrompt, mayRunCount,
          steerCount, hqueued, count_cons, countP_cons,
          mayRun]
        omega
      · rcases mem_cons.1 hd with rfl | hd
        · simp [PromptDispatch.submits] at hsub
        · exact ⟨d, hd, hsub, rfl⟩

end Moves

namespace PromptsPlaced

variable {s u : PromptServiceState} {d : PromptDispatch}

theorem initial : PromptsPlaced {} where
  places_le _ := Nat.zero_le 1
  placed p hp := absurd hp (Nat.not_lt_zero p)
  fresh p _ := ⟨rfl, rfl, not_mem_nil⟩
  runs_le _ := Nat.zero_le 1
  flag p hp := by simp [isAborted] at hp
  accepted p hp := absurd hp not_mem_nil
  submitting d hd := absurd hd not_mem_nil

theorem moves (h : PromptsPlaced s) (hu : Moves s u) : PromptsPlaced u where
  places_le p := hu.places_eq p ▸ h.places_le p
  placed p hp hrejected := by
    rw [hu.places_eq]
    exact h.placed p (hu.length_eq ▸ hp) (hu.rejected_eq ▸ hrejected)
  fresh p hp := by
    obtain ⟨hplaces, hruns, hrejected⟩ := h.fresh p (hu.length_eq ▸ hp)
    have hle := hu.runs_le p
    exact ⟨(hu.places_eq p).trans hplaces, by omega, hu.rejected_eq ▸ hrejected⟩
  runs_le p := Nat.le_trans (hu.runs_le p) (h.runs_le p)
  flag p hp := by
    rcases hu.flag p hp with hs | hu'
    · exact Nat.le_trans (h.flag p hs) (hu.ends_le p hp)
    · exact hu'
  accepted p hp := by
    rw [hu.length_eq, hu.rejected_eq]
    exact h.accepted p (hu.accepted_eq ▸ hp)
  submitting d hd hsubmits := by
    obtain ⟨d', hd', hsubmits', hid⟩ := hu.submits d hd hsubmits
    rw [hu.accepted_eq, hu.rejected_eq, ← hid]
    exact h.submitting d' hd' hsubmits'

variable {p : ℕ}

theorem lt_of_places (h : PromptsPlaced s) (hp : 0 < s.places p) : p < s.prompts.length := by
  by_contra hlt
  have hzero := (h.fresh p (Nat.le_of_not_lt hlt)).1
  omega

theorem not_aborted (h : PromptsPlaced s)
    (hp : 0 < s.queued.count p + s.heldCount p + s.steerCount p) : s.isAborted p = false := by
  cases haborted : s.isAborted p with
  | false => rfl
  | true =>
    have hends := h.flag p haborted
    have hle := h.places_le p
    unfold places at hle
    omega

theorem heldCount_pos (hd : d ∈ s.dispatches) (hp : d.holds p = true) : 0 < s.heldCount p :=
  countP_pos_iff.2 ⟨d, hd, hp⟩

theorem accept (h : PromptsPlaced s) (hp : p < s.prompts.length) (hrejected : p ∉ s.rejected)
    (hnone : ∀ d ∈ s.dispatches, d.submits = true → d.promptId ≠ p) :
    PromptsPlaced { s with accepted := s.accepted ++ [p] } := by
  refine { h with accepted := fun q hq => ?_, submitting := fun d hd hsubmits => ?_ }
  · rcases mem_append.1 hq with hq | hq
    · exact h.accepted q hq
    · obtain rfl := mem_singleton.1 hq
      exact ⟨hp, hrejected⟩
  · obtain ⟨haccepted, hrej⟩ := h.submitting d hd hsubmits
    refine ⟨fun hmem => ?_, hrej⟩
    rcases mem_append.1 hmem with hmem | hmem
    · exact haccepted hmem
    · exact hnone d hd hsubmits (mem_singleton.1 hmem)

theorem submits_ne (h : PromptsPlaced s) (hd : d ∈ s.dispatches) (hphase : d.phase ≠ .failing)
    {d' : PromptDispatch} (hd' : d' ∈ s.dispatches.erase d) (hsubmits : d'.submits = true) :
    d'.promptId ≠ d.promptId := by
  intro hid
  have hle : s.dispatches.countP (·.mayRun d.promptId) ≤ 1 := by
    have hruns := h.runs_le d.promptId
    unfold runs mayRunCount at hruns
    omega
  have hnot := not_of_mem_erase hd hd' (q := (·.mayRun d.promptId)) (by simp [mayRun, hphase]) hle
  simp [submits] at hsubmits
  simp [mayRun, hid, hsubmits.2] at hnot

end PromptsPlaced

/-! ### Counts after an operation -/

namespace PromptServiceState

variable {s : PromptServiceState} {d : PromptDispatch}

theorem heldCount_setPhase (hd : d ∈ s.dispatches) (phase : DispatchPhase) (p : ℕ) :
    (s.setPhase d phase).heldCount p + (if d.holds p then 1 else 0) =
      s.heldCount p + if { d with phase }.holds p then 1 else 0 := by
  have herase := countP_erase_of_mem hd (·.holds p)
  simp only [heldCount, setPhase, countP_cons]
  omega

theorem mayRunCount_setPhase (hd : d ∈ s.dispatches) (phase : DispatchPhase) (p : ℕ) :
    (s.setPhase d phase).mayRunCount p + (if d.mayRun p then 1 else 0) =
      s.mayRunCount p + if { d with phase }.mayRun p then 1 else 0 := by
  have herase := countP_erase_of_mem hd (·.mayRun p)
  simp only [mayRunCount, setPhase, countP_cons]
  omega

theorem endCount_publish (s : PromptServiceState) (event : PromptEvent) (p : ℕ) :
    (s.publish event).endCount p = s.endCount p + if event.ends p then 1 else 0 := by
  simp [endCount, publish, countP_append, countP_singleton]

theorem endCount_aborted (s : PromptServiceState) (p q : ℕ) :
    (s.publish (.aborted p)).endCount q = s.endCount q + if p = q then 1 else 0 := by
  simp [endCount_publish, PromptEvent.ends]

end PromptServiceState

/-! ### Calls that go on -/

namespace Moves

variable {s : PromptServiceState} {d : PromptDispatch}

open PromptServiceState

theorem publish (s : PromptServiceState) {event : PromptEvent} (h : ∀ p, event.ends p = false) :
    Moves s (s.publish event) := by
  have hends : ∀ p, (s.publish event).endCount p = s.endCount p := fun p => by
    rw [endCount_publish, h p, if_neg Bool.false_ne_true, Nat.add_zero]
  refine ⟨rfl, rfl, rfl, fun p => ?_, fun _ => Nat.le_refl _, fun _ => Or.inl,
    fun p _ => Nat.le_of_eq ?_, fun d hd hsubmits => ⟨d, hd, hsubmits, rfl⟩⟩
  · unfold places
    rw [hends]
    rfl
  · rw [hends]
    rfl

theorem submits_setPhase (hd : d ∈ s.dispatches) {phase : DispatchPhase}
    (hphase : d.phase ≠ .failing) :
    ∀ d' ∈ (s.setPhase d phase).dispatches, d'.submits = true →
      ∃ d₀ ∈ s.dispatches, d₀.submits = true ∧ d₀.promptId = d'.promptId := by
  intro d' hd' hsubmits
  rcases mem_cons.1 hd' with rfl | hd'
  · refine ⟨d, hd, ?_, rfl⟩
    simp only [PromptDispatch.submits, decide_eq_true_eq] at hsubmits ⊢
    exact ⟨hsubmits.1, hphase⟩
  · exact ⟨d', mem_of_mem_erase hd', hsubmits, rfl⟩

theorem activate (h : PromptsPlaced s) (hd : d ∈ s.dispatches) (hphase : d.phase = .preparing)
    (hfree : ∀ q ∈ s.active, s.isAborted q = true) :
    Moves s { s.setPhase d .calling with active := some d.promptId } := by
  have hheld : 0 < s.heldCount d.promptId :=
    PromptsPlaced.heldCount_pos hd (by simp [holds, hphase])
  have hnot : s.isAborted d.promptId = false := h.not_aborted (by omega)
  have hold : ∀ p, s.activeCount p = 0 := by
    intro p
    refine if_neg fun hp => ?_
    rw [hfree p hp.1] at hp
    cases hp.2
  have hnew : ∀ p, activeCount { s.setPhase d .calling with active := some d.promptId } p =
      if d.promptId = p then 1 else 0 := by
    intro p
    unfold activeCount
    by_cases hp : d.promptId = p
    · rw [if_pos hp, if_pos ⟨congrArg some hp, hp ▸ hnot⟩]
    · rw [if_neg hp, if_neg fun hs => hp (some.inj hs.1)]
  refine ⟨rfl, rfl, rfl, fun p => ?_, fun p => ?_, fun _ => Or.inl, fun _ _ => Nat.le_refl _,
    submits_setPhase hd (by simp [hphase])⟩
  · have hcalls := heldCount_setPhase hd .calling p
    have hbefore := hold p
    have hafter := hnew p
    simp [holds, hphase] at hcalls
    unfold places
    rw [hbefore, hafter]
    change _ + s.queued.count p + (s.setPhase d .calling).heldCount p + s.steerCount p +
      s.aborts.count p + s.endCount p = _
    omega
  · have hcalls := mayRunCount_setPhase hd .calling p
    simp [mayRun, hphase] at hcalls
    unfold runs
    change s.queued.count p + (s.setPhase d .calling).mayRunCount p + s.steerCount p +
      s.launched.count p ≤ _
    omega

theorem heldCount_endDispatch (hd : d ∈ s.dispatches) (p : ℕ) :
    (s.endDispatch d).heldCount p + (if d.holds p then 1 else 0) = s.heldCount p :=
  countP_erase_of_mem hd (·.holds p)

theorem mayRunCount_endDispatch (hd : d ∈ s.dispatches) (p : ℕ) :
    (s.endDispatch d).mayRunCount p + (if d.mayRun p then 1 else 0) = s.mayRunCount p :=
  countP_erase_of_mem hd (·.mayRun p)

theorem submits_endDispatch {d' : PromptDispatch} (hd' : d' ∈ (s.endDispatch d).dispatches)
    (hsubmits : d'.submits = true) :
    ∃ d₀ ∈ s.dispatches, d₀.submits = true ∧ d₀.promptId = d'.promptId :=
  ⟨d', mem_of_mem_erase hd', hsubmits, rfl⟩

theorem launch (hd : d ∈ s.dispatches) (hphase : d.phase = .calling) :
    Moves s { s.endDispatch d with launched := s.launched ++ [d.promptId] } := by
  refine ⟨rfl, rfl, rfl, fun p => ?_, fun p => ?_, fun _ => Or.inl, fun _ _ => Nat.le_refl _,
    fun d' => submits_endDispatch⟩
  · have hcalls := heldCount_endDispatch hd p
    simp [holds, hphase] at hcalls
    unfold places
    change s.activeCount p + s.queued.count p + (s.endDispatch d).heldCount p + s.steerCount p +
      s.aborts.count p + s.endCount p = _
    omega
  · have hcalls := mayRunCount_endDispatch hd p
    simp [mayRun, hphase] at hcalls
    unfold runs
    change s.queued.count p + (s.endDispatch d).mayRunCount p + s.steerCount p +
      (s.launched ++ [d.promptId]).count p ≤ _
    rw [count_append, count_singleton]
    simp only [beq_iff_eq]
    omega

/-- Without the slot: nothing else changes, and the prompt in it has been counted. -/
theorem activeCount_clear (s : PromptServiceState) (p q : ℕ) :
    (s.clearActive q).activeCount p = if q = p then 0 else s.activeCount p := by
  unfold clearActive
  split_ifs with hactive hp hp
  · exact if_neg fun h => nomatch h.1
  · refine (if_neg fun h => nomatch h.1).trans (if_neg fun h => ?_).symm
    exact hp (some.inj (hactive.symm.trans h.1))
  · exact if_neg fun h => hactive (hp ▸ h.1)
  · rfl

variable {p : ℕ}

theorem activeCount_active (hactive : s.active = some p) (hnot : s.isAborted p = false)
    (q : ℕ) : s.activeCount q = if p = q then 1 else 0 := by
  unfold activeCount
  by_cases hp : p = q
  · rw [if_pos hp, if_pos ⟨hp ▸ hactive, hp ▸ hnot⟩]
  · rw [if_neg hp, if_neg fun hs => hp (some.inj (hactive.symm.trans hs.1))]

theorem busy (hd : d ∈ s.dispatches) (hphase : d.phase = .calling)
    (hactive : s.active = some d.promptId) (hnot : s.isAborted d.promptId = false) :
    Moves s (s.busy d) := by
  have hbusy : s.busy d = { s.setPhase d .refused with active := none } := by
    unfold PromptServiceState.busy clearActive
    rw [if_pos hactive]
    rfl
  have hafter : ∀ p, activeCount { s.setPhase d .refused with active := none } p = 0 :=
    fun p => if_neg fun hs => nomatch hs.1
  rw [hbusy]
  refine ⟨rfl, rfl, rfl, fun p => ?_, fun p => ?_, fun _ => Or.inl, fun _ _ => Nat.le_refl _,
    submits_setPhase hd (by simp [hphase])⟩
  · have hheld := heldCount_setPhase hd .refused p
    simp [holds, hphase] at hheld
    unfold places
    rw [hafter, activeCount_active hactive hnot]
    change 0 + s.queued.count p + (s.setPhase d .refused).heldCount p + s.steerCount p +
      s.aborts.count p + s.endCount p = _
    omega
  · have hmay := mayRunCount_setPhase hd .refused p
    simp [mayRun, hphase] at hmay
    unfold runs
    change s.queued.count p + (s.setPhase d .refused).mayRunCount p + s.steerCount p +
      s.launched.count p ≤ _
    omega

theorem threw (hd : d ∈ s.dispatches) (hphase : d.phase = .calling) (hqueue : d.fromQueue = true)
    (hgone : s.activeCount d.promptId = 0) : Moves s (s.threw d) := by
  have hthrew : s.threw d = (s.clearActive d.promptId).setPhase d .failing := if_pos hqueue
  have hclear : ∀ p, (s.clearActive d.promptId).activeCount p = s.activeCount p := by
    intro p
    rw [activeCount_clear]
    split_ifs with hp
    · exact (hp ▸ hgone).symm
    · rfl
  have hfields : (s.clearActive d.promptId).setPhase d .failing =
      { s.setPhase d .failing with active := (s.clearActive d.promptId).active } := by
    unfold clearActive
    split_ifs <;> rfl
  have hactive : ∀ p, activeCount
      { s.setPhase d .failing with active := (s.clearActive d.promptId).active } p =
        s.activeCount p := by
    intro p
    rw [← hfields, ← hclear p]
    rfl
  rw [hthrew, hfields]
  refine ⟨rfl, rfl, rfl, fun p => ?_, fun p => ?_, fun _ => Or.inl, fun _ _ => Nat.le_refl _,
    submits_setPhase hd (by simp [hphase])⟩
  · have hheld := heldCount_setPhase hd .failing p
    simp [holds, hphase] at hheld
    unfold places
    rw [hactive]
    change _ + s.queued.count p + (s.setPhase d .failing).heldCount p + s.steerCount p +
      s.aborts.count p + s.endCount p = _
    omega
  · have hmay := mayRunCount_setPhase hd .failing p
    simp [mayRun, hphase] at hmay
    unfold runs
    change s.queued.count p + (s.setPhase d .failing).mayRunCount p + s.steerCount p +
      s.launched.count p ≤ _
    omega

theorem endFailing (hd : d ∈ s.dispatches) (hphase : d.phase = .failing) :
    Moves s (s.endDispatch d) := by
  refine of_waiting rfl rfl rfl rfl rfl rfl rfl (fun p => ?_) (fun p => ?_)
    fun d' => submits_endDispatch
  · have hheld := heldCount_endDispatch hd p
    simp [holds, hphase] at hheld
    change s.queued.count p + (s.endDispatch d).heldCount p + s.steerCount p = _
    omega
  · have hmay := mayRunCount_endDispatch hd p
    simp [mayRun, hphase] at hmay
    change s.queued.count p + (s.endDispatch d).mayRunCount p + s.steerCount p ≤ _
    omega

theorem requeue (hd : d ∈ s.dispatches) (hphase : d.phase = .refused) (queued : List ℕ)
    (hqueued : ∀ p, queued.count p = s.queued.count p + if d.promptId = p then 1 else 0) :
    Moves s { s.endDispatch d with queued } := by
  refine of_waiting rfl rfl rfl rfl rfl rfl rfl (fun p => ?_) (fun p => ?_)
    fun d' => submits_endDispatch
  · have hheld := heldCount_endDispatch hd p
    simp [holds, hphase] at hheld
    change queued.count p + (s.endDispatch d).heldCount p + s.steerCount p = _
    have hnew := hqueued p
    omega
  · have hmay := mayRunCount_endDispatch hd p
    simp [mayRun, hphase] at hmay
    change queued.count p + (s.endDispatch d).mayRunCount p + s.steerCount p ≤ _
    have hnew := hqueued p
    omega

/-! ### Steering and aborting -/

theorem steer (h : PromptsPlaced s) {promptIds : List ℕ} {u : PromptServiceState}
    (hu : s.steer promptIds = some u) : Moves s u := by
  unfold PromptServiceState.steer at hu
  split_ifs at hu with hlength hactive hall
  cases hu
  have hcount : ∀ p, (s.queued.filter (!promptIds.contains ·)).count p +
      (if promptIds.contains p then 1 else 0) = s.queued.count p := by
    intro p
    rw [count_filter_notContains]
    split_ifs with hp
    · have hmem := all_eq_true.1 hall p (contains_iff_mem.1 hp)
      have hpos := count_pos_iff.2 (contains_iff_mem.1 hmem)
      have hle := h.places_le p
      unfold places at hle
      omega
    · rfl
  refine of_waiting rfl rfl rfl rfl rfl rfl rfl (fun p => ?_) (fun p => ?_)
    fun d hd hsub => ⟨d, hd, hsub, rfl⟩
  · have hqueued := hcount p
    simp only [heldCount, steerCount, countP_cons]
    omega
  · have hqueued := hcount p
    simp only [mayRunCount, steerCount, countP_cons]
    omega

variable {steer : PromptSteer}

theorem steerCount_erase (hsteer : steer ∈ s.steers) (p : ℕ) :
    (s.steers.erase steer).countP (·.promptIds.contains p) +
      (if steer.promptIds.contains p then 1 else 0) = s.steerCount p :=
  countP_erase_of_mem hsteer (·.promptIds.contains p)

theorem steered (hsteer : steer ∈ s.steers) : Moves s (s.steered steer) := by
  have hends : ∀ p, (s.steered steer).endCount p =
      s.endCount p + if steer.promptIds.contains p then 1 else 0 :=
    fun p => endCount_publish { s with steers := s.steers.erase steer } _ p
  have hsteers := fun p => steerCount_erase hsteer p
  refine ⟨rfl, rfl, rfl, fun p => ?_, fun p => ?_, fun _ => Or.inl, fun p _ => ?_,
    fun d hd hsub => ⟨d, hd, hsub, rfl⟩⟩
  · have hcount := hsteers p
    unfold places
    rw [hends]
    change s.activeCount p + s.queued.count p + s.heldCount p +
      (s.steers.erase steer).countP _ + s.aborts.count p + _ = _
    omega
  · have hcount := hsteers p
    unfold runs
    change s.queued.count p + s.mayRunCount p + (s.steers.erase steer).countP _ +
      s.launched.count p ≤ _
    omega
  · rw [hends]
    exact Nat.add_le_add_left (Nat.le_add_right _ _) _

theorem steerFailed (hsteer : steer ∈ s.steers) :
    Moves s { s with steers := ⟨steer.promptIds, true⟩ :: s.steers.erase steer } := by
  have hsteers : ∀ p, (⟨steer.promptIds, true⟩ :: s.steers.erase steer : List PromptSteer).countP
      (·.promptIds.contains p) = s.steerCount p := by
    intro p
    have hcount := steerCount_erase hsteer p
    rw [countP_cons]
    exact hcount
  refine of_waiting rfl rfl rfl rfl rfl rfl rfl (fun p => ?_) (fun p => ?_)
    fun d hd hsub => ⟨d, hd, hsub, rfl⟩
  · change s.queued.count p + s.heldCount p + countP _ _ = _
    rw [hsteers]
  · change s.queued.count p + s.mayRunCount p + countP _ _ ≤ _
    exact Nat.le_of_eq (by rw [hsteers])

/-- Prompts that could not be steered go back in front of the queue, each once. -/
theorem steerDiscarded (h : PromptsPlaced s) (hsteer : steer ∈ s.steers)
    (hnodup : steer.promptIds.Nodup) :
    Moves s ({ s with steers := s.steers.erase steer }.restoreSteeredQueueItems
      steer.promptIds) := by
  have hqueued : ∀ p, (steer.promptIds.filter (!s.queued.contains ·) ++ s.queued).count p =
      s.queued.count p + if steer.promptIds.contains p then 1 else 0 := by
    intro p
    rw [count_append, count_filter_notContains]
    split_ifs with hin hmem hmem
    · -- a prompt that is being steered is not in the queue
      have hpos := count_pos_iff.2 (contains_iff_mem.1 hin)
      have hsteers : 0 < s.steerCount p := countP_pos_iff.2 ⟨steer, hsteer, hmem⟩
      have hle := h.places_le p
      unfold places at hle
      omega
    · omega
    · rw [hnodup.count, if_pos (contains_iff_mem.1 hmem), Nat.add_comm]
    · rw [count_eq_zero.2 fun hp => hmem (contains_iff_mem.2 hp), Nat.add_comm]
  refine of_waiting rfl rfl rfl rfl rfl rfl rfl (fun p => ?_) (fun p => ?_)
    fun d hd hsub => ⟨d, hd, hsub, rfl⟩
  · have hcount := steerCount_erase hsteer p
    change count p (_ ++ _) + s.heldCount p + countP _ (s.steers.erase steer) = _
    rw [hqueued]
    omega
  · have hcount := steerCount_erase hsteer p
    change count p (_ ++ _) + s.mayRunCount p + countP _ (s.steers.erase steer) ≤ _
    rw [hqueued]
    omega

variable {f : PromptState → PromptState}

theorem isAborted_flag (hp : p < s.prompts.length)
    (aborted : Bool) (hf : ∀ state, (f state).aborted = aborted) (q : ℕ) :
    (s.updatePrompt p f).isAborted q = if p = q then aborted else s.isAborted q := by
  rw [isAborted_updatePrompt]
  split_ifs with hpq
  · rw [← hpq, getElem?_eq_getElem hp]
    simp [hf]
  · rfl

/-- The active prompt is to be aborted: the call that aborts it holds it. -/
theorem abortActive (h : PromptsPlaced s) (hactive : s.active = some p)
    (hnot : s.isAborted p = false) :
    Moves s { s.updatePrompt p fun state => { state with aborted := true } with
      aborts := p :: s.aborts } := by
  have hbefore := activeCount_active hactive hnot
  have hp : p < s.prompts.length := h.lt_of_places (by
    unfold places
    rw [hbefore, if_pos rfl]
    omega)
  have hflag := isAborted_flag hp (f := fun state => { state with aborted := true })
    true fun _ => rfl
  have hafter : ∀ q, activeCount { s.updatePrompt p fun state => { state with aborted := true } with
      aborts := p :: s.aborts } q = 0 := by
    intro q
    refine if_neg fun hs => ?_
    have hpq : p = q := some.inj (hactive.symm.trans hs.1)
    have hfalse := (hflag q).symm.trans hs.2
    rw [if_pos hpq] at hfalse
    cases hfalse
  refine ⟨?_, rfl, rfl, fun q => ?_, fun _ => Nat.le_refl _, fun q hq => ?_, fun q _ => ?_,
    fun d hd hsub => ⟨d, hd, hsub, rfl⟩⟩
  · exact length_modify _ _ _
  · unfold places
    rw [hafter, hbefore]
    change 0 + s.queued.count q + s.heldCount q + s.steerCount q + (p :: s.aborts).count q +
      s.endCount q = _
    rw [count_cons]
    simp only [beq_iff_eq]
    omega
  · by_cases hpq : p = q
    · refine Or.inr ?_
      rw [count_cons, if_pos (beq_iff_eq.2 hpq)]
      omega
    · have hsame := (hflag q).symm.trans hq
      rw [if_neg hpq] at hsame
      exact Or.inl hsame
  · change s.aborts.count q + s.endCount q ≤ (p :: s.aborts).count q + s.endCount q
    rw [count_cons]
    omega

theorem abortQueued (hp : p ∈ s.queued) :
    Moves s ({ s with queued := s.queued.erase p }.publish (.aborted p)) := by
  have hends : ∀ q, endCount ({ s with queued := s.queued.erase p }.publish (.aborted p)) q =
      s.endCount q + if p = q then 1 else 0 := by
    intro q
    exact endCount_aborted _ p q
  refine ⟨rfl, rfl, rfl, fun q => ?_, fun q => ?_, fun _ => Or.inl, fun q _ => ?_,
    fun d hd hsub => ⟨d, hd, hsub, rfl⟩⟩
  · have hcount := count_erase_of_mem hp q
    unfold places
    rw [hends]
    change s.activeCount q + (s.queued.erase p).count q + s.heldCount q + s.steerCount q +
      s.aborts.count q + _ = _
    omega
  · have hcount := count_erase_of_mem hp q
    unfold runs
    change (s.queued.erase p).count q + s.mayRunCount q + s.steerCount q + s.launched.count q ≤ _
    omega
  · rw [hends]
    exact Nat.add_le_add_left (Nat.le_add_right _ _) _

theorem cancelled (hp : p ∈ s.aborts) : Moves s (s.cancelled p) := by
  have hends : ∀ q, (s.cancelled p).endCount q = s.endCount q + if p = q then 1 else 0 := by
    intro q
    exact endCount_aborted { s with aborts := s.aborts.erase p } p q
  have hcount := fun q => count_erase_of_mem hp q
  refine ⟨rfl, rfl, rfl, fun q => ?_, fun _ => Nat.le_refl _, fun _ => Or.inl, fun q _ => ?_,
    fun d hd hsub => ⟨d, hd, hsub, rfl⟩⟩
  · have hq := hcount q
    unfold places
    rw [hends]
    change s.activeCount q + s.queued.count q + s.heldCount q + s.steerCount q +
      (s.aborts.erase p).count q + _ = _
    omega
  · have hq := hcount q
    rw [hends]
    change _ ≤ (s.aborts.erase p).count q + _
    omega

theorem cancelFailed (h : PromptsPlaced s) (hp : p ∈ s.aborts)
    (hactive : s.active = some p) : Moves s (s.cancelFailed p) := by
  have hpos := count_pos_iff.2 hp
  have hle := h.places_le p
  have hlt : p < s.prompts.length := h.lt_of_places (by unfold places; omega)
  have hbefore : ∀ q, s.activeCount q = 0 := by
    intro q
    by_cases hq : s.active = some q
    · have hpq : p = q := some.inj (hactive.symm.trans hq)
      unfold places at hle
      rw [← hpq]
      omega
    · exact if_neg fun hs => hq hs.1
  have hflag := isAborted_flag hlt (f := fun state => { state with aborted := false })
    false fun _ => rfl
  have hafter : ∀ q, (s.cancelFailed p).activeCount q = if p = q then 1 else 0 := by
    refine activeCount_active hactive ?_
    exact (hflag p).trans (if_pos rfl)
  have hcount := fun q => count_erase_of_mem hp q
  have hsame : ∀ q, (s.cancelFailed p).isAborted q = true → s.isAborted q = true ∧ p ≠ q := by
    intro q hq
    have hold := (hflag q).symm.trans hq
    split_ifs at hold with hpq
    exact ⟨hold, hpq⟩
  refine ⟨length_modify _ _ _, rfl, rfl, fun q => ?_, fun _ => Nat.le_refl _,
    fun q hq => Or.inl (hsame q hq).1, fun q hq => ?_, fun d hd hsub => ⟨d, hd, hsub, rfl⟩⟩
  · have hq := hcount q
    unfold places
    rw [hafter, hbefore]
    change _ + s.queued.count q + s.heldCount q + s.steerCount q + (s.aborts.erase p).count q +
      s.endCount q = _
    omega
  · have hne := hcount q
    rw [if_neg (hsame q hq).2] at hne
    change _ ≤ (s.aborts.erase p).count q + s.endCount q
    omega

/-! ### Events of turns -/

theorem updatePrompt (s : PromptServiceState) (p : ℕ)
    (hf : ∀ state, (f state).aborted = state.aborted) : Moves s (s.updatePrompt p f) := by
  have haborted : ∀ q, (s.updatePrompt p f).isAborted q = s.isAborted q := by
    intro q
    rw [isAborted_updatePrompt]
    split_ifs
    · simp only [hf]
      rfl
    · rfl
  refine ⟨length_modify _ _ _, rfl, rfl, fun q => ?_, fun _ => Nat.le_refl _, fun q hq => ?_,
    fun _ _ => Nat.le_refl _, fun d hd hsub => ⟨d, hd, hsub, rfl⟩⟩
  · unfold places activeCount
    rw [haborted]
    rfl
  · exact Or.inl (haborted q ▸ hq)

theorem turnStarted (s : PromptServiceState) (turnId : ℤ) : Moves s (s.turnStarted turnId) := by
  unfold PromptServiceState.turnStarted
  cases s.active with
  | none => exact refl s
  | some p => exact updatePrompt s p fun _ => rfl

theorem end_active (hactive : s.active = some p)
    (hnot : s.isAborted p = false) (event : PromptEvent)
    (hevent : ∀ q, event.ends q = decide (p = q)) :
    Moves s (({ s with active := none }.updatePrompt p f).publish event) := by
  have hends : ∀ q, (({ s with active := none }.updatePrompt p f).publish event).endCount q =
      s.endCount q + if p = q then 1 else 0 := by
    intro q
    refine (endCount_publish _ _ q).trans ?_
    simp only [hevent, decide_eq_true_eq]
    rfl
  have hafter : ∀ q,
      (({ s with active := none }.updatePrompt p f).publish event).activeCount q = 0 :=
    fun q => if_neg fun hs => nomatch hs.1
  refine ⟨length_modify _ _ _, rfl, rfl, fun q => ?_, fun _ => Nat.le_refl _, fun q hq => ?_,
    fun q _ => ?_, fun d hd hsub => ⟨d, hd, hsub, rfl⟩⟩
  · unfold places
    rw [hends, hafter, activeCount_active hactive hnot]
    change 0 + s.queued.count q + s.heldCount q + s.steerCount q + s.aborts.count q + _ = _
    omega
  · by_cases hpq : p = q
    · refine Or.inr ?_
      rw [hends, if_pos hpq]
      omega
    · have hold : (({ s with active := none }.updatePrompt p f).publish event).isAborted q =
          s.isAborted q :=
        (isAborted_updatePrompt _ p q f).trans (if_neg hpq)
      exact Or.inl (hold ▸ hq)
  · rw [hends]
    exact Nat.add_le_add_left (Nat.le_add_right _ _) _

theorem free (hnone : ∀ p, s.activeCount p = 0) : Moves s { s with active := none } := by
  refine ⟨rfl, rfl, rfl, fun q => ?_, fun _ => Nat.le_refl _, fun _ => Or.inl,
    fun _ _ => Nat.le_refl _, fun d hd hsub => ⟨d, hd, hsub, rfl⟩⟩
  have hafter : activeCount { s with active := none } q = 0 := if_neg fun hs => nomatch hs.1
  unfold places
  rw [hafter, hnone]
  rfl

end Moves

namespace PromptsPlaced

variable {s : PromptServiceState} {d : PromptDispatch}

open PromptServiceState

theorem promptEnded (h : PromptsPlaced s) {p : ℕ} (hactive : s.active = some p)
    (reason : TurnEndReason) : PromptsPlaced (s.promptEnded p reason) := by
  unfold PromptServiceState.promptEnded
  split_ifs with haborted hreason
  · have hnone : ∀ q, s.activeCount q = 0 := by
      intro q
      refine if_neg fun hs => ?_
      rw [← some.inj (hactive.symm.trans hs.1), haborted] at hs
      cases hs.2
    exact (h.moves (Moves.free hnone)).moves (Moves.startNextQueued _)
  · have hend := Moves.end_active hactive (by simpa using haborted)
      (f := fun state => { state with aborted := true }) (.aborted p) fun q => rfl
    exact (h.moves hend).moves (Moves.startNextQueued _)
  · have hend := Moves.end_active hactive (by simpa using haborted)
      (f := fun state => { state with completed := true })
      (.completed p (reason = .failed ∨ reason = .filtered)) fun q => rfl
    exact (h.moves hend).moves (Moves.startNextQueued _)

theorem turnEnded (h : PromptsPlaced s) (turnId : ℤ) (reason : TurnEndReason) :
    PromptsPlaced (s.turnEnded turnId reason) := by
  unfold PromptServiceState.turnEnded
  cases hactive : s.active with
  | none => exact h.moves (Moves.startNextQueued s)
  | some p =>
    dsimp only
    split_ifs
    · exact h.promptEnded hactive reason
    · exact h

/-! ### Submissions -/

variable {u : PromptServiceState}

theorem isAborted_created (hprompts : u.prompts = s.prompts ++ [({} : PromptState)]) (p : ℕ) :
    u.isAborted p = s.isAborted p := by
  unfold isAborted
  rw [hprompts, getElem?_append]
  split_ifs with hlt
  · rfl
  · rw [getElem?_eq_none (Nat.le_of_not_lt hlt), getElem?_singleton]
    split_ifs <;> rfl

theorem create (h : PromptsPlaced s)
    (hprompts : u.prompts = s.prompts ++ [({} : PromptState)]) (haborts : u.aborts = s.aborts)
    (hlog : u.log = s.log) (haccepted : u.accepted = s.accepted)
    (hrejected : u.rejected = s.rejected)
    (hplaces : ∀ p, u.places p = s.places p + if s.prompts.length = p then 1 else 0)
    (hruns : ∀ p, u.runs p = s.runs p + if s.prompts.length = p then 1 else 0)
    (hsubmits : ∀ d ∈ u.dispatches, d.submits = true →
      d ∈ s.dispatches ∨ d.promptId = s.prompts.length) : PromptsPlaced u := by
  have hlength : u.prompts.length = s.prompts.length + 1 := by rw [hprompts]; simp
  obtain ⟨hplaces₀, hruns₀, hrejected₀⟩ := h.fresh s.prompts.length (Nat.le_refl _)
  refine {
    places_le := fun p => ?_
    placed := fun p hp hrej => ?_
    fresh := fun p hp => ?_
    runs_le := fun p => ?_
    flag := fun p hp => ?_
    accepted := fun p hp => ?_
    submitting := fun d hd hsub => ?_ }
  · have hle := h.places_le p
    rw [hplaces]
    split_ifs with hnew
    · rw [← hnew]
      exact Nat.le_of_eq (congrArg (· + 1) hplaces₀)
    · omega
  · rw [hplaces]
    split_ifs with hnew
    · rw [← hnew, hplaces₀]
    · exact h.placed p (by omega) (hrejected ▸ hrej)
  · rw [hlength] at hp
    obtain ⟨hp₁, hp₂, hp₃⟩ := h.fresh p (by omega)
    refine ⟨?_, ?_, hrejected ▸ hp₃⟩
    · rw [hplaces, hp₁, if_neg (by omega)]
    · rw [hruns, hp₂, if_neg (by omega)]
  · have hle := h.runs_le p
    rw [hruns]
    split_ifs with hnew
    · rw [← hnew]
      exact Nat.le_of_eq (congrArg (· + 1) hruns₀)
    · omega
  · have hends := h.flag p (isAborted_created hprompts p ▸ hp)
    unfold endCount at hends ⊢
    rwa [haborts, hlog]
  · obtain ⟨hlt, hrej⟩ := h.accepted p (haccepted ▸ hp)
    exact ⟨by omega, hrejected ▸ hrej⟩
  · rw [haccepted, hrejected]
    rcases hsubmits d hd hsub with hold | hnew
    · exact h.submitting d hold hsub
    · rw [hnew]
      exact ⟨fun hmem => absurd (h.accepted _ hmem).1 (Nat.lt_irrefl _), hrejected₀⟩

theorem submit (h : PromptsPlaced s) : PromptsPlaced s.submit := by
  have hactive : ∀ {u : PromptServiceState}, u.prompts = s.prompts ++ [({} : PromptState)] →
      u.active = s.active → ∀ p, u.activeCount p = s.activeCount p := by
    intro u hprompts hu p
    unfold activeCount
    rw [hu, isAborted_created hprompts]
  unfold PromptServiceState.submit
  split_ifs
  · -- behind the active prompt
    have hqueued : PromptsPlaced { s with
        prompts := s.prompts ++ [({} : PromptState)]
        queued := s.queued ++ [s.prompts.length] } := by
      refine h.create rfl rfl rfl rfl rfl (fun p => ?_) (fun p => ?_) fun d hd _ => Or.inl hd
      · have hsame := hactive (u := { s with
          prompts := s.prompts ++ [({} : PromptState)]
          queued := s.queued ++ [s.prompts.length] }) rfl rfl p
        unfold places
        rw [hsame]
        change _ + (s.queued ++ [s.prompts.length]).count p + s.heldCount p + s.steerCount p +
          s.aborts.count p + s.endCount p = _
        rw [count_append, count_singleton]
        simp only [beq_iff_eq]
        omega
      · unfold runs
        change (s.queued ++ [s.prompts.length]).count p + s.mayRunCount p + s.steerCount p +
          s.launched.count p = _
        rw [count_append, count_singleton]
        simp only [beq_iff_eq]
        omega
    have hfresh := (h.fresh s.prompts.length (Nat.le_refl _)).2
    have haccept := hqueued.accept (p := s.prompts.length) (by simp) hfresh.2
      fun d hd hsub hid => ?_
    · exact haccept.moves (Moves.publish _ fun _ => rfl)
    · -- no call has the new number
      have hmay : 0 < s.mayRunCount s.prompts.length := by
        refine countP_pos_iff.2 ⟨d, hd, ?_⟩
        simp only [submits, decide_eq_true_eq] at hsub
        simp [mayRun, hid, hsub.2]
      have hzero := hfresh.1
      unfold runs at hzero
      omega
  · refine h.create rfl rfl rfl rfl rfl (fun p => ?_) (fun p => ?_) fun d hd _ => ?_
    · have hheld : heldCount (startPrompt { s with prompts := s.prompts ++ [({} : PromptState)] }
          s.prompts.length false) p = s.heldCount p + if s.prompts.length = p then 1 else 0 := by
        simp [heldCount, startPrompt, countP_cons, holds]
      have hsame := hactive (u := startPrompt
        { s with prompts := s.prompts ++ [({} : PromptState)] } s.prompts.length false) rfl rfl p
      unfold places
      rw [hsame, hheld]
      change _ + s.queued.count p + _ + s.steerCount p + s.aborts.count p + s.endCount p = _
      omega
    · have hmay : mayRunCount (startPrompt { s with prompts := s.prompts ++ [({} : PromptState)] }
          s.prompts.length false) p = s.mayRunCount p + if s.prompts.length = p then 1 else 0 := by
        simp [mayRunCount, startPrompt, countP_cons, mayRun]
      unfold runs
      rw [hmay]
      change s.queued.count p + _ + s.steerCount p + s.launched.count p = _
      omega
    · rcases mem_cons.1 hd with rfl | hd
      · exact Or.inr rfl
      · exact Or.inl hd

variable (h : PromptsPlaced s) (hd : d ∈ s.dispatches)

include h hd

theorem drop (hsubmits : d.submits = true) (hprompts : u.prompts = s.prompts)
    (haborts : u.aborts = s.aborts) (hlog : u.log = s.log) (haccepted : u.accepted = s.accepted)
    (hrejected : u.rejected = s.rejected ++ [d.promptId]) (hplaces : ∀ p, u.places p ≤ s.places p)
    (hsame : ∀ p, d.promptId ≠ p → u.places p = s.places p) (hruns : ∀ p, u.runs p ≤ s.runs p)
    (hcalls : ∀ d' ∈ u.dispatches, d'.submits = true → d' ∈ s.dispatches.erase d) :
    PromptsPlaced u := by
  have hphase : d.fromQueue = false ∧ d.phase ≠ .failing := by
    simpa only [submits, decide_eq_true_eq] using hsubmits
  have hlt : d.promptId < s.prompts.length := by
    by_contra hge
    have hmay : 0 < s.mayRunCount d.promptId := countP_pos_iff.2 ⟨d, hd, by simp [mayRun, hphase.2]⟩
    have hzero := (h.fresh d.promptId (Nat.le_of_not_lt hge)).2.1
    unfold runs at hzero
    omega
  refine {
    places_le := fun p => Nat.le_trans (hplaces p) (h.places_le p)
    placed := fun p hp hrej => ?_
    fresh := fun p hp => ?_
    runs_le := fun p => Nat.le_trans (hruns p) (h.runs_le p)
    flag := fun p hp => ?_
    accepted := fun p hp => ?_
    submitting := fun d' hd' hsub => ?_ }
  · rw [hrejected, mem_append, mem_singleton, not_or] at hrej
    rw [hsame p (Ne.symm hrej.2)]
    exact h.placed p (hprompts ▸ hp) hrej.1
  · rw [hprompts] at hp
    obtain ⟨hp₁, hp₂, hp₃⟩ := h.fresh p hp
    have hle₁ := hplaces p
    have hle₂ := hruns p
    refine ⟨by omega, by omega, ?_⟩
    rw [hrejected, mem_append, mem_singleton, not_or]
    exact ⟨hp₃, by omega⟩
  · have hends := h.flag p (by unfold isAborted at hp ⊢; rwa [hprompts] at hp)
    unfold endCount at hends ⊢
    rwa [haborts, hlog]
  · rw [haccepted] at hp
    obtain ⟨hlt', hrej⟩ := h.accepted p hp
    rw [hprompts, hrejected, mem_append, mem_singleton, not_or]
    refine ⟨hlt', hrej, ?_⟩
    rintro rfl
    exact (h.submitting d hd hsubmits).1 hp
  · have hmem := hcalls d' hd' hsub
    obtain ⟨hacc, hrej⟩ := h.submitting d' (mem_of_mem_erase hmem) hsub
    rw [haccepted, hrejected, mem_append, mem_singleton, not_or]
    exact ⟨hacc, hrej, h.submits_ne hd hphase.2 hmem hsub⟩

/-- The call of a submission throws; its prompt leaves the slot, if it had become active. -/
theorem threwSubmit (hqueue : d.fromQueue = false) (hphase : d.phase ≠ .failing) :
    PromptsPlaced (s.threw d) := by
  have hthrew : s.threw d = { (s.clearActive d.promptId).setPhase d .failing with
      rejected := ((s.clearActive d.promptId).setPhase d .failing).rejected ++ [d.promptId] } := by
    unfold threw reject
    rw [if_neg (by simp [hqueue])]
  have hfields : s.threw d = { s.setPhase d .failing with
      active := (s.clearActive d.promptId).active
      rejected := s.rejected ++ [d.promptId] } := by
    rw [hthrew]
    unfold clearActive
    split_ifs <;> rfl
  have hactive : ∀ p,
      (s.threw d).activeCount p = if d.promptId = p then 0 else s.activeCount p := by
    intro p
    rw [hthrew, ← Moves.activeCount_clear]
    rfl
  have hheld : ∀ p, (s.threw d).heldCount p + (if d.holds p then 1 else 0) = s.heldCount p := by
    intro p
    have hcalls := heldCount_setPhase hd .failing p
    have hnot : ({ d with phase := .failing } : PromptDispatch).holds p = false := by
      simp [holds]
    rw [hnot, if_neg Bool.false_ne_true, Nat.add_zero] at hcalls
    rw [hfields]
    exact hcalls
  have hmay : ∀ p, (s.threw d).mayRunCount p + (if d.mayRun p then 1 else 0) = s.mayRunCount p := by
    intro p
    have hcalls := mayRunCount_setPhase hd .failing p
    have hnot : ({ d with phase := .failing } : PromptDispatch).mayRun p = false := by
      simp [mayRun]
    rw [hnot, if_neg Bool.false_ne_true, Nat.add_zero] at hcalls
    rw [hfields]
    exact hcalls
  have hplaces : ∀ p, (s.threw d).places p = (s.threw d).activeCount p + s.queued.count p +
      (s.threw d).heldCount p + s.steerCount p + s.aborts.count p + s.endCount p := by
    intro p
    rw [hfields]
    rfl
  have hruns : ∀ p, (s.threw d).runs p = s.queued.count p + (s.threw d).mayRunCount p +
      s.steerCount p + s.launched.count p := by
    intro p
    rw [hfields]
    rfl
  refine h.drop hd (by simp [submits, hqueue, hphase]) (by rw [hfields]; rfl)
    (by rw [hfields]; rfl) (by rw [hfields]; rfl) (by rw [hfields]; rfl) (by rw [hfields])
    (fun p => ?_) (fun p hp => ?_) (fun p => ?_) fun d' hd' hsub => ?_
  · have hle := hheld p
    have hact := hactive p
    rw [hplaces]
    unfold places
    split_ifs at hact <;> omega
  · have hle := hheld p
    have hnot : d.holds p = false := by simp [holds, hp]
    rw [hnot, if_neg Bool.false_ne_true] at hle
    rw [hplaces, hactive, if_neg hp]
    unfold places
    omega
  · have hle := hmay p
    rw [hruns]
    unfold runs
    omega
  · rw [hfields] at hd'
    rcases mem_cons.1 hd' with rfl | hd'
    · simp [submits] at hsub
    · exact hd'

theorem captureFailed (hqueue : d.fromQueue = false) (hphase : d.phase = .preparing) :
    PromptsPlaced (s.captureFailed d) := by
  have hfailed : s.captureFailed d =
      { s.endDispatch d with rejected := s.rejected ++ [d.promptId] } := by
    simp [PromptServiceState.captureFailed, reject, hqueue, endDispatch]
  rw [hfailed]
  refine h.drop hd (by simp [submits, hqueue, hphase]) rfl rfl rfl rfl rfl
    (fun p => ?_) (fun p hp => ?_) (fun p => ?_) fun d' hd' _ => hd'
  · have hheld := Moves.heldCount_endDispatch hd p
    unfold places
    change s.activeCount p + s.queued.count p + (s.endDispatch d).heldCount p + s.steerCount p +
      s.aborts.count p + s.endCount p ≤ _
    omega
  · have hheld := Moves.heldCount_endDispatch hd p
    have hnot : d.holds p = false := by simp [holds, hp]
    rw [hnot, if_neg Bool.false_ne_true] at hheld
    unfold places
    change s.activeCount p + s.queued.count p + (s.endDispatch d).heldCount p + s.steerCount p +
      s.aborts.count p + s.endCount p = _
    omega
  · have hmay := Moves.mayRunCount_endDispatch hd p
    unfold runs
    change s.queued.count p + (s.endDispatch d).mayRunCount p + s.steerCount p +
      s.launched.count p ≤ _
    omega

end PromptsPlaced

/-! ### The condition, and runs -/

/-- **The condition on a step.** -/
def KeepsPrompts (s : PromptServiceState) : PromptStep → Prop
  /- Nothing that has not been aborted is active when another prompt becomes active. -/
  | .prepared _ => ∀ q ∈ s.active, s.isAborted q = true
  /- The start of a queued prompt does not fail while the prompt is under way. -/
  | .captureFailed d | .overrideFailed d => d.fromQueue = false
  | .threw d => d.fromQueue = true → s.activeCount d.promptId = 0
  /- A prompt that is refused has neither ended nor been aborted. -/
  | .busy d => s.active = some d.promptId ∧ s.isAborted d.promptId = false
  /- A steer that fails names every prompt once. -/
  | .steerDiscarded steer => steer.promptIds.Nodup
  /- A turn that could not be cancelled has not ended. -/
  | .cancelFailed p => s.active = some p
  | _ => True

namespace PromptsPlaced

variable {s u : PromptServiceState} {d : PromptDispatch}

open PromptServiceState

section

variable (h : PromptsPlaced s) (hd : d ∈ s.dispatches)

include h hd

theorem lt_of_mem_dispatches (hphase : d.phase ≠ .failing) : d.promptId < s.prompts.length := by
  by_contra hge
  have hmay : 0 < s.mayRunCount d.promptId := countP_pos_iff.2 ⟨d, hd, by simp [mayRun, hphase]⟩
  have hzero := (h.fresh d.promptId (Nat.le_of_not_lt hge)).2.1
  unfold runs at hzero
  omega

theorem started (hphase : d.phase = .calling) : PromptsPlaced (s.started d) := by
  have hlaunch := h.moves (Moves.launch hd hphase)
  unfold PromptServiceState.started
  split_ifs with hqueue
  · exact hlaunch
  · have hsubmits : d.submits = true := by simp [submits, hqueue, hphase]
    refine hlaunch.accept (h.lt_of_mem_dispatches hd (by simp [hphase]))
      (h.submitting d hd hsubmits).2 fun d' hd' hsub => ?_
    exact h.submits_ne hd (by simp [hphase]) hd' hsub

theorem discarded (hphase : d.phase = .refused ∨ d.phase = .failing) :
    PromptsPlaced (s.discarded d) := by
  unfold PromptServiceState.discarded
  by_cases hrefused : d.phase = .refused
  · rw [if_pos hrefused]
    split_ifs with hqueue
    · refine h.moves (Moves.requeue hd hrefused _ fun p => ?_)
      change (d.promptId :: s.queued).count p = _
      rw [count_cons]
      simp
    · have hmoved := h.moves (Moves.requeue hd hrefused (s.queued ++ [d.promptId])
        fun p => by rw [count_append, count_singleton]; simp)
      have hsubmits : d.submits = true := by simp [submits, hqueue, hrefused]
      have haccept := hmoved.accept (h.lt_of_mem_dispatches hd (by simp [hrefused]))
        (h.submitting d hd hsubmits).2 fun d' hd' hsub =>
          h.submits_ne hd (by simp [hrefused]) hd' hsub
      exact haccept.moves (Moves.startNextQueued _)
  · rw [if_neg hrefused]
    have hended := h.moves (Moves.endFailing hd (hphase.resolve_left hrefused))
    split_ifs
    · exact hended.moves (Moves.startNextQueued _)
    · exact hended

end

theorem step (h : PromptsPlaced s) {a : PromptStep} (ha : KeepsPrompts s a)
    (hu : s.step a = some u) : PromptsPlaced u := by
  cases a <;> simp only [PromptServiceState.step] at hu
  case submit => exact some.inj hu ▸ h.submit
  case steer promptIds => exact h.moves (Moves.steer h hu)
  case abort p =>
    simp only [PromptServiceState.abort] at hu
    split_ifs at hu with hactive hflags hqueued
    · rw [Bool.or_eq_true, not_or, Bool.not_eq_true, Bool.not_eq_true] at hflags
      exact some.inj hu ▸ h.moves (Moves.abortActive h hactive hflags.2)
    · exact some.inj hu ▸ h.moves (Moves.abortQueued hqueued)
  case captureFailed d =>
    split_ifs at hu with hd
    exact some.inj hu ▸ h.captureFailed hd.1 ha hd.2
  case overrideFailed d =>
    split_ifs at hu with hd
    exact some.inj hu ▸ h.threwSubmit hd.1 ha (by simp [hd.2])
  case prepared d =>
    split_ifs at hu with hd
    have hactivate := h.moves (Moves.activate h hd.1 hd.2 ha)
    cases hu
    unfold PromptServiceState.prepared
    split_ifs
    · exact hactivate
    · exact hactivate.moves (Moves.publish _ fun _ => rfl)
  case started d =>
    split_ifs at hu with hd
    exact some.inj hu ▸ h.started hd.1 hd.2
  case busy d =>
    split_ifs at hu with hd
    exact some.inj hu ▸ h.moves (Moves.busy hd.1 hd.2 ha.1 ha.2)
  case threw d =>
    split_ifs at hu with hd
    cases hu
    cases hqueue : d.fromQueue with
    | true => exact h.moves (Moves.threw hd.1 hd.2 hqueue (ha hqueue))
    | false => exact h.threwSubmit hd.1 hqueue (by simp [hd.2])
  case discarded d =>
    split_ifs at hu with hd
    exact some.inj hu ▸ h.discarded hd.1 hd.2
  case steered steer =>
    split_ifs at hu with hsteer
    exact some.inj hu ▸ h.moves (Moves.steered hsteer.1)
  case steerFailed steer =>
    split_ifs at hu with hsteer
    exact some.inj hu ▸ h.moves (Moves.steerFailed hsteer.1)
  case steerDiscarded steer =>
    split_ifs at hu with hsteer
    exact some.inj hu ▸ h.moves (Moves.steerDiscarded h hsteer.1 ha)
  case cancelled p =>
    split_ifs at hu with hp
    exact some.inj hu ▸ h.moves (Moves.cancelled hp)
  case cancelFailed p =>
    split_ifs at hu with hp
    exact some.inj hu ▸ h.moves (Moves.cancelFailed h hp ha)
  case turnStarted turnId => exact some.inj hu ▸ h.moves (Moves.turnStarted s turnId)
  case turnEnded turnId reason => exact some.inj hu ▸ h.turnEnded turnId reason
  case errorEvent => exact some.inj hu ▸ h

end PromptsPlaced

/-- **Every accepted prompt is in exactly one place**: active and not aborted, in the queue once,
held by one call that waits for the core, or at its end, told by one event.  The core takes it at
most once. -/
theorem prompt_in_one_place {s : PromptServiceState} {steps : List PromptStep}
    (h : LibRun.Run step KeepsPrompts {} steps s) :
    ∀ p ∈ s.accepted, s.places p = 1 ∧ s.runs p ≤ 1 := by
  have hplaced := h.invariant PromptsPlaced.initial fun _ _ _ ht ha hu => ht.step ha hu
  intro p hp
  obtain ⟨hlt, hrejected⟩ := hplaced.accepted p hp
  exact ⟨hplaced.placed p hlt hrejected, hplaced.runs_le p⟩

/-! ### Examples -/

instance KeepsPrompts.decidable (s : PromptServiceState) (a : PromptStep) :
    Decidable (KeepsPrompts s a) :=
  match a with
  | .prepared _ => inferInstanceAs (Decidable (∀ q ∈ s.active, s.isAborted q = true))
  | .captureFailed d | .overrideFailed d => inferInstanceAs (Decidable (d.fromQueue = false))
  | .threw d => inferInstanceAs (Decidable (d.fromQueue = true → s.activeCount d.promptId = 0))
  | .busy _ => inferInstanceAs (Decidable (_ ∧ _))
  | .steerDiscarded steer => inferInstanceAs (Decidable steer.promptIds.Nodup)
  | .cancelFailed p => inferInstanceAs (Decidable (s.active = some p))
  | .submit | .steer _ | .abort _ | .started _ | .discarded _ | .steered _ | .steerFailed _
  | .cancelled _ | .turnStarted _ | .turnEnded _ _ | .errorEvent => inferInstanceAs (Decidable True)

/-- Two prompts are submitted; the second one waits, and is steered into the turn of the first. -/
def steerSecond : List PromptStep :=
  [.submit, .prepared ⟨0, false, .preparing⟩, .started ⟨0, false, .calling⟩, .submit,
    .turnStarted 0, .steer [1], .steered ⟨[1], false⟩]

theorem prompt_in_one_place_steerSecond : ∃ s : PromptServiceState,
    s.accepted = [0, 1] ∧ s.places 0 = 1 ∧ s.places 1 = 1 := by
  have hrun : ∃ s, LibRun.Run step KeepsPrompts {} steerSecond s ∧ s.accepted = [0, 1] :=
    ⟨_, LibRun.run_of_exec rfl (by decide +kernel), rfl⟩
  obtain ⟨s, hs, haccepted⟩ := hrun
  have hplaces := prompt_in_one_place hs
  exact ⟨s, haccepted, (hplaces 0 (by simp [haccepted])).1, (hplaces 1 (by simp [haccepted])).1⟩

/-- **A steered prompt completes or aborts with no event.**  It is not active, not in the queue, and
clients are told nothing but that it has been steered. -/
theorem steered_prompt_nowhere : ∃ s : PromptServiceState,
    LibRun.Run step LibRun.always {} steerSecond s ∧ 1 ∈ s.accepted ∧
      s.active ≠ some 1 ∧ 1 ∉ s.queued ∧ .aborted 1 ∉ s.log ∧
        ∀ failed, .completed 1 failed ∉ s.log :=
  ⟨_, LibRun.run_of_exec rfl (LibRun.legal_always _ _), by decide +kernel⟩

end NoriCode
