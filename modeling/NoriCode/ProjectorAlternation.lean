/-
**When the strict projection alternates.**

Strict providers want the first message to be a user message and no two assistant messages next to
each other.  The strict projection always achieves the first.  For the second it merges adjacent
assistant messages, but it drops orphans afterwards, so two assistant messages that were separated
by orphans only end up next to each other.

The proof scans a history once, with the state `Cover` of what stands before the current
position.  Merging does not change the outcome of the scan (`clash_mergeConsecutive`), an
exchange acts on it like a message that is no assistant message (`Closes.clash`), and on a
history without neighbours the scan says whether the dropped orphans uncover some
(`clash_leading_eq_false_iff`).

Main definitions:

* `StartsWithUser`, `NoAdjacentAssistants` — what a strict provider wants;
* `UncoveredAssistants` — two assistant messages that only orphans separate.

Main results:

* `strict_alternates_iff` — **assistant messages do not touch exactly when none are
  uncovered**.
-/

import NoriCode.ProjectorStrict

namespace NoriCode

open List Option

/-! ### Alternation -/

def StartsWithUser (out : List Message) : Prop := ∀ m ∈ out.head?, m.role = .user

/-- Two messages that may follow each other. -/
def MayFollow (a b : Message) : Prop := ¬ (a.role = .assistant ∧ b.role = .assistant)

def NoAdjacentAssistants (out : List Message) : Prop := out.IsChain MayFollow

theorem startsWithUser_dropLeading (l : List Message) :
    StartsWithUser (dropLeadingNonUserMessages l) := by
  intro m hm
  have h := head?_dropWhile_not (·.role != .user) l
  rw [dropLeadingNonUserMessages] at hm
  rw [Option.mem_def.1 hm] at h
  simpa using h

theorem noAdjacent_mergeConsecutive (l : List Message) :
    NoAdjacentAssistants (mergeConsecutiveAssistantMessages l) := by
  refine LibAdjacent.mergeAdjacent_isChain mergeAssistant? ?_ ?_ l
  · intro a b h hab
    simp [mergeAssistant?, hab] at h
  · intro x p m q hx hq hxq
    obtain ⟨hp, -⟩ := mergeAssistant?_eq_some hq
    exact hx ⟨hxq.1, hp⟩

theorem NoAdjacentAssistants.tail {m : Message} {l : List Message}
    (h : NoAdjacentAssistants (m :: l)) : NoAdjacentAssistants l := List.IsChain.tail h

/-! ### The scan -/

/-- What stands before a position: nothing behind a user message yet, a message that is no
assistant message, an assistant message, or an assistant message and then orphans. -/
inductive Cover where
  | leading
  | apart
  | touching
  | covered
  deriving DecidableEq

/-- Orphans cover an assistant message. -/
def Cover.orphan : Cover → Cover
  | .leading => .leading
  | .apart => .apart
  | .touching => .covered
  | .covered => .covered

/-- Whether an assistant message follows a covered one, where `after` says what an assistant
message leaves behind it. -/
def clash (ids : List String) (after : Message → Cover) : Cover → List Message → Bool
  | _, [] => false
  | c, m :: l =>
    if c = .leading then clash ids after (if m.role = .user then .apart else .leading) l
    else if isOrphan ids m then clash ids after c.orphan l
    else if m.role = .assistant then c == .covered || clash ids after (after m) l
    else clash ids after .apart l

section

variable {ids : List String} {after : Message → Cover}

variable {m : Message}

theorem not_isOrphan_of_ne_tool (h : m.role ≠ .tool) : isOrphan ids m = false := by
  simp [isOrphan, h]

theorem clash_leading_cons (m : Message) (l : List Message) :
    clash ids after .leading (m :: l) =
      clash ids after (if m.role = .user then .apart else .leading) l := by
  simp [clash]

variable {c : Cover}

theorem clash_assistant_cons (h : m.role = .assistant) (hc : c ≠ .leading) (l : List Message) :
    clash ids after c (m :: l) = (c == .covered || clash ids after (after m) l) := by
  simp [clash, hc, h, not_isOrphan_of_ne_tool]

theorem clash_other_cons (h : m.role ≠ .assistant) (ho : isOrphan ids m = false)
    (hc : c ≠ .leading) (l : List Message) :
    clash ids after c (m :: l) = clash ids after .apart l := by
  simp [clash, hc, h, ho]

theorem clash_orphan_cons (ho : isOrphan ids m = true) (hc : c ≠ .leading) (l : List Message) :
    clash ids after c (m :: l) = clash ids after c.orphan l := by
  simp [clash, hc, ho]

/-- The scan of an appended list sees its end only through the states it can start from. -/
theorem clash_append_congr {x y : List Message}
    (h : ∀ c, clash ids after c x = clash ids after c y) (pre : List Message) (c : Cover) :
    clash ids after c (pre ++ x) = clash ids after c (pre ++ y) := by
  induction pre generalizing c with
  | nil => exact h c
  | cons m pre ih => simp only [cons_append, clash, ih]

theorem clash_user_cons (h : m.role = .user) (c : Cover) (l : List Message) :
    clash ids after c (m :: l) = clash ids after .apart l := by
  have ho : isOrphan ids m = false := not_isOrphan_of_ne_tool (by simp [h])
  by_cases hc : c = .leading
  · rw [hc, clash_leading_cons, if_pos h]
  · exact clash_other_cons (by simp [h]) ho hc l

/-- Merged neighbours leave behind what the second of them leaves, so the scan does not change. -/
theorem clash_mergeConsecutive (l : List Message) (c : Cover) :
    clash ids (fun _ => .touching) c (mergeConsecutiveAssistantMessages l) =
      clash ids (fun _ => .touching) c l := by
  refine LibAdjacent.mergeAdjacent_induct mergeAssistant?
    (motive := fun out => clash ids (fun _ => .touching) c out =
      clash ids (fun _ => .touching) c l) ?_ rfl
  intro pre p m q post hq h
  obtain ⟨hp, hm, hqrole, -⟩ := mergeAssistant?_eq_some hq
  rw [← h]
  refine clash_append_congr (fun c => ?_) pre c
  by_cases hc : c = .leading
  · rw [hc, clash_leading_cons, clash_leading_cons, hp, hqrole, if_neg (by decide),
      clash_leading_cons, hm, if_neg (by decide)]
  · rw [clash_assistant_cons hqrole hc, clash_assistant_cons hp hc,
      clash_assistant_cons hm (by simp)]
    rfl

/-- What an assistant message leaves behind in the loose part of a history: with calls it is
followed by their results. -/
def afterLoose (m : Message) : Cover := if m.opensExchange then .apart else .touching

theorem clash_results (after : Message → Cover) {a : Message} {results : List Message}
    (hres : AnswersAll a results) (hids : a.callIds ⊆ ids) (out : List Message) :
    clash ids after .apart (results ++ out) = clash ids after .apart out := by
  have hnot : ∀ r ∈ results, r.role ≠ .assistant ∧ isOrphan ids r = false := by
    intro r hr
    obtain ⟨hrole, id, hid, hr⟩ := hres.mem r hr
    exact ⟨by simp [hrole], by simp [isOrphan, hr, hids hid]⟩
  clear hres
  induction results with
  | nil => rfl
  | cons r results ih =>
    obtain ⟨hrole, ho⟩ := hnot r (.head _)
    rw [cons_append, clash_other_cons hrole ho (by simp)]
    exact ih fun b hb => hnot b (.tail _ hb)

theorem clash_leading_results {a : Message} {results : List Message} (hres : AnswersAll a results)
    (out : List Message) :
    clash ids after .leading (results ++ out) = clash ids after .leading out := by
  have hnot : ∀ r ∈ results, r.role ≠ .user := fun r hr => by simp [(hres.mem r hr).1]
  clear hres
  induction results with
  | nil => rfl
  | cons r results ih =>
    rw [cons_append, clash_leading_cons, if_neg (hnot r (.head _))]
    exact ih fun b hb => hnot b (.tail _ hb)

variable {l : List Message}

theorem Closes.clash {out : List Message} (h : Closes l out)
    (hids : ∀ a ∈ l, a.role = .assistant → a.callIds ⊆ ids) (c : Cover) :
    NoriCode.clash ids (fun _ => .touching) c out = NoriCode.clash ids afterLoose c l := by
  induction h generalizing c with
  | nil => rfl
  | @single m l out hm _ ih =>
    have ih := ih fun a ha => hids a (.tail _ ha)
    simp [NoriCode.clash, ih, afterLoose, hm]
  | @exchange a results l out ha hres _ ih =>
    have ih := ih fun b hb => hids b (.tail _ hb)
    have hrole := Message.role_of_opensExchange ha
    have hsub := hids a (.head _) hrole
    by_cases hc : c = .leading
    · rw [hc, clash_leading_cons, clash_leading_cons, hrole, if_neg (by decide),
        clash_leading_results hres, ih]
    · rw [clash_assistant_cons hrole hc, clash_assistant_cons hrole hc, afterLoose, if_pos ha]
      -- the first result takes the position apart from the message it answers
      obtain ⟨r, rest, rfl⟩ := exists_cons_of_ne_nil (hres.ne_nil ha)
      obtain ⟨hr, id, hid, hrid⟩ := hres.mem r (.head _)
      have ho : isOrphan ids r = false := by simp [isOrphan, hrid, hsub hid]
      have hra : r.role ≠ .assistant := by simp [hr]
      have happart := clash_results (fun _ => .touching) hres hsub out
      rw [cons_append, clash_other_cons hra ho (by simp)] at happart
      rw [cons_append, clash_other_cons hra ho (by simp), happart, ih]

/-! ### What the scan says -/

/-- The state after a message, when orphans are dropped. -/
def coverOf (p : Message) : Cover := if p.role = .assistant then .covered else .apart

/-- An assistant message in front of messages it may be followed by is as good as covered. -/
theorem clash_touching (h : ∀ m ∈ l.head?, m.role ≠ .assistant) :
    clash ids after .touching l = clash ids after .covered l := by
  cases l with
  | nil => rfl
  | cons m l =>
    have hm := h m rfl
    cases ho : isOrphan ids m with
    | true => rw [clash_orphan_cons ho (by simp), clash_orphan_cons ho (by simp)]; rfl
    | false => rw [clash_other_cons hm ho (by simp), clash_other_cons hm ho (by simp)]

/-- Behind a message, the scan of a history without neighbours says whether dropping the orphans
makes neighbours. -/
theorem clash_coverOf_eq_false_iff (hl : NoAdjacentAssistants l) (p : Message) :
    clash ids (fun _ => .touching) (coverOf p) l = false ↔
      NoAdjacentAssistants (p :: l.filter (!isOrphan ids ·)) := by
  have hc : ∀ p, coverOf p ≠ .leading := by intro p; unfold coverOf; split_ifs <;> simp
  induction l generalizing p with
  | nil => simp [clash, NoAdjacentAssistants]
  | cons m l ih =>
    have ih := ih hl.tail
    cases ho : isOrphan ids m with
    | true =>
      have horphan : (coverOf p).orphan = coverOf p := by
        unfold coverOf; split_ifs <;> rfl
      rw [clash_orphan_cons ho (hc p), horphan]
      simpa [ho] using ih p
    | false =>
      simp only [filter_cons, ho, Bool.not_false, if_true, NoAdjacentAssistants, isChain_cons_cons]
      by_cases hm : m.role = .assistant
      · have hhead : ∀ b ∈ l.head?, b.role ≠ .assistant := by
          intro b hb hrole
          obtain ⟨rest, rfl⟩ := head?_eq_some_iff.1 hb
          exact (isChain_cons_cons.1 hl).1 ⟨hm, hrole⟩
        rw [clash_assistant_cons hm (hc p), clash_touching hhead, Bool.or_eq_false_iff]
        have ihm := ih m
        simp only [coverOf, hm, if_true] at ihm
        refine and_congr ?_ ihm
        unfold coverOf MayFollow
        split_ifs with hp <;> simp [hp, hm]
      · rw [clash_other_cons hm ho (hc p)]
        have ihm := ih m
        simp only [coverOf, hm, if_false] at ihm
        refine ihm.trans (and_iff_right ?_).symm
        simp [MayFollow, hm]

/-- The scan from the start of a history without neighbours says whether dropping the orphans and
the leading messages makes neighbours. -/
theorem clash_leading_eq_false_iff (hl : NoAdjacentAssistants l) :
    clash ids (fun _ => .touching) .leading l = false ↔
      NoAdjacentAssistants (dropLeadingNonUserMessages (l.filter (!isOrphan ids ·))) := by
  rw [dropLeading_filter]
  induction l with
  | nil => simp [clash, NoAdjacentAssistants, dropLeadingNonUserMessages]
  | cons m l ih =>
    by_cases hm : m.role = .user
    · have ho : isOrphan ids m = false := not_isOrphan_of_ne_tool (by simp [hm])
      have hcover : coverOf m = .apart := by simp [coverOf, hm]
      have h : clash ids _ (coverOf m) l = false ↔ _ := clash_coverOf_eq_false_iff hl.tail m
      rw [hcover] at h
      rw [clash_leading_cons, if_pos hm, h]
      simp [dropLeadingNonUserMessages, hm, ho]
    · rw [clash_leading_cons, if_neg hm, ih hl.tail]
      simp [dropLeadingNonUserMessages, hm]

/-! ### Uncovered assistant messages -/

/-- **Two assistant messages that only orphans separate**, the first of them without calls. -/
def UncoveredAssistants (ids : List String) (l : List Message) : Prop :=
  ∃ a gap b, a :: (gap ++ [b]) <:+: l ∧ a.role = .assistant ∧ a.toolCalls = [] ∧ gap ≠ [] ∧
    (∀ t ∈ gap, isOrphan ids t = true) ∧ b.role = .assistant

/-- An uncovered assistant message whose first orphans have been read already. -/
def UncoveredBehind (ids : List String) (l : List Message) : Prop :=
  ∃ gap b, gap ++ [b] <+: l ∧ (∀ t ∈ gap, isOrphan ids t = true) ∧ b.role = .assistant

theorem uncoveredBehind_cons :
    UncoveredBehind ids (m :: l) ↔
      m.role = .assistant ∨ (isOrphan ids m = true ∧ UncoveredBehind ids l) := by
  constructor
  · rintro ⟨gap, b, hpre, hgap, hb⟩
    cases gap with
    | nil =>
      rw [nil_append, cons_prefix_cons] at hpre
      exact Or.inl (hpre.1 ▸ hb)
    | cons t gap =>
      rw [cons_append, cons_prefix_cons] at hpre
      refine Or.inr ⟨hpre.1 ▸ hgap t (.head _), gap, b, hpre.2, ?_, hb⟩
      exact fun x hx => hgap x (.tail _ hx)
  · rintro (hm | ⟨ho, gap, b, hpre, hgap, hb⟩)
    · exact ⟨[], m, by simp, by simp, hm⟩
    · refine ⟨m :: gap, b, ?_, ?_, hb⟩
      · rw [cons_append, cons_prefix_cons]
        exact ⟨rfl, hpre⟩
      · intro t ht
        rcases mem_cons.1 ht with rfl | ht
        · exact ho
        · exact hgap t ht

theorem uncoveredAssistants_cons :
    UncoveredAssistants ids (m :: l) ↔
      (m.role = .assistant ∧ m.toolCalls = [] ∧ ∃ t l', l = t :: l' ∧ isOrphan ids t = true ∧
        UncoveredBehind ids l') ∨ UncoveredAssistants ids l := by
  constructor
  · rintro ⟨a, gap, b, hinfix, ha, hcalls, hgap, horphan, hb⟩
    rcases infix_cons_iff.1 hinfix with hcons | hinfix
    · obtain ⟨rfl, hpre⟩ := cons_prefix_cons.1 hcons
      obtain ⟨t, gap, rfl⟩ := exists_cons_of_ne_nil hgap
      obtain ⟨rest, rfl⟩ : ∃ rest, t :: gap ++ [b] ++ rest = l := hpre
      exact Or.inl ⟨ha, hcalls, t, gap ++ [b] ++ rest, rfl, horphan t (.head _), gap, b,
        prefix_append _ _, fun x hx => horphan x (.tail _ hx), hb⟩
    · exact Or.inr ⟨a, gap, b, hinfix, ha, hcalls, hgap, horphan, hb⟩
  · rintro (⟨hm, hcalls, t, l', rfl, ho, gap, b, hpre, hgap, hb⟩ | ⟨a, gap, b, hinfix, h⟩)
    · refine ⟨m, t :: gap, b, ?_, hm, hcalls, by simp, ?_, hb⟩
      · refine infix_cons_iff.2 (Or.inl (cons_prefix_cons.2 ⟨rfl, ?_⟩))
        rw [cons_append, cons_prefix_cons]
        exact ⟨rfl, hpre⟩
      · intro x hx
        rcases mem_cons.1 hx with rfl | hx
        · exact ho
        · exact hgap x hx
    · exact ⟨a, gap, b, infix_cons_iff.2 (Or.inr hinfix), h⟩

/-- The scan of a loose part finds exactly the uncovered assistant messages. -/
theorem clash_afterLoose_iff (l : List Message) :
    (clash ids afterLoose .apart l = true ↔ UncoveredAssistants ids l) ∧
    (clash ids afterLoose .touching l = true ↔ (∃ t l', l = t :: l' ∧ isOrphan ids t = true ∧
      UncoveredBehind ids l') ∨ UncoveredAssistants ids l) ∧
    (clash ids afterLoose .covered l = true ↔
      UncoveredBehind ids l ∨ UncoveredAssistants ids l) := by
  induction l with
  | nil => simp [clash, UncoveredAssistants, UncoveredBehind]
  | cons m l ih =>
    obtain ⟨ih₁, ih₂, ih₃⟩ := ih
    have hfirst : (∃ t l', m :: l = t :: l' ∧ isOrphan ids t = true ∧ UncoveredBehind ids l') ↔
        isOrphan ids m = true ∧ UncoveredBehind ids l := by
      constructor
      · rintro ⟨t, l', h, ho⟩
        obtain ⟨rfl, rfl⟩ := cons_eq_cons.1 h
        exact ho
      · exact fun h => ⟨m, l, rfl, h⟩
    rw [hfirst, uncoveredAssistants_cons, uncoveredBehind_cons]
    cases ho : isOrphan ids m with
    | true =>
      have hm : m.role ≠ .assistant := by
        intro hm
        rw [not_isOrphan_of_ne_tool (by simp [hm])] at ho
        cases ho
      rw [clash_orphan_cons ho (by simp), clash_orphan_cons ho (by simp),
        clash_orphan_cons ho (by simp)]
      simp [Cover.orphan, ih₁, ih₃, hm]
    | false =>
      by_cases hm : m.role = .assistant
      · rw [clash_assistant_cons hm (by simp), clash_assistant_cons hm (by simp),
          clash_assistant_cons hm (by simp)]
        cases hopen : m.opensExchange with
        | true =>
          have hcalls : m.toolCalls ≠ [] := by
            simpa [Message.opensExchange, hm] using hopen
          have hafter : afterLoose m = .apart := by simp [afterLoose, hopen]
          simp [hafter, ih₁, hm, hcalls]
        | false =>
          have hcalls : m.toolCalls = [] := by
            simpa [Message.opensExchange, hm] using hopen
          have hafter : afterLoose m = .touching := by simp [afterLoose, hopen]
          simp [hafter, ih₂, hm, hcalls]
      · rw [clash_other_cons hm ho (by simp), clash_other_cons hm ho (by simp),
          clash_other_cons hm ho (by simp)]
        simp [ih₁, hm]

theorem clash_leading_afterLoose_iff (l : List Message) :
    clash ids afterLoose .leading l = true ↔
      UncoveredAssistants ids (dropLeadingNonUserMessages l) := by
  induction l with
  | nil => simp [clash, UncoveredAssistants, dropLeadingNonUserMessages]
  | cons m l ih =>
    by_cases hm : m.role = .user
    · have hdrop : dropLeadingNonUserMessages (m :: l) = m :: l := by
        simp [dropLeadingNonUserMessages, hm]
      rw [clash_leading_cons, if_pos hm, hdrop, uncoveredAssistants_cons,
        (clash_afterLoose_iff l).1]
      simp [hm]
    · rw [clash_leading_cons, if_neg hm, ih]
      simp [dropLeadingNonUserMessages, hm]

end

/-! ### The projection -/

theorem clash_mergedSurvivors {ids : List String} (history : List ContextMessage) (c : Cover) :
    clash ids afterLoose c (loose (mergedSurvivors history)) =
      clash ids afterLoose c (loose (survivors history)) := by
  refine mergedSurvivors_congr (fun l => clash ids afterLoose c (loose l))
    (fun hp hm hq pre post => ?_) history
  rw [loose, loose, looseFrom_append, looseFrom_append, looseFrom_cons_of_user hp,
    looseFrom_cons_of_user hm, looseFrom_cons_of_user hq]
  refine clash_append_congr (fun c => ?_) _ c
  rw [clash_user_cons hp, clash_user_cons hm, clash_user_cons hq]

/-- Two assistant messages of a history that end up next to each other. -/
def TouchingAssistants (history : List ContextMessage) : Prop :=
  UncoveredAssistants (toolUseIds (survivors history))
    (dropLeadingNonUserMessages (loose (survivors history)))

/-- **Assistant messages do not touch exactly when none are uncovered.**  The strict projection of
a history exists, starts with a user message and has no two adjacent assistant messages, if and
only if no tool result is blank and no two assistant messages behind the first user message are
separated by orphans only. -/
theorem strict_alternates_iff (history : List ContextMessage) :
    (∃ out, project history strictOptions = .ok out ∧ StartsWithUser out ∧
      NoAdjacentAssistants out) ↔ Sendable history ∧ ¬ TouchingAssistants history := by
  by_cases hsend : Sendable history
  · have hrepair := closes_repair (mergedSurvivors history) strictOptions rfl
    have hcalls : ∀ a ∈ loose (mergedSurvivors history), a.role = .assistant →
        a.callIds ⊆ toolUseIds (survivors history) := by
      intro a ha hrole
      rw [← toolUseIds_mergedSurvivors, ← toolUseIds_looseFrom .none]
      exact callIds_subset_toolUseIds ha hrole
    have hscan : NoAdjacentAssistants (dropLeadingNonUserMessages (dropOrphanToolResults
        (mergeConsecutiveAssistantMessages
          (repairToolExchangeAdjacency (mergedSurvivors history) strictOptions)))) ↔
        ¬ TouchingAssistants history := by
      rw [dropOrphanToolResults, toolUseIds_strict,
        ← clash_leading_eq_false_iff (noAdjacent_mergeConsecutive _), clash_mergeConsecutive,
        hrepair.clash hcalls, clash_mergedSurvivors, ← Bool.not_eq_true,
        clash_leading_afterLoose_iff]
      rfl
    rw [project_strict hsend, ← hscan]
    simp [hsend, startsWithUser_dropLeading]
  · obtain ⟨e, he⟩ := project_error hsend strictOptions
    simp [he, hsend]

/-- A prompt, an assistant message without calls, a result nothing calls, and an assistant
message. -/
def orphanBetweenAssistants : List ContextMessage :=
  [promptMessage "go", assistantMessage "one" [], resultMessage "gone", assistantMessage "two" []]

/-- The orphan is dropped after neighbours have been merged, so the assistant messages touch. -/
theorem orphanBetweenAssistants_touch :
    ∃ out, project orphanBetweenAssistants strictOptions = .ok out ∧
      ¬ NoAdjacentAssistants out := by
  refine ⟨[(promptMessage "go").toMessage, (assistantMessage "one" []).toMessage,
    (assistantMessage "two" []).toMessage], by decide +kernel, ?_⟩
  simp [NoAdjacentAssistants, MayFollow, promptMessage, assistantMessage]

end NoriCode
