/-
**When the strict projection is compliant.**

The strict projection is the last resort after a provider has rejected the ordinary one, and it is
meant to be compliant *no matter how the history was mangled*.  This module proves for which
histories it is: exactly for those whose loose part (`NoriCode/ProjectorExchange.lean`) has, behind
the first user message, only results that no assistant message calls.  A second result for the
same call, a result in front of its call, or a result without an id is left where it stands.

Main definitions:

* `Sendable`, `survivors` — the histories the projection accepts, and the
  messages that survive its first pass;
* `CallsAnswered`, `NoOtherResults` — compliance of tool exchanges;
* `StrayResult` — what goes wrong.

Main results:

* `strict_compliant_iff` — **tool exchanges are compliant exactly without stray results**.
-/

import NoriCode.ProjectorExchange

namespace NoriCode

open List

/-! ### The messages that survive -/

/-- A message without its blank text parts. -/
def withoutBlanks (m : ContextMessage) : ContextMessage :=
  { m with content := m.content.filter (!·.isBlank) }

/-- A message with something left to send. -/
def survives (m : ContextMessage) : Bool :=
  !m.isPartial && !((withoutBlanks m).content.isEmpty && m.toolCalls.isEmpty)

/-- No tool result is blank, apart from partial messages. -/
def Sendable (history : List ContextMessage) : Prop :=
  ∀ m ∈ history, m.role = .tool → m.isPartial = false → (withoutBlanks m).content ≠ []

/-- The messages of a history that have something left to send, without their blank parts. -/
def survivors (history : List ContextMessage) : List Message :=
  ((history.filter survives).map withoutBlanks).map stripContextMetadata

variable {m : ContextMessage}

theorem prepareMessageForProjection_eq
    (h : m.role = .tool → m.isPartial = false → (withoutBlanks m).content ≠ []) :
    prepareMessageForProjection m = .ok (if survives m then some (withoutBlanks m) else none) := by
  unfold prepareMessageForProjection
  by_cases hwhole : m.isPartial = true
  · simp [survives, hwhole]
  · rw [Bool.not_eq_true] at hwhole
    have hblank : ¬ ((withoutBlanks m).role = .tool ∧ (withoutBlanks m).content.length = 0) := by
      rintro ⟨hrole, hlen⟩
      exact h hrole hwhole (length_eq_zero_iff.1 hlen)
    change (if m.isPartial = true then _ else
      if (withoutBlanks m).role = .tool ∧ (withoutBlanks m).content.length = 0 then _ else
      if (withoutBlanks m).content.length = 0 ∧ m.toolCalls.length = 0 then _ else _) = _
    rw [if_neg (by simp [hwhole]), if_neg hblank]
    by_cases hnil : (withoutBlanks m).content.length = 0 ∧ m.toolCalls.length = 0
    · have hdies : survives m = false := by
        simp [survives, length_eq_zero_iff.1 hnil.1, length_eq_zero_iff.1 hnil.2]
      rw [if_pos hnil, hdies]
      rfl
    · have hsurvives : survives m = true := by
        simp only [survives, hwhole, Bool.not_false, Bool.true_and, Bool.not_eq_true',
          Bool.and_eq_false_iff, isEmpty_eq_false_iff]
        by_contra hboth
        push Not at hboth
        exact hnil ⟨by rw [hboth.1]; rfl, by rw [hboth.2]; rfl⟩
      rw [if_neg hnil, hsurvives]
      rfl

theorem prepareMessageForProjection_error (hrole : m.role = .tool)
    (hwhole : m.isPartial = false) (h : (withoutBlanks m).content = []) :
    prepareMessageForProjection m = .error (emptyToolResultError m.toolCallId) := by
  change (if m.isPartial = true then _ else
    if (withoutBlanks m).role = .tool ∧ (withoutBlanks m).content.length = 0 then _ else _) = _
  rw [hwhole, if_neg Bool.false_ne_true, if_pos ⟨hrole, by rw [h]; rfl⟩]

/-- One step of the first pass. -/
def mergeStep (out : List ContextMessage) (source : ContextMessage) :
    Except ProjectionError (List ContextMessage) := do
  match ← prepareMessageForProjection source with
  | none => return out
  | some message => return LibAdjacent.appendMerging mergeUser? out message

variable {history : List ContextMessage}

theorem foldlM_mergeStep (h : Sendable history) (out : List ContextMessage) :
    history.foldlM mergeStep out =
      .ok (((history.filter survives).map withoutBlanks).foldl
        (LibAdjacent.appendMerging mergeUser?) out) := by
  induction history generalizing out with
  | nil => rfl
  | cons m history ih =>
    have ih := ih fun b hb => h b (.tail _ hb)
    have hstep : mergeStep out m =
        .ok (if survives m then LibAdjacent.appendMerging mergeUser? out (withoutBlanks m)
          else out) := by
      unfold mergeStep
      rw [prepareMessageForProjection_eq (h m (.head _))]
      cases survives m <;> rfl
    rw [foldlM_cons, hstep]
    change List.foldlM mergeStep _ history = _
    cases hs : survives m with
    | true | false => simp [ih, hs]

/-- The survivors of a history with adjacent user prompts merged. -/
def mergedSurvivors (history : List ContextMessage) : List Message :=
  (LibAdjacent.mergeAdjacent mergeUser?
    ((history.filter survives).map withoutBlanks)).map stripContextMetadata

theorem mergeAdjacentUserMessages_eq (h : Sendable history) :
    mergeAdjacentUserMessages history = .ok (mergedSurvivors history) := by
  change (do let out ← history.foldlM mergeStep []; pure (out.map stripContextMetadata)) = _
  rw [foldlM_mergeStep h]
  rfl

theorem foldlM_mergeStep_error (h : ¬ Sendable history)
    (out : List ContextMessage) : ∃ e, history.foldlM mergeStep out = .error e := by
  induction history generalizing out with
  | nil => exact absurd (by intro m hm; cases hm) h
  | cons m history ih =>
    rw [foldlM_cons]
    by_cases hm : m.role = .tool → m.isPartial = false → (withoutBlanks m).content ≠ []
    · have hrest : ¬ Sendable history := by
        intro hrest
        refine h fun b hb => ?_
        rcases mem_cons.1 hb with rfl | hb
        · exact hm
        · exact hrest b hb
      cases hstep : mergeStep out m with
      | error e => exact ⟨e, rfl⟩
      | ok out' => exact ih hrest out'
    · simp only [not_forall, not_not] at hm
      obtain ⟨hrole, hwhole, hblank⟩ := hm
      refine ⟨emptyToolResultError m.toolCallId, ?_⟩
      simp only [mergeStep, prepareMessageForProjection_error hrole hwhole hblank]
      rfl

theorem project_error (h : ¬ Sendable history)
    (options : ProjectOptions) : ∃ e, project history options = .error e := by
  obtain ⟨e, he⟩ := foldlM_mergeStep_error h []
  refine ⟨e, ?_⟩
  have hmerge : mergeAdjacentUserMessages history = .error e := by
    change (do let out ← history.foldlM mergeStep []; pure (out.map stripContextMetadata)) = _
    rw [he]
    rfl
  simp only [project, hmerge]
  rfl

/-! ### Merged user messages -/

theorem mergeUser?_eq_some {p q : ContextMessage} (h : mergeUser? p m = some q) :
    p.role = .user ∧ m.role = .user ∧ q.role = .user := by
  unfold mergeUser? at h
  split_ifs at h with hmerge
  cases h
  simp only [canMergeUserMessage, Bool.and_eq_true, beq_iff_eq] at hmerge
  exact ⟨hmerge.2.1, hmerge.1.1, rfl⟩

/-- What does not change when one user message stands in the place of two does not depend on the
merging of user messages. -/
theorem mergedSurvivors_congr {β : Type} (f : List Message → β)
    (hf : ∀ {p m q : Message}, p.role = .user → m.role = .user → q.role = .user →
      ∀ pre post, f (pre ++ q :: post) = f (pre ++ p :: m :: post))
    (history : List ContextMessage) : f (mergedSurvivors history) = f (survivors history) := by
  refine LibAdjacent.mergeAdjacent_induct mergeUser?
    (motive := fun out => f (out.map stripContextMetadata) = f (survivors history)) ?_ rfl
  intro pre p m q post hq h
  obtain ⟨hp, hm, hqrole⟩ := mergeUser?_eq_some hq
  simp only [map_append, map_cons] at h ⊢
  rw [← h]
  exact hf (p := stripContextMetadata p) (m := stripContextMetadata m)
    (q := stripContextMetadata q) hp hm hqrole _ _

theorem toolUseIds_mergedSurvivors (history : List ContextMessage) :
    toolUseIds (mergedSurvivors history) = toolUseIds (survivors history) := by
  have hne : ∀ {x : Message}, x.role = .user → x.role ≠ .assistant := by
    intro x hx
    simp [hx]
  refine mergedSurvivors_congr toolUseIds (fun hp hm hq pre post => ?_) history
  rw [toolUseIds_append, toolUseIds_append, toolUseIds_cons_of_ne (hne hp),
    toolUseIds_cons_of_ne (hne hm), toolUseIds_cons_of_ne (hne hq)]

theorem looseFrom_cons_of_user {m : Message} (h : m.role = .user) (k : Waiting)
    (rest : List Message) : looseFrom k (m :: rest) = m :: looseFrom k rest := by
  rw [looseFrom_cons_of_ne_tool (by simp [h]), Waiting.after_of_ne_assistant (by simp [h])]

theorem lateResults_mergedSurvivors (history : List ContextMessage) :
    lateResults (loose (mergedSurvivors history)) = lateResults (loose (survivors history)) := by
  refine mergedSurvivors_congr (fun l => lateResults (loose l))
    (fun {p m q} hp hm hq pre post => ?_)
    history
  rw [loose, loose, looseFrom_append, looseFrom_append, looseFrom_cons_of_user hp,
    looseFrom_cons_of_user hm, looseFrom_cons_of_user hq]
  exact lateResults_append_congr (x := [q]) (y := [p, m]) (by simp [hq]) (by simp [hp, hm])
    (by simp [hp, hm, hq]) _ _

/-! ### Compliance of tool exchanges -/

/-- Every call is answered by exactly one result in the unbroken run behind its message. -/
def CallsAnswered (out : List Message) : Prop :=
  ∀ pre a post, out = pre ++ a :: post → a.role = .assistant → ∀ call ∈ a.toolCalls,
    (post.takeWhile (·.role == .tool)).countP (·.toolCallId = some call.id) = 1

/-- Every tool result stands in the unbroken run behind a message that calls its id. -/
def NoOtherResults (out : List Message) : Prop :=
  ∀ pre t post, out = pre ++ t :: post → t.role = .tool →
    ∃ pre' a run, pre = pre' ++ a :: run ∧ a.role = .assistant ∧ (∀ r ∈ run, r.role = .tool) ∧
      ∃ call ∈ a.toolCalls, t.toolCallId = some call.id

variable {l out : List Message}

theorem Closes.callsAnswered (h : Closes l out)
    (hl : ∀ m ∈ l, m.role ≠ .tool) : CallsAnswered out := by
  rintro pre a post rfl ha call hcall
  have hid : call.id ∈ a.callIds := mem_map_of_mem hcall
  have hopen : a.opensExchange = true := (Message.opensExchange_iff ha).2 (ne_nil_of_mem hid)
  obtain ⟨l₁, l₂, rfl, -, hrest⟩ := h.append_cons ha
  rcases hrest with ⟨hclosed, -⟩ | ⟨results, out, -, hres, rfl, hrest⟩
  · rw [hopen] at hclosed
    cases hclosed
  · -- the run ends with the results, because the next message is loose and no result
    have hrun : (results ++ out).takeWhile (·.role == .tool) = results := by
      rw [takeWhile_append_of_pos (by intro r hr; simp [(hres.mem r hr).1])]
      cases hrest with
      | nil => simp
      | single _ _ =>
        simp [hl _ (mem_append_right _ (.tail _ mem_cons_self))]
      | exchange ha _ _ => simp [Message.role_of_opensExchange ha]
    rw [hrun]
    exact hres.count call.id hid

theorem Closes.noOtherResults (h : Closes l out)
    (hl : ∀ m ∈ l, m.role ≠ .tool) : NoOtherResults out := by
  induction h with
  | nil => intro pre t post hout; simp at hout
  | @single m l out hm _ ih =>
    intro pre t post hout ht
    cases pre with
    | nil =>
      obtain ⟨rfl, -⟩ := cons_eq_cons.1 hout
      exact absurd ht (hl _ (.head _))
    | cons b pre =>
      obtain ⟨rfl, hpost⟩ := cons_eq_cons.1 hout
      obtain ⟨pre', a, run, rfl, h⟩ := ih (fun b hb => hl b (.tail _ hb)) pre t post hpost ht
      exact ⟨m :: pre', a, run, rfl, h⟩
  | @exchange a results l out ha hres _ ih =>
    intro pre t post hout ht
    have hrole := Message.role_of_opensExchange ha
    cases pre with
    | nil =>
      obtain ⟨rfl, -⟩ := cons_eq_cons.1 hout
      rw [hrole] at ht
      cases ht
    | cons b pre =>
      obtain ⟨rfl, hpost⟩ := cons_eq_cons.1 hout
      -- the result is one of this exchange, or stands behind it
      rcases append_eq_append_cons hpost with ⟨c, rfl, -⟩ | ⟨c, rfl, hc⟩
      · refine ⟨[], a, pre, rfl, hrole, fun r hr => (hres.mem r (by simp [hr])).1, ?_⟩
        obtain ⟨-, id, hid, ht⟩ := hres.mem t (by simp)
        obtain ⟨call, hcall, rfl⟩ := mem_map.1 hid
        exact ⟨call, hcall, ht⟩
      · obtain ⟨pre', b, run, rfl, h⟩ := ih (fun b hb => hl b (.tail _ hb)) c t post hc ht
        exact ⟨a :: (results ++ pre'), b, run, by simp, h⟩

/-- A loose result is a second answer, or no answer of the run it stands in. -/
theorem Closes.ne_tool_of_compliant (h : Closes l out)
    (hcalls : CallsAnswered out) (hother : NoOtherResults out) : ∀ m ∈ l, m.role ≠ .tool := by
  intro t ht hrole
  obtain ⟨l₁, pre, post, rfl, h₁⟩ := h.exists_of_mem ht hrole
  obtain ⟨pre', a, run, rfl, ha, hrun, call, hcall, htid⟩ := hother pre t post rfl hrole
  have hid : call.id ∈ a.callIds := mem_map_of_mem hcall
  have hopen : a.opensExchange = true := (Message.opensExchange_iff ha).2 (ne_nil_of_mem hid)
  obtain ⟨-, l₂, -, -, hrest⟩ := h₁.append_cons ha
  rcases hrest with ⟨hclosed, -⟩ | ⟨results, out, -, hres, rfl, -⟩
  · rw [hopen] at hclosed
    cases hclosed
  · have hone := hcalls pre' a (results ++ out ++ t :: post) (by simp) ha call hcall
    rw [takeWhile_append_of_pos (by intro r hr; simp [hrun r hr])] at hone
    simp only [takeWhile_cons, hrole, beq_self_eq_true, if_true, countP_append,
      countP_cons, htid, decide_true, hres.count call.id hid] at hone
    omega

/-- **A repaired history is compliant exactly when its loose part has no results.** -/
theorem Closes.compliant_iff (h : Closes l out) :
    (CallsAnswered out ∧ NoOtherResults out) ↔ ∀ m ∈ l, m.role ≠ .tool :=
  ⟨fun hout => h.ne_tool_of_compliant hout.1 hout.2,
    fun hl => ⟨h.callsAnswered hl, h.noOtherResults hl⟩⟩

theorem dropLeading_filter (ids : List String) (l : List Message) :
    dropLeadingNonUserMessages (l.filter (!isOrphan ids ·)) =
      (dropLeadingNonUserMessages l).filter (!isOrphan ids ·) := by
  unfold dropLeadingNonUserMessages
  induction l with
  | nil => rfl
  | cons m l ih =>
    by_cases hm : m.role = .user
    · have hkeep : isOrphan ids m = false := by simp [isOrphan, hm]
      simp [hm, hkeep]
    · rw [dropWhile_cons_of_pos (by simpa using hm)]
      cases horphan : isOrphan ids m with
      | true => simpa [horphan] using ih
      | false => simpa [horphan, hm] using ih

/-- **A result that the strict projection leaves where it must not stand**: behind the first user
message, a result that answers no waiting call although its id is called, or that has no id. -/
def StrayResult (history : List ContextMessage) : Prop :=
  ∃ t ∈ lateResults (loose (survivors history)),
    isOrphan (toolUseIds (survivors history)) t = false

theorem project_strict (h : Sendable history) :
    project history strictOptions = .ok (dropLeadingNonUserMessages (dropOrphanToolResults
      (mergeConsecutiveAssistantMessages
        (repairToolExchangeAdjacency (mergedSurvivors history) strictOptions)))) := by
  simp only [project, mergeAdjacentUserMessages_eq h]
  rfl

theorem toolUseIds_strict (history : List ContextMessage) :
    toolUseIds (mergeConsecutiveAssistantMessages
      (repairToolExchangeAdjacency (mergedSurvivors history) strictOptions)) =
      toolUseIds (survivors history) := by
  rw [toolUseIds_mergeConsecutive, (closes_repair _ strictOptions rfl).toolUseIds_eq, loose,
    toolUseIds_looseFrom, toolUseIds_mergedSurvivors]

/-- **Tool exchanges are compliant exactly without stray results.**  The strict projection of a
history exists and answers every call by exactly one result in the run behind it, with no other
result anywhere, if and only if no tool result is blank and none is stray. -/
theorem strict_compliant_iff (history : List ContextMessage) :
    (∃ out, project history strictOptions = .ok out ∧ CallsAnswered out ∧ NoOtherResults out) ↔
      Sendable history ∧ ¬ StrayResult history := by
  by_cases hsend : Sendable history
  · obtain ⟨l, hl, hlate⟩ := (closes_repair (mergedSurvivors history) strictOptions rfl).merge
    have huse := toolUseIds_strict history
    have hcalls : ∀ a ∈ l, a.role = .assistant → a.callIds ⊆ toolUseIds (survivors history) := by
      intro a ha hrole
      rw [← huse, hl.toolUseIds_eq]
      exact callIds_subset_toolUseIds ha hrole
    have hclosed := (hl.filter hcalls).dropLeading
    have hstray : (∀ m ∈ dropLeadingNonUserMessages
        (l.filter (!isOrphan (toolUseIds (survivors history)) ·)), m.role ≠ .tool) ↔
        ¬ StrayResult history := by
      rw [dropLeading_filter, StrayResult, ← lateResults_mergedSurvivors, ← hlate]
      simp only [lateResults, List.mem_filter, not_exists, not_and, Bool.not_eq_true',
        beq_iff_eq, Bool.not_eq_false, and_imp]
      exact ⟨fun h t ht hrole => by by_contra hno; exact h t ht (by simpa using hno) hrole,
        fun h t ht hno hrole => by simp [h t ht hrole] at hno⟩
    rw [project_strict hsend, dropOrphanToolResults, huse, ← hstray, ← hclosed.compliant_iff]
    simp [hsend]
  · obtain ⟨e, he⟩ := project_error hsend strictOptions
    simp [he, hsend]

/-! ### A second result for one call -/

def promptMessage (text : String) : ContextMessage where
  role := .user
  content := [.text text]
  toolCalls := []
  origin := some ⟨.user, none⟩

def assistantMessage (text : String) (calls : List String) : ContextMessage where
  role := .assistant
  content := [.text text]
  toolCalls := calls.map fun id => ⟨id, "Read", none⟩

def resultMessage (toolCallId : String) : ContextMessage where
  role := .tool
  content := [.text "done"]
  toolCalls := []
  toolCallId := some toolCallId

/-- A call whose result was recorded twice. -/
def duplicateResult : List ContextMessage :=
  [promptMessage "go", assistantMessage "reading" ["a"], resultMessage "a", resultMessage "a"]

/-- The second result stays where it is, so the call is answered twice. -/
theorem duplicateResult_not_compliant :
    ∃ out, project duplicateResult strictOptions = .ok out ∧ ¬ CallsAnswered out := by
  refine ⟨duplicateResult.map stripContextMetadata, by decide +kernel, fun h => ?_⟩
  have hone := h [(promptMessage "go").toMessage] (assistantMessage "reading" ["a"]).toMessage
    [(resultMessage "a").toMessage, (resultMessage "a").toMessage] rfl rfl ⟨"a", "Read", none⟩
    (by simp [assistantMessage])
  revert hone
  decide

end NoriCode
