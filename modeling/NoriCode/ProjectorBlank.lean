/-
**Blank texts in the projection.**

Providers reject a text block without visible characters, so the first pass of the projection
drops such parts of every message.  It then joins the texts of adjacent prompts with an empty line
between them, whatever the texts are: when none of the prompts has a text, only the empty line is
left, which is a blank text of its own.

Main definitions:

* `NoBlankText` — no message of the user or the assistant has a blank text part;
* `SilentPrompts` — adjacent prompts without any text.

Main results:

* `noBlankText_mergedSurvivors` — the merging pass makes a blank text of silent prompts
  only;
* `noBlankText_iff` — **a projection has no blank text exactly when no prompts in a row
  are silent**.
-/

import NoriCode.ProjectorOrdinary

namespace NoriCode

open LibAdjacent List

/-! ### Blank texts -/

theorem isBlank_iff {s : String} : isBlank s = true ↔ ∀ c ∈ s.toList, isWhiteSpace c = true := by
  constructor
  · intro h c hc
    by_contra hvisible
    rw [isBlank_eq_false hc (Bool.eq_false_iff.2 hvisible)] at h
    cases h
  · intro h
    by_contra hvisible
    obtain ⟨c, hc, hspace⟩ := exists_visible (Bool.eq_false_iff.2 hvisible)
    rw [h c hc] at hspace
    cases hspace

theorem isBlank_joined (a b : String) :
    isBlank (a ++ "\n\n" ++ b) = true ↔ isBlank a = true ∧ isBlank b = true := by
  have hline : ∀ c ∈ "\n\n".toList, isWhiteSpace c = true := forall_iff_forall_mem.1 (by decide)
  simp only [isBlank_iff, String.toList_append, forall_mem_append]
  exact ⟨fun h => ⟨h.1.1, h.2⟩, fun h => ⟨⟨h.1, hline⟩, h.2⟩⟩

/-- A message without a text part. -/
def Silent (m : ContextMessage) : Prop := ∀ part ∈ m.content, part.isText = false

/-- A message without a blank part. -/
def Clean (m : Message) : Prop := ∀ part ∈ m.content, part.isBlank = false

theorem clean_withoutBlanks (m : ContextMessage) : Clean (withoutBlanks m).toMessage := by
  intro part hpart
  simpa using (List.mem_filter.1 hpart).2

theorem isBlank_of_not_isText {part : ContentPart} (h : part.isText = false) :
    part.isBlank = false := by
  cases part with
  | text t => cases h
  | _ => rfl

variable {m : ContextMessage}

/-- The text of a message without blank parts is blank exactly when it has no text part. -/
theorem isBlank_extractTextOnly (h : Clean m.toMessage) :
    isBlank (extractTextOnly m) = true ↔ Silent m := by
  simp only [isBlank_iff, extractTextOnly, String.toList_join, mem_flatMap,
    mem_filterMap, forall_exists_index, and_imp]
  constructor
  · intro hspace part hpart
    by_contra htext
    cases part with
    | text t =>
      have hblank : isBlank t = true := isBlank_iff.2 fun c hc => hspace c t (.text t) hpart rfl hc
      have hclean : isBlank t = false := h (.text t) hpart
      rw [hblank] at hclean
      cases hclean
    | _ => exact htext rfl
  · intro hsilent c t part hpart htext _
    cases part with
    | text t => cases hsilent _ hpart
    | _ => cases htext

/-! ### Merged prompts -/

variable {p q : ContextMessage}

theorem mergeUser?_eq_some_iff : mergeUser? p m = some q ↔
    (canMergeUserMessage m = true ∧ canMergeUserMessage p = true) ∧
      mergeTwoUserMessages p m = q := by
  unfold mergeUser?
  split_ifs with h
  · rw [Bool.and_eq_true] at h
    simp [h]
  · rw [Bool.and_eq_true] at h
    simp [h]

theorem mergeUser?_eq_none_iff : mergeUser? p m = none ↔
    canMergeUserMessage m = false ∨ canMergeUserMessage p = false := by
  unfold mergeUser?
  split_ifs with h
  · rw [Bool.and_eq_true] at h
    simp [h]
  · rw [Bool.and_eq_true, not_and_or, Bool.not_eq_true, Bool.not_eq_true] at h
    simp [h]

theorem extractTextOnly_mergeTwo (a b : ContextMessage) :
    extractTextOnly (mergeTwoUserMessages a b) =
      extractTextOnly a ++ "\n\n" ++ extractTextOnly b := by
  have hrest : ∀ m : ContextMessage,
      (m.content.filter (!·.isText)).filterMap ContentPart.text? = [] := by
    intro m
    rw [filterMap_eq_nil_iff]
    intro part hpart
    have htext := (List.mem_filter.1 hpart).2
    cases part with
    | text t => cases htext
    | _ => rfl
  have htexts : (mergeTwoUserMessages a b).content.filterMap ContentPart.text? =
      [extractTextOnly a ++ "\n\n" ++ extractTextOnly b] := by
    change ([extractTextOnly a ++ "\n\n" ++ extractTextOnly b] ++
      (a.content.filter (!·.isText) ++ b.content.filter (!·.isText)).filterMap
        ContentPart.text?) = _
    rw [filterMap_append, hrest a, hrest b]
    rfl
  rw [extractTextOnly, htexts]
  simp

theorem canMergeUserMessage_mergeTwo {a : ContextMessage} (h : canMergeUserMessage a = true)
    (b : ContextMessage) : canMergeUserMessage (mergeTwoUserMessages a b) = true := by
  unfold canMergeUserMessage at h ⊢
  rw [Bool.and_eq_true] at h
  rw [Bool.and_eq_true]
  exact ⟨rfl, h.2⟩

variable {run : List ContextMessage}

theorem canMergeUserMessage_of_merges
    (h : Merges mergeUser? p run q) : canMergeUserMessage q = canMergeUserMessage p := by
  induction h with
  | nil => rfl
  | cons hq _ ih =>
    obtain ⟨⟨-, hp⟩, rfl⟩ := mergeUser?_eq_some_iff.1 hq
    rw [ih, hp, canMergeUserMessage_mergeTwo hp]

theorem prompts_of_merges (h : Merges mergeUser? p run q) (hrun : run ≠ []) :
    ∀ m ∈ p :: run, canMergeUserMessage m = true := by
  induction h with
  | nil => exact absurd rfl hrun
  | @cons p m q r run hq hrest ih =>
    obtain ⟨⟨hm, hp⟩, rfl⟩ := mergeUser?_eq_some_iff.1 hq
    intro x hx
    rcases mem_cons.1 hx with rfl | hx
    · exact hp
    · rcases mem_cons.1 hx with rfl | hx
      · exact hm
      · exact ih (ne_nil_of_mem hx) x (.tail _ hx)

theorem exists_merges (run : List ContextMessage) (p : ContextMessage)
    (h : ∀ m ∈ p :: run, canMergeUserMessage m = true) : ∃ q, Merges mergeUser? p run q := by
  induction run generalizing p with
  | nil => exact ⟨p, .nil⟩
  | cons m run ih =>
    have hp := h p (.head _)
    have hm := h m (by simp)
    obtain ⟨q, hq⟩ := ih (mergeTwoUserMessages p m) (by
      intro x hx
      rcases mem_cons.1 hx with rfl | hx
      · exact canMergeUserMessage_mergeTwo hp m
      · exact h x (by simp [hx]))
    exact ⟨q, .cons (mergeUser?_eq_some_iff.2 ⟨⟨hm, hp⟩, rfl⟩) hq⟩

/-- The text of merged prompts is blank exactly when all their texts are. -/
theorem isBlank_merges_iff (h : Merges mergeUser? p run q) : isBlank (extractTextOnly q) = true ↔
      ∀ m ∈ p :: run, isBlank (extractTextOnly m) = true := by
  induction h with
  | nil => simp
  | cons hq _ ih =>
    obtain ⟨-, rfl⟩ := mergeUser?_eq_some_iff.1 hq
    simp only [forall_mem_cons, extractTextOnly_mergeTwo, isBlank_joined] at ih ⊢
    rw [ih, and_assoc]

theorem content_of_merges (h : Merges mergeUser? p run q) (hrun : run ≠ []) :
    ∃ parts : List ContentPart, q.content = .text (extractTextOnly q) :: parts ∧
      ∀ part ∈ parts, part.isText = false := by
  induction h with
  | nil => exact absurd rfl hrun
  | @cons p m q r run hq hrest ih =>
    cases run with
    | cons x run => exact ih (cons_ne_nil x run)
    | nil =>
      cases hrest
      obtain ⟨-, rfl⟩ := mergeUser?_eq_some_iff.1 hq
      refine ⟨_, by rw [extractTextOnly_mergeTwo]; rfl, ?_⟩
      intro part hpart
      rcases mem_append.1 hpart with hpart | hpart
      · simpa using (List.mem_filter.1 hpart).2
      · simpa using (List.mem_filter.1 hpart).2

/-- **Merged prompts have a blank part exactly when they are silent.** -/
theorem clean_merges_iff (h : Merges mergeUser? p run q) (hrun : run ≠ [])
    (hclean : ∀ m ∈ p :: run, Clean m.toMessage) :
    ¬ Clean q.toMessage ↔ ∀ m ∈ p :: run, Silent m := by
  obtain ⟨parts, hcontent, hparts⟩ := content_of_merges h hrun
  have hblank : ¬ Clean q.toMessage ↔ isBlank (extractTextOnly q) = true := by
    unfold Clean
    rw [hcontent, forall_mem_cons, and_iff_left fun part hpart =>
      isBlank_of_not_isText (hparts part hpart)]
    exact Bool.not_eq_false (isBlank (extractTextOnly q)) ▸ Iff.rfl
  rw [hblank, isBlank_merges_iff h]
  exact forall₂_congr fun m hm => isBlank_extractTextOnly (hclean m hm)

/-! ### Silent prompts -/

/-- **Prompts in a row without any text**: two or more prompts that stand next to each other when
everything is dropped that is not sent, none of which has a text, between messages that are no
prompts. -/
def SilentPrompts (history : List ContextMessage) : Prop :=
  ∃ pre run post : List ContextMessage,
    (history.filter survives).map withoutBlanks = pre ++ run ++ post ∧ 2 ≤ run.length ∧
      (∀ m ∈ run, canMergeUserMessage m = true ∧ Silent m) ∧
      (∀ m ∈ pre.getLast?, canMergeUserMessage m = false) ∧
      ∀ m ∈ post.head?, canMergeUserMessage m = false

/-- The messages before a run end with no prompt, so their merge does not touch the run. -/
theorem mergeAdjacent_getLast? {pre : List ContextMessage}
    (hpre : ∀ m ∈ pre.getLast?, canMergeUserMessage m = false) :
    ∀ x ∈ (mergeAdjacent mergeUser? pre).getLast?, canMergeUserMessage x = false := by
  rcases eq_nil_or_concat pre with rfl | ⟨pre, m, rfl⟩
  · intro x hx
    cases hx
  · rw [concat_eq_append] at hpre ⊢
    rw [getLast?_append, getLast?_singleton] at hpre
    have hm := hpre m rfl
    rw [mergeAdjacent_concat fun p => mergeUser?_eq_none_iff.2 (.inl hm)]
    intro x hx
    rw [getLast?_append, getLast?_singleton] at hx
    cases hx
    exact hm

variable {history : List ContextMessage}

theorem SilentPrompts.exists_merged (h : SilentPrompts history) :
    ∃ q ∈ mergedSurvivors history, q.role = .user ∧ ¬ Clean q := by
  obtain ⟨pre, run, post, hsplit, hlength, hrun, hpre, hpost⟩ := h
  cases run with
  | nil => cases hlength
  | cons p run =>
    have hne : run ≠ [] := by
      rintro rfl
      cases hlength with
      | step hle => cases hle
    obtain ⟨q, hq⟩ := exists_merges run p fun m hm => (hrun m hm).1
    have hclean : ∀ m ∈ p :: run, Clean m.toMessage := by
      intro m hm
      have hmem : m ∈ (history.filter survives).map withoutBlanks := by
        rw [hsplit]
        exact mem_append_left _ (mem_append_right _ hm)
      obtain ⟨source, -, rfl⟩ := mem_map.1 hmem
      exact clean_withoutBlanks source
    have hmem : q ∈ mergeAdjacent mergeUser? ((history.filter survives).map withoutBlanks) := by
      rw [hsplit, append_assoc, cons_append]
      refine hq.mem_mergeAdjacent ?_ ?_
      · intro x hx
        exact mergeUser?_eq_none_iff.2 (.inr (mergeAdjacent_getLast? hpre x hx))
      · intro m hm
        exact mergeUser?_eq_none_iff.2 (.inl (hpost m hm))
    have hrole : q.role = .user := by
      have hprompt := (canMergeUserMessage_of_merges hq).trans (hrun p (.head _)).1
      simp only [canMergeUserMessage, Bool.and_eq_true, beq_iff_eq] at hprompt
      exact hprompt.1
    exact ⟨stripContextMetadata q, mem_map_of_mem hmem, hrole,
      (clean_merges_iff hq hne hclean).2 fun m hm => (hrun m hm).2⟩

theorem silentPrompts_of_not_clean {m : Message}
    (hm : m ∈ mergedSurvivors history) (hblank : ¬ Clean m) : SilentPrompts history := by
  obtain ⟨q, hq, rfl⟩ := mem_map.1 hm
  obtain ⟨pre, p, run, post, hsplit, hmerges, hnext, hbefore⟩ := (mergeAdjacent_grouped _).of_mem hq
  have hclean : ∀ x ∈ p :: run, Clean x.toMessage := by
    intro x hx
    have hmem : x ∈ (history.filter survives).map withoutBlanks := by
      rw [hsplit, ← cons_append]
      exact mem_append_right _ (mem_append_left _ hx)
    obtain ⟨source, -, rfl⟩ := mem_map.1 hmem
    exact clean_withoutBlanks source
  have hrun : run ≠ [] := by
    rintro rfl
    cases hmerges
    exact hblank (hclean q (.head _))
  have hprompts := prompts_of_merges hmerges hrun
  have hp := hprompts p (.head _)
  have hsilent := (clean_merges_iff hmerges hrun hclean).1 hblank
  have hqprompt := (canMergeUserMessage_of_merges hmerges).trans hp
  refine ⟨pre, p :: run, post, ?_, ?_, fun x hx => ⟨hprompts x hx, hsilent x hx⟩, ?_, ?_⟩
  · rw [hsplit, append_assoc, cons_append]
  · have hpos := length_pos_iff.2 hrun
    rw [length_cons]
    omega
  · intro x hx
    rcases hbefore with rfl | ⟨q', -, hrefused, pre', p', run', rfl, hmerges'⟩
    · cases hx
    -- the message in front of the run is alone in its own run, since it is no prompt
    have hq' : canMergeUserMessage q' = false := by
      rcases mergeUser?_eq_none_iff.1 hrefused with h | h
      · rw [hp] at h
        cases h
      · exact h
    have hp' := (canMergeUserMessage_of_merges hmerges').symm.trans hq'
    have halone : run' = [] := by
      by_contra hne
      rw [prompts_of_merges hmerges' hne p' (.head _)] at hp'
      cases hp'
    subst halone
    rw [getLast?_append, getLast?_singleton] at hx
    cases hx
    exact hp'
  · intro x hx
    rcases mergeUser?_eq_none_iff.1 (hnext x hx) with h | h
    · exact h
    · rw [hqprompt] at h
      cases h

/-! ### The passes -/

/-- **No message of the user or the assistant has a blank text part.** -/
def NoBlankText (out : List Message) : Prop :=
  ∀ m ∈ out, m.role = .user ∨ m.role = .assistant → Clean m

theorem noBlankText_mergedSurvivors (history : List ContextMessage) :
    NoBlankText (mergedSurvivors history) ↔ ¬ SilentPrompts history := by
  constructor
  · intro h hsilent
    obtain ⟨q, hq, hrole, hblank⟩ := hsilent.exists_merged
    exact hblank (h q hq (.inl hrole))
  · intro h m hm _
    by_contra hblank
    exact h (silentPrompts_of_not_clean hm hblank)

/-- The second list has the messages of the user of the first, and the assistant says nothing
blank in it unless it did so in the first. -/
structure KeepsTexts (l out : List Message) : Prop where
  users : ∀ m : Message, m.role = .user → (m ∈ out ↔ m ∈ l)
  clean : (∀ m ∈ l, m.role = .assistant → Clean m) → ∀ m ∈ out, m.role = .assistant → Clean m

namespace KeepsTexts

variable {l out out' : List Message}

theorem refl (l : List Message) : KeepsTexts l l := ⟨fun _ _ => Iff.rfl, fun h => h⟩

theorem trans (h : KeepsTexts l out) (h' : KeepsTexts out out') : KeepsTexts l out' :=
  ⟨fun m hm => (h'.users m hm).trans (h.users m hm), fun hl => h'.clean (h.clean hl)⟩

theorem of_subset (hsub : ∀ m ∈ out, m.role ≠ .tool → m ∈ l)
    (husers : ∀ m ∈ l, m.role = .user → m ∈ out) : KeepsTexts l out :=
  ⟨fun m hm => ⟨fun h => hsub m h (by simp [hm]), fun h => husers m h hm⟩,
    fun hl m hm hrole => hl m (hsub m hm (by simp [hrole])) hrole⟩

theorem repair (l : List Message) (options : ProjectOptions) :
    KeepsTexts l (repairToolExchangeAdjacency l options) := by
  refine of_subset (fun m hm hrole => mem_of_mem_repairFrom hm hrole) fun m hm hrole => ?_
  have hkept : m ∈ l.filter (·.role != .tool) := List.mem_filter.2 ⟨hm, by simp [hrole]⟩
  rw [← repair_filter l options] at hkept
  exact mem_of_mem_filter hkept

theorem mergeAssistants (l : List Message) :
    KeepsTexts l (mergeConsecutiveAssistantMessages l) := by
  refine mergeAdjacent_induct mergeAssistant? (motive := KeepsTexts l) ?_ (refl l)
  intro pre p m q post hq h
  obtain ⟨hp, hm, hqrole, -⟩ := mergeAssistant?_eq_some hq
  have hcontent : q.content = p.content ++ m.content := by
    unfold mergeAssistant? at hq
    split_ifs at hq
    cases hq
    rfl
  refine ⟨fun x hx => (h.users x hx).symm.trans ?_ |>.symm, fun hl x hx hrole => ?_⟩
  · have hne : ∀ {y : Message}, y.role = .assistant → x ≠ y := by
      rintro y hy rfl
      rw [hx] at hy
      cases hy
    simp [hne hp, hne hm, hne hqrole]
  · have hall := h.clean hl
    rcases mem_append.1 hx with hx | hx
    · exact hall x (mem_append_left _ hx) hrole
    rcases mem_cons.1 hx with rfl | hx
    · unfold Clean
      rw [hcontent, forall_mem_append]
      exact ⟨hall p (by simp) hp, hall m (by simp) hm⟩
    · exact hall x (by simp [hx]) hrole

theorem dropOrphans (l : List Message) : KeepsTexts l (dropOrphanToolResults l) := by
  refine of_subset (fun m hm _ => mem_of_mem_filter hm) fun m hm hrole => ?_
  exact List.mem_filter.2 ⟨hm, by simp [isOrphan, hrole]⟩

theorem dropLeading (l : List Message) : KeepsTexts l (dropLeadingNonUserMessages l) := by
  refine of_subset (fun m hm _ => (dropWhile_sublist _).mem hm) fun m hm hrole => ?_
  rw [← takeWhile_append_dropWhile (p := (·.role != .user)) (l := l)] at hm
  rcases mem_append.1 hm with hm | hm
  · have hne := mem_takeWhile_imp hm
    rw [hrole] at hne
    cases hne
  · exact hm

theorem ite {out out' : List Message} (h : KeepsTexts l out) (h' : KeepsTexts out out')
    (b : Bool) : KeepsTexts l (if b then out' else out) := by
  cases b with
  | true => exact h.trans h'
  | false => exact h

end KeepsTexts

/-- **What a projection keeps**, under any options. -/
theorem project_keepsTexts {options : ProjectOptions}
    {out : List Message} (h : project history options = .ok out) :
    KeepsTexts (mergedSurvivors history) out := by
  by_cases hsend : Sendable history
  · simp only [project, mergeAdjacentUserMessages_eq hsend] at h
    cases h
    exact ((KeepsTexts.repair _ _).ite (.mergeAssistants _) _ |>.ite (.dropOrphans _) _).ite
      (.dropLeading _) _
  · obtain ⟨e, he⟩ := project_error hsend options
    rw [he] at h
    cases h

/-- **A projection has no blank text exactly when no prompts in a row are silent**, whatever the
micro compaction has cleared and whatever the options are. -/
theorem noBlankText_iff (micro : MicroCompaction) (history : List ContextMessage)
    (options : ProjectOptions) {out : List Message}
    (h : project (micro.compact history) options = .ok out) :
    NoBlankText out ↔ ¬ SilentPrompts (micro.compact history) := by
  have hkeeps := project_keepsTexts h
  constructor
  · intro hout hsilent
    obtain ⟨q, hq, hrole, hblank⟩ := hsilent.exists_merged
    exact hblank (hout q ((hkeeps.users q hrole).2 hq) (.inl hrole))
  · intro hsilent
    have hmerged := (noBlankText_mergedSurvivors _).2 hsilent
    intro m hm hrole
    rcases hrole with hrole | hrole
    · exact hmerged m ((hkeeps.users m hrole).1 hm) (.inl hrole)
    · exact hkeeps.clean (fun x hx hx' => hmerged x hx (.inr hx')) m hm hrole

/-- A prompt with an image and no text. -/
def imagePrompt (url : String) : ContextMessage where
  role := .user
  content := [.imageUrl url none]
  toolCalls := []
  origin := some ⟨.user, none⟩

/-- A prompt that says something, behind an image. -/
theorem noBlankText_iff_caption :
    ∃ out, project ((⟨true, 1, {}⟩ : MicroCompaction).compact [imagePrompt "a",
      promptMessage "look"]) {} = .ok out ∧ (NoBlankText out ↔
        ¬ SilentPrompts ((⟨true, 1, {}⟩ : MicroCompaction).compact [imagePrompt "a",
          promptMessage "look"])) := by
  have hproject : project ((⟨true, 1, {}⟩ : MicroCompaction).compact [imagePrompt "a",
      promptMessage "look"]) {} = .ok
        [{ role := .user
           content := [.text "\n\nlook", .imageUrl "a" none]
           toolCalls := [] }] := by
    decide +kernel
  exact ⟨_, hproject, noBlankText_iff _ _ _ hproject⟩

def imagePrompts : List ContextMessage := [imagePrompt "a", imagePrompt "b"]

def imageRequest : List Message :=
  [{ role := .user
     content := [.text "\n\n", .imageUrl "a" none, .imageUrl "b" none]
     toolCalls := [] }]

/-- **Two images in a row become a prompt whose text is an empty line.** -/
theorem imagePrompts_blank : ∃ out,
    project ((⟨true, 0, {}⟩ : MicroCompaction).compact imagePrompts) {} = .ok out ∧
      ¬ NoBlankText out := by
  refine ⟨imageRequest, by decide +kernel, fun h => ?_⟩
  have hclean := h _ (List.mem_singleton_self _) (.inl rfl) (.text "\n\n") (by simp)
  revert hclean
  decide +kernel

end NoriCode
