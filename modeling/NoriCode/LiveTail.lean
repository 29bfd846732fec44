/-
**The live tail of a transcript.**

A request for the messages of a session reads the log from the disk, where the last records may
still be missing, and puts behind the transcript what the live history has beyond the folded length.
These are the messages that the missing records add, in the same order, as long as the missing
records only append: the history and the transcript then grow in step.

Main definitions:

* `ToldAs` — a message of the history, and what the transcript makes of it;
* `Tail` — the history and the transcript behind two places;
* `AgentRecord.isPlain` — the records that only append.

Main results:

* `Tail.reduce` — **one record**;
* `tail_of_plain` — the tail of a log whose last records are plain.
-/

import NoriCode.ContextSteps
import NoriCode.TranscriptFold
import NoriCode.TranscriptPlaces

namespace NoriCode

open LibOrdSet WireTranscript List Option ContextMemory HistoryEntry

/-! ### What the transcript makes of a message -/

/-- A message of the history, and the same message in the transcript: a result is worded for the
model in the one and for the reader in the other. -/
inductive ToldAs : ContextMessage → ContextMessage → Prop
  | same (m : ContextMessage) : ToldAs m m
  | result (toolCallId : String) (r : ExecutableToolResult) :
      ToldAs (toolResultMessage toolCallId r) (transcriptToolMessage toolCallId r)

/-! ### Numbers of steps -/

/-- The numbers of open steps were given. -/
def OpenNumbers (c : ContextMemory) : Prop := ∀ n ∈ c.openSteps.map Prod.snd, n < c.nextStep

namespace OpenNumbers

variable {c d : ContextMemory}

theorem congr (h : OpenNumbers c) (hopen : d.openSteps = c.openSteps)
    (hnext : d.nextStep = c.nextStep) : OpenNumbers d := by
  unfold OpenNumbers
  rw [hopen, hnext]
  exact h

theorem of_nil (hopen : d.openSteps = []) : OpenNumbers d := by
  intro n hn
  rw [hopen] at hn
  cases hn

variable (h : OpenNumbers c)

include h

theorem flush : OpenNumbers c.flushDeferredMessagesIfToolExchangeClosed := by
  unfold flushDeferredMessagesIfToolExchangeClosed
  split
  · exact h
  · exact h.congr rfl rfl

theorem append (m : ContextMessage) : OpenNumbers (c.append m) := by
  unfold ContextMemory.append
  split <;> exact h.congr rfl rfl

theorem toolResult (id : String) (r : ExecutableToolResult) : OpenNumbers (c.toolResult id r) := by
  unfold ContextMemory.toolResult
  split
  · have hanswer : OpenNumbers (c.answer id r) := h.congr rfl rfl
    exact hanswer.flush
  · exact h

theorem closePending : OpenNumbers c.closePending :=
  closePending_rule h fun _ h id => h.toolResult id interruptedResult

theorem beginStep (uuid : String) : OpenNumbers (c.beginStep uuid) := by
  intro n hn
  obtain ⟨entry, hentry, rfl⟩ := mem_map.1 hn
  rcases mem_cons.1 hentry with rfl | hold
  · exact Nat.lt_succ_self _
  · exact Nat.lt_succ_of_lt (h _ (mem_map_of_mem (mem_of_mem_filter hold)))

theorem endStep (uuid : String) (usage : Option TokenUsage) :
    OpenNumbers (c.endStep uuid usage) := by
  have hdelete : OpenNumbers { c with openSteps := mapDelete c.openSteps uuid } := by
    intro n hn
    obtain ⟨entry, hentry, rfl⟩ := mem_map.1 hn
    exact h _ (mem_map_of_mem (mem_of_mem_filter hentry))
  cases usage with
  | none => exact hdelete.flush
  | some usage =>
    obtain ⟨-, -, hopen, hnext⟩ := ContextMemory.account_rest
      { c with openSteps := mapDelete c.openSteps uuid } usage (c.coveredCount uuid)
    exact (hdelete.congr hopen hnext).flush

theorem loopEvent (e : LoopRecordedEvent) : OpenNumbers (c.loopEvent e) :=
  loopEvent_rule h h.closePending.beginStep h.endStep (fun _ _ => h.congr rfl rfl)
    (fun _ _ => h.congr rfl rfl) h.toolResult e

theorem restored (r : AgentRecord) : OpenNumbers (c.restored r) := by
  refine restored_rule h h.append h.loopEvent (of_nil rfl) (fun _ _ => of_nil rfl) ?_ r
  intro count
  unfold ContextMemory.undone
  split
  · exact of_nil rfl
  · exact h

theorem lookup {uuid : String} {n : ℕ} (hn : c.openSteps.lookup uuid = some n) :
    n < c.nextStep := by
  obtain ⟨before, after, heq, -⟩ := lookup_eq_some_iff.1 hn
  refine h n ?_
  rw [heq]
  exact mem_map_of_mem (mem_append_right _ (.head _))

end OpenNumbers

/-! ### The tail -/

/-- A message of the history and one of the transcript: they are the same, and the same open steps
write to them. -/
structure Pair (c : ContextMemory) (t : WireTranscript) (e : ContextMessage × Option ℕ)
    (e' : MutableEntry) : Prop where
  told : ToldAs e.1 e'.message
  step : e.2 ≠ none → e.1 = e'.message
  linked : ∀ uuid n ref, c.openSteps.lookup uuid = some n → t.openSteps.lookup uuid = some ref →
    (e.2 = some n ↔ e'.ref = ref)

/-- **The history behind one place, and the transcript behind another.** -/
structure Tail (p q : ℕ) (c : ContextMemory) (t : WireTranscript) : Prop where
  left : p ≤ c.history.length
  right : q ≤ t.transcript.length
  pairs : List.Forall₂ (Pair c t) ((c.history.map core).drop p) (t.transcript.drop q)

theorem forall₂_change {α β : Type} {R S : α → β → Prop} {l m : List α} {l' m' : List β}
    {f : α → α} {g : β → β} (hl : List.Forall₂ R l l')
    (hold : ∀ a ∈ l, ∀ b ∈ l', R a b → S (f a) (g b)) (hm : List.Forall₂ S m m') :
    List.Forall₂ S (l.map f ++ m) (l'.map g ++ m') := by
  induction hl with
  | nil => exact hm
  | cons hab _ ih =>
    refine .cons (hold _ (.head _) _ (.head _) hab) (ih fun a ha b hb => ?_)
    exact hold a (.tail _ ha) b (.tail _ hb)

namespace Tail

variable {p q : ℕ} {c c' : ContextMemory} {t t' : WireTranscript}

theorem start (c : ContextMemory) (t : WireTranscript) :
    Tail c.history.length t.transcript.length c t := by
  refine ⟨Nat.le_refl _, Nat.le_refl _, ?_⟩
  rw [drop_eq_nil_of_le (by simp), drop_eq_nil_of_le (Nat.le_refl _)]
  exact .nil

theorem change (h : Tail p q c t) (f : ContextMessage × Option ℕ → ContextMessage × Option ℕ)
    (g : MutableEntry → MutableEntry) (new : List (ContextMessage × Option ℕ))
    (new' : List MutableEntry)
    (hhist : c'.history.map core = (c.history.map core).map f ++ new)
    (htranscript : t'.transcript = t.transcript.map g ++ new')
    (hold : ∀ e ∈ c.history.map core, ∀ e' ∈ t.transcript, Pair c t e e' → Pair c' t' (f e) (g e'))
    (hnew : List.Forall₂ (Pair c' t') new new') : Tail p q c' t' := by
  have hleft := h.left
  have hright := h.right
  refine ⟨?_, ?_, ?_⟩
  · have hlen := congrArg List.length hhist
    simp only [length_append, length_map] at hlen
    omega
  · have hlen := congrArg List.length htranscript
    simp only [length_append, length_map] at hlen
    omega
  · have hmap : ((c.history.map core).map f).drop p =
        ((c.history.map core).drop p).map f := map_drop.symm
    have hmap' : (t.transcript.map g).drop q = (t.transcript.drop q).map g := map_drop.symm
    rw [hhist, htranscript, drop_append_of_le_length (by simpa using hleft),
      drop_append_of_le_length (by simpa using hright), hmap, hmap']
    refine forall₂_change h.pairs (fun e he e' he' => ?_) hnew
    exact hold e (mem_of_mem_drop he) e' (mem_of_mem_drop he')

/-- What the open steps are, and where messages go, does not matter otherwise. -/
theorem congr (h : Tail p q c t)
    (hhist : c'.history.map core = c.history.map core)
    (htranscript : t'.transcript = t.transcript)
    (hopen : ∀ uuid n ref, c'.openSteps.lookup uuid = some n →
      t'.openSteps.lookup uuid = some ref →
        c.openSteps.lookup uuid = some n ∧ t.openSteps.lookup uuid = some ref) :
    Tail p q c' t' := by
  refine h.change id id [] [] ?_ ?_ ?_ .nil
  · rw [List.map_id, List.append_nil, hhist]
  · rw [List.map_id, List.append_nil, htranscript]
  · intro e _ e' _ hpair
    refine ⟨hpair.told, hpair.step, fun uuid n ref hn href => ?_⟩
    obtain ⟨hn', href'⟩ := hopen uuid n ref hn href
    exact hpair.linked uuid n ref hn' href'

theorem push (h : Tail p q c t) (ms : List ContextMessage) (es : List MutableEntry)
    (hhist : c'.history = (c.pushHistory ms).history)
    (htranscript : t'.transcript = t.transcript ++ es) (hopen : c'.openSteps = c.openSteps)
    (hopen' : t'.openSteps = t.openSteps)
    (hnew : List.Forall₂ (fun m e => ToldAs m e.message ∧ e.ref ∉ t.openRefs) ms es) :
    Tail p q c' t' := by
  have hsame : ∀ uuid n ref, c'.openSteps.lookup uuid = some n →
      t'.openSteps.lookup uuid = some ref →
        c.openSteps.lookup uuid = some n ∧ t.openSteps.lookup uuid = some ref := by
    intro uuid n ref hn href
    rw [hopen] at hn
    rw [hopen'] at href
    exact ⟨hn, href⟩
  refine h.change id id (ms.map fun m => (m, none)) es ?_ ?_ ?_ ?_
  · rw [List.map_id, hhist, pushHistory, List.map_append, List.map_map]
    rfl
  · rw [List.map_id, htranscript]
  · intro e _ e' _ hpair
    refine ⟨hpair.told, hpair.step, fun uuid n ref hn href => ?_⟩
    obtain ⟨hn', href'⟩ := hsame uuid n ref hn href
    exact hpair.linked uuid n ref hn' href'
  · rw [List.forall₂_map_left_iff]
    refine hnew.imp fun m e hme => ⟨hme.1, fun hstep => absurd rfl hstep, ?_⟩
    intro uuid n ref hn href
    have hmem := Continues.mem_openRefs (hsame uuid n ref hn href).2
    exact ⟨fun hnone => (by cases hnone), fun heq => absurd (heq ▸ hmem) hme.2⟩

theorem flush (h : Tail p q c t) (hf : Follows c t) (ho : t.OpenObjects)
    (honly : t.transcriptOnlyDeferred = []) :
    Tail p q c.flushDeferredMessagesIfToolExchangeClosed t.flushDeferredIfToolExchangeClosed := by
  unfold flushDeferredMessagesIfToolExchangeClosed flushDeferredIfToolExchangeClosed
  by_cases hopen : c.hasOpenToolExchange = true
  · rw [if_pos hopen, if_pos (hf.hasOpen_iff.1 hopen)]
    exact h
  · rw [if_neg hopen, if_neg fun hp => hopen (hf.hasOpen_iff.2 hp)]
    refine h.push c.deferredMessages t.deferred rfl ?_ rfl rfl ?_
    · show t.transcript ++ t.deferred ++ t.transcriptOnlyDeferred = t.transcript ++ t.deferred
      rw [honly, append_nil]
    · rw [← hf.deferred, forall₂_map_left_iff, forall₂_same]
      exact fun e he => ⟨.same _, ho.held e (mem_append_left _ he)⟩

theorem append (h : Tail p q c t) (hf : Folds c t) (ho : t.OpenObjects) (m : ContextMessage) :
    Tail p q (c.append m) (t.appendMessage m) := by
  have hnew : ∀ turnId, List.Forall₂ (fun m (e : MutableEntry) =>
      ToldAs m e.message ∧ e.ref ∉ t.openRefs) [m] [t.newEntry m turnId] :=
    fun turnId => .cons ⟨.same m, ho.fresh⟩ .nil
  unfold ContextMemory.append
  by_cases hopen : c.hasOpenToolExchange = true
  · have hpending := hf.hasOpen_iff.1 hopen
    rw [if_pos hopen]
    refine h.congr rfl ?_ fun uuid n ref hn href => ⟨hn, ?_⟩
    · unfold WireTranscript.appendMessage
      dsimp only
      split_ifs <;> rfl
    · revert href
      unfold WireTranscript.appendMessage
      dsimp only
      split_ifs <;> exact id
  · have hpending : ¬ t.pendingToolResults.length > 0 := fun hp => hopen (hf.hasOpen_iff.2 hp)
    rw [if_neg hopen]
    unfold WireTranscript.appendMessage
    dsimp only
    split_ifs
    all_goals first | contradiction | exact h.push _ _ rfl rfl rfl rfl (hnew _)

/-! ### Results -/

theorem answer (h : Tail p q c t) (ho : t.OpenObjects) (id : String) (r : ExecutableToolResult)
    (turnId : Option String)
    (htranscript : t'.transcript = t.transcript ++ [t.newEntry (transcriptToolMessage id r) turnId])
    (hopen : t'.openSteps = t.openSteps) : Tail p q (c.answer id r) t' :=
  h.push _ _ rfl htranscript rfl hopen (.cons ⟨.result id r, ho.fresh⟩ .nil)

theorem toolResult (h : Tail p q c t) (hf : Folds c t) (ho : t.OpenObjects)
    (honly : t.transcriptOnlyDeferred = []) (id : String) (r : ExecutableToolResult) :
    Tail p q (c.toolResult id r) (t.toolResult id r) := by
  unfold ContextMemory.toolResult WireTranscript.toolResult
  by_cases hid : id ∈ c.pendingToolResultIds
  · obtain ⟨turnId, hturn⟩ := ne_none_iff_exists'.1 ((hf.mem_pending id).1 hid)
    rw [if_pos hid, hturn]
    refine flush ?_ ?_ ?_ honly
    · exact h.answer ho id r turnId rfl rfl
    · exact hf.answer id r rfl _
    · exact ho.of_new _ turnId rfl (List.Subset.refl _) rfl (List.Subset.refl _)
  · have hnone : t.pendingToolResults.lookup id = none := by
      by_contra hsome
      exact hid ((hf.mem_pending id).2 hsome)
    rw [if_neg hid, hnone]
    exact h

theorem closeAll (h : Tail p q c t) (hf : Follows c t) (ho : t.OpenObjects)
    (honly : t.transcriptOnlyDeferred = []) (ps : List (String × Option String)) (hps : ps ≠ [])
    (ht : t.pendingToolResults = ps) :
    Tail p q ((ps.map Prod.fst).foldl (fun c id => c.toolResult id interruptedResult) c)
      (ps.foldl closeOne t).flushDeferredIfToolExchangeClosed := by
  induction ps generalizing c t with
  | nil => exact absurd rfl hps
  | cons p' ps ih =>
    obtain ⟨hid, hrest⟩ := hf.closing ht
    have hanswer : Follows _ (t.closeOne p') := hf.answer p'.1 interruptedResult rfl _
    have hone : Tail p q _ (t.closeOne p') := h.answer ho p'.1 interruptedResult p'.2 rfl rfl
    rw [map_cons, foldl_cons, foldl_cons, ContextMemory.toolResult, if_pos hid]
    cases ps with
    | nil => exact hone.flush hanswer (ho.closeOne p') honly
    | cons q' ps =>
      have hopen := hanswer.hasOpen_iff.2 (by rw [hrest]; exact Nat.succ_pos _)
      rw [flush_of_open hopen]
      exact ih hone hanswer (ho.closeOne p') honly (by simp) hrest

theorem closePending (h : Tail p q c t) (hf : Folds c t) (ho : t.OpenObjects)
    (honly : t.transcriptOnlyDeferred = []) :
    Tail p q c.closePending t.closePendingToolResults := by
  unfold ContextMemory.closePending WireTranscript.closePendingToolResults
  rw [← hf.pending]
  cases hps : t.pendingToolResults with
  | nil => simpa using h
  | cons p' ps =>
    rw [if_neg (by simp)]
    exact h.closeAll hf.toFollows ho honly (p' :: ps) (by simp) hps

/-! ### Steps -/

theorem lookup_mapDelete {m : List (String × ℕ)} {key uuid : String} {n : ℕ}
    (h : (mapDelete m key).lookup uuid = some n) : uuid ≠ key ∧ m.lookup uuid = some n := by
  induction m with
  | nil => cases h
  | cons entry m ih =>
    obtain ⟨k, v⟩ := entry
    by_cases hk : k = key
    · have hrest : mapDelete ((k, v) :: m) key = mapDelete m key := by
        simp [mapDelete, hk]
      rw [hrest] at h
      obtain ⟨hne, hlookup⟩ := ih h
      refine ⟨hne, ?_⟩
      rw [lookup_cons, beq_eq_false_iff_ne.2 (by rw [hk]; exact hne)]
      exact hlookup
    · have hrest : mapDelete ((k, v) :: m) key = (k, v) :: mapDelete m key := by
        simp [mapDelete, hk]
      rw [hrest, lookup_cons] at h
      rw [lookup_cons]
      cases heq : uuid == k with
      | true =>
        rw [heq] at h
        exact ⟨fun hkey => hk ((beq_iff_eq.1 heq).symm.trans hkey), h⟩
      | false =>
        rw [heq] at h
        exact ih h

theorem lookup_mapSet {m : List (String × ℕ)} {key uuid : String} {value n : ℕ}
    (h : (mapSet m key value).lookup uuid = some n) :
    (uuid = key ∧ n = value) ∨ (uuid ≠ key ∧ m.lookup uuid = some n) := by
  rw [mapSet, lookup_cons] at h
  cases heq : uuid == key with
  | true =>
    rw [heq] at h
    exact .inl ⟨beq_iff_eq.1 heq, (some.inj h).symm⟩
  | false =>
    rw [heq] at h
    exact .inr (lookup_mapDelete h)

theorem beginStep (h : Tail p q c t) (hsteps : StepEntries c) (hnumbers : OpenNumbers c)
    (hnumbered : t.Numbered) (ho : t.OpenObjects) (uuid turnId : String) :
    Tail p q (c.beginStep uuid) (t.beginStep uuid turnId) := by
  refine h.change id (fun e =>
      if e.ref ∈ t.pendingTurnEntries then { e with turnId := some turnId } else e)
    [(stepMessage, some c.nextStep)] [t.newEntry stepMessage (some turnId)] ?_ rfl ?_ ?_
  · rw [List.map_id, ContextMemory.beginStep, List.map_append]
    rfl
  · intro e he e' he' hpair
    have hkeep : (if e'.ref ∈ t.pendingTurnEntries then { e' with turnId := some turnId }
        else e').message = e'.message ∧ (if e'.ref ∈ t.pendingTurnEntries then
          { e' with turnId := some turnId } else e').ref = e'.ref := by
      split <;> exact ⟨rfl, rfl⟩
    refine ⟨?_, ?_, fun uuid' n ref hn href => ?_⟩
    · rw [hkeep.1]
      exact hpair.told
    · rw [hkeep.1]
      exact hpair.step
    · rw [hkeep.2]
      rcases lookup_mapSet hn with ⟨rfl, rfl⟩ | ⟨hne, hn⟩
      · -- the numbers of the new step are those of no old entry
        rcases lookup_mapSet href with ⟨-, rfl⟩ | ⟨hne, -⟩
        · have hlt : e'.ref < t.nextRef := hnumbered.transcript e' he'
          refine ⟨fun hstep => ?_, fun heq => absurd heq (Nat.ne_of_lt hlt)⟩
          obtain ⟨entry, hentry, rfl⟩ := List.mem_map.1 he
          have hmem : c.nextStep ∈ c.steps := List.mem_filterMap.2 ⟨entry, hentry, hstep⟩
          exact absurd (hsteps.bound _ hmem) (Nat.lt_irrefl _)
        · exact absurd rfl hne
      · rcases lookup_mapSet href with ⟨rfl, -⟩ | ⟨-, href⟩
        · exact absurd rfl hne
        · exact hpair.linked uuid' n ref hn href
  · refine .cons ⟨.same _, fun _ => rfl, fun uuid' n ref hn href => ?_⟩ .nil
    rcases lookup_mapSet hn with ⟨rfl, rfl⟩ | ⟨hne, hn⟩
    · rcases lookup_mapSet href with ⟨-, rfl⟩ | ⟨hne, -⟩
      · exact ⟨fun _ => rfl, fun _ => rfl⟩
      · exact absurd rfl hne
    · rcases lookup_mapSet href with ⟨rfl, -⟩ | ⟨-, href⟩
      · exact absurd rfl hne
      · have hlt := hnumbers.lookup hn
        have hlt' := ho.bound ref (Continues.mem_openRefs href)
        refine ⟨fun heq => absurd (some.inj heq) (Nat.ne_of_gt hlt), fun heq => ?_⟩
        exact absurd heq (Nat.ne_of_gt hlt')

theorem updateStep (h : Tail p q c t) {uuid : String} {n ref : ℕ}
    (hn : c.openSteps.lookup uuid = some n) (href : t.openSteps.lookup uuid = some ref)
    (f : ContextMessage → ContextMessage) : Tail p q (c.updateStep n f) (t.updateStep ref f) := by
  refine h.change (fun e => if e.2 = some n then (f e.1, e.2) else e)
    (fun e => if e.ref = ref then { e with message := f e.message } else e) [] [] ?_ ?_ ?_ .nil
  · rw [List.append_nil, ContextMemory.updateStep, List.map_map, List.map_map]
    refine List.map_congr_left fun e _ => ?_
    by_cases hstep : e.step = some n <;> simp [core, hstep]
  · rw [List.append_nil]
    rfl
  · intro e _ e' _ hpair
    have hboth := hpair.linked uuid n ref hn href
    by_cases hstep : e.2 = some n
    · have hsame : e.1 = e'.message := hpair.step (by rw [hstep]; exact Option.some_ne_none n)
      rw [if_pos hstep, if_pos (hboth.1 hstep), hsame]
      exact ⟨.same _, fun _ => rfl, hpair.linked⟩
    · rw [if_neg hstep, if_neg fun heq => hstep (hboth.2 heq)]
      exact ⟨hpair.told, hpair.step, hpair.linked⟩

theorem endStep (h : Tail p q c t) (hf : Folds c t) (ho : t.OpenObjects)
    (honly : t.transcriptOnlyDeferred = []) (uuid : String) (usage : Option TokenUsage) :
    Tail p q (c.endStep uuid usage) (t.applyLoopEvent (.stepEnd uuid usage)) := by
  have hdelete : Tail p q { c with openSteps := mapDelete c.openSteps uuid }
      { t with openSteps := mapDelete t.openSteps uuid } :=
    h.congr rfl rfl fun _ _ _ hn href => ⟨(lookup_mapDelete hn).2, (lookup_mapDelete href).2⟩
  have hfollows : Follows { c with openSteps := mapDelete c.openSteps uuid }
      { t with openSteps := mapDelete t.openSteps uuid } :=
    { hf with
      openSteps := by rw [keys_mapDelete, keys_mapDelete, hf.openSteps]
      start := fun hnil => by
        obtain ⟨hopen, hclosed⟩ := hf.start hnil
        exact ⟨by rw [hopen]; rfl, hclosed⟩ }
  cases usage with
  | none => exact hdelete.flush hfollows (ho.endStep uuid) honly
  | some usage =>
    have hrest := ContextMemory.account_rest
      { c with openSteps := mapDelete c.openSteps uuid } usage (c.coveredCount uuid)
    refine Tail.flush ?_ (hfollows.account usage _) (ho.endStep uuid) honly
    refine hdelete.congr (ContextMemory.account_core _ usage _) rfl fun uuid' n ref hn href => ?_
    rw [hrest.2.2.1] at hn
    exact ⟨hn, href⟩

/-! ### Records -/

theorem loopEvent (h : Tail p q c t) (hf : Folds c t) (hsteps : StepEntries c)
    (hnumbers : OpenNumbers c) (hnumbered : t.Numbered) (ho : t.OpenObjects)
    (honly : t.transcriptOnlyDeferred = []) (e : LoopRecordedEvent) :
    Tail p q (c.loopEvent e) (t.applyLoopEvent e) := by
  cases e with
  | stepBegin uuid turnId =>
    exact (h.closePending hf ho honly).beginStep hsteps.closePending hnumbers.closePending
      (Continues.closePending hnumbered).numbered ho.closePending uuid turnId
  | stepEnd uuid usage => exact h.endStep hf ho honly uuid usage
  | contentPart stepUuid part =>
    simp only [ContextMemory.loopEvent, applyLoopEvent]
    cases hc : c.openStep stepUuid with
    | none =>
      rw [(hf.openStep_iff stepUuid).1 hc]
      exact h
    | some n =>
      obtain ⟨ref, ht⟩ := ne_none_iff_exists'.1 fun hnone =>
        some_ne_none n (hc.symm.trans ((hf.openStep_iff stepUuid).2 hnone))
      rw [ht]
      exact h.updateStep hc ht _
  | toolCall stepUuid toolCallId name args =>
    simp only [ContextMemory.loopEvent, applyLoopEvent]
    cases hc : c.openStep stepUuid with
    | none =>
      rw [(hf.openStep_iff stepUuid).1 hc]
      exact h
    | some n =>
      obtain ⟨ref, ht⟩ := ne_none_iff_exists'.1 fun hnone =>
        some_ne_none n (hc.symm.trans ((hf.openStep_iff stepUuid).2 hnone))
      rw [ht]
      have hstep := h.updateStep hc ht (ContextMessage.addToolCall ⟨toolCallId, name, args⟩)
      exact hstep.congr rfl rfl fun _ _ _ hn href => ⟨hn, href⟩
  | toolResult toolCallId r => exact h.toolResult hf ho honly toolCallId r

end Tail

/-! ### Plain records -/

/-- **The record only appends**, to the history and to the transcript alike. -/
def AgentRecord.isPlain : AgentRecord → Bool
  | .forked _ | .turnPrompt _ | .appendMessage _ | .appendLoopEvent _ => true
  | .appendTranscriptMessage _ | .clear | .applyCompaction _ | .undo _ => false

theorem AgentRecord.isUndo_of_isPlain {r : AgentRecord} (h : r.isPlain = true) :
    r.isUndo = false := by
  cases r with
  | undo count => cases h
  | _ => rfl

theorem transcriptOnlyDeferred_reduce {t : WireTranscript} {r : AgentRecord}
    (h : t.transcriptOnlyDeferred = []) (hr : r.isPlain = true) :
    (t.reduce r).transcriptOnlyDeferred = [] := by
  have hflush : ∀ u : WireTranscript, u.transcriptOnlyDeferred = [] →
      u.flushDeferredIfToolExchangeClosed.transcriptOnlyDeferred = [] := by
    intro u hu
    unfold flushDeferredIfToolExchangeClosed
    split
    · exact hu
    · rfl
  have hclose : ∀ (ps : List (String × Option String)) (u : WireTranscript),
      u.transcriptOnlyDeferred = [] → (ps.foldl closeOne u).transcriptOnlyDeferred = [] := by
    intro ps
    induction ps with
    | nil => exact fun u hu => hu
    | cons p ps ih => exact fun u hu => ih _ hu
  cases r with
  | forked | turnPrompt => exact h
  | appendMessage m =>
    simp only [WireTranscript.reduce, WireTranscript.appendMessage]
    split_ifs <;> exact h
  | appendLoopEvent e =>
    cases e with
    | stepBegin uuid turnId =>
      have hclosed : t.closePendingToolResults.transcriptOnlyDeferred = [] := by
        unfold WireTranscript.closePendingToolResults
        split
        · exact h
        · exact hflush _ (hclose _ t h)
      exact map_eq_nil_iff.2 hclosed
    | stepEnd uuid usage => exact hflush _ h
    | contentPart stepUuid part =>
      simp only [WireTranscript.reduce, applyLoopEvent]
      split <;> exact h
    | toolCall stepUuid toolCallId name args =>
      simp only [WireTranscript.reduce, applyLoopEvent]
      split <;> exact h
    | toolResult toolCallId result =>
      simp only [WireTranscript.reduce, applyLoopEvent, WireTranscript.toolResult]
      split
      · exact h
      · exact hflush _ h
  | appendTranscriptMessage | clear | applyCompaction | undo => cases hr

/-- The tail, with what the next records depend on. -/
structure Aligned (p q : ℕ) (c : ContextMemory) (t : WireTranscript) : Prop extends
    Tail p q c t where
  folds : Folds c t
  steps : StepEntries c
  numbers : OpenNumbers c
  numbered : t.Numbered
  objects : t.OpenObjects
  only : t.transcriptOnlyDeferred = []

namespace Aligned

variable {p q : ℕ} {c : ContextMemory} {t : WireTranscript}

theorem reduce (h : Aligned p q c t) {r : AgentRecord} (hfits : Fits c r)
    (hr : r.isPlain = true) : Aligned p q (c.restored r) (t.reduce r) where
  toTail := by
    cases r with
    | forked hadGoal =>
      obtain rfl : hadGoal = false := hfits
      exact h.toTail
    | turnPrompt origin => exact h.toTail.congr rfl rfl fun _ _ _ hn href => ⟨hn, href⟩
    | appendMessage m => exact h.toTail.append h.folds h.objects m
    | appendLoopEvent e =>
      exact h.toTail.loopEvent h.folds h.steps h.numbers h.numbered h.objects h.only e
    | appendTranscriptMessage | clear | applyCompaction | undo => cases hr
  folds := h.folds.reduce hfits
  steps := h.steps.restored r
  numbers := h.numbers.restored r
  numbered := h.numbered.reduce r
  objects := h.objects.reduce h.numbered r
  only := transcriptOnlyDeferred_reduce h.only hr

theorem reduceAll (h : Aligned p q c t) {later : List AgentRecord} (hfits : FitsAll c later)
    (hplain : ∀ r ∈ later, r.isPlain = true) :
    Aligned p q (later.foldl restored c) (later.foldl WireTranscript.reduce t) := by
  induction later generalizing c t with
  | nil => exact h
  | cons r later ih =>
    exact ih (h.reduce hfits.1 (hplain r (.head _))) hfits.2 fun r' hr' => hplain r' (.tail _ hr')

end Aligned

theorem openNumbers_replayed (records : List AgentRecord) :
    OpenNumbers (records.foldl restored {}) := by
  induction records using reverseRecOn with
  | nil => exact OpenNumbers.of_nil rfl
  | append_singleton records r ih =>
    rw [foldl_append]
    exact ih.restored r

/-- **The tail of a log whose last records are plain**: what the replayed history has beyond the
folded length is what these records add to the transcript. -/
theorem tail_of_plain {records later : List AgentRecord} (hfits : FitsAll {} (records ++ later))
    (hplain : ∀ r ∈ later, r.isPlain = true)
    (honly : (reduceWireRecords records).transcriptOnlyDeferred = []) :
    List.Forall₂ ToldAs
      (((records ++ later).foldl ContextMemory.restored {}).messages.drop
        (reduceWireRecords records).foldedLength)
      ((reduceWireRecords (records ++ later)).messages.drop
        (reduceWireRecords records).transcript.length) := by
  obtain ⟨hread, hlater⟩ := (fitsAll_append {} records later).1 hfits
  have hfolds : Folds (records.foldl ContextMemory.restored {}) (reduceWireRecords records) :=
    hread.folds Folds.initial
  have hstart : Aligned (records.foldl ContextMemory.restored {}).history.length
      (reduceWireRecords records).transcript.length
      (records.foldl ContextMemory.restored {}) (reduceWireRecords records) :=
    { Tail.start _ _ with
      folds := hfolds
      steps := StepEntries.replayed records
      numbers := openNumbers_replayed records
      numbered := numbered_reduceWireRecords records
      objects := openObjects_reduceWireRecords records
      only := honly }
  have hall := (hstart.reduceAll hlater hplain).pairs
  rw [← hfolds.length, ← foldl_append, reduceWireRecords, ← foldl_append] at hall
  unfold ContextMemory.messages WireTranscript.messages
  rw [← map_drop, ← map_drop, forall₂_map_left_iff, forall₂_map_right_iff]
  rw [← map_drop, forall₂_map_left_iff] at hall
  exact hall.imp fun e e' hpair => hpair.told

end NoriCode
