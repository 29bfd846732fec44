/-
**The reducer of the transcript follows the replay.**

Two reducers read the same records: the replay into a fresh context, and the reducer of the
transcript.  They agree on the length of the history as long as each record fits the replayed
context: its event writes to an open step, the recorded number of kept messages is the one the
replayed compaction keeps, a message for the transcript only is an injection, and a fork does not
find a goal.

Main definitions:

* `Folds` — the transcript follows the context;
* `Fits`, `FitsAll` — a record, and a log, that fits.

Main results:

* `Folds.reduce` — **one record**;
* `FitsAll.foldedLength` — a log that fits.
-/

import NoriCode.ContextReplay
import NoriCode.TranscriptUndo

namespace NoriCode

open LibOrdSet List Option ContextMessage ContextMemory WireTranscript

/-! ### Small facts -/

/-- What an undo depends on. -/
def undoShape (m : ContextMessage) : Role × Option OriginKind := (m.role, m.originKind)

theorem undoFlags_congr {l l' : List ContextMessage} (h : l.map undoShape = l'.map undoShape) :
    undoFlags l = undoFlags l' := by
  induction l generalizing l' with
  | nil =>
    obtain rfl : l' = [] := map_eq_nil_iff.1 h.symm
    rfl
  | cons m l ih =>
    cases l' with
    | nil => simp at h
    | cons m' l' =>
      obtain ⟨hm, hl⟩ := cons_eq_cons.1 h
      obtain ⟨hrole, hkind⟩ := Prod.mk.inj hm
      have hkind : m.originKind = m'.originKind := hkind
      have hrole : m.role = m'.role := hrole
      have hinj : m.isInjection = m'.isInjection := by
        rw [isInjection, isInjection, hkind]
      have hsum : m.isCompactionSummary = m'.isCompactionSummary := by
        rw [isCompactionSummary, isCompactionSummary, hkind]
      have hreal : isRealUserInput m = isRealUserInput m' := by
        rw [isRealUserInput, isRealUserInput, hrole, hkind]
      rw [undoFlags, undoFlags, hinj, hsum, hreal, ih hl]

theorem keys_mapDelete (m : List (String × ℕ)) (key : String) :
    (mapDelete m key).map Prod.fst = (m.map Prod.fst).filter (· != key) := by
  simp [mapDelete, List.filter_map, Function.comp_def]

theorem keys_mapSet (m : List (String × ℕ)) (key : String) (value : ℕ) :
    (mapSet m key value).map Prod.fst = key :: (m.map Prod.fst).filter (· != key) := by
  rw [mapSet, map_cons, keys_mapDelete]

theorem lookup_eq_none_iff {α : Type} (m : List (String × α)) (key : String) :
    m.lookup key = none ↔ key ∉ m.map Prod.fst := by
  rw [List.lookup_eq_none_iff, List.mem_map, not_exists]
  simp only [bne_iff_ne, not_and, ne_comm (a := key), ne_eq]

theorem keys_orderedMapSet (m : List (String × Option String)) (key : String)
    (value : Option String) :
    (orderedMapSet m key value).map Prod.fst =
      if key ∈ m.map Prod.fst then m.map Prod.fst else m.map Prod.fst ++ [key] := by
  unfold orderedMapSet
  by_cases hkey : key ∈ m.map Prod.fst
  · rw [if_pos (List.contains_iff_mem.2 hkey), if_pos hkey, List.map_map]
    refine List.map_congr_left fun p _ => ?_
    by_cases hp : p.1 = key <;> simp [hp]
  · rw [if_neg fun hc => hkey (List.contains_iff_mem.1 hc), if_neg hkey, List.map_append]
    rfl

/-! ### The relation -/

namespace WireTranscript

/-- The messages of the transcript. -/
def messages (t : WireTranscript) : List ContextMessage := t.transcript.map (·.message)

end WireTranscript

open WireTranscript

/-- The transcript and the context, while messages may still be deferred that nothing holds back.
Behind the floor and the last summary, an undo finds the same entries in both. -/
structure Follows (c : ContextMemory) (t : WireTranscript) : Prop where
  length : t.foldedLength = c.history.length
  pending : t.pendingToolResults.map Prod.fst = c.pendingToolResultIds.toList
  deferred : t.deferred.map (·.message) = c.deferredMessages
  openSteps : t.openSteps.map Prod.fst = c.openSteps.map Prod.fst
  flags : undoFlags (t.messages.drop t.clearFloor).reverse = undoFlags c.messages.reverse
  floor : t.clearFloor ≤ t.messages.length
  transcriptOnly : ∀ m ∈ t.transcriptOnlyDeferred.map (·.message), m.isInjection = true
  start : c.history = [] → c.openSteps = [] ∧ c.hasOpenToolExchange = false

/-- **The transcript follows the context.** -/
structure Folds (c : ContextMemory) (t : WireTranscript) : Prop extends Follows c t where
  closed : c.hasOpenToolExchange = false → c.deferredMessages = []

namespace Follows

variable {c : ContextMemory} {t : WireTranscript}

variable (h : Follows c t)

include h

theorem hasOpen_iff : c.hasOpenToolExchange = true ↔ 0 < t.pendingToolResults.length := by
  rw [← length_map (f := Prod.fst), h.pending, length_pos_iff_ne_nil]
  simp [hasOpenToolExchange, OrdSet.isEmpty]

theorem mem_pending (id : String) :
    id ∈ c.pendingToolResultIds ↔ t.pendingToolResults.lookup id ≠ none := by
  rw [ne_eq, lookup_eq_none_iff, not_not, h.pending]
  exact OrdSet.mem_def

theorem push {ms : List ContextMessage} {es : List MutableEntry}
    (hes : (es.map (·.message)).map undoShape = ms.map undoShape) :
    Follows (c.pushHistory ms) (t.push es) := by
  have hlen : es.length = ms.length := by simpa using congrArg List.length hes
  have hmsgs : (t.push es).messages = t.messages ++ es.map (·.message) := by
    simp [WireTranscript.messages, WireTranscript.push]
  refine { h with
    length := ?_
    flags := ?_
    floor := ?_
    start := fun hnil => h.start (append_eq_nil_iff.1 hnil).1 }
  · simp [ContextMemory.pushHistory, WireTranscript.push, h.length, hlen]
  · have hc : (c.pushHistory ms).messages = c.messages ++ ms := by
      simp [ContextMemory.messages, ContextMemory.pushHistory, Function.comp_def]
    have hdrop : (t.push es).messages.drop t.clearFloor =
        t.messages.drop t.clearFloor ++ es.map (·.message) := by
      rw [hmsgs, drop_append_of_le_length h.floor]
    have hfloor : (t.push es).clearFloor = t.clearFloor := rfl
    rw [hfloor, hdrop, hc, reverse_append, reverse_append]
    refine (undoFlags_append_congr h.flags _).trans (undoFlags_congr ?_)
    simp only [map_append, map_reverse, hes]
  · rw [hmsgs, length_append]
    exact Nat.le_add_right_of_le h.floor

theorem pushTranscript (t' : WireTranscript) {es : List MutableEntry}
    (hes : ∀ m ∈ es.map (·.message), m.isInjection = true)
    (htr : t'.transcript = t.transcript ++ es) (hfold : t'.foldedLength = t.foldedLength)
    (hfloor : t'.clearFloor = t.clearFloor)
    (hpending : t'.pendingToolResults = t.pendingToolResults) (hdef : t'.deferred = t.deferred)
    (hopen : t'.openSteps = t.openSteps)
    (honly : ∀ m ∈ t'.transcriptOnlyDeferred.map (·.message), m.isInjection = true) :
    Follows c t' := by
  have hmsgs : t'.messages = t.messages ++ es.map (·.message) := by
    simp [WireTranscript.messages, htr]
  refine { h with
    length := hfold.trans h.length
    pending := hpending ▸ h.pending
    deferred := hdef ▸ h.deferred
    openSteps := hopen ▸ h.openSteps
    flags := ?_
    floor := ?_
    transcriptOnly := honly }
  · rw [hfloor, hmsgs, drop_append_of_le_length h.floor, reverse_append,
      undoFlags_injection_append fun m hm => hes m (mem_reverse.1 hm)]
    exact h.flags
  · rw [hfloor, hmsgs, length_append]
    exact Nat.le_add_right_of_le h.floor

theorem flush : Folds c.flushDeferredMessagesIfToolExchangeClosed
    t.flushDeferredIfToolExchangeClosed := by
  unfold flushDeferredMessagesIfToolExchangeClosed flushDeferredIfToolExchangeClosed
  by_cases hopen : c.hasOpenToolExchange = true
  · rw [if_pos hopen, if_pos (h.hasOpen_iff.1 hopen)]
    exact { h with closed := fun hclosed => absurd hopen (by simp [hclosed]) }
  · rw [if_neg hopen, if_neg fun hp => hopen (h.hasOpen_iff.2 hp)]
    have hpush := h.push (congrArg (List.map undoShape) h.deferred)
    have hall := hpush.pushTranscript { t.push t.deferred with
      transcript := (t.push t.deferred).transcript ++ t.transcriptOnlyDeferred
      transcriptOnlyDeferred := [] } h.transcriptOnly rfl rfl rfl rfl rfl rfl (by simp)
    exact { hall with
      deferred := rfl
      closed := fun _ => rfl }

theorem account (usage : TokenUsage) (n : ℕ) : Follows (c.account usage n) t := by
  have hlen : (c.account usage n).history.length = c.history.length := by
    simpa using congrArg List.length (c.account_core usage n)
  have hmsgs := c.account_messages usage n
  obtain ⟨hpending, hdef, hopen, -⟩ := c.account_rest usage n
  exact { h with
    length := h.length.trans hlen.symm
    pending := hpending ▸ h.pending
    deferred := hdef ▸ h.deferred
    openSteps := hopen ▸ h.openSteps
    flags := hmsgs ▸ h.flags
    start := fun hnil => by
      rw [hasOpenToolExchange, hpending, hopen]
      refine h.start (length_eq_zero_iff.1 ?_)
      rw [← hlen, hnil, length_nil] }

theorem keys_orderedMapDelete (id : String) :
    (orderedMapDelete t.pendingToolResults id).map Prod.fst =
      (c.pendingToolResultIds.erase id).toList := by
  have hfilter : (orderedMapDelete t.pendingToolResults id).map Prod.fst =
      (t.pendingToolResults.map Prod.fst).filter (· != id) := by
    simp [orderedMapDelete, List.filter_map, Function.comp_def]
  rw [hfilter, h.pending]
  exact (c.pendingToolResultIds.nodup.erase_eq_filter id).symm

theorem answer (id : String) (result : ExecutableToolResult) {e : MutableEntry}
    (he : e.message = transcriptToolMessage id result) (n : ℕ) :
    Follows (c.answer id result)
      { t.push [e] with
        pendingToolResults := orderedMapDelete t.pendingToolResults id, nextRef := n } := by
  have hpush : Follows (c.pushHistory [toolResultMessage id result]) (t.push [e]) := by
    refine h.push ?_
    rw [map_singleton, he]
    rfl
  exact { hpush with
    pending := h.keys_orderedMapDelete id
    start := fun hnil => by simp [ContextMemory.answer, ContextMemory.pushHistory] at hnil }

/-- The first call that waits does so in both, and is the one that is closed. -/
theorem closing {p : String × Option String} {ps : List (String × Option String)}
    (ht : t.pendingToolResults = p :: ps) :
    p.1 ∈ c.pendingToolResultIds ∧ (t.closeOne p).pendingToolResults = ps := by
  have hkeys := h.pending
  rw [ht, map_cons] at hkeys
  have hnodup := c.pendingToolResultIds.nodup
  rw [← hkeys, nodup_cons] at hnodup
  have hkeep : ∀ r ∈ ps, (r.1 != p.1) = true := by
    intro r hr
    rw [bne_iff_ne]
    intro heq
    exact hnodup.1 (heq ▸ mem_map_of_mem hr)
  constructor
  · rw [OrdSet.mem_def, ← hkeys]
    exact (.head _)
  · rw [closeOne, ht, orderedMapDelete, filter_cons_of_neg (by simp)]
    exact filter_eq_self.2 hkeep

end Follows

namespace Folds

variable {c : ContextMemory} {t : WireTranscript}

theorem initial : Folds {} {} where
  length := rfl
  pending := rfl
  deferred := rfl
  openSteps := rfl
  flags := rfl
  floor := le_refl 0
  transcriptOnly := by simp
  closed := fun _ => rfl
  start := fun _ => ⟨rfl, rfl⟩

/-- The turn of an entry, and which entries wait for a turn, do not matter. -/
theorem of_eq (h : Folds c t) (t' : WireTranscript)
    (htr : t'.messages = t.messages) (hfold : t'.foldedLength = t.foldedLength)
    (hfloor : t'.clearFloor = t.clearFloor)
    (hpending : t'.pendingToolResults = t.pendingToolResults)
    (hdef : t'.deferred.map (·.message) = t.deferred.map (·.message))
    (hopen : t'.openSteps = t.openSteps)
    (honly : t'.transcriptOnlyDeferred.map (·.message) =
      t.transcriptOnlyDeferred.map (·.message)) : Folds c t' where
  length := hfold.trans h.length
  pending := hpending ▸ h.pending
  deferred := hdef.trans h.deferred
  openSteps := hopen ▸ h.openSteps
  flags := by rw [htr, hfloor]; exact h.flags
  floor := by rw [htr, hfloor]; exact h.floor
  transcriptOnly := honly ▸ h.transcriptOnly
  closed := h.closed
  start := h.start

theorem append (h : Folds c t) (m : ContextMessage) : Folds (c.append m) (t.appendMessage m) := by
  have hentry : ∀ (t' : WireTranscript) (e : MutableEntry), Folds c t' → e.message = m →
      Folds (c.append m)
        (if t'.pendingToolResults.length > 0 then { t' with deferred := t'.deferred ++ [e] }
          else t'.push [e]) := by
    intro t' e ht' he
    unfold ContextMemory.append
    by_cases hopen : c.hasOpenToolExchange = true
    · rw [if_pos hopen, if_pos (ht'.hasOpen_iff.1 hopen)]
      exact { ht' with
        deferred := by rw [map_append, ht'.deferred, map_singleton, he]
        closed := fun hclosed => absurd (hopen.symm.trans hclosed) (by decide) }
    · rw [if_neg hopen, if_neg fun hp => hopen (ht'.hasOpen_iff.2 hp)]
      have hpush : Follows (c.pushHistory [m]) (t'.push [e]) := by
        refine ht'.push ?_
        rw [map_singleton, he]
      exact { hpush with closed := ht'.closed }
  refine hentry _ _ (h.of_eq _ ?_ ?_ ?_ ?_ ?_ ?_ ?_) rfl <;> split_ifs <;> rfl

theorem appendTranscriptMessage (h : Folds c t) {m : ContextMessage} (hm : m.isInjection = true) :
    Folds c (t.appendTranscriptMessage m) := by
  have hentry : ∀ (t' : WireTranscript) (e : MutableEntry), Folds c t' → e.message = m →
      Folds c
        (if t'.pendingToolResults.length > 0 then
          { t' with transcriptOnlyDeferred := t'.transcriptOnlyDeferred ++ [e] }
        else { t' with transcript := t'.transcript ++ [e] }) := by
    intro t' e ht' he
    have hinj : ∀ x ∈ [e].map (·.message), x.isInjection = true := by simpa [he] using hm
    split_ifs
    · refine { ht' with transcriptOnly := fun x hx => ?_ }
      rw [map_append] at hx
      exact (mem_append.1 hx).elim (ht'.transcriptOnly x) (hinj x)
    · exact { ht'.pushTranscript { t' with transcript := t'.transcript ++ [e] } hinj rfl rfl rfl
        rfl rfl rfl ht'.transcriptOnly with closed := ht'.closed }
  refine hentry _ _ (h.of_eq _ ?_ ?_ ?_ ?_ ?_ ?_ ?_) rfl <;> split_ifs <;> rfl

theorem toolResult (h : Folds c t) (id : String) (result : ExecutableToolResult) :
    Folds (c.toolResult id result) (t.toolResult id result) := by
  unfold ContextMemory.toolResult WireTranscript.toolResult
  by_cases hid : id ∈ c.pendingToolResultIds
  · obtain ⟨turnId, hturn⟩ := ne_none_iff_exists'.1 ((h.mem_pending id).1 hid)
    rw [if_pos hid, hturn]
    exact (h.answer id result rfl _).flush
  · have hnone : t.pendingToolResults.lookup id = none := by
      by_contra hsome
      exact hid ((h.mem_pending id).2 hsome)
    rw [if_neg hid, hnone]
    exact h

/-- The calls that wait are interrupted one after the other; only the last one lets the deferred
messages go. -/
theorem closeAll (ps : List (String × Option String)) (hps : ps ≠ [])
    (ht : t.pendingToolResults = ps) (h : Follows c t) :
    Folds ((ps.map Prod.fst).foldl (fun c id => c.toolResult id interruptedResult) c)
      (ps.foldl closeOne t).flushDeferredIfToolExchangeClosed := by
  induction ps generalizing c t with
  | nil => exact absurd rfl hps
  | cons p ps ih =>
    obtain ⟨hid, hrest⟩ := h.closing ht
    have hanswer : Follows _ (t.closeOne p) := h.answer p.1 interruptedResult rfl _
    rw [map_cons, foldl_cons, foldl_cons, ContextMemory.toolResult, if_pos hid]
    cases ps with
    | nil => exact hanswer.flush
    | cons q ps =>
      have hopen := hanswer.hasOpen_iff.2 (by rw [hrest]; exact Nat.succ_pos _)
      rw [flush_of_open hopen]
      exact ih (by simp) hrest hanswer

theorem closePending (h : Folds c t) : Folds c.closePending t.closePendingToolResults := by
  unfold ContextMemory.closePending WireTranscript.closePendingToolResults
  rw [← h.pending]
  cases hps : t.pendingToolResults with
  | nil => simpa using h
  | cons p ps =>
    rw [if_neg (by simp)]
    exact closeAll (p :: ps) (by simp) hps h.toFollows

/-! ### Steps -/

section

variable (h : Folds c t)

include h

theorem assignTurn (turnId : String) : Folds c (t.assignTurn turnId) := by
  have hmsgs : ∀ es : List MutableEntry,
      (es.map fun e => if e.ref ∈ t.pendingTurnEntries then { e with turnId := some turnId }
        else e).map (·.message) = es.map (·.message) := by
    intro es
    rw [List.map_map]
    refine List.map_congr_left fun e _ => ?_
    by_cases he : e.ref ∈ t.pendingTurnEntries <;> simp [he]
  exact h.of_eq _ (hmsgs _) rfl rfl rfl (hmsgs _) rfl (hmsgs _)

theorem beginStep (uuid turnId : String) : Folds (c.beginStep uuid) (t.beginStep uuid turnId) := by
  have hturn : Folds c ({ t with currentTurnId := some turnId }.assignTurn turnId) :=
    (h.of_eq { t with currentTurnId := some turnId } rfl rfl rfl rfl rfl rfl rfl).assignTurn turnId
  unfold WireTranscript.beginStep
  generalize { t with currentTurnId := some turnId }.assignTurn turnId = t' at hturn
  have hpush : Follows (c.pushHistory [stepMessage])
      (t'.push [t'.newEntry stepMessage (some turnId)]) := hturn.push rfl
  have hmsgs : (c.beginStep uuid).messages = (c.pushHistory [stepMessage]).messages := by
    simp [ContextMemory.messages, ContextMemory.beginStep, ContextMemory.pushHistory]
  exact { hpush with
    length := by
      simpa [ContextMemory.beginStep, ContextMemory.pushHistory] using hpush.length
    openSteps := by
      rw [ContextMemory.beginStep, keys_mapSet, keys_mapSet, hturn.openSteps]
    flags := by
      rw [hmsgs]
      exact hpush.flags
    closed := hturn.closed
    start := fun hnil => by simp [ContextMemory.beginStep] at hnil }

theorem updateStep (n ref : ℕ) {f : ContextMessage → ContextMessage}
    (hf : ∀ m, undoShape (f m) = undoShape m) : Folds (c.updateStep n f) (t.updateStep ref f) := by
  have hc : (c.updateStep n f).messages.map undoShape = c.messages.map undoShape := by
    unfold ContextMemory.messages ContextMemory.updateStep
    simp only [List.map_map]
    refine List.map_congr_left fun e _ => ?_
    by_cases he : e.step = some n <;> simp [he, hf]
  have ht : (t.updateStep ref f).messages.map undoShape = t.messages.map undoShape := by
    unfold WireTranscript.messages WireTranscript.updateStep updateEntry
    simp only [List.map_map]
    refine List.map_congr_left fun e _ => ?_
    by_cases he : e.ref = ref <;> simp [he, hf]
  refine { h with
    length := ?_
    flags := ?_
    floor := ?_
    start := fun hnil => h.start (List.map_eq_nil_iff.1 hnil) }
  · exact h.length.trans (by simp [ContextMemory.updateStep])
  · have hback : undoFlags (c.updateStep n f).messages.reverse = undoFlags c.messages.reverse :=
      undoFlags_congr (by rw [List.map_reverse, hc, List.map_reverse])
    have hfront : undoFlags ((t.updateStep ref f).messages.drop t.clearFloor).reverse =
        undoFlags (t.messages.drop t.clearFloor).reverse :=
      undoFlags_congr (by rw [List.map_reverse, List.map_drop, ht, ← List.map_drop,
        List.map_reverse])
    exact hfront.trans (h.flags.trans hback.symm)
  · have hlen := congrArg List.length ht
    rw [List.length_map, List.length_map] at hlen
    exact hlen ▸ h.floor

theorem openStep_iff (uuid : String) : c.openStep uuid = none ↔ t.openSteps.lookup uuid = none := by
  rw [openStep, lookup_eq_none_iff, lookup_eq_none_iff, h.openSteps]

theorem contentPart (stepUuid : String) (part : ContentPart) :
    Folds (c.loopEvent (.contentPart stepUuid part))
      (t.applyLoopEvent (.contentPart stepUuid part)) := by
  simp only [loopEvent, applyLoopEvent]
  cases hc : c.openStep stepUuid with
  | none =>
    rw [(h.openStep_iff stepUuid).1 hc]
    exact h
  | some n =>
    obtain ⟨ref, ht⟩ := ne_none_iff_exists'.1 fun hnone =>
      some_ne_none n (hc.symm.trans ((h.openStep_iff stepUuid).2 hnone))
    rw [ht]
    exact h.updateStep n ref fun m => rfl

theorem toolCall (stepUuid id name : String) (args : Option String) :
    Folds (c.loopEvent (.toolCall stepUuid id name args))
      (t.applyLoopEvent (.toolCall stepUuid id name args)) := by
  simp only [loopEvent, applyLoopEvent]
  cases hc : c.openStep stepUuid with
  | none =>
    rw [(h.openStep_iff stepUuid).1 hc]
    exact h
  | some n =>
    obtain ⟨ref, ht⟩ := ne_none_iff_exists'.1 fun hnone =>
      some_ne_none n (hc.symm.trans ((h.openStep_iff stepUuid).2 hnone))
    rw [ht]
    have hupd := h.updateStep n ref (f := ContextMessage.addToolCall ⟨id, name, args⟩) fun m => rfl
    refine { hupd with
      pending := ?_
      closed := fun hclosed => ?_
      start := fun hnil => ?_ }
    · rw [keys_orderedMapSet, h.pending]
      exact (OrdSet.toList_insert c.pendingToolResultIds id).symm
    · -- a step is open, so the history is not empty
      have hopen := (h.start (map_eq_nil_iff.1 hnil)).1
      rw [openStep, hopen] at hc
      cases hc
    · rw [hasOpenToolExchange, Bool.not_eq_false', OrdSet.isEmpty_iff] at hclosed
      exact absurd (OrdSet.mem_insert.2 (Or.inr rfl)) (hclosed id)

theorem endStep (uuid : String) (usage : Option TokenUsage) :
    Folds (c.endStep uuid usage) (t.applyLoopEvent (.stepEnd uuid usage)) := by
  have hdelete : Follows { c with openSteps := mapDelete c.openSteps uuid }
      { t with openSteps := mapDelete t.openSteps uuid } :=
    { h with
      openSteps := by rw [keys_mapDelete, keys_mapDelete, h.openSteps]
      start := fun hnil => by
        obtain ⟨hopen, hclosed⟩ := h.start hnil
        exact ⟨by rw [hopen]; rfl, hclosed⟩ }
  cases usage with
  | none => exact hdelete.flush
  | some usage => exact (hdelete.account usage _).flush

theorem loopEvent (e : LoopRecordedEvent) : Folds (c.loopEvent e) (t.applyLoopEvent e) := by
  cases e with
  | stepBegin uuid turnId => exact h.closePending.beginStep uuid turnId
  | stepEnd uuid usage => exact h.endStep uuid usage
  | contentPart stepUuid part => exact h.contentPart stepUuid part
  | toolCall stepUuid toolCallId name args => exact h.toolCall stepUuid toolCallId name args
  | toolResult toolCallId result => exact h.toolResult toolCallId result

end

/-! ### Undo, clear and compaction -/

theorem of_reset {d : ContextMemory} (t' : WireTranscript)
    (hlength : t'.foldedLength = d.history.length)
    (hflags : undoFlags (t'.messages.drop t'.clearFloor).reverse = undoFlags d.messages.reverse)
    (hfloor : t'.clearFloor ≤ t'.messages.length)
    (hd : d.openSteps = [] ∧ d.pendingToolResultIds = .empty ∧ d.deferredMessages = []) :
    Folds d t'.resetOpenState := by
  obtain ⟨hopen, hpending, hdef⟩ := hd
  exact {
    length := hlength
    pending := by rw [hpending]; rfl
    deferred := hdef.symm
    openSteps := by rw [hopen]; rfl
    flags := hflags
    floor := hfloor
    transcriptOnly := by simp [resetOpenState]
    closed := fun _ => hdef
    start := fun _ => ⟨hopen, by rw [hasOpenToolExchange, hpending]; rfl⟩ }

theorem undone (h : Folds c t) (count : ℤ) : Folds (c.undone count) (t.applyUndo count) := by
  unfold applyUndo
  by_cases hcount : count ≤ 0
  · rw [if_pos hcount, ContextMemory.undone, if_neg (by simp [ContextMemory.canUndo, hcount])]
    exact h
  have hcan : c.canUndo count = false → c.history = [] := by
    simp [ContextMemory.canUndo, hcount]
  have hhist : (c.undone count).history = undoKept (·.message) count 0 c.history.reverse := by
    unfold ContextMemory.undone
    split_ifs with hc
    · exact (undoFrom_kept count _ _).trans (append_nil _)
    · rw [hcan (Bool.eq_false_iff.2 hc)]
      rfl
  have hreset : (c.undone count).openSteps = [] ∧
      (c.undone count).pendingToolResultIds = .empty ∧ (c.undone count).deferredMessages = [] := by
    unfold ContextMemory.undone
    split_ifs with hc
    · exact ⟨rfl, rfl, rfl⟩
    · obtain ⟨hopen, hclosed⟩ := h.start (hcan (Bool.eq_false_iff.2 hc))
      refine ⟨hopen, OrdSet.eq_empty_of_isEmpty ?_, h.closed hclosed⟩
      simpa [ContextMemory.hasOpenToolExchange] using hclosed
  -- both loops look at the same entries
  have hflags : undoFlags ((t.transcript.drop t.clearFloor).reverse.map (·.message)) =
      undoFlags (c.history.reverse.map (·.message)) := by
    simpa [WireTranscript.messages, ContextMemory.messages] using h.flags
  have hfloor : (t.transcript.take t.clearFloor).length = t.clearFloor := by
    have hle := h.floor
    rw [WireTranscript.messages, length_map] at hle
    exact length_take_of_le hle
  rw [if_neg hcount, undoEntries_eq, append_nil, hflags]
  refine of_reset _ ?_ ?_ ?_ hreset
  · have hlen : (undoKept (·.message) count 0 c.history.reverse).length +
        removals count 0 (undoFlags (c.history.reverse.map (·.message))) = c.history.length :=
      (length_undoKept count 0 _).trans length_reverse
    rw [hhist]
    simp only [h.length]
    omega
  · have hdrop : ∀ es : List MutableEntry,
        ((t.transcript.take t.clearFloor ++ es).map (·.message)).drop t.clearFloor =
          es.map (·.message) := by
      intro es
      rw [map_append]
      exact drop_left' (by rw [length_map, hfloor])
    simp only [WireTranscript.messages, ContextMemory.messages, hdrop, hhist]
    rw [undoFlags_undoKept, undoFlags_undoKept, hflags]
  · simp only [WireTranscript.messages, length_map, length_append, hfloor]
    exact Nat.le_add_right _ _

theorem clear (t : WireTranscript) (c : ContextMemory) : Folds c.cleared (t.reduce .clear) := by
  refine of_reset { t with clearFloor := t.transcript.length, foldedLength := 0 } rfl ?_ ?_
    ⟨rfl, rfl, rfl⟩
  · rw [drop_eq_nil_of_le (by simp [WireTranscript.messages])]
    rfl
  · simp [WireTranscript.messages]

theorem undoFlags_summary (text : String) (l : List ContextMessage) :
    undoFlags (summaryMessage text :: l) = [] := by
  simp [undoFlags, summaryMessage, isInjection, isCompactionSummary, originKind]

theorem compact (h : Folds c t) {input : CompactionInput}
    (hkept : input.keptUserMessageCount = some c.keptUserMessages.length) :
    Folds (c.compact false input) (t.applyCompaction input) := by
  have hhist : (c.compact false input).messages =
      c.keptUserMessages ++ [summaryMessage (input.contextSummary.getD input.summary)] := by
    simp [ContextMemory.messages, ContextMemory.compact, ContextMemory.compactedHistory,
      Function.comp_def]
  refine of_reset _ ?_ ?_ ?_ ⟨rfl, rfl, rfl⟩
  · have hlen := congrArg List.length hhist
    rw [ContextMemory.messages, length_map, length_append, length_singleton] at hlen
    rw [hlen]
    simp [compactedLength, hkept]
  · have hmsgs : (t.messages ++ [summaryMessage input.summary]).drop t.clearFloor =
        t.messages.drop t.clearFloor ++ [summaryMessage input.summary] :=
      drop_append_of_le_length h.floor
    rw [hhist, reverse_append, reverse_singleton, singleton_append, undoFlags_summary]
    have htr : t.messages ++ [summaryMessage input.summary] =
        (t.transcript ++ [t.newEntry (summaryMessage input.summary) none]).map (·.message) := by
      simp [WireTranscript.messages, newEntry]
    rw [htr] at hmsgs
    simp only [WireTranscript.messages, hmsgs, reverse_append, reverse_singleton,
      singleton_append, undoFlags_summary]
  · have hle := h.floor
    simp only [WireTranscript.messages, length_map, length_append] at hle ⊢
    omega

end Folds

/-! ### Records -/

/-- **A record that fits the context it is restored in.** -/
def Fits (c : ContextMemory) : AgentRecord → Prop
  | .forked hadGoal => hadGoal = false
  | .appendTranscriptMessage message => message.isInjection = true
  | .appendLoopEvent event => ∀ uuid ∈ event.writesTo, c.openStep uuid ≠ none
  | .applyCompaction input => input.keptUserMessageCount = some c.keptUserMessages.length
  | _ => True

/-- Every record of a log fits the context it is restored in. -/
def FitsAll : ContextMemory → List AgentRecord → Prop
  | _, [] => True
  | c, r :: rs => Fits c r ∧ FitsAll (c.restored r) rs

variable {c : ContextMemory} {t : WireTranscript} {r : AgentRecord} {rs rs' : List AgentRecord}

theorem Fits.accepts (h : Fits c r) : c.accepts r := by
  cases r with
  | appendLoopEvent e => exact h
  | _ => trivial

theorem Folds.reduce (h : Folds c t) (hr : Fits c r) : Folds (c.restored r) (t.reduce r) := by
  cases r with
  | forked hadGoal =>
    obtain rfl : hadGoal = false := hr
    exact h
  | turnPrompt origin => exact h.of_eq _ rfl rfl rfl rfl rfl rfl rfl
  | appendMessage m => exact h.append m
  | appendTranscriptMessage m => exact h.appendTranscriptMessage hr
  | appendLoopEvent e => exact h.loopEvent e
  | clear => exact Folds.clear t c
  | applyCompaction input =>
    have hkept : input.keptUserMessageCount = some c.keptUserMessages.length := hr
    rw [restored, hkept, isNone_some, Bool.false_and]
    exact h.compact hkept
  | undo count => exact h.undone count

theorem fitsAll_append (c : ContextMemory) (rs rs' : List AgentRecord) :
    FitsAll c (rs ++ rs') ↔ FitsAll c rs ∧ FitsAll (rs.foldl restored c) rs' := by
  induction rs generalizing c with
  | nil => simp [FitsAll]
  | cons r rs ih => simp only [cons_append, FitsAll, ih, foldl_cons, and_assoc]

theorem FitsAll.take (h : FitsAll c rs) (k : ℕ) : FitsAll c (rs.take k) := by
  rw [← take_append_drop k rs, fitsAll_append] at h
  exact h.1

theorem FitsAll.folds (h : FitsAll c rs) (hfolds : Folds c t) :
    Folds (rs.foldl restored c) (rs.foldl reduce t) := by
  induction rs generalizing c t with
  | nil => exact hfolds
  | cons r rs ih => exact ih h.2 (hfolds.reduce h.1)

theorem FitsAll.replays (h : FitsAll {} rs) : Replays rs (rs.foldl restored {}) := by
  induction rs using reverseRecOn with
  | nil => exact Replays.nil
  | append_singleton rs r ih =>
    obtain ⟨hinit, hlast⟩ := (fitsAll_append _ rs [r]).1 h
    rw [foldl_append]
    exact (ih hinit).snoc hlast.1.accepts

/-- **A log that fits**: the reducer and the replay agree on the length of the history. -/
theorem FitsAll.foldedLength (h : FitsAll {} rs) :
    ∃ b, replay rs = .ok b ∧ (reduceWireRecords rs).foldedLength = b.context.history.length := by
  obtain ⟨b, hb, hctx⟩ := h.replays
  refine ⟨b, hb, ?_⟩
  rw [hctx]
  exact (h.folds Folds.initial).length

end NoriCode
