/-
**The length of the live history, recovered from the log.**

A session runs in several processes: each resumes from the records that have reached the disk, and
appends its own.  The replay of such a log need not give the context of the process that wrote it
(reminders that were taken back come back, estimates differ, messages that were copied in are
missing), but as long as both have the same *marks*, the same user input and summaries in the same
order, the log of the process fits its own replay.  Then the reducer of the transcript finds the
length of the replayed history at every prefix of the log.

Main definitions:

* `SameMarks` — the live context and the replayed one;
* `SessionOp`, `sessionStep` — what happens to a session;
* `KeepsLength` — the condition on what happens.

Main results:

* `SameMarks.performed` — one live operation;
* `foldedLength_eq` — **the folded length is the length of the replayed history**.
-/

import NoriCode.ContextMarks
import NoriCode.TranscriptFold

namespace NoriCode

open LibOrdSet List Option ContextMemory

/-! ### Marks -/

variable {c d : ContextMemory}

theorem keptUserMessages_congr (h : marks c.messages = marks d.messages) :
    c.keptUserMessages = d.keptUserMessages := by
  have hcollect : ∀ ms : List ContextMessage,
      collectCompactableUserMessages ms = (marks ms).filter isRealUserInput := by
    intro ms
    rw [collectCompactableUserMessages_eq, marks, List.filter_filter]
    refine List.filter_congr fun m _ => ?_
    cases hreal : isRealUserInput m <;> simp [isMark, hreal]
  rw [keptUserMessages, keptUserMessages, hcollect, hcollect, h]

theorem popMatched_rest (c : ContextMemory) (r : Reminder) :
    (c.popMatched r.matches).pendingToolResultIds = c.pendingToolResultIds ∧
      (c.popMatched r.matches).openSteps = c.openSteps := by
  unfold popMatched dropLastMessage
  split_ifs <;> exact ⟨rfl, rfl⟩

/-! ### Live and replayed -/

/-- **The live context and the replayed one.**  They have the same marks, the same calls wait in
both, and every step that is open live is open in the replay. -/
structure SameMarks (c d : ContextMemory) : Prop where
  history : marks c.messages = marks d.messages
  deferred : marks c.deferredMessages = marks d.deferredMessages
  pending : c.pendingToolResultIds = d.pendingToolResultIds
  openSteps : c.openSteps.map Prod.fst ⊆ d.openSteps.map Prod.fst

namespace SameMarks

theorem refl (c : ContextMemory) : SameMarks c c := ⟨rfl, rfl, rfl, fun _ h => h⟩

variable (h : SameMarks c d)

include h

theorem openStep {uuid : String} (hc : c.openStep uuid ≠ none) : d.openStep uuid ≠ none := by
  rw [ContextMemory.openStep, ne_eq, lookup_eq_none_iff, not_not] at hc ⊢
  exact h.openSteps hc

theorem hasOpen : c.hasOpenToolExchange = d.hasOpenToolExchange := by
  simp [hasOpenToolExchange, h.pending]

theorem pushHistory {ms ms' : List ContextMessage} (hms : marks ms = marks ms') :
    SameMarks (c.pushHistory ms) (d.pushHistory ms') :=
  { h with history := by rw [marks_pushHistory, marks_pushHistory, h.history, hms] }

theorem flush : SameMarks c.flushDeferredMessagesIfToolExchangeClosed
    d.flushDeferredMessagesIfToolExchangeClosed := by
  unfold flushDeferredMessagesIfToolExchangeClosed
  rw [← h.hasOpen]
  split_ifs
  · exact h
  · exact { h.pushHistory h.deferred with deferred := rfl }

theorem append (m : ContextMessage) : SameMarks (c.append m) (d.append m) := by
  unfold ContextMemory.append
  rw [← h.hasOpen]
  split_ifs
  · exact { h with deferred := by simp only [marks_append, h.deferred] }
  · exact h.pushHistory rfl

theorem toolResult (id : String) (result : ExecutableToolResult) :
    SameMarks (c.toolResult id result) (d.toolResult id result) := by
  unfold ContextMemory.toolResult
  rw [← h.pending]
  split_ifs
  · have hpush : SameMarks (c.pushHistory [toolResultMessage id result])
        (d.pushHistory [toolResultMessage id result]) := h.pushHistory rfl
    exact flush { hpush with pending := congrArg (·.erase id) h.pending }
  · exact h

theorem closePending : SameMarks c.closePending d.closePending := by
  have hfold : ∀ (ids : List String) {c d : ContextMemory}, SameMarks c d →
      SameMarks (ids.foldl (fun c id => c.toolResult id interruptedResult) c)
        (ids.foldl (fun c id => c.toolResult id interruptedResult) d) := by
    intro ids
    induction ids with
    | nil => intro c d h; exact h
    | cons id ids ih => intro c d h; exact ih (h.toolResult id interruptedResult)
  unfold ContextMemory.closePending
  rw [← h.pending]
  exact hfold _ h

theorem beginStep (uuid : String) : SameMarks (c.beginStep uuid) (d.beginStep uuid) where
  history := by
    have hmsgs : ∀ c : ContextMemory,
        (c.beginStep uuid).messages = c.messages ++ [stepMessage] := by
      intro c
      simp [ContextMemory.messages, ContextMemory.beginStep]
    rw [hmsgs, hmsgs, marks_append, marks_append, h.history]
  deferred := h.deferred
  pending := h.pending
  openSteps := by
    rw [ContextMemory.beginStep, ContextMemory.beginStep, keys_mapSet, keys_mapSet]
    exact cons_subset_cons _ (filter_subset _ h.openSteps)

theorem updateStep (hc : StepEntries c) (hd : StepEntries d) (n n' : ℕ)
    {f : ContextMessage → ContextMessage} (hf : ∀ m, (f m).role = m.role ∧ (f m).origin = m.origin)
    : SameMarks (c.updateStep n f) (d.updateStep n' f) :=
  { h with history := by rw [marks_updateStep hc n hf, marks_updateStep hd n' hf, h.history] }

theorem endStep (uuid : String) (usage : Option TokenUsage) :
    SameMarks (c.endStep uuid usage) (d.endStep uuid usage) := by
  have hclosed : SameMarks { c with openSteps := mapDelete c.openSteps uuid }
      { d with openSteps := mapDelete d.openSteps uuid } := by
    refine { h with openSteps := ?_ }
    rw [keys_mapDelete, keys_mapDelete]
    exact filter_subset _ h.openSteps
  cases usage with
  | none => exact hclosed.flush
  | some usage =>
    refine flush ?_
    generalize c.coveredCount uuid = n
    generalize d.coveredCount uuid = n'
    generalize { c with openSteps := mapDelete c.openSteps uuid } = c' at hclosed
    generalize { d with openSteps := mapDelete d.openSteps uuid } = d' at hclosed
    obtain ⟨hc₁, hc₂, hc₃, -⟩ := c'.account_rest usage n
    obtain ⟨hd₁, hd₂, hd₃, -⟩ := d'.account_rest usage n'
    exact {
      history := by
        rw [account_messages, account_messages, hclosed.history]
      deferred := by rw [hc₂, hd₂, hclosed.deferred]
      pending := by rw [hc₁, hd₁, hclosed.pending]
      openSteps := by
        rw [hc₃, hd₃]
        exact hclosed.openSteps }

theorem loopEvent (hc : StepEntries c) (hd : StepEntries d) {e : LoopRecordedEvent}
    (he : ∀ uuid ∈ e.writesTo, c.openStep uuid ≠ none) :
    SameMarks (c.loopEvent e) (d.loopEvent e) := by
  cases e with
  | stepBegin uuid turnId => exact h.closePending.beginStep uuid
  | stepEnd uuid usage => exact h.endStep uuid usage
  | contentPart stepUuid part =>
    have hopen := he stepUuid rfl
    obtain ⟨n, hn⟩ := ne_none_iff_exists'.1 hopen
    obtain ⟨n', hn'⟩ := ne_none_iff_exists'.1 (h.openStep hopen)
    simp only [ContextMemory.loopEvent, hn, hn']
    exact h.updateStep hc hd n n' fun m => ⟨rfl, rfl⟩
  | toolCall stepUuid toolCallId name args =>
    have hopen := he stepUuid rfl
    obtain ⟨n, hn⟩ := ne_none_iff_exists'.1 hopen
    obtain ⟨n', hn'⟩ := ne_none_iff_exists'.1 (h.openStep hopen)
    simp only [ContextMemory.loopEvent, hn, hn']
    have hupd := h.updateStep hc hd n n'
      (f := ContextMessage.addToolCall ⟨toolCallId, name, args⟩) fun m => ⟨rfl, rfl⟩
    exact { hupd with pending := congrArg (·.insert toolCallId) h.pending }
  | toolResult toolCallId result => exact h.toolResult toolCallId result

/-- An undo of the live context, and the record of it; the replayed history may be empty. -/
theorem undone {t : WireTranscript} (hd : Folds d t) {count : ℤ} (hcan : c.canUndo count = true) :
    SameMarks (c.undone count) (d.undone count) := by
  have hreset : ∀ {c : ContextMemory}, c.canUndo count = true →
      (c.undone count).openSteps = [] ∧ (c.undone count).pendingToolResultIds = .empty ∧
        (c.undone count).deferredMessages = [] := by
    intro c hcan
    rw [ContextMemory.undone, if_pos hcan]
    exact ⟨rfl, rfl, rfl⟩
  obtain ⟨hc₁, hc₂, hc₃⟩ := hreset hcan
  cases hcand : d.canUndo count with
  | true =>
    obtain ⟨hd₁, hd₂, hd₃⟩ := hreset hcand
    exact {
      history := by rw [marks_undone hcan, marks_undone hcand, h.history]
      deferred := by rw [hc₃, hd₃]
      pending := by rw [hc₂, hd₂]
      openSteps := by simp [hc₁] }
  | false =>
    have hpos : ¬ count ≤ 0 := by
      intro hle
      simp [canUndo, hle] at hcan
    have hnil : d.history = [] := by
      simpa [canUndo, hpos] using hcand
    obtain ⟨-, hclosed⟩ := hd.start hnil
    have hmsgs : d.messages = [] := by simp [ContextMemory.messages, hnil]
    rw [undone_of_not_canUndo hcand]
    exact {
      history := by rw [marks_undone hcan, h.history, hmsgs]; rfl
      deferred := by rw [hc₃, hd.closed hclosed]
      pending := by
        rw [hc₂]
        refine (OrdSet.eq_empty_of_isEmpty ?_).symm
        simpa [ContextMemory.hasOpenToolExchange] using hclosed
      openSteps := by simp [hc₁] }

end SameMarks

/-! ### Live operations -/

/-- **The condition on live operations.**  An event writes to an open step, messages for the
transcript only are injections, and histories that are copied in have no marks. -/
def KeepsLength (c : ContextMemory) : ContextOp → Prop
  | .loopEvent event => ∀ uuid ∈ event.writesTo, c.openStep uuid ≠ none
  | .appendTranscriptMessage message => message.isInjection = true
  | .setTransientSystemReminder content origin =>
    (systemReminderMessage content origin).isInjection = true
  | .importMigratedHistory messages => marks messages = []
  | .useProjectedHistoryFrom messages => marks messages = []
  | _ => True

instance KeepsLength.decidable (c : ContextMemory) : (op : ContextOp) → Decidable (KeepsLength c op)
  | .loopEvent event =>
    inferInstanceAs (Decidable (∀ uuid ∈ event.writesTo, c.openStep uuid ≠ none))
  | .appendTranscriptMessage message => inferInstanceAs (Decidable (message.isInjection = true))
  | .setTransientSystemReminder content origin =>
    inferInstanceAs (Decidable ((systemReminderMessage content origin).isInjection = true))
  | .importMigratedHistory messages => inferInstanceAs (Decidable (marks messages = []))
  | .useProjectedHistoryFrom messages => inferInstanceAs (Decidable (marks messages = []))
  | .appendMessage _ | .clearTransientSystemReminder | .turnPrompt _ | .popMatchedMessage _
  | .undo _ | .clear | .applyCompaction _ _ _ _ _ | .finishResume =>
    inferInstanceAs (Decidable True)

theorem fitsAll_interruptions (d : ContextMemory) (ids : List String) :
    FitsAll d (ids.map fun id => .appendLoopEvent (.toolResult id interruptedResult)) ∧
      (ids.map fun id => AgentRecord.appendLoopEvent (.toolResult id interruptedResult)).foldl
          restored d =
        ids.foldl (fun d id => d.toolResult id interruptedResult) d := by
  induction ids generalizing d with
  | nil => exact ⟨trivial, rfl⟩
  | cons id ids ih =>
    obtain ⟨hfits, hfold⟩ := ih (d.toolResult id interruptedResult)
    exact ⟨⟨by simp [Fits, LoopRecordedEvent.writesTo], hfits⟩, hfold⟩

variable {t : WireTranscript}

/-- **One live operation**: its records fit the replayed context, and the marks stay the same. -/
theorem SameMarks.performed (h : SameMarks c d) (hc : StepEntries c) (hd : StepEntries d)
    (hfolds : Folds d t) {op : ContextOp} (hop : KeepsLength c op) :
    FitsAll d (c.logged op) ∧
      SameMarks (c.performed op) ((c.logged op).foldl ContextMemory.restored d) := by
  cases op with
  | appendMessage m => exact ⟨⟨trivial, trivial⟩, h.append m⟩
  | appendTranscriptMessage m => exact ⟨⟨hop, trivial⟩, h⟩
  | setTransientSystemReminder content origin =>
    have hsame : SameMarks (c.performed (.setTransientSystemReminder content origin)) d :=
      ⟨h.history, h.deferred, h.pending, h.openSteps⟩
    simp only [ContextMemory.logged]
    split_ifs
    · exact ⟨trivial, hsame⟩
    · exact ⟨⟨hop, trivial⟩, hsame⟩
  | clearTransientSystemReminder =>
    exact ⟨trivial, h.history, h.deferred, h.pending, h.openSteps⟩
  | turnPrompt origin => exact ⟨⟨trivial, trivial⟩, h⟩
  | loopEvent e =>
    have hevent := h.loopEvent hc hd hop
    have hfits : Fits d (.appendLoopEvent e) := fun uuid huuid => h.openStep (hop uuid huuid)
    cases e with
    | stepBegin uuid turnId =>
      have hpending : (d.loopEvent (.stepBegin uuid turnId)).pendingToolResultIds = .empty :=
        closePending_pending d
      obtain ⟨hall, hfold⟩ := fitsAll_interruptions (d.loopEvent (.stepBegin uuid turnId))
        c.pendingToolResultIds.toList
      rw [foldl_toolResult_of_empty hpending] at hfold
      refine ⟨⟨hfits, hall⟩, ?_⟩
      rw [ContextMemory.logged, eventRecords, foldl_cons]
      exact hfold ▸ hevent
    | _ => exact ⟨⟨hfits, trivial⟩, hevent⟩
  | popMatchedMessage reminder =>
    obtain ⟨hhist, hdef⟩ := marks_popMatched c reminder
    obtain ⟨hpending, hopen⟩ := popMatched_rest c reminder
    refine ⟨trivial, hhist.trans h.history, hdef.trans h.deferred, hpending.trans h.pending, ?_⟩
    rw [ContextMemory.performed, hopen]
    exact h.openSteps
  | undo count =>
    simp only [ContextMemory.logged]
    cases hcan : c.canUndo count with
    | true => exact ⟨⟨trivial, trivial⟩, h.undone hfolds hcan⟩
    | false =>
      have hsame : c.performed (.undo count) = c := by
        rw [ContextMemory.performed, undone_of_not_canUndo hcan]
      rw [hsame]
      exact ⟨trivial, h⟩
  | clear => exact ⟨⟨trivial, trivial⟩, rfl, rfl, rfl, List.Subset.refl _⟩
  | applyCompaction summary contextSummary compactedCount tokensBefore droppedCount =>
    have hkept := keptUserMessages_congr h.history
    generalize hinput : liveCompaction summary contextSummary compactedCount tokensBefore
      droppedCount = input
    have hcount : (c.compactionResult input).keptUserMessageCount =
        some d.keptUserMessages.length := by
      rw [← hkept, ← hinput]
      rfl
    refine ⟨⟨by rw [hinput]; exact hcount, trivial⟩, ?_⟩
    rw [ContextMemory.logged, ContextMemory.performed, foldl_cons, foldl_nil, hinput,
      ContextMemory.restored, hcount, isNone_some, Bool.false_and]
    have hmsgs : (c.compact false input).messages =
        (d.compact false (c.compactionResult input)).messages := by
      simp [ContextMemory.messages, ContextMemory.compact, compactedHistory, hkept,
        compactionResult]
    exact ⟨congrArg marks hmsgs, rfl, rfl, List.Subset.refl _⟩
  | finishResume =>
    obtain ⟨hall, hfold⟩ := fitsAll_interruptions d c.pendingToolResultIds.toList
    refine ⟨hall, ?_⟩
    rw [ContextMemory.logged, closingRecords, hfold, h.pending]
    have hclosed : SameMarks { c with openSteps := [] } d := { h with openSteps := nil_subset _ }
    exact hclosed.closePending
  | importMigratedHistory messages =>
    have hmarks : marks messages = [] := hop
    refine ⟨trivial, ?_, h.deferred, h.pending, h.openSteps⟩
    rw [ContextMemory.performed, marks_pushHistory, hmarks, append_nil]
    exact h.history
  | useProjectedHistoryFrom messages =>
    have hmarks : marks messages = [] := hop
    refine ⟨⟨trivial, trivial⟩, ?_, rfl, rfl, List.Subset.refl _⟩
    rw [ContextMemory.performed, marks_pushHistory, hmarks]
    rfl

/-! ### Sessions -/

/-- What happens to a session: a live operation; the process stops, when some of the records have
reached the disk, and another one resumes; the session is copied, and the copy is resumed. -/
inductive SessionOp where
  | live (op : ContextOp)
  | resume (kept : ℕ)
  | fork (hadGoal : Bool)

/-- `Agent.resume`: the records are replayed, and what was interrupted is closed. -/
def resumed (records : List AgentRecord) : Option Agent :=
  match replay records with
  | .ok b => some (finishResume { b with records, restoring := false })
  | .error _ => none

def sessionStep (a : Agent) : SessionOp → Option Agent
  | .live op => some (perform a op)
  | .resume kept => resumed (a.records.take kept)
  | .fork hadGoal => resumed (a.records ++ [.forked hadGoal])

/-- **The condition on a session.**  Live operations meet theirs, and a fork finds no goal. -/
def KeepsFoldedLength (a : Agent) : SessionOp → Prop
  | .live op => KeepsLength a.context op
  | .resume _ => True
  | .fork hadGoal => hadGoal = false

instance KeepsFoldedLength.decidable (a : Agent) :
    (op : SessionOp) → Decidable (KeepsFoldedLength a op)
  | .live op => inferInstanceAs (Decidable (KeepsLength a.context op))
  | .resume _ => inferInstanceAs (Decidable True)
  | .fork hadGoal => inferInstanceAs (Decidable (hadGoal = false))

/-- **What holds in a session**: its log fits its own replay, which has the marks of the live
context. -/
structure LogFits (a : Agent) : Prop where
  live : a.restoring = false
  steps : StepEntries a.context
  fits : FitsAll {} a.records
  marks : SameMarks a.context (a.records.foldl restored {})

variable {a : Agent}

theorem LogFits.perform (h : LogFits a) {op : ContextOp} (hop : KeepsLength a.context op) :
    LogFits (perform a op) := by
  have hfolds := h.fits.folds Folds.initial
  obtain ⟨hfits, hmarks⟩ := h.marks.performed h.steps (StepEntries.replayed a.records) hfolds hop
  refine ⟨perform_restoring h.live op, ?_, ?_, ?_⟩
  · rw [perform_context a h.live]
    exact h.steps.performed op
  · rw [perform_records h.live, fitsAll_append]
    exact ⟨h.fits, hfits⟩
  · rw [perform_context a h.live, perform_records h.live, foldl_append]
    exact hmarks

theorem LogFits.resumed {records : List AgentRecord} (hfits : FitsAll {} records)
    (h : resumed records = some a) : LogFits a := by
  obtain ⟨b, hb, hctx⟩ := hfits.replays
  unfold NoriCode.resumed at h
  rw [hb] at h
  cases h
  -- the replayed context is its own replay, and the resume ends with a live operation
  have hstart : LogFits { b with records, restoring := false } :=
    { live := rfl
      steps := hctx ▸ StepEntries.replayed records
      fits := hfits
      marks := by
        rw [← hctx]
        exact SameMarks.refl _ }
  have hlast : LogFits (NoriCode.perform { b with records, restoring := false } .finishResume) :=
    hstart.perform trivial
  exact hlast

theorem LogFits.step (h : LogFits a) {op : SessionOp} (hop : KeepsFoldedLength a op) {b : Agent}
    (hb : sessionStep a op = some b) : LogFits b := by
  cases op with
  | live op =>
    cases hb
    exact h.perform hop
  | resume kept => exact LogFits.resumed (h.fits.take kept) hb
  | fork hadGoal =>
    obtain rfl : hadGoal = false := hop
    refine LogFits.resumed ?_ hb
    rw [fitsAll_append]
    exact ⟨h.fits, rfl, trivial⟩

/-- **The folded length is the length of the replayed history**, at every prefix of the log of a
session whose steps meet the condition. -/
theorem foldedLength_eq {ops : List SessionOp} {a : Agent}
    (h : LibRun.Run sessionStep KeepsFoldedLength {} ops a) (k : ℕ) :
    ∃ b, replay (a.records.take k) = .ok b ∧
      (reduceWireRecords (a.records.take k)).foldedLength = b.context.history.length := by
  have hlog : LogFits a := by
    refine h.invariant ⟨rfl, StepEntries.initial, trivial, SameMarks.refl _⟩ ?_
    intro t op u ht hop hu
    exact ht.step hop hu
  exact (hlog.fits.take k).foldedLength

def sessionPrompt : ContextMessage where
  role := .user
  content := [.text "go"]
  toolCalls := []
  origin := some ⟨.user, none⟩

/-- A prompt, a step that is interrupted by a resume, a compaction and an undo. -/
def sessionOps : List SessionOp :=
  [.live (.appendMessage sessionPrompt), .live (.loopEvent (.stepBegin "s" "0")),
    .live (.loopEvent (.toolCall "s" "a" "Read" none)), .resume 3,
    .live (.applyCompaction "sum" "sum" 3 10 none), .live (.appendMessage sessionPrompt),
    .live (.undo 1), .fork false]

/-- The theorem at such a session. -/
theorem foldedLength_eq_sessionOps :
    ∃ a, LibRun.exec sessionStep {} sessionOps = some a ∧
      ∃ b, replay (a.records.take 6) = .ok b ∧
        (reduceWireRecords (a.records.take 6)).foldedLength = b.context.history.length := by
  obtain ⟨a, ha⟩ : ∃ a, LibRun.exec sessionStep {} sessionOps = some a := ⟨_, rfl⟩
  exact ⟨a, ha, foldedLength_eq (LibRun.run_of_exec ha (by decide +kernel)) 6⟩

/-- A fork that finds a goal. -/
def forkOps : List SessionOp := [.live (.appendMessage sessionPrompt), .fork true]

/-- The replay appends a reminder that the reducer does not see. -/
theorem fork_with_goal_shifts :
    ∃ a, LibRun.exec sessionStep {} forkOps = some a ∧
      ∃ b, replay a.records = .ok b ∧ b.context.history.length = 2 ∧
        (reduceWireRecords a.records).foldedLength = 1 := by
  refine ⟨_, rfl, _, rfl, by decide +kernel, by decide +kernel⟩

end NoriCode
