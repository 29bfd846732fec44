/-
**Requests to the model.**

A request is made from the history in three passes, none of which changes what is stored: prompts
get an envelope that names their speaker, old tool results are cleared when the micro compaction has
moved its cutoff over them, and the rest is projected onto the wire.  The projection refuses a tool
result without content; the recorder never stores one.

The module embeds `historyForModel`, `messages` and `strictMessages` of `agent/context/index.ts`,
and `compact` of `agent/compaction/micro.ts`.  When the cutoff moves is left out: it may stand
anywhere.

Main definitions:

* `historyForModel` — the history with speakers;
* `MicroCompaction`, `MicroCompaction.compact` — clearing old results;
* `requestMessages` — the messages of a request.

Main results:

* `toolResultMessage_not_blank` — what is recorded is not blank;
* `accepted_performed` — no operation stores a message the projection refuses;
* `requestMessages_ok` — **after any events of the loop the projection succeeds**.
-/

import NoriCode.ContextExchange
import NoriCode.ContextMarks
import NoriCode.ProjectorStrict

namespace NoriCode

open LibOrdSet List Option ContextMemory

/-! ### Speakers -/

def SpeakerKind.text : SpeakerKind → String
  | .user => "user"
  | .lead => "lead"
  | .team => "team"
  | .sub => "sub"
  | .system => "system"

structure SpeakerDetails where
  origin : String
  name : String

/-- `speakerDetails`: a message without a speaker is a legacy record. -/
def speakerDetails (origin : PromptOrigin) : Option SpeakerDetails :=
  origin.speaker.map fun identity =>
    let kind := identity.origin.text
    let speakerId := ((identity.speakerId.map trim).filter (·.toList.length ≠ 0))
    let speakerName := ((identity.speakerName.map trim).filter (·.toList.length ≠ 0))
    { origin := (speakerId.map (kind ++ ":" ++ ·)).getD kind
      name := speakerName.getD (if identity.origin = .user then "用户" else kind) }

def wrapSpeakerContent (content : List ContentPart) (origin : PromptOrigin) :
    Option (List ContentPart) :=
  (speakerDetails origin).map fun speaker => content.map fun part =>
    match part with
    | .text text => .text ("<message from=\"" ++ escapeXml speaker.origin ++ "\" name=\"" ++
        escapeXml speaker.name ++ "\">" ++ escapeXml text ++ "</message>")
    | part => part

/-- A prompt with the envelope of its speaker. -/
def withSpeaker (message : ContextMessage) : ContextMessage :=
  if message.role = .user then
    match message.origin.bind (wrapSpeakerContent message.content) with
    | some content => { message with content }
    | none => message
  else message

/-- `historyForModel`: the history and the transient reminder, with speakers. -/
def historyForModel (c : ContextMemory) : List ContextMessage :=
  (c.messages ++ c.transientSystemReminder.toList).map withSpeaker

/-! ### Micro compaction -/

structure MicroCompactionConfig where
  minContentTokens : ℕ := 100
  truncatedMarker : String := "[Old tool result content cleared]"

/-- The micro compaction: whether the feature is enabled, and how many messages are old. -/
structure MicroCompaction where
  enabled : Bool
  cutoff : ℕ
  config : MicroCompactionConfig := {}

/-- An old tool result that is large enough to be cleared. -/
def MicroCompaction.clears (micro : MicroCompaction) (i : ℕ) (msg : ContextMessage) : Bool :=
  decide (i < micro.cutoff) && msg.role == .tool && msg.toolCallId.isSome &&
    decide (estimateTokensForContentParts msg.content ≥ micro.config.minContentTokens)

def MicroCompaction.compact (micro : MicroCompaction) (messages : List ContextMessage) :
    List ContextMessage :=
  if micro.enabled then
    messages.mapIdx fun i msg =>
      if micro.clears i msg then { msg with content := [.text micro.config.truncatedMarker] }
      else msg
  else messages

/-- `messages`, and `strictMessages` with the strict options. -/
def requestMessages (micro : MicroCompaction) (c : ContextMemory) (options : ProjectOptions) :
    Except ProjectionError (List Message) :=
  project (micro.compact (historyForModel c)) options

/-! ### Blank texts -/

variable {s : String}

theorem isBlank_eq_false {c : Char} (hc : c ∈ s.toList)
    (hvisible : isWhiteSpace c = false) : isBlank s = false := by
  have hstart : c ∈ s.toList.dropWhile isWhiteSpace := by
    have hsplit := takeWhile_append_dropWhile (p := isWhiteSpace) (l := s.toList)
    rw [← hsplit] at hc
    rcases mem_append.1 hc with hc | hc
    · rw [mem_takeWhile_imp hc] at hvisible
      cases hvisible
    · exact hc
  have hend : c ∈ (s.toList.dropWhile isWhiteSpace).rdropWhile isWhiteSpace := by
    have hsplit := rdropWhile_append_rtakeWhile
      (p := isWhiteSpace) (l := s.toList.dropWhile isWhiteSpace)
    rw [← hsplit] at hstart
    rcases mem_append.1 hstart with hc | hc
    · exact hc
    · rw [mem_rtakeWhile_imp hc] at hvisible
      cases hvisible
  unfold isBlank trim trimEnd trimStart
  rw [String.toList_ofList, String.toList_ofList, beq_eq_false_iff_ne]
  intro hlength
  rw [length_eq_zero_iff.1 hlength] at hend
  exact not_mem_nil hend

theorem exists_visible (h : isBlank s = false) : ∃ c ∈ s.toList, isWhiteSpace c = false := by
  by_contra hall
  have hspace : ∀ c ∈ s.toList, isWhiteSpace c = true := by
    intro c hc
    by_contra hvisible
    exact hall ⟨c, hc, Bool.not_eq_true _ ▸ hvisible⟩
  have hstart : s.toList.dropWhile isWhiteSpace = [] := dropWhile_eq_nil_iff.2 hspace
  unfold isBlank trim trimEnd trimStart at h
  rw [String.toList_ofList, String.toList_ofList, hstart] at h
  cases h

/-- What begins with `<system>ERROR:` behind white space is not blank. -/
theorem isBlank_of_startsWith
    (h : startsWith (trimStart s) "<system>ERROR:" = true) : isBlank s = false := by
  obtain ⟨rest, hrest⟩ := isPrefixOf_iff_prefix.1 h
  have hstart : (trimStart s).toList = s.toList.dropWhile isWhiteSpace := String.toList_ofList
  have hmem : '<' ∈ s.toList.dropWhile isWhiteSpace := by
    rw [← hstart, ← hrest]
    exact mem_append_left _ (by decide)
  exact isBlank_eq_false ((dropWhile_sublist _).mem hmem) (by decide)

/-! ### What the projection accepts -/

/-- The projection does not refuse the message. -/
def Accepted (m : ContextMessage) : Prop :=
  m.role = .tool → m.isPartial = false → (withoutBlanks m).content ≠ []

variable {m : ContextMessage}

theorem accepted_of_part {part : ContentPart} (hpart : part ∈ m.content)
    (hvisible : part.isBlank = false) : Accepted m := by
  intro _ _ hnil
  have hmem : part ∈ (withoutBlanks m).content := List.mem_filter.2 ⟨hpart, by rw [hvisible]; rfl⟩
  rw [hnil] at hmem
  exact not_mem_nil hmem

theorem isBlank_status : isBlank TOOL_EMPTY_STATUS = false ∧
    isBlank TOOL_EMPTY_ERROR_STATUS = false ∧ isBlank TOOL_ERROR_STATUS = false :=
  ⟨isBlank_eq_false (c := '<') (by decide) (by decide),
    isBlank_eq_false (c := '<') (by decide) (by decide),
    isBlank_eq_false (c := '<') (by decide) (by decide)⟩

/-- **The recorder never stores a blank result.** -/
theorem toolResultMessage_not_blank (id : String) (result : ExecutableToolResult) :
    ∃ part ∈ (toolResultMessage id result).content, part.isBlank = false := by
  have htext : ∀ text, toolResultOutputForModel result = .text text → isBlank text = false →
      ∃ part ∈ (toolResultMessage id result).content, part.isBlank = false := by
    intro text houtput hvisible
    refine ⟨.text text, ?_, hvisible⟩
    change _ ∈ (createToolMessage id (toolResultOutputForModel result)).content
    rw [houtput]
    exact List.mem_singleton_self _
  have hparts : ∀ parts, toolResultOutputForModel result = .parts parts →
      (∃ part ∈ parts, part.isBlank = false) →
      ∃ part ∈ (toolResultMessage id result).content, part.isBlank = false := by
    intro parts houtput hvisible
    change ∃ part ∈ (createToolMessage id (toolResultOutputForModel result)).content, _
    rw [houtput]
    exact hvisible
  obtain ⟨output, isError⟩ := result
  cases output with
  | text output =>
    rw [toolResultOutputForModel] at htext
    simp only at htext
    split_ifs at htext with herror hempty hprefix hblank
    · exact htext _ rfl isBlank_status.2.1
    · exact htext _ rfl (isBlank_of_startsWith hprefix)
    · refine htext _ rfl (isBlank_eq_false (c := '<') ?_ (by decide))
      rw [String.toList_append, String.toList_append]
      exact List.mem_append_left _ (List.mem_append_left _ (by decide))
    · exact htext _ rfl isBlank_status.1
    · refine htext _ rfl ?_
      unfold isEmptyOutputText at hblank
      rw [Bool.or_eq_true, not_or, Bool.not_eq_true] at hblank
      exact hblank.1
  | parts output =>
    rw [toolResultOutputForModel] at hparts
    simp only at hparts
    split_ifs at hparts with hempty herror herror
    · exact hparts _ rfl ⟨_, List.mem_singleton_self _, isBlank_status.2.1⟩
    · exact hparts _ rfl ⟨_, List.mem_singleton_self _, isBlank_status.1⟩
    · exact hparts _ rfl ⟨_, (.head _), isBlank_status.2.2⟩
    · refine hparts _ rfl ?_
      rw [isEmptyEquivalentContentArray, List.all_eq_true] at hempty
      push Not at hempty
      obtain ⟨part, hpart, hvisible⟩ := hempty
      exact ⟨part, hpart, Bool.not_eq_true _ ▸ hvisible⟩

theorem accepted_toolResult (id : String) (result : ExecutableToolResult) :
    Accepted (toolResultMessage id result) := by
  obtain ⟨part, hpart, hvisible⟩ := toolResultMessage_not_blank id result
  exact accepted_of_part hpart hvisible

theorem accepted_of_ne_tool (h : m.role ≠ .tool) : Accepted m := fun hrole => absurd hrole h

/-! ### Stored messages -/

/-- Every message of the timeline is accepted. -/
def AllAccepted (c : ContextMemory) : Prop := ∀ m ∈ c.timeline, Accepted m

/-- What is appended or copied in is accepted. -/
def ContextOp.AddsAccepted : ContextOp → Prop
  | .appendMessage message => Accepted message
  | .importMigratedHistory messages => ∀ m ∈ messages, Accepted m
  | .useProjectedHistoryFrom messages => ∀ m ∈ messages, Accepted m
  | _ => True

namespace AllAccepted

variable {c : ContextMemory}

theorem iff_append : AllAccepted c ↔
    (∀ m ∈ c.messages, Accepted m) ∧ ∀ m ∈ c.deferredMessages, Accepted m :=
  forall_mem_append

section

variable (h : AllAccepted c)

include h

theorem flush : AllAccepted c.flushDeferredMessagesIfToolExchangeClosed := by
  unfold AllAccepted at h ⊢
  rw [timeline_flush]
  exact h

theorem pushHistory {ms : List ContextMessage} (hms : ∀ m ∈ ms, Accepted m) :
    AllAccepted (c.pushHistory ms) := by
  obtain ⟨hmessages, hdeferred⟩ := iff_append.1 h
  refine iff_append.2 ⟨?_, hdeferred⟩
  rw [messages_pushHistory]
  exact forall_mem_append.2 ⟨hmessages, hms⟩

theorem append {m : ContextMessage} (hm : Accepted m) : AllAccepted (c.append m) := by
  unfold ContextMemory.append
  split_ifs with hopen
  · obtain ⟨hmessages, hdeferred⟩ := iff_append.1 h
    exact iff_append.2 ⟨hmessages, forall_mem_append.2 ⟨hdeferred, forall_mem_singleton.2 hm⟩⟩
  · exact h.pushHistory (forall_mem_singleton.2 hm)

theorem toolResult (id : String) (result : ExecutableToolResult) :
    AllAccepted (c.toolResult id result) := by
  unfold ContextMemory.toolResult
  split_ifs with hid
  · have hpush := h.pushHistory (forall_mem_singleton.2 (accepted_toolResult id result))
    exact flush (c := c.answer id result) hpush
  · exact h

theorem closePending : AllAccepted c.closePending :=
  closePending_rule h fun _ h id => h.toolResult id interruptedResult

theorem updateStep (hsteps : StepEntries c) (n : ℕ) {f : ContextMessage → ContextMessage}
    (hf : ∀ m, (f m).role = m.role) : AllAccepted (c.updateStep n f) := by
  obtain ⟨hmessages, hdeferred⟩ := iff_append.1 h
  refine iff_append.2 ⟨?_, hdeferred⟩
  rw [ContextMemory.messages, ContextMemory.updateStep, List.map_map, List.forall_mem_map]
  intro e he
  simp only [Function.comp_apply]
  split_ifs with hstep
  · refine accepted_of_ne_tool ?_
    rw [hf, (hsteps.roles e he (by simp [hstep])).1]
    decide
  · exact hmessages e.message (List.mem_map_of_mem he)

theorem endStep (uuid : String) (usage : Option TokenUsage) :
    AllAccepted (c.endStep uuid usage) := by
  have hclosed : AllAccepted { c with openSteps := mapDelete c.openSteps uuid } := h
  cases usage with
  | none => exact hclosed.flush
  | some usage =>
    refine flush (iff_append.2 ?_)
    rw [ContextMemory.account_messages, (ContextMemory.account_rest _ _ _).2.1]
    exact iff_append.1 hclosed

theorem loopEvent (hsteps : StepEntries c) (e : LoopRecordedEvent) :
    AllAccepted (c.loopEvent e) := by
  refine loopEvent_rule h (fun uuid => ?_) h.endStep
    (fun n _ => h.updateStep hsteps n fun _ => rfl)
    (fun n _ => h.updateStep hsteps n fun _ => rfl) h.toolResult e
  obtain ⟨hmessages, hdeferred⟩ := iff_append.1 h.closePending
  refine iff_append.2 ⟨?_, hdeferred⟩
  have hstep : (c.closePending.beginStep uuid).messages =
      c.closePending.messages ++ [stepMessage] := by
    simp [messages, beginStep]
  rw [hstep]
  exact forall_mem_append.2 ⟨hmessages, forall_mem_singleton.2 (accepted_of_ne_tool (by decide))⟩

theorem of_sublist {d : ContextMemory} (hsub : d.history.Sublist c.history)
    (hdeferred : d.deferredMessages = []) : AllAccepted d := by
  refine iff_append.2 ⟨fun m hm => (iff_append.1 h).1 m ?_, by simp [hdeferred]⟩
  exact (hsub.map _).mem hm

theorem undone (count : ℤ) : AllAccepted (c.undone count) := by
  unfold ContextMemory.undone
  split_ifs
  · have hsub := StepEntries.undoFrom_sublist count c.history.reverse
      { kept := [], covered := c.tokenCountCoveredMessageCount, tokenCount := c.tokenCount }
    rw [reverse_reverse, append_nil] at hsub
    exact h.of_sublist hsub rfl
  · exact h

end

theorem compact (c : ContextMemory) (input : CompactionInput) :
    AllAccepted (c.compact false input) := by
  refine iff_append.2 ⟨fun m hm => ?_, fun m hm => absurd hm not_mem_nil⟩
  have hmsgs : (c.compact false input).messages = c.keptUserMessages ++
      [summaryMessage (input.contextSummary.getD input.summary)] := by
    simp [ContextMemory.messages, ContextMemory.compact, ContextMemory.compactedHistory,
      Function.comp_def]
  rw [hmsgs] at hm
  rcases mem_append.1 hm with hm | hm
  · exact accepted_of_ne_tool
      (isPlain_of_isRealUserInput (selectRecentUserMessages_kept _ _ m hm)).1
  · rw [mem_singleton.1 hm]
    exact accepted_of_ne_tool (by simp [summaryMessage])

theorem popMatched (h : AllAccepted c) (matcher : Option PromptOrigin → Bool) :
    AllAccepted (c.popMatched matcher) := by
  obtain ⟨hmessages, hdeferred⟩ := iff_append.1 h
  unfold ContextMemory.popMatched ContextMemory.dropLastMessage
  split_ifs
  · exact iff_append.2 ⟨hmessages, fun m hm => hdeferred m ((dropLast_sublist _).mem hm)⟩
  · refine iff_append.2 ⟨fun m hm => hmessages m ?_, hdeferred⟩
    rw [ContextMemory.messages] at hm ⊢
    exact ((dropLast_sublist _).map _).mem hm
  · exact h

end AllAccepted

variable {c : ContextMemory}

/-- **No operation stores a message the projection refuses.** -/
theorem accepted_performed (h : AllAccepted c) (hsteps : StepEntries c)
    {op : ContextOp} (hop : op.AddsAccepted) : AllAccepted (c.performed op) := by
  cases op with
  | appendMessage m => exact h.append hop
  | appendTranscriptMessage | setTransientSystemReminder | clearTransientSystemReminder
  | turnPrompt => exact h
  | loopEvent e => exact h.loopEvent hsteps e
  | popMatchedMessage reminder => exact h.popMatched _
  | undo count => exact h.undone count
  | clear => exact h.of_sublist (nil_sublist _) rfl
  | applyCompaction summary contextSummary compactedCount tokensBefore droppedCount =>
    exact AllAccepted.compact c _
  | finishResume => exact AllAccepted.closePending (c := { c with openSteps := [] }) h
  | importMigratedHistory messages => exact h.pushHistory hop
  | useProjectedHistoryFrom messages =>
    have hcleared : AllAccepted c.cleared := h.of_sublist (nil_sublist _) rfl
    exact hcleared.pushHistory hop

/-- The transient reminder is none of a tool. -/
def ReminderAccepted (c : ContextMemory) : Prop := ∀ m ∈ c.transientSystemReminder, Accepted m

theorem reminder_flush (c : ContextMemory) :
    c.flushDeferredMessagesIfToolExchangeClosed.transientSystemReminder =
      c.transientSystemReminder := by
  unfold flushDeferredMessagesIfToolExchangeClosed
  split_ifs <;> rfl

theorem reminder_closePending (c : ContextMemory) :
    c.closePending.transientSystemReminder = c.transientSystemReminder := by
  unfold closePending
  generalize c.pendingToolResultIds.toList = ids
  induction ids generalizing c with
  | nil => rfl
  | cons id ids ih =>
    rw [foldl_cons, ih]
    unfold toolResult
    split_ifs
    · exact reminder_flush _
    · rfl

theorem reminder_loopEvent (c : ContextMemory) (e : LoopRecordedEvent) :
    (c.loopEvent e).transientSystemReminder = c.transientSystemReminder := by
  cases e with
  | stepBegin uuid turnId => exact reminder_closePending c
  | stepEnd uuid usage =>
    simp only [loopEvent, endStep, reminder_flush]
    cases usage with
    | none => rfl
    | some usage =>
      simp only [account]
      split_ifs <;> rfl
  | contentPart stepUuid part | toolCall stepUuid toolCallId name args =>
    simp only [loopEvent]
    cases c.openStep stepUuid <;> rfl
  | toolResult toolCallId result =>
    simp only [loopEvent, toolResult]
    split_ifs
    · exact reminder_flush _
    · rfl

theorem reminderAccepted_performed (h : ReminderAccepted c) (op : ContextOp) :
    ReminderAccepted (c.performed op) := by
  have hnone : ∀ d : ContextMemory, d.transientSystemReminder = none → ReminderAccepted d := by
    intro d hd m hm
    rw [hd] at hm
    cases hm
  have hsame : ∀ d : ContextMemory, d.transientSystemReminder = c.transientSystemReminder →
      ReminderAccepted d := by
    intro d hd m hm
    exact h m (hd ▸ hm)
  cases op with
  | setTransientSystemReminder content origin =>
    intro m hm
    rw [← mem_some_iff.1 hm]
    exact accepted_of_ne_tool (by simp [systemReminderMessage])
  | clearTransientSystemReminder | clear | useProjectedHistoryFrom => exact hnone _ rfl
  | undo count =>
    rw [performed, undone]
    split_ifs
    · exact hnone _ rfl
    · exact h
  | loopEvent e => exact hsame _ (reminder_loopEvent c e)
  | finishResume => exact hsame _ (reminder_closePending { c with openSteps := [] })
  | appendMessage m =>
    refine hsame _ ?_
    rw [performed, append]
    split_ifs <;> rfl
  | popMatchedMessage reminder =>
    refine hsame _ ?_
    rw [performed, popMatched, dropLastMessage]
    split_ifs <;> rfl
  | appendTranscriptMessage | turnPrompt => exact h
  | applyCompaction | importMigratedHistory => exact hsame _ rfl

theorem accepted_foldl {ops : List ContextOp} (hops : ∀ op ∈ ops, op.AddsAccepted) :
    AllAccepted (ops.foldl performed {}) ∧ ReminderAccepted (ops.foldl performed {}) := by
  have hall : StepEntries (ops.foldl performed {}) ∧
      AllAccepted (ops.foldl performed {}) ∧
      ReminderAccepted (ops.foldl performed {}) := by
    induction ops using reverseRecOn with
    | nil =>
      exact ⟨.initial, fun m hm => absurd hm not_mem_nil, fun m hm => absurd hm (by simp)⟩
    | append_singleton ops op ih =>
      obtain ⟨hsteps, haccepted, hreminder⟩ := ih fun op hop => hops op (mem_append_left _ hop)
      rw [foldl_append]
      exact ⟨hsteps.performed op, accepted_performed haccepted hsteps (hops op (by simp)),
        reminderAccepted_performed hreminder op⟩
  exact hall.2

/-! ### Requests -/

theorem accepted_withSpeaker (h : Accepted m) : Accepted (withSpeaker m) := by
  unfold withSpeaker
  split_ifs with hrole
  · refine accepted_of_ne_tool ?_
    cases m.origin.bind (wrapSpeakerContent m.content) with
    | none | some => simp [hrole]
  · exact h

theorem accepted_compact {micro : MicroCompaction}
    (hmarker : isBlank micro.config.truncatedMarker = false) {messages : List ContextMessage}
    (h : ∀ m ∈ messages, Accepted m) : ∀ m ∈ micro.compact messages, Accepted m := by
  unfold MicroCompaction.compact
  split_ifs
  · intro m hm
    obtain ⟨i, hi, rfl⟩ := mem_mapIdx.1 hm
    split_ifs
    · exact accepted_of_part (mem_singleton_self _) hmarker
    · exact h _ (getElem_mem hi)
  · exact h

theorem isBlank_truncatedMarker : isBlank ({} : MicroCompactionConfig).truncatedMarker = false :=
  isBlank_eq_false (c := '[') (by decide) (by decide)

theorem project_ok {history : List ContextMessage} (h : ∀ m ∈ history, Accepted m)
    (options : ProjectOptions) : ∃ request, project history options = .ok request := by
  unfold project
  rw [mergeAdjacentUserMessages_eq h]
  exact ⟨_, rfl⟩

theorem requestMessages_of_accepted (haccepted : AllAccepted c)
    (hreminder : ReminderAccepted c) (micro : MicroCompaction)
    (hmarker : isBlank micro.config.truncatedMarker = false) (options : ProjectOptions) :
    ∃ request, requestMessages micro c options = .ok request := by
  refine project_ok (accepted_compact hmarker ?_) options
  refine forall_mem_map.2 fun m hm => accepted_withSpeaker ?_
  rcases mem_append.1 hm with hm | hm
  · exact (AllAccepted.iff_append.1 haccepted).1 m hm
  · exact hreminder m (mem_toList.1 hm)

theorem context_loopEvents (events : List LoopRecordedEvent) :
    (events.foldl (fun a e => (appendLoopEvent a e).1) {}).context =
      (events.map ContextOp.loopEvent).foldl performed {} := by
  induction events using reverseRecOn with
  | nil => rfl
  | append_singleton events e ih =>
    rw [foldl_append, foldl_cons, foldl_nil, appendLoopEvent_context, ih, map_append, foldl_append]
    rfl

/-- **After any events of the loop the projection succeeds**, wherever the cutoff of the micro
compaction stands, for ordinary and for strict requests. -/
theorem requestMessages_ok (events : List LoopRecordedEvent) (enabled : Bool) (cutoff : ℕ)
    (options : ProjectOptions) :
    ∃ request, requestMessages { enabled, cutoff }
      (events.foldl (fun a e => (appendLoopEvent a e).1) {}).context options = .ok request := by
  have hops : ∀ op ∈ events.map ContextOp.loopEvent, op.AddsAccepted := by
    refine List.forall_mem_map.2 fun e _ => ?_
    trivial
  obtain ⟨haccepted, hreminder⟩ := accepted_foldl hops
  have hmarker : isBlank (MicroCompaction.mk enabled cutoff {}).config.truncatedMarker = false :=
    isBlank_truncatedMarker
  rw [context_loopEvents]
  exact requestMessages_of_accepted haccepted hreminder (MicroCompaction.mk enabled cutoff {})
    hmarker options

end NoriCode
