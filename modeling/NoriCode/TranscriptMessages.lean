/-
**Messages of a transcript, and what becomes of them.**

The entries of a transcript are shown as messages.  An entry has a place, and the place is what the
id of its message is made of.  While records are reduced, entries come at the end, and the message
of an open step grows; only an undo takes entries away.  So as long as nothing is undone, an entry
keeps its place, and once its step has ended it keeps its message.

The module embeds `deriveMessageId`, `parseMessageId`, `isInternalTeamDirectMessage` and
`toProtocolMessages` of `services/message/message.ts`; what the content of a message is mapped to
and the times are left out.

Main definitions:

* `deriveMessageId`, `ProtocolMessage`, `protocolMessages`;
* `Grows` — a message, and the same message later;
* `WireTranscript.Extends` — a transcript, and the same transcript later.

Main results:

* `WireTranscript.Extends.reduce` — **what a record leaves, unless it is an undo**;
* `extends_reduceWireRecords` — the transcript of a log, and of a longer one.
-/

import NoriCode.LibPlaces
import NoriCode.Transcript

namespace NoriCode

open List

/-! ### Ids -/

/-- `String(index).padStart(6, '0')` -/
def paddedIndex (index : ℕ) : List Char :=
  List.replicate (6 - (Nat.toDigits 10 index).length) '0' ++ Nat.toDigits 10 index

def deriveMessageId (sessionId : String) (index : ℕ) : String :=
  "msg_" ++ sessionId ++ "_" ++ String.ofList (paddedIndex index)

theorem paddedIndex_injective : Function.Injective paddedIndex := by
  have hvalue : ∀ index, Nat.ofDigitChars 10 (paddedIndex index) 0 = index := by
    intro index
    rw [paddedIndex, Nat.ofDigitChars_append, Nat.ofDigitChars_replicate_zero, Nat.mul_zero,
      Nat.ofDigitChars_ten_toDigits]
  intro i j h
  rw [← hvalue i, h, hvalue j]

/-- **The ids of a session are those of different places.** -/
theorem deriveMessageId_injective (sessionId : String) :
    Function.Injective (deriveMessageId sessionId) := by
  intro i j h
  have hchars := congrArg String.toList h
  simp only [deriveMessageId, String.toList_append, String.toList_ofList,
    append_cancel_left_eq] at hchars
  exact paddedIndex_injective hchars

/-- `parseMessageId`: the session and the index are split at the last underscore. -/
def parseMessageId (messageId : String) : Option (String × ℕ) :=
  if startsWith messageId "msg_" then
    let rest := messageId.toList.drop 4
    let tail := rest.reverse.takeWhile (· != '_')
    let sessionId := (rest.reverse.drop (tail.length + 1)).reverse
    let digits := tail.reverse.takeWhile Char.isDigit
    let suffix := tail.reverse.drop digits.length
    if tail.length < rest.length ∧ sessionId ≠ [] ∧ digits ≠ [] ∧
        (suffix = [] ∨ suffix = ":result".toList) then
      some (String.ofList sessionId, Nat.ofDigitChars 10 digits 0)
    else none
  else none

theorem isDigit_of_mem_paddedIndex {index : ℕ} {c : Char} (h : c ∈ paddedIndex index) :
    c.isDigit = true := by
  rcases mem_append.1 h with h | h
  · obtain rfl := (mem_replicate.1 h).2
    rfl
  · exact Nat.isDigit_of_mem_toDigits (by decide) (by decide) h

/-- **An id is read back**, also when the id of the session has underscores. -/
theorem parseMessageId_deriveMessageId {sessionId : String} (h : sessionId ≠ "") (index : ℕ) :
    parseMessageId (deriveMessageId sessionId index) = some (sessionId, index) := by
  have hid : sessionId.toList ≠ [] := fun hnil => h (String.toList_eq_nil_iff.1 hnil)
  have hne : paddedIndex index ≠ [] := by simp [paddedIndex, Nat.toDigits_ne_nil]
  have hvalue : Nat.ofDigitChars 10 (paddedIndex index) 0 = index := by
    rw [paddedIndex, Nat.ofDigitChars_append, Nat.ofDigitChars_replicate_zero, Nat.mul_zero,
      Nat.ofDigitChars_ten_toDigits]
  have hdigits : (paddedIndex index).takeWhile Char.isDigit = paddedIndex index :=
    takeWhile_eq_self_iff.2 fun c hc => isDigit_of_mem_paddedIndex hc
  -- read from the end, the index goes on to the last underscore
  have htail : ((paddedIndex index).reverse ++ '_' :: sessionId.toList.reverse).takeWhile
      (· != '_') = (paddedIndex index).reverse := by
    rw [takeWhile_append_of_pos fun c hc => ?_]
    · simp
    · have hdigit := isDigit_of_mem_paddedIndex (mem_reverse.1 hc)
      refine bne_iff_ne.2 ?_
      rintro rfl
      cases hdigit
  have hdrop : ((paddedIndex index).reverse ++ '_' :: sessionId.toList.reverse).drop
      ((paddedIndex index).length + 1) = sessionId.toList.reverse := by
    rw [← drop_drop, drop_left' length_reverse]
    rfl
  have hlist : (deriveMessageId sessionId index).toList =
      "msg_".toList ++ (sessionId.toList ++ '_' :: paddedIndex index) := by
    simp [deriveMessageId]
  have hstart : startsWith (deriveMessageId sessionId index) "msg_" = true := by
    simp [startsWith, hlist]
  unfold parseMessageId
  rw [if_pos hstart, hlist]
  simp [htail, hdigits, hdrop, hid, hne, hvalue]
  omega

/-! ### Messages -/

/-- `/^\s*<system-reminder>/i` -/
def startsWithReminder (text : String) : Bool :=
  "<system-reminder>".toList.isPrefixOf ((trimStart text).toList.map Char.toLower)

/-- A message between agents, which is no part of the conversation that is shown. -/
def isInternalTeamDirectMessage (message : ContextMessage) : Bool :=
  let rawText := String.join (message.content.filterMap ContentPart.text?)
  message.role == .user &&
    match message.originKind with
    | some (.systemTrigger name) =>
      name == "team_dm" || name == "team_chat" ||
        ((name == "team_lead" || name == "team_member") && startsWithReminder rawText)
    | _ => false

/-- A message as it is shown, with what its content and metadata are made from. -/
structure ProtocolMessage where
  id : String
  sessionId : String
  role : Role
  message : ContextMessage
  turnId : Option String
  deriving DecidableEq

def toProtocolMessages (sessionId : String) (index : ℕ) (message : ContextMessage)
    (turnId : Option String) : List ProtocolMessage :=
  [{ id := deriveMessageId sessionId index
     sessionId := sessionId
     role := message.role
     message := message
     turnId := turnId }]

/-- The messages that are shown of entries, by their places. -/
def protocolMessages (sessionId : String) (entries : List (ContextMessage × Option String)) :
    List ProtocolMessage :=
  entries.zipIdx.flatMap fun entry =>
    if isInternalTeamDirectMessage entry.1.1 then []
    else toProtocolMessages sessionId entry.2 entry.1.1 entry.1.2

variable {sessionId : String} {entries : List (ContextMessage × Option String)}

theorem mem_protocolMessages {m : ProtocolMessage} :
    m ∈ protocolMessages sessionId entries ↔ ∃ (i : ℕ) (entry : ContextMessage × Option String),
      entries[i]? = some entry ∧ isInternalTeamDirectMessage entry.1 = false ∧
        m ∈ toProtocolMessages sessionId i entry.1 entry.2 := by
  unfold protocolMessages
  rw [mem_flatMap]
  constructor
  · rintro ⟨⟨entry, i⟩, hentry, hm⟩
    rw [mem_zipIdx_iff_getElem?] at hentry
    split at hm
    · cases hm
    · rename_i hshown
      exact ⟨i, entry, hentry, (Bool.not_eq_true _).mp hshown, hm⟩
  · rintro ⟨i, entry, hentry, hshown, hm⟩
    refine ⟨(entry, i), mem_zipIdx_iff_getElem?.2 hentry, ?_⟩
    rw [hshown]
    exact hm

/-! ### Messages that grow -/

/-- The same message, later: a step may have added content and calls. -/
structure Grows (m m' : ContextMessage) : Prop where
  role : m'.role = m.role
  origin : m'.origin = m.origin
  toolCallId : m'.toolCallId = m.toolCallId
  content : m.content <+: m'.content
  toolCalls : m.toolCalls <+: m'.toolCalls

namespace Grows

theorem refl (m : ContextMessage) : Grows m m := ⟨rfl, rfl, rfl, prefix_rfl, prefix_rfl⟩

theorem trans {m m' m'' : ContextMessage} (h : Grows m m') (h' : Grows m' m'') : Grows m m'' where
  role := h'.role.trans h.role
  origin := h'.origin.trans h.origin
  toolCallId := h'.toolCallId.trans h.toolCallId
  content := h.content.trans h'.content
  toolCalls := h.toolCalls.trans h'.toolCalls

theorem addContent (part : ContentPart) (m : ContextMessage) :
    Grows m (ContextMessage.addContent part m) :=
  ⟨rfl, rfl, rfl, prefix_append _ _, prefix_rfl⟩

theorem addToolCall (call : ToolCall) (m : ContextMessage) :
    Grows m (ContextMessage.addToolCall call m) :=
  ⟨rfl, rfl, rfl, prefix_rfl, prefix_append _ _⟩

end Grows

/-! ### Transcripts that grow -/

namespace WireTranscript

/-- The objects of the open steps. -/
def openRefs (t : WireTranscript) : List ℕ := t.openSteps.map Prod.snd

/-- Numbers are given once. -/
structure Numbered (t : WireTranscript) : Prop where
  transcript : ∀ e ∈ t.transcript, e.ref < t.nextRef
  deferred : ∀ e ∈ t.deferred, e.ref < t.nextRef
  transcriptOnly : ∀ e ∈ t.transcriptOnlyDeferred, e.ref < t.nextRef

/-- **The same transcript, later**: an entry keeps its place, its message grows, and one whose step
is not open keeps it. -/
structure Extends (t t' : WireTranscript) : Prop where
  entries : ∀ (i : ℕ) (e : MutableEntry), t.transcript[i]? = some e →
    ∃ e', t'.transcript[i]? = some e' ∧ e'.ref = e.ref ∧ Grows e.message e'.message ∧
      (e.ref ∉ t.openRefs → e'.message = e.message)
  opened : ∀ ref ∈ t'.openRefs, ref ∈ t.openRefs ∨ t.nextRef ≤ ref
  next : t.nextRef ≤ t'.nextRef

variable {t t' t'' : WireTranscript}

namespace Extends

theorem refl (t : WireTranscript) : Extends t t where
  entries := fun _ e hi => ⟨e, hi, rfl, Grows.refl _, fun _ => rfl⟩
  opened := fun _ href => .inl href
  next := Nat.le_refl _

theorem trans (h : Extends t t') (ht : t.Numbered) (h' : Extends t' t'') : Extends t t'' where
  entries := fun i e hi => by
    obtain ⟨e', hi', href, hgrows, hsame⟩ := h.entries i e hi
    obtain ⟨e'', hi'', href', hgrows', hsame'⟩ := h'.entries i e' hi'
    refine ⟨e'', hi'', href'.trans href, hgrows.trans hgrows', fun hclosed => ?_⟩
    refine (hsame' fun hopen => ?_).trans (hsame hclosed)
    rcases h.opened _ hopen with hold | hnew
    · exact hclosed (href ▸ hold)
    · have hlt := ht.transcript e (mem_of_getElem? hi)
      omega
  opened := fun ref href => by
    rcases h'.opened ref href with hold | hnew
    · exact h.opened ref hold
    · exact .inr (Nat.le_trans h.next hnew)
  next := Nat.le_trans h.next h'.next

theorem of_append {es : List MutableEntry} (htranscript : t'.transcript = t.transcript ++ es)
    (hopen : ∀ ref ∈ t'.openRefs, ref ∈ t.openRefs ∨ t.nextRef ≤ ref)
    (hnext : t.nextRef ≤ t'.nextRef) : Extends t t' where
  entries := fun i e hi => by
    refine ⟨e, ?_, rfl, Grows.refl _, fun _ => rfl⟩
    rw [htranscript, List.getElem?_append_left (List.getElem?_eq_some_iff.1 hi).1]
    exact hi
  opened := hopen
  next := hnext

end Extends

/-! ### One record -/

/-- A transcript is extended, and numbers are given once. -/
structure Continues (t t' : WireTranscript) : Prop where
  extend : Extends t t'
  numbered : t'.Numbered

namespace Continues

section

variable (ht : t.Numbered)

include ht

theorem refl : Continues t t := ⟨Extends.refl t, ht⟩

theorem trans (h : Continues t t') (h' : Continues t' t'') : Continues t t'' :=
  ⟨h.extend.trans ht h'.extend, h'.numbered⟩

theorem of_append (es : List MutableEntry) (htranscript : t'.transcript = t.transcript ++ es)
    (hes : ∀ e ∈ es, e.ref < t'.nextRef)
    (hopen : ∀ ref ∈ t'.openRefs, ref ∈ t.openRefs ∨ t.nextRef ≤ ref)
    (hnext : t.nextRef ≤ t'.nextRef) (hdeferred : ∀ e ∈ t'.deferred, e.ref < t'.nextRef)
    (honly : ∀ e ∈ t'.transcriptOnlyDeferred, e.ref < t'.nextRef) : Continues t t' where
  extend := .of_append htranscript hopen hnext
  numbered := by
    refine ⟨fun e he => ?_, hdeferred, honly⟩
    rw [htranscript] at he
    rcases mem_append.1 he with hold | hnew
    · exact Nat.lt_of_lt_of_le (ht.transcript e hold) hnext
    · exact hes e hnew

theorem flush : Continues t t.flushDeferredIfToolExchangeClosed := by
  unfold flushDeferredIfToolExchangeClosed
  split
  · exact refl ht
  · refine of_append ht (t.deferred ++ t.transcriptOnlyDeferred) ?_ ?_ ?_ ?_ ?_ ?_
    · exact append_assoc _ _ _
    · intro e he
      rcases mem_append.1 he with hdeferred | honly
      · exact ht.deferred e hdeferred
      · exact ht.transcriptOnly e honly
    · exact fun ref href => .inl href
    · exact Nat.le_refl _
    · exact fun e he => by cases he
    · exact fun e he => by cases he

theorem pushNew (message : ContextMessage) (turnId : Option String)
    (htranscript : t'.transcript = t.transcript ++ [t.newEntry message turnId])
    (hopen : ∀ ref ∈ t'.openRefs, ref ∈ t.openRefs ∨ t.nextRef ≤ ref)
    (hnext : t'.nextRef = t.nextRef + 1) (hdeferred : t'.deferred ⊆ t.deferred)
    (honly : t'.transcriptOnlyDeferred ⊆ t.transcriptOnlyDeferred) : Continues t t' := by
  refine of_append ht _ htranscript ?_ hopen ?_ ?_ ?_
  · intro e he
    obtain rfl := mem_singleton.1 he
    rw [hnext]
    exact Nat.lt_succ_self _
  · omega
  · intro e he
    have hlt := ht.deferred e (hdeferred he)
    omega
  · intro e he
    have hlt := ht.transcriptOnly e (honly he)
    omega

theorem closePending : Continues t t.closePendingToolResults := by
  unfold closePendingToolResults
  split
  · exact refl ht
  · have hfold : ∀ (ps : List (String × Option String)) (u : WireTranscript), u.Numbered →
        Continues u (ps.foldl closeOne u) := by
      intro ps
      induction ps with
      | nil => exact fun u hu => refl hu
      | cons p ps ih =>
        intro u hu
        have hone : Continues u (closeOne u p) :=
          pushNew hu _ p.2 rfl (fun ref href => .inl href) rfl (List.Subset.refl _)
            (List.Subset.refl _)
        exact hone.trans hu (ih _ hone.numbered)
    have hclosed := hfold t.pendingToolResults t ht
    exact hclosed.trans ht (flush hclosed.numbered)

/-- Entries are changed in place, and only those of open steps change their messages. -/
theorem of_map {f : MutableEntry → MutableEntry} (htranscript : t'.transcript = t.transcript.map f)
    (hf : ∀ e, (f e).ref = e.ref ∧ Grows e.message (f e).message ∧
      (e.ref ∉ t.openRefs → (f e).message = e.message)) (hopen : t'.openRefs = t.openRefs)
    (hnext : t'.nextRef = t.nextRef) (hdeferred : ∀ e ∈ t'.deferred, e.ref < t'.nextRef)
    (honly : ∀ e ∈ t'.transcriptOnlyDeferred, e.ref < t'.nextRef) : Continues t t' where
  extend :=
    { entries := fun i e hi => by
        refine ⟨f e, ?_, hf e⟩
        rw [htranscript, getElem?_map, hi]
        rfl
      opened := fun ref href => .inl (hopen ▸ href)
      next := Nat.le_of_eq hnext.symm }
  numbered := by
    refine ⟨fun e he => ?_, hdeferred, honly⟩
    rw [htranscript] at he
    obtain ⟨e₀, he₀, rfl⟩ := mem_map.1 he
    rw [(hf e₀).1, hnext]
    exact ht.transcript e₀ he₀

theorem assignTurn (turnId : String) : Continues t (t.assignTurn turnId) := by
  have href : ∀ e : MutableEntry,
      (if e.ref ∈ t.pendingTurnEntries then { e with turnId := some turnId } else e).ref =
        e.ref := by
    intro e
    split <;> rfl
  have hmessage : ∀ e : MutableEntry,
      (if e.ref ∈ t.pendingTurnEntries then { e with turnId := some turnId } else e).message =
        e.message := by
    intro e
    split <;> rfl
  refine of_map ht rfl (fun e => ⟨href e, ?_, fun _ => hmessage e⟩) rfl rfl ?_ ?_
  · rw [hmessage e]
    exact Grows.refl _
  · intro e he
    obtain ⟨e₀, he₀, rfl⟩ := mem_map.1 he
    rw [href e₀]
    exact ht.deferred e₀ he₀
  · intro e he
    obtain ⟨e₀, he₀, rfl⟩ := mem_map.1 he
    rw [href e₀]
    exact ht.transcriptOnly e₀ he₀

theorem beginStep (uuid turnId : String) : Continues t (t.beginStep uuid turnId) := by
  have hnumbered : ({ t with currentTurnId := some turnId } : WireTranscript).Numbered :=
    ⟨ht.transcript, ht.deferred, ht.transcriptOnly⟩
  have hassign := assignTurn hnumbered turnId
  have hfirst : Continues t ({ t with currentTurnId := some turnId }.assignTurn turnId) :=
    ⟨⟨hassign.extend.entries, hassign.extend.opened, hassign.extend.next⟩, hassign.numbered⟩
  refine hfirst.trans ht (pushNew hfirst.numbered stepMessage (some turnId) rfl ?_ rfl
    (List.Subset.refl _) (List.Subset.refl _))
  intro ref href
  obtain ⟨entry, hentry, rfl⟩ := mem_map.1 href
  rcases mem_cons.1 hentry with rfl | hold
  · exact .inr (Nat.le_refl _)
  · exact .inl (mem_map_of_mem (mem_of_mem_filter hold))

end

theorem mem_openRefs {uuid : String} {ref : ℕ} (h : t.openSteps.lookup uuid = some ref) :
    ref ∈ t.openRefs := by
  obtain ⟨before, after, heq, -⟩ := lookup_eq_some_iff.1 h
  rw [openRefs, heq]
  exact mem_map_of_mem (mem_append_right _ (.head _))

variable (ht : t.Numbered)

include ht

theorem updateStep {ref : ℕ} (href : ref ∈ t.openRefs) {f : ContextMessage → ContextMessage}
    (hf : ∀ m, Grows m (f m)) : Continues t (t.updateStep ref f) := by
  refine of_map ht rfl (fun e => ?_) rfl rfl ht.deferred ht.transcriptOnly
  split
  · rename_i heq
    exact ⟨rfl, hf e.message, fun hclosed => absurd (heq ▸ href) hclosed⟩
  · exact ⟨rfl, Grows.refl _, fun _ => rfl⟩

theorem toolResult (toolCallId : String) (result : ExecutableToolResult) :
    Continues t (t.toolResult toolCallId result) := by
  unfold WireTranscript.toolResult
  split
  · exact refl ht
  · rename_i turnId _
    have hpush : Continues t { t.push [t.newEntry (transcriptToolMessage toolCallId result)
        turnId] with
        pendingToolResults := orderedMapDelete t.pendingToolResults toolCallId
        nextRef := t.nextRef + 1 } :=
      pushNew ht _ turnId rfl (fun ref href => .inl href) rfl (List.Subset.refl _)
        (List.Subset.refl _)
    exact hpush.trans ht (flush hpush.numbered)

theorem loopEvent (event : LoopRecordedEvent) : Continues t (t.applyLoopEvent event) := by
  cases event with
  | stepBegin uuid turnId =>
    have hclosed := closePending ht
    exact hclosed.trans ht (beginStep hclosed.numbered uuid turnId)
  | stepEnd uuid usage =>
    have hclosed : Continues t { t with openSteps := mapDelete t.openSteps uuid } := by
      refine of_append ht [] (append_nil _).symm (fun e he => by cases he) ?_ (Nat.le_refl _)
        ht.deferred ht.transcriptOnly
      intro ref href
      obtain ⟨entry, hentry, rfl⟩ := mem_map.1 href
      exact .inl (mem_map_of_mem (mem_of_mem_filter hentry))
    exact hclosed.trans ht (flush hclosed.numbered)
  | contentPart stepUuid part =>
    unfold applyLoopEvent
    dsimp only
    split
    · exact refl ht
    · rename_i ref hlookup
      exact updateStep ht (mem_openRefs hlookup) (Grows.addContent part)
  | toolCall stepUuid toolCallId name args =>
    unfold applyLoopEvent
    dsimp only
    split
    · exact refl ht
    · rename_i ref hlookup
      have hstep := updateStep ht (mem_openRefs hlookup)
        (Grows.addToolCall ⟨toolCallId, name, args⟩)
      exact ⟨⟨hstep.extend.entries, hstep.extend.opened, hstep.extend.next⟩,
        ⟨hstep.numbered.transcript, hstep.numbered.deferred, hstep.numbered.transcriptOnly⟩⟩
  | toolResult toolCallId result => exact toolResult ht toolCallId result

variable (message : ContextMessage)

theorem hold (turnId : Option String) (hopen : ∀ ref ∈ t'.openRefs, ref ∈ t.openRefs)
    (hnext : t'.nextRef = t.nextRef + 1)
    (hheld : (t'.transcript = t.transcript ++ [t.newEntry message turnId] ∧
        t'.deferred = t.deferred ∧ t'.transcriptOnlyDeferred = t.transcriptOnlyDeferred) ∨
      (t'.transcript = t.transcript ∧ t'.deferred = t.deferred ++ [t.newEntry message turnId] ∧
        t'.transcriptOnlyDeferred = t.transcriptOnlyDeferred) ∨
      (t'.transcript = t.transcript ∧ t'.deferred = t.deferred ∧
        t'.transcriptOnlyDeferred = t.transcriptOnlyDeferred ++ [t.newEntry message turnId])) :
    Continues t t' := by
  have hnew : (t.newEntry message turnId).ref < t'.nextRef := by
    rw [hnext]
    exact Nat.lt_succ_self _
  have hall : ∀ {es : List MutableEntry}, (∀ e ∈ es, e.ref < t.nextRef) →
      ∀ e ∈ es ++ [t.newEntry message turnId], e.ref < t'.nextRef := by
    intro es hes e he
    rcases mem_append.1 he with hold | hlast
    · have hlt := hes e hold
      omega
    · obtain rfl := mem_singleton.1 hlast
      exact hnew
  have hkeep : ∀ {es : List MutableEntry}, (∀ e ∈ es, e.ref < t.nextRef) →
      ∀ e ∈ es, e.ref < t'.nextRef := fun hes e he => by
    have hlt := hes e he
    omega
  rcases hheld with ⟨htranscript, hdeferred, honly⟩ | ⟨htranscript, hdeferred, honly⟩ |
    ⟨htranscript, hdeferred, honly⟩
  · refine pushNew ht message turnId htranscript (fun ref href => .inl (hopen ref href)) hnext ?_ ?_
    · rw [hdeferred]
      exact List.Subset.refl _
    · rw [honly]
      exact List.Subset.refl _
  · refine of_append ht [] (htranscript.trans (append_nil _).symm)
      (fun e he => by cases he) (fun ref href => .inl (hopen ref href)) (by omega) ?_ ?_
    · rw [hdeferred]
      exact hall ht.deferred
    · rw [honly]
      exact hkeep ht.transcriptOnly
  · refine of_append ht [] (htranscript.trans (append_nil _).symm)
      (fun e he => by cases he) (fun ref href => .inl (hopen ref href)) (by omega) ?_ ?_
    · rw [hdeferred]
      exact hkeep ht.deferred
    · rw [honly]
      exact hall ht.transcriptOnly

theorem appendMessage : Continues t (t.appendMessage message) := by
  unfold WireTranscript.appendMessage
  dsimp only
  split_ifs
  all_goals
    first
    | exact hold ht message _ (fun _ href => href) rfl (.inr (.inl ⟨rfl, rfl, rfl⟩))
    | exact hold ht message _ (fun _ href => href) rfl (.inl ⟨rfl, rfl, rfl⟩)

theorem appendTranscriptMessage : Continues t (t.appendTranscriptMessage message) := by
  unfold WireTranscript.appendTranscriptMessage
  dsimp only
  split_ifs
  all_goals
    first
    | exact hold ht message _ (fun _ href => href) rfl (.inr (.inr ⟨rfl, rfl, rfl⟩))
    | exact hold ht message _ (fun _ href => href) rfl (.inl ⟨rfl, rfl, rfl⟩)

theorem reset (es : List MutableEntry) (htranscript : t'.transcript = t.transcript ++ es)
    (hes : ∀ e ∈ es, e.ref < t'.nextRef) (hnext : t.nextRef ≤ t'.nextRef) :
    Continues t t'.resetOpenState :=
  of_append ht es htranscript hes (fun ref href => by cases href) hnext
    (fun e he => by cases he) (fun e he => by cases he)

theorem compaction (input : CompactionInput) : Continues t (t.applyCompaction input) := by
  refine reset ht [t.newEntry (summaryMessage input.summary) none] rfl (fun e he => ?_)
    (Nat.le_succ _)
  obtain rfl := mem_singleton.1 he
  exact Nat.lt_succ_self _

/-- **A record that is no undo.** -/
theorem reduce {r : AgentRecord} (hr : ∀ count, r ≠ .undo count) : Continues t (t.reduce r) := by
  cases r with
  | forked hadGoal => exact refl ht
  | turnPrompt origin =>
    exact of_append ht [] (append_nil _).symm (fun e he => by cases he)
      (fun ref href => .inl href) (Nat.le_refl _) ht.deferred ht.transcriptOnly
  | appendMessage message => exact appendMessage ht message
  | appendTranscriptMessage message => exact appendTranscriptMessage ht message
  | appendLoopEvent event => exact loopEvent ht event
  | applyCompaction input => exact compaction ht input
  | undo count => exact absurd rfl (hr count)
  | clear =>
    have hclear : Continues t { t with
        clearFloor := t.transcript.length
        foldedLength := 0 }.resetOpenState :=
      reset ht [] (append_nil _).symm (fun e he => by cases he) (Nat.le_refl _)
    exact hclear

end Continues

theorem mem_undoEntries {count : ℤ} {es kept : List MutableEntry} {removed : ℤ} {n : ℕ}
    {e : MutableEntry} (h : e ∈ (undoEntries count es kept removed n).1) : e ∈ es ∨ e ∈ kept := by
  fun_induction undoEntries count es kept removed n with
  | case1 kept removed n => exact .inr h
  | case2 kept removed n d older hinjection ih =>
    rcases ih h with hold | hkept
    · exact .inl (.tail _ hold)
    · rcases mem_cons.1 hkept with rfl | hkept
      · exact .inl (.head _)
      · exact .inr hkept
  | case3 kept removed n d older hinjection hsummary =>
    rcases mem_append.1 h with hold | hkept
    · exact .inl (mem_reverse.1 hold)
    · exact .inr hkept
  | case4 kept removed n d older hinjection hsummary hinput hlast =>
    rcases mem_append.1 h with hold | hkept
    · exact .inl (.tail _ (mem_reverse.1 hold))
    · exact .inr hkept
  | case5 kept removed n d older hinjection hsummary hinput hlast ih
  | case6 kept removed n d older hinjection hsummary hinput ih =>
    exact (ih h).imp_left (mem_cons_of_mem _)

/-- **Numbers are given once**, by every record. -/
theorem Numbered.reduce (ht : t.Numbered) (r : AgentRecord) : (t.reduce r).Numbered := by
  by_cases hr : ∃ count, r = .undo count
  · obtain ⟨count, rfl⟩ := hr
    unfold WireTranscript.reduce applyUndo
    dsimp only
    split
    · exact ht
    · refine ⟨fun e he => ?_, fun e he => (by cases he), fun e he => (by cases he)⟩
      rcases mem_append.1 he with htake | hundone
      · exact ht.transcript e (mem_of_mem_take htake)
      · rcases mem_undoEntries hundone with hold | hnone
        · exact ht.transcript e (mem_of_mem_drop (mem_reverse.1 hold))
        · cases hnone
  · exact (Continues.reduce ht fun count heq => hr ⟨count, heq⟩).numbered

end WireTranscript

/-! ### Logs -/

open WireTranscript

theorem numbered_reduceWireRecords (records : List AgentRecord) :
    (reduceWireRecords records).Numbered := by
  induction records using reverseRecOn with
  | nil =>
    exact ⟨fun e he => (by cases he), fun e he => (by cases he), fun e he => (by cases he)⟩
  | append_singleton records r ih =>
    rw [reduceWireRecords, foldl_append]
    exact ih.reduce r

/-- The record takes nothing away. -/
def AgentRecord.isUndo : AgentRecord → Bool
  | .undo _ => true
  | _ => false

/-- **The transcript of a log is kept by a longer one**, if nothing is undone in between. -/
theorem extends_reduceWireRecords {records later : List AgentRecord}
    (h : ∀ r ∈ later, r.isUndo = false) :
    Extends (reduceWireRecords records) (reduceWireRecords (records ++ later)) := by
  induction later using reverseRecOn with
  | nil =>
    rw [append_nil]
    exact Extends.refl _
  | append_singleton later r ih =>
    have hlater := ih fun r' hr' => h r' (mem_append_left _ hr')
    have hr : ∀ count, r ≠ .undo count := by
      rintro count rfl
      cases h _ (mem_append_right _ (.head _))
    have hlast := Continues.reduce (numbered_reduceWireRecords (records ++ later)) hr
    have heq : reduceWireRecords (records ++ (later ++ [r])) =
        (reduceWireRecords (records ++ later)).reduce r := by
      rw [← append_assoc, reduceWireRecords, foldl_append]
      rfl
    rw [heq]
    exact hlater.trans (numbered_reduceWireRecords records) hlast.extend

end NoriCode
