/-
**What is recorded of a step that fails.**

An answer of the model is shown while it is streamed, and recorded part by part once the stream has
come to its end.  What an attempt has streamed before it failed is pending: it is dropped when the
message is sent again, and recorded when the step ends.  A retry drops it before the pause, so
nothing is left of the last attempt when the pause is interrupted.

The module embeds `executeLoopStep` of `loop/turn-step.ts` up to the response, `chatWithRetry` of
`loop/retry.ts` and `chat` of `agent/turn/kosong-llm.ts`, with `generate` of `GenerateStream`.

Main definitions:

* `StepStreaming` — what is pending, and what is recorded;
* `TurnStep`, with `step` — a step, and what may come next;
* `TurnStep.RecordsLast` — the content of the last attempt is recorded, once.

Main results:

* `spoken_generate` — a message says what was streamed;
* `TurnStep.recordsLast_iff` — **exactly a pause that is interrupted loses what was
  streamed**.
-/

import NoriCode.GenerateStream
import NoriCode.LibRun

namespace NoriCode

open String LibRun

/-! ### Pending parts -/

/-- The pending deltas, and the `content.part` events. -/
structure StepStreaming where
  pendingText : String := ""
  pendingThinking : String := ""
  parts : List ContentPart := []

namespace StepStreaming

def onTextDelta (s : StepStreaming) (delta : String) : StepStreaming :=
  { s with pendingText := s.pendingText ++ delta }

def onThinkDelta (s : StepStreaming) (delta : String) : StepStreaming :=
  { s with pendingThinking := s.pendingThinking ++ delta }

def emitPart (s : StepStreaming) (part : ContentPart) : StepStreaming :=
  { s with parts := s.parts ++ [part] }

def discardPending (s : StepStreaming) : StepStreaming :=
  { s with pendingText := "", pendingThinking := "" }

def flushPending (s : StepStreaming) : StepStreaming :=
  let thinking := s.pendingThinking
  let text := s.pendingText
  let s := s.discardPending
  let s := if thinking.length > 0 then s.emitPart (.think thinking none) else s
  if text.length > 0 then s.emitPart (.text text) else s

/-- The deltas of a part that is streamed. -/
def onMessagePart {ι : Type} (s : StepStreaming) : StreamedMessagePart ι → StepStreaming
  | .content (.text text) => s.onTextDelta text
  | .content (.think think _) => s.onThinkDelta think
  | _ => s

/-- `onTextPart` and `onThinkPart`, with a part of the message. -/
def onContentPart (s : StepStreaming) : ContentPart → StepStreaming
  | .text text => { s with pendingText := "" }.emitPart (.text text)
  | .think think encrypted => { s with pendingThinking := "" }.emitPart (.think think encrypted)
  | _ => s

end StepStreaming

/-! ### The step -/

inductive StepRequest where
  | first
  | mediaFallback
  | strict
  deriving DecidableEq

inductive StepPhase (ε : Type) where
  | chatting (request : StepRequest) (attempt : ℕ)
  /-- `sleepForRetry`. -/
  | waiting (request : StepRequest) (attempt : ℕ)
  /-- `buildMessagesStrict`. -/
  | rebuilding
  | responded (message : Message)
  /-- The step has thrown an error, or that it was aborted. -/
  | thrown (error : Option ε)

/-- What the step is given, with the predicates on errors. -/
structure StepDeps (ε : Type) where
  messages : List Message
  buildMessagesStrict : Bool
  maxRetryAttempts : Option ℕ
  isRetryableError : Option (ε → Bool)
  isRecoverableMediaRequestError : ε → Bool
  isRecoverableRequestStructureError : ε → Bool
  emptyResponseError : String → ε
  info : StreamInfo

def DEFAULT_MAX_RETRY_ATTEMPTS : ℕ := 3

/-- `omittedCount` of `omitMediaAfterProviderRejection`. -/
def omittedCount (messages : List Message) : ℕ :=
  (messages.flatMap Message.content).countP fun
    | .imageUrl _ _ | .audioUrl _ _ | .videoUrl _ _ => true
    | .text _ | .think _ _ => false

/-- A step, with the parts that the last attempt has streamed. -/
structure TurnStep (ι ε : Type) where
  phase : StepPhase ε := .chatting .first 1
  streaming : StepStreaming := {}
  received : List (StreamedMessagePart ι) := []

/-- What the provider and the user do. A failure comes with whether the signal is aborted. -/
inductive TurnStepEvent (ι ε : Type) where
  | part (part : StreamedMessagePart ι)
  | drained (aborted : Bool)
  | fails (error : ε) (aborted : Bool)
  | wakes
  /-- The signal is aborted during the pause. -/
  | interrupted
  | rebuilt (aborted : Bool)
  | rebuildFails (error : ε)

namespace TurnStep

variable {ι ε : Type}

/-- The last `catch`: what is pending is recorded before the error propagates. -/
def rethrow (s : TurnStep ι ε) (error : Option ε) : TurnStep ι ε :=
  { s with phase := .thrown error, streaming := s.streaming.flushPending }

/-- A request is sent, behind what has failed. -/
def resend (s : TurnStep ι ε) (request : StepRequest) (attempt : ℕ) : TurnStep ι ε :=
  { phase := .chatting request attempt, streaming := s.streaming.discardPending, received := [] }

/-- The first `catch`: another request, if the error is one it helps against. -/
def recover (d : StepDeps ε) (s : TurnStep ι ε) (request : StepRequest) (error : ε)
    (aborted : Bool) : TurnStep ι ε :=
  if request ≠ .first then s.rethrow (some error)
  else if d.isRecoverableMediaRequestError error ∧ omittedCount d.messages > 0 then
    if aborted then s.rethrow none else s.resend .mediaFallback 1
  else if d.buildMessagesStrict = false ∨ d.isRecoverableRequestStructureError error = false then
    s.rethrow (some error)
  else if aborted then s.rethrow none
  else { s with phase := .rebuilding }

/-- `chatWithRetry` goes on, or throws. The pending parts are dropped before the pause. -/
def chatFails (d : StepDeps ε) (s : TurnStep ι ε) (request : StepRequest) (attempt : ℕ)
    (error : ε) (aborted : Bool) : TurnStep ι ε :=
  let maxAttempts := d.maxRetryAttempts.getD DEFAULT_MAX_RETRY_ATTEMPTS
  match d.isRetryableError with
  | none => s.recover d request error aborted
  | some isRetryableError =>
    if maxAttempts ≤ 1 ∨ maxAttempts ≤ attempt ∨ isRetryableError error = false then
      s.recover d request error aborted
    else if aborted then s.rethrow none
    else { s with phase := .waiting request attempt, streaming := s.streaming.discardPending }

def step [DecidableEq ι] (d : StepDeps ε) (s : TurnStep ι ε) :
    TurnStepEvent ι ε → Option (TurnStep ι ε)
  | .part part =>
    match s.phase with
    | .chatting _ _ =>
      some { s with
        streaming := s.streaming.onMessagePart part, received := s.received ++ [part] }
    | _ => none
  | .drained aborted =>
    match s.phase with
    | .chatting request attempt =>
      match generate d.info s.received with
      | .ok message =>
        some { s with
          phase := .responded message
          streaming := message.content.foldl StepStreaming.onContentPart s.streaming }
      | .error text =>
        some (s.chatFails d request attempt (d.emptyResponseError text) aborted)
    | _ => none
  | .fails error aborted =>
    match s.phase with
    | .chatting request attempt => some (s.chatFails d request attempt error aborted)
    | _ => none
  | .wakes =>
    match s.phase with
    | .waiting request attempt =>
      some { s with phase := .chatting request (attempt + 1), received := [] }
    | _ => none
  | .interrupted =>
    match s.phase with
    | .waiting _ _ => some (s.rethrow none)
    | _ => none
  | .rebuilt aborted =>
    match s.phase with
    | .rebuilding => some (if aborted then s.rethrow none else s.resend .strict 1)
    | _ => none
  | .rebuildFails error =>
    match s.phase with
    | .rebuilding => some (s.rethrow (some error))
    | _ => none

end TurnStep

/-! ### What parts say -/

def ContentPart.said : ContentPart → String
  | .text t => t
  | _ => ""

def ContentPart.thought : ContentPart → String
  | .think t _ => t
  | _ => ""

/-- What parts say, in one of the two ways. -/
def spoken (f : ContentPart → String) (parts : List ContentPart) : String := String.join (parts.map f)

def StreamedMessagePart.content? {ι : Type} : StreamedMessagePart ι → Option ContentPart
  | .content part => some part
  | _ => none

/-- What an attempt has streamed. -/
def TurnStep.streamed {ι ε : Type} (s : TurnStep ι ε) (f : ContentPart → String) : String :=
  spoken f (s.received.filterMap StreamedMessagePart.content?)

/-- **What should be recorded**: nothing before the step is over, and in the end what the last
attempt has streamed, once and without anything of the earlier ones. -/
def TurnStep.RecordsLast {ι ε : Type} (s : TurnStep ι ε) : Prop :=
  match s.phase with
  | .responded _ | .thrown _ =>
    spoken ContentPart.said s.streaming.parts = s.streamed ContentPart.said ∧
      spoken ContentPart.thought s.streaming.parts = s.streamed ContentPart.thought
  | _ => s.streaming.parts = []

variable (f : ContentPart → String)

theorem spoken_nil : spoken f [] = "" := join_nil

theorem spoken_singleton (part : ContentPart) : spoken f [part] = f part := by
  simp [spoken]

theorem spoken_append (l l' : List ContentPart) :
    spoken f (l ++ l') = spoken f l ++ spoken f l' := by
  rw [spoken, List.map_append, String.join_append]
  rfl

/-- Parts that are merged say what both of them say. -/
structure Merges (f : ContentPart → String) : Prop where
  text : ∀ t u : String, f (.text (t ++ u)) = f (.text t) ++ f (.text u)
  think : ∀ (t u : String) (encrypted : Option String),
    f (.think (t ++ u) encrypted) = f (.think t none) ++ f (.think u encrypted)

theorem merges_said : Merges ContentPart.said := ⟨fun _ _ => rfl, fun _ _ _ => append_empty.symm⟩

theorem merges_thought : Merges ContentPart.thought :=
  ⟨fun _ _ => append_empty.symm, fun _ _ _ => rfl⟩

/-! ### The message of a stream -/

section

variable {ι : Type} {f : ContentPart → String}

def StreamedMessagePart.speaks (f : ContentPart → String) : StreamedMessagePart ι → String
  | .content part => f part
  | _ => ""

theorem speaks_of_merge (hf : Merges f) {pending part merged : StreamedMessagePart ι}
    (h : mergeInPlace pending part = some merged) :
    merged.speaks f = pending.speaks f ++ part.speaks f := by
  unfold mergeInPlace at h
  split at h
  · cases h
    exact hf.text _ _
  · cases h
    exact hf.think _ _ _
  · cases h
    rfl
  · cases h

namespace Assembly

variable [DecidableEq ι]

theorem spoken_flushPart (a : Assembly ι) (part : StreamedMessagePart ι) :
    spoken f (a.flushPart part).content = spoken f a.content ++ part.speaks f := by
  cases part with
  | content part =>
    rw [flushPart, spoken_append, spoken_singleton]
    rfl
  | toolCall | toolCallPart => exact append_empty.symm

theorem spoken_finish (a : Assembly ι) :
    spoken f a.finish.content =
      spoken f a.content ++ (a.pendingPart.map (StreamedMessagePart.speaks f)).getD "" := by
  unfold finish
  cases a.pendingPart with
  | none => exact append_empty.symm
  | some pending => exact a.spoken_flushPart pending

theorem spoken_acceptNext (hf : Merges f) (a : Assembly ι) (part : StreamedMessagePart ι) :
    spoken f (a.acceptNext part).finish.content = spoken f a.finish.content ++ part.speaks f := by
  rw [spoken_finish, spoken_finish, acceptNext]
  cases hpending : a.pendingPart with
  | none => simp
  | some pending =>
    cases hmerged : mergeInPlace pending part with
    | none => simp [hmerged, spoken_flushPart]
    | some merged => simp [hmerged, speaks_of_merge hf hmerged, append_assoc]

theorem spoken_accept (hf : Merges f) (a : Assembly ι) (part : StreamedMessagePart ι) :
    spoken f (a.accept part).finish.content = spoken f a.finish.content ++ part.speaks f := by
  unfold accept
  split
  · split
    · exact a.spoken_acceptNext hf _
    · split
      · -- the piece goes to a call
        rw [spoken_finish, spoken_finish]
        exact append_empty.symm
      · exact a.spoken_acceptNext hf _
  · exact a.spoken_acceptNext hf _

theorem spoken_foldl (hf : Merges f) (parts : List (StreamedMessagePart ι)) (a : Assembly ι) :
    spoken f (parts.foldl accept a).finish.content =
      spoken f a.finish.content ++ spoken f (parts.filterMap StreamedMessagePart.content?) := by
  induction parts generalizing a with
  | nil => exact append_empty.symm
  | cons part parts ih =>
    rw [List.foldl_cons, ih, a.spoken_accept hf, append_assoc]
    cases part with
    | content part =>
      have hcons : (StreamedMessagePart.content part :: parts).filterMap
          StreamedMessagePart.content? = [part] ++ parts.filterMap _ := rfl
      rw [hcons, spoken_append, spoken_singleton]
      rfl
    | toolCall | toolCallPart => exact congrArg _ empty_append

end Assembly

/-- **A message says what was streamed.** -/
theorem spoken_generate [DecidableEq ι] (hf : Merges f) {info : StreamInfo}
    {parts : List (StreamedMessagePart ι)} {message : Message}
    (h : generate info parts = .ok message) :
    spoken f message.content = spoken f (parts.filterMap StreamedMessagePart.content?) := by
  unfold generate at h
  dsimp only at h
  split at h
  · cases h
  · split at h <;> cases h
    exact (Assembly.spoken_foldl hf parts {}).trans empty_append

end

/-! ### What is pending -/

namespace StepStreaming

theorem onMessagePart_eq {ι : Type} (s : StepStreaming) (part : StreamedMessagePart ι) :
    s.onMessagePart part =
      { s with
        pendingText := s.pendingText ++ part.speaks ContentPart.said
        pendingThinking := s.pendingThinking ++ part.speaks ContentPart.thought } := by
  cases part with
  | content part =>
    cases part <;> simp [onMessagePart, onTextDelta, onThinkDelta, StreamedMessagePart.speaks,
      ContentPart.said, ContentPart.thought]
  | _ => simp [onMessagePart, StreamedMessagePart.speaks]

theorem spoken_emitPart (f : ContentPart → String) (s : StepStreaming) (part : ContentPart) :
    spoken f (s.emitPart part).parts = spoken f s.parts ++ f part := by
  rw [emitPart, spoken_append, spoken_singleton]

/-- The parts of a message are recorded as they are. -/
theorem spoken_replay {f : ContentPart → String} (hf : ∀ part, f part ≠ "" →
    (∃ t, part = .text t) ∨ ∃ t encrypted, part = .think t encrypted)
    (content : List ContentPart) (s : StepStreaming) :
    spoken f (content.foldl onContentPart s).parts = spoken f s.parts ++ spoken f content := by
  induction content generalizing s with
  | nil => exact append_empty.symm
  | cons part content ih =>
    have hpart : spoken f (s.onContentPart part).parts = spoken f s.parts ++ f part := by
      cases part with
      | text | think => exact spoken_emitPart f _ _
      | _ =>
        by_contra hne
        have hsome : f _ ≠ "" := fun hempty => hne (by rw [hempty, append_empty]; rfl)
        rcases hf _ hsome with ⟨t, ht⟩ | ⟨t, encrypted, ht⟩ <;> cases ht
    rw [List.foldl_cons, ih, hpart, append_assoc, ← List.singleton_append (l := content),
      spoken_append, spoken_singleton]

/-- What is pending is recorded. -/
theorem spoken_flushPending (s : StepStreaming) :
    spoken ContentPart.said s.flushPending.parts =
        spoken ContentPart.said s.parts ++ s.pendingText ∧
      spoken ContentPart.thought s.flushPending.parts =
        spoken ContentPart.thought s.parts ++ s.pendingThinking := by
  have hempty : ∀ {t : String}, ¬t.length > 0 → t = "" := fun h => by simpa using h
  unfold flushPending
  dsimp only
  split_ifs with hthinking htext htext
  · simp [spoken_emitPart, discardPending, ContentPart.said, ContentPart.thought]
  · simp [spoken_emitPart, discardPending, ContentPart.said, ContentPart.thought, hempty htext]
  · simp [spoken_emitPart, discardPending, ContentPart.said, ContentPart.thought, hempty hthinking]
  · simp [discardPending, hempty hthinking, hempty htext]

end StepStreaming

/-! ### Every step -/

namespace TurnStep

variable {ι ε : Type} {d : StepDeps ε} {s t : TurnStep ι ε}

/-- What is pending while an attempt goes on: all that it has streamed. -/
def Pending (s : TurnStep ι ε) : Prop :=
  s.streaming = ⟨s.streamed ContentPart.said, s.streamed ContentPart.thought, []⟩

/-- **What holds until the step is over.** -/
def Kept (s : TurnStep ι ε) : Prop :=
  match s.phase with
  | .chatting _ _ | .rebuilding => s.Pending
  | .waiting _ _ => s.streaming = {}
  | .responded _ | .thrown _ => True

/-- **The condition**: no pause is interrupted behind an attempt that has streamed something. -/
def Uninterrupted (s : TurnStep ι ε) : TurnStepEvent ι ε → Prop
  | .interrupted => s.streamed ContentPart.said = "" ∧ s.streamed ContentPart.thought = ""
  | _ => True

instance (s : TurnStep ι ε) (event : TurnStepEvent ι ε) : Decidable (s.Uninterrupted event) :=
  match event with
  | .interrupted => inferInstanceAs (Decidable (_ ∧ _))
  | .part _ | .drained _ | .fails _ _ | .wakes | .rebuilt _ | .rebuildFails _ =>
    inferInstanceAs (Decidable True)

theorem recordsLast_rethrow (h : s.Pending) (error : Option ε) :
    (s.rethrow error).Kept ∧ (s.rethrow error).RecordsLast := by
  obtain ⟨hsaid, hthought⟩ := s.streaming.spoken_flushPending
  have hpending : s.streaming = ⟨_, _, _⟩ := h
  refine ⟨trivial, hsaid.trans ?_, hthought.trans ?_⟩
  all_goals
    rw [hpending, spoken_nil]
    exact empty_append

theorem recordsLast_resend (h : s.Pending) (request : StepRequest) (attempt : ℕ) :
    (s.resend request attempt).Kept ∧ (s.resend request attempt).RecordsLast := by
  have hstreaming : (s.resend request attempt).streaming = {} := by
    unfold resend StepStreaming.discardPending
    rw [h]
  exact ⟨hstreaming, congrArg StepStreaming.parts hstreaming⟩

theorem recordsLast_recover (h : s.Pending) (request : StepRequest) (error : ε) (aborted : Bool) :
    (s.recover d request error aborted).Kept ∧ (s.recover d request error aborted).RecordsLast := by
  unfold recover
  split
  · exact recordsLast_rethrow h _
  · split
    · split
      · exact recordsLast_rethrow h _
      · exact recordsLast_resend h _ _
    · split
      · exact recordsLast_rethrow h _
      · split
        · exact recordsLast_rethrow h _
        · exact ⟨h, congrArg StepStreaming.parts h⟩

theorem recordsLast_chatFails (h : s.Pending) (request : StepRequest) (attempt : ℕ) (error : ε)
    (aborted : Bool) : (s.chatFails d request attempt error aborted).Kept ∧
      (s.chatFails d request attempt error aborted).RecordsLast := by
  unfold chatFails
  dsimp only
  split
  · exact recordsLast_recover h _ _ _
  · split
    · exact recordsLast_recover h _ _ _
    · split
      · exact recordsLast_rethrow h _
      · have hstreaming : s.streaming.discardPending = {} := by
          rw [h]
          rfl
        exact ⟨hstreaming, congrArg StepStreaming.parts hstreaming⟩

theorem Pending.part (h : s.Pending) (part : StreamedMessagePart ι) :
    Pending { s with
      streaming := s.streaming.onMessagePart part, received := s.received ++ [part] } := by
  have hstreamed : ∀ f, streamed { s with received := s.received ++ [part] } f =
      s.streamed f ++ part.speaks f := by
    intro f
    have hlast : spoken f ([part].filterMap StreamedMessagePart.content?) = part.speaks f := by
      cases part with
      | content part => exact spoken_singleton f part
      | _ => rfl
    rw [streamed, List.filterMap_append, spoken_append, hlast]
    rfl
  have hpending : s.streaming = ⟨_, _, _⟩ := h
  rw [StepStreaming.onMessagePart_eq, hpending]
  exact congrArg₂ (StepStreaming.mk · · []) (hstreamed _).symm (hstreamed _).symm

theorem Pending.responded [DecidableEq ι] (h : s.Pending) {message : Message}
    (hmessage : generate d.info s.received = .ok message) :
    RecordsLast ({ s with
      phase := .responded message
      streaming := message.content.foldl StepStreaming.onContentPart s.streaming } :
        TurnStep ι ε) := by
  have hparts : ∀ f, spoken f s.streaming.parts = "" := by
    intro f
    rw [show s.streaming = ⟨_, _, _⟩ from h]
    exact spoken_nil f
  refine ⟨?_, ?_⟩
  · refine (StepStreaming.spoken_replay (fun part hpart => ?_) _ _).trans ?_
    · cases part with
      | text t => exact Or.inl ⟨t, rfl⟩
      | _ => exact absurd rfl hpart
    · rw [hparts, empty_append]
      exact spoken_generate merges_said hmessage
  · refine (StepStreaming.spoken_replay (fun part hpart => ?_) _ _).trans ?_
    · cases part with
      | think t encrypted => exact Or.inr ⟨t, encrypted, rfl⟩
      | _ => exact absurd rfl hpart
    · rw [hparts, empty_append]
      exact spoken_generate merges_thought hmessage

theorem recordsLast_step [DecidableEq ι] {event : TurnStepEvent ι ε} (h : s.Kept)
    (ht : s.step d event = some t) : t.Kept ∧ (t.RecordsLast ↔ s.Uninterrupted event) := by
  have htrue : ∀ {u : TurnStep ι ε}, u.Kept ∧ u.RecordsLast → u.Kept ∧ (u.RecordsLast ↔ True) :=
    fun hboth => ⟨hboth.1, iff_true_intro hboth.2⟩
  cases hphase : s.phase with
  | chatting request attempt =>
    have hpending : s.Pending := by simpa only [Kept, hphase] using h
    cases event with
    | part part =>
      simp only [step, hphase] at ht
      cases ht
      have hnext := hpending.part part
      refine htrue ⟨?_, ?_⟩
      · simpa only [Kept, hphase] using hnext
      · simpa only [RecordsLast, hphase] using congrArg StepStreaming.parts hnext
    | drained aborted =>
      simp only [step, hphase] at ht
      cases hmessage : generate d.info s.received with
      | ok message =>
        rw [hmessage] at ht
        cases ht
        exact htrue ⟨trivial, hpending.responded hmessage⟩
      | error text =>
        rw [hmessage] at ht
        cases ht
        exact htrue (recordsLast_chatFails hpending _ _ _ _)
    | fails error aborted =>
      simp only [step, hphase] at ht
      cases ht
      exact htrue (recordsLast_chatFails hpending _ _ _ _)
    | _ => simp [step, hphase] at ht
  | waiting request attempt =>
    have hstreaming : s.streaming = {} := by simpa only [Kept, hphase] using h
    cases event with
    | wakes =>
      simp only [step, hphase] at ht
      cases ht
      exact htrue ⟨hstreaming, congrArg StepStreaming.parts hstreaming⟩
    | interrupted =>
      simp only [step, hphase] at ht
      cases ht
      refine ⟨trivial, ?_⟩
      have hparts : (s.rethrow none).streaming.parts = [] := by
        rw [rethrow, hstreaming]
        rfl
      change spoken _ (s.rethrow none).streaming.parts = _ ∧ spoken _ _ = _ ↔ _
      rw [hparts, spoken_nil, spoken_nil]
      exact and_congr eq_comm eq_comm
    | _ => simp [step, hphase] at ht
  | rebuilding =>
    have hpending : s.Pending := by simpa only [Kept, hphase] using h
    cases event with
    | rebuilt aborted =>
      simp only [step, hphase] at ht
      cases ht
      cases aborted with
      | true => exact htrue (recordsLast_rethrow hpending none)
      | false => exact htrue (recordsLast_resend hpending .strict 1)
    | rebuildFails error =>
      simp only [step, hphase] at ht
      cases ht
      exact htrue (recordsLast_rethrow hpending (some error))
    | _ => simp [step, hphase] at ht
  | _ => cases event <;> simp [step, hphase] at ht

/-- **What was streamed is recorded**, exactly in the runs in which no pause is interrupted behind
an attempt that has streamed something. -/
theorem recordsLast_iff [DecidableEq ι] (d : StepDeps ε) {events : List (TurnStepEvent ι ε)}
    (h : (exec (step d) {} events).isSome) :
    LibRun.Legal (step d) Uninterrupted {} events ↔
      ∀ before, before <+: events → ∀ t ∈ exec (step d) {} before, t.RecordsLast := by
  refine legal_iff (K := Kept) (fun t event u ht hu => (recordsLast_step ht hu).1)
    (fun t event u ht _ hu => (recordsLast_step ht hu).2) ?_ ?_ h
  · exact congrArg₂ (StepStreaming.mk · · []) (spoken_nil _).symm (spoken_nil _).symm
  · rfl

/-- Every error is worth a retry. -/
def retryingDeps : StepDeps Unit where
  messages := []
  buildMessagesStrict := false
  maxRetryAttempts := none
  isRetryableError := some fun _ => true
  isRecoverableMediaRequestError := fun _ => false
  isRecoverableRequestStructureError := fun _ => false
  emptyResponseError := fun _ => ()
  info := ⟨"", "", none, none⟩

/-- The second attempt answers. -/
def retried : List (TurnStepEvent ℕ Unit) :=
  [.part (.content (.text "Hel")), .fails () false, .wakes, .part (.content (.text "Hello")),
    .drained false]

theorem recordsLast_iff_retried : ∃ t ∈ exec (step retryingDeps) {} retried, t.RecordsLast := by
  obtain ⟨t, ht⟩ : ∃ t, exec (step retryingDeps) {} retried = some t :=
    Option.isSome_iff_exists.1 (by decide +kernel)
  exact ⟨t, ht, (recordsLast_iff _ (by decide +kernel)).1 (by decide +kernel) _ List.prefix_rfl t ht⟩

/-- The user stops the turn during the pause: the text that was shown is gone. -/
theorem pause_interrupted :
    ∃ t, LibRun.Run (@step ℕ Unit _ retryingDeps) always {}
        [.part (.content (.text "Hello")), .fails () false, .interrupted] t ∧ ¬t.RecordsLast := by
  refine ⟨rethrow { streaming := {}, received := [.content (.text "Hello")] } none,
    run_of_exec rfl (legal_always _ _), ?_⟩
  rintro ⟨hsaid, -⟩
  exact absurd hsaid (by decide +kernel)

end TurnStep

end NoriCode
