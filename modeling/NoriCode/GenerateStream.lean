/-
**One message out of a stream of parts.**

A provider streams text, thoughts, headers of tool calls and pieces of their arguments.  The parts
are merged as they come: a pending part takes what continues it and is flushed into the message when
something else comes.  Calls may run in parallel, so a piece of arguments can name the index of its
call; then it goes to the call that was announced with this index.

The module embeds `generate` of `packages/kosong/src/generate.ts` and `mergeInPlace` of
`message.ts`.  The stream is a list of parts.  Aborts, times, usage and the extras of a call, which
are handed through, are left out.

Main definitions:

* `StreamedMessagePart`, `mergeInPlace` — parts, and how one continues another;
* `Assembly`, with `flushPart` and `accept`;
* `generate` — the message;
* `Assembly.assembled`, `Assembly.route` — the calls so far, and the one a piece
  goes to.

Main results:

* `Assembly.assembled_accept_toolCallPart` — **where a piece of arguments goes**;
* `generate_toolCalls` — a message has the calls of its stream.
-/

import NoriCode.Message

namespace NoriCode

open List Option Function

/-- A single chunk of a streamed message. Indices are whatever a provider counts its calls with. -/
inductive StreamedMessagePart (ι : Type)
  | content (part : ContentPart)
  | toolCall (call : ToolCall) (streamIndex : Option ι)
  | toolCallPart (argumentsPart : Option String) (index : Option ι)

namespace StreamedMessagePart

variable {ι : Type}

def isToolCall : StreamedMessagePart ι → Bool
  | .toolCall _ _ => true
  | _ => false

def isToolCallPart : StreamedMessagePart ι → Bool
  | .toolCallPart _ _ => true
  | _ => false

end StreamedMessagePart

/-- The arguments of a call with a piece behind them. -/
def ToolCall.appendArguments (argumentsPart : Option String) (call : ToolCall) : ToolCall :=
  match argumentsPart with
  | none => call
  | some text =>
    { call with
      arguments := some (match call.arguments with | none => text | some old => old ++ text) }

/-- The part `target` continued by `source`, if it can be. -/
def mergeInPlace {ι : Type} :
    StreamedMessagePart ι → StreamedMessagePart ι → Option (StreamedMessagePart ι)
  | .content (.text target), .content (.text source) => some (.content (.text (target ++ source)))
  | .content (.think target none), .content (.think source encrypted) =>
    some (.content (.think (target ++ source) encrypted))
  | .toolCall call streamIndex, .toolCallPart argumentsPart _ =>
    some (.toolCall (call.appendArguments argumentsPart) streamIndex)
  | _, _ => none

/-- The message so far, the pending part, and where the calls with an index stand. -/
structure Assembly (ι : Type) where
  content : List ContentPart := []
  toolCalls : List ToolCall := []
  pendingPart : Option (StreamedMessagePart ι) := none
  toolCallIndexMap : ι → Option ℕ := fun _ => none

namespace Assembly

variable {ι : Type} [DecidableEq ι]

def isPendingToolCallAtIndex (pending : Option (StreamedMessagePart ι)) (index : ι) : Bool :=
  match pending with
  | some (.toolCall _ streamIndex) => decide (streamIndex = some index)
  | _ => false

def flushPart (a : Assembly ι) : StreamedMessagePart ι → Assembly ι
  | .content part => { a with content := a.content ++ [part] }
  | .toolCall call streamIndex =>
    { a with
      toolCalls := a.toolCalls ++ [call]
      toolCallIndexMap :=
        match streamIndex with
        | some index => update a.toolCallIndexMap index (some a.toolCalls.length)
        | none => a.toolCallIndexMap }
  | .toolCallPart _ _ => a

/-- The part is merged into the pending one, or it becomes the pending one. -/
def acceptNext (a : Assembly ι) (part : StreamedMessagePart ι) : Assembly ι :=
  match a.pendingPart with
  | none => { a with pendingPart := some part }
  | some pending =>
    match mergeInPlace pending part with
    | some merged => { a with pendingPart := some merged }
    | none => { a.flushPart pending with pendingPart := some part }

/-- One part of the stream. -/
def accept (a : Assembly ι) (part : StreamedMessagePart ι) : Assembly ι :=
  match part with
  | .toolCallPart argumentsPart (some index) =>
    if isPendingToolCallAtIndex a.pendingPart index then a.acceptNext part
    else
      match a.toolCallIndexMap index with
      | some arrayIdx =>
        { a with
          toolCalls := a.toolCalls.modify arrayIdx (ToolCall.appendArguments argumentsPart) }
      | none => a.acceptNext part
  | _ => a.acceptNext part

/-- The last pending part is flushed. -/
def finish (a : Assembly ι) : Assembly ι :=
  match a.pendingPart with
  | some pending => a.flushPart pending
  | none => a

end Assembly

/-! ### The message -/

/-- What the error for an empty response says about the stream. -/
structure StreamInfo where
  providerName : String
  modelName : String
  finishReason : Option String
  rawFinishReason : Option String

def formatFinishReasonHint (info : StreamInfo) : String :=
  if info.finishReason = none ∧ info.rawFinishReason = none then ""
  else
    let raw := match info.rawFinishReason with
      | none => ""
      | some reason => s!", rawFinishReason={reason}"
    let filteredHint :=
      if info.finishReason = some "filtered" then
        " The provider filtered the response before visible output was emitted."
      else ""
    let finishReason := info.finishReason.getD "unknown"
    s!" Provider stop details: finishReason={finishReason}{raw}.{filteredHint}"

/-- The message of a stream, or the text of an `APIEmptyResponseError`. -/
def generate {ι : Type} [DecidableEq ι] (info : StreamInfo) (parts : List (StreamedMessagePart ι)) :
    Except String Message :=
  let a := (parts.foldl Assembly.accept {}).finish
  let hint := formatFinishReasonHint info
  if a.content.length = 0 ∧ a.toolCalls.length = 0 then
    .error ("The API returned an empty response (no content, no tool calls)." ++ hint ++
      s!" Provider: {info.providerName}, model: {info.modelName}")
  else
    let hasThink := a.content.any fun part => match part with | .think _ _ => true | _ => false
    let hasText := a.content.any fun part => part.isText && !part.isBlank
    let hasToolCalls := decide (a.toolCalls.length > 0)
    if hasThink && !hasText && !hasToolCalls then
      .error ("The API returned a response containing only thinking content without any text or " ++
        "tool calls. This usually indicates the stream was interrupted or the output token budget " ++
        "was exhausted during reasoning." ++ hint ++
        s!" Provider: {info.providerName}, model: {info.modelName}")
    else .ok { role := .assistant, content := a.content, toolCalls := a.toolCalls }

/-! ### Where the parts go -/

namespace Assembly

variable {ι : Type} [DecidableEq ι]

/-- The calls that the message has if the stream ends here. -/
def assembled (a : Assembly ι) : List ToolCall := a.finish.toolCalls

/-- Where the last call with an index stands. -/
def target (a : Assembly ι) : ι → Option ℕ := a.finish.toolCallIndexMap

/-- The pending part is a call. -/
def callOpen (a : Assembly ι) : Bool := a.pendingPart.any (·.isToolCall)

/-- The call that a piece of arguments goes to. -/
def route (a : Assembly ι) (index : Option ι) : Option ℕ :=
  (index.bind a.target).orElse fun _ => if a.callOpen then some a.toolCalls.length else none

variable {a : Assembly ι}

theorem acceptNext_of_not_merged {part : StreamedMessagePart ι}
    (h : ∀ pending, a.pendingPart = some pending → mergeInPlace pending part = none) :
    a.acceptNext part = { a.finish with pendingPart := some part } := by
  unfold acceptNext finish
  cases hpending : a.pendingPart with
  | none => rfl
  | some pending =>
    simp [h pending hpending]

section

variable (a : Assembly ι) (call : ToolCall) (streamIndex : Option ι)

theorem accept_toolCall :
    a.accept (.toolCall call streamIndex) =
      { a.finish with pendingPart := some (.toolCall call streamIndex) } := by
  refine acceptNext_of_not_merged fun pending _ => ?_
  cases pending with
  | content part =>
    cases part with
    | think think encrypted => cases encrypted <;> rfl
    | _ => rfl
  | toolCall | toolCallPart => rfl

theorem assembled_accept_toolCall :
    (a.accept (.toolCall call streamIndex)).assembled = a.assembled ++ [call] := by
  rw [accept_toolCall]
  rfl

theorem target_accept_toolCall :
    (a.accept (.toolCall call streamIndex)).target =
      match streamIndex with
      | some index => update a.target index (some a.assembled.length)
      | none => a.target := by
  rw [accept_toolCall]
  cases streamIndex <;> rfl

end

theorem finish_of_not_call (a : Assembly ι) {part : StreamedMessagePart ι}
    (hpart : part.isToolCall = false) :
    ({ a with pendingPart := some part } : Assembly ι).assembled = a.toolCalls ∧
      ({ a with pendingPart := some part } : Assembly ι).target = a.toolCallIndexMap := by
  cases part with
  | content | toolCallPart => exact ⟨rfl, rfl⟩
  | toolCall call streamIndex => cases hpart

theorem finish_eq_of_not_open (h : a.callOpen = false) :
    a.assembled = a.toolCalls ∧ a.target = a.toolCallIndexMap := by
  cases hpending : a.pendingPart with
  | none =>
    unfold assembled target finish
    rw [hpending]
    exact ⟨rfl, rfl⟩
  | some pending =>
    have hpart : pending.isToolCall = false := by
      unfold callOpen at h
      rw [hpending] at h
      exact h
    have hsame := finish_of_not_call a hpart
    rwa [← hpending] at hsame

theorem accept_content (a : Assembly ι) (part : ContentPart) :
    (a.accept (.content part)).assembled = a.assembled ∧
      (a.accept (.content part)).target = a.target ∧
        (a.accept (.content part)).callOpen = false := by
  change (a.acceptNext (.content part)).assembled = a.assembled ∧
    (a.acceptNext (.content part)).target = a.target ∧
      (a.acceptNext (.content part)).callOpen = false
  by_cases hmerge : ∃ pending merged, a.pendingPart = some pending ∧
      mergeInPlace pending (.content part) = some merged
  · -- both parts are content then
    obtain ⟨pending, merged, hpending, hmerged⟩ := hmerge
    have hparts : pending.isToolCall = false ∧ merged.isToolCall = false := by
      unfold mergeInPlace at hmerged
      split at hmerged <;> cases hmerged <;> first | exact ⟨rfl, rfl⟩ | contradiction
    have hnext : a.acceptNext (.content part) = { a with pendingPart := some merged } := by
      unfold acceptNext
      rw [hpending]
      simp [hmerged]
    have hopen : a.callOpen = false := by
      unfold callOpen
      rw [hpending]
      exact hparts.1
    obtain ⟨hcalls, htarget⟩ := finish_eq_of_not_open hopen
    obtain ⟨hcalls', htarget'⟩ := finish_of_not_call a hparts.2
    rw [hnext, hcalls, hcalls', htarget, htarget']
    exact ⟨rfl, rfl, hparts.2⟩
  · have hnext : a.acceptNext (.content part) =
        { a.finish with pendingPart := some (.content part) } := by
      refine acceptNext_of_not_merged fun pending hpending => ?_
      cases hmerged : mergeInPlace pending (.content part) with
      | none => rfl
      | some merged => exact absurd ⟨pending, merged, hpending, hmerged⟩ hmerge
    rw [hnext]
    exact ⟨rfl, rfl, rfl⟩

/-! ### Pieces of arguments -/

/-- The indices point into the calls that were flushed. -/
def Bounded (a : Assembly ι) : Prop :=
  ∀ (index : ι) (n : ℕ), a.toolCallIndexMap index = some n → n < a.toolCalls.length

variable {call : ToolCall} {streamIndex : Option ι}

theorem finish_of_pending (h : a.pendingPart = some (.toolCall call streamIndex)) :
    a.finish = a.flushPart (.toolCall call streamIndex) := by
  unfold finish
  rw [h]

theorem acceptNext_of_pending
    (h : a.pendingPart = some (.toolCall call streamIndex)) (argumentsPart : Option String)
    (index : Option ι) :
    a.acceptNext (.toolCallPart argumentsPart index) =
      { a with pendingPart := some (.toolCall (call.appendArguments argumentsPart) streamIndex) } := by
  unfold acceptNext
  rw [h]
  rfl

theorem assembled_of_open (h : a.callOpen = true) :
    ∃ call, a.assembled = a.toolCalls ++ [call] := by
  obtain ⟨pending, hpending, hcall⟩ := (any_eq_true _ _).1 h
  cases pending with
  | content | toolCallPart => cases hcall
  | toolCall call streamIndex =>
    refine ⟨call, ?_⟩
    unfold assembled
    rw [finish_of_pending hpending]
    rfl

theorem accept_pending
    (h : a.pendingPart = some (.toolCall call streamIndex)) (argumentsPart : Option String)
    (index : Option ι) :
    (a.acceptNext (.toolCallPart argumentsPart index)).assembled =
        a.assembled.modify a.toolCalls.length (ToolCall.appendArguments argumentsPart) ∧
      (a.acceptNext (.toolCallPart argumentsPart index)).target = a.target ∧
        (a.acceptNext (.toolCallPart argumentsPart index)).callOpen = a.callOpen := by
  rw [acceptNext_of_pending h]
  unfold assembled target callOpen
  rw [finish_of_pending h, h]
  refine ⟨?_, rfl, rfl⟩
  change a.toolCalls ++ [call.appendArguments argumentsPart] =
    (a.toolCalls ++ [call]).modify a.toolCalls.length (ToolCall.appendArguments argumentsPart)
  rw [modify_eq_take_cons_drop (by simp)]
  simp

theorem accept_orphan (h : a.callOpen = false) (argumentsPart : Option String) (index : Option ι) :
    (a.acceptNext (.toolCallPart argumentsPart index)).assembled = a.assembled ∧
      (a.acceptNext (.toolCallPart argumentsPart index)).target = a.target ∧
        (a.acceptNext (.toolCallPart argumentsPart index)).callOpen = a.callOpen := by
  rw [acceptNext_of_not_merged, h]
  · exact ⟨rfl, rfl, rfl⟩
  · intro pending hpending
    unfold callOpen at h
    rw [hpending] at h
    cases pending with
    | content part =>
      cases part with
      | think think encrypted => cases encrypted <;> rfl
      | _ => rfl
    | toolCall call streamIndex => cases h
    | toolCallPart argumentsPart' index' => rfl

theorem accept_flushed (f : ToolCall → ToolCall) {n : ℕ} (hn : n < a.toolCalls.length) :
    ({ a with toolCalls := a.toolCalls.modify n f } : Assembly ι).assembled =
        a.assembled.modify n f ∧
      ({ a with toolCalls := a.toolCalls.modify n f } : Assembly ι).target = a.target := by
  unfold assembled target finish
  cases hpending : a.pendingPart with
  | none => exact ⟨rfl, rfl⟩
  | some pending =>
    cases pending with
    | content | toolCallPart => exact ⟨rfl, rfl⟩
    | toolCall call streamIndex =>
      constructor
      · change a.toolCalls.modify n f ++ [call] = (a.toolCalls ++ [call]).modify n f
        refine ext_getElem? fun i => ?_
        rw [getElem?_modify, getElem?_append, getElem?_append, getElem?_modify, length_modify]
        split
        · rfl
        · have hni : n ≠ i := by omega
          simp [hni]
      · cases streamIndex with
        | none => rfl
        | some index =>
          change update a.toolCallIndexMap index (some (a.toolCalls.modify n f).length) =
            update a.toolCallIndexMap index (some a.toolCalls.length)
          rw [length_modify]

/-- **Where a piece of arguments goes**: to the call of its index, else to the open call. -/
theorem assembled_accept_toolCallPart (h : a.Bounded)
    (argumentsPart : Option String) (index : Option ι) :
    (a.accept (.toolCallPart argumentsPart index)).assembled = (match a.route index with
          | some n => a.assembled.modify n (ToolCall.appendArguments argumentsPart)
          | none => a.assembled) ∧
      (a.accept (.toolCallPart argumentsPart index)).target = a.target ∧
        (a.accept (.toolCallPart argumentsPart index)).callOpen = a.callOpen := by
  -- a piece that names no call with an index goes on to the open call, if there is one
  have hnext : ∀ (index' : Option ι),
      (a.acceptNext (.toolCallPart argumentsPart index')).assembled =
          (match if a.callOpen then some a.toolCalls.length else none with
            | some n => a.assembled.modify n (ToolCall.appendArguments argumentsPart)
            | none => a.assembled) ∧
        (a.acceptNext (.toolCallPart argumentsPart index')).target = a.target ∧
          (a.acceptNext (.toolCallPart argumentsPart index')).callOpen = a.callOpen := by
    intro index'
    cases hopen : a.callOpen with
    | false =>
      obtain ⟨hcalls, htarget, hopen'⟩ := accept_orphan hopen argumentsPart index'
      exact ⟨hcalls, htarget, hopen'.trans hopen⟩
    | true =>
      obtain ⟨pending, hpending, hcall⟩ := (any_eq_true _ _).1 hopen
      cases pending with
      | content | toolCallPart => cases hcall
      | toolCall call streamIndex =>
        obtain ⟨hcalls, htarget, hopen'⟩ := accept_pending hpending argumentsPart index'
        exact ⟨hcalls, htarget, hopen'.trans hopen⟩
  cases index with
  | none => exact hnext none
  | some index =>
    have htarget : a.target index =
        if isPendingToolCallAtIndex a.pendingPart index then some a.toolCalls.length
        else a.toolCallIndexMap index := by
      unfold target finish
      cases a.pendingPart with
      | none => rfl
      | some pending =>
        cases pending with
        | content | toolCallPart => rfl
        | toolCall call streamIndex =>
          cases streamIndex with
          | none => rfl
          | some index' =>
            by_cases heq : index' = index
            · subst heq
              simp [flushPart, isPendingToolCallAtIndex]
            · simp [flushPart, isPendingToolCallAtIndex, heq, Ne.symm heq]
    by_cases hpending : isPendingToolCallAtIndex a.pendingPart index = true
    · -- the open call has this index
      have hopen : a.callOpen = true := by
        unfold isPendingToolCallAtIndex at hpending
        unfold callOpen
        split at hpending
        · rename_i hcall
          rw [hcall]
          rfl
        · cases hpending
      have haccept : a.accept (.toolCallPart argumentsPart (some index)) =
          a.acceptNext (.toolCallPart argumentsPart (some index)) := if_pos hpending
      have hroute : a.route (some index) = some a.toolCalls.length := by
        unfold route
        rw [bind_some, htarget, if_pos hpending]
        rfl
      have hopenRoute := hnext (some index)
      rw [hopen, if_pos rfl] at hopenRoute
      rw [haccept, hroute, hopen]
      exact hopenRoute
    · rw [if_neg hpending] at htarget
      cases hmap : a.toolCallIndexMap index with
      | some n =>
        have haccept : a.accept (.toolCallPart argumentsPart (some index)) =
            { a with
              toolCalls := a.toolCalls.modify n (ToolCall.appendArguments argumentsPart) } := by
          refine (if_neg hpending).trans ?_
          rw [hmap]
        have hroute : a.route (some index) = some n := by
          unfold route
          rw [bind_some, htarget, hmap]
          rfl
        obtain ⟨hcalls, hsame⟩ :=
          accept_flushed (ToolCall.appendArguments argumentsPart) (h index n hmap)
        rw [haccept, hroute]
        exact ⟨hcalls, hsame, rfl⟩
      | none =>
        have haccept : a.accept (.toolCallPart argumentsPart (some index)) =
            a.acceptNext (.toolCallPart argumentsPart (some index)) := by
          refine (if_neg hpending).trans ?_
          rw [hmap]
        have hroute : a.route (some index) =
            if a.callOpen then some a.toolCalls.length else none := by
          unfold route
          rw [bind_some, htarget, hmap]
          rfl
        rw [haccept, hroute]
        exact hnext (some index)

/-! ### The indices stay inside -/

theorem Bounded.finish (h : a.Bounded) : a.finish.Bounded := by
  cases hpending : a.pendingPart with
  | none =>
    unfold Assembly.finish
    rw [hpending]
    exact h
  | some pending =>
    unfold Assembly.finish
    rw [hpending]
    cases pending with
    | content | toolCallPart => exact h
    | toolCall call streamIndex =>
      intro index n hn
      change n < (a.toolCalls ++ [call]).length
      rw [length_append, length_singleton]
      cases streamIndex with
      | none => exact Nat.lt_succ_of_lt (h index n hn)
      | some index' =>
        change update a.toolCallIndexMap index' (some a.toolCalls.length) index = some n at hn
        by_cases heq : index = index'
        · rw [heq, update_self] at hn
          exact some.inj hn ▸ Nat.lt_succ_self _
        · rw [update_of_ne heq] at hn
          exact Nat.lt_succ_of_lt (h index n hn)

theorem Bounded.acceptNext (h : a.Bounded) (part : StreamedMessagePart ι) :
    (a.acceptNext part).Bounded := by
  cases hpending : a.pendingPart with
  | none =>
    unfold Assembly.acceptNext
    rw [hpending]
    exact h
  | some pending =>
    cases hmerged : mergeInPlace pending part with
    | some merged =>
      unfold Assembly.acceptNext
      rw [hpending]
      simp only [hmerged]
      exact h
    | none =>
      have hnext : a.acceptNext part = { a.finish with pendingPart := some part } := by
        refine acceptNext_of_not_merged fun pending' hpending' => ?_
        rw [← some.inj (hpending.symm.trans hpending')]
        exact hmerged
      rw [hnext]
      exact h.finish

theorem Bounded.accept (h : a.Bounded) (part : StreamedMessagePart ι) :
    (a.accept part).Bounded := by
  unfold Assembly.accept
  split
  · split
    · exact h.acceptNext _
    · split
      · intro index' n hn
        rw [length_modify]
        exact h index' n hn
      · exact h.acceptNext _
  · exact h.acceptNext _

end Assembly

/-- **A message has the calls of its stream**; without calls there may be no message. -/
theorem generate_toolCalls {ι : Type} [DecidableEq ι] {info : StreamInfo}
    {parts : List (StreamedMessagePart ι)} {message : Message}
    (h : generate info parts = .ok message) :
    message.toolCalls = (parts.foldl Assembly.accept {}).assembled := by
  unfold generate at h
  dsimp only at h
  split at h
  · cases h
  · split at h
    · cases h
    · rw [← Except.ok.inj h]
      rfl

theorem exists_generate {ι : Type} [DecidableEq ι] (info : StreamInfo)
    {parts : List (StreamedMessagePart ι)}
    (h : (parts.foldl Assembly.accept {}).assembled ≠ []) :
    ∃ message, generate info parts = .ok message := by
  have hlength : 0 < (parts.foldl Assembly.accept {}).finish.toolCalls.length := length_pos_iff.2 h
  unfold generate
  rw [if_neg (by omega), decide_eq_true hlength, if_neg (by simp)]
  exact ⟨_, rfl⟩

end NoriCode
