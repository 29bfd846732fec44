/-
**Tool calls out of streamed deltas.**

A provider that speaks Chat Completions streams its tool calls in deltas.  Each delta names the
index of its call; the name, the id and the pieces of the arguments may come in different deltas,
and the deltas of several calls in any order.  The converter keeps what comes for an index before
its name.  The first delta with a name becomes the header of a call, and later pieces are passed on
with their index, from which the message is assembled in `GenerateStream`.

The module embeds `convertChatCompletionStreamToolCall` of
`kosong/src/providers/chat-completions-stream.ts` and the part of the stream loops of
`openai-legacy.ts` and `kimi.ts` that calls it.  The reasoning text is what was found in the delta.
Random ids are numbered in the order in which they are drawn.

Main definitions:

* `convertChatCompletionStreamToolCall` — the parts of a delta;
* `convertStreamResponse` — the parts of a stream;
* `deltasAt`, `IsCallOf` — what came for an index, and the call it makes up.

Main results:

* `Converted.toolCall` — one delta keeps what is known of the earlier ones;
* `generate_convertStreamResponse` — **one call for each index**, with the pieces of this
  index and no others.
-/

import NoriCode.ToolCallDeltas

namespace NoriCode

open List Option Function Assembly

structure ChatCompletionStreamToolFunctionDelta where
  name : Option String := none
  arguments : Option String := none

structure ChatCompletionStreamToolCallDelta (ι : Type) where
  index : Option ι := none
  id : Option String := none
  function : Option ChatCompletionStreamToolFunctionDelta := none

structure BufferedChatCompletionToolCall where
  id : Option String := none
  arguments : String := ""
  emitted : Bool := false

/-- What the converter keeps between two deltas; `drawn` counts the random ids. -/
structure ToolCallBuffers (ι : Type) where
  bufferedByIndex : ι → Option BufferedChatCompletionToolCall := fun _ => none
  drawn : ℕ := 0

/-- A text that is there and not empty. -/
def concrete (text : Option String) : Option String := text.filter (· ≠ "")

section

variable {ι : Type} [DecidableEq ι]

namespace ToolCallBuffers

/-- What is kept for an index. -/
def bufferedAt (s : ToolCallBuffers ι) (index : ι) : BufferedChatCompletionToolCall :=
  (s.bufferedByIndex index).getD {}

def set (s : ToolCallBuffers ι) (index : ι) (buffered : BufferedChatCompletionToolCall) :
    ToolCallBuffers ι :=
  { s with bufferedByIndex := update s.bufferedByIndex index (some buffered) }

/-- The id, or a random one. -/
def idOr (s : ToolCallBuffers ι) (randomUUID : ℕ → String) (id : Option String) :
    String × ToolCallBuffers ι :=
  match id with
  | some id => (id, s)
  | none => (randomUUID s.drawn, { s with drawn := s.drawn + 1 })

end ToolCallBuffers

/-- A delta that names the index of its call. -/
def convertIndexed (randomUUID : ℕ → String) (streamIndex : ι) (id : Option String)
    (function : ChatCompletionStreamToolFunctionDelta) (s : ToolCallBuffers ι) :
    List (StreamedMessagePart ι) × ToolCallBuffers ι :=
  let old := s.bufferedAt streamIndex
  let buffered := { old with id := id.or old.id }
  if buffered.emitted then
    (match concrete function.arguments with
      | some argumentsPart => [.toolCallPart (some argumentsPart) (some streamIndex)]
      | none => [],
    s.set streamIndex buffered)
  else
    match concrete function.name with
    | none =>
      ([], s.set streamIndex
        { buffered with
          arguments := buffered.arguments ++ (concrete function.arguments).getD "" })
    | some name =>
      let initialArguments :=
        if buffered.arguments.length > 0 then
          some (buffered.arguments ++ function.arguments.getD "")
        else function.arguments
      let drawn := (s.set streamIndex { buffered with emitted := true, arguments := "" }).idOr
        randomUUID (buffered.id.or id)
      ([.toolCall { id := drawn.1, name, arguments := initialArguments } (some streamIndex)],
        drawn.2)

/-- The parts of a delta, and what is kept behind it. -/
def convertChatCompletionStreamToolCall (randomUUID : ℕ → String)
    (toolCall : ChatCompletionStreamToolCallDelta ι) (s : ToolCallBuffers ι) :
    List (StreamedMessagePart ι) × ToolCallBuffers ι :=
  match toolCall.function with
  | none => ([], s)
  | some function =>
    match toolCall.index with
    | some streamIndex => convertIndexed randomUUID streamIndex toolCall.id function s
    | none =>
      match concrete function.name, concrete function.arguments with
      | some name, _ =>
        let drawn := s.idOr randomUUID toolCall.id
        ([.toolCall { id := drawn.1, name, arguments := function.arguments } none], drawn.2)
      | none, some argumentsPart => ([.toolCallPart (some argumentsPart) none], s)
      | none, none => ([], s)

/-- The delta of a chunk; `reasoning` is the text that `extractReasoningContent` finds in it. -/
structure ChatCompletionDelta (ι : Type) where
  reasoning : Option String := none
  content : Option String := none
  toolCalls : List (ChatCompletionStreamToolCallDelta ι) := []

def convertToolCalls (randomUUID : ℕ → String) :
    List (ChatCompletionStreamToolCallDelta ι) → ToolCallBuffers ι →
      List (StreamedMessagePart ι) × ToolCallBuffers ι
  | [], s => ([], s)
  | toolCall :: toolCalls, s =>
    let first := convertChatCompletionStreamToolCall randomUUID toolCall s
    let rest := convertToolCalls randomUUID toolCalls first.2
    (first.1 ++ rest.1, rest.2)

/-- The text parts of a delta. -/
def ChatCompletionDelta.contents (delta : ChatCompletionDelta ι) : List ContentPart :=
  ((concrete delta.reasoning).map fun think => ContentPart.think think none).toList ++
    ((concrete delta.content).map ContentPart.text).toList

def convertDeltas (randomUUID : ℕ → String) :
    List (ChatCompletionDelta ι) → ToolCallBuffers ι → List (StreamedMessagePart ι)
  | [], _ => []
  | delta :: deltas, s =>
    let toolCalls := convertToolCalls randomUUID delta.toolCalls s
    delta.contents.map .content ++ toolCalls.1 ++ convertDeltas randomUUID deltas toolCalls.2

/-- The parts of a stream. -/
def convertStreamResponse (randomUUID : ℕ → String) (deltas : List (ChatCompletionDelta ι)) :
    List (StreamedMessagePart ι) :=
  convertDeltas randomUUID deltas {}

/-! ### What came for an index -/

/-- A delta of a call: the id and the function in it. -/
abbrev FunctionDelta := Option String × ChatCompletionStreamToolFunctionDelta

/-- The deltas with a function that came for an index. -/
def deltasAt (toolCalls : List (ChatCompletionStreamToolCallDelta ι)) (index : ι) :
    List FunctionDelta :=
  toolCalls.filterMap fun toolCall =>
    if toolCall.index = some index then
      toolCall.function.map fun function => (toolCall.id, function)
    else none

end

/-- The first name. -/
def nameOf (deltas : List FunctionDelta) : Option String :=
  deltas.findSome? fun delta => concrete delta.2.name

/-- The deltas up to the first one with a name. -/
def untilNamed : List FunctionDelta → List FunctionDelta
  | [] => []
  | delta :: deltas =>
    if (concrete delta.2.name).isSome then [delta] else delta :: untilNamed deltas

/-- The last id that is given. -/
def lastId (deltas : List FunctionDelta) : Option String := (deltas.filterMap (·.1)).getLast?

/-- The id that is known when the name comes. -/
def idOf (deltas : List FunctionDelta) : Option String := lastId (untilNamed deltas)

/-- All pieces of the arguments, one behind the other. -/
def argumentsOf (deltas : List FunctionDelta) : String :=
  joinPieces (deltas.map (·.2.arguments))

/-- **The call that the deltas of an index make up.** -/
structure IsCallOf (deltas : List FunctionDelta) (call : ToolCall) : Prop where
  name : nameOf deltas = some call.name
  id : ∀ id, idOf deltas = some id → call.id = id
  arguments : call.arguments.getD "" = argumentsOf deltas

theorem concrete_getD (text : Option String) : (concrete text).getD "" = text.getD "" := by
  cases text with
  | none => rfl
  | some text =>
    by_cases h : text = ""
    · rw [h]
      rfl
    · unfold concrete
      rw [filter_some_pos (by simpa using h)]

theorem joinPieces_append (pieces later : List (Option String)) :
    joinPieces (pieces ++ later) = joinPieces pieces ++ joinPieces later := by
  induction pieces with
  | nil => exact String.empty_append.symm
  | cons piece pieces ih =>
    change piece.getD "" ++ joinPieces (pieces ++ later) = _
    rw [ih]
    exact String.append_assoc.symm

section

variable (deltas : List FunctionDelta) (delta : FunctionDelta)

theorem argumentsOf_concat :
    argumentsOf (deltas ++ [delta]) = argumentsOf deltas ++ delta.2.arguments.getD "" := by
  unfold argumentsOf
  rw [map_append, joinPieces_append]
  exact congrArg (_ ++ ·) String.append_empty

theorem nameOf_concat :
    nameOf (deltas ++ [delta]) = (nameOf deltas).or (concrete delta.2.name) := by
  unfold nameOf
  rw [findSome?_append]
  congr 1
  rw [findSome?_cons]
  cases concrete delta.2.name <;> rfl

theorem lastId_concat : lastId (deltas ++ [delta]) = delta.1.or (lastId deltas) := by
  obtain ⟨id, function⟩ := delta
  unfold lastId
  rw [filterMap_append]
  cases id with
  | none => exact congrArg getLast? (append_nil _)
  | some id => exact getLast?_concat

end

theorem untilNamed_append {deltas : List FunctionDelta} (h : (nameOf deltas).isSome)
    (later : List FunctionDelta) : untilNamed (deltas ++ later) = untilNamed deltas := by
  induction deltas with
  | nil => cases h
  | cons delta deltas ih =>
    rw [cons_append]
    unfold untilNamed
    cases hname : concrete delta.2.name with
    | some name => rfl
    | none =>
      unfold nameOf at h ih
      rw [findSome?_cons, hname] at h
      rw [ih h]

theorem untilNamed_concat {deltas : List FunctionDelta} (h : nameOf deltas = none)
    (delta : FunctionDelta) : untilNamed (deltas ++ [delta]) = deltas ++ [delta] := by
  induction deltas with
  | nil =>
    change (if (concrete delta.2.name).isSome then [delta] else [delta]) = [delta]
    rw [ite_self]
  | cons first deltas ih =>
    unfold nameOf at h ih
    rw [findSome?_cons] at h
    cases hname : concrete first.2.name with
    | some name =>
      rw [hname] at h
      cases h
    | none =>
      rw [hname] at h
      rw [cons_append]
      unfold untilNamed
      rw [hname, ih h]
      rfl

/-- What is kept for an index whose deltas these are. -/
structure IsBufferOf (deltas : List FunctionDelta) (buffered : BufferedChatCompletionToolCall) :
    Prop where
  emitted : buffered.emitted = (nameOf deltas).isSome
  arguments : nameOf deltas = none → buffered.arguments = argumentsOf deltas
  id : nameOf deltas = none → buffered.id = lastId deltas

/-! ### One delta -/

section

variable {ι : Type} [DecidableEq ι]

variable {index : ι} {function : ChatCompletionStreamToolFunctionDelta}

theorem deltasAt_concat_self (seen : List (ChatCompletionStreamToolCallDelta ι))
    {toolCall : ChatCompletionStreamToolCallDelta ι} (hindex : toolCall.index = some index)
    (hfunction : toolCall.function = some function) :
    deltasAt (seen ++ [toolCall]) index = deltasAt seen index ++ [(toolCall.id, function)] := by
  unfold deltasAt
  congr 1
  simp [hindex, hfunction]

theorem deltasAt_concat_of_ne (seen : List (ChatCompletionStreamToolCallDelta ι)) {index : ι}
    {toolCall : ChatCompletionStreamToolCallDelta ι}
    (h : toolCall.index ≠ some index ∨ toolCall.function = none) :
    deltasAt (seen ++ [toolCall]) index = deltasAt seen index := by
  unfold deltasAt
  rw [filterMap_append]
  refine (congrArg (_ ++ ·) ?_).trans (append_nil _)
  cases h with
  | inl h => simp only [filterMap_cons, if_neg h, filterMap_nil]
  | inr h => simp only [filterMap_cons, h, map_none, ite_self, filterMap_nil]

namespace ToolCallBuffers

variable (s : ToolCallBuffers ι)

theorem bufferedAt_set_self (index : ι) (buffered : BufferedChatCompletionToolCall) :
    (s.set index buffered).bufferedAt index = buffered := by
  change (update s.bufferedByIndex index (some buffered) index).getD {} = buffered
  rw [update_self]
  rfl

theorem bufferedAt_set_of_ne {index other : ι} (h : other ≠ index)
    (buffered : BufferedChatCompletionToolCall) :
    (s.set index buffered).bufferedAt other = s.bufferedAt other := by
  change (update s.bufferedByIndex index (some buffered) other).getD {} = _
  rw [update_of_ne h]
  rfl

omit [DecidableEq ι] in
theorem bufferedAt_idOr (randomUUID : ℕ → String) (id : Option String) (index : ι) :
    (s.idOr randomUUID id).2.bufferedAt index = s.bufferedAt index := by
  cases id <;> rfl

end ToolCallBuffers

/-! ### A delta with an index -/

variable {s : ToolCallBuffers ι}

theorem convertIndexed_emitted
    (h : (s.bufferedAt index).emitted = true) (randomUUID : ℕ → String) (id : Option String)
    (function : ChatCompletionStreamToolFunctionDelta) :
    convertIndexed randomUUID index id function s = (match concrete function.arguments with
        | some argumentsPart => [.toolCallPart (some argumentsPart) (some index)]
        | none => [],
      s.set index { s.bufferedAt index with id := id.or (s.bufferedAt index).id }) :=
  if_pos h

theorem convertIndexed_unnamed
    (h : (s.bufferedAt index).emitted = false) (hname : concrete function.name = none)
    (randomUUID : ℕ → String) (id : Option String) :
    convertIndexed randomUUID index id function s = ([], s.set index { s.bufferedAt index with
          id := id.or (s.bufferedAt index).id
          arguments := (s.bufferedAt index).arguments ++
            (concrete function.arguments).getD "" }) := by
  unfold convertIndexed
  simp [h, hname]

theorem convertIndexed_named {name : String}
    (h : (s.bufferedAt index).emitted = false) (hname : concrete function.name = some name)
    (randomUUID : ℕ → String) (id : Option String) :
    ∃ (call : ToolCall) (buffers : ToolCallBuffers ι),
      convertIndexed randomUUID index id function s = ([.toolCall call (some index)], buffers) ∧
      call.name = name ∧ (∀ known, id.or (s.bufferedAt index).id = some known → call.id = known) ∧
      call.arguments.getD "" = (s.bufferedAt index).arguments ++ function.arguments.getD "" ∧
      ∀ other, buffers.bufferedAt other = (s.set index
        { id := id.or (s.bufferedAt index).id, arguments := "", emitted := true }
          ).bufferedAt other := by
  let buffers := s.set index
    { id := id.or (s.bufferedAt index).id, arguments := "", emitted := true }
  let drawn := buffers.idOr randomUUID ((id.or (s.bufferedAt index).id).or id)
  let initialArguments :=
    if (s.bufferedAt index).arguments.length > 0 then
      some ((s.bufferedAt index).arguments ++ function.arguments.getD "")
    else function.arguments
  refine ⟨{ id := drawn.1, name, arguments := initialArguments }, drawn.2, ?_, rfl,
    fun known hknown => ?_, ?_, buffers.bufferedAt_idOr randomUUID _⟩
  · unfold convertIndexed
    simp only [h, hname, Bool.false_eq_true, if_false]
    rfl
  · change (buffers.idOr randomUUID ((id.or (s.bufferedAt index).id).or id)).1 = known
    rw [hknown]
    rfl
  · by_cases hlength : (s.bufferedAt index).arguments.length > 0
    · exact congrArg (getD · "") (if_pos hlength)
    · have hempty : (s.bufferedAt index).arguments = "" := String.length_eq_zero_iff.1 (by omega)
      rw [hempty, String.empty_append]
      exact congrArg (getD · "") (if_neg hlength)

/-! ### The message so far -/

/-- **What is known behind the deltas**: the calls in the message are those of the indices that have
had a name, in some order, and for every index the converter keeps what came for it. -/
structure Converted (seen : List (ChatCompletionStreamToolCallDelta ι)) (s : ToolCallBuffers ι)
    (a : Assembly ι) (indices : List ι) : Prop where
  bounded : a.Bounded
  nodup : indices.Nodup
  named : ∀ index, index ∈ indices ↔ (nameOf (deltasAt seen index)).isSome
  target : ∀ index n, a.target index = some n ↔ indices[n]? = some index
  calls : List.Forall₂ (fun index call => IsCallOf (deltasAt seen index) call) indices a.assembled
  buffers : ∀ index, IsBufferOf (deltasAt seen index) (s.bufferedAt index)

namespace Converted

variable {seen : List (ChatCompletionStreamToolCallDelta ι)} {s : ToolCallBuffers ι}
  {a : Assembly ι} {indices : List ι}

theorem start : Converted [] {} ({} : Assembly ι) [] where
  bounded _ _ h := by cases h
  nodup := nodup_nil
  named index := ⟨nofun, nofun⟩
  target index n := ⟨nofun, nofun⟩
  calls := List.Forall₂.nil
  buffers index := ⟨rfl, fun _ => rfl, fun _ => rfl⟩

theorem content (h : Converted seen s a indices) (part : ContentPart) :
    Converted seen s (a.accept (.content part)) indices := by
  obtain ⟨hcalls, htarget, -⟩ := accept_content a part
  exact { h with
    bounded := h.bounded.accept _
    target := fun index n => by rw [htarget, h.target]
    calls := by rw [hcalls]; exact h.calls }

section

variable {toolCall : ChatCompletionStreamToolCallDelta ι} (hindex : toolCall.index = some index)

include hindex

theorem deltasAt_other {other : ι} (hne : other ≠ index) :
    deltasAt (seen ++ [toolCall]) other = deltasAt seen other :=
  deltasAt_concat_of_ne seen (Or.inl fun heq => hne (some.inj (heq.symm.trans hindex)))

theorem buffers_set (h : Converted seen s a indices) {buffered : BufferedChatCompletionToolCall}
    (hbuffered : IsBufferOf (deltasAt (seen ++ [toolCall]) index) buffered) (other : ι) :
    IsBufferOf (deltasAt (seen ++ [toolCall]) other) ((s.set index buffered).bufferedAt other) := by
  by_cases hne : other = index
  · rw [hne, ToolCallBuffers.bufferedAt_set_self]
    exact hbuffered
  · rw [ToolCallBuffers.bufferedAt_set_of_ne s hne, deltasAt_other hindex hne]
    exact h.buffers other

theorem calls_of_not_mem (h : Converted seen s a indices) (hmem : index ∉ indices) :
    List.Forall₂ (fun index call => IsCallOf (deltasAt (seen ++ [toolCall]) index) call) indices
      a.assembled := by
  refine forall₂_iff_get.2 ⟨h.calls.length_eq, fun k h₁ h₂ => ?_⟩
  rw [deltasAt_other hindex fun heq => hmem (heq ▸ get_mem ..)]
  exact (forall₂_iff_get.1 h.calls).2 k h₁ h₂

end

theorem unnamed (h : Converted seen s a indices) (hmem : index ∉ indices) :
    nameOf (deltasAt seen index) = none ∧ (s.bufferedAt index).emitted = false := by
  have hnone := not_isSome_iff_eq_none.1 (mt (h.named index).2 hmem)
  exact ⟨hnone, by rw [(h.buffers index).emitted, hnone]; rfl⟩

section

variable (h : Converted seen s a indices) (randomUUID : ℕ → String)

include h

/-- A delta whose index has its call already: its piece is added to this call. -/
theorem piece {toolCall : ChatCompletionStreamToolCallDelta ι}
    (hindex : toolCall.index = some index) (hfunction : toolCall.function = some function)
    (hmem : index ∈ indices) :
    Converted (seen ++ [toolCall]) (convertIndexed randomUUID index toolCall.id function s).2
      ((convertIndexed randomUUID index toolCall.id function s).1.foldl accept a)
      indices := by
  have hself := deltasAt_concat_self seen hindex hfunction
  have hnamed := (h.named index).1 hmem
  obtain ⟨name, hname⟩ := isSome_iff_exists.1 hnamed
  have hnamed' : ∀ other, nameOf (deltasAt (seen ++ [toolCall]) other) =
      nameOf (deltasAt seen other) := by
    intro other
    by_cases hne : other = index
    · rw [hne, hself, nameOf_concat, hname, some_or]
    · rw [deltasAt_other hindex hne]
  have hemitted : (s.bufferedAt index).emitted = true := (h.buffers index).emitted.trans hnamed
  have hconvert := convertIndexed_emitted hemitted randomUUID toolCall.id function
  -- where the call of the index stands
  obtain ⟨n, hn⟩ := List.mem_iff_getElem?.1 hmem
  have htarget := (h.target index n).2 hn
  have hlength := h.calls.length_eq
  obtain ⟨hlt, hat⟩ := List.getElem?_eq_some_iff.1 hn
  have hassembled : ((convertIndexed randomUUID index toolCall.id function s).1.foldl
        accept a).Bounded ∧
      ((convertIndexed randomUUID index toolCall.id function s).1.foldl
        accept a).target = a.target ∧
      ∃ piece : Option String, piece.getD "" = function.arguments.getD "" ∧
        ((convertIndexed randomUUID index toolCall.id function s).1.foldl
          accept a).assembled = a.assembled.modify n (ToolCall.appendArguments piece) := by
    rw [hconvert]
    cases hpart : concrete function.arguments with
    | none =>
      refine ⟨h.bounded, rfl, none, ?_, ?_⟩
      · rw [← concrete_getD function.arguments, hpart]
      · exact (List.modify_id ..).symm
    | some argumentsPart =>
      obtain ⟨hcalls, hsame, -⟩ :=
        assembled_accept_toolCallPart h.bounded (some argumentsPart) (some index)
      refine ⟨h.bounded.accept (.toolCallPart (some argumentsPart) (some index)), hsame,
        some argumentsPart, ?_, ?_⟩
      · rw [← concrete_getD function.arguments, hpart]
      · have hroute : a.route (some index) = some n := by
          unfold route
          rw [bind_some, htarget]
          rfl
        rw [hroute] at hcalls
        exact hcalls
  obtain ⟨hbounded, hsame, piece, hpiece, hcalls⟩ := hassembled
  refine ⟨hbounded, h.nodup, fun other => ?_, fun other k => ?_, ?_, fun other => ?_⟩
  · rw [h.named, hnamed']
  · rw [hsame, h.target]
  · rw [hcalls]
    refine List.forall₂_iff_get.2 ⟨by rw [hlength, List.length_modify], fun k h₁ h₂ => ?_⟩
    have hcall := (List.forall₂_iff_get.1 h.calls).2 k h₁ (hlength ▸ h₁)
    simp only [List.get_eq_getElem] at hcall ⊢
    rw [List.getElem_modify]
    by_cases hk : n = k
    · subst hk
      rw [hat] at hcall ⊢
      rw [if_pos rfl, hself]
      refine ⟨?_, fun id hid => ?_, ?_⟩
      · rw [nameOf_concat, hname, some_or, ← hname, hcall.name]
        cases piece <;> rfl
      · rw [ToolCall.appendArguments_id]
        unfold idOf at hid
        rw [untilNamed_append hnamed] at hid
        exact hcall.id id hid
      · rw [ToolCall.appendArguments_arguments, hcall.arguments, hpiece, argumentsOf_concat]
    · have hne : indices[k] ≠ index := fun heq =>
        hk ((List.Nodup.getElem_inj_iff h.nodup).1 (hat.trans heq.symm))
      rw [if_neg hk, deltasAt_other hindex hne]
      exact hcall
  · rw [hconvert]
    refine h.buffers_set hindex ⟨?_, fun hnone => ?_, fun hnone => ?_⟩ other
    · rw [hnamed']
      exact (h.buffers index).emitted
    · rw [hnamed', hname] at hnone
      cases hnone
    · rw [hnamed', hname] at hnone
      cases hnone

theorem keep {toolCall : ChatCompletionStreamToolCallDelta ι} (hindex : toolCall.index = some index)
    (hfunction : toolCall.function = some function) (hmem : index ∉ indices)
    (hname : concrete function.name = none) :
    Converted (seen ++ [toolCall]) (convertIndexed randomUUID index toolCall.id function s).2
      ((convertIndexed randomUUID index toolCall.id function s).1.foldl accept a)
      indices := by
  have hself := deltasAt_concat_self seen hindex hfunction
  obtain ⟨hunnamed, hemitted⟩ := h.unnamed hmem
  have hnamed' : ∀ other, nameOf (deltasAt (seen ++ [toolCall]) other) =
      nameOf (deltasAt seen other) := by
    intro other
    by_cases hne : other = index
    · rw [hne, hself, nameOf_concat, hunnamed, hname]
      rfl
    · rw [deltasAt_other hindex hne]
  rw [convertIndexed_unnamed hemitted hname]
  refine { h with
    named := fun other => by rw [h.named, hnamed']
    calls := calls_of_not_mem hindex h hmem
    buffers := h.buffers_set hindex ⟨?_, fun _ => ?_, fun _ => ?_⟩ }
  · rw [hnamed']
    exact (h.buffers index).emitted
  · rw [hself, argumentsOf_concat, concrete_getD, (h.buffers index).arguments hunnamed]
  · rw [hself, lastId_concat, (h.buffers index).id hunnamed]

/-- The first delta of an index with a name: it becomes the header of the call. -/
theorem header {toolCall : ChatCompletionStreamToolCallDelta ι}
    (hindex : toolCall.index = some index) (hfunction : toolCall.function = some function)
    (hmem : index ∉ indices) {name : String} (hname : concrete function.name = some name) :
    Converted (seen ++ [toolCall]) (convertIndexed randomUUID index toolCall.id function s).2
      ((convertIndexed randomUUID index toolCall.id function s).1.foldl accept a)
      (indices ++ [index]) := by
  have hself := deltasAt_concat_self seen hindex hfunction
  obtain ⟨hunnamed, hemitted⟩ := h.unnamed hmem
  have hnamed' : nameOf (deltasAt (seen ++ [toolCall]) index) = some name := by
    rw [hself, nameOf_concat, hunnamed, hname]
    rfl
  have hbuffer := h.buffers index
  obtain ⟨call, buffers, hconvert, hcallName, hcallId, hcallArguments, hbuffers⟩ :=
    convertIndexed_named hemitted hname randomUUID toolCall.id
  have hcall : IsCallOf (deltasAt (seen ++ [toolCall]) index) call := by
    refine ⟨hnamed'.trans (congrArg some hcallName.symm), fun id hid => hcallId id ?_, ?_⟩
    · unfold idOf at hid
      rw [hself, untilNamed_concat hunnamed, lastId_concat, ← hbuffer.id hunnamed] at hid
      exact hid
    · rw [hcallArguments, hself, argumentsOf_concat, hbuffer.arguments hunnamed]
  have hlength := h.calls.length_eq
  rw [hconvert]
  change Converted _ buffers (a.accept (.toolCall call (some index))) _
  refine ⟨h.bounded.accept _, ?_, fun other => ?_, fun other n => ?_, ?_, fun other => ?_⟩
  · exact nodup_append.2 ⟨h.nodup, nodup_singleton _, fun other hother' _ hsame heq =>
      hmem (mem_singleton.1 hsame ▸ heq ▸ hother')⟩
  · rw [mem_append, mem_singleton, h.named]
    by_cases hne : other = index
    · rw [hne, hnamed']
      exact iff_of_true (Or.inr rfl) rfl
    · rw [deltasAt_other hindex hne]
      exact or_iff_left hne
  · rw [target_accept_toolCall]
    change update a.target index (some a.assembled.length) other = some n ↔ _
    by_cases hne : other = index
    · rw [hne, update_self, ← hlength, getElem?_append]
      split
      · refine iff_of_false (fun heq => ?_) fun heq => ?_
        · have := some.inj heq
          omega
        · exact hmem (mem_of_getElem? heq)
      · rw [getElem?_singleton]
        split
        · exact iff_of_true (congrArg some (by omega)) rfl
        · refine iff_of_false (fun heq => ?_) nofun
          have := some.inj heq
          omega
    · rw [update_of_ne hne, h.target, getElem?_append]
      split
      · exact Iff.rfl
      · rw [getElem?_eq_none (by omega), getElem?_singleton]
        refine iff_of_false nofun fun heq => ?_
        split at heq
        · exact hne (some.inj heq).symm
        · cases heq
  · rw [assembled_accept_toolCall]
    exact rel_append (calls_of_not_mem hindex h hmem) (List.Forall₂.cons hcall List.Forall₂.nil)
  · rw [hbuffers]
    refine h.buffers_set hindex ⟨?_, fun hnone => ?_, fun hnone => ?_⟩ other
    · rw [hnamed']
      rfl
    · rw [hnamed'] at hnone
      cases hnone
    · rw [hnamed'] at hnone
      cases hnone

/-- **One delta**: what is known of the earlier deltas is known with it. -/
theorem toolCall {toolCall : ChatCompletionStreamToolCallDelta ι} (hindexed : toolCall.index.isSome)
    :
    ∃ indices', Converted (seen ++ [toolCall])
      (convertChatCompletionStreamToolCall randomUUID toolCall s).2
      ((convertChatCompletionStreamToolCall randomUUID toolCall s).1.foldl accept a)
      indices' := by
  obtain ⟨index, hindex⟩ := isSome_iff_exists.1 hindexed
  unfold convertChatCompletionStreamToolCall
  cases hfunction : toolCall.function with
  | none =>
    have hsame : ∀ other, deltasAt (seen ++ [toolCall]) other = deltasAt seen other :=
      fun other => deltasAt_concat_of_ne seen (Or.inr hfunction)
    refine ⟨indices, { h with
      named := fun other => by rw [h.named, hsame]
      calls := ?_
      buffers := fun other => by rw [hsame]; exact h.buffers other }⟩
    simp only [hsame]
    exact h.calls
  | some function =>
    simp only [hindex]
    by_cases hmem : index ∈ indices
    · exact ⟨_, h.piece randomUUID hindex hfunction hmem⟩
    · cases hname : concrete function.name with
      | none => exact ⟨_, h.keep randomUUID hindex hfunction hmem hname⟩
      | some name => exact ⟨_, h.header randomUUID hindex hfunction hmem hname⟩

end

theorem toolCalls (randomUUID : ℕ → String) :
    ∀ {toolCalls seen : List (ChatCompletionStreamToolCallDelta ι)} {s : ToolCallBuffers ι}
      {a : Assembly ι} {indices : List ι}, Converted seen s a indices →
      (∀ toolCall ∈ toolCalls, toolCall.index.isSome) →
      ∃ indices', Converted (seen ++ toolCalls) (convertToolCalls randomUUID toolCalls s).2
        ((convertToolCalls randomUUID toolCalls s).1.foldl accept a) indices' := by
  intro toolCalls
  induction toolCalls with
  | nil =>
    intro seen s a indices h _
    exact ⟨indices, by rwa [append_nil]⟩
  | cons first toolCalls ih =>
    intro seen s a indices h hindexed
    obtain ⟨hfirst, hrest⟩ := forall_mem_cons.1 hindexed
    obtain ⟨_, hnext⟩ := h.toolCall randomUUID hfirst
    obtain ⟨indices', hlast⟩ := ih hnext hrest
    refine ⟨indices', ?_⟩
    rw [← List.append_cons] at hlast
    unfold convertToolCalls
    rw [foldl_append]
    exact hlast

theorem contents (h : Converted seen s a indices) (parts : List ContentPart) :
    Converted seen s ((parts.map .content).foldl accept a) indices := by
  induction parts generalizing a with
  | nil => exact h
  | cons part parts ih => exact ih (h.content part)

/-- **The stream**: what is known at its end. -/
theorem stream (randomUUID : ℕ → String) :
    ∀ {deltas : List (ChatCompletionDelta ι)} {seen : List (ChatCompletionStreamToolCallDelta ι)}
      {s : ToolCallBuffers ι} {a : Assembly ι} {indices : List ι}, Converted seen s a indices →
      (∀ delta ∈ deltas, ∀ toolCall ∈ delta.toolCalls, toolCall.index.isSome) →
      ∃ s' indices', Converted (seen ++ deltas.flatMap (·.toolCalls)) s'
        ((convertDeltas randomUUID deltas s).foldl accept a) indices' := by
  intro deltas
  induction deltas with
  | nil =>
    intro seen s a indices h _
    refine ⟨s, indices, ?_⟩
    rw [flatMap_nil, append_nil]
    exact h
  | cons delta deltas ih =>
    intro seen s a indices h hindexed
    obtain ⟨hfirst, hrest⟩ := forall_mem_cons.1 hindexed
    obtain ⟨_, hnext⟩ := (h.contents delta.contents).toolCalls randomUUID hfirst
    obtain ⟨s', indices', hlast⟩ := ih hnext hrest
    refine ⟨s', indices', ?_⟩
    unfold convertDeltas
    rw [flatMap_cons, ← append_assoc, foldl_append, foldl_append]
    exact hlast

end Converted

/-- **One call for each index.** The deltas of any number of calls come in any order. The message
has one call for each index that has had a name; the call has this name, the id that was known by
then and, as its arguments, all pieces that came for the index in their order. -/
theorem generate_convertStreamResponse (info : StreamInfo) (randomUUID : ℕ → String)
    (deltas : List (ChatCompletionDelta ι))
    (hindexed : ∀ delta ∈ deltas, ∀ toolCall ∈ delta.toolCalls, toolCall.index.isSome) :
    (∀ message, generate info (convertStreamResponse randomUUID deltas) = .ok message →
      ∃ indices : List ι, indices.Nodup ∧
        (∀ index, index ∈ indices ↔
          (nameOf (deltasAt (deltas.flatMap (·.toolCalls)) index)).isSome) ∧
        List.Forall₂
          (fun index call => IsCallOf (deltasAt (deltas.flatMap (·.toolCalls)) index) call)
          indices message.toolCalls) ∧
      ((∃ index, (nameOf (deltasAt (deltas.flatMap (·.toolCalls)) index)).isSome) →
        ∃ message, generate info (convertStreamResponse randomUUID deltas) = .ok message) := by
  obtain ⟨_, indices, hend⟩ := Converted.start.stream randomUUID hindexed
  refine ⟨fun message h => ⟨indices, hend.nodup, hend.named, ?_⟩, fun ⟨index, hname⟩ => ?_⟩
  · rw [generate_toolCalls h]
    exact hend.calls
  · refine exists_generate info fun hnil => ?_
    have hlength := hend.calls.length_eq
    rw [convertStreamResponse] at hnil
    rw [hnil, List.length_nil, List.length_eq_zero_iff] at hlength
    exact List.not_mem_nil (hlength ▸ (hend.named index).2 hname)

end

/-- Two calls whose deltas alternate; for the second one the arguments come before the name. -/
def alternating : List (ChatCompletionDelta ℕ) :=
  [{ content := some "on it",
     toolCalls := [⟨some 0, some "call_a", some ⟨some "Read", some "ab"⟩⟩,
      ⟨some 1, some "call_b", some ⟨none, some "12"⟩⟩] },
    { toolCalls := [⟨some 0, none, some ⟨none, some "cd"⟩⟩] },
    { toolCalls := [⟨some 1, none, some ⟨some "Bash", some ""⟩⟩] },
    { toolCalls :=
        [⟨some 0, none, some ⟨none, some "e"⟩⟩, ⟨some 1, none, some ⟨none, some "3"⟩⟩] }]

theorem generate_convertStreamResponse_alternating :
    ∃ indices : List ℕ, indices.Nodup ∧
      (∀ index, index ∈ indices ↔
        (nameOf (deltasAt (alternating.flatMap (·.toolCalls)) index)).isSome) ∧
      List.Forall₂
        (fun index call => IsCallOf (deltasAt (alternating.flatMap (·.toolCalls)) index) call)
        indices [⟨"call_a", "Read", some "abcde"⟩, ⟨"call_b", "Bash", some "123"⟩] :=
  (generate_convertStreamResponse ⟨"p", "m", none, none⟩ (fun n => "uuid-" ++ toString n)
    alternating (by decide)).1
    { role := .assistant, content := [.text "on it"],
      toolCalls := [⟨"call_a", "Read", some "abcde"⟩, ⟨"call_b", "Bash", some "123"⟩] }
    (by decide)

/-- The name comes first, and the id with the arguments. -/
def lateId : List (ChatCompletionDelta ℕ) :=
  [{ toolCalls := [⟨some 0, none, some ⟨some "Read", none⟩⟩] },
    { toolCalls := [⟨some 0, some "call_a", some ⟨none, some "ab"⟩⟩] }]

/-- The call gets a random id then; the id of its index is lost. -/
theorem lateId_replaced :
    lastId (deltasAt (lateId.flatMap (·.toolCalls)) 0) = some "call_a" ∧
      ∃ message,
        generate ⟨"p", "m", none, none⟩
            (convertStreamResponse (fun n => "uuid-" ++ toString n) lateId) = .ok message ∧
        message.toolCalls = [⟨"uuid-0", "Read", some "ab"⟩] :=
  ⟨by decide,
    { role := .assistant, content := [], toolCalls := [⟨"uuid-0", "Read", some "ab"⟩] },
    by decide, rfl⟩

end NoriCode
