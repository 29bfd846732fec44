/-
**The live pieces of a tool call, and its arguments in the end.**

While a message is streamed, every part is also shown to whoever watches: a piece of arguments is
passed on with the id of its call.  The one that passes it on keeps its own tables.  A piece whose
index nobody announced yet is kept back for the header that will come, and a piece without an index
belongs to the last call.

The module embeds `buildKosongCallbacks` of `agent/turn/kosong-llm.ts`, as far as tool calls go,
beside `GenerateStream`.

Main definitions:

* `KosongCallbacks`, with `onMessagePart`;
* `Streaming` — both sides of a stream;
* `PartFits` — the parts that both sides take for the same call's.

Main results:

* `Tracks.receive` — what both sides know of the parts so far;
* `agrees_iff` — **the live pieces are the arguments as long as all parts fit, and no
  longer**.
-/

import Mathlib.Data.List.Nodup
import NoriCode.GenerateStream

namespace NoriCode

open List Option Function Assembly

structure ToolCallIdentity where
  toolCallId : String
  name : String

/-- What `onToolCallDelta` is called with. -/
structure ToolCallDelta where
  toolCallId : String
  name : String
  argumentsPart : Option String

/-- The tables of the callbacks, and what they have passed on. -/
structure KosongCallbacks (ι : Type) where
  toolCallIdentities : ι → Option ToolCallIdentity := fun _ => none
  pendingIndexedToolCallDeltas : ι → List (Option String) := fun _ => []
  lastToolCallIdentity : Option ToolCallIdentity := none
  deltas : List ToolCallDelta := []

namespace KosongCallbacks

variable {ι : Type} [DecidableEq ι]

def emitToolCallDelta (k : KosongCallbacks ι) (identity : ToolCallIdentity)
    (argumentsParts : List (Option String)) : KosongCallbacks ι :=
  { k with
    deltas := k.deltas ++ argumentsParts.map fun argumentsPart =>
      ⟨identity.toolCallId, identity.name, argumentsPart⟩ }

/-- A header: it is announced, and what was kept back for its index is passed on behind it. -/
def onToolCall (k : KosongCallbacks ι) (call : ToolCall) (streamIndex : Option ι) :
    KosongCallbacks ι :=
  let identity : ToolCallIdentity := ⟨call.id, call.name⟩
  match streamIndex with
  | none => { k.emitToolCallDelta identity [call.arguments] with lastToolCallIdentity := some identity }
  | some index =>
    { (k.emitToolCallDelta identity [call.arguments]).emitToolCallDelta identity
        (k.pendingIndexedToolCallDeltas index) with
      lastToolCallIdentity := some identity
      toolCallIdentities := update k.toolCallIdentities index (some identity)
      pendingIndexedToolCallDeltas := update k.pendingIndexedToolCallDeltas index [] }

def onMessagePart (k : KosongCallbacks ι) : StreamedMessagePart ι → KosongCallbacks ι
  | .content _ => k
  | .toolCall call streamIndex => k.onToolCall call streamIndex
  | .toolCallPart argumentsPart (some index) =>
    match k.toolCallIdentities index with
    | none =>
      { k with
        pendingIndexedToolCallDeltas := update k.pendingIndexedToolCallDeltas index
          (k.pendingIndexedToolCallDeltas index ++ [argumentsPart]) }
    | some identity => k.emitToolCallDelta identity [argumentsPart]
  | .toolCallPart argumentsPart none =>
    match k.lastToolCallIdentity with
    | none => k
    | some identity => k.emitToolCallDelta identity [argumentsPart]

end KosongCallbacks

/-- The pieces passed on for a call, one behind the other. -/
def liveArguments (id : String) (deltas : List ToolCallDelta) : String :=
  deltas.foldr
    (fun delta rest => if delta.toolCallId = id then delta.argumentsPart.getD "" ++ rest else rest) ""

/-- Both sides of a stream. -/
structure Streaming (ι : Type) where
  assembly : Assembly ι := {}
  callbacks : KosongCallbacks ι := {}

section

variable {ι : Type} [DecidableEq ι]

/-- The callback sees a part before it is merged. -/
def Streaming.receive (s : Streaming ι) (part : StreamedMessagePart ι) : Streaming ι where
  assembly := s.assembly.accept part
  callbacks := s.callbacks.onMessagePart part

def stream (parts : List (StreamedMessagePart ι)) : Streaming ι := parts.foldl Streaming.receive {}

/-- **What the live pieces should be**: in the message every call has its own id, and its arguments
are the pieces passed on for it. -/
def DeltasAgree (info : StreamInfo) (parts : List (StreamedMessagePart ι)) : Prop :=
  ∀ message, generate info parts = .ok message →
    (message.toolCalls.map (·.id)).Nodup ∧
      ∀ call ∈ message.toolCalls,
        liveArguments call.id (stream parts).callbacks.deltas = call.arguments.getD ""

/-! ### Parts that fit -/

/-- There was a header with this index. -/
def Announced (before : List (StreamedMessagePart ι)) (index : ι) : Prop :=
  ∃ call, .toolCall call (some index) ∈ before

/-- The last part that is not a piece of arguments is a header. -/
def callOpenIn (before : List (StreamedMessagePart ι)) : Bool :=
  (before.filter fun part => !part.isToolCallPart).getLast?.any (·.isToolCall)

/-- **The part fits behind the earlier ones.** A header has a new id, and nothing was streamed for
its index too early. A piece that is not empty has an index that was announced, or comes while no
call is open; without an index, it comes while a call is open or before all calls. -/
def PartFits (before : List (StreamedMessagePart ι)) : StreamedMessagePart ι → Prop
  | .content _ => True
  | .toolCall call streamIndex =>
    (∀ other index, .toolCall other index ∈ before → other.id ≠ call.id) ∧
      ∀ index, streamIndex = some index →
        Announced before index ∨
          ∀ text, .toolCallPart text (some index) ∈ before → text.getD "" = ""
  | .toolCallPart argumentsPart (some index) =>
    argumentsPart.getD "" = "" ∨ Announced before index ∨ callOpenIn before = false
  | .toolCallPart argumentsPart none =>
    argumentsPart.getD "" = "" ∨ callOpenIn before = true ∨
      ∀ call index, .toolCall call index ∉ before

/-- All parts fit. -/
def PartsFit (parts : List (StreamedMessagePart ι)) : Prop :=
  ∀ before part after, parts = before ++ part :: after → PartFits before part

end

/-! ### What is passed on -/

/-- Pieces, one behind the other. -/
def joinPieces (pieces : List (Option String)) : String :=
  pieces.foldr (fun piece rest => piece.getD "" ++ rest) ""

theorem joinPieces_eq_empty_iff (pieces : List (Option String)) :
    joinPieces pieces = "" ↔ ∀ piece ∈ pieces, piece.getD "" = "" := by
  induction pieces with
  | nil => exact ⟨fun _ _ h => absurd h not_mem_nil, fun _ => rfl⟩
  | cons first pieces ih =>
    change first.getD "" ++ joinPieces pieces = "" ↔ _
    rw [String.append_eq_empty_iff, ih, forall_mem_cons]

theorem liveArguments_append (id : String) (deltas later : List ToolCallDelta) :
    liveArguments id (deltas ++ later) = liveArguments id deltas ++ liveArguments id later := by
  induction deltas with
  | nil => exact String.empty_append.symm
  | cons delta deltas ih =>
    rw [cons_append]
    unfold liveArguments at ih ⊢
    rw [foldr_cons, foldr_cons, ih]
    split
    · exact String.append_assoc.symm
    · rfl

/-- Pieces for one call are the live arguments of this call and of no other. -/
theorem liveArguments_pieces (id : String) (identity : ToolCallIdentity)
    (pieces : List (Option String)) :
    liveArguments id (pieces.map fun argumentsPart =>
        (⟨identity.toolCallId, identity.name, argumentsPart⟩ : ToolCallDelta)) =
      if identity.toolCallId = id then joinPieces pieces else "" := by
  induction pieces with
  | nil => exact (ite_self _).symm
  | cons piece pieces ih =>
    rw [map_cons]
    unfold liveArguments at ih ⊢
    rw [foldr_cons, ih]
    split <;> rfl

theorem live_emit {ι : Type} (id : String) (k : KosongCallbacks ι) (identity : ToolCallIdentity)
    (pieces : List (Option String)) :
    liveArguments id (k.emitToolCallDelta identity pieces).deltas =
      liveArguments id k.deltas ++ if identity.toolCallId = id then joinPieces pieces else "" := by
  rw [← liveArguments_pieces]
  exact liveArguments_append id _ _

/-! ### What both sides know -/

namespace ToolCall

theorem appendArguments_id (argumentsPart : Option String) (call : ToolCall) :
    (call.appendArguments argumentsPart).id = call.id := by
  cases argumentsPart <;> rfl

theorem appendArguments_arguments (argumentsPart : Option String) (call : ToolCall) :
    (call.appendArguments argumentsPart).arguments.getD "" =
      call.arguments.getD "" ++ argumentsPart.getD "" := by
  cases argumentsPart with
  | none => exact String.append_empty.symm
  | some text =>
    unfold appendArguments
    cases call.arguments with
    | none => exact String.empty_append.symm
    | some old => rfl

end ToolCall

variable {ι : Type} [DecidableEq ι]

/-- The ids of the calls so far. -/
def Streaming.ids (s : Streaming ι) : List String := s.assembly.assembled.map (·.id)

/-- The call that a piece is passed on for. -/
def KosongCallbacks.attributed (k : KosongCallbacks ι) (index : Option ι) : Option String :=
  Option.map ToolCallIdentity.toolCallId
    (match index with
      | some index => k.toolCallIdentities index
      | none => k.lastToolCallIdentity)

theorem live_toolCallPart (id : String) (k : KosongCallbacks ι) (argumentsPart : Option String)
    (index : Option ι) :
    liveArguments id (k.onMessagePart (.toolCallPart argumentsPart index)).deltas =
      liveArguments id k.deltas ++
        if k.attributed index = some id then argumentsPart.getD "" else "" := by
  have hemit : ∀ identity : ToolCallIdentity,
      liveArguments id (k.emitToolCallDelta identity [argumentsPart]).deltas =
        liveArguments id k.deltas ++
          if some identity.toolCallId = some id then argumentsPart.getD "" else "" := by
    intro identity
    rw [live_emit]
    simp only [some.injEq, joinPieces, foldr_cons, foldr_nil, String.append_empty]
  have hkept : liveArguments id k.deltas = liveArguments id k.deltas ++
      if (none : Option String) = some id then argumentsPart.getD "" else "" := by
    rw [if_neg (by simp), String.append_empty]
  cases index with
  | none =>
    unfold KosongCallbacks.onMessagePart KosongCallbacks.attributed
    cases k.lastToolCallIdentity with
    | none => exact hkept
    | some identity => exact hemit identity
  | some index =>
    have hattributed : k.attributed (some index) =
        (k.toolCallIdentities index).map (·.toolCallId) := rfl
    unfold KosongCallbacks.onMessagePart
    dsimp only
    split
    · rename_i hidentity
      rw [hattributed, hidentity]
      exact hkept
    · rename_i identity hidentity
      rw [hattributed, hidentity]
      exact hemit identity

/-- The pieces of a header: its own arguments, and those kept back for its index. -/
theorem live_toolCall (id : String) (k : KosongCallbacks ι) (call : ToolCall)
    (streamIndex : Option ι) :
    liveArguments id (k.onMessagePart (.toolCall call streamIndex)).deltas =
      liveArguments id k.deltas ++
        if call.id = id then
          call.arguments.getD "" ++
            (streamIndex.elim "" fun index => joinPieces (k.pendingIndexedToolCallDeltas index))
        else "" := by
  have hown : joinPieces [call.arguments] = call.arguments.getD "" := String.append_empty
  cases streamIndex with
  | none =>
    change liveArguments id (k.emitToolCallDelta ⟨call.id, call.name⟩ [call.arguments]).deltas = _
    rw [live_emit, hown, elim_none, String.append_empty]
  | some index =>
    change liveArguments id ((k.emitToolCallDelta ⟨call.id, call.name⟩
      [call.arguments]).emitToolCallDelta ⟨call.id, call.name⟩
        (k.pendingIndexedToolCallDeltas index)).deltas = _
    rw [live_emit, live_emit, hown, String.append_assoc, elim_some]
    congr 1
    split
    · rfl
    · exact String.empty_append

theorem KosongCallbacks.identities_toolCallPart (k : KosongCallbacks ι)
    (argumentsPart : Option String) (index : Option ι) :
    (k.onMessagePart (.toolCallPart argumentsPart index)).toolCallIdentities =
        k.toolCallIdentities ∧
      (k.onMessagePart (.toolCallPart argumentsPart index)).lastToolCallIdentity =
        k.lastToolCallIdentity := by
  cases index <;> unfold onMessagePart <;> dsimp only <;> split <;> exact ⟨rfl, rfl⟩

theorem KosongCallbacks.kept_toolCallPart (k : KosongCallbacks ι)
    (argumentsPart : Option String) (index : Option ι) (index' : ι) :
    (index = some index' ∧ k.toolCallIdentities index' = none ∧
        (k.onMessagePart (.toolCallPart argumentsPart index)).pendingIndexedToolCallDeltas index' =
          k.pendingIndexedToolCallDeltas index' ++ [argumentsPart]) ∨
      ((index ≠ some index' ∨ k.toolCallIdentities index' ≠ none) ∧
        (k.onMessagePart (.toolCallPart argumentsPart index)).pendingIndexedToolCallDeltas index' =
          k.pendingIndexedToolCallDeltas index') := by
  cases index with
  | none =>
    refine Or.inr ⟨Or.inl (by simp), ?_⟩
    unfold onMessagePart
    dsimp only
    split <;> rfl
  | some index =>
    by_cases heq : index' = index
    · subst heq
      cases hidentity : k.toolCallIdentities index' with
      | none =>
        refine Or.inl ⟨rfl, rfl, ?_⟩
        simp [onMessagePart, hidentity]
      | some identity =>
        refine Or.inr ⟨Or.inr (by simp), ?_⟩
        simp [onMessagePart, hidentity, emitToolCallDelta]
    · refine Or.inr ⟨Or.inl (by simp [Ne.symm heq]), ?_⟩
      unfold onMessagePart
      dsimp only
      split
      · exact update_of_ne heq _ _
      · rfl

theorem getElem?_assembled_toolCallPart {s : Streaming ι} (h : s.assembly.Bounded)
    (argumentsPart : Option String) (index : Option ι) (n : ℕ) :
    (s.receive (.toolCallPart argumentsPart index)).assembly.assembled[n]? =
      (s.assembly.assembled[n]?).map fun call =>
        if s.assembly.route index = some n then call.appendArguments argumentsPart else call := by
  change (s.assembly.accept (.toolCallPart argumentsPart index)).assembled[n]? = _
  rw [(assembled_accept_toolCallPart h argumentsPart index).1]
  cases hroute : s.assembly.route index with
  | none => simp
  | some m => simp [getElem?_modify]

theorem ids_toolCallPart {s : Streaming ι} (h : s.assembly.Bounded)
    (argumentsPart : Option String) (index : Option ι) :
    (s.receive (.toolCallPart argumentsPart index)).ids = s.ids := by
  refine ext_getElem? fun n => ?_
  unfold Streaming.ids
  rw [getElem?_map, getElem?_map, getElem?_assembled_toolCallPart h, Option.map_map]
  congr 1
  funext call
  split
  · exact ToolCall.appendArguments_id argumentsPart call
  · rfl

/-! ### Both sides along a stream -/

omit [DecidableEq ι] in
theorem announced_append {before : List (StreamedMessagePart ι)} {part : StreamedMessagePart ι}
    {index : ι} :
    Announced (before ++ [part]) index ↔
      Announced before index ∨ ∃ call, part = .toolCall call (some index) := by
  unfold Announced
  simp only [mem_append, mem_singleton, exists_or, eq_comm]

omit [DecidableEq ι] in
theorem callOpenIn_append (before : List (StreamedMessagePart ι)) (part : StreamedMessagePart ι) :
    callOpenIn (before ++ [part]) =
      if part.isToolCallPart then callOpenIn before else part.isToolCall := by
  unfold callOpenIn
  rw [filter_append]
  cases hpart : part.isToolCallPart with
  | true | false => simp [hpart]

/-- Both sides after the parts `before`. -/
structure Tracks (before : List (StreamedMessagePart ι)) (s : Streaming ι) : Prop where
  bounded : s.assembly.Bounded
  /-- The calls are those with a header. -/
  ids : ∀ (id : String), id ∈ s.ids ↔ ∃ call index, .toolCall call index ∈ before ∧ call.id = id
  /-- Both sides know the same indices, and the same call for each. -/
  announced : ∀ (index : ι), s.callbacks.toolCallIdentities index = none ↔ ¬ Announced before index
  known : ∀ (index : ι) (identity : ToolCallIdentity),
    s.callbacks.toolCallIdentities index = some identity →
      ∃ n, s.assembly.target index = some n ∧ s.ids[n]? = some identity.toolCallId
  unknown : ∀ (index : ι), s.callbacks.toolCallIdentities index = none →
    s.assembly.target index = none
  last : s.callbacks.lastToolCallIdentity.map (·.toolCallId) = s.ids.getLast?
  opened : s.assembly.callOpen = callOpenIn before
  /-- What is kept back came before the header of its index. -/
  kept : ∀ (index : ι),
    (∀ piece ∈ s.callbacks.pendingIndexedToolCallDeltas index, piece.getD "" = "") ↔
      Announced before index ∨
        ∀ text, .toolCallPart text (some index) ∈ before → text.getD "" = ""
  /-- Nothing is passed on for a call that there is not. -/
  silent : ∀ (id : String), id ∉ s.ids → liveArguments id s.callbacks.deltas = ""

namespace Tracks

variable {before : List (StreamedMessagePart ι)} {s : Streaming ι}

theorem start : Tracks [] ({} : Streaming ι) where
  bounded := fun _ _ h => by cases h
  ids := by simp [Streaming.ids, assembled, finish]
  announced := by simp [Announced]
  known := fun _ _ h => by cases h
  unknown := fun _ _ => rfl
  last := rfl
  opened := rfl
  kept := by simp
  silent := fun _ _ => rfl

theorem content (h : Tracks before s) (part : ContentPart) :
    Tracks (before ++ [.content part]) (s.receive (.content part)) := by
  obtain ⟨hcalls, htarget, hopen⟩ := s.assembly.accept_content part
  have hids : (s.receive (.content part)).ids = s.ids := congrArg (map ToolCall.id) hcalls
  have hannounced : ∀ index, Announced (before ++ [.content part]) index ↔ Announced before index := by
    intro index
    rw [announced_append]
    simp
  refine {
    bounded := h.bounded.accept _, ids := ?_, announced := ?_, known := ?_, unknown := ?_, last := ?_
    opened := ?_, kept := ?_, silent := ?_ }
  · intro id
    rw [hids, h.ids]
    simp
  · intro index
    rw [hannounced]
    exact h.announced index
  · intro index identity hidentity
    rw [hids]
    change ∃ n, (s.assembly.accept (.content part)).target index = some n ∧ _
    rw [htarget]
    exact h.known index identity hidentity
  · intro index hnone
    change (s.assembly.accept (.content part)).target index = none
    rw [htarget]
    exact h.unknown index hnone
  · rw [hids]
    exact h.last
  · rw [callOpenIn_append]
    exact hopen
  · intro index
    rw [hannounced]
    simp only [mem_append, mem_singleton, reduceCtorEq, or_false]
    exact h.kept index
  · intro id hid
    rw [hids] at hid
    exact h.silent id hid

theorem toolCall (h : Tracks before s) (call : ToolCall) (streamIndex : Option ι) :
    Tracks (before ++ [.toolCall call streamIndex]) (s.receive (.toolCall call streamIndex)) := by
  have hids : (s.receive (.toolCall call streamIndex)).ids = s.ids ++ [call.id] :=
    (congrArg (List.map ToolCall.id) (s.assembly.assembled_accept_toolCall call streamIndex)).trans
      List.map_append
  have htarget : (s.receive (.toolCall call streamIndex)).assembly.target = _ :=
    s.assembly.target_accept_toolCall call streamIndex
  have hlength : s.assembly.assembled.length = s.ids.length := (List.length_map _).symm
  refine {
    bounded := h.bounded.accept _, ids := ?_, announced := ?_, known := ?_, unknown := ?_, last := ?_
    opened := ?_, kept := ?_, silent := ?_ }
  · intro id
    rw [hids, List.mem_append, List.mem_singleton, h.ids]
    constructor
    · rintro (⟨other, index, hmem, hid⟩ | rfl)
      · exact ⟨other, index, List.mem_append_left _ hmem, hid⟩
      · exact ⟨call, streamIndex, List.mem_append_right _ (List.mem_singleton.2 rfl), rfl⟩
    · rintro ⟨other, index, hmem, hid⟩
      rcases List.mem_append.1 hmem with hmem | hmem
      · exact Or.inl ⟨other, index, hmem, hid⟩
      · have heq := List.mem_singleton.1 hmem
        cases heq
        exact Or.inr hid.symm
  · intro index
    rw [announced_append, not_or, ← h.announced]
    cases streamIndex with
    | none => simp [Streaming.receive, KosongCallbacks.onMessagePart, KosongCallbacks.onToolCall,
        KosongCallbacks.emitToolCallDelta]
    | some index' =>
      change update s.callbacks.toolCallIdentities index' _ index = none ↔ _
      by_cases heq : index = index'
      · subst heq
        simp
      · rw [update_of_ne heq]
        simp [Ne.symm heq]
  · intro index identity hidentity
    rw [htarget, hids]
    have hold : ∀ {index : ι}, s.callbacks.toolCallIdentities index = some identity →
        ∃ n, s.assembly.target index = some n ∧
          (s.ids ++ [call.id])[n]? = some identity.toolCallId := by
      intro index hidentity
      obtain ⟨n, hn, hid⟩ := h.known index identity hidentity
      refine ⟨n, hn, ?_⟩
      rw [List.getElem?_append_left (List.getElem?_eq_some_iff.1 hid).1]
      exact hid
    cases streamIndex with
    | none => exact hold hidentity
    | some index' =>
      change update s.callbacks.toolCallIdentities index' _ index = some identity at hidentity
      dsimp only
      by_cases heq : index = index'
      · subst heq
        rw [update_self] at hidentity ⊢
        cases hidentity
        refine ⟨_, rfl, ?_⟩
        rw [hlength]
        exact List.getElem?_concat_length
      · rw [update_of_ne heq] at hidentity ⊢
        exact hold hidentity
  · intro index hnone
    rw [htarget]
    cases streamIndex with
    | none => exact h.unknown index hnone
    | some index' =>
      change update s.callbacks.toolCallIdentities index' _ index = none at hnone
      dsimp only
      by_cases heq : index = index'
      · subst heq
        rw [update_self] at hnone
        cases hnone
      · rw [update_of_ne heq] at hnone ⊢
        exact h.unknown index hnone
  · rw [hids, List.getLast?_concat]
    cases streamIndex <;> rfl
  · rw [callOpenIn_append]
    change (s.assembly.accept (.toolCall call streamIndex)).callOpen = true
    rw [accept_toolCall]
    rfl
  · intro index
    rw [announced_append]
    cases streamIndex with
    | none =>
      change (∀ piece ∈ s.callbacks.pendingIndexedToolCallDeltas index, _) ↔ _
      rw [h.kept]
      simp
    | some index' =>
      change (∀ piece ∈ update s.callbacks.pendingIndexedToolCallDeltas index' [] index, _) ↔ _
      by_cases heq : index = index'
      · subst heq
        simp
      · rw [update_of_ne heq, h.kept]
        simp [Ne.symm heq]
  · intro id hid
    rw [hids, List.mem_append, not_or, List.mem_singleton] at hid
    change liveArguments id (s.callbacks.onMessagePart (.toolCall call streamIndex)).deltas = ""
    rw [live_toolCall, if_neg (Ne.symm hid.2), String.append_empty]
    exact h.silent id hid.1

theorem attributed_mem (h : Tracks before s) {index : Option ι} {id : String}
    (hid : s.callbacks.attributed index = some id) : id ∈ s.ids := by
  cases index with
  | none =>
    have hlast : s.ids.getLast? = some id := h.last.symm.trans hid
    exact mem_of_getLast? hlast
  | some index =>
    obtain ⟨identity, hidentity, rfl⟩ := map_eq_some_iff.1 hid
    obtain ⟨n, -, hn⟩ := h.known index identity hidentity
    exact mem_of_getElem? hn

theorem toolCallPart (h : Tracks before s) (argumentsPart : Option String) (index : Option ι) :
    Tracks (before ++ [.toolCallPart argumentsPart index])
      (s.receive (.toolCallPart argumentsPart index)) := by
  obtain ⟨-, htarget, hopen⟩ := assembled_accept_toolCallPart h.bounded argumentsPart index
  have hids := ids_toolCallPart h.bounded argumentsPart index
  have hannounced : ∀ index', Announced (before ++ [.toolCallPart argumentsPart index]) index' ↔
      Announced before index' := by
    intro index'
    rw [announced_append]
    simp
  obtain ⟨hidentities, hlast⟩ := s.callbacks.identities_toolCallPart argumentsPart index
  change (s.receive _).callbacks.toolCallIdentities = _ at hidentities
  change (s.receive _).callbacks.lastToolCallIdentity = _ at hlast
  refine {
    bounded := h.bounded.accept _, ids := ?_, announced := ?_, known := ?_, unknown := ?_, last := ?_
    opened := ?_, kept := ?_, silent := ?_ }
  · intro id
    rw [hids, h.ids]
    simp
  · intro index'
    rw [hannounced, hidentities]
    exact h.announced index'
  · intro index' identity hidentity
    rw [hids]
    rw [hidentities] at hidentity
    change ∃ n, (s.assembly.accept _).target index' = some n ∧ _
    rw [htarget]
    exact h.known index' identity hidentity
  · intro index' hnone
    rw [hidentities] at hnone
    change (s.assembly.accept _).target index' = none
    rw [htarget]
    exact h.unknown index' hnone
  · rw [hids, hlast]
    exact h.last
  · rw [callOpenIn_append]
    exact hopen.trans h.opened
  · intro index'
    rw [hannounced]
    simp only [mem_append, mem_singleton]
    rcases s.callbacks.kept_toolCallPart argumentsPart index index' with ⟨rfl, hnone, hkept⟩ | ⟨hother, hkept⟩
    · have hunannounced : ¬ Announced before index' := (h.announced index').1 hnone
      change (∀ piece ∈ (s.callbacks.onMessagePart _).pendingIndexedToolCallDeltas index', _) ↔ _
      have hold := h.kept index'
      simp only [hunannounced, false_or] at hold ⊢
      rw [hkept]
      simp only [mem_append, mem_singleton, or_imp, forall_and, forall_eq, hold,
        StreamedMessagePart.toolCallPart.injEq, and_true]
    · change (∀ piece ∈ (s.callbacks.onMessagePart _).pendingIndexedToolCallDeltas index', _) ↔ _
      rw [hkept, h.kept]
      rcases hother with hindex | hknown
      · simp only [StreamedMessagePart.toolCallPart.injEq, Ne.symm hindex, and_false, or_false]
      · have hannounced' : Announced before index' := by
          by_contra hnot
          exact hknown ((h.announced index').2 hnot)
        simp only [hannounced', true_or]
  · intro id hid
    rw [hids] at hid
    change liveArguments id (s.callbacks.onMessagePart _).deltas = ""
    rw [live_toolCallPart, if_neg, String.append_empty]
    · exact h.silent id hid
    · exact fun hattributed => hid (h.attributed_mem hattributed)

end Tracks

/-! ### When both sides agree -/

/-- The live pieces are the arguments, if the stream ends here. -/
structure Agree (s : Streaming ι) : Prop where
  nodup : s.ids.Nodup
  live : ∀ (n : ℕ) (call : ToolCall), s.assembly.assembled[n]? = some call →
    liveArguments call.id s.callbacks.deltas = call.arguments.getD ""

theorem deltasAgree_iff_agree (info : StreamInfo) (parts : List (StreamedMessagePart ι)) :
    DeltasAgree info parts ↔ Agree (stream parts) := by
  have hassembly : ∀ (rest : List (StreamedMessagePart ι)) (s : Streaming ι),
      (rest.foldl Streaming.receive s).assembly = rest.foldl accept s.assembly := by
    intro rest
    induction rest with
    | nil => exact fun _ => rfl
    | cons part rest ih => exact fun s => ih (s.receive part)
  have hcalls : (stream parts).assembly.assembled = (parts.foldl accept {}).assembled :=
    congrArg assembled (hassembly parts {})
  constructor
  · intro h
    by_cases hnone : (parts.foldl accept {}).assembled = []
    · refine ⟨?_, fun n call hcall => ?_⟩
      · unfold Streaming.ids
        rw [hcalls, hnone]
        exact nodup_nil
      · rw [hcalls, hnone] at hcall
        cases hcall
    · obtain ⟨message, hmessage⟩ := exists_generate info hnone
      have hsame := (generate_toolCalls hmessage).trans hcalls.symm
      obtain ⟨hnodup, hlive⟩ := h message hmessage
      rw [hsame] at hnodup hlive
      exact ⟨hnodup, fun n call hcall => hlive call (mem_of_getElem? hcall)⟩
  · intro h message hmessage
    have hsame := (generate_toolCalls hmessage).trans hcalls.symm
    rw [hsame]
    refine ⟨h.nodup, fun call hcall => ?_⟩
    obtain ⟨n, hn⟩ := mem_iff_getElem?.1 hcall
    exact h.live n call hn

variable {before : List (StreamedMessagePart ι)} {s : Streaming ι}

theorem Agree.content (h : Agree s) (part : ContentPart) : Agree (s.receive (.content part)) := by
  have hcalls : (s.receive (.content part)).assembly.assembled = s.assembly.assembled :=
    (s.assembly.accept_content part).1
  refine ⟨?_, fun n call hcall => ?_⟩
  · unfold Streaming.ids
    rw [hcalls]
    exact h.nodup
  · rw [hcalls] at hcall
    exact h.live n call hcall

/-- A header keeps both sides together if its id is new and nothing was kept back for it. -/
theorem Agree.toolCall (h : Agree s) (ht : Tracks before s) (call : ToolCall)
    (streamIndex : Option ι) :
    Agree (s.receive (.toolCall call streamIndex)) ↔
      PartFits before (.toolCall call streamIndex) := by
  have hcalls : (s.receive (.toolCall call streamIndex)).assembly.assembled =
      s.assembly.assembled ++ [call] := s.assembly.assembled_accept_toolCall call streamIndex
  have hids : (s.receive (.toolCall call streamIndex)).ids = s.ids ++ [call.id] :=
    (congrArg (map ToolCall.id) hcalls).trans map_append
  have hnew : (∀ other index, .toolCall other index ∈ before → other.id ≠ call.id) ↔
      call.id ∉ s.ids := by
    rw [ht.ids]
    simp only [not_exists, not_and, ne_eq]
  have hkept : (∀ index, streamIndex = some index → Announced before index ∨
        ∀ text, .toolCallPart text (some index) ∈ before → text.getD "" = "") ↔
      (streamIndex.elim "" fun index =>
        joinPieces (s.callbacks.pendingIndexedToolCallDeltas index)) = "" := by
    cases streamIndex with
    | none => simp
    | some index =>
      rw [elim_some, joinPieces_eq_empty_iff, ht.kept]
      simp
  have hnodup : (s.ids ++ [call.id]).Nodup ↔ call.id ∉ s.ids := by
    rw [nodup_append_comm, singleton_append, nodup_cons]
    exact and_iff_left h.nodup
  change _ ↔ _ ∧ _
  rw [hnew, hkept]
  constructor
  · intro hagree
    have hfresh : call.id ∉ s.ids := hnodup.1 (hids ▸ hagree.nodup)
    refine ⟨hfresh, ?_⟩
    have hlive := hagree.live s.assembly.assembled.length call (by
      rw [hcalls]
      exact getElem?_concat_length)
    change liveArguments call.id (s.callbacks.onMessagePart _).deltas = _ at hlive
    rw [live_toolCall, if_pos rfl, ht.silent call.id hfresh, String.empty_append] at hlive
    exact String.append_eq_left_iff.1 hlive
  · rintro ⟨hfresh, hempty⟩
    refine ⟨?_, fun n other hother => ?_⟩
    · rw [hids]
      exact hnodup.2 hfresh
    · change liveArguments other.id (s.callbacks.onMessagePart _).deltas = _
      rw [live_toolCall, hempty, String.append_empty]
      rw [hcalls] at hother
      rcases mem_append.1 (mem_of_getElem? hother) with hold | hlast
      · obtain ⟨m, hm⟩ := mem_iff_getElem?.1 hold
        have hne : call.id ≠ other.id := by
          intro heq
          exact hfresh (heq ▸ mem_map_of_mem hold)
        rw [if_neg hne, String.append_empty]
        exact h.live m other hm
      · rw [mem_singleton.1 hlast, if_pos rfl, ht.silent call.id hfresh, String.empty_append]

/-- A piece keeps both sides together if it is empty, or both take it for the same call's. -/
theorem Agree.toolCallPart_iff_attributed (h : Agree s) (ht : Tracks before s)
    (argumentsPart : Option String) (index : Option ι) :
    Agree (s.receive (.toolCallPart argumentsPart index)) ↔
      argumentsPart.getD "" = "" ∨ ∀ (n : ℕ) (id : String), s.ids[n]? = some id →
        (s.callbacks.attributed index = some id ↔ s.assembly.route index = some n) := by
  have hids := ids_toolCallPart ht.bounded argumentsPart index
  have hcall : ∀ (n : ℕ) (call : ToolCall), s.assembly.assembled[n]? = some call →
      ((liveArguments call.id (s.receive (.toolCallPart argumentsPart index)).callbacks.deltas =
          (if s.assembly.route index = some n then call.appendArguments argumentsPart
            else call).arguments.getD "") ↔
        (if s.callbacks.attributed index = some call.id then argumentsPart.getD "" else "") =
          if s.assembly.route index = some n then argumentsPart.getD "" else "") := by
    intro n call hn
    have harguments : (if s.assembly.route index = some n then call.appendArguments argumentsPart
          else call).arguments.getD "" =
        call.arguments.getD "" ++
          if s.assembly.route index = some n then argumentsPart.getD "" else "" := by
      split
      · exact call.appendArguments_arguments argumentsPart
      · exact String.append_empty.symm
    change liveArguments call.id (s.callbacks.onMessagePart _).deltas = _ ↔ _
    rw [live_toolCallPart, harguments, h.live n call hn, String.append_right_inj]
  have hlive : Agree (s.receive (.toolCallPart argumentsPart index)) ↔
      ∀ (n : ℕ) (call : ToolCall), s.assembly.assembled[n]? = some call →
        (if s.callbacks.attributed index = some call.id then argumentsPart.getD "" else "") =
          if s.assembly.route index = some n then argumentsPart.getD "" else "" := by
    constructor
    · intro hagree n call hn
      refine (hcall n call hn).1 ?_
      have hlive := hagree.live n _ (by
        rw [getElem?_assembled_toolCallPart ht.bounded, hn]
        rfl)
      rw [← hlive]
      congr 1
      split
      · exact (call.appendArguments_id argumentsPart).symm
      · rfl
    · intro hall
      refine ⟨hids ▸ h.nodup, fun n call hn => ?_⟩
      rw [getElem?_assembled_toolCallPart ht.bounded] at hn
      obtain ⟨old, hold, rfl⟩ := map_eq_some_iff.1 hn
      refine Eq.trans ?_ ((hcall n old hold).2 (hall n old hold))
      congr 1
      split
      · exact old.appendArguments_id argumentsPart
      · rfl
  rw [hlive]
  constructor
  · intro hall
    refine or_iff_not_imp_left.2 fun hpiece n id hid => ?_
    obtain ⟨call, hn, rfl⟩ := map_eq_some_iff.1 ((getElem?_map ..).symm.trans hid)
    have hsame := hall n call hn
    constructor
    · intro hattributed
      by_contra hroute
      rw [if_pos hattributed, if_neg hroute] at hsame
      exact hpiece hsame
    · intro hroute
      by_contra hattributed
      rw [if_neg hattributed, if_pos hroute] at hsame
      exact hpiece hsame.symm
  · rintro (hpiece | hsame) n call hn
    · rw [hpiece, ite_self, ite_self]
    · have hid : s.ids[n]? = some call.id := (getElem?_map ..).trans (congrArg _ hn)
      by_cases hroute : s.assembly.route index = some n
      · rw [if_pos hroute, if_pos ((hsame n call.id hid).2 hroute)]
      · rw [if_neg hroute, if_neg fun hattributed => hroute ((hsame n call.id hid).1 hattributed)]

theorem Agree.toolCallPart (h : Agree s) (ht : Tracks before s) (argumentsPart : Option String)
    (index : Option ι) :
    Agree (s.receive (.toolCallPart argumentsPart index)) ↔
      PartFits before (.toolCallPart argumentsPart index) := by
  have hposition : ∀ {n m : ℕ} {id : String}, s.ids[n]? = some id → s.ids[m]? = some id → n = m := by
    intro n m id hn hm
    obtain ⟨hlt, hn⟩ := List.getElem?_eq_some_iff.1 hn
    obtain ⟨hlt', hm⟩ := List.getElem?_eq_some_iff.1 hm
    exact (List.Nodup.getElem_inj_iff h.nodup).1 (hn.trans hm.symm)
  -- an open call is the last one
  have hopen : s.assembly.callOpen = true → ∃ id, s.ids[s.assembly.toolCalls.length]? = some id ∧
      s.ids.getLast? = some id := by
    intro hopen
    obtain ⟨call, hcalls⟩ := assembled_of_open hopen
    have hids : s.ids = s.assembly.toolCalls.map (·.id) ++ [call.id] := by
      unfold Streaming.ids
      rw [hcalls, List.map_append]
      rfl
    refine ⟨call.id, ?_, ?_⟩
    · rw [hids, List.getElem?_append_right (by simp), List.length_map, Nat.sub_self]
      rfl
    · rw [hids]
      exact List.getLast?_concat
  rw [h.toolCallPart_iff_attributed ht]
  cases index with
  | some index =>
    refine or_congr_right ?_
    cases hidentity : s.callbacks.toolCallIdentities index with
    | some identity =>
      obtain ⟨m, htarget, hm⟩ := ht.known index identity hidentity
      have hannounced : Announced before index := by
        by_contra hnot
        rw [(ht.announced index).2 hnot] at hidentity
        cases hidentity
      refine iff_of_true (fun n id hid => ?_) (Or.inl hannounced)
      have hroute : s.assembly.route (some index) = some m := by
        unfold route
        rw [Option.bind_some, htarget]
        rfl
      have hattributed : s.callbacks.attributed (some index) = some identity.toolCallId :=
        congrArg (Option.map ToolCallIdentity.toolCallId) hidentity
      rw [hroute, hattributed, some.injEq, some.injEq]
      constructor
      · rintro rfl
        exact hposition hm hid
      · rintro rfl
        exact some.inj (hm.symm.trans hid)
    | none =>
      have hunannounced : ¬ Announced before index := (ht.announced index).1 hidentity
      have hroute : s.assembly.route (some index) =
          if s.assembly.callOpen then some s.assembly.toolCalls.length else none := by
        unfold route
        rw [Option.bind_some, ht.unknown index hidentity]
        rfl
      have hattributed : s.callbacks.attributed (some index) = none :=
        congrArg (Option.map ToolCallIdentity.toolCallId) hidentity
      rw [hroute, hattributed, ← ht.opened]
      simp only [hunannounced, false_or, reduceCtorEq, false_iff]
      cases hcall : s.assembly.callOpen with
      | false => simp
      | true =>
        obtain ⟨id, hid, -⟩ := hopen hcall
        simp only [reduceCtorEq, iff_false, not_forall]
        exact ⟨_, id, hid, fun hne => hne rfl⟩
  | none =>
    refine or_congr_right ?_
    have hroute : s.assembly.route none =
        if s.assembly.callOpen then some s.assembly.toolCalls.length else none := rfl
    have hattributed : s.callbacks.attributed none = s.ids.getLast? := ht.last
    have hnocall : (∀ call index, StreamedMessagePart.toolCall call index ∉ before) ↔ s.ids = [] := by
      rw [List.eq_nil_iff_forall_not_mem]
      constructor
      · intro hall id hid
        obtain ⟨call, index, hmem, -⟩ := (ht.ids id).1 hid
        exact hall call index hmem
      · intro hall call index hmem
        exact hall call.id ((ht.ids call.id).2 ⟨call, index, hmem, rfl⟩)
    rw [hroute, hattributed, ← ht.opened, hnocall]
    cases hcall : s.assembly.callOpen with
    | true =>
      obtain ⟨id, hid, hlast⟩ := hopen hcall
      refine iff_of_true (fun n id' hid' => ?_) (Or.inl rfl)
      rw [hlast, if_pos rfl, some.injEq, some.injEq]
      constructor
      · rintro rfl
        exact hposition hid hid'
      · rintro rfl
        exact some.inj (hid.symm.trans hid')
    | false =>
      simp only [Bool.false_eq_true, if_false, reduceCtorEq, iff_false, false_or]
      constructor
      · intro hall
        by_contra hne
        obtain ⟨id, hlast⟩ := Option.ne_none_iff_exists'.1 (mt List.getLast?_eq_none_iff.1 hne)
        obtain ⟨n, hn⟩ := List.mem_iff_getElem?.1 (List.mem_of_getLast? hlast)
        exact hall n id hn hlast
      · intro hnil n id hid
        rw [hnil] at hid
        cases hid

/-! ### Every stream -/

theorem Tracks.receive (ht : Tracks before s) (part : StreamedMessagePart ι) :
    Tracks (before ++ [part]) (s.receive part) := by
  cases part with
  | content part => exact ht.content part
  | toolCall call streamIndex => exact ht.toolCall call streamIndex
  | toolCallPart argumentsPart index => exact ht.toolCallPart argumentsPart index

theorem Agree.receive (h : Agree s) (ht : Tracks before s) (part : StreamedMessagePart ι) :
    Agree (s.receive part) ↔ PartFits before part := by
  cases part with
  | content part => exact iff_of_true (h.content part) trivial
  | toolCall call streamIndex => exact h.toolCall ht call streamIndex
  | toolCallPart argumentsPart index => exact h.toolCallPart ht argumentsPart index

theorem tracks_stream (parts : List (StreamedMessagePart ι)) : Tracks parts (stream parts) := by
  induction parts using reverseRecOn with
  | nil => exact Tracks.start
  | append_singleton parts part ih =>
    unfold stream
    rw [foldl_append]
    exact ih.receive part

omit [DecidableEq ι] in
theorem partsFit_append {parts : List (StreamedMessagePart ι)} {part : StreamedMessagePart ι} :
    PartsFit (parts ++ [part]) ↔ PartsFit parts ∧ PartFits parts part := by
  constructor
  · intro h
    refine ⟨fun before part' after heq => ?_, h parts part [] rfl⟩
    refine h before part' (after ++ [part]) ?_
    rw [heq, append_assoc]
    rfl
  · rintro ⟨hparts, hpart⟩ before part' after heq
    rcases eq_nil_or_concat after with rfl | ⟨after, last, rfl⟩
    · obtain ⟨rfl, hlast⟩ := append_inj' heq rfl
      cases hlast
      exact hpart
    · rw [concat_eq_append, ← cons_append, ← append_assoc] at heq
      exact hparts before part' after (append_inj' heq rfl).1

/-- **The live pieces are the arguments as long as all parts fit, and no longer**: at every moment
of a stream the calls assembled so far have the arguments that were passed on for them, if and only
if every part fits behind the earlier ones. -/
theorem agrees_iff (info : StreamInfo) (parts : List (StreamedMessagePart ι)) :
    (∀ before, before <+: parts → DeltasAgree info before) ↔ PartsFit parts := by
  simp only [deltasAgree_iff_agree]
  induction parts using reverseRecOn with
  | nil =>
    refine iff_of_true (fun before hbefore => ?_) fun before part after heq => ?_
    · rw [prefix_nil.1 hbefore]
      exact ⟨nodup_nil, fun n call hcall => by cases hcall⟩
    · cases before <;> cases heq
  | append_singleton parts part ih =>
    have hlast : stream (parts ++ [part]) = (stream parts).receive part := foldl_append ..
    rw [partsFit_append, ← ih]
    constructor
    · intro h
      refine ⟨fun before hbefore => h before (hbefore.trans (prefix_append _ _)), ?_⟩
      have hagree := h parts (prefix_append _ _)
      refine (hagree.receive (tracks_stream parts) part).1 ?_
      rw [← hlast]
      exact h _ prefix_rfl
    · rintro ⟨hparts, hpart⟩ before hbefore
      rcases prefix_concat_iff.1 hbefore with rfl | hbefore
      · have hagree := hparts parts prefix_rfl
        rw [hlast]
        exact (hagree.receive (tracks_stream parts) part).2 hpart
      · exact hparts before hbefore

/-- A call is announced, a text comes, and then the rest of its arguments without an index: they are
passed on, and they are missing in the message. -/
def textBetween : List (StreamedMessagePart ℕ) :=
  [.toolCall ⟨"call_bash", "Bash", some "\x7b\"command\":"⟩ none, .content (.text "on it"),
    .toolCallPart (some "\"pwd\"\x7d") none]

theorem textBetween_disagrees :
    ¬ ∀ (info : StreamInfo) (parts : List (StreamedMessagePart ℕ)), DeltasAgree info parts := by
  intro hall
  have hmessage : generate ⟨"p", "m", none, none⟩ textBetween =
      .ok { role := .assistant, content := [.text "on it"],
            toolCalls := [⟨"call_bash", "Bash", some "\x7b\"command\":"⟩] } := by decide
  have hlive := (hall ⟨"p", "m", none, none⟩ textBetween _ hmessage).2 _ (mem_singleton.2 rfl)
  revert hlive
  decide

end NoriCode
