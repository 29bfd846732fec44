/-
**Places of a transcript.**

An entry of a transcript keeps its place and its object while records are reduced, and its message
changes only while it is the assistant message of an open step.  The exception is an undo, which
takes entries away.  Which ones it takes can be read off the transcript: those behind the floor and
the last summary that fewer than the counted prompts come after, injections excepted.

Main definitions:

* `WireTranscript.OpenObjects` — which entries open steps write to;
* `KeepsPlaces` — the first places of a transcript, and of the same one later;
* `UndoLeaves` — an undo that takes none of the first places away;
* `AgentRecord.addsNothing` — the records that add no entry.

Main results:

* `KeepsPlaces.undo` — **such an undo leaves them alone**;
* `keepsPlaces_reduceWireRecords` — the places of a log, and of a longer one.
-/

import NoriCode.TranscriptMessages
import NoriCode.TranscriptUndo

namespace NoriCode

open List

/-! ### The objects of open steps -/

namespace WireTranscript

/-- **The objects of open steps.**  Their numbers were given, they are assistant messages, and none
of them is held back. -/
structure OpenObjects (t : WireTranscript) : Prop where
  bound : ∀ ref ∈ t.openRefs, ref < t.nextRef
  roles : ∀ e ∈ t.transcript, e.ref ∈ t.openRefs → e.message.role = .assistant
  held : ∀ e ∈ t.deferred ++ t.transcriptOnlyDeferred, e.ref ∉ t.openRefs

namespace OpenObjects

variable {t t' : WireTranscript}

theorem of_reset (t : WireTranscript) : OpenObjects t.resetOpenState :=
  ⟨fun _ href => (by cases href), fun _ _ href => (by cases href), fun _ he => (by cases he)⟩

variable (h : OpenObjects t)

include h

theorem of_append {es : List MutableEntry} (htranscript : t'.transcript = t.transcript ++ es)
    (hes : ∀ e ∈ es, e.ref ∉ t.openRefs) (hopen : t'.openRefs ⊆ t.openRefs)
    (hnext : t.nextRef ≤ t'.nextRef)
    (hheld : ∀ e ∈ t'.deferred ++ t'.transcriptOnlyDeferred, e.ref ∉ t.openRefs) :
    OpenObjects t' where
  bound := fun ref href => Nat.lt_of_lt_of_le (h.bound ref (hopen href)) hnext
  roles := fun e he href => by
    rw [htranscript] at he
    rcases mem_append.1 he with hold | hnew
    · exact h.roles e hold (hopen href)
    · exact absurd (hopen href) (hes e hnew)
  held := fun e he href => hheld e he (hopen href)

theorem fresh : t.nextRef ∉ t.openRefs :=
  fun hmem => Nat.lt_irrefl _ (h.bound _ hmem)

variable (message : ContextMessage)

theorem of_new (turnId : Option String)
    (htranscript : t'.transcript = t.transcript ++ [t.newEntry message turnId])
    (hopen : t'.openRefs ⊆ t.openRefs) (hnext : t'.nextRef = t.nextRef + 1)
    (hheld : t'.deferred ++ t'.transcriptOnlyDeferred ⊆ t.deferred ++ t.transcriptOnlyDeferred) :
    OpenObjects t' := by
  refine h.of_append htranscript ?_ hopen (by omega) fun e he => h.held e (hheld he)
  intro e he
  obtain rfl := mem_singleton.1 he
  exact h.fresh

theorem of_held (turnId : Option String) (htranscript : t'.transcript = t.transcript)
    (hopen : t'.openRefs ⊆ t.openRefs) (hnext : t'.nextRef = t.nextRef + 1)
    (hheld : ∀ e ∈ t'.deferred ++ t'.transcriptOnlyDeferred,
      e ∈ t.deferred ++ t.transcriptOnlyDeferred ∨ e = t.newEntry message turnId) :
    OpenObjects t' := by
  refine h.of_append (htranscript.trans (append_nil _).symm) (fun e he => by cases he) hopen
    (by omega) fun e he => ?_
  rcases hheld e he with hold | rfl
  · exact h.held e hold
  · exact h.fresh

theorem of_map {f : MutableEntry → MutableEntry} (htranscript : t'.transcript = t.transcript.map f)
    (hf : ∀ e, (f e).ref = e.ref ∧ (f e).message.role = e.message.role)
    (hopen : t'.openRefs = t.openRefs) (hnext : t'.nextRef = t.nextRef)
    (hheld : ∀ e ∈ t'.deferred ++ t'.transcriptOnlyDeferred, e.ref ∉ t.openRefs) :
    OpenObjects t' where
  bound := by
    rw [hopen, hnext]
    exact h.bound
  roles := fun e he href => by
    rw [htranscript] at he
    obtain ⟨e₀, he₀, rfl⟩ := mem_map.1 he
    rw [(hf e₀).2]
    rw [(hf e₀).1, hopen] at href
    exact h.roles e₀ he₀ href
  held := by
    rw [hopen]
    exact hheld

theorem flush : OpenObjects t.flushDeferredIfToolExchangeClosed := by
  unfold flushDeferredIfToolExchangeClosed
  split
  · exact h
  · have hall : (t.transcript ++ t.deferred) ++ t.transcriptOnlyDeferred =
        t.transcript ++ (t.deferred ++ t.transcriptOnlyDeferred) := append_assoc _ _ _
    refine h.of_append hall h.held (List.Subset.refl _) (Nat.le_refl _) fun e he => ?_
    cases he

theorem closeOne (p : String × Option String) : OpenObjects (t.closeOne p) :=
  h.of_new _ p.2 rfl (List.Subset.refl _) rfl (List.Subset.refl _)

theorem closePending : OpenObjects t.closePendingToolResults := by
  have hfold : ∀ (ps : List (String × Option String)) (u : WireTranscript), OpenObjects u →
      OpenObjects (ps.foldl WireTranscript.closeOne u) := by
    intro ps
    induction ps with
    | nil => exact fun u hu => hu
    | cons p ps ih => exact fun u hu => ih _ (hu.closeOne p)
  unfold closePendingToolResults
  split
  · exact h
  · exact (hfold _ t h).flush

theorem assignTurn (turnId : String) : OpenObjects (t.assignTurn turnId) := by
  have hkeep : ∀ e : MutableEntry,
      (if e.ref ∈ t.pendingTurnEntries then { e with turnId := some turnId } else e).ref = e.ref ∧
        (if e.ref ∈ t.pendingTurnEntries then
          { e with turnId := some turnId } else e).message.role = e.message.role := by
    intro e
    split <;> exact ⟨rfl, rfl⟩
  refine h.of_map rfl hkeep rfl rfl fun e he => ?_
  have he' : e ∈ (t.deferred ++ t.transcriptOnlyDeferred).map fun e =>
      if e.ref ∈ t.pendingTurnEntries then { e with turnId := some turnId } else e := by
    rw [map_append]
    exact he
  obtain ⟨e₀, he₀, rfl⟩ := mem_map.1 he'
  rw [(hkeep e₀).1]
  exact h.held e₀ he₀

theorem beginStep (ht : t.Numbered) (uuid turnId : String) :
    OpenObjects (t.beginStep uuid turnId) := by
  have hstart : OpenObjects { t with currentTurnId := some turnId } := ⟨h.bound, h.roles, h.held⟩
  have hnumbered : ({ t with currentTurnId := some turnId } : WireTranscript).Numbered :=
    ⟨ht.transcript, ht.deferred, ht.transcriptOnly⟩
  have hassign := hstart.assignTurn turnId
  have hall := (Continues.assignTurn hnumbered turnId).numbered
  unfold WireTranscript.beginStep
  generalize { t with currentTurnId := some turnId }.assignTurn turnId = u at hassign hall
  -- what is open now was open, or is the new entry
  have hmem : ∀ ref, ref ∈ (mapSet u.openSteps uuid u.nextRef).map Prod.snd →
      ref = u.nextRef ∨ ref ∈ u.openRefs := by
    intro ref href
    obtain ⟨entry, hentry, rfl⟩ := mem_map.1 href
    rcases mem_cons.1 hentry with rfl | hold
    · exact .inl rfl
    · exact .inr (mem_map_of_mem (mem_of_mem_filter hold))
  refine ⟨fun ref href => ?_, fun e he href => ?_, fun e he href => ?_⟩
  · rcases hmem ref href with rfl | hold
    · exact Nat.lt_succ_self _
    · exact Nat.lt_succ_of_lt (hassign.bound ref hold)
  · rcases mem_append.1 he with hold | hnew
    · rcases hmem e.ref href with heq | hopen
      · exact absurd (hall.transcript e hold) (by rw [heq]; exact Nat.lt_irrefl _)
      · exact hassign.roles e hold hopen
    · obtain rfl := mem_singleton.1 hnew
      rfl
  · rcases hmem e.ref href with heq | hopen
    · have hlt : e.ref < u.nextRef :=
        (mem_append.1 he).elim (hall.deferred e) (hall.transcriptOnly e)
      omega
    · exact hassign.held e he hopen

theorem updateStep (ref : ℕ) {f : ContextMessage → ContextMessage} (hf : ∀ m, (f m).role = m.role) :
    OpenObjects (t.updateStep ref f) := by
  refine h.of_map rfl (fun e => ?_) rfl rfl h.held
  split
  · exact ⟨rfl, hf e.message⟩
  · exact ⟨rfl, rfl⟩

theorem toolResult (toolCallId : String) (result : ExecutableToolResult) :
    OpenObjects (t.toolResult toolCallId result) := by
  unfold WireTranscript.toolResult
  split
  · exact h
  · rename_i turnId _
    exact flush (h.of_new _ turnId rfl (List.Subset.refl _) rfl (List.Subset.refl _))

theorem endStep (uuid : String) :
    OpenObjects { t with openSteps := mapDelete t.openSteps uuid } := by
  have hopen : (mapDelete t.openSteps uuid).map Prod.snd ⊆ t.openRefs := by
    intro ref href
    obtain ⟨entry, hentry, rfl⟩ := mem_map.1 href
    exact mem_map_of_mem (mem_of_mem_filter hentry)
  exact h.of_append (append_nil _).symm (fun e he => by cases he) hopen (Nat.le_refl _) h.held

theorem loopEvent (ht : t.Numbered) (event : LoopRecordedEvent) :
    OpenObjects (t.applyLoopEvent event) := by
  cases event with
  | stepBegin uuid turnId =>
    exact h.closePending.beginStep (Continues.closePending ht).numbered uuid turnId
  | stepEnd uuid usage => exact (h.endStep uuid).flush
  | contentPart stepUuid part =>
    unfold applyLoopEvent
    dsimp only
    split
    · exact h
    · rename_i ref _
      exact h.updateStep ref fun _ => rfl
  | toolCall stepUuid toolCallId name args =>
    unfold applyLoopEvent
    dsimp only
    split
    · exact h
    · rename_i ref _
      have hstep := h.updateStep ref (f := ContextMessage.addToolCall ⟨toolCallId, name, args⟩)
        fun _ => rfl
      exact ⟨hstep.bound, hstep.roles, hstep.held⟩
  | toolResult toolCallId result => exact h.toolResult toolCallId result

theorem appendMessage : OpenObjects (t.appendMessage message) := by
  unfold WireTranscript.appendMessage
  dsimp only
  split_ifs
  all_goals
    first
    | exact h.of_new message _ rfl (List.Subset.refl _) rfl (List.Subset.refl _)
    | exact h.of_held message _ rfl (List.Subset.refl _) rfl fun e he => by
        simp only [mem_append, mem_singleton] at he ⊢
        tauto

theorem appendTranscriptMessage : OpenObjects (t.appendTranscriptMessage message) := by
  unfold WireTranscript.appendTranscriptMessage
  dsimp only
  split_ifs
  all_goals
    first
    | exact h.of_new message _ rfl (List.Subset.refl _) rfl (List.Subset.refl _)
    | exact h.of_held message _ rfl (List.Subset.refl _) rfl fun e he => by
        simp only [mem_append, mem_singleton] at he ⊢
        tauto

theorem reduce (ht : t.Numbered) (r : AgentRecord) : OpenObjects (t.reduce r) := by
  cases r with
  | forked hadGoal => exact h
  | turnPrompt origin => exact ⟨h.bound, h.roles, h.held⟩
  | appendMessage message => exact h.appendMessage message
  | appendTranscriptMessage message => exact h.appendTranscriptMessage message
  | appendLoopEvent event => exact h.loopEvent ht event
  | applyCompaction | clear => exact of_reset _
  | undo count =>
    unfold WireTranscript.reduce applyUndo
    dsimp only
    split
    · exact h
    · exact of_reset _

end OpenObjects

end WireTranscript

/-! ### A message and the same message later -/

/-- **The same message, later**: only an assistant message grows. -/
def LaterForm (m m' : ContextMessage) : Prop := m' = m ∨ (m.role = .assistant ∧ Grows m m')

/-- The first places of a transcript, and of the same one later. -/
def KeepsPlaces (n : ℕ) (t t' : WireTranscript) : Prop :=
  ∀ i < n, ∀ e : MutableEntry, t.transcript[i]? = some e →
    ∃ e' : MutableEntry, t'.transcript[i]? = some e' ∧ e'.ref = e.ref ∧
      LaterForm e.message e'.message

namespace KeepsPlaces

open WireTranscript

variable {n : ℕ} {t t' t'' : WireTranscript}

theorem refl (n : ℕ) (t : WireTranscript) : KeepsPlaces n t t :=
  fun _ _ e he => ⟨e, he, rfl, .inl rfl⟩

theorem of_extends (h : Extends t t') (ht : t.OpenObjects) (n : ℕ) : KeepsPlaces n t t' := by
  intro i _ e he
  obtain ⟨e', he', href, hgrows, hclosed⟩ := h.entries i e he
  refine ⟨e', he', href, ?_⟩
  by_cases hopen : e.ref ∈ t.openRefs
  · exact .inr ⟨ht.roles e (mem_of_getElem? he) hopen, hgrows⟩
  · exact .inl (hclosed hopen)

end KeepsPlaces

/-! ### Undo -/

/-- **An undo that takes none of the first places away**: what stands there is in front of the
floor, is an injection, or is protected by a summary or by enough prompts behind it. -/
def UndoLeaves (t : WireTranscript) (count : ℤ) (n : ℕ) : Prop :=
  ∀ i < n, t.clearFloor ≤ i → ∀ e ∈ t.transcript[i]?, e.message.isInjection = false →
    (∃ e' ∈ t.transcript.drop i, e'.message.isCompactionSummary = true) ∨
      count ≤ ((t.transcript.drop (i + 1)).countP fun e' => isRealUserInput e'.message)

instance UndoLeaves.decidable (t : WireTranscript) (count : ℤ) (n : ℕ) :
    Decidable (UndoLeaves t count n) := by
  unfold UndoLeaves
  infer_instance

/-- The loop of an undo leaves the oldest entries of a list alone, if each of them is protected. -/
theorem take_undoKept {α : Type} {msg : α → ContextMessage} {count removed : ℤ} {n : ℕ}
    (hremoved : removed < count) (l : List α)
    (h : ∀ newer e older, l = newer ++ e :: older → older.length < n →
      (msg e).isInjection = false →
        (∃ e' ∈ newer ++ [e], (msg e').isCompactionSummary = true) ∨
          count ≤ removed + newer.countP fun e' => isRealUserInput (msg e')) :
    (undoKept msg count removed l).take n = l.reverse.take n := by
  induction l generalizing removed with
  | nil => rfl
  | cons e l ih =>
    -- what the entry itself counts for, and what is left for the older ones
    have hnext : ∀ removed' : ℤ, (msg e).isCompactionSummary = false →
        removed' = removed + (if isRealUserInput (msg e) then 1 else 0) → removed' < count →
        (undoKept msg count removed' l).take n = l.reverse.take n := by
      intro removed' hsummary heq hlt
      refine ih hlt fun newer e' older hl hlen hinj => ?_
      have hprotected := h (e :: newer) e' older (by rw [hl]; rfl) hlen hinj
      rcases hprotected with ⟨s, hs, hsum⟩ | hcount
      · rcases mem_cons.1 hs with rfl | hs
        · rw [hsummary] at hsum
          cases hsum
        · exact .inl ⟨s, hs, hsum⟩
      · refine .inr ?_
        rw [countP_cons] at hcount
        rw [heq]
        split at hcount <;> rename_i hreal <;> simp only [hreal] <;> push_cast at hcount <;>
          simp <;> omega
    have hlong : (msg e).isInjection = false → (msg e).isCompactionSummary = false →
        n ≤ l.length := by
      intro hinj hsummary
      by_contra hlt
      rcases h [] e l rfl (by omega) hinj with ⟨s, hs, hsum⟩ | hcount
      · obtain rfl := mem_singleton.1 hs
        rw [hsummary] at hsum
        cases hsum
      · simp at hcount
        omega
    unfold undoKept
    rw [reverse_cons]
    split_ifs with hinj hsum hreal hcount
    · have hmark : isMark (msg e) = false := by
        by_contra hmark
        rw [isInjection_of_isMark ((Bool.not_eq_false _).mp hmark)] at hinj
        cases hinj
      obtain ⟨hreal, hsummary⟩ : isRealUserInput (msg e) = false ∧
          (msg e).isCompactionSummary = false := by simpa [isMark] using hmark
      have hrest := hnext removed hsummary (by simp [hreal]) hremoved
      have hlen : (undoKept msg count removed l).length + _ = l.length :=
        length_undoKept count removed l
      by_cases hle : n ≤ l.length
      · have hkept : n ≤ (undoKept msg count removed l).length := by
          have heq := congrArg List.length hrest
          rw [length_take, length_take, length_reverse] at heq
          omega
        rw [take_append_of_le_length hkept, hrest,
          take_append_of_le_length (by rw [length_reverse]; exact hle)]
      · rw [take_of_length_le (by omega), take_of_length_le (by simp; omega)] at hrest
        rw [hrest]
    · rfl
    · have hle := hlong ((Bool.not_eq_true _).mp hinj) ((Bool.not_eq_true _).mp hsum)
      rw [take_append_of_le_length (by rw [length_reverse]; exact hle)]
    · have hle := hlong ((Bool.not_eq_true _).mp hinj) ((Bool.not_eq_true _).mp hsum)
      rw [take_append_of_le_length (by rw [length_reverse]; exact hle)]
      exact hnext _ ((Bool.not_eq_true _).mp hsum) (by simp [hreal]) (by omega)
    · have hle := hlong ((Bool.not_eq_true _).mp hinj) ((Bool.not_eq_true _).mp hsum)
      rw [take_append_of_le_length (by rw [length_reverse]; exact hle)]
      exact hnext _ ((Bool.not_eq_true _).mp hsum) (by simp [hreal]) hremoved

namespace KeepsPlaces

open WireTranscript

variable {n : ℕ} {t : WireTranscript}

/-- **An undo that leaves the first places alone.** -/
theorem undo {count : ℤ} (h : UndoLeaves t count n) : KeepsPlaces n t (t.applyUndo count) := by
  unfold applyUndo
  split
  · exact refl n t
  · rename_i hcount
    intro i hi e he
    refine ⟨e, ?_, rfl, .inl rfl⟩
    have hfront : (t.transcript.take t.clearFloor).length = min t.clearFloor t.transcript.length :=
      List.length_take
    have hlt := (List.getElem?_eq_some_iff.1 he).1
    show (t.transcript.take t.clearFloor ++ (undoEntries count
      (t.transcript.drop t.clearFloor).reverse [] 0 t.foldedLength).1)[i]? = some e
    by_cases hfloor : i < t.clearFloor
    · rw [List.getElem?_append_left (by omega), List.getElem?_take_of_lt hfloor]
      exact he
    · have htake : (undoKept (·.message) count 0 (t.transcript.drop t.clearFloor).reverse).take
          (n - t.clearFloor) = (t.transcript.drop t.clearFloor).take (n - t.clearFloor) := by
        refine (take_undoKept (by omega) _ fun newer e older hl hlen hinj => ?_).trans
          (by rw [List.reverse_reverse])
        -- the entry stands behind the floor and the older ones
        have hdrop : t.transcript.drop t.clearFloor = older.reverse ++ e :: newer.reverse := by
          rw [← List.reverse_reverse (t.transcript.drop t.clearFloor), hl]
          simp
        have hfrom : t.transcript.drop (t.clearFloor + older.length) = e :: newer.reverse := by
          rw [← List.drop_drop, hdrop, List.drop_left' (by simp)]
        have hbehind : t.transcript.drop (t.clearFloor + older.length + 1) = newer.reverse := by
          rw [← List.drop_drop, hfrom]
          rfl
        have hplace : t.transcript[t.clearFloor + older.length]? = some e := by
          rw [← List.head?_drop, hfrom]
          rfl
        have hprotected := h (t.clearFloor + older.length) (by omega) (by omega) e hplace hinj
        rw [hfrom, hbehind, List.countP_reverse] at hprotected
        refine hprotected.imp ?_ ?_
        · rintro ⟨s, hs, hsum⟩
          refine ⟨s, ?_, hsum⟩
          simpa [or_comm] using hs
        · intro hle
          rw [Int.zero_add]
          exact hle
      rw [List.getElem?_append_right (by omega), undoEntries_eq, List.append_nil, hfront]
      have hmin : min t.clearFloor t.transcript.length = t.clearFloor := by omega
      rw [hmin, ← List.getElem?_take_of_lt (show i - t.clearFloor < n - t.clearFloor by omega),
        htake, List.getElem?_take_of_lt (by omega), List.getElem?_drop]
      have hplus : t.clearFloor + (i - t.clearFloor) = i := by omega
      rw [hplus]
      exact he

end KeepsPlaces

/-! ### Logs -/

open WireTranscript

theorem openObjects_reduceWireRecords (records : List AgentRecord) :
    (reduceWireRecords records).OpenObjects := by
  induction records using reverseRecOn with
  | nil => exact OpenObjects.of_reset {}
  | append_singleton records r ih =>
    rw [reduceWireRecords, foldl_append]
    exact ih.reduce (numbered_reduceWireRecords records) r

/-- **The places of a log are kept by a longer one**, if nothing is undone in between. -/
theorem keepsPlaces_reduceWireRecords {records later : List AgentRecord}
    (h : ∀ r ∈ later, r.isUndo = false) (n : ℕ) :
    KeepsPlaces n (reduceWireRecords records) (reduceWireRecords (records ++ later)) :=
  .of_extends (extends_reduceWireRecords h) (openObjects_reduceWireRecords records) n

/-! ### Records that add nothing -/

/-- The record adds no entry to the transcript, whatever it is reduced in. -/
def AgentRecord.addsNothing : AgentRecord → Bool
  | .forked _ | .turnPrompt _ | .clear => true
  | .appendLoopEvent event =>
    match event with
    | .stepEnd _ _ | .contentPart _ _ | .toolCall _ _ _ _ => true
    | .stepBegin _ _ | .toolResult _ _ => false
  | .appendMessage _ | .appendTranscriptMessage _ | .applyCompaction _ | .undo _ => false

theorem AgentRecord.isUndo_of_addsNothing {r : AgentRecord} (h : r.addsNothing = true) :
    r.isUndo = false := by
  cases r with
  | undo count => cases h
  | _ => rfl

namespace WireTranscript

/-- Entries are held back only while calls wait. -/
def Settled (t : WireTranscript) : Prop :=
  t.pendingToolResults = [] → t.deferred = [] ∧ t.transcriptOnlyDeferred = []

namespace Settled

variable {t : WireTranscript}

theorem flush (t : WireTranscript) : Settled t.flushDeferredIfToolExchangeClosed := by
  unfold flushDeferredIfToolExchangeClosed
  split
  · rename_i hpending
    intro hnil
    rw [hnil] at hpending
    cases hpending
  · exact fun _ => ⟨rfl, rfl⟩

theorem loopEvent (h : Settled t) (event : LoopRecordedEvent) :
    Settled (t.applyLoopEvent event) := by
  cases event with
  | stepBegin uuid turnId =>
    have hclosed : Settled t.closePendingToolResults := by
      unfold closePendingToolResults
      split
      · exact h
      · exact flush _
    intro hnil
    obtain ⟨hdeferred, honly⟩ := hclosed hnil
    exact ⟨map_eq_nil_iff.2 hdeferred, map_eq_nil_iff.2 honly⟩
  | stepEnd uuid usage => exact flush _
  | contentPart stepUuid part =>
    unfold applyLoopEvent
    dsimp only
    split <;> exact h
  | toolCall stepUuid toolCallId name args =>
    unfold applyLoopEvent
    dsimp only
    split
    · exact h
    · -- the call waits
      intro hnil
      unfold orderedMapSet at hnil
      split at hnil
      · rename_i hkey
        rw [map_eq_nil_iff.1 hnil] at hkey
        cases hkey
      · exact absurd hnil (by simp)
  | toolResult toolCallId result =>
    unfold applyLoopEvent
    dsimp only
    unfold WireTranscript.toolResult
    split
    · exact h
    · exact flush _

theorem reduce (h : Settled t) (r : AgentRecord) : Settled (t.reduce r) := by
  cases r with
  | forked | turnPrompt => exact h
  | appendMessage message =>
    simp only [WireTranscript.reduce, WireTranscript.appendMessage]
    split_ifs with hreal hturn hpending hpending hturn hpending hpending
    all_goals
      intro hnil
      first
      | exact h hnil
      | exact absurd hpending (by rw [show t.pendingToolResults = [] from hnil]; decide)
  | appendTranscriptMessage message =>
    simp only [WireTranscript.reduce, WireTranscript.appendTranscriptMessage]
    split_ifs with hturn hpending hpending
    all_goals
      intro hnil
      first
      | exact h hnil
      | exact absurd hpending (by rw [show t.pendingToolResults = [] from hnil]; decide)
  | appendLoopEvent event => exact h.loopEvent event
  | applyCompaction | clear => exact fun _ => ⟨rfl, rfl⟩
  | undo count =>
    simp only [WireTranscript.reduce, applyUndo]
    split
    · exact h
    · exact fun _ => ⟨rfl, rfl⟩

theorem length_reduce (h : Settled t) {r : AgentRecord} (hr : r.addsNothing = true) :
    (t.reduce r).transcript.length = t.transcript.length := by
  have hupdate : ∀ ref f, (t.updateStep ref f).transcript.length = t.transcript.length :=
    fun ref f => length_map _
  cases r with
  | forked | turnPrompt | clear => rfl
  | appendLoopEvent event =>
    cases event with
    | stepEnd uuid usage =>
      simp only [WireTranscript.reduce, applyLoopEvent, flushDeferredIfToolExchangeClosed]
      split
      · rfl
      · rename_i hpending
        have hnil : t.pendingToolResults = [] :=
          length_eq_zero_iff.1 (Nat.eq_zero_of_not_pos hpending)
        obtain ⟨hdeferred, honly⟩ := h hnil
        simp [push, hdeferred, honly]
    | contentPart stepUuid part =>
      simp only [WireTranscript.reduce, applyLoopEvent]
      split
      · rfl
      · exact hupdate _ _
    | toolCall stepUuid toolCallId name args =>
      simp only [WireTranscript.reduce, applyLoopEvent]
      split
      · rfl
      · exact hupdate _ _
    | stepBegin uuid turnId => cases hr
    | toolResult toolCallId result => cases hr
  | appendMessage | appendTranscriptMessage | applyCompaction | undo => cases hr

end Settled

end WireTranscript

theorem settled_reduceWireRecords (records : List AgentRecord) :
    (reduceWireRecords records).Settled := by
  induction records using reverseRecOn with
  | nil => exact fun _ => ⟨rfl, rfl⟩
  | append_singleton records r ih =>
    rw [reduceWireRecords, foldl_append]
    exact ih.reduce r

theorem length_of_addsNothing {records later : List AgentRecord}
    (h : ∀ r ∈ later, r.addsNothing = true) :
    (reduceWireRecords (records ++ later)).transcript.length =
      (reduceWireRecords records).transcript.length := by
  induction later using reverseRecOn with
  | nil => rw [append_nil]
  | append_singleton later r ih =>
    have hinit := ih fun r' hr' => h r' (mem_append_left _ hr')
    have hlast := h r (mem_append_right _ (.head _))
    rw [← hinit, ← (settled_reduceWireRecords (records ++ later)).length_reduce hlast,
      ← append_assoc, reduceWireRecords, foldl_append]
    rfl

end NoriCode
