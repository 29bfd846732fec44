/-
**What a compaction does to messages that came while it ran.**

The worker of a compaction summarizes the history as it was at the beginning.  When the summary is
there, the history must still begin with the same message objects, and behind them there may only be
genuine user input; otherwise the compaction is cancelled.  The rebuilt history keeps the newest
user input within a budget.  Messages that wait for an exchange to close are dropped, and the
exchange is forgotten.

The module puts the compaction beside the part of `agent/context/index.ts` that appends messages, as
far as a compaction can tell messages apart: by identity.  Everything else that changes the history,
as undoing or clearing it, removes messages.

Main definitions:

* `CompactingContext`, `CompactingStep` — the state, and what can happen;
* `Rebuilt` — what the rebuilt history has of the user input.

Main results:

* `RefsFresh.step` — messages are told apart by their identities;
* `compaction_keeps_tail` — **what was not summarized is user input, and the newest of it
  is kept**.
-/

import NoriCode.Compaction
import NoriCode.ContextMemory
import Mathlib.Data.List.Perm.Subperm

namespace NoriCode

open LibOrdSet List Option LibRun CompactionState

/-! ### State -/

/-- A context, with the compactions that run. -/
structure CompactingContext where
  compaction : CompactionState := {}
  pendingToolResultIds : OrdSet String := .empty
  deferredMessages : List HistoryMessage := []

/-- What can happen. -/
inductive CompactingStep where
  | compaction (step : CompactionStep)
  | appendMessage (message : ContextMessage)
  /-- A step of a turn begins; its message is pushed. -/
  | beginStep (message : ContextMessage)
  /-- A message object is changed in place. -/
  | mutate (ref : ℕ) (message : ContextMessage)
  | toolCall (toolCallId : String)
  | toolResult (toolCallId : String) (result : ExecutableToolResult)
  | endStep
  /-- Messages are removed, and perhaps calls do not wait any longer. -/
  | remove (keeps : ℕ → Bool) (pendingToolResultIds : OrdSet String)

namespace CompactingContext

def history (s : CompactingContext) : List HistoryMessage := s.compaction.history

/-- The messages of the history, and those that wait. -/
def messages (s : CompactingContext) : List HistoryMessage := s.history ++ s.deferredMessages

/-- A new object for a message. -/
def newMessage (s : CompactingContext) (message : ContextMessage) : HistoryMessage :=
  ⟨s.compaction.nextRef, message⟩

def pushHistory (s : CompactingContext) (message : ContextMessage) : CompactingContext :=
  { s with compaction := { s.compaction with
      history := s.history ++ [s.newMessage message]
      nextRef := s.compaction.nextRef + 1 } }

/-- **`appendMessage`.** -/
def append (s : CompactingContext) (message : ContextMessage) : CompactingContext :=
  if s.pendingToolResultIds.isEmpty then s.pushHistory message
  else { s with
    compaction := { s.compaction with nextRef := s.compaction.nextRef + 1 }
    deferredMessages := s.deferredMessages ++ [s.newMessage message] }

def flushDeferredMessagesIfToolExchangeClosed (s : CompactingContext) : CompactingContext :=
  if s.pendingToolResultIds.isEmpty then
    { s with
      compaction := { s.compaction with history := s.history ++ s.deferredMessages }
      deferredMessages := [] }
  else s

def toolResult (s : CompactingContext) (toolCallId : String) (result : ExecutableToolResult) :
    CompactingContext :=
  if toolCallId ∈ s.pendingToolResultIds then
    flushDeferredMessagesIfToolExchangeClosed
      { s.pushHistory (toolResultMessage toolCallId result) with
        pendingToolResultIds := s.pendingToolResultIds.erase toolCallId }
  else s

/-- Calls that a step has left behind are answered before the next step. -/
def closePendingToolResults (s : CompactingContext) : CompactingContext :=
  s.pendingToolResultIds.toList.foldl (fun s id => s.toolResult id interruptedResult) s

/-- The summary is there: where it is applied, what waits is dropped with the exchange. -/
def resolve (s : CompactingContext) (w : ℕ) (worker : CompactionWorker) (summary : String) :
    CompactingContext :=
  let compaction := s.compaction.resolve w worker summary
  if s.compaction.stillCovers worker then
    { compaction, pendingToolResultIds := .empty, deferredMessages := [] }
  else { s with compaction }

def step (maxCompactionPerTurn : ℕ) (budget : ℕ → ℕ → ℕ) (s : CompactingContext) :
    CompactingStep → Option CompactingContext
  | .compaction (.setHistory _) => none
  | .compaction (.resolved w summary) =>
    (s.compaction.waiting w .request).map fun worker => s.resolve w worker summary
  | .compaction a =>
    (CompactionState.step maxCompactionPerTurn budget s.compaction a).map fun compaction =>
      { s with compaction }
  | .appendMessage message => some (s.append message)
  | .beginStep message => some (s.closePendingToolResults.pushHistory message)
  | .mutate ref message => some { s with compaction := { s.compaction with
      history := s.history.map fun m => if m.ref = ref then ⟨ref, message⟩ else m } }
  | .toolCall toolCallId =>
    some { s with pendingToolResultIds := s.pendingToolResultIds.insert toolCallId }
  | .toolResult toolCallId result => some (s.toolResult toolCallId result)
  | .endStep => some s.flushDeferredMessagesIfToolExchangeClosed
  | .remove keeps pendingToolResultIds => some
      { compaction := { s.compaction with history := s.history.filter (keeps ·.ref) }
        pendingToolResultIds
        deferredMessages := s.deferredMessages.filter (keeps ·.ref) }

end CompactingContext

/-- The estimated size of some messages. -/
def tokensOfMessages (messages : List HistoryMessage) : ℕ :=
  (messages.map fun m => estimateTokensForMessage m.message.toMessage).sum

/-- **What the rebuilt history has of the user input**: the newest messages that fit the budget as
they are, the next one cut down to what is left of it, and no older one. -/
structure Rebuilt (s t : CompactingContext) : Prop where
  verbatim : ∀ older m newer,
    s.history.filter (isRealUserInput ·.message) = older ++ m :: newer →
    tokensOfMessages (m :: newer) ≤ COMPACT_USER_MESSAGE_MAX_TOKENS → m ∈ t.history
  truncated : ∀ older m newer,
    s.history.filter (isRealUserInput ·.message) = older ++ m :: newer →
    tokensOfMessages newer < COMPACT_USER_MESSAGE_MAX_TOKENS →
    COMPACT_USER_MESSAGE_MAX_TOKENS < tokensOfMessages (m :: newer) →
    ∃ k ∈ t.history, k.message = truncateUserMessage m.message
      (COMPACT_USER_MESSAGE_MAX_TOKENS - tokensOfMessages newer)
  tooOld : ∀ older m newer,
    s.history.filter (isRealUserInput ·.message) = older ++ m :: newer →
    COMPACT_USER_MESSAGE_MAX_TOKENS ≤ tokensOfMessages newer → ∀ k ∈ t.history, k.ref ≠ m.ref

/-! ### What is kept -/

theorem estimateTokensForMessage_pos (m : Message) : 0 < estimateTokensForMessage m := by
  have hrole : 0 < estimateTokens m.role.text := by
    cases m.role <;> decide
  unfold estimateTokensForMessage
  omega

theorem tokensOfMessages_cons (m : HistoryMessage) (l : List HistoryMessage) :
    tokensOfMessages (m :: l) =
      estimateTokensForMessage m.message.toMessage + tokensOfMessages l := by
  simp [tokensOfMessages]

theorem tokensOfMessages_reverse (l : List HistoryMessage) :
    tokensOfMessages l.reverse = tokensOfMessages l := by
  simp [tokensOfMessages, sum_reverse]

theorem keptFromNewest_append (ref : ℕ) {remaining : ℕ} {newest : List HistoryMessage}
    (older : List HistoryMessage) (h : tokensOfMessages newest ≤ remaining) :
    keptFromNewest ref remaining (newest ++ older) =
      newest ++ keptFromNewest ref (remaining - tokensOfMessages newest) older := by
  induction newest generalizing remaining with
  | nil => simp [tokensOfMessages]
  | cons m newest ih =>
    rw [tokensOfMessages_cons] at h ⊢
    have hpos := estimateTokensForMessage_pos m.message.toMessage
    have hrest : tokensOfMessages newest ≤
        remaining - estimateTokensForMessage m.message.toMessage := by omega
    rw [cons_append, keptFromNewest, if_neg (by omega), if_pos (by omega), ih hrest,
      cons_append, Nat.sub_sub]

theorem keptFromNewest_full (ref : ℕ) {remaining : ℕ} {newest : List HistoryMessage}
    (older : List HistoryMessage) (h : remaining ≤ tokensOfMessages newest) :
    ∀ k ∈ keptFromNewest ref remaining (newest ++ older), k ∈ newest ∨ k.ref = ref := by
  induction newest generalizing remaining with
  | nil =>
    have hzero : remaining = 0 := by
      simpa [tokensOfMessages] using h
    subst hzero
    cases older with
    | nil | cons => simp [keptFromNewest]
  | cons m newest ih =>
    intro k hk
    rw [tokensOfMessages_cons] at h
    rw [cons_append, keptFromNewest] at hk
    split_ifs at hk with hnone hfits
    · cases hk
    · rcases mem_cons.1 hk with rfl | hk
      · exact Or.inl (.head _)
      · exact (ih (by omega) k hk).imp (mem_cons_of_mem m) id
    · exact Or.inr (by rw [mem_singleton.1 hk])

/-! ### Identities -/

/-- **Messages are told apart by their identities.** -/
structure RefsFresh (s : CompactingContext) : Prop where
  nodup : (s.messages.map (·.ref)).Nodup
  lt : ∀ m ∈ s.messages, m.ref < s.compaction.nextRef

namespace RefsFresh

variable {s : CompactingContext}

theorem initial : RefsFresh {} := ⟨nodup_nil, fun m hm => by cases hm⟩

variable (h : RefsFresh s)

include h

theorem of_subperm {t : CompactingContext}
    (hsub : (t.messages.map (·.ref)).Subperm (s.messages.map (·.ref)))
    (hnext : t.compaction.nextRef = s.compaction.nextRef) : RefsFresh t where
  nodup := by
    obtain ⟨l, hperm, hl⟩ := hsub
    exact hperm.nodup_iff.1 (h.nodup.sublist hl)
  lt m hm := by
    obtain ⟨m', hm', href⟩ := mem_map.1 (hsub.subset (mem_map_of_mem hm))
    rw [hnext, ← href]
    exact h.lt m' hm'

theorem of_new {t : CompactingContext}
    (hperm : (t.messages.map (·.ref)).Perm (s.messages.map (·.ref) ++ [s.compaction.nextRef]))
    (hnext : t.compaction.nextRef = s.compaction.nextRef + 1) : RefsFresh t where
  nodup := by
    refine hperm.nodup_iff.2 (nodup_append.2 ⟨h.nodup, nodup_singleton _, ?_⟩)
    intro a ha b hb
    obtain ⟨m, hm, rfl⟩ := mem_map.1 ha
    rw [mem_singleton.1 hb]
    exact Nat.ne_of_lt (h.lt m hm)
  lt m hm := by
    have hmem := hperm.subset (mem_map_of_mem (f := HistoryMessage.ref) hm)
    rcases mem_append.1 hmem with hmem | hmem
    · obtain ⟨m', hm', href⟩ := mem_map.1 hmem
      have hlt := h.lt m' hm'
      omega
    · have href := mem_singleton.1 hmem
      omega

theorem pushHistory (message : ContextMessage) : RefsFresh (s.pushHistory message) := by
  refine h.of_new ?_ rfl
  change ((s.history ++ [s.newMessage message] ++ s.deferredMessages).map (·.ref)).Perm _
  simp only [CompactingContext.messages, map_append, append_assoc]
  exact perm_append_comm.append_left _

theorem append (message : ContextMessage) : RefsFresh (s.append message) := by
  unfold CompactingContext.append
  split_ifs
  · exact h.pushHistory message
  · refine h.of_new ?_ rfl
    change ((s.history ++ (s.deferredMessages ++ [s.newMessage message])).map (·.ref)).Perm _
    simp [CompactingContext.messages, CompactingContext.newMessage]

theorem flush : RefsFresh s.flushDeferredMessagesIfToolExchangeClosed := by
  unfold CompactingContext.flushDeferredMessagesIfToolExchangeClosed
  split_ifs
  · have hsame : (s.history ++ s.deferredMessages) ++ [] = s.messages := append_nil _
    have hperm := List.Perm.of_eq (congrArg (List.map HistoryMessage.ref) hsame)
    exact h.of_subperm hperm.subperm rfl
  · exact h

theorem toolResult (toolCallId : String) (result : ExecutableToolResult) :
    RefsFresh (s.toolResult toolCallId result) := by
  unfold CompactingContext.toolResult
  split_ifs
  · exact flush ⟨(h.pushHistory _).nodup, (h.pushHistory _).lt⟩
  · exact h

theorem closePendingToolResults : RefsFresh s.closePendingToolResults := by
  have hfold : ∀ (ids : List String) {s : CompactingContext}, RefsFresh s →
      RefsFresh (ids.foldl (fun s id => s.toolResult id interruptedResult) s) := by
    intro ids
    induction ids with
    | nil => exact fun h => h
    | cons id ids ih => exact fun h => ih (h.toolResult id interruptedResult)
  exact hfold _ h

end RefsFresh

/-! ### The rebuilt history -/

/-- A compaction that is not applied leaves the history alone. -/
def CompactionState.KeepsHistory (s t : CompactionState) : Prop :=
  t.history = s.history ∧ t.nextRef = s.nextRef

namespace CompactionState.KeepsHistory

variable (s : CompactionState)

theorem cancel (writer : Option ℕ) : s.KeepsHistory (s.cancel writer) := by
  unfold CompactionState.cancel
  cases s.compacting with
  | none | some => exact ⟨rfl, rfl⟩

theorem bail (w : ℕ) : s.KeepsHistory (s.bail w) := cancel s (some w)

theorem fail (w : ℕ) (error : RequestError) : s.KeepsHistory (s.fail w error) := by
  unfold CompactionState.fail
  split_ifs
  · exact ⟨rfl, rfl⟩
  · exact cancel s (some w)

theorem begin (maxCompactionPerTurn : ℕ) (source : CompactionSource) (hasActiveTurn : Bool) :
    s.KeepsHistory (s.begin maxCompactionPerTurn source hasActiveTurn) := by
  simp only [CompactionState.begin]
  split_ifs <;> exact ⟨rfl, rfl⟩

theorem reject (budget : ℕ → ℕ → ℕ) (w : ℕ) (worker : CompactionWorker) (error : RequestError) :
    s.KeepsHistory (CompactionState.reject budget s w worker error) := by
  unfold CompactionState.reject
  cases CompactionState.retry budget worker error with
  | fail => exact fail s w error
  | again worker' => exact ⟨rfl, rfl⟩
  | later =>
    split_ifs <;> exact ⟨rfl, rfl⟩

variable {s}

/-- **Every step** of a compaction, but the one that brings the summary. -/
theorem step {t : CompactionState} {maxCompactionPerTurn : ℕ} {budget : ℕ → ℕ → ℕ}
    {a : CompactionStep} (hhistory : ∀ history, a ≠ .setHistory history)
    (hresolved : ∀ w summary, a ≠ .resolved w summary)
    (ht : s.step maxCompactionPerTurn budget a = some t) : s.KeepsHistory t := by
  cases a with
  | begin source hasActiveTurn => exact some.inj ht ▸ begin s _ source hasActiveTurn
  | cancel => exact some.inj ht ▸ cancel s none
  | resetForTurn => exact some.inj ht ▸ ⟨rfl, rfl⟩
  | block =>
    obtain ⟨w, -, rfl⟩ := map_eq_some_iff.1 ht
    exact ⟨rfl, rfl⟩
  | turnAborted w =>
    cases ht
    split_ifs
    · exact cancel s none
    · exact ⟨rfl, rfl⟩
  | setHistory history => exact absurd rfl (hhistory history)
  | hookDone w error =>
    cases error with
    | none =>
      obtain ⟨worker, -, rfl⟩ := map_eq_some_iff.1 ht
      split_ifs <;> exact ⟨rfl, rfl⟩
    | some error =>
      obtain ⟨worker, -, rfl⟩ := map_eq_some_iff.1 ht
      exact fail s w error
  | resolved w summary => exact absurd rfl (hresolved w summary)
  | rejected w error =>
    obtain ⟨worker, -, rfl⟩ := map_eq_some_iff.1 ht
    exact reject s budget w worker error
  | woken w =>
    obtain ⟨worker, -, rfl⟩ := map_eq_some_iff.1 ht
    split_ifs <;> exact ⟨rfl, rfl⟩
  | reinjected w error =>
    cases error with
    | none =>
      obtain ⟨worker, -, rfl⟩ := map_eq_some_iff.1 ht
      exact ⟨rfl, rfl⟩
    | some error =>
      obtain ⟨worker, -, rfl⟩ := map_eq_some_iff.1 ht
      exact fail s w error

end CompactionState.KeepsHistory

theorem keptFromNewest_refs (ref : ℕ) (remaining : ℕ) (l : List HistoryMessage) :
    ∃ kept, kept.Sublist l ∧ (keptFromNewest ref remaining l = kept ∨
      ∃ message, keptFromNewest ref remaining l = kept ++ [⟨ref, message⟩]) := by
  induction l generalizing remaining with
  | nil => exact ⟨[], List.Sublist.refl _, Or.inl rfl⟩
  | cons m l ih =>
    unfold keptFromNewest
    dsimp only
    split_ifs
    · exact ⟨[], nil_sublist _, Or.inl rfl⟩
    · obtain ⟨kept, hkept, heq⟩ := ih (remaining - estimateTokensForMessage m.message.toMessage)
      refine ⟨m :: kept, hkept.cons_cons m, heq.imp (congrArg (m :: ·)) ?_⟩
      rintro ⟨message, heq⟩
      exact ⟨message, congrArg (m :: ·) heq⟩
    · exact ⟨[], nil_sublist _, Or.inr ⟨_, rfl⟩⟩

namespace CompactionState

/-- The user input of a history. -/
def users (s : CompactionState) : List HistoryMessage :=
  s.history.filter (isRealUserInput ·.message)

/-- What the rebuilt history has of the user input. -/
def keptUsers (s : CompactionState) : List HistoryMessage :=
  (keptFromNewest s.nextRef COMPACT_USER_MESSAGE_MAX_TOKENS s.users.reverse).reverse

theorem history_applyCompaction (s : CompactionState) (summary : String) :
    (s.applyCompaction summary).history =
      s.keptUsers ++ [⟨s.nextRef + 1, compactionSummary summary⟩] := rfl

theorem keptUsers_eq (s : CompactionState) {older newer : List HistoryMessage} {m : HistoryMessage}
    (hsplit : s.users = older ++ m :: newer) : s.keptUsers =
      (keptFromNewest s.nextRef COMPACT_USER_MESSAGE_MAX_TOKENS
        (newer.reverse ++ m :: older.reverse)).reverse := by
  rw [keptUsers, hsplit]
  simp

end CompactionState

namespace RefsFresh

variable {s : CompactingContext}

theorem applied (h : RefsFresh s) (summary : String) {t : CompactingContext}
    (ht : t.history = (s.compaction.applyCompaction summary).history)
    (hnext : t.compaction.nextRef = s.compaction.nextRef + 2)
    (hdeferred : t.deferredMessages = []) :
    RefsFresh t := by
  obtain ⟨kept, hkept, heq⟩ := keptFromNewest_refs s.compaction.nextRef
    COMPACT_USER_MESSAGE_MAX_TOKENS s.compaction.users.reverse
  have hsub : kept.reverse.Sublist s.messages := by
    have husers : s.compaction.users.Sublist s.messages :=
      filter_sublist.trans (sublist_append_left _ _)
    refine List.Sublist.trans ?_ husers
    rw [← reverse_reverse s.compaction.users]
    exact hkept.reverse
  have hold : (kept.reverse.map (·.ref)).Nodup := h.nodup.sublist (hsub.map _)
  have hlt : ∀ m ∈ kept.reverse, m.ref < s.compaction.nextRef := fun m hm => h.lt m (hsub.subset hm)
  have hmessages : t.messages =
      s.compaction.keptUsers ++ [⟨s.compaction.nextRef + 1, compactionSummary summary⟩] := by
    rw [CompactingContext.messages, ht, hdeferred, append_nil]
    rfl
  have hshape : ∃ new : List HistoryMessage, t.messages.Perm (kept.reverse ++ new) ∧
      (new.map (·.ref)).Nodup ∧ ∀ m ∈ new, s.compaction.nextRef ≤ m.ref ∧
        m.ref < s.compaction.nextRef + 2 := by
    rcases heq with heq | ⟨message, heq⟩
    · refine ⟨[⟨s.compaction.nextRef + 1, compactionSummary summary⟩], ?_, by simp, by simp⟩
      rw [hmessages, keptUsers, heq]
    · refine ⟨[⟨s.compaction.nextRef, message⟩,
        ⟨s.compaction.nextRef + 1, compactionSummary summary⟩], ?_, by simp, by simp⟩
      rw [hmessages, keptUsers, heq, reverse_append, reverse_singleton,
        singleton_append, cons_append]
      exact perm_middle.symm
  obtain ⟨new, hperm, hnew, hbounds⟩ := hshape
  refine ⟨?_, fun m hm => ?_⟩
  · refine (hperm.map _).nodup_iff.2 ?_
    rw [map_append]
    refine nodup_append.2 ⟨hold, hnew, ?_⟩
    intro a ha b hb
    obtain ⟨m, hm, rfl⟩ := mem_map.1 ha
    obtain ⟨m', hm', rfl⟩ := mem_map.1 hb
    have hmlt := hlt m hm
    have hmle := (hbounds m' hm').1
    omega
  · rw [hnext]
    rcases mem_append.1 (hperm.subset hm) with hm | hm
    · have hmlt := hlt m hm
      omega
    · exact (hbounds m hm).2

end RefsFresh

/-! ### Steps -/

theorem CompactingContext.step_compaction {maxCompactionPerTurn : ℕ} {budget : ℕ → ℕ → ℕ}
    (s : CompactingContext) {a : CompactionStep} (hhistory : ∀ history, a ≠ .setHistory history)
    (hresolved : ∀ w summary, a ≠ .resolved w summary) :
    s.step maxCompactionPerTurn budget (.compaction a) =
      (CompactionState.step maxCompactionPerTurn budget s.compaction a).map fun compaction =>
        { s with compaction } := by
  cases a with
  | setHistory history => exact absurd rfl (hhistory history)
  | resolved w summary => exact absurd rfl (hresolved w summary)
  | hookDone w error | reinjected w error => cases error <;> rfl
  | _ => rfl

namespace RefsFresh

variable {s t : CompactingContext}

theorem resolve (h : RefsFresh s) (w : ℕ) (worker : CompactionWorker) (summary : String) :
    RefsFresh (s.resolve w worker summary) := by
  simp only [CompactingContext.resolve, CompactionState.resolve]
  split_ifs
  · exact h.applied summary rfl rfl rfl
  · obtain ⟨hhistory, hnext⟩ := CompactionState.KeepsHistory.bail s.compaction w
    have hsame : (s.compaction.bail w).history ++ s.deferredMessages = s.messages := by
      rw [hhistory]
      rfl
    have hperm := List.Perm.of_eq (congrArg (List.map HistoryMessage.ref) hsame)
    exact h.of_subperm hperm.subperm hnext

theorem step (h : RefsFresh s) {maxCompactionPerTurn : ℕ} {budget : ℕ → ℕ → ℕ}
    {a : CompactingStep} (ht : s.step maxCompactionPerTurn budget a = some t) : RefsFresh t := by
  cases a with
  | compaction c =>
    by_cases hresolved : ∃ w summary, c = .resolved w summary
    · obtain ⟨w, summary, rfl⟩ := hresolved
      obtain ⟨worker, -, rfl⟩ := map_eq_some_iff.1 ht
      exact h.resolve w worker summary
    · have hother : ∀ w summary, c ≠ .resolved w summary :=
        fun w summary heq => hresolved ⟨w, summary, heq⟩
      have hhistory : ∀ history, c ≠ .setHistory history := by
        rintro history rfl
        cases ht
      rw [s.step_compaction hhistory hother] at ht
      obtain ⟨compaction, hc, rfl⟩ := map_eq_some_iff.1 ht
      obtain ⟨hsame, hnext⟩ := CompactionState.KeepsHistory.step hhistory hother hc
      have hmessages : compaction.history ++ s.deferredMessages = s.messages := by
        rw [hsame]
        rfl
      have hperm := List.Perm.of_eq (congrArg (List.map HistoryMessage.ref) hmessages)
      exact h.of_subperm hperm.subperm hnext
  | appendMessage message => exact some.inj ht ▸ h.append message
  | beginStep message => exact some.inj ht ▸ h.closePendingToolResults.pushHistory message
  | mutate ref message =>
    cases ht
    have hrefs : ((s.history.map fun m => if m.ref = ref then ⟨ref, message⟩ else m) ++
        s.deferredMessages).map HistoryMessage.ref = s.messages.map HistoryMessage.ref := by
      rw [CompactingContext.messages, List.map_append, List.map_append, List.map_map]
      congr 1
      refine List.map_congr_left fun m _ => ?_
      by_cases href : m.ref = ref <;> simp [href]
    exact h.of_subperm (List.Perm.of_eq hrefs).subperm rfl
  | toolCall toolCallId => exact some.inj ht ▸ ⟨h.nodup, h.lt⟩
  | toolResult toolCallId result => exact some.inj ht ▸ h.toolResult toolCallId result
  | endStep => exact some.inj ht ▸ h.flush
  | remove keeps pending =>
    cases ht
    have hsub : (s.history.filter (keeps ·.ref) ++
        s.deferredMessages.filter (keeps ·.ref)).Sublist s.messages :=
      List.filter_sublist.append List.filter_sublist
    exact h.of_subperm (hsub.map HistoryMessage.ref).subperm rfl

end RefsFresh

/-! ### What was not summarized -/

theorem CompactionState.isRealUserInput_of_stillCovers {s : CompactionState}
    {worker : CompactionWorker} (h : s.stillCovers worker = true) {m : HistoryMessage}
    (hm : m ∈ s.history) (hnew : m.ref ∉ worker.originalHistory.map (·.ref)) :
    isRealUserInput m.message = true := by
  obtain ⟨hstarts, htail⟩ := Bool.and_eq_true_iff.1 h
  obtain ⟨rest, hrest⟩ := isPrefixOf_iff_prefix.1 hstarts
  rw [← take_append_drop worker.originalHistory.length s.history] at hm
  rcases mem_append.1 hm with hm | hm
  · refine absurd ?_ hnew
    have hmem := mem_map_of_mem (f := HistoryMessage.ref) hm
    rw [map_take, ← hrest, take_left' (by rw [length_map])] at hmem
    exact hmem
  · exact all_eq_true.1 htail m hm

/-- **The rebuilt history.** -/
theorem RefsFresh.rebuilt {s t : CompactingContext} (h : RefsFresh s) {summary : String}
    (ht : t.history = (s.compaction.applyCompaction summary).history) : Rebuilt s t := by
  have hkept : ∀ k ∈ s.compaction.keptUsers, k ∈ t.history := by
    intro k hk
    rw [ht, history_applyCompaction]
    exact mem_append_left _ hk
  constructor
  · intro older m newer hsplit hfits
    have hfits' : tokensOfMessages (newer.reverse ++ [m]) ≤ COMPACT_USER_MESSAGE_MAX_TOKENS := by
      rwa [← reverse_cons, tokensOfMessages_reverse]
    refine hkept m ?_
    rw [s.compaction.keptUsers_eq hsplit, List.append_cons, keptFromNewest_append _ _ hfits']
    simp
  · intro older m newer hsplit hless hmore
    have hfits : tokensOfMessages newer.reverse ≤ COMPACT_USER_MESSAGE_MAX_TOKENS := by
      rw [tokensOfMessages_reverse]
      omega
    rw [tokensOfMessages_cons] at hmore
    refine ⟨⟨s.compaction.nextRef, truncateUserMessage m.message
      (COMPACT_USER_MESSAGE_MAX_TOKENS - tokensOfMessages newer)⟩, hkept _ ?_, rfl⟩
    rw [s.compaction.keptUsers_eq hsplit, keptFromNewest_append _ _ hfits,
      tokensOfMessages_reverse, keptFromNewest, if_neg (by omega), if_neg (by omega)]
    exact mem_reverse.2 (mem_append_right _ (mem_singleton_self _))
  · intro older m newer hsplit hfull k hk
    have hfull' : COMPACT_USER_MESSAGE_MAX_TOKENS ≤ tokensOfMessages newer.reverse := by
      rwa [tokensOfMessages_reverse]
    have husers : (s.compaction.users.map (·.ref)).Nodup :=
      h.nodup.sublist ((filter_sublist.trans (sublist_append_left _ _)).map _)
    have hm : m ∈ s.compaction.users := by
      rw [show s.compaction.users = older ++ m :: newer from hsplit]
      simp
    have hlt : m.ref < s.compaction.nextRef := h.lt m (mem_append_left _ (mem_of_mem_filter hm))
    rw [ht, history_applyCompaction] at hk
    rcases mem_append.1 hk with hk | hk
    · rw [s.compaction.keptUsers_eq hsplit, mem_reverse] at hk
      rcases keptFromNewest_full _ _ hfull' k hk with hk | hk
      · -- a newer message is another object
        rw [show s.compaction.users = older ++ m :: newer from hsplit, map_append,
          map_cons] at husers
        have hnotMem := (nodup_cons.1 (nodup_append.1 husers).2.1).1
        intro heq
        exact hnotMem (heq ▸ mem_map_of_mem (mem_reverse.1 hk))
      · omega
    · rw [mem_singleton.1 hk]
      show s.compaction.nextRef + 1 ≠ m.ref
      omega

/-- **What was not summarized is user input, and the newest of it is kept.**  When the summary is
there, the compaction is cancelled and nothing is lost, or every message of the history that is not
one of those summarized is genuine user input, which is kept as it is, cut down, or dropped as the
budget has it.  What is deferred at that time is dropped. -/
theorem compaction_keeps_tail {maxCompactionPerTurn : ℕ} {budget : ℕ → ℕ → ℕ}
    {steps : List CompactingStep} {s t : CompactingContext}
    (h : LibRun.Run (CompactingContext.step maxCompactionPerTurn budget) always {} steps s)
    {w : ℕ} {summary : String}
    (ht : s.step maxCompactionPerTurn budget (.compaction (.resolved w summary)) = some t) :
    ∃ worker, s.compaction.waiting w .request = some worker ∧
      ((s.compaction.stillCovers worker = true ∧
          (∀ m ∈ s.history, m.ref ∉ worker.originalHistory.map (·.ref) →
            isRealUserInput m.message = true) ∧
          Rebuilt s t ∧ t.deferredMessages = []) ∨
        (s.compaction.stillCovers worker = false ∧ t.compaction.compacting = none ∧
          t.history = s.history ∧ t.deferredMessages = s.deferredMessages)) := by
  have hrefs : RefsFresh s := h.invariant RefsFresh.initial fun _ _ _ hinv _ hu => hinv.step hu
  obtain ⟨worker, hworker, rfl⟩ := map_eq_some_iff.1 ht
  refine ⟨worker, hworker, ?_⟩
  simp only [CompactingContext.resolve, resolve]
  cases hcovers : s.compaction.stillCovers worker with
  | true =>
    refine Or.inl ⟨rfl, fun m hm => isRealUserInput_of_stillCovers hcovers hm,
      hrefs.rebuilt rfl, rfl⟩
  | false =>
    refine Or.inr ⟨rfl, ?_, (CompactionState.KeepsHistory.bail s.compaction w).1, rfl⟩
    change (s.compaction.cancel (some w)).compacting = none
    unfold cancel
    cases hslot : s.compaction.compacting with
    | none => exact hslot
    | some v => rfl

/-! ### Two runs -/

/-- A message of the user. -/
def typedMessage (text : String) : ContextMessage where
  role := .user
  content := [.text text]
  toolCalls := []
  origin := some ⟨.user, none⟩

/-- A prompt comes while the summary is on its way. -/
def promptMeanwhile : List CompactingStep :=
  [.appendMessage (typedMessage "Port the parser"), .compaction (.begin .manual false),
    .compaction (.hookDone 0 none), .appendMessage (typedMessage "Keep the tests")]

theorem compaction_keeps_tail_promptMeanwhile : ∃ s t : CompactingContext,
    t.history.map (·.message) = [typedMessage "Port the parser", typedMessage "Keep the tests",
      compactionSummary "so far"] ∧
    ∃ worker, s.compaction.waiting 0 .request = some worker ∧
      ((s.compaction.stillCovers worker = true ∧
          (∀ m ∈ s.history, m.ref ∉ worker.originalHistory.map (·.ref) →
            isRealUserInput m.message = true) ∧
          Rebuilt s t ∧ t.deferredMessages = []) ∨
        (s.compaction.stillCovers worker = false ∧ t.compaction.compacting = none ∧
          t.history = s.history ∧ t.deferredMessages = s.deferredMessages)) := by
  have hrun : ∃ s t, LibRun.Run (CompactingContext.step 5 fun _ tokens => tokens / 2)
      always {} promptMeanwhile s ∧
      s.step 5 (fun _ tokens => tokens / 2) (.compaction (.resolved 0 "so far")) = some t ∧
      t.history.map (·.message) = [typedMessage "Port the parser", typedMessage "Keep the tests",
        compactionSummary "so far"] :=
    ⟨_, _, run_of_exec rfl (legal_always _ _), rfl, by decide +kernel⟩
  obtain ⟨s, t, hs, ht, hhistory⟩ := hrun
  exact ⟨s, t, hhistory, compaction_keeps_tail hs ht⟩

/-- **A deferred message vanishes.**  A call waits for its result, so a message of the user is
deferred; the summary comes first. -/
theorem deferred_prompt_vanishes : ∃ s t : CompactingContext,
    LibRun.Run (CompactingContext.step 5 fun _ tokens => tokens / 2) always {}
      [.appendMessage (typedMessage "Port the parser"),
        .beginStep { role := .assistant, content := [], toolCalls := [] }, .toolCall "call_0",
        .compaction (.begin .auto true), .compaction (.hookDone 0 none),
        .appendMessage (typedMessage "Keep the tests")] s ∧
    s.step 5 (fun _ tokens => tokens / 2) (.compaction (.resolved 0 "so far")) = some t ∧
    s.deferredMessages.map (·.message) = [typedMessage "Keep the tests"] ∧
    t.messages.map (·.message) = [typedMessage "Port the parser", compactionSummary "so far"] :=
  ⟨_, _, run_of_exec rfl (legal_always _ _), rfl, by decide +kernel,
    by decide +kernel⟩

end NoriCode
