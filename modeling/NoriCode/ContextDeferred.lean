/-
**Messages that wait for an exchange to close.**

While calls wait for their results, messages that are appended are deferred; the result that closes
the exchange takes them into the history, in their order.  So nothing is deferred once no call
waits, and an appended message is the last one of the *timeline*: the history with the deferred
messages behind it.

Main definitions:

* `ContextMemory.Flushed` — nothing is deferred unless a call waits;
* `ContextMemory.timeline` — the history and what is deferred.

Main results:

* `ContextMemory.Flushed.restored`, `ContextMemory.Flushed.performed` — every
  record and every operation keeps this;
* `ContextMemory.Flushed.timeline_foldl_appendUser` — input is appended to the timeline.
-/

import NoriCode.Resume

namespace NoriCode

/-- The messages that input becomes: none without content. -/
def messagesOf (steers : List BufferedSteer) : List ContextMessage :=
  (steers.filter fun steer => steer.input.length != 0).map appended

namespace ContextMemory

/-- Messages are deferred only while calls wait. -/
def Flushed (c : ContextMemory) : Prop :=
  c.hasOpenToolExchange = false → c.deferredMessages = []

/-- The messages of the history, and behind them the deferred ones. -/
def timeline (c : ContextMemory) : List ContextMessage :=
  c.messages ++ c.deferredMessages

namespace Flushed

variable {c : ContextMemory}

theorem flush (c : ContextMemory) : Flushed c.flushDeferredMessagesIfToolExchangeClosed := by
  intro hclosed
  unfold flushDeferredMessagesIfToolExchangeClosed at hclosed ⊢
  split_ifs at hclosed ⊢ with hopen
  · rw [hopen] at hclosed
    cases hclosed
  · rfl

variable (h : Flushed c)

include h

theorem append (m : ContextMessage) : Flushed (c.append m) := by
  intro hclosed
  unfold ContextMemory.append at hclosed ⊢
  split_ifs at hclosed ⊢ with hopen
  · exact absurd hopen (ne_true_of_eq_false hclosed)
  · exact h hclosed

theorem toolResult (id : String) (result : ExecutableToolResult) :
    Flushed (c.toolResult id result) := by
  unfold ContextMemory.toolResult
  split_ifs
  · exact flush _
  · exact h

theorem closePending : Flushed c.closePending :=
  ContextMemory.closePending_rule h fun _ h id => h.toolResult id interruptedResult

theorem loopEvent (e : LoopRecordedEvent) : Flushed (c.loopEvent e) := by
  refine loopEvent_rule h (fun _ => h.closePending) (fun _ _ => flush _) (fun _ _ => h) ?_
    h.toolResult e
  -- the new call waits
  intro n toolCall hclosed
  have hempty : (c.pendingToolResultIds.insert toolCall.id).isEmpty = true := by
    simpa [hasOpenToolExchange] using hclosed
  exact absurd (LibOrdSet.OrdSet.isEmpty_iff.1 hempty toolCall.id) (by simp)

theorem appendUser (steer : BufferedSteer) : Flushed (c.appendUser steer) := by
  unfold ContextMemory.appendUser
  split_ifs
  · exact h
  · exact h.append _

theorem finishResume : Flushed (c.performed .finishResume) :=
  have hsteps : Flushed { c with openSteps := [] } := h
  hsteps.closePending

theorem undone (count : ℤ) : Flushed (c.undone count) := by
  unfold ContextMemory.undone
  split_ifs
  · exact fun _ => rfl
  · exact h

theorem restored (r : AgentRecord) : Flushed (c.restored r) :=
  restored_rule h h.append h.loopEvent (fun _ => rfl) (fun _ _ _ => rfl) h.undone r

theorem performed (op : ContextOp) : Flushed (c.performed op) := by
  cases op with
  | appendMessage m => exact h.append m
  | appendTranscriptMessage | setTransientSystemReminder | clearTransientSystemReminder
  | turnPrompt | importMigratedHistory => exact h
  | loopEvent e => exact h.loopEvent e
  | popMatchedMessage reminder =>
    simp only [ContextMemory.performed, ContextMemory.popMatched, ContextMemory.dropLastMessage]
    split_ifs
    · intro hclosed
      simp [h hclosed]
    · exact h
    · exact h
  | undo count => exact h.undone count
  | clear | applyCompaction | useProjectedHistoryFrom => exact fun _ => rfl
  | finishResume => exact h.finishResume

theorem foldl_appendUser (steers : List BufferedSteer) :
    Flushed (steers.foldl ContextMemory.appendUser c) := by
  induction steers generalizing c with
  | nil => exact h
  | cons steer steers ih => exact ih (h.appendUser steer)

theorem timeline_append (m : ContextMessage) : (c.append m).timeline = c.timeline ++ [m] := by
  unfold ContextMemory.append timeline
  split_ifs with hopen
  · exact (List.append_assoc _ _ _).symm
  · have hnone := h (Bool.eq_false_iff.2 hopen)
    rw [messages_pushHistory]
    simp [pushHistory, hnone]

theorem timeline_appendUser (steer : BufferedSteer) :
    (c.appendUser steer).timeline = c.timeline ++ messagesOf [steer] := by
  unfold ContextMemory.appendUser
  split_ifs with hempty
  · simp [messagesOf, hempty]
  · rw [h.timeline_append]
    simp [messagesOf, hempty]

theorem timeline_foldl_appendUser (steers : List BufferedSteer) :
    (steers.foldl ContextMemory.appendUser c).timeline = c.timeline ++ messagesOf steers := by
  induction steers generalizing c with
  | nil => simp [messagesOf]
  | cons steer steers ih =>
    rw [List.foldl_cons, ih (h.appendUser steer), h.timeline_appendUser, List.append_assoc]
    simp [messagesOf, ← List.map_append, ← List.filter_append]

end Flushed

/-- **A message is deferred only while a call waits**, after any log and any operations. -/
theorem deferred_waits (records : List AgentRecord) (ops : List ContextOp) :
    Flushed (ops.foldl performed (records.foldl restored {})) :=
  have hlog := records.foldlRecOn restored (motive := Flushed) (fun _ => rfl) fun _ h r _ =>
    h.restored r
  ops.foldlRecOn performed hlog fun _ h op _ => h.performed op

end ContextMemory

end NoriCode
