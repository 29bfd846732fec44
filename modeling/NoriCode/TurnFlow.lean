/-
**Turns and the input that waits for them.**

At most one turn runs.  Input that arrives meanwhile, or while a compaction holds the context, waits
in the steer buffer.  While an agent is restored, a replayed prompt leaves the marker `resuming`
instead of a turn, and the marker makes later input wait as well; `finishResume` removes the marker
and empties the buffer.

The module embeds the part of `agent/turn/index.ts` that starts turns and keeps the buffer.  What a
turn does is left out, as are the records and the events.

Main definitions:

* `TurnFlow`, `BufferedSteer` — the state;
* `TurnFlow.launch`, `TurnFlow.steer`, `TurnFlow.cancel`,
  `TurnFlow.finishResume` — the operations.
-/

import NoriCode.Message

namespace NoriCode

structure BufferedSteer where
  input : List ContentPart
  origin : PromptOrigin
  deriving DecidableEq

inductive ActiveTurn where
  | idle
  | resuming
  | running (turnId : ℤ)
  deriving DecidableEq

structure TurnFlow where
  steerBuffer : List BufferedSteer := []
  turnId : ℤ := -1
  activeTurn : ActiveTurn := .idle
  /-- `fullCompaction.isCompacting`. -/
  isCompacting : Bool := false
  /-- What the turns launched so far were launched with. -/
  launched : List BufferedSteer := []

namespace TurnFlow

def buffer (t : TurnFlow) (steer : BufferedSteer) : TurnFlow :=
  { t with steerBuffer := t.steerBuffer ++ [steer] }

/-- A turn is launched, unless one is active or a compaction holds the context. -/
def launch (t : TurnFlow) (steer : BufferedSteer) : TurnFlow :=
  if t.activeTurn ≠ .idle then t
  else if t.isCompacting then t.buffer steer
  else
    { t with
      turnId := t.turnId + 1
      activeTurn := .running (t.turnId + 1)
      launched := t.launched ++ [steer] }

/-- `requestPrompt`: a prompt is refused while a turn is active. -/
def requestPrompt (t : TurnFlow) (steer : BufferedSteer) : TurnFlow :=
  if t.activeTurn ≠ .idle then t else t.launch steer

def steer (t : TurnFlow) (steer : BufferedSteer) : TurnFlow :=
  if t.activeTurn ≠ .idle ∨ t.isCompacting = true then t.buffer steer else t.launch steer

/-- The record `turn.prompt` is restored. -/
def restorePrompt (t : TurnFlow) : TurnFlow :=
  if t.activeTurn ≠ .idle then t
  else { t with turnId := t.turnId + 1, activeTurn := .resuming }

/-- The record `turn.steer` is restored. -/
def restoreSteer (t : TurnFlow) (steer : BufferedSteer) : TurnFlow :=
  if t.activeTurn ≠ .idle then t.buffer steer
  else { t with turnId := t.turnId + 1, activeTurn := .resuming }

/-- `cancel`: guidance of the user that waits is dropped.  A running turn is only told to stop; the
marker of a restored one goes. -/
def cancel (t : TurnFlow) (turnId : Option ℤ) : TurnFlow :=
  if turnId.any (· ≠ t.turnId) then t
  else
    { t with
      steerBuffer := t.steerBuffer.filter (·.origin.kind ≠ .user)
      activeTurn := if t.activeTurn = .resuming then .idle else t.activeTurn }

def launchBufferedSteerIfIdle (t : TurnFlow) : TurnFlow :=
  if t.activeTurn ≠ .idle ∨ t.isCompacting = true then t
  else
    match t.steerBuffer with
    | [] => t
    | next :: rest => { t with steerBuffer := rest }.launch next

/-- The worker of a turn ends. -/
def turnEnded (t : TurnFlow) : TurnFlow :=
  { t with activeTurn := .idle }.launchBufferedSteerIfIdle

def finishResume (t : TurnFlow) : TurnFlow :=
  { t with
    activeTurn := if t.activeTurn = .resuming then .idle else t.activeTurn
    steerBuffer := [] }

/-! ### Nothing is dropped -/

/-- Input waits, or a turn has been launched with it. -/
def Has (t : TurnFlow) (steer : BufferedSteer) : Prop :=
  steer ∈ t.steerBuffer ∨ steer ∈ t.launched

variable {t : TurnFlow} {x y : BufferedSteer}

theorem Has.buffer (h : t.Has x) : (t.buffer y).Has x := h.imp (List.mem_append_left _) id

theorem has_buffer (t : TurnFlow) (x : BufferedSteer) : (t.buffer x).Has x :=
  Or.inl (by simp [TurnFlow.buffer])

theorem Has.launch (h : t.Has x) : (t.launch y).Has x := by
  unfold TurnFlow.launch
  split_ifs
  · exact h
  · exact h.buffer
  · exact h.imp id (List.mem_append_left _)

theorem has_launch (t : TurnFlow) (x : BufferedSteer) (h : t.activeTurn = .idle) :
    (t.launch x).Has x := by
  unfold TurnFlow.launch
  rw [if_neg (not_not_intro h)]
  split_ifs
  · exact t.has_buffer x
  · exact Or.inr (by simp)

theorem Has.requestPrompt (h : t.Has x) : (t.requestPrompt y).Has x := by
  unfold TurnFlow.requestPrompt
  split_ifs
  · exact h
  · exact h.launch

theorem Has.steer (h : t.Has x) : (t.steer y).Has x := by
  unfold TurnFlow.steer
  split_ifs
  · exact h.buffer
  · exact h.launch

theorem has_steer (t : TurnFlow) (x : BufferedSteer) : (t.steer x).Has x := by
  unfold TurnFlow.steer
  split_ifs with h
  · exact t.has_buffer x
  · exact t.has_launch x (not_not.1 (not_or.1 h).1)

theorem Has.cancel (h : t.Has x) (hx : x.origin.kind ≠ .user) (turnId : Option ℤ) :
    (t.cancel turnId).Has x := by
  unfold TurnFlow.cancel
  by_cases hother : turnId.any (· ≠ t.turnId) = true
  · rwa [if_pos hother]
  · rw [if_neg hother]
    exact h.imp (fun hmem => List.mem_filter.2 ⟨hmem, decide_eq_true hx⟩) id

theorem Has.launchBufferedSteerIfIdle (h : t.Has x) : t.launchBufferedSteerIfIdle.Has x := by
  unfold TurnFlow.launchBufferedSteerIfIdle
  split_ifs with hbusy
  · exact h
  · obtain ⟨hidle, hcompacting⟩ := not_or.1 hbusy
    cases hbuffer : t.steerBuffer with
    | nil => exact h
    | cons next rest =>
      rcases h with h | h
      · rw [hbuffer, List.mem_cons] at h
        rcases h with rfl | h
        · exact has_launch _ _ (not_not.1 hidle)
        · exact Has.launch (Or.inl h)
      · exact Has.launch (Or.inr h)

theorem Has.turnEnded (h : t.Has x) : t.turnEnded.Has x := Has.launchBufferedSteerIfIdle h

end TurnFlow

end NoriCode
