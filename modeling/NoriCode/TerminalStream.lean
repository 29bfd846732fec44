/-
**The frames of a terminal.**

A terminal numbers the outputs of its process and keeps the latest frames in a buffer.  A client
that attaches is first sent the buffered frames behind its cursor and from then on every new frame;
the exit frame has no number, ends the stream and is behind every cursor.  When the buffer is full
its oldest frames are trimmed, and a client whose cursor is older than the buffer is sent what is
left of it.

The module embeds `attach`, `detach`, `close`, `onData`, `onExit`, `markExited` and `pushFrame` of
`services/terminal/terminalService.ts` for one terminal.  The processing of a request before it
reaches the terminal (is there a session, is there a terminal) is left out, as are input and size.

Main definitions:

* `TerminalRecord` — the state, with all frames the clients have received;
* `TerminalRecord.step` — one event;
* `TerminalRecord.Unbroken` — what a client should receive.

Main results:

* `TerminalRecord.replay_eq` — the frames replayed to a cursor the buffer reaches;
* `TerminalRecord.run_unbroken` — **when every client attaches with a cursor the buffer
  reaches, all streams are unbroken**.
-/

import NoriCode.LibOrdMap
import NoriCode.LibRun
import Mathlib.Data.List.Infix

namespace NoriCode

open LibOrdMap List Option OrdMap

/-! ### State -/

inductive TerminalFrame where
  | terminalOutput (seq : ℕ) (data : String)
  | terminalExit (exitCode : Option ℤ)
  deriving DecidableEq

namespace TerminalFrame

/-- `Number.MAX_SAFE_INTEGER`. -/
def MAX_SAFE_INTEGER : ℕ := 9007199254740991

def frameSeq : TerminalFrame → ℕ
  | .terminalOutput seq _ => seq
  | .terminalExit _ => MAX_SAFE_INTEGER

def isOutput : TerminalFrame → Bool
  | .terminalOutput _ _ => true
  | .terminalExit _ => false

end TerminalFrame

/-- One attach of a client: its cursor, and the frames sent to it since. -/
structure TerminalAttachment where
  sinceSeq : ℕ
  frames : List TerminalFrame
  deriving DecidableEq

def TerminalAttachment.send (a : TerminalAttachment) (frame : TerminalFrame) :
    TerminalAttachment := { a with frames := a.frames ++ [frame] }

/-- A terminal: `some` exit code when its status is `exited`. -/
structure TerminalRecord where
  maxBufferedFrames : ℕ
  exited : Option (Option ℤ) := none
  closed : Bool := false
  /-- The listeners on the process are not disposed. -/
  listening : Bool := true
  nextSeq : ℕ := 0
  buffer : List TerminalFrame := []
  sinks : OrdMap String TerminalAttachment := .empty
  /-- The attachments that have been detached or replaced. -/
  ended : List TerminalAttachment := []
  /-- Everything the process has written. -/
  written : List String := []

namespace TerminalRecord

/-! ### Operations -/

def pushFrame (s : TerminalRecord) (frame : TerminalFrame) : TerminalRecord :=
  let buffer := s.buffer ++ [frame]
  { s with
    buffer := buffer.drop (buffer.length - s.maxBufferedFrames)
    sinks := s.sinks.mapValues (·.send frame) }

def onData (s : TerminalRecord) (data : String) : TerminalRecord :=
  pushFrame { s with nextSeq := s.nextSeq + 1, written := s.written ++ [data] }
    (.terminalOutput (s.nextSeq + 1) data)

def markExited (s : TerminalRecord) (exitCode : Option ℤ) : TerminalRecord :=
  if s.exited.isSome then s
  else
    { pushFrame { s with closed := true, exited := some exitCode } (.terminalExit exitCode) with
      listening := false }

/-- `detach`: the map forgets the sink. -/
def detach (s : TerminalRecord) (sinkId : String) : TerminalRecord :=
  { s with
    sinks := s.sinks.erase sinkId
    ended := s.ended ++ (s.sinks.get sinkId).toList }

/-- The buffered frames behind a cursor. -/
def replay (s : TerminalRecord) (sinceSeq : ℕ) : List TerminalFrame :=
  s.buffer.filter fun frame => decide (sinceSeq < frame.frameSeq)

/-- **`attach`**, after its waits; a sink that is attached already starts again. -/
def attach (s : TerminalRecord) (sinkId : String) (sinceSeq : Option ℕ) : TerminalRecord :=
  let sinceSeq := sinceSeq.getD 0
  { s with
    sinks := s.sinks.set sinkId ⟨sinceSeq, s.replay sinceSeq⟩
    ended := s.ended ++ (s.sinks.get sinkId).toList }

def close (s : TerminalRecord) : TerminalRecord :=
  if s.closed then s else markExited { s with closed := true } none

end TerminalRecord

inductive TerminalEvent where
  | data (data : String)
  | exit (exitCode : Option ℤ)
  | close
  | attach (sinkId : String) (sinceSeq : Option ℕ)
  | detach (sinkId : String)

namespace TerminalRecord

/-- **One event.**  The process is heard while the listeners are not disposed. -/
def step (s : TerminalRecord) : TerminalEvent → Option TerminalRecord
  | .data data => if s.listening then some (s.onData data) else none
  | .exit exitCode => if s.listening then some (s.markExited exitCode) else none
  | .close => some s.close
  | .attach sinkId sinceSeq => some (s.attach sinkId sinceSeq)
  | .detach sinkId => some (s.detach sinkId)

/-! ### Streams -/

/-- The frames of outputs that come behind `n` others. -/
def framesFrom : ℕ → List String → List TerminalFrame
  | _, [] => []
  | n, data :: rest => .terminalOutput (n + 1) data :: framesFrom (n + 1) rest

def exitFrames (s : TerminalRecord) : List TerminalFrame :=
  s.exited.toList.map .terminalExit

/-- All frames behind a cursor: the outputs in their order, and then the exit. -/
def behind (s : TerminalRecord) (sinceSeq : ℕ) : List TerminalFrame :=
  framesFrom sinceSeq (s.written.drop sinceSeq) ++ s.exitFrames

/-- **What a client should receive**: what it has received so far are the frames behind its
cursor, from the first one on and with nothing left out. -/
def Unbroken (s : TerminalRecord) (a : TerminalAttachment) : Prop :=
  a.frames <+: s.behind a.sinceSeq

/-- All streams are unbroken, and an attached client has received every output. -/
structure AllUnbroken (s : TerminalRecord) : Prop where
  attached : ∀ a ∈ s.sinks.values, s.Unbroken a
  ended : ∀ a ∈ s.ended, s.Unbroken a
  complete : s.exited = none → ∀ a ∈ s.sinks.values, a.frames = s.behind a.sinceSeq

/-- **The condition on an event**: a client attaches with a cursor that is not ahead of the
outputs, and all outputs behind it are still buffered. -/
def Reaches (s : TerminalRecord) : TerminalEvent → Prop
  | .attach _ sinceSeq =>
    sinceSeq.getD 0 ≤ s.nextSeq ∧
      s.nextSeq - sinceSeq.getD 0 ≤ s.buffer.countP TerminalFrame.isOutput
  | _ => True

instance (s : TerminalRecord) (e : TerminalEvent) : Decidable (s.Reaches e) := by
  cases e <;> unfold Reaches <;> infer_instance

/-! ### Numbered frames -/

theorem length_framesFrom (n : ℕ) (l : List String) : (framesFrom n l).length = l.length := by
  induction l generalizing n with
  | nil => rfl
  | cons data rest ih => rw [framesFrom, length_cons, ih, length_cons]

theorem countP_framesFrom (n : ℕ) (l : List String) :
    (framesFrom n l).countP TerminalFrame.isOutput = l.length := by
  induction l generalizing n with
  | nil => rfl
  | cons data rest ih => rw [framesFrom, countP_cons_of_pos rfl, ih, length_cons]

theorem framesFrom_snoc (n : ℕ) (l : List String) (data : String) :
    framesFrom n (l ++ [data]) = framesFrom n l ++ [.terminalOutput (n + l.length + 1) data] := by
  induction l generalizing n with
  | nil => rfl
  | cons x rest ih =>
    rw [cons_append, framesFrom, ih, framesFrom, length_cons, cons_append,
      Nat.add_right_comm n 1 rest.length, Nat.add_assoc n rest.length 1]

theorem framesFrom_drop (n k : ℕ) (l : List String) :
    (framesFrom n l).drop k = framesFrom (n + k) (l.drop k) := by
  induction k generalizing n l with
  | zero => rfl
  | succ k ih =>
    cases l with
    | nil => rfl
    | cons data rest =>
      rw [framesFrom, drop_succ_cons, ih, drop_succ_cons, Nat.add_right_comm, Nat.add_assoc]

theorem filter_framesFrom (c n : ℕ) (l : List String) :
    ((framesFrom n l).filter fun frame => decide (c < frame.frameSeq)) =
      (framesFrom n l).drop (c - n) := by
  induction l generalizing n with
  | nil => simp [framesFrom]
  | cons data rest ih =>
    rw [framesFrom]
    by_cases hlt : c < n + 1
    · have hzero : c - n = 0 := by omega
      have hnext : c - (n + 1) = 0 := by omega
      have hkept : decide (c < (TerminalFrame.terminalOutput (n + 1) data).frameSeq) = true :=
        decide_eq_true hlt
      rw [filter_cons, if_pos hkept, ih, hzero, hnext, drop_zero, drop_zero]
    · have hsucc : c - n = c - (n + 1) + 1 := by omega
      have hdropped : ¬ decide (c < (TerminalFrame.terminalOutput (n + 1) data).frameSeq) = true :=
        fun h => hlt (of_decide_eq_true h)
      rw [filter_cons, if_neg hdropped, ih, hsucc, drop_succ_cons]

/-! ### The invariant -/

/-- The buffer holds the latest frames, and the streams of attached clients are complete. -/
structure Sound (s : TerminalRecord) : Prop where
  counted : s.nextSeq = s.written.length
  heard : s.listening = true ↔ s.exited = none
  buffered : ∃ d tail, d ≤ s.written.length ∧
    s.buffer = framesFrom d (s.written.drop d) ++ tail ∧ (tail = s.exitFrames ∨ tail = [])
  cursors : s.exited = none → ∀ a ∈ s.sinks.values, a.sinceSeq ≤ s.written.length
  streams : s.AllUnbroken

variable {s : TerminalRecord}

theorem sound_init (maxBufferedFrames : ℕ) : Sound { maxBufferedFrames } where
  counted := rfl
  heard := ⟨fun _ => rfl, fun _ => rfl⟩
  buffered := ⟨0, [], Nat.le_refl 0, rfl, .inr rfl⟩
  cursors := fun _ a ha => (by cases ha)
  streams := ⟨fun a ha => (by cases ha), fun a ha => (by cases ha), fun _ a ha => (by cases ha)⟩

theorem Sound.buffer_eq (h : Sound s) (hrunning : s.exited = none) :
    ∃ d ≤ s.written.length, s.buffer = framesFrom d (s.written.drop d) := by
  obtain ⟨d, tail, hd, hbuffer, htail⟩ := h.buffered
  have hnone : tail = [] := by
    rcases htail with htail | htail
    · rw [htail, exitFrames, hrunning]
      rfl
    · exact htail
  exact ⟨d, hd, by rw [hbuffer, hnone, append_nil]⟩

/-- **What is replayed to a cursor that the buffer reaches**: everything behind the cursor, apart
from an exit frame that is not in the buffer. -/
theorem replay_eq (h : Sound s) {c : ℕ} (hc : c ≤ s.nextSeq)
    (hreach : s.nextSeq - c ≤ s.buffer.countP TerminalFrame.isOutput) :
    s.replay c <+: s.behind c ∧ (s.exited = none → s.replay c = s.behind c) := by
  obtain ⟨d, tail, hd, hbuffer, htail⟩ := h.buffered
  have hexit : s.exitFrames.countP TerminalFrame.isOutput = 0 := by
    unfold exitFrames
    cases s.exited <;> rfl
  have htailcount : tail.countP TerminalFrame.isOutput = 0 := by
    rcases htail with rfl | rfl
    · exact hexit
    · rfl
  have hdc : d ≤ c := by
    rw [hbuffer, countP_append, countP_framesFrom, htailcount, length_drop, h.counted] at hreach
    rw [h.counted] at hc
    omega
  have houtputs : ((framesFrom d (s.written.drop d)).filter fun frame =>
      decide (c < frame.frameSeq)) = framesFrom c (s.written.drop c) := by
    rw [filter_framesFrom, framesFrom_drop, drop_drop, Nat.add_sub_cancel' hdc]
  have hreplay : s.replay c = framesFrom c (s.written.drop c) ++
      tail.filter fun frame => decide (c < frame.frameSeq) := by
    rw [replay, hbuffer, filter_append, houtputs]
  rw [hreplay, behind]
  refine ⟨(prefix_append_right_inj _).2 ?_, fun hrunning => ?_⟩
  · rcases htail with rfl | rfl
    · unfold exitFrames
      cases s.exited with
      | none => exact nil_prefix
      | some exitCode =>
        rw [toList_some, map_cons, map_nil, filter_cons]
        split_ifs
        · exact prefix_refl _
        · exact nil_prefix
    · exact nil_prefix
  · have hnone : s.exitFrames = [] := by
      rw [exitFrames, hrunning]
      rfl
    rcases htail with rfl | rfl
    · rw [hnone]
      rfl
    · rw [hnone]
      rfl

/-! ### Events -/

/-- Nothing is behind a cursor but what is there already and a new output. -/
theorem behind_onData (hrunning : s.exited = none) (hcount : s.nextSeq = s.written.length)
    (data : String) {c : ℕ} (hc : c ≤ s.written.length) :
    (s.onData data).behind c = s.behind c ++ [.terminalOutput (s.nextSeq + 1) data] := by
  have hexit : ∀ t : TerminalRecord, t.exited = none → t.exitFrames = [] := by
    intro t ht
    rw [exitFrames, ht]
    rfl
  have hnew : (s.onData data).exited = none := hrunning
  rw [behind, behind, hexit _ hnew, hexit _ hrunning, append_nil, append_nil]
  change framesFrom c ((s.written ++ [data]).drop c) = _
  rw [drop_append_of_le_length hc, framesFrom_snoc, length_drop, Nat.add_sub_cancel' hc, hcount]

theorem behind_markExited (hrunning : s.exited = none) (exitCode : Option ℤ) (c : ℕ) :
    (s.markExited exitCode).behind c = s.behind c ++ [.terminalExit exitCode] := by
  have hexit : s.exitFrames = [] := by
    rw [exitFrames, hrunning]
    rfl
  rw [behind, behind, hexit, append_nil]
  simp only [markExited, hrunning, isSome_none]
  rfl

theorem mem_values_pushFrame {frame : TerminalFrame} {a : TerminalAttachment} :
    a ∈ (s.pushFrame frame).sinks.values ↔ ∃ b ∈ s.sinks.values, b.send frame = a := by
  change a ∈ (s.sinks.mapValues (·.send frame)).values ↔ _
  rw [values_mapValues, List.mem_map]

namespace Sound

variable (h : Sound s)

include h

/-- A new frame keeps all streams unbroken, if it comes behind everything that is behind the
cursors. -/
theorem streams_push (hrunning : s.exited = none) {t : TerminalRecord} {frame : TerminalFrame}
    (hended : t.ended = s.ended)
    (hsinks : ∀ a, a ∈ t.sinks.values ↔ ∃ b ∈ s.sinks.values, b.send frame = a)
    (hbehind : ∀ c ≤ s.written.length, t.behind c = s.behind c ++ [frame])
    (hfront : ∀ c, s.behind c <+: t.behind c) : t.AllUnbroken := by
  have hcomplete : ∀ a ∈ t.sinks.values, a.frames = t.behind a.sinceSeq := by
    intro a ha
    obtain ⟨b, hb, rfl⟩ := (hsinks a).1 ha
    change b.frames ++ [frame] = t.behind b.sinceSeq
    rw [hbehind _ (h.cursors hrunning b hb), h.streams.complete hrunning b hb]
  refine ⟨fun a ha => ?_, fun a ha => ?_, fun _ => hcomplete⟩
  · rw [Unbroken, hcomplete a ha]
  · rw [hended] at ha
    exact (h.streams.ended a ha).trans (hfront a.sinceSeq)

theorem onData (hlistening : s.listening = true) (data : String) : Sound (s.onData data) := by
  have hrunning := h.heard.1 hlistening
  obtain ⟨d, hd, hbuffer⟩ := h.buffer_eq hrunning
  have hsinks : ∀ a, a ∈ (s.onData data).sinks.values ↔
      ∃ b ∈ s.sinks.values, b.send (.terminalOutput (s.nextSeq + 1) data) = a :=
    fun a => mem_values_pushFrame
  have hbuffered : s.buffer ++ [TerminalFrame.terminalOutput (s.nextSeq + 1) data] =
      framesFrom d ((s.written ++ [data]).drop d) := by
    rw [drop_append_of_le_length hd, framesFrom_snoc, length_drop,
      Nat.add_sub_cancel' hd, hbuffer, h.counted]
  refine ⟨?_, h.heard, ?_, ?_, ?_⟩
  · change s.nextSeq + 1 = (s.written ++ [data]).length
    rw [length_append, length_singleton, h.counted]
  · -- what is trimmed are outputs
    generalize hk : (s.buffer ++ [TerminalFrame.terminalOutput (s.nextSeq + 1) data]).length -
      s.maxBufferedFrames = k
    have hlength : (s.buffer ++ [TerminalFrame.terminalOutput (s.nextSeq + 1) data]).length =
        s.written.length + 1 - d := by
      rw [hbuffered, length_framesFrom, length_drop, length_append, length_singleton]
    refine ⟨d + k, [], ?_, ?_, .inr rfl⟩
    · change d + k ≤ (s.written ++ [data]).length
      rw [length_append, length_singleton]
      omega
    · change (s.buffer ++ [TerminalFrame.terminalOutput (s.nextSeq + 1) data]).drop _ =
        framesFrom (d + k) ((s.written ++ [data]).drop (d + k)) ++ []
      rw [hk, hbuffered, framesFrom_drop, drop_drop, append_nil]
  · intro _ a ha
    obtain ⟨b, hb, rfl⟩ := (hsinks a).1 ha
    have hcursor := h.cursors hrunning b hb
    change b.sinceSeq ≤ (s.written ++ [data]).length
    rw [length_append]
    omega
  · refine h.streams_push hrunning rfl hsinks
      (fun c hc => behind_onData hrunning h.counted data hc) fun c => ?_
    by_cases hc : c ≤ s.written.length
    · rw [behind_onData hrunning h.counted data hc]
      exact prefix_append _ _
    · have hempty : s.behind c = [] := by
        rw [behind, drop_eq_nil_of_le (by omega), exitFrames, hrunning]
        rfl
      rw [hempty]
      exact nil_prefix

theorem markExited (exitCode : Option ℤ) : Sound (s.markExited exitCode) := by
  cases hexited : s.exited with
  | some code =>
    rw [TerminalRecord.markExited, hexited, isSome_some, if_pos rfl]
    exact h
  | none =>
    obtain ⟨d, hd, hbuffer⟩ := h.buffer_eq hexited
    have hstep : s.markExited exitCode =
        { pushFrame { s with closed := true, exited := some exitCode } (.terminalExit exitCode) with
          listening := false } := by
      rw [TerminalRecord.markExited, hexited, isSome_none, if_neg Bool.false_ne_true]
    have hsinks : ∀ a, a ∈ (s.markExited exitCode).sinks.values ↔
        ∃ b ∈ s.sinks.values, b.send (.terminalExit exitCode) = a := by
      intro a
      rw [hstep]
      exact mem_values_pushFrame (s := { s with closed := true, exited := some exitCode })
    have hended : (s.markExited exitCode).ended = s.ended := by rw [hstep]; rfl
    have hbehind := behind_markExited hexited exitCode
    have hnotnone : (s.markExited exitCode).exited ≠ none := by
      rw [hstep]
      exact fun hnone => (by cases hnone)
    refine ⟨?_, ?_, ?_, fun hnone => absurd hnone hnotnone, ?_⟩
    · rw [hstep]
      exact h.counted
    · rw [hstep]
      exact ⟨fun hfalse => (by cases hfalse), fun hnone => (by cases hnone)⟩
    · rw [hstep]
      generalize hk : (s.buffer ++ [TerminalFrame.terminalExit exitCode]).length - s.maxBufferedFrames = k
      change ∃ d tail, d ≤ s.written.length ∧
        (s.buffer ++ [TerminalFrame.terminalExit exitCode]).drop
          ((s.buffer ++ [TerminalFrame.terminalExit exitCode]).length - s.maxBufferedFrames) =
          framesFrom d (s.written.drop d) ++ tail ∧
        (tail = [.terminalExit exitCode] ∨ tail = [])
      rw [hk, hbuffer]
      by_cases hle : k ≤ s.written.length - d
      · refine ⟨d + k, _, by omega, ?_, .inl rfl⟩
        rw [drop_append_of_le_length (by rwa [length_framesFrom, length_drop]),
          framesFrom_drop, drop_drop]
      · refine ⟨s.written.length, [], Nat.le_refl _, ?_, .inr rfl⟩
        rw [drop_length, drop_eq_nil_of_le]
        · rfl
        · rw [length_append, length_framesFrom, length_drop, length_singleton]
          omega
    · refine h.streams_push hexited hended hsinks (fun c _ => hbehind c) fun c => ?_
      rw [hbehind c]
      exact prefix_append _ _

theorem close : Sound s.close := by
  unfold TerminalRecord.close
  split_ifs with hclosed
  · exact h
  · have hopen : Sound { s with closed := true } :=
      ⟨h.counted, h.heard, h.buffered, h.cursors, h.streams.attached, h.streams.ended,
        h.streams.complete⟩
    exact hopen.markExited none

theorem ended_unbroken (sinkId : String) :
    ∀ a ∈ s.ended ++ (s.sinks.get sinkId).toList, s.Unbroken a := by
  intro a ha
  rcases mem_append.1 ha with ha | ha
  · exact h.streams.ended a ha
  · rw [mem_toList] at ha
    exact h.streams.attached a (mem_values.2 ⟨sinkId, ha⟩)

theorem detach (sinkId : String) : Sound (s.detach sinkId) := by
  have hsub : ∀ a ∈ (s.detach sinkId).sinks.values, a ∈ s.sinks.values := by
    intro a ha
    obtain ⟨k, hk⟩ := mem_values.1 ha
    change (s.sinks.erase sinkId).get k = some a at hk
    rw [get_erase] at hk
    split_ifs at hk
    exact mem_values.2 ⟨k, hk⟩
  exact ⟨h.counted, h.heard, h.buffered, fun hrunning a ha => h.cursors hrunning a (hsub a ha),
    fun a ha => h.streams.attached a (hsub a ha), h.ended_unbroken sinkId,
    fun hrunning a ha => h.streams.complete hrunning a (hsub a ha)⟩

theorem attach (sinkId : String) (sinceSeq : Option ℕ)
    (hreach : s.Reaches (.attach sinkId sinceSeq)) : Sound (s.attach sinkId sinceSeq) := by
  obtain ⟨hfront, hcomplete⟩ := replay_eq h hreach.1 hreach.2
  have hvalues : ∀ a ∈ (s.attach sinkId sinceSeq).sinks.values,
      a ∈ s.sinks.values ∨ a = ⟨sinceSeq.getD 0, s.replay (sinceSeq.getD 0)⟩ := by
    intro a ha
    obtain ⟨k, hk⟩ := mem_values.1 ha
    change (s.sinks.set sinkId _).get k = some a at hk
    rw [get_set] at hk
    split_ifs at hk
    · exact .inr (some.inj hk).symm
    · exact .inl (mem_values.2 ⟨k, hk⟩)
  refine ⟨h.counted, h.heard, h.buffered, fun hrunning a ha => ?_, fun a ha => ?_,
    h.ended_unbroken sinkId, fun hrunning a ha => ?_⟩
  · rcases hvalues a ha with ha | rfl
    · exact h.cursors hrunning a ha
    · exact h.counted ▸ hreach.1
  · rcases hvalues a ha with ha | rfl
    · exact h.streams.attached a ha
    · exact hfront
  · rcases hvalues a ha with ha | rfl
    · exact h.streams.complete hrunning a ha
    · exact hcomplete hrunning

theorem step {e : TerminalEvent} (hreach : s.Reaches e) {t : TerminalRecord}
    (ht : s.step e = some t) : Sound t := by
  cases e with
  | data data =>
    obtain ⟨hlistening, ht⟩ := ite_none_right_eq_some.1 ht
    exact some.inj ht ▸ h.onData hlistening data
  | exit exitCode =>
    obtain ⟨-, ht⟩ := ite_none_right_eq_some.1 ht
    exact some.inj ht ▸ h.markExited exitCode
  | close => exact some.inj ht ▸ h.close
  | attach sinkId sinceSeq => exact some.inj ht ▸ h.attach sinkId sinceSeq hreach
  | detach sinkId => exact some.inj ht ▸ h.detach sinkId

end Sound

/-- **When every client attaches with a cursor that the buffer reaches, all streams are
unbroken**, for any number of buffered frames and in every state reached. -/
theorem run_unbroken (maxBufferedFrames : ℕ) {l : List TerminalEvent} {s : TerminalRecord}
    (h : LibRun.Run step Reaches { maxBufferedFrames } l s) : s.AllUnbroken := by
  have hsound := h.invariant (sound_init maxBufferedFrames)
    fun t e u ht hreach hu => ht.step hreach hu
  exact hsound.streams

/-- A client comes back with its cursor while the buffer still reaches it, and sees the exit. -/
def reconnect : List TerminalEvent :=
  [.attach "a" none, .data "x", .data "y", .detach "a", .data "z", .attach "b" (some 2),
    .exit (some 0), .close]

theorem run_unbroken_reconnect : ∃ s, LibRun.Run step Reaches { maxBufferedFrames := 2 }
    reconnect s ∧ s.AllUnbroken ∧
      s.sinks.values = [⟨2, [.terminalOutput 3 "z", .terminalExit (some 0)]⟩] := by
  have hrun : ∃ s, LibRun.Run step Reaches { maxBufferedFrames := 2 } reconnect s ∧
      s.sinks.values = [⟨2, [.terminalOutput 3 "z", .terminalExit (some 0)]⟩] :=
    LibRun.exists_run (by decide +kernel) (by decide +kernel)
  obtain ⟨s, hs, hvalues⟩ := hrun
  exact ⟨s, hs, run_unbroken 2 hs, hvalues⟩

/-- A client comes back after more outputs than the buffer holds. -/
def lateReconnect : List TerminalEvent :=
  [.data "x", .data "y", .data "z", .attach "a" (some 0)]

/-- **It is sent the third output as if it were the first.** -/
theorem not_unbroken : ∃ s, LibRun.Run step LibRun.always { maxBufferedFrames := 1 }
    lateReconnect s ∧ ¬ s.AllUnbroken := by
  have hrun : ∃ s, LibRun.Run step LibRun.always { maxBufferedFrames := 1 } lateReconnect s ∧
      s.sinks.values = [⟨0, [.terminalOutput 3 "z"]⟩] ∧ s.written = ["x", "y", "z"] :=
    LibRun.exists_run (by decide +kernel) (LibRun.legal_always _ _)
  obtain ⟨s, hs, hvalues, hwritten⟩ := hrun
  refine ⟨s, hs, fun hall => ?_⟩
  have hfront := hall.attached ⟨0, [.terminalOutput 3 "z"]⟩ (by
    rw [hvalues]
    exact List.mem_singleton_self _)
  rw [Unbroken, behind, hwritten] at hfront
  have hfirst := (List.cons_prefix_cons.1 hfront).1
  cases hfirst

end TerminalRecord

end NoriCode
