/-
**Approvals and questions are settled.**

A turn asks for an approval from its permission check, and a tool asks a question; both go to a
broker of the server over a channel that delivers a call later, and the reply later still.  The
signal of a turn rejects the call on the side of the turn, wherever it is, and a call that is
delivered after the abort is not made.  The question broker listens to the signal; the approval
broker does not get it, and settles what is pending when the end of a turn is told on the bus.

The module embeds `request`, `resolve` and `dismissForAgent` of `approvalService.ts`, `request`,
`resolve` and `dismiss` of `questionService.ts`, `beforeToolCall` and `requestToolApproval` of
`agent/permission/index.ts`, the calls of `rpc/client.ts`, and of `loop/tool-call.ts`,
`loop/turn-step.ts` and `agent/turn/index.ts` in which order a turn prepares its tool calls, sees
its signal and ends.  A check decides by itself, or it asks.  What is under way may be delivered in
any order, any number of turns of an agent may run, and a turn may take over the signal of another
one, as those that drive a goal do.

Main definitions:

* `ApprovalRun`, with `step` — signals, turns, calls, and the two brokers;
* `ApprovalRun.Settled` — what is promised.

Main results:

* `ApprovalRun.run_settled` — **every request is settled once, and none is left behind**.
-/

import NoriCode.LibBroker
import NoriCode.LibPlaces
import NoriCode.SessionStatus

namespace NoriCode

open LibBroker List Option LibPlaces

/-! ### Requests and calls -/

inductive ApprovalDecision
  | approved
  | rejected
  | cancelled
  deriving DecidableEq

structure ApprovalResponse where
  decision : ApprovalDecision
  /-- Whether the approval is for the session. -/
  scope : Bool := false
  feedback : Option String := none
  selectedLabel : Option String := none
  deriving DecidableEq

/-- How a question ends: with the answers, or dismissed. -/
inductive QuestionOutcome
  | answered (answers : Option (List (String × String)))
  | dismissed
  deriving DecidableEq

/-- What a broker keeps of a request: the agent, the caller, and the signal it listens to. -/
structure BrokerEntry where
  key : AgentKey
  call : ℕ
  signal : Option ℕ := none

inductive CallPhase
  /-- The request is on its way to the broker. -/
  | sent
  | waiting
  /-- The reply is on its way back. -/
  | replied
  | returned
  deriving DecidableEq

inductive CallKind
  | approval
  | question

structure RpcCall where
  kind : CallKind
  key : AgentKey
  signal : ℕ
  phase : CallPhase := .sent

inductive TurnPhase
  /-- Outside of a batch of tool calls. -/
  | thinking
  /-- In a batch, and no permission is checked. -/
  | batch
  /-- The policies of a permission check are evaluated. -/
  | evaluating
  /-- The check waits for a call. -/
  | asking (call : ℕ)
  | ended
  deriving DecidableEq

/-- The turn is in a batch of tool calls. -/
def TurnPhase.inBatch : TurnPhase → Bool
  | .batch | .evaluating | .asking _ => true
  | _ => false

structure AgentTurn where
  key : AgentKey
  signal : ℕ
  phase : TurnPhase := .thinking

/-! ### State and steps -/

structure ApprovalRun where
  /-- The signals, and which of them are aborted. -/
  signals : List Bool := []
  turns : List AgentTurn := []
  calls : List RpcCall := []
  /-- The ends of turns that are on their way to the bus. -/
  endings : List (AgentKey × TurnEndReason) := []
  approvals : Broker BrokerEntry ApprovalResponse := {}
  questions : Broker BrokerEntry QuestionOutcome := {}

inductive ApprovalStep
  | newSignal
  | startTurn (key : AgentKey) (signal : ℕ)
  | beginBatch (t : ℕ)
  /-- The step is sealed, unless the turn was aborted. -/
  | sealStep (t : ℕ)
  | beginCheck (t : ℕ)
  /-- A check comes to a decision. -/
  | decide (t : ℕ)
  | askApproval (t : ℕ)
  /-- The call of a check has returned. -/
  | resumeCheck (t : ℕ)
  /-- A tool asks, with the signal of its turn or of a background task. -/
  | askQuestion (key : AgentKey) (signal : ℕ)
  | deliverCall (c : ℕ)
  | receiveReply (c : ℕ)
  | abort (i : ℕ)
  | resolveApproval (id : ℕ) (response : ApprovalResponse)
  | resolveQuestion (id : ℕ) (answers : Option (List (String × String)))
  | dismissQuestion (id : ℕ)
  | endTurn (t : ℕ) (reason : TurnEndReason)
  | deliverEnding (j : ℕ)
  /-- The server shuts down. -/
  | dispose

namespace ApprovalRun

def isAborted (s : ApprovalRun) (i : ℕ) : Bool := s.signals[i]? == some true

def setTurn (s : ApprovalRun) (t : ℕ) (turn : AgentTurn) (phase : TurnPhase) : ApprovalRun :=
  { s with turns := s.turns.set t { turn with phase := phase } }

def setCall (s : ApprovalRun) (c : ℕ) (call : RpcCall) (phase : CallPhase) : ApprovalRun :=
  { s with calls := s.calls.set c { call with phase := phase } }

/-- The promise of a call is resolved. -/
def reply (calls : List RpcCall) (c : ℕ) : List RpcCall :=
  calls.modify c fun call =>
    if call.phase = .waiting then { call with phase := .replied } else call

/-- The calls that wait under a signal are rejected. -/
def rejectCalls (calls : List RpcCall) (i : ℕ) : List RpcCall :=
  calls.map fun call =>
    if call.signal = i ∧ call.phase = .waiting then { call with phase := .returned } else call

/-- `ApprovalService.resolve` -/
def settleApproval (s : ApprovalRun) (id : ℕ) (response : ApprovalResponse) : ApprovalRun :=
  match s.approvals.requests[id]? with
  | some e =>
    if id ∈ s.approvals.pending then
      { s with
        approvals := s.approvals.settle id response
        calls := reply s.calls e.call }
    else s
  | none => s

/-- `QuestionService.resolve` and `QuestionService.dismiss` -/
def settleQuestion (s : ApprovalRun) (id : ℕ) (outcome : QuestionOutcome) : ApprovalRun :=
  match s.questions.requests[id]? with
  | some e =>
    if id ∈ s.questions.pending then
      { s with
        questions := s.questions.settle id outcome
        calls := reply s.calls e.call }
    else s
  | none => s

/-- The pending requests of an agent. -/
def pendingOf (s : ApprovalRun) (key : AgentKey) : List ℕ :=
  s.approvals.pending.filter fun id => s.approvals.requests[id]?.any fun e => e.key = key

def dismissForAgent (s : ApprovalRun) (key : AgentKey) : ApprovalRun :=
  (s.pendingOf key).foldl (fun s id => s.settleApproval id { decision := .cancelled }) s

/-- The questions that listen to a signal. -/
def listeners (s : ApprovalRun) (i : ℕ) : List ℕ :=
  s.questions.pending.filter fun id =>
    s.questions.requests[id]?.any fun e => e.signal = some i

def abortSignal (s : ApprovalRun) (i : ℕ) : ApprovalRun :=
  (s.listeners i).foldl (fun s id => s.settleQuestion id .dismissed)
    { s with
      signals := s.signals.set i true
      calls := rejectCalls s.calls i }

/-- `ApprovalService.request`; a broker that is disposed throws. -/
def requestApproval (s : ApprovalRun) (c : ℕ) (call : RpcCall) : ApprovalRun :=
  if s.approvals.disposed then s.setCall c call .replied
  else
    { s.setCall c call .waiting with
      approvals := s.approvals.request { key := call.key, call := c } }

/-- `QuestionService.request` -/
def requestQuestion (s : ApprovalRun) (c : ℕ) (call : RpcCall) : ApprovalRun :=
  if s.questions.disposed then s.setCall c call .replied
  else
    let questionId := s.questions.requests.length
    let s :=
      { s.setCall c call .waiting with
        questions :=
          s.questions.request { key := call.key, call := c, signal := some call.signal } }
    if s.isAborted call.signal then s.settleQuestion questionId .dismissed else s

def step (s : ApprovalRun) : ApprovalStep → Option ApprovalRun
  | .newSignal => some { s with signals := s.signals ++ [false] }
  | .startTurn key signal =>
    if signal < s.signals.length then
      some { s with turns := s.turns ++ [{ key := key, signal := signal }] }
    else none
  | .beginBatch t => do
      let turn ← s.turns[t]?
      if turn.phase = .thinking then some (s.setTurn t turn .batch) else none
  | .sealStep t => do
      let turn ← s.turns[t]?
      if turn.phase = .batch ∧ s.isAborted turn.signal = false then
        some (s.setTurn t turn .thinking)
      else none
  | .beginCheck t => do
      let turn ← s.turns[t]?
      if turn.phase = .batch then some (s.setTurn t turn .evaluating) else none
  | .decide t => do
      let turn ← s.turns[t]?
      if turn.phase = .evaluating then some (s.setTurn t turn .batch) else none
  | .askApproval t => do
      let turn ← s.turns[t]?
      if turn.phase = .evaluating then
        some { s.setTurn t turn (.asking s.calls.length) with
          calls := s.calls ++ [{ kind := .approval, key := turn.key, signal := turn.signal }] }
      else none
  | .resumeCheck t => do
      let turn ← s.turns[t]?
      match turn.phase with
      | .asking c => do
          let call ← s.calls[c]?
          if call.phase = .returned then some (s.setTurn t turn .evaluating) else none
      | _ => none
  | .askQuestion key signal =>
    if signal < s.signals.length then
      some { s with
        calls := s.calls ++ [{ kind := .question, key := key, signal := signal }] }
    else none
  | .deliverCall c => do
      let call ← s.calls[c]?
      if call.phase = .sent then
        if s.isAborted call.signal then some (s.setCall c call .returned)
        else
          match call.kind with
          | .approval => some (s.requestApproval c call)
          | .question => some (s.requestQuestion c call)
      else none
  | .receiveReply c => do
      let call ← s.calls[c]?
      if call.phase = .replied then some (s.setCall c call .returned) else none
  | .abort i =>
    match s.signals[i]? with
    | some false => some (s.abortSignal i)
    | some true => some s
    | none => none
  | .resolveApproval id response => some (s.settleApproval id response)
  | .resolveQuestion id answers => some (s.settleQuestion id (.answered answers))
  | .dismissQuestion id => some (s.settleQuestion id .dismissed)
  | .endTurn t reason => do
      let turn ← s.turns[t]?
      -- A batch ends a turn by an abort, or by an error that is thrown.
      if turn.phase = .thinking ∨ turn.phase = .batch ∧
          reason = (if s.isAborted turn.signal then .cancelled else .failed) then
        some { s.setTurn t turn .ended with endings := s.endings ++ [(turn.key, reason)] }
      else none
  | .deliverEnding j => do
      let (key, reason) ← s.endings[j]?
      let s := if reason = .completed then s else s.dismissForAgent key
      some { s with endings := s.endings.eraseIdx j }
  | .dispose =>
    some { s with
      approvals := s.approvals.dispose
      questions := s.questions.dispose }

/-! ### What is promised -/

/-- **Every request is settled once, and none is left behind.**  What a broker tells and replies
accounts for every request; an approval is pending while a turn of its agent runs, or until the end
of a cancelled turn of the agent is told on the bus, which can be done at once and leaves no pending
approval of the agent; and a question is pending while its signal is not aborted. -/
structure Settled (s : ApprovalRun) : Prop where
  approvals : s.approvals.Accounts
  questions : s.questions.Accounts
  running : ∀ id ∈ s.approvals.pending, ∀ e, s.approvals.requests[id]? = some e →
    (∃ turn ∈ s.turns, turn.key = e.key ∧ turn.phase ≠ .ended) ∨ (e.key, .cancelled) ∈ s.endings
  delivered : ∀ j key reason, s.endings[j]? = some (key, reason) →
    ∃ s', s.step (.deliverEnding j) = some s' ∧ (reason ≠ .completed → s'.pendingOf key = [])
  listening : ∀ id ∈ s.questions.pending, ∀ e, s.questions.requests[id]? = some e →
    ∀ i ∈ e.signal, s.isAborted i = false

/-! ### The invariant -/

/-- What will settle a pending approval: the turn that waits for it, the end of an aborted turn, or
an end that is on its way. -/
def Held (s : ApprovalRun) (e : BrokerEntry) : Prop :=
  (∃ turn ∈ s.turns, turn.key = e.key ∧
    ((turn.phase = .asking e.call ∧
        ∃ call, s.calls[e.call]? = some call ∧ call.phase = .waiting ∧ call.signal = turn.signal) ∨
      (turn.phase.inBatch = true ∧ s.signals[turn.signal]? = some true))) ∨
  (e.key, .cancelled) ∈ s.endings

/-- What holds also while the listeners of a signal are being called. -/
structure Kept (s : ApprovalRun) : Prop where
  approvals : s.approvals.Accounts
  questions : s.questions.Accounts
  sent : ∀ c call, s.calls[c]? = some call → call.kind = .approval → call.phase = .sent →
    ∃ turn ∈ s.turns, turn.key = call.key ∧ turn.signal = call.signal ∧ turn.phase = .asking c
  approvalCalls : ∀ id ∈ s.approvals.pending, ∀ e, s.approvals.requests[id]? = some e →
    ∃ call, s.calls[e.call]? = some call ∧ call.kind = .approval ∧ call.phase ≠ .sent
  questionCalls : ∀ id ∈ s.questions.pending, ∀ e, s.questions.requests[id]? = some e →
    ∃ call, s.calls[e.call]? = some call ∧ call.kind = .question
  distinct : ∀ id ∈ s.approvals.pending, ∀ id' ∈ s.approvals.pending, ∀ e e',
    s.approvals.requests[id]? = some e → s.approvals.requests[id']? = some e' →
    e.call = e'.call → id = id'
  held : ∀ id ∈ s.approvals.pending, ∀ e, s.approvals.requests[id]? = some e → s.Held e

structure Sound (s : ApprovalRun) : Prop extends Kept s where
  listening : ∀ id ∈ s.questions.pending, ∀ e, s.questions.requests[id]? = some e →
    ∀ i ∈ e.signal, s.isAborted i = false

variable {s s' : ApprovalRun}

variable {e : BrokerEntry}

theorem Held.running (h : s.Held e) :
    (∃ turn ∈ s.turns, turn.key = e.key ∧ turn.phase ≠ .ended) ∨
      (e.key, .cancelled) ∈ s.endings := by
  refine h.imp_left ?_
  rintro ⟨turn, hturn, hkey, hphase⟩
  refine ⟨turn, hturn, hkey, fun hended => ?_⟩
  rcases hphase with ⟨hasking, -⟩ | ⟨hbatch, -⟩
  · rw [hended] at hasking
    cases hasking
  · rw [hended] at hbatch
    cases hbatch

/-! ### Turns -/

/-- What may become of a turn, seen from the approvals that it holds. -/
structure Moves (s : ApprovalRun) (turn : AgentTurn) (phase : TurnPhase)
    (endings : List (AgentKey × TurnEndReason)) : Prop where
  returned : ∀ c, turn.phase = .asking c → ∀ call ∈ s.calls[c]?, call.phase = .returned
  batch : turn.phase.inBatch = true → phase.inBatch = true ∨
    (∀ c, turn.phase ≠ .asking c) ∧ s.signals[turn.signal]? ≠ some true ∨
    (turn.key, .cancelled) ∈ endings

variable {turn : AgentTurn} {phase : TurnPhase} {endings : List (AgentKey × TurnEndReason)}

theorem Held.setTurn (h : s.Held e) {t : ℕ} (ht : s.turns[t]? = some turn)
    (hsub : ∀ m ∈ s.endings, m ∈ endings) (hmoves : s.Moves turn phase endings) :
    Held { s.setTurn t turn phase with endings := endings } e := by
  rcases h with ⟨turn', hturn', hkey, hphase⟩ | hending
  · obtain ⟨t', ht'⟩ := mem_iff_getElem?.1 hturn'
    by_cases htt : t' = t
    · -- The turn that moves is the one that holds the approval, so its call has not returned.
      subst htt
      cases ht.symm.trans ht'
      have hstays : turn.phase.inBatch = true ∧ s.signals[turn.signal]? = some true := by
        rcases hphase with ⟨hasking, call, hcall, hwaiting, -⟩ | hbatch
        · have hreturned := hmoves.returned _ hasking call hcall
          rw [hwaiting] at hreturned
          cases hreturned
        · exact hbatch
      rcases hmoves.batch hstays.1 with hbatch | ⟨-, hlive⟩ | hending
      · refine .inl ⟨{ turn with phase := phase }, ?_, hkey, .inr ⟨hbatch, hstays.2⟩⟩
        exact mem_of_getElem? (getElem?_set_of_some ht)
      · exact absurd hstays.2 hlive
      · exact .inr (hkey ▸ hending)
    · refine .inl ⟨turn', ?_, hkey, hphase⟩
      refine mem_of_getElem? (i := t') ?_
      rw [ApprovalRun.setTurn, getElem?_set_ne (Ne.symm htt)]
      exact ht'
  · exact .inr (hsub _ hending)

/-- **A turn moves.** -/
theorem Sound.setTurn (h : s.Sound) {t : ℕ} (ht : s.turns[t]? = some turn)
 (hsub : ∀ m ∈ s.endings, m ∈ endings) (hmoves : s.Moves turn phase endings) :
    Sound { s.setTurn t turn phase with endings := endings } where
  approvals := h.approvals
  questions := h.questions
  sent := fun c call hcall hkind hsent => by
    obtain ⟨turn', hturn', hkey, hsignal, hasking⟩ := h.sent c call hcall hkind hsent
    refine ⟨turn', ?_, hkey, hsignal, hasking⟩
    obtain ⟨t', ht'⟩ := mem_iff_getElem?.1 hturn'
    have htt : t' ≠ t := by
      rintro rfl
      cases ht.symm.trans ht'
      have hreturned := hmoves.returned c hasking call hcall
      rw [hsent] at hreturned
      cases hreturned
    refine mem_of_getElem? (i := t') ?_
    rw [ApprovalRun.setTurn, getElem?_set_ne (Ne.symm htt)]
    exact ht'
  approvalCalls := h.approvalCalls
  questionCalls := h.questionCalls
  distinct := h.distinct
  held := fun id hid e he => (h.held id hid e he).setTurn ht hsub hmoves
  listening := h.listening

theorem Moves.of_batch
    (hreturned : ∀ c, turn.phase = .asking c → ∀ call ∈ s.calls[c]?, call.phase = .returned)
    (hphase : phase.inBatch = true) : s.Moves turn phase endings :=
  ⟨hreturned, fun _ => .inl hphase⟩

theorem Moves.of_thinking (hthinking : turn.phase = .thinking) : s.Moves turn phase endings where
  returned := fun c hc => (by rw [hthinking] at hc; cases hc)
  batch := fun hbatch => (by rw [hthinking] at hbatch; cases hbatch)

theorem Held.mono (h : s.Held e) (hturns : ∀ turn ∈ s.turns, turn ∈ s'.turns)
    (hcalls : ∀ call : RpcCall, s.calls[e.call]? = some call → call.phase = .waiting →
      s'.calls[e.call]? = some call)
    (hsignals : ∀ i : ℕ, s.signals[i]? = some true → s'.signals[i]? = some true)
    (hendings : ∀ m ∈ s.endings, m.2 = .cancelled → m ∈ s'.endings) : s'.Held e := by
  rcases h with ⟨turn, hturn, hkey, hphase⟩ | hending
  · refine .inl ⟨turn, hturns turn hturn, hkey, ?_⟩
    rcases hphase with ⟨hasking, call, hcall, hwaiting, hsignal⟩ | ⟨hbatch, haborted⟩
    · exact .inl ⟨hasking, call, hcalls _ hcall hwaiting, hwaiting, hsignal⟩
    · exact .inr ⟨hbatch, hsignals _ haborted⟩
  · exact .inr (hendings _ hending rfl)

/-! ### Calls -/

variable {c c' : ℕ} {call call' : RpcCall}

variable {phase : CallPhase}

theorem getElem?_setCall (hc : s.calls[c]? = some call) (hphase : call.phase ≠ .waiting)
    (hc' : s.calls[c']? = some call') (hwaiting : call'.phase = .waiting) :
    (s.setCall c call phase).calls[c']? = some call' := by
  have hne : c' ≠ c := by
    rintro rfl
    cases hc.symm.trans hc'
    exact hphase hwaiting
  rw [ApprovalRun.setCall, getElem?_set_ne (Ne.symm hne)]
  exact hc'

theorem sent_of_setCall (hphase : phase ≠ .sent)
    (hc' : (s.setCall c call phase).calls[c']? = some call') (hsent : call'.phase = .sent) :
    s.calls[c']? = some call' := by
  rcases getElem?_set_cases hc' with ⟨-, rfl⟩ | ⟨-, hcall⟩
  · exact absurd hsent hphase
  · exact hcall

theorem exists_setCall (hc : s.calls[c]? = some call) (hphase : phase ≠ .sent)
    (hc' : s.calls[c']? = some call') :
    ∃ call'', (s.setCall c call phase).calls[c']? = some call'' ∧ call''.kind = call'.kind ∧
      (call'.phase ≠ .sent → call''.phase ≠ .sent) := by
  by_cases hcc : c' = c
  · subst hcc
    cases hc.symm.trans hc'
    exact ⟨_, getElem?_set_of_some hc, rfl, fun _ => hphase⟩
  · refine ⟨call', ?_, rfl, fun h => h⟩
    rw [ApprovalRun.setCall, getElem?_set_ne (Ne.symm hcc)]
    exact hc'

/-- **A call that nobody waits for goes on.** -/
theorem Kept.setCall (h : s.Kept) (hc : s.calls[c]? = some call) (hwaiting : call.phase ≠ .waiting)
    (hphase : phase ≠ .sent) : Kept (s.setCall c call phase) where
  approvals := h.approvals
  questions := h.questions
  sent := fun c' call' hcall hkind hsent =>
    h.sent c' call' (sent_of_setCall hphase hcall hsent) hkind hsent
  approvalCalls := fun id hid e he => by
    obtain ⟨call', hcall', hkind, hsent⟩ := h.approvalCalls id hid e he
    obtain ⟨call'', hcall'', hkind'', hsent''⟩ := exists_setCall hc hphase hcall'
    exact ⟨call'', hcall'', hkind''.trans hkind, hsent'' hsent⟩
  questionCalls := fun id hid e he => by
    obtain ⟨call', hcall', hkind⟩ := h.questionCalls id hid e he
    obtain ⟨call'', hcall'', hkind'', -⟩ := exists_setCall hc hphase hcall'
    exact ⟨call'', hcall'', hkind''.trans hkind⟩
  distinct := h.distinct
  held := fun id hid e he =>
    (h.held id hid e he).mono (fun _ ht => ht)
      (fun _ hcall hcallw => getElem?_setCall hc hwaiting hcall hcallw) (fun _ hi => hi)
      fun _ hm _ => hm

variable {id : ℕ}

theorem getElem?_request {α ω : Type} {b : Broker α ω} (hb : b.Accounts) {a : α}
    (hid : id ∈ (b.request a).pending) {e : α} (he : (b.request a).requests[id]? = some e) :
    (id ∈ b.pending ∧ b.requests[id]? = some e) ∨ (id = b.requests.length ∧ e = a) := by
  rcases mem_append.1 hid with hid | hid
  · rcases getElem?_append_singleton he with he | ⟨rfl, -⟩
    · exact .inl ⟨hid, he⟩
    · exact absurd (hb.pending_lt _ hid) (Nat.lt_irrefl _)
  · obtain rfl := mem_singleton.1 hid
    rw [Broker.request, getElem?_concat_length] at he
    exact .inr ⟨rfl, (some.inj he).symm⟩

/-- **An approval is requested**, and the turn that asks for it holds it. -/
theorem Kept.requestApproval (h : s.Kept)
    (hc : s.calls[c]? = some call) (hkind : call.kind = .approval) (hsent : call.phase = .sent) :
    Kept (s.requestApproval c call) := by
  have hwaiting : call.phase ≠ .waiting := fun hw => (by rw [hsent] at hw; cases hw)
  unfold ApprovalRun.requestApproval
  split
  · exact h.setCall hc hwaiting fun hp => (by cases hp)
  · have hset : Kept (s.setCall c call .waiting) := h.setCall hc hwaiting fun hp => (by cases hp)
    have hother : ∀ id ∈ s.approvals.pending, ∀ e, s.approvals.requests[id]? = some e →
        e.call ≠ c := by
      intro id hid e he heq
      obtain ⟨call', hcall', -, hnot⟩ := h.approvalCalls id hid e he
      rw [heq, hc] at hcall'
      exact hnot (some.inj hcall' ▸ hsent)
    refine ⟨h.approvals.request _, h.questions, hset.sent, fun id hid e he => ?_,
      hset.questionCalls, fun id hid id' hid' e e' he he' heq => ?_, fun id hid e he => ?_⟩
    · rcases getElem?_request h.approvals hid he with ⟨hid, he⟩ | ⟨-, rfl⟩
      · exact hset.approvalCalls id hid e he
      · exact ⟨_, getElem?_set_of_some hc, hkind, fun hp => (by cases hp)⟩
    · rcases getElem?_request h.approvals hid he with ⟨hid, he⟩ | ⟨rfl, rfl⟩
      · rcases getElem?_request h.approvals hid' he' with ⟨hid', he'⟩ | ⟨rfl, rfl⟩
        · exact h.distinct id hid id' hid' e e' he he' heq
        · exact absurd heq (hother id hid e he)
      · rcases getElem?_request h.approvals hid' he' with ⟨hid', he'⟩ | ⟨rfl, rfl⟩
        · exact absurd heq.symm (hother id' hid' e' he')
        · rfl
    · rcases getElem?_request h.approvals hid he with ⟨hid, he⟩ | ⟨-, rfl⟩
      · exact (hset.held id hid e he).mono (fun _ ht => ht) (fun _ hcall _ => hcall)
          (fun _ hi => hi) fun _ hm _ => hm
      · obtain ⟨turn, hturn, hkey, hsignal, hasking⟩ := h.sent c call hc hkind hsent
        exact .inl ⟨turn, hturn, hkey, .inl ⟨hasking, _, getElem?_set_of_some hc, rfl,
          hsignal.symm⟩⟩

/-! ### Settling -/

variable {calls : List RpcCall}

theorem getElem?_reply (h : (reply calls c)[c']? = some call) :
    ∃ old, calls[c']? = some old ∧ old.kind = call.kind ∧
      (call.phase = .sent → call = old) ∧ (old.phase ≠ .sent → call.phase ≠ .sent) := by
  obtain ⟨old, hold, rfl⟩ := getElem?_modify_some h
  refine ⟨old, hold, ?_, ?_, ?_⟩ <;> split
  · split <;> rfl
  · rfl
  · split
    · exact fun hp => (by cases hp)
    · exact fun _ => rfl
  · exact fun _ => rfl
  · split
    · exact fun _ hp => (by cases hp)
    · exact fun hne => hne
  · exact fun hne => hne

theorem reply_of_ne (hne : c ≠ c')
    (h : calls[c']? = some call) : (reply calls c)[c']? = some call := by
  rw [reply, getElem?_modify_of_some _ c h, if_neg hne]

theorem exists_reply (c : ℕ) (h : calls[c']? = some call) :
    ∃ new, (reply calls c)[c']? = some new ∧ new.kind = call.kind ∧
      (call.phase ≠ .sent → new.phase ≠ .sent) := by
  have hlt := (List.getElem?_eq_some_iff.1 h).1
  have hlt' : c' < (reply calls c).length := by
    rw [reply, List.length_modify]
    exact hlt
  obtain ⟨old, hold, hkind, -, hsent⟩ := getElem?_reply (List.getElem?_eq_getElem hlt')
  cases h.symm.trans hold
  exact ⟨_, List.getElem?_eq_getElem hlt', hkind.symm, hsent⟩

/-- **An approval is settled**, and nothing else that is pending is touched. -/
theorem Kept.settleApproval (h : s.Kept) (id : ℕ) (response : ApprovalResponse) :
    Kept (s.settleApproval id response) := by
  unfold ApprovalRun.settleApproval
  split
  · rename_i e he
    split
    · rename_i hid
      have hmem : ∀ j, j ∈ (s.approvals.settle id response).pending →
          j ∈ s.approvals.pending ∧ j ≠ id := fun j hj =>
        (Broker.mem_pending_settle h.approvals.nodup).1 hj
      have hrequests : (s.approvals.settle id response).requests = s.approvals.requests :=
        Broker.requests_settle
      refine ⟨h.approvals.settle id response, h.questions, fun c call hcall hkind hsent => ?_,
        fun j hj e' he' => ?_, fun j hj e' he' => ?_, fun j hj j' hj' e' e'' he' he'' heq => ?_,
        fun j hj e' he' => ?_⟩
      · obtain ⟨old, hold, hkind', hsame, -⟩ := getElem?_reply hcall
        obtain rfl := hsame hsent
        exact h.sent c call hold hkind hsent
      · rw [hrequests] at he'
        obtain ⟨call, hcall, hkind, hsent⟩ := h.approvalCalls j (hmem j hj).1 e' he'
        obtain ⟨new, hnew, hkind', hsent'⟩ := exists_reply e.call hcall
        exact ⟨new, hnew, hkind'.trans hkind, hsent' hsent⟩
      · obtain ⟨call, hcall, hkind⟩ := h.questionCalls j hj e' he'
        obtain ⟨new, hnew, hkind', -⟩ := exists_reply e.call hcall
        exact ⟨new, hnew, hkind'.trans hkind⟩
      · rw [hrequests] at he' he''
        exact h.distinct j (hmem j hj).1 j' (hmem j' hj').1 e' e'' he' he'' heq
      · rw [hrequests] at he'
        refine (h.held j (hmem j hj).1 e' he').mono (fun _ ht => ht) (fun call hcall _ => ?_)
          (fun _ hi => hi) fun _ hm _ => hm
        refine reply_of_ne (fun heq => (hmem j hj).2 ?_) hcall
        exact (h.distinct id hid j (hmem j hj).1 e e' he he' heq).symm
    · exact h
  · exact h

/-- **A question is settled**; its call is not that of an approval. -/
theorem Kept.settleQuestion (h : s.Kept) (id : ℕ) (outcome : QuestionOutcome) :
    Kept (s.settleQuestion id outcome) := by
  unfold ApprovalRun.settleQuestion
  split
  · rename_i e he
    split
    · rename_i hid
      obtain ⟨asked, hasked, hquestion⟩ := h.questionCalls id hid e he
      refine ⟨h.approvals, h.questions.settle id outcome, fun c call hcall hkind hsent => ?_,
        fun j hj e' he' => ?_, fun j hj e' he' => ?_, h.distinct, fun j hj e' he' => ?_⟩
      · obtain ⟨old, hold, hkind', hsame, -⟩ := getElem?_reply hcall
        obtain rfl := hsame hsent
        exact h.sent c call hold hkind hsent
      · obtain ⟨call, hcall, hkind, hsent⟩ := h.approvalCalls j hj e' he'
        obtain ⟨new, hnew, hkind', hsent'⟩ := exists_reply e.call hcall
        exact ⟨new, hnew, hkind'.trans hkind, hsent' hsent⟩
      · have hj' := ((Broker.mem_pending_settle h.questions.nodup).1 hj).1
        have hrequests : (s.questions.settle id outcome).requests = s.questions.requests :=
          Broker.requests_settle
        rw [hrequests] at he'
        obtain ⟨call, hcall, hkind⟩ := h.questionCalls j hj' e' he'
        obtain ⟨new, hnew, hkind', -⟩ := exists_reply e.call hcall
        exact ⟨new, hnew, hkind'.trans hkind⟩
      · refine (h.held j hj e' he').mono (fun _ ht => ht) (fun call hcall _ => ?_)
          (fun _ hi => hi) fun _ hm _ => hm
        refine reply_of_ne (fun heq => ?_) hcall
        obtain ⟨call', hcall', happroval, -⟩ := h.approvalCalls j hj e' he'
        rw [heq, hcall'] at hasked
        cases hasked
        rw [hquestion] at happroval
        cases happroval
    · exact h
  · exact h

theorem settleQuestion_signals (id : ℕ) (outcome : QuestionOutcome) :
    (s.settleQuestion id outcome).signals = s.signals := by
  unfold ApprovalRun.settleQuestion
  split
  · split <;> rfl
  · rfl

theorem settleQuestion_requests (id : ℕ) (outcome : QuestionOutcome) :
    (s.settleQuestion id outcome).questions.requests = s.questions.requests := by
  unfold ApprovalRun.settleQuestion
  split
  · split
    · exact Broker.requests_settle
    · rfl
  · rfl

variable {j : ℕ}

theorem mem_pending_settleQuestion (h : s.Kept) {outcome : QuestionOutcome}
    (hj : j ∈ (s.settleQuestion id outcome).questions.pending) :
    j ∈ s.questions.pending ∧ j ≠ id := by
  unfold ApprovalRun.settleQuestion at hj
  split at hj
  · split at hj
    · exact (Broker.mem_pending_settle h.questions.nodup).1 hj
    · rename_i hid
      exact ⟨hj, fun heq => hid (heq ▸ hj)⟩
  · rename_i hnone
    refine ⟨hj, fun heq => ?_⟩
    rw [← heq, getElem?_eq_getElem (h.questions.pending_lt j hj)] at hnone
    cases hnone

theorem settleApproval_frame (id : ℕ) (response : ApprovalResponse) :
    (s.settleApproval id response).approvals.requests = s.approvals.requests ∧
      (s.settleApproval id response).endings = s.endings ∧
      (s.settleApproval id response).questions = s.questions ∧
      (s.settleApproval id response).signals = s.signals := by
  unfold ApprovalRun.settleApproval
  split
  · split
    · exact ⟨Broker.requests_settle, rfl, rfl, rfl⟩
    · exact ⟨rfl, rfl, rfl, rfl⟩
  · exact ⟨rfl, rfl, rfl, rfl⟩

theorem mem_pending_settleApproval (h : s.Kept) {response : ApprovalResponse}
    (hj : j ∈ (s.settleApproval id response).approvals.pending) :
    j ∈ s.approvals.pending ∧ j ≠ id := by
  unfold ApprovalRun.settleApproval at hj
  split at hj
  · split at hj
    · exact (Broker.mem_pending_settle h.approvals.nodup).1 hj
    · rename_i hid
      exact ⟨hj, fun heq => hid (heq ▸ hj)⟩
  · rename_i hnone
    refine ⟨hj, fun heq => ?_⟩
    rw [← heq, getElem?_eq_getElem (h.approvals.pending_lt j hj)] at hnone
    cases hnone

/-! ### Questions -/

/-- **A question is requested**, and dismissed at once when its signal is aborted. -/
theorem Sound.requestQuestion (h : s.Sound)
    (hc : s.calls[c]? = some call) (hkind : call.kind = .question) (hsent : call.phase = .sent)
    (haborted : s.isAborted call.signal = false) : Sound (s.requestQuestion c call) := by
  have hwaiting : call.phase ≠ .waiting := fun hw => (by rw [hsent] at hw; cases hw)
  unfold ApprovalRun.requestQuestion
  split
  · exact ⟨h.toKept.setCall hc hwaiting fun hp => (by cases hp), h.listening⟩
  · have hset : Kept (s.setCall c call .waiting) :=
      h.toKept.setCall hc hwaiting fun hp => (by cases hp)
    dsimp only
    split
    · rename_i habort
      exact absurd (haborted.symm.trans habort) Bool.false_ne_true
    · refine ⟨⟨h.approvals, h.questions.request _, hset.sent, hset.approvalCalls,
        fun id hid e he => ?_, h.distinct, fun id hid e he => ?_⟩, fun id hid e he i hi => ?_⟩
      · rcases getElem?_request h.questions hid he with ⟨hid, he⟩ | ⟨-, rfl⟩
        · exact hset.questionCalls id hid e he
        · exact ⟨_, getElem?_set_of_some hc, hkind⟩
      · exact (hset.held id hid e he).mono (fun _ ht => ht) (fun _ hcall _ => hcall)
          (fun _ hi => hi) fun _ hm _ => hm
      · rcases getElem?_request h.questions hid he with ⟨hid, he⟩ | ⟨-, rfl⟩
        · exact h.listening id hid e he i hi
        · cases hi
          exact haborted

theorem Sound.settleQuestion (h : s.Sound) (id : ℕ) (outcome : QuestionOutcome) :
    Sound (s.settleQuestion id outcome) := by
  refine ⟨h.toKept.settleQuestion id outcome, fun j hj e he => ?_⟩
  rw [settleQuestion_requests] at he
  unfold isAborted
  rw [settleQuestion_signals]
  exact h.listening j (mem_pending_settleQuestion h.toKept hj).1 e he

theorem Kept.dismissAll (h : s.Kept) (ids : List ℕ) :
    let s' := ids.foldl (fun s id => s.settleQuestion id .dismissed) s
    Kept s' ∧ s'.signals = s.signals ∧ s'.questions.requests = s.questions.requests ∧
      ∀ j ∈ s'.questions.pending, j ∈ s.questions.pending ∧ j ∉ ids := by
  induction ids generalizing s with
  | nil => exact ⟨h, rfl, rfl, fun j hj => ⟨hj, not_mem_nil⟩⟩
  | cons id ids ih =>
    obtain ⟨hkept, hsignals, hrequests, hpending⟩ := ih (h.settleQuestion id .dismissed)
    refine ⟨hkept, hsignals.trans (settleQuestion_signals _ _),
      hrequests.trans (settleQuestion_requests _ _), fun j hj => ?_⟩
    obtain ⟨hmem, hnot⟩ := hpending j hj
    obtain ⟨hmem', hne⟩ := mem_pending_settleQuestion h hmem
    exact ⟨hmem', fun hin => (mem_cons.1 hin).elim hne hnot⟩

/-! ### Aborting -/

variable {i : ℕ}

theorem getElem?_rejectCalls (h : calls[c]? = some call) :
    (rejectCalls calls i)[c]? = some
      (if call.signal = i ∧ call.phase = .waiting then { call with phase := .returned }
        else call) := by
  rw [rejectCalls, getElem?_map, h]
  rfl

theorem exists_of_rejectCalls (h : (rejectCalls calls i)[c]? = some call) :
    ∃ old, calls[c]? = some old ∧ (call.phase = .sent → call = old) := by
  rw [rejectCalls, getElem?_map] at h
  obtain ⟨old, hold, rfl⟩ := map_eq_some_iff.1 h
  refine ⟨old, hold, ?_⟩
  split
  · exact fun hp => (by cases hp)
  · exact fun _ => rfl

theorem exists_rejectCalls (i : ℕ) (h : calls[c]? = some call) :
    ∃ new, (rejectCalls calls i)[c]? = some new ∧ new.kind = call.kind ∧
      (call.phase ≠ .sent → new.phase ≠ .sent) := by
  refine ⟨_, getElem?_rejectCalls h, ?_, ?_⟩ <;> split
  · rfl
  · rfl
  · exact fun _ hp => (by cases hp)
  · exact fun hne => hne

theorem Held.abort (h : s.Held e) (hi : s.signals[i]? = some false) :
    Held { s with signals := s.signals.set i true, calls := rejectCalls s.calls i } e := by
  have hset : (s.signals.set i true)[i]? = some true := getElem?_set_of_some hi
  rcases h with ⟨turn, hturn, hkey, hphase⟩ | hending
  · refine .inl ⟨turn, hturn, hkey, ?_⟩
    rcases hphase with ⟨hasking, call, hcall, hwaiting, hsignal⟩ | ⟨hbatch, haborted⟩
    · by_cases hturn' : turn.signal = i
      · refine .inr ⟨by rw [hasking]; rfl, ?_⟩
        rw [hturn']
        exact hset
      · refine .inl ⟨hasking, call, ?_, hwaiting, hsignal⟩
        refine (getElem?_rejectCalls hcall).trans ?_
        rw [if_neg fun hand => hturn' (hsignal ▸ hand.1)]
    · refine .inr ⟨hbatch, ?_⟩
      by_cases hturn' : turn.signal = i
      · rw [hturn']
        exact hset
      · dsimp only
        rw [getElem?_set_ne (Ne.symm hturn')]
        exact haborted
  · exact .inr hending

/-- **A signal is aborted**: what waits under it is rejected, and its questions are dismissed. -/
theorem Sound.abort (h : s.Sound) (hi : s.signals[i]? = some false) : Sound (s.abortSignal i) := by
  have hkept : Kept { s with
      signals := s.signals.set i true
      calls := rejectCalls s.calls i } := by
    refine ⟨h.approvals, h.questions, fun c call hcall hkind hsent => ?_, fun id hid e he => ?_,
      fun id hid e he => ?_, h.distinct, fun id hid e he => (h.held id hid e he).abort hi⟩
    · obtain ⟨old, hold, hsame⟩ := exists_of_rejectCalls hcall
      obtain rfl := hsame hsent
      exact h.sent c call hold hkind hsent
    · obtain ⟨call, hcall, hkind, hsent⟩ := h.approvalCalls id hid e he
      obtain ⟨new, hnew, hkind', hsent'⟩ := exists_rejectCalls i hcall
      exact ⟨new, hnew, hkind'.trans hkind, hsent' hsent⟩
    · obtain ⟨call, hcall, hkind⟩ := h.questionCalls id hid e he
      obtain ⟨new, hnew, hkind', -⟩ := exists_rejectCalls i hcall
      exact ⟨new, hnew, hkind'.trans hkind⟩
  obtain ⟨hall, hsignals, hrequests, hpending⟩ := hkept.dismissAll (s.listeners i)
  refine ⟨hall, fun id hid e he j hj => ?_⟩
  obtain ⟨hid', hnot⟩ := hpending id hid
  have he' : s.questions.requests[id]? = some e := hrequests ▸ he
  have hne : j ≠ i := by
    rintro rfl
    refine hnot (List.mem_filter.2 ⟨hid', ?_⟩)
    rw [he', any_some, decide_eq_true_eq]
    exact hj
  have hlive := h.listening id hid' e he' j hj
  have hsame : (s.abortSignal i).signals[j]? = s.signals[j]? :=
    (congrArg (·[j]?) hsignals).trans (getElem?_set_ne (Ne.symm hne))
  unfold isAborted at hlive ⊢
  rw [hsame]
  exact hlive

/-! ### Ends of turns -/

theorem Sound.dismissAll (h : s.Sound) (ids : List ℕ) :
    let s' := ids.foldl (fun s id => s.settleApproval id { decision := .cancelled }) s
    Sound s' ∧ s'.approvals.requests = s.approvals.requests ∧ s'.endings = s.endings ∧
      ∀ j ∈ s'.approvals.pending, j ∈ s.approvals.pending ∧ j ∉ ids := by
  induction ids generalizing s with
  | nil => exact ⟨h, rfl, rfl, fun j hj => ⟨hj, not_mem_nil⟩⟩
  | cons id ids ih =>
    obtain ⟨hframe, hframe', hquestions, hsignals⟩ :=
      settleApproval_frame (s := s) id { decision := .cancelled }
    have hone : Sound (s.settleApproval id { decision := .cancelled }) := by
      refine ⟨h.toKept.settleApproval id _, ?_⟩
      unfold isAborted
      rw [hquestions, hsignals]
      exact h.listening
    obtain ⟨hall, hrequests, hendings, hpending⟩ := ih hone
    refine ⟨hall, hrequests.trans hframe, hendings.trans hframe', fun j hj => ?_⟩
    obtain ⟨hmem, hnot⟩ := hpending j hj
    obtain ⟨hmem', hne⟩ := mem_pending_settleApproval h.toKept hmem
    exact ⟨hmem', fun hin => (mem_cons.1 hin).elim hne hnot⟩

/-- **The end of a turn that is told leaves no approval of the agent.** -/
theorem Sound.dismissForAgent (h : s.Sound) (key : AgentKey) :
    Sound (s.dismissForAgent key) ∧
      (s.dismissForAgent key).approvals.requests = s.approvals.requests ∧
      (s.dismissForAgent key).endings = s.endings ∧
      ∀ id ∈ (s.dismissForAgent key).approvals.pending, ∀ e,
        s.approvals.requests[id]? = some e → e.key ≠ key := by
  obtain ⟨hall, hrequests, hendings, hpending⟩ := h.dismissAll (s.pendingOf key)
  refine ⟨hall, hrequests, hendings, fun id hid e he hkey => ?_⟩
  obtain ⟨hid', hnot⟩ := hpending id hid
  refine hnot (List.mem_filter.2 ⟨hid', ?_⟩)
  rw [he, any_some, decide_eq_true_eq]
  exact hkey

variable {reason : TurnEndReason}

theorem Sound.eraseEnding (h : s.Sound) {key : AgentKey} (hj : s.endings[j]? = some (key, reason))
    (hnone : reason = .cancelled → ∀ id ∈ s.approvals.pending, ∀ e,
      s.approvals.requests[id]? = some e → e.key ≠ key) :
    Sound { s with endings := s.endings.eraseIdx j } := by
  refine ⟨⟨h.approvals, h.questions, h.sent, h.approvalCalls, h.questionCalls, h.distinct,
    fun id hid e he => ?_⟩, h.listening⟩
  rcases h.held id hid e he with hturn | hending
  · exact .inl hturn
  · rcases mem_eraseIdx_or_eq hj hending with hmem | heq
    · exact .inr hmem
    · obtain ⟨hkey, hreason⟩ := Prod.mk.inj heq
      exact absurd hkey (hnone hreason.symm id hid e he)

/-! ### Steps -/

theorem isAborted_newSignal (h : s.isAborted i = false) :
    isAborted { s with signals := s.signals ++ [false] } i = false := by
  unfold isAborted at h ⊢
  refine beq_eq_false_iff_ne.2 fun haborted => ?_
  rcases getElem?_append_singleton haborted with hold | ⟨-, hnew⟩
  · rw [hold] at h
    cases h
  · cases hnew

theorem Sound.addCall (h : s.Sound) (call : RpcCall)
    (hasked : call.kind = .approval → ∃ turn ∈ s.turns, turn.key = call.key ∧
      turn.signal = call.signal ∧ turn.phase = .asking s.calls.length) :
    Sound { s with calls := s.calls ++ [call] } := by
  have hkeep : ∀ (c : ℕ) (call' : RpcCall), s.calls[c]? = some call' →
      (s.calls ++ [call])[c]? = some call' := fun c call' hc => by
    rw [List.getElem?_append_left (List.getElem?_eq_some_iff.1 hc).1]
    exact hc
  refine ⟨⟨h.approvals, h.questions, fun c call' hcall hkind hsent => ?_, fun id hid e he => ?_,
    fun id hid e he => ?_, h.distinct, fun id hid e he => ?_⟩, h.listening⟩
  · rcases getElem?_append_singleton hcall with hold | ⟨rfl, rfl⟩
    · exact h.sent c call' hold hkind hsent
    · exact hasked hkind
  · obtain ⟨call', hcall, hrest⟩ := h.approvalCalls id hid e he
    exact ⟨call', hkeep _ _ hcall, hrest⟩
  · obtain ⟨call', hcall, hrest⟩ := h.questionCalls id hid e he
    exact ⟨call', hkeep _ _ hcall, hrest⟩
  · exact (h.held id hid e he).mono (fun _ ht => ht) (fun call' hcall _ => hkeep _ call' hcall)
      (fun _ hi => hi) fun _ hm _ => hm

/-- A call is delivered: it is rejected under an aborted signal, and else a broker takes it. -/
theorem Sound.deliverCall (h : s.Sound) (hc : s.calls[c]? = some call) (hsent : call.phase = .sent)
    (hs : (if s.isAborted call.signal then some (s.setCall c call .returned)
      else match call.kind with
        | .approval => some (s.requestApproval c call)
        | .question => some (s.requestQuestion c call)) = some s') : s'.Sound := by
  have hwaiting : call.phase ≠ .waiting := fun hw => (by rw [hsent] at hw; cases hw)
  split at hs
  · cases hs
    exact ⟨h.toKept.setCall hc hwaiting fun hp => (by cases hp), h.listening⟩
  · rename_i hlive
    cases hkind : call.kind with
    | approval =>
      rw [hkind] at hs
      cases hs
      refine ⟨h.toKept.requestApproval hc hkind hsent, ?_⟩
      have hframe : (s.requestApproval c call).questions = s.questions ∧
          (s.requestApproval c call).signals = s.signals := by
        unfold ApprovalRun.requestApproval
        split <;> exact ⟨rfl, rfl⟩
      unfold isAborted
      rw [hframe.1, hframe.2]
      exact h.listening
    | question =>
      rw [hkind] at hs
      cases hs
      exact h.requestQuestion hc hkind hsent (Bool.eq_false_iff.2 hlive)

theorem Moves.of_end (hphase : turn.phase = .thinking ∨ turn.phase = .batch ∧
      reason = (if s.isAborted turn.signal then .cancelled else .failed)) :
    s.Moves turn .ended (s.endings ++ [(turn.key, reason)]) := by
  rcases hphase with hthinking | ⟨hbatch, hreason⟩
  · exact Moves.of_thinking hthinking
  · refine ⟨fun c hc => ?_, fun _ => .inr ?_⟩
    · rw [hbatch] at hc
      cases hc
    · split at hreason
      · rw [hreason]
        exact .inr (mem_append_right _ (.head _))
      · rename_i hlive
        refine .inl ⟨fun c hc => ?_, fun haborted => hlive ?_⟩
        · rw [hbatch] at hc
          cases hc
        · unfold isAborted
          rw [haborted]
          rfl

theorem Sound.deliverEnding (h : s.Sound) {key : AgentKey}
    (hj : s.endings[j]? = some (key, reason)) :
    ∃ s', s.step (.deliverEnding j) = some s' ∧ s'.Sound ∧
      (reason ≠ .completed → s'.pendingOf key = []) := by
  simp only [ApprovalRun.step, hj, bind_eq_bind, bind_some]
  refine ⟨_, rfl, ?_⟩
  by_cases hreason : reason = .completed
  · rw [if_pos hreason]
    refine ⟨h.eraseEnding hj fun hcancelled => ?_, fun hne => absurd hreason hne⟩
    rw [hreason] at hcancelled
    cases hcancelled
  · rw [if_neg hreason]
    obtain ⟨hsound, hrequests, hendings, hnone⟩ := h.dismissForAgent key
    have hnone' : ∀ id ∈ (s.dismissForAgent key).approvals.pending, ∀ e,
        (s.dismissForAgent key).approvals.requests[id]? = some e → e.key ≠ key := by
      intro id hid e he
      exact hnone id hid e (hrequests ▸ he)
    have hj' : (s.dismissForAgent key).endings[j]? = some (key, reason) := by
      rw [hendings]
      exact hj
    refine ⟨?_, fun _ => filter_eq_nil_iff.2 fun id hid hany => ?_⟩
    · exact hsound.eraseEnding hj' fun _ => hnone'
    · obtain ⟨e, he, hkey⟩ := (any_eq_true _ _).1 hany
      exact hnone' id hid e he (of_decide_eq_true hkey)

/-- **What every step preserves.** -/
theorem Sound.step {a : ApprovalStep} (h : s.Sound) (hs : s.step a = some s') : s'.Sound := by
  cases a with
  | newSignal =>
    cases hs
    have hkeep : ∀ (i : ℕ) (b : Bool), s.signals[i]? = some b →
        (s.signals ++ [false])[i]? = some b := fun i b hi => by
      rw [List.getElem?_append_left (List.getElem?_eq_some_iff.1 hi).1]
      exact hi
    refine ⟨⟨h.approvals, h.questions, h.sent, h.approvalCalls, h.questionCalls, h.distinct,
      fun id hid e he => ?_⟩, fun id hid e he i hi =>
        isAborted_newSignal (h.listening id hid e he i hi)⟩
    exact (h.held id hid e he).mono (fun _ ht => ht) (fun _ hcall _ => hcall)
      (fun i hi => hkeep i _ hi) fun _ hm _ => hm
  | startTurn key signal =>
    obtain ⟨-, hs⟩ := ite_none_right_eq_some.1 hs
    cases hs
    refine ⟨⟨h.approvals, h.questions, fun c call hcall hkind hsent => ?_, h.approvalCalls,
      h.questionCalls, h.distinct, fun id hid e he => ?_⟩, h.listening⟩
    · obtain ⟨turn, hturn, hrest⟩ := h.sent c call hcall hkind hsent
      exact ⟨turn, List.mem_append_left _ hturn, hrest⟩
    · exact (h.held id hid e he).mono (fun _ ht => List.mem_append_left _ ht)
        (fun _ hcall _ => hcall) (fun _ hi => hi) fun _ hm _ => hm
  | beginBatch t =>
    obtain ⟨turn, ht, hs⟩ := bind_eq_some_iff.1 hs
    obtain ⟨hphase, hs⟩ := ite_none_right_eq_some.1 hs
    cases hs
    exact h.setTurn ht (fun _ hm => hm) (Moves.of_thinking hphase)
  | sealStep t =>
    obtain ⟨turn, ht, hs⟩ := bind_eq_some_iff.1 hs
    obtain ⟨⟨hphase, hlive⟩, hs⟩ := ite_none_right_eq_some.1 hs
    cases hs
    refine h.setTurn ht (fun _ hm => hm) ⟨fun c hc => ?_, fun _ => .inr (.inl ⟨?_, ?_⟩)⟩
    · rw [hphase] at hc
      cases hc
    · intro c hc
      rw [hphase] at hc
      cases hc
    · intro haborted
      unfold isAborted at hlive
      rw [haborted] at hlive
      cases hlive
  | beginCheck | decide =>
    obtain ⟨turn, ht, hs⟩ := bind_eq_some_iff.1 hs
    obtain ⟨hphase, hs⟩ := ite_none_right_eq_some.1 hs
    cases hs
    refine h.setTurn ht (fun _ hm => hm) (Moves.of_batch (fun c hc => ?_) rfl)
    rw [hphase] at hc
    cases hc
  | askApproval t =>
    obtain ⟨turn, ht, hs⟩ := bind_eq_some_iff.1 hs
    obtain ⟨hphase, hs⟩ := ite_none_right_eq_some.1 hs
    cases hs
    have hmoved : Sound (s.setTurn t turn (.asking s.calls.length)) := by
      refine h.setTurn ht (fun _ hm => hm) (Moves.of_batch (fun c hc => ?_) rfl)
      rw [hphase] at hc
      cases hc
    refine hmoved.addCall _ fun _ => ?_
    exact ⟨_, List.mem_of_getElem? (getElem?_set_of_some ht), rfl, rfl, rfl⟩
  | resumeCheck t =>
    obtain ⟨turn, ht, hs⟩ := bind_eq_some_iff.1 hs
    split at hs
    · rename_i c hasking
      obtain ⟨call, hcall, hs⟩ := bind_eq_some_iff.1 hs
      obtain ⟨hreturned, hs⟩ := ite_none_right_eq_some.1 hs
      cases hs
      refine h.setTurn ht (fun _ hm => hm) (Moves.of_batch (fun c' hc' call' hcall' => ?_) rfl)
      rw [hasking] at hc'
      obtain rfl := TurnPhase.asking.inj hc'
      cases hcall.symm.trans hcall'
      exact hreturned
    · cases hs
  | askQuestion key signal =>
    obtain ⟨-, hs⟩ := ite_none_right_eq_some.1 hs
    cases hs
    exact h.addCall _ fun hkind => (by cases hkind)
  | deliverCall c =>
    obtain ⟨call, hc, hs⟩ := bind_eq_some_iff.1 hs
    obtain ⟨hsent, hs⟩ := ite_none_right_eq_some.1 hs
    exact h.deliverCall hc hsent hs
  | receiveReply c =>
    obtain ⟨call, hc, hs⟩ := bind_eq_some_iff.1 hs
    obtain ⟨hreplied, hs⟩ := ite_none_right_eq_some.1 hs
    cases hs
    refine ⟨h.toKept.setCall hc (fun hw => ?_) fun hp => (by cases hp), h.listening⟩
    rw [hreplied] at hw
    cases hw
  | abort i =>
    cases hi : s.signals[i]? with
    | none =>
      simp only [ApprovalRun.step, hi] at hs
      cases hs
    | some aborted =>
      simp only [ApprovalRun.step, hi] at hs
      cases aborted with
      | false =>
        cases hs
        exact h.abort hi
      | true =>
        cases hs
        exact h
  | resolveApproval id response =>
    cases hs
    obtain ⟨-, -, hquestions, hsignals⟩ := settleApproval_frame (s := s) id response
    refine ⟨h.toKept.settleApproval id response, ?_⟩
    unfold isAborted
    rw [hquestions, hsignals]
    exact h.listening
  | resolveQuestion id answers | dismissQuestion id =>
    cases hs
    exact h.settleQuestion id _
  | endTurn t reason =>
    obtain ⟨turn, ht, hs⟩ := bind_eq_some_iff.1 hs
    obtain ⟨hphase, hs⟩ := ite_none_right_eq_some.1 hs
    cases hs
    exact h.setTurn ht (fun _ hm => List.mem_append_left _ hm) (Moves.of_end hphase)
  | deliverEnding j =>
    cases hj : s.endings[j]? with
    | none =>
      simp only [ApprovalRun.step, hj] at hs
      cases hs
    | some ending =>
      obtain ⟨s'', hs'', hsound, -⟩ := h.deliverEnding hj
      cases hs.symm.trans hs''
      exact hsound
  | dispose =>
    cases hs
    exact ⟨⟨h.approvals.dispose, h.questions.dispose, h.sent, fun _ hid => (by cases hid),
      fun _ hid => (by cases hid), fun _ hid => (by cases hid), fun _ hid => (by cases hid)⟩,
      fun _ hid => (by cases hid)⟩

/-! ### Runs -/

theorem sound_init : Sound {} where
  approvals := Broker.accounts_empty
  questions := Broker.accounts_empty
  sent := fun _ _ hcall => (by cases hcall)
  approvalCalls := fun _ hid => (by cases hid)
  questionCalls := fun _ hid => (by cases hid)
  distinct := fun _ hid => (by cases hid)
  held := fun _ hid => (by cases hid)
  listening := fun _ hid => (by cases hid)

theorem Sound.settled (h : s.Sound) : s.Settled where
  approvals := h.approvals
  questions := h.questions
  running := fun id hid e he => (h.held id hid e he).running
  delivered := fun j key reason hj => by
    obtain ⟨s', hs', -, hnone⟩ := h.deliverEnding hj
    exact ⟨s', hs', hnone⟩
  listening := h.listening

/-- **Every request is settled once, and none is left behind**, however turns run, ask, are aborted
and end, and in whatever order calls, replies and ends are delivered. -/
theorem run_settled {l : List ApprovalStep}
    (h : LibRun.Run ApprovalRun.step LibRun.always {} l s) : s.Settled := by
  have hsound : s.Sound := h.invariant sound_init fun _ _ _ ht _ hu => Sound.step ht hu
  exact hsound.settled

/-- A turn is aborted while an approval and a question are pending, answers come too late, and the
check of the next turn asks after its abort. -/
def abortedSteps : List ApprovalStep :=
  let main : AgentKey := ⟨"s", "main"⟩
  [.newSignal, .startTurn main 0, .beginBatch 0, .askQuestion main 0, .deliverCall 0,
    .beginCheck 0, .askApproval 0, .deliverCall 1, .abort 0, .resolveQuestion 0 none,
    .resumeCheck 0, .decide 0, .endTurn 0 .cancelled, .newSignal, .startTurn main 1,
    .beginBatch 1, .beginCheck 1, .abort 1, .askApproval 1, .deliverEnding 0,
    .resolveApproval 0 { decision := .approved }, .deliverCall 2]

theorem run_settled_example :
    ∃ s : ApprovalRun,
      s.approvals.events = [(0, .requested), (0, .settled { decision := .cancelled })] ∧
      s.questions.events = [(0, .requested), (0, .settled .dismissed)] ∧
      s.calls.map (·.phase) = [.returned, .returned, .returned] ∧ s.Settled := by
  have hrun : ∃ s, LibRun.Run ApprovalRun.step LibRun.always {} abortedSteps s ∧
      (s.approvals.events = [(0, .requested), (0, .settled { decision := .cancelled })] ∧
        s.questions.events = [(0, .requested), (0, .settled .dismissed)] ∧
        s.calls.map (·.phase) = [.returned, .returned, .returned]) :=
    LibRun.exists_run (by decide +kernel) (LibRun.legal_always _ _)
  obtain ⟨s, hs, happrovals, hquestions, hcalls⟩ := hrun
  exact ⟨s, happrovals, hquestions, hcalls, run_settled hs⟩

end ApprovalRun

end NoriCode
