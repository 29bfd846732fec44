/-
**The arguments of a recorded call.**

A call is recorded with its parsed arguments, printed again, also when it is refused: then the
refusal is recorded as its result.  From then on every request carries the call.  The record of a
text that is no JSON text is an empty object, which any request can carry; but the record of an
array or a scalar is that array or scalar, and the conversion throws on it.

Main definitions:

* `toolCallEnv` — the environment of a batch, with the parser of the arguments;
* `recordedCall` — a call and its refusal in the context.

Main results:

* `recordedCall_converts_iff` — **when the history of a call converts**.
-/

import NoriCode.Anthropic
import NoriCode.ContextMarks
import NoriCode.ProjectorStrict
import NoriCode.ToolCallBatch

namespace NoriCode

open LibJson LibOrdSet List Option ContextMemory ContextMessage

/-! ### Recording -/

/-- The environment of a batch of calls. -/
def toolCallEnv (printNumber : NumberText → Option NumberText) (tools : List (LoopTool Json))
    (normalizeImageContentParts : List ContentPart → List ContentPart)
    (toLowerCase : String → String) : BatchEnv Json where
  tools := tools
  parseToolCallArguments := fun raw => (parseToolCallArguments printNumber raw).data
  normalizeImageContentParts := normalizeImageContentParts
  toLowerCase := toLowerCase

/-- What a call leaves in the context before it runs: the event `tool.call`, and the event
`tool.result` when the preflight refuses it. -/
def recordedCall (env : BatchEnv Json) (c : ContextMemory) (stepUuid : String)
    (toolCall : ToolCall) : ContextMemory :=
  let call := preflightToolCall env toolCall
  let c := c.loopEvent
    (.toolCall stepUuid toolCall.id toolCall.name (some (jsonStringify call.args)))
  match call.kind with
  | .runnable _ => c
  | .rejected output =>
    c.loopEvent (.toolResult toolCall.id
      (normalizeToolResult env.normalizeImageContentParts
        (errorResult output)).toExecutableToolResult)

theorem preflightToolCall_args (env : BatchEnv Json) (toolCall : ToolCall) :
    (preflightToolCall env toolCall).args = env.parseToolCallArguments toolCall.arguments := by
  unfold preflightToolCall
  cases env.tools.find? (·.name = toolCall.name) with
  | none => rfl
  | some tool => cases h : tool.validationError (env.parseToolCallArguments toolCall.arguments) <;>
      simp [h]

/-! ### Printed arguments -/

theorem sendableArguments_jsonStringify (value : Json) :
    SendableArguments (some (jsonStringify value)) ↔ isObject value = true := by
  have hlist : (jsonStringify value).toList = stringify value := String.toList_ofList
  have hlength : (jsonStringify value).toList.length ≠ 0 := by
    obtain ⟨c, r, hprint, -⟩ := stringify_head value
    rw [hlist, hprint]
    simp
  have hparse : (parse (jsonStringify value).toList).any isObject = isObject value := by
    rw [hlist, parse_stringify]
    rfl
  constructor
  · intro h
    rw [← hparse]
    exact h _ rfl hlength
  · intro h text htext _
    rw [← mem_some_iff.1 htext, hparse]
    exact h

/-! ### The timeline -/

section Timeline

variable {c : ContextMemory}

/-- A call that is added to an assistant message has to be sent with it. -/
theorem sendableMessage_addToolCall {m : ContextMessage} (hrole : m.role = .assistant)
    (call : ToolCall) :
    SendableMessage (m.addToolCall call).toMessage ↔
      SendableMessage m.toMessage ∧ SendableArguments call.arguments := by
  have hrole' : (m.addToolCall call).role = .assistant := hrole
  unfold SendableMessage
  simp only [hrole, hrole']
  change ((∀ part ∈ m.content, _) ∧ ∀ tc ∈ m.toolCalls ++ [call], _) ↔ _
  rw [forall_mem_append, forall_mem_singleton, and_assoc]

variable {n : ℕ}

theorem sendable_updateStep (h : StepEntries c) (hn : n ∈ c.steps) (call : ToolCall) :
    (∀ m ∈ (c.updateStep n (addToolCall call)).messages, SendableMessage m.toMessage) ↔
      (∀ m ∈ c.messages, SendableMessage m.toMessage) ∧ SendableArguments call.arguments := by
  have hassistant : ∀ e ∈ c.history, e.step = some n → e.message.role = .assistant := by
    intro e he hstep
    exact (h.roles e he (by simp [hstep])).1
  rw [messages, updateStep, List.map_map, List.forall_mem_map, messages, List.forall_mem_map]
  constructor
  · intro hall
    refine ⟨fun e he => ?_, ?_⟩
    · have hsend := hall e he
      simp only [Function.comp_apply] at hsend
      split_ifs at hsend with hstep
      · exact ((sendableMessage_addToolCall (hassistant e he hstep) call).1 hsend).1
      · exact hsend
    · obtain ⟨e, he, hstep⟩ := List.mem_filterMap.1 hn
      have hsend := hall e he
      simp only [Function.comp_apply, if_pos hstep] at hsend
      exact ((sendableMessage_addToolCall (hassistant e he hstep) call).1 hsend).2
  · rintro ⟨hall, hcall⟩ e he
    simp only [Function.comp_apply]
    split_ifs with hstep
    · exact (sendableMessage_addToolCall (hassistant e he hstep) call).2 ⟨hall e he, hcall⟩
    · exact hall e he

variable {stepUuid : String}

/-- The timeline after the event `tool.call`. -/
theorem sendable_toolCall (h : StepEntries c)
    (hopen : c.openStep stepUuid = some n) (hn : n ∈ c.steps) (id name : String)
    (args : Option String) :
    (∀ m ∈ (c.loopEvent (.toolCall stepUuid id name args)).timeline, SendableMessage m.toMessage) ↔
      (∀ m ∈ c.timeline, SendableMessage m.toMessage) ∧ SendableArguments args := by
  have htimeline : (c.loopEvent (.toolCall stepUuid id name args)).timeline =
      (c.updateStep n (addToolCall ⟨id, name, args⟩)).messages ++ c.deferredMessages := by
    rw [loopEvent, hopen]
    rfl
  rw [htimeline, forall_mem_append, sendable_updateStep h hn ⟨id, name, args⟩,
    timeline, forall_mem_append]
  exact and_right_comm

/-- The timeline after the event `tool.result` of a call that waits. -/
theorem timeline_toolResult {id : String} (hid : id ∈ c.pendingToolResultIds)
    (result : ExecutableToolResult) :
    (c.loopEvent (.toolResult id result)).timeline =
      c.messages ++ toolResultMessage id result :: c.deferredMessages := by
  have htimeline : (c.answer id result).timeline =
      (c.pushHistory [toolResultMessage id result]).messages ++ c.deferredMessages := rfl
  rw [loopEvent, toolResult, if_pos hid, timeline_flush, htimeline,
    messages_pushHistory, append_assoc]
  rfl

theorem mem_pending_toolCall (hopen : c.openStep stepUuid = some n)
    (id name : String) (args : Option String) :
    id ∈ (c.loopEvent (.toolCall stepUuid id name args)).pendingToolResultIds := by
  rw [loopEvent, hopen]
  exact OrdSet.mem_insert.2 (.inr rfl)

/-! ### Answers -/

/-- The message is an error result of the call. -/
def isErrorAnswer (id : String) (m : ContextMessage) : Bool :=
  m.role == .tool && m.toolCallId == some id && m.isError == some true

theorem countP_isErrorAnswer_updateStep (h : StepEntries c) (n : ℕ) (call : ToolCall)
    (id : String) :
    (c.updateStep n (addToolCall call)).messages.countP (isErrorAnswer id) =
      c.messages.countP (isErrorAnswer id) := by
  rw [messages, updateStep, List.map_map, List.countP_map, messages, List.countP_map]
  refine List.countP_congr fun e he => ?_
  simp only [Function.comp_apply]
  split_ifs with hstep
  · have hrole := (h.roles e he (by simp [hstep])).1
    simp [isErrorAnswer, addToolCall, hrole]
  · exact Iff.rfl

theorem recordedCall_rejected {env : BatchEnv Json} {toolCall : ToolCall}
    {output : String} (hkind : (preflightToolCall env toolCall).kind = .rejected output)
    (hopen : c.openStep stepUuid = some n) :
    ∃ result, result.isError = some true ∧
      (∃ text, (toolResultMessage toolCall.id result).content = [.text text]) ∧
      (recordedCall env c stepUuid toolCall).timeline =
        (c.updateStep n (addToolCall ⟨toolCall.id, toolCall.name,
          some (jsonStringify (preflightToolCall env toolCall).args)⟩)).messages ++
        toolResultMessage toolCall.id result :: c.deferredMessages := by
  refine ⟨(normalizeToolResult env.normalizeImageContentParts
    (errorResult output)).toExecutableToolResult, rfl, ?_, ?_⟩
  · have htext : ∀ text, ∃ text', toolResultOutputForModel ⟨.text text, some true⟩ =
        .text text' := by
      intro text
      rw [toolResultOutputForModel]
      simp only [if_true]
      split_ifs <;> exact ⟨_, rfl⟩
    obtain ⟨text, h⟩ := htext (if output.toList.length > 0 then output else TOOL_OUTPUT_EMPTY)
    refine ⟨text, ?_⟩
    have hresult : (normalizeToolResult env.normalizeImageContentParts
        (errorResult output)).toExecutableToolResult =
        ⟨.text (if output.toList.length > 0 then output else TOOL_OUTPUT_EMPTY), some true⟩ := rfl
    rw [hresult, toolResultMessage, h]
    rfl
  · unfold recordedCall
    dsimp only
    rw [hkind, timeline_toolResult (mem_pending_toolCall hopen _ _ _)]
    simp only [loopEvent, hopen]
    rfl

end Timeline

/-! ### Recorded calls -/

/-- **When the history of a call converts.**  In any context a run can reach, a call of a step that
is open is recorded such that the history converts exactly when it did before and the arguments of
the call are not the text of an array or a scalar.  A refused call gets one error result. -/
theorem recordedCall_converts_iff (preserveUnsignedThinking : Bool)
    (printNumber : NumberText → Option NumberText) (tools : List (LoopTool Json))
    (normalizeImageContentParts : List ContentPart → List ContentPart)
    (toLowerCase : String → String) {ops : List ContextOp} {c : ContextMemory}
    (hc : c = ops.foldl performed {}) {stepUuid : String} {n : ℕ}
    (hopen : c.openStep stepUuid = some n) (hn : n ∈ c.steps) (toolCall : ToolCall) :
    let env := toolCallEnv printNumber tools normalizeImageContentParts toLowerCase
    ((∀ m ∈ (recordedCall env c stepUuid toolCall).timeline,
        Converts preserveUnsignedThinking printNumber m.toMessage) ↔
      (∀ m ∈ c.timeline, Converts preserveUnsignedThinking printNumber m.toMessage) ∧
        otherThanObject toolCall.arguments = false) ∧
    ∀ output, (preflightToolCall env toolCall).kind = .rejected output →
      (recordedCall env c stepUuid toolCall).timeline.countP (isErrorAnswer toolCall.id) =
        c.timeline.countP (isErrorAnswer toolCall.id) + 1 := by
  intro env
  have hsteps : StepEntries c := by
    rw [hc]
    clear hc hopen hn
    induction ops using reverseRecOn with
    | nil => exact .initial
    | append_singleton ops op ih =>
      rw [foldl_append]
      exact ih.performed op
  have hargs : SendableArguments (some (jsonStringify (preflightToolCall env toolCall).args)) ↔
      otherThanObject toolCall.arguments = false := by
    have hobject := isObject_parseToolCallArguments printNumber toolCall.arguments
    rw [sendableArguments_jsonStringify, preflightToolCall_args]
    change isObject (parseToolCallArguments printNumber toolCall.arguments).data = true ↔ _
    rw [hobject, Bool.not_eq_true']
  have hcall := sendable_toolCall hsteps hopen hn toolCall.id toolCall.name
    (some (jsonStringify (preflightToolCall env toolCall).args))
  simp only [converts_iff]
  rw [← hargs]
  constructor
  · cases hkind : (preflightToolCall env toolCall).kind with
    | runnable tool =>
      unfold recordedCall
      dsimp only
      rw [hkind]
      exact hcall
    | rejected output =>
      obtain ⟨result, -, ⟨text, htext⟩, htimeline⟩ := recordedCall_rejected hkind hopen
      have hresult : SendableMessage (toolResultMessage toolCall.id result).toMessage := by
        refine ⟨Option.some_ne_none _, fun part hpart => ?_⟩
        have hpart' : part ∈ (toolResultMessage toolCall.id result).content := hpart
        rw [htext, mem_singleton] at hpart'
        rw [hpart']
        trivial
      rw [htimeline, forall_mem_append, forall_mem_cons, sendable_updateStep hsteps hn,
        timeline, forall_mem_append]
      constructor
      · rintro ⟨⟨hmessages, hsend⟩, -, hdeferred⟩
        exact ⟨⟨hmessages, hdeferred⟩, hsend⟩
      · rintro ⟨⟨hmessages, hdeferred⟩, hsend⟩
        exact ⟨⟨hmessages, hsend⟩, hresult, hdeferred⟩
  · intro output hkind
    obtain ⟨result, herror, -, htimeline⟩ := recordedCall_rejected hkind hopen
    have hanswer : isErrorAnswer toolCall.id (toolResultMessage toolCall.id result) = true := by
      simp [isErrorAnswer, toolResultMessage, createToolMessage, herror]
    rw [htimeline, countP_append, countP_cons_of_pos hanswer,
      countP_isErrorAnswer_updateStep hsteps, timeline, countP_append]
    omega

/-- A step that is open, in a conversation that has begun. -/
def openStepOps : List ContextOp :=
  [.appendMessage
      { role := .user, content := [.text "hi"], toolCalls := [], origin := some ⟨.user, none⟩ },
    .loopEvent (.stepBegin "s" "0")]

/-- A call of a tool there is not. -/
def absentToolCall (arguments : String) : ToolCall := ⟨"a", "Open", some arguments⟩

/-- The theorem at a call whose arguments are a list. -/
theorem recordedCall_converts_iff_list :
    let c := recordedCall (toolCallEnv some [] id id)
      (openStepOps.foldl performed {}) "s" (absentToolCall "[1]")
    (¬ ∀ m ∈ c.timeline, Converts true some m.toMessage) ∧
      c.timeline.countP (isErrorAnswer "a") = 1 := by
  have hopen : (openStepOps.foldl performed {}).openStep "s" = some 0 := by
    decide +kernel
  have hnone : (openStepOps.foldl performed {}).timeline.countP (isErrorAnswer "a") = 0 := by
    decide +kernel
  obtain ⟨hconverts, hanswer⟩ := recordedCall_converts_iff true some [] id id rfl hopen
    (by decide +kernel) (absentToolCall "[1]")
  refine ⟨fun h => absurd (hconverts.1 h).2 (by decide +kernel), ?_⟩
  exact (hanswer _ rfl).trans (congrArg (· + 1) hnone)

/-- **A list of arguments** is refused, and the next request cannot be made. -/
theorem listArguments_do_not_convert :
    let env := toolCallEnv some [] id id
    let c := recordedCall env (openStepOps.foldl performed {}) "s" (absentToolCall "[1]")
    (preflightToolCall env (absentToolCall "[1]")).kind = .rejected "Tool \"Open\" not found" ∧
      ∃ request, project c.messages {} = .ok request ∧
        ∃ m ∈ request, convertMessage true some m =
          .error ⟨"Tool call arguments must be a JSON object."⟩ := by
  refine ⟨rfl, _, rfl, ?_⟩
  refine ⟨_, .tail _ mem_cons_self, ?_⟩
  rfl

end NoriCode
