/-
**Two renderings of a tool result.**

The live context stores a tool result for the model, and the transcript renders the same result
again for the reader.  Both put a status before an error and a placeholder where there is no
output.  What counts as no output is not the same: the live context looks for text that is not
white space, the transcript looks at the length.

Main definitions:

* `ExecutableToolResult.isUnseen` — an output that is there and that nobody can see.

Main results:

* `toolResultContent_eq_iff` — **when the two renderings are one**.
-/

import NoriCode.ModelRequest

namespace NoriCode

/-- **The output is there, and nothing of it can be seen**: a text of white space that is no error,
or parts that are all blank texts. -/
def ExecutableToolResult.isUnseen (result : ExecutableToolResult) : Bool :=
  match result.output with
  | .text output => result.isError != some true && output.toList.length != 0 && isBlank output
  | .parts output => output.length != 0 && output.all ContentPart.isBlank

theorem isBlank_of_length {s : String} (h : s.toList.length = 0) : isBlank s = true := by
  have hnil := List.eq_nil_of_length_eq_zero h
  unfold isBlank trim trimEnd trimStart
  rw [hnil]
  rfl

theorem isBlank_of_trim_eq {s : String} (h : trim s = TOOL_OUTPUT_EMPTY_TEXT) :
    isBlank s = false := by
  unfold isBlank
  rw [h]
  decide

theorem text_ne_status {s status : String} (hblank : isBlank s = true)
    (hstatus : isBlank status = false) : [ContentPart.text s] ≠ [.text status] := by
  intro h
  obtain rfl := ContentPart.text.inj (List.cons.inj h).1
  rw [hblank] at hstatus
  cases hstatus

theorem toolResultContent_text (output : String) (isError : Option Bool) (toolCallId : String) :
    toolResultContent ⟨.text output, isError⟩ =
        (createToolMessage toolCallId (toolResultOutputForModel ⟨.text output, isError⟩)).content ↔
      ExecutableToolResult.isUnseen ⟨.text output, isError⟩ = false := by
  unfold toolResultContent toolResultOutputForModel ExecutableToolResult.isUnseen
  dsimp only
  by_cases herror : isError = some true
  · subst herror
    rw [if_pos rfl, if_pos rfl, bne_self_eq_false, Bool.false_and, Bool.false_and]
    refine ⟨fun _ => rfl, fun _ => ?_⟩
    split_ifs <;> rfl
  · have hne : (isError != some true) = true := bne_iff_ne.2 herror
    rw [if_neg herror, if_neg herror, hne, Bool.true_and]
    by_cases hempty : output.toList.length = 0
    · have hlength : (output.toList.length != 0) = false := by rw [hempty]; rfl
      rw [if_pos (.inl hempty), isEmptyOutputText, isBlank_of_length hempty, Bool.true_or,
        if_pos rfl, hlength, Bool.false_and]
      exact ⟨fun _ => rfl, fun _ => rfl⟩
    · have hlength : (output.toList.length != 0) = true := bne_iff_ne.2 hempty
      rw [hlength, Bool.true_and]
      by_cases htrim : trim output = TOOL_OUTPUT_EMPTY_TEXT
      · have htext : (trim output == TOOL_OUTPUT_EMPTY_TEXT) = true := beq_iff_eq.2 htrim
        rw [if_pos (.inr htrim), isEmptyOutputText, isBlank_of_trim_eq htrim, htext, Bool.false_or,
          if_pos rfl]
        exact ⟨fun _ => rfl, fun _ => rfl⟩
      · have htext : (trim output == TOOL_OUTPUT_EMPTY_TEXT) = false := beq_eq_false_iff_ne.2 htrim
        rw [if_neg fun h => h.elim hempty htrim, isEmptyOutputText, htext, Bool.or_false]
        cases hblank : isBlank output with
        | true =>
          rw [if_pos rfl]
          exact ⟨fun h => absurd h (text_ne_status hblank isBlank_status.1), fun h => (by cases h)⟩
        | false =>
          rw [if_neg Bool.false_ne_true]
          exact ⟨fun _ => rfl, fun _ => rfl⟩

theorem parts_ne_status {output rest : List ContentPart} {status : String}
    (hblank : output.all ContentPart.isBlank = true) (hstatus : isBlank status = false) :
    output ≠ .text status :: rest := by
  rintro rfl
  have hhead := List.all_eq_true.1 hblank _ (.head _)
  change isBlank status = true at hhead
  rw [hstatus] at hhead
  cases hhead

theorem toolResultContent_parts (output : List ContentPart) (isError : Option Bool)
    (toolCallId : String) :
    toolResultContent ⟨.parts output, isError⟩ =
        (createToolMessage toolCallId (toolResultOutputForModel ⟨.parts output, isError⟩)).content ↔
      ExecutableToolResult.isUnseen ⟨.parts output, isError⟩ = false := by
  unfold toolResultContent toolResultOutputForModel ExecutableToolResult.isUnseen
    isEmptyEquivalentContentArray
  dsimp only
  cases output with
  | nil =>
    rw [if_pos List.length_nil, if_pos List.all_nil]
    exact ⟨fun _ => rfl, fun _ => rfl⟩
  | cons part rest =>
    have hlength : ¬ (part :: rest).length = 0 := Nat.succ_ne_zero _
    have hpresent : ((part :: rest).length != 0) = true := bne_iff_ne.2 hlength
    rw [if_neg hlength, hpresent, Bool.true_and]
    cases hblank : (part :: rest).all ContentPart.isBlank with
    | false =>
      rw [if_neg Bool.false_ne_true]
      refine ⟨fun _ => rfl, fun _ => ?_⟩
      split <;> rfl
    | true =>
      rw [if_pos rfl]
      refine ⟨fun h => ?_, fun h => (by cases h)⟩
      -- An error has one part more than its placeholder, any other result a blank first part.
      split at h
      · cases (List.cons.inj h).2
      · exact absurd h (parts_ne_status hblank isBlank_status.1)

/-- **The two renderings of a result are one exactly when its output is not unseen.** -/
theorem toolResultContent_eq_iff (result : ExecutableToolResult) (toolCallId : String) :
    toolResultContent result =
        (createToolMessage toolCallId (toolResultOutputForModel result)).content ↔
      result.isUnseen = false := by
  obtain ⟨output, isError⟩ := result
  cases output with
  | text output => exact toolResultContent_text output isError toolCallId
  | parts output => exact toolResultContent_parts output isError toolCallId

/-- **A blank is shown as it is in the transcript, and as a placeholder to the model.** -/
theorem toolResultContent_ne :
    toolResultContent ⟨.text " ", none⟩ = [.text " "] ∧
      (createToolMessage "call" (toolResultOutputForModel ⟨.text " ", none⟩)).content =
        [.text "<system>Tool output is empty.</system>"] := by
  decide +kernel

end NoriCode
