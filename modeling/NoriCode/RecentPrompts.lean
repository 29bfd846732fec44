/-
**Which prompts compaction keeps.**

The most recent prompts are kept as long as they fit the token budget, and the next one is cut to
the rest of it.  The cut counts only the text, and a message has its role besides.

Main definitions:

* `KeepsMostRecent` — what is kept, and that nothing more fits;
* `FitsWithoutMedia` — the condition on the message to be cut.

Main results:

* `selectRecentUserMessages_within_iff` — **when what is kept fits the budget**.
-/

import Mathlib.Tactic.SplitIfs
import NoriCode.Handoff

namespace NoriCode

open List

/-- A message of which only a text is left. -/
def ContextMessage.cutTo (message : ContextMessage) (text : String) : ContextMessage :=
  { message with content := [.text text], toolCalls := [] }

/-- The estimated size of messages. -/
def tokensOfPrompts (messages : List ContextMessage) : ℕ :=
  estimateTokensForMessages (messages.map (·.toMessage))

/-- **What is kept are the most recent messages, and no more of them would fit.**  The message in
front of them may be cut to a front part of its text; a longer part, as the whole message, exceeds
the budget. -/
def KeepsMostRecent (messages kept : List ContextMessage) (budget : ℕ) : Prop :=
  (∃ older, messages = older ++ kept ∧ ∀ m ∈ older.getLast?, budget < tokensOfPrompts (m :: kept) ∧
    ∀ text, budget < tokensOfPrompts (m.cutTo text :: kept)) ∨
  ∃ older m newer text, messages = older ++ m :: newer ∧ kept = m.cutTo text :: newer ∧
    budget < tokensOfPrompts (m :: newer) ∧ text.toList <+: (extractText m.content).toList ∧
    ∀ longer : String, longer.toList <+: (extractText m.content).toList →
      text.toList.length < longer.toList.length →
      budget < tokensOfPrompts (m.cutTo longer :: newer)

/-- A message that does not fit the rest of the budget fits it without its media. -/
def FitsWithoutMedia (messages : List ContextMessage) (budget : ℕ) : Prop :=
  ∀ older m newer, messages = older ++ m :: newer → tokensOfPrompts newer < budget →
    budget < tokensOfPrompts (m :: newer) →
    tokensOfPrompts (m.cutTo (extractText m.content) :: newer) ≤ budget

/-! ### The cut -/

/-- The size of a text of which some characters have been counted. -/
def tokensBehind (asciiCount nonAsciiCount : ℕ) (part : List Char) : ℕ :=
  tokensOf (asciiCount + part.countP isAscii) (nonAsciiCount + part.countP (!isAscii ·))

theorem tokensBehind_cons (asciiCount nonAsciiCount : ℕ) (c : Char) (part : List Char) :
    tokensBehind asciiCount nonAsciiCount (c :: part) =
      tokensBehind (if isAscii c then asciiCount + 1 else asciiCount)
        (if isAscii c then nonAsciiCount else nonAsciiCount + 1) part := by
  unfold tokensBehind
  cases h : isAscii c <;> simp [h] <;> congr 1 <;> omega

theorem le_tokensBehind (asciiCount nonAsciiCount : ℕ) (part : List Char) :
    tokensOf asciiCount nonAsciiCount ≤ tokensBehind asciiCount nonAsciiCount part := by
  unfold tokensBehind tokensOf
  omega

/-- The characters that are taken are a front part, and no longer one is within the budget. -/
theorem takeTokens_spec {maxTokens asciiCount nonAsciiCount : ℕ}
    (h : tokensOf asciiCount nonAsciiCount ≤ maxTokens) (text : List Char) :
    takeTokens maxTokens asciiCount nonAsciiCount text <+: text ∧
      tokensBehind asciiCount nonAsciiCount (takeTokens maxTokens asciiCount nonAsciiCount text) =
        min (tokensBehind asciiCount nonAsciiCount text) maxTokens ∧
      ∀ longer, longer <+: text →
        (takeTokens maxTokens asciiCount nonAsciiCount text).length < longer.length →
        maxTokens < tokensBehind asciiCount nonAsciiCount longer := by
  induction text generalizing asciiCount nonAsciiCount with
  | nil =>
    refine ⟨List.nil_prefix, (Nat.min_eq_left h).symm, fun longer hlonger hlt => ?_⟩
    rw [prefix_nil.1 hlonger] at hlt
    cases hlt
  | cons c text ih =>
    unfold takeTokens
    dsimp only
    have hnext := tokensBehind_cons asciiCount nonAsciiCount c
    have hmost : tokensOf (if isAscii c then asciiCount + 1 else asciiCount)
        (if isAscii c then nonAsciiCount else nonAsciiCount + 1) ≤
          tokensOf asciiCount nonAsciiCount + 1 := by
      unfold tokensOf
      split_ifs <;> omega
    generalize (if isAscii c then asciiCount + 1 else asciiCount) = a at *
    generalize (if isAscii c then nonAsciiCount else nonAsciiCount + 1) = n at *
    split_ifs with hover
    · have htext := le_tokensBehind a n text
      refine ⟨List.nil_prefix, ?_, fun longer hlonger hlt => ?_⟩
      · rw [hnext, Nat.min_eq_right (by omega)]
        change tokensOf asciiCount nonAsciiCount = maxTokens
        omega
      · obtain ⟨d, part, rfl⟩ := exists_cons_of_length_pos hlt
        obtain ⟨rfl, -⟩ := cons_prefix_cons.1 hlonger
        rw [hnext]
        exact Nat.lt_of_lt_of_le hover (le_tokensBehind a n part)
    · obtain ⟨hpre, hsize, hlonger⟩ := ih (Nat.not_lt.1 hover)
      refine ⟨cons_prefix_cons.2 ⟨rfl, hpre⟩, by rw [hnext, hnext, hsize],
        fun longer hfront hlt => ?_⟩
      obtain ⟨d, part, rfl⟩ := exists_cons_of_length_pos (Nat.lt_of_le_of_lt (Nat.zero_le _) hlt)
      obtain ⟨rfl, hpart⟩ := cons_prefix_cons.1 hfront
      rw [hnext]
      exact hlonger part hpart (Nat.lt_of_succ_lt_succ hlt)

theorem truncateTextToTokens_spec (text : String) {maxTokens : ℕ} (hpos : 0 < maxTokens) :
    (truncateTextToTokens text maxTokens).toList <+: text.toList ∧
      estimateTokens (truncateTextToTokens text maxTokens) =
        min (estimateTokens text) maxTokens ∧
      ∀ longer : String, longer.toList <+: text.toList →
        (truncateTextToTokens text maxTokens).toList.length < longer.toList.length →
        maxTokens < estimateTokens longer := by
  have hsize (part : List Char) : tokensBehind 0 0 part = estimateTokensOfChars part := by
    rw [tokensBehind, Nat.zero_add, Nat.zero_add, estimateTokensOfChars]
  obtain ⟨hpre, htokens, hlonger⟩ :=
    takeTokens_spec (show tokensOf 0 0 ≤ maxTokens from Nat.zero_le _) text.toList
  rw [truncateTextToTokens, if_neg (Nat.ne_of_gt hpos)]
  simp only [hsize] at htokens hlonger
  simp only [estimateTokens, String.toList_ofList]
  exact ⟨hpre, htokens, fun longer => hlonger longer.toList⟩

/-! ### The messages -/

@[simp] theorem tokensOfPrompts_cons (m : ContextMessage) (messages : List ContextMessage) :
    tokensOfPrompts (m :: messages) =
      estimateTokensForMessage m.toMessage + tokensOfPrompts messages := by
  simp [tokensOfPrompts, estimateTokensForMessages]

theorem tokensOfPrompts_append (l l' : List ContextMessage) :
    tokensOfPrompts (l ++ l') = tokensOfPrompts l + tokensOfPrompts l' := by
  simp [tokensOfPrompts, estimateTokensForMessages]

theorem tokensOfPrompts_reverse (l : List ContextMessage) :
    tokensOfPrompts l.reverse = tokensOfPrompts l := by
  simp [tokensOfPrompts, estimateTokensForMessages, sum_reverse]

@[simp] theorem estimateTokens_cutTo (m : ContextMessage) (text : String) :
    estimateTokensForMessage (m.cutTo text).toMessage =
      estimateTokens m.role.text + estimateTokens text := by
  simp [ContextMessage.cutTo, estimateTokensForMessage, estimateTokensForContentParts,
    estimateTokensForContentPart]

theorem estimateTokens_role (role : Role) : 0 < estimateTokens role.text := by
  cases role <;> decide

/-- The loop takes whole messages, and cuts the first that does not fit. -/
theorem selectFromNewest_split (budget : ℕ) (l : List ContextMessage) :
    ∃ newer older, l = newer ++ older ∧ tokensOfPrompts newer ≤ budget ∧
      ((selectFromNewest budget l = newer ∧ (older = [] ∨ tokensOfPrompts newer = budget)) ∨
        ∃ m rest, older = m :: rest ∧ tokensOfPrompts newer < budget ∧
          budget < tokensOfPrompts newer + estimateTokensForMessage m.toMessage ∧
          selectFromNewest budget l =
            newer ++ [truncateUserMessage m (budget - tokensOfPrompts newer)]) := by
  induction l generalizing budget with
  | nil => exact ⟨[], [], rfl, Nat.zero_le _, .inl ⟨rfl, .inl rfl⟩⟩
  | cons m l ih =>
    unfold selectFromNewest
    split_ifs with hzero hfits
    · exact ⟨[], m :: l, rfl, Nat.zero_le _, .inl ⟨rfl, .inr hzero.symm⟩⟩
    · obtain ⟨newer, older, rfl, hle, hcases⟩ :=
        ih (budget - estimateTokensForMessage m.toMessage)
      refine ⟨m :: newer, older, rfl, by rw [tokensOfPrompts_cons]; omega, ?_⟩
      rw [tokensOfPrompts_cons]
      obtain ⟨hall, hend⟩ | ⟨x, rest, holder, hlt, hover, hcut⟩ := hcases
      · exact .inl ⟨by rw [hall], hend.imp_right fun hend => by omega⟩
      · exact .inr ⟨x, rest, holder, by omega, by omega, by
          rw [hcut, Nat.sub_sub, cons_append]⟩
    · exact ⟨[], m :: l, rfl, Nat.zero_le _, .inr ⟨m, l, rfl, Nat.pos_of_ne_zero hzero, by
        simpa [tokensOfPrompts, estimateTokensForMessages] using hfits, rfl⟩⟩

variable {older newer front back : List ContextMessage} {x : ContextMessage} {budget : ℕ}

/-- A message at which the budget ends stands in front of what fits. -/
theorem exists_front (hle : tokensOfPrompts newer ≤ budget)
    (h : older ++ newer = front ++ x :: back) (hover : budget < tokensOfPrompts (x :: back)) :
    ∃ rest, older = front ++ x :: rest ∧ back = rest ++ newer := by
  obtain ⟨rest, rfl, hnewer⟩ | ⟨rest, rfl, hback⟩ := append_eq_append_iff.1 h
  · rw [hnewer, tokensOfPrompts_append] at hle
    omega
  · cases rest with
    | nil =>
      rw [hback, nil_append] at hover
      omega
    | cons y rest =>
      obtain ⟨rfl, rfl⟩ := cons.inj hback
      exact ⟨rest, rfl, rfl⟩

/-- **When what is kept fits the budget.**  It is the most recent part of the messages, and no more
would fit; and it fits exactly if no message exceeds the rest of the budget by its text. -/
theorem selectRecentUserMessages_within_iff (messages : List ContextMessage) (budget : ℕ) :
    KeepsMostRecent messages (selectRecentUserMessages messages budget) budget ∧
      (tokensOfPrompts (selectRecentUserMessages messages budget) ≤ budget ↔
        FitsWithoutMedia messages budget) := by
  obtain ⟨newer, older, hsplit, hle, hcases⟩ := selectFromNewest_split budget messages.reverse
  rw [reverse_eq_iff, reverse_append] at hsplit
  subst hsplit
  rw [← tokensOfPrompts_reverse] at hle hcases
  unfold selectRecentUserMessages
  obtain ⟨hall, hend⟩ | ⟨m, rest, rfl, hlt, hover, hcut⟩ := hcases
  · rw [hall]
    refine ⟨.inl ⟨_, rfl, fun m hm => ?_⟩, iff_of_true hle fun front x back h hlt hover => ?_⟩
    · obtain rfl | hend := hend
      · cases hm
      · have hrole := estimateTokens_role m.role
        simp only [tokensOfPrompts_cons, estimateTokens_cutTo]
        refine ⟨?_, fun text => by omega⟩
        unfold estimateTokensForMessage
        omega
    · obtain ⟨rest, holder, rfl⟩ := exists_front hle h hover
      rw [tokensOfPrompts_append] at hlt
      obtain rfl | hend := hend
      · simp at holder
      · omega
  · have hrole := estimateTokens_role m.role
    obtain ⟨hpre, hsize, hlonger⟩ := truncateTextToTokens_spec (extractText m.content)
      (Nat.sub_pos_of_lt hlt)
    rw [hcut, reverse_append, reverse_singleton, singleton_append, reverse_cons]
    change KeepsMostRecent _ (m.cutTo _ :: newer.reverse) _ ∧
      (tokensOfPrompts (m.cutTo _ :: newer.reverse) ≤ _ ↔ _)
    simp only [tokensOfPrompts_cons, estimateTokens_cutTo, hsize]
    refine ⟨.inr ⟨rest.reverse, m, newer.reverse, _, append_assoc .., rfl, ?_, hpre,
      fun longer hpart hmore => ?_⟩, fun hfits front x back h hback hover' => ?_, fun h => ?_⟩
    · rw [tokensOfPrompts_cons]
      omega
    · have := hlonger longer hpart hmore
      simp only [tokensOfPrompts_cons, estimateTokens_cutTo]
      omega
    · obtain ⟨rest', holder, rfl⟩ := exists_front hle h hover'
      -- nothing stands between it and what is kept as a whole
      obtain rfl | ⟨between, y, rfl⟩ := eq_nil_or_concat rest'
      · obtain ⟨-, hx⟩ := append_inj' holder rfl
        obtain rfl := singleton_inj.1 hx
        simp only [nil_append, tokensOfPrompts_cons, estimateTokens_cutTo]
        omega
      · rw [concat_eq_append, ← cons_append, ← append_assoc] at holder
        obtain ⟨-, hy⟩ := append_inj' holder rfl
        obtain rfl := singleton_inj.1 hy
        simp only [concat_eq_append, tokensOfPrompts_append, tokensOfPrompts_cons] at hback
        omega
    · have := h rest.reverse m newer.reverse (append_assoc ..) hlt (by
        rw [tokensOfPrompts_cons]
        omega)
      simp only [tokensOfPrompts_cons, estimateTokens_cutTo] at this
      omega

/-- A long prompt is cut to the whole budget, and its role is counted besides. -/
theorem cut_exceeds_budget :
    let message : ContextMessage :=
      { role := .user, content := [.text "please rename the variable x"], toolCalls := [] }
    selectRecentUserMessages [message] 4 = [message.cutTo "please rename th"] ∧
      tokensOfPrompts (selectRecentUserMessages [message] 4) = 5 := by
  decide +kernel

end NoriCode
