/-
**What compaction keeps.**

Compaction replaces the history by the most recent user prompts, within a token budget, and a
summary.  The module embeds `agent/compaction/handoff.ts`: which messages count as genuine user
input, and which of them are kept.

Main definitions:

* `compactionUserMessageDisposition`, `isRealUserInput`;
* `collectCompactableUserMessages`, `selectRecentUserMessages`.

Main results:

* `collectCompactableUserMessages_eq` — genuine user input is never a summary;
* `selectRecentUserMessages_kept` — everything kept is genuine user input.
-/

import NoriCode.Tokens

namespace NoriCode

inductive CompactionUserDisposition where
  | keep
  | drop
  deriving DecidableEq

/-- Whether a user message of this origin survives compaction as genuine user input. -/
def compactionUserMessageDisposition : Option OriginKind → CompactionUserDisposition
  | none => .keep
  | some .user => .keep
  | some (.skillActivation _ trigger) => if trigger = .userSlash then .keep else .drop
  | some (.pluginCommand _) => .keep
  | some (.injection _) => .drop
  | some (.shellCommand _ _) => .drop
  | some .compactionSummary => .drop
  | some (.systemTrigger _) => .drop
  | some (.backgroundTask _ _ _) => .drop
  | some (.cronJob _) => .drop
  | some (.cronMissed _) => .drop
  | some (.hookResult _) => .drop
  | some (.retry _) => .drop

def isRealUserInput (message : ContextMessage) : Bool :=
  message.role == .user && compactionUserMessageDisposition message.originKind == .keep

def collectCompactableUserMessages (messages : List ContextMessage) : List ContextMessage :=
  messages.filter fun message => isRealUserInput message && !message.isCompactionSummary

def COMPACT_USER_MESSAGE_MAX_TOKENS : ℕ := 20000

def extractText (content : List ContentPart) : String :=
  String.join (content.filterMap ContentPart.text?)

/-- The oldest kept message, cut down to the rest of the budget; its media are dropped. -/
def truncateUserMessage (message : ContextMessage) (maxTokens : ℕ) : ContextMessage :=
  { message with
    content := [.text (truncateTextToTokens (extractText message.content) maxTokens)]
    toolCalls := [] }

/-- The loop over the messages from the newest, with the rest of the budget. -/
def selectFromNewest : ℕ → List ContextMessage → List ContextMessage
  | _, [] => []
  | remaining, message :: older =>
    if remaining = 0 then []
    else if estimateTokensForMessage message.toMessage ≤ remaining then
      message :: selectFromNewest (remaining - estimateTokensForMessage message.toMessage) older
    else [truncateUserMessage message remaining]

/-- The most recent messages whose estimated size fits the budget. -/
def selectRecentUserMessages (messages : List ContextMessage) (maxTokens : ℕ) :
    List ContextMessage :=
  (selectFromNewest maxTokens messages.reverse).reverse

/-! ### Facts about what is kept -/

theorem isCompactionSummary_of_isRealUserInput {m : ContextMessage}
    (h : isRealUserInput m = true) : m.isCompactionSummary = false := by
  simp only [isRealUserInput, Bool.and_eq_true, beq_iff_eq] at h
  rw [ContextMessage.isCompactionSummary, beq_eq_false_iff_ne]
  intro hkind
  rw [hkind] at h
  simp [compactionUserMessageDisposition] at h

theorem isInjection_of_isRealUserInput {m : ContextMessage} (h : isRealUserInput m = true) :
    m.isInjection = false := by
  simp only [isRealUserInput, Bool.and_eq_true, beq_iff_eq] at h
  unfold ContextMessage.isInjection
  split
  · rename_i hkind
    rw [hkind] at h
    simp [compactionUserMessageDisposition] at h
  · rfl

/-- Genuine user input is never a summary, so the second test never decides. -/
theorem collectCompactableUserMessages_eq (messages : List ContextMessage) :
    collectCompactableUserMessages messages = messages.filter isRealUserInput := by
  refine List.filter_congr fun m _ => ?_
  cases h : isRealUserInput m with
  | true => simp [isCompactionSummary_of_isRealUserInput h]
  | false => simp

theorem isRealUserInput_truncate {m : ContextMessage} (h : isRealUserInput m = true) (n : ℕ) :
    isRealUserInput (truncateUserMessage m n) = true := h

theorem selectFromNewest_kept {l : List ContextMessage} (h : ∀ m ∈ l, isRealUserInput m = true)
    (n : ℕ) : ∀ m ∈ selectFromNewest n l, isRealUserInput m = true := by
  induction l generalizing n with
  | nil => simp [selectFromNewest]
  | cons m l ih =>
    have hl : ∀ b ∈ l, isRealUserInput b = true := fun b hb => h b (.tail _ hb)
    unfold selectFromNewest
    split_ifs
    · simp
    · intro b hb
      rcases List.mem_cons.1 hb with rfl | hb
      · exact h b (.head _)
      · exact ih hl _ b hb
    · intro b hb
      rw [List.mem_singleton.1 hb]
      exact isRealUserInput_truncate (h m (.head _)) n

theorem selectRecentUserMessages_kept (messages : List ContextMessage) (n : ℕ) :
    ∀ m ∈ selectRecentUserMessages (collectCompactableUserMessages messages) n,
      isRealUserInput m = true := by
  intro m hm
  rw [collectCompactableUserMessages_eq, selectRecentUserMessages, List.mem_reverse] at hm
  refine selectFromNewest_kept (fun b hb => ?_) n m hm
  exact (List.mem_filter.1 (List.mem_reverse.1 hb)).2

end NoriCode
