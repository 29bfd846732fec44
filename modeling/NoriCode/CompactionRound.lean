/-
**The requests of a compaction round.**

A round asks for a summary until one arrives or an error ends it.  In between it waits and asks
again, or it asks with a shorter history, from which leading tool results are dropped.  Each history
is projected on its own, although the cutoff of the micro compaction counts from the first message
of the whole history.

Main definitions:

* `afterRejection` — the loop of `compactionRound`, from one request to the next;
* `KeepsMessage` — a message besides tool results is left;
* `MicroCompaction.LeavesAlone` — the condition on the cutoff.

Main results:

* `compactionRound_shrinks` — **the requests are bounded, and what a shrink leaves**;
* `compact_drop_iff` — **when a suffix is cleared like the whole history**.
-/

import NoriCode.CompactionTail
import NoriCode.ModelRequest

namespace NoriCode

open List

/-! ### The loop -/

/-- What is left of a round when a request has been rejected; a retry waits in between. -/
def afterRejection (budget : ℕ → ℕ → ℕ) (worker : CompactionWorker) (error : RequestError) :
    Option CompactionWorker :=
  match CompactionState.retry budget worker error with
  | .fail => none
  | .again worker => some worker
  | .later => some { worker with retryCount := worker.retryCount + 1 }

/-- Behind the first message there is one that is no tool result and that, when the model has to
read less, fits the budget with everything behind it. -/
def KeepsMessage (budget : ℕ → ℕ → ℕ) (worker : CompactionWorker) (error : RequestError) : Prop :=
  ∃ older m newer, worker.historyForModel = older ++ m :: newer ∧ m.message.role ≠ .tool ∧
    older ≠ [] ∧ (error.isContextOverflow = true → tokensOfMessages (m :: newer) ≤
      budget (worker.overflowShrinkCount + 1) (tokensOfMessages worker.historyForModel))

/-! ### Shrinking -/

theorem le_countWithinBudget_iff {tokenBudget tokens : ℕ} (h : tokens ≤ tokenBudget)
    (newest older : List HistoryMessage) :
    newest.length ≤ countWithinBudget tokenBudget tokens (newest ++ older) ↔
      tokens + tokensOfMessages newest ≤ tokenBudget := by
  induction newest generalizing tokens with
  | nil => simpa [tokensOfMessages] using h
  | cons m newest ih =>
    rw [cons_append, countWithinBudget, tokensOfMessages_cons, ← Nat.add_assoc, length_cons]
    split_ifs with hover
    · omega
    · rw [Nat.add_le_add_iff_right, ih (by omega)]

theorem mem_drop_iff_append {α : Type} {l : List α} {a : α} {k : ℕ} :
    a ∈ l.drop k ↔ ∃ older newer, l = older ++ a :: newer ∧ k ≤ older.length := by
  constructor
  · intro h
    obtain ⟨s, t, hst⟩ := append_of_mem h
    refine ⟨l.take k ++ s, t, by rw [append_assoc, ← hst, take_append_drop], ?_⟩
    have hlength := congrArg length hst
    simp only [length_drop, length_append, length_cons, length_take] at hlength ⊢
    omega
  · rintro ⟨older, newer, rfl, hk⟩
    rw [drop_append_of_le_length hk]
    exact mem_append_right _ (.head _)

theorem estimateTokensForMessages_map (messages : List HistoryMessage) :
    estimateTokensForMessages (messages.map (·.message.toMessage)) = tokensOfMessages messages := by
  rw [estimateTokensForMessages, map_map]
  rfl

theorem dropLeadingToolResults_ne_nil {messages : List HistoryMessage} :
    dropLeadingToolResults messages ≠ [] ↔ ∃ m ∈ messages, m.message.role ≠ .tool := by
  simp [dropLeadingToolResults]

variable {budget : ℕ → ℕ → ℕ}

/-- **What a shrink does**: the messages in front of some place are dropped, and tool results behind
it, and the attempt is counted. -/
theorem retry_again {worker worker' : CompactionWorker} {error : RequestError}
    (h : CompactionState.retry budget worker error = .again worker') :
    1 < worker.historyForModel.length ∧ worker'.retryCount = 0 ∧
    worker'.overflowShrinkCount + worker'.emptyOrTruncatedShrinkCount =
      worker.overflowShrinkCount + worker.emptyOrTruncatedShrinkCount + 1 ∧
    worker'.overflowShrinkCount ≤ max worker.overflowShrinkCount 3 ∧
    worker'.emptyOrTruncatedShrinkCount ≤ max worker.emptyOrTruncatedShrinkCount 5 ∧
    ∃ start, worker'.historyForModel =
        dropLeadingToolResults (worker.historyForModel.drop start) ∧ 1 ≤ start ∧
      ∀ older m newer, worker.historyForModel = older ++ m :: newer →
        (start ≤ older.length ↔ older ≠ [] ∧ (error.isContextOverflow = true →
          tokensOfMessages (m :: newer) ≤ budget (worker.overflowShrinkCount + 1)
            (tokensOfMessages worker.historyForModel))) := by
  unfold CompactionState.retry at h
  dsimp only at h
  split_ifs at h with hoverflow hlimit hempty hlimit
  · cases h
    refine ⟨hoverflow.2, rfl, Nat.add_right_comm _ _ _, (not_lt.1 hlimit).trans (le_max_right _ _),
      le_max_left _ _, _, if_neg (not_le.2 hoverflow.2), by split_ifs <;> omega,
      fun older m newer heq => ?_⟩
    have hcount := le_countWithinBudget_iff (Nat.zero_le (budget (worker.overflowShrinkCount + 1)
      (tokensOfMessages worker.historyForModel))) (m :: newer).reverse older.reverse
    rw [← reverse_append, ← heq, tokensOfMessages_reverse, Nat.zero_add, length_reverse] at hcount
    have hlength := congrArg length heq
    rw [length_append] at hlength
    rw [← hcount, ← length_pos_iff, estimateTokensForMessages_map]
    simp only [hoverflow.1, forall_const]
    split_ifs <;> omega
  · cases h
    refine ⟨hempty.2, rfl, rfl, le_max_left _ _, (not_lt.1 hlimit).trans (le_max_right _ _), 1,
      if_neg (not_le.2 hempty.2), le_rfl, fun older m newer _ => ?_⟩
    have hover : error.isContextOverflow ≠ true := fun h => hoverflow ⟨h, hempty.2⟩
    simp [hover, Nat.one_le_iff_ne_zero]

theorem retry_later {worker : CompactionWorker} {error : RequestError}
    (h : CompactionState.retry budget worker error = .later) : worker.retryCount + 1 < 5 := by
  unfold CompactionState.retry at h
  dsimp only at h
  split_ifs at h with _ _ _ _ _ hlimit
  exact not_le.1 hlimit

/-! ### Runs -/

theorem length_dropLeadingToolResults_lt {messages : List HistoryMessage} {start : ℕ}
    (h : 1 < messages.length) (hstart : 1 ≤ start) :
    (dropLeadingToolResults (messages.drop start)).length < messages.length := by
  have hle := (dropWhile_sublist (p := (·.message.role == .tool))
    (l := messages.drop start)).length_le
  rw [length_drop] at hle
  unfold dropLeadingToolResults
  omega

/-- Every request but the last one of a run of five shrinks. -/
theorem requests_lt {errors : List RequestError} {worker worker' : CompactionWorker}
    (h : LibRun.exec (afterRejection budget) worker errors = some worker')
    (hretry : worker.retryCount < 5) (hoverflow : worker.overflowShrinkCount ≤ 3)
    (hempty : worker.emptyOrTruncatedShrinkCount ≤ 5) :
    errors.length + worker.retryCount <
      5 * (min (8 - (worker.overflowShrinkCount + worker.emptyOrTruncatedShrinkCount))
        (worker.historyForModel.length - 1) + 1) := by
  induction errors generalizing worker with
  | nil =>
    rw [length_nil]
    omega
  | cons error errors ih =>
    obtain ⟨next, hnext, hrest⟩ := Option.bind_eq_some_iff.1 h
    unfold afterRejection at hnext
    rw [length_cons]
    split at hnext
    · cases hnext
    · rename_i hagain
      cases hnext
      obtain ⟨hlength, hzero, hsum, ho, he, start, heq, hstart, -⟩ := retry_again hagain
      have hshorter := length_dropLeadingToolResults_lt hlength hstart
      rw [← heq] at hshorter
      have := ih hrest (by omega) (by omega) (by omega)
      omega
    · rename_i hlater
      cases hnext
      have hlimit := retry_later hlater
      have := ih hrest hlimit hoverflow hempty
      dsimp only at this
      omega

/-- **The requests are bounded, and a shrink that keeps a message makes progress.**  After any
rejections that the round survives, one more request is within the bound; and every shrink leaves a
shorter history that does not begin with a tool result, and a nonempty one exactly if there is a
message to keep. -/
theorem compactionRound_shrinks {budget : ℕ → ℕ → ℕ} {history : List HistoryMessage}
    {errors : List RequestError} {worker : CompactionWorker}
    (h : LibRun.exec (afterRejection budget)
      { originalHistory := history, historyForModel := history } errors = some worker) :
    errors.length + 1 ≤ 5 * (min 8 (history.length - 1) + 1) ∧
    ∀ error worker', CompactionState.retry budget worker error = .again worker' →
      worker'.historyForModel.length < worker.historyForModel.length ∧
      (∀ m ∈ worker'.historyForModel.head?, m.message.role ≠ .tool) ∧
      (worker'.historyForModel ≠ [] ↔ KeepsMessage budget worker error) := by
  refine ⟨requests_lt h (Nat.zero_lt_succ _) (Nat.zero_le _) (Nat.zero_le _),
    fun error worker' hagain => ?_⟩
  obtain ⟨hlength, -, -, -, -, start, heq, hstart, hplace⟩ := retry_again hagain
  rw [heq]
  refine ⟨length_dropLeadingToolResults_lt hlength hstart, fun m hm => ?_, ?_⟩
  · have hnot := head?_dropWhile_not (·.message.role == .tool) (worker.historyForModel.drop start)
    rw [dropLeadingToolResults, Option.mem_def] at hm
    simpa [hm] using hnot
  · simp only [dropLeadingToolResults_ne_nil, mem_drop_iff_append, KeepsMessage]
    constructor
    · rintro ⟨m, ⟨older, newer, hsplit, hk⟩, hrole⟩
      exact ⟨older, m, newer, hsplit, hrole, (hplace older m newer hsplit).1 hk⟩
    · rintro ⟨older, m, newer, hsplit, hrole, hkeeps⟩
      exact ⟨m, ⟨older, newer, hsplit, (hplace older m newer hsplit).2 hkeeps⟩, hrole⟩

/-- Short and long prompts. -/
def shortAndLong (n : ℕ) : List HistoryMessage :=
  ⟨0, promptMessage "go"⟩ :: replicate n ⟨1, promptMessage "please rename the variable x"⟩

/-- The oldest message is dropped, and the request is retried after a delay. -/
theorem compactionRound_shrinks_overflow :
    ∃ worker, LibRun.exec (afterRejection fun _ tokens => tokens * 7 / 10)
        { originalHistory := shortAndLong 3, historyForModel := shortAndLong 3 }
        [{ isContextOverflow := true }, { isRetryable := true }] = some worker ∧
      (∀ error worker', CompactionState.retry (fun _ tokens => tokens * 7 / 10) worker error =
        .again worker' → (worker'.historyForModel ≠ [] ↔
          KeepsMessage (fun _ tokens => tokens * 7 / 10) worker error)) :=
  ⟨_, rfl, fun error worker' hagain =>
    ((@compactionRound_shrinks (fun _ tokens => tokens * 7 / 10) (shortAndLong 3)
      [{ isContextOverflow := true }, { isRetryable := true }] _ rfl).2 error worker' hagain).2.2⟩

/-- The newest message is too large for the budget, and nothing is left to be summarized. -/
theorem shrink_leaves_nothing :
    (LibRun.exec (afterRejection fun _ tokens => tokens * 7 / 10)
      { originalHistory := shortAndLong 1, historyForModel := shortAndLong 1 }
      [{ isContextOverflow := true }]).map (·.historyForModel) = some [] := by
  decide +kernel

/-! ### The cutoff of a suffix -/

/-- A tool result that is cleared when it is old. -/
def MicroCompaction.Clearable (micro : MicroCompaction) (msg : ContextMessage) : Prop :=
  msg.role = .tool ∧ msg.toolCallId.isSome = true ∧
    micro.config.minContentTokens ≤ estimateTokensForContentParts msg.content ∧
    msg.content ≠ [.text micro.config.truncatedMarker]

/-- No message that is old in the suffix only is one to be cleared. -/
def MicroCompaction.LeavesAlone (micro : MicroCompaction) (messages : List ContextMessage)
    (d : ℕ) : Prop :=
  micro.enabled = true → ∀ i msg, messages[d + i]? = some msg →
    i < micro.cutoff → micro.cutoff ≤ d + i → ¬micro.Clearable msg

variable {micro : MicroCompaction}

theorem cleared_eq_iff {msg cleared : ContextMessage} (i d : ℕ)
    (h : cleared = { msg with content := [.text micro.config.truncatedMarker] }) :
    ((if micro.clears (d + i) msg then cleared else msg) =
      if micro.clears i msg then cleared else msg) ↔
        (i < micro.cutoff → micro.cutoff ≤ d + i → ¬micro.Clearable msg) := by
  have hsame : msg.content = [.text micro.config.truncatedMarker] ↔ cleared = msg := by
    refine ⟨fun hcontent => ?_, fun heq => ?_⟩
    · rw [h, ← hcontent]
    · rw [← heq, h]
  simp only [MicroCompaction.clears, MicroCompaction.Clearable, Bool.and_eq_true, beq_iff_eq,
    decide_eq_true_eq, ne_eq, hsame]
  split_ifs <;> grind

/-- **When a suffix is cleared like the whole history.** -/
theorem compact_drop_iff (micro : MicroCompaction) (messages : List ContextMessage) (d : ℕ) :
    micro.compact (messages.drop d) = (micro.compact messages).drop d ↔
      micro.LeavesAlone messages d := by
  unfold MicroCompaction.compact MicroCompaction.LeavesAlone
  cases micro.enabled with
  | false => simp
  | true =>
    rw [if_pos rfl, if_pos rfl, mapIdx_eq_iff, forall_prop_of_true rfl]
    refine forall_congr' fun i => ?_
    rw [getElem?_drop, getElem?_drop, getElem?_mapIdx]
    cases messages[d + i]? with
    | none => simp
    | some msg => simpa using cleared_eq_iff i d rfl

/-- Without the oldest message a recent result is cleared. -/
theorem recent_result_cleared :
    let history : List HistoryMessage := [⟨0, promptMessage "go"⟩,
      ⟨1, { role := .assistant, content := [], toolCalls := [⟨"c", "shot", none⟩] }⟩,
      ⟨2, { role := .tool, content := [.imageUrl "x.png" none], toolCalls := []
            toolCallId := some "c" }⟩]
    let micro : MicroCompaction := ⟨true, 2, {}⟩
    micro.compact ((dropOldestMessageAndLeadingToolResults history).map (·.message)) ≠
      (micro.compact (history.map (·.message))).drop 1 := by
  decide +kernel

end NoriCode
