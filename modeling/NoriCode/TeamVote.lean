/-
**The votes of a team discussion.**

A vote asks the participants one after the other: each gets a prompt and a turn, and what it has
said is read from the end of its history.  The history also holds what the member said before, and
the search does not stop at the prompt.

The module embeds `runTeamVote`, `parseTeamVote` and `lastAssistantText` of
`session/subagent-host.ts`.  What a turn does to the history of its member is given.

Main definitions:

* `VoteTurn` — how the vote turn of a participant goes;
* `runTeamVote` — the votes that are recorded;
* `VoteTurn.answer` — the vote by what was said in the turn.

Main results:

* `runTeamVote_iff` — **the votes are those of the turns exactly if no turn without a text
  finds an older one that votes otherwise**.
-/

import NoriCode.Message

namespace NoriCode

open List

/-! ### Reading a vote -/

inductive TeamVoteChoice
  | discussAgain
  | proceed
  | abstain
  deriving DecidableEq

/-- No letter outside ASCII becomes a letter of these tokens in lower case. -/
def parseTeamVote (text : String) : TeamVoteChoice :=
  let normalized := String.ofList ((trim text).toList.map Char.toLower)
  if normalized = "discuss_again" then .discussAgain
  else if normalized = "proceed" then .proceed
  else .abstain

/-- The text that is looked for: of an assistant message, and not blank. -/
def assistantText? (message : Message) : Option String :=
  if message.role = .assistant then
    let text := String.join (message.content.filterMap fun
      | .text text => some text
      | _ => none)
    if isBlank text then none else some (trim text)
  else none

def lastAssistantText (history : List Message) : String :=
  (history.reverse.findSome? assistantText?).getD ""

theorem lastAssistantText_append (history turn : List Message) :
    lastAssistantText (history ++ turn) =
      if turn.findSome? assistantText? = none then lastAssistantText history
      else lastAssistantText turn := by
  have hnone : turn.findSome? assistantText? = none ↔
      turn.reverse.findSome? assistantText? = none := by
    simp
  simp only [lastAssistantText, reverse_append, findSome?_append, hnone]
  cases turn.reverse.findSome? assistantText? <;> rfl

/-! ### The vote -/

/-- How it goes with a participant. -/
inductive VoteTurn
  /-- The vote is cancelled, the participant cannot be resumed or the transcript not be written:
  `runTeamVote` throws. -/
  | thrown
  /-- The turn cannot be started, or does not complete. -/
  | failed
  /-- The turn has completed. The history holds messages from before it, and what the turn has
  appended; a compaction in the turn loses what it had appended until then. -/
  | completed (before lost appended : List Message)

namespace VoteTurn

/-- The vote that is recorded. -/
def vote : VoteTurn → TeamVoteChoice
  | .completed before _ appended => parseTeamVote (lastAssistantText (before ++ appended))
  | _ => .abstain

/-- The vote by what was said in the turn. -/
def answer : VoteTurn → TeamVoteChoice
  | .completed _ lost appended => parseTeamVote (lastAssistantText (lost ++ appended))
  | _ => .abstain

/-- The history ends with a text of the turn, or what stands before votes like the turn. -/
def Settled : VoteTurn → Prop
  | .completed before lost appended => appended.findSome? assistantText? ≠ none ∨
      parseTeamVote (lastAssistantText before) = parseTeamVote (lastAssistantText lost)
  | _ => True

theorem vote_eq_answer_iff (turn : VoteTurn) : turn.vote = turn.answer ↔ turn.Settled := by
  cases turn with
  | thrown | failed => exact iff_of_true rfl trivial
  | completed before lost appended =>
    simp only [vote, answer, Settled, lastAssistantText_append]
    by_cases htext : appended.findSome? assistantText? = none <;> simp [htext]

end VoteTurn

structure TeamVote where
  agentId : String
  vote : TeamVoteChoice
  deriving DecidableEq

/-- The loop over the participants: the votes that are recorded in the transcript, and whether it
returns them. -/
def collectTeamVotes : List (String × VoteTurn) → List TeamVote × Bool
  | [] => ([], true)
  | (_, .thrown) :: _ => ([], false)
  | (agentId, turn) :: rest =>
    let (votes, returned) := collectTeamVotes rest
    (⟨agentId, turn.vote⟩ :: votes, returned)

/-- No vote begins while a participant has a turn. -/
def runTeamVote (hasActiveTurn : String → Bool) (participants : List (String × VoteTurn)) :
    List TeamVote × Bool :=
  if participants.any fun participant => hasActiveTurn participant.1 then ([], false)
  else collectTeamVotes participants

/-- What is recorded are the votes of the first participants, and all votes when it returns. -/
theorem collectTeamVotes_spec (participants : List (String × VoteTurn)) :
    ∃ asked, asked <+: participants ∧
      (collectTeamVotes participants).1 = asked.map (fun p => ⟨p.1, p.2.vote⟩) ∧
      ((collectTeamVotes participants).2 = true → asked = participants) := by
  induction participants with
  | nil => exact ⟨[], nil_prefix, rfl, fun _ => rfl⟩
  | cons participant rest ih =>
    obtain ⟨agentId, turn⟩ := participant
    obtain ⟨asked, hasked, hvotes, hreturned⟩ := ih
    have hgo : turn ≠ .thrown → collectTeamVotes ((agentId, turn) :: rest) =
        (⟨agentId, turn.vote⟩ :: (collectTeamVotes rest).1, (collectTeamVotes rest).2) := by
      cases turn <;> simp [collectTeamVotes]
    by_cases hthrown : turn = .thrown
    · subst hthrown
      exact ⟨[], List.nil_prefix, rfl, fun h => by cases h⟩
    · refine ⟨(agentId, turn) :: asked, cons_prefix_cons.2 ⟨rfl, hasked⟩, ?_, ?_⟩
      · rw [hgo hthrown, hvotes, map_cons]
      · rw [hgo hthrown]
        exact fun h => congrArg _ (hreturned h)

/-- **One vote a participant.** The votes are recorded in the order of the participants, one for
each of them if the call returns; and those are the votes of their turns exactly if every turn is
settled. -/
theorem runTeamVote_iff (hasActiveTurn : String → Bool) (participants : List (String × VoteTurn)) :
    ((runTeamVote hasActiveTurn participants).1.map (·.agentId) <+: participants.map Prod.fst) ∧
    ((runTeamVote hasActiveTurn participants).2 = true →
      (runTeamVote hasActiveTurn participants).1.map (·.agentId) = participants.map Prod.fst ∧
      ((runTeamVote hasActiveTurn participants).1.map (·.vote) =
          participants.map (fun participant => participant.2.answer) ↔
        ∀ participant ∈ participants, participant.2.Settled)) := by
  obtain ⟨asked, hasked, hvotes, hreturned⟩ := collectTeamVotes_spec participants
  unfold runTeamVote
  split
  · exact ⟨List.nil_prefix, fun h => by cases h⟩
  · rw [hvotes, map_map, map_map]
    refine ⟨hasked.map _, fun h => ?_⟩
    obtain rfl := hreturned h
    refine ⟨rfl, ?_⟩
    rw [map_inj_left]
    exact forall₂_congr fun participant _ => participant.2.vote_eq_answer_iff

/-- The member said to go on in an earlier vote, and says nothing in this one. -/
def staleTurn : VoteTurn :=
  .completed
    [{ role := .assistant, content := [.text "proceed"], toolCalls := [] },
      { role := .user, content := [.text "Your scheduled team vote turn has started."],
        toolCalls := [] }]
    [] [{ role := .assistant, content := [.text ""], toolCalls := [] }]

theorem runTeamVote_iff_stale :
    (runTeamVote (fun _ => false) [("a", staleTurn)]).1.map (·.agentId) = ["a"] :=
  ((runTeamVote_iff (fun _ => false) [("a", staleTurn)]).2 (by decide)).1

/-- **An old vote counts again.** -/
theorem runTeamVote_stale :
    (runTeamVote (fun _ => false) [("a", staleTurn)]).1 = [⟨"a", .proceed⟩] ∧
      staleTurn.answer = .abstain := by
  decide

end NoriCode
