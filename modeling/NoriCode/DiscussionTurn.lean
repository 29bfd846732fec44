/-
**The turns of a team discussion.**

A round of a discussion lets its members speak one after the other.  A member has the floor from
`beginTeamDiscussionTurn` to `endTeamDiscussionTurn`; the session remembers who has it, and which
statement was made, under the member's id.  Rounds may overlap, and a `TeamSpeak` call publishes its
statement before it records it.

The module embeds, of `session/index.ts`, `publishDiscussionStatementAs`,
`consumeTeamDiscussionSpeak`, `beginTeamDiscussionTurn`, `endTeamDiscussionTurn` and what
`updateTeamDiscussion` and `removeDismissedAgentsFromDiscussions` do to turns; and the loop of
`runTeamDiscussionRound` in `session/subagent-host.ts`.

Main definitions:

* `DiscussionTurns`, with `step` — a discussion, its rounds and the calls under way;
* `DiscussionTurns.Orderly` — what is asked of overlapping rounds and late calls;
* `DiscussionTurns.InTurn` — what is promised of the statements of a discussion.

Main results:

* `DiscussionTurns.run_turns` — **one statement a turn, one turn at a time, and each
  statement in the round that it was made for**.
-/

import NoriCode.JsText
import NoriCode.LibRun
import NoriCode.LibPlaces

namespace NoriCode

open List Option LibPlaces Function LibRun

/-! ### A discussion and its rounds -/

structure TeamDiscussionStatementRecord where
  entryId : ℕ
  agentId : ℕ
  name : String
  message : String
  deriving DecidableEq

/-- Where a round is with the member it has come to. Turns are numbered in the order in which they
are opened; the number is not part of the source. -/
inductive RoundPhase
  | idle
  /-- The round waits for the member to be free, and reads what it has not read. -/
  | waiting (agentId : ℕ)
  /-- The turn could not be opened. -/
  | failed (agentId : ℕ)
  /-- The member has the floor. -/
  | opened (agentId turn : ℕ)
  /-- The member is done, and its turn is not ended yet. -/
  | ending (agentId turn : ℕ) (sent : Option TeamDiscussionStatementRecord)
  deriving DecidableEq

namespace RoundPhase

/-- The member whose turn the round has opened and not ended, with the number of the turn. -/
def turn : RoundPhase → Option (ℕ × ℕ)
  | .opened a n | .ending a n _ => some (a, n)
  | _ => none

/-- The member that has the floor. -/
def speaker : RoundPhase → Option ℕ
  | .opened a _ => some a
  | _ => none

/-- The member that is done while its turn is still open. -/
def done : RoundPhase → Option ℕ
  | .ending a _ _ => some a
  | _ => none

/-- The member whose turn could not be opened. -/
def refused : RoundPhase → Option ℕ
  | .failed a => some a
  | _ => none

end RoundPhase

structure DiscussionRound where
  remaining : List ℕ := []
  phase : RoundPhase := .idle
  /-- The statements that the round returns, with their turns. -/
  statements : List (ℕ × TeamDiscussionStatementRecord) := []

structure DiscussionTurns where
  participantAgentIds : List ℕ
  active : Bool := true
  nextStatementId : ℕ := 0
  /-- `activeTeamDiscussionTurns`: who has the floor. -/
  activeTurn : Option ℕ := none
  /-- `teamDiscussionSpeaks`: what was said in the turn. -/
  speaks : ℕ → Option TeamDiscussionStatementRecord := fun _ => none
  /-- The `TeamSpeak` calls that have published their statement and wait for the transcript. -/
  publishing : List TeamDiscussionStatementRecord := []
  rounds : List DiscussionRound := []
  /-- History: for each turn the round that opened it, and the member. -/
  begun : List (ℕ × ℕ) := []
  /-- History: the statements of members, with the number of the turn that was open. -/
  published : List (ℕ × TeamDiscussionStatementRecord) := []

/-! ### Steps -/

/-- Rounds are named by their place. -/
inductive TurnEvent
  /-- A round starts with the members it schedules. -/
  | start (agentIds : List ℕ)
  /-- The next member is no team member any more. -/
  | skip (r : ℕ)
  | next (r : ℕ)
  /-- The wait for the member fails, or the reading of its statements. -/
  | fail (r : ℕ)
  | beginTurn (r : ℕ)
  /-- The prompt of the member is rejected, or cannot be acknowledged. -/
  | promptFails (r : ℕ)
  /-- The turn of the member is over, and the round takes its statement. -/
  | consume (r : ℕ)
  /-- The round ends the turn. -/
  | finish (r : ℕ)
  /-- A `TeamSpeak` call of the member arrives. -/
  | speak (a : ℕ) (name message : String)
  /-- A `TeamSpeak` call records its statement. -/
  | record (k : ℕ)
  | lead (message : String)
  | update (participantAgentIds : List ℕ) (active : Bool)
  | dismiss (a : ℕ)

namespace DiscussionTurns

variable {s t : DiscussionTurns}

def setRound (s : DiscussionTurns) (r : ℕ) (round : DiscussionRound) : DiscussionTurns :=
  { s with rounds := s.rounds.set r round }

/-- `beginTeamDiscussionTurn`. It throws where a turn is open, and for who does not take part. -/
def beginTeamDiscussionTurn (s : DiscussionTurns) (r : ℕ) (round : DiscussionRound) (a : ℕ) :
    DiscussionTurns :=
  if a ∈ s.participantAgentIds ∧ s.activeTurn = none then
    { s with
      activeTurn := some a
      speaks := update s.speaks a none
      begun := s.begun ++ [(r, a)]
      rounds := s.rounds.set r { round with phase := .opened a s.begun.length } }
  else s.setRound r { round with phase := .failed a }

def consumeTeamDiscussionSpeak (s : DiscussionTurns) (r : ℕ) (round : DiscussionRound) (a n : ℕ) :
    DiscussionTurns :=
  { s with
    speaks := update s.speaks a none
    rounds := s.rounds.set r { round with phase := .ending a n (s.speaks a) } }

/-- `endTeamDiscussionTurn` closes the turn of the member, whichever round has opened it. -/
def endTeamDiscussionTurn (s : DiscussionTurns) (a : ℕ) : DiscussionTurns :=
  if s.activeTurn = some a then { s with activeTurn := none } else s

/-- The end of the round's work for one member. -/
def finishMember (s : DiscussionTurns) (r : ℕ) (round : DiscussionRound) : Option DiscussionTurns :=
  match round.phase with
  | .failed a => some ((s.endTeamDiscussionTurn a).setRound r { round with phase := .idle })
  | .ending a n sent => some ((s.endTeamDiscussionTurn a).setRound r { round with
      phase := .idle
      statements := round.statements ++ (sent.map fun statement => (n, statement)).toList })
  | _ => none

/-- The part of `publishDiscussionStatementAs` before it waits for the transcript; `none` is where
it throws. -/
def publishDiscussionStatementAs (s : DiscussionTurns) (a : ℕ) (name message : String) :
    Option DiscussionTurns :=
  if s.active = true ∧ a ∈ s.participantAgentIds ∧ s.activeTurn = some a ∧ s.speaks a = none then
    let record : TeamDiscussionStatementRecord :=
      { entryId := s.nextStatementId + 1, agentId := a, name := name, message := trim message }
    some { s with
      nextStatementId := s.nextStatementId + 1
      publishing := s.publishing ++ [record]
      published := s.published ++ [(s.begun.length - 1, record)] }
  else none

/-- `turnStillValid` of `updateTeamDiscussion`. -/
def TurnStillValid (s : DiscussionTurns) (participantAgentIds : List ℕ) (active : Bool) : Prop :=
  active = true ∧ ∀ a ∈ s.activeTurn, a ∈ participantAgentIds

instance (s : DiscussionTurns) (participantAgentIds : List ℕ) (active : Bool) :
    Decidable (s.TurnStillValid participantAgentIds active) :=
  inferInstanceAs (Decidable (_ ∧ _))

def updateTeamDiscussion (s : DiscussionTurns) (participantAgentIds : List ℕ) (active : Bool) :
    DiscussionTurns :=
  let s' := { s with participantAgentIds := participantAgentIds, active := active }
  if s.TurnStillValid participantAgentIds active then s'
  else { s' with activeTurn := none, speaks := fun _ => none }

def removeDismissedAgent (s : DiscussionTurns) (a : ℕ) : DiscussionTurns :=
  let participantAgentIds := s.participantAgentIds.filter (· ≠ a)
  { s with
    participantAgentIds := participantAgentIds
    active := s.active && !participantAgentIds.isEmpty
    activeTurn := if s.activeTurn = some a then none else s.activeTurn
    speaks := update s.speaks a none }

def step (s : DiscussionTurns) : TurnEvent → Option DiscussionTurns
  | .start agentIds => some { s with rounds := s.rounds ++ [{ remaining := agentIds }] }
  | .skip r => s.rounds[r]?.bind fun round => match round.phase, round.remaining with
      | .idle, _ :: rest => some (s.setRound r { round with remaining := rest })
      | _, _ => none
  | .next r => s.rounds[r]?.bind fun round => match round.phase, round.remaining with
      | .idle, a :: rest =>
        some (s.setRound r { round with remaining := rest, phase := .waiting a })
      | _, _ => none
  | .fail r => s.rounds[r]?.bind fun round => match round.phase with
      | .waiting a => some (s.setRound r { round with phase := .failed a })
      | _ => none
  | .beginTurn r => s.rounds[r]?.bind fun round => match round.phase with
      | .waiting a => some (s.beginTeamDiscussionTurn r round a)
      | _ => none
  | .promptFails r => s.rounds[r]?.bind fun round => match round.phase with
      | .opened a n => some (s.setRound r { round with phase := .ending a n none })
      | _ => none
  | .consume r => s.rounds[r]?.bind fun round => match round.phase with
      | .opened a n => some (s.consumeTeamDiscussionSpeak r round a n)
      | _ => none
  | .finish r => s.rounds[r]?.bind fun round => s.finishMember r round
  | .speak a name message => s.publishDiscussionStatementAs a name message
  | .record k => s.publishing[k]?.map fun statement =>
    { s with
      speaks := update s.speaks statement.agentId (some statement)
      publishing := s.publishing.eraseIdx k }
  | .lead message =>
    if s.active = true ∧ isBlank message = false then
      some { s with nextStatementId := s.nextStatementId + 1 }
    else none
  | .update participantAgentIds active => some (s.updateTeamDiscussion participantAgentIds active)
  | .dismiss a => some (s.removeDismissedAgent a)

/-- **What is asked of overlapping rounds and late calls.** -/
def Orderly (s : DiscussionTurns) : TurnEvent → Prop
  -- a round that could not open a member's turn does not come to its end during another turn of
  -- that member
  | .finish r => ∀ round ∈ s.rounds[r]?, ∀ a ∈ round.phase.refused, s.activeTurn ≠ some a
  -- a member makes one call at a time, and none after its round has taken its statement
  | .speak a _ _ => (∀ statement ∈ s.publishing, statement.agentId ≠ a) ∧
      ∀ round ∈ s.rounds, round.phase.done ≠ some a
  -- no call of the member is under way when its round takes its statement
  | .consume r => ∀ round ∈ s.rounds[r]?, ∀ a ∈ round.phase.speaker,
      ∀ statement ∈ s.publishing, statement.agentId ≠ a
  -- a member whose prompt fails has not spoken
  | .promptFails r => ∀ round ∈ s.rounds[r]?, ∀ a ∈ round.phase.speaker, s.speaks a = none ∧
      ∀ statement ∈ s.publishing, statement.agentId ≠ a
  -- nobody who has the floor is removed, and the discussion is not archived meanwhile
  | .update participantAgentIds active =>
    s.activeTurn = none ∨ s.TurnStillValid participantAgentIds active
  | .dismiss a => s.activeTurn ≠ some a
  | _ => True

instance (s : DiscussionTurns) (e : TurnEvent) : Decidable (s.Orderly e) := by
  cases e <;> unfold Orderly <;> infer_instance

/-! ### What is promised -/

/-- **One statement a turn, one turn at a time, and each statement in its own round.** -/
structure InTurn (s : DiscussionTurns) : Prop where
  /-- A turn has at most one statement. -/
  once : (s.published.map Prod.fst).Nodup
  /-- A statement is made in a turn of who makes it. -/
  own : ∀ n statement, (n, statement) ∈ s.published → ∃ r, s.begun[n]? = some (r, statement.agentId)
  /-- At most one round has a turn open. -/
  single : ∀ (r r' : ℕ) (round round' : DiscussionRound), s.rounds[r]? = some round →
    s.rounds[r']? = some round' → round.phase.turn ≠ none → round'.phase.turn ≠ none → r = r'
  /-- A round returns statements of its own turns only. -/
  returned : ∀ (r : ℕ) (round : DiscussionRound), s.rounds[r]? = some round →
    ∀ n statement, (n, statement) ∈ round.statements →
      (n, statement) ∈ s.published ∧ s.begun[n]? = some (r, statement.agentId)
  /-- A round that has ended a turn returns its statement. -/
  complete : ∀ n statement, (n, statement) ∈ s.published →
    ∃ (r : ℕ) (round : DiscussionRound), s.begun[n]? = some (r, statement.agentId) ∧
      s.rounds[r]? = some round ∧
      (round.phase.turn = some (statement.agentId, n) ∨ (n, statement) ∈ round.statements)

/-- What a step publishes is published in the turn of its speaker, which has the floor. -/
def OwnTurn (s t : DiscussionTurns) : Prop :=
  t.published = s.published ∨ ∃ (n : ℕ) (statement : TeamDiscussionStatementRecord)
    (round : DiscussionRound), t.published = s.published ++ [(n, statement)] ∧ round ∈ s.rounds ∧
      round.phase = .opened statement.agentId n ∧ s.activeTurn = some statement.agentId

/-! ### The invariant -/

/-- Where the statement of a turn is: with its member, with its round, or returned. -/
def Kept (s : DiscussionTurns) (round : DiscussionRound) (n : ℕ)
    (statement : TeamDiscussionStatementRecord) : Prop :=
  (round.phase = .opened statement.agentId n ∧
    (s.speaks statement.agentId = some statement ∨ statement ∈ s.publishing)) ∨
  round.phase = .ending statement.agentId n (some statement) ∨ (n, statement) ∈ round.statements

/-- **The invariant.** The open turn is the last one, and belongs to one round; what is spoken or
about to be recorded belongs to it. -/
structure Turns (s : DiscussionTurns) : Prop where
  held : ∀ (r : ℕ) (round : DiscussionRound), s.rounds[r]? = some round → ∀ a n,
    round.phase.turn = some (a, n) →
      s.activeTurn = some a ∧ n + 1 = s.begun.length ∧ s.begun[n]? = some (r, a)
  active : ∀ a, s.activeTurn = some a → ∃ (r : ℕ) (round : DiscussionRound) (n : ℕ),
    s.rounds[r]? = some round ∧ round.phase.turn = some (a, n)
  alone : s.publishing.length ≤ 1
  publishing : ∀ statement ∈ s.publishing, s.speaks statement.agentId = none ∧
    ∃ (r : ℕ) (round : DiscussionRound) (n : ℕ), s.rounds[r]? = some round ∧
      round.phase = .opened statement.agentId n ∧ (n, statement) ∈ s.published
  spoken : ∀ a statement, s.speaks a = some statement → statement.agentId = a ∧
    ∃ (r : ℕ) (round : DiscussionRound) (n : ℕ), s.rounds[r]? = some round ∧
      round.phase = .opened a n ∧ (n, statement) ∈ s.published
  turns : (s.published.map Prod.fst).Nodup
  kept : ∀ n statement, (n, statement) ∈ s.published →
    ∃ (r : ℕ) (round : DiscussionRound), s.begun[n]? = some (r, statement.agentId) ∧
      s.rounds[r]? = some round ∧ s.Kept round n statement
  sent : ∀ (r : ℕ) (round : DiscussionRound), s.rounds[r]? = some round →
    ∀ a n statement, round.phase = .ending a n (some statement) →
      (n, statement) ∈ s.published ∧ statement.agentId = a
  returned : ∀ (r : ℕ) (round : DiscussionRound), s.rounds[r]? = some round →
    ∀ n statement, (n, statement) ∈ round.statements → (n, statement) ∈ s.published ∧
      s.begun[n]? = some (r, statement.agentId) ∧ ∀ a, round.phase.turn ≠ some (a, n)

variable {r : ℕ} {round : DiscussionRound}

theorem Turns.single (h : s.Turns) {r' : ℕ} {round' : DiscussionRound}
    (hr : s.rounds[r]? = some round) (hr' : s.rounds[r']? = some round') {x y : ℕ × ℕ}
    (hx : round.phase.turn = some x) (hy : round'.phase.turn = some y) : r = r' ∧ x = y := by
  obtain ⟨a, n⟩ := x
  obtain ⟨b, m⟩ := y
  obtain ⟨-, hn, hbegun⟩ := h.held r round hr a n hx
  obtain ⟨-, hm, hbegun'⟩ := h.held r' round' hr' b m hy
  obtain rfl : n = m := by omega
  rw [hbegun] at hbegun'
  obtain ⟨hrr, hab⟩ := Prod.mk.inj (some.inj hbegun')
  exact ⟨hrr, by rw [hab]⟩

/-- **What is promised follows from the invariant.** -/
theorem Turns.inTurn (h : s.Turns) : s.InTurn where
  once := h.turns
  own := by
    intro n statement hmem
    obtain ⟨r, -, hbegun, -⟩ := h.kept n statement hmem
    exact ⟨r, hbegun⟩
  single := by
    intro r r' round round' hr hr' hturn hturn'
    obtain ⟨x, hx⟩ := ne_none_iff_exists'.1 hturn
    obtain ⟨y, hy⟩ := ne_none_iff_exists'.1 hturn'
    exact (h.single hr hr' hx hy).1
  returned := by
    intro r round hr n statement hmem
    obtain ⟨hpublished, hbegun, -⟩ := h.returned r round hr n statement hmem
    exact ⟨hpublished, hbegun⟩
  complete := by
    intro n statement hmem
    obtain ⟨r, round, hbegun, hr, hkept⟩ := h.kept n statement hmem
    refine ⟨r, round, hbegun, hr, ?_⟩
    rcases hkept with ⟨hphase, -⟩ | hphase | hreturned
    · exact .inl (by rw [hphase]; rfl)
    · exact .inl (by rw [hphase]; rfl)
    · exact .inr hreturned

/-! ### Steps outside turns -/

theorem Turns.quiet (h : s.Turns) {round' : DiscussionRound}
    (hr : s.rounds[r]? = some round) (hturn : round.phase.turn = none)
    (hturn' : round'.phase.turn = none) (hstatements : round'.statements = round.statements) :
    (s.setRound r round').Turns := by
  have hother : ∀ {r₀ : ℕ} {round₀ : DiscussionRound}, s.rounds[r₀]? = some round₀ →
      round₀.phase.turn ≠ none → (s.rounds.set r round')[r₀]? = some round₀ := by
    intro r₀ round₀ hr₀ hturn₀
    rw [getElem?_set_ne ?_, hr₀]
    rintro rfl
    exact hturn₀ (by rw [← some.inj (hr.symm.trans hr₀), hturn])
  refine ⟨fun r₀ round₀ hr₀ a n hn => ?_, fun a ha => ?_, h.alone, fun statement hmem => ?_,
    fun a statement hsome => ?_, h.turns, fun n statement hmem => ?_,
    fun r₀ round₀ hr₀ a n statement hphase => ?_, fun r₀ round₀ hr₀ n statement hmem => ?_⟩
  · rcases getElem?_set_cases hr₀ with ⟨-, rfl⟩ | ⟨-, hold⟩
    · rw [hturn'] at hn
      cases hn
    · exact h.held r₀ round₀ hold a n hn
  · obtain ⟨r₀, round₀, n, hr₀, hn⟩ := h.active a ha
    exact ⟨r₀, round₀, n, hother hr₀ (by rw [hn]; exact some_ne_none _), hn⟩
  · obtain ⟨hnone, r₀, round₀, n, hr₀, hphase, hpublished⟩ := h.publishing statement hmem
    exact ⟨hnone, r₀, round₀, n, hother hr₀ (by rw [hphase]; exact some_ne_none _), hphase,
      hpublished⟩
  · obtain ⟨hagent, r₀, round₀, n, hr₀, hphase, hpublished⟩ := h.spoken a statement hsome
    exact ⟨hagent, r₀, round₀, n, hother hr₀ (by rw [hphase]; exact some_ne_none _), hphase,
      hpublished⟩
  · obtain ⟨r₀, round₀, hbegun, hr₀, hkept⟩ := h.kept n statement hmem
    by_cases heq : r₀ = r
    · subst heq
      cases hr.symm.trans hr₀
      refine ⟨r₀, round', hbegun, getElem?_set_of_some hr, .inr (.inr ?_)⟩
      rw [hstatements]
      rcases hkept with ⟨hphase, -⟩ | hphase | hreturned
      · rw [hphase] at hturn
        cases hturn
      · rw [hphase] at hturn
        cases hturn
      · exact hreturned
    · refine ⟨r₀, round₀, hbegun, ?_, hkept⟩
      show (s.rounds.set r round')[r₀]? = some round₀
      rw [getElem?_set_ne (Ne.symm heq), hr₀]
  · rcases getElem?_set_cases hr₀ with ⟨-, rfl⟩ | ⟨-, hold⟩
    · rw [hphase] at hturn'
      cases hturn'
    · exact h.sent r₀ round₀ hold a n statement hphase
  · rcases getElem?_set_cases hr₀ with ⟨rfl, rfl⟩ | ⟨-, hold⟩
    · rw [hstatements] at hmem
      obtain ⟨hpublished, hbegun, -⟩ := h.returned r₀ round hr n statement hmem
      refine ⟨hpublished, hbegun, fun a => ?_⟩
      rw [hturn']
      exact (some_ne_none _).symm
    · exact h.returned r₀ round₀ hold n statement hmem

theorem Turns.start (h : s.Turns) (agentIds : List ℕ) :
    ({ s with rounds := s.rounds ++ [{ remaining := agentIds }] } : DiscussionTurns).Turns := by
  have hkeep : ∀ {r : ℕ} {round : DiscussionRound}, s.rounds[r]? = some round →
      (s.rounds ++ [{ remaining := agentIds }])[r]? = some round := by
    intro r round hr
    rwa [List.getElem?_append_left (List.getElem?_eq_some_iff.1 hr).1]
  have hcases : ∀ {r : ℕ} {round : DiscussionRound},
      (s.rounds ++ [{ remaining := agentIds }])[r]? = some round →
      s.rounds[r]? = some round ∨ round = { remaining := agentIds } := by
    intro r round hr
    exact (getElem?_append_singleton hr).imp_right fun h => h.2.symm
  refine ⟨fun r round hr a n hn => ?_, fun a ha => ?_, h.alone, fun statement hmem => ?_,
    fun a statement hsome => ?_, h.turns, fun n statement hmem => ?_,
    fun r round hr a n statement hphase => ?_, fun r round hr n statement hmem => ?_⟩
  · rcases hcases hr with hold | rfl
    · exact h.held r round hold a n hn
    · cases hn
  · obtain ⟨r, round, n, hr, hn⟩ := h.active a ha
    exact ⟨r, round, n, hkeep hr, hn⟩
  · obtain ⟨hnone, r, round, n, hr, hrest⟩ := h.publishing statement hmem
    exact ⟨hnone, r, round, n, hkeep hr, hrest⟩
  · obtain ⟨hagent, r, round, n, hr, hrest⟩ := h.spoken a statement hsome
    exact ⟨hagent, r, round, n, hkeep hr, hrest⟩
  · obtain ⟨r, round, hbegun, hr, hkept⟩ := h.kept n statement hmem
    exact ⟨r, round, hbegun, hkeep hr, hkept⟩
  · rcases hcases hr with hold | rfl
    · exact h.sent r round hold a n statement hphase
    · cases hphase
  · rcases hcases hr with hold | rfl
    · exact h.returned r round hold n statement hmem
    · cases hmem

/-! ### The steps of a turn -/

variable {a n : ℕ}

theorem turn_opened (h : round.phase = .opened a n) : round.phase.turn = some (a, n) := by
  rw [h]
  rfl

theorem turn_ending
    {sent : Option TeamDiscussionStatementRecord} (h : round.phase = .ending a n sent) :
    round.phase.turn = some (a, n) := by
  rw [h]
  rfl

section

variable (h : s.Turns) (hr : s.rounds[r]? = some round)

include h hr

theorem Turns.beginTeamDiscussionTurn (hphase : round.phase = .waiting a) :
    (s.beginTeamDiscussionTurn r round a).Turns := by
  have hturn : round.phase.turn = none := by
    rw [hphase]
    rfl
  rw [DiscussionTurns.beginTeamDiscussionTurn]
  split
  · rename_i hguard
    have hno : ∀ (r₀ : ℕ) (round₀ : DiscussionRound), s.rounds[r₀]? = some round₀ →
        ∀ x, round₀.phase.turn ≠ some x := by
      intro r₀ round₀ hr₀ x hx
      have hactive := (h.held r₀ round₀ hr₀ x.1 x.2 hx).1
      rw [hguard.2] at hactive
      cases hactive
    have hlt : ∀ {n : ℕ} {x : ℕ × ℕ}, s.begun[n]? = some x →
        n < s.begun.length ∧ (s.begun ++ [(r, a)])[n]? = some x := by
      intro n x hx
      have hn := (List.getElem?_eq_some_iff.1 hx).1
      exact ⟨hn, by rwa [List.getElem?_append_left hn]⟩
    refine ⟨fun r₀ round₀ hr₀ b n hn => ?_, fun b hb => ?_, h.alone, fun statement hmem => ?_,
      fun b statement hsome => ?_, h.turns, fun n statement hmem => ?_,
      fun r₀ round₀ hr₀ b n statement hending => ?_, fun r₀ round₀ hr₀ n statement hmem => ?_⟩
    · rcases getElem?_set_cases hr₀ with ⟨rfl, rfl⟩ | ⟨-, hold⟩
      · cases hn
        exact ⟨rfl, by simp, by simp⟩
      · exact absurd hn (hno r₀ round₀ hold _)
    · cases hb
      exact ⟨r, _, s.begun.length, getElem?_set_of_some hr, rfl⟩
    · obtain ⟨-, r₀, round₀, n, hr₀, hopened, -⟩ := h.publishing statement hmem
      exact absurd (turn_opened hopened) (hno r₀ round₀ hr₀ _)
    · by_cases heq : b = a
      · subst heq
        simp at hsome
      · simp only [update_of_ne heq] at hsome
        obtain ⟨-, r₀, round₀, n, hr₀, hopened, -⟩ := h.spoken b statement hsome
        exact absurd (turn_opened hopened) (hno r₀ round₀ hr₀ _)
    · obtain ⟨r₀, round₀, hbegun, hr₀, hkept⟩ := h.kept n statement hmem
      have hreturned : (n, statement) ∈ round₀.statements := by
        rcases hkept with ⟨hopened, -⟩ | hending | hreturned
        · exact absurd (turn_opened hopened) (hno r₀ round₀ hr₀ _)
        · exact absurd (turn_ending hending) (hno r₀ round₀ hr₀ _)
        · exact hreturned
      by_cases heq : r₀ = r
      · subst heq
        cases hr.symm.trans hr₀
        exact ⟨r₀, _, (hlt hbegun).2, getElem?_set_of_some hr, .inr (.inr hreturned)⟩
      · refine ⟨r₀, round₀, (hlt hbegun).2, ?_, .inr (.inr hreturned)⟩
        rwa [List.getElem?_set_ne (Ne.symm heq)]
    · rcases getElem?_set_cases hr₀ with ⟨-, rfl⟩ | ⟨-, hold⟩
      · cases hending
      · exact absurd (turn_ending hending) (hno r₀ round₀ hold _)
    · rcases getElem?_set_cases hr₀ with ⟨rfl, rfl⟩ | ⟨-, hold⟩
      · obtain ⟨hpublished, hbegun, -⟩ := h.returned r₀ round hr n statement hmem
        refine ⟨hpublished, (hlt hbegun).2, fun b hb => ?_⟩
        obtain ⟨-, hlen⟩ := Prod.mk.inj (some.inj hb)
        exact absurd hlen (Nat.ne_of_gt (hlt hbegun).1)
      · obtain ⟨hpublished, hbegun, -⟩ := h.returned r₀ round₀ hold n statement hmem
        exact ⟨hpublished, (hlt hbegun).2, fun b => hno r₀ round₀ hold _⟩
  · exact h.quiet hr hturn rfl rfl

theorem Turns.consumeTeamDiscussionSpeak (hphase : round.phase = .opened a n)
    (hnone : ∀ statement ∈ s.publishing, statement.agentId ≠ a) :
    (s.consumeTeamDiscussionSpeak r round a n).Turns := by
  have hturn := turn_opened hphase
  have hsingle : ∀ {r₀ : ℕ} {round₀ : DiscussionRound} {x : ℕ × ℕ}, s.rounds[r₀]? = some round₀ →
      round₀.phase.turn = some x → r = r₀ ∧ (a, n) = x :=
    fun hr₀ hx => h.single hr hr₀ hturn hx
  have hquiet : ∀ statement ∈ s.publishing, False := by
    intro statement hmem
    obtain ⟨-, r₀, round₀, m, hr₀, hopened, -⟩ := h.publishing statement hmem
    have heq := (hsingle hr₀ (turn_opened hopened)).2
    exact hnone statement hmem (Prod.mk.inj heq).1.symm
  refine ⟨fun r₀ round₀ hr₀ b m hm => ?_, fun b hb => ?_, h.alone,
    fun statement hmem => (hquiet statement hmem).elim, fun b statement hsome => ?_, h.turns,
    fun m statement hmem => ?_, fun r₀ round₀ hr₀ b m statement hending => ?_,
    fun r₀ round₀ hr₀ m statement hmem => ?_⟩
  · rcases getElem?_set_cases hr₀ with ⟨rfl, rfl⟩ | ⟨-, hold⟩
    · exact h.held r₀ round hr b m (hturn.trans hm)
    · exact h.held r₀ round₀ hold b m hm
  · obtain ⟨r₀, round₀, m, hr₀, hm⟩ := h.active b hb
    obtain ⟨rfl, heq⟩ := hsingle hr₀ hm
    exact ⟨r, _, m, getElem?_set_of_some hr, congrArg some heq⟩
  · by_cases heq : b = a
    · subst heq
      simp [DiscussionTurns.consumeTeamDiscussionSpeak] at hsome
    · simp only [DiscussionTurns.consumeTeamDiscussionSpeak, update_of_ne heq] at hsome
      obtain ⟨-, r₀, round₀, m, hr₀, hopened, -⟩ := h.spoken b statement hsome
      exact absurd (Prod.mk.inj (hsingle hr₀ (turn_opened hopened)).2).1.symm heq
  · obtain ⟨r₀, round₀, hbegun, hr₀, hkept⟩ := h.kept m statement hmem
    by_cases heq : r₀ = r
    · subst heq
      cases hr.symm.trans hr₀
      refine ⟨r₀, _, hbegun, getElem?_set_of_some hr, ?_⟩
      rcases hkept with ⟨hopened, hspeaks | hmem'⟩ | hending | hreturned
      · rw [hphase] at hopened
        obtain ⟨rfl, rfl⟩ := RoundPhase.opened.inj hopened
        exact .inr (.inl (by rw [hspeaks]))
      · exact (hquiet statement hmem').elim
      · rw [hphase] at hending
        cases hending
      · exact .inr (.inr hreturned)
    · refine ⟨r₀, round₀, hbegun, ?_, .inr (.inr ?_)⟩
      · show (s.rounds.set r _)[r₀]? = some round₀
        rwa [getElem?_set_ne (Ne.symm heq)]
      · rcases hkept with ⟨hopened, -⟩ | hending | hreturned
        · exact absurd (hsingle hr₀ (turn_opened hopened)).1.symm heq
        · exact absurd (hsingle hr₀ (turn_ending hending)).1.symm heq
        · exact hreturned
  · rcases getElem?_set_cases hr₀ with ⟨rfl, rfl⟩ | ⟨-, hold⟩
    · obtain ⟨rfl, rfl, hspeaks⟩ := RoundPhase.ending.inj hending
      obtain ⟨hagent, r₁, round₁, m, hr₁, hopened, hpublished⟩ := h.spoken a statement hspeaks
      obtain ⟨-, heq⟩ := hsingle hr₁ (turn_opened hopened)
      obtain ⟨-, rfl⟩ := Prod.mk.inj heq
      exact ⟨hpublished, hagent⟩
    · exact h.sent r₀ round₀ hold b m statement hending
  · rcases getElem?_set_cases hr₀ with ⟨rfl, rfl⟩ | ⟨-, hold⟩
    · obtain ⟨hpublished, hbegun, hother⟩ := h.returned r₀ round hr m statement hmem
      exact ⟨hpublished, hbegun, fun b hb => hother b (hturn.trans hb)⟩
    · exact h.returned r₀ round₀ hold m statement hmem

theorem Turns.finishMember (horderly : ∀ a ∈ round.phase.refused, s.activeTurn ≠ some a)
    (ht : s.finishMember r round = some t) : t.Turns := by
  rw [DiscussionTurns.finishMember] at ht
  split at ht
  · rename_i a hphase
    cases ht
    have hother : s.activeTurn ≠ some a := horderly a (by rw [hphase]; rfl)
    rw [endTeamDiscussionTurn, if_neg hother]
    exact h.quiet hr (by rw [hphase]; rfl) rfl rfl
  · rename_i a n sent hphase
    cases ht
    have hturn := turn_ending hphase
    obtain ⟨hactive, -, hbegun⟩ := h.held r round hr a n hturn
    have hsingle : ∀ {r₀ : ℕ} {round₀ : DiscussionRound} {x : ℕ × ℕ},
        s.rounds[r₀]? = some round₀ → round₀.phase.turn = some x → r = r₀ ∧ (a, n) = x :=
      fun hr₀ hx => h.single hr hr₀ hturn hx
    have hopened : ∀ {r₀ b m : ℕ} {round₀ : DiscussionRound}, s.rounds[r₀]? = some round₀ →
        round₀.phase ≠ .opened b m := by
      intro r₀ b m round₀ hr₀ hopened
      obtain ⟨rfl, -⟩ := hsingle hr₀ (turn_opened hopened)
      cases hr.symm.trans hr₀
      rw [hphase] at hopened
      cases hopened
    rw [endTeamDiscussionTurn, if_pos hactive]
    refine ⟨fun r₀ round₀ hr₀ b m hm => ?_, (fun b hb => by cases hb), h.alone,
      fun statement hmem => ?_, fun b statement hsome => ?_, h.turns, fun m statement hmem => ?_,
      fun r₀ round₀ hr₀ b m statement hending => ?_, fun r₀ round₀ hr₀ m statement hmem => ?_⟩
    · rcases getElem?_set_cases hr₀ with ⟨-, rfl⟩ | ⟨hne, hold⟩
      · cases hm
      · exact absurd (hsingle hold hm).1.symm hne
    · obtain ⟨-, r₀, round₀, m, hr₀, hphase₀, -⟩ := h.publishing statement hmem
      exact absurd hphase₀ (hopened hr₀)
    · obtain ⟨-, r₀, round₀, m, hr₀, hphase₀, -⟩ := h.spoken b statement hsome
      exact absurd hphase₀ (hopened hr₀)
    · obtain ⟨r₀, round₀, hbegun₀, hr₀, hkept⟩ := h.kept m statement hmem
      by_cases heq : r₀ = r
      · subst heq
        cases hr.symm.trans hr₀
        refine ⟨r₀, _, hbegun₀, getElem?_set_of_some hr, .inr (.inr ?_)⟩
        rcases hkept with ⟨hphase₀, -⟩ | hending | hreturned
        · exact absurd hphase₀ (hopened hr)
        · rw [hphase] at hending
          obtain ⟨-, rfl, rfl⟩ := RoundPhase.ending.inj hending
          exact mem_append_right _ (mem_singleton.2 rfl)
        · exact mem_append_left _ hreturned
      · refine ⟨r₀, round₀, hbegun₀, ?_, .inr (.inr ?_)⟩
        · show (s.rounds.set r _)[r₀]? = some round₀
          rwa [getElem?_set_ne (Ne.symm heq)]
        · rcases hkept with ⟨hphase₀, -⟩ | hending | hreturned
          · exact absurd hphase₀ (hopened hr₀)
          · exact absurd (hsingle hr₀ (turn_ending hending)).1.symm heq
          · exact hreturned
    · rcases getElem?_set_cases hr₀ with ⟨-, rfl⟩ | ⟨hne, hold⟩
      · cases hending
      · exact absurd (hsingle hold (turn_ending hending)).1.symm hne
    · rcases getElem?_set_cases hr₀ with ⟨rfl, rfl⟩ | ⟨hne, hold⟩
      · rcases mem_append.1 hmem with hold | hnew
        · obtain ⟨hpublished, hbegun₀, -⟩ := h.returned r₀ round hr m statement hold
          exact ⟨hpublished, hbegun₀, fun b hb => by cases hb⟩
        · obtain ⟨statement', hsent, heq⟩ := map_eq_some_iff.1 (mem_toList.1 hnew)
          obtain ⟨rfl, rfl⟩ := Prod.mk.inj heq
          subst hsent
          obtain ⟨hpublished, rfl⟩ := h.sent r₀ round hr a n statement' hphase
          exact ⟨hpublished, hbegun, fun b hb => by cases hb⟩
      · exact h.returned r₀ round₀ hold m statement hmem
  · cases ht

end

/-! ### Statements -/

theorem Turns.publish (h : s.Turns) {name message : String}
    (horderly : s.Orderly (.speak a name message))
    (ht : s.publishDiscussionStatementAs a name message = some t) : t.Turns ∧ s.OwnTurn t := by
  rw [publishDiscussionStatementAs] at ht
  split at ht
  · rename_i hguard
    obtain ⟨-, -, hactive, hspeaks⟩ := hguard
    cases ht
    obtain ⟨hcalls, hdone⟩ := horderly
    obtain ⟨r, round, n, hr, hturn⟩ := h.active a hactive
    obtain ⟨-, hlen, hbegun⟩ := h.held r round hr a n hturn
    have hphase : round.phase = .opened a n := by
      have hnot := hdone round (mem_of_getElem? hr)
      cases hcase : round.phase with
      | opened b m =>
        rw [hcase] at hturn
        cases hturn
        rfl
      | ending b m sent =>
        rw [hcase] at hturn hnot
        cases hturn
        exact absurd rfl hnot
      | idle | waiting b | failed b =>
        rw [hcase] at hturn
        cases hturn
    have hquiet : s.publishing = [] := by
      refine eq_nil_iff_forall_not_mem.2 fun statement hmem => ?_
      obtain ⟨-, r₀, round₀, m, hr₀, hopened, -⟩ := h.publishing statement hmem
      have heq := (h.single hr hr₀ hturn (turn_opened hopened)).2
      exact hcalls statement hmem (Prod.mk.inj heq).1.symm
    obtain rfl : n = s.begun.length - 1 := by omega
    have hnew : ∀ statement, (s.begun.length - 1, statement) ∉ s.published := by
      intro statement hmem
      obtain ⟨r₀, round₀, hbegun₀, hr₀, hkept⟩ := h.kept _ statement hmem
      rw [hbegun] at hbegun₀
      cases hbegun₀
      cases hr.symm.trans hr₀
      rcases hkept with ⟨-, hsaid | hmem'⟩ | hending | hreturned
      · rw [hspeaks] at hsaid
        cases hsaid
      · rw [hquiet] at hmem'
        cases hmem'
      · rw [hphase] at hending
        cases hending
      · exact (h.returned r round hr _ statement hreturned).2.2 _ hturn
    refine ⟨⟨h.held, h.active, ?_, fun statement hmem => ?_, fun b statement hsome => ?_, ?_,
      fun m statement hmem => ?_, fun r₀ round₀ hr₀ b m statement hending => ?_,
      fun r₀ round₀ hr₀ m statement hmem => ?_⟩, ?_⟩
    · rw [hquiet]
      exact Nat.le_refl _
    · rw [hquiet] at hmem
      obtain rfl := mem_singleton.1 hmem
      exact ⟨hspeaks, r, round, _, hr, hphase, mem_append_right _ (mem_singleton.2 rfl)⟩
    · obtain ⟨hagent, r₀, round₀, m, hr₀, hopened, hpublished⟩ := h.spoken b statement hsome
      exact ⟨hagent, r₀, round₀, m, hr₀, hopened, mem_append_left _ hpublished⟩
    · show ((s.published ++ [_]).map Prod.fst).Nodup
      rw [map_append, map_singleton]
      refine nodup_append.2 ⟨h.turns, nodup_singleton _, fun m hm m' hm' heq => ?_⟩
      obtain ⟨⟨m'', statement⟩, hmem, rfl⟩ := mem_map.1 hm
      obtain rfl := mem_singleton.1 hm'
      subst heq
      exact hnew statement hmem
    · rcases mem_append.1 hmem with hold | hlast
      · obtain ⟨r₀, round₀, hbegun₀, hr₀, hkept⟩ := h.kept m statement hold
        refine ⟨r₀, round₀, hbegun₀, hr₀, ?_⟩
        exact hkept.imp_left fun ⟨hopened, hsaid⟩ =>
          ⟨hopened, hsaid.imp_right (mem_append_left _)⟩
      · obtain ⟨rfl, rfl⟩ := Prod.mk.inj (mem_singleton.1 hlast)
        exact ⟨r, round, hbegun, hr, .inl ⟨hphase, .inr (mem_append_right _ (mem_singleton.2 rfl))⟩⟩
    · obtain ⟨hpublished, hagent⟩ := h.sent r₀ round₀ hr₀ b m statement hending
      exact ⟨mem_append_left _ hpublished, hagent⟩
    · obtain ⟨hpublished, hrest⟩ := h.returned r₀ round₀ hr₀ m statement hmem
      exact ⟨mem_append_left _ hpublished, hrest⟩
    · exact .inr ⟨_, _, round, rfl, mem_of_getElem? hr, hphase, hactive⟩
  · cases ht

theorem Turns.record (h : s.Turns) {k : ℕ} {statement : TeamDiscussionStatementRecord}
    (hk : s.publishing[k]? = some statement) :
    ({ s with
      speaks := update s.speaks statement.agentId (some statement)
      publishing := s.publishing.eraseIdx k } : DiscussionTurns).Turns := by
  have hmem := List.mem_of_getElem? hk
  obtain ⟨hnone, r, round, n, hr, hphase, hpublished⟩ := h.publishing statement hmem
  -- there is one call under way, so nothing is left of the list
  have hlist : s.publishing = [statement] := by
    have hlength := h.alone
    cases hcase : s.publishing with
    | nil =>
      rw [hcase] at hmem
      cases hmem
    | cons first rest =>
      rw [hcase] at hlength hmem
      have hrest : rest = [] := by
        cases rest with
        | nil => rfl
        | cons _ _ =>
          simp only [List.length_cons] at hlength
          omega
      subst hrest
      rw [List.mem_singleton.1 hmem]
  have hk0 : k = 0 := by
    have hlt := (List.getElem?_eq_some_iff.1 hk).1
    rw [hlist, List.length_singleton] at hlt
    omega
  have hnil : s.publishing.eraseIdx k = [] := by
    rw [hlist, hk0]
    rfl
  rw [hnil]
  refine ⟨h.held, h.active, Nat.zero_le _, (fun _ hfalse => by cases hfalse),
    fun b statement' hsome => ?_, h.turns, fun m statement' hmem' => ?_, h.sent, h.returned⟩
  · by_cases heq : b = statement.agentId
    · subst heq
      simp only [update_self] at hsome
      cases hsome
      exact ⟨rfl, r, round, n, hr, hphase, hpublished⟩
    · simp only [update_of_ne heq] at hsome
      exact h.spoken b statement' hsome
  · obtain ⟨r₀, round₀, hbegun, hr₀, hkept⟩ := h.kept m statement' hmem'
    refine ⟨r₀, round₀, hbegun, hr₀, hkept.imp_left fun ⟨hopened, hsaid⟩ => ⟨hopened, .inl ?_⟩⟩
    rcases hsaid with hsaid | hpublishing
    · have hne : statement'.agentId ≠ statement.agentId := by
        intro heq
        rw [heq, hnone] at hsaid
        cases hsaid
      simpa [update_of_ne hne] using hsaid
    · rw [hlist] at hpublishing
      obtain rfl := List.mem_singleton.1 hpublishing
      simp

theorem Turns.speaks_none (h : s.Turns) (ha : s.activeTurn ≠ some a) : s.speaks a = none := by
  refine eq_none_iff_forall_ne_some.2 fun statement hsome => ?_
  obtain ⟨-, r, round, n, hr, hopened, -⟩ := h.spoken a statement hsome
  exact ha (h.held r round hr a n (turn_opened hopened)).1

theorem Turns.updateTeamDiscussion (h : s.Turns) {participantAgentIds : List ℕ} {active : Bool}
    (horderly : s.Orderly (.update participantAgentIds active)) :
    (s.updateTeamDiscussion participantAgentIds active).Turns := by
  dsimp only [DiscussionTurns.updateTeamDiscussion]
  split
  · exact ⟨h.held, h.active, h.alone, h.publishing, h.spoken, h.turns, h.kept, h.sent, h.returned⟩
  · rename_i hvalid
    have hnone : s.activeTurn = none := horderly.resolve_right hvalid
    have hspeaks : s.speaks = fun _ => none := by
      funext a
      exact h.speaks_none (by rw [hnone]; exact (some_ne_none a).symm)
    rw [← hspeaks, ← hnone]
    exact ⟨h.held, h.active, h.alone, h.publishing, h.spoken, h.turns, h.kept, h.sent, h.returned⟩

theorem Turns.removeDismissedAgent (h : s.Turns) (horderly : s.Orderly (.dismiss a)) :
    (s.removeDismissedAgent a).Turns := by
  have hother : s.activeTurn ≠ some a := horderly
  rw [DiscussionTurns.removeDismissedAgent, if_neg hother,
    update_eq_self_iff.2 (h.speaks_none hother).symm]
  exact ⟨h.held, h.active, h.alone, h.publishing, h.spoken, h.turns, h.kept, h.sent, h.returned⟩

/-! ### Runs -/

/-- **Every step keeps the invariant**, and publishes only for who has the floor. -/
theorem Turns.step (h : s.Turns) {e : TurnEvent} (horderly : s.Orderly e)
    (hstep : s.step e = some t) : t.Turns ∧ s.OwnTurn t := by
  cases e with
  | start agentIds =>
    cases hstep
    exact ⟨h.start agentIds, .inl rfl⟩
  | skip r =>
    obtain ⟨round, hr, hstep⟩ := bind_eq_some_iff.1 hstep
    split at hstep <;> cases hstep
    rename_i hphase _
    exact ⟨h.quiet hr (by rw [hphase]; rfl) (by rw [hphase]; rfl) rfl, .inl rfl⟩
  | next r =>
    obtain ⟨round, hr, hstep⟩ := bind_eq_some_iff.1 hstep
    split at hstep <;> cases hstep
    rename_i hphase _
    exact ⟨h.quiet hr (by rw [hphase]; rfl) rfl rfl, .inl rfl⟩
  | fail r =>
    obtain ⟨round, hr, hstep⟩ := bind_eq_some_iff.1 hstep
    split at hstep <;> cases hstep
    rename_i a hphase
    exact ⟨h.quiet hr (by rw [hphase]; rfl) rfl rfl, .inl rfl⟩
  | beginTurn r =>
    obtain ⟨round, hr, hstep⟩ := bind_eq_some_iff.1 hstep
    split at hstep <;> cases hstep
    rename_i a hphase
    refine ⟨h.beginTeamDiscussionTurn hr hphase, .inl ?_⟩
    rw [DiscussionTurns.beginTeamDiscussionTurn]
    split <;> rfl
  | promptFails r =>
    obtain ⟨round, hr, hstep⟩ := bind_eq_some_iff.1 hstep
    split at hstep <;> cases hstep
    rename_i a n hphase
    obtain ⟨hspeaks, hcalls⟩ := horderly round hr a (by rw [hphase]; rfl)
    -- nothing was said, so it is as if the round had taken it
    have hsame := h.consumeTeamDiscussionSpeak hr hphase hcalls
    rw [DiscussionTurns.consumeTeamDiscussionSpeak, hspeaks,
      update_eq_self_iff.2 hspeaks.symm] at hsame
    exact ⟨hsame, .inl rfl⟩
  | consume r =>
    obtain ⟨round, hr, hstep⟩ := bind_eq_some_iff.1 hstep
    split at hstep <;> cases hstep
    rename_i a n hphase
    have hcalls := horderly round hr a (by rw [hphase]; rfl)
    exact ⟨h.consumeTeamDiscussionSpeak hr hphase hcalls, .inl rfl⟩
  | finish r =>
    obtain ⟨round, hr, hstep⟩ := bind_eq_some_iff.1 hstep
    refine ⟨h.finishMember hr (horderly round hr) hstep, .inl ?_⟩
    rw [DiscussionTurns.finishMember] at hstep
    split at hstep
    · cases hstep
      rw [setRound, endTeamDiscussionTurn]
      split <;> rfl
    · cases hstep
      rw [setRound, endTeamDiscussionTurn]
      split <;> rfl
    · cases hstep
  | speak a name message => exact h.publish horderly hstep
  | record k =>
    obtain ⟨statement, hk, rfl⟩ := map_eq_some_iff.1 hstep
    exact ⟨h.record hk, .inl rfl⟩
  | lead message =>
    dsimp only [DiscussionTurns.step] at hstep
    split at hstep <;> cases hstep
    exact ⟨⟨h.held, h.active, h.alone, h.publishing, h.spoken, h.turns, h.kept, h.sent,
      h.returned⟩, .inl rfl⟩
  | update participantAgentIds active =>
    cases hstep
    refine ⟨h.updateTeamDiscussion horderly, .inl ?_⟩
    dsimp only [DiscussionTurns.updateTeamDiscussion]
    split <;> rfl
  | dismiss a =>
    cases hstep
    exact ⟨h.removeDismissedAgent horderly, .inl rfl⟩

/-- A discussion that has just been opened. -/
def Opened (participantAgentIds : List ℕ) : DiscussionTurns :=
  { participantAgentIds := participantAgentIds }

theorem turns_opened (participantAgentIds : List ℕ) : (Opened participantAgentIds).Turns where
  held := by simp [Opened]
  active := by simp [Opened]
  alone := Nat.zero_le _
  publishing := by simp [Opened]
  spoken := by simp [Opened]
  turns := nodup_nil
  kept := by simp [Opened]
  sent := by simp [Opened]
  returned := by simp [Opened]

/-- **One statement a turn, one turn at a time, and each statement in the round it was made for.**
In every orderly run of a discussion a turn has at most one statement, made by the member that has
the floor; at most one round has a turn open; and the statement of a turn is returned, once the turn
is ended, by the round that opened the turn, and by no other. -/
theorem run_turns (participantAgentIds : List ℕ) (l : List TurnEvent) (s : DiscussionTurns)
    (h : LibRun.Run step Orderly (Opened participantAgentIds) l s) :
    s.InTurn ∧ ∀ (e : TurnEvent) (t : DiscussionTurns), s.Orderly e → s.step e = some t →
      s.OwnTurn t := by
  have hs : s.Turns :=
    h.invariant (turns_opened _) fun _ _ _ ht horderly hstep => (ht.step horderly hstep).1
  exact ⟨hs.inTurn, fun e t horderly hstep => (hs.step horderly hstep).2⟩

/-- Two members speak, each in a round of its own. -/
theorem run_turns_example : ∃ s, LibRun.Run step Orderly (Opened [1, 2])
      [.start [1], .start [2], .next 0, .next 1, .beginTurn 0, .speak 1 "A" "yes", .record 0,
        .consume 0, .finish 0, .beginTurn 1, .speak 2 "B" "no", .record 0, .consume 1] s ∧
    s.InTurn ∧ ∃ t, s.step (.finish 1) = some t ∧ s.OwnTurn t := by
  have hrun : ∃ s, LibRun.Run step Orderly (Opened [1, 2])
      [.start [1], .start [2], .next 0, .next 1, .beginTurn 0, .speak 1 "A" "yes", .record 0,
        .consume 0, .finish 0, .beginTurn 1, .speak 2 "B" "no", .record 0, .consume 1] s ∧
      (s.Orderly (.finish 1) ∧ (s.step (.finish 1)).isSome) :=
    exists_run (by decide +kernel) (by decide +kernel)
  obtain ⟨s, hs, horderly, hstep⟩ := hrun
  obtain ⟨t, ht⟩ := isSome_iff_exists.1 hstep
  obtain ⟨hturns, hown⟩ := run_turns _ _ s hs
  exact ⟨s, hs, hturns, t, ht, hown _ t horderly ht⟩

/-- **Three ways in which statements are out of turn.** Two calls of a member both find that nothing
was said. A round that cannot open the turn of a member closes that of another round. A call that
records its statement late leaves it to a round that was not asked for it. -/
theorem out_of_turn :
    (∃ s, LibRun.Run step always (Opened [1])
      [.start [1], .next 0, .beginTurn 0, .speak 1 "A" "yes", .speak 1 "A" "no"] s ∧ ¬s.InTurn) ∧
    (∃ s, LibRun.Run step always (Opened [1, 2])
      [.start [1], .start [1, 2], .next 0, .next 1, .beginTurn 0, .beginTurn 1, .finish 1, .next 1,
        .beginTurn 1] s ∧ ¬s.InTurn) ∧
    ∃ s, LibRun.Run step always (Opened [1])
      [.start [1], .start [1], .next 0, .beginTurn 0, .speak 1 "A" "yes", .consume 0, .finish 0,
        .next 1, .beginTurn 1, .record 0, .consume 1, .finish 1] s ∧ ¬s.InTurn := by
  refine ⟨?_, ?_, ?_⟩
  · have hrun : ∃ s, LibRun.Run step always (Opened [1])
        [.start [1], .next 0, .beginTurn 0, .speak 1 "A" "yes", .speak 1 "A" "no"] s ∧
        s.published.map Prod.fst = [0, 0] :=
      exists_run (by decide +kernel) (legal_always _ _)
    obtain ⟨s, hs, hpublished⟩ := hrun
    refine ⟨s, hs, fun hturns => ?_⟩
    have honce := hturns.once
    rw [hpublished] at honce
    exact absurd honce (by decide)
  · have hrun : ∃ s, LibRun.Run step always (Opened [1, 2])
        [.start [1], .start [1, 2], .next 0, .next 1, .beginTurn 0, .beginTurn 1, .finish 1,
          .next 1, .beginTurn 1] s ∧
        ((s.rounds[0]?.map fun round => round.phase) = some (.opened 1 0) ∧
          (s.rounds[1]?.map fun round => round.phase) = some (.opened 2 1)) :=
      exists_run (by decide +kernel) (legal_always _ _)
    obtain ⟨s, hs, hfirst, hsecond⟩ := hrun
    obtain ⟨round, hround, hphase⟩ := map_eq_some_iff.1 hfirst
    obtain ⟨round', hround', hphase'⟩ := map_eq_some_iff.1 hsecond
    refine ⟨s, hs, fun hturns => ?_⟩
    have hsame := hturns.single 0 1 round round' hround hround' (by rw [turn_opened hphase]; simp)
      (by rw [turn_opened hphase']; simp)
    cases hsame
  · have hrun : ∃ s, LibRun.Run step always (Opened [1])
        [.start [1], .start [1], .next 0, .beginTurn 0, .speak 1 "A" "yes", .consume 0, .finish 0,
          .next 1, .beginTurn 1, .record 0, .consume 1, .finish 1] s ∧
        ((s.published.map Prod.fst) = [0] ∧ (s.rounds[1]?.map fun round => round.statements) =
          some [(1, ⟨1, 1, "A", "yes"⟩)]) :=
      exists_run (by decide +kernel) (legal_always _ _)
    obtain ⟨s, hs, hpublished, hstatements⟩ := hrun
    obtain ⟨round, hround, hreturned⟩ := map_eq_some_iff.1 hstatements
    refine ⟨s, hs, fun hturns => ?_⟩
    have hmem : (1, ⟨1, 1, "A", "yes"⟩) ∈ round.statements := by
      rw [hreturned]
      exact List.mem_singleton.2 rfl
    have hfst := List.mem_map_of_mem (f := Prod.fst) (hturns.returned 1 round hround 1 _ hmem).1
    rw [hpublished] at hfst
    exact absurd hfst (by decide)

end DiscussionTurns

end NoriCode
