/-
**Consecutive user messages on the wire.**

Strict providers refuse two user messages in a row, so neighbours are merged while the converted
messages are gone through.  The rule is not symmetric: a message of tool results alone takes in
whatever follows it, any other user message takes in no message of tool results alone.  Whether the
rule applies is decided when a message is reached, so a message that was refused may take in text
afterwards.

The module embeds `providers/merge-user-messages.ts` and what `anthropic.ts` and `google-genai.ts`
pass to it.  Both providers convert the content of a message to a list of blocks.

Main definitions:

* `MergeOps`, `mergeConsecutiveUserMessages`;
* `anthropicOps`, `googleOps` — the two providers;
* `MergeOps.Lawful` — what the two have in common;
* `RefusedNeighbours` — where two user messages stay neighbours.

Main results:

* `flatMap_mergeConsecutiveUserMessages` — no block is lost or moved;
* `mergeConsecutiveUserMessages_append_cons` — what is no user message stays in its place;
* `mergeConsecutiveUserMessages_refused` — **neighbours were refused**;
* `mergeConsecutiveUserMessages_faithful` — the three, for both providers.
-/

import NoriCode.Anthropic
import NoriCode.LibAdjacent

namespace NoriCode

open LibAdjacent List

/-- What a provider says about its wire messages. -/
structure MergeOps (T : Type) where
  isUser : T → Bool
  isToolResultOnly : T → Bool
  merge : T → T → T

variable {T B : Type}

/-- The merge of a message into the last one, where the rule allows it. -/
def MergeOps.mergeInto (ops : MergeOps T) (last message : T) : Option T :=
  if ops.isUser last && ops.isUser message &&
      (ops.isToolResultOnly last || !ops.isToolResultOnly message) then
    some (ops.merge last message)
  else none

def mergeConsecutiveUserMessages (messages : List T) (ops : MergeOps T) : List T :=
  mergeAdjacent ops.mergeInto messages

/-! ### The providers -/

def ContentBlockParam.isToolResult : ContentBlockParam → Bool
  | .toolResult _ _ => true
  | _ => false

def isToolResultOnly (message : MessageParam) : Bool :=
  if message.role ≠ .user then false
  else if message.content.isEmpty then false
  else message.content.all (·.isToolResult)

def anthropicOps : MergeOps MessageParam where
  isUser := fun message => message.role = .user
  isToolResultOnly := isToolResultOnly
  merge := fun last next => { last with content := last.content ++ next.content }

inductive GoogleRole
  | user
  | model
  deriving DecidableEq

inductive GooglePart
  | text (text : String)
  | inlineData (data : String)
  | functionCall (name args : String)
  | functionResponse (name response : String)

def GooglePart.isFunctionResponse : GooglePart → Bool
  | .functionResponse _ _ => true
  | _ => false

structure GoogleContent where
  role : GoogleRole
  parts : List GooglePart

def googleOps : MergeOps GoogleContent where
  isUser := fun content => content.role = .user
  isToolResultOnly := fun content =>
    0 < content.parts.length && content.parts.all (·.isFunctionResponse)
  merge := fun last next => { last with parts := last.parts ++ next.parts }

/-- **What the providers have in common**: a merged message is a user message with the blocks of
both. -/
structure MergeOps.Lawful (ops : MergeOps T) (blocks : T → List B) : Prop where
  blocks_merge : ∀ last next, blocks (ops.merge last next) = blocks last ++ blocks next
  isUser_merge : ∀ last next, ops.isUser last = true → ops.isUser (ops.merge last next) = true

theorem anthropicOps_lawful : anthropicOps.Lawful MessageParam.content where
  blocks_merge := fun _ _ => rfl
  isUser_merge := fun _ _ h => h

theorem googleOps_lawful : googleOps.Lawful GoogleContent.parts where
  blocks_merge := fun _ _ => rfl
  isUser_merge := fun _ _ h => h

/-! ### The merge -/

variable {ops : MergeOps T} {blocks : T → List B}

theorem mergeInto_eq_some {last message merged : T} :
    ops.mergeInto last message = some merged ↔
      (ops.isUser last = true ∧ ops.isUser message = true ∧
        (ops.isToolResultOnly last = true ∨ ops.isToolResultOnly message = false)) ∧
      ops.merge last message = merged := by
  unfold MergeOps.mergeInto
  simp only [Option.ite_none_right_eq_some, Bool.and_eq_true, Bool.or_eq_true, Bool.not_eq_true',
    and_assoc, Option.some.injEq]

theorem mergeInto_eq_none {last message : T} :
    ops.mergeInto last message = none ↔ (ops.isUser last = true → ops.isUser message = true →
      ops.isToolResultOnly last = false ∧ ops.isToolResultOnly message = true) := by
  rw [Option.eq_none_iff_forall_ne_some]
  constructor
  · intro h hlast hmessage
    by_contra hnot
    refine h (ops.merge last message) (mergeInto_eq_some.2 ⟨⟨hlast, hmessage, ?_⟩, rfl⟩)
    cases hl : ops.isToolResultOnly last with
    | true => exact .inl rfl
    | false =>
      cases hm : ops.isToolResultOnly message with
      | false => exact .inr rfl
      | true => exact absurd ⟨hl, hm⟩ hnot
  · intro h merged hmerged
    obtain ⟨⟨hlast, hmessage, htools⟩, -⟩ := mergeInto_eq_some.1 hmerged
    obtain ⟨hl, hm⟩ := h hlast hmessage
    rw [hl, hm] at htools
    rcases htools with htools | htools <;> cases htools

/-- **No block is lost or moved.** -/
theorem flatMap_mergeConsecutiveUserMessages (h : ops.Lawful blocks) (messages : List T) :
    (mergeConsecutiveUserMessages messages ops).flatMap blocks = messages.flatMap blocks := by
  refine mergeAdjacent_induct ops.mergeInto
    (motive := fun out => out.flatMap blocks = messages.flatMap blocks) ?_ rfl
  intro pre p m q post hq hout
  obtain ⟨-, rfl⟩ := mergeInto_eq_some.1 hq
  rw [← hout]
  simp [h.blocks_merge]

/-- **What is no user message stays in its place**: the messages before it and behind it are merged
on their own. -/
theorem mergeConsecutiveUserMessages_append_cons (pre post : List T) {m : T}
    (hm : ops.isUser m = false) : mergeConsecutiveUserMessages (pre ++ m :: post) ops =
      mergeConsecutiveUserMessages pre ops ++ m :: mergeConsecutiveUserMessages post ops := by
  have hleft : ∀ p, ops.mergeInto p m = none := fun p =>
    mergeInto_eq_none.2 fun _ huser => absurd (hm.symm.trans huser) Bool.false_ne_true
  have hright : ∀ p, ops.mergeInto m p = none := fun p =>
    mergeInto_eq_none.2 fun huser => absurd (hm.symm.trans huser) Bool.false_ne_true
  have hbehind : mergeFrom ops.mergeInto m post = m :: mergeAdjacent ops.mergeInto post := by
    cases post with
    | nil => rfl
    | cons p post =>
      rw [mergeFrom, hright p, mergeAdjacent_cons]
  have hfront := mergeAdjacent_concat hleft pre
  have hsplit : mergeAdjacent ops.mergeInto (pre ++ m :: post) =
      post.foldl (appendMerging ops.mergeInto) (mergeAdjacent ops.mergeInto pre ++ [m]) := by
    rw [← hfront, mergeAdjacent, mergeAdjacent, ← foldl_append, append_assoc, singleton_append]
  unfold mergeConsecutiveUserMessages
  rw [hsplit, foldl_appendMerging, hbehind]

/-- **Where two user messages stay neighbours**: the first one has more than tool results, and the
second one begins with a message of tool results alone. -/
def RefusedNeighbours (ops : MergeOps T) (blocks : T → List B) (messages : List T) (p q : T) :
    Prop :=
  ops.isUser p = true → ops.isUser q = true → ops.isToolResultOnly p = false ∧
    ∃ first ∈ messages, ops.isToolResultOnly first = true ∧ blocks first <+: blocks q

theorem merges_spec (h : ops.Lawful blocks) {p q : T} {run : List T}
    (hmerges : Merges ops.mergeInto p run q) :
    blocks p <+: blocks q ∧ (ops.isUser q = true → ops.isUser p = true) := by
  induction hmerges with
  | nil => exact ⟨prefix_rfl, id⟩
  | cons hq _ ih =>
    obtain ⟨⟨huser, -⟩, rfl⟩ := mergeInto_eq_some.1 hq
    refine ⟨List.IsPrefix.trans ?_ ih.1, fun _ => huser⟩
    rw [h.blocks_merge]
    exact prefix_append _ _

/-- **Neighbours were refused.** -/
theorem mergeConsecutiveUserMessages_refused (h : ops.Lawful blocks) (messages : List T) :
    (mergeConsecutiveUserMessages messages ops).IsChain
      (RefusedNeighbours ops blocks messages) := by
  have hall : ∀ {l out : List T}, Grouped ops.mergeInto l out → l ⊆ messages →
      out.IsChain (RefusedNeighbours ops blocks messages) := by
    intro l out hgrouped
    induction hgrouped with
    | nil => exact fun _ => isChain_nil
    | @cons p q run l out _ hnext hl ih =>
      intro hsub
      have hbehind : l ⊆ messages := fun x hx =>
        hsub (.tail _ (mem_append_right _ hx))
      have hchain := ih hbehind
      cases hl with
      | nil => exact isChain_singleton _
      | @cons p' q' run' l' out' hmerges' _ _ =>
        refine isChain_cons_cons.2 ⟨fun hq hq' => ?_, hchain⟩
        obtain ⟨hfront, huser⟩ := merges_spec h hmerges'
        obtain ⟨hp, hfirst⟩ := mergeInto_eq_none.1 (hnext p' rfl) hq (huser hq')
        exact ⟨hp, p', hbehind (.head _), hfirst, hfront⟩
  exact hall (mergeAdjacent_grouped messages) (List.Subset.refl _)

/-- What the merge owes a provider: the blocks stay as they are, what is no user message stays in
its place, and user messages are neighbours only where the rule refused the second one. -/
structure MergesFaithfully (ops : MergeOps T) (blocks : T → List B) (messages : List T) : Prop where
  blocks_eq : (mergeConsecutiveUserMessages messages ops).flatMap blocks = messages.flatMap blocks
  others_stay : ∀ pre m post, messages = pre ++ m :: post → ops.isUser m = false →
    mergeConsecutiveUserMessages messages ops =
      mergeConsecutiveUserMessages pre ops ++ m :: mergeConsecutiveUserMessages post ops
  refused : (mergeConsecutiveUserMessages messages ops).IsChain
    (RefusedNeighbours ops blocks messages)

theorem MergeOps.Lawful.mergesFaithfully (h : ops.Lawful blocks) (messages : List T) :
    MergesFaithfully ops blocks messages := by
  refine ⟨flatMap_mergeConsecutiveUserMessages h messages, ?_,
    mergeConsecutiveUserMessages_refused h messages⟩
  rintro pre m post rfl hm
  exact mergeConsecutiveUserMessages_append_cons pre post hm

/-- **Both providers merge faithfully**, whatever messages their conversions give. -/
theorem mergeConsecutiveUserMessages_faithful :
    (∀ messages : List MessageParam, MergesFaithfully anthropicOps MessageParam.content messages) ∧
    ∀ contents : List GoogleContent, MergesFaithfully googleOps GoogleContent.parts contents :=
  ⟨anthropicOps_lawful.mergesFaithfully, googleOps_lawful.mergesFaithfully⟩

/-- **A message that was refused takes in text afterwards**: then two neighbours could be merged. -/
theorem not_unmergeable : ¬∀ messages : List MessageParam,
    (mergeConsecutiveUserMessages messages anthropicOps).IsChain fun p q =>
      anthropicOps.isUser p = true → anthropicOps.isUser q = true →
        ¬(anthropicOps.isToolResultOnly p = true ∨ anthropicOps.isToolResultOnly q = false) := by
  intro h
  have hchain := h [⟨.user, [.plain (.text "a")]⟩, ⟨.user, [.toolResult "t" [.text "r"]]⟩,
    ⟨.user, [.plain (.text "b")]⟩]
  have hout : mergeConsecutiveUserMessages [⟨.user, [.plain (.text "a")]⟩,
      ⟨.user, [.toolResult "t" [.text "r"]]⟩, ⟨.user, [.plain (.text "b")]⟩] anthropicOps =
      [⟨.user, [.plain (.text "a")]⟩,
        ⟨.user, [.toolResult "t" [.text "r"], .plain (.text "b")]⟩] := rfl
  rw [hout, isChain_cons_cons] at hchain
  exact hchain.1 rfl rfl (.inr rfl)

end NoriCode
