/-
**A broker of requests.**

A broker takes requests, tells that each has come in, and keeps it until somebody settles it with an
outcome; then it tells the outcome and replies to the caller.  What is not pending cannot be
settled.  When the broker is shut down, the callers of what is still pending are turned away and
nothing is told.

Main definitions:

* `LibBroker.Broker`, with `request`, `settle` and `dispose`;
* `LibBroker.Broker.Accounts` — every request is told once, and settled once.

Main results:

* `LibBroker.Broker.Accounts.request`, `LibBroker.Broker.Accounts.settle`,
  `LibBroker.Broker.Accounts.dispose` — **what every operation keeps**.
-/

import Mathlib.Data.List.Nodup

namespace LibBroker

open List

/-- What is told about a request. -/
inductive Told (ω : Type)
  | requested
  | settled (outcome : ω)
  deriving DecidableEq

structure Broker (α ω : Type) where
  /-- Every request that has come in; its place is its id. -/
  requests : List α := []
  pending : List ℕ := []
  events : List (ℕ × Told ω) := []
  /-- What the callers were told, `none` for those that were turned away. -/
  replies : List (ℕ × Option ω) := []
  disposed : Bool := false

/-- The entries of a log that are about one id. -/
def about {β : Type} (log : List (ℕ × β)) (id : ℕ) : List β :=
  (log.filter fun e => e.1 = id).map (·.2)

theorem about_append {β : Type} (log log' : List (ℕ × β)) (id : ℕ) :
    about (log ++ log') id = about log id ++ about log' id := by
  unfold about
  rw [filter_append, map_append]

theorem about_singleton {β : Type} (j : ℕ) (b : β) (id : ℕ) :
    about [(j, b)] id = if j = id then [b] else [] := by
  unfold about
  by_cases h : j = id
  · rw [if_pos h, filter_singleton, decide_eq_true h]
    rfl
  · rw [if_neg h, filter_singleton, decide_eq_false h]
    rfl

theorem about_map {β : Type} {ids : List ℕ} (hids : ids.Nodup) (b : β) (id : ℕ) :
    about (ids.map fun j => (j, b)) id = if id ∈ ids then [b] else [] := by
  induction ids with
  | nil => rfl
  | cons j ids ih =>
    obtain ⟨hj, hrest⟩ := nodup_cons.1 hids
    have hcons : about (((j, b) :: ids.map fun j => (j, b))) id =
        about [(j, b)] id ++ about (ids.map fun j => (j, b)) id := about_append [(j, b)] _ id
    rw [map_cons, hcons, about_singleton, ih hrest]
    by_cases h : j = id
    · subst h
      rw [if_pos rfl, if_neg hj, if_pos (.head _), append_nil]
    · rw [if_neg h, nil_append]
      exact if_congr (by rw [mem_cons, or_iff_right (Ne.symm h)]) rfl rfl

namespace Broker

variable {α ω : Type}

def request (b : Broker α ω) (a : α) : Broker α ω :=
  { b with
    requests := b.requests ++ [a]
    pending := b.pending ++ [b.requests.length]
    events := b.events ++ [(b.requests.length, .requested)] }

/-- Settle a request, if it is pending. -/
def settle (b : Broker α ω) (id : ℕ) (outcome : ω) : Broker α ω :=
  if id ∈ b.pending then
    { b with
      pending := b.pending.erase id
      events := b.events ++ [(id, .settled outcome)]
      replies := b.replies ++ [(id, some outcome)] }
  else b

def dispose (b : Broker α ω) : Broker α ω :=
  { b with
    pending := []
    replies := b.replies ++ b.pending.map fun id => (id, none)
    disposed := true }

/-- **Every request is told once, and settled once.**  A pending one has no reply yet; any other
one was told to be settled, with the outcome of its only reply, or was turned away at the end. -/
structure Accounts (b : Broker α ω) : Prop where
  pending_lt : ∀ id ∈ b.pending, id < b.requests.length
  nodup : b.pending.Nodup
  unsettled : ∀ id ∈ b.pending, about b.events id = [.requested] ∧ about b.replies id = []
  settled : ∀ id < b.requests.length, id ∉ b.pending →
    (∃ outcome, about b.events id = [.requested, .settled outcome] ∧
      about b.replies id = [some outcome]) ∨
    (b.disposed = true ∧ about b.events id = [.requested] ∧ about b.replies id = [none])
  unknown : ∀ id, b.requests.length ≤ id → about b.events id = [] ∧ about b.replies id = []

variable {b : Broker α ω} {a : α} {id : ℕ} {outcome : ω}

theorem accounts_empty : Accounts ({} : Broker α ω) where
  pending_lt := fun _ h => (by cases h)
  nodup := nodup_nil
  unsettled := fun _ h => (by cases h)
  settled := fun _ h => (by cases h)
  unknown := fun _ _ => ⟨rfl, rfl⟩

/-! ### What the operations leave -/

theorem mem_pending_settle {j : ℕ} (h : b.pending.Nodup) :
    j ∈ (b.settle id outcome).pending ↔ j ∈ b.pending ∧ j ≠ id := by
  unfold settle
  split
  · rw [h.mem_erase_iff, and_comm]
  · rename_i hid
    exact ⟨fun hj => ⟨hj, fun heq => hid (heq ▸ hj)⟩, And.left⟩

theorem requests_settle : (b.settle id outcome).requests = b.requests := by
  unfold settle
  split <;> rfl

namespace Accounts

theorem request (h : b.Accounts) (a : α) : (b.request a).Accounts where
  pending_lt := fun id hid => by
    have hlength : (b.request a).requests.length = b.requests.length + 1 := length_append
    rw [hlength]
    rcases mem_append.1 hid with hid | hid
    · exact Nat.lt_succ_of_lt (h.pending_lt id hid)
    · obtain rfl := mem_singleton.1 hid
      exact Nat.lt_succ_self _
  nodup := by
    refine nodup_append.2 ⟨h.nodup, nodup_singleton _, fun id hid j hj => ?_⟩
    obtain rfl := mem_singleton.1 hj
    exact Nat.ne_of_lt (h.pending_lt id hid)
  unsettled := fun id hid => by
    have hevents : about (b.request a).events id = _ := about_append b.events _ id
    rw [hevents, about_singleton]
    rcases mem_append.1 hid with hid | hid
    · rw [if_neg (Nat.ne_of_gt (h.pending_lt id hid)), append_nil]
      exact h.unsettled id hid
    · obtain rfl := mem_singleton.1 hid
      obtain ⟨hnone, hreplies⟩ := h.unknown _ (Nat.le_refl _)
      rw [if_pos rfl, hnone]
      exact ⟨rfl, hreplies⟩
  settled := fun id hid hpending => by
    have hlength : (b.request a).requests.length = b.requests.length + 1 := length_append
    have hnot : id ∉ b.pending ∧ id ≠ b.requests.length := by
      refine ⟨fun hmem => hpending (mem_append_left _ hmem), fun heq => hpending ?_⟩
      exact mem_append_right _ (mem_singleton.2 heq)
    have hlt : id < b.requests.length := by omega
    have hevents : about (b.request a).events id = about b.events id := by
      refine (about_append b.events _ id).trans ?_
      rw [about_singleton, if_neg (Nat.ne_of_gt hlt), append_nil]
    rw [hevents]
    exact h.settled id hlt hnot.1
  unknown := fun id hid => by
    have hlength : (b.request a).requests.length = b.requests.length + 1 := length_append
    have hle : b.requests.length ≤ id := by omega
    obtain ⟨hnone, hreplies⟩ := h.unknown id hle
    refine ⟨(about_append b.events _ id).trans ?_, hreplies⟩
    rw [about_singleton, if_neg (by omega), hnone, append_nil]

theorem settle (h : b.Accounts) (id : ℕ) (outcome : ω) : (b.settle id outcome).Accounts := by
  by_cases hid : id ∈ b.pending
  · have hsettle : b.settle id outcome =
        { b with
          pending := b.pending.erase id
          events := b.events ++ [(id, .settled outcome)]
          replies := b.replies ++ [(id, some outcome)] } := if_pos hid
    rw [hsettle]
    refine ⟨fun j hj => ?_, h.nodup.erase id, fun j hj => ?_, fun j hlt hj => ?_, fun j hj => ?_⟩
    · exact h.pending_lt j (mem_of_mem_erase hj)
    · obtain ⟨hne, hpending⟩ := h.nodup.mem_erase_iff.1 hj
      rw [about_append, about_append, about_singleton, about_singleton, if_neg (Ne.symm hne),
        if_neg (Ne.symm hne), append_nil, append_nil]
      exact h.unsettled j hpending
    · dsimp only
      rw [about_append, about_append, about_singleton, about_singleton]
      by_cases hne : j = id
      · subst hne
        obtain ⟨hevents, hreplies⟩ := h.unsettled j hid
        rw [if_pos rfl, if_pos rfl, hevents, hreplies]
        exact .inl ⟨outcome, rfl, rfl⟩
      · rw [if_neg (Ne.symm hne), if_neg (Ne.symm hne), append_nil, append_nil]
        exact h.settled j hlt fun hpending => hj (h.nodup.mem_erase_iff.2 ⟨hne, hpending⟩)
    · have hlt := h.pending_lt id hid
      have hle : b.requests.length ≤ j := hj
      rw [about_append, about_append, about_singleton, about_singleton, if_neg (by omega),
        if_neg (by omega), append_nil, append_nil]
      exact h.unknown j hj
  · have hsettle : b.settle id outcome = b := if_neg hid
    rw [hsettle]
    exact h

theorem dispose (h : b.Accounts) : b.dispose.Accounts where
  pending_lt := fun _ hid => (by cases hid)
  nodup := nodup_nil
  unsettled := fun _ hid => (by cases hid)
  settled := fun id hlt _ => by
    have hreplies : about b.dispose.replies id = _ := about_append b.replies _ id
    rw [hreplies, about_map h.nodup]
    by_cases hid : id ∈ b.pending
    · obtain ⟨hevents, hnone⟩ := h.unsettled id hid
      rw [if_pos hid, hnone]
      exact .inr ⟨rfl, hevents, rfl⟩
    · rw [if_neg hid, append_nil]
      exact (h.settled id hlt hid).imp (fun hsome => hsome) fun hgone => ⟨rfl, hgone.2⟩
  unknown := fun id hle => by
    obtain ⟨hevents, hnone⟩ := h.unknown id hle
    refine ⟨hevents, (about_append b.replies _ id).trans ?_⟩
    rw [about_map h.nodup, if_neg fun hid => Nat.not_lt.2 hle (h.pending_lt id hid), hnone]
    rfl

end Accounts

end Broker

end LibBroker
