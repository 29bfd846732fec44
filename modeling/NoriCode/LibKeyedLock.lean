/-
**A lock for each key, as a chain of promises.**

Operations enter one after the other, each with a key.  An operation remembers who holds the lock of
its key and becomes the holder itself; it waits for that one alone.  When it ends it resolves its
own promise and takes the entry of the key away, unless somebody entered behind it.

What an operation does while it runs is its body, of any type, and does not concern the lock.

Main definitions:

* `LibKeyedLock.Locks`, with `enter`, `resume`, `release` and `work`;
* `LibKeyedLock.Chained` — the invariant.

Main results:

* `LibKeyedLock.Chained.enter`, `Chained.resume`, `Chained.release`, `Chained.work` — **every step
  keeps the chains**;
* `LibKeyedLock.Chained.earlier_finished` — who runs, runs behind all earlier operations of its key;
* `LibKeyedLock.Chained.holder_eq_none` — **an entry is there as long as somebody is not finished**;
* `LibKeyedLock.Chained.can_go_on` — **nobody waits for a finished operation**.
-/

import NoriCode.LibPlaces

namespace LibKeyedLock

open LibPlaces Option Function

inductive Phase
  | waiting
  | running
  | finished
  deriving DecidableEq

/-- An operation: its key, who it waits for, and where it is. -/
structure Op (κ β : Type) where
  key : κ
  previous : Option ℕ
  phase : Phase
  body : β

/-- All operations in the order they entered, and the holder of each key. -/
structure Locks (κ β : Type) where
  ops : List (Op κ β) := []
  holder : κ → Option ℕ := fun _ => none

variable {κ β : Type}

namespace Locks

/-- An operation enters. It runs at once if the key has no holder. -/
def enter [DecidableEq κ] (s : Locks κ β) (key : κ) (body : β) : Locks κ β where
  ops := s.ops ++
    [⟨key, s.holder key, if s.holder key = none then .running else .waiting, body⟩]
  holder := update s.holder key (some s.ops.length)

/-- The operation that `i` waits for is finished. -/
def awaited (s : Locks κ β) (op : Op κ β) : Bool :=
  match op.previous with
  | none => false
  | some p => (s.ops[p]?).any fun op' => op'.phase = .finished

/-- A waiting operation goes on when the one before it is finished. -/
def resume (s : Locks κ β) (i : ℕ) : Option (Locks κ β) :=
  (s.ops[i]?).bind fun op =>
    if op.phase = .waiting ∧ s.awaited op = true then
      some { s with ops := s.ops.modify i fun op => { op with phase := .running } }
    else none

/-- A running operation does something. -/
def work (s : Locks κ β) (i : ℕ) (f : β → β) : Locks κ β :=
  { s with ops := s.ops.modify i fun op => { op with body := f op.body } }

/-- A running operation ends, in whatever way. -/
def release [DecidableEq κ] (s : Locks κ β) (i : ℕ) : Option (Locks κ β) :=
  (s.ops[i]?).bind fun op =>
    if op.phase = .running then
      some {
        ops := s.ops.modify i fun op => { op with phase := .finished }
        holder :=
          if s.holder op.key = some i then update s.holder op.key none else s.holder }
    else none

end Locks

/-- An operation waits for the last one before it with its key. -/
def Linked (ops : List (Op κ β)) : Prop :=
  ∀ (i : ℕ) (op : Op κ β) (p : ℕ), ops[i]? = some op → op.previous = some p →
    p < i ∧ (∃ op', ops[p]? = some op' ∧ op'.key = op.key) ∧
      ∀ (j : ℕ) (op' : Op κ β), p < j → j < i → ops[j]? = some op' → op'.key ≠ op.key

/-- **The chains.** -/
structure Chained (s : Locks κ β) : Prop where
  previous : Linked s.ops
  /-- Who waits, waits for somebody. -/
  waits : ∀ (i : ℕ) (op : Op κ β), s.ops[i]? = some op → op.phase = .waiting → op.previous ≠ none
  /-- Who does not wait is behind all earlier operations with its key. -/
  started : ∀ (i : ℕ) (op : Op κ β), s.ops[i]? = some op → op.phase ≠ .waiting →
    ∀ (j : ℕ) (op' : Op κ β), j < i → s.ops[j]? = some op' → op'.key = op.key →
      op'.phase = .finished
  /-- The holder is the last one with the key, and not finished. -/
  held : ∀ (key : κ) (p : ℕ), s.holder key = some p →
    (∃ op, s.ops[p]? = some op ∧ op.key = key ∧ op.phase ≠ .finished) ∧
      ∀ (j : ℕ) (op : Op κ β), p < j → s.ops[j]? = some op → op.key ≠ key
  /-- Without a holder everybody is finished. -/
  free : ∀ (key : κ), s.holder key = none →
    ∀ (i : ℕ) (op : Op κ β), s.ops[i]? = some op → op.key = key → op.phase = .finished

namespace Chained

variable {s t : Locks κ β}

theorem empty : Chained ({} : Locks κ β) where
  previous := by simp [Linked]
  waits := by simp
  started := by simp
  held := by simp
  free := by simp

theorem enter [DecidableEq κ] (h : Chained s) (key : κ) (body : β) : Chained (s.enter key body) := by
  have hlt : ∀ {i : ℕ} {op : Op κ β}, s.ops[i]? = some op → i < s.ops.length := by
    intro i op hop
    exact (List.getElem?_eq_some_iff.1 hop).1
  have hkeep : ∀ {i : ℕ} {op : Op κ β}, s.ops[i]? = some op →
      (s.enter key body).ops[i]? = some op := by
    intro i op hop
    exact (List.getElem?_append_left (hlt hop)).trans hop
  refine { previous := ?_, waits := ?_, started := ?_, held := ?_, free := ?_ }
  · intro i op p hop hp
    rcases getElem?_append_singleton hop with hop | ⟨rfl, rfl⟩
    · obtain ⟨hpi, ⟨op', hop', hkey⟩, hbetween⟩ := h.previous i op p hop hp
      refine ⟨hpi, ⟨op', hkeep hop', hkey⟩, fun j op'' hpj hji hop'' => ?_⟩
      rcases getElem?_append_singleton hop'' with hop'' | ⟨rfl, rfl⟩
      · exact hbetween j op'' hpj hji hop''
      · exact absurd (hlt hop) (Nat.not_lt.2 (Nat.le_of_lt hji))
    · obtain ⟨⟨op', hop', hkey, -⟩, hlast⟩ := h.held key p hp
      refine ⟨hlt hop', ⟨op', hkeep hop', hkey⟩, fun j op'' hpj hji hop'' => ?_⟩
      rcases getElem?_append_singleton hop'' with hop'' | ⟨rfl, rfl⟩
      · exact hlast j op'' hpj hop''
      · exact absurd hji (Nat.lt_irrefl _)
  · intro i op hop hphase
    rcases getElem?_append_singleton hop with hop | ⟨rfl, rfl⟩
    · exact h.waits i op hop hphase
    · intro hnone
      have hfree : s.holder key = none := hnone
      simp [hfree] at hphase
  · intro i op hop hphase j op' hji hop' hkey
    rcases getElem?_append_singleton hop' with hop' | ⟨rfl, rfl⟩
    · rcases getElem?_append_singleton hop with hop | ⟨rfl, rfl⟩
      · exact h.started i op hop hphase j op' hji hop' hkey
      · have hfree : s.holder key = none := by
          by_contra hheld
          simp [hheld] at hphase
        exact h.free key hfree j op' hop' hkey
    · rcases getElem?_append_singleton hop with hop | ⟨rfl, rfl⟩
      · exact absurd (hlt hop) (Nat.not_lt.2 (Nat.le_of_lt hji))
      · exact absurd hji (Nat.lt_irrefl _)
  · intro key' p hp
    by_cases hkey : key' = key
    · subst hkey
      have hlast : p = s.ops.length := by
        have hself : update s.holder key' (some s.ops.length) key' = some p := hp
        rw [update_self] at hself
        exact (some.inj hself).symm
      subst hlast
      refine ⟨⟨_, List.getElem?_concat_length, rfl, ?_⟩, fun j op hpj hop => ?_⟩
      · dsimp only
        split <;> simp
      · rcases getElem?_append_singleton hop with hop | ⟨rfl, rfl⟩
        · exact absurd (hlt hop) (Nat.not_lt.2 (Nat.le_of_lt hpj))
        · exact absurd hpj (Nat.lt_irrefl _)
    · have hold : s.holder key' = some p := by
        have hother : update s.holder key (some s.ops.length) key' = some p := hp
        rwa [update_of_ne hkey] at hother
      obtain ⟨⟨op, hop, hopKey, hphase⟩, hlast⟩ := h.held key' p hold
      refine ⟨⟨op, hkeep hop, hopKey, hphase⟩, fun j op' hpj hop' => ?_⟩
      rcases getElem?_append_singleton hop' with hop' | ⟨rfl, rfl⟩
      · exact hlast j op' hpj hop'
      · exact fun heq => hkey heq.symm
  · intro key' hfree i op hop hkey
    have hne : key' ≠ key := by
      rintro rfl
      have hself : update s.holder key' (some s.ops.length) key' = none := hfree
      rw [update_self] at hself
      cases hself
    have hold : s.holder key' = none := by
      have hother : update s.holder key (some s.ops.length) key' = none := hfree
      rwa [update_of_ne hne] at hother
    rcases getElem?_append_singleton hop with hop | ⟨rfl, rfl⟩
    · exact h.free key' hold i op hop hkey
    · exact absurd hkey.symm hne

/-! ### Steps on an operation that is there -/

/-- A step that changes neither the key nor the previous operation keeps the links. -/
theorem previous_modify {ops : List (Op κ β)} (h : Linked ops) (i : ℕ) {f : Op κ β → Op κ β}
    (hkey : ∀ op, (f op).key = op.key) (hprevious : ∀ op, (f op).previous = op.previous) :
    Linked (ops.modify i f) := by
  have hsame : ∀ {j : ℕ} {op' : Op κ β}, (ops.modify i f)[j]? = some op' →
      ∃ op, ops[j]? = some op ∧ op'.key = op.key ∧ op'.previous = op.previous := by
    intro j op' hop'
    obtain ⟨op, hop, rfl⟩ := getElem?_modify_some hop'
    refine ⟨op, hop, ?_⟩
    split
    · exact ⟨hkey op, hprevious op⟩
    · exact ⟨rfl, rfl⟩
  intro j op p hop hp
  obtain ⟨op₀, hop₀, hopKey, hopPrevious⟩ := hsame hop
  obtain ⟨hpj, ⟨op', hop', hkey'⟩, hbetween⟩ := h j op₀ p hop₀ (hopPrevious ▸ hp)
  refine ⟨hpj, ⟨_, getElem?_modify_of_some f i hop', ?_⟩, fun k op'' hpk hkj hop'' => ?_⟩
  · rw [hopKey, ← hkey']
    split
    · exact hkey op'
    · rfl
  · obtain ⟨op₂, hop₂, hkey₂, -⟩ := hsame hop''
    rw [hkey₂, hopKey]
    exact hbetween k op₂ hpk hkj hop₂

/-- **A step on one operation**, which takes no key, no link and no end back. -/
theorem modify (h : Chained s) (i : ℕ) {f : Op κ β → Op κ β} {holder : κ → Option ℕ}
    (hkey : ∀ op, (f op).key = op.key) (hprevious : ∀ op, (f op).previous = op.previous)
    (hwaits : ∀ op, s.ops[i]? = some op → (f op).phase = .waiting → op.phase = .waiting)
    (hstarted : ∀ op, s.ops[i]? = some op → (f op).phase ≠ .waiting →
      ∀ (j : ℕ) (op' : Op κ β), j < i → s.ops[j]? = some op' → op'.key = op.key →
        op'.phase = .finished)
    (hfinished : ∀ op, s.ops[i]? = some op → op.phase = .finished → (f op).phase = .finished)
    (hheld : ∀ key p, holder key = some p → s.holder key = some p ∧
      ∀ op, s.ops[i]? = some op → op.key = key → op.phase ≠ .finished → p = i →
        (f op).phase ≠ .finished)
    (hfree : ∀ key, holder key = none → ∀ (j : ℕ) (op : Op κ β), s.ops[j]? = some op →
      op.key = key → (if i = j then f op else op).phase = .finished) :
    Chained ⟨s.ops.modify i f, holder⟩ := by
  have hkeys : ∀ (k : ℕ) (op : Op κ β), (if i = k then f op else op).key = op.key := by
    intro k op
    split
    · exact hkey op
    · rfl
  refine { previous := ?_, waits := ?_, started := ?_, held := ?_, free := ?_ }
  · exact previous_modify h.previous i hkey hprevious
  · intro j _ hnew hphase
    obtain ⟨op, hop, rfl⟩ := getElem?_modify_some hnew
    by_cases hij : i = j
    · subst hij
      rw [if_pos rfl] at hphase ⊢
      exact hprevious op ▸ h.waits i op hop (hwaits op hop hphase)
    · rw [if_neg hij] at hphase ⊢
      exact h.waits j op hop hphase
  · intro j _ hnew hphase k _ hkj hnew' hsame
    obtain ⟨op, hop, rfl⟩ := getElem?_modify_some hnew
    obtain ⟨op', hop', rfl⟩ := getElem?_modify_some hnew'
    rw [hkeys, hkeys] at hsame
    have hended : op'.phase = .finished := by
      by_cases hij : i = j
      · subst hij
        rw [if_pos rfl] at hphase
        exact hstarted op hop hphase k op' hkj hop' hsame
      · rw [if_neg hij] at hphase
        exact h.started j op hop hphase k op' hkj hop' hsame
    split
    · subst i
      exact hfinished op' hop' hended
    · exact hended
  · intro key p hp
    obtain ⟨hp, hrunning⟩ := hheld key p hp
    obtain ⟨⟨op, hop, hopKey, hphase⟩, hlast⟩ := h.held key p hp
    refine ⟨⟨_, getElem?_modify_of_some _ i hop, (hkeys p op).trans hopKey, ?_⟩,
      fun j _ hpj hnew => ?_⟩
    · split
      · subst i
        exact hrunning op hop hopKey hphase rfl
      · exact hphase
    · obtain ⟨op', hop', rfl⟩ := getElem?_modify_some hnew
      rw [hkeys]
      exact hlast j op' hpj hop'
  · intro key hnone j _ hnew hsame
    obtain ⟨op, hop, rfl⟩ := getElem?_modify_some hnew
    exact hfree key hnone j op hop ((hkeys j op).symm.trans hsame)

theorem work (h : Chained s) (i : ℕ) (f : β → β) : Chained (s.work i f) := by
  refine h.modify i (fun _ => rfl) (fun _ => rfl) (fun _ _ hwaiting => hwaiting) (h.started i)
    (fun _ _ hended => hended) (fun key p hp => ⟨hp, fun _ _ _ hphase _ => hphase⟩) ?_
  intro key hfree j op hop hkey
  have hended := h.free key hfree j op hop hkey
  split <;> exact hended

/-- What `resume` does. -/
theorem resume_cases {i : ℕ} (h : s.resume i = some t) :
    ∃ op, s.ops[i]? = some op ∧ op.phase = .waiting ∧ s.awaited op = true ∧
      t = { s with ops := s.ops.modify i fun op => { op with phase := .running } } := by
  obtain ⟨op, hop, h⟩ := bind_eq_some_iff.1 h
  split at h
  case isTrue hcond => exact ⟨op, hop, hcond.1, hcond.2, (some.inj h).symm⟩
  case isFalse => cases h

/-- What `release` does. -/
theorem release_cases [DecidableEq κ] {i : ℕ} (h : s.release i = some t) :
    ∃ op, s.ops[i]? = some op ∧ op.phase = .running ∧
      t.ops = s.ops.modify i (fun op => { op with phase := .finished }) ∧
      t.holder = if s.holder op.key = some i then update s.holder op.key none else s.holder := by
  obtain ⟨op, hop, h⟩ := bind_eq_some_iff.1 h
  obtain ⟨hcond, h⟩ := ite_none_right_eq_some.1 h
  cases h
  exact ⟨op, hop, hcond, rfl, rfl⟩

/-- The operation that somebody waits for is finished, and then so are all before it. -/
theorem finished_of_awaited (h : Chained s) {i : ℕ} {op : Op κ β} (hop : s.ops[i]? = some op)
    (hawaited : s.awaited op = true) {j : ℕ} {op' : Op κ β} (hji : j < i)
    (hop' : s.ops[j]? = some op') (hkey : op'.key = op.key) : op'.phase = .finished := by
  unfold Locks.awaited at hawaited
  cases hprevious : op.previous with
  | none =>
    rw [hprevious] at hawaited
    cases hawaited
  | some p =>
    rw [hprevious] at hawaited
    obtain ⟨op₁, hop₁, hphase₁⟩ := (any_eq_true _ _).1 hawaited
    have hfinished : op₁.phase = .finished := of_decide_eq_true hphase₁
    obtain ⟨hpi, ⟨op₂, hop₂, hkey₂⟩, hbetween⟩ := h.previous i op p hop hprevious
    cases hop₁.symm.trans hop₂
    rcases Nat.lt_trichotomy j p with hjp | rfl | hpj
    · refine h.started p op₁ hop₁ ?_ j op' hjp hop' (hkey.trans hkey₂.symm)
      rw [hfinished]
      exact Phase.noConfusion
    · cases hop₁.symm.trans hop'
      exact hfinished
    · exact absurd hkey (hbetween j op' hpj hji hop')

theorem resume {i : ℕ} (h : Chained s) (ht : s.resume i = some t) : Chained t := by
  obtain ⟨op₀, hop₀, hwaiting, hawaited, rfl⟩ := resume_cases ht
  have hself : ∀ op, s.ops[i]? = some op → op = op₀ := fun op hop =>
    some.inj (hop.symm.trans hop₀)
  have hopen : ∀ op, s.ops[i]? = some op → op.phase ≠ .finished := by
    rintro op hop hphase
    obtain rfl := hself op hop
    cases hwaiting.symm.trans hphase
  refine h.modify i (fun _ => rfl) (fun _ => rfl) (fun _ _ hphase => by cases hphase) ?_
    (fun op hop hphase => absurd hphase (hopen op hop))
    (fun key p hp => ⟨hp, fun _ _ _ _ _ => Phase.noConfusion⟩) ?_
  · intro op hop _ j op' hji hop' hkey
    obtain rfl := hself op hop
    exact h.finished_of_awaited hop hawaited hji hop' hkey
  · intro key hfree j op hop hkey
    have hended := h.free key hfree j op hop hkey
    split
    · subst i
      exact absurd hended (hopen op hop)
    · exact hended

theorem release [DecidableEq κ] {i : ℕ} (h : Chained s) (ht : s.release i = some t) :
    Chained t := by
  obtain ⟨op₀, hop₀, hrunning, hops, hholder⟩ := release_cases ht
  obtain ⟨ops, holder⟩ := t
  obtain rfl : ops = _ := hops
  change holder = _ at hholder
  have hself : ∀ op, s.ops[i]? = some op → op = op₀ := fun op hop =>
    some.inj (hop.symm.trans hop₀)
  have hstarted : ∀ (j : ℕ) (op' : Op κ β), j < i → s.ops[j]? = some op' → op'.key = op₀.key →
      op'.phase = .finished := h.started i op₀ hop₀ (by rw [hrunning]; exact Phase.noConfusion)
  refine h.modify i (fun _ => rfl) (fun _ => rfl) (fun _ _ hphase => by cases hphase)
    (fun op hop _ => hself op hop ▸ hstarted) (fun _ _ _ => rfl) ?_ ?_
  · intro key p hp
    rw [hholder] at hp
    by_cases hlast : s.holder op₀.key = some i
    · rw [if_pos hlast] at hp
      by_cases hkey : key = op₀.key
      · rw [hkey, update_self] at hp
        cases hp
      · rw [update_of_ne hkey] at hp
        exact ⟨hp, fun op hop hopKey => absurd (hself op hop ▸ hopKey).symm hkey⟩
    · rw [if_neg hlast] at hp
      refine ⟨hp, fun op hop hopKey _ hpi => absurd ?_ hlast⟩
      rw [← hself op hop, hopKey, hp, hpi]
  · intro key hfree j op hop hkey
    split
    · rfl
    · rename_i hij
      rw [hholder] at hfree
      by_cases hlast : s.holder op₀.key = some i
      · rw [if_pos hlast] at hfree
        by_cases hkey₀ : key = op₀.key
        · -- `i` was the last with this key, so `j` stands before it
          have hji : j < i := by
            refine Nat.lt_of_le_of_ne (Nat.le_of_not_lt fun hlt => ?_) (Ne.symm hij)
            exact (h.held op₀.key i hlast).2 j op hlt hop (hkey.trans hkey₀)
          exact hstarted j op hji hop (hkey.trans hkey₀)
        · rw [update_of_ne hkey₀] at hfree
          exact h.free key hfree j op hop hkey
      · rw [if_neg hlast] at hfree
        exact h.free key hfree j op hop hkey

/-! ### What the chains say -/

theorem earlier_finished (h : Chained s) {i j : ℕ} {op op' : Op κ β} (hop : s.ops[i]? = some op)
    (hphase : op.phase ≠ .waiting) (hji : j < i) (hop' : s.ops[j]? = some op')
    (hkey : op'.key = op.key) : op'.phase = .finished :=
  h.started i op hop hphase j op' hji hop' hkey

/-- **An entry is there as long as somebody is not finished.** -/
theorem holder_eq_none (h : Chained s) (key : κ) :
    s.holder key = none ↔
      ∀ (i : ℕ) (op : Op κ β), s.ops[i]? = some op → op.key = key → op.phase = .finished := by
  refine ⟨h.free key, fun hall => ?_⟩
  cases hheld : s.holder key with
  | none => rfl
  | some p =>
    obtain ⟨⟨op, hop, hkey, hphase⟩, -⟩ := h.held key p hheld
    exact absurd (hall p op hop hkey) hphase

/-- **Nobody waits for a finished operation**: behind finished ones an operation can go on. -/
theorem can_go_on (h : Chained s) {i : ℕ} {op : Op κ β} (hop : s.ops[i]? = some op)
    (hwaiting : op.phase = .waiting)
    (hearlier : ∀ (j : ℕ) (op' : Op κ β), j < i → s.ops[j]? = some op' → op'.key = op.key →
      op'.phase = .finished) : ∃ t, s.resume i = some t := by
  obtain ⟨p, hp⟩ := ne_none_iff_exists'.1 (h.waits i op hop hwaiting)
  obtain ⟨hpi, ⟨op', hop', hkey⟩, -⟩ := h.previous i op p hop hp
  have hawaited : s.awaited op = true := by
    unfold Locks.awaited
    rw [hp]
    exact (any_eq_true _ _).2 ⟨op', hop', decide_eq_true (hearlier p op' hpi hop' hkey)⟩
  exact ⟨_, bind_eq_some_iff.2 ⟨op, hop, if_pos ⟨hwaiting, hawaited⟩⟩⟩

end Chained

end LibKeyedLock
