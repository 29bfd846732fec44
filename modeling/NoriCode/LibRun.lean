/-
**Runs of a partial step function.**

A system is a set of states with a step function that takes a label (an operation, an event, a
choice of the scheduler) and is undefined where the label is not enabled.  A run is a list of
labels taken one after the other.  Every run here carries a condition on its steps, so *"in every
run whose steps all meet the condition"* is a run of `LibRun.Run` for that condition, and a run
without a condition is one for the condition that is always true.

Main definitions:

* `LibRun.Run` — the runs whose steps meet a condition;
* `LibRun.exec` — the run of a list of labels, computed;
* `LibRun.Legal` — the condition at every step of a computed run.

Main results:

* `LibRun.Run.invariant` — **what every step preserves holds in every state reached**;
* `LibRun.run_of_exec` — a computed run is a run;
* `LibRun.legal_iff` — when a property holds in every state reached, **exactly**.
-/

import Mathlib.Data.List.Induction

namespace LibRun

open List Option

variable {σ ι : Type} (step : σ → ι → Option σ) (ok : σ → ι → Prop)

/-- The runs from a state whose steps all meet the condition `ok`. -/
inductive Run (s : σ) : List ι → σ → Prop
  | nil : Run s [] s
  | snoc {t u : σ} {l : List ι} {a : ι} : Run s l t → ok t a → step t a = some u →
      Run s (l ++ [a]) u

/-- Every step may be taken. -/
def always : σ → ι → Prop := fun _ _ => True

variable {step ok}

variable {s u : σ} {l : List ι}

/-- **The invariant rule.** -/
theorem Run.invariant {I : σ → Prop} (h : Run step ok s l u)
    (hs : I s) (hstep : ∀ t a u, I t → ok t a → step t a = some u → I u) : I u := by
  induction h with
  | nil => exact hs
  | snoc _ hok hu ih => exact hstep _ _ _ ih hok hu

theorem Run.imp {ok' : σ → ι → Prop} (h : Run step ok s l u)
    (himp : ∀ t a, ok t a → ok' t a) : Run step ok' s l u := by
  induction h with
  | nil => exact Run.nil
  | snoc _ hok hu ih => exact Run.snoc ih (himp _ _ hok) hu

theorem Run.among (h : Run step ok s l u) : Run step (fun t a => ok t a ∧ a ∈ l) s l u := by
  induction h with
  | nil => exact Run.nil
  | snoc _ hok hu ih =>
    refine Run.snoc (ih.imp fun t a ha => ⟨ha.1, ?_⟩) ⟨hok, ?_⟩ hu
    · exact mem_append_left _ ha.2
    · exact mem_append_right _ (.head _)

variable (step)

/-- The run of a list of labels, if they are enabled one after the other. -/
def exec : σ → List ι → Option σ
  | s, [] => some s
  | s, a :: l => (step s a).bind fun t => exec t l

variable {step}

theorem exec_append (s : σ) (l₁ l₂ : List ι) :
    exec step s (l₁ ++ l₂) = (exec step s l₁).bind fun t => exec step t l₂ := by
  induction l₁ generalizing s with
  | nil => rfl
  | cons a l ih =>
    simp only [cons_append, exec, ih]
    cases step s a <;> rfl

variable (step ok)

/-- Every step of the run of a list of labels meets the condition. -/
def Legal : σ → List ι → Prop
  | _, [] => True
  | s, a :: l => ok s a ∧ ∀ t ∈ step s a, Legal t l

variable {step ok}

instance Legal.decidable [∀ s a, Decidable (ok s a)] (s : σ) (l : List ι) :
    Decidable (Legal step ok s l) :=
  match l with
  | [] => inferInstanceAs (Decidable True)
  | a :: l =>
    have : ∀ t, Decidable (Legal step ok t l) := fun t => Legal.decidable t l
    inferInstanceAs (Decidable (ok s a ∧ ∀ t ∈ step s a, Legal step ok t l))

theorem legal_always (s : σ) (l : List ι) : Legal step always s l := by
  induction l generalizing s with
  | nil => trivial
  | cons a l ih => exact ⟨trivial, fun t _ => ih t⟩

theorem legal_append {l₁ l₂ : List ι} (h : Legal step ok s (l₁ ++ l₂)) :
    Legal step ok s l₁ ∧ ∀ t ∈ exec step s l₁, Legal step ok t l₂ := by
  induction l₁ generalizing s with
  | nil => exact ⟨trivial, fun t ht => some.inj ht ▸ h⟩
  | cons a l ih =>
    obtain ⟨hok, hrest⟩ := h
    refine ⟨⟨hok, fun t ht => (ih (hrest t ht)).1⟩, fun u hu => ?_⟩
    obtain ⟨t, ht, htu⟩ := bind_eq_some_iff.1 hu
    exact (ih (hrest t ht)).2 u htu

theorem run_of_exec (h : exec step s l = some u) (hok : Legal step ok s l) : Run step ok s l u := by
  induction l using reverseRecOn generalizing u with
  | nil =>
    cases h
    exact Run.nil
  | append_singleton l a ih =>
    rw [exec_append] at h
    obtain ⟨t, ht, hu⟩ := bind_eq_some_iff.1 h
    obtain ⟨u', hu', hlast⟩ := bind_eq_some_iff.1 hu
    cases hlast
    obtain ⟨hinit, hrest⟩ := legal_append hok
    exact Run.snoc (ih ht hinit) (hrest t ht).1 hu'

/-- **The exact condition.** If a step keeps the property exactly when it meets the condition, the
property holds in every state reached exactly when all steps meet it. -/
theorem legal_iff {I K : σ → Prop} (hK : ∀ t a u, K t → step t a = some u → K u)
    (hstep : ∀ t a u, K t → I t → step t a = some u → (I u ↔ ok t a)) (hs : K s)
    (hI : I s) (h : (exec step s l).isSome) :
    Legal step ok s l ↔ ∀ l₁, l₁ <+: l → ∀ t ∈ exec step s l₁, I t := by
  induction l generalizing s with
  | nil =>
    refine iff_of_true trivial fun l₁ hl₁ t ht => ?_
    rw [prefix_nil.1 hl₁] at ht
    exact some.inj ht ▸ hI
  | cons a l ih =>
    obtain ⟨t, ht⟩ : ∃ t, step s a = some t := by
      cases hstep' : step s a with
      | none => simp [exec, hstep'] at h
      | some t => exact ⟨t, rfl⟩
    have hcons : ∀ l₁, exec step s (a :: l₁) = exec step t l₁ := fun l₁ => by
      simp [exec, ht]
    rw [hcons] at h
    have hnext := hstep s a t hs hI ht
    constructor
    · rintro ⟨hok, hrest⟩ l₁ hl₁ u hu
      cases l₁ with
      | nil => exact some.inj hu ▸ hI
      | cons b l₁ =>
        obtain ⟨rfl, htail⟩ := cons_prefix_cons.1 hl₁
        rw [hcons] at hu
        exact (ih (hK s _ t hs ht) (hnext.2 hok) h).1 (hrest t ht) l₁ htail u hu
    · intro hall
      have hI' : I t := hall [a] (prefix_append [a] l) t ((hcons []).trans rfl)
      refine ⟨hnext.1 hI', fun t' ht' => ?_⟩
      obtain rfl : t = t' := some.inj (ht.symm.trans ht')
      refine (ih (hK s a t hs ht) hI' h).2 fun l₁ hl₁ u hu => ?_
      exact hall (a :: l₁) (cons_prefix_cons.2 ⟨rfl, hl₁⟩) u ((hcons l₁).trans hu)

/-- A computed run whose steps meet the condition, to a state that meets another one. -/
theorem exists_run {P : σ → Prop} [DecidablePred P]
    (h : ((exec step s l).any fun u => decide (P u)) = true) (hok : Legal step ok s l) :
    ∃ u, Run step ok s l u ∧ P u := by
  obtain ⟨u, hu, hP⟩ := (any_eq_true _ _).1 h
  exact ⟨u, run_of_exec hu hok, of_decide_eq_true hP⟩

/-- A computed run without a condition, and another one from where it ends. -/
theorem exists_two_runs {P Q : σ → Prop} [DecidablePred P] [DecidablePred Q] {l₁ l₂ : List ι}
    (h : ((exec step s l₁).any fun t =>
      decide (P t) && (exec step t l₂).any fun u => decide (Q u)) = true) :
    ∃ t, Run step always s l₁ t ∧ P t ∧ ∃ u, Run step always t l₂ u ∧ Q u := by
  obtain ⟨t, ht, hboth⟩ := (any_eq_true _ _).1 h
  obtain ⟨hP, hany⟩ := Bool.and_eq_true_iff.1 hboth
  obtain ⟨u, hu, hQ⟩ := (any_eq_true _ _).1 hany
  exact ⟨t, run_of_exec ht (legal_always _ _), of_decide_eq_true hP, u,
    run_of_exec hu (legal_always _ _), of_decide_eq_true hQ⟩

end LibRun
