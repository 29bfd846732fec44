/-
**Paths through a tree with symbolic links.**

A path is followed one name after the other.  A link is followed where it stands: what it names is
put in front of the rest of the path.  The operating system gives up at some point, for which a
walk has fuel.

Main definitions:

* `LibLinks.Tree` — what is at a place;
* `LibLinks.walk` — the place that a path leads to;
* `LibLinks.IsReal` — a place without links on the way.

Main results:

* `LibLinks.walk_isReal` — a walk leads to a real place;
* `LibLinks.walk_append` — **a walk goes on from where its first part leads**;
* `LibLinks.walk_real`, `LibLinks.walk_behind` — the path of a real place.
-/

import Mathlib.Data.List.Infix

namespace LibLinks

open List

variable {ν : Type}

/-- A step of a path: to a name, or up. -/
inductive Step (ν : Type)
  | up
  | name (n : ν)

inductive Node (ν : Type)
  | file
  | dir
  /-- A link, which begins at the root or where it stands. -/
  | link (absolute : Bool) (target : List (Step ν))

/-- What is at a place. The root is a directory. -/
abbrev Tree (ν : Type) := List ν → Option (Node ν)

inductive WalkError
  | notFound
  | notDirectory
  | tooLong
  deriving DecidableEq

/-- Follows a path from a directory. -/
def walk (tree : Tree ν) : ℕ → List ν → List (Step ν) → Except WalkError (List ν)
  | 0, _, _ => .error .tooLong
  | _ + 1, place, [] => .ok place
  | fuel + 1, place, .up :: rest => walk tree fuel place.dropLast rest
  | fuel + 1, place, .name n :: rest =>
    match tree (place ++ [n]) with
    | none => .error .notFound
    | some .file => if rest.isEmpty then .ok (place ++ [n]) else .error .notDirectory
    | some .dir => walk tree fuel (place ++ [n]) rest
    | some (.link absolute target) =>
      walk tree fuel (if absolute then [] else place) (target ++ rest)

variable {tree : Tree ν} {fuel : ℕ} {place real : List ν}

/-- A place with directories all the way. -/
def IsDir (tree : Tree ν) (place : List ν) : Prop :=
  ∀ above, above <+: place → above ≠ [] → tree above = some .dir

/-- A directory, or a file in one. -/
def IsReal (tree : Tree ν) (place : List ν) : Prop :=
  IsDir tree place ∨ ∃ dir n, place = dir ++ [n] ∧ IsDir tree dir ∧ tree place = some .file

theorem IsDir.of_isPrefix {above : List ν} (h : IsDir tree place) (hpre : above <+: place) :
    IsDir tree above :=
  fun top htop => h top (htop.trans hpre)

/-- **A walk leads to a real place.** -/
theorem walk_isReal {path : List (Step ν)} (hdir : IsDir tree place)
    (h : walk tree fuel place path = .ok real) : IsReal tree real := by
  induction fuel generalizing place path with
  | zero => cases h
  | succ fuel ih =>
    match path with
    | [] =>
      cases h
      exact .inl hdir
    | .up :: rest => exact ih (hdir.of_isPrefix (List.dropLast_prefix _)) h
    | .name n :: rest =>
      rw [walk] at h
      split at h
      · cases h
      · rename_i hfile
        split at h <;> cases h
        exact .inr ⟨place, n, rfl, hdir, hfile⟩
      · rename_i hn
        refine ih (fun above hpre hne => ?_) h
        rcases prefix_concat_iff.1 hpre with rfl | hpre
        · exact hn
        · exact hdir above hpre hne
      · refine ih ?_ h
        split
        · exact fun _ hpre hne => absurd (prefix_nil.1 hpre) hne
        · exact hdir

/-- More fuel changes nothing where the walk has not given up. -/
theorem walk_add {path : List (Step ν)} {result : Except WalkError (List ν)}
    (h : walk tree fuel place path = result) (hlong : result ≠ .error .tooLong) (more : ℕ) :
    walk tree (fuel + more) place path = result := by
  induction fuel generalizing place path with
  | zero => exact absurd h.symm hlong
  | succ fuel ih =>
    rw [Nat.add_right_comm]
    match path with
    | [] => exact h
    | .up :: rest => exact ih h
    | .name n :: rest =>
      rw [walk] at h ⊢
      split at h
      · exact h
      · exact h
      · exact ih h
      · exact ih h

/-- **A walk goes on from where its first part leads**, or that is a file. -/
theorem walk_append {front back : List (Step ν)} {fuel' : ℕ}
    {result : Except WalkError (List ν)} (hfront : walk tree fuel' place front = .ok real)
    (hresult : walk tree fuel place (front ++ back) = result) (hlong : result ≠ .error .tooLong) :
    (∃ fuel, walk tree fuel real back = result) ∨
      back ≠ [] ∧ real ≠ [] ∧ tree real = some .file := by
  induction fuel generalizing fuel' place front with
  | zero => exact absurd hresult.symm hlong
  | succ fuel ih =>
    cases fuel' with
    | zero => cases hfront
    | succ fuel' =>
      match front with
      | [] =>
        cases hfront
        exact .inl ⟨fuel + 1, hresult⟩
      | .up :: rest =>
        rw [cons_append, walk] at hresult
        rw [walk] at hfront
        exact ih hfront hresult
      | .name n :: rest =>
        rw [cons_append, walk] at hresult
        rw [walk] at hfront
        split at hfront
        · cases hfront
        · rename_i hfile
          rw [hfile] at hresult
          split at hfront
          · rename_i hrest
            obtain rfl := isEmpty_iff.1 hrest
            cases hfront
            by_cases hback : back = []
            · subst hback
              exact .inl ⟨1, hresult⟩
            · exact .inr ⟨hback, by simp, hfile⟩
          · cases hfront
        · rename_i hdir
          rw [hdir] at hresult
          exact ih hfront hresult
        · rename_i hlink
          rw [hlink] at hresult
          simp only [← append_assoc] at hresult
          exact ih hfront hresult

theorem walk_dir {names : List ν} {back : List (Step ν)} {there : List ν}
    (hdir : IsDir tree (place ++ names))
    (h : walk tree fuel place (names.map .name ++ back) = .ok there) :
    ∃ fuel, walk tree fuel (place ++ names) back = .ok there := by
  induction names generalizing fuel place with
  | nil => exact ⟨fuel, by simpa using h⟩
  | cons n names ih =>
    rw [append_cons] at hdir ⊢
    cases fuel with
    | zero => cases h
    | succ fuel =>
      have hn := (hdir.of_isPrefix (prefix_append (place ++ [n]) names)) _ prefix_rfl (by simp)
      rw [map_cons, cons_append, walk, hn] at h
      exact ih hdir h

/-- **The path of a real place leads there and nowhere else**, and goes on from there. -/
theorem walk_real {back : List (Step ν)} {there : List ν} (hreal : IsReal tree real)
    (h : walk tree fuel [] (real.map .name ++ back) = .ok there) :
    (back = [] → there = real) ∧ (back ≠ [] → IsDir tree real ∧
      ∃ fuel, walk tree fuel real back = .ok there) := by
  rcases hreal with hdir | ⟨dir, n, rfl, hdir, hfile⟩
  · obtain ⟨fuel, hwalk⟩ := walk_dir (show IsDir tree ([] ++ real) from hdir) h
    refine ⟨fun hback => ?_, fun _ => ⟨hdir, fuel, hwalk⟩⟩
    subst hback
    cases fuel with
    | zero => cases hwalk
    | succ fuel => exact (Except.ok.inj hwalk).symm
  · rw [map_append, append_assoc] at h
    obtain ⟨fuel, hwalk⟩ := walk_dir (show IsDir tree ([] ++ dir) from hdir) h
    cases fuel with
    | zero => cases hwalk
    | succ fuel =>
      simp only [nil_append, map_cons, map_nil, cons_append, walk, hfile] at hwalk
      split at hwalk
      · rename_i hback
        exact ⟨fun _ => (Except.ok.inj hwalk).symm, fun hne => absurd (isEmpty_iff.1 hback) hne⟩
      · cases hwalk

/-- **What is not found behind a link is not found behind the place it leads to.** -/
theorem walk_behind {front back : List (Step ν)} {fuel' fuel'' : ℕ} {there : List ν}
    {error : WalkError} (hfront : walk tree fuel [] front = .ok real)
    (hfail : walk tree fuel' [] (front ++ back) = .error error) (hlong : error ≠ .tooLong) :
    walk tree fuel'' [] (real.map .name ++ back) ≠ .ok there := by
  intro h
  have hroot : IsDir tree [] := fun _ hpre hne => absurd (prefix_nil.1 hpre) hne
  have hlong' : (.error error : Except WalkError (List ν)) ≠ .error .tooLong :=
    fun heq => hlong (Except.error.inj heq)
  have hreal := walk_isReal hroot hfront
  rcases walk_append hfront hfail hlong' with ⟨n, hn⟩ | ⟨hback, hne, hfile⟩
  · by_cases hback : back = []
    · subst hback
      cases n with
      | zero => exact hlong' hn.symm
      | succ n => cases hn
    · obtain ⟨-, m, hm⟩ := (walk_real hreal h).2 hback
      have hsame := (walk_add hn hlong' m).symm.trans (Nat.add_comm m n ▸ walk_add hm (by simp) n)
      cases hsame
  · cases (((walk_real hreal h).2 hback).1 real prefix_rfl hne).symm.trans hfile

end LibLinks
