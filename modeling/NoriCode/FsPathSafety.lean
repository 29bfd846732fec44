/-
**Paths that stay in the working directory.**

The file service takes a relative path, resolves it against the real working directory and follows
the links of its longest part that exists.  What comes out must lie in the working directory, which
is decided on the text of the path that leads there.

The module embeds `services/fs/fsPathSafety.ts`, for POSIX paths.  `fs.realpath` is a walk through a
tree with links, which the operating system gives up after some steps.

Main definitions:

* `FileSystem` — a tree with links, with `realpath`;
* `resolveSafePath` — the location of a path, and its relative form.

Main results:

* `isInsideOrEqual_iff` — what the comparison of texts decides;
* `resolveSafePath_spec` — **what is returned leads into the working directory, and what
  leads there is returned exactly if its relative form does not begin with two dots**.
-/

import NoriCode.LibLinks
import NoriCode.LibSegments

namespace NoriCode

open LibLinks LibSegments List

/-! ### Paths -/

/-- A name of a file or directory. -/
abbrev FileName := {name : List Char // Proper '/' '.' name}

/-- What a segment of a path means: an empty one and a dot mean nothing. -/
def stepOf (segment : List Char) : Option (Step FileName) :=
  if h : Proper '/' '.' segment then some (.name ⟨segment, h⟩)
  else if segment = ['.', '.'] then some .up
  else none

def steps (path : List Char) : List (Step FileName) := (LibSegments.split '/' path).filterMap stepOf

/-- `path.resolve` -/
def pathResolve (directory : List FileName) (path : List Char) : List FileName :=
  (steps path).foldl (fun
    | place, .up => place.dropLast
    | place, .name n => place ++ [n]) directory

/-- The segments of `path.relative`. -/
def pathRelative : List FileName → List FileName → List (List Char)
  | p :: parent, c :: child =>
    if p = c then pathRelative parent child
    else (p :: parent).map (fun _ => ['.', '.']) ++ (c :: child).map Subtype.val
  | parent, child => parent.map (fun _ => ['.', '.']) ++ child.map Subtype.val

structure FileSystem where
  tree : LibLinks.Tree FileName
  /-- The steps after which the operating system gives up. -/
  limit : ℕ

def FileSystem.realpath (fs : FileSystem) (path : List (Step FileName)) :
    Except WalkError (List FileName) :=
  walk fs.tree fs.limit [] path

/-! ### The service -/

inductive FsPathEscapesReason
  | empty
  | absolute
  | dotdotSegment
  | resolvedOutsideCwd
  | symlinkOutsideCwd
  deriving DecidableEq

inductive SafePathError
  | escapes (reason : FsPathEscapesReason) (detail : Option (List FileName))
  | fs (error : WalkError)
  deriving DecidableEq

structure PathSafetyResult where
  absolute : List FileName
  relative : List Char
  deriving DecidableEq

def isInsideOrEqual (child parent : List FileName) : Bool :=
  let rel := join '/' (pathRelative parent child)
  if rel = [] then true
  else if ['.', '.'].isPrefixOf rel then false
  else if ['/'].isPrefixOf rel then false
  else true

def toPosixRelative (cwd absolute : List FileName) : List Char :=
  if absolute = cwd then ['.']
  else
    let rel := join '/' (pathRelative cwd absolute)
    if rel = [] then ['.'] else rel

/-- The loop, from the whole path upwards; what was cut off stands behind. -/
def longestExistingFrom (fs : FileSystem) :
    ℕ → List FileName → List FileName → Except WalkError (List FileName)
  | 0, current, tail => .ok (current ++ tail)
  | i + 1, current, tail =>
    match fs.realpath (current.map .name) with
    | .ok real => .ok (real ++ tail)
    | .error .tooLong => .error .tooLong
    | .error _ =>
      match current.getLast? with
      | none => .ok (current ++ tail)
      | some name => longestExistingFrom fs i current.dropLast (name :: tail)

def realpathLongestExistingPrefix (fs : FileSystem) (target : List FileName) :
    Except WalkError (List FileName) :=
  longestExistingFrom fs 4096 target []

/-- Two dots between slashes or backslashes. -/
def hasDotDotSegment (inputPath : List Char) : Bool :=
  (LibSegments.split '/' (inputPath.map fun c => if c = '\\' then '/' else c)).contains ['.', '.']

def resolveSafePath (fs : FileSystem) (cwd inputPath : List Char) :
    Except SafePathError PathSafetyResult :=
  if inputPath = [] ∨ inputPath = ['/'] then .error (.escapes .empty none)
  else if inputPath.head? = some '/' then .error (.escapes .absolute none)
  else if hasDotDotSegment inputPath then .error (.escapes .dotdotSegment none)
  else match fs.realpath (steps cwd) with
    | .error error => .error (.fs error)
    | .ok realCwd =>
      let candidate := pathResolve realCwd inputPath
      match realpathLongestExistingPrefix fs candidate with
      | .error error => .error (.fs error)
      | .ok resolved =>
        if isInsideOrEqual resolved realCwd then
          .ok ⟨resolved, toPosixRelative realCwd resolved⟩
        else
          .error (.escapes (if isInsideOrEqual candidate realCwd then .symlinkOutsideCwd
            else .resolvedOutsideCwd) (some resolved))

/-! ### The comparison -/

variable {parent child : List FileName}

theorem pathRelative_append (parent rest : List FileName) :
    pathRelative parent (parent ++ rest) = rest.map Subtype.val := by
  induction parent with
  | nil => cases rest <;> rfl
  | cons p parent ih => rw [cons_append, pathRelative, if_pos rfl, ih]

theorem pathRelative_outside (h : ¬ parent <+: child) :
    ∃ rest, pathRelative parent child = ['.', '.'] :: rest := by
  induction parent generalizing child with
  | nil => exact absurd nil_prefix h
  | cons p parent ih =>
    cases child with
    | nil => exact ⟨_, rfl⟩
    | cons c child =>
      by_cases hpc : p = c
      · subst hpc
        obtain ⟨rest, hrest⟩ := ih fun hpre => h (cons_prefix_cons.2 ⟨rfl, hpre⟩)
        exact ⟨rest, by rw [pathRelative, if_pos rfl, hrest]⟩
      · exact ⟨_, by rw [pathRelative, if_neg hpc]; rfl⟩

/-- A path of names begins with a character that is no slash. -/
theorem join_names (n : FileName) (rest : List FileName) :
    ∃ c text, join '/' ((n :: rest).map Subtype.val) = c :: text ∧ c ≠ '/' := by
  obtain ⟨name, hname⟩ := n
  obtain ⟨c, text, rfl⟩ := exists_cons_of_ne_nil hname.nonempty
  have hc : c ≠ '/' := fun heq => hname.no_sep (heq ▸ .head _)
  cases rest with
  | nil => exact ⟨c, text, by simp [join], hc⟩
  | cons next rest => exact ⟨c, _, by rw [map_cons, join_cons (by simp)]; rfl, hc⟩

/-- **What the comparison decides:** the child is below the parent, on a path that does not begin
with two dots. -/
theorem isInsideOrEqual_iff : isInsideOrEqual child parent = true ↔
    ∃ rest, child = parent ++ rest ∧ ¬ ['.', '.'] <+: join '/' (rest.map Subtype.val) := by
  unfold isInsideOrEqual
  by_cases hpre : parent <+: child
  · obtain ⟨rest, rfl⟩ := hpre
    have hrest : (∃ rest', parent ++ rest = parent ++ rest' ∧
        ¬ ['.', '.'] <+: join '/' (rest'.map Subtype.val)) ↔
        ¬ ['.', '.'] <+: join '/' (rest.map Subtype.val) :=
      ⟨fun ⟨_, heq, h⟩ => append_cancel_left heq ▸ h, fun h => ⟨rest, rfl, h⟩⟩
    rw [hrest, pathRelative_append]
    cases rest with
    | nil => simp [join]
    | cons n rest =>
      obtain ⟨c, text, htext, hc⟩ := join_names n rest
      rw [htext]
      simp [hc.symm, imp_iff_not_or]
  · obtain ⟨rest, hrest⟩ := pathRelative_outside hpre
    have hdots : ['.', '.'] <+: join '/' (['.', '.'] :: rest) := by
      cases rest with
      | nil => simp [join]
      | cons next rest =>
        rw [join_cons (cons_ne_nil _ _)]
        exact prefix_append _ _
    have hne : join '/' (['.', '.'] :: rest) ≠ [] := fun hnil => by simp [hnil] at hdots
    rw [hrest]
    simp only [hne, if_false, isPrefixOf_iff_prefix.2 hdots, if_true]
    refine iff_of_false (by simp) ?_
    rintro ⟨below, rfl, -⟩
    exact hpre (prefix_append _ _)

/-! ### The longest part that exists -/

variable {fs : FileSystem} {candidate resolved real : List FileName}

/-- **What the loop finds leads nowhere else.** When something was cut off, the whole path was
tried before. -/
theorem longestExistingFrom_real {i : ℕ} {current tail there : List FileName}
    (h : longestExistingFrom fs i current tail = .ok resolved)
    (htried : (tail = [] ∧ i ≠ 0) ∨ ∃ error,
      fs.realpath ((current ++ tail).map .name) = .error error ∧ error ≠ .tooLong)
    (hthere : fs.realpath (resolved.map .name) = .ok there) : there = resolved := by
  induction i generalizing current tail with
  | zero =>
    obtain ⟨error, herror, -⟩ := htried.resolve_left fun h => h.2 rfl
    cases h
    cases herror.symm.trans hthere
  | succ i ih =>
    rw [longestExistingFrom] at h
    split at h
    · rename_i real hreal
      cases h
      have hroot : IsDir fs.tree [] := fun _ hpre hne => absurd (prefix_nil.1 hpre) hne
      rcases htried with ⟨rfl, -⟩ | ⟨error, herror, hlong⟩
      · rw [append_nil] at hthere ⊢
        rw [← append_nil (map _ real)] at hthere
        exact (walk_real (walk_isReal hroot hreal) hthere).1 rfl
      · rw [map_append] at herror hthere
        exact absurd hthere (walk_behind hreal herror hlong)
    · cases h
    · rename_i error hlong hcurrent
      have htried' : ∃ error, fs.realpath ((current ++ tail).map .name) = .error error ∧
          error ≠ .tooLong := by
        rcases htried with ⟨rfl, -⟩ | htried
        · exact ⟨error, by rwa [append_nil], hlong⟩
        · exact htried
      split at h
      · obtain ⟨error, herror, -⟩ := htried'
        cases h
        cases herror.symm.trans hthere
      · rename_i name hlast
        refine ih h (.inr ?_)
        rwa [append_cons, dropLast_append_getLast? name hlast]

/-- **The location of a path that exists** is the place it leads to. -/
theorem realpathLongestExistingPrefix_of_ok (h : fs.realpath (candidate.map .name) = .ok real) :
    realpathLongestExistingPrefix fs candidate = .ok real := by
  unfold realpathLongestExistingPrefix
  rw [longestExistingFrom, h]
  simp

/-! ### The service keeps to the working directory -/

/-- **What is returned leads into the working directory**, if it leads anywhere. A path without two
dots that leads into it is returned, with its location and its relative form, exactly if that form
does not begin with two dots. -/
theorem resolveSafePath_spec (fs : FileSystem) (cwd inputPath : List Char) :
    (∀ result, resolveSafePath fs cwd inputPath = .ok result →
      ∃ realCwd, fs.realpath (steps cwd) = .ok realCwd ∧
        ∀ target, fs.realpath (result.absolute.map .name) = .ok target → realCwd <+: target) ∧
    (∀ realCwd rest, inputPath ≠ [] → inputPath.head? ≠ some '/' →
      hasDotDotSegment inputPath = false → fs.realpath (steps cwd) = .ok realCwd →
      fs.realpath ((pathResolve realCwd inputPath).map .name) = .ok (realCwd ++ rest) →
      (resolveSafePath fs cwd inputPath = .ok ⟨realCwd ++ rest,
          if rest = [] then ['.'] else join '/' (rest.map Subtype.val)⟩ ↔
        ¬ ['.', '.'] <+: join '/' (rest.map Subtype.val))) := by
  constructor
  · intro result h
    unfold resolveSafePath at h
    split_ifs at h
    split at h
    · cases h
    · rename_i realCwd hcwd
      dsimp only at h
      split at h
      · cases h
      · rename_i resolved hresolved
        split at h <;> cases h
        rename_i hinside
        refine ⟨realCwd, hcwd, fun target htarget => ?_⟩
        obtain rfl := longestExistingFrom_real hresolved (.inl ⟨rfl, by decide⟩) htarget
        obtain ⟨rest, rfl, -⟩ := isInsideOrEqual_iff.1 hinside
        exact prefix_append _ _
  · intro realCwd rest hne hrelative hdots hcwd htarget
    have hslash : inputPath ≠ ['/'] := by
      rintro rfl
      exact hrelative rfl
    have hinside : isInsideOrEqual (realCwd ++ rest) realCwd = true ↔
        ¬ ['.', '.'] <+: join '/' (rest.map Subtype.val) := by
      rw [isInsideOrEqual_iff]
      exact ⟨fun ⟨_, heq, h⟩ => append_cancel_left heq ▸ h, fun h => ⟨rest, rfl, h⟩⟩
    have hform : toPosixRelative realCwd (realCwd ++ rest) =
        if rest = [] then ['.'] else join '/' (rest.map Subtype.val) := by
      unfold toPosixRelative
      rw [pathRelative_append]
      cases rest with
      | nil => simp
      | cons n rest =>
        obtain ⟨c, text, htext, -⟩ := join_names n rest
        have hjoin : join '/' ((n :: rest).map Subtype.val) ≠ [] := htext ▸ cons_ne_nil c text
        rw [if_neg (by simp), if_neg (cons_ne_nil n rest)]
        exact if_neg hjoin
    unfold resolveSafePath
    rw [if_neg (by simp [hne, hslash]), if_neg hrelative, if_neg (by simp [hdots]), hcwd]
    dsimp only
    rw [realpathLongestExistingPrefix_of_ok htarget]
    dsimp only
    rw [← hinside, ← hform]
    constructor
    · intro h
      by_contra hnot
      rw [if_neg hnot] at h
      cases h
    · intro h
      rw [if_pos h]

/-- A directory `/w` with a file in it. -/
def dotsTree : FileSystem where
  tree
    | [w] => if w.val = ['w'] then some .dir else none
    | [w, n] => if w.val = ['w'] ∧ n.val = ['.', '.', 'a'] then some .file else none
    | _ => none
  limit := 40

/-- **A name that begins with two dots** is refused. -/
theorem resolveSafePath_dots :
    let w : FileName := ⟨['w'], by decide⟩
    let file : FileName := ⟨['.', '.', 'a'], by decide⟩
    dotsTree.realpath (steps ['/', 'w']) = .ok [w] ∧
    dotsTree.realpath ((pathResolve [w] file.val).map .name) = .ok [w, file] ∧
    resolveSafePath dotsTree ['/', 'w'] file.val =
      .error (.escapes .resolvedOutsideCwd (some [w, file])) := by
  decide

end NoriCode
