/-
**The guard of the file tools.**

The path that a file tool is given is made canonical without looking at the file system: a home
directory is filled in, a relative path is resolved against the workspace, and dots are carried out.
A path that looks like a secret is refused, and so is a relative path that leads out of all roots of
the workspace, unless the policy has disabled this guard.  Whether a path is within a directory is
decided on the texts of the normalized paths, on Windows without regard to letter case.

The module embeds `tools/policies/path-access.ts`, beside `PathGlobMatch`, and `isSensitiveFile` of
`tools/policies/sensitive.ts`.  The functions of pathe are parameters, and so is `toLowerCase`.

Main definitions:

* `PathAccess.resolvePathAccess`, `PathAccess.resolvePathAccessPath`;
* `PathAccess.isWithinDirectory`;
* `LexicalPathe` — what is assumed of pathe;
* `PathAccess.Within` — a directory or what lies below it, by whole components.

Main results:

* `PathAccess.isWithinDirectory_iff` — what the comparison of texts decides;
* `PathAccess.resolvePathAccessPath_spec` — **paths that are let through are canonical, and
  relative ones stay in the workspace**.
-/

import NoriCode.LibSegments
import NoriCode.PathGlobMatch

namespace NoriCode

open LibSegments

inductive PathSecurityCode
  | pathOutsideWorkspace
  | pathSensitive
  | pathInvalid
  deriving DecidableEq

inductive PathAccessOperation
  | read
  | write
  | search

inductive WorkspaceGuardMode
  | absoluteOutsideAllowed
  | disabled
  deriving DecidableEq

structure WorkspaceAccessPolicy where
  guardMode : WorkspaceGuardMode
  checkSensitive : Bool

/-- `DEFAULT_WORKSPACE_ACCESS_POLICY`. -/
def defaultWorkspaceAccessPolicy : WorkspaceAccessPolicy := ⟨.absoluteOutsideAllowed, true⟩

structure PathAccess where
  path : List Char
  outsideWorkspace : Bool

structure PathSecurityError where
  code : PathSecurityCode
  rawPath : List Char
  canonicalPath : List Char
  message : String
  deriving DecidableEq

structure WorkspaceConfig where
  workspaceDir : List Char
  additionalDirs : List (List Char)

def WorkspaceConfig.roots (config : WorkspaceConfig) : List (List Char) :=
  config.workspaceDir :: config.additionalDirs

structure ResolvePathAccessOptions where
  operation : PathAccessOperation
  policy : Option WorkspaceAccessPolicy
  pathClass : PathClass
  homeDir : Option (List Char)

/-- The options, with what is read of the `kaos`: its path class and its home directory. -/
structure ResolvePathAccessPathOptions where
  pathClass : PathClass
  gethome : List Char
  workspace : WorkspaceConfig
  operation : PathAccessOperation
  policy : Option WorkspaceAccessPolicy := none
  expandHome : Bool := true

namespace PathAccess

/-! ### Secrets -/

def sensitiveBasenames : List (List Char) :=
  [".env".toList, "id_rsa".toList, "id_ed25519".toList, "id_ecdsa".toList, "credentials".toList]

/-- `SENSITIVE_PATH_SUFFIXES`, joined. -/
def sensitivePathSuffixes : List (List Char) :=
  [".aws/credentials".toList, ".gcp/credentials".toList]

def envExemptions : List (List Char) :=
  [".env.example".toList, ".env.sample".toList, ".env.template".toList]

def sensitiveBasenamePrefixes : List (List Char) :=
  ["id_rsa".toList, "id_ed25519".toList, "id_ecdsa".toList, "credentials".toList]

def publicKeyBasenames : List (List Char) :=
  ["id_rsa.pub".toList, "id_ed25519.pub".toList, "id_ecdsa.pub".toList]

def sensitiveDotVariantSuffixes : List (List Char) :=
  [".bak".toList, ".backup".toList, ".copy".toList, ".disabled".toList, ".key".toList,
    ".old".toList, ".orig".toList, ".pem".toList, ".save".toList, ".tmp".toList]

/-- The name of a secret, or a variant of it. -/
def isVariantOf (comparableName start : List Char) : Bool :=
  decide (comparableName = start) ||
    (start.isPrefixOf comparableName &&
      match comparableName.drop start.length with
      | [] => false
      | next :: rest =>
        next == '-' || next == '_' ||
          (next == '.' && sensitiveDotVariantSuffixes.contains (next :: rest)))

def isSensitiveFile (basename toLowerCase : List Char → List Char) (path : List Char) : Bool :=
  let comparableName := toLowerCase (basename path)
  let comparablePath := toLowerCase path
  if envExemptions.contains comparableName then false
  else if publicKeyBasenames.contains comparableName then false
  else if sensitiveBasenames.contains comparableName then true
  else if ".env.".toList.isPrefixOf comparableName then true
  else if sensitiveBasenamePrefixes.any (isVariantOf comparableName) then true
  else sensitivePathSuffixes.any fun suffix =>
    let comparableSuffix := toLowerCase suffix
    ('/' :: comparableSuffix).isSuffixOf comparablePath ||
      decide ('/' :: comparableSuffix ++ ['/'] <:+: comparablePath)

/-! ### The guard -/

section

variable (pathe : Pathe) (basename toLowerCase : List Char → List Char)

def expandUserPath (path : List Char) (homeDir : Option (List Char)) (pathClass : PathClass) :
    List Char :=
  match homeDir with
  | none => path
  | some home =>
    match path with
    | ['~'] => home
    | '~' :: '/' :: rest => pathe.join home rest
    | '~' :: '\\' :: rest => if pathClass = .win32 then pathe.join home rest else path
    | _ => path

def quoted (path : List Char) : String := "\"" ++ String.ofList path ++ "\""

def canonicalizePath (path cwd : List Char) (pathClass : PathClass) :
    Except PathSecurityError (List Char) :=
  if path = [] then .error ⟨.pathInvalid, path, path, "Path cannot be empty"⟩
  else
    let normalizedPath := normalizeUserPath path pathClass
    if pathClass = .win32 ∧ isWin32DriveRelative normalizedPath = true then
      .error ⟨.pathInvalid, path, normalizedPath,
        quoted path ++ " is a drive-relative Windows path. Use an absolute path like C:\\path " ++
          "or a path relative to the working directory."⟩
    else if pathe.isAbsolute normalizedPath = false ∧ pathe.isAbsolute cwd = false then
      .error ⟨.pathInvalid, path, normalizedPath,
        "Cannot resolve " ++ quoted path ++ " against non-absolute cwd " ++ quoted cwd ++ "."⟩
    else
      let abs :=
        if pathe.isAbsolute normalizedPath then normalizedPath
        else pathe.resolve cwd normalizedPath
      .ok (pathe.normalize abs)

/-- What is compared of a path. -/
def comparable (pathClass : PathClass) (path : List Char) : List Char :=
  let normalized := pathe.normalize path
  if pathClass = .win32 then toLowerCase normalized else normalized

def isWithinDirectory (candidate base : List Char) (pathClass : PathClass) : Bool :=
  let comparableCandidate := comparable pathe toLowerCase pathClass candidate
  let comparableBase := comparable pathe toLowerCase pathClass base
  if comparableCandidate = comparableBase then true
  else
    let start :=
      if comparableBase.getLast? = some '/' then comparableBase else comparableBase ++ ['/']
    start.isPrefixOf comparableCandidate

def isWithinWorkspace (candidate : List Char) (config : WorkspaceConfig) (pathClass : PathClass) :
    Bool :=
  isWithinDirectory pathe toLowerCase candidate config.workspaceDir pathClass ||
    config.additionalDirs.any fun dir => isWithinDirectory pathe toLowerCase candidate dir pathClass

def relativeOutsideMessage (path : List Char) (operation : PathAccessOperation) : String :=
  let verb :=
    match operation with
    | .write => "write or edit a file"
    | .search => "search"
    | .read => "read a file"
  quoted path ++ " is not an absolute path. You must provide an absolute path to " ++ verb ++
    " outside the working directory."

/-- The path with the home directory in it. -/
def expandedPath (path : List Char) (homeDir : Option (List Char)) (pathClass : PathClass) :
    List Char :=
  expandUserPath pathe (normalizeUserPath path pathClass) homeDir pathClass

def resolvePathAccess (path cwd : List Char) (config : WorkspaceConfig)
    (options : ResolvePathAccessOptions) : Except PathSecurityError PathAccess := do
  let expanded := expandedPath pathe path options.homeDir options.pathClass
  let rawIsAbsolute := pathe.isAbsolute expanded
  let canonical ← canonicalizePath pathe expanded cwd options.pathClass
  let outsideWorkspace := !isWithinWorkspace pathe toLowerCase canonical config options.pathClass
  let policy := options.policy.getD defaultWorkspaceAccessPolicy
  if policy.checkSensitive && isSensitiveFile basename toLowerCase canonical then
    .error ⟨.pathSensitive, path, canonical,
      quoted path ++ " matches a sensitive-file pattern (env / credential / SSH key). " ++
        "Access is blocked to protect secrets."⟩
  else if outsideWorkspace && decide (policy.guardMode = .absoluteOutsideAllowed) &&
      !rawIsAbsolute then
    .error ⟨.pathOutsideWorkspace, path, canonical, relativeOutsideMessage path options.operation⟩
  else .ok ⟨canonical, outsideWorkspace⟩

def resolvePathAccessPath (path : List Char) (options : ResolvePathAccessPathOptions) :
    Except PathSecurityError (List Char) := do
  let access ← resolvePathAccess pathe basename toLowerCase path options.workspace.workspaceDir
    options.workspace
    { operation := options.operation
      policy := options.policy
      pathClass := options.pathClass
      homeDir := if options.expandHome then some options.gethome else none }
  return access.path

/-! ### What is let through -/

/-- The path is the directory or lies below it, by whole components. -/
def Within (candidate base : List Char) (pathClass : PathClass) : Prop :=
  components '/' (comparable pathe toLowerCase pathClass base) <+:
    components '/' (comparable pathe toLowerCase pathClass candidate)

end

end PathAccess

/-- What is assumed of pathe: an absolute path stays absolute when it is normalized, has no dots
then, and is not changed again; what is resolved against an absolute path is absolute. -/
structure LexicalPathe (pathe : Pathe) : Prop where
  absolute : ∀ path, pathe.isAbsolute path = true →
    pathe.isAbsolute (pathe.normalize path) = true
  idempotent : ∀ path, pathe.isAbsolute path = true →
    pathe.normalize (pathe.normalize path) = pathe.normalize path
  no_dots : ∀ path, pathe.isAbsolute path = true →
    ∀ segment ∈ split '/' (pathe.normalize path),
      segment ≠ ['.'] ∧ segment ≠ ['.', '.']
  resolve : ∀ cwd path, pathe.isAbsolute cwd = true →
    pathe.isAbsolute (pathe.resolve cwd path) = true

namespace PathAccess

variable {pathe : Pathe} {basename toLowerCase : List Char → List Char}

/-- An absolute path without dots that normalization does not change. -/
structure Canonical (pathe : Pathe) (path : List Char) : Prop where
  absolute : pathe.isAbsolute path = true
  normalized : pathe.normalize path = path
  no_dots : ∀ segment ∈ split '/' path, segment ≠ ['.'] ∧ segment ≠ ['.', '.']

/-- **What the comparison of texts decides**: a path within a directory, apart from the directory
itself when the directory alone has a separator at its end. -/
theorem isWithinDirectory_iff (candidate base : List Char) (pathClass : PathClass) :
    isWithinDirectory pathe toLowerCase candidate base pathClass = true ↔
      Within pathe toLowerCase candidate base pathClass ∧
        comparable pathe toLowerCase pathClass base ≠
          comparable pathe toLowerCase pathClass candidate ++ ['/'] := by
  unfold isWithinDirectory Within
  dsimp only
  generalize comparable pathe toLowerCase pathClass candidate = c
  generalize comparable pathe toLowerCase pathClass base = b
  rw [← components_prefix_iff]
  have hstart : (if b.getLast? = some '/' then b else b ++ ['/']) =
      dropTrailing '/' b ++ ['/'] := by
    unfold dropTrailing
    split
    · rename_i h
      exact (List.dropLast_append_getLast? '/' h).symm
    · rfl
  rw [hstart]
  split
  · rename_i h
    exact iff_of_true rfl (Or.inl h)
  · rename_i h
    rw [List.isPrefixOf_iff_prefix]
    exact (or_iff_right h).symm

theorem canonical_of_canonicalizePath (h : LexicalPathe pathe) {path cwd canonical : List Char}
    {pathClass : PathClass} (hok : canonicalizePath pathe path cwd pathClass = .ok canonical) :
    Canonical pathe canonical := by
  unfold canonicalizePath at hok
  dsimp only at hok
  split_ifs at hok with hempty hdrive hneither habsolute
  · cases hok
    exact ⟨h.absolute _ habsolute, h.idempotent _ habsolute, h.no_dots _ habsolute⟩
  · cases hok
    have hcwd : pathe.isAbsolute cwd = true :=
      Bool.not_eq_false _ ▸ fun hcwd => hneither ⟨Bool.eq_false_iff.2 habsolute, hcwd⟩
    have hresolved := h.resolve cwd (normalizeUserPath path pathClass) hcwd
    exact ⟨h.absolute _ hresolved, h.idempotent _ hresolved, h.no_dots _ hresolved⟩

theorem resolvePathAccess_ok {path cwd : List Char} {config : WorkspaceConfig}
    {options : ResolvePathAccessOptions} {access : PathAccess}
    (hok : resolvePathAccess pathe basename toLowerCase path cwd config options = .ok access) :
    canonicalizePath pathe (expandedPath pathe path options.homeDir options.pathClass) cwd
        options.pathClass = .ok access.path ∧
      (isWithinWorkspace pathe toLowerCase access.path config options.pathClass = true ∨
        (options.policy.getD defaultWorkspaceAccessPolicy).guardMode = .disabled ∨
          pathe.isAbsolute (expandedPath pathe path options.homeDir options.pathClass) = true) := by
  unfold resolvePathAccess at hok
  dsimp only at hok
  generalize expandedPath pathe path options.homeDir options.pathClass = expanded at hok ⊢
  cases hcanonical : canonicalizePath pathe expanded cwd options.pathClass with
  | error e =>
    rw [hcanonical] at hok
    cases hok
  | ok canonical =>
    rw [hcanonical] at hok
    simp only [bind, Except.bind] at hok
    split_ifs at hok with hsensitive houtside
    cases hok
    refine ⟨rfl, ?_⟩
    by_contra hnot
    obtain ⟨hwithin, hnot⟩ := not_or.1 hnot
    obtain ⟨hmode, habsolute⟩ := not_or.1 hnot
    have hallowed : (options.policy.getD defaultWorkspaceAccessPolicy).guardMode =
        .absoluteOutsideAllowed := by
      cases hguard : (options.policy.getD defaultWorkspaceAccessPolicy).guardMode with
      | absoluteOutsideAllowed => rfl
      | disabled => exact absurd hguard hmode
    refine houtside ?_
    rw [Bool.eq_false_iff.2 hwithin, hallowed, Bool.eq_false_iff.2 habsolute]
    rfl

/-- **Paths that are let through are canonical, and relative ones stay in the workspace**: unless
the guard is disabled, a path that is relative with its home directory filled in is one of the
roots or lies below it. A path is found to be within a directory exactly when it is, as long as the
directory is not the path with a separator at its end. -/
theorem resolvePathAccessPath_spec (h : LexicalPathe pathe)
    (basename toLowerCase : List Char → List Char) :
    (∀ (path resolved : List Char) (options : ResolvePathAccessPathOptions),
      resolvePathAccessPath pathe basename toLowerCase path options = .ok resolved →
        Canonical pathe resolved ∧
          ((options.policy.getD defaultWorkspaceAccessPolicy).guardMode = .absoluteOutsideAllowed →
            pathe.isAbsolute (expandedPath pathe path
              (if options.expandHome then some options.gethome else none)
              options.pathClass) = false →
            ∃ root ∈ options.workspace.roots,
              Within pathe toLowerCase resolved root options.pathClass)) ∧
      ∀ (candidate base : List Char) (pathClass : PathClass),
        comparable pathe toLowerCase pathClass base ≠
            comparable pathe toLowerCase pathClass candidate ++ ['/'] →
          (isWithinDirectory pathe toLowerCase candidate base pathClass = true ↔
            Within pathe toLowerCase candidate base pathClass) := by
  refine ⟨fun path resolved options hok => ?_, fun candidate base pathClass hne => ?_⟩
  · unfold resolvePathAccessPath at hok
    obtain ⟨access, haccess, rfl⟩ : ∃ access, resolvePathAccess pathe basename toLowerCase path
        options.workspace.workspaceDir options.workspace _ = .ok access ∧
          access.path = resolved := by
      cases haccess : resolvePathAccess pathe basename toLowerCase path
          options.workspace.workspaceDir options.workspace _ with
      | error e =>
        rw [haccess] at hok
        cases hok
      | ok access =>
        rw [haccess] at hok
        cases hok
        exact ⟨access, haccess, rfl⟩
    obtain ⟨hcanonical, hgrounds⟩ := resolvePathAccess_ok haccess
    refine ⟨canonical_of_canonicalizePath h hcanonical, fun hmode hrelative => ?_⟩
    rcases hgrounds with hwithin | hdisabled | habsolute
    · unfold isWithinWorkspace at hwithin
      rcases Bool.or_eq_true_iff.1 hwithin with hdir | hdirs
      · exact ⟨_, List.mem_cons_self, ((isWithinDirectory_iff ..).1 hdir).1⟩
      · obtain ⟨root, hroot, hdir⟩ := List.any_eq_true.1 hdirs
        exact ⟨root, List.mem_cons_of_mem _ hroot, ((isWithinDirectory_iff ..).1 hdir).1⟩
    · rw [hmode] at hdisabled
      cases hdisabled
    · rw [hrelative] at habsolute
      cases habsolute
  · rw [isWithinDirectory_iff]
    exact and_iff_left hne

/-! ### A concrete pathe -/

/-- Pathe for paths with forward slashes; a relative path is only put behind another one. -/
def slashPathe : Pathe where
  isAbsolute path := decide (path.head? = some '/')
  normalize path :=
    if path.head? = some '/' then normalize '/' '.' path else path
  resolve cwd path := if path.head? = some '/' then path else cwd ++ '/' :: path
  join dir path := dir ++ '/' :: path

theorem slashPathe_lexical : LexicalPathe slashPathe := by
  have hnormalize : ∀ path, slashPathe.isAbsolute path = true →
      slashPathe.normalize path = normalize '/' '.' path := fun path h =>
    if_pos (of_decide_eq_true h)
  have habsolute : ∀ path, slashPathe.isAbsolute (normalize '/' '.' path) = true := fun path =>
    decide_eq_true (head?_normalize path)
  refine ⟨fun path h => ?_, fun path h => ?_, fun path h => ?_, fun cwd path h => ?_⟩
  · rw [hnormalize path h]
    exact habsolute path
  · rw [hnormalize path h, hnormalize _ (habsolute path), normalize_normalize]
  · rw [hnormalize path h]
    exact normalize_no_dots path
  · refine decide_eq_true ?_
    change (if path.head? = some '/' then path else cwd ++ '/' :: path).head? = some '/'
    split
    · assumption
    · rw [List.head?_append, of_decide_eq_true h]
      rfl

/-- A workspace with one more root. -/
def exampleOptions : ResolvePathAccessPathOptions where
  pathClass := .posix
  gethome := "/home/me".toList
  workspace := ⟨"/work".toList, ["/extra".toList]⟩
  operation := .read

def exampleRun (path : String) (options : ResolvePathAccessPathOptions) :
    Except PathSecurityError (List Char) :=
  resolvePathAccessPath slashPathe (fun path => path) (·.map Char.toLower) path.toList options

theorem resolvePathAccessPath_spec_example :
    exampleRun "src/../../extra/./a.ts" exampleOptions = .ok "/extra/a.ts".toList ∧
      ∃ root ∈ exampleOptions.workspace.roots,
        Within slashPathe (·.map Char.toLower) "/extra/a.ts".toList root .posix := by
  have hrun : exampleRun "src/../../extra/./a.ts" exampleOptions = .ok "/extra/a.ts".toList := by
    decide
  exact ⟨hrun, ((resolvePathAccessPath_spec slashPathe_lexical (fun path => path)
    (·.map Char.toLower)).1 _ _ _ hrun).2 rfl (by decide)⟩

/-- Without the guard a relative path leads out of the workspace, `~` leads to the home directory,
Windows paths are within a directory in other letters, and a directory is not within itself when it
alone has a separator at its end. -/
theorem resolvePathAccessPath_limits :
    exampleRun "../x" { exampleOptions with policy := some ⟨.disabled, true⟩ } = .ok "/x".toList ∧
      exampleRun "~/x" exampleOptions = .ok "/home/me/x".toList ∧
      isWithinDirectory slashPathe (·.map Char.toLower) "/Work/a".toList "/work".toList .win32 =
        true ∧
      isWithinDirectory slashPathe (·.map Char.toLower) "/work".toList "/work/".toList .posix =
        false := by
  decide

end PathAccess

end NoriCode
