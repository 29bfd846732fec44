/-
**What a tool call touches.**

A tool call declares the files it reads, writes or searches, or that it may touch anything.  Two
calls conflict when one of them may touch anything, or when one writes what the other one reads or
writes: the same path, or a path below a tree.

The module embeds `loop/tool-access.ts`.  Paths are compared without regard to case; the lower case
of a string is what JavaScript makes of it, and a parameter here.

Main definitions:

* `ToolResourceAccess`, `ToolAccesses` — the accesses of a call;
* `ToolAccesses.conflict` — whether two calls conflict.

Main results:

* `ToolAccesses.conflict_comm` — the order of the two calls does not matter.
-/

import NoriCode.JsText

namespace NoriCode

inductive ToolFileAccessOperation where
  | read
  | write
  | readwrite
  | search
  deriving DecidableEq

structure ToolFileAccess where
  operation : ToolFileAccessOperation
  path : String
  recursive : Bool := false

/-- One access: a file, or anything. -/
inductive ToolResourceAccess where
  | file (access : ToolFileAccess)
  | all

abbrev ToolAccesses := List ToolResourceAccess

namespace ToolAccesses

def none : ToolAccesses := []

def all : ToolAccesses := [.all]

def file (operation : ToolFileAccessOperation) (path : String) (recursive : Bool := false) :
    ToolAccesses :=
  [.file { operation, path, recursive }]

def readFile (path : String) : ToolAccesses := file .read path

def readTree (path : String) : ToolAccesses := file .read path true

def writeFile (path : String) : ToolAccesses := file .write path

def writeTree (path : String) : ToolAccesses := file .write path true

def readWriteFile (path : String) : ToolAccesses := file .readwrite path

def readWriteTree (path : String) : ToolAccesses := file .readwrite path true

def searchTree (path : String) : ToolAccesses := file .search path true

end ToolAccesses

/-! ### Paths -/

/-- `replaceAll(/\/+/g, '/')`: runs of slashes become one slash. -/
def collapseSlashes : List Char → List Char
  | '/' :: '/' :: rest => collapseSlashes ('/' :: rest)
  | c :: rest => c :: collapseSlashes rest
  | [] => []

/-- A path without its last character, when that is a slash and not all of it. -/
def dropTrailingSlash (path : String) : String :=
  if path.toList.length > 1 ∧ path.toList.getLast? = some '/' then
    String.ofList path.toList.dropLast
  else path

section

variable (toLowerCase : String → String)

def normalizePath (path : String) : String :=
  dropTrailingSlash (toLowerCase (String.ofList
    (collapseSlashes (path.toList.map fun c => if c = '\\' then '/' else c))))

/-- What the paths below a path start with. -/
def pathPrefix (path : String) : String :=
  if path.toList.getLast? = some '/' then path else path ++ "/"

/-! ### Conflicts -/

def fileOperationWrites : ToolFileAccessOperation → Bool
  | .read | .search => false
  | .write | .readwrite => true

def fileOperationsConflict (left right : ToolFileAccessOperation) : Bool :=
  fileOperationWrites left || fileOperationWrites right

def fileAccessesOverlap (left right : ToolFileAccess) : Bool :=
  let leftPath := normalizePath toLowerCase left.path
  let rightPath := normalizePath toLowerCase right.path
  if leftPath = rightPath then true
  else
    (left.recursive && startsWith rightPath (pathPrefix leftPath)) ||
      (right.recursive && startsWith leftPath (pathPrefix rightPath))

def resourceAccessesConflict : ToolResourceAccess → ToolResourceAccess → Bool
  | .file left, .file right =>
    if fileOperationsConflict left.operation right.operation then
      fileAccessesOverlap toLowerCase left right
    else false
  | _, _ => true

/-- **Two calls conflict** when an access of the one conflicts with an access of the other. -/
def ToolAccesses.conflict (left right : ToolAccesses) : Bool :=
  left.any fun leftAccess => right.any fun rightAccess =>
    resourceAccessesConflict toLowerCase leftAccess rightAccess

theorem fileOperationsConflict_comm (left right : ToolFileAccessOperation) :
    fileOperationsConflict left right = fileOperationsConflict right left :=
  Bool.or_comm _ _

theorem fileAccessesOverlap_comm (left right : ToolFileAccess) :
    fileAccessesOverlap toLowerCase left right = fileAccessesOverlap toLowerCase right left := by
  unfold fileAccessesOverlap
  by_cases h : normalizePath toLowerCase left.path = normalizePath toLowerCase right.path
  · rw [if_pos h, if_pos h.symm]
  · rw [if_neg h, if_neg (Ne.symm h), Bool.or_comm]

theorem resourceAccessesConflict_comm (left right : ToolResourceAccess) :
    resourceAccessesConflict toLowerCase left right =
      resourceAccessesConflict toLowerCase right left := by
  cases left with
  | all => cases right <;> rfl
  | file left =>
    cases right with
    | all => rfl
    | file right =>
      simp only [resourceAccessesConflict]
      rw [fileOperationsConflict_comm, fileAccessesOverlap_comm]

theorem ToolAccesses.conflict_iff (left right : ToolAccesses) :
    ToolAccesses.conflict toLowerCase left right = true ↔
      ∃ a ∈ left, ∃ b ∈ right, resourceAccessesConflict toLowerCase a b = true := by
  simp [ToolAccesses.conflict]

theorem ToolAccesses.conflict_comm (left right : ToolAccesses) :
    ToolAccesses.conflict toLowerCase left right =
      ToolAccesses.conflict toLowerCase right left := by
  refine Bool.eq_iff_iff.2 ?_
  rw [conflict_iff, conflict_iff]
  constructor
  · rintro ⟨a, ha, b, hb, hab⟩
    exact ⟨b, hb, a, ha, by rwa [resourceAccessesConflict_comm]⟩
  · rintro ⟨b, hb, a, ha, hba⟩
    exact ⟨a, ha, b, hb, by rwa [resourceAccessesConflict_comm]⟩

end

/-- A tree conflicts with what is below it, however the path is written. -/
example :
    ToolAccesses.conflict id (.writeTree "/repo/src/") (.readFile "/repo//src\\a.ts") = true := by
  decide +kernel

end NoriCode
