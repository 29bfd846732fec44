/-
**Writes and edits of one file, one at a time.**

Every Write and Edit call of the process runs under a lock for its file, which all agents share.
The name of the file is normalized, so two spellings of one path meet at one lock.  A call learns
whether somebody was there when it came; a full overwrite that had to wait gives up instead of
replacing what it has not seen.

The module embeds `tools/support/file-write-lock.ts` and the `execution` of `builtin/file/write.ts`
and of `builtin/file/edit.ts`.  A call goes from one await to the next, and what it awaits answers
at any time and in any way; other programs change files at any time.  Which file a path names, lower
case letters and SHA-256 are parameters.

Main definitions:

* `lockKey` — the name under which a file is locked;
* `writeExecution`, `react` — what a call does with an answer;
* `FileWrites`, `FileWrites.step` — all calls of the process.

Main results:

* `FileWrites.Ordered.step` — every step keeps the order of effects;
* `FileWrites.run_serialized` — **in every run, calls on one file take effect one at a time
  in the order they came**.
-/

import NoriCode.EditTool
import NoriCode.LibKeyedLock
import NoriCode.LibRun
import NoriCode.ToolAccess

namespace NoriCode

open LibKeyedLock LibUtf8 List Option LibPlaces

/-! ### The name of a lock -/

/-- What the lock reads of a `Kaos`. -/
structure KaosInfo where
  name : List Char
  win32 : Bool

def lockKey (toLowerCase : List Char → List Char) (kaos : KaosInfo) (path : List Char) :
    List Char :=
  let normalizedPath := collapseSlashes (path.map fun c => if c = '\\' then '/' else c)
  let comparablePath := if kaos.win32 then toLowerCase normalizedPath else normalizedPath
  kaos.name ++ ':' :: comparablePath

/-! ### One call -/

inductive WriteMode
  | overwrite
  | append
  deriving DecidableEq

structure WriteInput where
  path : String
  content : List Char
  expectedTag : Option String
  mode : Option WriteMode

inductive FileCall
  | write (args : WriteInput)
  | edit (args : EditInput)

/-- The call is a full overwrite. -/
def FileCall.overwrites : FileCall → Bool
  | .write args => decide (args.mode.getD .overwrite = .overwrite)
  | .edit _ => false

/-- An error that a file operation throws. -/
structure FileError where
  code : Option String
  message : String
  deriving DecidableEq

/-- The answer to an error that was caught. -/
def FileCall.failure (e : FileError) : FileCall → String
  | .write args =>
    if e.code = some "ENOENT" then
      s!"Failed to write {args.path}: parent directory does not exist."
    else e.message
  | .edit args => if e.code = some "EISDIR" then s!"{args.path} is not a file." else e.message

/-- What `writeText` is told to do. -/
inductive Change
  | replace (content : List Char)
  | append (content : List Char)
  deriving DecidableEq

def Change.apply (disk : Option (List Char)) : Change → List Char
  | .replace content => content
  | .append content => disk.getD [] ++ content

inductive CallResult
  | ok (output : String)
  | error (output : String)
  | thrown
  deriving DecidableEq

/-- Where a call stands: what it awaits, or how it ended. -/
inductive Stage
  | parent
  | reading
  | writing (change : Change) (output : String)
  | settled (result : CallResult)
  deriving DecidableEq

/-- A write checks the parent directory first; an edit reads at once. -/
def FileCall.start : FileCall → Stage
  | .write _ => .parent
  | .edit _ => .reading

/-- The rest of a write, once the file has been read as `before`. -/
def writeExecution (sha256 : List UInt8 → String) (args : WriteInput) (waited : Bool)
    (before : List Char) : Stage :=
  let mode := args.mode.getD .overwrite
  let currentTag := computeContentTag sha256 (encode before)
  match args.expectedTag.filter fun tag => currentTag ≠ upperCase tag with
  | some expectedTag =>
    let expected := upperCase expectedTag
    .settled (.error (s!"Write conflict for {args.path}: expected content tag {expected}, " ++
      s!"current content tag {currentTag}. Re-read the file and retry with the new tag."))
  | none =>
    if waited = true ∧ mode = .overwrite then
      .settled (.error (s!"Write conflict for {args.path}: another write completed while this " ++
        s!"request was waiting; current content tag {currentTag}. " ++
        "Re-read the file and retry with the new content tag."))
    else
      let change := if mode = .append then Change.append args.content else .replace args.content
      let bytesWritten := (encode args.content).length
      let after := if mode = .append then before ++ args.content else args.content
      let newTag := computeContentTag sha256 (encode after)
      let word := if mode = .append then "Appended" else "Wrote"
      .writing change (s!"[{args.path}#{newTag}]\n" ++
        s!"{word} {bytesWritten} bytes to {args.path}")

/-- An edit, once the file has been read as `raw`. -/
def editStage (sha256 : List UInt8 → String) (args : EditInput) (raw : List Char) : Stage :=
  match editExecution sha256 args raw with
  | .error output => .settled (.error output)
  | .written content output => .writing (.replace content) output

/-- A call under the lock. Which unfinished calls it found is not kept by the code. -/
structure FileOperation where
  kaos : KaosInfo
  path : List Char
  call : FileCall
  waited : Bool
  queuedBehind : List ℕ
  stage : Stage

/-- What comes back to a call: from the parent directory, from reading, from writing and reporting
the change, or an error that nothing catches. A write that failed leaves anything behind. -/
inductive Reply
  | parentChecked (error : Option String)
  | readDone
  | readFailed (e : FileError)
  | writeDone (reportError : Option FileError)
  | writeFailed (e : FileError) (left : Option (List Char))
  | threw
  deriving DecidableEq

/-- What a call does with an answer, if it awaits one of that kind. -/
def react (sha256 : List UInt8 → String) (op : FileOperation) (disk : Option (List Char))
    (reply : Reply) : Option Stage :=
  match op.stage, reply with
  | .settled _, _ => none
  | _, .threw => some (.settled .thrown)
  | .parent, .parentChecked none => some .reading
  | .parent, .parentChecked (some message) => some (.settled (.error message))
  | .reading, .readDone =>
    disk.map fun raw =>
      match op.call with
      | .write args => writeExecution sha256 args op.waited raw
      | .edit args => editStage sha256 args raw
  | .reading, .readFailed e =>
    match op.call with
    | .write args => some (writeExecution sha256 args op.waited [])
    | .edit _ => some (.settled (.error (op.call.failure e)))
  | .writing _ output, .writeDone none => some (.settled (.ok output))
  | .writing _ _, .writeDone (some e) => some (.settled (.error (op.call.failure e)))
  | .writing _ _, .writeFailed e _ => some (.settled (.error (op.call.failure e)))
  | _, _ => none

/-- What the file holds after an answer, if it was written. -/
def leaves (stage : Stage) (disk : Option (List Char)) : Reply → Option (Option (List Char))
  | .writeDone _ =>
    match stage with
    | .writing change _ => some (some (change.apply disk))
    | _ => none
  | .writeFailed _ left => some left
  | _ => none

/-! ### All calls -/

inductive EffectKind
  | started
  | answered
  | read
  | wrote (overwrite : Bool) (replaced : Option ℕ)
  | finished
  deriving DecidableEq

/-- Something that a call did. -/
structure Effect where
  op : ℕ
  key : List Char
  kind : EffectKind
  deriving DecidableEq

/-- The kind of an answer. Whoever wrote the file last is replaced. -/
def Reply.kind (call : FileCall) (author : Option ℕ) : Reply → EffectKind
  | .readDone => .read
  | .writeDone _ => .wrote call.overwrites author
  | .writeFailed _ _ => .wrote call.overwrites author
  | _ => .answered

/-- The locks and the files. `author` and `effects` keep, for what is said about runs, which call
wrote a file last and what all calls did. -/
structure FileWrites (ν : Type) where
  locks : Locks (List Char) FileOperation := {}
  content : ν → Option (List Char)
  author : ν → Option ℕ := fun _ => none
  effects : List Effect := []

/-- What happens: a call comes, goes on behind another one, gets an answer, leaves the lock; or
another program changes a file. -/
inductive WriteEvent (ν : Type)
  | enter (kaos : KaosInfo) (path : List Char) (call : FileCall)
  | resume (i : ℕ)
  | reply (i : ℕ) (reply : Reply)
  | release (i : ℕ)
  | external (file : ν) (content : Option (List Char))

/-- The unfinished operations with a key. -/
def unfinished (locks : Locks (List Char) FileOperation) (key : List Char) : List ℕ :=
  (List.range locks.ops.length).filter fun i =>
    (locks.ops[i]?).any fun op => decide (op.key = key ∧ op.phase ≠ .finished)

def Stage.isSettled : Stage → Bool
  | .settled _ => true
  | _ => false

variable {sha256 : List UInt8 → String}

theorem writeExecution_writing {args : WriteInput} {waited : Bool}
    {before : List Char} {change : Change} {output : String}
    (h : writeExecution sha256 args waited before = .writing change output)
    (hmode : args.mode.getD .overwrite = .overwrite) : waited = false := by
  unfold writeExecution at h
  dsimp only at h
  split at h
  · cases h
  · cases waited with
    | false => rfl
    | true =>
      rw [if_pos ⟨rfl, hmode⟩] at h
      cases h

theorem react_writing {op : FileOperation}
    {disk : Option (List Char)} {reply : Reply} {change : Change} {output : String}
    (h : react sha256 op disk reply = some (.writing change output))
    (hover : op.call.overwrites = true) : op.waited = false := by
  have hwrite : ∀ (args : WriteInput) (before : List Char), op.call = .write args →
      writeExecution sha256 args op.waited before = .writing change output →
      op.waited = false := by
    intro args before hcall hstage
    rw [hcall] at hover
    exact writeExecution_writing hstage (of_decide_eq_true hover)
  unfold react at h
  split at h
  case h_5 =>
    -- the file has been read
    obtain ⟨raw, -, hstage⟩ := map_eq_some_iff.1 h
    cases hcall : op.call with
    | write args =>
      rw [hcall] at hstage
      exact hwrite args raw hcall hstage
    | edit args =>
      rw [hcall] at hover
      cases hover
  case h_6 =>
    -- reading failed, and a write goes on as with an empty file
    cases hcall : op.call with
    | write args =>
      rw [hcall] at h
      exact hwrite args [] hcall (some.inj h)
    | edit args =>
      rw [hcall] at hover
      cases hover
  all_goals cases h

theorem react_wrote {op : FileOperation}
    {disk : Option (List Char)} {reply : Reply} {stage : Stage} {author replaced : Option ℕ}
    (h : react sha256 op disk reply = some stage)
    (hkind : reply.kind op.call author = .wrote true replaced) :
    op.call.overwrites = true ∧ ∃ change output, op.stage = .writing change output := by
  cases reply with
  | writeDone | writeFailed =>
    refine ⟨(EffectKind.wrote.inj hkind).1, ?_⟩
    cases hstage : op.stage with
    | writing change output => exact ⟨change, output, rfl⟩
    | parent => simp [react, hstage] at h
    | reading => simp [react, hstage] at h
    | settled result => simp [react, hstage] at h
  | parentChecked | readDone | readFailed | threw => cases hkind

namespace FileWrites

variable {ν : Type} (sha256 : List UInt8 → String)
  (toLowerCase : List Char → List Char) (fileOf : KaosInfo → List Char → ν)

/-- `withFileWriteLock` up to its first await. -/
def enter (s : FileWrites ν) (kaos : KaosInfo) (path : List Char) (call : FileCall) :
    FileWrites ν :=
  let key := lockKey toLowerCase kaos path
  let waited := (s.locks.holder key).isSome
  let op : FileOperation :=
    { kaos, path, call, waited, queuedBehind := unfinished s.locks key, stage := call.start }
  { s with
    locks := s.locks.enter key op
    effects := if waited then s.effects else s.effects ++ [⟨s.locks.ops.length, key, .started⟩] }

/-- A call gets an answer. -/
def reply [DecidableEq ν] (s : FileWrites ν) (i : ℕ) (reply : Reply) : Option (FileWrites ν) :=
  (s.locks.ops[i]?).bind fun op =>
    if op.phase = .running then
      let file := fileOf op.body.kaos op.body.path
      (react sha256 op.body (s.content file) reply).map fun stage =>
        { locks := s.locks.work i fun body => { body with stage }
          content :=
            match leaves op.body.stage (s.content file) reply with
            | some left => Function.update s.content file left
            | none => s.content
          author :=
            match leaves op.body.stage (s.content file) reply with
            | some _ => Function.update s.author file (some i)
            | none => s.author
          effects := s.effects ++ [⟨i, op.key, reply.kind op.body.call (s.author file)⟩] }
    else none

/-- Operation `i` adds an effect to what `locks` became. -/
def record (s : FileWrites ν) (i : ℕ) (kind : EffectKind)
    (locks : Locks (List Char) FileOperation) : Option (FileWrites ν) :=
  (s.locks.ops[i]?).map fun op =>
    { s with locks := locks, effects := s.effects ++ [⟨i, op.key, kind⟩] }

def step [DecidableEq ν] (s : FileWrites ν) : WriteEvent ν → Option (FileWrites ν)
  | .enter kaos path call => some (s.enter toLowerCase kaos path call)
  | .resume i => (s.locks.resume i).bind (s.record i .started)
  | .reply i reply => s.reply sha256 fileOf i reply
  | .release i =>
    -- the `finally` of a call that ended, with a result or with an error
    if (s.locks.ops[i]?).any (·.body.stage.isSettled) then
      (s.locks.release i).bind (s.record i .finished)
    else none
  | .external file content =>
    some { s with
      content := Function.update s.content file content
      author := Function.update s.author file none }

/-! ### The order of effects -/

/-- Effects with one key come in the order of their operations, and none behind the last of its
own. -/
def InOrder (a b : Effect) : Prop :=
  a.key = b.key → a.op < b.op ∨ (a.op = b.op ∧ a.kind ≠ .finished)

/-- **The invariant.** -/
structure Ordered (s : FileWrites ν) : Prop where
  chained : Chained s.locks
  /-- Who has done something has started, and not finished before it said so. -/
  logged : ∀ e ∈ s.effects, ∃ op, s.locks.ops[e.op]? = some op ∧ op.key = e.key ∧
    op.phase ≠ .waiting ∧ (e.kind = .finished → op.phase = .finished)
  /-- Who is finished has said so. -/
  finished : ∀ (i : ℕ) (op : Op (List Char) FileOperation), s.locks.ops[i]? = some op →
    op.phase = .finished → (⟨i, op.key, .finished⟩ : Effect) ∈ s.effects
  inOrder : s.effects.Pairwise InOrder
  /-- An effect stands behind the last ones of all earlier operations of its key. -/
  behind : ∀ (n : ℕ) (e : Effect), s.effects[n]? = some e →
    ∀ (j : ℕ) (op : Op (List Char) FileOperation), j < e.op → s.locks.ops[j]? = some op →
      op.key = e.key → (⟨j, op.key, .finished⟩ : Effect) ∈ s.effects.take n
  /-- Who did not wait found nobody. -/
  alone : ∀ (i : ℕ) (op : Op (List Char) FileOperation), s.locks.ops[i]? = some op →
    op.body.waited = false → op.body.queuedBehind = []
  /-- An overwrite that goes through did not wait. -/
  writing : ∀ (i : ℕ) (op : Op (List Char) FileOperation), s.locks.ops[i]? = some op →
    ∀ (change : Change) (output : String), op.body.stage = .writing change output →
      op.body.call.overwrites = true → op.body.waited = false
  overwrote : ∀ e ∈ s.effects, ∀ (replaced : Option ℕ), e.kind = .wrote true replaced →
    ∃ op, s.locks.ops[e.op]? = some op ∧ op.body.queuedBehind = []

/-- The files at the start, and no call. -/
def start (content : ν → Option (List Char)) : FileWrites ν := { content }

namespace Ordered

variable {s t : FileWrites ν}

theorem start (content : ν → Option (List Char)) : Ordered (FileWrites.start content) where
  chained := Chained.empty
  logged := by simp [FileWrites.start]
  finished := by simp [FileWrites.start]
  inOrder := List.Pairwise.nil
  behind := by simp [FileWrites.start]
  alone := by simp [FileWrites.start]
  writing := by simp [FileWrites.start]
  overwrote := by simp [FileWrites.start]

variable {i : ℕ}

theorem inOrder_of_unfinished (h : Ordered s) {op : Op (List Char) FileOperation}
    (hop : s.locks.ops[i]? = some op) (hphase : op.phase ≠ .finished) (kind : EffectKind) :
    ∀ e ∈ s.effects, InOrder e ⟨i, op.key, kind⟩ := by
  intro e he hkey
  obtain ⟨op', hop', hkey', hphase', hfinished⟩ := h.logged e he
  rcases Nat.lt_trichotomy e.op i with hlt | heq | hgt
  · exact Or.inl hlt
  · refine Or.inr ⟨heq, fun hkind => hphase ?_⟩
    subst heq
    cases hop.symm.trans hop'
    exact hfinished hkind
  · -- an operation behind `i` has not started
    refine absurd (h.chained.earlier_finished hop' hphase' hgt hop ?_) hphase
    rw [hkey']
    exact hkey.symm

theorem behind_append {effects : List Effect} {ops ops' : List (Op (List Char) FileOperation)}
    (hold : ∀ (n : ℕ) (e : Effect), effects[n]? = some e →
      ∀ (j : ℕ) (op : Op (List Char) FileOperation), j < e.op → ops[j]? = some op →
        op.key = e.key → (⟨j, op.key, .finished⟩ : Effect) ∈ effects.take n)
    (hkeys : ∀ e ∈ effects, ∀ (j : ℕ) (op : Op (List Char) FileOperation), j < e.op →
      ops'[j]? = some op → ∃ op₀, ops[j]? = some op₀ ∧ op₀.key = op.key)
    {new : Effect} (hnew : ∀ (j : ℕ) (op : Op (List Char) FileOperation), j < new.op →
      ops'[j]? = some op → op.key = new.key → (⟨j, op.key, .finished⟩ : Effect) ∈ effects) :
    ∀ (n : ℕ) (e : Effect), (effects ++ [new])[n]? = some e →
      ∀ (j : ℕ) (op : Op (List Char) FileOperation), j < e.op → ops'[j]? = some op →
        op.key = e.key → (⟨j, op.key, .finished⟩ : Effect) ∈ (effects ++ [new]).take n := by
  intro n e he j op hj hop hkey
  rcases getElem?_append_singleton he with he | ⟨rfl, rfl⟩
  · obtain ⟨op₀, hop₀, hkey₀⟩ := hkeys e (List.mem_of_getElem? he) j op hj hop
    rw [List.take_append_of_le_length (Nat.le_of_lt (List.getElem?_eq_some_iff.1 he).1), ← hkey₀]
    exact hold n e he j op₀ hj hop₀ (hkey₀.trans hkey)
  · rw [List.take_left']
    · exact hnew j op hj hop hkey
    · rfl

variable (h : Ordered s)

include h

/-- **A step of an operation that is there**: it is not finished before and has started after. -/
theorem modify {op : Op (List Char) FileOperation} (hop : s.locks.ops[i]? = some op)
    (hbefore : op.phase ≠ .finished)
    (f : Op (List Char) FileOperation → Op (List Char) FileOperation) (kind : EffectKind)
    (hops : t.locks.ops = s.locks.ops.modify i f) (hchained : Chained t.locks)
    (heffects : t.effects = s.effects ++ [⟨i, op.key, kind⟩]) (hkey : (f op).key = op.key)
    (hcall : (f op).body.call = op.body.call) (hwaited : (f op).body.waited = op.body.waited)
    (hqueued : (f op).body.queuedBehind = op.body.queuedBehind) (hafter : (f op).phase ≠ .waiting)
    (hfinished : (f op).phase = .finished ↔ kind = .finished)
    (hwriting : ∀ change output, (f op).body.stage = .writing change output →
      op.body.call.overwrites = true → op.body.waited = false)
    (hkind : ∀ replaced, kind = .wrote true replaced → op.body.queuedBehind = []) : Ordered t := by
  have hsame : ∀ {j : ℕ} {op' : Op (List Char) FileOperation}, t.locks.ops[j]? = some op' →
      (i = j ∧ op' = f op) ∨ (i ≠ j ∧ s.locks.ops[j]? = some op') := by
    intro j op' hop'
    rw [hops] at hop'
    obtain ⟨op₁, hop₁, rfl⟩ := getElem?_modify_some hop'
    by_cases hij : i = j
    · subst hij
      cases hop.symm.trans hop₁
      exact Or.inl ⟨rfl, if_pos rfl⟩
    · rw [if_neg hij]
      exact Or.inr ⟨hij, hop₁⟩
  have hi : t.locks.ops[i]? = some (f op) := by
    rw [hops, getElem?_modify_of_some f i hop, if_pos rfl]
  have hother : ∀ {j : ℕ} {op' : Op (List Char) FileOperation}, i ≠ j →
      s.locks.ops[j]? = some op' → t.locks.ops[j]? = some op' := by
    intro j op' hij hop'
    rw [hops, getElem?_modify_of_some f i hop', if_neg hij]
  have hkeys : ∀ (j : ℕ) (op' : Op (List Char) FileOperation), t.locks.ops[j]? = some op' →
      ∃ op₀, s.locks.ops[j]? = some op₀ ∧ op₀.key = op'.key := by
    intro j op' hop'
    rcases hsame hop' with ⟨rfl, rfl⟩ | ⟨-, hop₁⟩
    · exact ⟨op, hop, hkey.symm⟩
    · exact ⟨op', hop₁, rfl⟩
  have hmem : ∀ {e : Effect}, e ∈ t.effects → e ∈ s.effects ∨ e = ⟨i, op.key, kind⟩ := by
    intro e he
    rw [heffects] at he
    rcases mem_append.1 he with he | he
    · exact Or.inl he
    · exact Or.inr (mem_singleton.1 he)
  refine {
    chained := hchained, logged := ?_, finished := ?_, inOrder := ?_, behind := ?_, alone := ?_
    writing := ?_, overwrote := ?_ }
  · intro e he
    rcases hmem he with he | rfl
    · obtain ⟨op', hop', hkey', hphase', hfin⟩ := h.logged e he
      by_cases hij : i = e.op
      · subst hij
        cases hop.symm.trans hop'
        exact ⟨f op, hi, hkey.trans hkey', hafter, fun hk => absurd (hfin hk) hbefore⟩
      · exact ⟨op', hother hij hop', hkey', hphase', hfin⟩
    · exact ⟨f op, hi, hkey, hafter, hfinished.2⟩
  · intro j op' hop' hphase
    rw [heffects]
    rcases hsame hop' with ⟨rfl, rfl⟩ | ⟨-, hop₁⟩
    · rw [hkey, hfinished.1 hphase]
      exact mem_append_right _ (mem_singleton.2 rfl)
    · exact mem_append_left _ (h.finished j op' hop₁ hphase)
  · rw [heffects]
    refine pairwise_append.2 ⟨h.inOrder, pairwise_singleton _ _, fun e he e' he' => ?_⟩
    rw [mem_singleton.1 he']
    exact h.inOrder_of_unfinished hop hbefore kind e he
  · rw [heffects]
    refine behind_append h.behind (fun _ _ j op' _ hop' => hkeys j op' hop') ?_
    intro j op' hj hop' hkey'
    rcases hsame hop' with ⟨rfl, -⟩ | ⟨-, hop₁⟩
    · exact absurd hj (Nat.lt_irrefl _)
    · refine h.finished j op' hop₁ ?_
      exact hchained.earlier_finished hi hafter hj hop' (hkey'.trans hkey.symm)
  · intro j op' hop' halone
    rcases hsame hop' with ⟨rfl, rfl⟩ | ⟨-, hop₁⟩
    · rw [hqueued]
      exact h.alone i op hop (hwaited ▸ halone)
    · exact h.alone j op' hop₁ halone
  · intro j op' hop' change output hstage hover
    rcases hsame hop' with ⟨rfl, rfl⟩ | ⟨-, hop₁⟩
    · rw [hwaited]
      exact hwriting change output hstage (hcall ▸ hover)
    · exact h.writing j op' hop₁ change output hstage hover
  · intro e he replaced hk
    rcases hmem he with he | rfl
    · obtain ⟨op', hop', hqueued'⟩ := h.overwrote e he replaced hk
      by_cases hij : i = e.op
      · subst hij
        cases hop.symm.trans hop'
        exact ⟨f op, hi, hqueued.trans hqueued'⟩
      · exact ⟨op', hother hij hop', hqueued'⟩
    · exact ⟨f op, hi, hqueued.trans (hkind replaced hk)⟩

theorem resume {locks : Locks (List Char) FileOperation} (hlocks : s.locks.resume i = some locks)
    (ht : s.record i .started locks = some t) : Ordered t := by
  obtain ⟨op, hop, hwaiting, -, hlocks'⟩ := Chained.resume_cases hlocks
  unfold record at ht
  rw [hop] at ht
  cases ht
  refine h.modify hop ?_ (fun op => { op with phase := .running }) .started ?_ ?_ rfl rfl rfl rfl
    rfl Phase.noConfusion (by simp) (h.writing i op hop) (by simp)
  · rw [hwaiting]
    exact Phase.noConfusion
  · rw [hlocks']
  · exact h.chained.resume hlocks

theorem release {locks : Locks (List Char) FileOperation} (hlocks : s.locks.release i = some locks)
    (ht : s.record i .finished locks = some t) : Ordered t := by
  obtain ⟨op, hop, hrunning, hops, -⟩ := Chained.release_cases hlocks
  unfold record at ht
  rw [hop] at ht
  cases ht
  refine h.modify hop ?_ (fun op => { op with phase := .finished }) .finished hops ?_ rfl rfl rfl
    rfl rfl Phase.noConfusion (by simp) (h.writing i op hop) (by simp)
  · rw [hrunning]
    exact Phase.noConfusion
  · exact h.chained.release hlocks

theorem reply [DecidableEq ν] {sha256 : List UInt8 → String} {fileOf : KaosInfo → List Char → ν}
    {reply : Reply} (ht : s.reply sha256 fileOf i reply = some t) : Ordered t := by
  obtain ⟨op, hop, ht⟩ := bind_eq_some_iff.1 ht
  obtain ⟨hrunning, ht⟩ := ite_none_right_eq_some.1 ht
  obtain ⟨stage, hreact, rfl⟩ := map_eq_some_iff.1 ht
  refine h.modify hop ?_ (fun op => { op with body := { op.body with stage } }) _ rfl ?_ rfl rfl
    rfl rfl rfl ?_ ?_ ?_ ?_
  · rw [hrunning]
    exact Phase.noConfusion
  · exact h.chained.work i fun body => { body with stage }
  · rw [hrunning]
    exact Phase.noConfusion
  · constructor
    · intro hphase
      rw [hrunning] at hphase
      cases hphase
    · intro hkind
      cases reply <;> cases hkind
  · intro change output hstage hover
    rw [show stage = .writing change output from hstage] at hreact
    exact react_writing hreact hover
  · intro replaced hkind
    obtain ⟨hover, change, output, hstage⟩ := react_wrote hreact hkind
    exact h.alone i op hop (h.writing i op hop change output hstage hover)

theorem enter_locks (key : List Char) (op : FileOperation)
    (halone : op.waited = false → op.queuedBehind = [])
    (hstage : ∀ change output, op.stage ≠ .writing change output) :
    Ordered { s with locks := s.locks.enter key op } := by
  have hkeep : ∀ {i : ℕ} {op' : Op (List Char) FileOperation}, s.locks.ops[i]? = some op' →
      (s.locks.enter key op).ops[i]? = some op' := by
    intro i op' hop'
    exact (List.getElem?_append_left (List.getElem?_eq_some_iff.1 hop').1).trans hop'
  refine {
    chained := h.chained.enter key op, logged := ?_, finished := ?_, inOrder := h.inOrder
    behind := ?_, alone := ?_, writing := ?_, overwrote := ?_ }
  · intro e he
    obtain ⟨op', hop', hrest⟩ := h.logged e he
    exact ⟨op', hkeep hop', hrest⟩
  · intro i op' hop' hphase
    rcases getElem?_append_singleton hop' with hop' | ⟨-, rfl⟩
    · exact h.finished i op' hop' hphase
    · dsimp only at hphase
      split at hphase <;> cases hphase
  · intro n e he j op' hj hop' hkey
    obtain ⟨ope, hope, -⟩ := h.logged e (List.mem_of_getElem? he)
    rcases getElem?_append_singleton hop' with hop' | ⟨rfl, -⟩
    · exact h.behind n e he j op' hj hop' hkey
    · -- who has done something entered before
      exact absurd (List.getElem?_eq_some_iff.1 hope).1 (Nat.not_lt.2 (Nat.le_of_lt hj))
  · intro i op' hop' hwaited
    rcases getElem?_append_singleton hop' with hop' | ⟨-, rfl⟩
    · exact h.alone i op' hop' hwaited
    · exact halone hwaited
  · intro i op' hop' change output hop'stage hover
    rcases getElem?_append_singleton hop' with hop' | ⟨-, rfl⟩
    · exact h.writing i op' hop' change output hop'stage hover
    · exact absurd hop'stage (hstage change output)
  · intro e he replaced hkind
    obtain ⟨op', hop', hqueued⟩ := h.overwrote e he replaced hkind
    exact ⟨op', hkeep hop', hqueued⟩

theorem unfinished_eq_nil {key : List Char} (hfree : s.locks.holder key = none) :
    unfinished s.locks key = [] := by
  refine List.filter_eq_nil_iff.2 fun i _ => ?_
  rw [Option.any_eq_true]
  rintro ⟨op, hop, hunfinished⟩
  have hboth := of_decide_eq_true hunfinished
  exact hboth.2 (h.chained.free key hfree i op hop hboth.1)

theorem enter (toLowerCase : List Char → List Char) (kaos : KaosInfo) (path : List Char)
    (call : FileCall) : Ordered (s.enter toLowerCase kaos path call) := by
  have hstart : ∀ change output, call.start ≠ .writing change output := by
    cases call <;> exact fun _ _ => Stage.noConfusion
  have hentered := h.enter_locks (lockKey toLowerCase kaos path)
    ⟨kaos, path, call, (s.locks.holder (lockKey toLowerCase kaos path)).isSome,
      unfinished s.locks (lockKey toLowerCase kaos path), call.start⟩
    (fun hfree => h.unfinished_eq_nil (isNone_iff_eq_none.1 (isSome_eq_false_iff.1 hfree))) hstart
  by_cases hwaited : (s.locks.holder (lockKey toLowerCase kaos path)).isSome = true
  · unfold FileWrites.enter
    dsimp only
    rw [if_pos hwaited]
    exact hentered
  · have hfree : s.locks.holder (lockKey toLowerCase kaos path) = none :=
      not_isSome_iff_eq_none.1 hwaited
    refine hentered.modify (t := s.enter toLowerCase kaos path call) getElem?_concat_length ?_
      id .started (modify_id _ _).symm hentered.chained ?_ rfl rfl rfl rfl ?_ ?_ ?_ ?_
    · dsimp only
      rw [if_pos hfree]
      exact Phase.noConfusion
    · exact if_neg hwaited
    · change (if s.locks.holder (lockKey toLowerCase kaos path) = none then Phase.running
        else Phase.waiting) ≠ Phase.waiting
      rw [if_pos hfree]
      exact Phase.noConfusion
    · change (if s.locks.holder (lockKey toLowerCase kaos path) = none then Phase.running
        else Phase.waiting) = Phase.finished ↔ _
      rw [if_pos hfree]
      simp
    · exact fun change output hstage _ => absurd hstage (hstart change output)
    · exact fun _ hkind => EffectKind.noConfusion hkind

theorem step [DecidableEq ν] {sha256 : List UInt8 → String} {toLowerCase : List Char → List Char}
    {fileOf : KaosInfo → List Char → ν} (event : WriteEvent ν)
    (ht : s.step sha256 toLowerCase fileOf event = some t) : Ordered t := by
  cases event with
  | enter kaos path call =>
    cases ht
    exact h.enter toLowerCase kaos path call
  | resume i =>
    obtain ⟨locks, hlocks, ht⟩ := bind_eq_some_iff.1 ht
    exact h.resume hlocks ht
  | reply i reply => exact h.reply ht
  | release i =>
    simp only [FileWrites.step] at ht
    split at ht
    · obtain ⟨locks, hlocks, ht⟩ := bind_eq_some_iff.1 ht
      exact h.release hlocks ht
    · cases ht
  | external file content =>
    cases ht
    exact ⟨h.chained, h.logged, h.finished, h.inOrder, h.behind, h.alone, h.writing, h.overwrote⟩

end Ordered

/-! ### Every run -/

/-- **Calls on one file take effect one at a time.** A file is known by the key of its lock, and an
operation by its place in the order in which they came. -/
structure Serialized [DecidableEq ν] (s : FileWrites ν) : Prop where
  inOrder : s.effects.Pairwise InOrder
  /-- Nobody does anything before all earlier calls on the file are through. -/
  behind : ∀ (n : ℕ) (e : Effect), s.effects[n]? = some e →
    ∀ (j : ℕ) (op : Op (List Char) FileOperation), j < e.op → s.locks.ops[j]? = some op →
      op.key = e.key → (⟨j, op.key, .finished⟩ : Effect) ∈ s.effects.take n
  /-- An overwrite does not replace what a call wrote that it queued behind. -/
  keeps : ∀ e ∈ s.effects, ∀ (j : ℕ), e.kind = .wrote true (some j) →
    ∃ op, s.locks.ops[e.op]? = some op ∧ j ∉ op.body.queuedBehind
  /-- The entry of a lock is there as long as a call on the file is not through. -/
  removed : ∀ (key : List Char), s.locks.holder key = none ↔
    ∀ (i : ℕ) (op : Op (List Char) FileOperation), s.locks.ops[i]? = some op → op.key = key →
      op.phase = .finished
  /-- A call that ended, even with an error that nothing catches, leaves the lock. -/
  releases : ∀ (i : ℕ) (op : Op (List Char) FileOperation), s.locks.ops[i]? = some op →
    op.phase = .running → op.body.stage.isSettled = true →
      ∃ t, s.step sha256 toLowerCase fileOf (.release i) = some t
  /-- A call goes on when the earlier ones are through, whatever they ended with. -/
  resumes : ∀ (i : ℕ) (op : Op (List Char) FileOperation), s.locks.ops[i]? = some op →
    op.phase = .waiting →
    (∀ (j : ℕ) (op' : Op (List Char) FileOperation), j < i → s.locks.ops[j]? = some op' →
      op'.key = op.key → op'.phase = .finished) →
    ∃ t, s.step sha256 toLowerCase fileOf (.resume i) = some t

/-- A step that leaves a mark is enabled where the lock lets it through. -/
theorem record_isSome {s : FileWrites ν} {i : ℕ} {op : Op (List Char) FileOperation}
    (hop : s.locks.ops[i]? = some op) (kind : EffectKind)
    {next : Option (Locks (List Char) FileOperation)} (hnext : ∃ locks, next = some locks) :
    ∃ t, next.bind (s.record i kind) = some t := by
  obtain ⟨locks, rfl⟩ := hnext
  exact ⟨_, map_eq_some_iff.2 ⟨op, hop, rfl⟩⟩

variable [DecidableEq ν]

theorem Ordered.serialized {s : FileWrites ν} (h : Ordered s) :
    Serialized sha256 toLowerCase fileOf s where
  inOrder := h.inOrder
  behind := h.behind
  keeps := by
    intro e he j hkind
    obtain ⟨op, hop, hqueued⟩ := h.overwrote e he (some j) hkind
    refine ⟨op, hop, ?_⟩
    rw [hqueued]
    exact not_mem_nil
  removed := h.chained.holder_eq_none
  releases := by
    intro i op hop hrunning hsettled
    have hany : (s.locks.ops[i]?).any (·.body.stage.isSettled) = true := by
      rw [hop]
      exact hsettled
    refine ⟨_, (if_pos hany).trans (record_isSome hop .finished ?_).choose_spec⟩
    exact ⟨_, bind_eq_some_iff.2 ⟨op, hop, if_pos hrunning⟩⟩
  resumes := by
    intro i op hop hwaiting hearlier
    exact record_isSome hop .started (h.chained.can_go_on hop hwaiting hearlier)

variable {sha256 toLowerCase fileOf}

/-- **In every run, calls on one file take effect one at a time in the order they came.** -/
theorem run_serialized {content : ν → Option (List Char)} {l : List (WriteEvent ν)}
    {s : FileWrites ν}
    (h : LibRun.Run (step sha256 toLowerCase fileOf) LibRun.always (start content) l s) :
    Serialized sha256 toLowerCase fileOf s := by
  have hordered : Ordered s :=
    h.invariant (Ordered.start content) fun t event u ht _ hu => ht.step event hu
  exact hordered.serialized sha256 toLowerCase fileOf

/-- Three writes of one file, the first of which throws: the second waited and gives up, the third
appends. A fourth one comes later and overwrites. -/
def threeWrites : List (WriteEvent Unit) :=
  let kaos : KaosInfo := ⟨['k'], false⟩
  let write (content : Char) (mode : WriteMode) : FileCall :=
    .write ⟨"f", [content], none, some mode⟩
  [.enter kaos ['/', 'f'] (write 'a' .overwrite), .enter kaos ['\\', 'f'] (write 'b' .overwrite),
    .enter kaos ['/', '/', 'f'] (write 'c' .append), .reply 0 .threw, .release 0, .resume 1,
    .reply 1 (.parentChecked none), .reply 1 (.readFailed ⟨some "ENOENT", ""⟩), .release 1, .resume 2,
    .reply 2 (.parentChecked none), .reply 2 (.readFailed ⟨some "ENOENT", ""⟩),
    .reply 2 (.writeDone none), .release 2, .enter kaos ['/', 'f'] (write 'd' .overwrite),
    .reply 3 (.parentChecked none), .reply 3 (.readFailed ⟨none, ""⟩), .reply 3 (.writeDone none)]

theorem threeWrites_serialized :
    ∃ s, s.effects.filter (fun e => e.kind ≠ .started ∧ e.kind ≠ .answered ∧ e.kind ≠ .read) =
        [⟨0, "k:/f".toList, .finished⟩, ⟨1, "k:/f".toList, .finished⟩,
          ⟨2, "k:/f".toList, .wrote false none⟩, ⟨2, "k:/f".toList, .finished⟩,
          ⟨3, "k:/f".toList, .wrote true (some 2)⟩] ∧
      Serialized (fun _ => "") id (fun _ _ => ()) s := by
  have hrun : ∃ s, LibRun.Run (step (fun _ => "") id fun _ _ => ()) LibRun.always
      (start fun _ => none) threeWrites s ∧
      s.effects.filter (fun e => e.kind ≠ .started ∧ e.kind ≠ .answered ∧ e.kind ≠ .read) =
        [⟨0, "k:/f".toList, .finished⟩, ⟨1, "k:/f".toList, .finished⟩,
          ⟨2, "k:/f".toList, .wrote false none⟩, ⟨2, "k:/f".toList, .finished⟩,
          ⟨3, "k:/f".toList, .wrote true (some 2)⟩] :=
    LibRun.exists_run (by decide +kernel) (LibRun.legal_always _ _)
  obtain ⟨s, hrun, heffects⟩ := hrun
  exact ⟨s, heffects, run_serialized hrun⟩

end FileWrites

end NoriCode
