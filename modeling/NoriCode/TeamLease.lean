/-
**Assignments and reports of a team.**

`TeamAssign` gives every member of a team a task or none.  The call's time is the token of the
leases it hands out; whoever holds one may release it later, and does so only where the token still
stands.  The leader's session keeps a copy of what it knows of each member.  For a member that is a
session of its own the copy is also sent to that session, where the member records its report.

The module embeds, of `session/index.ts`, `assignTeamTasks`, `releaseTeamAssignment`,
`recordTeamReport`, `acknowledgeTeamReport`, `recordTeamTurnSkip`, `clearTeamTurnSkip`,
`notifyMissingTeamReport`, `lockTeamAssignments` and `writeDepartmentMemberState`, and `patchMember`
of `rpc/core-impl.ts`.

Main definitions:

* `MemberMeta`, `TeamReportRecord` — what is kept of a member;
* `TeamDepartment`, with `step` — the two stores and the calls under way;
* `TeamDepartment.Orderly` — no two calls share a token, and no write of the leader passes
  another write.

Main results:

* `TeamDepartment.run_leases` — **a lease never clears a later assignment, and a report
  that was received stays**.
-/

import NoriCode.JsText
import NoriCode.LibRun
import NoriCode.LibPlaces

namespace NoriCode

open List Option Function LibRun

/-! ### What is kept of a member -/

inductive TeamReportStatus
  | unreported
  | completed
  | blocked
  | needsDecision
  deriving DecidableEq

/-- A report. Times are in milliseconds, as the clock of the source has them. -/
structure TeamReportRecord where
  assignmentId : ℕ
  task : String
  status : TeamReportStatus
  summary : Option String := none
  reportedAt : Option ℕ := none
  receivedAt : Option ℕ := none
  missingReminderAt : Option ℕ := none
  deriving DecidableEq

/-- The part of the metadata of a member that its assignments are about. -/
structure MemberMeta where
  assignedTask : Option String := none
  assignedAt : Option ℕ := none
  lastTurnSkip : Option (String × String) := none
  teamReport : Option TeamReportRecord := none

structure TeamAssignment where
  agentId : ℕ
  task : Option String

namespace MemberMeta

/-- The metadata after an assignment; a task opens a new report. -/
def assign (current : MemberMeta) (task : Option String) (assignedAt : ℕ) : MemberMeta where
  assignedTask := task
  assignedAt := task.map fun _ => assignedAt
  lastTurnSkip := none
  teamReport := match task with
    | none => current.teamReport
    | some task => some { assignmentId := assignedAt, task := task, status := .unreported }

/-- The metadata without its assignment. -/
def release (current : MemberMeta) : MemberMeta :=
  { current with assignedTask := none, assignedAt := none }

/-- What a release clears. -/
def assignment (current : MemberMeta) : Option String × Option ℕ :=
  (current.assignedTask, current.assignedAt)

end MemberMeta

namespace TeamReportRecord

/-- The member has reported, and the leader has got the report. -/
def Received (report : TeamReportRecord) : Prop :=
  report.status ≠ .unreported ∧ report.receivedAt ≠ none

def record (current : TeamReportRecord) (status : TeamReportStatus) (summary : String) (now : ℕ) :
    TeamReportRecord :=
  { current with
    status := status, summary := some (trim summary), reportedAt := some now
    missingReminderAt := none }

end TeamReportRecord

/-! ### The department -/

/-- The call that waits for a write to reach the session of a member. -/
inductive PatchCaller
  /-- A `TeamAssign` call that gives the member a task. -/
  | assign
  /-- A `TeamAssign` call that gives it none. -/
  | unassign
  /-- The release of a lease. -/
  | release (lease : ℕ)
  | lock
  | reminder
  | turnSkip
  deriving DecidableEq

/-- A call of `patchMember` that is not carried out yet. -/
structure MemberPatch where
  agentId : ℕ
  patch : MemberMeta
  caller : PatchCaller

/-- A lease: a member, and the token of the call that gave it a task. -/
structure Lease where
  agentId : ℕ
  assignedAt : ℕ
  deriving DecidableEq

/-- A `TeamAssign` call in its loop: its time, and the assignments that are still to be written. -/
structure AssignCall where
  assignedAt : ℕ
  remaining : List TeamAssignment

/-- The department of a leader. Its members are agents of the leader's session, or all are sessions
mounted under it: a leader with mounted sessions has no other members. -/
structure TeamDepartment where
  mounted : Bool
  members : List ℕ
  clock : ℕ := 0
  /-- What the leader's session keeps of each member. -/
  metas : ℕ → MemberMeta := fun _ => {}
  /-- What the session of a mounted member keeps itself. -/
  customs : ℕ → MemberMeta := fun _ => {}
  activeTurn : ℕ → Bool := fun _ => false
  patches : List MemberPatch := []
  assigning : List AssignCall := []
  locking : List (List (ℕ × MemberMeta)) := []
  /-- The leases, in the order in which they were written. -/
  leases : List Lease := []

namespace TeamDepartment

variable {s t : TeamDepartment}

/-- `writeDepartmentMemberState` for a mounted member, else a write of the metadata. -/
def write (s : TeamDepartment) (m : ℕ) (next : MemberMeta) (caller : PatchCaller) :
    TeamDepartment :=
  { s with
    metas := update s.metas m next
    patches := if s.mounted then s.patches ++ [⟨m, next, caller⟩] else s.patches }

/-- One turn of the loop of `assignTeamTasks`. -/
def assignOne (s : TeamDepartment) (assignedAt : ℕ) (a : TeamAssignment) : TeamDepartment :=
  let s' := s.write a.agentId ((s.metas a.agentId).assign a.task assignedAt)
    (if a.task.isSome then .assign else .unassign)
  { s' with leases := if a.task.isSome then s.leases ++ [⟨a.agentId, assignedAt⟩] else s.leases }

/-- The loop of `assignTeamTasks`. It waits after each mounted member. -/
def assignLoop (s : TeamDepartment) (assignedAt : ℕ) : List TeamAssignment → TeamDepartment
  | [] => s
  | a :: rest =>
    let s' := s.assignOne assignedAt a
    if s.mounted then { s' with assigning := s'.assigning ++ [⟨assignedAt, rest⟩] }
    else s'.assignLoop assignedAt rest

/-- What `assignTeamTasks` checks: every member has one assignment, no task is blank, and some
member is given one. -/
def Acceptable (members : List ℕ) (assignments : List TeamAssignment) : Prop :=
  members ≠ [] ∧ (assignments.map TeamAssignment.agentId).Nodup ∧
    (∀ a ∈ assignments, a.agentId ∈ members ∧ ∀ task ∈ a.task, isBlank task = false) ∧
    (∀ m ∈ members, m ∈ assignments.map TeamAssignment.agentId) ∧
    ∃ a ∈ assignments, a.task.isSome

instance (members : List ℕ) (assignments : List TeamAssignment) :
    Decidable (Acceptable members assignments) :=
  inferInstanceAs (Decidable (_ ∧ _ ∧ _ ∧ _ ∧ _))

/-- The token of the lease still stands. -/
def Releasable (s : TeamDepartment) (l : Lease) : Prop :=
  l.agentId ∈ s.members ∧ (s.metas l.agentId).assignedAt = some l.assignedAt

instance (s : TeamDepartment) (l : Lease) : Decidable (s.Releasable l) :=
  inferInstanceAs (Decidable (_ ∧ _))

def releaseTeamAssignment (s : TeamDepartment) (i : ℕ) (l : Lease) : TeamDepartment :=
  if s.Releasable l then s.write l.agentId (s.metas l.agentId).release (.release i) else s

/-- The store in which the report of a member is recorded. -/
def reports (s : TeamDepartment) : ℕ → MemberMeta := if s.mounted then s.customs else s.metas

def report (s : TeamDepartment) (m : ℕ) : Option TeamReportRecord := (s.reports m).teamReport

def writeReport (s : TeamDepartment) (m : ℕ) (r : TeamReportRecord) : TeamDepartment :=
  if s.mounted then
    { s with customs := update s.customs m { s.customs m with teamReport := some r } }
  else { s with metas := update s.metas m { s.metas m with teamReport := some r } }

def recordTeamReport (s : TeamDepartment) (m : ℕ) (status : TeamReportStatus) (summary : String)
    (now : ℕ) : TeamDepartment :=
  match s.report m with
  | none => s
  | some current =>
    if current.receivedAt ≠ none ∨ isBlank summary then s
    else s.writeReport m (current.record status summary now)

def acknowledgeTeamReport (s : TeamDepartment) (m now : ℕ) : TeamDepartment :=
  match s.report m with
  | none => s
  | some report =>
    if report.status = .unreported ∨ report.receivedAt ≠ none then s
    else s.writeReport m { report with receivedAt := some now }

/-- The report of the assignment is missing, and nobody was reminded of it. -/
def Missing (s : TeamDepartment) (l : Lease) (report : TeamReportRecord) : Prop :=
  l.agentId ∈ s.members ∧ report.assignmentId = l.assignedAt ∧ report.status = .unreported ∧
    report.missingReminderAt = none

instance (s : TeamDepartment) (l : Lease) (report : TeamReportRecord) :
    Decidable (s.Missing l report) := inferInstanceAs (Decidable (_ ∧ _ ∧ _ ∧ _))

def notifyMissingTeamReport (s : TeamDepartment) (l : Lease) (now : ℕ) : TeamDepartment :=
  match (s.metas l.agentId).teamReport with
  | none => s
  | some report =>
    if s.Missing l report then
      s.write l.agentId { s.metas l.agentId with
        teamReport := some { report with missingReminderAt := some now } } .reminder
    else s

def recordTeamTurnSkip (s : TeamDepartment) (m : ℕ) (reason detail : String) : TeamDepartment :=
  if isBlank detail then s
  else s.write m { s.metas m with lastTurnSkip := some (reason, trim detail) } .turnSkip

def clearTeamTurnSkip (s : TeamDepartment) (m : ℕ) : TeamDepartment :=
  if (s.metas m).lastTurnSkip = none then s
  else s.write m { s.metas m with lastTurnSkip := none } .turnSkip

/-- The loop of `lockTeamAssignments` over the members that had an assignment when it began, each
with its metadata of that time. -/
def lockLoop (s : TeamDepartment) : List (ℕ × MemberMeta) → TeamDepartment
  | [] => s
  | (m, current) :: rest =>
    let s' := s.write m current.release .lock
    if s.mounted then { s' with locking := s'.locking ++ [rest] } else s'.lockLoop rest

/-- The members with an assignment. -/
def assigned (s : TeamDepartment) : List (ℕ × MemberMeta) :=
  (s.members.map fun m => (m, s.metas m)).filter fun x =>
    x.2.assignedTask.isSome || x.2.assignedAt.isSome

/-! ### Steps -/

/-- Leases are named by their place. Every lease that was handed out may be released at any time:
by the observer of the turn, by a call that could not start its prompts, or explicitly. -/
inductive LeaseEvent
  | assign (assignments : List TeamAssignment) (now : ℕ)
  | resumeAssign (k : ℕ)
  | release (i : ℕ)
  | notifyMissing (i now : ℕ)
  | record (m : ℕ) (status : TeamReportStatus) (summary : String) (now : ℕ)
  | acknowledge (m now : ℕ)
  | recordSkip (m : ℕ) (reason detail : String)
  | clearSkip (m : ℕ)
  | lock
  | resumeLock (k : ℕ)
  /-- A call of `patchMember` is carried out. -/
  | patchMember (k : ℕ)
  /-- `refreshDepartmentDirectory` reads the copy of a member from its session. -/
  | refresh (m : ℕ)
  | turnStarts (m : ℕ)
  | turnEnds (m : ℕ)

/-- The clock does not go back. -/
def tick (s : TeamDepartment) (now : ℕ) : Option TeamDepartment :=
  if s.clock ≤ now then some { s with clock := now } else none

def step (s : TeamDepartment) : LeaseEvent → Option TeamDepartment
  | .assign assignments now =>
    if Acceptable s.members assignments ∧ ∀ a ∈ assignments, s.activeTurn a.agentId = false then
      (s.tick now).map fun s => s.assignLoop now assignments
    else none
  | .resumeAssign k => s.assigning[k]?.map fun call =>
    { s with assigning := s.assigning.eraseIdx k }.assignLoop call.assignedAt call.remaining
  | .release i => s.leases[i]?.map fun l => s.releaseTeamAssignment i l
  | .notifyMissing i now => s.leases[i]?.bind fun l =>
    (s.tick now).map fun s => s.notifyMissingTeamReport l now
  | .record m status summary now =>
    if m ∈ s.members ∧ status ≠ .unreported then
      (s.tick now).map fun s => s.recordTeamReport m status summary now
    else none
  | .acknowledge m now =>
    if m ∈ s.members then (s.tick now).map fun s => s.acknowledgeTeamReport m now else none
  | .recordSkip m reason detail =>
    if m ∈ s.members then some (s.recordTeamTurnSkip m reason detail) else none
  | .clearSkip m => if m ∈ s.members then some (s.clearTeamTurnSkip m) else none
  | .lock => some (s.lockLoop s.assigned)
  | .resumeLock k => s.locking[k]?.map fun rest =>
    { s with locking := s.locking.eraseIdx k }.lockLoop rest
  | .patchMember k => s.patches[k]?.map fun p =>
    { s with
      customs := update s.customs p.agentId p.patch
      patches := s.patches.eraseIdx k }
  | .refresh m =>
    if s.mounted then some { s with metas := update s.metas m (s.customs m) } else none
  | .turnStarts m => some { s with activeTurn := update s.activeTurn m true }
  | .turnEnds m => some { s with activeTurn := update s.activeTurn m false }

/-! ### What may go wrong -/

/-- No write of the leader to the session of the member is under way. -/
def Settled (s : TeamDepartment) (m : ℕ) : Prop := ∀ p ∈ s.patches, p.agentId ≠ m

/-- The metadata that the leader is about to write for a mounted member is written over nothing that
is under way, and carries the report that the session of the member has. -/
def InStep (s : TeamDepartment) (m : ℕ) (current : MemberMeta) : Prop :=
  s.mounted = true → s.Settled m ∧ current.teamReport = (s.customs m).teamReport

/-- The token is not that of an earlier lease of the member. -/
def Unused (s : TeamDepartment) (assignedAt : ℕ) (a : TeamAssignment) : Prop :=
  a.task.isSome → ∀ l ∈ s.leases, l.agentId = a.agentId → l.assignedAt ≠ assignedAt

/-- The assignments that a `TeamAssign` call is about to write. -/
def AssignOrderly (s : TeamDepartment) (assignedAt : ℕ) : List TeamAssignment → Prop
  | [] => True
  | a :: rest => s.Unused assignedAt a ∧
      (s.mounted = false → ∀ b ∈ rest, s.Unused assignedAt b) ∧
      (s.mounted = true → s.Settled a.agentId) ∧
      (a.task = none → s.InStep a.agentId (s.metas a.agentId))

/-- **No two calls share a token, and no write passes another one.** -/
def Orderly (s : TeamDepartment) : LeaseEvent → Prop
  | .assign assignments now => s.AssignOrderly now assignments
  | .resumeAssign k => ∀ call ∈ s.assigning[k]?, s.AssignOrderly call.assignedAt call.remaining
  | .release i => ∀ l ∈ s.leases[i]?, s.Releasable l → s.InStep l.agentId (s.metas l.agentId)
  | .notifyMissing i _ => ∀ l ∈ s.leases[i]?, ∀ report ∈ (s.metas l.agentId).teamReport,
      s.Missing l report → s.InStep l.agentId (s.metas l.agentId)
  | .record m _ _ _ | .acknowledge m _ | .refresh m => s.Settled m
  | .recordSkip m _ detail => isBlank detail = false → s.InStep m (s.metas m)
  | .clearSkip m => (s.metas m).lastTurnSkip ≠ none → s.InStep m (s.metas m)
  | .lock => ∀ x ∈ s.assigned.head?, s.InStep x.1 x.2
  | .resumeLock k => ∀ rest ∈ s.locking[k]?, ∀ x ∈ rest.head?, s.InStep x.1 x.2
  | .patchMember _ | .turnStarts _ | .turnEnds _ => True

instance (s : TeamDepartment) (m : ℕ) : Decidable (s.Settled m) :=
  inferInstanceAs (Decidable (∀ p ∈ s.patches, p.agentId ≠ m))

instance (s : TeamDepartment) (m : ℕ) (x : MemberMeta) : Decidable (s.InStep m x) :=
  inferInstanceAs (Decidable (_ → _ ∧ _))

instance (s : TeamDepartment) (assignedAt : ℕ) (a : TeamAssignment) :
    Decidable (s.Unused assignedAt a) :=
  inferInstanceAs (Decidable (_ → ∀ l ∈ s.leases, _ → _))

instance (s : TeamDepartment) (assignedAt : ℕ) (assignments : List TeamAssignment) :
    Decidable (s.AssignOrderly assignedAt assignments) := by
  cases assignments <;> unfold AssignOrderly <;> infer_instance

instance (s : TeamDepartment) (e : LeaseEvent) : Decidable (s.Orderly e) := by
  cases e <;> unfold Orderly <;> infer_instance

/-- The lease whose release the step carries on. -/
def releases (s : TeamDepartment) : LeaseEvent → Option ℕ
  | .release i => some i
  | .patchMember k => s.patches[k]?.bind fun p =>
    match p.caller with
    | .release i => some i
    | _ => none
  | _ => none

/-- **The release of a lease leaves later assignments alone**, in both stores: where the token of a
later lease stands, the assignment stays. -/
def LaterKept (s : TeamDepartment) (e : LeaseEvent) (t : TeamDepartment) : Prop :=
  ∀ i, s.releases e = some i → ∀ (j : ℕ) (l : Lease), i < j → s.leases[j]? = some l →
    ((s.metas l.agentId).assignedAt = some l.assignedAt →
      (t.metas l.agentId).assignment = (s.metas l.agentId).assignment) ∧
    ((s.customs l.agentId).assignedAt = some l.assignedAt →
      (t.customs l.agentId).assignment = (s.customs l.agentId).assignment)

/-- The step gives the member a task, in the store of its report. -/
def Assigns (s : TeamDepartment) (m : ℕ) : LeaseEvent → Prop
  | .assign assignments _ => s.mounted = false ∧ ∃ a ∈ assignments, a.agentId = m ∧ a.task.isSome
  | .patchMember k => ∃ p ∈ s.patches[k]?, p.agentId = m ∧ p.caller = .assign
  | _ => False

/-- **A report that was received stays**, unless the member is given a task. -/
def ReceivedKept (s : TeamDepartment) (e : LeaseEvent) (t : TeamDepartment) : Prop :=
  ∀ m r, s.report m = some r → r.Received → s.Assigns m e ∨ t.report m = some r

/-! ### The invariant -/

/-- A token that stands is that of the member's last lease. -/
def Last (leases : List Lease) (m : ℕ) (x : MemberMeta) : Prop :=
  ∀ (i : ℕ) (l : Lease), leases[i]? = some l → l.agentId = m → x.assignedAt = some l.assignedAt →
    ∀ (j : ℕ) (l' : Lease), leases[j]? = some l' → l'.agentId = m → j ≤ i

/-- **The invariant.** Tokens tell the leases of a member apart, those that stand are the last, and
a write under way carries a report that was received. -/
structure Leased (s : TeamDepartment) : Prop where
  tokens : ∀ (i j : ℕ) (l l' : Lease), s.leases[i]? = some l → s.leases[j]? = some l' →
    l.agentId = l'.agentId → l.assignedAt = l'.assignedAt → i = j
  metas : ∀ m, Last s.leases m (s.metas m)
  customs : s.mounted = true → ∀ m, s.Settled m → Last s.leases m (s.customs m)
  patches : ∀ p ∈ s.patches, Last s.leases p.agentId p.patch
  single : s.patches.Pairwise fun p q => p.agentId ≠ q.agentId
  released : ∀ p ∈ s.patches, ∀ i, p.caller = .release i →
    ∀ (j : ℕ) (l : Lease), s.leases[j]? = some l → l.agentId = p.agentId → j ≤ i
  reports : ∀ p ∈ s.patches, p.caller ≠ .assign → ∀ r : TeamReportRecord,
    (s.customs p.agentId).teamReport = some r → r.Received → p.patch.teamReport = some r
  session : s.mounted = false → s.patches = [] ∧ s.assigning = [] ∧ s.locking = []

variable {leases : List Lease} {m : ℕ}

theorem last_of_assignedAt {x y : MemberMeta}
    (h : Last leases m x) (hxy : y.assignedAt = x.assignedAt) : Last leases m y := by
  intro i l hl hm hstands
  exact h i l hl hm (hxy ▸ hstands)

theorem last_release (leases : List Lease) (m : ℕ) (x : MemberMeta) : Last leases m x.release := by
  intro i l _ _ hstands
  cases hstands

theorem Last.of_other {leases' : List Lease} {x : MemberMeta} (h : Last leases m x)
    (hother : ∀ (i : ℕ) (l : Lease), leases'[i]? = some l → l.agentId = m →
      leases[i]? = some l) : Last leases' m x := by
  intro i l hl hm hstands j l' hl' hm'
  exact h i l (hother i l hl hm) hm hstands j l' (hother j l' hl' hm') hm'

variable {next : MemberMeta} {caller : PatchCaller}

/-- **A write of the leader**, with the leases it hands out. -/
theorem Leased.write_leases (h : s.Leased)
    (hother : ∀ (i : ℕ) (l : Lease), leases[i]? = some l → l.agentId ≠ m → s.leases[i]? = some l)
    (htokens : ∀ (i j : ℕ) (l l' : Lease), leases[i]? = some l → leases[j]? = some l' →
      l.agentId = l'.agentId → l.assignedAt = l'.assignedAt → i = j)
    (hlast : Last leases m next) (hsettled : s.mounted = true → s.Settled m)
    (hreleased : ∀ i, caller = .release i →
      ∀ (j : ℕ) (l : Lease), leases[j]? = some l → l.agentId = m → j ≤ i)
    (hreport : s.mounted = true → caller ≠ .assign → ∀ r : TeamReportRecord,
      (s.customs m).teamReport = some r → r.Received → next.teamReport = some r) :
    ({ s.write m next caller with leases := leases } : TeamDepartment).Leased := by
  have hkeep : ∀ (m' : ℕ) (x : MemberMeta), m' ≠ m → Last s.leases m' x → Last leases m' x :=
    fun m' x hne hx => hx.of_other fun i l hl hm => hother i l hl (hm ▸ hne)
  cases hmounted : s.mounted with
  | false =>
    obtain ⟨hpatches, hsession⟩ := h.session hmounted
    have hnone : (s.write m next caller).patches = [] := by
      rw [write, hmounted, if_neg Bool.false_ne_true, hpatches]
    refine ⟨htokens, fun m' => ?_, fun hfalse => ?_, ?_, ?_, ?_, ?_, fun _ => ⟨hnone, hsession⟩⟩
    · by_cases hm : m' = m
      · subst hm
        simpa [write] using hlast
      · simpa [write, update_of_ne hm] using hkeep m' _ hm (h.metas m')
    · exact absurd (hmounted.symm.trans hfalse) Bool.false_ne_true
    · intro p hp
      rw [hnone] at hp
      cases hp
    · rw [hnone]
      exact List.Pairwise.nil
    · intro p hp
      rw [hnone] at hp
      cases hp
    · intro p hp
      rw [hnone] at hp
      cases hp
  | true =>
    have hsingle := hsettled hmounted
    have hpatches : (s.write m next caller).patches = s.patches ++ [⟨m, next, caller⟩] := by
      rw [write, hmounted, if_pos rfl]
    have hmem : ∀ p ∈ (s.write m next caller).patches, p ∈ s.patches ∨ p = ⟨m, next, caller⟩ := by
      intro p hp
      rw [hpatches] at hp
      exact (mem_append.1 hp).imp_right mem_singleton.1
    refine ⟨htokens, fun m' => ?_, fun _ m' hm' => ?_, fun p hp => ?_, ?_, fun p hp i hi => ?_,
      fun p hp hne => ?_, fun hfalse => absurd (hmounted.symm.trans hfalse) (by decide)⟩
    · by_cases hm : m' = m
      · subst hm
        simpa [write] using hlast
      · simpa [write, update_of_ne hm] using hkeep m' _ hm (h.metas m')
    · have hne : m' ≠ m := by
        rintro rfl
        exact hm' ⟨m', next, caller⟩ (by simp [hpatches]) rfl
      refine hkeep m' _ hne (h.customs hmounted m' fun p hp => hm' p ?_)
      simp [hpatches, hp]
    · rcases hmem p hp with hp | rfl
      · exact hkeep _ _ (hsingle p hp) (h.patches p hp)
      · exact hlast
    · show List.Pairwise _ (s.write m next caller).patches
      rw [hpatches]
      refine pairwise_append.2 ⟨h.single, pairwise_singleton _ _, fun p hp q hq => ?_⟩
      obtain rfl := mem_singleton.1 hq
      exact hsingle p hp
    · rcases hmem p hp with hp | rfl
      · intro j l hl hm
        exact h.released p hp i hi j l (hother j l hl (hm ▸ hsingle p hp)) hm
      · exact hreleased i hi
    · rcases hmem p hp with hp | rfl
      · exact h.reports p hp hne
      · exact hreport hmounted hne

theorem Leased.write (h : s.Leased) (hlast : Last s.leases m next) (hstep : s.InStep m next)
    (hreleased : ∀ i, caller = .release i →
      ∀ (j : ℕ) (l : Lease), s.leases[j]? = some l → l.agentId = m → j ≤ i) :
    (s.write m next caller).Leased :=
  h.write_leases (fun _ _ hl _ => hl) h.tokens hlast (fun hm => (hstep hm).1) hreleased
    fun hm _ _ hr _ => (hstep hm).2.trans hr

/-! ### Steps of the loops -/

variable {assignedAt : ℕ} {a : TeamAssignment}

/-- One assignment is written; a lease is handed out with a token that is new for the member. -/
theorem Leased.assignOne (h : s.Leased)
    (hunused : s.Unused assignedAt a) (hsettled : s.mounted = true → s.Settled a.agentId)
    (hstep : a.task = none → s.InStep a.agentId (s.metas a.agentId)) :
    (s.assignOne assignedAt a).Leased := by
  cases htask : a.task with
  | none =>
    have heq : s.assignOne assignedAt a = { s.write a.agentId
        ((s.metas a.agentId).assign none assignedAt) .unassign with leases := s.leases } := by
      simp [TeamDepartment.assignOne, htask]
    rw [heq]
    refine h.write_leases (fun _ _ hl _ => hl) h.tokens ?_ hsettled (fun i hi => by cases hi)
      fun hm _ _ hr _ => (hstep htask hm).2.trans hr
    intro i l _ _ hstands
    cases hstands
  | some task =>
    have heq : s.assignOne assignedAt a = { s.write a.agentId
        ((s.metas a.agentId).assign (some task) assignedAt) .assign with
        leases := s.leases ++ [⟨a.agentId, assignedAt⟩] } := by
      simp [TeamDepartment.assignOne, htask]
    rw [heq]
    have hcases : ∀ (i : ℕ) (l : Lease),
        (s.leases ++ [⟨a.agentId, assignedAt⟩])[i]? = some l →
        s.leases[i]? = some l ∨ (i = s.leases.length ∧ ⟨a.agentId, assignedAt⟩ = l) :=
      fun i l hl => LibPlaces.getElem?_append_singleton hl
    have hnew : ∀ (i : ℕ) (l : Lease), s.leases[i]? = some l → l.agentId = a.agentId →
        l.assignedAt ≠ assignedAt := fun i l hl =>
      hunused (by simp [htask]) l (List.mem_of_getElem? hl)
    refine h.write_leases ?_ ?_ ?_ hsettled (fun i hi => by cases hi)
      fun _ hne => absurd rfl hne
    · intro i l hl hne
      rcases hcases i l hl with hold | ⟨-, rfl⟩
      · exact hold
      · exact absurd rfl hne
    · intro i j l l' hl hl' hagent htoken
      rcases hcases i l hl with hi | ⟨rfl, rfl⟩ <;> rcases hcases j l' hl' with hj | ⟨rfl, rfl⟩
      · exact h.tokens i j l l' hi hj hagent htoken
      · exact absurd htoken (hnew i l hi hagent)
      · exact absurd htoken.symm (hnew j l' hj hagent.symm)
      · rfl
    · -- the token that stands is the new one, and its lease is the last of all
      intro i l hl hm hstands j l' hl' _
      have htoken : assignedAt = l.assignedAt := some.inj hstands
      rcases hcases i l hl with hi | ⟨rfl, -⟩
      · exact absurd htoken.symm (hnew i l hi hm)
      · rcases hcases j l' hl' with hj | ⟨rfl, -⟩
        · exact Nat.le_of_lt (List.getElem?_eq_some_iff.1 hj).1
        · exact Nat.le_refl _

theorem Leased.with_assigning (h : s.Leased) (calls : List AssignCall)
    (hnone : s.mounted = false → calls = []) : ({ s with assigning := calls }).Leased :=
  ⟨h.tokens, h.metas, h.customs, h.patches, h.single, h.released, h.reports,
    fun hm => ⟨(h.session hm).1, hnone hm, (h.session hm).2.2⟩⟩

theorem Leased.with_locking (h : s.Leased) (calls : List (List (ℕ × MemberMeta)))
    (hnone : s.mounted = false → calls = []) : ({ s with locking := calls }).Leased :=
  ⟨h.tokens, h.metas, h.customs, h.patches, h.single, h.released, h.reports,
    fun hm => ⟨(h.session hm).1, (h.session hm).2.1, hnone hm⟩⟩

theorem Unused.assignOne {b : TeamAssignment} (h : s.Unused assignedAt b)
    (hne : b.agentId ≠ a.agentId) : (s.assignOne assignedAt a).Unused assignedAt b := by
  intro hb l hl hagent
  have hmem : l ∈ s.leases ∨ l = ⟨a.agentId, assignedAt⟩ := by
    simp only [TeamDepartment.assignOne] at hl
    split at hl
    · exact (mem_append.1 hl).imp_right mem_singleton.1
    · exact .inl hl
  rcases hmem with hmem | rfl
  · exact h hb l hmem hagent
  · exact absurd hagent.symm hne

variable {assignments : List TeamAssignment}

/-- **The loop of `TeamAssign`.** -/
theorem Leased.assignLoop (h : s.Leased) (horderly : s.AssignOrderly assignedAt assignments)
    (hdistinct : s.mounted = false → (assignments.map TeamAssignment.agentId).Nodup) :
    (s.assignLoop assignedAt assignments).Leased := by
  induction assignments generalizing s with
  | nil => exact h
  | cons a rest ih =>
    obtain ⟨hunused, hrest, hsettled, hstep⟩ := horderly
    have hone := h.assignOne hunused hsettled hstep
    rw [TeamDepartment.assignLoop]
    cases hmounted : s.mounted with
    | true =>
      rw [if_pos rfl]
      refine hone.with_assigning _ fun hfalse => ?_
      exact absurd (hmounted.symm.trans hfalse) (by decide)
    | false =>
      rw [if_neg Bool.false_ne_true]
      have hnodup := nodup_cons.1 (hdistinct hmounted)
      refine ih hone ?_ fun _ => hnodup.2
      have hnew : ∀ b ∈ rest, (s.assignOne assignedAt a).Unused assignedAt b :=
        fun b hb => (hrest hmounted b hb).assignOne fun heq =>
          hnodup.1 (heq ▸ mem_map_of_mem hb)
      have hsession : ∀ {p : Prop}, (s.assignOne assignedAt a).mounted = true → p :=
        fun htrue => absurd (hmounted.symm.trans htrue) Bool.false_ne_true
      cases rest with
      | nil => trivial
      | cons b rest =>
        refine ⟨hnew b mem_cons_self, fun _ c hc => hnew c (.tail _ hc),
          fun htrue => hsession htrue, fun _ htrue => hsession htrue⟩

/-- **The loop that locks a team.** -/
theorem Leased.lockLoop (h : s.Leased) {members : List (ℕ × MemberMeta)}
    (hstep : ∀ x ∈ members.head?, s.InStep x.1 x.2) : (s.lockLoop members).Leased := by
  induction members generalizing s with
  | nil => exact h
  | cons x rest ih =>
    obtain ⟨m, current⟩ := x
    have hone : (s.write m current.release .lock).Leased :=
      h.write (last_release _ _ _) (hstep _ rfl) fun i hi => by cases hi
    rw [TeamDepartment.lockLoop]
    cases hmounted : s.mounted with
    | true =>
      rw [if_pos rfl]
      refine hone.with_locking _ fun hfalse => ?_
      exact absurd (hmounted.symm.trans hfalse) (by decide)
    | false =>
      rw [if_neg Bool.false_ne_true]
      refine ih hone fun y _ htrue => ?_
      exact absurd (hmounted.symm.trans htrue) Bool.false_ne_true

/-! ### Reports -/

/-- The report of a member is recorded in its own session, or in that of the leader. -/
theorem Leased.writeReport (h : s.Leased) (hm : s.Settled m) (r : TeamReportRecord) :
    (s.writeReport m r).Leased := by
  have hupdate : ∀ (f : ℕ → MemberMeta) (m' : ℕ),
      (update f m { f m with teamReport := some r } m').assignedAt = (f m').assignedAt := by
    intro f m'
    by_cases heq : m' = m
    · subst heq
      simp
    · simp [update_of_ne heq]
  by_cases hmounted : s.mounted = true
  · rw [TeamDepartment.writeReport, if_pos hmounted]
    refine ⟨h.tokens, h.metas, fun _ m' hm' => ?_, h.patches, h.single, h.released,
      fun p hp hne => ?_, h.session⟩
    · exact last_of_assignedAt (h.customs hmounted m' hm') (hupdate _ _)
    · show ∀ r : TeamReportRecord, (update s.customs m _ p.agentId).teamReport = _ → _
      rw [update_of_ne (hm p hp)]
      exact h.reports p hp hne
  · rw [TeamDepartment.writeReport, if_neg hmounted]
    exact ⟨h.tokens, fun m' => last_of_assignedAt (h.metas m') (hupdate _ _), h.customs, h.patches,
      h.single, h.released, h.reports, h.session⟩

theorem Leased.recordTeamReport (h : s.Leased) (hm : s.Settled m) (status : TeamReportStatus)
    (summary : String) (now : ℕ) : (s.recordTeamReport m status summary now).Leased := by
  rw [TeamDepartment.recordTeamReport]
  split
  · exact h
  · split
    · exact h
    · exact h.writeReport hm _

theorem Leased.acknowledgeTeamReport (h : s.Leased) (hm : s.Settled m) (now : ℕ) :
    (s.acknowledgeTeamReport m now).Leased := by
  rw [TeamDepartment.acknowledgeTeamReport]
  split
  · exact h
  · split
    · exact h
    · exact h.writeReport hm _

/-! ### The other writes -/

variable {l : Lease}

theorem Leased.releaseTeamAssignment (h : s.Leased) {i : ℕ} (hl : s.leases[i]? = some l)
    (hstep : s.Releasable l → s.InStep l.agentId (s.metas l.agentId)) :
    (s.releaseTeamAssignment i l).Leased := by
  rw [TeamDepartment.releaseTeamAssignment]
  split
  · rename_i hreleasable
    refine h.write (last_release _ _ _) (hstep hreleasable) fun i' hi' => ?_
    obtain rfl := PatchCaller.release.inj hi'
    exact h.metas l.agentId i l hl rfl hreleasable.2
  · exact h

theorem Leased.notifyMissingTeamReport (h : s.Leased) (now : ℕ)
    (hstep : ∀ report ∈ (s.metas l.agentId).teamReport, s.Missing l report →
      s.InStep l.agentId (s.metas l.agentId)) : (s.notifyMissingTeamReport l now).Leased := by
  rw [TeamDepartment.notifyMissingTeamReport]
  split
  · exact h
  · rename_i report hreport
    split
    · rename_i hmissing
      have hin := hstep report hreport hmissing
      refine h.write_leases (fun _ _ hl _ => hl) h.tokens ?_ (fun hm => (hin hm).1)
        (fun i hi => by cases hi) fun hm _ r hr hreceived => ?_
      · exact last_of_assignedAt (h.metas l.agentId) rfl
      · -- the reminder is about a report that nobody has made
        obtain rfl := some.inj (hreport.symm.trans ((hin hm).2.trans hr))
        exact absurd hmissing.2.2.1 hreceived.1
    · exact h

theorem Leased.recordTeamTurnSkip (h : s.Leased) (reason : String) {detail : String}
    (hstep : isBlank detail = false → s.InStep m (s.metas m)) :
    (s.recordTeamTurnSkip m reason detail).Leased := by
  rw [TeamDepartment.recordTeamTurnSkip]
  split
  · exact h
  · rename_i hblank
    exact h.write (last_of_assignedAt (h.metas m) rfl) (hstep (eq_false_of_ne_true hblank))
      fun i hi => by cases hi

theorem Leased.clearTeamTurnSkip (h : s.Leased)
    (hstep : (s.metas m).lastTurnSkip ≠ none → s.InStep m (s.metas m)) :
    (s.clearTeamTurnSkip m).Leased := by
  rw [TeamDepartment.clearTeamTurnSkip]
  split
  · exact h
  · rename_i hskip
    exact h.write (last_of_assignedAt (h.metas m) rfl) (hstep hskip) fun i hi => by cases hi

theorem Leased.patchMember (h : s.Leased) {k : ℕ} {p : MemberPatch} (hp : s.patches[k]? = some p) :
    ({ s with
      customs := update s.customs p.agentId p.patch
      patches := s.patches.eraseIdx k } : TeamDepartment).Leased := by
  have hsub : ∀ q ∈ s.patches.eraseIdx k, q ∈ s.patches := fun q hq => List.mem_of_mem_eraseIdx hq
  have hmem := List.mem_of_getElem? hp
  have hother : ∀ q ∈ s.patches.eraseIdx k, q.agentId ≠ p.agentId := by
    intro q hq
    obtain ⟨j, hjk, hj⟩ := List.mem_eraseIdx_iff_getElem?.1 hq
    obtain ⟨hjlen, rfl⟩ := List.getElem?_eq_some_iff.1 hj
    obtain ⟨hklen, rfl⟩ := List.getElem?_eq_some_iff.1 hp
    rcases Nat.lt_or_gt_of_ne hjk with hlt | hgt
    · exact List.pairwise_iff_getElem.1 h.single j k hjlen hklen hlt
    · exact (List.pairwise_iff_getElem.1 h.single k j hklen hjlen hgt).symm
  refine ⟨h.tokens, h.metas, fun hmounted m hm => ?_, fun q hq => h.patches q (hsub q hq),
    h.single.sublist (List.eraseIdx_sublist _ _), fun q hq => h.released q (hsub q hq),
    fun q hq hne => ?_, fun hm => ?_⟩
  · by_cases heq : m = p.agentId
    · subst heq
      simpa using h.patches p hmem
    · simp only [update_of_ne heq]
      refine h.customs hmounted m fun q hq hqm => ?_
      rcases LibPlaces.mem_eraseIdx_or_eq hp hq with hrest | rfl
      · exact hm q hrest hqm
      · exact heq hqm.symm
  · show ∀ r : TeamReportRecord, (update s.customs p.agentId p.patch q.agentId).teamReport = _ → _
    rw [update_of_ne (hother q hq)]
    exact h.reports q (hsub q hq) hne
  · have hnone := (h.session hm).1
    rw [hnone] at hmem
    cases hmem

theorem Leased.refresh (h : s.Leased) (hmounted : s.mounted = true) (hm : s.Settled m) :
    ({ s with metas := update s.metas m (s.customs m) } : TeamDepartment).Leased := by
  refine ⟨h.tokens, fun m' => ?_, h.customs, h.patches, h.single, h.released, h.reports, h.session⟩
  by_cases heq : m' = m
  · subst heq
    simpa using h.customs hmounted m' hm
  · simpa [update_of_ne heq] using h.metas m'

/-! ### The invariant is kept -/

variable {now : ℕ}

theorem tick_eq (h : s.tick now = some t) : t = { s with clock := now } := by
  rw [tick] at h
  split at h
  · exact (some.inj h).symm
  · cases h

theorem Leased.tick (h : s.Leased) (ht : s.tick now = some t) : t.Leased := by
  obtain rfl := tick_eq ht
  exact ⟨h.tokens, h.metas, h.customs, h.patches, h.single, h.released, h.reports, h.session⟩

theorem assignOrderly_tick (h : s.AssignOrderly assignedAt assignments) :
    ({ s with clock := now } : TeamDepartment).AssignOrderly assignedAt assignments := by
  cases assignments with
  | nil => trivial
  | cons a rest => exact h

variable {e : LeaseEvent}

/-- **Every step keeps the invariant.** -/
theorem Leased.step (h : s.Leased) (horderly : s.Orderly e)
    (hstep : s.step e = some t) : t.Leased := by
  cases e <;> dsimp only [TeamDepartment.step] at hstep
  case assign assignments now =>
    split at hstep
    · rename_i hguard
      obtain ⟨s', hs', rfl⟩ := map_eq_some_iff.1 hstep
      have htick := h.tick hs'
      obtain rfl := tick_eq hs'
      exact htick.assignLoop (assignOrderly_tick horderly) fun _ => hguard.1.2.1
    · cases hstep
  case resumeAssign k =>
    obtain ⟨call, hcall, rfl⟩ := map_eq_some_iff.1 hstep
    have hmounted : s.mounted = true := by
      by_contra hfalse
      have hnone := (h.session (eq_false_of_ne_true hfalse)).2.1
      rw [hnone] at hcall
      cases hcall
    refine (h.with_assigning (s.assigning.eraseIdx k) fun hfalse => ?_).assignLoop ?_ fun hfalse => ?_
    · exact absurd (hmounted.symm.trans hfalse) (by decide)
    · have hcall' := horderly call hcall
      cases hremaining : call.remaining with
      | nil => trivial
      | cons a rest =>
        rw [hremaining] at hcall'
        exact hcall'
    · exact absurd (hmounted.symm.trans hfalse) (by decide)
  case release i =>
    obtain ⟨l, hl, rfl⟩ := map_eq_some_iff.1 hstep
    exact h.releaseTeamAssignment hl (horderly l hl)
  case notifyMissing i now =>
    obtain ⟨l, hl, hstep⟩ := bind_eq_some_iff.1 hstep
    obtain ⟨s', hs', rfl⟩ := map_eq_some_iff.1 hstep
    have htick := h.tick hs'
    obtain rfl := tick_eq hs'
    exact htick.notifyMissingTeamReport now (horderly l hl)
  case record m status summary now =>
    split at hstep
    · obtain ⟨s', hs', rfl⟩ := map_eq_some_iff.1 hstep
      have htick := h.tick hs'
      obtain rfl := tick_eq hs'
      have hm : ({ s with clock := now } : TeamDepartment).Settled m := horderly
      exact htick.recordTeamReport hm status summary now
    · cases hstep
  case acknowledge m now =>
    split at hstep
    · obtain ⟨s', hs', rfl⟩ := map_eq_some_iff.1 hstep
      have htick := h.tick hs'
      obtain rfl := tick_eq hs'
      have hm : ({ s with clock := now } : TeamDepartment).Settled m := horderly
      exact htick.acknowledgeTeamReport hm now
    · cases hstep
  case recordSkip m reason detail =>
    split at hstep
    · obtain rfl := some.inj hstep
      exact h.recordTeamTurnSkip reason horderly
    · cases hstep
  case clearSkip m =>
    split at hstep
    · obtain rfl := some.inj hstep
      exact h.clearTeamTurnSkip horderly
    · cases hstep
  case lock =>
    obtain rfl := some.inj hstep
    exact h.lockLoop horderly
  case resumeLock k =>
    obtain ⟨rest, hrest, rfl⟩ := map_eq_some_iff.1 hstep
    refine (h.with_locking (s.locking.eraseIdx k) fun hfalse => ?_).lockLoop (horderly rest hrest)
    have hnone := (h.session hfalse).2.2
    rw [hnone]
    rfl
  case patchMember k =>
    obtain ⟨p, hp, rfl⟩ := map_eq_some_iff.1 hstep
    exact h.patchMember hp
  case refresh m =>
    split at hstep
    · rename_i hmounted
      obtain rfl := some.inj hstep
      exact h.refresh hmounted horderly
    · cases hstep
  case turnStarts m =>
    obtain rfl := some.inj hstep
    exact ⟨h.tokens, h.metas, h.customs, h.patches, h.single, h.released, h.reports, h.session⟩
  case turnEnds m =>
    obtain rfl := some.inj hstep
    exact ⟨h.tokens, h.metas, h.customs, h.patches, h.single, h.released, h.reports, h.session⟩

/-! ### Releases -/

/-- **The release of a lease leaves later assignments alone.** -/
theorem Leased.laterKept (h : s.Leased) (hstep : s.step e = some t) : s.LaterKept e t := by
  intro i hi j l hij hl
  cases e with
  | release i' =>
    obtain rfl := some.inj hi
    obtain ⟨l₀, hl₀, rfl⟩ := map_eq_some_iff.1 hstep
    rw [TeamDepartment.releaseTeamAssignment]
    split
    · rename_i hreleasable
      refine ⟨fun hstands => ?_, fun _ => rfl⟩
      by_cases heq : l.agentId = l₀.agentId
      · have htoken : l₀.assignedAt = l.assignedAt := by
          rw [heq, hreleasable.2] at hstands
          exact some.inj hstands
        exact absurd (h.tokens i' j l₀ l hl₀ hl heq.symm htoken) (Nat.ne_of_lt hij)
      · simp only [TeamDepartment.write, update_of_ne heq]
    · exact ⟨fun _ => rfl, fun _ => rfl⟩
  | patchMember k =>
    obtain ⟨p, hp, hcaller⟩ := bind_eq_some_iff.1 hi
    obtain ⟨p', hp', rfl⟩ := map_eq_some_iff.1 hstep
    cases hp.symm.trans hp'
    have hrelease : p.caller = .release i := by
      split at hcaller <;> cases hcaller
      rename_i i' heq
      exact heq
    have hne : l.agentId ≠ p.agentId := fun heq =>
      absurd (h.released p (mem_of_getElem? hp) i hrelease j l hl heq) (Nat.not_le.2 hij)
    refine ⟨fun _ => rfl, fun _ => ?_⟩
    simp only [update_of_ne hne]
  | _ => cases hi

/-! ### Reports that were received -/

theorem report_mounted (h : s.mounted = true) (m : ℕ) : s.report m = (s.customs m).teamReport := by
  rw [report, reports, if_pos h]

theorem report_eq (hreports : t.reports = s.reports) (m : ℕ) : t.report m = s.report m := by
  rw [report, report, hreports]

theorem report_write
    (hnext : s.mounted = false → next.teamReport = (s.metas m).teamReport) (m' : ℕ) :
    (s.write m next caller).report m' = s.report m' := by
  cases hmounted : s.mounted with
  | true => simp [report, reports, TeamDepartment.write, hmounted]
  | false =>
    by_cases heq : m' = m
    · subst heq
      simpa [report, reports, TeamDepartment.write, hmounted] using hnext hmounted
    · simp [report, reports, TeamDepartment.write, hmounted, update_of_ne heq]

theorem report_assignOne (hm : s.mounted = false → a.agentId = m → a.task = none) :
    (s.assignOne assignedAt a).report m = s.report m := by
  cases hmounted : s.mounted with
  | true => simp [report, reports, TeamDepartment.assignOne, TeamDepartment.write, hmounted]
  | false =>
    by_cases heq : a.agentId = m
    · subst heq
      simp [report, reports, TeamDepartment.assignOne, TeamDepartment.write, hmounted,
        hm hmounted rfl, MemberMeta.assign]
    · simp [report, reports, TeamDepartment.assignOne, TeamDepartment.write, hmounted,
        update_of_ne (Ne.symm heq)]

theorem report_assignLoop
    (hm : s.mounted = false → ∀ a ∈ assignments, a.agentId = m → a.task = none) :
    (s.assignLoop assignedAt assignments).report m = s.report m := by
  induction assignments generalizing s with
  | nil => rfl
  | cons a rest ih =>
    have hone : (s.assignOne assignedAt a).report m = s.report m :=
      report_assignOne fun hfalse => hm hfalse a (.head _)
    rw [assignLoop]
    split
    · exact hone
    · refine (ih (s := s.assignOne assignedAt a) fun hfalse b hb => ?_).trans hone
      exact hm hfalse b (.tail _ hb)

theorem report_lockLoop {members : List (ℕ × MemberMeta)}
    (hmembers : s.mounted = false →
      ∀ x ∈ members, x.2.teamReport = (s.metas x.1).teamReport) (m : ℕ) :
    (s.lockLoop members).report m = s.report m := by
  induction members generalizing s with
  | nil => rfl
  | cons x rest ih =>
    obtain ⟨m₀, current⟩ := x
    have hone : ∀ m', (s.write m₀ current.release .lock).report m' = s.report m' :=
      report_write fun hfalse => hmembers hfalse _ (.head _)
    rw [lockLoop]
    split
    · exact hone m
    · rename_i hmounted
      have hfalse := eq_false_of_ne_true hmounted
      refine (ih fun _ y hy => ?_).trans (hone m)
      have hy' := hmembers hfalse y (.tail _ hy)
      have hsame := hone y.1
      simp only [report, reports, TeamDepartment.write, hfalse, Bool.false_eq_true, if_false]
        at hsame
      exact hy'.trans hsame.symm

variable {m' : ℕ} {r : TeamReportRecord}

theorem report_writeReport (hne : m' ≠ m) : (s.writeReport m r).report m' = s.report m' := by
  by_cases hmounted : s.mounted = true
  · simp [report, reports, writeReport, hmounted, update_of_ne hne]
  · simp [report, reports, writeReport, hmounted, update_of_ne hne]

theorem report_recordTeamReport {status : TeamReportStatus} {summary : String}
    (hr : s.report m' = some r) (hreceived : r.Received) :
    (s.recordTeamReport m status summary now).report m' = some r := by
  rw [recordTeamReport]
  split
  · exact hr
  · rename_i current hcurrent
    split
    · exact hr
    · rename_i hguard
      have hne : m' ≠ m := by
        rintro rfl
        cases hcurrent.symm.trans hr
        exact hguard (.inl hreceived.2)
      rw [report_writeReport hne, hr]

theorem report_acknowledgeTeamReport (hr : s.report m' = some r) (hreceived : r.Received) :
    (s.acknowledgeTeamReport m now).report m' = some r := by
  rw [acknowledgeTeamReport]
  split
  · exact hr
  · rename_i current hcurrent
    split
    · exact hr
    · rename_i hguard
      have hne : m' ≠ m := by
        rintro rfl
        cases hcurrent.symm.trans hr
        exact hguard (.inr hreceived.2)
      rw [report_writeReport hne, hr]

theorem report_notifyMissing (hr : s.report m = some r) (hreceived : r.Received) :
    (s.notifyMissingTeamReport l now).report m = some r := by
  rw [notifyMissingTeamReport]
  split
  · exact hr
  · rename_i current hcurrent
    split
    · rename_i hmissing
      cases hmounted : s.mounted with
      | true => simpa [report, reports, TeamDepartment.write, hmounted] using hr
      | false =>
        have hne : m ≠ l.agentId := by
          rintro rfl
          simp only [report, reports, hmounted, Bool.false_eq_true, if_false] at hr
          cases hcurrent.symm.trans hr
          exact hreceived.1 hmissing.2.2.1
        simpa [report, reports, TeamDepartment.write, hmounted, update_of_ne hne] using hr
    · exact hr

/-- **A report that was received stays.** -/
theorem Leased.receivedKept (h : s.Leased) (hstep : s.step e = some t) : s.ReceivedKept e t := by
  intro m r hr hreceived
  cases e <;> dsimp only [TeamDepartment.step] at hstep
  case assign assignments now =>
    split at hstep
    · obtain ⟨s', hs', rfl⟩ := map_eq_some_iff.1 hstep
      obtain rfl := tick_eq hs'
      by_cases hassigns : s.Assigns m (.assign assignments now)
      · exact .inl hassigns
      · refine .inr ((report_assignLoop fun hfalse a ha hagent => ?_).trans hr)
        by_contra htask
        exact hassigns ⟨hfalse, a, ha, hagent, isSome_iff_ne_none.2 htask⟩
    · cases hstep
  case resumeAssign k =>
    obtain ⟨call, hcall, rfl⟩ := map_eq_some_iff.1 hstep
    refine .inr ((report_assignLoop fun hfalse => ?_).trans hr)
    have hnone := (h.session hfalse).2.1
    rw [hnone] at hcall
    cases hcall
  case release i =>
    obtain ⟨l, hl, rfl⟩ := map_eq_some_iff.1 hstep
    rw [TeamDepartment.releaseTeamAssignment]
    split
    · refine .inr ((report_write (fun _ => ?_) m).trans hr)
      rfl
    · exact .inr hr
  case notifyMissing i now =>
    obtain ⟨l, hl, hstep⟩ := bind_eq_some_iff.1 hstep
    obtain ⟨s', hs', rfl⟩ := map_eq_some_iff.1 hstep
    obtain rfl := tick_eq hs'
    exact .inr (report_notifyMissing hr hreceived)
  case record m' status summary now =>
    split at hstep
    · obtain ⟨s', hs', rfl⟩ := map_eq_some_iff.1 hstep
      obtain rfl := tick_eq hs'
      exact .inr (report_recordTeamReport hr hreceived)
    · cases hstep
  case acknowledge m' now =>
    split at hstep
    · obtain ⟨s', hs', rfl⟩ := map_eq_some_iff.1 hstep
      obtain rfl := tick_eq hs'
      exact .inr (report_acknowledgeTeamReport hr hreceived)
    · cases hstep
  case recordSkip m' reason detail =>
    split at hstep
    · obtain rfl := some.inj hstep
      rw [TeamDepartment.recordTeamTurnSkip]
      split
      · exact .inr hr
      · refine .inr ((report_write (fun _ => ?_) m).trans hr)
        rfl
    · cases hstep
  case clearSkip m' =>
    split at hstep
    · obtain rfl := some.inj hstep
      rw [TeamDepartment.clearTeamTurnSkip]
      split
      · exact .inr hr
      · refine .inr ((report_write (fun _ => ?_) m).trans hr)
        rfl
    · cases hstep
  case lock =>
    obtain rfl := some.inj hstep
    refine .inr ((report_lockLoop (fun _ x hx => ?_) m).trans hr)
    obtain ⟨m', -, rfl⟩ := mem_map.1 (mem_of_mem_filter hx)
    rfl
  case resumeLock k =>
    obtain ⟨rest, hrest, rfl⟩ := map_eq_some_iff.1 hstep
    refine .inr ((report_lockLoop (fun hfalse => ?_) m).trans hr)
    have hnone := (h.session hfalse).2.2
    rw [hnone] at hrest
    cases hrest
  case patchMember k =>
    obtain ⟨p, hp, rfl⟩ := map_eq_some_iff.1 hstep
    have hmem := mem_of_getElem? hp
    have hmounted : s.mounted = true := by
      by_contra hfalse
      rw [(h.session (eq_false_of_ne_true hfalse)).1] at hmem
      cases hmem
    rw [report_mounted hmounted] at hr
    rw [report_mounted (by exact hmounted)]
    dsimp only
    by_cases heq : m = p.agentId
    · subst heq
      by_cases hcaller : p.caller = .assign
      · exact .inl ⟨p, hp, rfl, hcaller⟩
      · rw [update_self]
        exact .inr (h.reports p hmem hcaller r hr hreceived)
    · rw [update_of_ne heq]
      exact .inr hr
  case refresh m' =>
    split at hstep
    · rename_i hmounted
      obtain rfl := some.inj hstep
      refine .inr ((report_eq ?_ m).trans hr)
      rw [TeamDepartment.reports, TeamDepartment.reports, if_pos hmounted, if_pos hmounted]
    · cases hstep
  case turnStarts m' | turnEnds m' =>
    obtain rfl := some.inj hstep
    exact .inr ((report_eq rfl m).trans hr)

/-! ### Runs -/

/-- No call is under way, and no lease is held. -/
structure Idle (s : TeamDepartment) : Prop where
  patches : s.patches = []
  assigning : s.assigning = []
  locking : s.locking = []
  leases : s.leases = []

theorem Idle.leased (h : s.Idle) : s.Leased := by
  have hno : ∀ (i : ℕ) (l : Lease), s.leases[i]? ≠ some l := by
    intro i l hl
    rw [h.leases] at hl
    cases hl
  have hnone : ∀ p ∈ s.patches, False := by
    intro p hp
    rw [h.patches] at hp
    cases hp
  refine ⟨fun i _ l _ hl => absurd hl (hno i l), fun m i l hl => absurd hl (hno i l),
    fun _ m _ i l hl => absurd hl (hno i l), fun p hp => (hnone p hp).elim, ?_,
    fun p hp => (hnone p hp).elim, fun p hp => (hnone p hp).elim,
    fun _ => ⟨h.patches, h.assigning, h.locking⟩⟩
  rw [h.patches]
  exact List.Pairwise.nil

/-- **A lease never clears a later assignment, and a report that was received stays.** In every
orderly run, the release of a lease leaves the assignments of later calls alone, in the store of the
leader and in that of the member; and a report that was received changes only when the member is
given a task. -/
theorem run_leases (s₀ : TeamDepartment) (h₀ : s₀.Idle) (l : List LeaseEvent) (s : TeamDepartment)
    (h : LibRun.Run step Orderly s₀ l s) (e : LeaseEvent) (t : TeamDepartment)
    (hstep : s.step e = some t) :
    s.LaterKept e t ∧ s.ReceivedKept e t := by
  have hs : s.Leased := h.invariant h₀.leased fun _ _ _ ht hok hu => ht.step hok hu
  exact ⟨hs.laterKept hstep, hs.receivedKept hstep⟩

/-- A mounted member is given a task, reports, and is given another one; the lease of the first is
released last. -/
theorem run_leases_example : ∃ s, LibRun.Run step Orderly { mounted := true, members := [1] }
      [.assign [⟨1, some "a"⟩] 5, .patchMember 0, .record 1 .completed "done" 6, .acknowledge 1 7,
        .refresh 1, .assign [⟨1, some "b"⟩] 8, .patchMember 0, .refresh 1] s ∧
    ∃ t, s.step (.release 0) = some t ∧
      s.LaterKept (.release 0) t ∧ s.ReceivedKept (.release 0) t := by
  have hidle : Idle { mounted := true, members := [1] } := ⟨rfl, rfl, rfl, rfl⟩
  have hrun : ∃ s, LibRun.Run step Orderly { mounted := true, members := [1] }
      [.assign [⟨1, some "a"⟩] 5, .patchMember 0, .record 1 .completed "done" 6, .acknowledge 1 7,
        .refresh 1, .assign [⟨1, some "b"⟩] 8, .patchMember 0, .refresh 1] s ∧
      (s.step (.release 0)).isSome :=
    exists_run (by decide +kernel) (by decide +kernel)
  obtain ⟨s, hs, hstep⟩ := hrun
  obtain ⟨t, ht⟩ := isSome_iff_exists.1 hstep
  exact ⟨s, hs, t, ht, run_leases _ hidle _ s hs _ t ht⟩

/-- **A lease that clears a later assignment, and a report that does not stay.** Two calls read the
same millisecond, and the lease of the first is released while the task of the second stands. A
mounted member reports during its turn; at the end of the turn the leader, whose copy knows of no
report, writes a reminder over the one it has received. -/
theorem not_leased :
    (∃ s, LibRun.Run step always { mounted := false, members := [1] }
        [.assign [⟨1, some "a"⟩] 5, .assign [⟨1, some "b"⟩] 5] s ∧
      ∃ t, LibRun.Run step always s [.release 0] t ∧ ¬s.LaterKept (.release 0) t) ∧
    ∃ s, LibRun.Run step always { mounted := true, members := [1] }
        [.assign [⟨1, some "a"⟩] 5, .patchMember 0, .turnStarts 1, .record 1 .completed "done" 6,
          .acknowledge 1 7, .turnEnds 1, .notifyMissing 0 8] s ∧
      ∃ t, LibRun.Run step always s [.patchMember 0] t ∧ ¬s.ReceivedKept (.patchMember 0) t := by
  constructor
  · have hrun : ∃ s, LibRun.Run step always { mounted := false, members := [1] }
        [.assign [⟨1, some "a"⟩] 5, .assign [⟨1, some "b"⟩] 5] s ∧
        (s.leases = [⟨1, 5⟩, ⟨1, 5⟩] ∧ (s.metas 1).assignment = (some "b", some 5)) ∧
        ∃ t, LibRun.Run step always s [.release 0] t ∧ (t.metas 1).assignment = (none, none) :=
      exists_two_runs (by decide +kernel)
    obtain ⟨s, hs, ⟨hleases, hassignment⟩, t, ht, hcleared⟩ := hrun
    refine ⟨s, hs, t, ht, fun hkept => ?_⟩
    have hsame := (hkept 0 rfl 1 ⟨1, 5⟩ (by decide) (by rw [hleases]; rfl)).1
      (congrArg Prod.snd hassignment)
    rw [hcleared, hassignment] at hsame
    cases hsame
  · have hrun : ∃ s, LibRun.Run step always { mounted := true, members := [1] }
        [.assign [⟨1, some "a"⟩] 5, .patchMember 0, .turnStarts 1, .record 1 .completed "done" 6,
          .acknowledge 1 7, .turnEnds 1, .notifyMissing 0 8] s ∧
        (s.report 1 = some { assignmentId := 5, task := "a", status := .completed
                             summary := some "done", reportedAt := some 6, receivedAt := some 7 } ∧
          (s.patches.map fun p => (p.agentId, p.caller)) = [(1, .reminder)]) ∧
        ∃ t, LibRun.Run step always s [.patchMember 0] t ∧
          t.report 1 = some { assignmentId := 5, task := "a", status := .unreported
                              missingReminderAt := some 8 } :=
      exists_two_runs (by decide +kernel)
    obtain ⟨s, hs, ⟨hreport, hpatches⟩, t, ht, hreopened⟩ := hrun
    refine ⟨s, hs, t, ht, fun hkept => ?_⟩
    rcases hkept 1 _ hreport ⟨by decide, by decide⟩ with ⟨p, hp, -, hassign⟩ | hsame
    · have hp' := congrArg (fun l => l[0]?) hpatches
      simp [mem_def.1 hp, hassign] at hp'
    · rw [hreopened] at hsame
      cases hsame

end TeamDepartment

end NoriCode
