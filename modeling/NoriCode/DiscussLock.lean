/-
**The write lock of Discuss.**

While a leader is in Discuss its department is read-only: the agents of its own session are
configured so, and the sessions mounted under it are locked by calls that are carried out later.
What a lock overwrites, and what a release sets, is spread over the agent of a session and two modes
that the session remembers.

The module embeds `agent/discussion/index.ts`, of `session/index.ts` `configureTeamAgentRuntime`,
`configureTeamMembers`, the functions that hold and release the lock, and those that change the mode
and the runtime settings, and `setWriteLocked` of `rpc/core-impl.ts`.

Main definitions:

* `LockSession` — a session, its main agent and the agents of its team;
* `DiscussDepartment`, with `step` — a leader, its members and the calls under way;
* `DiscussDepartment.Orderly` — nothing undoes a lock while the leader is in Discuss, and a
  lock is released where there was nothing to restore.

Main results:

* `DiscussDepartment.run_locked` — **members are locked during Discuss, and get back what
  they had**.
-/

import NoriCode.DepartmentPermission
import NoriCode.LibKeyedLock

namespace NoriCode

open List Option LibRun LibPlaces

/-! ### Agents and sessions -/

/-- What a lock changes of an agent. -/
structure AgentLock where
  teamWriteLocked : Bool := false
  toolsReadonly : Bool := false
  mode : PermissionMode := .manual
  /-- The setting before the lock. -/
  readonlyBefore : Bool := false

namespace AgentLock

def lock (a : AgentLock) : AgentLock where
  teamWriteLocked := true
  toolsReadonly := true
  mode := .manual
  readonlyBefore := if a.teamWriteLocked then a.readonlyBefore else a.toolsReadonly

def unlock (a : AgentLock) : AgentLock := { a with teamWriteLocked := false, toolsReadonly := false }

/-- Write-locked, readonly and in manual mode. -/
def Held (a : AgentLock) : Prop :=
  a.teamWriteLocked = true ∧ a.toolsReadonly = true ∧ a.mode = .manual

end AgentLock

structure NoriRuntimeSettings where
  coderWriteEnabled : Bool
  toolsReadonly : Bool

structure SettingsPatch where
  coderWriteEnabled : Option Bool := none
  toolsReadonly : Option Bool := none

structure LockSession where
  main : AgentLock := {}
  /-- The main agent is in Discuss. -/
  discuss : Bool := false
  sessionPermissionMode : Option PermissionMode := none
  departmentWriteLockMode : Option PermissionMode := none
  settings : Option NoriRuntimeSettings := none
  /-- Settings that are stored, and still to be applied. -/
  applying : List NoriRuntimeSettings := []
  teamAgents : List AgentLock := []
  /-- The mode that was chosen last. -/
  chosen : PermissionMode := .manual

namespace LockSession

/-- `configureTeamAgentRuntime`, for an agent that the main agent leads. -/
def configureTeamAgentRuntime (s : LockSession) (a : AgentLock) : AgentLock :=
  if s.discuss then a.lock
  else { a.unlock with mode := s.sessionPermissionMode.getD s.main.mode }

def configureTeamAgents (s : LockSession) : LockSession :=
  { s with teamAgents := s.teamAgents.map s.configureTeamAgentRuntime }

def currentPermissionMode (s : LockSession) : PermissionMode :=
  s.sessionPermissionMode.getD s.main.mode

/-- The mode is remembered by the first lock. -/
def holdDepartmentWriteLock (s : LockSession) : LockSession :=
  { s with departmentWriteLockMode := s.departmentWriteLockMode.or (some s.currentPermissionMode) }

def applySessionPermissionMode (s : LockSession) (mode : PermissionMode) : LockSession :=
  { s with
    sessionPermissionMode := some mode
    main := { s.main with mode :=
      if ¬s.main.teamWriteLocked = true ∧ s.main.mode ≠ mode then mode else s.main.mode }
    : LockSession }.configureTeamAgents

def releaseDepartmentWriteLock (s : LockSession) : LockSession :=
  let released := { s with departmentWriteLockMode := none }
  match s.sessionPermissionMode.or s.departmentWriteLockMode with
  | some mode => released.applySessionPermissionMode mode
  | none => released

def setWriteLocked (s : LockSession) (locked : Bool) : LockSession :=
  if locked then
    let held := s.holdDepartmentWriteLock
    { held with main := held.main.lock }
  else { s with main := s.main.unlock : LockSession }.releaseDepartmentWriteLock

/-- `setPermission`: on the agent it is called for, and then on the session. -/
def setPermission (s : LockSession) (target : Option ℕ) (mode : PermissionMode) : LockSession :=
  let changed : LockSession := match target with
    | none => { s with main := { s.main with mode := mode } }
    | some i => { s with teamAgents := s.teamAgents.modify i fun a => { a with mode := mode } }
  { changed with chosen := mode : LockSession }.applySessionPermissionMode mode

/-- The mode comes from another session of the department. -/
def propagate (s : LockSession) (mode : PermissionMode) : LockSession :=
  { s with chosen := mode : LockSession }.applySessionPermissionMode mode

def getNoriRuntimeSettings (s : LockSession) : NoriRuntimeSettings :=
  s.settings.getD ⟨false, s.main.toolsReadonly⟩

/-- `setNoriRuntimeSettings`, until the metadata is stored. -/
def storeSettings (s : LockSession) (patch : SettingsPatch) : LockSession :=
  let current := s.getNoriRuntimeSettings
  let next : NoriRuntimeSettings :=
    ⟨patch.coderWriteEnabled.getD current.coderWriteEnabled,
      patch.toolsReadonly.getD current.toolsReadonly⟩
  { s with settings := some next, applying := s.applying ++ [next] }

/-- `applyNoriRuntimeSettings`: all agents but the main one are of the type `sub`. -/
def applySettings (s : LockSession) (next : NoriRuntimeSettings) : LockSession :=
  { s with
    main := { s.main with toolsReadonly := next.toolsReadonly }
    teamAgents :=
      if next.coderWriteEnabled then s.teamAgents.map fun a => { a with mode := .auto }
      else s.teamAgents }

/-- A child session that is hired takes over the mode of its parent. -/
def hired (mode : PermissionMode) : LockSession :=
  { settings := some ⟨false, false⟩, chosen := mode : LockSession }.applySessionPermissionMode mode

end LockSession

/-! ### A department -/

/-- A leader and the sessions mounted under it. A call of `setWriteLocked` is for the leader itself
(from its own parent) or for a child. -/
structure DiscussDepartment where
  leader : LockSession
  children : List LockSession := []
  calls : List (Option ℕ × Bool) := []

inductive LockEvent
  /-- `enter`, and `lockTeamAssignments`. -/
  | enter
  /-- `exit`, and `configureTeamMembers`. -/
  | exit
  /-- `cancelDiscuss` -/
  | cancel
  /-- `configureTeamMembers` -/
  | configure
  | call (who : Option ℕ) (locked : Bool)
  /-- A call of `setWriteLocked` is carried out. -/
  | body (k : ℕ)
  | setPermission (who : Option ℕ) (target : Option ℕ) (mode : PermissionMode)
  | propagate (who : Option ℕ) (mode : PermissionMode)
  | storeSettings (who : Option ℕ) (patch : SettingsPatch)
  | applySettings (who : Option ℕ) (k : ℕ)
  /-- `createMountedChild` -/
  | hire
  /-- `createTeamMember` -/
  | hireAgent

namespace DiscussDepartment

def session (s : DiscussDepartment) : Option ℕ → Option LockSession
  | none => some s.leader
  | some i => s.children[i]?

def modify (s : DiscussDepartment) (who : Option ℕ) (f : LockSession → LockSession) :
    DiscussDepartment :=
  match who with
  | none => { s with leader := f s.leader }
  | some i => { s with children := s.children.modify i f }

/-- `setWriteLocked` is called for every child. -/
def callAll (s : DiscussDepartment) (locked : Bool) : DiscussDepartment :=
  { s with calls := s.calls ++ (List.range s.children.length).map fun i => (some i, locked) }

def configureTeamMembers (s : DiscussDepartment) : DiscussDepartment :=
  (s.modify none LockSession.configureTeamAgents).callAll s.leader.discuss

def setDiscuss (s : DiscussDepartment) (active : Bool) : DiscussDepartment :=
  s.modify none fun leader => { leader with discuss := active }

def step (s : DiscussDepartment) : LockEvent → Option DiscussDepartment
  | .enter =>
    if s.leader.discuss = false ∧ (s.children ≠ [] ∨ s.leader.teamAgents ≠ []) then
      some (s.setDiscuss true).configureTeamMembers
    else none
  | .exit => if s.leader.discuss then some (s.setDiscuss false).configureTeamMembers else none
  | .cancel => some (s.setDiscuss false)
  | .configure => some s.configureTeamMembers
  | .call who locked => some { s with calls := s.calls ++ [(who, locked)] }
  | .body k => (s.calls[k]?).map fun call =>
    { s.modify call.1 fun x => x.setWriteLocked call.2 with calls := s.calls.eraseIdx k }
  | .setPermission who target mode => some (s.modify who fun x => x.setPermission target mode)
  | .propagate who mode => some (s.modify who fun x => x.propagate mode)
  | .storeSettings who patch => some (s.modify who fun x => x.storeSettings patch)
  | .applySettings who k => (s.session who).bind fun x => (x.applying[k]?).map fun next =>
    s.modify who fun x => { x.applySettings next with applying := x.applying.eraseIdx k }
  | .hire => some { s with
      children := s.children ++ [.hired s.leader.currentPermissionMode] }
  | .hireAgent => some (s.modify none fun leader => { leader with
      teamAgents := leader.teamAgents ++ [leader.configureTeamAgentRuntime {}] })

/-- **Nothing undoes a lock while the leader is in Discuss**: no unlock call is carried out, no mode
but manual is set on a locked main agent, no settings are applied that are not readonly to a locked
main agent or that enable writing for the agents of the team, and nobody is hired from a session of
its own. **And there is nothing to restore when a lock is released:** the tools were not readonly
before, and the leader has a mode for its team that is not that of a lock. -/
def Orderly (s : DiscussDepartment) : LockEvent → Prop
  | .exit | .configure =>
    s.leader.sessionPermissionMode ≠ none ∨ s.leader.departmentWriteLockMode = none
  | .body k => ∀ call ∈ s.calls[k]?, call.2 = false → ∀ i ∈ call.1, s.leader.discuss = false ∧
      ∀ child ∈ s.children[i]?, child.main.teamWriteLocked = true →
        child.main.readonlyBefore = false
  | .setPermission (some i) none mode => s.leader.discuss = true →
      ∀ child ∈ s.children[i]?, child.main.teamWriteLocked = true → mode = .manual
  | .applySettings (some i) k => s.leader.discuss = true →
      ∀ child ∈ s.children[i]?, child.main.teamWriteLocked = true →
        ∀ next ∈ child.applying[k]?, next.toolsReadonly = true
  | .applySettings none k => s.leader.discuss = true → s.leader.teamAgents ≠ [] →
      ∀ next ∈ s.leader.applying[k]?, next.coderWriteEnabled = false
  | .hire => s.leader.discuss = false
  | _ => True

instance (s : DiscussDepartment) (e : LockEvent) : Decidable (s.Orderly e) := by
  cases e <;> unfold Orderly <;> try infer_instance
  all_goals (split <;> infer_instance)

end DiscussDepartment

/-! ### What a session remembers -/

namespace AgentLock

theorem held_lock (a : AgentLock) : a.lock.Held := ⟨rfl, rfl, rfl⟩

/-- An agent of a team was not readonly before a lock, and is not without one. -/
def Writable (a : AgentLock) : Prop :=
  a.readonlyBefore = false ∧ (a.teamWriteLocked = false → a.toolsReadonly = false)

theorem Writable.lock {a : AgentLock} (h : a.Writable) : a.lock.Writable := by
  refine ⟨?_, fun hlocked => by cases hlocked⟩
  cases hlocked : a.teamWriteLocked with
  | true => simpa [AgentLock.lock, hlocked] using h.1
  | false => simpa [AgentLock.lock, hlocked] using h.2 hlocked

end AgentLock

namespace LockSession

/-- The mode that was chosen last is the one that is applied when a lock is released. -/
structure Remembers (x : LockSession) : Prop where
  session : ∀ m ∈ x.sessionPermissionMode, m = x.chosen
  lock : x.sessionPermissionMode = none → ∀ m ∈ x.departmentWriteLockMode, m = x.chosen
  main : x.sessionPermissionMode = none → x.departmentWriteLockMode = none →
    x.main.mode = x.chosen

variable {x : LockSession}

/-- The agents of the team, as they are configured while the leader is in Discuss or not. -/
theorem held_configure (hdiscuss : x.discuss = true) :
    ∀ a ∈ x.configureTeamAgents.teamAgents, a.Held := by
  intro a ha
  obtain ⟨a₀, -, rfl⟩ := mem_map.1 ha
  rw [configureTeamAgentRuntime, if_pos hdiscuss]
  exact a₀.held_lock

theorem writable_configure (h : ∀ a ∈ x.teamAgents, a.Writable) :
    ∀ a ∈ x.configureTeamAgents.teamAgents, a.Writable := by
  intro a ha
  obtain ⟨a₀, ha₀, rfl⟩ := mem_map.1 ha
  rw [configureTeamAgentRuntime]
  split
  · exact (h a₀ ha₀).lock
  · exact ⟨(h a₀ ha₀).1, fun _ => rfl⟩

theorem remembers_apply (mode : PermissionMode) (h : x.chosen = mode) :
    (x.applySessionPermissionMode mode).Remembers where
  session := by
    intro m hm
    exact (some.inj hm).symm.trans h.symm
  lock := fun hnone => by cases hnone
  main := fun hnone => by cases hnone

theorem Remembers.released (h : x.Remembers) :
    ∀ m ∈ x.sessionPermissionMode.or x.departmentWriteLockMode, m = x.chosen := by
  intro m hm
  cases hsession : x.sessionPermissionMode with
  | some m' =>
    rw [hsession] at hm
    cases hm
    exact h.session _ hsession
  | none =>
    rw [hsession] at hm
    exact h.lock hsession m hm

theorem Remembers.setWriteLocked (h : x.Remembers) (locked : Bool) :
    (x.setWriteLocked locked).Remembers := by
  cases locked with
  | true =>
    refine ⟨h.session, ?_, ?_⟩
    · intro hnone m hm
      have hm' : m ∈ x.departmentWriteLockMode.or (some x.currentPermissionMode) := hm
      have hnone' : x.sessionPermissionMode = none := hnone
      cases hlock : x.departmentWriteLockMode with
      | some m' =>
        rw [hlock] at hm'
        cases hm'
        exact h.lock hnone' _ hlock
      | none =>
        rw [hlock, currentPermissionMode, hnone'] at hm'
        cases hm'
        exact h.main hnone' hlock
    · intro _ hnone
      have hnone' : x.departmentWriteLockMode.or (some x.currentPermissionMode) = none := hnone
      cases hlock : x.departmentWriteLockMode <;> simp [hlock] at hnone'
  | false =>
    simp only [LockSession.setWriteLocked, Bool.false_eq_true, if_false, releaseDepartmentWriteLock]
    cases hmode : x.sessionPermissionMode.or x.departmentWriteLockMode with
    | some m => exact remembers_apply m (h.released m hmode).symm
    | none =>
      obtain ⟨hsession, hlock⟩ := or_eq_none_iff.1 hmode
      exact ⟨h.session, fun _ m hm => (by cases hm), fun _ _ => h.main hsession hlock⟩

/-! ### What a session does to the agents of its team -/

/-- The agents of the team are locked and readonly as before. -/
def SameLocks (x x' : LockSession) : Prop := ∀ (j : ℕ) (a' : AgentLock),
  x'.teamAgents[j]? = some a' → ∃ a, x.teamAgents[j]? = some a ∧
    a'.teamWriteLocked = a.teamWriteLocked ∧ a'.toolsReadonly = a.toolsReadonly ∧
    a'.readonlyBefore = a.readonlyBefore

/-- An agent of the team that is released gets back its setting, and the mode chosen last. -/
def TeamRestored (x x' : LockSession) : Prop := ∀ (j : ℕ) (a a' : AgentLock),
  x.teamAgents[j]? = some a → x'.teamAgents[j]? = some a' → a.teamWriteLocked = true →
  a'.teamWriteLocked = false → a'.toolsReadonly = a.readonlyBefore ∧ a'.mode = x'.chosen

/-- So does the main agent. -/
def MainRestored (x x' : LockSession) : Prop :=
  x.main.teamWriteLocked = true → x'.main.teamWriteLocked = false →
    x'.main.toolsReadonly = x.main.readonlyBefore ∧ x'.main.mode = x'.chosen

variable {x' : LockSession}

theorem SameLocks.refl (h : x'.teamAgents = x.teamAgents) : SameLocks x x' := by
  intro j a' ha'
  exact ⟨a', h ▸ ha', rfl, rfl, rfl⟩

theorem SameLocks.restored (h : SameLocks x x') : TeamRestored x x' := by
  intro j a a' ha ha' hlocked hunlocked
  obtain ⟨a₀, ha₀, hsame, -⟩ := h j a' ha'
  cases ha.symm.trans ha₀
  rw [hsame, hlocked] at hunlocked
  cases hunlocked

theorem SameLocks.writable (h : SameLocks x x') (hx : ∀ a ∈ x.teamAgents, a.Writable) :
    ∀ a ∈ x'.teamAgents, a.Writable := by
  intro a' ha'
  obtain ⟨j, hj⟩ := mem_iff_getElem?.1 ha'
  obtain ⟨a, ha, hlocked, hreadonly, hbefore⟩ := h j a' hj
  obtain ⟨hno, hfree⟩ := hx a (mem_of_getElem? ha)
  exact ⟨hbefore.trans hno, fun hunlocked => hreadonly.trans (hfree (hlocked.symm.trans hunlocked))⟩

/-- The team is configured: locked during Discuss, and otherwise released in the mode of the
session. -/
theorem SameLocks.configure (h : SameLocks x x') (hx : ∀ a ∈ x.teamAgents, a.Writable)
    (hmode : x'.discuss = false → x'.currentPermissionMode = x'.chosen) :
    TeamRestored x x'.configureTeamAgents := by
  intro j a a' ha ha' _ hunlocked
  rw [configureTeamAgents, getElem?_map] at ha'
  obtain ⟨a₁, ha₁, rfl⟩ := map_eq_some_iff.1 ha'
  obtain ⟨a₀, ha₀, -⟩ := h j a₁ ha₁
  cases ha.symm.trans ha₀
  cases hdiscuss : x'.discuss with
  | true =>
    rw [configureTeamAgentRuntime, if_pos hdiscuss] at hunlocked
    cases hunlocked
  | false =>
    rw [configureTeamAgentRuntime, hdiscuss, if_neg Bool.false_ne_true]
    exact ⟨(hx a (mem_of_getElem? ha)).1.symm, hmode hdiscuss⟩

/-- What a step of the leader's session keeps. -/
structure Kept (x x' : LockSession) : Prop where
  remembers : x'.Remembers
  discuss : x'.discuss = x.discuss
  held : x.discuss = true → (∀ a ∈ x.teamAgents, a.Held) → ∀ a ∈ x'.teamAgents, a.Held
  writable : ∀ a ∈ x'.teamAgents, a.Writable
  restored : TeamRestored x x'

theorem kept_of_same (hremembers : x'.Remembers) (hdiscuss : x'.discuss = x.discuss)
    (hteam : x'.teamAgents = x.teamAgents) (hx : ∀ a ∈ x.teamAgents, a.Writable) : Kept x x' where
  remembers := hremembers
  discuss := hdiscuss
  held := fun _ h a ha => h a (hteam ▸ ha)
  writable := (SameLocks.refl hteam).writable hx
  restored := (SameLocks.refl hteam).restored

theorem kept_configure (h : SameLocks x x') (hremembers : x'.Remembers)
    (hdiscuss : x'.discuss = x.discuss) (hx : ∀ a ∈ x.teamAgents, a.Writable)
    (hmode : x'.discuss = false → x'.currentPermissionMode = x'.chosen) :
    Kept x x'.configureTeamAgents where
  remembers := ⟨hremembers.session, hremembers.lock, hremembers.main⟩
  discuss := hdiscuss
  held := fun hx _ => held_configure (hdiscuss.trans hx)
  writable := writable_configure (h.writable hx)
  restored := h.configure hx hmode

theorem kept_apply (h : SameLocks x x') (hdiscuss : x'.discuss = x.discuss)
    (hx : ∀ a ∈ x.teamAgents, a.Writable) :
    Kept x (x'.applySessionPermissionMode x'.chosen) := by
  obtain ⟨hs, hl, hm⟩ := remembers_apply (x := x') x'.chosen rfl
  exact @kept_configure x { x' with
    sessionPermissionMode := some x'.chosen
    main := { x'.main with mode := if ¬x'.main.teamWriteLocked = true ∧ x'.main.mode ≠ x'.chosen
      then x'.chosen else x'.main.mode } } h ⟨hs, hl, hm⟩ hdiscuss hx fun _ => rfl

theorem kept_setWriteLocked (h : x.Remembers) (hx : ∀ a ∈ x.teamAgents, a.Writable)
    (locked : Bool) : Kept x (x.setWriteLocked locked) := by
  cases locked with
  | true => exact kept_of_same (h.setWriteLocked true) rfl rfl hx
  | false =>
    have hremembers := h.setWriteLocked false
    simp only [LockSession.setWriteLocked, Bool.false_eq_true, if_false,
      releaseDepartmentWriteLock] at hremembers ⊢
    cases hmode : x.sessionPermissionMode.or x.departmentWriteLockMode with
    | some m =>
      obtain rfl := h.released m hmode
      have hsame : SameLocks x { x with main := x.main.unlock, departmentWriteLockMode := none } :=
        SameLocks.refl rfl
      exact kept_apply hsame rfl hx
    | none =>
      rw [hmode] at hremembers
      exact kept_of_same hremembers rfl rfl hx

theorem sameLocks_target (target : Option ℕ) (mode : PermissionMode) : SameLocks x
    { (match target with
        | none => { x with main := { x.main with mode := mode } }
        | some i => { x with teamAgents := x.teamAgents.modify i fun a => { a with mode := mode } }
        : LockSession) with chosen := mode } := by
  cases target with
  | none => exact SameLocks.refl rfl
  | some i =>
    intro j a' ha'
    obtain ⟨a, ha, rfl⟩ := getElem?_modify_some ha'
    refine ⟨a, ha, ?_⟩
    split <;> exact ⟨rfl, rfl, rfl⟩

theorem kept_setPermission (hx : ∀ a ∈ x.teamAgents, a.Writable) (target : Option ℕ)
    (mode : PermissionMode) : Kept x (x.setPermission target mode) := by
  have hkept := kept_apply (sameLocks_target (x := x) target mode) (by cases target <;> rfl) hx
  cases target <;> exact hkept

theorem kept_propagate (hx : ∀ a ∈ x.teamAgents, a.Writable) (mode : PermissionMode) :
    Kept x (x.propagate mode) := by
  have hsame : SameLocks x { x with chosen := mode } := SameLocks.refl rfl
  exact kept_apply hsame rfl hx

theorem kept_storeSettings (h : x.Remembers) (hx : ∀ a ∈ x.teamAgents, a.Writable)
    (patch : SettingsPatch) : Kept x (x.storeSettings patch) :=
  kept_of_same ⟨h.session, h.lock, h.main⟩ rfl rfl hx

/-- Settings that enable writing put the agents of the team into the mode auto. -/
theorem kept_applySettings (h : x.Remembers) (hx : ∀ a ∈ x.teamAgents, a.Writable)
    (next : NoriRuntimeSettings) (applying : List NoriRuntimeSettings)
    (hnext : x.discuss = true → x.teamAgents ≠ [] → next.coderWriteEnabled = false) :
    Kept x { x.applySettings next with applying := applying } := by
  have hsame : SameLocks x { x.applySettings next with applying := applying } := by
    intro j a' ha'
    cases hwrite : next.coderWriteEnabled with
    | false => exact SameLocks.refl (by simp [applySettings, hwrite]) j a' ha'
    | true =>
      simp only [applySettings, hwrite, if_true, getElem?_map] at ha'
      obtain ⟨a, ha, rfl⟩ := map_eq_some_iff.1 ha'
      exact ⟨a, ha, rfl, rfl, rfl⟩
  refine ⟨⟨h.session, h.lock, h.main⟩, rfl, ?_, hsame.writable hx, hsame.restored⟩
  intro hdiscuss hheld a ha
  by_cases hempty : x.teamAgents = []
  · cases hwrite : next.coderWriteEnabled <;> simp [applySettings, hwrite, hempty] at ha
  · simp only [applySettings, hnext hdiscuss hempty, Bool.false_eq_true, if_false] at ha
    exact hheld a ha

/-! ### What a session does to its main agent -/

theorem remembers_setPermission (target : Option ℕ) (mode : PermissionMode) :
    (x.setPermission target mode).Remembers := remembers_apply mode rfl

theorem remembers_propagate (mode : PermissionMode) : (x.propagate mode).Remembers :=
  remembers_apply mode rfl

theorem mainRestored_of_same (h : x'.main.teamWriteLocked = x.main.teamWriteLocked) :
    MainRestored x x' := by
  intro hlocked hunlocked
  rw [h, hlocked] at hunlocked
  cases hunlocked

theorem mainRestored_setWriteLocked (h : x.Remembers) {locked : Bool}
    (hbefore : locked = false → x.main.teamWriteLocked = true → x.main.readonlyBefore = false) :
    MainRestored x (x.setWriteLocked locked) := by
  intro hlocked hunlocked
  cases locked with
  | true => cases hunlocked
  | false =>
    simp only [LockSession.setWriteLocked, Bool.false_eq_true, if_false,
      releaseDepartmentWriteLock] at hunlocked ⊢
    cases hmode : x.sessionPermissionMode.or x.departmentWriteLockMode with
    | some m =>
      refine ⟨(hbefore rfl hlocked).symm, ?_⟩
      have hm := h.released m hmode
      by_cases hsame : x.main.mode = m <;>
        simp [applySessionPermissionMode, configureTeamAgents, AgentLock.unlock, hsame, ← hm]
    | none =>
      obtain ⟨hsession, hlock⟩ := or_eq_none_iff.1 hmode
      exact ⟨(hbefore rfl hlocked).symm, h.main hsession hlock⟩

/-- A mode that is set on another agent, or that comes from elsewhere, leaves a held one alone. -/
theorem held_apply (mode : PermissionMode) (h : x.main.Held) :
    (x.applySessionPermissionMode mode).main.Held := by
  obtain ⟨hlocked, hreadonly, hmode⟩ := h
  exact ⟨hlocked, hreadonly, by simp [applySessionPermissionMode, configureTeamAgents, hlocked, hmode]⟩

end LockSession

namespace DiscussDepartment

open LockSession

/-! ### What every step keeps -/

/-- **The invariant.** During Discuss the agents of the team are held, and every child is, or a lock
call for it is under way. -/
structure Locked (s : DiscussDepartment) : Prop where
  team : s.leader.discuss = true → ∀ a ∈ s.leader.teamAgents, a.Held
  writable : ∀ a ∈ s.leader.teamAgents, a.Writable
  child : s.leader.discuss = true → ∀ (i : ℕ) (c : LockSession), s.children[i]? = some c →
    c.main.Held ∨ (some i, true) ∈ s.calls
  remembers : s.leader.Remembers
  childRemembers : ∀ (i : ℕ) (c : LockSession), s.children[i]? = some c → c.Remembers

/-- Whoever is released in a step gets back what it had. -/
def Released (s t : DiscussDepartment) : Prop :=
  TeamRestored s.leader t.leader ∧ ∀ (i : ℕ) (c c' : LockSession), s.children[i]? = some c →
    t.children[i]? = some c' → MainRestored c c'

variable {s t : DiscussDepartment}

theorem mainRestored_same_children (h : t.children = s.children) (i : ℕ) (c c' : LockSession)
    (hc : s.children[i]? = some c) (hc' : t.children[i]? = some c') : MainRestored c c' := by
  rw [h] at hc'
  cases hc.symm.trans hc'
  exact mainRestored_of_same rfl

theorem Locked.of_leader (h : s.Locked) (hkept : s.leader.Kept t.leader)
    (hchildren : t.children = s.children)
    (hcalls : ∀ i, (some i, true) ∈ s.calls → (some i, true) ∈ t.calls) :
    t.Locked ∧ s.Released t := by
  refine ⟨⟨?_, hkept.writable, ?_, hkept.remembers, ?_⟩, hkept.restored,
    mainRestored_same_children hchildren⟩
  · intro hdiscuss
    rw [hkept.discuss] at hdiscuss
    exact hkept.held hdiscuss (h.team hdiscuss)
  · intro hdiscuss i c hc
    rw [hkept.discuss] at hdiscuss
    rw [hchildren] at hc
    exact (h.child hdiscuss i c hc).imp_right (hcalls i)
  · intro i c hc
    rw [hchildren] at hc
    exact h.childRemembers i c hc

theorem Locked.of_child (h : s.Locked) {i : ℕ} {f : LockSession → LockSession}
    (hleader : t.leader = s.leader) (hchildren : t.children = s.children.modify i f)
    (hcalls : ∀ j, j ≠ i → (some j, true) ∈ s.calls → (some j, true) ∈ t.calls)
    (hremembers : ∀ c, s.children[i]? = some c → (f c).Remembers)
    (hrestored : ∀ c, s.children[i]? = some c → MainRestored c (f c))
    (hheld : s.leader.discuss = true → ∀ c, s.children[i]? = some c →
      c.main.Held ∨ (some i, true) ∈ s.calls → (f c).main.Held ∨ (some i, true) ∈ t.calls) :
    t.Locked ∧ s.Released t := by
  have hcases : ∀ (j : ℕ) (c' : LockSession), t.children[j]? = some c' →
      (j = i ∧ ∃ c, s.children[i]? = some c ∧ c' = f c) ∨ j ≠ i ∧ s.children[j]? = some c' := by
    intro j c' hc'
    rw [hchildren] at hc'
    obtain ⟨c, hc, rfl⟩ := getElem?_modify_some hc'
    by_cases hij : i = j
    · subst hij
      exact .inl ⟨rfl, c, hc, if_pos rfl⟩
    · exact .inr ⟨Ne.symm hij, by rw [if_neg hij]; exact hc⟩
  refine ⟨⟨hleader ▸ h.team, hleader ▸ h.writable, ?_, hleader ▸ h.remembers, ?_⟩, ?_, ?_⟩
  · intro hdiscuss j c' hc'
    rw [hleader] at hdiscuss
    rcases hcases j c' hc' with ⟨rfl, c, hc, rfl⟩ | ⟨hji, hc⟩
    · exact hheld hdiscuss c hc (h.child hdiscuss j c hc)
    · exact (h.child hdiscuss j c' hc).imp_right (hcalls j hji)
  · intro j c' hc'
    rcases hcases j c' hc' with ⟨rfl, c, hc, rfl⟩ | ⟨-, hc⟩
    · exact hremembers c hc
    · exact h.childRemembers j c' hc
  · exact (SameLocks.refl (by rw [hleader])).restored
  · intro j c c' hc hc'
    rcases hcases j c' hc' with ⟨rfl, c₀, hc₀, rfl⟩ | ⟨-, hc₀⟩
    · cases hc.symm.trans hc₀
      exact hrestored c hc
    · cases hc.symm.trans hc₀
      exact mainRestored_of_same rfl

theorem mem_callAll {i : ℕ} {locked : Bool} (hi : i < s.children.length) :
    (some i, locked) ∈ (s.callAll locked).calls :=
  mem_append_right _ (mem_map.2 ⟨i, mem_range.2 hi, rfl⟩)

/-- The mode of the leader's session is the one chosen last, if it has one or is not locked. -/
theorem current_eq_chosen {x : LockSession} (h : x.Remembers)
    (hx : x.sessionPermissionMode ≠ none ∨ x.departmentWriteLockMode = none) :
    x.currentPermissionMode = x.chosen := by
  unfold currentPermissionMode
  cases hsession : x.sessionPermissionMode with
  | some m => exact h.session m hsession
  | none => exact h.main hsession (hx.resolve_left (absurd hsession))

theorem Locked.enter (h : s.Locked) : ((s.setDiscuss true).configureTeamMembers).Locked ∧
    s.Released (s.setDiscuss true).configureTeamMembers := by
  have hsame : SameLocks s.leader { s.leader with discuss := true } := SameLocks.refl rfl
  have hteam := hsame.configure h.writable (fun hfalse => by cases hfalse)
  refine ⟨⟨fun _ => held_configure rfl, writable_configure h.writable, ?_, ?_, h.childRemembers⟩,
    hteam, mainRestored_same_children rfl⟩
  · intro _ i c hc
    have hi : i < s.children.length := (List.getElem?_eq_some_iff.1 hc).1
    exact .inr (mem_callAll (s := (s.setDiscuss true).modify none configureTeamAgents) hi)
  · exact ⟨h.remembers.session, h.remembers.lock, h.remembers.main⟩

theorem Locked.exit (h : s.Locked)
    (hmode : s.leader.sessionPermissionMode ≠ none ∨ s.leader.departmentWriteLockMode = none) :
    ((s.setDiscuss false).configureTeamMembers).Locked ∧
      s.Released (s.setDiscuss false).configureTeamMembers := by
  have hsame : SameLocks s.leader { s.leader with discuss := false } := SameLocks.refl rfl
  have hcurrent := current_eq_chosen h.remembers hmode
  have hteam := hsame.configure h.writable (fun _ => hcurrent)
  refine ⟨⟨?_, writable_configure h.writable, ?_, ?_, h.childRemembers⟩, hteam,
    mainRestored_same_children rfl⟩
  · intro hfalse
    cases hfalse
  · intro hfalse
    cases hfalse
  · exact ⟨h.remembers.session, h.remembers.lock, h.remembers.main⟩

/-- A call of `setWriteLocked` is carried out. -/
theorem Locked.body (h : s.Locked) {k : ℕ} {call : Option ℕ × Bool} (hk : s.calls[k]? = some call)
    (horderly : s.Orderly (.body k))
    (ht : t = { s.modify call.1 fun x => x.setWriteLocked call.2 with
      calls := s.calls.eraseIdx k }) : t.Locked ∧ s.Released t := by
  obtain ⟨who, locked⟩ := call
  subst ht
  cases who with
  | none =>
    refine h.of_leader (kept_setWriteLocked h.remembers h.writable locked) rfl ?_
    exact fun i hi => (mem_eraseIdx_or_eq hk hi).resolve_right (by simp)
  | some i =>
    have hunlock := fun hfalse : locked = false => horderly _ hk hfalse i rfl
    refine h.of_child (f := fun x => x.setWriteLocked locked) rfl rfl ?_ ?_ ?_ ?_
    · exact fun j hji hj => (mem_eraseIdx_or_eq hk hj).resolve_right (by simp [hji])
    · exact fun c hc => (h.childRemembers i c hc).setWriteLocked locked
    · exact fun c hc => mainRestored_setWriteLocked (h.childRemembers i c hc)
        fun hfalse => (hunlock hfalse).2 c hc
    · intro hdiscuss c _ _
      cases locked with
      | true => exact .inl (AgentLock.held_lock _)
      | false =>
        rw [(hunlock rfl).1] at hdiscuss
        cases hdiscuss

/-- A step of the session of a child that issues no lock and leaves a held agent held. -/
theorem Locked.child_step (h : s.Locked) {i : ℕ} {f : LockSession → LockSession}
    (hremembers : ∀ c, s.children[i]? = some c → (f c).Remembers)
    (hlocked : ∀ c, (f c).main.teamWriteLocked = c.main.teamWriteLocked)
    (hheld : s.leader.discuss = true → ∀ c, s.children[i]? = some c → c.main.Held →
      (f c).main.Held) : (s.modify (some i) f).Locked ∧ s.Released (s.modify (some i) f) :=
  h.of_child rfl rfl (fun _ _ hj => hj) hremembers (fun c _ => mainRestored_of_same (hlocked c))
    fun hdiscuss c hc hor => hor.imp_left (hheld hdiscuss c hc)

/-- **Every step keeps the invariant, and gives back to whom it releases.** -/
theorem Locked.step (h : s.Locked) {e : LockEvent} (horderly : s.Orderly e)
    (hstep : s.step e = some t) : t.Locked ∧ s.Released t := by
  cases e with
  | enter =>
    dsimp only [DiscussDepartment.step] at hstep
    split at hstep <;> cases hstep
    exact h.enter
  | exit =>
    dsimp only [DiscussDepartment.step] at hstep
    split at hstep <;> cases hstep
    exact h.exit horderly
  | cancel =>
    cases hstep
    have hsame : SameLocks s.leader { s.leader with discuss := false } := SameLocks.refl rfl
    refine ⟨⟨?_, h.writable, ?_, ?_, h.childRemembers⟩, hsame.restored,
      mainRestored_same_children rfl⟩
    · intro hfalse
      cases hfalse
    · intro hfalse
      cases hfalse
    · exact ⟨h.remembers.session, h.remembers.lock, h.remembers.main⟩
  | configure =>
    cases hstep
    refine h.of_leader (kept_configure (SameLocks.refl rfl) h.remembers rfl h.writable
      fun _ => current_eq_chosen h.remembers horderly) rfl ?_
    exact fun i hi => List.mem_append_left _ hi
  | call who locked =>
    cases hstep
    exact h.of_leader (kept_of_same h.remembers rfl rfl h.writable) rfl
      fun i hi => List.mem_append_left _ hi
  | body k =>
    obtain ⟨call, hk, rfl⟩ := Option.map_eq_some_iff.1 hstep
    exact h.body hk horderly rfl
  | setPermission who target mode =>
    cases hstep
    cases who with
    | none => exact h.of_leader (kept_setPermission h.writable target mode) rfl fun _ hi => hi
    | some i =>
      refine h.child_step (fun c _ => remembers_setPermission target mode) ?_ ?_
      · intro c
        cases target <;> rfl
      · intro hdiscuss c hc hheld
        cases target with
        | some j => exact held_apply mode hheld
        | none =>
          obtain rfl := horderly hdiscuss c hc hheld.1
          have hmain : ({ c.main with mode := .manual } : AgentLock).Held :=
            ⟨hheld.1, hheld.2.1, rfl⟩
          let changed : LockSession := {
            c with
            main := { c.main with mode := .manual }
            chosen := .manual }
          exact held_apply (x := changed) .manual hmain
  | propagate who mode =>
    cases hstep
    cases who with
    | none => exact h.of_leader (kept_propagate h.writable mode) rfl fun _ hi => hi
    | some i =>
      exact h.child_step (fun c _ => remembers_propagate mode) (fun _ => rfl)
        fun _ c _ hheld => held_apply (x := { c with chosen := mode }) mode hheld
  | storeSettings who patch =>
    cases hstep
    cases who with
    | none =>
      exact h.of_leader (kept_storeSettings h.remembers h.writable patch) rfl fun _ hi => hi
    | some i =>
      refine h.child_step (fun c hc => ?_) (fun _ => rfl) fun _ _ _ hheld => hheld
      have hc' := h.childRemembers i c hc
      exact ⟨hc'.session, hc'.lock, hc'.main⟩
  | applySettings who k =>
    obtain ⟨x, hx, hstep⟩ := Option.bind_eq_some_iff.1 hstep
    obtain ⟨next, hnext, rfl⟩ := Option.map_eq_some_iff.1 hstep
    cases who with
    | none =>
      cases hx
      exact h.of_leader (kept_applySettings h.remembers h.writable next _
        fun hdiscuss hteam => horderly hdiscuss hteam next hnext) rfl fun _ hi => hi
    | some i =>
      have hx' : s.children[i]? = some x := hx
      refine h.child_step (fun c hc => ?_) (fun _ => rfl) fun hdiscuss c hc hheld => ?_
      · have hc' := h.childRemembers i c hc
        exact ⟨hc'.session, hc'.lock, hc'.main⟩
      · obtain rfl := some.inj (hx'.symm.trans hc)
        exact ⟨hheld.1, horderly hdiscuss x hx' hheld.1 next hnext, hheld.2.2⟩
  | hire =>
    cases hstep
    have hdiscuss : s.leader.discuss = false := horderly
    have hcases : ∀ (i : ℕ) (c : LockSession),
        (s.children ++ [LockSession.hired s.leader.currentPermissionMode])[i]? = some c →
          s.children[i]? = some c ∨ c = LockSession.hired s.leader.currentPermissionMode := by
      intro i c hc
      rcases getElem?_append_singleton hc with hold | ⟨-, rfl⟩
      · exact .inl hold
      · exact .inr rfl
    refine ⟨⟨h.team, h.writable, ?_, h.remembers, ?_⟩, (SameLocks.refl rfl).restored, ?_⟩
    · intro htrue
      have hno : s.leader.discuss = true := htrue
      rw [hdiscuss] at hno
      cases hno
    · intro i c hc
      rcases hcases i c hc with hold | rfl
      · exact h.childRemembers i c hold
      · exact remembers_apply _ rfl
    · intro i c c' hc hc'
      have hold : s.children[i]? = some c' := by
        have hi : i < s.children.length := (List.getElem?_eq_some_iff.1 hc).1
        rwa [List.getElem?_append_left hi] at hc'
      cases hc.symm.trans hold
      exact mainRestored_of_same rfl
  | hireAgent =>
    cases hstep
    refine ⟨⟨?_, ?_, h.child, ?_, h.childRemembers⟩, ?_, mainRestored_same_children rfl⟩
    · intro hdiscuss a ha
      have hactive : s.leader.discuss = true := hdiscuss
      rcases List.mem_append.1 ha with ha | ha
      · exact h.team hdiscuss a ha
      · rw [List.mem_singleton.1 ha, configureTeamAgentRuntime, if_pos hactive]
        exact AgentLock.held_lock _
    · intro a ha
      rcases List.mem_append.1 ha with ha | ha
      · exact h.writable a ha
      · rw [List.mem_singleton.1 ha, configureTeamAgentRuntime]
        split
        · exact AgentLock.Writable.lock ⟨rfl, fun _ => rfl⟩
        · exact ⟨rfl, fun _ => rfl⟩
    · exact ⟨h.remembers.session, h.remembers.lock, h.remembers.main⟩
    · intro j a a' ha ha' hlocked hunlocked
      have hold : s.leader.teamAgents[j]? = some a' := by
        have hj : j < s.leader.teamAgents.length := (List.getElem?_eq_some_iff.1 ha).1
        have happend : (s.leader.teamAgents ++ [s.leader.configureTeamAgentRuntime {}])[j]? =
            some a' := ha'
        rwa [List.getElem?_append_left hj] at happend
      cases ha.symm.trans hold
      rw [hlocked] at hunlocked
      cases hunlocked

/-! ### Runs -/

/-- **Before any Discuss:** nobody is locked, and the sessions are in the mode that was chosen. -/
structure Fresh (s : DiscussDepartment) : Prop where
  discuss : s.leader.discuss = false
  session : ∀ x ∈ s.leader :: s.children, x.departmentWriteLockMode = none ∧
    x.currentPermissionMode = x.chosen
  team : ∀ a ∈ s.leader.teamAgents, a.toolsReadonly = false ∧ a.readonlyBefore = false

theorem remembers_of_fresh {x : LockSession} (hlock : x.departmentWriteLockMode = none)
    (hmode : x.currentPermissionMode = x.chosen) : x.Remembers where
  session := by
    intro m hm
    rwa [currentPermissionMode, Option.mem_def.1 hm] at hmode
  lock := by simp [hlock]
  main := by
    intro hnone _
    rwa [currentPermissionMode, hnone] at hmode

theorem Fresh.locked (h : s.Fresh) : s.Locked where
  team := fun hdiscuss => by cases h.discuss.symm.trans hdiscuss
  writable := fun a ha => ⟨(h.team a ha).2, fun _ => (h.team a ha).1⟩
  child := fun hdiscuss => by cases h.discuss.symm.trans hdiscuss
  remembers := by
    obtain ⟨hlock, hmode⟩ := h.session _ (.head _)
    exact remembers_of_fresh hlock hmode
  childRemembers := by
    intro i c hc
    obtain ⟨hlock, hmode⟩ := h.session c (.tail _ (mem_of_getElem? hc))
    exact remembers_of_fresh hlock hmode

end DiscussDepartment

end NoriCode
