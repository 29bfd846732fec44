/-
**The stored token of a provider.**

The processes that share a token store refresh its token under a lock across processes: they read
the store, take the lock, read it again, send the refresh token to the server and save what they
get.  The server gives out a new refresh token for every one it takes, and takes none twice.  A
login saves a token and a logout deletes the file, both without the lock.

The module embeds `oauth-manager.ts`, `token-state.ts` and what `storage.ts` does to the one file of
a provider.  A process has one refresh under way at most; a call that joins it does nothing of its
own, and a forced call behind one that is not forced is a call of its own afterwards.  A token that
the server grants is an input of the step that grants it.

Main definitions:

* `TokenStore`, with `step` — the file, the lock, the refreshes under way, the server;
* `TokenStore.Undisturbed` — the file is still what a refresh has read, and nothing that
  the server has answered is lost;
* `TokenStore.Current` — the file holds the token of the last login, or the last one that
  the server has made of it.

Main results:

* `run_current` — **the stored token is the current one**, in every such run.
-/

import NoriCode.LibRun
import Mathlib.Data.Int.Notation

namespace NoriCode

open LibRun Option

/-! ### Tokens -/

structure TokenInfo where
  accessToken : String
  refreshToken : String
  expiresAt : ℤ
  scope : String
  tokenType : String
  expiresIn : ℤ
  deriving DecidableEq

inductive TokenState where
  | missing
  | revoked (scope tokenType : String)
  | valid (token : TokenInfo)

def classifyToken : Option TokenInfo → TokenState
  | none => .missing
  | some token =>
    if token.accessToken.length = 0 then .revoked token.scope token.tokenType else .valid token

def revokedTombstone (prior : TokenInfo) : TokenInfo where
  accessToken := ""
  refreshToken := ""
  expiresAt := 0
  scope := prior.scope
  tokenType := prior.tokenType
  expiresIn := 0

def MIN_REFRESH_THRESHOLD_SECONDS : ℤ := 300

/-- `remaining < defaultRefreshThreshold(expiresIn)`; the ratio of the threshold is one half. -/
def belowRefreshThreshold (remaining expiresIn : ℤ) : Bool :=
  remaining < MIN_REFRESH_THRESHOLD_SECONDS || (0 < expiresIn && 2 * remaining < expiresIn)

def shouldRefreshToken (now : ℤ) (token : TokenInfo) (force : Bool) : Bool :=
  force || (token.expiresAt != 0 && belowRefreshThreshold (token.expiresAt - now) token.expiresIn)

/-- The token has changed while a forced refresh has waited for the lock. -/
def changedWhileWaiting (after token : TokenInfo) : Bool :=
  after.refreshToken != token.refreshToken || after.accessToken != token.accessToken ||
    after.expiresAt != token.expiresAt || after.expiresIn != token.expiresIn

theorem classifyToken_valid {file : Option TokenInfo} {token : TokenInfo}
    (h : classifyToken file = .valid token) : file = some token := by
  cases file with
  | none => cases h
  | some t =>
    rw [classifyToken] at h
    split_ifs at h
    exact congrArg some (TokenState.valid.inj h)

/-! ### Refreshes -/

/-- Where `doEnsureFresh` waits. -/
inductive RefreshPhase where
  | idle
  /-- For the lock, with the token read before. -/
  | waiting (token : TokenInfo) (force : Bool)
  | locked (token : TokenInfo) (force : Bool)
  /-- For the server, which has not seen the request. -/
  | requesting (active : TokenInfo)
  /-- For the answer of the server. -/
  | answered (active refreshed : TokenInfo)
  /-- The server has rejected the refresh token. -/
  | rejected (active : TokenInfo)
  | tombstoning (active : TokenInfo)
  | releasing
  deriving DecidableEq

/-- The refresh holds the lock. -/
def RefreshPhase.holdsLock : RefreshPhase → Bool
  | .idle => false
  | .waiting _ _ => false
  | _ => true

/-- The token that is refreshed, and the answer of the server that has not arrived. -/
def RefreshPhase.answer : RefreshPhase → Option (TokenInfo × TokenInfo)
  | .answered active refreshed => some (active, refreshed)
  | _ => none

/-- The token whose refresh is about to be requested, or has been. -/
def RefreshPhase.active : RefreshPhase → Option TokenInfo
  | .requesting active => some active
  | .answered active _ => some active
  | _ => none

/-- The server has rejected the refresh token. -/
def RefreshPhase.isRejected : RefreshPhase → Bool
  | .rejected _ => true
  | .tombstoning _ => true
  | _ => false

inductive TokenEvent where
  /-- `ensureFresh` of a process, up to the lock. -/
  | ensureFresh (p : ℕ) (force : Bool) (now : ℤ)
  | acquire (p : ℕ)
  /-- The read behind the lock, and what follows from it. -/
  | reread (p : ℕ) (now : ℤ)
  /-- The server answers; a token that has not been used is replaced by the granted one. -/
  | serve (p : ℕ) (granted : TokenInfo)
  /-- The request or its answer is lost; it is sent again, or given up. -/
  | lose (p : ℕ) (again : Bool)
  /-- The answer arrives, and is saved. -/
  | receive (p : ℕ)
  /-- The read behind a rejection. -/
  | recover (p : ℕ)
  | tombstone (p : ℕ)
  | release (p : ℕ)
  /-- A login is granted a token, and saves it. -/
  | login (granted : TokenInfo)
  | logout

/-- **A token store, its processes and the server.**  `current` is no state of the code: it is the
token of the last login or the last one that the server has made of it, and none after a logout. -/
structure TokenStore where
  file : Option TokenInfo := none
  lock : Option ℕ := none
  phase : ℕ → RefreshPhase := fun _ => .idle
  issued : List String := []
  used : List String := []
  current : Option TokenInfo := none

namespace TokenStore

def setPhase (s : TokenStore) (p : ℕ) (phase : RefreshPhase) : TokenStore :=
  { s with phase := Function.update s.phase p phase }

/-- A token the server may grant: it is usable, and its refresh token is new. -/
def isNew (s : TokenStore) (granted : TokenInfo) : Bool :=
  granted.accessToken.length ≠ 0 && granted.refreshToken ∉ s.issued

/-- `ensureFresh`, while the process has no refresh under way. -/
def beginRefresh (s : TokenStore) (p : ℕ) (force : Bool) (now : ℤ) : TokenStore :=
  match classifyToken s.file with
  | .valid token =>
    if shouldRefreshToken now token force then s.setPhase p (.waiting token force) else s
  | _ => s

/-- What a refresh that holds the lock does with a token: it needs a refresh token. -/
def request (s : TokenStore) (p : ℕ) (active : TokenInfo) : TokenStore :=
  if active.refreshToken.length = 0 then s.setPhase p .releasing
  else s.setPhase p (.requesting active)

/-- The read behind the lock.  A file that is gone is replaced by what was read before. -/
def readAgain (s : TokenStore) (p : ℕ) (token : TokenInfo) (force : Bool) (now : ℤ) : TokenStore :=
  match classifyToken s.file with
  | .revoked _ _ => s.setPhase p .releasing
  | .missing => s.request p token
  | .valid after =>
    if shouldRefreshToken now after force = false then s.setPhase p .releasing
    else if force && changedWhileWaiting after token then s.setPhase p .releasing
    else s.request p after

/-- The server takes a refresh token that has not been used, and grants another one. -/
def rotate (s : TokenStore) (p : ℕ) (active granted : TokenInfo) : TokenStore :=
  { s.setPhase p (.answered active granted) with
    issued := granted.refreshToken :: s.issued
    used := active.refreshToken :: s.used
    current := if s.current = some active then some granted else s.current }

def step (s : TokenStore) : TokenEvent → Option TokenStore
  | .ensureFresh p force now => some (if s.phase p = .idle then s.beginRefresh p force now else s)
  | .acquire p =>
    match s.phase p with
    | .waiting token force =>
      if s.lock = none then some { s.setPhase p (.locked token force) with lock := some p }
      else none
    | _ => none
  | .reread p now =>
    match s.phase p with
    | .locked token force => some (s.readAgain p token force now)
    | _ => none
  | .serve p granted =>
    match s.phase p with
    | .requesting active =>
      if active.refreshToken ∈ s.used then some (s.setPhase p (.rejected active))
      else if s.isNew granted then some (s.rotate p active granted)
      else none
    | _ => none
  | .lose p again =>
    match s.phase p with
    | .requesting active => some (s.setPhase p (if again then .requesting active else .releasing))
    | .answered active _ => some (s.setPhase p (if again then .requesting active else .releasing))
    | _ => none
  | .receive p =>
    match s.phase p with
    | .answered _ refreshed => some { s.setPhase p .releasing with file := some refreshed }
    | _ => none
  | .recover p =>
    match s.phase p with
    | .rejected active =>
      match classifyToken s.file with
      | .valid token =>
        some (s.setPhase p (if token.refreshToken ≠ active.refreshToken then .releasing
          else .tombstoning active))
      | _ => some (s.setPhase p (.tombstoning active))
    | _ => none
  | .tombstone p =>
    match s.phase p with
    | .tombstoning active =>
      some { s.setPhase p .releasing with file := some (revokedTombstone active) }
    | _ => none
  | .release p =>
    match s.phase p with
    | .releasing => some { s.setPhase p .idle with lock := none }
    | _ => none
  | .login granted =>
    if s.isNew granted then
      some { s with
        file := some granted
        issued := granted.refreshToken :: s.issued
        current := some granted }
    else none
  | .logout => some { s with file := none, current := none }

/-! ### The claim and the condition -/

/-- **The stored token is the current one** once nothing is under way.  After a logout there is no
token, at any time, and no token is ever stored as revoked. -/
structure Current (s : TokenStore) : Prop where
  settled : (∀ p, s.phase p = .idle) → s.file = s.current
  loggedOut : s.current = none → s.file = none
  noTombstone : ∀ token ∈ s.file, classifyToken (some token) = .valid token

/-- **The condition on a step**: a refresh finds a file behind the lock, its answer is not lost,
and the file is still what it has refreshed when it saves the answer. -/
def Undisturbed (s : TokenStore) : TokenEvent → Prop
  | .reread _ _ => s.file ≠ none
  | .lose p _ => (s.phase p).answer = none
  | .receive p => ∀ x ∈ (s.phase p).answer, s.file = some x.1
  | _ => True

instance (s : TokenStore) (e : TokenEvent) : Decidable (s.Undisturbed e) := by
  cases e <;> unfold Undisturbed <;> infer_instance

/-! ### The invariant -/

/-- **The invariant.** -/
structure Sound (s : TokenStore) : Prop where
  exclusive : ∀ p, (s.phase p).holdsLock = true → s.lock = some p
  /-- The file is current, but for an answer under way. -/
  current : s.file = s.current ∨
    ∃ p x, (s.phase p).answer = some x ∧ s.file = some x.1 ∧ s.current = some x.2
  /-- The answer for the stored token is the current one. -/
  answer : ∀ p x, (s.phase p).answer = some x → s.file = some x.1 → s.current = some x.2
  /-- The stored token has been used by the refresh whose answer is under way, if at all. -/
  unused : ∀ token, s.file = some token → token.refreshToken ∈ s.used →
    ∃ p x, (s.phase p).answer = some x ∧ x.1.refreshToken = token.refreshToken
  /-- What is to be sent has not been used. -/
  fresh : ∀ p active, s.phase p = .requesting active → active.refreshToken ∉ s.used
  /-- Nor has what is about to arrive. -/
  arriving : ∀ p x, (s.phase p).answer = some x → x.2.refreshToken ∉ s.used
  issued : ∀ p active, (s.phase p).active = some active → active.refreshToken ∈ s.issued
  stored : ∀ token, s.file = some token →
    token.refreshToken ∈ s.issued ∧ classifyToken (some token) = .valid token
  used_issued : ∀ r ∈ s.used, r ∈ s.issued
  granted : ∀ p x, (s.phase p).answer = some x →
    x.2.refreshToken ∈ s.issued ∧ classifyToken (some x.2) = .valid x.2
  notRejected : ∀ p, (s.phase p).isRejected = false

namespace Sound

variable {s t : TokenStore} {p q : ℕ} {phase : RefreshPhase}

theorem setPhase_same : (s.setPhase p phase).phase p = phase := Function.update_self _ _ _

theorem setPhase_other (h : q ≠ p) : (s.setPhase p phase).phase q = s.phase q :=
  Function.update_of_ne h _ _

theorem initial : Sound {} where
  exclusive := fun p hp => by cases hp
  current := Or.inl rfl
  answer := fun p x hx => by cases hx
  unused := fun token ht => by cases ht
  fresh := fun p active hp => by cases hp
  arriving := fun p x hx => by cases hx
  issued := fun p active hp => by cases hp
  stored := fun token ht => by cases ht
  used_issued := fun r hr => by cases hr
  granted := fun p x hx => by cases hx
  notRejected := fun p => rfl

theorem holdsLock_of_answer {x : TokenInfo × TokenInfo} (h : phase.answer = some x) :
    phase.holdsLock = true := by
  cases phase <;> first | rfl | cases h

theorem eq_of_holdsLock (h : s.Sound) (hp : (s.phase p).holdsLock = true)
    (hq : (s.phase q).holdsLock = true) : p = q :=
  some.inj ((h.exclusive p hp).symm.trans (h.exclusive q hq))

/-- **A refresh goes on**, without an answer under way before or after. -/
theorem setPhase (h : s.Sound) (hold : (s.phase p).answer = none) (hnew : phase.answer = none)
    (hlock : phase.holdsLock = true → s.lock = some p)
    (hfresh : ∀ active, phase = .requesting active →
      active.refreshToken ∉ s.used ∧ active.refreshToken ∈ s.issued)
    (hrejected : phase.isRejected = false) : (s.setPhase p phase).Sound := by
  have hanswer : ∀ q, ((s.setPhase p phase).phase q).answer = (s.phase q).answer := by
    intro q
    by_cases hq : q = p
    · rw [hq, setPhase_same, hold, hnew]
    · rw [setPhase_other hq]
  constructor
  case exclusive =>
    intro q hq
    by_cases hqp : q = p
    · rw [hqp, setPhase_same] at hq
      rw [hqp]
      exact hlock hq
    · rw [setPhase_other hqp] at hq
      exact h.exclusive q hq
  case current =>
    rcases h.current with hcur | ⟨q, x, hx, hfile, hcur⟩
    · exact Or.inl hcur
    · exact Or.inr ⟨q, x, (hanswer q).trans hx, hfile, hcur⟩
  case answer => exact fun q x hx => h.answer q x ((hanswer q).symm.trans hx)
  case unused =>
    intro token hfile hused
    obtain ⟨q, x, hx, hsame⟩ := h.unused token hfile hused
    exact ⟨q, x, (hanswer q).trans hx, hsame⟩
  case fresh =>
    intro q active hq
    by_cases hqp : q = p
    · rw [hqp, setPhase_same] at hq
      exact (hfresh active hq).1
    · rw [setPhase_other hqp] at hq
      exact h.fresh q active hq
  case arriving => exact fun q x hx => h.arriving q x ((hanswer q).symm.trans hx)
  case issued =>
    intro q active hq
    by_cases hqp : q = p
    · rw [hqp, setPhase_same] at hq
      cases phase with
      | requesting a =>
        obtain rfl := some.inj hq
        exact (hfresh a rfl).2
      | answered a r => cases hnew
      | _ => cases hq
    · rw [setPhase_other hqp] at hq
      exact h.issued q active hq
  case stored => exact h.stored
  case used_issued => exact h.used_issued
  case granted => exact fun q x hx => h.granted q x ((hanswer q).symm.trans hx)
  case notRejected =>
    intro q
    by_cases hqp : q = p
    · rw [hqp, setPhase_same]
      exact hrejected
    · rw [setPhase_other hqp]
      exact h.notRejected q

theorem setLock (h : s.Sound) {lock : Option ℕ}
    (hlock : ∀ p, (s.phase p).holdsLock = true → lock = some p) : Sound { s with lock := lock } :=
  { h with exclusive := hlock }

theorem readAgain (h : s.Sound) {token : TokenInfo} {force : Bool} (now : ℤ)
    (hp : s.phase p = .locked token force) (hfile : s.file ≠ none) :
    (s.readAgain p token force now).Sound := by
  have hold : (s.phase p).answer = none := by rw [hp]; rfl
  have hlock : s.lock = some p := h.exclusive p (by rw [hp]; rfl)
  have hrelease : (s.setPhase p .releasing).Sound :=
    h.setPhase hold rfl (fun _ => hlock) (fun _ ha => by cases ha) rfl
  unfold TokenStore.readAgain
  cases hstate : classifyToken s.file with
  | revoked scope tokenType => exact hrelease
  | missing =>
    cases hs : s.file with
    | none => exact absurd hs hfile
    | some t => rw [hs, (h.stored t hs).2] at hstate; cases hstate
  | valid after =>
    have hafter := classifyToken_valid hstate
    simp only []
    split_ifs
    · exact hrelease
    · exact hrelease
    · unfold request
      split_ifs
      · exact hrelease
      · refine h.setPhase hold rfl (fun _ => hlock) (fun active ha => ?_) rfl
        obtain rfl := RefreshPhase.requesting.inj ha
        refine ⟨fun hused => ?_, (h.stored after hafter).1⟩
        -- whoever has used the stored token would hold the lock as well
        obtain ⟨q, x, hx, -⟩ := h.unused after hafter hused
        have hqp := h.eq_of_holdsLock (holdsLock_of_answer hx) (by rw [hp]; rfl : _)
        rw [hqp, hold] at hx
        cases hx

theorem active_of_answer {x : TokenInfo × TokenInfo} (h : phase.answer = some x) :
    phase.active = some x.1 := by
  cases phase with
  | answered active refreshed =>
    cases h
    rfl
  | _ => cases h

/-- Next to a refresh that holds the lock, no other answer is under way. -/
theorem answer_eq_none (h : s.Sound) (hp : (s.phase p).holdsLock = true) (hq : q ≠ p) :
    (s.phase q).answer = none := by
  cases hanswer : (s.phase q).answer with
  | none => rfl
  | some x => exact absurd (h.eq_of_holdsLock (holdsLock_of_answer hanswer) hp) hq

theorem of_isNew {granted : TokenInfo} (h : s.isNew granted = true) :
    classifyToken (some granted) = .valid granted ∧ granted.refreshToken ∉ s.issued := by
  obtain ⟨haccess, hissued⟩ := Bool.and_eq_true_iff.1 h
  exact ⟨if_neg (of_decide_eq_true haccess), of_decide_eq_true hissued⟩

theorem rotate (h : s.Sound) {active granted : TokenInfo} (hp : s.phase p = .requesting active)
    (hnew : s.isNew granted = true) : (s.rotate p active granted).Sound := by
  obtain ⟨hvalid, hgranted⟩ := of_isNew hnew
  have hlocks : (s.phase p).holdsLock = true := by rw [hp]; rfl
  have hactive : active.refreshToken ∈ s.issued := h.issued p active (by rw [hp]; rfl)
  have hphase : (s.rotate p active granted).phase p = .answered active granted := setPhase_same
  have hother : ∀ q, q ≠ p → (s.rotate p active granted).phase q = s.phase q := fun q hq =>
    setPhase_other hq
  -- no answer is under way so far, and one is from now on
  have hnone : ∀ q, (s.phase q).answer = none := by
    intro q
    by_cases hq : q = p
    · rw [hq, hp]
      rfl
    · exact h.answer_eq_none hlocks hq
  have hanswer : ∀ q x, ((s.rotate p active granted).phase q).answer = some x →
      q = p ∧ x = (active, granted) := by
    intro q x hx
    by_cases hq : q = p
    · rw [hq, hphase] at hx
      exact ⟨hq, (some.inj hx).symm⟩
    · rw [hother q hq, hnone] at hx
      cases hx
  have hself : ((s.rotate p active granted).phase p).answer = some (active, granted) := by
    rw [hphase]
    rfl
  have hcurrent : s.file = s.current := by
    rcases h.current with hcur | ⟨q, x, hx, -⟩
    · exact hcur
    · rw [hnone] at hx
      cases hx
  constructor
  case exclusive =>
    intro q hq
    by_cases hqp : q = p
    · rw [hqp]
      exact h.exclusive p hlocks
    · rw [hother q hqp] at hq
      exact h.exclusive q hq
  case current =>
    by_cases hcur : s.current = some active
    · exact Or.inr ⟨p, _, hself, hcurrent.trans hcur, if_pos hcur⟩
    · exact Or.inl (hcurrent.trans (if_neg hcur).symm)
  case answer =>
    intro q x hx hfile
    obtain ⟨-, rfl⟩ := hanswer q x hx
    exact if_pos (hcurrent.symm.trans hfile)
  case unused =>
    intro token hfile hused
    rcases List.mem_cons.1 hused with hsame | hused
    · exact ⟨p, _, hself, hsame.symm⟩
    · obtain ⟨q, x, hx, -⟩ := h.unused token hfile hused
      rw [hnone] at hx
      cases hx
  case fresh =>
    intro q a hq
    by_cases hqp : q = p
    · rw [hqp, hphase] at hq
      cases hq
    · rw [hother q hqp] at hq
      exact absurd (h.eq_of_holdsLock (by rw [hq]; rfl) hlocks) hqp
  case arriving =>
    intro q x hx hused
    obtain ⟨-, rfl⟩ := hanswer q x hx
    rcases List.mem_cons.1 hused with hsame | hused
    · exact hgranted (hsame ▸ hactive)
    · exact hgranted (h.used_issued _ hused)
  case issued =>
    intro q a hq
    by_cases hqp : q = p
    · rw [hqp, hphase] at hq
      cases hq
      exact .tail _ hactive
    · rw [hother q hqp] at hq
      exact .tail _ (h.issued q a hq)
  case stored =>
    exact fun token hfile => ⟨.tail _ (h.stored token hfile).1, (h.stored token hfile).2⟩
  case used_issued =>
    intro r hr
    rcases List.mem_cons.1 hr with rfl | hr
    · exact .tail _ hactive
    · exact .tail _ (h.used_issued r hr)
  case granted =>
    intro q x hx
    obtain ⟨-, rfl⟩ := hanswer q x hx
    exact ⟨(.head _), hvalid⟩
  case notRejected =>
    intro q
    by_cases hqp : q = p
    · rw [hqp, hphase]
      rfl
    · rw [hother q hqp]
      exact h.notRejected q

theorem receive (h : s.Sound) {active refreshed : TokenInfo}
    (hp : s.phase p = .answered active refreshed) (hfile : s.file = some active) :
    Sound { s.setPhase p .releasing with file := some refreshed } := by
  have hx : (s.phase p).answer = some (active, refreshed) := by rw [hp]; rfl
  have hlocks : (s.phase p).holdsLock = true := holdsLock_of_answer hx
  have hnone : ∀ q, ((s.setPhase p .releasing).phase q).answer = none := by
    intro q
    by_cases hq : q = p
    · rw [hq, setPhase_same]
      rfl
    · rw [setPhase_other hq]
      exact h.answer_eq_none hlocks hq
  have hphase : (s.setPhase p .releasing).phase p = .releasing := setPhase_same
  have hold : ∀ q, q ≠ p → (s.setPhase p .releasing).phase q = s.phase q := fun q hq =>
    setPhase_other hq
  constructor
  case exclusive =>
    intro q hq
    by_cases hqp : q = p
    · rw [hqp]
      exact h.exclusive p hlocks
    · exact h.exclusive q (hold q hqp ▸ hq)
  case current => exact Or.inl (h.answer p _ hx hfile).symm
  case answer =>
    intro q x hq
    cases (hnone q).symm.trans hq
  case unused =>
    intro token ht hused
    cases ht
    exact absurd hused (h.arriving p _ hx)
  case fresh =>
    intro q a hq
    by_cases hqp : q = p
    · rw [hqp] at hq
      cases hphase.symm.trans hq
    · exact h.fresh q a ((hold q hqp).symm.trans hq)
  case arriving =>
    intro q x hq
    cases (hnone q).symm.trans hq
  case issued =>
    intro q a hq
    by_cases hqp : q = p
    · have hnot : ((s.setPhase p .releasing).phase p).active = some a := hqp ▸ hq
      rw [hphase] at hnot
      cases hnot
    · exact h.issued q a (hold q hqp ▸ hq)
  case stored =>
    intro token ht
    cases ht
    exact h.granted p _ hx
  case used_issued => exact h.used_issued
  case granted =>
    intro q x hq
    cases (hnone q).symm.trans hq
  case notRejected =>
    intro q
    by_cases hqp : q = p
    · have hself : ((s.setPhase p .releasing).phase p).isRejected = false := by rw [hphase]; rfl
      exact hqp ▸ hself
    · exact (congrArg RefreshPhase.isRejected (hold q hqp)).trans (h.notRejected q)

theorem login (h : s.Sound) {granted : TokenInfo} (hnew : s.isNew granted = true) :
    Sound { s with
      file := some granted
      issued := granted.refreshToken :: s.issued
      current := some granted } := by
  obtain ⟨hvalid, hgranted⟩ := of_isNew hnew
  constructor
  case exclusive => exact h.exclusive
  case current => exact Or.inl rfl
  case answer =>
    intro p x hx hfile
    have hissued := h.issued p x.1 (active_of_answer hx)
    rw [← some.inj hfile] at hissued
    exact absurd hissued hgranted
  case unused =>
    intro token hfile hused
    cases hfile
    exact absurd (h.used_issued _ hused) hgranted
  case fresh => exact h.fresh
  case arriving => exact h.arriving
  case issued => exact fun p active hp => .tail _ (h.issued p active hp)
  case stored =>
    intro token hfile
    cases hfile
    exact ⟨(.head _), hvalid⟩
  case used_issued => exact fun r hr => .tail _ (h.used_issued r hr)
  case granted =>
    exact fun p x hx => ⟨.tail _ (h.granted p x hx).1, (h.granted p x hx).2⟩
  case notRejected => exact h.notRejected

theorem logout (h : s.Sound) : Sound { s with file := none, current := none } :=
  { h with
    current := Or.inl rfl
    answer := fun p x hx hfile => by cases hfile
    unused := fun token hfile => by cases hfile
    stored := fun token hfile => by cases hfile }

/-- **Every step preserves the invariant.** -/
theorem step (h : s.Sound) {e : TokenEvent} (hok : s.Undisturbed e) (hs : s.step e = some t) :
    t.Sound := by
  have hreleasing : ∀ {p}, (s.phase p).answer = none → (s.phase p).holdsLock = true →
      (s.setPhase p .releasing).Sound := fun hanswer hlocks =>
    h.setPhase hanswer rfl (fun _ => h.exclusive _ hlocks) (fun _ ha => by cases ha) rfl
  cases e <;> simp only [TokenStore.step] at hs
  case ensureFresh p force now =>
    cases hs
    split_ifs with hidle
    · have hanswer : (s.phase p).answer = none := by rw [hidle]; rfl
      unfold beginRefresh
      split
      · split_ifs
        · exact h.setPhase hanswer rfl (fun hl => by cases hl) (fun _ ha => by cases ha) rfl
        · exact h
      · exact h
    · exact h
  case acquire p =>
    cases hp : s.phase p with
    | waiting token force =>
      simp only [hp] at hs
      obtain ⟨hfree, hs⟩ := ite_none_right_eq_some.1 hs
      cases hs
      have hlocked : Sound { s with lock := some p } :=
        h.setLock fun q hq => by cases hfree.symm.trans (h.exclusive q hq)
      exact hlocked.setPhase (by rw [hp]; rfl) rfl (fun _ => rfl) (fun _ ha => by cases ha) rfl
    | _ => simp [hp] at hs
  case reread p now =>
    cases hp : s.phase p with
    | locked token force =>
      simp only [hp] at hs
      exact some.inj hs ▸ h.readAgain now hp hok
    | _ => simp [hp] at hs
  case serve p granted =>
    cases hp : s.phase p with
    | requesting active =>
      simp only [hp, if_neg (h.fresh p active hp)] at hs
      obtain ⟨hnew, hs⟩ := ite_none_right_eq_some.1 hs
      exact some.inj hs ▸ h.rotate hp hnew
    | _ => simp [hp] at hs
  case lose p again =>
    cases hp : s.phase p with
    | requesting active =>
      simp only [hp] at hs
      cases hs
      have hanswer : (s.phase p).answer = none := by rw [hp]; rfl
      cases again with
      | true =>
        refine h.setPhase hanswer rfl (fun _ => h.exclusive p (by rw [hp]; rfl))
          (fun a ha => ?_) rfl
        obtain rfl := RefreshPhase.requesting.inj ha
        exact ⟨h.fresh p active hp, h.issued p active (by rw [hp]; rfl)⟩
      | false => exact hreleasing hanswer (by rw [hp]; rfl)
    | answered active refreshed =>
      have hanswer : (s.phase p).answer = none := hok
      rw [hp] at hanswer
      cases hanswer
    | _ => simp [hp] at hs
  case receive p =>
    cases hp : s.phase p with
    | answered active refreshed =>
      simp only [hp] at hs
      have hfile := hok (active, refreshed) (by rw [hp]; rfl)
      exact some.inj hs ▸ h.receive hp hfile
    | _ => simp [hp] at hs
  case recover p =>
    have hnot := h.notRejected p
    cases hp : s.phase p with
    | rejected active => rw [hp] at hnot; cases hnot
    | _ => simp [hp] at hs
  case tombstone p =>
    have hnot := h.notRejected p
    cases hp : s.phase p with
    | tombstoning active => rw [hp] at hnot; cases hnot
    | _ => simp [hp] at hs
  case release p =>
    cases hp : s.phase p with
    | releasing =>
      simp only [hp] at hs
      cases hs
      have hlocks : (s.phase p).holdsLock = true := by rw [hp]; rfl
      have hidle : (s.setPhase p .idle).Sound := h.setPhase (by rw [hp]; rfl) rfl
        (fun hl => by cases hl) (fun _ ha => by cases ha) rfl
      refine hidle.setLock fun q hq => ?_
      by_cases hqp : q = p
      · rw [hqp, setPhase_same] at hq
        cases hq
      · rw [setPhase_other hqp] at hq
        exact absurd (h.eq_of_holdsLock hq hlocks) hqp
    | _ => simp [hp] at hs
  case login granted =>
    obtain ⟨hnew, hs⟩ := ite_none_right_eq_some.1 hs
    exact some.inj hs ▸ h.login hnew
  case logout => exact some.inj hs ▸ h.logout

theorem toCurrent (h : s.Sound) : s.Current where
  settled := by
    intro hidle
    rcases h.current with hcur | ⟨p, x, hx, -⟩
    · exact hcur
    · rw [hidle p] at hx
      cases hx
  loggedOut := by
    intro hnone
    rcases h.current with hcur | ⟨p, x, -, -, hcur⟩
    · exact hcur.trans hnone
    · cases hnone.symm.trans hcur
  noTombstone := fun token hfile => (h.stored token hfile).2

end Sound

end TokenStore

/-- **The stored token is the current one**, whatever the processes do, as long as no login or
logout comes between a refresh and its answer and no answer is lost. -/
theorem run_current {l : List TokenEvent} {s : TokenStore}
    (h : Run TokenStore.step TokenStore.Undisturbed {} l s) : s.Current := by
  have hsound : s.Sound :=
    h.invariant (I := TokenStore.Sound) TokenStore.Sound.initial
      fun _ _ _ ht hok hs => ht.step hok hs
  exact hsound.toCurrent

/-- A token of the server. -/
def bearerToken (access refresh : String) : TokenInfo where
  accessToken := access
  refreshToken := refresh
  expiresAt := 3600
  scope := "kimi-code"
  tokenType := "Bearer"
  expiresIn := 3600

/-- One run: two processes refresh at once, the second one finds the token of the first. -/
theorem run_current_peers : ∃ s, Run TokenStore.step TokenStore.Undisturbed {}
    [.login (bearerToken "a1" "r1"), .ensureFresh 0 true 0, .ensureFresh 1 true 0, .acquire 0,
      .reread 0 0, .serve 0 (bearerToken "a2" "r2"), .receive 0, .release 0, .acquire 1,
      .reread 1 0, .release 1] s ∧
    s.Current ∧ s.file = some (bearerToken "a2" "r2") := by
  have hrun : ∃ s, Run TokenStore.step TokenStore.Undisturbed {}
      [.login (bearerToken "a1" "r1"), .ensureFresh 0 true 0, .ensureFresh 1 true 0, .acquire 0,
        .reread 0 0, .serve 0 (bearerToken "a2" "r2"), .receive 0, .release 0, .acquire 1,
        .reread 1 0, .release 1] s ∧ s.file = some (bearerToken "a2" "r2") :=
    exists_run (by decide +kernel) (by decide +kernel)
  obtain ⟨s, hs, hfile⟩ := hrun
  exact ⟨s, hs, run_current hs, hfile⟩

/-- **A logout that is undone by a refresh in flight.** -/
theorem not_run_current : ¬ ∀ (l : List TokenEvent) (s : TokenStore),
    Run TokenStore.step always {} l s → s.Current := by
  intro h
  have hrun : ∃ s, Run TokenStore.step always {}
      [.login (bearerToken "a1" "r1"), .ensureFresh 0 true 0, .acquire 0, .reread 0 0, .logout,
        .serve 0 (bearerToken "a2" "r2"), .receive 0, .release 0] s ∧
      (s.current = none ∧ s.file = some (bearerToken "a2" "r2")) :=
    exists_run (by decide +kernel) (legal_always _ _)
  obtain ⟨s, hs, hcurrent, hfile⟩ := hrun
  have hnone := (h _ s hs).loggedOut hcurrent
  rw [hfile] at hnone
  cases hnone

end NoriCode
