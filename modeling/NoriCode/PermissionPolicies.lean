/-
**Which tool calls are executed.**

An agent that is about to execute a tool call asks a list of policies, and the first that decides
settles it: the call is approved, denied, or the user is asked.  The rules of an agent are its own
and those of its ancestors, and so are the rules that approvals for the session have left.  Every
policy is awaited, so each may see another state of the agent.

An error on the way, of a hook or of a pattern that cannot be matched, blocks the call.

Main definitions:

* `PermissionState`, `AgentView` — a permission manager, and what a policy sees of an agent;
* `createPermissionDecisionPolicies` — the policies in their order;
* `authorizeToolExecution` — **what becomes of a call**;
* `recordApprovals` — approvals recorded along a chain of managers.

Main results:

* `authorize_of_denied` — a policy that comes early and does not pass keeps the call from being
  executed;
* `mem_sessionApprovalRulePatterns` — the rules that approvals have left;
* `permission_decision` — **deny rules, the readonly switch and approvals for the session**.
-/

import NoriCode.ApprovalRule
import NoriCode.ApprovalSettlement
import NoriCode.DepartmentPermission
import NoriCode.LibFirst
import NoriCode.ToolAccess

namespace NoriCode

open List

/-! ### Permission managers -/

inductive PermissionRuleDecision
  | allow
  | deny
  | ask
  deriving DecidableEq

inductive PermissionRuleScope
  | turnOverride
  | sessionRuntime
  | project
  | user
  deriving DecidableEq

structure PermissionRule where
  decision : PermissionRuleDecision
  scope : PermissionRuleScope
  pattern : String
  reason : Option String := none

/-- What a permission manager has of its own. -/
structure PermissionState where
  rules : List PermissionRule := []
  modeOverride : Option PermissionMode := none
  localSessionApprovalRulePatterns : List String := []
  toolsReadonly : Bool := false

/-- A manager and its ancestors: its mode is that of the next one with a mode of its own. -/
def permissionMode (managers : List PermissionState) : PermissionMode :=
  (managers.findSome? PermissionState.modeOverride).getD .manual

def effectiveRules (managers : List PermissionState) : List PermissionRule :=
  managers.flatMap PermissionState.rules

def sessionApprovalRulePatterns (managers : List PermissionState) : List String :=
  managers.flatMap PermissionState.localSessionApprovalRulePatterns

/-- The switch is that of the manager itself. -/
def toolsReadonly (managers : List PermissionState) : Bool :=
  managers.head?.any PermissionState.toolsReadonly

/-! ### What policies see -/

inductive AgentType
  | main
  | sub
  | independent
  deriving DecidableEq

/-- What the hooks before a tool call come to. -/
inductive HookOutcome
  | passed
  | blocked (reason : String)
  | failed

structure GitWorkTreeMarker where
  dotGitPath : String
  controlDirPath : String

/-- What a policy sees of an agent at the moment: its managers, its own first, and the rest. -/
structure AgentView where
  managers : List PermissionState
  type : AgentType := .main
  hook : HookOutcome := .passed
  discussModeIsActive : Bool := false
  teamWriteLocked : Bool := false
  coderWriteEnabled : Bool := false
  cwd : String := ""
  additionalDirs : List String := []
  pathClass : PathClass := .posix
  gitWorkTreeMarker : Option GitWorkTreeMarker := none

/-- A tool call whose execution is resolved. -/
structure PermissionCall where
  toolName : String
  matchesRule : Option (List Char → Option Bool) := none
  accesses : Option ToolAccesses := none
  displaysGoalStart : Bool := false
  approvalRule : String

/-- How patterns are matched, and what is told from a path. -/
structure PermissionEnv where
  picomatch : Picomatch
  isSensitiveFile : String → Bool
  hasGitPathComponent : String → String → PathClass → Bool
  isWithinDirectory : String → String → PathClass → Bool

inductive PolicyResult
  | approve
  | deny (message : String)
  | ask (reviewsGoalStart : Bool := false)
  deriving DecidableEq

/-- A policy decides, passes (`some none`) or throws. -/
structure PermissionPolicy where
  name : String
  evaluate : PermissionEnv → AgentView → PermissionCall → Option (Option PolicyResult)

/-! ### The policies -/

def PreToolCallHookPermissionPolicy : PermissionPolicy where
  name := "pre-tool-call-hook"
  evaluate _ view _ :=
    match view.hook with
    | .passed => some none
    | .blocked reason => some (some (.deny reason))
    | .failed => none

def AutoModeAskUserQuestionDenyPermissionPolicy : PermissionPolicy where
  name := "auto-mode-ask-user-question-deny"
  evaluate _ view call :=
    if permissionMode view.managers = .auto ∧ call.toolName = "AskUserQuestion" then
      some (some (.deny ("AskUserQuestion is disabled while auto permission mode is active. " ++
        "Make a reasonable decision and continue without asking the user.")))
    else some none

def DISCUSS_DENIED_TOOLS : List String :=
  ["Write", "Edit", "Bash", "TaskStop", "CronCreate", "CronDelete"]

def discussDenyMessage (chairing : Bool) (toolName : String) : String :=
  let exit :=
    if chairing then "Call TeamAssign or leave Discuss first."
    else "Your lead is in Discuss; writes resume once it assigns work."
  if toolName = "TaskStop" then s!"TaskStop is not available while team writes are locked. {exit}"
  else if toolName = "CronCreate" ∨ toolName = "CronDelete" then
    s!"{toolName} is not available while team writes are locked because it would mutate " ++
      s!"scheduled work. {exit}"
  else if chairing then
    s!"Discuss is active. {toolName} is blocked so the meeting stays read-only. " ++
      "Use Read, Grep, and Glob, then TeamAssign to enter Code."
  else
    s!"{toolName} is blocked: your lead is in Discuss, so the department is read-only until it " ++
      "assigns work. Use Read, Grep, and Glob meanwhile."

def DiscussModeGuardDenyPermissionPolicy : PermissionPolicy where
  name := "discuss-mode-guard-deny"
  evaluate _ view call :=
    if !view.discussModeIsActive && !view.teamWriteLocked then some none
    else if call.toolName ∉ DISCUSS_DENIED_TOOLS then some none
    else some (some (.deny (discussDenyMessage view.discussModeIsActive call.toolName)))

def READONLY_DENIED_TOOLS : List String := ["Write", "Edit"]

def readonlyDenyMessage (type : AgentType) (toolName : String) : String :=
  if type = .main then
    s!"Tool \"{toolName}\" is blocked while readonly is on. Assign the work with TeamAssign, or " ++
      "run `/setting readonly off` if the main Agent should write directly."
  else s!"Tool \"{toolName}\" is not available because tools are set to readonly."

def ReadonlyPermissionPolicy : PermissionPolicy where
  name := "tools-readonly-deny"
  evaluate _ view call :=
    if !toolsReadonly view.managers then some none
    else if call.toolName ∉ READONLY_DENIED_TOOLS then some none
    -- the unlocking of coders is not for the main agent
    else if view.coderWriteEnabled ∧ view.type ≠ .main then some none
    else some (some (.deny (readonlyDenyMessage view.type call.toolName)))

def USER_CONFIGURED_SCOPES : List PermissionRuleScope := [.turnOverride, .project, .user]

/-- How a pattern is for a call, if it is; the match may throw. -/
def matchPattern (env : PermissionEnv) (call : PermissionCall) (pattern : String) :
    Option (Option RuleMatchStrategy) :=
  matchPermissionRule env.picomatch pattern.toList call.toolName.toList call.matchesRule

/-- The first of the configured rules with a decision that is for a call. -/
def firstMatchingRule (env : PermissionEnv) (view : AgentView) (call : PermissionCall)
    (decision : PermissionRuleDecision) : Option (Option PermissionRule) :=
  LibFirst.first (fun rule =>
    if rule.decision ≠ decision then some none
    else (matchPattern env call rule.pattern).map fun m => m.map fun _ => rule)
    ((effectiveRules view.managers).filter fun rule => rule.scope ∈ USER_CONFIGURED_SCOPES)

def formatPermissionRuleDenyMessage (tool : String) (reason : Option String) (type : AgentType) :
    String :=
  let suffix :=
    match reason with
    | none => ""
    | some reason => if reason.length > 0 then s!" Reason: {reason}" else ""
  if type = .sub then
    s!"Tool \"{tool}\" was denied.{suffix} Try a different approach — don't retry the same " ++
      "call, don't attempt to bypass the restriction."
  else s!"Tool \"{tool}\" was denied by permission rule.{suffix}"

def UserConfiguredDenyPermissionPolicy : PermissionPolicy where
  name := "user-configured-deny"
  evaluate env view call :=
    (firstMatchingRule env view call .deny).map fun m => m.map fun rule =>
      .deny (formatPermissionRuleDenyMessage call.toolName rule.reason view.type)

def ModeApprovePermissionPolicy (mode : PermissionMode) (policyName : String) :
    PermissionPolicy where
  name := policyName
  evaluate _ view _ :=
    if permissionMode view.managers ≠ mode then some none else some (some .approve)

def SessionApprovalHistoryPermissionPolicy : PermissionPolicy where
  name := "session-approval-history"
  evaluate env view call :=
    (LibFirst.first (matchPattern env call)
      (sessionApprovalRulePatterns view.managers)).map fun m => m.map fun _ => .approve

def UserConfiguredAskPermissionPolicy : PermissionPolicy where
  name := "user-configured-ask"
  evaluate env view call :=
    (firstMatchingRule env view call .ask).map fun m => m.map fun _ => .ask

def UserConfiguredAllowPermissionPolicy : PermissionPolicy where
  name := "user-configured-allow"
  evaluate env view call :=
    (firstMatchingRule env view call .allow).map fun m => m.map fun _ => .approve

def GoalStartReviewAskPermissionPolicy : PermissionPolicy where
  name := "goal-start-review-ask"
  evaluate _ view call :=
    if call.toolName ≠ "CreateGoal" then some none
    else if permissionMode view.managers = .auto then some none
    else if !call.displaysGoalStart then some none
    else some (some (.ask true))

def fileAccesses (call : PermissionCall) : List ToolFileAccess :=
  (call.accesses.getD []).filterMap fun
    | .file access => some access
    | .all => none

def writeFileAccesses (call : PermissionCall) : List ToolFileAccess :=
  (fileAccesses call).filter fun access =>
    access.operation == .write || access.operation == .readwrite

def SensitiveFileAccessAskPermissionPolicy : PermissionPolicy where
  name := "sensitive-file-access-ask"
  evaluate env _ call :=
    if (fileAccesses call).any fun access => env.isSensitiveFile access.path then some (some .ask)
    else some none

def isGitControlPath (env : PermissionEnv) (targetPath : String) (marker : GitWorkTreeMarker)
    (pathClass : PathClass) : Bool :=
  env.isWithinDirectory targetPath marker.dotGitPath pathClass ||
    env.isWithinDirectory targetPath marker.controlDirPath pathClass

def GitControlPathAccessAskPermissionPolicy : PermissionPolicy where
  name := "git-control-path-access-ask"
  evaluate env view call :=
    if view.cwd.length = 0 then some none
    else if (fileAccesses call).any fun access =>
        env.hasGitPathComponent access.path view.cwd view.pathClass then some (some .ask)
    else
      match view.gitWorkTreeMarker with
      | none => some none
      | some marker =>
        if (fileAccesses call).any fun access =>
            isGitControlPath env access.path marker view.pathClass then some (some .ask)
        else some none

def DEFAULT_APPROVE_TOOLS : List String :=
  ["Read", "Grep", "Glob", "ReadMediaFile", "SetTodoList", "TodoList", "TaskList", "TaskOutput",
    "CronList", "WebSearch", "FetchURL", "AskUserQuestion", "TeamCreate", "TeamDismiss",
    "TeamUpdate", "TeamAssign", "TeamBroadcast", "TeamDM", "TeamChat", "TeamStatus",
    "TeamDiscussInvite", "TeamDiscussKick", "TeamDecide", "TeamSpeak", "SessionSearch",
    "SessionMount", "SessionUnmount", "SessionGraph", "Skill", "GetGoal", "SetGoalBudget",
    "UpdateGoal"]

def DefaultToolApprovePermissionPolicy : PermissionPolicy where
  name := "default-tool-approve"
  evaluate _ _ call :=
    if call.toolName ∈ DEFAULT_APPROVE_TOOLS then some (some .approve) else some none

def GitCwdWriteApprovePermissionPolicy : PermissionPolicy where
  name := "git-cwd-write-approve"
  evaluate env view call :=
    if call.toolName ≠ "Write" ∧ call.toolName ≠ "Edit" then some none
    else if view.pathClass ≠ .posix then some none
    else if view.cwd.length = 0 then some none
    else if writeFileAccesses call = [] then some none
    else if !(writeFileAccesses call).all fun access =>
        (view.cwd :: view.additionalDirs).any fun dir =>
          env.isWithinDirectory access.path dir .posix then some none
    else if view.gitWorkTreeMarker.isNone then some none
    else some (some .approve)

def FallbackAskPermissionPolicy : PermissionPolicy where
  name := "fallback-ask"
  evaluate _ _ _ := some (some .ask)

/-- **The policies in their order**; the first that decides wins. -/
def createPermissionDecisionPolicies : List PermissionPolicy :=
  [PreToolCallHookPermissionPolicy, AutoModeAskUserQuestionDenyPermissionPolicy,
    DiscussModeGuardDenyPermissionPolicy, ReadonlyPermissionPolicy,
    UserConfiguredDenyPermissionPolicy, ModeApprovePermissionPolicy .auto "auto-mode-approve",
    ModeApprovePermissionPolicy .yolo "yolo-mode-approve", SessionApprovalHistoryPermissionPolicy,
    UserConfiguredAskPermissionPolicy, UserConfiguredAllowPermissionPolicy,
    GoalStartReviewAskPermissionPolicy, SensitiveFileAccessAskPermissionPolicy,
    GitControlPathAccessAskPermissionPolicy, DefaultToolApprovePermissionPolicy,
    GitCwdWriteApprovePermissionPolicy, FallbackAskPermissionPolicy]

/-- What a policy says with its own view of the agent. -/
def askPolicy (env : PermissionEnv) (views : String → AgentView) (call : PermissionCall)
    (policy : PermissionPolicy) : Option (Option (String × PolicyResult)) :=
  (policy.evaluate env (views policy.name) call).map fun m => m.map fun result =>
    (policy.name, result)

/-- The first policy that decides. -/
def evaluatePolicies (env : PermissionEnv) (views : String → AgentView) (call : PermissionCall) :
    Option (Option (String × PolicyResult)) :=
  LibFirst.first (askPolicy env views call) createPermissionDecisionPolicies

/-! ### Authorization -/

/-- What comes of asking the user: there is no one to ask, the request fails, or a response. -/
inductive ApprovalReply
  | noRpc
  | failed
  | response (response : ApprovalResponse)

/-- What becomes of a call: whether it is blocked, with the reason that is given unless an error was
thrown, whether the user was asked, and the managers afterwards. -/
structure Authorization where
  block : Bool := false
  reason : Option String := none
  requested : Bool := false
  managers : List PermissionState

/-- An approval for the session leaves its rule behind. -/
def PermissionState.addApproval (s : PermissionState) (rule : Option String)
    (response : ApprovalResponse) : PermissionState :=
  if response.decision ≠ .approved ∨ response.scope = false then s
  else
    match rule with
    | none => s
    | some pattern =>
      if pattern ∈ s.localSessionApprovalRulePatterns then s
      else { s with
        localSessionApprovalRulePatterns := s.localSessionApprovalRulePatterns ++ [pattern] }

/-- A result is recorded by the manager itself. -/
def recordApprovalResult (managers : List PermissionState) (rule : Option String)
    (response : ApprovalResponse) : List PermissionState :=
  managers.modifyHead fun s => s.addApproval rule response

def toPermissionMode (label : Option String) : Option PermissionMode :=
  if label = some "auto" then some .auto
  else if label = some "yolo" then some .yolo
  else if label = some "manual" then some .manual
  else none

/-- An approved goal starts under the mode that was chosen with it. -/
def resolveGoalStart (managers : List PermissionState) (response : ApprovalResponse) :
    List PermissionState :=
  if response.decision ≠ .approved then managers
  else
    match toPermissionMode response.selectedLabel with
    | none => managers
    | some mode =>
      if mode = permissionMode managers then managers
      else managers.modifyHead fun s => { s with modeOverride := some mode }

def formatApprovalRejectionMessage (type : AgentType) (toolName : String)
    (response : ApprovalResponse) : String :=
  let suffix :=
    match response.feedback with
    | none => ""
    | some feedback => if feedback.length > 0 then s!" Reason: {feedback}" else ""
  let front :=
    if response.decision = .cancelled then
      s!"Tool \"{toolName}\" was not run because the approval request was cancelled."
    else s!"Tool \"{toolName}\" was not run because the user rejected the approval request."
  if type = .sub then
    s!"{front}{suffix} Try a different approach — don't retry the same call, don't attempt to " ++
      "bypass the restriction."
  else s!"{front}{suffix}"

/-- The user is asked, and the view is that of the moment when the reply is there. -/
def requestToolApproval (view : AgentView) (call : PermissionCall) (reviewsGoalStart : Bool) :
    ApprovalReply → Authorization
  | .failed => { block := true, requested := true, managers := view.managers }
  | .noRpc =>
    { managers :=
        let managers := recordApprovalResult view.managers none ⟨.approved, false, none, none⟩
        if reviewsGoalStart then resolveGoalStart managers ⟨.approved, false, none, none⟩
        else managers }
  | .response response =>
    let rule :=
      if response.decision = .approved ∧ response.scope = true then some call.approvalRule
      else none
    let managers := recordApprovalResult view.managers rule response
    { block := decide (response.decision ≠ .approved)
      reason :=
        if response.decision = .approved then none
        else some (formatApprovalRejectionMessage view.type call.toolName response)
      requested := true
      managers := if reviewsGoalStart then resolveGoalStart managers response else managers }

/-- **What becomes of a call**, with the errors on the way. -/
def authorizeToolExecution (env : PermissionEnv) (views : String → AgentView)
    (call : PermissionCall) (reply : ApprovalReply) : Authorization :=
  match evaluatePolicies env views call with
  | none => { block := true, managers := (views "requestToolApproval").managers }
  | some none => { managers := (views "requestToolApproval").managers }
  | some (some (_, .approve)) => { managers := (views "requestToolApproval").managers }
  | some (some (_, .deny message)) =>
    { block := true
      reason := some message
      managers := (views "requestToolApproval").managers }
  | some (some (_, .ask reviewsGoalStart)) =>
    requestToolApproval (views "requestToolApproval") call reviewsGoalStart reply

/-- Whether a call is executed, given whether the turn was aborted meanwhile. -/
def Authorization.executes (a : Authorization) (aborted : Bool) : Bool := !aborted && !a.block

/-! ### Policies that come early -/

/-- The policies before the first that approves. -/
def denyPolicies : List PermissionPolicy := createPermissionDecisionPolicies.take 5

variable {policy : PermissionPolicy}

theorem denyPolicies_deny (hpolicy : policy ∈ denyPolicies)
    (env : PermissionEnv) (view : AgentView) (call : PermissionCall) {result : PolicyResult}
    (h : policy.evaluate env view call = some (some result)) :
    ∃ message, result = .deny message := by
  have hmem : policy ∈ [PreToolCallHookPermissionPolicy,
      AutoModeAskUserQuestionDenyPermissionPolicy, DiscussModeGuardDenyPermissionPolicy,
      ReadonlyPermissionPolicy, UserConfiguredDenyPermissionPolicy] := hpolicy
  simp only [mem_cons, not_mem_nil, or_false] at hmem
  obtain rfl | rfl | rfl | rfl | rfl := hmem
  · simp only [PreToolCallHookPermissionPolicy] at h
    split at h
    case h_1 => cases h
    case h_2 reason _ => exact ⟨reason, (Option.some.inj (Option.some.inj h)).symm⟩
    case h_3 => cases h
  · simp only [AutoModeAskUserQuestionDenyPermissionPolicy] at h
    split_ifs at h
    · exact ⟨_, (Option.some.inj (Option.some.inj h)).symm⟩
    · cases h
  · simp only [DiscussModeGuardDenyPermissionPolicy] at h
    split_ifs at h
    · cases h
    · exact ⟨_, (Option.some.inj (Option.some.inj h)).symm⟩
    · cases h
  · simp only [ReadonlyPermissionPolicy] at h
    split_ifs at h
    · cases h
    · cases h
    · exact ⟨_, (Option.some.inj (Option.some.inj h)).symm⟩
    · cases h
  · obtain ⟨m, -, hm⟩ := Option.map_eq_some_iff.1 h
    obtain ⟨rule, -, rfl⟩ := Option.map_eq_some_iff.1 hm
    exact ⟨_, rfl⟩

variable {env : PermissionEnv} {views : String → AgentView} {call : PermissionCall}

theorem askPolicy_eq_pass_iff :
    askPolicy env views call policy = some none ↔
      policy.evaluate env (views policy.name) call = some none := by
  unfold askPolicy
  rw [Option.map_eq_some_iff]
  constructor
  · rintro ⟨m, hm, hmap⟩
    rw [hm, Option.map_eq_none_iff.1 hmap]
  · exact fun h => ⟨none, h, rfl⟩

theorem askPolicy_eq_decided_iff {result : PolicyResult} :
    askPolicy env views call policy = some (some (policy.name, result)) ↔
      policy.evaluate env (views policy.name) call = some (some result) := by
  unfold askPolicy
  rw [Option.map_eq_some_iff]
  constructor
  · rintro ⟨m, hm, hmap⟩
    obtain ⟨decided, rfl, hdecided⟩ := Option.map_eq_some_iff.1 hmap
    rw [hm, (Prod.mk.inj hdecided).2]
  · exact fun h => ⟨some result, h, rfl⟩

/-- **A policy that comes early and does not pass** keeps the call from being executed, and the user
from being asked. -/
theorem authorize_of_denied (reply : ApprovalReply) (hpolicy : policy ∈ denyPolicies)
    (h : policy.evaluate env (views policy.name) call ≠ some none) :
    (authorizeToolExecution env views call reply).block = true ∧
      (authorizeToolExecution env views call reply).requested = false := by
  have hdeny : ∀ policy ∈ denyPolicies, ∀ p, askPolicy env views call policy = some (some p) →
      ∃ message, p.2 = PolicyResult.deny message := by
    intro policy hpolicy p hp
    obtain ⟨m, hm, hmap⟩ := Option.map_eq_some_iff.1 hp
    obtain ⟨result, rfl, rfl⟩ := Option.map_eq_some_iff.1 hmap
    exact denyPolicies_deny hpolicy env (views policy.name) call hm
  have hfirst := LibFirst.first_of_front hdeny
    ⟨policy, hpolicy, fun hpass => h (askPolicy_eq_pass_iff.1 hpass)⟩
    (createPermissionDecisionPolicies.drop 5)
  have hall : denyPolicies ++ createPermissionDecisionPolicies.drop 5 =
      createPermissionDecisionPolicies := take_append_drop 5 _
  rw [hall] at hfirst
  unfold authorizeToolExecution evaluatePolicies
  obtain hnone | ⟨⟨name, result⟩, hsome, message, rfl⟩ := hfirst
  · rw [hnone]
    exact ⟨rfl, rfl⟩
  · rw [hsome]
    exact ⟨rfl, rfl⟩

/-! ### Deny rules and the readonly switch -/

/-- A rule that the user has configured is for a call. -/
def DenyRuleMatches (env : PermissionEnv) (view : AgentView) (call : PermissionCall) : Prop :=
  ∃ rule ∈ effectiveRules view.managers, rule.scope ∈ USER_CONFIGURED_SCOPES ∧
    rule.decision = .deny ∧ ∃ strategy, matchPattern env call rule.pattern = some (some strategy)

/-- The tools of an agent are readonly and not unlocked, and the call is one of a tool that writes
files. -/
def ReadonlyDenies (view : AgentView) (call : PermissionCall) : Prop :=
  toolsReadonly view.managers = true ∧ call.toolName ∈ READONLY_DENIED_TOOLS ∧
    ¬ (view.coderWriteEnabled = true ∧ view.type ≠ .main)

variable {view : AgentView}

theorem deny_evaluate (h : DenyRuleMatches env view call) :
    UserConfiguredDenyPermissionPolicy.evaluate env view call ≠ some none := by
  obtain ⟨rule, hrule, hscope, hdecision, strategy, hmatch⟩ := h
  intro hpass
  obtain ⟨m, hm, hmap⟩ := Option.map_eq_some_iff.1 hpass
  rw [Option.map_eq_none_iff.1 hmap] at hm
  have hall := LibFirst.first_eq_pass_iff.1 hm rule (mem_filter.2 ⟨hrule, decide_eq_true hscope⟩)
  rw [if_neg (not_not.2 hdecision), hmatch] at hall
  cases hall

theorem readonly_evaluate (h : ReadonlyDenies view call) :
    ReadonlyPermissionPolicy.evaluate env view call ≠ some none := by
  obtain ⟨hreadonly, htool, hlocked⟩ := h
  have hswitch : ¬ (!toolsReadonly view.managers) = true := by rw [hreadonly]; decide
  simp only [ReadonlyPermissionPolicy]
  rw [if_neg hswitch, if_neg (not_not.2 htool), if_neg hlocked]
  exact fun h => by cases h

/-! ### Approvals for the session -/

/-- Approvals recorded one after the other, each by a manager of the chain. -/
def recordApprovals (managers : List PermissionState)
    (records : List (ℕ × Option String × ApprovalResponse)) : List PermissionState :=
  records.foldl (fun managers record =>
    managers.modify record.1 fun s => s.addApproval record.2.1 record.2.2) managers

theorem mem_addApproval {s : PermissionState} {rule : Option String} {response : ApprovalResponse}
    {pattern : String} : pattern ∈ (s.addApproval rule response).localSessionApprovalRulePatterns ↔
      pattern ∈ s.localSessionApprovalRulePatterns ∨
        (response.decision = .approved ∧ response.scope = true ∧ rule = some pattern) := by
  unfold PermissionState.addApproval
  split_ifs with hresponse
  · refine (or_iff_left ?_).symm
    rintro ⟨hdecision, hscope, -⟩
    rcases hresponse with hresponse | hresponse
    · exact hresponse hdecision
    · rw [hscope] at hresponse
      cases hresponse
  · obtain ⟨hdecision, hscope⟩ := not_or.1 hresponse
    have happroved := not_not.1 hdecision
    have hsession := (Bool.not_eq_false _).mp hscope
    cases rule with
    | none =>
      refine (or_iff_left ?_).symm
      rintro ⟨-, -, hnone⟩
      cases hnone
    | some recorded =>
      simp only [happroved, hsession, true_and, Option.some.injEq]
      split_ifs with hmem
      · refine (or_iff_left_of_imp ?_).symm
        rintro rfl
        exact hmem
      · rw [mem_append, mem_singleton]
        exact or_congr_right eq_comm

theorem mem_patterns_modify {managers : List PermissionState} {i : ℕ} {rule : Option String}
    {response : ApprovalResponse} {pattern : String} :
    pattern ∈ sessionApprovalRulePatterns (managers.modify i fun s => s.addApproval rule response) ↔
      pattern ∈ sessionApprovalRulePatterns managers ∨
        (i < managers.length ∧ response.decision = .approved ∧ response.scope = true ∧
          rule = some pattern) := by
  induction managers generalizing i with
  | nil =>
    rw [modify_nil]
    exact (or_iff_left fun h => absurd h.1 (Nat.not_lt_zero i)).symm
  | cons s managers ih =>
    cases i with
    | zero =>
      rw [modify_zero_cons]
      simp only [sessionApprovalRulePatterns, flatMap_cons, mem_append,
        mem_addApproval, length_cons, Nat.zero_lt_succ, true_and]
      exact or_right_comm
    | succ i =>
      rw [modify_succ_cons]
      simp only [sessionApprovalRulePatterns, flatMap_cons, mem_append,
        length_cons, Nat.add_lt_add_iff_right]
      rw [or_assoc]
      exact or_congr_right ih

/-- **The rules that approvals have left** are seen by every manager below the one that recorded
them. -/
theorem mem_sessionApprovalRulePatterns (managers : List PermissionState)
    (records : List (ℕ × Option String × ApprovalResponse)) (pattern : String) :
    pattern ∈ sessionApprovalRulePatterns (recordApprovals managers records) ↔
      pattern ∈ sessionApprovalRulePatterns managers ∨ ∃ r ∈ records, r.1 < managers.length ∧
        r.2.2.decision = .approved ∧ r.2.2.scope = true ∧ r.2.1 = some pattern := by
  induction records generalizing managers with
  | nil => exact (or_iff_left fun ⟨r, hr, _⟩ => absurd hr not_mem_nil).symm
  | cons record records ih =>
    have hnext := ih (managers.modify record.1 fun s => s.addApproval record.2.1 record.2.2)
    rw [length_modify, mem_patterns_modify] at hnext
    rw [exists_mem_cons_iff, ← or_assoc]
    exact hnext

/-! ### Who decides -/

theorem name_of_askPolicy {p : String × PolicyResult}
    (h : askPolicy env views call policy = some (some p)) : p.1 = policy.name := by
  obtain ⟨m, -, hmap⟩ := Option.map_eq_some_iff.1 h
  obtain ⟨result, -, rfl⟩ := Option.map_eq_some_iff.1 hmap
  rfl

/-- The policies before the history of approvals. -/
def earlierPolicies : List PermissionPolicy := createPermissionDecisionPolicies.take 7

/-- **The history of approvals decides** what no policy before it has decided. -/
theorem evaluatePolicies_eq_history_iff :
    evaluatePolicies env views call = some (some ("session-approval-history", .approve)) ↔
      (∀ policy ∈ earlierPolicies, policy.evaluate env (views policy.name) call = some none) ∧
      SessionApprovalHistoryPermissionPolicy.evaluate env (views "session-approval-history") call =
        some (some .approve) := by
  have hall : createPermissionDecisionPolicies = earlierPolicies ++
      SessionApprovalHistoryPermissionPolicy :: createPermissionDecisionPolicies.drop 8 := rfl
  have hlater : ∀ policy ∈ createPermissionDecisionPolicies.drop 8,
      policy.name ≠ "session-approval-history" := by decide
  have hearlier : ∀ policy ∈ earlierPolicies, policy.name ≠ "session-approval-history" := by decide
  unfold evaluatePolicies
  rw [hall]
  by_cases hpass : ∀ policy ∈ earlierPolicies, askPolicy env views call policy = some none
  · rw [LibFirst.first_append_of_pass hpass, and_iff_right fun policy hpolicy =>
      askPolicy_eq_pass_iff.1 (hpass policy hpolicy)]
    by_cases hhistory : askPolicy env views call SessionApprovalHistoryPermissionPolicy = some none
    · rw [LibFirst.first_cons_pass hhistory, LibFirst.first_eq_decided_iff]
      refine iff_of_false ?_ fun happroved => ?_
      · rintro ⟨before, policy, after, hdrop, -, hpolicy⟩
        exact hlater policy (hdrop ▸ mem_append_right _ (.head _)) (name_of_askPolicy hpolicy).symm
      · have hnone := askPolicy_eq_pass_iff.1 hhistory
        rw [show SessionApprovalHistoryPermissionPolicy.name = "session-approval-history" from rfl,
          happroved] at hnone
        cases hnone
    · rw [LibFirst.first_cons_of_ne hhistory]
      exact askPolicy_eq_decided_iff
  · refine iff_of_false (fun hdecided => ?_) fun h => hpass fun policy hpolicy =>
      askPolicy_eq_pass_iff.2 (h.1 policy hpolicy)
    have hnames : ∀ policy ∈ earlierPolicies, ∀ p, askPolicy env views call policy = some (some p) →
        p.1 ≠ "session-approval-history" := fun policy hpolicy p hp =>
      name_of_askPolicy hp ▸ hearlier policy hpolicy
    have hex : ∃ policy ∈ earlierPolicies, askPolicy env views call policy ≠ some none := by
      by_contra hnone
      exact hpass fun policy hpolicy => by_contra fun hne => hnone ⟨policy, hpolicy, hne⟩
    rcases LibFirst.first_of_front hnames hex
      (SessionApprovalHistoryPermissionPolicy :: createPermissionDecisionPolicies.drop 8) with
      hnone | ⟨p, hp, hname⟩
    · rw [hnone] at hdecided
      cases hdecided
    · rw [hp] at hdecided
      exact hname (congrArg Prod.fst (Option.some.inj (Option.some.inj hdecided)))

/-- **The history of approvals approves what one of its rules is for**, as long as all of them can be
matched. -/
theorem history_evaluate_iff (h : ∀ pattern ∈ sessionApprovalRulePatterns view.managers,
      matchPattern env call pattern ≠ none) :
    SessionApprovalHistoryPermissionPolicy.evaluate env view call = some (some .approve) ↔
      ∃ pattern ∈ sessionApprovalRulePatterns view.managers,
        ∃ strategy, matchPattern env call pattern = some (some strategy) := by
  simp only [SessionApprovalHistoryPermissionPolicy]
  rw [Option.map_eq_some_iff]
  constructor
  · rintro ⟨m, hm, hmap⟩
    obtain ⟨strategy, rfl, -⟩ := Option.map_eq_some_iff.1 hmap
    obtain ⟨before, pattern, after, hsplit, -, hpattern⟩ := LibFirst.first_eq_decided_iff.1 hm
    exact ⟨pattern, hsplit ▸ mem_append_right _ (.head _), strategy, hpattern⟩
  · rintro ⟨pattern, hpattern, strategy, hmatch⟩
    obtain ⟨m, hm⟩ := Option.ne_none_iff_exists'.1 (LibFirst.first_ne_failed h)
    cases m with
    | some strategy' => exact ⟨some strategy', hm, rfl⟩
    | none =>
      rw [LibFirst.first_eq_pass_iff.1 hm pattern hpattern] at hmatch
      cases hmatch

/-! ### Deny rules, the readonly switch and approvals -/

/-- **Deny rules, the readonly switch and approvals for the session.** A call that a configured deny
rule is for, own or inherited, or a write or an edit under the readonly switch, is not executed, and
nobody is asked.  The history of approvals approves exactly what is left to it and what one of its
rules is for, and its rules are those of the approvals that the agent and its ancestors have
recorded. -/
theorem permission_decision (env : PermissionEnv) (views : String → AgentView)
    (call : PermissionCall) (reply : ApprovalReply) (aborted : Bool) :
    (DenyRuleMatches env (views "user-configured-deny") call ∨
        ReadonlyDenies (views "tools-readonly-deny") call →
      (authorizeToolExecution env views call reply).executes aborted = false ∧
        (authorizeToolExecution env views call reply).requested = false) ∧
      ((∀ pattern ∈ sessionApprovalRulePatterns (views "session-approval-history").managers,
          matchPattern env call pattern ≠ none) →
        (evaluatePolicies env views call = some (some ("session-approval-history", .approve)) ↔
          (∀ policy ∈ earlierPolicies, policy.evaluate env (views policy.name) call = some none) ∧
            ∃ pattern ∈ sessionApprovalRulePatterns (views "session-approval-history").managers,
              ∃ strategy, matchPattern env call pattern = some (some strategy))) ∧
      ∀ managers records pattern,
        pattern ∈ sessionApprovalRulePatterns (recordApprovals managers records) ↔
          pattern ∈ sessionApprovalRulePatterns managers ∨
            ∃ r ∈ records, r.1 < managers.length ∧ r.2.2.decision = .approved ∧
              r.2.2.scope = true ∧ r.2.1 = some pattern := by
  refine ⟨fun h => ?_, fun h => ?_, mem_sessionApprovalRulePatterns⟩
  · have hdenied : (authorizeToolExecution env views call reply).block = true ∧
        (authorizeToolExecution env views call reply).requested = false := by
      cases h with
      | inl h =>
        have hpolicy : UserConfiguredDenyPermissionPolicy ∈ denyPolicies := by
          simp [denyPolicies, createPermissionDecisionPolicies]
        exact authorize_of_denied reply hpolicy (deny_evaluate h)
      | inr h =>
        have hpolicy : ReadonlyPermissionPolicy ∈ denyPolicies := by
          simp [denyPolicies, createPermissionDecisionPolicies]
        exact authorize_of_denied reply hpolicy (readonly_evaluate h)
    refine ⟨?_, hdenied.2⟩
    rw [Authorization.executes, hdenied.1, Bool.not_true, Bool.and_false]
  · rw [evaluatePolicies_eq_history_iff, history_evaluate_iff h]

/-- A call that may write: it says so of a file, or does not say what it does. -/
def callWrites (call : PermissionCall) : Bool :=
  call.accesses.isNone || !(writeFileAccesses call).isEmpty

def literalEnv : PermissionEnv where
  picomatch := literalPicomatch
  isSensitiveFile _ := false
  hasGitPathComponent _ _ _ := false
  isWithinDirectory _ _ _ := true

/-- An agent under the readonly switch that is asked nothing. -/
def readonlyView (type : AgentType) (coderWriteEnabled : Bool) : AgentView where
  managers := [{ modeOverride := some .yolo, toolsReadonly := true }]
  type := type
  coderWriteEnabled := coderWriteEnabled

def writeCall : PermissionCall where
  toolName := "Write"
  accesses := some (ToolAccesses.writeFile "/repo/a.ts")
  approvalRule := "Write(/repo/a.ts)"

def bashCall : PermissionCall where
  toolName := "Bash"
  matchesRule := RuleTool.bash.matchesRule literalPicomatch posixPathe repoOptions "make".toList
  approvalRule := "Bash(make)"

/-- Two approvals for the session, the first one of the command `./`. -/
def approvedState : PermissionState where
  localSessionApprovalRulePatterns := ["Bash(./)", "Bash(make)"]

/-- The readonly switch does not stop a coder that was unlocked, nor other tools that write, and one
approval may keep another from being honoured: a pattern of which nothing is left cannot be
matched. -/
theorem readonly_and_approval_limits :
    (toolsReadonly (readonlyView .sub true).managers = true ∧ callWrites writeCall = true ∧
        (authorizeToolExecution literalEnv (fun _ => readonlyView .sub true) writeCall
          .noRpc).executes false = true) ∧
      (toolsReadonly (readonlyView .main false).managers = true ∧ callWrites bashCall = true ∧
        (authorizeToolExecution literalEnv (fun _ => readonlyView .main false) bashCall
          .noRpc).executes false = true) ∧
      (matchPattern literalEnv bashCall "Bash(make)" = some (some .matchesRule) ∧
        (authorizeToolExecution literalEnv
          (fun _ => { managers := [{}, approvedState] }) bashCall .noRpc).block = true) := by
  refine ⟨⟨by decide +kernel, by decide +kernel, by decide +kernel⟩,
    ⟨by decide +kernel, by decide +kernel, by decide +kernel⟩, by decide +kernel,
    by decide +kernel⟩

end NoriCode
