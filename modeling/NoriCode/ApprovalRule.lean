/-
**Approving one call for the session.**

Somebody who approves a call for the rest of the session leaves a rule behind: the name of the tool,
and the subject of the call as an escaped literal.  Each later call is held against the rules; a
rule is parsed, its tool must be that of the call, and the tool itself says whether the pattern is
for the subject of the call.

The module embeds `agent/permission/matches-rule.ts` and the subjects of the tools whose rule comes
from `literalRulePattern`.

Main definitions:

* `parsePattern`, `matchPermissionRule` — a rule and a call;
* `RuleTool` — the tools, with the kind of their subject;
* `ApprovedBy` — a call that the rule of another call lets through.

Main results:

* `parsePattern_literal` — a literal rule is parsed back;
* `literalRule_matches` — **the calls that a rule lets through**.
-/

import NoriCode.JsText
import NoriCode.PathGlobMatch

namespace NoriCode

open List Option

structure ParsedPattern where
  toolName : List Char
  argPattern : Option (List Char)

def parsePattern (pattern : List Char) : Except String ParsedPattern :=
  let trimmed := (trim (String.ofList pattern)).toList
  let text := String.ofList pattern
  if trimmed.length = 0 then .error "permission pattern: empty string"
  else
    let toolName := trimmed.takeWhile (· ≠ '(')
    match trimmed.dropWhile (· ≠ '(') with
    | [] => .ok ⟨trimmed, none⟩
    | _ :: inner =>
      if trimmed.getLast? ≠ some ')' then
        .error s!"permission pattern: missing closing paren in \"{text}\""
      else
        let argPattern := inner.dropLast
        if toolName.length = 0 then
          .error s!"permission pattern: empty tool name in \"{text}\""
        else if argPattern.length = 0 then .ok ⟨toolName, none⟩
        else .ok ⟨toolName, some argPattern⟩

inductive RuleMatchStrategy
  | toolNameOnly
  | matchesRule
  deriving DecidableEq

/-- `matchPermissionRule`: how a rule is for a call, if it is. -/
def matchPermissionRule (p : Picomatch) (rulePattern toolName : List Char)
    (matchesRule : Option (List Char → Option Bool)) : Option (Option RuleMatchStrategy) :=
  match parsePattern rulePattern with
  | .error _ => some none
  | .ok parsed =>
    let sameTool :=
      if parsed.toolName = ['*'] then some true else p.isMatch toolName parsed.toolName false
    sameTool.bind fun hit =>
      if hit = false then some none
      else
        match parsed.argPattern, matchesRule with
        | none, _ => some (some .toolNameOnly)
        | some _, none => some none
        | some argPattern, some check =>
          (check argPattern).map fun hit => if hit then some .matchesRule else none

/-! ### The tools -/

/-- The tools whose calls are approved by a literal rule. -/
inductive RuleTool
  | bash
  | grep
  | glob
  | fetchURL
  | webSearch
  | read
  | write
  | edit
  | readMediaFile
  | cronCreate
  | browser
  deriving DecidableEq

namespace RuleTool

def name : RuleTool → List Char
  | bash => "Bash".toList
  | grep => "Grep".toList
  | glob => "Glob".toList
  | fetchURL => "FetchURL".toList
  | webSearch => "WebSearch".toList
  | read => "Read".toList
  | write => "Write".toList
  | edit => "Edit".toList
  | readMediaFile => "ReadMediaFile".toList
  | cronCreate => "CronCreate".toList
  | browser => "Browser".toList

/-- What a subject is matched as; two of the tools match no rule with a pattern. -/
inductive Matcher
  | text
  | path

def matcher : RuleTool → Option Matcher
  | bash | grep | glob | fetchURL | webSearch => some .text
  | read | write | edit | readMediaFile => some .path
  | cronCreate | browser => none

def matchesRule (p : Picomatch) (pathe : Pathe) (options : PathMatchOptions) (tool : RuleTool)
    (subject : List Char) : Option (List Char → Option Bool) :=
  tool.matcher.map fun
    | .text => fun ruleArgs => matchesGlobRuleSubject p ruleArgs subject
    | .path => fun ruleArgs => matchesPathRuleSubject p pathe ruleArgs subject options

end RuleTool

/-- The call of `tool'` on `subject'` is let through by the rule of the call of `tool` on
`subject`. -/
def ApprovedBy (p : Picomatch) (pathe : Pathe) (options : PathMatchOptions) (tool : RuleTool)
    (subject : List Char) (tool' : RuleTool) (subject' : List Char) : Prop :=
  ∃ strategy, matchPermissionRule p (literalRulePattern tool.name subject) tool'.name
    (tool'.matchesRule p pathe options subject') = some (some strategy)

/-! ### Parsing a literal rule -/

variable (tool : RuleTool)

/-- The name of a tool has no special characters, so it stands for itself. -/
theorem RuleTool.name_plain : ∀ c ∈ tool.name, c ∉ globLiteralSpecial := by
  refine forall_iff_forall_mem.1 ?_
  cases tool <;> decide

theorem RuleTool.name_injective : Function.Injective RuleTool.name := by
  intro tool tool' h
  cases tool <;> cases tool' <;> first | rfl | exact absurd h (by decide)

theorem RuleTool.name_trimmed : ∃ c rest, tool.name = c :: rest ∧ isWhiteSpace c = false := by
  cases tool <;> exact ⟨_, _, rfl, by decide⟩

theorem trim_literal (subject : List Char) :
    (trim (String.ofList (literalRulePattern tool.name subject))).toList =
      literalRulePattern tool.name subject := by
  obtain ⟨c, rest, hname, hc⟩ := tool.name_trimmed
  have hstart : (literalRulePattern tool.name subject).dropWhile isWhiteSpace =
      literalRulePattern tool.name subject := by
    unfold literalRulePattern
    rw [hname, cons_append, dropWhile_cons_of_neg (by simp [hc])]
  have hend : (literalRulePattern tool.name subject).rdropWhile isWhiteSpace =
      literalRulePattern tool.name subject := by
    unfold literalRulePattern
    rw [← cons_append, ← append_assoc, rdropWhile_concat_neg _ _ _ (by decide)]
  unfold trim trimEnd trimStart
  rw [String.toList_ofList, String.toList_ofList, String.toList_ofList, hstart, hend]

variable {subject : List Char}

/-- **A literal rule is parsed back** into the tool and the escaped subject. -/
theorem parsePattern_literal (h : subject ≠ []) :
    parsePattern (literalRulePattern tool.name subject) =
      .ok ⟨tool.name, some (escapeRuleSubjectLiteral subject)⟩ := by
  have hname : ∀ c ∈ tool.name, (decide (c ≠ '(')) = true := by
    intro c hc
    refine decide_eq_true fun heq => tool.name_plain c hc ?_
    rw [heq]
    decide
  have htake : (literalRulePattern tool.name subject).takeWhile (fun c => decide (c ≠ '(')) =
      tool.name := by
    unfold literalRulePattern
    rw [takeWhile_append_of_pos hname, takeWhile_cons_of_neg (by simp), append_nil]
  have hdrop : (literalRulePattern tool.name subject).dropWhile (fun c => decide (c ≠ '(')) =
      '(' :: (escapeRuleSubjectLiteral subject ++ [')']) := by
    unfold literalRulePattern
    rw [dropWhile_append_of_pos hname, dropWhile_cons_of_neg (by simp)]
  have hlast : (literalRulePattern tool.name subject).getLast? = some ')' := by
    unfold literalRulePattern
    rw [← cons_append, ← append_assoc, getLast?_concat]
  have hlength : (literalRulePattern tool.name subject).length ≠ 0 := by
    simp [literalRulePattern]
  have htool : tool.name.length ≠ 0 := by
    obtain ⟨c, rest, hname, -⟩ := tool.name_trimmed
    simp [hname]
  have hargs : (escapeRuleSubjectLiteral subject).length ≠ 0 := by
    rw [ne_eq, length_eq_zero_iff, escape_eq_nil]
    exact h
  unfold parsePattern
  rw [trim_literal, if_neg hlength, htake, hdrop]
  dsimp only
  rw [if_neg (not_not.2 hlast), if_neg htool, dropLast_concat, if_neg hargs]

/-! ### The calls that a literal rule lets through -/

variable {p : Picomatch} {pathe : Pathe} {options : PathMatchOptions}

theorem matchRuleSubject_escape (h : subject ≠ []) (value : List Char)
    (f : List Char → List Char → Option Bool) :
    matchRuleSubject (escapeRuleSubjectLiteral subject) value f =
      f (escapeRuleSubjectLiteral subject) value := by
  have hne : escapeRuleSubjectLiteral subject ≠ [] := fun heq => h (escape_eq_nil.1 heq)
  have hhead := head_escape subject
  unfold matchRuleSubject
  split
  · rename_i heq
    exact absurd heq hne
  · rename_i rest heq
    rw [heq] at hhead
    exact absurd rfl hhead
  · rfl

/-- A rule lets a call of its tool through that the tool takes the pattern for. -/
theorem approvedBy_iff (h : LiteralPicomatch p) (tool tool' : RuleTool)
    (hsubject : subject ≠ []) (subject' : List Char) :
    ApprovedBy p pathe options tool subject tool' subject' ↔
      tool' = tool ∧ ∃ check, tool.matchesRule p pathe options subject' = some check ∧
        check (escapeRuleSubjectLiteral subject) = some true := by
  have hplain := escape_of_plain tool.name_plain
  have hname : tool.name ≠ [] := by
    obtain ⟨c, rest, hname, -⟩ := tool.name_trimmed
    simp [hname]
  have hstar : tool.name ≠ ['*'] := by cases tool <;> decide
  have hsame := h.literal tool'.name tool.name hname
  rw [hplain] at hsame
  have hmatch : matchPermissionRule p (literalRulePattern tool.name subject) tool'.name
      (tool'.matchesRule p pathe options subject') =
        if tool' = tool then
          match tool'.matchesRule p pathe options subject' with
          | none => some none
          | some check => (check (escapeRuleSubjectLiteral subject)).map fun hit =>
            if hit then some .matchesRule else none
        else some none := by
    unfold matchPermissionRule
    rw [parsePattern_literal tool hsubject]
    dsimp only
    rw [if_neg hstar, hsame, bind_some]
    by_cases heq : tool' = tool
    · subst heq
      rw [decide_eq_true rfl, if_neg Bool.noConfusion, if_pos rfl]
      cases tool'.matchesRule p pathe options subject' <;> rfl
    · rw [decide_eq_false fun hnames => heq (RuleTool.name_injective hnames), if_pos rfl, if_neg heq]
  unfold ApprovedBy
  rw [hmatch]
  by_cases heq : tool' = tool
  · subst heq
    rw [if_pos rfl]
    cases hmatcher : tool'.matchesRule p pathe options subject' with
    | none =>
      refine iff_of_false (fun ⟨strategy, hnone⟩ => by cases hnone) ?_
      rintro ⟨-, check, hnone, -⟩
      cases hnone
    | some check =>
      dsimp only
      constructor
      · rintro ⟨strategy, hhit⟩
        obtain ⟨hit, hmatches, hstrategy⟩ := map_eq_some_iff.1 hhit
        cases hit with
        | false => cases hstrategy
        | true => exact ⟨rfl, check, rfl, hmatches⟩
      · rintro ⟨-, check', hsome, hmatches⟩
        obtain rfl := some.inj hsome
        exact ⟨.matchesRule, by rw [hmatches]; rfl⟩
  · rw [if_neg heq]
    exact iff_of_false (fun ⟨strategy, hnone⟩ => by cases hnone) fun hand => heq hand.1

theorem approvedBy_text (h : LiteralPicomatch p) {tool : RuleTool} (htext : tool.matcher = some .text)
    (hsubject : subject ≠ []) (subject' : List Char) :
    ApprovedBy p pathe options tool subject tool subject' ↔
      globMatch p subject' (escapeRuleSubjectLiteral subject) false = some true := by
  rw [approvedBy_iff h tool tool hsubject]
  unfold RuleTool.matchesRule
  rw [htext]
  simp [matchesGlobRuleSubject, matchRuleSubject_escape hsubject]

theorem approvedBy_path (h : LiteralPicomatch p) {tool : RuleTool} (hpath : tool.matcher = some .path)
    (hsubject : subject ≠ []) (subject' : List Char) :
    ApprovedBy p pathe options tool subject tool subject' ↔
      pathGlobMatch p pathe subject' (escapeRuleSubjectLiteral subject) options = some true := by
  rw [approvedBy_iff h tool tool hsubject]
  unfold RuleTool.matchesRule
  rw [hpath]
  simp [matchesPathRuleSubject, matchRuleSubject_escape hsubject]

theorem pathGlobMatch_self (h : LiteralPicomatch p) (hsubject : subject ≠ []) :
    pathGlobMatch p pathe subject (escapeRuleSubjectLiteral subject) options = some true := by
  have hself : globMatch p subject (escapeRuleSubjectLiteral subject) true = some true := by
    unfold globMatch
    rw [h.literal_nocase subject subject hsubject, decide_eq_true rfl]
    rfl
  unfold pathGlobMatch
  rw [hself]
  rfl

/-- **The calls that a rule lets through.** It is parsed back, lets its own call through if its tool
matches rules at all, and no call of another tool. Text is let through that differs by a leading
`./` at most; of paths, if no spelling of the path has a special character, those with a spelling
that is the same. -/
theorem literalRule_matches (h : LiteralPicomatch p) (pathe : Pathe) (options : PathMatchOptions)
    (tool : RuleTool) {subject : List Char} (hsubject : subject ≠ []) :
    parsePattern (literalRulePattern tool.name subject) =
        .ok ⟨tool.name, some (escapeRuleSubjectLiteral subject)⟩ ∧
      (tool.matcher ≠ none → ApprovedBy p pathe options tool subject tool subject) ∧
      (∀ tool' subject', ApprovedBy p pathe options tool subject tool' subject' → tool' = tool) ∧
      (tool.matcher = some .text → ∀ subject',
        ApprovedBy p pathe options tool subject tool subject' ↔
          subject' = subject ∨
            (stripLeadingDotSlash subject' = stripLeadingDotSlash subject ∧ subject ≠ ['.', '/'])) ∧
      (tool.matcher = some .path →
        (∀ spelling ∈ pathVariants pathe subject options, PlainSpelling spelling) → ∀ subject',
          ApprovedBy p pathe options tool subject tool subject' ↔
            ∃ a ∈ pathVariants pathe subject' options, ∃ b ∈ pathVariants pathe subject options,
              SameSpelling p a b) := by
  have htext : tool.matcher = some .text → ∀ subject',
      ApprovedBy p pathe options tool subject tool subject' ↔
        subject' = subject ∨
          (stripLeadingDotSlash subject' = stripLeadingDotSlash subject ∧ subject ≠ ['.', '/']) := by
    intro hmatcher subject'
    rw [approvedBy_text h hmatcher hsubject]
    exact globMatch_literal h hsubject subject'
  refine ⟨parsePattern_literal tool hsubject, fun hmatcher => ?_, fun tool' subject' happroved => ?_,
    htext, fun hmatcher hplain subject' => ?_⟩
  · cases hkind : tool.matcher with
    | none => exact absurd hkind hmatcher
    | some kind =>
      cases kind with
      | text => exact (htext hkind subject).2 (Or.inl rfl)
      | path => exact (approvedBy_path h hkind hsubject subject).2 (pathGlobMatch_self h hsubject)
  · exact ((approvedBy_iff h tool tool' hsubject subject').1 happroved).1
  · rw [approvedBy_path h hmatcher hsubject]
    have hsame := escape_of_plain (hplain subject (self_mem_pathVariants pathe subject options)).1
    rw [hsame]
    exact pathGlobMatch_plain h pathe hplain subject'

/-! ### A matcher of literals -/

/-- The text that an escaped literal stands for. -/
def unescapeLiteral : List Char → List Char
  | '\\' :: c :: rest => c :: unescapeLiteral rest
  | c :: rest => c :: unescapeLiteral rest
  | [] => []

theorem unescapeLiteral_escape (subject : List Char) :
    unescapeLiteral (escapeRuleSubjectLiteral subject) = subject := by
  induction subject with
  | nil => rfl
  | cons c rest ih =>
    rw [escape_cons]
    by_cases hc : c ∈ globLiteralSpecial
    · rw [if_pos hc]
      exact congrArg (c :: ·) ih
    · rw [if_neg hc]
      have hslash : c ≠ '\\' := by
        rintro rfl
        exact hc (by decide)
      change unescapeLiteral (c :: escapeRuleSubjectLiteral rest) = c :: rest
      rw [unescapeLiteral.eq_2 _ _ fun d rest' hcons _ => hslash hcons, ih]

/-- Picomatch on patterns without wildcards. -/
def literalPicomatch : Picomatch where
  isMatch value pattern nocase :=
    if pattern = [] then none
    else if nocase then
      some (decide (value.map Char.toLower = (unescapeLiteral pattern).map Char.toLower))
    else some (decide (value = unescapeLiteral pattern))
  fold := List.map Char.toLower

theorem literalPicomatch_literal : LiteralPicomatch literalPicomatch where
  literal := by
    intro value subject h
    have hne : escapeRuleSubjectLiteral subject ≠ [] := fun heq => h (escape_eq_nil.1 heq)
    refine (if_neg hne).trans ?_
    rw [unescapeLiteral_escape]
    rfl
  literal_nocase := by
    intro value subject h
    have hne : escapeRuleSubjectLiteral subject ≠ [] := fun heq => h (escape_eq_nil.1 heq)
    refine (if_neg hne).trans ?_
    rw [unescapeLiteral_escape]
    rfl
  no_empty := fun _ _ => rfl

/-- Pathe on paths that are normalized. -/
def posixPathe : Pathe where
  isAbsolute path := decide (path.head? = some '/')
  normalize path := path
  resolve cwd path := cwd ++ '/' :: path
  join dir path := dir ++ '/' :: path

def repoOptions : PathMatchOptions := ⟨"/repo".toList, .posix, "/home".toList⟩

/-- An approved edit lets edits of the same path through, in any letter case, and of no other. -/
theorem literalRule_matches_edit :
    ApprovedBy literalPicomatch posixPathe repoOptions .edit "/repo/a.ts".toList .edit
        "/repo/A.ts".toList ∧
      ¬ ApprovedBy literalPicomatch posixPathe repoOptions .edit "/repo/a.ts".toList .edit
        "/repo/b.ts".toList := by
  obtain ⟨-, -, -, -, hpath⟩ := @literalRule_matches literalPicomatch
    literalPicomatch_literal posixPathe repoOptions .edit "/repo/a.ts".toList (by decide)
  have hplain : ∀ spelling ∈ pathVariants posixPathe "/repo/a.ts".toList repoOptions,
      PlainSpelling spelling := by
    intro spelling hspelling
    obtain rfl : spelling = "/repo/a.ts".toList := List.mem_singleton.1 hspelling
    exact ⟨List.forall_iff_forall_mem.1 (by decide), by decide⟩
  exact ⟨(hpath rfl hplain _).2 (by decide), fun h => absurd ((hpath rfl hplain _).1 h) (by decide)⟩

/-- A rule for one call lets others through: a command with `./` before it, any search if the
pattern was empty, a path in other letters. -/
theorem literalRule_wider :
    ¬ (∀ subject', ApprovedBy literalPicomatch posixPathe repoOptions .bash "make".toList .bash
        subject' → subject' = "make".toList) ∧
      ¬ (∀ subject', ApprovedBy literalPicomatch posixPathe repoOptions .grep [] .grep
        subject' → subject' = []) ∧
      ¬ (∀ subject', ApprovedBy literalPicomatch posixPathe repoOptions .edit "/repo/a.ts".toList
        .edit subject' → subject' = "/repo/a.ts".toList) := by
  refine ⟨fun h => ?_, fun h => ?_, fun h => ?_⟩
  · exact absurd (h "./make".toList ⟨.matchesRule, by decide⟩) (by decide)
  · exact absurd (h "TODO".toList ⟨.toolNameOnly, by decide⟩) (by decide)
  · exact absurd (h "/repo/A.ts".toList ⟨.matchesRule, by decide⟩) (by decide)

end NoriCode
