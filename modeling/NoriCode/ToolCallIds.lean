/-
**Tool call ids that a provider takes.**

Providers take ids of some length over few characters.  The ids of a history are renamed before it
is sent: an id that a provider takes stays as it is, any other one is sanitized and, where the
result is taken, gets a number.  The number has to fit into the length as well, and the renaming
throws where it does not.

The module embeds `providers/tool-call-id.ts`.  A sanitized id is a text of ASCII characters, so its
characters are its code units.

Main definitions:

* `sanitizeToolCallId`, `sanitizeOpenAIResponsesCallId` — the two sanitizers;
* `normalizeToolCallIdsForProvider` — the renaming;
* `IsValidCallId` — the ids a provider takes;
* `RenamesCallIds` — what a renaming owes to a history.

Main results:

* `suffixed_inj` — two numbers never give one id;
* `makeUniqueToolCallId_spec` — the id found is new and valid;
* `normalizeToolCallIds_spec` — **one injective renaming, or the limit is too small**;
* `normalizeToolCallIds_again` — a second one changes nothing.
-/

import Mathlib.Data.List.Perm.Subperm
import NoriCode.LibOrdMap
import NoriCode.LibOrdSet
import NoriCode.Message

namespace NoriCode

open LibOrdMap LibOrdSet List Option OrdMap

/-! ### Sanitized ids -/

structure ToolCallIdPolicy where
  normalize : String → String
  maxLength : Option ℕ

def emptyToolCallId : String := "tool_call"

/-- The characters that `TOOL_CALL_ID_SAFE_CHARS` leaves alone. -/
def isSafeChar (c : Char) : Bool :=
  c.isLower || c.isUpper || c.isDigit || c == '_' || c == '-'

/-- Every code unit of another character is replaced. -/
def sanitizeChar (c : Char) : List Char :=
  if isSafeChar c then [c] else if c.toNat < 0x10000 then ['_'] else ['_', '_']

def sanitizeToolCallId (id : String) (maxLength : Option ℕ) : String :=
  let sanitized := id.toList.flatMap sanitizeChar
  match maxLength with
  | none => String.ofList sanitized
  | some n => String.ofList (sanitized.take n)

/-- `id.split('|', 1)` is what stands before the first bar. -/
def sanitizeOpenAIResponsesCallId (id : String) (maxLength : Option ℕ) : String :=
  sanitizeToolCallId (String.ofList (id.toList.takeWhile (· ≠ '|'))) maxLength

/-- The policies of Kimi, OpenAI Chat and Anthropic, each with the limit 64. -/
def toolCallIdPolicy (limit : Option ℕ) : ToolCallIdPolicy :=
  ⟨fun id => sanitizeToolCallId id limit, limit⟩

/-- The policy of OpenAI Responses, with the limit 64. -/
def openAIResponsesCallIdPolicy (limit : Option ℕ) : ToolCallIdPolicy :=
  ⟨fun id => sanitizeOpenAIResponsesCallId id limit, limit⟩

/-! ### Unique ids -/

def tooSmallFor (maxLength : ℕ) (suffix : String) : String :=
  "Tool call id maxLength " ++ toString maxLength ++ " is too small for suffix " ++ suffix ++ "."

def truncateToolCallId (base : String) (maxLength : Option ℕ) (suffix : String) :
    Except String String :=
  match maxLength with
  | none => .ok (base ++ suffix)
  | some n =>
    if n ≤ suffix.length then .error (tooSmallFor n suffix)
    else .ok (String.ofList (base.toList.take (n - suffix.length)) ++ suffix)

/-- The id with a number. -/
def suffixed (base : String) (maxLength : Option ℕ) (i : ℕ) : Except String String :=
  truncateToolCallId base maxLength ("_" ++ toString i)

/-- The loop over the numbers from `i` on, for at most `fuel` of them. -/
def findSuffixed (base : String) (usedIds : OrdSet String) (maxLength : Option ℕ) :
    ℕ → ℕ → Option (Except String String)
  | 0, _ => none
  | fuel + 1, i =>
    match suffixed base maxLength i with
    | .error e => some (.error e)
    | .ok s =>
      if s ∈ usedIds then findSuffixed base usedIds maxLength fuel (i + 1) else some (.ok s)

theorem truncateToolCallId_eq_ok {base suffix s : String} {maxLength : Option ℕ} :
    truncateToolCallId base maxLength suffix = .ok s ↔
      ∃ front, front <+: base.toList ∧ s = String.ofList front ++ suffix ∧
        (maxLength = none → front = base.toList) ∧
        ∀ n ∈ maxLength, suffix.length < n ∧ front = base.toList.take (n - suffix.length) := by
  cases maxLength with
  | none =>
    constructor
    · intro h
      refine ⟨base.toList, prefix_rfl, ?_, fun _ => rfl, (by intro n hn; cases hn)⟩
      rw [String.ofList_toList]
      exact (Except.ok.inj h).symm
    · rintro ⟨front, -, rfl, hfront, -⟩
      rw [hfront rfl, String.ofList_toList]
      rfl
  | some n =>
    rw [truncateToolCallId]
    constructor
    · intro h
      by_cases hn : n ≤ suffix.length
      · rw [if_pos hn] at h
        cases h
      · rw [if_neg hn] at h
        refine ⟨_, List.take_prefix _ _, (Except.ok.inj h).symm, (by intro h; cases h), ?_⟩
        intro m hm
        cases hm
        exact ⟨by omega, rfl⟩
    · rintro ⟨front, -, rfl, -, hfront⟩
      obtain ⟨hn, rfl⟩ := hfront n rfl
      rw [if_neg (by omega)]

theorem suffix_inj {front front' : List Char} {i j : ℕ}
    (h : front ++ '_' :: Nat.toDigits 10 i = front' ++ '_' :: Nat.toDigits 10 j) : i = j := by
  have hlast : ∀ (l : List Char) (n : ℕ),
      (l ++ '_' :: Nat.toDigits 10 n).reverse.takeWhile (· ≠ '_') =
        (Nat.toDigits 10 n).reverse := by
    intro l n
    have hdigits : ∀ c ∈ (Nat.toDigits 10 n).reverse, decide (c ≠ '_') = true := by
      intro c hc
      refine decide_eq_true ?_
      rintro rfl
      exact Nat.underscore_not_in_toDigits (mem_reverse.1 hc)
    rw [reverse_append, reverse_cons, append_assoc, takeWhile_append_of_pos hdigits]
    simp
  have hdigits := congrArg (fun l => l.reverse.takeWhile (· ≠ '_')) h
  simp only [hlast] at hdigits
  have hnumbers := congrArg (fun l => Nat.ofDigitChars 10 l 0) (reverse_inj.1 hdigits)
  simpa [Nat.ofDigitChars_toDigits] using hnumbers

/-- **Two numbers never give one id.** -/
theorem suffixed_inj {base : String} {maxLength : Option ℕ} {i j : ℕ} {s : String}
    (hi : suffixed base maxLength i = .ok s) (hj : suffixed base maxLength j = .ok s) : i = j := by
  obtain ⟨front, -, rfl, -⟩ := truncateToolCallId_eq_ok.1 hi
  obtain ⟨front', -, heq, -⟩ := truncateToolCallId_eq_ok.1 hj
  have hlists := congrArg String.toList heq
  simp only [String.toList_append, String.toList_ofList, Nat.toString_eq_repr, Nat.toList_repr]
    at hlists
  exact suffix_inj hlists

section Search

variable {base : String} {usedIds : OrdSet String} {maxLength : Option ℕ}

/-- The loop goes on as long as the ids are taken. -/
theorem findSuffixed_spec (fuel i : ℕ) :
    ∃ k, (∀ j < k, ∃ s ∈ usedIds, suffixed base maxLength (i + j) = .ok s) ∧
      match findSuffixed base usedIds maxLength fuel i with
      | none => k = fuel
      | some r => k < fuel ∧ suffixed base maxLength (i + k) = r ∧ ∀ s, r = .ok s → s ∉ usedIds := by
  induction fuel generalizing i with
  | zero => exact ⟨0, fun j hj => absurd hj (by omega), rfl⟩
  | succ fuel ih =>
    rw [findSuffixed]
    cases hs : suffixed base maxLength i with
    | error e =>
      exact ⟨0, fun j hj => absurd hj (by omega), by omega, hs, fun s hs => by cases hs⟩
    | ok s =>
      by_cases hused : s ∈ usedIds
      · obtain ⟨k, htaken, hfound⟩ := ih (i + 1)
        simp only [if_pos hused]
        refine ⟨k + 1, fun j hj => ?_, ?_⟩
        · cases j with
          | zero => exact ⟨s, hused, hs⟩
          | succ j =>
            rw [← Nat.add_assoc, Nat.add_right_comm]
            exact htaken j (by omega)
        · rw [← Nat.add_assoc, Nat.add_right_comm]
          cases hrest : findSuffixed base usedIds maxLength fuel (i + 1) with
          | none =>
            rw [hrest] at hfound
            exact congrArg _ hfound
          | some r =>
            rw [hrest] at hfound
            exact ⟨Nat.succ_lt_succ hfound.1, hfound.2⟩
      · simp only [if_neg hused]
        refine ⟨0, fun j hj => absurd hj (by omega), by omega, hs, fun s' heq => ?_⟩
        cases heq
        exact hused

/-- Numbers whose ids are taken are at most as many as the ids that are taken. -/
theorem le_length_of_taken {k i : ℕ}
    (h : ∀ j < k, ∃ s ∈ usedIds, suffixed base maxLength (i + j) = .ok s) :
    k ≤ usedIds.toList.length := by
  choose! id hid hsuffixed using h
  have hnodup : ((List.range k).map id).Nodup := by
    refine List.Nodup.map_on (fun a ha b hb hab => ?_) nodup_range
    have heq := hsuffixed a (mem_range.1 ha)
    rw [hab] at heq
    have := suffixed_inj heq (hsuffixed b (mem_range.1 hb))
    omega
  have hsub : (List.range k).map id ⊆ usedIds.toList := by
    intro s hs
    obtain ⟨j, hj, rfl⟩ := mem_map.1 hs
    exact hid j (mem_range.1 hj)
  have hlength := (subperm_of_subset hnodup hsub).length_le
  rwa [length_map, length_range] at hlength

/-- **The loop ends**: one number more than there are ids is enough. -/
theorem isSome_findSuffixed (base : String) (usedIds : OrdSet String) (maxLength : Option ℕ)
    (i : ℕ) :
    (findSuffixed base usedIds maxLength (usedIds.toList.length + 1) i).isSome = true := by
  by_contra hnone
  obtain ⟨k, htaken, hk⟩ := findSuffixed_spec (usedIds.toList.length + 1) i
  rw [not_isSome_iff_eq_none.1 hnone] at hk
  exact absurd (le_length_of_taken htaken) (by omega)

end Search

/-- What the loop over the numbers returns or throws. -/
def uniqueSuffixed (base : String) (usedIds : OrdSet String) (maxLength : Option ℕ) :
    Except String String :=
  (findSuffixed base usedIds maxLength (usedIds.toList.length + 1) 2).get
    (isSome_findSuffixed base usedIds maxLength 2)

def baseOf (normalized : String) : String :=
  if 0 < normalized.length then normalized else emptyToolCallId

def makeUniqueToolCallId (normalized : String) (usedIds : OrdSet String) (maxLength : Option ℕ) :
    Except String String :=
  let base := baseOf normalized
  match truncateToolCallId base maxLength "" with
  | .error e => .error e
  | .ok candidate =>
    if candidate ∉ usedIds then .ok candidate else uniqueSuffixed base usedIds maxLength

/-! ### The renaming -/

/-- The ids of the calls and results, each once. -/
def collectToolCallIds (messages : List Message) : OrdSet String :=
  OrdSet.ofList (messages.flatMap fun m => m.callIds ++ m.toolCallId.toList)

/-- One round of the first loop: an id that is its own normal form stays as it is. -/
def keepToolCallId (policy : ToolCallIdPolicy) (s : OrdMap String String × OrdSet String)
    (rawId : String) : OrdMap String String × OrdSet String :=
  let normalized := policy.normalize rawId
  if normalized = rawId ∧ 0 < normalized.length then
    (s.1.set rawId normalized, s.2.insert normalized)
  else s

def keepToolCallIds (policy : ToolCallIdPolicy) (rawIds : List String) :
    OrdMap String String × OrdSet String :=
  rawIds.foldl (keepToolCallId policy) (empty, OrdSet.empty)

/-- One round of the second loop: an id that is not kept gets a new one. -/
def mapToolCallId (policy : ToolCallIdPolicy) (s : OrdMap String String × OrdSet String)
    (rawId : String) : Except String (OrdMap String String × OrdSet String) :=
  if (s.1.get rawId).isSome then return s
  else do
    let unique ← makeUniqueToolCallId (policy.normalize rawId) s.2 policy.maxLength
    return (s.1.set rawId unique, s.2.insert unique)

def buildToolCallIdMap (rawIds : List String) (policy : ToolCallIdPolicy) :
    Except String (OrdMap String String) := do
  let s ← rawIds.foldlM (mapToolCallId policy) (keepToolCallIds policy rawIds)
  return s.1

/-- The message with other ids. -/
def renameCallIds (f : String → String) (m : Message) : Message :=
  { m with
    toolCalls := m.toolCalls.map fun tc => { tc with id := f tc.id }
    toolCallId := m.toolCallId.map f }

/-- A message of which no id changes is the one there was. -/
def normalizeToolCallIdsForProvider (messages : List Message) (policy : ToolCallIdPolicy) :
    Except String (List Message) := do
  let rawIds := (collectToolCallIds messages).toList
  if rawIds.length = 0 then return messages
  let mappedIds ← buildToolCallIdMap rawIds policy
  return messages.map (renameCallIds fun id => (mappedIds.get id).getD id)

/-! ### What a provider takes -/

structure IsValidCallId (limit : Option ℕ) (id : String) : Prop where
  nonempty : id ≠ ""
  safe : ∀ c ∈ id.toList, isSafeChar c = true
  fits : ∀ n ∈ limit, id.length ≤ n

/-- A policy makes safe ids and leaves the valid ones alone. -/
structure ToolCallIdPolicy.Lawful (policy : ToolCallIdPolicy) : Prop where
  safe : ∀ id, ∀ c ∈ (policy.normalize id).toList, isSafeChar c = true
  fits : ∀ id, ∀ n ∈ policy.maxLength, (policy.normalize id).length ≤ n
  valid : ∀ id, IsValidCallId policy.maxLength id → policy.normalize id = id

theorem isSafeChar_of_mem_sanitizeChar {c d : Char} (h : d ∈ sanitizeChar c) :
    isSafeChar d = true := by
  unfold sanitizeChar at h
  split_ifs at h with hsafe
  · rw [mem_singleton.1 h]
    exact hsafe
  · rw [mem_singleton.1 h]
    rfl
  · rcases mem_pair.1 h with rfl | rfl <;> rfl

theorem flatMap_sanitizeChar_eq_self {l : List Char} (h : ∀ c ∈ l, isSafeChar c = true) :
    l.flatMap sanitizeChar = l := by
  induction l with
  | nil => rfl
  | cons c l ih =>
    rw [flatMap_cons, ih fun d hd => h d (.tail _ hd), sanitizeChar, if_pos (h c (.head _))]
    rfl

theorem safe_sanitizeToolCallId (id : String) (limit : Option ℕ) :
    ∀ c ∈ (sanitizeToolCallId id limit).toList, isSafeChar c = true := by
  have hsafe : ∀ c ∈ id.toList.flatMap sanitizeChar, isSafeChar c = true := by
    intro c hc
    obtain ⟨d, -, hcd⟩ := mem_flatMap.1 hc
    exact isSafeChar_of_mem_sanitizeChar hcd
  intro c hc
  cases limit with
  | none => exact hsafe c (by simpa [sanitizeToolCallId] using hc)
  | some n => exact hsafe c (mem_of_mem_take (by simpa [sanitizeToolCallId] using hc))

theorem length_sanitizeToolCallId (id : String) {limit : Option ℕ} {n : ℕ} (hn : n ∈ limit) :
    (sanitizeToolCallId id limit).length ≤ n := by
  obtain rfl := mem_def.1 hn
  rw [sanitizeToolCallId, String.length_ofList]
  exact length_take_le _ _

theorem sanitizeToolCallId_eq_self {id : String} {limit : Option ℕ}
    (h : IsValidCallId limit id) : sanitizeToolCallId id limit = id := by
  simp only [sanitizeToolCallId, flatMap_sanitizeChar_eq_self h.safe]
  cases limit with
  | none => exact String.ofList_toList
  | some n =>
    have hlength : id.toList.length ≤ n := by
      rw [String.length_toList]
      exact h.fits n rfl
    exact (congrArg String.ofList (take_of_length_le hlength)).trans String.ofList_toList

theorem toolCallIdPolicy_lawful (limit : Option ℕ) : (toolCallIdPolicy limit).Lawful where
  safe := fun id => safe_sanitizeToolCallId id limit
  fits := fun id _ hn => length_sanitizeToolCallId id hn
  valid := fun _ h => sanitizeToolCallId_eq_self h

theorem openAIResponsesCallIdPolicy_lawful (limit : Option ℕ) :
    (openAIResponsesCallIdPolicy limit).Lawful where
  safe := fun _ => safe_sanitizeToolCallId _ limit
  fits := fun _ _ hn => length_sanitizeToolCallId _ hn
  valid := fun id h => by
    -- no safe character is a bar, so nothing is cut off
    have hbar : id.toList.takeWhile (· ≠ '|') = id.toList := by
      refine takeWhile_eq_self_iff.2 fun c hc => decide_eq_true ?_
      rintro rfl
      exact absurd (h.safe _ hc) (by decide)
    have hsame : sanitizeOpenAIResponsesCallId id limit = sanitizeToolCallId id limit := by
      unfold sanitizeOpenAIResponsesCallId
      rw [hbar, String.ofList_toList]
    exact hsame.trans (sanitizeToolCallId_eq_self h)

/-! ### The id that is found -/

section

variable {base suffix s e : String} {limit : Option ℕ} {usedIds : OrdSet String}

theorem isValid_of_truncate (hbase : base ≠ "") (hsafe : ∀ c ∈ base.toList, isSafeChar c = true)
    (hsuffix : ∀ c ∈ suffix.toList, isSafeChar c = true)
    (h : truncateToolCallId base limit suffix = .ok s) : IsValidCallId limit s := by
  obtain ⟨front, hfront, rfl, hnone, hsome⟩ := truncateToolCallId_eq_ok.1 h
  have hlist : base.toList ≠ [] := by
    rwa [ne_eq, String.toList_eq_nil_iff]
  have hne : front ≠ [] := by
    cases hlimit : limit with
    | none =>
      rw [hnone hlimit]
      exact hlist
    | some n =>
      obtain ⟨hlt, rfl⟩ := hsome n hlimit
      rw [ne_eq, take_eq_nil_iff, not_or]
      exact ⟨by omega, hlist⟩
  constructor
  · intro hempty
    have hlists := congrArg String.toList hempty
    rw [String.toList_append, String.toList_ofList] at hlists
    exact hne (append_eq_nil_iff.1 hlists).1
  · intro c hc
    rw [String.toList_append, String.toList_ofList] at hc
    rcases mem_append.1 hc with hc | hc
    · exact hsafe c (hfront.subset hc)
    · exact hsuffix c hc
  · intro n hn
    obtain ⟨hlt, rfl⟩ := hsome n hn
    rw [String.length_append, String.length_ofList, length_take]
    omega

theorem truncateToolCallId_eq_error (h : truncateToolCallId base limit suffix = .error e) :
    ∃ n ∈ limit, n ≤ suffix.length ∧ e = tooSmallFor n suffix := by
  cases limit with
  | none => cases h
  | some n =>
    rw [truncateToolCallId] at h
    by_cases hn : n ≤ suffix.length
    · rw [if_pos hn] at h
      exact ⟨n, rfl, hn, (Except.error.inj h).symm⟩
    · rw [if_neg hn] at h
      cases h

theorem toList_number (i : ℕ) : ("_" ++ toString i).toList = '_' :: Nat.toDigits 10 i := by
  simp [String.toList_append]

theorem length_number (i : ℕ) : ("_" ++ toString i).length = (Nat.toDigits 10 i).length + 1 := by
  rw [← String.length_toList, toList_number, length_cons]

theorem safe_number (i : ℕ) : ∀ c ∈ ("_" ++ toString i).toList, isSafeChar c = true := by
  intro c hc
  rw [toList_number] at hc
  rcases mem_cons.1 hc with rfl | hc
  · rfl
  · have hdigit := Nat.isDigit_of_mem_toDigits (by decide) (by decide) hc
    simp [isSafeChar, hdigit]

theorem baseOf_safe {normalized : String} (h : ∀ c ∈ normalized.toList, isSafeChar c = true) :
    baseOf normalized ≠ "" ∧ ∀ c ∈ (baseOf normalized).toList, isSafeChar c = true := by
  unfold baseOf
  split_ifs with hlength
  · refine ⟨?_, h⟩
    rintro rfl
    exact absurd hlength (by decide)
  · exact ⟨by decide, forall_iff_forall_mem.1 (by decide)⟩

/-- The limit is too small for a number up to `count`. -/
def LimitTooSmall (limit : Option ℕ) (count : ℕ) (e : String) : Prop :=
  ∃ n ∈ limit, ∃ suffix : String, e = tooSmallFor n suffix ∧ n ≤ suffix.length ∧
    suffix.length ≤ (Nat.toDigits 10 count).length + 1

theorem length_toDigits_mono {m n : ℕ} (h : m ≤ n) :
    (Nat.toDigits 10 m).length ≤ (Nat.toDigits 10 n).length := by
  have hbase : 1 < 10 := by decide
  have hn := (Nat.length_toDigits_le_iff hbase Nat.length_toDigits_pos).1
    (le_refl (Nat.toDigits 10 n).length)
  exact (Nat.length_toDigits_le_iff hbase Nat.length_toDigits_pos).2 (lt_of_le_of_lt h hn)

theorem LimitTooSmall.mono {m n : ℕ} (h : LimitTooSmall limit m e) (hmn : m ≤ n) :
    LimitTooSmall limit n e := by
  obtain ⟨k, hk, suffix, he, hle, hlength⟩ := h
  exact ⟨k, hk, suffix, he, hle, hlength.trans (Nat.succ_le_succ (length_toDigits_mono hmn))⟩

theorem uniqueSuffixed_spec (hne : base ≠ "") (hsafe : ∀ c ∈ base.toList, isSafeChar c = true) :
    (∃ s, uniqueSuffixed base usedIds limit = .ok s ∧ s ∉ usedIds ∧ IsValidCallId limit s) ∨
    ∃ e, uniqueSuffixed base usedIds limit = .error e ∧
      LimitTooSmall limit (usedIds.toList.length + 2) e := by
  have hfound : findSuffixed base usedIds limit (usedIds.toList.length + 1) 2 =
      some (uniqueSuffixed base usedIds limit) := (some_get _).symm
  obtain ⟨k, htaken, hk⟩ := findSuffixed_spec _ _
  rw [hfound] at hk
  obtain ⟨-, hr, hnew⟩ := hk
  cases hresult : uniqueSuffixed base usedIds limit with
  | ok s =>
    rw [hresult] at hr
    exact .inl ⟨s, rfl, hnew s hresult, isValid_of_truncate hne hsafe (safe_number _) hr⟩
  | error e =>
    rw [hresult] at hr
    obtain ⟨n, hn, hle, rfl⟩ := truncateToolCallId_eq_error hr
    refine .inr ⟨_, rfl, n, hn, _, rfl, hle, ?_⟩
    rw [length_number]
    have hcount := le_length_of_taken htaken
    exact Nat.succ_le_succ (length_toDigits_mono (by omega))

/-- **The id that is found is new and valid**, or the limit is too small for its number. -/
theorem makeUniqueToolCallId_spec {normalized : String}
    (h : ∀ c ∈ normalized.toList, isSafeChar c = true) (usedIds : OrdSet String)
    (limit : Option ℕ) :
    (∃ s, makeUniqueToolCallId normalized usedIds limit = .ok s ∧ s ∉ usedIds ∧
      IsValidCallId limit s) ∨
    ∃ e, makeUniqueToolCallId normalized usedIds limit = .error e ∧
      LimitTooSmall limit (usedIds.toList.length + 2) e := by
  obtain ⟨hne, hsafe⟩ := baseOf_safe h
  simp only [makeUniqueToolCallId]
  cases hcandidate : truncateToolCallId (baseOf normalized) limit "" with
  | error e =>
    obtain ⟨n, hn, hle, rfl⟩ := truncateToolCallId_eq_error hcandidate
    exact .inr ⟨_, rfl, n, hn, "", rfl, hle, Nat.zero_le _⟩
  | ok candidate =>
    by_cases hused : candidate ∈ usedIds
    · simp only [hused, not_true_eq_false, if_false]
      exact uniqueSuffixed_spec hne hsafe
    · simp only [hused, not_false_eq_true, if_true]
      exact .inl ⟨candidate, rfl, hused, isValid_of_truncate hne hsafe (by simp) hcandidate⟩

end

/-! ### The map of the ids -/

section

variable {policy : ToolCallIdPolicy} {rawIds : List String}
  {s s' : OrdMap String String × OrdSet String}

theorem ToolCallIdPolicy.Lawful.keeps_iff (h : policy.Lawful) (id : String) :
    policy.normalize id = id ∧ 0 < (policy.normalize id).length ↔
      IsValidCallId policy.maxLength id := by
  constructor
  · rintro ⟨heq, hpos⟩
    refine ⟨?_, heq ▸ h.safe id, fun n hn => heq ▸ h.fits id n hn⟩
    rintro rfl
    rw [heq] at hpos
    exact absurd hpos (by decide)
  · intro hvalid
    rw [h.valid id hvalid]
    refine ⟨rfl, Nat.pos_of_ne_zero fun hzero => hvalid.nonempty ?_⟩
    refine String.toList_eq_nil_iff.1 (length_eq_zero_iff.1 ?_)
    rw [String.length_toList, hzero]

/-- The state of the two loops over the ids: a part of an injective renaming to valid ids. -/
structure IsCallIdMap (limit : Option ℕ) (rawIds : List String)
    (s : OrdMap String String × OrdSet String) : Prop where
  inj : ∀ a b v, s.1.get a = some v → s.1.get b = some v → a = b
  used : ∀ v, v ∈ s.2 ↔ ∃ a, s.1.get a = some v
  valid : ∀ a v, s.1.get a = some v → IsValidCallId limit v
  among : ∀ a v, s.1.get a = some v → a ∈ rawIds
  kept : ∀ a ∈ rawIds, IsValidCallId limit a → s.1.get a = some a

theorem keepToolCallId_of_valid (h : policy.Lawful) {a : String}
    (ha : IsValidCallId policy.maxLength a) :
    keepToolCallId policy s a = (s.1.set a a, s.2.insert a) := by
  have hkeeps := (h.keeps_iff a).2 ha
  unfold keepToolCallId
  rw [if_pos hkeeps, hkeeps.1]

theorem keepToolCallId_of_not_valid (h : policy.Lawful) {a : String}
    (ha : ¬IsValidCallId policy.maxLength a) : keepToolCallId policy s a = s :=
  if_neg fun hkeeps => ha ((h.keeps_iff a).1 hkeeps)

theorem keepToolCallIds_concat (policy : ToolCallIdPolicy) (l : List String) (a : String) :
    keepToolCallIds policy (l ++ [a]) = keepToolCallId policy (keepToolCallIds policy l) a := by
  unfold keepToolCallIds
  rw [foldl_append]
  rfl

theorem keepToolCallIds_get (h : policy.Lawful) (rawIds : List String) (a v : String) :
    (keepToolCallIds policy rawIds).1.get a = some v ↔
      v = a ∧ a ∈ rawIds ∧ IsValidCallId policy.maxLength a := by
  induction rawIds using reverseRecOn with
  | nil => simp [keepToolCallIds, OrdMap.get, OrdMap.empty]
  | append_singleton l b ih =>
    rw [keepToolCallIds_concat, mem_append, mem_singleton]
    by_cases hb : IsValidCallId policy.maxLength b
    · rw [keepToolCallId_of_valid h hb, OrdMap.get_set]
      by_cases hab : a = b
      · simp [hab, hb, eq_comm]
      · simp [hab, ih]
    · rw [keepToolCallId_of_not_valid h hb, ih]
      refine and_congr_right fun _ => and_congr_left fun hvalid => ?_
      refine ⟨.inl, fun hor => hor.resolve_right ?_⟩
      rintro rfl
      exact hb hvalid

theorem keepToolCallIds_used (h : policy.Lawful) (rawIds : List String) (v : String) :
    v ∈ (keepToolCallIds policy rawIds).2 ↔ v ∈ rawIds ∧ IsValidCallId policy.maxLength v := by
  induction rawIds using reverseRecOn with
  | nil => simp [keepToolCallIds]
  | append_singleton l b ih =>
    rw [keepToolCallIds_concat, mem_append, mem_singleton]
    by_cases hb : IsValidCallId policy.maxLength b
    · rw [keepToolCallId_of_valid h hb, OrdSet.mem_insert, ih, or_and_right]
      refine or_congr_right ⟨?_, fun hv => hv.1⟩
      rintro rfl
      exact ⟨rfl, hb⟩
    · rw [keepToolCallId_of_not_valid h hb, ih]
      refine and_congr_left fun hvalid => ⟨.inl, fun hor => hor.resolve_right ?_⟩
      rintro rfl
      exact hb hvalid

theorem keepToolCallIds_isCallIdMap (h : policy.Lawful) (rawIds : List String) :
    IsCallIdMap policy.maxLength rawIds (keepToolCallIds policy rawIds) where
  inj := fun a b v ha hb => by
    obtain ⟨rfl, -⟩ := (keepToolCallIds_get h rawIds a v).1 ha
    exact ((keepToolCallIds_get h rawIds b v).1 hb).1
  used := fun v => by
    rw [keepToolCallIds_used h]
    constructor
    · exact fun hv => ⟨v, (keepToolCallIds_get h rawIds v v).2 ⟨rfl, hv⟩⟩
    · rintro ⟨a, ha⟩
      obtain ⟨rfl, ha⟩ := (keepToolCallIds_get h rawIds a v).1 ha
      exact ha
  valid := fun a v ha => by
    obtain ⟨rfl, -, hvalid⟩ := (keepToolCallIds_get h rawIds a v).1 ha
    exact hvalid
  among := fun a v ha => ((keepToolCallIds_get h rawIds a v).1 ha).2.1
  kept := fun a ha hvalid => (keepToolCallIds_get h rawIds a a).2 ⟨rfl, ha, hvalid⟩

theorem IsCallIdMap.length_used_lt (h : IsCallIdMap policy.maxLength rawIds s) {rawId : String}
    (hmem : rawId ∈ rawIds) (hnone : s.1.get rawId = none) :
    s.2.toList.length < rawIds.length := by
  choose! source hsource using fun v => (h.used v).1
  have hnodup : (s.2.toList.map source).Nodup := by
    refine List.Nodup.map_on (fun v hv w hw heq => ?_) s.2.nodup
    have hw' := hsource w hw
    rw [← heq, hsource v hv] at hw'
    exact some.inj hw'
  have hrest : (rawId :: s.2.toList.map source).Nodup := by
    refine nodup_cons.2 ⟨fun hin => ?_, hnodup⟩
    obtain ⟨v, hv, rfl⟩ := mem_map.1 hin
    rw [hsource v hv] at hnone
    cases hnone
  have hsub : rawId :: s.2.toList.map source ⊆ rawIds := by
    refine cons_subset.2 ⟨hmem, fun a ha => ?_⟩
    obtain ⟨v, hv, rfl⟩ := mem_map.1 ha
    exact h.among _ v (hsource v hv)
  have hlength := (subperm_of_subset hrest hsub).length_le
  rw [length_cons, length_map] at hlength
  exact hlength

theorem IsCallIdMap.set {limit : Option ℕ} (h : IsCallIdMap limit rawIds s) {rawId v : String}
    (hmem : rawId ∈ rawIds) (hnone : s.1.get rawId = none) (hnew : v ∉ s.2)
    (hvalid : IsValidCallId limit v) :
    IsCallIdMap limit rawIds (s.1.set rawId v, s.2.insert v) := by
  have hother : ∀ a, s.1.get a ≠ some v := fun a ha => hnew ((h.used v).2 ⟨a, ha⟩)
  constructor
  · intro a b w ha hb
    rw [get_set] at ha hb
    by_cases hka : a = rawId
    · by_cases hkb : b = rawId
      · rw [hka, hkb]
      · rw [if_pos hka] at ha
        rw [if_neg hkb, ← some.inj ha] at hb
        exact absurd hb (hother b)
    · rw [if_neg hka] at ha
      by_cases hkb : b = rawId
      · rw [if_pos hkb] at hb
        rw [← some.inj hb] at ha
        exact absurd ha (hother a)
      · rw [if_neg hkb] at hb
        exact h.inj a b w ha hb
  · intro w
    rw [OrdSet.mem_insert, h.used]
    constructor
    · rintro (⟨a, ha⟩ | rfl)
      · refine ⟨a, ?_⟩
        rw [get_set, if_neg, ha]
        rintro rfl
        rw [ha] at hnone
        cases hnone
      · exact ⟨rawId, by rw [get_set, if_pos rfl]⟩
    · rintro ⟨a, ha⟩
      rw [get_set] at ha
      split_ifs at ha
      · exact .inr (some.inj ha).symm
      · exact .inl ⟨a, ha⟩
  · intro a w ha
    rw [get_set] at ha
    split_ifs at ha
    · exact some.inj ha ▸ hvalid
    · exact h.valid a w ha
  · intro a w ha
    rw [get_set] at ha
    split_ifs at ha with hkey
    · rw [hkey]
      exact hmem
    · exact h.among a w ha
  · intro a ha hvalid'
    rw [get_set, if_neg]
    · exact h.kept a ha hvalid'
    · rintro rfl
      rw [h.kept a ha hvalid'] at hnone
      cases hnone

/-- **One round of the second loop.** -/
theorem IsCallIdMap.step (hlawful : policy.Lawful) (h : IsCallIdMap policy.maxLength rawIds s)
    {rawId : String} (hmem : rawId ∈ rawIds) :
    (∃ s', mapToolCallId policy s rawId = .ok s' ∧ IsCallIdMap policy.maxLength rawIds s' ∧
      (s'.1.get rawId).isSome = true ∧
      ∀ a, (s.1.get a).isSome = true → (s'.1.get a).isSome = true) ∨
    ∃ e, mapToolCallId policy s rawId = .error e ∧
      LimitTooSmall policy.maxLength (rawIds.length + 1) e := by
  unfold mapToolCallId
  by_cases hsome : (s.1.get rawId).isSome = true
  · rw [if_pos hsome]
    exact .inl ⟨s, rfl, h, hsome, fun _ => id⟩
  · have hnone : s.1.get rawId = none := not_isSome_iff_eq_none.1 hsome
    rw [if_neg hsome]
    rcases makeUniqueToolCallId_spec (hlawful.safe rawId) s.2 policy.maxLength with
      ⟨v, hv, hnew, hvalid⟩ | ⟨e, he, hsmall⟩
    · rw [hv]
      refine .inl ⟨_, rfl, h.set hmem hnone hnew hvalid, ?_, fun a ha => ?_⟩
      · simp
      · rw [get_set]
        split_ifs
        · rfl
        · exact ha
    · rw [he]
      have hcount := h.length_used_lt hmem hnone
      exact .inr ⟨e, rfl, hsmall.mono (by omega)⟩

/-- **The second loop.** -/
theorem IsCallIdMap.run (hlawful : policy.Lawful) (h : IsCallIdMap policy.maxLength rawIds s)
    {l : List String} (hl : l ⊆ rawIds) :
    (∃ s', l.foldlM (mapToolCallId policy) s = .ok s' ∧
      IsCallIdMap policy.maxLength rawIds s' ∧
      (∀ a ∈ l, (s'.1.get a).isSome = true) ∧
      ∀ a, (s.1.get a).isSome = true → (s'.1.get a).isSome = true) ∨
    ∃ e, l.foldlM (mapToolCallId policy) s = .error e ∧
      LimitTooSmall policy.maxLength (rawIds.length + 1) e := by
  induction l generalizing s with
  | nil => exact .inl ⟨s, rfl, h, fun a ha => absurd ha not_mem_nil, fun _ => id⟩
  | cons rawId l ih =>
    obtain ⟨hmem, hl⟩ := cons_subset.1 hl
    rw [foldlM_cons]
    rcases h.step hlawful hmem with ⟨t, ht, hmap, hrawId, hkeeps⟩ | ⟨e, he, hsmall⟩
    · rw [ht]
      rcases ih hmap hl with ⟨s', hs', hmap', hall, hkeeps'⟩ | ⟨e, he, hsmall⟩
      · refine .inl ⟨s', hs', hmap', fun a ha => ?_, fun a ha => hkeeps' a (hkeeps a ha)⟩
        rcases mem_cons.1 ha with rfl | ha
        · exact hkeeps' _ hrawId
        · exact hall a ha
      · exact .inr ⟨e, he, hsmall⟩
    · rw [he]
      exact .inr ⟨e, rfl, hsmall⟩

end

/-! ### The history -/

/-- The distinct ids of a history. -/
def callIdsOf (messages : List Message) : List String := (collectToolCallIds messages).toList

/-- A call of a message and the message with its result. -/
def Answers (messages : List Message) (caller call result : ℕ) : Prop :=
  ∃ m ∈ messages[caller]?, ∃ tc ∈ m.toolCalls[call]?, ∃ r ∈ messages[result]?,
    r.toolCallId = some tc.id

/-- **What a renaming owes to a history.** -/
structure RenamesCallIds (limit : Option ℕ) (messages out : List Message)
    (f : String → String) : Prop where
  renamed : out = messages.map (renameCallIds f)
  inj : ∀ a ∈ callIdsOf messages, ∀ b ∈ callIdsOf messages, f a = f b → a = b
  valid : ∀ a ∈ callIdsOf messages, IsValidCallId limit (f a)
  kept : ∀ a ∈ callIdsOf messages, IsValidCallId limit a → f a = a
  answers : ∀ caller call result, Answers out caller call result ↔
    Answers messages caller call result

theorem mem_callIdsOf {messages : List Message} {id : String} :
    id ∈ callIdsOf messages ↔
      ∃ m ∈ messages, (∃ tc ∈ m.toolCalls, tc.id = id) ∨ m.toolCallId = some id := by
  unfold callIdsOf collectToolCallIds
  rw [← OrdSet.mem_def, OrdSet.mem_ofList, mem_flatMap]
  simp [Message.callIds]

/-- A renaming that is injective on the ids of the history keeps the results with their calls. -/
theorem answers_map_renameCallIds {messages : List Message} {f : String → String}
    (hinj : ∀ a ∈ callIdsOf messages, ∀ b ∈ callIdsOf messages, f a = f b → a = b)
    (caller call result : ℕ) :
    Answers (messages.map (renameCallIds f)) caller call result ↔
      Answers messages caller call result := by
  constructor
  · rintro ⟨m', hm', tc', htc', r', hr', hid⟩
    rw [getElem?_map] at hm' hr'
    obtain ⟨m, hm, rfl⟩ := map_eq_some_iff.1 hm'
    obtain ⟨r, hr, rfl⟩ := map_eq_some_iff.1 hr'
    obtain ⟨tc, htc, rfl⟩ := map_eq_some_iff.1 ((getElem?_map ..).symm.trans htc')
    obtain ⟨id, hrid, heq⟩ := map_eq_some_iff.1 hid
    have hcall : tc.id ∈ callIdsOf messages :=
      mem_callIdsOf.2 ⟨m, mem_of_getElem? hm, .inl ⟨tc, mem_of_getElem? htc, rfl⟩⟩
    have hresult : id ∈ callIdsOf messages := mem_callIdsOf.2 ⟨r, mem_of_getElem? hr, .inr hrid⟩
    refine ⟨m, hm, tc, htc, r, hr, ?_⟩
    rw [hrid, hinj id hresult tc.id hcall heq]
  · rintro ⟨m, hm, tc, htc, r, hr, hid⟩
    refine ⟨renameCallIds f m, ?_, { tc with id := f tc.id }, ?_, renameCallIds f r, ?_, ?_⟩
    · exact (getElem?_map ..).trans (congrArg _ hm)
    · exact (getElem?_map ..).trans (congrArg (Option.map _) htc)
    · exact (getElem?_map ..).trans (congrArg _ hr)
    · exact congrArg (Option.map f) hid

/-- The renaming of a history returns a renaming of its ids, or throws because the limit is too
small for the number of some id. -/
def Normalizes (policy : ToolCallIdPolicy) (messages : List Message) : Prop :=
  (∃ out f, normalizeToolCallIdsForProvider messages policy = .ok out ∧
    RenamesCallIds policy.maxLength messages out f) ∨
  ∃ e, normalizeToolCallIdsForProvider messages policy = .error e ∧
    LimitTooSmall policy.maxLength ((callIdsOf messages).length + 1) e

theorem ToolCallIdPolicy.Lawful.normalizes {policy : ToolCallIdPolicy} (h : policy.Lawful)
    (messages : List Message) : Normalizes policy messages := by
  by_cases hempty : callIdsOf messages = []
  · have hnone : ∀ a, a ∉ callIdsOf messages := fun a => hempty ▸ List.not_mem_nil
    have hrename : messages = messages.map (renameCallIds id) := by
      have hid : renameCallIds id = id := by
        funext m
        simp [renameCallIds]
      rw [hid, List.map_id]
    refine .inl ⟨messages, id, ?_, ?_⟩
    · unfold callIdsOf at hempty
      simp only [normalizeToolCallIdsForProvider, hempty, List.length_nil, if_true]
      rfl
    · exact ⟨hrename, fun a ha => absurd ha (hnone a), fun a ha => absurd ha (hnone a),
        fun a ha => absurd ha (hnone a), fun _ _ _ => Iff.rfl⟩
  · have hlength : (collectToolCallIds messages).toList.length ≠ 0 :=
      fun hzero => hempty (List.length_eq_zero_iff.1 hzero)
    unfold Normalizes normalizeToolCallIdsForProvider buildToolCallIdMap
    rw [if_neg hlength]
    rcases (keepToolCallIds_isCallIdMap h (callIdsOf messages)).run h
      (List.Subset.refl (callIdsOf messages)) with ⟨s, hs, hmap, hall, -⟩ | ⟨e, he, hsmall⟩
    · unfold callIdsOf at hs
      rw [hs]
      have hget : ∀ a ∈ callIdsOf messages, s.1.get a = some ((s.1.get a).getD a) := by
        intro a ha
        obtain ⟨v, hv⟩ := isSome_iff_exists.1 (hall a ha)
        rw [hv]
        rfl
      have hinj : ∀ a ∈ callIdsOf messages, ∀ b ∈ callIdsOf messages,
          (s.1.get a).getD a = (s.1.get b).getD b → a = b := by
        intro a ha b hb heq
        refine hmap.inj a b _ (hget a ha) ?_
        rw [heq]
        exact hget b hb
      refine .inl ⟨_, fun id => (s.1.get id).getD id, rfl, rfl, hinj, ?_, ?_, ?_⟩
      · exact fun a ha => hmap.valid a _ (hget a ha)
      · intro a ha hvalid
        rw [hmap.kept a ha hvalid]
        rfl
      · exact answers_map_renameCallIds hinj
    · unfold callIdsOf at he
      rw [he]
      exact .inr ⟨e, rfl, hsmall⟩

/-- **One injective renaming, or the limit is too small**: with the sanitizers of all providers,
every limit and every history. -/
theorem normalizeToolCallIds_spec (limit : Option ℕ) (messages : List Message) :
    Normalizes (toolCallIdPolicy limit) messages ∧
      Normalizes (openAIResponsesCallIdPolicy limit) messages :=
  ⟨(toolCallIdPolicy_lawful limit).normalizes messages,
    (openAIResponsesCallIdPolicy_lawful limit).normalizes messages⟩

/-- **A limit of two characters is too small for two ids that are sanitized to one.** -/
theorem normalizeToolCallIds_throws : ¬∀ (limit : Option ℕ) (messages : List Message),
    ∃ out f, normalizeToolCallIdsForProvider messages (toolCallIdPolicy limit) = .ok out ∧
      RenamesCallIds limit messages out f := by
  intro h
  obtain ⟨out, f, hout, -⟩ := h (some 2)
    [⟨.assistant, none, [], [⟨"a_", "Read", none⟩, ⟨"a!", "Read", none⟩], none, false⟩]
  have herror : normalizeToolCallIdsForProvider
      [⟨.assistant, none, [], [⟨"a_", "Read", none⟩, ⟨"a!", "Read", none⟩], none, false⟩]
      (toolCallIdPolicy (some 2)) = .error (tooSmallFor 2 "_2") := by decide
  rw [herror] at hout
  cases hout

/-! ### Another provider -/

theorem foldlM_mapToolCallId (policy : ToolCallIdPolicy)
    {s : OrdMap String String × OrdSet String} {l : List String}
    (h : ∀ a ∈ l, (s.1.get a).isSome = true) : l.foldlM (mapToolCallId policy) s = .ok s := by
  induction l with
  | nil => rfl
  | cons a l ih =>
    rw [foldlM_cons, mapToolCallId, if_pos (h a (.head _))]
    exact ih fun b hb => h b (.tail _ hb)

/-- **Valid ids stay as they are.** -/
theorem ToolCallIdPolicy.Lawful.normalize_valid {policy : ToolCallIdPolicy} (h : policy.Lawful)
    {messages : List Message}
    (hvalid : ∀ a ∈ callIdsOf messages, IsValidCallId policy.maxLength a) :
    normalizeToolCallIdsForProvider messages policy = .ok messages := by
  have hget := keepToolCallIds_get h (callIdsOf messages)
  have hrun := foldlM_mapToolCallId policy fun a ha =>
    isSome_iff_exists.2 ⟨a, (hget a a).2 ⟨rfl, ha, hvalid a ha⟩⟩
  unfold callIdsOf at hrun hget
  unfold normalizeToolCallIdsForProvider buildToolCallIdMap
  dsimp only
  split_ifs
  · rfl
  · have hid : (fun id => ((keepToolCallIds policy
        (collectToolCallIds messages).toList).1.get id).getD id) = id := by
      funext id
      cases hv : (keepToolCallIds policy (collectToolCallIds messages).toList).1.get id with
      | none => rfl
      | some v => exact ((hget id v).1 hv).1
    rw [hrun]
    change Except.ok (messages.map (renameCallIds _)) = _
    rw [hid]
    exact congrArg _ (map_id'' (fun m => by simp [renameCallIds]) messages)

/-- **What one provider takes, every provider takes as it is**: normalizing once more, with either
sanitizer, changes nothing. -/
theorem normalizeToolCallIds_again {limit : Option ℕ} {policy other : ToolCallIdPolicy}
    (hpolicy : policy ∈ [toolCallIdPolicy limit, openAIResponsesCallIdPolicy limit])
    (hother : other ∈ [toolCallIdPolicy limit, openAIResponsesCallIdPolicy limit])
    {messages out : List Message} (hout : normalizeToolCallIdsForProvider messages policy = .ok out) :
    normalizeToolCallIdsForProvider out other = .ok out := by
  have hlawful : ∀ p ∈ [toolCallIdPolicy limit, openAIResponsesCallIdPolicy limit],
      p.Lawful ∧ p.maxLength = limit := by
    intro p hp
    obtain rfl | rfl := mem_pair.1 hp
    · exact ⟨toolCallIdPolicy_lawful limit, rfl⟩
    · exact ⟨openAIResponsesCallIdPolicy_lawful limit, rfl⟩
  obtain ⟨h, hlimit⟩ := hlawful policy hpolicy
  obtain ⟨h', hlimit'⟩ := hlawful other hother
  obtain ⟨out', f, hok, hren⟩ | ⟨e, he, -⟩ := h.normalizes messages
  · obtain rfl := Except.ok.inj (hout.symm.trans hok)
    refine h'.normalize_valid fun a ha => ?_
    rw [hlimit', ← hlimit]
    obtain ⟨m', hm', hid⟩ := mem_callIdsOf.1 ha
    rw [hren.renamed] at hm'
    obtain ⟨m, hm, rfl⟩ := mem_map.1 hm'
    obtain ⟨tc', htc', rfl⟩ | hresult := hid
    · obtain ⟨tc, htc, rfl⟩ := mem_map.1 htc'
      exact hren.valid _ (mem_callIdsOf.2 ⟨m, hm, .inl ⟨tc, htc, rfl⟩⟩)
    · obtain ⟨id, hid, rfl⟩ := map_eq_some_iff.1 hresult
      exact hren.valid _ (mem_callIdsOf.2 ⟨m, hm, .inr hid⟩)
  · rw [he] at hout
    cases hout

theorem normalizeToolCallIds_again_kimi : normalizeToolCallIdsForProvider
    [⟨.tool, none, [], [], some "a_1", false⟩] (openAIResponsesCallIdPolicy (some 64)) =
      .ok [⟨.tool, none, [], [], some "a_1", false⟩] := by
  have hout : normalizeToolCallIdsForProvider [⟨.tool, none, [], [], some "a.1", false⟩]
      (toolCallIdPolicy (some 64)) = .ok [⟨.tool, none, [], [], some "a_1", false⟩] := by
    decide
  exact normalizeToolCallIds_again (.head _) (.tail _ (.head _)) hout

end NoriCode
