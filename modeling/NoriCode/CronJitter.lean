/-
**Jitter.**

A task runs somewhat off the minute, by an amount that depends on its id alone: a recurring one
later, by less than a tenth of the time to its next run, and a one-shot one for a round minute
earlier, by less than 90 seconds, unless that would be before the task was created.

The module embeds `tools/cron/jitter.ts`.  Numbers are rational, and what an operation on them
yields is rounded: the order stays, and integers, such as instants, are exact.

Main definitions:

* `Rounding` — how numbers are rounded;
* `fractionFromId` — the part of the largest jitter that a task has;
* `jitteredNextCronRunMs`, `oneShotJitteredNextCronRunMs` — the time of delivery.

Main results:

* `le_jittered`, `jittered_le_next` — **a recurring task runs between its run and
  the next one**.
-/

import NoriCode.CronNextRun
import Mathlib.Algebra.Order.Field.Basic

namespace NoriCode

open List

/-! ### Numbers -/

/-- How the result of an operation is rounded. -/
structure Rounding where
  round : ℚ → ℚ
  mono : Monotone round
  exact_int : ∀ n : ℤ, round n = n

/-- Nothing is rounded. -/
def Rounding.none : Rounding := ⟨id, monotone_id, fun _ => rfl⟩

/-- What the scheduler finds in its environment. -/
structure CronEnv where
  zone : TimeZone
  rounding : Rounding
  /-- `NORI_CRON_NO_JITTER` is set. -/
  noJitter : Bool
  /-- `NORI_CRON_NO_STALE` is set. -/
  noStale : Bool

/-! ### The part of a task -/

/-- The number that hexadecimal digits stand for, if all of them are. -/
def parseHex (digits : List Char) : Option ℕ :=
  digits.foldl (fun n c => n.bind fun n => (LibJson.hexValue c).map (16 * n + ·)) (some 0)

/-- The code units of a text. -/
def charCodes (s : String) : List ℕ :=
  s.toList.flatMap fun c =>
    if c.toNat < 0x10000 then [c.toNat]
    else [0xd800 + (c.toNat - 0x10000) / 0x400, 0xdc00 + (c.toNat - 0x10000) % 0x400]

/-- The reduction for other ids: `hash * 33 + code`, in 32 bits. -/
def hashFromId (id : String) : ℕ :=
  (charCodes id).foldl (fun hash code => (33 * hash + code) % 2 ^ 32) 5381

def fractionFromId (id : String) : ℚ :=
  match if id.toList.length = 8 then parseHex id.toList else none with
  | some n => (n : ℚ) / 2 ^ 32
  | none => (hashFromId id : ℚ) / 2 ^ 32

theorem hexValue_lt {c : Char} {v : ℕ} (h : LibJson.hexValue c = some v) : v < 16 := by
  unfold LibJson.hexValue at h
  have hzero : '0'.toNat = 48 := rfl
  have ha : 'a'.toNat = 97 := rfl
  have hA : 'A'.toNat = 65 := rfl
  split_ifs at h with hdigit hlower hupper
  · simp only [Char.isDigit, Bool.and_eq_true, decide_eq_true_eq, UInt32.le_iff_toNat_le,
      ge_iff_le] at hdigit
    have hbound : c.toNat ≤ 57 := hdigit.2
    cases h
    omega
  · have hbound : c.toNat ≤ 102 := hlower.2
    cases h
    omega
  · have hbound : c.toNat ≤ 70 := hupper.2
    cases h
    omega

theorem parseHex_lt {digits : List Char} {n : ℕ} (h : parseHex digits = some n) :
    n < 16 ^ digits.length := by
  unfold parseHex at h
  induction digits using reverseRecOn generalizing n with
  | nil =>
    cases h
    decide
  | append_singleton digits c ih =>
    rw [foldl_append, foldl_cons, foldl_nil] at h
    obtain ⟨m, hm, hn⟩ := Option.bind_eq_some_iff.1 h
    obtain ⟨v, hv, rfl⟩ := Option.map_eq_some_iff.1 hn
    have hlt := ih hm
    have hdigit := hexValue_lt hv
    rw [length_append, length_singleton, pow_succ]
    omega

theorem hashFromId_lt (id : String) : hashFromId id < 2 ^ 32 := by
  unfold hashFromId
  induction charCodes id using reverseRecOn with
  | nil => decide
  | append_singleton codes code _ =>
    rw [foldl_append, foldl_cons, foldl_nil]
    exact Nat.mod_lt _ (by decide)

theorem fraction_bounds {n : ℕ} (h : n < 2 ^ 32) : 0 ≤ (n : ℚ) / 2 ^ 32 ∧ (n : ℚ) / 2 ^ 32 ≤ 1 := by
  have hn : (n : ℚ) ≤ 2 ^ 32 := by exact_mod_cast h.le
  exact ⟨by positivity, (div_le_one (by positivity)).2 hn⟩

theorem fractionFromId_bounds (id : String) : 0 ≤ fractionFromId id ∧ fractionFromId id ≤ 1 := by
  unfold fractionFromId
  split
  · rename_i n hn
    split_ifs at hn with hlength
    refine fraction_bounds ?_
    have hlt := parseHex_lt hn
    rw [hlength] at hlt
    exact hlt
  · exact fraction_bounds (hashFromId_lt id)

/-! ### Times of delivery -/

/-- `0.1`, as it is represented. -/
def recurringMaxFractionOfPeriod : ℚ := 3602879701896397 / 36028797018963968

def recurringMaxMs : ℚ := 15 * 60000

def oneShotMaxMs : ℚ := 90000

/-- The time to the next run; a day, if there is none. -/
def periodFrom (env : CronEnv) (parsed : ParsedCronExpression) (idealMs : ℤ) : ℤ :=
  match computeNextCronRun env.zone parsed idealMs with
  | some nextNext => if nextNext > idealMs then nextNext - idealMs else MS_PER_DAY
  | none => MS_PER_DAY

/-- **`jitteredNextCronRunMs`.** -/
def jitteredNextCronRunMs (env : CronEnv) (id : String) (parsed : ParsedCronExpression)
    (idealMs : ℤ) : ℚ :=
  if env.noJitter then idealMs
  else
    let period := periodFrom env parsed idealMs
    let periodCap := env.rounding.round (period * recurringMaxFractionOfPeriod)
    let cap := min periodCap recurringMaxMs
    if ¬ cap > 0 then idealMs
    else
      let offset := env.rounding.round (cap * fractionFromId id)
      env.rounding.round (idealMs + offset)

/-- **`oneShotJitteredNextCronRunMs`.** -/
def oneShotJitteredNextCronRunMs (env : CronEnv) (id : String) (createdAt idealMs : ℤ) : ℚ :=
  if env.noJitter then idealMs
  else if idealMs % MS_PER_MINUTE ≠ 0 then idealMs
  else
    let minuteOfHour := env.zone.getMinutes idealMs
    if minuteOfHour ≠ 0 ∧ minuteOfHour ≠ 30 then idealMs
    else
      let offset := env.rounding.round (-oneShotMaxMs * fractionFromId id)
      let shifted := env.rounding.round (idealMs + offset)
      if shifted < createdAt then idealMs else shifted

section Bounds

variable (env : CronEnv) (id : String) (parsed : ParsedCronExpression) (idealMs : ℤ)

theorem periodFrom_pos : 0 < periodFrom env parsed idealMs := by
  unfold periodFrom
  split
  · split_ifs
    · omega
    · decide
  · decide

theorem jittered_bounds : (idealMs : ℚ) ≤ jitteredNextCronRunMs env id parsed idealMs ∧
    jitteredNextCronRunMs env id parsed idealMs ≤
      ((idealMs + periodFrom env parsed idealMs : ℤ) : ℚ) := by
  have hperiod : (0 : ℚ) < periodFrom env parsed idealMs := by
    exact_mod_cast periodFrom_pos env parsed idealMs
  have hend : (idealMs : ℚ) ≤ ((idealMs + periodFrom env parsed idealMs : ℤ) : ℚ) := by
    push_cast
    linarith
  unfold jitteredNextCronRunMs
  split_ifs with hnone
  · exact ⟨le_rfl, hend⟩
  · dsimp only
    split_ifs with hcap
    · obtain ⟨hnonneg, hle⟩ := fractionFromId_bounds id
      set cap := min (env.rounding.round
        (periodFrom env parsed idealMs * recurringMaxFractionOfPeriod)) recurringMaxMs
      -- the cap is a part of the period, and the offset one of the cap
      have htenth : (periodFrom env parsed idealMs : ℚ) * recurringMaxFractionOfPeriod ≤
          periodFrom env parsed idealMs :=
        mul_le_of_le_one_right hperiod.le (by unfold recurringMaxFractionOfPeriod; norm_num)
      have hcapLe : cap ≤ periodFrom env parsed idealMs := by
        refine (min_le_left _ _).trans ((env.rounding.mono htenth).trans ?_)
        exact (env.rounding.exact_int _).le
      have hoffset : 0 ≤ env.rounding.round (cap * fractionFromId id) := by
        have hzero := env.rounding.mono (mul_nonneg hcap.le hnonneg)
        have hexact := env.rounding.exact_int 0
        rw [Int.cast_zero] at hexact
        rwa [hexact] at hzero
      have hoffsetLe : env.rounding.round (cap * fractionFromId id) ≤
          periodFrom env parsed idealMs := by
        have hmul := (mul_le_of_le_one_right hcap.le hle).trans hcapLe
        exact (env.rounding.mono hmul).trans (env.rounding.exact_int _).le
      constructor
      · rw [← env.rounding.exact_int idealMs]
        refine env.rounding.mono ?_
        rw [env.rounding.exact_int]
        linarith
      · rw [← env.rounding.exact_int (idealMs + periodFrom env parsed idealMs)]
        refine env.rounding.mono ?_
        push_cast
        linarith
    · exact ⟨le_rfl, hend⟩

/-- **A recurring task does not run before its run.** -/
theorem le_jittered : (idealMs : ℚ) ≤ jitteredNextCronRunMs env id parsed idealMs :=
  (jittered_bounds env id parsed idealMs).1

/-- **It runs by the time of its next run.** -/
theorem jittered_le_next {next : ℤ}
    (hnext : computeNextCronRun env.zone parsed idealMs = some next) (hlater : idealMs < next) :
    jitteredNextCronRunMs env id parsed idealMs ≤ next := by
  have hperiod : periodFrom env parsed idealMs = next - idealMs := by
    unfold periodFrom
    rw [hnext]
    exact if_pos hlater
  have hle := (jittered_bounds env id parsed idealMs).2
  rwa [hperiod, show idealMs + (next - idealMs) = next by omega] at hle

end Bounds

end NoriCode
