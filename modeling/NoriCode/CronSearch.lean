/-
**The next run is the first one.**

At a fixed offset from UTC, the search for the next run gives the least minute behind its start that
the expression allows, if that is not behind the deadline.  A move of the search leads to the
beginning of the next month, day, hour or minute, and every instant up to there has the part of the
date that does not match.  After 400 years the calendar comes again, so the first run, if there is
one, is not farther away than that, and the bound on the number of rounds is never reached on the
way to it.

Main definitions:

* `Satisfies` — what an expression says of an instant;
* `cronRuns` — the runs between a start and a deadline;
* `roundsTo` — a bound for the rounds that lead to a run.

Main results:

* `le_of_advance` — a move passes over no run;
* `roundsTo_advance` — a move makes the bound smaller;
* `nextRunWithinMinutes_least` — **the first run is found**.
-/

import NoriCode.CronGrammar
import Mathlib.Data.Int.LeastGreatest

namespace NoriCode

open LibOrdSet LibCalendar TimeZone

/-! ### Runs -/

/-- The rule for the two fields of days: a star says nothing; if neither field is a star, one of
them is enough. -/
def DaySatisfied (zone : TimeZone) (expr : ParsedCronExpression) (t : ℤ) : Prop :=
  if expr.daysOfMonthWildcard = true ∨ expr.daysOfWeekWildcard = true then
    (expr.daysOfMonthWildcard = true ∨ (zone.getDate t).toNat ∈ expr.daysOfMonth) ∧
      (expr.daysOfWeekWildcard = true ∨ (zone.getDay t).toNat ∈ expr.daysOfWeek)
  else (zone.getDate t).toNat ∈ expr.daysOfMonth ∨ (zone.getDay t).toNat ∈ expr.daysOfWeek

/-- **What an expression says of an instant**, in local time. -/
structure Satisfies (zone : TimeZone) (expr : ParsedCronExpression) (t : ℤ) : Prop where
  month : (zone.getMonth t + 1).toNat ∈ expr.months
  day : DaySatisfied zone expr t
  hour : (zone.getHours t).toNat ∈ expr.hours
  minute : (zone.getMinutes t).toNat ∈ expr.minutes

/-- **The runs** behind a start and up to a deadline. -/
def cronRuns (zone : TimeZone) (expr : ParsedCronExpression) (fromMs deadlineMs : ℤ) : Set ℤ :=
  {t | fromMs < t ∧ zone.localTime t % MS_PER_MINUTE = 0 ∧ Satisfies zone expr t ∧
    t ≤ deadlineMs}

theorem hasValue_iff {values : OrdSet ℕ} {value : ℤ} :
    hasValue values value = true ↔ value.toNat ∈ values :=
  decide_eq_true_iff

variable {zone : TimeZone} {expr : ParsedCronExpression} {t : ℤ}

theorem dayMatches_iff : dayMatches zone expr t = true ↔ DaySatisfied zone expr t := by
  unfold dayMatches DaySatisfied
  cases hdom : expr.daysOfMonthWildcard <;> cases hdow : expr.daysOfWeekWildcard <;>
    simp [hasValue_iff]

theorem DaySatisfied.of_localDay {s : ℤ}
    (h : DaySatisfied zone expr s) (hday : zone.localDay s = zone.localDay t) :
    DaySatisfied zone expr t := by
  unfold DaySatisfied getDate getDay at h ⊢
  rwa [hday] at h

/-- **The search stops** where the expression is satisfied. -/
theorem advance_eq_none : advance zone expr t = none ↔ Satisfies zone expr t := by
  unfold advance
  constructor
  · intro h
    split_ifs at h with hmonth hday hhour hminute
    rw [Bool.not_eq_false] at hmonth hday hhour hminute
    exact ⟨hasValue_iff.1 hmonth, dayMatches_iff.1 hday, hasValue_iff.1 hhour,
      hasValue_iff.1 hminute⟩
  · intro h
    rw [if_neg (by simpa using hasValue_iff.2 h.month), if_neg (by simpa using dayMatches_iff.2 h.day),
      if_neg (by simpa using hasValue_iff.2 h.hour), if_neg (by simpa using hasValue_iff.2 h.minute)]

/-! ### Moves -/

section Fixed

variable {offset : ℤ} {expr : ParsedCronExpression}

theorem advanceMinute_fixed (offset t : ℤ) : (fixed offset).advanceMinute t + offset =
    ((t + offset) / MS_PER_MINUTE + 1) * MS_PER_MINUTE := by
  simp only [advanceMinute, startOfMinute, setMinutes,
    getMinutes, fixed, MS_PER_HOUR, MS_PER_MINUTE]
  omega

theorem advanceHour_fixed (offset t : ℤ) : (fixed offset).advanceHour t + offset =
    ((t + offset) / MS_PER_HOUR + 1) * MS_PER_HOUR := by
  simp only [advanceHour, startOfHour, setHours, getHours, localDay, fixed, MS_PER_DAY, MS_PER_HOUR]
  omega

theorem startOfDay_fixed (offset t : ℤ) : (fixed offset).startOfDay t + offset =
    (t + offset) / MS_PER_DAY * MS_PER_DAY := by
  simp only [startOfDay, localDay, fixed]
  omega

theorem advanceDay_fixed (offset t : ℤ) : (fixed offset).advanceDay t + offset =
    ((t + offset) / MS_PER_DAY + 1) * MS_PER_DAY := by
  have hstart := startOfDay_fixed offset t
  have hparts := makeDay_parts ((t + offset) / MS_PER_DAY)
  set day := (t + offset) / MS_PER_DAY with hday
  have hdiv : ((fixed offset).startOfDay t + offset) / MS_PER_DAY = day := by
    rw [hstart]
    simp only [MS_PER_DAY]
    omega
  have hmod : ((fixed offset).startOfDay t + offset) % MS_PER_DAY = 0 := by
    rw [hstart]
    simp only [MS_PER_DAY]
    omega
  have hmake : makeDay (yearFromDay day) (monthFromDay day) (dateFromDay day + 1) = day + 1 := by
    rw [makeDay_add] at hparts ⊢
    omega
  change makeDay (yearFromDay (((fixed offset).startOfDay t + offset) / MS_PER_DAY))
    (monthFromDay (((fixed offset).startOfDay t + offset) / MS_PER_DAY))
    (dateFromDay (((fixed offset).startOfDay t + offset) / MS_PER_DAY) + 1) * MS_PER_DAY +
      ((fixed offset).startOfDay t + offset) % MS_PER_DAY - offset + offset = _
  rw [hdiv, hmod, hmake]
  omega

theorem advanceMonth_fixed (offset t : ℤ) : (fixed offset).advanceMonth t + offset =
    makeDay (yearFromDay ((t + offset) / MS_PER_DAY))
      (monthFromDay ((t + offset) / MS_PER_DAY) + 1) 1 * MS_PER_DAY := by
  set day := (t + offset) / MS_PER_DAY with hday
  obtain ⟨hyear, hmonth, hdate⟩ := firstOfMonth day
  set first := makeDay (yearFromDay day) (monthFromDay day) 1 with hfirst
  have hset : ((fixed offset).setDate t 1 + offset) / MS_PER_DAY = first := by
    change (first * MS_PER_DAY + (t + offset) % MS_PER_DAY - offset + offset) / MS_PER_DAY = first
    simp only [MS_PER_DAY]
    omega
  have hstart := startOfDay_fixed offset ((fixed offset).setDate t 1)
  rw [hset] at hstart
  set start := (fixed offset).startOfDay ((fixed offset).setDate t 1)
  have hdiv : (start + offset) / MS_PER_DAY = first := by
    rw [hstart]
    simp only [MS_PER_DAY]
    omega
  have hmod : (start + offset) % MS_PER_DAY = 0 := by
    rw [hstart]
    simp only [MS_PER_DAY]
    omega
  change makeDay (yearFromDay ((start + offset) / MS_PER_DAY))
    (monthFromDay ((start + offset) / MS_PER_DAY) + 1)
    (dateFromDay ((start + offset) / MS_PER_DAY)) * MS_PER_DAY + (start + offset) % MS_PER_DAY -
      offset + offset = _
  rw [hdiv, hmod, hyear, hmonth, hdate]
  omega

/-- **What a move does**: to the beginning of the next month, day, hour or minute, since that part
of the date does not match. -/
inductive Moved (offset : ℤ) (expr : ParsedCronExpression) (t next : ℤ) : Prop
  | month (hmonth : hasValue expr.months ((TimeZone.fixed offset).getMonth t + 1) = false)
      (heq : next + offset = makeDay (yearFromDay ((t + offset) / MS_PER_DAY))
        (monthFromDay ((t + offset) / MS_PER_DAY) + 1) 1 * MS_PER_DAY)
  | day (hday : dayMatches (TimeZone.fixed offset) expr t = false)
      (heq : next + offset = ((t + offset) / MS_PER_DAY + 1) * MS_PER_DAY)
  | hour (hhour : hasValue expr.hours ((TimeZone.fixed offset).getHours t) = false)
      (heq : next + offset = ((t + offset) / MS_PER_HOUR + 1) * MS_PER_HOUR)
  | minute (hmonth : hasValue expr.months ((TimeZone.fixed offset).getMonth t + 1) = true)
      (hday : dayMatches (TimeZone.fixed offset) expr t = true)
      (hhour : hasValue expr.hours ((TimeZone.fixed offset).getHours t) = true)
      (hminute : hasValue expr.minutes ((TimeZone.fixed offset).getMinutes t) = false)
      (heq : next + offset = ((t + offset) / MS_PER_MINUTE + 1) * MS_PER_MINUTE)

variable {t next : ℤ}

section

variable (h : advance (fixed offset) expr t = some next)

include h

theorem moved_of_advance : Moved offset expr t next := by
  unfold advance at h
  split_ifs at h with hmonth hday hhour hminute
  · cases h
    exact .month hmonth (advanceMonth_fixed offset t)
  · cases h
    exact .day hday (advanceDay_fixed offset t)
  · cases h
    exact .hour hhour (advanceHour_fixed offset t)
  · cases h
    rw [Bool.not_eq_false] at hmonth hday hhour
    exact .minute hmonth hday hhour hminute (advanceMinute_fixed offset t)

/-- **A move passes over no run.** -/
theorem le_of_advance {s : ℤ} (hs : Satisfies (fixed offset) expr s) (hle : t ≤ s) : next ≤ s := by
  by_contra hlt
  have hday : (t + offset) / MS_PER_DAY ≤ (s + offset) / MS_PER_DAY :=
    Int.ediv_le_ediv (by decide) (by omega)
  cases moved_of_advance h with
  | month hmonth heq =>
    have hbefore : (s + offset) / MS_PER_DAY < makeDay (yearFromDay ((t + offset) / MS_PER_DAY))
        (monthFromDay ((t + offset) / MS_PER_DAY) + 1) 1 := by
      refine Int.ediv_lt_of_lt_mul (by decide) ?_
      omega
    have hsame := (month_eq ((makeDay_first_le _).trans hday) hbefore).2
    have hvalue : hasValue expr.months ((fixed offset).getMonth t + 1) = true := by
      refine hasValue_iff.2 ?_
      have hfound := hs.month
      change (monthFromDay ((s + offset) / MS_PER_DAY) + 1).toNat ∈ expr.months at hfound
      rw [hsame] at hfound
      exact hfound
    rw [hmonth] at hvalue
    cases hvalue
  | day hdays heq =>
    have hsame : (s + offset) / MS_PER_DAY = (t + offset) / MS_PER_DAY := by
      simp only [MS_PER_DAY] at heq hday ⊢
      omega
    rw [dayMatches_iff.2 (hs.day.of_localDay hsame)] at hdays
    cases hdays
  | hour hhour heq =>
    have hsame : (fixed offset).getHours s = (fixed offset).getHours t := by
      simp only [getHours, fixed, MS_PER_DAY, MS_PER_HOUR] at heq ⊢
      omega
    rw [← hsame, hasValue_iff.2 hs.hour] at hhour
    cases hhour
  | minute hmonth hdays hhour hminute heq =>
    have hsame : (fixed offset).getMinutes s = (fixed offset).getMinutes t := by
      simp only [getMinutes, fixed, MS_PER_HOUR, MS_PER_MINUTE] at heq ⊢
      omega
    rw [← hsame, hasValue_iff.2 hs.minute] at hminute
    cases hminute

theorem moved_forward : t < next ∧ (next + offset) % MS_PER_MINUTE = 0 := by
  cases moved_of_advance h with
  | month _ heq =>
    have hlater := lt_makeDay_nextMonth ((t + offset) / MS_PER_DAY) (Int.le_refl 1)
    simp only [MS_PER_DAY, MS_PER_MINUTE] at heq hlater ⊢
    omega
  | day _ heq =>
    simp only [MS_PER_DAY, MS_PER_MINUTE] at heq ⊢
    omega
  | hour _ heq =>
    simp only [MS_PER_HOUR, MS_PER_MINUTE] at heq ⊢
    omega
  | minute _ _ _ _ heq =>
    simp only [MS_PER_MINUTE] at heq ⊢
    omega

end

/-! ### The number of rounds -/

/-- **A bound for the rounds that lead to a run**: the minutes within its hour; before, a round for
every hour, and those that complete the hour of the date. -/
def roundsTo (offset t target : ℤ) : ℤ :=
  if (t + offset) / MS_PER_HOUR = (target + offset) / MS_PER_HOUR then
    (target + offset) / MS_PER_MINUTE - (t + offset) / MS_PER_MINUTE + 1
  else
    (target + offset) / MS_PER_HOUR - (t + offset) / MS_PER_HOUR + 61 +
      if (t + offset) % MS_PER_HOUR = 0 then 0
      else 60 - (t + offset) % MS_PER_HOUR / MS_PER_MINUTE

variable {target : ℤ}

theorem one_le_roundsTo (h : t ≤ target) : 1 ≤ roundsTo offset t target := by
  unfold roundsTo
  simp only [MS_PER_HOUR, MS_PER_MINUTE]
  split_ifs <;> omega

theorem roundsTo_le {days : ℤ} (h : target < t + days * MS_PER_DAY) (hdays : 0 < days) :
    roundsTo offset t target ≤ 24 * days + 122 := by
  unfold roundsTo
  simp only [MS_PER_DAY, MS_PER_HOUR, MS_PER_MINUTE] at h ⊢
  split_ifs <;> omega

/-- **A move makes the bound smaller.**  An hour that matches has a minute that does, so the minutes
are gone through from the beginning of an hour only if the run is in this hour. -/
theorem roundsTo_advance (hminutes : ∃ v ∈ expr.minutes, v ≤ 59)
    (haligned : (t + offset) % MS_PER_MINUTE = 0)
    (hleast : ∀ s, t ≤ s → (s + offset) % MS_PER_MINUTE = 0 →
      Satisfies (fixed offset) expr s → target ≤ s)
    (h : advance (fixed offset) expr t = some next) (hnext : next ≤ target) :
    roundsTo offset next target + 1 ≤ roundsTo offset t target := by
  have hforward := moved_forward h
  cases moved_of_advance h with
  | month _ heq | day _ heq =>
    unfold roundsTo
    simp only [MS_PER_DAY, MS_PER_HOUR, MS_PER_MINUTE] at heq haligned hforward ⊢
    split_ifs <;> omega
  | hour _ heq =>
    unfold roundsTo
    simp only [MS_PER_HOUR, MS_PER_MINUTE] at heq haligned hforward ⊢
    split_ifs <;> omega
  | minute hmonth hday hhour _ heq =>
    have hstart : (t + offset) % MS_PER_HOUR = 0 →
        (t + offset) / MS_PER_HOUR = (target + offset) / MS_PER_HOUR := by
      intro hzero
      obtain ⟨v, hv, hle⟩ := hminutes
      have hwithin : (v : ℤ) ≤ 59 := by exact_mod_cast hle
      have hsame : (t + v * MS_PER_MINUTE + offset) / MS_PER_DAY = (t + offset) / MS_PER_DAY := by
        simp only [MS_PER_DAY, MS_PER_HOUR, MS_PER_MINUTE] at hzero ⊢
        omega
      have hhours : (fixed offset).getHours (t + v * MS_PER_MINUTE) =
          (fixed offset).getHours t := by
        simp only [getHours, fixed, MS_PER_DAY, MS_PER_HOUR, MS_PER_MINUTE] at hzero ⊢
        omega
      have hvalue : ((fixed offset).getMinutes (t + v * MS_PER_MINUTE)).toNat = v := by
        simp only [getMinutes, fixed, MS_PER_HOUR, MS_PER_MINUTE] at hzero ⊢
        omega
      have hrun : Satisfies (fixed offset) expr (t + v * MS_PER_MINUTE) := {
        month := by
          rw [getMonth, show (fixed offset).localDay (t + v * MS_PER_MINUTE) =
            (fixed offset).localDay t from hsame]
          exact hasValue_iff.1 hmonth
        day := (dayMatches_iff.1 hday).of_localDay hsame.symm
        hour := hhours ▸ hasValue_iff.1 hhour
        minute := hvalue.symm ▸ hv }
      have hfirst := hleast _ (by simp only [MS_PER_MINUTE]; omega)
        (by simp only [MS_PER_MINUTE] at haligned ⊢; omega) hrun
      simp only [MS_PER_HOUR, MS_PER_MINUTE] at hzero hfirst ⊢
      omega
    unfold roundsTo
    simp only [MS_PER_HOUR, MS_PER_MINUTE] at heq haligned hforward hstart ⊢
    split_ifs <;> omega

/-! ### The search -/

theorem searchRun_sound {deadlineMs : ℤ} {rounds : ℕ} {date found : ℤ}
    (haligned : (date + offset) % MS_PER_MINUTE = 0)
    (h : searchRun (fixed offset) expr deadlineMs rounds date = some found) :
    date ≤ found ∧ (found + offset) % MS_PER_MINUTE = 0 ∧
      Satisfies (fixed offset) expr found ∧ found ≤ deadlineMs := by
  induction rounds generalizing date with
  | zero => cases h
  | succ rounds ih =>
    unfold searchRun at h
    split_ifs at h with hdeadline
    cases hadvance : advance (fixed offset) expr date with
    | none =>
      rw [hadvance] at h
      cases h
      exact ⟨Int.le_refl _, haligned, advance_eq_none.1 hadvance, hdeadline⟩
    | some next =>
      rw [hadvance] at h
      obtain ⟨hlater, hnext⟩ := moved_forward hadvance
      obtain ⟨hle, hfound⟩ := ih hnext h
      exact ⟨hlater.le.trans hle, hfound⟩

/-- **The first run is found** with enough rounds. -/
theorem searchRun_eq_some (hminutes : ∃ v ∈ expr.minutes, v ≤ 59) {deadlineMs : ℤ}
    (htarget : Satisfies (fixed offset) expr target) (hdeadline : target ≤ deadlineMs)
    {rounds : ℕ} {date : ℤ} (haligned : (date + offset) % MS_PER_MINUTE = 0)
    (hle : date ≤ target) (hleast : ∀ s, date ≤ s → (s + offset) % MS_PER_MINUTE = 0 →
      Satisfies (fixed offset) expr s → target ≤ s)
    (hrounds : roundsTo offset date target ≤ rounds) :
    searchRun (fixed offset) expr deadlineMs rounds date = some target := by
  induction rounds generalizing date with
  | zero =>
    have hpos : 1 ≤ roundsTo offset date target := one_le_roundsTo hle
    omega
  | succ rounds ih =>
    unfold searchRun
    rw [if_pos (hle.trans hdeadline)]
    cases hadvance : advance (fixed offset) expr date with
    | none =>
      have hfirst := hleast date (Int.le_refl _) haligned (advance_eq_none.1 hadvance)
      exact congrArg some (Int.le_antisymm hle hfirst)
    | some next =>
      obtain ⟨hlater, hnext⟩ := moved_forward hadvance
      have hreached := le_of_advance hadvance htarget hle
      have hless := roundsTo_advance hminutes haligned hleast hadvance hreached
      exact ih hnext hreached (fun s hs => hleast s (hlater.le.trans hs)) (by omega)

/-- **After 400 years the runs come again.** -/
theorem Satisfies.cycle (h : Satisfies (fixed offset) expr t) :
    Satisfies (fixed offset) expr (t - LibCalendar.cycle * MS_PER_DAY) := by
  have hday : (t - LibCalendar.cycle * MS_PER_DAY + offset) / MS_PER_DAY + LibCalendar.cycle =
      (t + offset) / MS_PER_DAY := by
    simp only [LibCalendar.cycle, MS_PER_DAY]
    omega
  obtain ⟨hmonth, hdate, hweek⟩ :=
    parts_cycle ((t - LibCalendar.cycle * MS_PER_DAY + offset) / MS_PER_DAY)
  rw [hday] at hmonth hdate hweek
  have hhours : (fixed offset).getHours (t - LibCalendar.cycle * MS_PER_DAY) =
      (fixed offset).getHours t := by
    simp only [getHours, fixed, LibCalendar.cycle, MS_PER_DAY, MS_PER_HOUR]
    omega
  have hmins : (fixed offset).getMinutes (t - LibCalendar.cycle * MS_PER_DAY) =
      (fixed offset).getMinutes t := by
    simp only [getMinutes, fixed, LibCalendar.cycle, MS_PER_DAY, MS_PER_HOUR, MS_PER_MINUTE]
    omega
  have hgetMonth : (fixed offset).getMonth (t - LibCalendar.cycle * MS_PER_DAY) =
      (fixed offset).getMonth t := hmonth.symm
  have hgetDate : (fixed offset).getDate (t - LibCalendar.cycle * MS_PER_DAY) =
      (fixed offset).getDate t := hdate.symm
  have hgetDay : (fixed offset).getDay (t - LibCalendar.cycle * MS_PER_DAY) =
      (fixed offset).getDay t := hweek.symm
  refine ⟨hgetMonth ▸ h.month, ?_, hhours ▸ h.hour, hmins ▸ h.minute⟩
  have hrule := h.day
  unfold DaySatisfied at hrule ⊢
  rwa [hgetDate, hgetDay]

theorem firstCandidate_fixed (offset fromMs : ℤ) :
    (firstCandidate (fixed offset) fromMs + offset) % MS_PER_MINUTE = 0 ∧
      ∀ t, (t + offset) % MS_PER_MINUTE = 0 →
        (fromMs < t ↔ firstCandidate (fixed offset) fromMs ≤ t) := by
  simp only [firstCandidate, startOfMinute, fixed, MS_PER_MINUTE]
  refine ⟨by omega, fun t ht => ⟨fun h => by omega, fun h => by omega⟩⟩

/-- **The first run is not farther away than 400 years.** -/
theorem lt_cycle_of_least {start : ℤ} (haligned : (target + offset) % MS_PER_MINUTE = 0)
    (htarget : Satisfies (fixed offset) expr target)
    (hleast : ∀ s, start ≤ s → (s + offset) % MS_PER_MINUTE = 0 →
      Satisfies (fixed offset) expr s → target ≤ s) :
    target < start + cycle * MS_PER_DAY := by
  by_contra hfar
  have hearlier := hleast (target - cycle * MS_PER_DAY) (by omega) (by
    simp only [cycle, MS_PER_DAY, MS_PER_MINUTE] at haligned ⊢
    omega) htarget.cycle
  simp only [cycle, MS_PER_DAY] at hearlier
  omega

/-- **The search gives the first run.** -/
theorem nextRunWithinMinutes_eq_some (hminutes : ∃ v ∈ expr.minutes, v ≤ 59)
    {fromMs capMinutes : ℤ} :
    nextRunWithinMinutes (fixed offset) expr fromMs capMinutes = some next ↔
      IsLeast (cronRuns (fixed offset) expr fromMs (fromMs + capMinutes * MS_PER_MINUTE)) next := by
  obtain ⟨halign, hstart⟩ := firstCandidate_fixed offset fromMs
  have hfind : ∀ {target : ℤ},
      IsLeast (cronRuns (fixed offset) expr fromMs (fromMs + capMinutes * MS_PER_MINUTE)) target →
      nextRunWithinMinutes (fixed offset) expr fromMs capMinutes = some target := by
    rintro target ⟨⟨hlater, haligned, htarget, hdeadline⟩, hbound⟩
    have hleast : ∀ s, firstCandidate (fixed offset) fromMs ≤ s →
        (s + offset) % MS_PER_MINUTE = 0 → Satisfies (fixed offset) expr s →
        target ≤ s := by
      intro s hs hsaligned hsat
      by_contra hlt
      exact hlt (hbound ⟨(hstart s hsaligned).2 hs, hsaligned, hsat, by omega⟩)
    have hle := (hstart target haligned).1 hlater
    have hnear := lt_cycle_of_least haligned htarget hleast
    have hrounds : roundsTo offset (firstCandidate (fixed offset) fromMs) target ≤
        24 * cycle + 122 := roundsTo_le hnear (by decide)
    refine searchRun_eq_some hminutes htarget hdeadline halign hle hleast (hrounds.trans ?_)
    decide
  refine ⟨fun h => ?_, hfind⟩
  -- what is found is a run, so there is a first one, and that is found
  obtain ⟨hle, haligned, hsat, hdeadline⟩ := searchRun_sound halign h
  have hrun : next ∈ cronRuns (fixed offset) expr fromMs (fromMs + capMinutes * MS_PER_MINUTE) :=
    ⟨(hstart next haligned).2 hle, haligned, hsat, hdeadline⟩
  obtain ⟨least, hmem, hbound⟩ := Int.exists_least_of_bdd
    (P := (· ∈ cronRuns (fixed offset) expr fromMs (fromMs + capMinutes * MS_PER_MINUTE)))
    ⟨fromMs, fun t ht => ht.1.le⟩ ⟨next, hrun⟩
  have hleast : IsLeast (cronRuns (fixed offset) expr fromMs
      (fromMs + capMinutes * MS_PER_MINUTE)) least := ⟨hmem, fun t ht => hbound t ht⟩
  rw [hfind hleast] at h
  exact Option.some.inj h ▸ hleast

end Fixed

theorem minutes_of_parse {raw : String}
    (h : parseCronExpression raw = .ok expr) : ∃ v ∈ expr.minutes, v ≤ 59 := by
  obtain ⟨f, htext, hvalid, rfl⟩ := parseCronExpression_eq_ok.1 h
  obtain ⟨minField, _, _, _, _, -, hminutes, -⟩ := htext
  obtain ⟨t, ht⟩ := List.exists_mem_of_ne_nil f.minutes hminutes.1
  obtain ⟨v, hv⟩ := List.exists_mem_of_ne_nil _
    (CronTerm.values_ne_nil (by decide) (hvalid.minutes t ht))
  exact ⟨v, mem_addValues_empty.2 ⟨t, ht, CronTerm.mem_values.1 hv⟩,
    CronTerm.le_max (hvalid.minutes t ht) (CronTerm.mem_values.1 hv)⟩

/-- **The next run is the first one** behind the start and up to the deadline, and there is none
exactly when none is found. -/
theorem nextRunWithinMinutes_least {raw : String} {expr : ParsedCronExpression}
    (h : parseCronExpression raw = .ok expr) (offset fromMs capMinutes : ℤ) :
    (∀ next, nextRunWithinMinutes (TimeZone.fixed offset) expr fromMs capMinutes = some next ↔
      IsLeast (cronRuns (TimeZone.fixed offset) expr fromMs (fromMs + capMinutes * MS_PER_MINUTE))
        next) ∧
    (nextRunWithinMinutes (TimeZone.fixed offset) expr fromMs capMinutes = none ↔
      cronRuns (TimeZone.fixed offset) expr fromMs (fromMs + capMinutes * MS_PER_MINUTE) = ∅) := by
  have hminutes := minutes_of_parse h
  refine ⟨fun next => nextRunWithinMinutes_eq_some hminutes, ?_⟩
  constructor
  · intro hnone
    rw [Set.eq_empty_iff_forall_notMem]
    intro t ht
    obtain ⟨least, hmem, hbound⟩ := Int.exists_least_of_bdd
      (P := (· ∈ cronRuns (TimeZone.fixed offset) expr fromMs (fromMs + capMinutes * MS_PER_MINUTE)))
      ⟨fromMs, fun t ht => ht.1.le⟩ ⟨t, ht⟩
    have hleast : IsLeast (cronRuns (TimeZone.fixed offset) expr fromMs
        (fromMs + capMinutes * MS_PER_MINUTE)) least := ⟨hmem, fun t ht => hbound t ht⟩
    rw [(nextRunWithinMinutes_eq_some hminutes).2 hleast] at hnone
    cases hnone
  · intro hempty
    rw [Option.eq_none_iff_forall_ne_some]
    intro next hnext
    have hmem := ((nextRunWithinMinutes_eq_some hminutes).1 hnext).1
    rw [hempty] at hmem
    exact hmem

/-- The first 29th of February. -/
theorem nextRun_leapDay : ∃ expr, parseCronExpression "0 0 29 2 *" = .ok expr ∧
    IsLeast (cronRuns (TimeZone.fixed 3600000) expr 0 (0 + 5 * 366 * 24 * 60 * MS_PER_MINUTE))
      68166000000 := by
  have hnext : ((parseCronExpression "0 0 29 2 *").toOption.bind fun expr =>
      nextRunWithinMinutes (TimeZone.fixed 3600000) expr 0 (5 * 366 * 24 * 60)) =
      some 68166000000 := by
    decide +kernel
  cases hparse : parseCronExpression "0 0 29 2 *" with
  | error message =>
    rw [hparse] at hnext
    cases hnext
  | ok expr =>
    rw [hparse] at hnext
    exact ⟨expr, rfl, ((nextRunWithinMinutes_least hparse 3600000 0 _).1 _).1 hnext⟩

end NoriCode
