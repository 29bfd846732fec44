/-
**The calendar by day numbers.**

Days are numbered from the first of January 1970, in both directions, and the Gregorian rule for
leap years holds for all of them.  A day number is taken apart into a year, a month from 0 to 11 and
a day of the month from 1, and put together again; a month beyond the year, or a day beyond the
month, is carried over.

Main definitions:

* `LibCalendar.dayFromYear` — the first day of a year;
* `LibCalendar.yearFromDay`, `LibCalendar.monthFromDay`, `LibCalendar.dateFromDay`,
  `LibCalendar.weekDay` — the parts of a day;
* `LibCalendar.makeDay` — the day with these parts.

Main results:

* `LibCalendar.makeDay_parts` — a day is put together from its parts;
* `LibCalendar.lt_makeDay_nextMonth`, `LibCalendar.makeDay_nextMonth_mono` — the next month is
  later, and the months follow each other;
* `LibCalendar.month_eq`, `LibCalendar.firstOfMonth` — the days of a month;
* `LibCalendar.parts_cycle` — the calendar comes again after 400 years.
-/

import Mathlib.Tactic.IntervalCases
import Mathlib.Tactic.Linarith

namespace LibCalendar

/-! ### Years -/

/-- The first day of a year. -/
def dayFromYear (y : ℤ) : ℤ :=
  365 * (y - 1970) + (y - 1969) / 4 - (y - 1901) / 100 + (y - 1601) / 400

/-- The last year that has begun: the mean year is off by one at most. -/
def yearFromDay (d : ℤ) : ℤ :=
  let y := 1970 + 400 * d / 146097
  if dayFromYear (y + 1) ≤ d then y + 1
  else if dayFromYear y ≤ d then y
  else y - 1

variable (d : ℤ)

theorem dayFromYear_le : dayFromYear (yearFromDay d) ≤ d := by
  unfold yearFromDay
  dsimp only
  split_ifs with hnext hthis
  · exact hnext
  · exact hthis
  · unfold dayFromYear
    omega

theorem lt_dayFromYear : d < dayFromYear (yearFromDay d + 1) := by
  unfold yearFromDay
  dsimp only
  split_ifs with hnext hthis
  · unfold dayFromYear
    omega
  · exact not_le.1 hnext
  · rw [Int.sub_add_cancel]
    exact not_le.1 hthis

theorem dayFromYear_mono {y z : ℤ} (h : y ≤ z) : dayFromYear y ≤ dayFromYear z := by
  unfold dayFromYear
  omega

/-- **The year is the one the day is in.** -/
theorem yearFromDay_eq {d y : ℤ} (hstart : dayFromYear y ≤ d) (hend : d < dayFromYear (y + 1)) :
    yearFromDay d = y := by
  have hle := dayFromYear_le d
  have hlt := lt_dayFromYear d
  rcases lt_trichotomy (yearFromDay d) y with hbefore | heq | hafter
  · have hmono := dayFromYear_mono (show yearFromDay d + 1 ≤ y by omega)
    omega
  · exact heq
  · have hmono := dayFromYear_mono (show y + 1 ≤ yearFromDay d by omega)
    omega

/-- One in a leap year. -/
def leap (y : ℤ) : ℤ := dayFromYear (y + 1) - dayFromYear y - 365

theorem leap_eq (y : ℤ) : leap y = 0 ∨ leap y = 1 := by
  unfold leap dayFromYear
  omega

/-! ### Months -/

/-- The first day of a month in its year; a month from 12 on is behind the year. -/
def monthStart (l month : ℤ) : ℤ :=
  [0, 31, 59, 90, 120, 151, 181, 212, 243, 273, 304, 334].getD month.toNat 365 +
    if 2 ≤ month then l else 0

theorem monthStart_le_succ (y : ℤ) (month : ℕ) :
    monthStart (leap y) month ≤ monthStart (leap y) (month + 1) := by
  rcases Nat.lt_or_ge month 12 with hlt | hge
  · have hleap := leap_eq y
    interval_cases month <;> simp [monthStart]
    -- only the second month has a length that depends on the year
    omega
  · have hfirst : (2 : ℤ) ≤ month := by omega
    have hsecond : (2 : ℤ) ≤ month + 1 := by omega
    have htable : ∀ n : ℕ, 12 ≤ n →
        [0, 31, 59, 90, 120, 151, 181, 212, 243, 273, 304, 334].getD n (365 : ℤ) = 365 := by
      intro n hn
      rw [List.getD_eq_getElem?_getD, List.getElem?_eq_none (by simpa using hn)]
      rfl
    have htoNat : ((month : ℤ) + 1).toNat = month + 1 := by omega
    unfold monthStart
    rw [if_pos hfirst, if_pos hsecond, Int.toNat_natCast, htoNat, htable month hge,
      htable (month + 1) (by omega)]

theorem monthStart_mono (y : ℤ) {m n : ℤ} (hm : 0 ≤ m) (h : m ≤ n) :
    monthStart (leap y) m ≤ monthStart (leap y) n := by
  obtain ⟨k, rfl⟩ := Int.eq_ofNat_of_zero_le hm
  obtain ⟨j, hj⟩ := Int.eq_ofNat_of_zero_le (sub_nonneg.2 h)
  obtain rfl : n = ((k + j : ℕ) : ℤ) := by push_cast; omega
  clear hj h hm
  induction j with
  | zero => exact Int.le_refl _
  | succ j ih => exact ih.trans (monthStart_le_succ y (k + j))

def dayWithinYear (d : ℤ) : ℤ := d - dayFromYear (yearFromDay d)

theorem dayWithinYear_nonneg : 0 ≤ dayWithinYear d := by
  have h := dayFromYear_le d
  unfold dayWithinYear
  omega

theorem dayWithinYear_lt : dayWithinYear d < 365 + leap (yearFromDay d) := by
  have h := lt_dayFromYear d
  unfold dayWithinYear leap
  omega

/-- The last month up to this one that has begun on a day of the year. -/
def monthWithinYear (l n : ℤ) : ℕ → ℤ
  | 0 => 0
  | month + 1 => if monthStart l (month + 1) ≤ n then month + 1 else monthWithinYear l n month

/-- The month, from 0 to 11. -/
def monthFromDay (d : ℤ) : ℤ := monthWithinYear (leap (yearFromDay d)) (dayWithinYear d) 11

/-- **The month is the one the day is in.** -/
theorem monthWithinYear_spec {l n : ℤ} (hn : 0 ≤ n) (last : ℕ)
    (hlast : n < monthStart l (last + 1)) :
    0 ≤ monthWithinYear l n last ∧ monthWithinYear l n last ≤ last ∧
      monthStart l (monthWithinYear l n last) ≤ n ∧
        n < monthStart l (monthWithinYear l n last + 1) := by
  induction last with
  | zero => exact ⟨Int.le_refl 0, Int.le_refl 0, hn, hlast⟩
  | succ last ih =>
    unfold monthWithinYear
    split_ifs with hbegun
    · refine ⟨by omega, by push_cast; exact Int.le_refl _, hbegun, ?_⟩
      push_cast at hlast
      exact hlast
    · obtain ⟨hnonneg, hle, hstart, hend⟩ := ih (not_le.1 hbegun)
      exact ⟨hnonneg, by push_cast; omega, hstart, hend⟩

theorem monthWithinYear_eq (y : ℤ) {n month : ℤ} (hn : 0 ≤ n) {last : ℕ}
    (hlast : n < monthStart (leap y) (last + 1)) (hmonth : 0 ≤ month)
    (hstart : monthStart (leap y) month ≤ n) (hend : n < monthStart (leap y) (month + 1)) :
    monthWithinYear (leap y) n last = month := by
  obtain ⟨hnonneg, -, hle, hlt⟩ := monthWithinYear_spec hn last hlast
  rcases lt_trichotomy (monthWithinYear (leap y) n last) month with hbefore | heq | hafter
  · have hmono := monthStart_mono y (show 0 ≤ monthWithinYear (leap y) n last + 1 by omega)
      (show monthWithinYear (leap y) n last + 1 ≤ month by omega)
    omega
  · exact heq
  · have hmono := monthStart_mono y (show 0 ≤ month + 1 by omega)
      (show month + 1 ≤ monthWithinYear (leap y) n last by omega)
    omega

/-! ### Days -/

/-- The day of the month, from 1. -/
def dateFromDay (d : ℤ) : ℤ :=
  dayWithinYear d - monthStart (leap (yearFromDay d)) (monthFromDay d) + 1

/-- The day of the week, from Sunday. -/
def weekDay (d : ℤ) : ℤ := (d + 4) % 7

/-- The day of a year, a month and a day of the month. -/
def makeDay (year month date : ℤ) : ℤ :=
  let y := year + month / 12
  dayFromYear y + monthStart (leap y) (month % 12) + date - 1

theorem monthFromDay_spec : 0 ≤ monthFromDay d ∧ monthFromDay d ≤ 11 ∧
    monthStart (leap (yearFromDay d)) (monthFromDay d) ≤ dayWithinYear d ∧
      dayWithinYear d < monthStart (leap (yearFromDay d)) (monthFromDay d + 1) := by
  refine monthWithinYear_spec (dayWithinYear_nonneg d) 11 ?_
  have hlast : monthStart (leap (yearFromDay d)) 12 = 365 + leap (yearFromDay d) := rfl
  have hlt := dayWithinYear_lt d
  rw [← hlast] at hlt
  exact hlt

theorem one_le_dateFromDay : 1 ≤ dateFromDay d := by
  have h := (monthFromDay_spec d).2.2.1
  unfold dateFromDay
  omega

theorem makeDay_add (year month date : ℤ) :
    makeDay year month date = makeDay year month 1 + (date - 1) := by
  unfold makeDay
  dsimp only
  omega

theorem makeDay_of_lt {year month date : ℤ} (hmonth : 0 ≤ month) (hlast : month ≤ 11) :
    makeDay year month date = dayFromYear year + monthStart (leap year) month + date - 1 := by
  have hdiv : month / 12 = 0 := by omega
  have hmod : month % 12 = month := by omega
  simp [makeDay, hdiv, hmod]

/-- **A day is put together from its parts.** -/
theorem makeDay_parts : makeDay (yearFromDay d) (monthFromDay d) (dateFromDay d) = d := by
  obtain ⟨hmonth, hlast, -, -⟩ := monthFromDay_spec d
  rw [makeDay_of_lt hmonth hlast]
  unfold dateFromDay dayWithinYear
  omega

/-- The first of the month behind the last one of a year is the first day of the next year. -/
theorem makeDay_december (year date : ℤ) :
    makeDay year 12 date = dayFromYear (year + 1) + date - 1 := by
  have hstart : monthStart (leap (year + 1)) 0 = 0 := rfl
  simp [makeDay, hstart]

/-- **The next month is later**, on each of its days. -/
theorem lt_makeDay_nextMonth {date : ℤ} (hdate : 1 ≤ date) :
    d < makeDay (yearFromDay d) (monthFromDay d + 1) date := by
  obtain ⟨hmonth, hlast, -, hnext⟩ := monthFromDay_spec d
  rcases eq_or_lt_of_le hlast with hdecember | hearlier
  · have hyear := lt_dayFromYear d
    rw [hdecember]
    change d < makeDay (yearFromDay d) 12 date
    rw [makeDay_december]
    omega
  · have hmore : 0 ≤ monthFromDay d + 1 := by omega
    have hless : monthFromDay d + 1 ≤ 11 := by omega
    rw [makeDay_of_lt hmore hless]
    unfold dayWithinYear at hnext
    omega

/-- **A month reaches from its first day** to the first of the next one. -/
theorem month_eq {d p : ℤ} (h : makeDay (yearFromDay d) (monthFromDay d) 1 ≤ p)
    (hnext : p < makeDay (yearFromDay d) (monthFromDay d + 1) 1) :
    yearFromDay p = yearFromDay d ∧ monthFromDay p = monthFromDay d := by
  obtain ⟨hmonth, hlast, -, -⟩ := monthFromDay_spec d
  have hleap := leap_eq (yearFromDay d)
  have hfirst := monthStart_mono (yearFromDay d) (Int.le_refl 0) hmonth
  have hbound := monthStart_mono (yearFromDay d) (show 0 ≤ monthFromDay d + 1 by omega)
    (show monthFromDay d + 1 ≤ 12 by omega)
  have hzero : monthStart (leap (yearFromDay d)) 0 = 0 := rfl
  have htwelve : monthStart (leap (yearFromDay d)) 12 = 365 + leap (yearFromDay d) := rfl
  have hyearLength : dayFromYear (yearFromDay d + 1) =
      dayFromYear (yearFromDay d) + 365 + leap (yearFromDay d) := by
    unfold leap
    omega
  rw [makeDay_of_lt hmonth hlast] at h
  have hbehind : p < dayFromYear (yearFromDay d) +
      monthStart (leap (yearFromDay d)) (monthFromDay d + 1) := by
    rcases eq_or_lt_of_le hlast with hdecember | hearlier
    · rw [hdecember] at hnext ⊢
      change p < makeDay (yearFromDay d) 12 1 at hnext
      rw [makeDay_december] at hnext
      change p < dayFromYear (yearFromDay d) + monthStart (leap (yearFromDay d)) 12
      omega
    · rw [makeDay_of_lt (by omega) (by omega)] at hnext
      omega
  have hyear : yearFromDay p = yearFromDay d := yearFromDay_eq (by omega) (by omega)
  refine ⟨hyear, ?_⟩
  rw [monthFromDay, dayWithinYear, hyear]
  refine monthWithinYear_eq (yearFromDay d) (by omega) ?_ hmonth (by omega) (by omega)
  change p - dayFromYear (yearFromDay d) < monthStart (leap (yearFromDay d)) 12
  omega

theorem makeDay_first_le : makeDay (yearFromDay d) (monthFromDay d) 1 ≤ d := by
  have hdate := one_le_dateFromDay d
  have hparts := makeDay_parts d
  rw [makeDay_add] at hparts
  omega

/-- **The parts of the first of a month.** -/
theorem firstOfMonth :
    yearFromDay (makeDay (yearFromDay d) (monthFromDay d) 1) = yearFromDay d ∧
      monthFromDay (makeDay (yearFromDay d) (monthFromDay d) 1) = monthFromDay d ∧
      dateFromDay (makeDay (yearFromDay d) (monthFromDay d) 1) = 1 := by
  have hnext := lt_makeDay_nextMonth d (Int.le_refl 1)
  obtain ⟨hyear, hmonth⟩ := month_eq (Int.le_refl _) (Int.lt_of_le_of_lt (makeDay_first_le d) hnext)
  refine ⟨hyear, hmonth, ?_⟩
  have hparts := makeDay_parts (makeDay (yearFromDay d) (monthFromDay d) 1)
  rw [hyear, hmonth, makeDay_add] at hparts
  omega

/-- **The months follow each other**: from the first of a month on, the next month begins no earlier
than the one behind that month does. -/
theorem makeDay_nextMonth_mono {d p : ℤ} (h : makeDay (yearFromDay d) (monthFromDay d) 1 ≤ p) :
    makeDay (yearFromDay d) (monthFromDay d + 1) 1 ≤
      makeDay (yearFromDay p) (monthFromDay p + 1) 1 := by
  rcases lt_or_ge p (makeDay (yearFromDay d) (monthFromDay d + 1) 1) with hsame | hlater
  · obtain ⟨hyear, hmonth⟩ := month_eq h hsame
    rw [hyear, hmonth]
  · exact hlater.trans (lt_makeDay_nextMonth p (Int.le_refl 1)).le

/-! ### The cycle of the calendar -/

/-- The days of 400 years. -/
def cycle : ℤ := 146097

theorem dayFromYear_cycle (y : ℤ) : dayFromYear (y + 400) = dayFromYear y + cycle := by
  unfold dayFromYear cycle
  omega

theorem yearFromDay_cycle : yearFromDay (d + cycle) = yearFromDay d + 400 := by
  have hstart := dayFromYear_le d
  have hend := lt_dayFromYear d
  have hyear := dayFromYear_cycle (yearFromDay d)
  have hnext := dayFromYear_cycle (yearFromDay d + 1)
  refine yearFromDay_eq (by omega) ?_
  rw [add_right_comm, hnext]
  omega

theorem leap_cycle (y : ℤ) : leap (y + 400) = leap y := by
  have hyear := dayFromYear_cycle y
  have hnext := dayFromYear_cycle (y + 1)
  unfold leap
  rw [add_right_comm, hnext, hyear]
  omega

theorem dayWithinYear_cycle : dayWithinYear (d + cycle) = dayWithinYear d := by
  unfold dayWithinYear
  rw [yearFromDay_cycle, dayFromYear_cycle]
  omega

/-- **After 400 years** the months, the days of the month and the days of the week come again. -/
theorem parts_cycle : monthFromDay (d + cycle) = monthFromDay d ∧
    dateFromDay (d + cycle) = dateFromDay d ∧ weekDay (d + cycle) = weekDay d := by
  have hmonth : monthFromDay (d + cycle) = monthFromDay d := by
    rw [monthFromDay, yearFromDay_cycle, leap_cycle, dayWithinYear_cycle, ← monthFromDay]
  refine ⟨hmonth, ?_, ?_⟩
  · rw [dateFromDay, dayWithinYear_cycle, yearFromDay_cycle, leap_cycle, hmonth, ← dateFromDay]
  · unfold weekDay cycle
    omega

end LibCalendar
