/-
**The next run is later.**

The search for the next run begins behind its start, and every move of the date is one forward, as
long as the clocks of the time zone are not set back.

Main definitions:

* `TimeZone.NeverSetBack` — the zones whose clocks are not set back.

Main results:

* `computeNextCronRun_lt` — **the next run is later**.
-/

import NoriCode.CronExpr

namespace NoriCode

open LibCalendar

namespace TimeZone

/-- **The clocks are never set back.**  Local time passes at least as fast as time does; a local
time that is not earlier than the one of an instant does not stand for an earlier instant; and a
local time that is skipped stands for an instant with a later one. -/
structure NeverSetBack (zone : TimeZone) : Prop where
  passes : ∀ t s, 0 ≤ s → zone.localTime t + s ≤ zone.localTime (t + s)
  le_utc : ∀ t l, zone.localTime t ≤ l → t ≤ zone.utc l
  le_local : ∀ l, l ≤ zone.localTime (zone.utc l)

theorem fixed_neverSetBack (offset : ℤ) : NeverSetBack (fixed offset) := by
  refine ⟨fun t s _ => ?_, fun t l h => ?_, fun l => ?_⟩
  · simp only [fixed]
    omega
  · simp only [fixed] at h ⊢
    omega
  · simp only [fixed]
    omega

variable {zone : TimeZone}

theorem NeverSetBack.le_advanceMinute (h : NeverSetBack zone) (date : ℤ) :
    date ≤ zone.advanceMinute date := by
  refine h.le_utc _ _ ?_
  have hstart := h.le_local (zone.localTime date - zone.localTime date % MS_PER_MINUTE)
  simp only [getMinutes, startOfMinute, MS_PER_HOUR, MS_PER_MINUTE] at hstart ⊢
  omega

theorem NeverSetBack.le_advanceHour (h : NeverSetBack zone) (date : ℤ) :
    date ≤ zone.advanceHour date := by
  refine h.le_utc _ _ ?_
  have hstart := h.le_local (zone.localTime date - zone.localTime date % MS_PER_HOUR)
  simp only [getHours, startOfHour, localDay, MS_PER_DAY, MS_PER_HOUR] at hstart ⊢
  omega

theorem NeverSetBack.le_advanceDay (h : NeverSetBack zone) (date : ℤ) :
    date ≤ zone.advanceDay date := by
  refine h.le_utc _ _ ?_
  have hstart := h.le_local (zone.localDay date * MS_PER_DAY)
  have hday := makeDay_parts (zone.localDay (zone.startOfDay date))
  rw [makeDay_add] at hday
  rw [makeDay_add, getDate]
  simp only [startOfDay, localDay, MS_PER_DAY] at hstart hday ⊢
  omega

theorem localTime_eq (zone : TimeZone) (date : ℤ) : zone.localTime date =
    zone.localDay date * MS_PER_DAY + zone.localTime date % MS_PER_DAY := by
  simp only [localDay, MS_PER_DAY]
  omega

theorem le_localDay {date day : ℤ} (h : day * MS_PER_DAY ≤ zone.localTime date) :
    day ≤ zone.localDay date := by
  simp only [localDay, MS_PER_DAY] at h ⊢
  omega

theorem timeOfDay_bounds (zone : TimeZone) (date : ℤ) :
    0 ≤ zone.localTime date % MS_PER_DAY ∧ zone.localTime date % MS_PER_DAY < MS_PER_DAY :=
  ⟨Int.emod_nonneg _ (by decide), Int.emod_lt_of_pos _ (by decide)⟩

/-- The first of the next month is later, whatever the clocks do on the first of this one. -/
theorem NeverSetBack.le_advanceMonth (h : NeverSetBack zone) (date : ℤ) :
    date ≤ zone.advanceMonth date := by
  refine h.le_utc _ _ ?_
  set first := zone.setDate date 1
  set start := zone.startOfDay first
  have htime := timeOfDay_bounds zone date
  have hfirst : makeDay (yearFromDay (zone.localDay date)) (monthFromDay (zone.localDay date)) 1 ≤
      zone.localDay first := by
    refine le_localDay (le_trans ?_ (h.le_local _))
    omega
  have hstart : zone.localDay first ≤ zone.localDay start :=
    le_localDay (h.le_local (zone.localDay first * MS_PER_DAY))
  have hnext := makeDay_nextMonth_mono (hfirst.trans hstart)
  have hlater := lt_makeDay_nextMonth (zone.localDay date) (Int.le_refl 1)
  have hdate := one_le_dateFromDay (zone.localDay start)
  have hstartTime := timeOfDay_bounds zone start
  have hparts := localTime_eq zone date
  rw [makeDay_add, getMonth]
  simp only [MS_PER_DAY] at hparts htime hstartTime ⊢
  omega

end TimeZone

/-! ### The search -/

section Search

variable {zone : TimeZone} {expr : ParsedCronExpression}

theorem le_advance (h : zone.NeverSetBack) {date next : ℤ}
    (hnext : advance zone expr date = some next) : date ≤ next := by
  unfold advance at hnext
  split_ifs at hnext
  · exact Option.some.inj hnext ▸ h.le_advanceMonth date
  · exact Option.some.inj hnext ▸ h.le_advanceDay date
  · exact Option.some.inj hnext ▸ h.le_advanceHour date
  · exact Option.some.inj hnext ▸ h.le_advanceMinute date

theorem le_searchRun (h : zone.NeverSetBack) {deadlineMs : ℤ} {rounds : ℕ} {date found : ℤ}
    (hfound : searchRun zone expr deadlineMs rounds date = some found) : date ≤ found := by
  induction rounds generalizing date with
  | zero => cases hfound
  | succ rounds ih =>
    unfold searchRun at hfound
    split_ifs at hfound
    cases hadvance : advance zone expr date with
    | none =>
      rw [hadvance] at hfound
      exact (Option.some.inj hfound).le
    | some next =>
      rw [hadvance] at hfound
      exact (le_advance h hadvance).trans (ih hfound)

theorem lt_firstCandidate (h : zone.NeverSetBack) (fromMs : ℤ) :
    fromMs < firstCandidate zone fromMs := by
  have hseconds : 0 ≤ zone.localTime fromMs % MS_PER_MINUTE := Int.emod_nonneg _ (by decide)
  have hless : zone.localTime fromMs % MS_PER_MINUTE < MS_PER_MINUTE :=
    Int.emod_lt_of_pos _ (by decide)
  have hpasses := h.passes (fromMs - zone.localTime fromMs % MS_PER_MINUTE) _ hseconds
  rw [Int.sub_add_cancel] at hpasses
  have hstart := h.le_utc (fromMs - zone.localTime fromMs % MS_PER_MINUTE)
    (zone.localTime fromMs - zone.localTime fromMs % MS_PER_MINUTE) (by omega)
  unfold firstCandidate TimeZone.startOfMinute
  omega

/-- **The next run is later**, where the clocks are not set back. -/
theorem computeNextCronRun_lt (h : zone.NeverSetBack) {fromMs next : ℤ}
    (hnext : computeNextCronRun zone expr fromMs = some next) : fromMs < next :=
  (lt_firstCandidate h fromMs).trans_le (le_searchRun h hnext)

end Search

end NoriCode
