/-
**The deliveries of a cron task and the calendar.**

At a fixed offset from UTC, the deliveries of a task count the minutes that its expression allows:
each of them once, from its creation to the last that was counted.

Main definitions:

* `CountsCalendar` — deliveries count the calendar.

Main results:

* `deliveries_countCalendar` — **they do**, in every run of the scheduler.
-/

import Mathlib.Data.Set.Card
import NoriCode.CronDeliveries
import NoriCode.CronSearch

namespace NoriCode

open LibOccurrences List TimeZone

/-- **The deliveries of a task count the calendar**: the minutes that its expression allows, and how
many they are. -/
structure CountsCalendar (env : CronEnv) (task : CronTask) (ds : List CronDelivery)
    (expr : ParsedCronExpression) : Prop where
  parsed : parseCronExpression task.cron = .ok expr
  runs : ∀ t, t ∈ countedRuns ds ↔
    t ∈ cronRuns env.zone expr task.createdAt ((countedRuns ds).getLastD task.createdAt)
  count : (ds.map (·.coalescedCount)).sum =
    (cronRuns env.zone expr task.createdAt ((countedRuns ds).getLastD task.createdAt)).ncard

variable {env : CronEnv} {offset : ℤ}

theorem computeNextCronRun_least {raw : String} {expr : ParsedCronExpression}
    (h : parseCronExpression raw = .ok expr) {a b : ℤ}
    (hnext : computeNextCronRun (fixed offset) expr a = some b) :
    IsLeast {t | a < t ∧ (fixed offset).localTime t % MS_PER_MINUTE = 0 ∧
      Satisfies (fixed offset) expr t} b := by
  obtain ⟨⟨hlater, haligned, hsat, hdeadline⟩, hbound⟩ :=
    (nextRunWithinMinutes_eq_some (minutes_of_parse h)).1 hnext
  refine ⟨⟨hlater, haligned, hsat⟩, fun t ⟨hlt, hminute, ht⟩ => ?_⟩
  by_contra hearlier
  exact hearlier (hbound ⟨hlt, hminute, ht, by omega⟩)

theorem DeliveriesOf.countsCalendar (hzone : env.zone = fixed offset) {task : CronTask}
    {ds : List CronDelivery} (h : DeliveriesOf env task ds) {expr : ParsedCronExpression}
    (hparse : parseCronExpression task.cron = .ok expr) : CountsCalendar env task ds expr := by
  have hruns : ∀ t, t ∈ countedRuns ds ↔
      t ∈ cronRuns env.zone expr task.createdAt ((countedRuns ds).getLastD task.createdAt) := by
    intro t
    have hnext : ∀ a b, nextRun env task.cron a = some b → IsLeast {t | a < t ∧
        t ∈ {t | env.zone.localTime t % MS_PER_MINUTE = 0 ∧ Satisfies env.zone expr t}} b := by
      intro a b hab
      rw [nextRun_of_parse hparse, hzone] at hab
      rw [hzone]
      exact computeNextCronRun_least hparse hab
    have hmem := mem_occurrences_iff (n := (countedRuns ds).length) (t := task.createdAt)
      (o := t) hnext
    rw [← h.runs] at hmem
    rw [hmem]
    exact ⟨fun ⟨hlt, hle, hminute, hsat⟩ => ⟨hlt, hminute, hsat, hle⟩,
      fun ⟨hlt, hminute, hsat, hle⟩ => ⟨hlt, hle, hminute, hsat⟩⟩
  refine ⟨hparse, hruns, ?_⟩
  have hset : cronRuns env.zone expr task.createdAt
      ((countedRuns ds).getLastD task.createdAt) = (countedRuns ds).toFinset := by
    ext t
    rw [← hruns, Finset.mem_coe, mem_toFinset]
  rw [hset, Set.ncard_coe_finset, toFinset_card_of_nodup (h.increasing.imp ne_of_lt), countedRuns,
    length_flatMap]
  exact congrArg sum (map_congr_left fun d hd => (h.counts d hd).1.symm)

/-- **Whatever has been delivered counts the calendar**, at a fixed offset from UTC. -/
theorem deliveries_countCalendar (hzone : env.zone = fixed offset) {now : ℤ}
    {steps : List CronRuntimeStep} {s : CronRuntime}
    (h : LibRun.Run (CronRuntime.step env) CronRuntime.Orderly (.start now) steps s) {id : String}
    {d : CronDelivery} (hd : d ∈ s.delivered id) :
    ∃ expr, CountsCalendar env d.task (s.delivered id) expr := by
  have hlater : ∀ cron, RunsLater env cron :=
    runsLater_of_neverSetBack (hzone ▸ fixed_neverSetBack offset)
  have hkeeping : CronRuntime.Keeping env s :=
    h.invariant (CronRuntime.start_keeping env now) fun _ _ _ ht hok hu =>
      ht.step (fun init _ _ => hlater init.cron) hok hu
  obtain hnone | ⟨task, -, hds⟩ := hkeeping.deliveries id
  · rw [hnone] at hd
    cases hd
  · have hof := hds.congr (hds.ofTask d hd)
    obtain ⟨hlength, hpos, -⟩ := hof.counts d hd
    obtain ⟨run, hrun⟩ := exists_mem_of_length_pos (hlength ▸ hpos)
    obtain ⟨expr, hparse, -⟩ := hof.reached d hd run hrun
    exact ⟨expr, hof.countsCalendar hzone hparse⟩

theorem deliveries_countCalendar_busyThenRestart : ∃ (s : CronRuntime) (d : CronDelivery),
    d ∈ s.delivered "0000000a" ∧ d.coalescedCount = 2 ∧
      ∃ expr, CountsCalendar utcEnv d.task (s.delivered "0000000a") expr := by
  obtain ⟨s, hs, hcount⟩ : ∃ s, LibRun.Run (CronRuntime.step utcEnv) CronRuntime.Orderly (.start 0)
      busyThenRestart s ∧ ∃ d ∈ s.delivered "0000000a", d.coalescedCount = 2 :=
    LibRun.exists_run (by decide +kernel) (by decide +kernel)
  obtain ⟨d, hd, htwo⟩ := hcount
  exact ⟨s, d, hd, htwo, deliveries_countCalendar rfl hs hd⟩

end NoriCode
