/-
**Cron expressions.**

An expression has five fields, for the minute, the hour, the day of the month, the month and the day
of the week.  Each is a list of values, ranges and steps, and stands for a set of numbers.  The next
run after an instant is searched for in local time: as long as a part of the date does not match,
the date is moved to the beginning of the next month, day, hour or minute.

The module embeds `tools/cron/cron-expr.ts`, without the description for people.  An instant is a
number of milliseconds; the local time of an instant and the instant of a local time are those of
the time zone, as the dates of the language use them.  The bounds of the language on dates and on
integers are left out.

Main definitions:

* `parseCronExpression` — the parser;
* `TimeZone` — local time, and the parts of a date;
* `computeNextCronRun` — the next run.
-/

import NoriCode.JsText
import NoriCode.LibCalendar
import NoriCode.LibJson
import NoriCode.LibOrdSet

namespace NoriCode

open LibOrdSet LibCalendar

/-! ### The parser -/

structure ParsedCronExpression where
  raw : String
  minutes : OrdSet ℕ
  hours : OrdSet ℕ
  daysOfMonth : OrdSet ℕ
  months : OrdSet ℕ
  daysOfWeek : OrdSet ℕ
  daysOfMonthWildcard : Bool
  daysOfWeekWildcard : Bool

/-- The range of the values of a field, and its name. -/
structure CronField where
  min : ℕ
  max : ℕ
  name : String

def MINUTE_RANGE : CronField := ⟨0, 59, "minute"⟩

def HOUR_RANGE : CronField := ⟨0, 23, "hour"⟩

def DOM_RANGE : CronField := ⟨1, 31, "day-of-month"⟩

def MONTH_RANGE : CronField := ⟨1, 12, "month"⟩

/-- Sunday is 0 and 7. -/
def DOW_RANGE : CronField := ⟨0, 7, "day-of-week"⟩

/-- The value of a text of digits. -/
def digitsValue (raw : List Char) : ℕ :=
  raw.foldl (fun n c => 10 * n + (c.toNat - '0'.toNat)) 0

def parseCronInt (raw : List Char) (name role : String) : Except String ℕ :=
  if LibJson.isDigits raw then .ok (digitsValue raw)
  else .error ("cron " ++ name ++ " " ++ role ++
    " must be a non-negative integer with digits only (got " ++ String.ofList (LibJson.quote raw) ++
    ")")

/-- The values from the first bound to the last one, by steps. -/
def stepValues (lo hi step : ℕ) : List ℕ :=
  (List.range (hi + 1)).filter fun v => lo ≤ v ∧ (v - lo) % step = 0

/-- The text in front of the first such character, and the text behind it, if there is one. -/
def splitFirst (c : Char) (s : List Char) : List Char × Option (List Char) :=
  match s.dropWhile (· ≠ c) with
  | [] => (s, none)
  | _ :: rest => (s.takeWhile (· ≠ c), some rest)

/-- The step of a term, if there is one. -/
def parseStep (term rangePart : List Char) (name : String) :
    Option (List Char) → Except String (Option ℕ)
  | none => .ok none
  | some stepStr =>
    if stepStr = [] then
      .error ("cron " ++ name ++ " step is empty in \"" ++ String.ofList term ++ "\"")
    else
      match parseCronInt stepStr name "step" with
      | .error message => .error message
      | .ok parsedStep =>
        if parsedStep = 0 then
          .error ("cron " ++ name ++ " step must be a positive integer (got \"" ++
            String.ofList stepStr ++ "\")")
        else if rangePart = [] then
          .error ("cron " ++ name ++ " step needs a range or \"*\" before \"/\" in \"" ++
            String.ofList term ++ "\"")
        else .ok (some parsedStep)

/-- The bounds of a term; a single value with a step reaches to the end of the range. -/
def parseRange (rangePart : List Char) (step : Option ℕ) (field : CronField) :
    Except String (ℕ × ℕ) :=
  if rangePart = ['*'] then .ok (field.min, field.max)
  else
    match splitFirst '-' rangePart with
    | (_, none) =>
      match parseCronInt rangePart field.name "value" with
      | .error message => .error message
      | .ok single =>
        if single < field.min ∨ single > field.max then
          .error ("cron " ++ field.name ++ " value " ++ toString single ++ " out of range " ++
            toString field.min ++ ".." ++ toString field.max)
        else .ok (single, if step.isSome then field.max else single)
    | (loStr, some hiStr) =>
      match parseCronInt loStr field.name "range lower bound" with
      | .error message => .error message
      | .ok lo =>
        match parseCronInt hiStr field.name "range upper bound" with
        | .error message => .error message
        | .ok hi =>
          if lo < field.min ∨ hi > field.max ∨ lo > hi then
            .error ("cron " ++ field.name ++ " range " ++ toString lo ++ "-" ++ toString hi ++
              " out of bounds (must be " ++ toString field.min ++ ".." ++
              toString field.max ++ ", ascending)")
          else .ok (lo, hi)

def addTerm (out : OrdSet ℕ) (term : List Char) (field : CronField) : Except String (OrdSet ℕ) :=
  let (rangePart, stepStr) := splitFirst '/' term
  match parseStep term rangePart field.name stepStr with
  | .error message => .error message
  | .ok step =>
    match parseRange rangePart step field with
    | .error message => .error message
    | .ok (lo, hi) => .ok ((stepValues lo hi (step.getD 1)).foldl OrdSet.insert out)

def addTerms (field : CronField) : List (List Char) → OrdSet ℕ → Except String (OrdSet ℕ)
  | [], out => .ok out
  | term :: terms, out =>
    if term = [] then .error ("cron " ++ field.name ++ " field has empty term in list")
    else
      match addTerm out term field with
      | .error message => .error message
      | .ok out => addTerms field terms out

def parseField (text : List Char) (field : CronField) : Except String (OrdSet ℕ) :=
  if text = [] then .error ("cron " ++ field.name ++ " field is empty")
  else
    match addTerms field (text.splitOn ',') OrdSet.empty with
    | .error message => .error message
    | .ok out =>
      if out.isEmpty then .error ("cron " ++ field.name ++ " field matches no values")
      else .ok out

/-- Sunday is 0. -/
def foldSunday (values : OrdSet ℕ) : OrdSet ℕ :=
  OrdSet.ofList (values.toList.map fun v => if v = 7 then 0 else v)

/-- The parts between runs of white space; the text has been trimmed. -/
def splitWhiteSpace (s : List Char) : List (List Char) := (s.splitOnP isWhiteSpace).filter (· ≠ [])

/-- **`parseCronExpression`**, or the message of its error. -/
def parseCronExpression (expr : String) : Except String ParsedCronExpression :=
  let trimmed := trim expr
  if trimmed.toList = [] then .error "cron expression is empty"
  else
    match splitWhiteSpace trimmed.toList with
    | [minField, hourField, domField, monthField, dowField] => do
        let minutes ← parseField minField MINUTE_RANGE
        let hours ← parseField hourField HOUR_RANGE
        let daysOfMonth ← parseField domField DOM_RANGE
        let months ← parseField monthField MONTH_RANGE
        let dowRaw ← parseField dowField DOW_RANGE
        return {
          raw := trimmed
          minutes, hours, daysOfMonth, months
          daysOfWeek := foldSunday dowRaw
          daysOfMonthWildcard := domField == ['*']
          daysOfWeekWildcard := dowField == ['*'] }
    | fields =>
      .error ("cron expression must have exactly 5 fields (minute hour day-of-month month " ++
        "day-of-week); got " ++ toString fields.length)

/-! ### Dates -/

/-- A time zone: the local time of an instant, and the instant a local time stands for. -/
structure TimeZone where
  localTime : ℤ → ℤ
  utc : ℤ → ℤ

def MS_PER_MINUTE : ℤ := 60000

def MS_PER_HOUR : ℤ := 3600000

def MS_PER_DAY : ℤ := 86400000

namespace TimeZone

variable (zone : TimeZone) (date : ℤ)

/-- The zone whose local time differs from the instant by a fixed offset. -/
def fixed (offset : ℤ) : TimeZone := ⟨(· + offset), (· - offset)⟩

def localDay : ℤ := zone.localTime date / MS_PER_DAY

def getMonth : ℤ := monthFromDay (zone.localDay date)

def getDate : ℤ := dateFromDay (zone.localDay date)

def getDay : ℤ := weekDay (zone.localDay date)

def getHours : ℤ := zone.localTime date % MS_PER_DAY / MS_PER_HOUR

def getMinutes : ℤ := zone.localTime date % MS_PER_HOUR / MS_PER_MINUTE

/-- `setDate`: the time of day stays. -/
def setDate (day : ℤ) : ℤ :=
  let localDay := zone.localDay date
  zone.utc (makeDay (yearFromDay localDay) (monthFromDay localDay) day * MS_PER_DAY +
    zone.localTime date % MS_PER_DAY)

/-- `setMonth`: the day of the month and the time of day stay. -/
def setMonth (month : ℤ) : ℤ :=
  let localDay := zone.localDay date
  zone.utc (makeDay (yearFromDay localDay) month (dateFromDay localDay) * MS_PER_DAY +
    zone.localTime date % MS_PER_DAY)

/-- `setHours(0, 0, 0, 0)`. -/
def startOfDay : ℤ := zone.utc (zone.localDay date * MS_PER_DAY)

/-- `setHours` with the hour alone. -/
def setHours (hours : ℤ) : ℤ :=
  zone.utc (zone.localDay date * MS_PER_DAY + hours * MS_PER_HOUR +
    zone.localTime date % MS_PER_HOUR)

/-- `setMinutes(0, 0, 0)`. -/
def startOfHour : ℤ := zone.utc (zone.localTime date - zone.localTime date % MS_PER_HOUR)

/-- `setMinutes` with the minute alone. -/
def setMinutes (minutes : ℤ) : ℤ :=
  zone.utc (zone.localTime date - zone.localTime date % MS_PER_HOUR + minutes * MS_PER_MINUTE +
    zone.localTime date % MS_PER_MINUTE)

/-- `setSeconds(0, 0)`. -/
def startOfMinute : ℤ := zone.utc (zone.localTime date - zone.localTime date % MS_PER_MINUTE)

/-! ### The search -/

def advanceMonth : ℤ :=
  let date := zone.startOfDay (zone.setDate date 1)
  zone.setMonth date (zone.getMonth date + 1)

def advanceDay : ℤ :=
  let date := zone.startOfDay date
  zone.setDate date (zone.getDate date + 1)

def advanceHour : ℤ :=
  let date := zone.startOfHour date
  zone.setHours date (zone.getHours date + 1)

def advanceMinute : ℤ :=
  let date := zone.startOfMinute date
  zone.setMinutes date (zone.getMinutes date + 1)

end TimeZone

/-- A set has the value; the parts of a date are natural numbers. -/
def hasValue (values : OrdSet ℕ) (value : ℤ) : Bool := decide (value.toNat ∈ values)

/-- When both days are restricted, one of them is enough. -/
def dayMatches (zone : TimeZone) (expr : ParsedCronExpression) (date : ℤ) : Bool :=
  let domOk := hasValue expr.daysOfMonth (zone.getDate date)
  let dowOk := hasValue expr.daysOfWeek (zone.getDay date)
  if expr.daysOfMonthWildcard && expr.daysOfWeekWildcard then true
  else if expr.daysOfMonthWildcard then dowOk
  else if expr.daysOfWeekWildcard then domOk
  else domOk || dowOk

/-- The move of a date that does not match, by its coarsest part that does not. -/
def advance (zone : TimeZone) (expr : ParsedCronExpression) (date : ℤ) : Option ℤ :=
  if hasValue expr.months (zone.getMonth date + 1) = false then some (zone.advanceMonth date)
  else if dayMatches zone expr date = false then some (zone.advanceDay date)
  else if hasValue expr.hours (zone.getHours date) = false then some (zone.advanceHour date)
  else if hasValue expr.minutes (zone.getMinutes date) = false then some (zone.advanceMinute date)
  else none

/-- The loop of the search, with the number of rounds that are left. -/
def searchRun (zone : TimeZone) (expr : ParsedCronExpression) (deadlineMs : ℤ) : ℕ → ℤ → Option ℤ
  | 0, _ => none
  | rounds + 1, date =>
    if date ≤ deadlineMs then
      match advance zone expr date with
      | none => some date
      | some next => searchRun zone expr deadlineMs rounds next
    else none

def HARD_ITERATION_CAP : ℕ := 10000000

/-- The first date of the search: the minute behind the one of the start. -/
def firstCandidate (zone : TimeZone) (fromMs : ℤ) : ℤ := zone.startOfMinute fromMs + MS_PER_MINUTE

def nextRunWithinMinutes (zone : TimeZone) (expr : ParsedCronExpression) (fromMs capMinutes : ℤ) :
    Option ℤ :=
  searchRun zone expr (fromMs + capMinutes * MS_PER_MINUTE) HARD_ITERATION_CAP
    (firstCandidate zone fromMs)

/-- **`computeNextCronRun`**: within five years. -/
def computeNextCronRun (zone : TimeZone) (expr : ParsedCronExpression) (fromMs : ℤ) : Option ℤ :=
  nextRunWithinMinutes zone expr fromMs (5 * 366 * 24 * 60)

/-- There is a run within this number of years. -/
def hasFireWithinYears (zone : TimeZone) (expr : ParsedCronExpression) (years : ℕ) (fromMs : ℤ) :
    Bool :=
  (nextRunWithinMinutes zone expr fromMs (max 1 (years * 366 * 24 * 60))).isSome

end NoriCode
