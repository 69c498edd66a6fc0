import Almanac.Occurrence.Period
import Almanac.Rule.Ascending

set_option autoImplicit false

/-!
What a rule selects. Units coarser than the frequency that the rule leaves open take the value of
the start: its month and day for a year, its day for a month, its weekday for a week, and its hour,
minute and second. Days are then selected by the day constraints, times by the lists of hours,
minutes and seconds, and of the candidates of one period those at the given positions are kept.

A day selection fails where it needs a week number that the calendar does not give.
-/

namespace Almanac

open Calendar

structure Plan where
  rule : Rule
  months : List Nat
  monthDays : List Int
  weekdays : List Weekday
  ordinals : List DayPattern
  hours : List Nat
  minutes : List Nat
  seconds : List Nat

namespace Plan

/-- The values of a unit of time: those given, else the start's where the unit is finer than the
frequency. -/
def timeValues (given : List Nat) (freq unit : Frequency) (ofStart : Nat) : List Nat :=
  if given.isEmpty then (if unit.rank < freq.rank then [ofStart] else []) else given

def ofRule (r : Rule) : Plan :=
  let start := r.start.wall
  let daysOpen :=
    r.weekNumbers.isEmpty && r.yearDays.isEmpty && r.monthDays.isEmpty && r.days.isEmpty
  { rule := r
    months :=
      if daysOpen && r.freq = .yearly && r.months.isEmpty then [start.month] else r.months
    monthDays :=
      if daysOpen && (r.freq = .yearly || r.freq = .monthly) then [(start.dayOfMonth : Int)]
      else r.monthDays
    weekdays :=
      if daysOpen && r.freq = .weekly then [Weekday.ofDay start.day]
      else (r.days.filter (fun d => d.ordinal.isNone)).map DayPattern.weekday
    ordinals := r.days.filter (fun d => d.ordinal.isSome)
    hours := timeValues r.hours r.freq .hourly start.hour
    minutes := timeValues r.minutes r.freq .minutely start.minute
    seconds := timeValues r.seconds r.freq .secondly start.second }

/-! Days. -/

/-- Whether a value is selected by its number from the first or, negative, from the last of
`total`. -/
def countedIn (allowed : List Int) (value total : Nat) : Bool :=
  allowed.contains (value : Int) || allowed.contains ((value : Int) - total - 1)

def selectsMonth (p : Plan) (n : Nat) : Bool :=
  p.months.isEmpty || p.months.contains (monthOf n)

def selectsWeek? (p : Plan) (n : Nat) : Option Bool :=
  if p.rule.weekNumbers.isEmpty then some true
  else do
    let (week, weeks) ← weekNumber? n p.rule.weekStart
    return countedIn p.rule.weekNumbers week weeks

def selectsYearDay (p : Plan) (n : Nat) : Bool :=
  p.rule.yearDays.isEmpty ||
    countedIn p.rule.yearDays (yearDayOf n) (yearLength (yearOf n))

def selectsMonthDay (p : Plan) (n : Nat) : Bool :=
  p.monthDays.isEmpty ||
    countedIn p.monthDays (dayOf n) (monthLength (yearOf n) (monthOf n))

/-- Whether numbered weekdays are counted in the month rather than in the year. -/
def countsInMonth (p : Plan) : Bool := p.rule.freq = .monthly || !p.rule.months.isEmpty

/-- The place of a day in its month or year, and the length of that. -/
def placeOf (p : Plan) (n : Nat) : Nat × Nat :=
  if p.countsInMonth then (dayOf n, monthLength (yearOf n) (monthOf n))
  else (yearDayOf n, yearLength (yearOf n))

/-- Whether a day is selected by its weekday and its number among the days with that weekday. -/
def selectsOrdinal (p : Plan) (n : Nat) : Bool :=
  let (place, total) := p.placeOf n
  let weekday := Weekday.ofDay n
  let fromFirst : Int := (place - 1) / 7 + 1
  let fromLast : Int := -((total - place) / 7 + 1)
  p.ordinals.contains ⟨weekday, some fromFirst⟩ || p.ordinals.contains ⟨weekday, some fromLast⟩

def selectsWeekday (p : Plan) (n : Nat) : Bool :=
  (p.weekdays.isEmpty && p.ordinals.isEmpty) ||
    p.weekdays.contains (Weekday.ofDay n) || p.selectsOrdinal n

/-- Whether a day passes every day constraint. -/
def selectsDay? (p : Plan) (n : Nat) : Option Bool :=
  if p.selectsMonth n then do
    let inWeek ← p.selectsWeek? n
    return inWeek && p.selectsYearDay n && p.selectsMonthDay n && p.selectsWeekday n
  else some false

/-! Times. -/

/-- The values of a unit within a period: the listed ones where the unit is finer than the
frequency, else that of the period itself if it passes the list. -/
def unitValues (p : Plan) (values : List Nat) (unit : Frequency) (current : Nat) : List Nat :=
  if unit.rank < p.rule.freq.rank then values
  else if values.isEmpty || values.contains current then [current]
  else []

/-- The times of day of the candidates of a period. -/
def times (p : Plan) (i : Nat) : List Nat :=
  let t := p.rule.freq.timeOfDay i
  let hours := p.unitValues p.hours .hourly (t / hourMicros)
  let minutes := p.unitValues p.minutes .minutely (t % hourMicros / minuteMicros)
  let seconds := p.unitValues p.seconds .secondly (t % minuteMicros / secondMicros)
  hours.flatMap fun h => minutes.flatMap fun m => seconds.map fun s =>
    h * hourMicros + m * minuteMicros + s * secondMicros + p.rule.start.wall.microsecond

/-! Candidates. -/

/-- The members at the given places, counted from 1, or from the end where negative. -/
def atPositions (positions : List Int) (found : List Nat) : List Nat :=
  let place (n : Int) : Option Nat :=
    if n.natAbs ≤ found.length then
      found[(if 0 < n then n - 1 else found.length + n).toNat]?
    else none
  ascending (fun a b => a < b) (positions.filterMap place)

/-- The wall times that the rule selects in a period. -/
def candidates? (p : Plan) (i : Nat) : Option (List Nat) :=
  let times := p.times i
  if times.isEmpty then some []
  else do
    let days ← (p.rule.freq.days p.rule.weekStart i).filterM p.selectsDay?
    let found := days.flatMap fun d => times.map fun t => d * dayMicros + t
    return if p.rule.positions.isEmpty then found else atPositions p.rule.positions found

end Plan

end Almanac
