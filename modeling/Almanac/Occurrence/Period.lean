import Almanac.Rule.Basic

set_option autoImplicit false

/-!
The periods of a frequency: years, months, weeks, days, hours, minutes or seconds, numbered in the
order of time. Years are numbered by themselves and months from the first of a year 0; all others
from the start of the calendar, weeks from the first one that starts in it.

Expansion looks at the periods that start before the last year of the calendar.
-/

namespace Almanac

open Calendar

namespace Frequency

/-- The periods of a day, for frequencies finer than a day; 1 for all others. -/
def perDay : Frequency → Nat
  | secondly => 86400
  | minutely => 1440
  | hourly => 24
  | _ => 1

/-- The number of the period that holds a wall time. A week that starts before the calendar has
none. -/
def periodOf? (f : Frequency) (weekStart : Weekday) (t : WallTime) : Option Nat :=
  match f with
  | yearly => some t.year
  | monthly => some (12 * t.year + (t.month - 1))
  | weekly => if weekStart.index ≤ t.day then some ((t.day - weekStart.index) / 7) else none
  | daily => some t.day
  | hourly => some (t.micros / hourMicros)
  | minutely => some (t.micros / minuteMicros)
  | secondly => some (t.micros / secondMicros)

/-- The day on which a period starts. -/
def firstDay (f : Frequency) (weekStart : Weekday) (i : Nat) : Nat :=
  match f with
  | yearly => daysBeforeYear i
  | monthly => dayNumber (i / 12) (i % 12 + 1) 1
  | weekly => 7 * i + weekStart.index
  | daily => i
  | hourly | minutely | secondly => i / f.perDay

/-- The time of day at which a period starts, in microseconds. -/
def timeOfDay (f : Frequency) (i : Nat) : Nat :=
  match f with
  | hourly | minutely | secondly => i % f.perDay * (dayMicros / f.perDay)
  | _ => 0

/-- The days that a period holds or lies in. -/
def days (f : Frequency) (weekStart : Weekday) (i : Nat) : List Nat :=
  let first := f.firstDay weekStart i
  match f with
  | yearly => List.range' first (yearLength i)
  | monthly => List.range' first (monthLength (i / 12) (i % 12 + 1))
  | weekly => List.range' first 7
  | _ => [first]

/-- The number of the first period that starts in the last year of the calendar or later. -/
def periodLimit (f : Frequency) (weekStart : Weekday) : Nat :=
  let lastDays := daysBeforeYear lastYear
  match f with
  | yearly => lastYear
  | monthly => 12 * lastYear
  | weekly => (lastDays + 6 - weekStart.index) / 7
  | daily => lastDays
  | hourly | minutely | secondly => lastDays * f.perDay

end Frequency

end Almanac
