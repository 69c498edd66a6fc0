import Almanac.Rule.Part
import Almanac.Rule.Frequency
import Almanac.Time.Written

set_option autoImplicit false

/-!
Recurrence rules. A rule recurs every `interval` units of its frequency from its start on, at the
days and times that its lists select, until one of its bounds ends it.
-/

namespace Almanac

structure Rule where
  freq : Frequency
  start : Zoned
  interval : Nat
  count : Option Nat
  /-- No occurrence is later than this. -/
  finish : Option Zoned
  /-- Every occurrence is before this. -/
  endsBefore : Option Zoned
  weekStart : Weekday
  seconds : List Nat
  minutes : List Nat
  hours : List Nat
  days : List DayPattern
  monthDays : List Int
  yearDays : List Int
  weekNumbers : List Int
  months : List Nat
  positions : List Int
  interval_pos : 0 < interval

namespace Rule

def isBounded (r : Rule) : Bool := r.count.isSome || r.finish.isSome || r.endsBefore.isSome

def sameBound : Option Zoned → Option Zoned → Bool
  | none, none => true
  | some s, some t => s.same t
  | _, _ => false

/-- Two rules are the same when their parts are, instants counting as the same across zones. -/
def same (a b : Rule) : Bool :=
  a.freq = b.freq && a.start.same b.start && a.interval = b.interval && a.count = b.count &&
    sameBound a.finish b.finish && sameBound a.endsBefore b.endsBefore &&
    a.weekStart = b.weekStart && a.seconds = b.seconds && a.minutes = b.minutes &&
    a.hours = b.hours && a.days = b.days && a.monthDays = b.monthDays &&
    a.yearDays = b.yearDays && a.weekNumbers = b.weekNumbers && a.months = b.months &&
    a.positions = b.positions

end Rule

end Almanac
