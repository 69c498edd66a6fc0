set_option autoImplicit false

/-!
The proleptic Gregorian calendar on plain numbers.

Days are numbered from 0, the first of January of year 1, which is a Monday. A year is found by
peeling off whole cycles of 400, 100, 4 and 1 years. Nothing here has an upper end; `dayCount`
marks the first day after year 9999, where the calendar of `Date` and `WallTime` stops.
-/

namespace Almanac.Calendar

def isLeap (y : Nat) : Bool := y % 4 == 0 && (y % 100 != 0 || y % 400 == 0)

def yearLength (y : Nat) : Nat := if isLeap y then 366 else 365

def daysBeforeYear (y : Nat) : Nat :=
  let p := y - 1
  365 * p + p / 4 + p / 400 - p / 100

/-- The last year of the calendar. -/
def lastYear : Nat := 9999

/-- The number of days in years 1 to 9999. -/
def dayCount : Nat := 3652059

def yearOf (n : Nat) : Nat :=
  let r := n % 146097
  let c := min 3 (r / 36524)
  let s := r - 36524 * c
  let t := s % 1461
  400 * (n / 146097) + 100 * c + 4 * (s / 1461) + min 3 (t / 365) + 1

/-- The day within its year, counted from 1. -/
def yearDayOf (n : Nat) : Nat := n - daysBeforeYear (yearOf n) + 1

def monthLength (y m : Nat) : Nat :=
  if m = 2 then (if isLeap y then 29 else 28)
  else if m = 4 ∨ m = 6 ∨ m = 9 ∨ m = 11 then 30
  else 31

def daysBeforeMonth (y : Nat) : Nat → Nat
  | 0 => 0
  | m + 1 => if m = 0 then 0 else daysBeforeMonth y m + monthLength y m

/-- Splits a day counted from 0 at the start of the first listed month into the month that holds
it and the day of that month, counted from 1. -/
def splitMonths (y : Nat) : List Nat → Nat → Nat × Nat
  | [], n => (12, n + 1)
  | m :: ms, n => if n < monthLength y m then (m, n + 1) else splitMonths y ms (n - monthLength y m)

def months : List Nat := [1, 2, 3, 4, 5, 6, 7, 8, 9, 10, 11, 12]

def monthDayOf (n : Nat) : Nat × Nat :=
  let y := yearOf n
  splitMonths y months (n - daysBeforeYear y)

def monthOf (n : Nat) : Nat := (monthDayOf n).1

def dayOf (n : Nat) : Nat := (monthDayOf n).2

def dayNumber (y m d : Nat) : Nat := daysBeforeYear y + daysBeforeMonth y m + d - 1

/-- The day of a civil date, if there is such a date in years 1 to 9999. -/
def dayNumber? (y m d : Nat) : Option Nat :=
  if 1 ≤ y ∧ y ≤ lastYear ∧ 1 ≤ m ∧ m ≤ 12 ∧ 1 ≤ d ∧ d ≤ monthLength y m then
    some (dayNumber y m d)
  else none

theorem daysBeforeYear_lastYear_succ : daysBeforeYear (lastYear + 1) = dayCount := rfl

end Almanac.Calendar
