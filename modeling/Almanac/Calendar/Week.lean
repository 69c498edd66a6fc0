import Almanac.Calendar.Year
import Almanac.Calendar.Weekday

set_option autoImplicit false

/-!
Week numbers. Weeks start on a chosen weekday, and the first week of a year is the first one
with at least four days in it. A number is given only where every week start that it rests on
lies in the calendar.
-/

namespace Almanac.Calendar

/-- The first day of week 1 of a year. -/
def weekYearStart? (y : Nat) (wkst : Weekday) : Option Nat :=
  if 1 ≤ y ∧ y ≤ lastYear then
    let newYear := daysBeforeYear y
    let since := wkst.daysSince newYear
    if since ≤ 3 then
      if since ≤ newYear then some (newYear - since) else none
    else some (newYear + (7 - since))
  else none

/-- The year whose weeks hold day `n`, and the first day of its week 1. -/
def weekYear? (n : Nat) (wkst : Weekday) : Option (Nat × Nat) := do
  let y := yearOf n
  let start ← weekYearStart? y wkst
  if n < start then
    let previous ← weekYearStart? (y - 1) wkst
    return (y - 1, previous)
  let following ← weekYearStart? (y + 1) wkst
  if following ≤ n then
    return (y + 1, following)
  return (y, start)

/-- The week number of day `n` and the number of weeks in its week year. -/
def weekNumber? (n : Nat) (wkst : Weekday) : Option (Nat × Nat) := do
  let (y, start) ← weekYear? n wkst
  let next ← weekYearStart? (y + 1) wkst
  return ((n - start) / 7 + 1, (next - start) / 7)

end Almanac.Calendar
