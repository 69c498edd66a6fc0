import Almanac.Calendar.Civil
import Almanac.Calendar.Weekday

set_option autoImplicit false

/-!
The calendar comes round every 400 years.

A cycle of 400 years is a whole number of days and of weeks, so the day that lies one cycle later
has the same month, day of month, day of year and weekday, in a year of the same length.
-/

namespace Almanac.Calendar

/-- The days of 400 years. -/
def cycleDays : Nat := 146097

theorem isLeap_add_cycle (y : Nat) : isLeap (y + 400) = isLeap y := by
  apply Bool.eq_iff_iff.mpr
  simp only [isLeap_iff]
  omega

theorem yearLength_add_cycle (y : Nat) : yearLength (y + 400) = yearLength y := by
  simp only [yearLength, isLeap_add_cycle]

theorem monthLength_add_cycle (y m : Nat) : monthLength (y + 400) m = monthLength y m := by
  simp only [monthLength, isLeap_add_cycle]

theorem daysBeforeMonth_add_cycle (y m : Nat) :
    daysBeforeMonth (y + 400) m = daysBeforeMonth y m := by
  induction m with
  | zero => rfl
  | succ m ih => simp only [daysBeforeMonth, monthLength_add_cycle, ih]

theorem splitMonths_add_cycle (y : Nat) (ms : List Nat) (n : Nat) :
    splitMonths (y + 400) ms n = splitMonths y ms n := by
  induction ms generalizing n with
  | nil => rfl
  | cons m ms ih => simp only [splitMonths, monthLength_add_cycle, ih]

theorem daysBeforeYear_add_cycle {y : Nat} (hy : 0 < y) :
    daysBeforeYear (y + 400) = daysBeforeYear y + cycleDays := by
  simp only [daysBeforeYear, cycleDays]
  omega

theorem yearOf_add_cycle (n : Nat) : yearOf (n + cycleDays) = yearOf n + 400 := by
  have remainder : (n + 146097) % 146097 = n % 146097 := by omega
  have quotient : (n + 146097) / 146097 = n / 146097 + 1 := by omega
  simp only [yearOf, cycleDays, remainder, quotient]
  omega

/-- The place of a day in its year does not change. -/
theorem sub_daysBeforeYear_add_cycle (n : Nat) :
    n + cycleDays - daysBeforeYear (yearOf (n + cycleDays)) = n - daysBeforeYear (yearOf n) := by
  rw [yearOf_add_cycle, daysBeforeYear_add_cycle (yearOf_pos n)]
  omega

theorem yearDayOf_add_cycle (n : Nat) : yearDayOf (n + cycleDays) = yearDayOf n := by
  simp only [yearDayOf, sub_daysBeforeYear_add_cycle]

theorem monthDayOf_add_cycle (n : Nat) : monthDayOf (n + cycleDays) = monthDayOf n := by
  simp only [monthDayOf, sub_daysBeforeYear_add_cycle]
  rw [yearOf_add_cycle, splitMonths_add_cycle]

theorem monthOf_add_cycle (n : Nat) : monthOf (n + cycleDays) = monthOf n := by
  rw [monthOf, monthDayOf_add_cycle, monthOf]

theorem dayOf_add_cycle (n : Nat) : dayOf (n + cycleDays) = dayOf n := by
  rw [dayOf, monthDayOf_add_cycle, dayOf]

theorem weekday_add_cycle (n : Nat) : Weekday.ofDay (n + cycleDays) = Weekday.ofDay n := by
  have sevenths : (n + cycleDays) % 7 = n % 7 := by
    simp only [cycleDays]
    omega
  simp only [Weekday.ofDay, Weekday.ofIndex, sevenths]

end Almanac.Calendar
