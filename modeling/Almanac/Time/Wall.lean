import Almanac.Calendar.Date

set_option autoImplicit false

/-!
Wall-clock times: what a clock on the wall shows, without a zone. A time is its number of
microseconds since the start of year 1.
-/

namespace Almanac

open Calendar

def secondMicros : Nat := 1000000

def minuteMicros : Nat := 60 * secondMicros

def hourMicros : Nat := 60 * minuteMicros

def dayMicros : Nat := 24 * hourMicros

/-- Midnight of 1 January 1970. -/
def epochMicros : Nat := 719162 * dayMicros

/-- The end of year 9999. -/
def calendarMicros : Nat := dayCount * dayMicros

structure WallTime where
  micros : Nat
  inCalendar : micros < calendarMicros
  deriving DecidableEq

namespace WallTime

def ofMicros? (n : Int) : Option WallTime :=
  if h : 0 ≤ n ∧ n.toNat < calendarMicros then some ⟨n.toNat, h.2⟩ else none

/-- Midnight at the start of a date. -/
def startOf (d : Date) : WallTime :=
  ⟨d.day * dayMicros, by
    have h : d.day < 3652059 := d.inCalendar
    simp only [calendarMicros, dayMicros, hourMicros, minuteMicros, secondMicros, dayCount]
    omega⟩

/-- The wall time with the given civil fields, if there is one. -/
def ofCivil? (y mo d h mi s us : Nat) : Option WallTime := do
  let date ← Date.ofCivil? y mo d
  if h < 24 ∧ mi < 60 ∧ s < 60 ∧ us < secondMicros then
    ofMicros? (date.day * dayMicros + h * hourMicros + mi * minuteMicros + s * secondMicros + us)
  else none

def add? (t : WallTime) (micros : Int) : Option WallTime := ofMicros? (t.micros + micros)

def day (t : WallTime) : Nat := t.micros / dayMicros

def year (t : WallTime) : Nat := yearOf t.day

def month (t : WallTime) : Nat := monthOf t.day

def dayOfMonth (t : WallTime) : Nat := dayOf t.day

def hour (t : WallTime) : Nat := t.micros % dayMicros / hourMicros

def minute (t : WallTime) : Nat := t.micros % hourMicros / minuteMicros

def second (t : WallTime) : Nat := t.micros % minuteMicros / secondMicros

def microsecond (t : WallTime) : Nat := t.micros % secondMicros

/-- The same wall time with the fraction of its second dropped. -/
def wholeSecond (t : WallTime) : WallTime :=
  ⟨t.micros - t.microsecond, Nat.lt_of_le_of_lt (Nat.sub_le _ _) t.inCalendar⟩

end WallTime

end Almanac
