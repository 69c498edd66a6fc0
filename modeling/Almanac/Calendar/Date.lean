import Almanac.Calendar.Week

set_option autoImplicit false

/-!
A calendar date: a day of years 1 to 9999.
-/

namespace Almanac

open Calendar

structure Date where
  day : Nat
  inCalendar : day < dayCount
  deriving DecidableEq

namespace Date

def ofDay? (n : Nat) : Option Date := if h : n < dayCount then some ⟨n, h⟩ else none

def ofCivil? (y m d : Nat) : Option Date := dayNumber? y m d >>= ofDay?

def year (d : Date) : Nat := yearOf d.day

def month (d : Date) : Nat := monthOf d.day

def dayOfMonth (d : Date) : Nat := dayOf d.day

end Date

end Almanac
