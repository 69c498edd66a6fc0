import Almanac.Calendar.Weekday
import Almanac.Text.Blank
import Almanac.Text.Lowercase

set_option autoImplicit false

/-!
How often a rule recurs, and the weekday patterns that it may select.
-/

namespace Almanac

namespace Text

/-- A name without white space around it and without regard to case. -/
def folded (s : String) : String := String.ofList (lower (trim s.toList))

end Text

inductive Frequency where
  | secondly | minutely | hourly | daily | weekly | monthly | yearly
  deriving DecidableEq, Repr

namespace Frequency

def all : List Frequency := [secondly, minutely, hourly, daily, weekly, monthly, yearly]

/-- Finer frequencies have a lower rank. -/
def rank : Frequency → Nat
  | secondly => 0
  | minutely => 1
  | hourly => 2
  | daily => 3
  | weekly => 4
  | monthly => 5
  | yearly => 6

def isSubDaily (f : Frequency) : Bool := f.rank < daily.rank

/-- The name in rule text. -/
def code : Frequency → String
  | secondly => "SECONDLY"
  | minutely => "MINUTELY"
  | hourly => "HOURLY"
  | daily => "DAILY"
  | weekly => "WEEKLY"
  | monthly => "MONTHLY"
  | yearly => "YEARLY"

def name : Frequency → String
  | secondly => "secondly"
  | minutely => "minutely"
  | hourly => "hourly"
  | daily => "daily"
  | weekly => "weekly"
  | monthly => "monthly"
  | yearly => "yearly"

def ofName? (s : String) : Option Frequency := all.find? (fun f => f.name == Text.folded s)

end Frequency

namespace Weekday

/-- Reads any of the names of a weekday. -/
def ofText? (s : String) : Option Weekday := ofName? (Text.folded s)

end Weekday

/-- A weekday, or its occurrence of a given number counted from the start of a month or year, or
from its end where the number is negative. -/
structure DayPattern where
  weekday : Weekday
  ordinal : Option Int
  deriving DecidableEq

namespace DayPattern

def text (d : DayPattern) : String :=
  match d.ordinal with
  | some n => if n = 0 then d.weekday.code else toString n ++ d.weekday.code
  | none => d.weekday.code

end DayPattern

end Almanac
