import Almanac.Text.Lowercase

set_option autoImplicit false

/-!
The parts of a rule and the names they go by.
-/

namespace Almanac

inductive Part where
  | freq | interval | count | finish | start | endsBefore | weekStart
  | second | minute | hour | day | monthDay | yearDay | weekNumber | month | position
  deriving DecidableEq, Repr

namespace Part

def all : List Part :=
  [freq, interval, count, finish, start, endsBefore, weekStart,
    second, minute, hour, day, monthDay, yearDay, weekNumber, month, position]

/-- The name of a part in lower case. -/
def name : Part → String
  | freq => "freq"
  | interval => "interval"
  | count => "count"
  | finish => "until"
  | start => "dtstart"
  | endsBefore => "dtend"
  | weekStart => "wkst"
  | second => "bysecond"
  | minute => "byminute"
  | hour => "byhour"
  | day => "byday"
  | monthDay => "bymonthday"
  | yearDay => "byyearday"
  | weekNumber => "byweekno"
  | month => "bymonth"
  | position => "bysetpos"

/-- A name in lower case, without underscores and hyphens, in which `frequency` stands for
`freq`. -/
def canonical (s : String) : String :=
  let key := (Text.lower s.toList).filter (fun c => c ≠ '_' ∧ c ≠ '-')
  if key = "frequency".toList then "freq" else String.ofList key

def ofName? (s : String) : Option Part :=
  let key := canonical s
  all.find? (fun p => p.name = key)

end Part

/-- The numbers that a part may hold: a range of magnitudes, with negative numbers or without. -/
structure NumberRange where
  low : Nat
  high : Nat
  signed : Bool
  deriving DecidableEq

namespace NumberRange

def holds (r : NumberRange) (n : Int) : Bool :=
  let m := if r.signed then (n.natAbs : Int) else n
  r.low ≤ m && m ≤ r.high

def text (r : NumberRange) : String :=
  (if r.signed then "±" else "") ++ toString r.low ++ ".." ++ toString r.high

end NumberRange

namespace Part

/-- The numbers that the parts holding lists of numbers admit. -/
def range : Part → NumberRange
  | second => ⟨0, 59, false⟩
  | minute => ⟨0, 59, false⟩
  | hour => ⟨0, 23, false⟩
  | monthDay => ⟨1, 31, true⟩
  | yearDay => ⟨1, 366, true⟩
  | weekNumber => ⟨1, 53, true⟩
  | month => ⟨1, 12, false⟩
  | position => ⟨1, 366, true⟩
  | day => ⟨1, 53, true⟩
  | _ => ⟨1, 0, false⟩

end Part

end Almanac
