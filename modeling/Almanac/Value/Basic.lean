import Almanac.Numeric.Shortest
import Almanac.Rule.Frequency
import Almanac.Time.Zoned

set_option autoImplicit false

/-!
The values that a recurrence specification may give for its parts: plain data, dates and instants,
and frequencies and weekdays themselves.
-/

namespace Almanac

inductive Value where
  | nothing
  | bool (b : Bool)
  | int (n : Int)
  | float (x : Binary64)
  | text (s : String)
  | bytes (bs : List UInt8)
  | list (items : List Value)
  | tuple (items : List Value)
  | dict (entries : List (Value × Value))
  | stamp (t : Stamp)
  | date (d : Date)
  | frequency (f : Frequency)
  | weekday (w : Weekday)
  | dayPattern (d : DayPattern)

namespace Value

/-- The name of a value's type. -/
def typeName : Value → String
  | nothing => "NoneType"
  | bool _ => "bool"
  | int _ => "int"
  | float _ => "float"
  | text _ => "str"
  | bytes _ => "bytes"
  | list _ => "list"
  | tuple _ => "tuple"
  | dict _ => "dict"
  | stamp _ => "datetime"
  | date _ => "date"
  | frequency _ => "Frequency"
  | weekday _ => "Weekday"
  | dayPattern _ => "WeekdayNum"

def isNothing : Value → Bool
  | nothing => true
  | _ => false

/-- The items of a collection: the members of a sequence, the keys of a mapping, the numbers of a
byte string. -/
def members? : Value → Option (List Value)
  | list xs => some xs
  | tuple xs => some xs
  | dict es => some (es.map Prod.fst)
  | bytes bs => some (bs.map (fun b => int b.toNat))
  | _ => none

end Value

end Almanac
