import Almanac.Text.Integer
import Almanac.Text.Quoted
import Almanac.Time.Written
import Almanac.Value.Basic

set_option autoImplicit false

/-!
How a value is shown inside an error message, and which values cannot be shown.
-/

namespace Almanac

def commaSeparated (xs : List String) : String := String.intercalate ", " xs

namespace Offset

/-- A span of time as days, seconds and microseconds, of which only the days may be negative. -/
def shownSpan (o : Offset) : String :=
  let days := o.micros.fdiv dayMicros
  let rest := (o.micros.fmod dayMicros).toNat
  let seconds := rest / secondMicros
  let micros := rest % secondMicros
  commaSeparated
    ((if days = 0 then [] else ["days=" ++ toString days]) ++
      (if seconds = 0 then [] else ["seconds=" ++ toString seconds]) ++
      (if micros = 0 then [] else ["microseconds=" ++ toString micros]))

end Offset

namespace Zone

def shown : Zone → String
  | fixed o =>
    if o.micros = 0 then "datetime.timezone.utc"
    else "datetime.timezone(datetime.timedelta(" ++ o.shownSpan ++ "))"
  | table r => "zoneinfo.ZoneInfo(key=" ++ Text.quoted r.name ++ ")"

end Zone

namespace Stamp

def shown (t : Stamp) : String :=
  let w := t.wall
  let fields := [w.year, w.month, w.dayOfMonth, w.hour, w.minute] ++
    (if w.second = 0 ∧ w.microsecond = 0 then [] else [w.second]) ++
    (if w.microsecond = 0 then [] else [w.microsecond])
  let zone := match t.zone with
    | some z => ["tzinfo=" ++ z.shown]
    | none => []
  "datetime.datetime(" ++
    commaSeparated (fields.map toString ++ (if t.fold then ["fold=1"] else []) ++ zone) ++ ")"

end Stamp

namespace Date

def shown (d : Date) : String :=
  "datetime.date(" ++ commaSeparated ([d.year, d.month, d.dayOfMonth].map toString) ++ ")"

end Date

namespace Frequency

def shown (f : Frequency) : String := "<Frequency." ++ f.code ++ ": " ++ Text.quoted f.name ++ ">"

end Frequency

namespace Weekday

def shown (w : Weekday) : String := "<Weekday." ++ w.code ++ ": " ++ Text.quoted w.code ++ ">"

end Weekday

namespace DayPattern

def shown (d : DayPattern) : String :=
  let ordinal := match d.ordinal with
    | some n => toString n
    | none => "None"
  "WeekdayNum(weekday=" ++ d.weekday.shown ++ ", n=" ++ ordinal ++ ")"

end DayPattern

namespace Value

mutual

def shown : Value → String
  | nothing => "None"
  | bool b => if b then "True" else "False"
  | int n => toString n
  | float x => x.text
  | text s => Text.quoted s
  | bytes bs => Text.quotedBytes bs
  | list xs => "[" ++ commaSeparated (shownItems xs) ++ "]"
  | tuple xs =>
    match shownItems xs with
    | [x] => "(" ++ x ++ ",)"
    | items => "(" ++ commaSeparated items ++ ")"
  | dict es => "\x7b" ++ commaSeparated (shownEntries es) ++ "\x7d"
  | stamp t => t.shown
  | date d => d.shown
  | frequency f => f.shown
  | weekday w => w.shown
  | dayPattern d => d.shown

def shownItems : List Value → List String
  | [] => []
  | x :: xs => x.shown :: shownItems xs

def shownEntries : List (Value × Value) → List String
  | [] => []
  | (k, v) :: es => (k.shown ++ ": " ++ v.shown) :: shownEntries es

end

mutual

/-- Whether a value can be shown, which takes that every number in it can be written. -/
def isShowable : Value → Bool
  | int n => Text.isWritable n
  | dayPattern d => d.ordinal.all Text.isWritable
  | list xs => areShowable xs
  | tuple xs => areShowable xs
  | dict es => entriesShowable es
  | _ => true

def areShowable : List Value → Bool
  | [] => true
  | x :: xs => x.isShowable && areShowable xs

def entriesShowable : List (Value × Value) → Bool
  | [] => true
  | (k, v) :: es => k.isShowable && v.isShowable && entriesShowable es

end

/-- The text of a value that stands for a name. -/
def plain : Value → String
  | text s => s
  | stamp t =>
    let offset := match t.zone with
      | some z => (z.offsetAt t.wall t.fold).written
      | none => []
    String.ofList (t.wall.writtenDate ++ ' ' :: t.wall.writtenClock ++ offset)
  | date d => String.ofList (WallTime.startOf d).writtenDate
  | frequency f => f.code
  | weekday w => w.code
  | dayPattern d => d.text
  | v => v.shown

end Value

end Almanac
