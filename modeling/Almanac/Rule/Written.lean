import Almanac.Rule.Basic
import Almanac.Text.Integer
import Almanac.Text.Quoted

set_option autoImplicit false

/-!
Rule text. The parts stand in a fixed order and those with their default value are left out.
-/

namespace Almanac

namespace Part

/-- The name of a part in rule text. -/
def code (p : Part) : String := String.ofList (p.name.toList.map Char.toUpper)

end Part

namespace Rule

def writtenPart (p : Part) (value : String) : String := p.code ++ "=" ++ value

def writtenList (p : Part) (values : List String) : List String :=
  if values.isEmpty then [] else [writtenPart p (String.intercalate "," values)]

def writtenInstant (p : Part) (t : Zoned) : String := writtenPart p (String.ofList t.writtenInRule)

def writtenParts (r : Rule) (withStart : Bool) : List String :=
  [writtenPart .freq r.freq.code] ++
  (if withStart then [writtenInstant .start r.start] else []) ++
  (if r.interval = 1 then [] else [writtenPart .interval (toString r.interval)]) ++
  (r.count.toList.map (fun n => writtenPart .count (toString n))) ++
  (r.finish.toList.map (writtenInstant .finish)) ++
  (r.endsBefore.toList.map (writtenInstant .endsBefore)) ++
  (if r.weekStart = .monday then [] else [writtenPart .weekStart r.weekStart.code]) ++
  writtenList .month (r.months.map toString) ++
  writtenList .weekNumber (r.weekNumbers.map toString) ++
  writtenList .yearDay (r.yearDays.map toString) ++
  writtenList .monthDay (r.monthDays.map toString) ++
  writtenList .day (r.days.map DayPattern.text) ++
  writtenList .hour (r.hours.map toString) ++
  writtenList .minute (r.minutes.map toString) ++
  writtenList .second (r.seconds.map toString) ++
  writtenList .position (r.positions.map toString)

/-- Whether a rule has a text, which takes that its numbers can be written; those of the other lists
are within their ranges. -/
def hasText (r : Rule) : Bool :=
  Text.isWritable r.interval && r.count.all (fun n => Text.isWritable n) &&
    r.days.all (fun d => d.ordinal.all Text.isWritable)

def text (r : Rule) : String := String.intercalate ";" (r.writtenParts true)

/-- Rule text without the start. -/
def textWithoutStart (r : Rule) : String := String.intercalate ";" (r.writtenParts false)

/-- How a rule is shown. -/
def shown (r : Rule) : String := "RecurrenceRule(" ++ Text.quoted r.text ++ ")"

end Rule

end Almanac
