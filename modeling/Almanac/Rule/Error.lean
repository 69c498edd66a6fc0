import Almanac.Rule.Part
import Almanac.Value.Shown

set_option autoImplicit false

/-!
What can be wrong with a recurrence specification, and how it is reported. Errors in rule text
point at the characters where they arise.
-/

namespace Almanac

/-- The characters from `start` up to but not including `stop`. -/
structure Span where
  start : Nat
  stop : Nat
  deriving DecidableEq, Repr

inductive ErrorKind where
  | frequency | interval | bounds | range | instant | form
  deriving DecidableEq

namespace ErrorKind

def all : List ErrorKind := [frequency, interval, bounds, range, instant, form]

def name : ErrorKind → String
  | frequency => "frequency"
  | interval => "interval"
  | bounds => "bounds"
  | range => "range"
  | instant => "instant"
  | form => "syntax"

def ofName? (s : String) : Option ErrorKind := all.find? (fun k => k.name = s)

end ErrorKind

/-- What is wrong with the form of a rule text. -/
inductive TextFault where
  | unexpectedCharacter (c : Char)
  | empty
  | expectedName
  | unknownPart (name : String)
  | repeatedPart (name : String)
  | expectedEquals (name : String)
  | expectedValue (name : String)
  | expectedSeparator
  deriving DecidableEq

def TextFault.message : TextFault → String
  | unexpectedCharacter c => "unexpected character '" ++ String.singleton c ++ "'"
  | empty => "empty recurrence rule"
  | expectedName => "expected rule part name"
  | unknownPart name => "unknown rule part '" ++ name ++ "'"
  | repeatedPart name => "duplicate rule part '" ++ name ++ "'"
  | expectedEquals name => "expected '=' after '" ++ name ++ "'"
  | expectedValue name => "expected value for '" ++ name ++ "'"
  | expectedSeparator => "expected ';' between rule parts"

/-- Parts that do not go together. -/
inductive Conflict where
  | weekNumbersNotYearly
  | yearDays (freq : Frequency)
  | monthDaysWeekly
  | ordinals
  | ordinalsInMonth
  deriving DecidableEq

def Conflict.part : Conflict → Part
  | weekNumbersNotYearly => .weekNumber
  | yearDays _ => .yearDay
  | monthDaysWeekly => .monthDay
  | ordinals => .day
  | ordinalsInMonth => .day

def Conflict.message : Conflict → String
  | weekNumbersNotYearly => "only valid with a yearly frequency"
  | yearDays freq => "not valid with a " ++ freq.name ++ " frequency"
  | monthDaysWeekly => "not valid with a weekly frequency"
  | ordinals => "ordinals are only valid with a monthly or yearly frequency"
  | ordinalsInMonth => "ordinal must be within ±1..5 inside a month"

inductive SpecError where
  | unknownFrequency (given : Value)
  | invalidInterval (given : Value)
  | countAndFinish
  | notInteger (part : Part) (given : Value)
  | notPositive (n : Int)
  | notInRange (part : Part) (n : Int)
  | ordinalNotInRange (n : Int)
  | unknownWeekday (part : Part) (given : Value)
  | malformedInstant (part : Part) (given : Value)
  | conflict (c : Conflict)
  | text (fault : TextFault) (span : Span) (input : String)
  | unknownParameter (name : Value)
  | repeatedParameter (name : String)
  | unsupported (typeName : String)

/-- An error as it is reported. -/
structure ErrorReport where
  kind : ErrorKind
  message : String
  field : Option String
  span : Option Span
  input : Option String

namespace SpecError

def kind : SpecError → ErrorKind
  | unknownFrequency _ => .frequency
  | invalidInterval _ => .interval
  | countAndFinish => .bounds
  | malformedInstant _ _ => .instant
  | notInteger _ _ | notPositive _ | notInRange _ _ | ordinalNotInRange _ | unknownWeekday _ _
  | conflict _ => .range
  | text _ _ _ | unknownParameter _ | repeatedParameter _ | unsupported _ => .form

/-- The part of the specification that is at fault. -/
def part? : SpecError → Option Part
  | unknownFrequency _ => some .freq
  | invalidInterval _ => some .interval
  | notInteger p _ | notInRange p _ | unknownWeekday p _ | malformedInstant p _ => some p
  | notPositive _ => some .count
  | ordinalNotInRange _ => some .day
  | conflict c => some c.part
  | countAndFinish | text _ _ _ | unknownParameter _ | repeatedParameter _ | unsupported _ => none

/-- Whether the complaint can be written, which takes that every number in it can. -/
def hasText : SpecError → Bool
  | unknownFrequency v | invalidInterval v | notInteger _ v | unknownWeekday _ v
  | malformedInstant _ v | unknownParameter v => v.isShowable
  | notPositive n | notInRange _ n | ordinalNotInRange n => Text.isWritable n
  | countAndFinish | conflict _ | text _ _ _ | repeatedParameter _ | unsupported _ => true

/-- The complaint, without the name of the part that it is about. Where a number in it cannot be
written the error is never reported. -/
def complaint : SpecError → String
  | unknownFrequency v => "unknown frequency " ++ v.shown
  | invalidInterval v => "interval must be a positive integer, got " ++ v.shown
  | countAndFinish => "'count' and 'until' are mutually exclusive"
  | notInteger _ v => "expected an integer, got " ++ v.shown
  | notPositive n => toString n ++ " is not a positive integer"
  | notInRange p n => toString n ++ " not in " ++ p.range.text
  | ordinalNotInRange n => "ordinal " ++ toString n ++ " not in " ++ Part.day.range.text
  | unknownWeekday _ v => "unknown weekday " ++ v.shown
  | malformedInstant _ v => "malformed instant " ++ v.shown
  | conflict c => c.message
  | text fault _ _ => fault.message
  | unknownParameter name => "unknown recurrence parameter '" ++ name.plain ++ "'"
  | repeatedParameter name => "duplicate recurrence parameter '" ++ name ++ "'"
  | unsupported typeName => "unsupported recurrence specification " ++ typeName

/-- Errors about the values of a part name it first. -/
def message (e : SpecError) : String :=
  match e.kind, e.part? with
  | .range, some p | .instant, some p => p.name ++ ": " ++ e.complaint
  | _, _ => e.complaint

def report (e : SpecError) : ErrorReport :=
  let place := match e with
    | text _ span input => some (span, input)
    | _ => none
  ⟨e.kind, e.message, e.part?.map Part.name, place.map Prod.fst, place.map Prod.snd⟩

end SpecError

namespace ErrorReport

def spaces (n : Nat) : String := String.ofList (List.replicate n ' ')

/-- The message, and below it the text with the faulty characters underlined. -/
def rich (r : ErrorReport) : String :=
  let plain := "error: " ++ r.message
  match r.kind, r.span, r.input with
  | .form, some span, some input =>
    if input.isEmpty then plain
    else
      plain ++ "\n  " ++ input ++ "\n" ++ spaces (span.start + 2) ++
        String.ofList (List.replicate (max (span.stop - span.start) 1) '^')
  | _, _, _ => plain

end ErrorReport

end Almanac
