import Almanac.Rule.Ascending
import Almanac.Rule.Error
import Almanac.Text.Integer
import Almanac.Time.Reading

set_option autoImplicit false

/-!
Reading the values that a specification gives for parts. A list may be given as a collection or as
text with commas; it is kept in ascending order without repetition.
-/

namespace Almanac

namespace Value

/-! Reading the values of parts. -/

def integer (part : Part) : Value → Except SpecError Int
  | int n => .ok n
  | text s =>
    match Text.integer? s.toList with
    | some n => .ok n
    | none => .error (.notInteger part (text s))
  | v => .error (.notInteger part v)

/-- The fields of a text divided at its commas. -/
def fields : List Char → List (List Char)
  | [] => [[]]
  | c :: cs =>
    if c = ',' then [] :: fields cs
    else match fields cs with
      | [] => [[c]]
      | f :: fs => (c :: f) :: fs

/-- The items of a value: the fields of a text that are not blank, the members of a collection, or
the value itself. -/
def items : Value → List Value
  | text s =>
    ((fields s.toList).map Text.trim).filter (!·.isEmpty) |>.map (fun f => text (String.ofList f))
  | v => v.members?.getD [v]

def number (part : Part) (v : Value) : Except SpecError Int := do
  let n ← v.integer part
  if part.range.holds n then .ok n else .error (.notInRange part n)

/-- The numbers of a part in ascending order. -/
def numbers (part : Part) (v : Value) : Except SpecError (List Int) := do
  let ns ← v.items.mapM (number part)
  return ascending (fun a b => a < b) ns

def weekdayOf (part : Part) (v : Value) : Except SpecError Weekday :=
  match v with
  | weekday w => .ok w
  | text s =>
    match Weekday.ofText? s with
    | some w => .ok w
    | none => .error (.unknownWeekday part v)
  | _ => .error (.unknownWeekday part v)

/-- The number before a weekday: a sign or none, and one or two digits; nothing stands for no
number. -/
def leadingOrdinal (s : List Char) : Option Int × List Char :=
  let (negative, body) := Text.splitSign s
  let digits := (body.take 2).takeWhile Text.isDigit
  if digits.isEmpty then (none, s)
  else
    (some (Text.signed negative (Text.ofDigits (digits.filterMap Text.digit?))),
      body.drop digits.length)

def isAsciiLetter (c : Char) : Bool := 'a' ≤ c && c ≤ 'z' || 'A' ≤ c && c ≤ 'Z'

/-- The ordinal and the weekday of a text such as `-1FR`. -/
def ordinalWeekday? (s : List Char) : Option (Option Int × Weekday) := do
  let (ordinal, name) := leadingOrdinal s
  if name.all isAsciiLetter then
    return (ordinal, ← Weekday.ofText? (String.ofList name))
  else none

def pattern (v : Value) : Except SpecError DayPattern :=
  match v with
  | dayPattern d => .ok d
  | weekday w => .ok ⟨w, none⟩
  | text s =>
    match ordinalWeekday? (Text.trim s.toList) with
    | some (ordinal, w) =>
      match ordinal with
      | some n => if Part.day.range.holds n then .ok ⟨w, some n⟩ else .error (.ordinalNotInRange n)
      | none => .ok ⟨w, none⟩
    | none => .error (.unknownWeekday .day v)
  | _ => .error (.unknownWeekday .day v)

def patternBefore (a b : DayPattern) : Bool :=
  a.weekday.number < b.weekday.number ||
    a.weekday.number = b.weekday.number && decide (a.ordinal.getD 0 < b.ordinal.getD 0)

/-- The weekday patterns of a part, by weekday and then by ordinal. No ordinal ranks with an ordinal
of zero, which only a ready-made pattern can have; such patterns of one weekday stay in the order in
which they are given here, while the order of a set may be another one. -/
def patterns (v : Value) : Except SpecError (List DayPattern) := do
  let ds ← v.items.mapM pattern
  return ascending patternBefore ds

/-- The instant that a value gives; a date stands for its midnight. -/
def instant (part : Part) (zone : Zone) : Value → Except SpecError Zoned
  | stamp t => .ok (t.inZone zone)
  | date d => .ok ⟨.startOf d, zone, false⟩
  | text s =>
    let trimmed := Text.trim s.toList
    match Reading.stamp? trimmed with
    | some t => .ok (t.inZone zone)
    | none => .error (.malformedInstant part (text (String.ofList trimmed)))
  | v => .error (.malformedInstant part v)

def frequencyOf (v : Value) : Except SpecError Frequency :=
  match v with
  | frequency f => .ok f
  | text s =>
    match Frequency.ofName? s with
    | some f => .ok f
    | none => .error (.unknownFrequency v)
  | _ => .error (.unknownFrequency v)

/-- A positive number of units. -/
def intervalOf (v : Value) : Except SpecError { n : Nat // 0 < n } :=
  match v.integer .interval with
  | .ok n => if h : 0 < n.toNat then .ok ⟨n.toNat, h⟩ else .error (.invalidInterval v)
  | .error _ => .error (.invalidInterval v)

def countOf (v : Value) : Except SpecError Nat := do
  let n ← v.integer .count
  if 1 ≤ n then .ok n.toNat else .error (.notPositive n)

end Value

end Almanac
