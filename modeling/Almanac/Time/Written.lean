import Almanac.Time.Zoned

set_option autoImplicit false

/-!
Writing instants.

The extended form is `2011-03-06T02:26:00`, with six places of a fraction that is not zero and then
the offset, whose seconds and fraction are written where they are not zero. The basic form is
`20110306T022600Z`; it is used for whole seconds at no offset, and its year is not padded.
-/

namespace Almanac

/-- The last `width` decimal digits of a number. -/
def decimals : Nat → Nat → List Char
  | 0, _ => []
  | width + 1, n => decimals width (n / 10) ++ [Nat.digitChar (n % 10)]

/-- Six places of a fraction of a second, unless it is zero. -/
def writtenFraction (micros : Nat) : List Char :=
  if micros = 0 then [] else '.' :: decimals 6 micros

namespace Offset

def written (o : Offset) : List Char :=
  let n := o.micros.natAbs
  let seconds := n % minuteMicros
  (if o.micros < 0 then '-' else '+') :: decimals 2 (n / hourMicros) ++
    ':' :: decimals 2 (n % hourMicros / minuteMicros) ++
    (if seconds = 0 then []
      else ':' :: decimals 2 (seconds / secondMicros) ++ writtenFraction (seconds % secondMicros))

end Offset

namespace WallTime

def writtenDate (t : WallTime) : List Char :=
  decimals 4 t.year ++ '-' :: decimals 2 t.month ++ '-' :: decimals 2 t.dayOfMonth

def writtenClock (t : WallTime) : List Char :=
  decimals 2 t.hour ++ ':' :: decimals 2 t.minute ++ ':' :: decimals 2 t.second ++
    writtenFraction t.microsecond

def written (t : WallTime) : List Char := t.writtenDate ++ 'T' :: t.writtenClock

def writtenBasic (t : WallTime) : List Char :=
  (toString t.year).toList ++ decimals 2 t.month ++ decimals 2 t.dayOfMonth ++
    'T' :: decimals 2 t.hour ++ decimals 2 t.minute ++ decimals 2 t.second ++ ['Z']

end WallTime

namespace Zoned

/-- The extended form. -/
def written (t : Zoned) : List Char := t.wall.written ++ t.offset.written

def text (t : Zoned) : String := String.ofList t.written

/-- The form used in rule text: basic for whole seconds at no offset, else extended. -/
def writtenInRule (t : Zoned) : List Char :=
  if t.offset.micros = 0 ∧ t.wall.microsecond = 0 then t.wall.writtenBasic else t.written

end Zoned

end Almanac
