import Almanac.Text.Blank
import Almanac.Text.Digit

set_option autoImplicit false

/-!
Reading whole numbers: a sign, then decimal digits of any script with single underscores between
them. White space around the number is dropped, and a number of too many digits is refused. Nor can
such a number be written.
-/

namespace Almanac.Text

/-- The most digits that a number may have. -/
def digitLimit : Nat := 4300

/-- Whether a number has few enough digits to be written. -/
def isWritable (n : Int) : Bool := (Nat.toDigits 10 n.natAbs).length ≤ digitLimit

/-- The digits of a run in which single underscores may stand between digits. -/
def digitRun? : List Char → Option (List Nat)
  | [] => none
  | [c] => (digit? c).map (fun d => [d])
  | c :: '_' :: rest => do
    let d ← digit? c
    let ds ← digitRun? rest
    return d :: ds
  | c :: rest => do
    let d ← digit? c
    let ds ← digitRun? rest
    return d :: ds

def splitSign : List Char → Bool × List Char
  | '+' :: rest => (false, rest)
  | '-' :: rest => (true, rest)
  | s => (false, s)

def signed (negative : Bool) (n : Nat) : Int := if negative then -(n : Int) else n

def integer? (s : List Char) : Option Int := do
  let (negative, body) := splitSign (trim s)
  let digits ← digitRun? body
  if digits.length ≤ digitLimit then some (signed negative (ofDigits digits)) else none

end Almanac.Text
