import Almanac.Numeric.Nearest
import Almanac.Schedule.Log
import Almanac.Time.Written

set_option autoImplicit false

/-!
Timers that are given a delay rather than an instant. The delay is in seconds, never below zero, as
a number with a 53-bit significand.
-/

namespace Almanac

namespace Dyadic

/-- The number rounded to a number of decimal places, with a tie going to the even digit. -/
def fixed (x : Dyadic) (places : Nat) : String :=
  let n := x.parts (pow10 places)
  toString (n / pow10 places) ++ "." ++ String.ofList (decimals places (n % pow10 places))

end Dyadic

namespace Zoned

/-- The time from `s` to `t` in microseconds. -/
def microsTo (s t : Zoned) : Int :=
  let (a, b) := onCommonLine s t
  b - a

/-- The delay from `now` to a due instant. -/
def delayFrom (due now : Zoned) : Dyadic := .nearest (now.microsTo due).toNat secondMicros

/-- What is logged when a timer is registered. -/
def registrationLog (due now : Zoned) : LogRecord :=
  ⟨.debug, "Timer registered for " ++ due.text ++ " (in " ++ (due.delayFrom now).fixed 3 ++ "s)"⟩

end Zoned

end Almanac
