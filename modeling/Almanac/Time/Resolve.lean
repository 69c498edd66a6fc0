import Almanac.Numeric.Nearest
import Almanac.Time.Zoned

set_option autoImplicit false

/-!
The instant of a wall time in a zone.

The instant is carried as a count of seconds since 1970 with a 53-bit significand and read back to
the nearest microsecond. Whole seconds pass unchanged; far from 1970 a fraction may move by some
microseconds. A wall time that the zone skips is moved past the gap, and a repeated one is read as
the earlier of its two instants.
-/

namespace Almanac

/-- A count of microseconds after its passage through seconds with a 53-bit significand. -/
def throughSeconds (n : Nat) : Nat :=
  let seconds := Dyadic.nearest n secondMicros
  let fraction := seconds.fraction
  let micros := Dyadic.nearest (fraction.mantissa * secondMicros) (pow2 fraction.places)
  seconds.floor * secondMicros + micros.parts 1

/-- The instant at which a zone's clock first shows the wall time `wall`. -/
def Zone.resolve? (zone : Zone) (wall : WallTime) : Option Zoned :=
  let utc := (⟨wall, zone, false⟩ : Zoned).utc
  let since : Int := utc - epochMicros
  Zoned.ofUtc? zone (epochMicros + since.sign * throughSeconds since.natAbs)

end Almanac
