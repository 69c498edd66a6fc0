import Almanac.Numeric.Power

set_option autoImplicit false

/-!
Rounding quotients of natural numbers to the nearest integer, and to the nearest number with a
53-bit significand. Ties go to the even neighbour.
-/

namespace Almanac

def divNearest (n d : Nat) : Nat :=
  let q := n / d
  let r := n % d
  if 2 * r < d ∨ 2 * r = d ∧ q % 2 = 0 then q else q + 1

/-- The number `mantissa / 2 ^ places`. -/
structure Dyadic where
  mantissa : Nat
  places : Nat

namespace Dyadic

def floor (x : Dyadic) : Nat := x.mantissa / pow2 x.places

/-- The part after the binary point. -/
def fraction (x : Dyadic) : Dyadic := ⟨x.mantissa % pow2 x.places, x.places⟩

/-- The number of `1 / unit` parts, rounded to the nearest. -/
def parts (x : Dyadic) (unit : Nat) : Nat := divNearest (x.mantissa * unit) (pow2 x.places)

/-- The number with a 53-bit significand nearest to `n / d`, for quotients below `2 ^ 53`. -/
def nearest (n d : Nat) : Dyadic :=
  if n = 0 then ⟨0, 0⟩
  else
    let guess := 52 + Nat.log2 d - Nat.log2 n
    let places := if n * pow2 guess < pow2 52 * d then guess + 1 else guess
    ⟨divNearest (n * pow2 places) d, places⟩

end Dyadic

end Almanac
