import Almanac.Numeric.Power

set_option autoImplicit false

/-!
The shortest decimal that reads back as a given binary number.

A finite binary64 number is `mantissa * 2 ^ exponent`, and the reals that round to it form an
interval around it, whose ends belong to it when the mantissa is even. For one digit, two digits
and so on, the two neighbours of the number on the grid of that many decimal digits are tried; the
first grid with a neighbour in the interval gives the digits, and of two such neighbours the nearer
one.
-/

namespace Almanac

/-- A number as its 64 bits: sign, 11 bits of exponent, 52 bits of fraction. -/
structure Binary64 where
  bits : UInt64
  deriving DecidableEq

/-- The decimal `0.d₁d₂… * 10 ^ point`. -/
structure Decimal where
  digits : List Nat
  point : Int
  deriving DecidableEq

namespace Binary64

def negative (x : Binary64) : Bool := x.bits.toNat / pow2 63 = 1

def exponentField (x : Binary64) : Nat := x.bits.toNat / pow2 52 % 2048

def fractionField (x : Binary64) : Nat := x.bits.toNat % pow2 52

def mantissa (x : Binary64) : Nat :=
  if x.exponentField = 0 then x.fractionField else pow2 52 + x.fractionField

def exponent (x : Binary64) : Int := (max x.exponentField 1 : Int) - 1075

/-- The number and the ends of its interval, in units of `1 / unit`. -/
structure Interval where
  low : Nat
  value : Nat
  high : Nat
  unit : Nat
  closed : Bool

def Interval.holds (i : Interval) (n : Nat) : Bool :=
  if i.closed then i.low ≤ n && n ≤ i.high else i.low < n && n < i.high

/-- Below a power of two the binary numbers lie twice as close. -/
def interval (x : Binary64) : Interval :=
  let m := x.mantissa
  let below := if x.fractionField = 0 ∧ 1 < x.exponentField then 1 else 2
  let scale := pow2 x.exponent.toNat
  ⟨(4 * m - below) * scale, 4 * m * scale, (4 * m + 2) * scale,
    4 * pow2 (-x.exponent).toNat, m % 2 = 0⟩

/-- The least `k` from `k` on with `unit ≤ n * 10 ^ k`. -/
def leadingZeros (n unit : Nat) : Nat → Nat → Nat
  | 0, k => k
  | fuel + 1, k => if unit ≤ n * pow10 k then k else leadingZeros n unit fuel (k + 1)

/-- The exponent of the leading decimal digit of `n / unit`. -/
def leadingExponent (n unit : Nat) : Int :=
  if unit ≤ n then (Nat.toDigits 10 (n / unit)).length - 1
  else -(leadingZeros n unit 400 0 : Int)

/-- The neighbour in the interval on the grid of multiples of `10 ^ place`. -/
def neighbour? (i : Interval) (place : Int) : Option Nat :=
  let up := pow10 place.toNat
  let down := pow10 (-place).toNat
  let below := i.value * down / (i.unit * up)
  let scaled (n : Nat) : Nat := n * up * i.unit
  let fits (n : Nat) : Bool :=
    Interval.holds ⟨i.low * down, i.value * down, i.high * down, i.unit, i.closed⟩ (scaled n)
  let gapBelow := i.value * down - scaled below
  let gapAbove := scaled (below + 1) - i.value * down
  match fits below, fits (below + 1) with
  | true, true =>
    some (if gapBelow < gapAbove ∨ gapBelow = gapAbove ∧ below % 2 = 0 then below else below + 1)
  | true, false => some below
  | false, true => some (below + 1)
  | false, false => none

def shortestFrom (i : Interval) (top : Int) : Nat → Nat → Nat × Int
  | 0, count => (0, top - count)
  | fuel + 1, count =>
    let place := top - count
    match neighbour? i place with
    | some n => (n, place)
    | none => shortestFrom i top fuel (count + 1)

def dropTrailingZeros (ds : List Nat) : List Nat := (ds.reverse.dropWhile (· = 0)).reverse

/-- The shortest decimal of the magnitude of a finite number other than zero. -/
def shortest (x : Binary64) : Decimal :=
  let i := x.interval
  let top := leadingExponent i.value i.unit
  let (n, place) := shortestFrom i top 20 0
  let digits := (Nat.toDigits 10 n).map (fun c => c.toNat - 48)
  ⟨dropTrailingZeros digits, place + digits.length⟩

def digitText (ds : List Nat) : String := String.ofList (ds.map Nat.digitChar)

/-- The text of a number. Exponents from -4 to 15 are written positionally, with at least one digit
on either side of the point; others have a sign and at least two digits. -/
def text (x : Binary64) : String :=
  let sign := if x.negative then "-" else ""
  if x.exponentField = 2047 then
    if x.fractionField = 0 then sign ++ "inf" else "nan"
  else if x.mantissa = 0 then sign ++ "0.0"
  else
    let d := x.shortest
    let zeros (n : Int) : String := String.ofList (List.replicate n.toNat '0')
    let e := d.point - 1
    if -4 ≤ e ∧ e < 16 then
      if d.point ≤ 0 then sign ++ "0." ++ zeros (-d.point) ++ digitText d.digits
      else
        let whole := d.digits.take d.point.toNat
        let rest := d.digits.drop d.point.toNat
        sign ++ digitText whole ++ zeros (d.point - whole.length) ++ "." ++
          (if rest.isEmpty then "0" else digitText rest)
    else
      let rest := d.digits.drop 1
      let tail := toString e.natAbs
      sign ++ digitText (d.digits.take 1) ++ (if rest.isEmpty then "" else "." ++ digitText rest) ++
        "e" ++ (if e < 0 then "-" else "+") ++ (if tail.length < 2 then "0" ++ tail else tail)

end Binary64

end Almanac
