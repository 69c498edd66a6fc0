import Almanac.Numeric.Nearest
import Mathlib.Tactic.Linarith

set_option autoImplicit false

/-!
How far rounding moves a quotient.

Rounding to an integer moves a quotient by at most a half. A significand keeps a quotient to within
half a unit of its last place. Neither passes over an integer, and both together find an integer that
is well less than a half away.
-/

namespace Almanac

/-- Rounding moves a quotient by at most a half, here with all sides times twice the divisor. -/
theorem divNearest_bounds (n : Nat) {d : Nat} (hd : 0 < d) :
    2 * (divNearest n d * d) ≤ 2 * n + d ∧ 2 * n ≤ 2 * (divNearest n d * d) + d := by
  have parts := Nat.div_add_mod n d
  have rest := Nat.mod_lt n hd
  rw [Nat.mul_comm] at parts
  unfold divNearest
  dsimp only
  split
  · omega
  · rw [Nat.add_mul (n / d) 1 d, Nat.one_mul]
    omega

theorem le_divNearest {n d q : Nat} (hd : 0 < d) (h : q * d ≤ n) : q ≤ divNearest n d := by
  have low := (divNearest_bounds n hd).2
  have : 2 * q * d < 2 * (divNearest n d + 1) * d := by linarith
  have := Nat.lt_of_mul_lt_mul_right this
  omega

theorem divNearest_le {n d q : Nat} (hd : 0 < d) (h : n ≤ q * d) : divNearest n d ≤ q := by
  have high := (divNearest_bounds n hd).1
  have : 2 * divNearest n d * d < 2 * (q + 1) * d := by linarith
  have := Nat.lt_of_mul_lt_mul_right this
  omega

theorem divNearest_eq {n d q : Nat} (high : 2 * n < 2 * (q * d) + d)
    (low : 2 * (q * d) < 2 * n + d) : divNearest n d = q := by
  have hd : 0 < d := by omega
  obtain ⟨above, below⟩ := divNearest_bounds n hd
  have notAbove : divNearest n d < q + 1 := by
    apply Nat.lt_of_mul_lt_mul_right (a := d)
    rw [Nat.succ_mul]
    omega
  have notBelow : q < divNearest n d + 1 := by
    apply Nat.lt_of_mul_lt_mul_right (a := d)
    rw [Nat.succ_mul]
    omega
  omega

namespace Dyadic

theorem nearest_bounds (n : Nat) {d : Nat} (hd : 0 < d) :
    2 * ((nearest n d).mantissa * d) ≤ 2 * (n * pow2 (nearest n d).places) + d ∧
      2 * (n * pow2 (nearest n d).places) ≤ 2 * ((nearest n d).mantissa * d) + d := by
  unfold nearest
  split
  · rename_i zero
    simp [zero]
  · exact divNearest_bounds _ hd

theorem le_mantissa_nearest {n d q : Nat} (hd : 0 < d) (h : q * d ≤ n) :
    q * pow2 (nearest n d).places ≤ (nearest n d).mantissa := by
  unfold nearest
  split
  · rename_i zero
    subst zero
    rcases Nat.mul_eq_zero.mp (Nat.le_zero.mp h) with rfl | rfl
    · simp
    · omega
  · apply le_divNearest hd
    rw [Nat.mul_right_comm]
    exact Nat.mul_le_mul_right _ h

theorem mantissa_nearest_le {n d q : Nat} (hd : 0 < d) (h : n ≤ q * d) :
    (nearest n d).mantissa ≤ q * pow2 (nearest n d).places := by
  unfold nearest
  split
  · exact Nat.zero_le _
  · apply divNearest_le hd
    rw [Nat.mul_right_comm]
    exact Nat.mul_le_mul_right _ h

theorem parts_nearest_le {n d q : Nat} (hd : 0 < d) (h : n ≤ q * d) :
    (nearest n d).parts 1 ≤ q := by
  rw [parts, Nat.mul_one]
  exact divNearest_le (pow2_pos _) (mantissa_nearest_le hd h)

theorem places_nearest (n d : Nat) (hn : n ≠ 0) :
    52 + Nat.log2 d - Nat.log2 n ≤ (nearest n d).places := by
  unfold nearest
  rw [if_neg hn]
  dsimp only
  split <;> omega

/-- Rounding a quotient twice, to a significand and to an integer, moves it by at most one. -/
theorem parts_nearest_bounds (n : Nat) {d : Nat} (hd : 0 < d) :
    (nearest n d).parts 1 * d ≤ n + d ∧ n ≤ (nearest n d).parts 1 * d + d := by
  obtain ⟨high, low⟩ := nearest_bounds n hd
  obtain ⟨high', low'⟩ :=
    divNearest_bounds ((nearest n d).mantissa * 1) (pow2_pos (nearest n d).places)
  have unit : d ≤ d * pow2 (nearest n d).places :=
    Nat.le_mul_of_pos_right d (pow2_pos (nearest n d).places)
  rw [Nat.mul_one] at high' low'
  have parts : (nearest n d).parts 1 =
      divNearest (nearest n d).mantissa (pow2 (nearest n d).places) := by
    rw [Dyadic.parts, Nat.mul_one]
  rw [parts]
  generalize divNearest (nearest n d).mantissa (pow2 (nearest n d).places) = rounded at *
  generalize (nearest n d).mantissa = mantissa at *
  have positive := pow2_pos (nearest n d).places
  generalize pow2 (nearest n d).places = unitsPerOne at *
  -- all in parts of the last place: both roundings together move the quotient by at most one
  have above := Nat.mul_le_mul_right d high'
  have below := Nat.mul_le_mul_right d low'
  constructor
  · apply Nat.le_of_mul_le_mul_right (c := 2 * unitsPerOne) _ (by omega)
    linarith
  · apply Nat.le_of_mul_le_mul_right (c := 2 * unitsPerOne) _ (by omega)
    linarith

theorem places_of_lt {n d k : Nat} (hn : n ≠ 0) (small : n < pow2 k * d) :
    53 ≤ (nearest n d).places + k := by
  have divisor : d ≠ 0 := by
    rintro rfl
    simp at small
  have log : Nat.log2 n ≤ Nat.log2 d + k := by
    apply Nat.le_of_lt_succ
    apply (Nat.log2_lt hn).mpr
    calc n < pow2 k * d := small
      _ < 2 ^ k * 2 ^ (Nat.log2 d + 1) :=
        Nat.mul_lt_mul_of_pos_left Nat.lt_log2_self (pow2_pos k)
      _ = 2 ^ (Nat.log2 d + k + 1) := by rw [← Nat.pow_add]; congr 1; omega
  unfold nearest
  rw [if_neg hn]
  dsimp only
  split
  · omega
  · rename_i large
    -- the quotient has 53 bits where it stands
    have size : pow2 52 < pow2 (k + (52 + Nat.log2 d - Nat.log2 n)) := by
      apply Nat.lt_of_mul_lt_mul_right (a := d)
      calc pow2 52 * d ≤ n * pow2 (52 + Nat.log2 d - Nat.log2 n) := Nat.le_of_not_lt large
        _ < pow2 k * d * pow2 (52 + Nat.log2 d - Nat.log2 n) :=
          Nat.mul_lt_mul_of_pos_right small (pow2_pos _)
        _ = pow2 (k + (52 + Nat.log2 d - Nat.log2 n)) * d := by
          rw [pow2_add, Nat.mul_right_comm]
    have := (Nat.pow_lt_pow_iff_right (by decide : 1 < 2)).mp size
    omega

/-- Rounding a quotient twice, to a significand and to an integer, finds an integer that is well less
than a half away. -/
theorem parts_nearest_eq {n d q : Nat} (small : n < pow2 47 * d)
    (high : 64 * n ≤ 64 * (q * d) + 31 * d) (low : 64 * (q * d) ≤ 64 * n + 31 * d) :
    (nearest n d).parts 1 = q := by
  have hd : 0 < d := Nat.pos_of_ne_zero (by
    rintro rfl
    simp at small)
  rcases Nat.eq_zero_or_pos n with rfl | positive
  · have none : q = 0 := by
      by_contra some
      have := Nat.le_mul_of_pos_left d (Nat.pos_of_ne_zero some)
      omega
    rw [none]
    exact Nat.le_zero.mp (parts_nearest_le hd (Nat.zero_le _))
  · have unit : 64 ≤ pow2 (nearest n d).places := Nat.pow_le_pow_right (i := 6) Nat.two_pos (by
      have := places_of_lt (by omega) small
      omega)
    obtain ⟨above, below⟩ := nearest_bounds n hd
    rw [parts, Nat.mul_one]
    generalize pow2 (nearest n d).places = unitsPerOne at *
    generalize (nearest n d).mantissa = mantissa at *
    have margin := Nat.mul_le_mul_right d unit
    have above' := Nat.mul_le_mul_right unitsPerOne high
    have below' := Nat.mul_le_mul_right unitsPerOne low
    apply divNearest_eq
    · apply Nat.lt_of_mul_lt_mul_right (a := 32 * d)
      linarith
    · apply Nat.lt_of_mul_lt_mul_right (a := 32 * d)
      linarith

end Dyadic

end Almanac
