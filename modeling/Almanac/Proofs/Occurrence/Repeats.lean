import Mathlib.Data.Nat.ModEq
import Almanac.Proofs.Calendar.Resemblance
import Almanac.Proofs.Occurrence.Period

set_option autoImplicit false

/-!
Periods that fall like earlier ones.

A period repeats an earlier one when it has the same time of day and its days fall like those of the
earlier one, all of them as many days later. In 400 years every period is repeated, and one whose
days lie in a single year is repeated sooner, in the next year that resembles its own. So whatever
the interval, it is also repeated by a period that is a whole number of intervals later, and fewer
of them than there are periods in 400 years.
-/

namespace Almanac

open Calendar

namespace Frequency

variable {f : Frequency} {w : Weekday} {i j k shift shift' : Nat}

/-- Period `j` is period `i` again, `shift` days later. -/
structure Repeats (f : Frequency) (w : Weekday) (i shift j : Nat) : Prop where
  timeOfDay : f.timeOfDay j = f.timeOfDay i
  days : f.days w j = (f.days w i).map (· + shift)
  alike : ∀ d ∈ f.days w i, FallsLike d (d + shift)

theorem repeats_of_firstDay (timeOfDay : f.timeOfDay j = f.timeOfDay i)
    (first : f.firstDay w j = f.firstDay w i + shift) (length : f.dayLength j = f.dayLength i)
    (alike : ∀ d ∈ f.days w i, FallsLike d (d + shift)) : f.Repeats w i shift j := by
  refine ⟨timeOfDay, ?_, alike⟩
  by_cases fine : f.isSubDaily = true
  · rw [firstDay_fine fine, firstDay_fine fine] at first
    rw [days_fine fine, days_fine fine, first, List.map_singleton]
  · have coarse : f.isSubDaily = false := by simpa using fine
    rw [days_coarse coarse, days_coarse coarse, first, length]
    simp only [Nat.add_comm _ shift, List.map_add_range']

namespace Repeats

theorem refl : f.Repeats w i 0 i where
  timeOfDay := rfl
  days := by simp
  alike := fun _ _ => .refl

theorem trans (h : f.Repeats w i shift j) (h' : f.Repeats w j shift' k) :
    f.Repeats w i (shift + shift') k where
  timeOfDay := h'.timeOfDay.trans h.timeOfDay
  days := by
    rw [h'.days, h.days, List.map_map]
    simp only [Function.comp_def, Nat.add_assoc]
  alike := by
    intro d hd
    have later : d + shift ∈ f.days w j := by
      rw [h.days]
      exact List.mem_map_of_mem hd
    rw [← Nat.add_assoc]
    exact (h.alike d hd).trans (h'.alike _ later)

end Repeats

/-- Every period comes round in 400 years, those of the first days of the calendar apart. -/
theorem repeats_add_cycle (period : f.IsPeriod i) (late : 3 ≤ f.firstDay w i) :
    f.Repeats w i cycleDays (i + f.cyclePeriods) := by
  refine repeats_of_firstDay timeOfDay_add_cycle (firstDay_add_cycle period) dayLength_add_cycle
    fun d hd => fallsLike_add_cycle ?_
  have := firstDay_le_of_mem_days hd
  omega

theorem repeats_add_cycles (period : f.IsPeriod i) (late : 3 ≤ f.firstDay w i) (n : Nat) :
    f.Repeats w i (n * cycleDays) (i + n * f.cyclePeriods) := by
  induction n with
  | zero =>
    rw [Nat.zero_mul, Nat.zero_mul]
    exact .refl
  | succ n ih =>
    have later := Nat.le_add_right i (n * f.cyclePeriods)
    have first := f.firstDay_mono (w := w) period later
    rw [Nat.succ_mul, Nat.succ_mul, ← Nat.add_assoc]
    exact ih.trans (repeats_add_cycle (period.mono later) (by omega))

theorem timeOfDay_add_days (n : Nat) : f.timeOfDay (i + n * f.perDay) = f.timeOfDay i := by
  cases f with
  | yearly | monthly | weekly | daily => rfl
  | hourly | minutely | secondly => simp only [timeOfDay, Nat.add_mul_mod_self_right]

theorem exists_repeats (period : f.IsPeriod i) (year : 2 ≤ f.yearOfPeriod w i)
    (inYear : ∀ d ∈ f.days w i, yearOf d = f.yearOfPeriod w i) :
    ∃ n shift, 0 < n ∧ n < f.cyclePeriods ∧ 3 ≤ shift ∧ f.Repeats w i shift (i + n) := by
  obtain ⟨k, positive, small, resembles⟩ := exists_resembling year
  have alike d (hd : d ∈ f.days w i) := resembles.fallsLike year (by omega) (inYear d hd)
  generalize hy : f.yearOfPeriod w i = y at *
  have order := daysBeforeYear_mono (show y + 1 ≤ y + k by omega)
  have next := daysBeforeYear_succ y (by omega)
  have length := (yearLength_bounds y).1
  have sevenths := resembles.weekday
  have bound : daysBeforeYear (y + k) < daysBeforeYear y + cycleDays := by
    have := daysBeforeYear_mono (show y + k + 1 ≤ y + 400 by omega)
    have := daysBeforeYear_succ (y + k) (by omega)
    have := (yearLength_bounds (y + k)).1
    have := daysBeforeYear_add_cycle (show 0 < y by omega)
    omega
  generalize hs : daysBeforeYear (y + k) - daysBeforeYear y = s at alike
  simp only [cycleDays] at bound
  generalize hp : f.perDay = p
  cases f with
  | yearly =>
    obtain rfl : i = y := (yearOfPeriod_yearly period).symm.trans hy
    refine ⟨k, s, positive, small, by omega, repeats_of_firstDay rfl ?_ ?_ alike⟩
    · simp only [firstDay]
      omega
    · simp only [dayLength, yearLength, resembles.leap]
  | monthly =>
    obtain rfl : i / 12 = y := (yearOfPeriod_monthly period).symm.trans hy
    have year' : (i + 12 * k) / 12 = i / 12 + k := by omega
    have month : (i + 12 * k) % 12 = i % 12 := by omega
    refine ⟨12 * k, s, by omega, by simp only [cyclePeriods]; omega, by omega,
      repeats_of_firstDay rfl ?_ ?_ alike⟩
    · simp only [firstDay, dayNumber_first, year', month,
        Resembles.daysBeforeMonth_eq resembles.leap]
      omega
    · simp only [dayLength, monthLength, year', month, resembles.leap]
  | weekly =>
    refine ⟨s / 7, s, by omega, by simp only [cyclePeriods]; omega, by omega,
      repeats_of_firstDay rfl ?_ rfl alike⟩
    simp only [firstDay]
    omega
  | daily | hourly | minutely | secondly =>
    refine ⟨s * p, s, ?_, ?_, by omega,
      repeats_of_firstDay (hp ▸ timeOfDay_add_days s) ?_ rfl alike⟩ <;>
      simp only [← hp, cyclePeriods, cycleDays, perDay, firstDay] <;> omega

/-! Multiples of an interval, fewer than a cycle is long. -/

/-- Without a common divisor some multiple of the interval ends wherever one likes in a cycle. -/
theorem exists_mul_eq_add_mul {cycle interval n : Nat} (coprime : cycle.Coprime interval)
    (later : 0 < n) (small : n < cycle) (positive : 0 < interval) :
    ∃ m q, 0 < m ∧ m < cycle ∧ m * interval = n + q * cycle := by
  obtain ⟨⟨x, toCycle, toInterval⟩, hx⟩ :
      ∃ x, x = Nat.chineseRemainder coprime n 0 := ⟨_, rfl⟩
  have below : x < cycle * interval := by
    have := Nat.chineseRemainder_lt_mul coprime n 0 (by omega) (by omega)
    rwa [← hx] at this
  obtain ⟨m, rfl⟩ : interval ∣ x := Nat.modEq_zero_iff_dvd.mp toInterval
  have remainder : interval * m % cycle = n := by rw [toCycle, Nat.mod_eq_of_lt small]
  have parts := Nat.div_add_mod' (interval * m) cycle
  have reached : m * interval = n + interval * m / cycle * cycle := by
    rw [Nat.mul_comm m]
    omega
  exact ⟨m, interval * m / cycle, Nat.pos_of_mul_pos_right (b := interval) (by omega),
    Nat.lt_of_mul_lt_mul_left (a := interval) (by rwa [Nat.mul_comm cycle] at below), reached⟩

/-- With one some multiple is a whole number of cycles. -/
theorem exists_mul_eq_mul {cycle interval : Nat} (common : ¬ cycle.Coprime interval)
    (long : 0 < cycle) (positive : 0 < interval) :
    ∃ m n, 0 < m ∧ m < cycle ∧ 0 < n ∧ m * interval = n * cycle := by
  have divisor : 1 < cycle.gcd interval := by
    have := Nat.gcd_pos_of_pos_left interval long
    have : cycle.gcd interval ≠ 1 := common
    omega
  obtain ⟨m, hm⟩ := Nat.gcd_dvd_left cycle interval
  obtain ⟨n, hn⟩ := Nat.gcd_dvd_right cycle interval
  generalize cycle.gcd interval = g at divisor hm hn
  have mPositive : 0 < m := Nat.pos_of_mul_pos_left (a := g) (by omega)
  refine ⟨m, n, mPositive, ?_, Nat.pos_of_mul_pos_left (a := g) (by omega), ?_⟩
  · rw [hm]
    exact (Nat.lt_mul_iff_one_lt_left mPositive).mpr divisor
  · rw [hm, hn, Nat.mul_left_comm, Nat.mul_comm m, ← Nat.mul_left_comm]

/-- A period within one year is repeated by one that is a whole number of intervals later, fewer
than there are periods in 400 years. -/
theorem exists_repeats_aligned (period : f.IsPeriod i) (year : 2 ≤ f.yearOfPeriod w i)
    (inYear : ∀ d ∈ f.days w i, yearOf d = f.yearOfPeriod w i) {interval : Nat}
    (positive : 0 < interval) :
    ∃ m shift, 0 < m ∧ m < f.cyclePeriods ∧ 3 ≤ shift ∧
      f.Repeats w i shift (i + m * interval) := by
  have late := firstDay_of_year year
  have cycle : 0 < f.cyclePeriods := by cases f <;> decide
  by_cases coprime : f.cyclePeriods.Coprime interval
  · -- the repetition in a resembling year, and from it whole cycles on to an aligned period
    obtain ⟨n, shift, hn, small, hshift, repeats⟩ := exists_repeats period year inYear
    obtain ⟨m, q, hm, fewer, cycles⟩ := exists_mul_eq_add_mul coprime hn small positive
    refine ⟨m, shift + q * cycleDays, hm, fewer, by omega, ?_⟩
    have later := Nat.le_add_right i n
    have first := f.firstDay_mono (w := w) period later
    rw [cycles, ← Nat.add_assoc]
    exact repeats.trans (repeats_add_cycles (period.mono later) (by omega) q)
  · -- a common divisor of the interval and the cycle makes whole cycles aligned sooner
    obtain ⟨m, n, hm, fewer, hn, cycles⟩ := exists_mul_eq_mul coprime cycle positive
    refine ⟨m, n * cycleDays, hm, fewer, by simp only [cycleDays]; omega, ?_⟩
    rw [cycles]
    exact repeats_add_cycles period (by omega) n

end Frequency

end Almanac
