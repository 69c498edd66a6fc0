import Almanac.Proofs.Numeric.Nearest
import Almanac.Proofs.Time.Wall
import Almanac.Time.Resolve

set_option autoImplicit false

/-!
How far resolving moves an instant.

The passage through a 53-bit significand moves no instant of the calendar by more than 63
microseconds, and leaves whole seconds where they are, and every instant within `2 ^ 33` seconds of
1970. In a zone with a fixed offset the wall time moves by as much, and instants at the same fraction
of a second keep their order.
-/

namespace Almanac

namespace Offset

theorem bounds (o : Offset) : -86400000000 < o.micros ∧ o.micros < 86400000000 := by
  have underDay := o.underDay
  rw [dayMicros_eq] at underDay
  omega

end Offset

/-- A significand of seconds counts at least 8192 parts in a second, for any time in the calendar. -/
theorem throughSeconds_bounds {n : Nat} (hn : n < 2 ^ 59) :
    throughSeconds n ≤ n + 63 ∧ n ≤ throughSeconds n + 63 := by
  rcases Nat.eq_zero_or_pos n with rfl | positive
  · decide
  have second : 0 < secondMicros := by decide
  have parts : 8192 ≤ pow2 (Dyadic.nearest n secondMicros).places := by
    have places := Dyadic.places_nearest n secondMicros (by omega)
    have size : Nat.log2 n < 59 := (Nat.log2_lt (by omega)).mpr hn
    have divisor : Nat.log2 secondMicros = 19 := by decide
    have : 13 ≤ (Dyadic.nearest n secondMicros).places := by omega
    exact Nat.pow_le_pow_right (i := 13) Nat.two_pos this
  obtain ⟨high, low⟩ := Dyadic.nearest_bounds n second
  have whole := Nat.div_add_mod (Dyadic.nearest n secondMicros).mantissa
    (pow2 (Dyadic.nearest n secondMicros).places)
  obtain ⟨high', low'⟩ := Dyadic.parts_nearest_bounds
    ((Dyadic.nearest n secondMicros).fraction.mantissa * secondMicros)
    (pow2_pos (Dyadic.nearest n secondMicros).fraction.places)
  rw [secondMicros_eq] at *
  unfold throughSeconds
  simp only [Dyadic.floor, Dyadic.fraction, secondMicros_eq] at *
  generalize Dyadic.parts _ 1 = micros at *
  generalize (Dyadic.nearest n 1000000).mantissa = mantissa at *
  generalize pow2 (Dyadic.nearest n 1000000).places = unitsPerOne at *
  generalize mantissa / unitsPerOne = seconds at *
  generalize mantissa % unitsPerOne = rest at *
  subst whole
  constructor
  · apply Nat.le_of_mul_le_mul_right (c := 2 * unitsPerOne) _ (by omega)
    linarith
  · apply Nat.le_of_mul_le_mul_right (c := 2 * unitsPerOne) _ (by omega)
    linarith

/-- Less than `2 ^ 33` seconds are kept to the microsecond. -/
theorem throughSeconds_near {n : Nat} (near : n < pow2 33 * secondMicros) :
    throughSeconds n = n := by
  rcases Nat.eq_zero_or_pos n with rfl | positive
  · decide
  have unit : pow2 20 ≤ pow2 (Dyadic.nearest n secondMicros).places :=
    Nat.pow_le_pow_right Nat.two_pos (by
      have := Dyadic.places_of_lt (by omega) near
      omega)
  obtain ⟨high, low⟩ := Dyadic.nearest_bounds n (show 0 < secondMicros by decide)
  have whole := Nat.div_add_mod (Dyadic.nearest n secondMicros).mantissa
    (pow2 (Dyadic.nearest n secondMicros).places)
  have rest_lt := Nat.mod_lt (Dyadic.nearest n secondMicros).mantissa
    (pow2_pos (Dyadic.nearest n secondMicros).places)
  rw [secondMicros_eq] at *
  unfold throughSeconds
  simp only [Dyadic.floor, Dyadic.fraction, secondMicros_eq] at *
  generalize (Dyadic.nearest n 1000000).mantissa = mantissa at *
  generalize hunits : pow2 (Dyadic.nearest n 1000000).places = unitsPerOne at *
  generalize mantissa / unitsPerOne = seconds at *
  generalize mantissa % unitsPerOne = rest at *
  subst whole
  have unit : 1048576 ≤ unitsPerOne := unit
  obtain ⟨micros, rfl⟩ : ∃ micros, n = seconds * 1000000 + micros := by
    apply Nat.exists_eq_add_of_le
    by_contra before
    have := Nat.mul_le_mul_right unitsPerOne (show n + 1 ≤ seconds * 1000000 by omega)
    linarith
  rw [Dyadic.parts_nearest_eq (q := micros)]
  · have size : 1000000 ≤ pow2 47 :=
      (show 1000000 ≤ 2 ^ 20 by decide).trans (Nat.pow_le_pow_right Nat.two_pos (by decide))
    calc rest * 1000000 < unitsPerOne * 1000000 := Nat.mul_lt_mul_of_pos_right rest_lt (by decide)
      _ = 1000000 * unitsPerOne := Nat.mul_comm _ _
      _ ≤ pow2 47 * unitsPerOne := Nat.mul_le_mul_right _ size
  · linarith
  · linarith

/-- The passage through seconds does not lead over a whole second. -/
theorem le_throughSeconds {n k : Nat} (h : k * secondMicros ≤ n) :
    k * secondMicros ≤ throughSeconds n := by
  have second : 0 < secondMicros := by decide
  have floor : k ≤ (Dyadic.nearest n secondMicros).floor :=
    (Nat.le_div_iff_mul_le (pow2_pos _)).mpr (Dyadic.le_mantissa_nearest second h)
  exact (Nat.mul_le_mul_right secondMicros floor).trans (Nat.le_add_right _ _)

theorem throughSeconds_le {n k : Nat} (h : n ≤ k * secondMicros) :
    throughSeconds n ≤ k * secondMicros := by
  have mantissa := Dyadic.mantissa_nearest_le (show 0 < secondMicros by decide) h
  unfold throughSeconds
  -- the significand stays closed, or its size would be computed
  generalize Dyadic.nearest n secondMicros = seconds at mantissa
  dsimp only
  have unit := pow2_pos seconds.places
  have floor : seconds.floor ≤ k := Nat.div_le_of_le_mul (Nat.mul_comm k _ ▸ mantissa)
  rcases Nat.lt_or_eq_of_le floor with below | whole
  · have fraction : seconds.fraction.mantissa * secondMicros ≤
        secondMicros * pow2 seconds.places := by
      rw [Nat.mul_comm secondMicros]
      exact Nat.mul_le_mul_right _ (Nat.mod_lt _ unit).le
    calc seconds.floor * secondMicros + _
        ≤ seconds.floor * secondMicros + secondMicros :=
          Nat.add_le_add_left (Dyadic.parts_nearest_le unit fraction) _
      _ = (seconds.floor + 1) * secondMicros := (Nat.succ_mul _ _).symm
      _ ≤ k * secondMicros := Nat.mul_le_mul_right _ below
  · have nothing : seconds.fraction.mantissa = 0 := by
      have parts := Nat.div_add_mod seconds.mantissa (pow2 seconds.places)
      rw [show seconds.mantissa / pow2 seconds.places = k from whole, Nat.mul_comm] at parts
      show seconds.mantissa % pow2 seconds.places = 0
      omega
    have fraction : (Dyadic.nearest (seconds.fraction.mantissa * secondMicros)
        (pow2 seconds.fraction.places)).parts 1 ≤ 0 :=
      Dyadic.parts_nearest_le unit (by rw [nothing, Nat.zero_mul, Nat.zero_mul])
    rw [whole, Nat.le_zero.mp fraction, Nat.add_zero]

theorem throughSeconds_mul (k : Nat) : throughSeconds (k * secondMicros) = k * secondMicros :=
  Nat.le_antisymm (throughSeconds_le (Nat.le_refl _)) (le_throughSeconds (Nat.le_refl _))

theorem epochMicros_eq : epochMicros = 719162 * 86400000000 := by decide

theorem throughSeconds_whole {u : Int} (whole : u % 1000000 = 0) :
    throughSeconds (u - epochMicros).natAbs = (u - epochMicros).natAbs := by
  obtain ⟨k, hk⟩ : ∃ k, (u - epochMicros).natAbs = k * secondMicros := by
    rw [epochMicros_eq, secondMicros_eq]
    exact ⟨(u - (719162 * 86400000000 : Nat)).natAbs / 1000000, by omega⟩
  rw [hk, throughSeconds_mul]

theorem Zoned.ofUtc?_eq_some_iff {zone : Zone} {u : Int} {t : Zoned} :
    ofUtc? zone u = some t ↔ (0 ≤ u ∧ u < calendarMicros) ∧
      (t.wall.micros : Int) = u + (zone.offsetAtUtc u).1.micros ∧ t.zone = zone ∧
      t.fold = (zone.offsetAtUtc u).2 := by
  simp only [ofUtc?, Option.bind_eq_bind, Option.bind_eq_some_iff, Option.pure_def,
    Option.some.injEq, WallTime.ofMicros?_eq_some_iff]
  constructor
  · rintro ⟨inCalendar, hu, wall, hwall, rfl⟩
    have := inCalendar.inCalendar
    exact ⟨by omega, hwall, rfl, rfl⟩
  · rintro ⟨⟨low, high⟩, hwall, hzone, hfold⟩
    refine ⟨⟨u.toNat, by omega⟩, Int.toNat_of_nonneg low, t.wall, hwall, ?_⟩
    cases t
    simp only [Zoned.mk.injEq, true_and]
    exact ⟨hzone.symm, hfold.symm⟩

theorem Zoned.exists_ofUtc? (zone : Zone) {u : Int} (low : 86400000000 ≤ u)
    (high : u + 86400000000 ≤ calendarMicros) : ∃ t, ofUtc? zone u = some t := by
  have bounds := (zone.offsetAtUtc u).1.bounds
  have inside : (u + (zone.offsetAtUtc u).1.micros).toNat < calendarMicros := by omega
  exact ⟨⟨⟨_, inside⟩, zone, (zone.offsetAtUtc u).2⟩, ofUtc?_eq_some_iff.mpr
    ⟨by omega, Int.toNat_of_nonneg (by omega), rfl, rfl⟩⟩

namespace Zone

/-- Resolving reads an instant that is at most 63 microseconds from that of the wall time, and is
that of the wall time where it is a whole second. It is of the same second, unless it is carried to
the next. -/
theorem resolve?_eq (zone : Zone) (wall : WallTime) :
    ∃ u, zone.resolve? wall = Zoned.ofUtc? zone u ∧ u ≤ (⟨wall, zone, false⟩ : Zoned).utc + 63 ∧
      (⟨wall, zone, false⟩ : Zoned).utc ≤ u + 63 ∧
      ((⟨wall, zone, false⟩ : Zoned).utc % 1000000 = 0 →
        u = (⟨wall, zone, false⟩ : Zoned).utc) ∧
      (⟨wall, zone, false⟩ : Zoned).utc / 1000000 ≤ u / 1000000 := by
  refine ⟨_, rfl, ?_⟩
  have size : ((⟨wall, zone, false⟩ : Zoned).utc - epochMicros).natAbs < 2 ^ 59 := by
    have inCalendar := wall.inCalendar
    have underDay := (⟨wall, zone, false⟩ : Zoned).offset.bounds
    rw [calendarMicros_eq] at inCalendar
    rw [epochMicros_eq]
    show (((wall.micros : Int) - (⟨wall, zone, false⟩ : Zoned).offset.micros) -
      (719162 * 86400000000 : Nat)).natAbs < 2 ^ 59
    omega
  have epoch := epochMicros_eq
  generalize (⟨wall, zone, false⟩ : Zoned).utc = utc at *
  obtain ⟨high, low⟩ := throughSeconds_bounds size
  have whole := throughSeconds_whole (u := utc)
  -- the whole seconds around the instant, counted from 1970 in both directions
  have above := @throughSeconds_le (utc - epochMicros).natAbs
    (719162 * 86400 - utc / 1000000).toNat
  have below := @le_throughSeconds (utc - epochMicros).natAbs
    (utc / 1000000 - 719162 * 86400).toNat
  rw [secondMicros_eq] at above below
  generalize throughSeconds (utc - epochMicros).natAbs = through at *
  rcases Int.lt_trichotomy (utc - epochMicros) 0 with negative | zero | positive
  · rw [Int.sign_eq_neg_one_of_neg negative]
    have above := above (by omega)
    refine ⟨by omega, by omega, fun hs => ?_, by omega⟩
    rw [whole hs]
    omega
  · rw [zero, Int.sign_zero, Int.zero_mul, Int.add_zero]
    omega
  · rw [Int.sign_eq_one_of_pos positive]
    have below := below (by omega)
    refine ⟨by omega, by omega, fun hs => ?_, by omega⟩
    rw [whole hs]
    omega

theorem resolve?_spec {zone : Zone} {wall : WallTime} {t : Zoned}
    (h : zone.resolve? wall = some t) :
    ∃ u, Zoned.ofUtc? zone u = some t ∧ u ≤ (⟨wall, zone, false⟩ : Zoned).utc + 63 ∧
      (⟨wall, zone, false⟩ : Zoned).utc ≤ u + 63 ∧
      ((⟨wall, zone, false⟩ : Zoned).utc % 1000000 = 0 →
        u = (⟨wall, zone, false⟩ : Zoned).utc) ∧
      (⟨wall, zone, false⟩ : Zoned).utc / 1000000 ≤ u / 1000000 := by
  obtain ⟨u, eq, near⟩ := zone.resolve?_eq wall
  exact ⟨u, eq ▸ h, near⟩

theorem exists_resolve?_inside (zone : Zone) {wall : WallTime}
    (low : 3 * 86400000000 ≤ wall.micros)
    (high : wall.micros + 3 * 86400000000 ≤ calendarMicros) :
    ∃ t, zone.resolve? wall = some t := by
  obtain ⟨u, eq, reach, reach', -⟩ := zone.resolve?_eq wall
  have bounds := (⟨wall, zone, false⟩ : Zoned).offset.bounds
  rw [Zoned.utc] at reach reach'
  dsimp only at reach reach'
  obtain ⟨t, read⟩ := Zoned.exists_ofUtc? zone (u := u) (by omega) (by omega)
  exact ⟨t, eq.trans read⟩

theorem resolve?_of_kept {zone : Zone} {wall : WallTime}
    (kept : throughSeconds ((⟨wall, zone, false⟩ : Zoned).utc - epochMicros).natAbs =
      ((⟨wall, zone, false⟩ : Zoned).utc - epochMicros).natAbs) :
    zone.resolve? wall = Zoned.ofUtc? zone (⟨wall, zone, false⟩ : Zoned).utc := by
  simp only [resolve?, kept, Int.sign_mul_natAbs]
  congr 1
  omega

theorem resolve?_whole {zone : Zone} {wall : WallTime}
    (whole : (⟨wall, zone, false⟩ : Zoned).utc % 1000000 = 0) :
    zone.resolve? wall = Zoned.ofUtc? zone (⟨wall, zone, false⟩ : Zoned).utc :=
  resolve?_of_kept (throughSeconds_whole whole)

/-- In a zone with a fixed offset a wall time moves by at most 63 microseconds. -/
theorem resolve?_fixed {offset : Offset} {wall : WallTime} {t : Zoned}
    (h : (fixed offset).resolve? wall = some t) :
    t.zone = fixed offset ∧ t.fold = false ∧ t.wall.micros ≤ wall.micros + 63 ∧
      wall.micros ≤ t.wall.micros + 63 := by
  obtain ⟨u, hu, high, low, _⟩ := resolve?_spec h
  obtain ⟨_, hwall, hzone, hfold⟩ := Zoned.ofUtc?_eq_some_iff.mp hu
  have utc : (⟨wall, fixed offset, false⟩ : Zoned).utc = wall.micros - offset.micros := rfl
  have inForce : ((fixed offset).offsetAtUtc u).1 = offset := rfl
  rw [inForce] at hwall
  refine ⟨hzone, hfold, by omega, by omega⟩

theorem resolve?_fixed_whole {offset : Offset} {wall : WallTime} {t : Zoned}
    (whole : ((wall.micros : Int) - offset.micros) % 1000000 = 0)
    (h : (fixed offset).resolve? wall = some t) : t = ⟨wall, fixed offset, false⟩ := by
  obtain ⟨u, hu, _, _, exact, _⟩ := resolve?_spec h
  obtain ⟨_, hwall, hzone, hfold⟩ := Zoned.ofUtc?_eq_some_iff.mp hu
  have utc : (⟨wall, fixed offset, false⟩ : Zoned).utc = wall.micros - offset.micros := rfl
  have inForce : ((fixed offset).offsetAtUtc u).1 = offset := rfl
  have eq := exact (by rw [utc]; exact whole)
  have same : t.wall.micros = wall.micros := by
    rw [inForce] at hwall
    omega
  cases t with
  | mk twall tzone tfold =>
    obtain rfl : twall = wall := WallTime.eq_of_micros same
    subst hzone hfold
    rfl

end Zone

end Almanac
