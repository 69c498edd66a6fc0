import Almanac.Occurrence.Period
import Almanac.Proofs.Calendar.Cycle
import Almanac.Proofs.Calendar.Month
import Almanac.Proofs.Time.Wall

set_option autoImplicit false

/-!
Periods as runs of moments.

The periods of a frequency follow each other without gaps: a wall time lies in period `i` when it
falls between the first moments of `i` and of the next period. A period is at least a second long,
and those that expansion looks at lie in the calendar as a whole. In 400 years the periods of every
frequency come round.
-/

namespace Almanac

open Calendar

theorem Calendar.yearOf_lt_iff {n y : Nat} : yearOf n < y ↔ n < daysBeforeYear y := by
  obtain ⟨low, high⟩ := yearOf_bounds n
  constructor
  · intro early
    have := daysBeforeYear_mono (show yearOf n + 1 ≤ y from early)
    omega
  · intro early
    by_contra late
    have := daysBeforeYear_mono (show y ≤ yearOf n by omega)
    omega

theorem Calendar.yearOf_mono {m n : Nat} (h : m ≤ n) : yearOf m ≤ yearOf n := by
  by_contra later
  have := yearOf_lt_iff.mp (show yearOf n < yearOf m by omega)
  have := (yearOf_bounds m).1
  omega

theorem Calendar.yearOf_daysBeforeYear {y : Nat} (hy : 0 < y) : yearOf (daysBeforeYear y) = y := by
  apply (yearOf_eq_iff hy).mpr
  have := daysBeforeYear_succ y hy
  have : 365 ≤ yearLength y := by
    unfold yearLength
    split <;> omega
  omega

namespace Frequency

/-- The numbers that periods have: years from 1 on, and months from the first of year 1 on. -/
def IsPeriod : Frequency → Nat → Prop
  | yearly, i => 1 ≤ i
  | monthly, i => 12 ≤ i
  | _, _ => True

/-- The first moment of a period, in microseconds. -/
def startOf (f : Frequency) (w : Weekday) (i : Nat) : Nat :=
  f.firstDay w i * dayMicros + f.timeOfDay i

variable {f : Frequency} {w : Weekday} {i j : Nat} {t : WallTime}

theorem IsPeriod.mono (h : f.IsPeriod i) (hij : i ≤ j) : f.IsPeriod j := by
  cases f <;> simp only [IsPeriod] at h ⊢ <;> omega

theorem isPeriod_fine (fine : f.isSubDaily = true) : f.IsPeriod i := by
  cases f with
  | yearly | monthly | weekly | daily => cases fine
  | hourly | minutely | secondly => trivial

theorem isPeriod_of_periodOf? (h : f.periodOf? w t = some i) : f.IsPeriod i := by
  cases f with
  | yearly =>
    cases h
    exact yearOf_pos _
  | monthly =>
    cases h
    have := yearOf_pos t.day
    simp only [IsPeriod, WallTime.year]
    omega
  | weekly | daily | hourly | minutely | secondly => trivial

theorem startOf_coarse (coarse : f.isSubDaily = false) :
    f.startOf w i = f.firstDay w i * 86400000000 := by
  rw [startOf, dayMicros_eq]
  cases f with
  | yearly | monthly | weekly | daily => simp only [timeOfDay, Nat.add_zero]
  | hourly | minutely | secondly => cases coarse

theorem startOf_hourly : hourly.startOf w i = i * 3600000000 := by
  simp only [startOf, firstDay, timeOfDay, perDay, dayMicros_eq, Nat.reduceDiv]
  omega

theorem startOf_minutely : minutely.startOf w i = i * 60000000 := by
  simp only [startOf, firstDay, timeOfDay, perDay, dayMicros_eq, Nat.reduceDiv]
  omega

theorem startOf_secondly : secondly.startOf w i = i * 1000000 := by
  simp only [startOf, firstDay, timeOfDay, perDay, dayMicros_eq, Nat.reduceDiv]
  omega

/-- The days of a period of whole days. -/
def dayLength (f : Frequency) (i : Nat) : Nat :=
  match f with
  | yearly => yearLength i
  | monthly => monthLength (i / 12) (i % 12 + 1)
  | weekly => 7
  | _ => 1

/-- The days of the shortest period of whole days. -/
def leastDays : Frequency → Nat
  | yearly => 365
  | monthly => 28
  | weekly => 7
  | _ => 1

/-- The microseconds of the shortest period. -/
def leastLength : Frequency → Nat
  | hourly => 3600000000
  | minutely => 60000000
  | secondly => 1000000
  | f => f.leastDays * 86400000000

theorem dayLength_bounds (f : Frequency) (i : Nat) :
    f.leastDays ≤ f.dayLength i ∧ f.dayLength i ≤ 366 := by
  cases f with
  | yearly =>
    simp only [dayLength, leastDays, yearLength]
    split <;> omega
  | monthly =>
    simp only [dayLength, leastDays, monthLength]
    repeat' split
    all_goals omega
  | weekly | daily | hourly | minutely | secondly => simp [dayLength, leastDays]

theorem leastLength_bound (f : Frequency) : 1000000 ≤ f.leastLength := by cases f <;> decide

/-- A period of whole days ends where the next one starts. -/
theorem firstDay_succ (coarse : f.isSubDaily = false) (h : f.IsPeriod i) :
    f.firstDay w (i + 1) = f.firstDay w i + f.dayLength i := by
  cases f with
  | yearly => exact daysBeforeYear_succ i h
  | monthly => exact dayNumber_nextMonth h
  | weekly =>
    simp only [firstDay, dayLength]
    omega
  | daily => rfl
  | hourly | minutely | secondly => cases coarse

theorem days_coarse (coarse : f.isSubDaily = false) :
    f.days w i = List.range' (f.firstDay w i) (f.dayLength i) := by
  cases f with
  | yearly | monthly | weekly | daily => rfl
  | hourly | minutely | secondly => cases coarse

theorem days_fine (fine : f.isSubDaily = true) : f.days w i = [i / f.perDay] := by
  cases f with
  | yearly | monthly | weekly | daily => cases fine
  | hourly | minutely | secondly => rfl

/-- How long a period is: no shorter than the shortest of its frequency, and at most a leap year. -/
theorem startOf_succ_bounds (h : f.IsPeriod i) :
    f.startOf w i + f.leastLength ≤ f.startOf w (i + 1) ∧
      f.startOf w (i + 1) ≤ f.startOf w i + 366 * 86400000000 := by
  by_cases fine : f.isSubDaily = true
  · cases f with
    | yearly | monthly | weekly | daily => cases fine
    | hourly =>
      simp only [startOf_hourly, leastLength]
      omega
    | minutely =>
      simp only [startOf_minutely, leastLength]
      omega
    | secondly =>
      simp only [startOf_secondly, leastLength]
      omega
  · have coarse : f.isSubDaily = false := by simpa using fine
    have days := dayLength_bounds f i
    have length : f.leastLength = f.leastDays * 86400000000 := by
      cases f with
      | yearly | monthly | weekly | daily => rfl
      | hourly | minutely | secondly => cases coarse
    rw [startOf_coarse coarse, startOf_coarse coarse, firstDay_succ coarse h, length]
    omega

/-- Periods start on whole seconds. -/
theorem startOf_whole (f : Frequency) (w : Weekday) (i : Nat) :
    f.startOf w i % 1000000 = 0 := by
  by_cases fine : f.isSubDaily = true
  · cases f with
    | yearly | monthly | weekly | daily => cases fine
    | hourly =>
      rw [startOf_hourly]
      omega
    | minutely =>
      rw [startOf_minutely]
      omega
    | secondly =>
      rw [startOf_secondly]
      omega
  · rw [startOf_coarse (by simpa using fine)]
    omega

/-- A period is at least a second long. -/
theorem startOf_succ (h : f.IsPeriod i) :
    f.startOf w i + 1000000 ≤ f.startOf w (i + 1) :=
  Nat.le_trans (Nat.add_le_add_left f.leastLength_bound _) (startOf_succ_bounds h).1

theorem startOf_mono (h : f.IsPeriod i) (hij : i ≤ j) :
    f.startOf w i ≤ f.startOf w j := by
  induction hij with
  | refl => exact Nat.le_refl _
  | @step k hik ih =>
    have := startOf_succ (w := w) (h.mono hik)
    rw [Nat.succ_eq_add_one]
    omega

theorem le_of_startOf_le (h : f.IsPeriod j) (le : f.startOf w i ≤ f.startOf w j) : i ≤ j := by
  by_contra before
  have next := startOf_succ (w := w) h
  have later := startOf_mono (w := w) (h.mono (Nat.le_add_right j 1)) (show j + 1 ≤ i by omega)
  omega

/-- Later periods start as many least lengths later at least. -/
theorem startOf_add (h : f.IsPeriod i) (n : Nat) :
    f.startOf w i + n * f.leastLength ≤ f.startOf w (i + n) := by
  induction n with
  | zero => simp
  | succ n ih =>
    calc f.startOf w i + (n + 1) * f.leastLength
        = f.startOf w i + n * f.leastLength + f.leastLength := by
          rw [Nat.add_mul, Nat.one_mul, Nat.add_assoc]
      _ ≤ f.startOf w (i + n) + f.leastLength := Nat.add_le_add_right ih _
      _ ≤ f.startOf w (i + n + 1) := (startOf_succ_bounds (h.mono (Nat.le_add_right i n))).1

/-- A period of whole days holds a wall time when it holds its day. -/
theorem periodOf?_coarse (coarse : f.isSubDaily = false) (h : f.IsPeriod i) :
    f.periodOf? w t = some i ↔
      f.firstDay w i ≤ t.day ∧ t.day < f.firstDay w (i + 1) := by
  cases f with
  | yearly =>
    simp only [periodOf?, Option.some.injEq, firstDay]
    exact yearOf_eq_iff h
  | monthly =>
    have month := monthDayOf_bounds t.day
    rw [firstDay_succ coarse h]
    simp only [firstDay, dayLength]
    rw [← inMonth_iff (by simp only [IsPeriod] at h; omega) (by omega) (by omega)]
    simp only [periodOf?, Option.some.injEq, WallTime.year, WallTime.month]
    omega
  | weekly =>
    simp only [periodOf?, firstDay]
    split
    · simp only [Option.some.injEq]
      omega
    · simp only [reduceCtorEq, false_iff]
      omega
  | daily =>
    simp only [periodOf?, Option.some.injEq, firstDay]
    omega
  | hourly | minutely | secondly => cases coarse

/-- A wall time lies in the period with the last start on or before it. -/
theorem periodOf?_eq_some_iff (h : f.IsPeriod i) :
    f.periodOf? w t = some i ↔
      f.startOf w i ≤ t.micros ∧ t.micros < f.startOf w (i + 1) := by
  by_cases fine : f.isSubDaily = true
  · cases f with
    | yearly | monthly | weekly | daily => cases fine
    | hourly =>
      simp only [periodOf?, Option.some.injEq, startOf_hourly, hourMicros_eq]
      omega
    | minutely =>
      simp only [periodOf?, Option.some.injEq, startOf_minutely, minuteMicros_eq]
      omega
    | secondly =>
      simp only [periodOf?, Option.some.injEq, startOf_secondly, secondMicros_eq]
      omega
  · have coarse : f.isSubDaily = false := by simpa using fine
    rw [periodOf?_coarse coarse h, startOf_coarse coarse, startOf_coarse coarse, WallTime.day_eq]
    omega

/-! The end of the calendar. -/

theorem firstDay_eq (h : f.IsPeriod i) : f.firstDay w i = f.startOf w i / 86400000000 := by
  cases f with
  | yearly | monthly | weekly | daily =>
    rw [startOf_coarse rfl]
    omega
  | hourly =>
    simp only [startOf_hourly, firstDay, perDay]
    omega
  | minutely =>
    simp only [startOf_minutely, firstDay, perDay]
    omega
  | secondly =>
    simp only [startOf_secondly, firstDay, perDay]
    omega

theorem firstDay_mono (h : f.IsPeriod i) (hij : i ≤ j) :
    f.firstDay w i ≤ f.firstDay w j := by
  rw [firstDay_eq h, firstDay_eq (h.mono hij)]
  exact Nat.div_le_div_right (startOf_mono h hij)

/-- The year in which a period starts. -/
def yearOfPeriod (f : Frequency) (w : Weekday) (i : Nat) : Nat := yearOf (f.firstDay w i)

theorem yearOfPeriod_mono (h : f.IsPeriod i) (hij : i ≤ j) :
    f.yearOfPeriod w i ≤ f.yearOfPeriod w j :=
  yearOf_mono (firstDay_mono h hij)

theorem yearOfPeriod_yearly (h : yearly.IsPeriod i) : yearly.yearOfPeriod w i = i :=
  yearOf_daysBeforeYear h

theorem yearOfPeriod_monthly (h : monthly.IsPeriod i) : monthly.yearOfPeriod w i = i / 12 := by
  simp only [IsPeriod] at h
  refine ((inMonth_iff (m := i % 12 + 1) (by omega) (by omega) (by omega)).mpr ⟨le_rfl, ?_⟩).1
  have := (dayLength_bounds monthly i).1
  simp only [dayLength, leastDays] at this
  omega

/-- The first year of the calendar has 365 days. -/
theorem firstDay_of_year (year : 2 ≤ f.yearOfPeriod w i) : 365 ≤ f.firstDay w i :=
  Nat.le_of_not_lt fun early =>
    Nat.not_lt_of_le year (yearOf_lt_iff.mpr (show f.firstDay w i < daysBeforeYear 2 from early))

/-- The periods below the limit are those that start before the last year. -/
theorem lt_periodLimit_iff (h : f.IsPeriod i) :
    i < f.periodLimit w ↔ f.yearOfPeriod w i < lastYear := by
  have days : daysBeforeYear lastYear = 3651694 := rfl
  cases f with
  | yearly =>
    rw [yearOfPeriod_yearly h]
    rfl
  | monthly =>
    simp only [yearOfPeriod_monthly h, periodLimit, lastYear]
    omega
  | weekly =>
    have := w.index_lt
    simp only [yearOfPeriod, firstDay, periodLimit, yearOf_lt_iff, days]
    omega
  | daily => simp only [yearOfPeriod, firstDay, periodLimit, yearOf_lt_iff]
  | hourly | minutely | secondly =>
    simp only [yearOfPeriod, firstDay, periodLimit, perDay, yearOf_lt_iff]
    omega

/-- The periods below the limit end within the calendar. -/
theorem startOf_succ_le (h : f.IsPeriod i) (limit : i < f.periodLimit w) :
    f.startOf w (i + 1) ≤ calendarMicros := by
  have early := yearOf_lt_iff.mp ((lt_periodLimit_iff h).mp limit)
  have days : daysBeforeYear lastYear = 3651694 := rfl
  rw [calendarMicros_eq]
  by_cases fine : f.isSubDaily = true
  · have first := firstDay_eq (w := w) h
    cases f with
    | yearly | monthly | weekly | daily => cases fine
    | hourly =>
      rw [startOf_hourly] at first ⊢
      omega
    | minutely =>
      rw [startOf_minutely] at first ⊢
      omega
    | secondly =>
      rw [startOf_secondly] at first ⊢
      omega
  · have coarse : f.isSubDaily = false := by simpa using fine
    have := (dayLength_bounds f i).2
    rw [startOf_coarse coarse, firstDay_succ coarse h]
    omega

/-- A wall time lies in a period when its day and, for finer periods, its hour, minute and second
do. -/
theorem periodOf?_iff_fields (h : f.IsPeriod i) :
    f.periodOf? w t = some i ↔ t.day ∈ f.days w i ∧
      (f.rank ≤ hourly.rank → t.hour = f.timeOfDay i / hourMicros) ∧
      (f.rank ≤ minutely.rank → t.minute = f.timeOfDay i % hourMicros / minuteMicros) ∧
      (f.rank ≤ secondly.rank → t.second = f.timeOfDay i % minuteMicros / secondMicros) := by
  by_cases fine : f.isSubDaily = true
  · rw [days_fine fine, List.mem_singleton, WallTime.day_eq, WallTime.hour_eq, WallTime.minute_eq,
      WallTime.second_eq, hourMicros_eq, minuteMicros_eq, secondMicros_eq]
    cases f with
    | yearly | monthly | weekly | daily => cases fine
    | hourly =>
      simp only [periodOf?, Option.some.injEq, hourMicros_eq, timeOfDay, perDay, rank, dayMicros_eq]
      omega
    | minutely =>
      simp only [periodOf?, Option.some.injEq, minuteMicros_eq, timeOfDay, perDay, rank,
        dayMicros_eq]
      omega
    | secondly =>
      simp only [periodOf?, Option.some.injEq, secondMicros_eq, timeOfDay, perDay, rank,
        dayMicros_eq]
      omega
  · have coarse : f.isSubDaily = false := by simpa using fine
    have coarser : ¬ f.rank ≤ hourly.rank :=
      fun le => fine (decide_eq_true (Nat.lt_succ_of_le le))
    have minutes : ¬ f.rank ≤ minutely.rank := fun le => coarser (Nat.le_trans le (by decide))
    have seconds : ¬ f.rank ≤ secondly.rank := fun le => coarser (Nat.le_trans le (by decide))
    rw [periodOf?_coarse coarse h, days_coarse coarse, firstDay_succ coarse h, List.mem_range'_1]
    simp only [coarser, minutes, seconds, false_imp_iff, and_true]

theorem firstDay_fine (fine : f.isSubDaily = true) : f.firstDay w i = i / f.perDay := by
  cases f with
  | yearly | monthly | weekly | daily => cases fine
  | hourly | minutely | secondly => rfl

/-- The hour of a period, for frequencies finer than a day. -/
theorem hour_fine (fine : f.isSubDaily = true) :
    f.timeOfDay i / hourMicros = i / (f.perDay / 24) % 24 := by
  cases f with
  | yearly | monthly | weekly | daily => cases fine
  | hourly | minutely | secondly =>
    simp only [timeOfDay, perDay, dayMicros_eq, hourMicros_eq, Nat.reduceDiv]
    omega

theorem minute_secondly :
    secondly.timeOfDay i % hourMicros / minuteMicros = i / 60 % 60 := by
  simp only [timeOfDay, perDay, dayMicros_eq, hourMicros_eq, minuteMicros_eq, Nat.reduceDiv]
  omega

theorem timeOfDay_lt : f.timeOfDay i < 86400000000 := by
  cases f with
  | yearly | monthly | weekly | daily =>
    simp only [timeOfDay]
    omega
  | hourly | minutely | secondly =>
    simp only [timeOfDay, perDay, dayMicros_eq, Nat.reduceDiv]
    omega

theorem firstDay_le_of_mem_days {d : Nat} (member : d ∈ f.days w i) :
    f.firstDay w i ≤ d := by
  by_cases fine : f.isSubDaily = true
  · cases f with
    | yearly | monthly | weekly | daily => cases fine
    | hourly | minutely | secondly => exact Nat.le_of_eq (List.mem_singleton.mp member).symm
  · rw [days_coarse (by simpa using fine), List.mem_range'_1] at member
    exact member.1

/-- The days of a period that starts before the last year are days of the calendar. -/
theorem day_lt_of_mem_days (h : f.IsPeriod i) (limit : i < f.periodLimit w) {d : Nat}
    (member : d ∈ f.days w i) : d < dayCount := by
  have early := yearOf_lt_iff.mp ((lt_periodLimit_iff h).mp limit)
  have inside := startOf_succ_le h limit
  have days : daysBeforeYear lastYear = 3651694 := rfl
  have count : dayCount = 3652059 := rfl
  rw [calendarMicros_eq] at inside
  by_cases fine : f.isSubDaily = true
  · have first := firstDay_fine (w := w) (i := i) fine
    rw [days_fine fine, List.mem_singleton] at member
    omega
  · have coarse : f.isSubDaily = false := by simpa using fine
    rw [days_coarse coarse, List.mem_range'_1] at member
    rw [startOf_coarse coarse, firstDay_succ coarse h] at inside
    omega

/-- The days of a period lie in the year in which it starts; a week lies in one year where it is the
first to start there. -/
theorem yearOf_of_mem_days (h : f.IsPeriod i)
    (first : f = .weekly → f.yearOfPeriod w (i - 1) < f.yearOfPeriod w i) {d : Nat}
    (member : d ∈ f.days w i) : yearOf d = f.yearOfPeriod w i := by
  cases f with
  | yearly =>
    rw [days_coarse rfl, List.mem_range'_1] at member
    rw [yearOfPeriod_yearly h]
    exact (yearOf_eq_iff h).mpr (by rw [daysBeforeYear_succ i h]; exact member)
  | monthly =>
    rw [days_coarse rfl, List.mem_range'_1] at member
    rw [yearOfPeriod_monthly h]
    simp only [IsPeriod] at h
    exact ((inMonth_iff (by omega) (by omega) (by omega)).mpr member).1
  | weekly =>
    rw [days_coarse rfl, List.mem_range'_1] at member
    have early := first rfl
    have positive := yearOf_pos (weekly.firstDay w i)
    have low := (yearOf_bounds (weekly.firstDay w i)).1
    have before := yearOf_lt_iff.mp early
    have next := daysBeforeYear_succ (yearOf (weekly.firstDay w i)) positive
    have length := (dayLength_bounds yearly (yearOf (weekly.firstDay w i))).1
    rw [yearOfPeriod]
    refine (yearOf_eq_iff positive).mpr ⟨Nat.le_trans low member.1, ?_⟩
    simp only [yearOfPeriod, firstDay, dayLength, leastDays] at *
    omega
  | daily | hourly | minutely | secondly => rw [List.mem_singleton.mp member, yearOfPeriod]

/-! The cycle of 400 years. -/

/-- The number of periods in 400 years. -/
def cyclePeriods : Frequency → Nat
  | yearly => 400
  | monthly => 4800
  | weekly => 20871
  | f => cycleDays * f.perDay

theorem firstDay_add_cycle (h : f.IsPeriod i) :
    f.firstDay w (i + f.cyclePeriods) = f.firstDay w i + cycleDays := by
  cases f with
  | yearly => exact daysBeforeYear_add_cycle h
  | monthly =>
    simp only [IsPeriod] at h
    have year : (i + 4800) / 12 = i / 12 + 400 := by omega
    have month : (i + 4800) % 12 = i % 12 := by omega
    simp only [firstDay, cyclePeriods, dayNumber_first, year, month, daysBeforeMonth_add_cycle,
      daysBeforeYear_add_cycle (show 0 < i / 12 by omega)]
    omega
  | weekly =>
    simp only [firstDay, cyclePeriods, cycleDays]
    omega
  | daily =>
    simp only [firstDay, cyclePeriods, perDay]
    omega
  | hourly | minutely | secondly =>
    simp only [firstDay, cyclePeriods, perDay]
    omega

theorem timeOfDay_add_cycle : f.timeOfDay (i + f.cyclePeriods) = f.timeOfDay i := by
  cases f with
  | yearly | monthly | weekly | daily => rfl
  | hourly | minutely | secondly =>
    simp only [timeOfDay, cyclePeriods, perDay, Nat.add_mul_mod_self_right]

theorem dayLength_add_cycle : f.dayLength (i + f.cyclePeriods) = f.dayLength i := by
  cases f with
  | yearly => exact yearLength_add_cycle i
  | monthly =>
    have year : (i + 4800) / 12 = i / 12 + 400 := by omega
    have month : (i + 4800) % 12 = i % 12 := by omega
    simp only [dayLength, cyclePeriods, year, month, monthLength_add_cycle]
  | weekly | daily | hourly | minutely | secondly => rfl

theorem yearOfPeriod_add_cycle (h : f.IsPeriod i) :
    f.yearOfPeriod w (i + f.cyclePeriods) = f.yearOfPeriod w i + 400 := by
  rw [yearOfPeriod, firstDay_add_cycle h, yearOf_add_cycle, yearOfPeriod]

/-- A period that starts after year 400 has one a cycle before it. -/
theorem cyclePeriods_le (h : f.IsPeriod i) (late : 400 < f.yearOfPeriod w i) :
    f.cyclePeriods ≤ i ∧ f.IsPeriod (i - f.cyclePeriods) := by
  have first : cycleDays ≤ f.firstDay w i := by
    by_contra early
    have cycle : daysBeforeYear 401 = cycleDays := rfl
    have := yearOf_lt_iff.mpr
      (show f.firstDay w i < daysBeforeYear 401 by omega)
    simp only [yearOfPeriod] at late
    omega
  cases f with
  | yearly =>
    rw [yearOfPeriod_yearly h] at late
    simp only [cyclePeriods, IsPeriod]
    omega
  | monthly =>
    rw [yearOfPeriod_monthly h] at late
    simp only [cyclePeriods, IsPeriod]
    omega
  | weekly =>
    have := w.index_lt
    simp only [firstDay, cycleDays] at first
    simp only [cyclePeriods, IsPeriod, and_true]
    omega
  | daily | hourly | minutely | secondly =>
    simp only [firstDay, perDay, cycleDays] at first
    simp only [cyclePeriods, IsPeriod, perDay, cycleDays, and_true]
    omega

/-- A period that starts late enough has one whole cycles before it. -/
theorem sub_cycles {n : Nat} (h : f.IsPeriod i) (late : 400 * n < f.yearOfPeriod w i) :
    ∃ j, f.IsPeriod j ∧ i = j + n * f.cyclePeriods ∧
      f.yearOfPeriod w i = f.yearOfPeriod w j + 400 * n := by
  induction n generalizing i with
  | zero => exact ⟨i, h, by simp, by simp⟩
  | succ n ih =>
    obtain ⟨fits, before⟩ := cyclePeriods_le h (w := w) (by omega)
    have split : i = (i - f.cyclePeriods) + f.cyclePeriods := by omega
    have year := yearOfPeriod_add_cycle (w := w) before
    rw [← split] at year
    obtain ⟨j, hj, eq, yearj⟩ := ih before (by omega)
    refine ⟨j, hj, ?_, ?_⟩
    · rw [Nat.succ_mul, ← Nat.add_assoc, ← eq]
      exact split
    · rw [year, yearj, Nat.mul_succ, Nat.add_assoc]

end Frequency

end Almanac
