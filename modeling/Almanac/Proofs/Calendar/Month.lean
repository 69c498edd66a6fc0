import Almanac.Calendar.Civil
import Almanac.Proofs.Numeric.Place

set_option autoImplicit false

/-!
Months as runs of days, and the weekdays within a run.

The days of a month follow each other from its first day on, and the months of a year follow each
other. In a run of days the members with one weekday lie seven days apart, so the number of a day
among them is found by division, from either end of the run.
-/

namespace Almanac.Calendar

theorem daysBeforeMonth_le (y : Nat) {m k : Nat} (hm : 0 < m) (hmk : m < k) :
    daysBeforeMonth y m + monthLength y m ≤ daysBeforeMonth y k := by
  induction k with
  | zero => omega
  | succ k ih =>
    rw [daysBeforeMonth_succ y k (by omega)]
    rcases Nat.lt_or_eq_of_le (Nat.le_of_lt_succ hmk) with h | rfl
    · exact Nat.le_trans (ih h) (Nat.le_add_right _ _)
    · exact Nat.le_refl _

theorem dayNumber_first (y m : Nat) : dayNumber y m 1 = daysBeforeYear y + daysBeforeMonth y m := by
  simp [dayNumber]

/-- A day lies in a month of a year when it lies in the run of days that the month is. -/
theorem inMonth_iff {n y m : Nat} (hy : 0 < y) (hm : 1 ≤ m) (hm' : m ≤ 12) :
    yearOf n = y ∧ monthOf n = m ↔
      dayNumber y m 1 ≤ n ∧ n < dayNumber y m 1 + monthLength y m := by
  obtain ⟨m1, m12, d1, dl, back⟩ := monthDayOf_bounds n
  rw [dayNumber_first]
  constructor
  · rintro ⟨rfl, rfl⟩
    unfold dayNumber at back
    omega
  · rintro ⟨low, high⟩
    have year : yearOf n = y := by
      have whole := daysBeforeMonth_le y (k := 13) hm (by omega)
      have next := daysBeforeYear_succ y hy
      rw [daysBeforeMonth_thirteen] at whole
      exact (yearOf_eq_iff hy).mpr ⟨by omega, by omega⟩
    refine ⟨year, ?_⟩
    rw [year] at dl back
    unfold dayNumber at back
    rcases Nat.lt_trichotomy (monthOf n) m with before | same | after
    · have := daysBeforeMonth_le y (show 0 < monthOf n from m1) before
      omega
    · exact same
    · have := daysBeforeMonth_le y hm after
      omega

/-- The months of the calendar, numbered on from the first of a year 0, follow each other. -/
theorem dayNumber_nextMonth {i : Nat} (hi : 12 ≤ i) :
    dayNumber ((i + 1) / 12) ((i + 1) % 12 + 1) 1 =
      dayNumber (i / 12) (i % 12 + 1) 1 + monthLength (i / 12) (i % 12 + 1) := by
  simp only [dayNumber_first]
  have next := daysBeforeMonth_succ (i / 12) (i % 12 + 1) (Nat.succ_pos _)
  by_cases last : i % 12 = 11
  · have year : (i + 1) / 12 = i / 12 + 1 := by omega
    have month : (i + 1) % 12 = 0 := by omega
    rw [year, month, daysBeforeYear_succ _ (by omega)]
    rw [last] at next ⊢
    rw [daysBeforeMonth_thirteen] at next
    have first : daysBeforeMonth (i / 12 + 1) (0 + 1) = 0 := rfl
    omega
  · have year : (i + 1) / 12 = i / 12 := by omega
    have month : (i + 1) % 12 = i % 12 + 1 := by omega
    rw [year, month, next]
    omega

theorem weekday_eq_iff {x d : Nat} : Weekday.ofDay x = Weekday.ofDay d ↔ x % 7 = d % 7 := by
  constructor
  · intro same
    have := congrArg Weekday.index same
    simpa only [Weekday.ofDay, Weekday.index_ofIndex] using this
  · intro same
    simp only [Weekday.ofDay, Weekday.ofIndex, same]

theorem ncard_weeks {days : Set Nat} (first : Nat) {n : Nat}
    (weeks : ∀ x, x ∈ days ↔ ∃ k < n, first + 7 * k = x) : days.ncard = n := by
  have image : days = ((Finset.range n).image (first + 7 * ·) : Finset Nat) := by
    ext x
    simp [weeks]
  have injective : Function.Injective (first + 7 * ·) := by
    intro j k same
    dsimp only at same
    omega
  rw [image, Set.ncard_coe_finset, Finset.card_image_of_injective _ injective, Finset.card_range]

theorem ncard_weekday_upTo {first last d : Nat} (low : first ≤ d) (high : d ≤ last) :
    {x | ((first ≤ x ∧ x ≤ last) ∧ Weekday.ofDay x = Weekday.ofDay d) ∧ x ≤ d}.ncard =
      (d - first) / 7 + 1 := by
  apply ncard_weeks (d - 7 * ((d - first) / 7))
  intro x
  simp only [Set.mem_ofPred_eq, weekday_eq_iff]
  constructor
  · rintro ⟨⟨⟨h1, h2⟩, h3⟩, h4⟩
    exact ⟨(d - first) / 7 - (d - x) / 7, by omega, by omega⟩
  · rintro ⟨k, hk, rfl⟩
    omega

theorem ncard_weekday_onward {first last d : Nat} (low : first ≤ d) (high : d ≤ last) :
    {x | ((first ≤ x ∧ x ≤ last) ∧ Weekday.ofDay x = Weekday.ofDay d) ∧ d ≤ x}.ncard =
      (last - d) / 7 + 1 := by
  apply ncard_weeks d
  intro x
  simp only [Set.mem_ofPred_eq, weekday_eq_iff]
  constructor
  · rintro ⟨⟨⟨h1, h2⟩, h3⟩, h4⟩
    exact ⟨(x - d) / 7, by omega, by omega⟩
  · rintro ⟨k, hk, rfl⟩
    omega

/-- The number of a day among those of a run that share its weekday. -/
theorem isNth_weekday {first last d : Nat} (low : first ≤ d) (high : d ≤ last) {n : Int} :
    IsNth {x | (first ≤ x ∧ x ≤ last) ∧ Weekday.ofDay x = Weekday.ofDay d} d n ↔
      n = (d - first) / 7 + 1 ∨ n = -((last - d) / 7 + 1) := by
  simp only [IsNth, Set.mem_ofPred_eq, ncard_weekday_upTo low high, ncard_weekday_onward low high]
  constructor
  · rintro ⟨_, ⟨_, h⟩ | ⟨_, h⟩⟩
    · left
      omega
    · right
      omega
  · rintro (h | h)
    · exact ⟨⟨⟨low, high⟩, trivial⟩, .inl ⟨by omega, by omega⟩⟩
    · exact ⟨⟨⟨low, high⟩, trivial⟩, .inr ⟨by omega, by omega⟩⟩

end Almanac.Calendar
