import Almanac.Calendar.Year

set_option autoImplicit false

/-!
Day numbers and civil dates correspond.

Each year starts where the year before it ends, and a day lies in year `y` exactly when it falls
between the starts of `y` and of the next year. Within the year the months do the same, so every
day before `dayCount` has one civil date, and numbering that date gives the day back.
-/

namespace Almanac.Calendar

theorem yearOf_pos (n : Nat) : 0 < yearOf n := Nat.succ_pos _

theorem isLeap_iff (y : Nat) : isLeap y = true ↔ y % 4 = 0 ∧ (y % 100 ≠ 0 ∨ y % 400 = 0) := by
  simp [isLeap]

/-- A leap day every fourth year, less the centuries, and again every fourth of those. -/
theorem yearLength_eq (y : Nat) :
    yearLength y + (if y % 100 = 0 then 1 else 0) =
      365 + (if y % 4 = 0 then 1 else 0) + (if y % 400 = 0 then 1 else 0) := by
  simp only [yearLength, isLeap_iff]
  repeat' split
  all_goals omega

theorem daysBeforeYear_succ (y : Nat) (h : 0 < y) :
    daysBeforeYear (y + 1) = daysBeforeYear y + yearLength y := by
  obtain ⟨p, rfl⟩ : ∃ p, y = p + 1 := ⟨y - 1, by omega⟩
  have small : p / 100 ≤ p := Nat.div_le_self _ _
  have by4 : (p + 1) / 4 = p / 4 + if (p + 1) % 4 = 0 then 1 else 0 := by split <;> omega
  have by100 : (p + 1) / 100 = p / 100 + if (p + 1) % 100 = 0 then 1 else 0 := by split <;> omega
  have by400 : (p + 1) / 400 = p / 400 + if (p + 1) % 400 = 0 then 1 else 0 := by split <;> omega
  have length := yearLength_eq (p + 1)
  have centuries : (if (p + 1) % 100 = 0 then 1 else 0) ≤ 1 := by split <;> omega
  simp only [daysBeforeYear, Nat.add_sub_cancel, by4, by100, by400]
  generalize (if (p + 1) % 4 = 0 then 1 else 0) = i at *
  generalize (if (p + 1) % 100 = 0 then 1 else 0) = j at *
  generalize (if (p + 1) % 400 = 0 then 1 else 0) = k at *
  generalize yearLength (p + 1) = l at *
  generalize p / 4 = f at *
  generalize p / 100 = c at *
  generalize p / 400 = a at *
  omega

/-- The first day of a year given by its place in the cycles of 400, 100 and 4 years. -/
theorem daysBeforeYear_of_cycles (a c f g : Nat) (hc : c ≤ 3) (hf : f ≤ 24) (hg : g ≤ 3) :
    daysBeforeYear (400 * a + 100 * c + 4 * f + g + 1) =
      146097 * a + 36524 * c + 1461 * f + 365 * g := by
  have by4 : (400 * a + 100 * c + 4 * f + g) / 4 = 100 * a + 25 * c + f := by omega
  have by100 : (400 * a + 100 * c + 4 * f + g) / 100 = 4 * a + c := by omega
  have by400 : (400 * a + 100 * c + 4 * f + g) / 400 = a := by omega
  simp only [daysBeforeYear, Nat.add_sub_cancel, by4, by100, by400]
  omega

theorem yearLength_of_cycles (a c f g : Nat) (hc : c ≤ 3) (hf : f ≤ 24) (hg : g ≤ 3) :
    yearLength (400 * a + 100 * c + 4 * f + g + 1) =
      if g = 3 ∧ (f < 24 ∨ c = 3) then 366 else 365 := by
  simp only [yearLength, isLeap_iff]
  refine ite_congr (propext ?_) (fun _ => rfl) (fun _ => rfl)
  omega

/-- The year of a day starts on or before it, and the next year after it. -/
theorem yearOf_bounds (n : Nat) :
    daysBeforeYear (yearOf n) ≤ n ∧ n < daysBeforeYear (yearOf n + 1) := by
  unfold yearOf
  extract_lets r c s t
  have hn : n = 146097 * (n / 146097) + r := (Nat.div_add_mod n 146097).symm
  have hr : r < 146097 := Nat.mod_lt _ (by decide)
  have hc : c ≤ 3 ∧ r = 36524 * c + s ∧ s ≤ 36524 ∧ (c < 3 → s < 36524) := by omega
  have ht : s = 1461 * (s / 1461) + t := (Nat.div_add_mod s 1461).symm
  have ht' : t < 1461 := Nat.mod_lt _ (by decide)
  obtain ⟨g, hg⟩ : ∃ g, g = min 3 (t / 365) := ⟨_, rfl⟩
  have hg' : g ≤ 3 ∧ 365 * g ≤ t ∧ (g < 3 → t < 365 * g + 365) := by omega
  rw [← hg]
  clear_value r c s t
  clear hg
  generalize n / 146097 = a at *
  generalize s / 1461 = f at *
  have hf : f ≤ 24 := by omega
  rw [daysBeforeYear_succ _ (Nat.succ_pos _), daysBeforeYear_of_cycles a c f g hc.1 hf hg'.1,
    yearLength_of_cycles a c f g hc.1 hf hg'.1]
  split <;> omega

theorem daysBeforeYear_mono {y z : Nat} (h : y ≤ z) : daysBeforeYear y ≤ daysBeforeYear z := by
  induction h with
  | refl => exact Nat.le_refl _
  | step h ih =>
    rename_i m
    refine Nat.le_trans ih ?_
    rcases Nat.eq_zero_or_pos m with rfl | hm
    · decide
    · rw [Nat.succ_eq_add_one, daysBeforeYear_succ m hm]
      exact Nat.le_add_right _ _

/-- A day lies in the year whose first day is the last one on or before it. -/
theorem yearOf_eq_iff {n y : Nat} (hy : 0 < y) :
    yearOf n = y ↔ daysBeforeYear y ≤ n ∧ n < daysBeforeYear (y + 1) := by
  constructor
  · rintro rfl
    exact yearOf_bounds n
  · intro ⟨low, high⟩
    have ⟨low', high'⟩ := yearOf_bounds n
    rcases Nat.lt_trichotomy (yearOf n) y with h | h | h
    · have := daysBeforeYear_mono (show yearOf n + 1 ≤ y from h)
      omega
    · exact h
    · have := daysBeforeYear_mono (show y + 1 ≤ yearOf n from h)
      omega

theorem daysBeforeMonth_succ (y m : Nat) (h : 0 < m) :
    daysBeforeMonth y (m + 1) = daysBeforeMonth y m + monthLength y m := by
  rw [daysBeforeMonth, if_neg (Nat.ne_of_gt h)]

/-- The twelve months make up the year. -/
theorem daysBeforeMonth_thirteen (y : Nat) : daysBeforeMonth y 13 = yearLength y := by
  cases h : isLeap y <;> simp [daysBeforeMonth, monthLength, yearLength, h]

/-- A day counted from the start of month `k`, among `c` months from there. -/
theorem splitMonths_range {y k c n m d : Nat} (hk : 0 < k)
    (h : daysBeforeMonth y k + n < daysBeforeMonth y (k + c))
    (split : splitMonths y (List.range' k c) n = (m, d)) :
    k ≤ m ∧ m < k + c ∧ 1 ≤ d ∧ d ≤ monthLength y m ∧
      daysBeforeMonth y m + d = daysBeforeMonth y k + n + 1 := by
  induction c generalizing k n with
  | zero => exact absurd h (Nat.not_lt.mpr (Nat.le_add_right _ _))
  | succ c ih =>
    have next := daysBeforeMonth_succ y k hk
    rw [List.range'_succ, splitMonths] at split
    by_cases inside : n < monthLength y k
    · rw [if_pos inside] at split
      obtain ⟨rfl, rfl⟩ := Prod.mk.inj split
      omega
    · rw [if_neg inside] at split
      have shift : k + 1 + c = k + (c + 1) := by omega
      have := ih (k := k + 1) (by omega) (by rw [shift]; omega) split
      omega

/-- The month and day of a day number are a date of its year, and count back to it. -/
theorem monthDayOf_bounds (n : Nat) :
    1 ≤ monthOf n ∧ monthOf n ≤ 12 ∧ 1 ≤ dayOf n ∧ dayOf n ≤ monthLength (yearOf n) (monthOf n) ∧
      dayNumber (yearOf n) (monthOf n) (dayOf n) = n := by
  have ⟨low, high⟩ := yearOf_bounds n
  rw [daysBeforeYear_succ _ (yearOf_pos n)] at high
  have whole : daysBeforeMonth (yearOf n) (1 + 12) = _ := daysBeforeMonth_thirteen (yearOf n)
  have first : daysBeforeMonth (yearOf n) 1 = 0 := rfl
  have := splitMonths_range (k := 1) (c := 12) (m := monthOf n) (d := dayOf n) (Nat.succ_pos 0)
    (by omega) (show splitMonths (yearOf n) months (n - daysBeforeYear (yearOf n)) = _ from rfl)
  unfold dayNumber
  omega

theorem yearOf_le_lastYear {n : Nat} (h : n < dayCount) : yearOf n ≤ lastYear := by
  rcases Nat.lt_or_ge lastYear (yearOf n) with late | early
  · have := daysBeforeYear_mono (show lastYear + 1 ≤ yearOf n from late)
    have := (yearOf_bounds n).1
    rw [daysBeforeYear_lastYear_succ] at *
    omega
  · exact early

/-- Every day of the calendar is the day of its own civil date. -/
theorem dayNumber?_civil {n : Nat} (h : n < dayCount) :
    dayNumber? (yearOf n) (monthOf n) (dayOf n) = some n := by
  obtain ⟨m1, m12, d1, dl, back⟩ := monthDayOf_bounds n
  rw [dayNumber?, if_pos ⟨yearOf_pos n, yearOf_le_lastYear h, m1, m12, d1, dl⟩, back]

end Almanac.Calendar
