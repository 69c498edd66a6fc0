import Almanac.Calendar.Week
import Almanac.Proofs.Calendar.Cycle

set_option autoImplicit false

/-!
Week years as runs of whole weeks.

The weeks of a year run from the start of its week 1 up to the start of week 1 of the next year.
Week 1 is the first week with at least four days in the year, so it starts at most three days before
new year and at most three days after. These starts may lie before the calendar, hence they are
integers here; the week number that the calendar gives is the number of the week in its run.
-/

namespace Almanac.Calendar

/-- Week 1 of year `y` starts on day `start`. -/
structure StartsWeekYear (wkst : Weekday) (y : Nat) (start : Int) : Prop where
  onWeekday : (start - wkst.index) % 7 = 0
  notBefore : (daysBeforeYear y : Int) ≤ start + 3
  notAfter : start ≤ daysBeforeYear y + 3

/-- Day `n` lies in week `week` of a year that has `weeks` of them. -/
def IsInWeek (wkst : Weekday) (n : Nat) (week weeks : Int) : Prop :=
  ∃ (y : Nat) (start next : Int), 0 < y ∧ StartsWeekYear wkst y start ∧
    StartsWeekYear wkst (y + 1) next ∧ start ≤ n ∧ (n : Int) < next ∧
    week = (n - start) / 7 + 1 ∧ weeks = (next - start) / 7

theorem StartsWeekYear.unique {wkst : Weekday} {y : Nat} {s t : Int}
    (hs : StartsWeekYear wkst y s) (ht : StartsWeekYear wkst y t) : s = t := by
  have := hs.onWeekday
  have := ht.onWeekday
  have := hs.notBefore
  have := ht.notBefore
  have := hs.notAfter
  have := ht.notAfter
  omega

theorem yearLength_bounds (y : Nat) : 365 ≤ yearLength y ∧ yearLength y ≤ 366 := by
  unfold yearLength
  split <;> omega

theorem StartsWeekYear.lt {wkst : Weekday} {y z : Nat} {s t : Int} (hy : 0 < y) (hyz : y < z)
    (hs : StartsWeekYear wkst y s) (ht : StartsWeekYear wkst z t) : s < t := by
  have step := daysBeforeYear_succ y hy
  have mono := daysBeforeYear_mono (show y + 1 ≤ z from hyz)
  have length := (yearLength_bounds y).1
  have := hs.notAfter
  have := ht.notBefore
  omega

theorem StartsWeekYear.le {wkst : Weekday} {y z : Nat} {s t : Int} (hy : 0 < y) (hyz : y ≤ z)
    (hs : StartsWeekYear wkst y s) (ht : StartsWeekYear wkst z t) : s ≤ t := by
  rcases Nat.lt_or_eq_of_le hyz with h | rfl
  · exact Int.le_of_lt (hs.lt hy h ht)
  · exact Int.le_of_eq (hs.unique ht)

theorem IsInWeek.unique {wkst : Weekday} {n : Nat} {w ws v vs : Int}
    (h : IsInWeek wkst n w ws) (h' : IsInWeek wkst n v vs) : w = v ∧ ws = vs := by
  obtain ⟨y, s, t, hy, hs, ht, low, high, rfl, rfl⟩ := h
  obtain ⟨y', s', t', hy', hs', ht', low', high', rfl, rfl⟩ := h'
  have same : y = y' := by
    rcases Nat.lt_trichotomy y y' with before | same | after
    · have := ht.le (Nat.succ_pos y) before hs'
      omega
    · exact same
    · have := ht'.le (Nat.succ_pos y') after hs
      omega
  subst same
  obtain rfl := hs.unique hs'
  obtain rfl := ht.unique ht'
  exact ⟨rfl, rfl⟩

theorem weekYearStart?_spec {y s : Nat} {wkst : Weekday} (h : weekYearStart? y wkst = some s) :
    0 < y ∧ StartsWeekYear wkst y s := by
  have index := wkst.index_lt
  have since : wkst.daysSince (daysBeforeYear y) = (daysBeforeYear y + 7 - wkst.index) % 7 := rfl
  unfold weekYearStart? at h
  split at h
  · rename_i range
    refine ⟨range.1, ?_⟩
    dsimp only at h
    split at h
    · split at h
      · cases h
        constructor <;> omega
      · cases h
    · cases h
      constructor <;> omega
  · cases h

theorem weekNumber?_spec {n week weeks : Nat} {wkst : Weekday}
    (h : weekNumber? n wkst = some (week, weeks)) : IsInWeek wkst n week weeks := by
  simp only [weekNumber?, bind, Option.bind_eq_some_iff, pure, Option.some.injEq] at h
  obtain ⟨⟨y, start⟩, hy, next, hnext, h⟩ := h
  obtain ⟨rfl, rfl⟩ := Prod.mk.inj h
  have nextStarts : StartsWeekYear wkst (y + 1) next := (weekYearStart?_spec hnext).2
  have found : 0 < y ∧ StartsWeekYear wkst y start ∧ start ≤ n ∧ n < next := by
    simp only [weekYear?, bind, Option.bind_eq_some_iff, pure] at hy
    obtain ⟨first, hfirst, hy⟩ := hy
    split at hy
    · -- The day comes before week 1 of its own year.
      rename_i early
      obtain ⟨previous, hprevious, hy⟩ := Option.bind_eq_some_iff.mp hy
      obtain ⟨rfl, rfl⟩ := Prod.mk.inj (Option.some.inj hy)
      obtain ⟨positive, starts⟩ := weekYearStart?_spec hprevious
      have succ : yearOf n - 1 + 1 = yearOf n := Nat.sub_add_cancel (yearOf_pos n)
      rw [succ] at hnext
      obtain rfl := Option.some.inj (hnext.symm.trans hfirst)
      have bounds := (yearOf_bounds n).1
      have step := daysBeforeYear_succ _ positive
      have length := (yearLength_bounds (yearOf n - 1)).1
      have := starts.notAfter
      rw [succ] at step
      exact ⟨positive, starts, by omega, early⟩
    · rename_i notEarly
      obtain ⟨following, hfollowing, hy⟩ := Option.bind_eq_some_iff.mp hy
      split at hy
      · rename_i late
        obtain ⟨rfl, rfl⟩ := Prod.mk.inj (Option.some.inj hy)
        obtain ⟨positive, starts⟩ := weekYearStart?_spec hfollowing
        have bounds := (yearOf_bounds n).2
        have step := daysBeforeYear_succ _ positive
        have length := (yearLength_bounds (yearOf n + 1)).1
        have := nextStarts.notBefore
        exact ⟨positive, starts, late, by omega⟩
      · rename_i notLate
        obtain ⟨rfl, rfl⟩ := Prod.mk.inj (Option.some.inj hy)
        obtain ⟨positive, starts⟩ := weekYearStart?_spec hfirst
        obtain rfl := Option.some.inj (hnext.symm.trans hfollowing)
        exact ⟨positive, starts, by omega, by omega⟩
  obtain ⟨positive, starts, low, high⟩ := found
  exact ⟨y, start, next, positive, starts, nextStarts, by omega, by omega, by omega, by omega⟩

theorem exists_weekYearStart? {y : Nat} (wkst : Weekday) (low : 2 ≤ y) (high : y ≤ lastYear) :
    ∃ s, weekYearStart? y wkst = some s := by
  have first := daysBeforeYear_mono low
  have year : daysBeforeYear 2 = 365 := rfl
  unfold weekYearStart?
  rw [if_pos ⟨by omega, high⟩]
  dsimp only
  split
  · exact ⟨_, if_pos (by omega)⟩
  · exact ⟨_, rfl⟩

/-- The calendar numbers the week of every day of the years from 2 to 9998, but for the days of
January 2 in weeks that start on a Friday, which belong to a year that starts before the calendar,
and the days of December 9998 in weeks that belong to year 9999, which ends after it. -/
theorem weekNumber?_ne_none {n : Nat} {wkst : Weekday} (low : 2 ≤ yearOf n)
    (high : yearOf n < lastYear) (first : wkst = .friday → 368 ≤ n)
    (last : wkst = .tuesday ∨ wkst = .wednesday ∨ wkst = .thursday → n < 3651691) :
    weekNumber? n wkst ≠ none := by
  obtain ⟨inYear, before⟩ := yearOf_bounds n
  generalize hy : yearOf n = y at *
  obtain ⟨start, hstart⟩ := exists_weekYearStart? wkst low (Nat.le_of_lt high)
  obtain ⟨following, hfollowing⟩ := exists_weekYearStart? wkst (show 2 ≤ y + 1 by omega) high
  suffices found : ∃ v s next, weekYear? n wkst = some (v, s) ∧
      weekYearStart? (v + 1) wkst = some next by
    obtain ⟨v, s, next, year, hnext⟩ := found
    simp [weekNumber?, year, hnext]
  by_cases early : n < start
  · -- the day belongs to the year before its own
    obtain ⟨previous, hprevious⟩ : ∃ s, weekYearStart? (y - 1) wkst = some s := by
      rcases Nat.lt_or_eq_of_le low with later | rfl
      · exact exists_weekYearStart? wkst (by omega) (by omega)
      · have newYear : daysBeforeYear 2 = 365 := rfl
        obtain ⟨onWeekday, _, notAfter⟩ := (weekYearStart?_spec hstart).2
        cases wkst with
        | friday =>
          have := first rfl
          omega
        | saturday | sunday =>
          simp only [Weekday.index] at onWeekday
          omega
        | monday | tuesday | wednesday | thursday => exact ⟨_, rfl⟩
    refine ⟨y - 1, previous, start, ?_, by rw [show y - 1 + 1 = y by omega, hstart]⟩
    simp [weekYear?, hy, hstart, early, hprevious]
  · by_cases late : following ≤ n
    · -- the day belongs to the year after its own
      obtain ⟨next, hnext⟩ : ∃ s, weekYearStart? (y + 1 + 1) wkst = some s := by
        rcases Nat.lt_or_eq_of_le (show y ≤ 9998 from Nat.le_of_lt_succ high) with sooner | rfl
        · exact exists_weekYearStart? wkst (by omega) (by unfold lastYear; omega)
        · have newYear : daysBeforeYear (9998 + 1) = 3651694 := rfl
          obtain ⟨onWeekday, notBefore, _⟩ := (weekYearStart?_spec hfollowing).2
          cases wkst with
          | tuesday | wednesday | thursday =>
            have := last (by simp)
            omega
          | monday | friday | saturday | sunday =>
            simp only [Weekday.index] at onWeekday
            omega
      exact ⟨y + 1, following, next, by simp [weekYear?, hy, hstart, early, hfollowing, late], hnext⟩
    · exact ⟨y, start, following, by simp [weekYear?, hy, hstart, early, hfollowing, late],
        hfollowing⟩

theorem StartsWeekYear.add_cycle {wkst : Weekday} {y : Nat} {s : Int} (hy : 0 < y) :
    StartsWeekYear wkst (y + 400) (s + cycleDays) ↔ StartsWeekYear wkst y s := by
  have shift := daysBeforeYear_add_cycle hy
  have sevenths : (s + cycleDays - wkst.index) % 7 = (s - wkst.index) % 7 := by
    simp only [cycleDays]
    omega
  constructor
  · intro h
    exact ⟨sevenths ▸ h.onWeekday, by have := h.notBefore; omega, by have := h.notAfter; omega⟩
  · intro h
    exact ⟨sevenths.trans h.onWeekday, by have := h.notBefore; omega,
      by have := h.notAfter; omega⟩

/-- The day one cycle later lies in a week of the same number. The first days of the calendar may
belong to a year before it. -/
theorem isInWeek_add_cycle {wkst : Weekday} {n : Nat} {week weeks : Int} (hn : 3 ≤ n) :
    IsInWeek wkst (n + cycleDays) week weeks ↔ IsInWeek wkst n week weeks := by
  constructor
  · rintro ⟨y, s, t, hy, hs, ht, low, high, rfl, rfl⟩
    have late : 400 < y := by
      rcases Nat.lt_or_ge 400 y with h | h
      · exact h
      · have := daysBeforeYear_mono (show y + 1 ≤ 401 by omega)
        have cycle : daysBeforeYear 401 = cycleDays := rfl
        have := ht.notAfter
        omega
    obtain ⟨z, rfl⟩ : ∃ z, y = z + 400 := ⟨y - 400, by omega⟩
    have hz : 0 < z := by omega
    refine ⟨z, s - cycleDays, t - cycleDays, hz, ?_, ?_, by omega, by omega, ?_, ?_⟩
    · rw [← StartsWeekYear.add_cycle hz, Int.sub_add_cancel]
      exact hs
    · rw [← StartsWeekYear.add_cycle (Nat.succ_pos z), Int.sub_add_cancel,
        show z + 1 + 400 = z + 400 + 1 by omega]
      exact ht
    · congr 2
      omega
    · congr 1
      omega
  · rintro ⟨y, s, t, hy, hs, ht, low, high, rfl, rfl⟩
    refine ⟨y + 400, s + cycleDays, t + cycleDays, by omega,
      (StartsWeekYear.add_cycle hy).mpr hs, ?_, by omega, by omega, ?_, ?_⟩
    · rw [show y + 400 + 1 = y + 1 + 400 by omega]
      exact (StartsWeekYear.add_cycle (Nat.succ_pos y)).mpr ht
    · congr 2
      omega
    · congr 1
      omega

end Almanac.Calendar
