import Almanac.Proofs.Calendar.WeekYear

set_option autoImplicit false

/-!
Days that fall alike.

Two days fall alike when nothing that a rule asks of a day tells them apart: month, day of month and
of year, weekday, week number, and the lengths of month and year. A day falls like the one that lies
400 years later, and the days of a year fall like those of any other year that starts on the same
weekday and is, with both its neighbours, a leap year where the other is. Every year has another one
of this kind less than 400 years later.
-/

namespace Almanac.Calendar

/-- Day `e` falls in its year, month and week as day `d` does. -/
structure FallsLike (d e : Nat) : Prop where
  month : monthOf e = monthOf d
  dayOfMonth : dayOf e = dayOf d
  yearDay : yearDayOf e = yearDayOf d
  weekday : Weekday.ofDay e = Weekday.ofDay d
  yearLength : yearLength (yearOf e) = yearLength (yearOf d)
  monthLength : monthLength (yearOf e) (monthOf e) = monthLength (yearOf d) (monthOf d)
  week : ∀ wkst week weeks, IsInWeek wkst e week weeks ↔ IsInWeek wkst d week weeks

namespace FallsLike

variable {c d e : Nat}

theorem refl : FallsLike d d := ⟨rfl, rfl, rfl, rfl, rfl, rfl, fun _ _ _ => Iff.rfl⟩

theorem symm (h : FallsLike d e) : FallsLike e d :=
  ⟨h.month.symm, h.dayOfMonth.symm, h.yearDay.symm, h.weekday.symm, h.yearLength.symm,
    h.monthLength.symm, fun wkst week weeks => (h.week wkst week weeks).symm⟩

theorem trans (h : FallsLike c d) (h' : FallsLike d e) : FallsLike c e :=
  ⟨h'.month.trans h.month, h'.dayOfMonth.trans h.dayOfMonth, h'.yearDay.trans h.yearDay,
    h'.weekday.trans h.weekday, h'.yearLength.trans h.yearLength,
    h'.monthLength.trans h.monthLength,
    fun wkst week weeks => (h'.week wkst week weeks).trans (h.week wkst week weeks)⟩

end FallsLike

/-- A day falls like the one 400 years later, the first days of the calendar apart. -/
theorem fallsLike_add_cycle {d : Nat} (hd : 3 ≤ d) : FallsLike d (d + cycleDays) where
  month := monthOf_add_cycle d
  dayOfMonth := dayOf_add_cycle d
  yearDay := yearDayOf_add_cycle d
  weekday := weekday_add_cycle d
  yearLength := by rw [yearOf_add_cycle, yearLength_add_cycle]
  monthLength := by rw [yearOf_add_cycle, monthOf_add_cycle, monthLength_add_cycle]
  week := fun _ _ _ => isInWeek_add_cycle hd

/-- Year `z` starts on the weekday on which year `y` does, and the two and their neighbours are as
long. -/
structure Resembles (y z : Nat) : Prop where
  weekday : daysBeforeYear z % 7 = daysBeforeYear y % 7
  before : isLeap (z - 1) = isLeap (y - 1)
  leap : isLeap z = isLeap y
  after : isLeap (z + 1) = isLeap (y + 1)

instance (y z : Nat) : Decidable (Resembles y z) :=
  decidable_of_iff (daysBeforeYear z % 7 = daysBeforeYear y % 7 ∧ isLeap (z - 1) = isLeap (y - 1) ∧
      isLeap z = isLeap y ∧ isLeap (z + 1) = isLeap (y + 1))
    ⟨fun ⟨weekday, before, leap, after⟩ => ⟨weekday, before, leap, after⟩,
      fun ⟨weekday, before, leap, after⟩ => ⟨weekday, before, leap, after⟩⟩

theorem StartsWeekYear.shift {wkst : Weekday} {y z : Nat} {start shift : Int}
    (apart : (daysBeforeYear z : Int) = daysBeforeYear y + shift) (weeks : shift % 7 = 0)
    (h : StartsWeekYear wkst y start) : StartsWeekYear wkst z (start + shift) := by
  have := h.onWeekday
  have := h.notBefore
  have := h.notAfter
  constructor <;> omega

namespace Resembles

variable {y z d e : Nat}

theorem symm (h : Resembles y z) : Resembles z y :=
  ⟨h.weekday.symm, h.before.symm, h.leap.symm, h.after.symm⟩

theorem of_add_cycle (hy : 2 ≤ y) (hyz : y ≤ z) (h : Resembles (y + 400) (z + 400)) :
    Resembles y z := by
  obtain ⟨weekday, before, leap, after⟩ := h
  rw [daysBeforeYear_add_cycle (by omega), daysBeforeYear_add_cycle (by omega)] at weekday
  rw [show z + 400 - 1 = z - 1 + 400 by omega, show y + 400 - 1 = y - 1 + 400 by omega,
    isLeap_add_cycle, isLeap_add_cycle] at before
  rw [isLeap_add_cycle, isLeap_add_cycle] at leap
  rw [Nat.add_right_comm z, Nat.add_right_comm y, isLeap_add_cycle, isLeap_add_cycle] at after
  refine ⟨?_, before, leap, after⟩
  simp only [cycleDays] at weekday
  omega

theorem add_cycle (hy : 2 ≤ y) (hyz : y ≤ z) (h : Resembles y z) :
    Resembles (y + 400) (z + 400) := by
  constructor
  · rw [daysBeforeYear_add_cycle (by omega), daysBeforeYear_add_cycle (by omega)]
    have := h.weekday
    simp only [cycleDays]
    omega
  · rw [show z + 400 - 1 = z - 1 + 400 by omega, show y + 400 - 1 = y - 1 + 400 by omega,
      isLeap_add_cycle, isLeap_add_cycle, h.before]
  · rw [isLeap_add_cycle, isLeap_add_cycle, h.leap]
  · rw [Nat.add_right_comm z, Nat.add_right_comm y, isLeap_add_cycle, isLeap_add_cycle, h.after]

/-- The years around two that resemble one another start equally far apart. -/
theorem starts (h : Resembles y z) (hy : 2 ≤ y) (hz : 2 ≤ z) {j : Nat} (hj : j ≤ 3) :
    (daysBeforeYear (z - 1 + j) : Int) =
      daysBeforeYear (y - 1 + j) + (daysBeforeYear z - daysBeforeYear y) := by
  have before := daysBeforeYear_succ (y - 1) (by omega)
  have before' := daysBeforeYear_succ (z - 1) (by omega)
  have here := daysBeforeYear_succ y (by omega)
  have here' := daysBeforeYear_succ z (by omega)
  have after := daysBeforeYear_succ (y + 1) (by omega)
  have after' := daysBeforeYear_succ (z + 1) (by omega)
  simp only [yearLength, h.before, h.leap, h.after] at before' here' after'
  simp only [yearLength] at before here after
  rw [show y - 1 + 1 = y by omega] at before
  rw [show z - 1 + 1 = z by omega] at before'
  obtain rfl | rfl | rfl | rfl : j = 0 ∨ j = 1 ∨ j = 2 ∨ j = 3 := by omega
  · rw [Nat.add_zero, Nat.add_zero]
    omega
  · rw [show y - 1 + 1 = y by omega, show z - 1 + 1 = z by omega]
    omega
  · rw [show y - 1 + 2 = y + 1 by omega, show z - 1 + 2 = z + 1 by omega]
    omega
  · rw [show y - 1 + 3 = y + 1 + 1 by omega, show z - 1 + 3 = z + 1 + 1 by omega]
    omega

theorem isInWeek (h : Resembles y z) (hy : 2 ≤ y) (hz : 2 ≤ z) (hd : yearOf d = y)
    (place : (e : Int) = d + (daysBeforeYear z - daysBeforeYear y)) {wkst : Weekday}
    {week weeks : Int} (inWeek : IsInWeek wkst d week weeks) : IsInWeek wkst e week weeks := by
  obtain ⟨v, start, next, hv, starts, nextStarts, low, high, rfl, rfl⟩ := inWeek
  have sevenths := h.weekday
  generalize hs : (daysBeforeYear z : Int) - daysBeforeYear y = s at place
  obtain ⟨first, last⟩ := yearOf_bounds d
  rw [hd] at first last
  -- the week year is the year of the day or one of its neighbours
  have notLate : v ≤ y + 1 := Nat.le_of_not_lt fun late => by
    have := starts.notBefore
    have far := daysBeforeYear_mono (show y + 1 + 1 ≤ v from late)
    have length := (yearLength_bounds (y + 1)).1
    have step := daysBeforeYear_succ (y + 1) (by omega)
    omega
  have notEarly : y - 1 ≤ v := Nat.le_of_not_lt fun early => by
    have := nextStarts.notAfter
    have far := daysBeforeYear_mono (show v + 1 ≤ y - 1 from early)
    have length := (yearLength_bounds (y - 1)).1
    have step := daysBeforeYear_succ (y - 1) (by omega)
    rw [show y - 1 + 1 = y by omega] at step
    omega
  obtain ⟨j, rfl⟩ := Nat.exists_eq_add_of_le notEarly
  have apart := h.starts hy hz (show j ≤ 3 by omega)
  have apart' := h.starts hy hz (show j + 1 ≤ 3 by omega)
  rw [hs] at apart apart'
  refine ⟨z - 1 + j, start + s, next + s, by omega, starts.shift apart (by omega),
    nextStarts.shift apart' (by omega), by omega, by omega, ?_, ?_⟩
  · congr 2
    omega
  · congr 1
    omega

theorem splitMonths_eq (leap : isLeap z = isLeap y) (ms : List Nat) (n : Nat) :
    splitMonths z ms n = splitMonths y ms n := by
  induction ms generalizing n with
  | nil => rfl
  | cons m ms ih =>
    have length : Calendar.monthLength z m = Calendar.monthLength y m := by
      simp only [Calendar.monthLength, leap]
    simp only [splitMonths, length, ih]

theorem daysBeforeMonth_eq (leap : isLeap z = isLeap y) (m : Nat) :
    daysBeforeMonth z m = daysBeforeMonth y m := by
  induction m with
  | zero => rfl
  | succ m ih => simp only [daysBeforeMonth, Calendar.monthLength, leap, ih]

theorem fallsLike (h : Resembles y z) (hy : 2 ≤ y) (hyz : y ≤ z) (hd : yearOf d = y) :
    FallsLike d (d + (daysBeforeYear z - daysBeforeYear y)) := by
  have order := daysBeforeYear_mono hyz
  obtain ⟨first, last⟩ := yearOf_bounds d
  rw [hd] at first last
  generalize he : d + (daysBeforeYear z - daysBeforeYear y) = e
  have year : yearOf e = z := by
    apply (yearOf_eq_iff (by omega)).mpr
    have next := daysBeforeYear_succ y (by omega)
    have next' := daysBeforeYear_succ z (by omega)
    simp only [yearLength, h.leap] at next next'
    omega
  have place : e - daysBeforeYear z = d - daysBeforeYear y := by omega
  have monthDay : monthDayOf e = monthDayOf d := by
    simp only [monthDayOf, year, hd, place]
    exact splitMonths_eq h.leap _ _
  have month : monthOf e = monthOf d := congrArg Prod.fst monthDay
  refine
    { month
      dayOfMonth := congrArg Prod.snd monthDay
      yearDay := by simp only [yearDayOf, year, hd, place]
      weekday := ?_
      yearLength := by simp only [Calendar.yearLength, year, hd, h.leap]
      monthLength := by simp only [Calendar.monthLength, month, year, hd, h.leap]
      week := fun _ _ _ => ⟨h.symm.isInWeek (by omega) hy year (by omega),
        h.isInWeek hy (by omega) hd (by omega)⟩ }
  have sevenths : e % 7 = d % 7 := by
    have := h.weekday
    omega
  simp only [Weekday.ofDay, Weekday.ofIndex, sevenths]

end Resembles

/-- The distances at which a year is resembled: 28 years within a century, 40 across its end, and
others for the years next to that. -/
theorem exists_resembling_of_cycle : ∀ y < 400, ∃ k ∈ [28, 40, 102, 17, 6, 23],
    Resembles (y + 400) (y + 400 + k) := by
  decide +kernel

/-- Every year is resembled by one less than 400 years later. -/
theorem exists_resembling {y : Nat} (hy : 2 ≤ y) :
    ∃ k, 0 < k ∧ k < 400 ∧ Resembles y (y + k) := by
  obtain ⟨k, member, table⟩ := exists_resembling_of_cycle (y % 400) (Nat.mod_lt _ (by decide))
  have bounds : ∀ k ∈ [28, 40, 102, 17, 6, 23], 0 < k ∧ k < 400 := by decide
  refine ⟨k, (bounds k member).1, (bounds k member).2, ?_⟩
  have onward (n : Nat) : Resembles (y % 400 + 400 * (n + 1)) (y % 400 + 400 * (n + 1) + k) := by
    induction n with
    | zero => exact table
    | succ n ih =>
      rw [Nat.mul_succ, ← Nat.add_assoc, Nat.add_right_comm _ 400 k]
      exact ih.add_cycle (by omega) (by omega)
  have last := onward (y / 400)
  rw [show y % 400 + 400 * (y / 400 + 1) = y + 400 by omega, Nat.add_right_comm] at last
  exact last.of_add_cycle hy (by omega)

end Almanac.Calendar
