import Mathlib.Order.Interval.Finset.Nat
import Almanac.Proofs.Occurrence.Selection

set_option autoImplicit false

/-!
Week numbers in the years that are not close to the ends of the calendar.

Week 1 of a year is the first week that starts on the chosen weekday and has at least four of its
days in the year. The weeks of the year run from there up to week 1 of the next year. A day lies in
the run of one year only, which holds 52 or 53 weeks, and the calendar gives the number of its week
in that run; a listed week number selects the days of the week that it counts.
-/

namespace Almanac.Calendar

/-- The days in year `y` of the week that starts on day `s`. -/
def weekDaysIn (y s : Nat) : Finset Nat := (Finset.Ico s (s + 7)).filter fun n => yearOf n = y

/-- The first `wkst` whose week has at least four days in year `y`. -/
def IsFirstWeekStart (wkst : Weekday) (y start : Nat) : Prop :=
  IsLeast {s | Weekday.ofDay s = wkst ∧ 4 ≤ (weekDaysIn y s).card} start

/-- Day `n` lies in the run of weeks of year `y`, which reaches from `start` up to `next`. -/
structure InWeeksOf (wkst : Weekday) (n y start next : Nat) : Prop where
  starts : IsFirstWeekStart wkst y start
  ends : IsFirstWeekStart wkst (y + 1) next
  notBefore : start ≤ n
  before : n < next

/-- Day `n` lies in week `k` of a run of `weeks` weeks from day `start`. -/
def InNthWeek (start weeks : Nat) (k : Int) (n : Nat) : Prop :=
  1 ≤ k ∧ k ≤ weeks ∧ start + 7 * (k - 1) ≤ n ∧ (n : Int) < start + 7 * k

/-- The week that a listed number means: negative numbers count from the last of `weeks`. -/
def weekMeant (weeks : Nat) (v : Int) : Int := if v < 0 then weeks + 1 + v else v

/-! The first week. -/

theorem ofDay_eq_iff {s : Nat} {wkst : Weekday} :
    Weekday.ofDay s = wkst ↔ ((s : Int) - wkst.index) % 7 = 0 := by
  have same : Weekday.ofDay wkst.index = wkst := by cases wkst <;> rfl
  have index := wkst.index_lt
  rw [← same, weekday_eq_iff, same]
  omega

theorem card_weekDaysIn {y : Nat} (hy : 0 < y) (s : Nat) : (weekDaysIn y s).card =
    min (s + 7) (daysBeforeYear (y + 1)) - max s (daysBeforeYear y) := by
  have days : weekDaysIn y s =
      Finset.Ico (max s (daysBeforeYear y)) (min (s + 7) (daysBeforeYear (y + 1))) := by
    ext n
    simp only [weekDaysIn, Finset.mem_filter, Finset.mem_Ico, yearOf_eq_iff hy,
      daysBeforeYear_succ y hy]
    omega
  rw [days, Nat.card_Ico]

/-- A week has four days in a year if it starts at most three days before and does not start in
the last three days of the year. -/
theorem four_le_card_iff {y : Nat} (hy : 0 < y) (s : Nat) : 4 ≤ (weekDaysIn y s).card ↔
    daysBeforeYear y ≤ s + 3 ∧ s + 4 ≤ daysBeforeYear (y + 1) := by
  have length := (yearLength_bounds y).1
  rw [card_weekDaysIn hy, daysBeforeYear_succ y hy]
  omega

theorem StartsWeekYear.isFirst {wkst : Weekday} {y s : Nat} (hy : 0 < y)
    (h : StartsWeekYear wkst y s) : IsFirstWeekStart wkst y s := by
  have length := (yearLength_bounds y).1
  have onWeekday := h.onWeekday
  have notBefore := h.notBefore
  have notAfter := h.notAfter
  refine ⟨⟨ofDay_eq_iff.mpr onWeekday, (four_le_card_iff hy s).mpr ?_⟩, ?_⟩
  · rw [daysBeforeYear_succ y hy]
    omega
  · rintro t ⟨weekday, four⟩
    have onWeekday' := ofDay_eq_iff.mp weekday
    have inYear := ((four_le_card_iff hy t).mp four).1
    -- The weeks before start at least seven days earlier, more than three days before new year.
    omega

theorem weekYearStart?_isFirst {wkst : Weekday} {y s : Nat} (h : weekYearStart? y wkst = some s) :
    IsFirstWeekStart wkst y s :=
  (weekYearStart?_spec h).2.isFirst (weekYearStart?_spec h).1

/-! The run of weeks. -/

theorem exists_startsWeekYear (wkst : Weekday) {y : Nat} (hy : 2 ≤ y) :
    ∃ s : Nat, StartsWeekYear wkst y s := by
  have first := daysBeforeYear_mono hy
  have year : daysBeforeYear 2 = 365 := rfl
  have index := wkst.index_lt
  let near := daysBeforeYear y + 3
  refine ⟨near - (near + 7 - wkst.index) % 7, ?_, ?_, ?_⟩ <;> omega

theorem IsFirstWeekStart.startsWeekYear {wkst : Weekday} {y s : Nat} (hy : 2 ≤ y)
    (h : IsFirstWeekStart wkst y s) : StartsWeekYear wkst y s := by
  obtain ⟨t, starts⟩ := exists_startsWeekYear wkst hy
  exact (starts.isFirst (by omega)).unique h ▸ starts

theorem StartsWeekYear.weeks {wkst : Weekday} {y : Nat} {s t : Int} (hy : 0 < y)
    (hs : StartsWeekYear wkst y s) (ht : StartsWeekYear wkst (y + 1) t) :
    t = s + 7 * 52 ∨ t = s + 7 * 53 := by
  have length := yearLength_bounds y
  have step := daysBeforeYear_succ y hy
  have := hs.onWeekday
  have := hs.notBefore
  have := hs.notAfter
  have := ht.onWeekday
  have := ht.notBefore
  have := ht.notAfter
  omega

theorem InWeeksOf.two_le {wkst : Weekday} {n y s t : Nat} (late : 3 ≤ yearOf n)
    (h : InWeeksOf wkst n y s t) : 2 ≤ y := by
  have bounds := (yearOf_bounds n).1
  have third := daysBeforeYear_mono late
  have year : daysBeforeYear 3 = 730 := rfl
  rcases Nat.lt_or_ge 1 y with later | early
  · exact later
  obtain rfl | rfl := Nat.le_one_iff_eq_zero_or_eq_one.mp early
  · -- No day lies in a year 0.
    have none : weekDaysIn 0 s = ∅ :=
      Finset.filter_eq_empty_iff.mpr fun m _ => (yearOf_pos m).ne'
    have four := h.starts.1.2
    simp [none] at four
  · have second : daysBeforeYear 2 = 365 := rfl
    have := (h.ends.startsWeekYear le_rfl).notAfter
    have := h.before
    omega

theorem InWeeksOf.le {wkst : Weekday} {n y z s t u v : Nat} (late : 3 ≤ yearOf n)
    (h : InWeeksOf wkst n y s t) (h' : InWeeksOf wkst n z u v) : z ≤ y := by
  by_contra after
  have early := h.two_le late
  have next := h.ends.startsWeekYear (by omega)
  have start := h'.starts.startsWeekYear (h'.two_le late)
  have := next.le (by omega) (show y + 1 ≤ z by omega) start
  have := h.before
  have := h'.notBefore
  omega

theorem InWeeksOf.unique {wkst : Weekday} {n y z s t u v : Nat} (late : 3 ≤ yearOf n)
    (h : InWeeksOf wkst n y s t) (h' : InWeeksOf wkst n z u v) : z = y :=
  Nat.le_antisymm (h.le late h') (h'.le late h)

theorem exists_weekNumber? {n : Nat} (wkst : Weekday) (low : 3 ≤ yearOf n)
    (high : yearOf n ≤ 9997) : ∃ week weeks, weekNumber? n wkst = some (week, weeks) := by
  have bounds := yearOf_bounds n
  have first := daysBeforeYear_mono low
  have last := daysBeforeYear_mono (show yearOf n + 1 ≤ 9998 by omega)
  have third : daysBeforeYear 3 = 730 := rfl
  have late : daysBeforeYear 9998 = 3651329 := rfl
  have step := daysBeforeYear_succ (yearOf n) (yearOf_pos n)
  have numbered : weekNumber? n wkst ≠ none :=
    weekNumber?_ne_none (by omega) (by unfold lastYear; omega) (fun _ => by omega)
      (fun _ => by omega)
  obtain ⟨⟨week, weeks⟩, number⟩ := Option.ne_none_iff_exists'.mp numbered
  exact ⟨week, weeks, number⟩

/-- The week of a day in the years from 3 to 9997 is a week of a year that the calendar holds whole,
and so is the next year's first week. -/
theorem IsInWeek.inWeeksOf {wkst : Weekday} {n week weeks : Nat} (low : 3 ≤ yearOf n)
    (high : yearOf n ≤ 9997) (h : IsInWeek wkst n week weeks) :
    ∃ y start next : Nat, weekYearStart? y wkst = some start ∧
      weekYearStart? (y + 1) wkst = some next ∧ InWeeksOf wkst n y start next ∧
      (weeks = 52 ∨ weeks = 53) ∧ next = start + 7 * weeks ∧ InNthWeek start weeks week n := by
  obtain ⟨y, s, t, positive, hs, ht, notBefore, before, number, total⟩ := h
  have bounds := yearOf_bounds n
  have two_le : 2 ≤ y := by
    by_contra early
    have next := daysBeforeYear_mono (show y + 1 ≤ 2 by omega)
    have start := daysBeforeYear_mono low
    have second : daysBeforeYear 2 = 365 := rfl
    have third : daysBeforeYear 3 = 730 := rfl
    have := ht.notAfter
    omega
  have le_9998 : y ≤ 9998 := by
    by_contra late
    have start := daysBeforeYear_mono (show 9999 ≤ y by omega)
    have end_ := daysBeforeYear_mono (show yearOf n + 1 ≤ 9998 by omega)
    have year : daysBeforeYear 9999 = daysBeforeYear 9998 + 365 := rfl
    have := daysBeforeYear_succ (yearOf n) (yearOf_pos n)
    have := hs.notBefore
    omega
  obtain ⟨start, hstart⟩ := exists_weekYearStart? wkst two_le (show y ≤ lastYear by
    unfold lastYear; omega)
  obtain ⟨next, hnext⟩ := exists_weekYearStart? wkst (show 2 ≤ y + 1 by omega) (by
    unfold lastYear; omega)
  obtain rfl := hs.unique (weekYearStart?_spec hstart).2
  obtain rfl := ht.unique (weekYearStart?_spec hnext).2
  have length := hs.weeks positive ht
  refine ⟨y, start, next, hstart, hnext,
    ⟨weekYearStart?_isFirst hstart, weekYearStart?_isFirst hnext, by omega, by omega⟩,
    by omega, by omega, ?_⟩
  unfold InNthWeek
  omega

theorem inNthWeek_iff {start weeks week n : Nat} {k : Int} (h : InNthWeek start weeks week n) :
    InNthWeek start weeks k n ↔ k = week := by
  unfold InNthWeek at *
  constructor
  · intro h'
    omega
  · rintro rfl
    exact h

/-- A listed number selects the days of the week that it means. -/
theorem countedIn_iff_weekMeant {start weeks week n : Nat} (h : InNthWeek start weeks week n)
    (listed : List Int) : Plan.countedIn listed week weeks = true ↔
      ∃ v ∈ listed, InNthWeek start weeks (weekMeant weeks v) n := by
  have within : 1 ≤ week ∧ week ≤ weeks := by
    unfold InNthWeek at h
    omega
  simp only [Plan.countedIn_iff, CountedIn, inNthWeek_iff h, weekMeant]
  constructor
  · rintro (fromFirst | fromLast)
    · exact ⟨_, fromFirst, by omega⟩
    · exact ⟨_, fromLast, by omega⟩
  · rintro ⟨v, hv, meant⟩
    split at meant
    · right
      rwa [← meant, show (weeks : Int) + 1 + v - weeks - 1 = v by omega]
    · left
      rwa [← meant]

/-- In the years from 3 to 9997 the number that the calendar gives to a day is that of its week in
the one year whose run of weeks holds the day, and a rule that lists week numbers selects the day by
its week if one of the numbers means that week. -/
theorem weekNumber?_counts_in_weekYear {n : Nat} (wkst : Weekday) (low : 3 ≤ yearOf n)
    (high : yearOf n ≤ 9997) :
    ∃ y start next week weeks : Nat,
      InWeeksOf wkst n y start next ∧ (∀ z s t, InWeeksOf wkst n z s t → z = y) ∧
      weekYearStart? y wkst = some start ∧ weekYearStart? (y + 1) wkst = some next ∧
      weekNumber? n wkst = some (week, weeks) ∧
      (weeks = 52 ∨ weeks = 53) ∧ next = start + 7 * weeks ∧ InNthWeek start weeks week n ∧
      ∀ p : Plan, p.rule.weekStart = wkst → p.rule.weekNumbers ≠ [] →
        ∃ selected, p.selectsWeek? n = some selected ∧ (selected = true ↔
          ∃ v ∈ p.rule.weekNumbers, InNthWeek start weeks (weekMeant weeks v) n) := by
  obtain ⟨week, weeks, number⟩ := exists_weekNumber? wkst low high
  obtain ⟨y, start, next, hstart, hnext, inWeeks, total, length, inWeek⟩ :=
    (weekNumber?_spec number).inWeeksOf low high
  refine ⟨y, start, next, week, weeks, inWeeks, fun z s t h => inWeeks.unique low h,
    hstart, hnext, number, total, length, inWeek, ?_⟩
  rintro p rfl given
  refine ⟨_, ?_, countedIn_iff_weekMeant inWeek p.rule.weekNumbers⟩
  simp [Plan.selectsWeek?, given, number]

/-- New Year's Day 2010 lies in week 53 of the Monday weeks of 2009. -/
theorem week_of_newYear_2010 : yearOf 733772 = 2010 ∧ weekYearStart? 2010 .monday = some 733775 ∧
    ∃ y start next : Nat, InWeeksOf .monday 733772 y start next ∧ y ≠ 2010 ∧
      InNthWeek start 53 53 733772 := by
  obtain ⟨y, start, next, week, weeks, inWeeks, _, hstart, _, number, _, _, inWeek, _⟩ :=
    weekNumber?_counts_in_weekYear (n := 733772) .monday (by decide) (by decide)
  have fifty_three : weekNumber? 733772 .monday = some (53, 53) := by decide
  obtain ⟨rfl, rfl⟩ := Prod.mk.inj (Option.some.inj (number.symm.trans fifty_three))
  refine ⟨by decide, by decide, y, start, next, inWeeks, ?_, inWeek⟩
  rintro rfl
  obtain rfl := Option.some.inj (hstart.symm.trans (show _ = some 733775 by decide))
  exact absurd inWeeks.notBefore (by decide)

end Almanac.Calendar
