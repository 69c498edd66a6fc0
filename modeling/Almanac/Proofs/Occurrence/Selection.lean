import Almanac.Occurrence.Plan
import Almanac.Proofs.Calendar.Resemblance
import Almanac.Proofs.Occurrence.Period

set_option autoImplicit false

/-!
Which days and times of day a rule selects.

A day must pass every list of days that the rule gives. A number in such a list counts from the
first or, negative, from the last; numbered weekdays are counted among the days of the month, or of
the year where the rule is yearly and lists no months. A rule that lists neither weeks, nor days of
any kind takes its days from its start. A time of day must pass the lists of hours, minutes and
seconds; a unit without a list takes the value of the start where it is finer than the frequency.
The fraction of the second is that of the start.

A plan selects the same days, as far as it can tell: where it needs a week number that the calendar
does not give, it selects nothing.
-/

namespace Almanac

open Calendar

/-- Whether a value is listed by its number from the first or, negative, from the last. -/
def CountedIn (allowed : List Int) (value total : Int) : Prop :=
  value ∈ allowed ∨ value - total - 1 ∈ allowed

namespace Rule

/-- Two days in one month, or in one year where weekdays are counted in the year. -/
def ShareSpan (r : Rule) (x d : Nat) : Prop :=
  yearOf x = yearOf d ∧ (r.freq = .monthly ∨ r.months ≠ [] → monthOf x = monthOf d)

/-- A day has the weekday of a pattern and, where the pattern is numbered, that number among the
days with its weekday. -/
def FitsPattern (r : Rule) (p : DayPattern) (d : Nat) : Prop :=
  Weekday.ofDay d = p.weekday ∧
    ∀ n, p.ordinal = some n →
      IsNth {x | r.ShareSpan x d ∧ Weekday.ofDay x = Weekday.ofDay d} d n

/-- No list but that of months selects days. -/
def LeavesDaysOpen (r : Rule) : Prop :=
  r.weekNumbers = [] ∧ r.yearDays = [] ∧ r.monthDays = [] ∧ r.days = []

/-- A day that falls in its period as the start does in its own. -/
structure LikeStart (r : Rule) (d : Nat) : Prop where
  month : r.freq = .yearly → r.months = [] → monthOf d = r.start.wall.month
  dayOfMonth : r.freq = .yearly ∨ r.freq = .monthly → dayOf d = r.start.wall.dayOfMonth
  weekday : r.freq = .weekly → Weekday.ofDay d = Weekday.ofDay r.start.wall.day

/-- A day that passes every list of days. -/
structure SelectsDay (r : Rule) (d : Nat) : Prop where
  month : r.months ≠ [] → monthOf d ∈ r.months
  week : r.weekNumbers ≠ [] → ∃ week weeks, IsInWeek r.weekStart d week weeks ∧
    CountedIn r.weekNumbers week weeks
  yearDay : r.yearDays ≠ [] → CountedIn r.yearDays (yearDayOf d) (yearLength (yearOf d))
  monthDay : r.monthDays ≠ [] →
    CountedIn r.monthDays (dayOf d) (monthLength (yearOf d) (monthOf d))
  weekday : r.days ≠ [] → ∃ p ∈ r.days, r.FitsPattern p d
  likeStart : r.LeavesDaysOpen → r.LikeStart d

/-- A value that passes the list of a unit of time. -/
def SelectsUnit (given : List Nat) (freq unit : Frequency) (ofStart value : Nat) : Prop :=
  (given = [] → unit.rank < freq.rank → value = ofStart) ∧ (given ≠ [] → value ∈ given)

/-- A wall time whose time of day passes every list of times. -/
structure SelectsTime (r : Rule) (t : WallTime) : Prop where
  hour : SelectsUnit r.hours r.freq .hourly r.start.wall.hour t.hour
  minute : SelectsUnit r.minutes r.freq .minutely r.start.wall.minute t.minute
  second : SelectsUnit r.seconds r.freq .secondly r.start.wall.second t.second
  microsecond : t.microsecond = r.start.wall.microsecond

end Rule

namespace Plan

variable {r : Rule} {d : Nat}

theorem countedIn_iff {allowed : List Int} {value total : Nat} :
    countedIn allowed value total = true ↔ CountedIn allowed value total := by
  simp [countedIn, CountedIn]

/-! Numbered weekdays. -/

/-- The place of a day in its month or year, and the first and the last day of that. -/
theorem placeOf_spec (r : Rule) (d : Nat) :
    ∃ first last, first ≤ d ∧ d ≤ last ∧ (∀ x, r.ShareSpan x d ↔ first ≤ x ∧ x ≤ last) ∧
      ((ofRule r).placeOf d).1 = d - first + 1 ∧ ((ofRule r).placeOf d).2 = last - first + 1 := by
  obtain ⟨m1, m12, d1, dl, back⟩ := monthDayOf_bounds d
  by_cases inMonth : (ofRule r).countsInMonth = true
  · have month : r.freq = .monthly ∨ r.months ≠ [] := by
      simpa [countsInMonth, ofRule] using inMonth
    have first := dayNumber_first (yearOf d) (monthOf d)
    unfold dayNumber at back
    refine ⟨dayNumber (yearOf d) (monthOf d) 1,
      dayNumber (yearOf d) (monthOf d) 1 + monthLength (yearOf d) (monthOf d) - 1,
      by omega, by omega, ?_, ?_, ?_⟩
    · intro x
      simp only [Rule.ShareSpan, month, true_imp_iff]
      rw [inMonth_iff (yearOf_pos d) m1 m12]
      omega
    · simp only [placeOf, inMonth, if_true]
      omega
    · simp only [placeOf, inMonth, if_true]
      omega
  · have year : ¬ (r.freq = .monthly ∨ r.months ≠ []) := by
      simpa [countsInMonth, ofRule] using inMonth
    obtain ⟨low, high⟩ := yearOf_bounds d
    have next := daysBeforeYear_succ (yearOf d) (yearOf_pos d)
    refine ⟨daysBeforeYear (yearOf d), daysBeforeYear (yearOf d + 1) - 1, low, by omega, ?_, ?_, ?_⟩
    · intro x
      simp only [Rule.ShareSpan, year, false_imp_iff, and_true]
      rw [yearOf_eq_iff (yearOf_pos d)]
      omega
    · simp only [placeOf, inMonth]
      rfl
    · simp only [placeOf, inMonth, Bool.false_eq_true, if_false]
      omega

/-- The number of a day among those of its month or year that share its weekday. -/
theorem isNth_weekday_iff (r : Rule) (d : Nat) (n : Int) :
    IsNth {x | r.ShareSpan x d ∧ Weekday.ofDay x = Weekday.ofDay d} d n ↔
      n = (((ofRule r).placeOf d).1 - 1) / 7 + 1 ∨
        n = -((((ofRule r).placeOf d).2 - ((ofRule r).placeOf d).1) / 7 + 1) := by
  obtain ⟨first, last, low, high, span, place, total⟩ := placeOf_spec r d
  simp only [span, isNth_weekday low high, place, total]
  omega

theorem selectsOrdinal_iff : (ofRule r).selectsOrdinal d = true ↔
    ∃ p ∈ r.days, p.ordinal ≠ none ∧ r.FitsPattern p d := by
  simp only [selectsOrdinal, Bool.or_eq_true, List.contains_iff_mem, ofRule, List.mem_filter,
    Rule.FitsPattern, isNth_weekday_iff]
  constructor
  · rintro (⟨member, _⟩ | ⟨member, _⟩)
    · exact ⟨_, member, by simp, rfl, fun n hn => .inl (Option.some.inj hn).symm⟩
    · exact ⟨_, member, by simp, rfl, fun n hn => .inr (Option.some.inj hn).symm⟩
  · rintro ⟨⟨weekday, ordinal⟩, member, numbered, weekdayEq, place⟩
    obtain ⟨n, rfl⟩ := Option.ne_none_iff_exists'.mp numbered
    dsimp only at weekdayEq place
    subst weekdayEq
    rcases place n rfl with rfl | rfl
    · exact .inl ⟨member, rfl⟩
    · exact .inr ⟨member, rfl⟩

/-! The lists of days, one by one. -/

theorem leavesDaysOpen_iff : (r.weekNumbers.isEmpty && r.yearDays.isEmpty && r.monthDays.isEmpty &&
    r.days.isEmpty) = true ↔ r.LeavesDaysOpen := by
  simp [Rule.LeavesDaysOpen, and_assoc]

theorem months_ofRule_open (h : r.LeavesDaysOpen) (yearly : r.freq = .yearly)
    (none : r.months = []) : (ofRule r).months = [r.start.wall.month] :=
  if_pos (by rw [leavesDaysOpen_iff.mpr h, none]; simp [yearly])

theorem months_ofRule (h : ¬ (r.LeavesDaysOpen ∧ r.freq = .yearly ∧ r.months = [])) :
    (ofRule r).months = r.months := by
  refine if_neg ?_
  rw [Bool.and_eq_true, Bool.and_eq_true, leavesDaysOpen_iff, decide_eq_true_eq, List.isEmpty_iff]
  rintro ⟨⟨daysOpen, yearly⟩, unlisted⟩
  exact h ⟨daysOpen, yearly, unlisted⟩

theorem monthDays_ofRule_open (h : r.LeavesDaysOpen) (coarse : r.freq = .yearly ∨ r.freq = .monthly) :
    (ofRule r).monthDays = [(r.start.wall.dayOfMonth : Int)] :=
  if_pos (by rw [leavesDaysOpen_iff.mpr h]; simp [coarse])

theorem monthDays_ofRule (h : ¬ (r.LeavesDaysOpen ∧ (r.freq = .yearly ∨ r.freq = .monthly))) :
    (ofRule r).monthDays = r.monthDays := by
  refine if_neg ?_
  rw [Bool.and_eq_true, leavesDaysOpen_iff, Bool.or_eq_true, decide_eq_true_eq, decide_eq_true_eq]
  exact h

theorem weekdays_ofRule_open (h : r.LeavesDaysOpen) (weekly : r.freq = .weekly) :
    (ofRule r).weekdays = [Weekday.ofDay r.start.wall.day] :=
  if_pos (by rw [leavesDaysOpen_iff.mpr h]; simp [weekly])

theorem weekdays_ofRule (h : ¬ (r.LeavesDaysOpen ∧ r.freq = .weekly)) : (ofRule r).weekdays =
    (r.days.filter (fun d => d.ordinal.isNone)).map DayPattern.weekday := by
  refine if_neg ?_
  rw [Bool.and_eq_true, leavesDaysOpen_iff, decide_eq_true_eq]
  exact h

theorem selectsMonth_iff : (ofRule r).selectsMonth d = true ↔
    (r.months ≠ [] → monthOf d ∈ r.months) ∧
      (r.LeavesDaysOpen → r.freq = .yearly → r.months = [] → monthOf d = r.start.wall.month) := by
  unfold selectsMonth
  by_cases yearly : r.LeavesDaysOpen ∧ r.freq = .yearly ∧ r.months = []
  · obtain ⟨daysOpen, freq, none⟩ := yearly
    rw [months_ofRule_open daysOpen freq none]
    simp [daysOpen, freq, none]
  · rw [months_ofRule yearly]
    by_cases none : r.months = []
    · simp only [none, List.isEmpty_nil, Bool.true_or, ne_eq, not_true_eq_false, false_imp_iff,
        true_and, true_iff]
      exact fun daysOpen freq _ => absurd ⟨daysOpen, freq, none⟩ yearly
    · simp [none]

theorem selectsWeek?_spec {b : Bool} (h : (ofRule r).selectsWeek? d = some b) :
    b = true ↔ (r.weekNumbers ≠ [] → ∃ week weeks, IsInWeek r.weekStart d week weeks ∧
      CountedIn r.weekNumbers week weeks) := by
  unfold selectsWeek? at h
  split at h
  · rename_i none
    cases h
    have none : r.weekNumbers = [] := by simpa [ofRule] using none
    simp [none]
  · rename_i given
    have given : r.weekNumbers ≠ [] := by simpa [ofRule] using given
    obtain ⟨⟨week, weeks⟩, hweek, h⟩ := Option.bind_eq_some_iff.mp h
    have inWeek := weekNumber?_spec hweek
    obtain rfl := Option.some.inj h
    simp only [given, ne_eq, not_false_eq_true, true_imp_iff, countedIn_iff]
    constructor
    · exact fun counted => ⟨week, weeks, inWeek, counted⟩
    · rintro ⟨v, vs, inWeek', counted⟩
      obtain ⟨rfl, rfl⟩ := inWeek'.unique inWeek
      exact counted

theorem selectsYearDay_iff : (ofRule r).selectsYearDay d = true ↔
    (r.yearDays ≠ [] → CountedIn r.yearDays (yearDayOf d) (yearLength (yearOf d))) := by
  by_cases none : r.yearDays = []
  · simp [selectsYearDay, ofRule, none]
  · simp [selectsYearDay, ofRule, none, countedIn_iff]

/-- The day of a month counts from its end by numbers below zero. -/
theorem countedIn_singleton {value total n : Nat} (h : value ≤ total) :
    CountedIn [(n : Int)] value total ↔ value = n := by
  simp only [CountedIn, List.mem_singleton]
  omega

theorem selectsMonthDay_iff : (ofRule r).selectsMonthDay d = true ↔
    (r.monthDays ≠ [] → CountedIn r.monthDays (dayOf d) (monthLength (yearOf d) (monthOf d))) ∧
      (r.LeavesDaysOpen → r.freq = .yearly ∨ r.freq = .monthly →
        dayOf d = r.start.wall.dayOfMonth) := by
  have inMonth := (monthDayOf_bounds d).2.2.2.1
  unfold selectsMonthDay
  by_cases likeStart : r.LeavesDaysOpen ∧ (r.freq = .yearly ∨ r.freq = .monthly)
  · obtain ⟨daysOpen, freq⟩ := likeStart
    rw [monthDays_ofRule_open daysOpen freq]
    simp only [List.isEmpty_cons, Bool.false_or, countedIn_iff, countedIn_singleton inMonth,
      daysOpen, freq, daysOpen.2.2.1, ne_eq, not_true_eq_false, false_imp_iff, true_imp_iff,
      true_and]
  · rw [monthDays_ofRule likeStart]
    have without : r.LeavesDaysOpen → r.freq = .yearly ∨ r.freq = .monthly →
        dayOf d = r.start.wall.dayOfMonth := fun daysOpen freq => absurd ⟨daysOpen, freq⟩ likeStart
    by_cases none : r.monthDays = []
    · simp only [none, List.isEmpty_nil, Bool.true_or, ne_eq, not_true_eq_false, false_imp_iff,
        true_and, true_iff]
      exact without
    · rw [Bool.or_eq_true, List.isEmpty_iff, countedIn_iff]
      exact ⟨fun listed => ⟨fun _ => listed.resolve_left none, without⟩, fun h => .inr (h.1 none)⟩

/-- The patterns without an ordinal are those whose weekday alone counts. -/
theorem contains_weekday_iff (likeStart : ¬(r.LeavesDaysOpen ∧ r.freq = .weekly)) :
    (ofRule r).weekdays.contains (Weekday.ofDay d) = true ↔
      ∃ p ∈ r.days, p.ordinal = none ∧ r.FitsPattern p d := by
  simp only [weekdays_ofRule likeStart, List.contains_iff_mem, List.mem_map, List.mem_filter,
    Option.isNone_iff_eq_none, Rule.FitsPattern]
  constructor
  · rintro ⟨p, ⟨member, plain⟩, weekday⟩
    exact ⟨p, member, plain, weekday.symm, by simp [plain]⟩
  · rintro ⟨p, member, plain, weekday, _⟩
    exact ⟨p, ⟨member, plain⟩, weekday.symm⟩

/-- Every pattern is among those with an ordinal or among those without. -/
theorem weekdays_ordinals_isEmpty_iff (likeStart : ¬(r.LeavesDaysOpen ∧ r.freq = .weekly)) :
    (ofRule r).weekdays.isEmpty = true ∧ (ofRule r).ordinals.isEmpty = true ↔ r.days = [] := by
  have ordinals : (ofRule r).ordinals = r.days.filter (fun d => d.ordinal.isSome) := rfl
  simp only [weekdays_ofRule likeStart, ordinals, List.isEmpty_iff, List.map_eq_nil_iff,
    List.filter_eq_nil_iff]
  constructor
  · rintro ⟨noPlain, noNumbered⟩
    apply List.eq_nil_iff_forall_not_mem.mpr
    intro p member
    have := noPlain p member
    have := noNumbered p member
    cases p with
    | mk weekday ordinal => cases ordinal <;> simp_all
  · rintro none
    simp [none]

theorem selectsWeekday_iff : (ofRule r).selectsWeekday d = true ↔
    (r.days ≠ [] → ∃ p ∈ r.days, r.FitsPattern p d) ∧
      (r.LeavesDaysOpen → r.freq = .weekly →
        Weekday.ofDay d = Weekday.ofDay r.start.wall.day) := by
  simp only [selectsWeekday, Bool.or_eq_true, selectsOrdinal_iff, Bool.and_eq_true]
  by_cases likeStart : r.LeavesDaysOpen ∧ r.freq = .weekly
  · obtain ⟨daysOpen, freq⟩ := likeStart
    have none : r.days = [] := daysOpen.2.2.2
    simp [weekdays_ofRule_open daysOpen freq, daysOpen, freq, none]
  · have without : r.LeavesDaysOpen → r.freq = .weekly →
        Weekday.ofDay d = Weekday.ofDay r.start.wall.day :=
      fun daysOpen freq => absurd ⟨daysOpen, freq⟩ likeStart
    rw [contains_weekday_iff likeStart, weekdays_ordinals_isEmpty_iff likeStart]
    constructor
    · rintro ((none | ⟨p, member, _, fits⟩) | ⟨p, member, _, fits⟩)
      · exact ⟨fun given => absurd none given, without⟩
      · exact ⟨fun _ => ⟨p, member, fits⟩, without⟩
      · exact ⟨fun _ => ⟨p, member, fits⟩, without⟩
    · rintro ⟨listed, _⟩
      by_cases none : r.days = []
      · exact .inl (.inl none)
      · obtain ⟨p, member, fits⟩ := listed none
        cases ordinal : p.ordinal with
        | none => exact .inl (.inr ⟨p, member, ordinal, fits⟩)
        | some n => exact .inr ⟨p, member, by simp [ordinal], fits⟩

/-- A plan selects the days that pass every list, where it can tell. -/
theorem selectsDay?_spec {b : Bool} (h : (ofRule r).selectsDay? d = some b) :
    b = true ↔ r.SelectsDay d := by
  unfold selectsDay? at h
  split at h
  · rename_i inMonth
    obtain ⟨month, monthLike⟩ := selectsMonth_iff.mp inMonth
    obtain ⟨inWeek, hweek, h⟩ := Option.bind_eq_some_iff.mp h
    obtain rfl := Option.some.inj h
    simp only [Bool.and_eq_true, selectsWeek?_spec hweek, selectsYearDay_iff, selectsMonthDay_iff,
      selectsWeekday_iff]
    constructor
    · rintro ⟨⟨⟨week, yearDay⟩, monthDay, monthDayLike⟩, weekday, weekdayLike⟩
      exact ⟨month, week, yearDay, monthDay, weekday, fun daysOpen =>
        ⟨monthLike daysOpen, monthDayLike daysOpen, weekdayLike daysOpen⟩⟩
    · rintro ⟨_, week, yearDay, monthDay, weekday, likeStart⟩
      exact ⟨⟨⟨week, yearDay⟩, monthDay, fun daysOpen => (likeStart daysOpen).dayOfMonth⟩, weekday,
        fun daysOpen => (likeStart daysOpen).weekday⟩
  · rename_i otherMonth
    cases h
    simp only [Bool.false_eq_true, false_iff]
    intro selected
    exact otherMonth (selectsMonth_iff.mpr
      ⟨selected.month, fun daysOpen => (selected.likeStart daysOpen).month⟩)

/-- A plan can tell whether a day is selected where it needs no week number or is given one. -/
theorem selectsDay?_ne_none (week : r.weekNumbers ≠ [] → (r.months ≠ [] → monthOf d ∈ r.months) →
    weekNumber? d r.weekStart ≠ none) : (ofRule r).selectsDay? d ≠ none := by
  unfold selectsDay?
  split
  · rename_i inMonth
    have tells : (ofRule r).selectsWeek? d ≠ none := by
      unfold selectsWeek?
      split
      · exact Option.some_ne_none _
      · rename_i given
        obtain ⟨number, hnumber⟩ := Option.ne_none_iff_exists'.mp
          (week (by simpa [ofRule] using given) (selectsMonth_iff.mp inMonth).1)
        have rule : (ofRule r).rule = r := rfl
        rw [rule, hnumber]
        exact Option.some_ne_none _
    obtain ⟨inWeek, hweek⟩ := Option.ne_none_iff_exists'.mp tells
    rw [hweek]
    exact Option.some_ne_none _
  · exact Option.some_ne_none _

end Plan

/-! Days that fall alike. -/

namespace Rule

variable {r : Rule} {d e : Nat}

theorem placeOf_of_fallsLike (r : Rule) (h : FallsLike d e) :
    (Plan.ofRule r).placeOf e = (Plan.ofRule r).placeOf d := by
  simp only [Plan.placeOf, h.dayOfMonth, h.monthLength, h.yearDay, h.yearLength]

theorem fitsPattern_of_fallsLike {p : DayPattern} (h : FallsLike d e) :
    r.FitsPattern p e ↔ r.FitsPattern p d := by
  unfold FitsPattern
  simp only [Plan.isNth_weekday_iff, placeOf_of_fallsLike r h]
  rw [h.weekday]

/-- A rule selects a day when it selects one that falls like it. -/
theorem SelectsDay.of_fallsLike (h : FallsLike d e) (selected : r.SelectsDay d) :
    r.SelectsDay e where
  month := by simpa only [h.month] using selected.month
  week := by simpa only [h.week] using selected.week
  yearDay := by simpa only [h.yearDay, h.yearLength] using selected.yearDay
  monthDay := by simpa only [h.dayOfMonth, h.monthLength] using selected.monthDay
  weekday := by simpa only [fitsPattern_of_fallsLike h] using selected.weekday
  likeStart := fun daysOpen =>
    have like := selected.likeStart daysOpen
    ⟨by simpa only [h.month] using like.month, by simpa only [h.dayOfMonth] using like.dayOfMonth,
      by simpa only [h.weekday] using like.weekday⟩

/-- A rule does not tell apart days that fall alike. -/
theorem selectsDay_of_fallsLike (h : FallsLike d e) : r.SelectsDay e ↔ r.SelectsDay d :=
  ⟨.of_fallsLike h.symm, .of_fallsLike h⟩

end Rule

end Almanac
