import Almanac.Proofs.Occurrence.Selection

set_option autoImplicit false

/-!
Numbered weekdays in a list of days.

The days of a month or year with one weekday are numbered from the first of them and, by negative
numbers, from the last. A rule counts in the month if it is monthly or lists months, and else in
the year. A numbered weekday in its list of days selects the day with that number, a plain one all
days with that weekday, and the list selects what its entries select.
-/

namespace Almanac

open Calendar

namespace Rule

instance (r : Rule) (x d : Nat) : Decidable (r.ShareSpan x d) :=
  inferInstanceAs (Decidable (yearOf x = yearOf d ∧
    (r.freq = .monthly ∨ r.months ≠ [] → monthOf x = monthOf d)))

/-- The days of the calendar with a weekday in the month or year of day `d`, in ascending order. -/
def weekdaysAround (r : Rule) (w : Weekday) (d : Nat) : List Nat :=
  (List.range dayCount).filter fun x => r.ShareSpan x d ∧ Weekday.ofDay x = w

variable {r : Rule} {w : Weekday} {x d : Nat}

theorem weekdaysAround_ascending : (r.weekdaysAround w d).Pairwise (· < ·) :=
  List.pairwise_lt_range.filter _

theorem ShareSpan.lt_dayCount (share : r.ShareSpan x d) (inCalendar : d < dayCount) :
    x < dayCount := by
  have year : yearOf x ≤ lastYear := share.1 ▸ yearOf_le_lastYear inCalendar
  calc
    x < daysBeforeYear (yearOf x + 1) := (yearOf_bounds x).2
    _ ≤ daysBeforeYear (lastYear + 1) := daysBeforeYear_mono (Nat.succ_le_succ year)
    _ = dayCount := daysBeforeYear_lastYear_succ

theorem mem_weekdaysAround (inCalendar : d < dayCount) :
    x ∈ r.weekdaysAround w d ↔ r.ShareSpan x d ∧ Weekday.ofDay x = w := by
  simp only [weekdaysAround, List.mem_filter, List.mem_range, decide_eq_true_eq]
  exact and_iff_right_of_imp fun share => share.1.lt_dayCount inCalendar

/-- A numbered weekday is counted among the days around that have the weekday. -/
theorem fitsPattern_numbered (inCalendar : d < dayCount) {n : Int} :
    r.FitsPattern ⟨w, some n⟩ d ↔ Weekday.ofDay d = w ∧
      (0 < n ∧ (r.weekdaysAround w d)[n.toNat - 1]? = some d ∨
        n < 0 ∧ (r.weekdaysAround w d).reverse[n.natAbs - 1]? = some d) := by
  rw [← isNth_mem_iff_getElem? weekdaysAround_ascending]
  simp only [mem_weekdaysAround inCalendar, FitsPattern, Option.some.injEq, forall_eq']
  apply and_congr_right
  rintro rfl
  rfl

theorem fitsPattern_plain {e : DayPattern} (plain : e.ordinal = none) :
    r.FitsPattern e d ↔ Weekday.ofDay d = e.weekday := by
  simp [FitsPattern, plain]

end Rule

namespace Plan

/-- Whether a day is selected by its weekday and its number through one entry alone. -/
def selectsThrough (p : Plan) (e : DayPattern) (n : Nat) : Bool :=
  ({ p with ordinals := [e] } : Plan).selectsOrdinal n

/-- The plan without its constraint on weekdays. -/
def onAnyWeekday (p : Plan) : Plan := { p with weekdays := [], ordinals := [] }

variable {r : Rule} {d : Nat}

theorem selectsThrough_iff {w : Weekday} {n : Int} :
    (ofRule r).selectsThrough ⟨w, some n⟩ d = true ↔ r.FitsPattern ⟨w, some n⟩ d := by
  -- What a number counts in does not depend on the list of days, so that may hold this entry alone.
  have alone : (ofRule r).selectsThrough ⟨w, some n⟩ d =
      (ofRule { r with days := [⟨w, some n⟩] }).selectsOrdinal d := rfl
  rw [alone, selectsOrdinal_iff]
  simp only [List.mem_singleton, exists_eq_left, ne_eq, reduceCtorEq, not_false_eq_true, true_and]
  exact Iff.rfl

theorem selectsOrdinal_iff_through : (ofRule r).selectsOrdinal d = true ↔
    ∃ e ∈ r.days, e.ordinal ≠ none ∧ (ofRule r).selectsThrough e d = true := by
  rw [selectsOrdinal_iff]
  refine exists_congr fun e => and_congr_right fun _ => and_congr_right fun numbered => ?_
  obtain ⟨w, ordinal⟩ := e
  obtain ⟨n, rfl⟩ := Option.ne_none_iff_exists'.mp numbered
  exact selectsThrough_iff.symm

theorem exists_fitsPattern_iff : (∃ e ∈ r.days, r.FitsPattern e d) ↔
    (∃ e ∈ r.days, e.ordinal = none ∧ Weekday.ofDay d = e.weekday) ∨
      ∃ e ∈ r.days, e.ordinal ≠ none ∧ (ofRule r).selectsThrough e d = true := by
  constructor
  · rintro ⟨⟨w, ordinal⟩, member, fits⟩
    cases ordinal with
    | none => exact .inl ⟨_, member, rfl, (Rule.fitsPattern_plain rfl).mp fits⟩
    | some n => exact .inr ⟨_, member, Option.some_ne_none n, selectsThrough_iff.mpr fits⟩
  · rintro (⟨e, member, plain, weekday⟩ | ⟨⟨w, ordinal⟩, member, numbered, through⟩)
    · exact ⟨e, member, (Rule.fitsPattern_plain plain).mpr weekday⟩
    · obtain ⟨n, rfl⟩ := Option.ne_none_iff_exists'.mp numbered
      exact ⟨_, member, selectsThrough_iff.mp through⟩

/-- The weekdays are the last of the day constraints, and they do not bear on the others. -/
theorem selectsDay?_eq_map (p : Plan) (n : Nat) :
    p.selectsDay? n = (p.onAnyWeekday.selectsDay? n).map (· && p.selectsWeekday n) := by
  have month : p.onAnyWeekday.selectsMonth n = p.selectsMonth n := rfl
  have week : p.onAnyWeekday.selectsWeek? n = p.selectsWeek? n := rfl
  have yearDay : p.onAnyWeekday.selectsYearDay n = p.selectsYearDay n := rfl
  have monthDay : p.onAnyWeekday.selectsMonthDay n = p.selectsMonthDay n := rfl
  have anyWeekday : p.onAnyWeekday.selectsWeekday n = true := rfl
  simp only [selectsDay?, month, week, yearDay, monthDay, anyWeekday, Bool.and_true]
  split
  · cases p.selectsWeek? n <;> rfl
  · rfl

theorem selectsWeekday_of_listed (listed : r.days ≠ []) :
    (ofRule r).selectsWeekday d = true ↔ ∃ e ∈ r.days, r.FitsPattern e d := by
  have notOpen : ¬ r.LeavesDaysOpen := fun daysOpen => listed daysOpen.2.2.2
  simp [selectsWeekday_iff, listed, notOpen]

end Plan

/-- A numbered weekday selects the days that have the weekday and, among the days of their month or
year that have it, the number counted from the first or, negative, from the last. The numbered
entries of a list select the days that one of them selects; and of the days that pass the other
lists, a list of days selects those that one of its plain or one of its numbered entries selects. -/
theorem Rule.ordinals_count_from_either_end (r : Rule) (d : Date) :
    (∀ w n, (Plan.ofRule r).selectsThrough ⟨w, some n⟩ d.day = true ↔ Weekday.ofDay d.day = w ∧
      (0 < n ∧ (r.weekdaysAround w d.day)[n.toNat - 1]? = some d.day ∨
        n < 0 ∧ (r.weekdaysAround w d.day).reverse[n.natAbs - 1]? = some d.day)) ∧
    ((Plan.ofRule r).selectsOrdinal d.day = true ↔
      ∃ e ∈ r.days, e.ordinal ≠ none ∧ (Plan.ofRule r).selectsThrough e d.day = true) ∧
    (r.days ≠ [] → ∃ listed : Bool,
      (listed = true ↔
        (∃ e ∈ r.days, e.ordinal = none ∧ Weekday.ofDay d.day = e.weekday) ∨
          ∃ e ∈ r.days, e.ordinal ≠ none ∧ (Plan.ofRule r).selectsThrough e d.day = true) ∧
      (Plan.ofRule r).selectsDay? d.day =
        ((Plan.ofRule r).onAnyWeekday.selectsDay? d.day).map (· && listed)) := by
  refine ⟨?_, Plan.selectsOrdinal_iff_through, ?_⟩
  · intro w n
    rw [Plan.selectsThrough_iff, fitsPattern_numbered d.inCalendar]
  · intro listed
    refine ⟨(Plan.ofRule r).selectsWeekday d.day, ?_, Plan.selectsDay?_eq_map _ _⟩
    rw [Plan.selectsWeekday_of_listed listed, Plan.exists_fitsPattern_iff]

/-- Every month on its Mondays and its last Friday. -/
def mondaysAndLastFriday : Rule where
  freq := .monthly
  start := ⟨.startOf ⟨734137, by decide⟩, .utc, false⟩
  interval := 1
  count := none
  finish := none
  endsBefore := none
  weekStart := .monday
  seconds := []
  minutes := []
  hours := []
  days := [⟨.monday, none⟩, ⟨.friday, some (-1)⟩]
  monthDays := []
  yearDays := []
  weekNumbers := []
  months := []
  positions := []
  interval_pos := Nat.one_pos

/-- The last Friday of February 2011, on the 25th, is selected by its number. -/
theorem lastFriday_of_february_2011 : mondaysAndLastFriday.days ≠ [] ∧
    (mondaysAndLastFriday.weekdaysAround .friday 734192).reverse[0]? = some 734192 ∧
    (Plan.ofRule mondaysAndLastFriday).selectsDay? 734192 = some true := by
  have given : mondaysAndLastFriday.days ≠ [] := by decide
  have through : (Plan.ofRule mondaysAndLastFriday).selectsThrough ⟨.friday, some (-1)⟩ 734192 =
      true := by decide
  obtain ⟨counted, -, union⟩ :=
    Rule.ordinals_count_from_either_end mondaysAndLastFriday ⟨734192, by decide⟩
  obtain ⟨listed, selected, days⟩ := union given
  have last : listed = true :=
    selected.mpr (.inr ⟨⟨.friday, some (-1)⟩, by decide, by decide, through⟩)
  refine ⟨given, ?_, ?_⟩
  · rcases ((counted _ _).mp through).2 with ⟨positive, -⟩ | ⟨-, found⟩
    · exact absurd positive (by decide)
    · exact found
  · rw [days, last]
    decide

end Almanac
