import Almanac.Proofs.Numeric.Place
import Almanac.Proofs.Occurrence.Repeats
import Almanac.Proofs.Occurrence.Selection
import Almanac.Proofs.Rule.Canonical

set_option autoImplicit false

/-!
The wall times at which a rule recurs in one period.

A wall time recurs in a period when it lies in it, on a selected day and at a selected time of day;
where the rule lists positions, it must also have one of them among all such times of the period.

For a rule whose times of day are canonical these wall times make one ascending list, period by
period, and the candidates of a plan are this list wherever the plan gives any.
-/

namespace Almanac

open Calendar

namespace Rule

/-- A wall time of period `i` that passes all lists of days and times. -/
structure Selects (r : Rule) (i : Nat) (t : WallTime) : Prop where
  period : r.freq.periodOf? r.weekStart t = some i
  day : r.SelectsDay t.day
  time : r.SelectsTime t

/-- A wall time of period `i` at which a rule recurs. -/
def RecursIn (r : Rule) (i : Nat) (t : WallTime) : Prop :=
  r.Selects i t ∧ (r.positions ≠ [] →
    ∃ n ∈ r.positions, IsNth {m | ∃ s : WallTime, s.micros = m ∧ r.Selects i s} t.micros n)

open Classical in
/-- The selected days of a period. -/
noncomputable def selectedDays (r : Rule) (i : Nat) : List Nat :=
  (r.freq.days r.weekStart i).filter (fun d => decide (r.SelectsDay d))

/-- The selected wall times of a period, in microseconds. -/
noncomputable def selectedIn (r : Rule) (i : Nat) : List Nat :=
  (r.selectedDays i).flatMap fun d => ((Plan.ofRule r).times i).map fun t => d * dayMicros + t

/-- The wall times at which a rule recurs in a period. -/
noncomputable def recurringIn (r : Rule) (i : Nat) : List Nat :=
  if r.positions.isEmpty then r.selectedIn i else Plan.atPositions r.positions (r.selectedIn i)

/-! What a rule selects depends on the wall time of its start, but neither on its zone nor on the
bounds. -/

/-- The rule with its start read in another zone and with other bounds. -/
def rezoned (r : Rule) (zone : Zone) (fold : Bool) (count : Option Nat)
    (finish endsBefore : Option Zoned) : Rule :=
  { r with start := { r.start with zone, fold }, count, finish, endsBefore }

section Rezoned

variable {r : Rule} {zone : Zone} {fold : Bool} {count : Option Nat}
  {finish endsBefore : Option Zoned} {i : Nat}

theorem selectsDay_rezoned {d : Nat} :
    (r.rezoned zone fold count finish endsBefore).SelectsDay d ↔ r.SelectsDay d := by
  constructor
  · rintro ⟨month, week, yearDay, monthDay, weekday, likeStart⟩
    refine ⟨month, week, yearDay, monthDay, weekday, fun daysOpen => ?_⟩
    obtain ⟨month, dayOfMonth, weekday⟩ := likeStart daysOpen
    exact ⟨month, dayOfMonth, weekday⟩
  · rintro ⟨month, week, yearDay, monthDay, weekday, likeStart⟩
    refine ⟨month, week, yearDay, monthDay, weekday, fun daysOpen => ?_⟩
    obtain ⟨month, dayOfMonth, weekday⟩ := likeStart daysOpen
    exact ⟨month, dayOfMonth, weekday⟩

theorem selects_rezoned {t : WallTime} :
    (r.rezoned zone fold count finish endsBefore).Selects i t ↔ r.Selects i t := by
  constructor
  · rintro ⟨period, day, ⟨hour, minute, second, microsecond⟩⟩
    exact ⟨period, selectsDay_rezoned.mp day, ⟨hour, minute, second, microsecond⟩⟩
  · rintro ⟨period, day, ⟨hour, minute, second, microsecond⟩⟩
    exact ⟨period, selectsDay_rezoned.mpr day, ⟨hour, minute, second, microsecond⟩⟩

theorem recursIn_rezoned {t : WallTime} :
    (r.rezoned zone fold count finish endsBefore).RecursIn i t ↔ r.RecursIn i t := by
  simp only [RecursIn, selects_rezoned]
  rfl

theorem recurringIn_rezoned :
    (r.rezoned zone fold count finish endsBefore).recurringIn i = r.recurringIn i := by
  have days : (r.rezoned zone fold count finish endsBefore).selectedDays i = r.selectedDays i := by
    unfold selectedDays
    apply List.filter_congr
    intro d _
    exact decide_eq_decide.mpr selectsDay_rezoned
  have selected : (r.rezoned zone fold count finish endsBefore).selectedIn i = r.selectedIn i := by
    unfold selectedIn
    rw [days]
    rfl
  unfold recurringIn
  rw [selected]
  rfl

end Rezoned

end Rule

/-! The days and the times of day of a period. -/

theorem List.filterAuxM_eq_some {α : Type} {f : α → Option Bool} {p : α → Bool}
    {l acc found : List α} (agree : ∀ a ∈ l, ∀ b, f a = some b → b = p a)
    (h : l.filterAuxM f acc = some found) : found = (l.filter p).reverse ++ acc := by
  induction l generalizing acc with
  | nil =>
    cases h
    rfl
  | cons a l ih =>
    obtain ⟨b, hb, rest⟩ := Option.bind_eq_some_iff.mp h
    have rest := ih (fun a member => agree a (List.mem_cons_of_mem _ member)) rest
    have head := agree a List.mem_cons_self b hb
    cases b <;> simp [← head, rest]

theorem List.filterM_eq_some {α : Type} {f : α → Option Bool} {p : α → Bool} {l found : List α}
    (agree : ∀ a ∈ l, ∀ b, f a = some b → b = p a) (h : l.filterM f = some found) :
    found = l.filter p := by
  obtain ⟨reversed, hreversed, h⟩ := Option.bind_eq_some_iff.mp h
  cases h
  rw [List.filterAuxM_eq_some agree hreversed, List.append_nil, List.reverse_reverse]

theorem List.exists_filterAuxM {α : Type} {f : α → Option Bool} {l acc : List α}
    (tells : ∀ a ∈ l, f a ≠ none) : ∃ found, l.filterAuxM f acc = some found := by
  induction l generalizing acc with
  | nil => exact ⟨acc, rfl⟩
  | cons a l ih =>
    obtain ⟨b, hb⟩ := Option.ne_none_iff_exists'.mp (tells a List.mem_cons_self)
    obtain ⟨found, rest⟩ : ∃ found, l.filterAuxM f (if b then a :: acc else acc) = some found :=
      ih fun a member => tells a (List.mem_cons_of_mem _ member)
    exact ⟨found, Option.bind_eq_some_iff.mpr ⟨b, hb, by cases b <;> exact rest⟩⟩

theorem List.exists_filterM {α : Type} {f : α → Option Bool} {l : List α}
    (tells : ∀ a ∈ l, f a ≠ none) : ∃ found, l.filterM f = some found := by
  obtain ⟨found, reversed⟩ := List.exists_filterAuxM tells
  exact ⟨found.reverse, Option.bind_eq_some_iff.mpr ⟨found, reversed, rfl⟩⟩

namespace Plan

variable {r : Rule} {i : Nat}

theorem mem_unitValues {given : List Nat} {unit : Frequency} {ofStart current value : Nat} :
    value ∈ (ofRule r).unitValues (timeValues given r.freq unit ofStart) unit current ↔
      (r.freq.rank ≤ unit.rank → value = current) ∧
        Rule.SelectsUnit given r.freq unit ofStart value := by
  have rule : (ofRule r).rule = r := rfl
  unfold unitValues timeValues Rule.SelectsUnit
  rw [rule]
  by_cases finer : unit.rank < r.freq.rank
  · have notCoarser : ¬ r.freq.rank ≤ unit.rank := by omega
    by_cases none : given = [] <;> simp [finer, notCoarser, none]
  · have coarser : r.freq.rank ≤ unit.rank := by omega
    by_cases none : given = []
    · simp [finer, coarser, none]
    · by_cases listed : current ∈ given
      · simp only [finer, coarser, none, listed, if_false, List.isEmpty_iff, Bool.or_eq_true,
          List.contains_iff_mem, or_true, if_true, List.mem_singleton, true_imp_iff, false_imp_iff,
          ne_eq, not_false_eq_true, true_and]
        exact ⟨fun eq => ⟨eq, eq ▸ listed⟩, And.left⟩
      · simp only [finer, coarser, none, listed, if_false, List.isEmpty_iff, Bool.or_eq_true,
          List.contains_iff_mem, or_self, List.not_mem_nil, true_imp_iff, false_imp_iff, ne_eq,
          not_false_eq_true, true_and, false_iff]
        exact fun ⟨eq, member⟩ => listed (eq ▸ member)

theorem unitValues_ascending {given : List Nat} (sorted : given.Pairwise (· < ·))
    (unit : Frequency) (ofStart current : Nat) :
    ((ofRule r).unitValues (timeValues given r.freq unit ofStart) unit current).Pairwise
      (· < ·) := by
  unfold unitValues
  split
  · unfold timeValues
    split
    · split <;> simp
    · exact sorted
  · generalize timeValues given r.freq unit ofStart = values
    split
    · exact List.pairwise_singleton _ _
    · exact .nil

theorem unitValues_lt {given : List Nat} {unit : Frequency} {ofStart current value bound : Nat}
    (given_lt : ∀ n ∈ given, n < bound) (ofStart_lt : ofStart < bound) (current_lt : current < bound)
    (member : value ∈
      (ofRule r).unitValues (timeValues given r.freq unit ofStart) unit current) :
    value < bound := by
  obtain ⟨ofPeriod, unlisted, listed⟩ := mem_unitValues.mp member
  by_cases coarser : r.freq.rank ≤ unit.rank
  · exact ofPeriod coarser ▸ current_lt
  · by_cases none : given = []
    · exact unlisted none (by omega) ▸ ofStart_lt
    · exact given_lt _ (listed none)

theorem mem_times (canonical : r.Canonical) {n : Nat} : n ∈ (ofRule r).times i ↔
    ∃ h m s, h < 24 ∧ m < 60 ∧ s < 60 ∧
      n = WallTime.timeOfDay h m s r.start.wall.microsecond ∧
      ((r.freq.rank ≤ Frequency.hourly.rank → h = r.freq.timeOfDay i / hourMicros) ∧
        Rule.SelectsUnit r.hours r.freq .hourly r.start.wall.hour h) ∧
      ((r.freq.rank ≤ Frequency.minutely.rank →
          m = r.freq.timeOfDay i % hourMicros / minuteMicros) ∧
        Rule.SelectsUnit r.minutes r.freq .minutely r.start.wall.minute m) ∧
      ((r.freq.rank ≤ Frequency.secondly.rank →
          s = r.freq.timeOfDay i % minuteMicros / secondMicros) ∧
        Rule.SelectsUnit r.seconds r.freq .secondly r.start.wall.second s) := by
  have bound := Frequency.timeOfDay_lt (f := r.freq) (i := i)
  have rule : (ofRule r).rule = r := rfl
  simp only [times, List.mem_flatMap, List.mem_map, rule]
  constructor
  · rintro ⟨h, hh, m, hm, s, hs, rfl⟩
    refine ⟨h, m, s, ?_, ?_, ?_, ?_, mem_unitValues.mp hh, mem_unitValues.mp hm,
      mem_unitValues.mp hs⟩
    · exact unitValues_lt canonical.hours_lt r.start.wall.hour_lt
        (by rw [hourMicros_eq]; omega) hh
    · exact unitValues_lt canonical.minutes_lt r.start.wall.minute_lt
        (by rw [hourMicros_eq, minuteMicros_eq]; omega) hm
    · exact unitValues_lt canonical.seconds_lt r.start.wall.second_lt
        (by rw [minuteMicros_eq, secondMicros_eq]; omega) hs
    · rw [WallTime.timeOfDay, hourMicros_eq, minuteMicros_eq, secondMicros_eq]
  · rintro ⟨h, m, s, -, -, -, rfl, hh, hm, hs⟩
    refine ⟨h, mem_unitValues.mpr hh, m, mem_unitValues.mpr hm, s, mem_unitValues.mpr hs, ?_⟩
    rw [WallTime.timeOfDay, hourMicros_eq, minuteMicros_eq, secondMicros_eq]

theorem times_ascending (canonical : r.Canonical) (i : Nat) :
    ((ofRule r).times i).Pairwise (· < ·) := by
  have bound := Frequency.timeOfDay_lt (f := r.freq) (i := i)
  have microsecond := r.start.wall.microsecond_lt
  have seconds_lt : ∀ s ∈ (ofRule r).unitValues (ofRule r).seconds .secondly
      (r.freq.timeOfDay i % minuteMicros / secondMicros), s < 60 := by
    intro s hs
    exact unitValues_lt canonical.seconds_lt r.start.wall.second_lt
        (by rw [minuteMicros_eq, secondMicros_eq]; omega) hs
  have minutes_lt : ∀ m ∈ (ofRule r).unitValues (ofRule r).minutes .minutely
      (r.freq.timeOfDay i % hourMicros / minuteMicros), m < 60 := by
    intro m hm
    exact unitValues_lt canonical.minutes_lt r.start.wall.minute_lt
        (by rw [hourMicros_eq, minuteMicros_eq]; omega) hm
  have rule : (ofRule r).rule = r := rfl
  simp only [times, List.pairwise_flatMap, List.pairwise_map, rule, hourMicros_eq, minuteMicros_eq,
    secondMicros_eq] at seconds_lt minutes_lt ⊢
  constructor
  · intro h _
    constructor
    · intro m _
      apply (unitValues_ascending canonical.seconds_ascending _ _ _).imp
      intro s s' less
      omega
    · apply (unitValues_ascending canonical.minutes_ascending _ _ _).imp
      intro m m' less n hn n' hn'
      obtain ⟨s, hs, rfl⟩ := List.mem_map.mp hn
      obtain ⟨s', hs', rfl⟩ := List.mem_map.mp hn'
      have := seconds_lt s hs
      omega
  · apply (unitValues_ascending canonical.hours_ascending _ _ _).imp
    intro h h' less n hn n' hn'
    obtain ⟨m, hm, hn⟩ := List.mem_flatMap.mp hn
    obtain ⟨s, hs, rfl⟩ := List.mem_map.mp hn
    obtain ⟨m', hm', hn'⟩ := List.mem_flatMap.mp hn'
    obtain ⟨s', hs', rfl⟩ := List.mem_map.mp hn'
    have := minutes_lt m hm
    have := seconds_lt s hs
    omega

theorem recurringIn_eq_nil_of_times (h : (ofRule r).times i = []) : r.recurringIn i = [] := by
  have selected : r.selectedIn i = [] := by
    rw [Rule.selectedIn, h]
    simp
  rw [Rule.recurringIn, selected, atPositions_nil, ite_self]

/-- The candidates that a plan gives for a period are the wall times at which its rule recurs. -/
theorem candidates?_spec {found : List Nat} (h : (ofRule r).candidates? i = some found) :
    found = r.recurringIn i := by
  have rule : (ofRule r).rule = r := rfl
  simp only [candidates?, rule] at h
  split at h
  · rename_i none
    cases h
    have none : (ofRule r).times i = [] := by simpa using none
    rw [recurringIn_eq_nil_of_times none]
  · obtain ⟨days, hdays, h⟩ := Option.bind_eq_some_iff.mp h
    have days : days = r.selectedDays i := by
      apply List.filterM_eq_some _ hdays
      intro d _ b hb
      rw [Bool.eq_iff_iff, selectsDay?_spec hb]
      simp
    cases h
    rw [days]
    rfl

/-- A plan gives the candidates of a period where it can tell of each of its days whether it is
selected. -/
theorem candidates?_eq (tells : ∀ d ∈ r.freq.days r.weekStart i, (ofRule r).selectsDay? d ≠ none) :
    (ofRule r).candidates? i = some (r.recurringIn i) := by
  have rule : (ofRule r).rule = r := rfl
  obtain ⟨found, candidates⟩ : ∃ found, (ofRule r).candidates? i = some found := by
    simp only [candidates?, rule]
    split
    · exact ⟨[], rfl⟩
    · obtain ⟨days, hdays⟩ := List.exists_filterM tells
      exact ⟨_, Option.bind_eq_some_iff.mpr ⟨days, hdays, rfl⟩⟩
  rw [candidates, candidates?_spec candidates]

end Plan

namespace Rule

variable {r : Rule} {i : Nat}

theorem mem_selectedIn (canonical : r.Canonical) (period : r.freq.IsPeriod i)
    (limit : i < r.freq.periodLimit r.weekStart) {n : Nat} :
    n ∈ r.selectedIn i ↔ ∃ t : WallTime, t.micros = n ∧ r.Selects i t := by
  simp only [selectedIn, selectedDays, List.mem_flatMap, List.mem_filter, List.mem_map,
    decide_eq_true_eq]
  constructor
  · rintro ⟨d, ⟨hd, selected⟩, k, hk, rfl⟩
    obtain ⟨h, m, s, hh, hm, hs, rfl, hour, minute, second⟩ := (Plan.mem_times canonical).mp hk
    have day := Frequency.day_lt_of_mem_days period limit hd
    have microsecond := r.start.wall.microsecond_lt
    have inCalendar : d * dayMicros + WallTime.timeOfDay h m s r.start.wall.microsecond <
        calendarMicros := by
      have count : dayCount = 3652059 := rfl
      rw [calendarMicros_eq, dayMicros_eq, WallTime.timeOfDay]
      omega
    obtain ⟨t, micros⟩ : ∃ t : WallTime, t.micros =
        d * dayMicros + WallTime.timeOfDay h m s r.start.wall.microsecond := ⟨⟨_, inCalendar⟩, rfl⟩
    obtain ⟨rfl, rfl, rfl, rfl, fraction⟩ :=
      WallTime.fields_of_micros_eq hh hm hs microsecond (by rw [micros, dayMicros_eq])
    refine ⟨t, micros, ?_, selected, hour.2, minute.2, second.2, fraction⟩
    exact (Frequency.periodOf?_iff_fields period).mpr ⟨hd, hour.1, minute.1, second.1⟩
  · rintro ⟨t, rfl, inPeriod, selected, hour, minute, second, fraction⟩
    obtain ⟨hd, hh, hm, hs⟩ := (Frequency.periodOf?_iff_fields period).mp inPeriod
    refine ⟨t.day, ⟨hd, selected⟩, _, (Plan.mem_times canonical).mpr ⟨t.hour, t.minute, t.second,
      t.hour_lt, t.minute_lt, t.second_lt, rfl, ⟨hh, hour⟩, ⟨hm, minute⟩, hs, second⟩, ?_⟩
    rw [← fraction, dayMicros_eq, t.micros_eq]

theorem selectedIn_ascending (canonical : r.Canonical) (i : Nat) :
    (r.selectedIn i).Pairwise (· < ·) := by
  have timeOfDay_lt : ∀ n ∈ (Plan.ofRule r).times i, n < 86400000000 := by
    intro n hn
    obtain ⟨h, m, s, hh, hm, hs, rfl, _⟩ := (Plan.mem_times canonical).mp hn
    have := r.start.wall.microsecond_lt
    rw [WallTime.timeOfDay]
    omega
  have days : (r.freq.days r.weekStart i).Pairwise (· < ·) := by
    by_cases fine : r.freq.isSubDaily = true
    · rw [Frequency.days_fine fine]
      exact List.pairwise_singleton _ _
    · rw [Frequency.days_coarse (by simpa using fine)]
      exact List.pairwise_lt_range'
  rw [selectedIn, selectedDays, List.pairwise_flatMap]
  constructor
  · intro d _
    rw [List.pairwise_map]
    exact (Plan.times_ascending canonical i).imp (fun less => Nat.add_lt_add_left less _)
  · apply (days.filter _).imp
    intro d d' less n hn n' hn'
    obtain ⟨k, hk, rfl⟩ := List.mem_map.mp hn
    obtain ⟨k', hk', rfl⟩ := List.mem_map.mp hn'
    have := timeOfDay_lt k hk
    rw [dayMicros_eq]
    omega

theorem mem_recurringIn (canonical : r.Canonical) (period : r.freq.IsPeriod i)
    (limit : i < r.freq.periodLimit r.weekStart) {n : Nat} :
    n ∈ r.recurringIn i ↔ ∃ t : WallTime, t.micros = n ∧ r.RecursIn i t := by
  have selected : {m | m ∈ r.selectedIn i} = {m | ∃ s : WallTime, s.micros = m ∧ r.Selects i s} := by
    ext m
    exact mem_selectedIn canonical period limit
  unfold recurringIn RecursIn
  split
  · rename_i none
    have none : r.positions = [] := by simpa using none
    rw [mem_selectedIn canonical period limit]
    simp only [none, ne_eq, not_true_eq_false, false_imp_iff, and_true]
  · rename_i given
    have given : r.positions ≠ [] := by simpa using given
    rw [Plan.mem_atPositions (selectedIn_ascending canonical i), selected]
    simp only [given, ne_eq, not_false_eq_true, true_imp_iff]
    constructor
    · rintro ⟨k, member, place⟩
      obtain ⟨t, rfl, selects⟩ := place.1
      exact ⟨t, rfl, selects, k, member, place⟩
    · rintro ⟨t, rfl, _, place⟩
      exact place

theorem recurringIn_ascending (canonical : r.Canonical) (i : Nat) :
    (r.recurringIn i).Pairwise (· < ·) := by
  unfold recurringIn
  split
  · exact selectedIn_ascending canonical i
  · exact Plan.atPositions_ascending _ _

/-- What recurs in a period lies between its start and the next one, at the fraction of a second of
the start. -/
theorem recurringIn_bounds (canonical : r.Canonical) (period : r.freq.IsPeriod i)
    (limit : i < r.freq.periodLimit r.weekStart) {n : Nat} (member : n ∈ r.recurringIn i) :
    r.freq.startOf r.weekStart i ≤ n ∧ n < r.freq.startOf r.weekStart (i + 1) ∧
      n % 1000000 = r.start.wall.microsecond ∧ n < calendarMicros := by
  obtain ⟨t, rfl, ⟨inPeriod, _, time⟩, _⟩ := (mem_recurringIn canonical period limit).mp member
  obtain ⟨low, high⟩ := (Frequency.periodOf?_eq_some_iff period).mp inPeriod
  exact ⟨low, high, by rw [← time.microsecond, t.microsecond_eq], t.inCalendar⟩

/-! Periods that repeat earlier ones. -/

/-- What recurs in a period recurs as many days later in one that repeats it. -/
theorem recurringIn_of_repeats {j shift : Nat} (repeats : r.freq.Repeats r.weekStart i shift j) :
    r.recurringIn j = (r.recurringIn i).map (· + shift * dayMicros) := by
  have rule : (Plan.ofRule r).rule = r := rfl
  have times : (Plan.ofRule r).times j = (Plan.ofRule r).times i := by
    simp only [Plan.times, rule, repeats.timeOfDay]
  have selectedDays : r.selectedDays j = (r.selectedDays i).map (· + shift) := by
    unfold Rule.selectedDays
    rw [repeats.days, List.filter_map]
    congr 1
    apply List.filter_congr
    intro d hd
    simp [selectsDay_of_fallsLike (repeats.alike d hd)]
  have selectedIn : r.selectedIn j = (r.selectedIn i).map (· + shift * dayMicros) := by
    unfold Rule.selectedIn
    rw [selectedDays, times, List.flatMap_map, List.map_flatMap]
    simp only [List.map_map, Function.comp_def, Nat.add_mul]
    congr 1
    funext d
    congr 1
    funext n
    omega
  unfold recurringIn
  rw [selectedIn]
  split
  · rfl
  · exact Plan.atPositions_map_add _ _ _

theorem recurringIn_eq_nil_iff_of_repeats {j shift : Nat}
    (repeats : r.freq.Repeats r.weekStart i shift j) :
    r.recurringIn j = [] ↔ r.recurringIn i = [] := by
  rw [recurringIn_of_repeats repeats, List.map_eq_nil_iff]

end Rule

end Almanac
