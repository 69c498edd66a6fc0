import Almanac.Occurrence.Scan
import Almanac.Proofs.Occurrence.Candidates
import Almanac.Proofs.Time.Settled

set_option autoImplicit false

/-!
What a scan has still to give.

The periods that a scan opens are a whole number of intervals apart. What recurs in them from one
period on makes a list, and what a scan has still to give are the instants of this list that are not
before the start. Every step keeps this list, up to the instant it emits, and a scan stops only when
the list is empty: it has met nothing for 400 years times the interval, and what recurred later would
have recurred then.
-/

namespace Almanac

open Calendar

namespace Rule

/-- The wall times at which a rule recurs in period `i` and those that are a whole number of
intervals later. -/
noncomputable def recurringFrom (r : Rule) (i : Nat) : List Nat :=
  if i < r.freq.periodLimit r.weekStart then r.recurringIn i ++ r.recurringFrom (i + r.interval)
  else []
termination_by r.freq.periodLimit r.weekStart - i
decreasing_by
  have := r.interval_pos
  omega

/-- The instant at which the clocks of the start show a wall time. -/
def instantOf? (r : Rule) (n : Nat) : Option Zoned :=
  WallTime.ofMicros? n >>= r.start.zone.resolve?

theorem instantOf?_micros (r : Rule) (t : WallTime) :
    r.instantOf? t.micros = r.start.zone.resolve? t := by
  rw [instantOf?, WallTime.ofMicros?_eq_some_iff.mpr rfl]
  rfl

/-- The instants of wall times that are not before the start. -/
def instants (r : Rule) (ns : List Nat) : List Zoned :=
  (ns.filterMap r.instantOf?).filter (fun t => !t.before r.start)

/-- A period that is a whole number of intervals after that of the start. -/
def Aligned (r : Rule) (i : Nat) : Prop :=
  ∃ first n, r.freq.periodOf? r.weekStart r.start.wall = some first ∧ i = first + n * r.interval

/-- A wall time that is read as an instant before the start. -/
def ReadsEarly (r : Rule) (n : Nat) : Prop :=
  ∃ t, r.instantOf? n = some t ∧ t.before r.start = true

variable {r : Rule} {i : Nat}

namespace Aligned

variable (aligned : r.Aligned i)
include aligned

theorem isPeriod : r.freq.IsPeriod i := by
  obtain ⟨first, n, hfirst, rfl⟩ := aligned
  exact (Frequency.isPeriod_of_periodOf? hfirst).mono (Nat.le_add_right _ _)

theorem add (n : Nat) : r.Aligned (i + n * r.interval) := by
  obtain ⟨first, m, hfirst, rfl⟩ := aligned
  exact ⟨first, m + n, hfirst, by rw [Nat.add_mul, Nat.add_assoc]⟩

theorem next : r.Aligned (i + r.interval) := by
  have next := aligned.add 1
  rwa [Nat.one_mul] at next

end Aligned

theorem recurringFrom_of_lt (h : i < r.freq.periodLimit r.weekStart) :
    r.recurringFrom i = r.recurringIn i ++ r.recurringFrom (i + r.interval) := by
  rw [recurringFrom, if_pos h]

theorem recurringFrom_of_le (h : r.freq.periodLimit r.weekStart ≤ i) : r.recurringFrom i = [] := by
  rw [recurringFrom, if_neg (by omega)]

theorem recurringFrom_skip {n : Nat} (nothing : ∀ k < n, r.recurringIn (i + k * r.interval) = []) :
    r.recurringFrom i = r.recurringFrom (i + n * r.interval) := by
  induction n with
  | zero => simp
  | succ n ih =>
    rw [ih (fun k hk => nothing k (by omega))]
    have next : i + (n + 1) * r.interval = i + n * r.interval + r.interval := by
      rw [Nat.succ_mul, Nat.add_assoc]
    by_cases limit : i + n * r.interval < r.freq.periodLimit r.weekStart
    · rw [recurringFrom_of_lt limit, nothing n (Nat.lt_succ_self n), List.nil_append, next]
    · rw [recurringFrom_of_le (by omega), recurringFrom_of_le (by omega)]

theorem recurringFrom_eq_nil
    (nothing : ∀ k, i + k * r.interval < r.freq.periodLimit r.weekStart →
      r.recurringIn (i + k * r.interval) = []) : r.recurringFrom i = [] := by
  fun_induction recurringFrom r i with
  | case1 i limit ih =>
    have first := nothing 0 (by simpa using limit)
    rw [Nat.zero_mul, Nat.add_zero] at first
    rw [first, List.nil_append]
    apply ih
    intro k hk
    have next : i + r.interval + k * r.interval = i + (k + 1) * r.interval := by
      rw [Nat.succ_mul]
      omega
    rw [next] at hk ⊢
    exact nothing (k + 1) hk
  | case2 i limit => rfl

theorem mem_recurringFrom {n : Nat} : n ∈ r.recurringFrom i ↔
    ∃ k, i + k * r.interval < r.freq.periodLimit r.weekStart ∧
      n ∈ r.recurringIn (i + k * r.interval) := by
  fun_induction recurringFrom r i with
  | case1 i limit ih =>
    have next (k : Nat) : i + r.interval + k * r.interval = i + (k + 1) * r.interval := by
      rw [Nat.succ_mul]
      omega
    rw [List.mem_append, ih]
    constructor
    · rintro (first | ⟨k, hk, member⟩)
      · exact ⟨0, by simpa using limit, by simpa using first⟩
      · exact ⟨k + 1, next k ▸ hk, next k ▸ member⟩
    · rintro ⟨k, hk, member⟩
      cases k with
      | zero => exact .inl (by simpa using member)
      | succ k => exact .inr ⟨k, next k ▸ hk, next k ▸ member⟩
  | case2 i limit =>
    simp only [List.not_mem_nil, false_iff, not_exists, not_and]
    intro k hk
    omega

/-- What recurs before some period is left out when the list starts there. -/
theorem recurringFrom_split (n : Nat) : ∃ left, r.recurringFrom i =
    left ++ r.recurringFrom (i + n * r.interval) ∧ ∀ m ∈ left, ∃ k < n,
      i + k * r.interval < r.freq.periodLimit r.weekStart ∧
        m ∈ r.recurringIn (i + k * r.interval) := by
  induction n with
  | zero => exact ⟨[], by simp, by simp⟩
  | succ n ih =>
    obtain ⟨left, eq, early⟩ := ih
    have next : i + (n + 1) * r.interval = i + n * r.interval + r.interval := by
      rw [Nat.succ_mul, Nat.add_assoc]
    by_cases limit : i + n * r.interval < r.freq.periodLimit r.weekStart
    · refine ⟨left ++ r.recurringIn (i + n * r.interval), ?_, ?_⟩
      · rw [eq, recurringFrom_of_lt limit, next, List.append_assoc]
      · intro m member
        rcases List.mem_append.mp member with before | last
        · obtain ⟨k, hk, found⟩ := early m before
          exact ⟨k, by omega, found⟩
        · exact ⟨n, Nat.lt_succ_self n, limit, last⟩
    · refine ⟨left, ?_, ?_⟩
      · rw [eq, recurringFrom_of_le (by omega), recurringFrom_of_le (by omega)]
      · intro m member
        obtain ⟨k, hk, found⟩ := early m member
        exact ⟨k, by omega, found⟩

theorem mem_instants {ns : List Nat} {t : Zoned} : t ∈ r.instants ns ↔
    ∃ n ∈ ns, r.instantOf? n = some t ∧ t.before r.start = false := by
  simp only [instants, List.mem_filter, List.mem_filterMap, Bool.not_eq_true']
  constructor
  · rintro ⟨⟨n, member, resolved⟩, late⟩
    exact ⟨n, member, resolved, late⟩
  · rintro ⟨n, member, resolved, late⟩
    exact ⟨⟨n, member, resolved⟩, late⟩

@[simp]
theorem instants_nil : r.instants [] = [] := rfl

theorem instants_append (ns ms : List Nat) :
    r.instants (ns ++ ms) = r.instants ns ++ r.instants ms := by
  rw [instants, List.filterMap_append, List.filter_append]
  rfl

theorem instants_cons_before {n : Nat} {ns : List Nat} {t : Zoned} (h : r.instantOf? n = some t)
    (early : t.before r.start = true) : r.instants (n :: ns) = r.instants ns := by
  simp [instants, h, early]

theorem instants_cons {n : Nat} {ns : List Nat} {t : Zoned} (h : r.instantOf? n = some t)
    (late : ¬ t.before r.start = true) : r.instants (n :: ns) = t :: r.instants ns := by
  simp [instants, h, late]

/-- What is read as before the start is less than three days after it by the clock: the readings of
two wall times are moved apart by less than two offsets. -/
theorem ReadsEarly.near {n : Nat} (h : r.ReadsEarly n) :
    n < r.start.wall.micros + 3 * 86400000000 := by
  obtain ⟨t, resolved, early⟩ := h
  obtain ⟨wall, hwall, resolved⟩ := Option.bind_eq_some_iff.mp resolved
  have micros : wall.micros = n := Int.natCast_inj.mp (WallTime.ofMicros?_eq_some_iff.mp hwall)
  obtain ⟨u, hu, _, reach, _⟩ := Zone.resolve?_spec resolved
  obtain ⟨_, shown, zone, _⟩ := Zoned.ofUtc?_eq_some_iff.mp hu
  have before := (Zoned.before_iff_wall zone).mp early
  have offset := (⟨wall, r.start.zone, false⟩ : Zoned).offset.bounds
  have offset' := (r.start.zone.offsetAtUtc u).1.bounds
  rw [Zoned.utc] at reach
  dsimp only at reach
  omega

end Rule

/-! Periods whose day, hour or minute is not selected. -/

namespace Plan

variable {r : Rule} {i j : Nat}

theorem recurringIn_eq_nil_of_days (h : ∀ d ∈ r.freq.days r.weekStart i, ¬ r.SelectsDay d) :
    r.recurringIn i = [] := by
  have days : r.selectedDays i = [] := by
    rw [Rule.selectedDays, List.filter_eq_nil_iff]
    intro d member
    simpa using h d member
  have selected : r.selectedIn i = [] := by rw [Rule.selectedIn, days, List.flatMap_nil]
  rw [Rule.recurringIn, selected, atPositions_nil, ite_self]

theorem alignedFrom_spec (r : Rule) {goal : Nat} (later : i < goal) :
    ∃ n, (ofRule r).alignedFrom i goal = i + n * r.interval ∧ goal ≤ i + n * r.interval ∧
      ∀ k < n, i + k * r.interval < goal := by
  have positive := r.interval_pos
  refine ⟨(goal - i + (r.interval - 1)) / r.interval, rfl, ?_, fun k hk => ?_⟩
  · have parts := Nat.div_add_mod' (goal - i + (r.interval - 1)) r.interval
    have rest := Nat.mod_lt (goal - i + (r.interval - 1)) positive
    omega
  · have fits := Nat.mul_le_mul_right r.interval (Nat.succ_le_of_lt hk)
    have quotient := Nat.div_mul_le_self (goal - i + (r.interval - 1)) r.interval
    rw [Nat.succ_mul] at fits
    omega

theorem div_eq_of_lt_next {n : Nat} (hn : 0 < n) (i : Nat) :
    i < (i / n + 1) * n ∧ ∀ j, i ≤ j → j < (i / n + 1) * n → j / n = i / n := by
  have parts := Nat.div_add_mod i n
  have rest := Nat.mod_lt i hn
  rw [Nat.mul_comm] at parts
  refine ⟨by rw [Nat.add_mul (i / n) 1 n]; omega, fun j low high => ?_⟩
  have := Nat.div_le_div_right (c := n) low
  have := Nat.div_lt_of_lt_mul (Nat.mul_comm _ _ ▸ high)
  omega

theorem recurringIn_eq_nil_of_hour (canonical : r.Canonical)
    (fine : r.freq.rank ≤ Frequency.hourly.rank) (given : r.hours ≠ [])
    (unlisted : r.freq.timeOfDay i / hourMicros ∉ r.hours) : r.recurringIn i = [] := by
  apply recurringIn_eq_nil_of_times
  apply List.eq_nil_iff_forall_not_mem.mpr
  intro n member
  obtain ⟨h, _, _, _, _, _, _, ⟨ofPeriod, _, listed⟩, _⟩ := (mem_times canonical).mp member
  exact unlisted (ofPeriod fine ▸ listed given)

theorem recurringIn_eq_nil_of_minute (canonical : r.Canonical)
    (fine : r.freq.rank ≤ Frequency.minutely.rank) (given : r.minutes ≠ [])
    (unlisted : r.freq.timeOfDay i % hourMicros / minuteMicros ∉ r.minutes) :
    r.recurringIn i = [] := by
  apply recurringIn_eq_nil_of_times
  apply List.eq_nil_iff_forall_not_mem.mpr
  intro n member
  obtain ⟨_, m, _, _, _, _, _, _, ⟨ofPeriod, _, listed⟩, _⟩ := (mem_times canonical).mp member
  exact unlisted (ofPeriod fine ▸ listed given)

theorem boundary?_spec (canonical : r.Canonical) (fine : r.freq.isSubDaily = true) {goal : Nat}
    (h : (ofRule r).boundary? i = some (some goal)) :
    i < goal ∧ ∀ j, i ≤ j → j < goal → r.recurringIn j = [] := by
  have rule : (ofRule r).rule = r := rfl
  have perDay : 0 < r.freq.perDay := by cases r.freq <;> decide
  have perHour : 0 < r.freq.perDay / 24 := by
    revert fine
    cases r.freq <;> decide
  simp only [boundary?, rule] at h
  obtain ⟨selected, hselected, h⟩ := Option.bind_eq_some_iff.mp h
  split at h
  · -- the day is not selected
    rename_i unselected
    obtain rfl : selected = false := by simpa using unselected
    rw [Frequency.firstDay_fine fine] at h hselected
    obtain rfl := Option.some.inj (Option.some.inj h)
    obtain ⟨later, same⟩ := div_eq_of_lt_next perDay i
    refine ⟨later, fun j low high => recurringIn_eq_nil_of_days fun d member => ?_⟩
    rw [Frequency.days_fine fine, List.mem_singleton, same j low high] at member
    subst member
    rw [← selectsDay?_spec hselected]
    decide
  · split at h
    · -- the hour is not listed
      rename_i hour
      simp only [Bool.and_eq_true, Bool.not_eq_true', List.isEmpty_eq_false_iff,
        decide_eq_true_eq] at hour
      obtain ⟨⟨_, given⟩, unlisted⟩ := hour
      obtain rfl := Option.some.inj (Option.some.inj h)
      obtain ⟨later, same⟩ := div_eq_of_lt_next perHour i
      refine ⟨later, fun j low high => recurringIn_eq_nil_of_hour canonical
        (Nat.le_of_lt_succ (of_decide_eq_true fine)) given ?_⟩
      rw [Frequency.hour_fine fine, same j low high, ← Frequency.hour_fine fine]
      simpa using unlisted
    · split at h
      · -- the minute is not listed
        rename_i minute
        simp only [Bool.and_eq_true, Bool.not_eq_true', List.isEmpty_eq_false_iff,
          decide_eq_true_eq] at minute
        obtain ⟨⟨secondly, given⟩, unlisted⟩ := minute
        obtain rfl := Option.some.inj (Option.some.inj h)
        obtain ⟨later, same⟩ := div_eq_of_lt_next (show 0 < 60 by decide) i
        refine ⟨later, fun j low high => recurringIn_eq_nil_of_minute canonical
          (by rw [secondly]; decide) given ?_⟩
        rw [secondly, Frequency.minute_secondly, same j low high, ← Frequency.minute_secondly,
          ← secondly]
        simpa using unlisted
      · cases h

/-- The period that a scan looks at instead of period `i` is the first aligned one from the boundary
on, where there is one. -/
theorem skipFrom?_boundary (canonical : r.Canonical) (fine : r.freq.isSubDaily = true)
    (h : (ofRule r).skipFrom? i = some j) : ∃ boundary n, (ofRule r).boundary? i = some boundary ∧
      i ≤ boundary.getD i ∧ j = i + n * r.interval ∧ boundary.getD i ≤ j ∧
        ∀ k < n, i + k * r.interval < boundary.getD i := by
  obtain ⟨boundary, hboundary, h⟩ := Option.bind_eq_some_iff.mp h
  cases boundary with
  | none =>
    cases h
    exact ⟨none, 0, hboundary, Nat.le_refl _, by simp, Nat.le_refl _, by simp⟩
  | some goal =>
    obtain ⟨later, _⟩ := boundary?_spec canonical fine hboundary
    dsimp only at h
    split at h
    · cases h
      obtain ⟨n, aligned, after, before⟩ := alignedFrom_spec r later
      exact ⟨some goal, n, hboundary, Nat.le_of_lt later, aligned, aligned ▸ after, before⟩
    · cases h

theorem skipFrom?_spec (canonical : r.Canonical) (fine : r.freq.isSubDaily = true)
    (h : (ofRule r).skipFrom? i = some j) :
    ∃ n, j = i + n * r.interval ∧ ∀ k < n, r.recurringIn (i + k * r.interval) = [] := by
  obtain ⟨boundary, n, hboundary, _, aligned, _, before⟩ := skipFrom?_boundary canonical fine h
  refine ⟨n, aligned, fun k hk => ?_⟩
  cases boundary with
  | none => exact absurd (before k hk) (Nat.not_lt_of_le (Nat.le_add_right i _))
  | some goal =>
    exact (boundary?_spec canonical fine hboundary).2 _ (Nat.le_add_right _ _) (before k hk)

end Plan

/-! The first period. -/

namespace Plan

variable {r : Rule} {i : Nat}

/-- The first period is a whole number of intervals after that of the start, and at least an
interval before the last aligned one that starts by the point of resumption, if it is later than
that of the start. -/
theorem firstPeriod?_spec {resume : Option Stamp} (h : (ofRule r).firstPeriod? resume = some i) :
    ∃ first n, r.freq.periodOf? r.weekStart r.start.wall = some first ∧
      i = first + n * r.interval ∧
      (0 < n → ∃ stamp wall goal, resume = some stamp ∧ stamp.wallIn? r.start.zone = some wall ∧
        r.freq.periodOf? r.weekStart wall = some goal ∧ i + r.interval ≤ goal) := by
  have rule : (ofRule r).rule = r := rfl
  have positive := r.interval_pos
  simp only [firstPeriod?, rule] at h
  obtain ⟨first, hfirst, h⟩ := Option.bind_eq_some_iff.mp h
  refine ⟨first, ?_⟩
  cases resume with
  | none =>
    cases h
    exact ⟨0, hfirst, by simp, by simp⟩
  | some stamp =>
    obtain ⟨wall, hwall, h⟩ := Option.bind_eq_some_iff.mp h
    split at h
    · cases h
    · obtain rfl := Option.some.inj h
      refine ⟨_, hfirst, rfl, fun resumed => ?_⟩
      cases hgoal : r.freq.periodOf? r.weekStart wall with
      | none =>
        rw [hgoal, Option.getD_none, Nat.zero_sub, Nat.zero_div] at resumed
        omega
      | some goal =>
        rw [hgoal, Option.getD_some] at resumed
        rw [Option.getD_some]
        refine ⟨stamp, wall, goal, rfl, hwall, hgoal, ?_⟩
        have quotient := Nat.div_mul_le_self (goal - first) r.interval
        have split : (goal - first) / r.interval * r.interval =
            ((goal - first) / r.interval - 1) * r.interval + r.interval := by
          rw [← Nat.succ_mul]
          congr 1
          omega
        have : r.interval ≤ goal - first := by
          calc r.interval ≤ (goal - first) / r.interval * r.interval :=
                Nat.le_mul_of_pos_left _ (by omega)
            _ ≤ goal - first := quotient
        omega

/-- What recurs before the first period, on resuming, lies before a whole second that is at least one
interval earlier than the point of resumption. -/
theorem recurs_before_resumption (canonical : r.Canonical) {first n k goal m : Nat}
    {wall : WallTime} (period : r.freq.IsPeriod first)
    (hgoal : r.freq.periodOf? r.weekStart wall = some goal)
    (reach : first + n * r.interval + r.interval ≤ goal) (hk : k < n)
    (limit : first + k * r.interval < r.freq.periodLimit r.weekStart)
    (member : m ∈ r.recurringIn (first + k * r.interval)) :
    ∃ second, second % 1000000 = 0 ∧ m < second ∧
      second + r.interval * r.freq.leastLength ≤ wall.micros := by
  have goalPeriod := period.mono (show first ≤ goal by omega)
  obtain ⟨goalStart, _⟩ := (Frequency.periodOf?_eq_some_iff goalPeriod).mp hgoal
  have inPeriod := period.mono (Nat.le_add_right first (k * r.interval))
  obtain ⟨_, high, _⟩ := Rule.recurringIn_bounds canonical inPeriod limit member
  have positive := r.interval_pos
  have fits := Nat.mul_le_mul_right r.interval (Nat.succ_le_of_lt hk)
  rw [Nat.succ_mul] at fits
  have next := inPeriod.mono (Nat.le_add_right (first + k * r.interval) 1)
  refine ⟨r.freq.startOf r.weekStart (first + k * r.interval + 1),
    Frequency.startOf_whole _ _ _, high, ?_⟩
  calc r.freq.startOf r.weekStart (first + k * r.interval + 1) + r.interval * r.freq.leastLength
      ≤ r.freq.startOf r.weekStart (first + k * r.interval + 1 + r.interval) :=
        Frequency.startOf_add next _
    _ ≤ r.freq.startOf r.weekStart goal :=
        Frequency.startOf_mono (next.mono (Nat.le_add_right _ _)) (by omega)
    _ ≤ wall.micros := goalStart

end Plan

/-! Steps of a scan. -/

namespace Scan

variable {r : Rule}

/-- The wall times that a scan has still to look at. -/
noncomputable def pending (r : Rule) : Scan → List Nat
  | fresh resume =>
    match (Plan.ofRule r).firstPeriod? resume with
    | some i => r.recurringFrom i
    | none => []
  | opened next _ _ queue => queue ++ r.recurringFrom next
  | finished => []

/-- The instants that a scan has still to give. -/
noncomputable def remaining (r : Rule) (s : Scan) : List Zoned := r.instants (s.pending r)

/-- What holds of an open scan. It has passed the periods from `first` on, `count` of them; those
that start after the year of the last hit hold nothing but what is left in the queue or is read as
before the start, and where something is left there the open period is the last one passed. -/
structure Passed (r : Rule) (next hitYear year : Nat) (queue : List Nat) (first count : Nat) :
    Prop where
  next_eq : next = first + count * r.interval
  aligned : r.Aligned first
  first_year : r.freq.yearOfPeriod r.weekStart first ≤ hitYear
  since_hit : ∀ k < count, first + k * r.interval < r.freq.periodLimit r.weekStart →
    hitYear < r.freq.yearOfPeriod r.weekStart (first + k * r.interval) →
    ∀ n ∈ r.recurringIn (first + k * r.interval), n ∈ queue ∨ r.ReadsEarly n
  open_year : queue ≠ [] → 0 < count ∧
    ∀ k < count, r.freq.yearOfPeriod r.weekStart (first + k * r.interval) ≤ year

def Coherent (r : Rule) : Scan → Prop
  | opened next hitYear year queue => ∃ first count, Passed r next hitYear year queue first count
  | _ => True

namespace Passed

variable {next hitYear year first count : Nat} {queue : List Nat}

theorem isPeriod (h : Passed r next hitYear year queue first count) : r.freq.IsPeriod first :=
  h.aligned.isPeriod

/-- A period that is passed after the year of the last hit comes after that of the start. -/
theorem start_lt (h : Passed r next hitYear year queue first count) {j : Nat}
    (period : r.freq.IsPeriod j) (late : hitYear < r.freq.yearOfPeriod r.weekStart j) :
    ∃ start, r.freq.periodOf? r.weekStart r.start.wall = some start ∧ start < j ∧
      r.freq.yearOfPeriod r.weekStart start ≤ hitYear := by
  obtain ⟨start, n, hstart, rfl⟩ := h.aligned
  have startYear := (Frequency.yearOfPeriod_mono (Frequency.isPeriod_of_periodOf? hstart)
    (Nat.le_add_right start (n * r.interval))).trans h.first_year
  refine ⟨start, hstart, Nat.lt_of_not_le fun before => ?_, startYear⟩
  have := r.freq.yearOfPeriod_mono (w := r.weekStart) period before
  omega

/-- What recurs in a period that has been passed since the last hit is read as before the start. -/
theorem readsEarly (h : Passed r next hitYear year [] first count) {k n : Nat} (passed : k < count)
    (limit : first + k * r.interval < r.freq.periodLimit r.weekStart)
    (late : hitYear < r.freq.yearOfPeriod r.weekStart (first + k * r.interval))
    (member : n ∈ r.recurringIn (first + k * r.interval)) : r.ReadsEarly n :=
  (h.since_hit k passed limit late n member).resolve_left List.not_mem_nil

/-- The days of a period that has been passed since the last hit lie in one year, where something
recurs there: a week that is read as before the start follows that of the start. -/
theorem yearOf_of_mem_days (canonical : r.Canonical)
    (h : Passed r next hitYear year [] first count) {k n : Nat} (passed : k < count)
    (limit : first + k * r.interval < r.freq.periodLimit r.weekStart)
    (late : hitYear < r.freq.yearOfPeriod r.weekStart (first + k * r.interval))
    (member : n ∈ r.recurringIn (first + k * r.interval)) {d : Nat}
    (hd : d ∈ r.freq.days r.weekStart (first + k * r.interval)) :
    yearOf d = r.freq.yearOfPeriod r.weekStart (first + k * r.interval) := by
  have period := h.isPeriod.mono (Nat.le_add_right first (k * r.interval))
  refine Frequency.yearOf_of_mem_days period (fun weekly => ?_) hd
  obtain ⟨start, hstart, later, startYear⟩ := h.start_lt period late
  have low := (Rule.recurringIn_bounds canonical period limit member).1
  have near := (h.readsEarly passed limit late member).near
  generalize first + k * r.interval = j at *
  have next : j - 1 = start := by
    have startPeriod := Frequency.isPeriod_of_periodOf? hstart
    have high := ((Frequency.periodOf?_eq_some_iff startPeriod).mp hstart).2
    rw [weekly, Frequency.startOf_coarse rfl, Frequency.firstDay] at low high
    omega
  rw [next]
  omega

/-- A period more than `interval` cycles after the last hit has an aligned one so many cycles before
it. -/
theorem exists_cycles_before (h : Passed r next hitYear year queue first count) {k : Nat}
    (long : hitYear + 400 * r.interval <
      r.freq.yearOfPeriod r.weekStart (first + k * r.interval)) :
    ∃ l, k = l + r.freq.cyclePeriods ∧
      hitYear < r.freq.yearOfPeriod r.weekStart (first + l * r.interval) := by
  obtain ⟨j, period, cycles, jYear⟩ := Frequency.sub_cycles (n := r.interval)
    (h.isPeriod.mono (Nat.le_add_right first (k * r.interval)))
    (show 400 * r.interval < r.freq.yearOfPeriod r.weekStart (first + k * r.interval) by omega)
  have notBefore : first ≤ j := by
    by_contra before
    have := r.freq.yearOfPeriod_mono (w := r.weekStart) period (show j ≤ first by omega)
    have := h.first_year
    omega
  have reach : r.freq.cyclePeriods ≤ k := by
    apply Nat.le_of_mul_le_mul_left _ r.interval_pos
    rw [Nat.mul_comm r.interval k]
    omega
  obtain ⟨l, rfl⟩ := Nat.exists_eq_add_of_le' reach
  have aligned : j = first + l * r.interval := by
    rw [Nat.add_mul, Nat.mul_comm r.freq.cyclePeriods] at cycles
    omega
  exact ⟨l, rfl, by rw [← aligned]; omega⟩

/-- Once a scan has met nothing for 400 years times the interval, it will meet nothing more: what
recurs there has recurred `interval` cycles before, where it was read as before the start, and again
in between, where it was too late for that. -/
theorem recurringIn_eq_nil (canonical : r.Canonical)
    (h : Passed r next hitYear year [] first count)
    (long : 400 * r.interval < r.freq.yearOfPeriod r.weekStart next - hitYear) (k : Nat)
    (left : count ≤ k) (limit : first + k * r.interval < r.freq.periodLimit r.weekStart) :
    r.recurringIn (first + k * r.interval) = [] := by
  induction k using Nat.strongRecOn with
  | ind k ih =>
    by_contra something
    have after : r.freq.yearOfPeriod r.weekStart next ≤
        r.freq.yearOfPeriod r.weekStart (first + k * r.interval) := by
      rw [h.next_eq]
      exact Frequency.yearOfPeriod_mono (h.isPeriod.mono (Nat.le_add_right _ _))
        (Nat.add_le_add_left (Nat.mul_le_mul_right _ left) _)
    obtain ⟨l, rfl, late⟩ := h.exists_cycles_before (k := k) (by omega)
    have period := h.isPeriod.mono (Nat.le_add_right first (l * r.interval))
    have year : 2 ≤ r.freq.yearOfPeriod r.weekStart (first + l * r.interval) := by
      have : 0 < r.freq.yearOfPeriod r.weekStart first := yearOf_pos _
      have := h.first_year
      omega
    have inLimit {m : Nat} (fewer : m < r.freq.cyclePeriods) :
        first + (l + m) * r.interval < r.freq.periodLimit r.weekStart := by
      have := Nat.mul_le_mul_right r.interval (show l + m ≤ l + r.freq.cyclePeriods by omega)
      omega
    -- what recurs sooner, since it is not passed over later on, has been passed already
    have passed {m : Nat} (fewer : m < r.freq.cyclePeriods)
        (recurs : r.recurringIn (first + (l + m) * r.interval) ≠ []) : l + m < count :=
      Nat.lt_of_not_le fun left => recurs (ih (l + m) (by omega) left (inLimit fewer))
    have cycle : 0 < r.freq.cyclePeriods := by cases r.freq <;> decide
    have recurs : r.recurringIn (first + l * r.interval) ≠ [] := by
      have first := Frequency.firstDay_of_year year
      have repeats := Frequency.repeats_add_cycles (w := r.weekStart) period (by omega) r.interval
      rwa [Nat.add_mul, Nat.mul_comm r.freq.cyclePeriods, ← Nat.add_assoc,
        Rule.recurringIn_eq_nil_iff_of_repeats repeats] at something
    obtain ⟨n, member⟩ := List.exists_mem_of_ne_nil _ recurs
    obtain ⟨m, shift, _, fewer, apart, repeats⟩ := Frequency.exists_repeats_aligned period year
      (fun d => h.yearOf_of_mem_days canonical (passed cycle recurs) (inLimit cycle) late member)
      r.interval_pos
    rw [Nat.add_assoc, ← Nat.add_mul] at repeats
    have later : n + shift * dayMicros ∈ r.recurringIn (first + (l + m) * r.interval) := by
      rw [Rule.recurringIn_of_repeats repeats]
      exact List.mem_map_of_mem member
    have near := (h.readsEarly (passed fewer (List.ne_nil_of_mem later)) (inLimit fewer)
      (Nat.lt_of_lt_of_le late (Frequency.yearOfPeriod_mono period (Nat.add_le_add_left
        (Nat.mul_le_mul_right _ (Nat.le_add_right l m)) _))) later).near
    obtain ⟨start, hstart, after, _⟩ := h.start_lt period late
    have startPeriod := Frequency.isPeriod_of_periodOf? hstart
    have high := ((Frequency.periodOf?_eq_some_iff startPeriod).mp hstart).2
    have := Frequency.startOf_mono (w := r.weekStart)
      (startPeriod.mono (Nat.le_add_right start 1)) after
    have low := (Rule.recurringIn_bounds canonical period (inLimit cycle) member).1
    rw [dayMicros_eq] at near
    omega

end Passed

theorem passed_zero {i : Nat} (aligned : r.Aligned i) :
    Passed r i (r.freq.yearOfPeriod r.weekStart i) (r.freq.yearOfPeriod r.weekStart i) [] i 0 :=
  { next_eq := by simp
    aligned := aligned
    first_year := Nat.le_refl _
    since_hit := fun k hk => absurd hk (Nat.not_lt_zero k)
    open_year := fun given => absurd rfl given }

namespace Passed

variable {next hitYear year first count : Nat} {queue : List Nat}

theorem skip (h : Passed r next hitYear year [] first count) {n : Nat} (year' : Nat)
    (nothing : ∀ k < n, r.recurringIn (next + k * r.interval) = []) :
    Passed r (next + n * r.interval) hitYear year' [] first (count + n) :=
  { next_eq := by rw [h.next_eq, Nat.add_mul, Nat.add_assoc]
    aligned := h.aligned
    first_year := h.first_year
    since_hit := by
      intro k hk limit late m member
      by_cases passed : k < count
      · exact h.since_hit k passed limit late m member
      · have here : first + k * r.interval = next + (k - count) * r.interval := by
          rw [h.next_eq, Nat.add_assoc, ← Nat.add_mul]
          congr 2
          omega
        rw [here, nothing (k - count) (by omega)] at member
        cases member
    open_year := fun given => absurd rfl given }

theorem openNext (h : Passed r next hitYear year [] first count) :
    Passed r (next + r.interval) hitYear (r.freq.yearOfPeriod r.weekStart next)
      (r.recurringIn next) first (count + 1) :=
  { next_eq := by rw [h.next_eq, Nat.add_mul, Nat.one_mul, Nat.add_assoc]
    aligned := h.aligned
    first_year := h.first_year
    since_hit := by
      intro k hk limit late m member
      rcases Nat.lt_or_eq_of_le (Nat.le_of_lt_succ hk) with passed | rfl
      · exact .inr (h.readsEarly passed limit late member)
      · rw [h.next_eq]
        exact .inl member
    open_year := by
      intro _
      refine ⟨Nat.succ_pos _, fun k hk => ?_⟩
      apply Frequency.yearOfPeriod_mono (h.isPeriod.mono (Nat.le_add_right _ _))
      rw [h.next_eq]
      exact Nat.add_le_add_left (Nat.mul_le_mul_right _ (Nat.le_of_lt_succ hk)) _ }

theorem dropEarly {wall : Nat} (h : Passed r next hitYear year (wall :: queue) first count)
    (early : r.ReadsEarly wall) : Passed r next hitYear year queue first count :=
  { h with
    since_hit := by
      intro k hk limit late m member
      rcases h.since_hit k hk limit late m member with queued | reads
      · rcases List.mem_cons.mp queued with rfl | left
        · exact .inr early
        · exact .inl left
      · exact .inr reads
    open_year := by
      intro _
      exact h.open_year (List.cons_ne_nil _ _) }

/-- Emitting the first of the queue makes the year of the open period that of the last hit. -/
theorem hit {wall : Nat} (h : Passed r next hitYear year (wall :: queue) first count) :
    Passed r next year year queue first count := by
  obtain ⟨positive, years⟩ := h.open_year (List.cons_ne_nil _ _)
  exact
    { next_eq := h.next_eq
      aligned := h.aligned
      first_year := by simpa using years 0 positive
      since_hit := fun k hk _ late => absurd (years k hk) (by omega)
      open_year := fun _ => ⟨positive, years⟩ }

end Passed

/-- What a step of a scan does to the wall times that it has still to look at. -/
inductive Preserves (r : Rule) (s : Scan) : Scan.Step → Prop where
  | skip {s' : Scan} (coherent : s'.Coherent r) (pending : s.pending r = s'.pending r) :
      Preserves r s (.skip s')
  | early {n : Nat} {t : Zoned} {s' : Scan} (coherent : s'.Coherent r)
      (pending : s.pending r = n :: s'.pending r) (resolved : r.instantOf? n = some t)
      (early : t.before r.start = true) : Preserves r s (.skip s')
  | emit {n : Nat} {t : Zoned} {s' : Scan} (coherent : s'.Coherent r)
      (pending : s.pending r = n :: s'.pending r) (resolved : r.instantOf? n = some t)
      (late : ¬ t.before r.start = true) : Preserves r s (.emit t s')
  | stop (pending : s.pending r = []) : Preserves r s .stop
  | outOfRange : Preserves r s .outOfRange

namespace Preserves

variable {s s' : Scan} {t : Zoned}

theorem of_skip (h : Preserves r s (.skip s')) :
    s'.Coherent r ∧ s.remaining r = s'.remaining r := by
  cases h with
  | skip coherent pending => exact ⟨coherent, congrArg r.instants pending⟩
  | early coherent pending resolved early =>
    refine ⟨coherent, ?_⟩
    rw [remaining, pending, Rule.instants_cons_before resolved early, remaining]

theorem of_emit (h : Preserves r s (.emit t s')) :
    s'.Coherent r ∧ s.remaining r = t :: s'.remaining r := by
  cases h with
  | emit coherent pending resolved late =>
    refine ⟨coherent, ?_⟩
    rw [remaining, pending, Rule.instants_cons resolved late, remaining]

theorem of_stop (h : Preserves r s .stop) : s.remaining r = [] := by
  cases h with
  | stop pending => rw [remaining, pending, Rule.instants_nil]

theorem resolved (h : Preserves r s (.skip s') ∨ Preserves r s (.emit t s')) {n : Nat}
    (member : n ∈ s.pending r) : (∃ t, r.instantOf? n = some t) ∨ n ∈ s'.pending r := by
  rcases h with h | h
  · cases h with
    | skip _ pending => exact .inr (pending ▸ member)
    | early _ pending resolved _ =>
      rw [pending] at member
      rcases List.mem_cons.mp member with rfl | left
      · exact .inl ⟨_, resolved⟩
      · exact .inr left
  · cases h with
    | emit _ pending resolved _ =>
      rw [pending] at member
      rcases List.mem_cons.mp member with rfl | left
      · exact .inl ⟨_, resolved⟩
      · exact .inr left

end Preserves

variable {next hitYear year : Nat}

theorem openPeriod_preserves {s : Scan} {first count : Nat}
    (h : Passed r next hitYear year [] first count)
    (limit : next < r.freq.periodLimit r.weekStart)
    (pending : s.pending r = r.recurringFrom next) :
    Preserves r s (openPeriod (Plan.ofRule r) next hitYear
      (r.freq.yearOfPeriod r.weekStart next)) := by
  unfold openPeriod
  split
  · rename_i queue candidates
    obtain rfl := Plan.candidates?_spec candidates
    refine .skip ⟨first, count + 1, h.openNext⟩ ?_
    rw [pending, Rule.recurringFrom_of_lt limit]
    rfl
  · exact .outOfRange

/-- Every step keeps what the scan has still to look at, and only the end stops it. -/
theorem step_preserves (canonical : r.Canonical) {s : Scan} (coherent : s.Coherent r) :
    Preserves r s (s.step (Plan.ofRule r)) := by
  have rule : (Plan.ofRule r).rule = r := rfl
  match s with
  | finished => exact .stop rfl
  | fresh resume =>
    simp only [step, rule]
    split
    · rename_i i hi
      obtain ⟨start, n, hstart, eq, _⟩ := Plan.firstPeriod?_spec hi
      refine .skip ⟨i, 0, passed_zero ⟨start, n, hstart, eq⟩⟩ ?_
      simp only [pending, hi, List.nil_append]
    · exact .outOfRange
  | opened next hitYear year (wall :: queue) =>
    obtain ⟨first, count, passed⟩ := coherent
    simp only [step, rule]
    split
    · rename_i t resolved
      split
      · rename_i early
        exact .early ⟨first, count, passed.dropEarly ⟨t, resolved, early⟩⟩ rfl resolved early
      · rename_i late
        exact .emit ⟨first, count, passed.hit⟩ rfl resolved late
    · exact .outOfRange
  | opened next hitYear year [] =>
    obtain ⟨first, count, passed⟩ := coherent
    have left : (opened next hitYear year []).pending r = r.recurringFrom next := rfl
    simp only [step, rule]
    split
    · rename_i limit
      split
      · rename_i long
        refine .stop ?_
        rw [left, Rule.recurringFrom_eq_nil]
        intro k hk
        have here : next + k * r.interval = first + (count + k) * r.interval := by
          rw [passed.next_eq, Nat.add_mul, Nat.add_assoc]
        rw [here] at hk ⊢
        exact passed.recurringIn_eq_nil canonical long _ (Nat.le_add_right count k) hk
      · split
        · rename_i fine
          split
          · rename_i j hj
            obtain ⟨n, rfl, nothing⟩ := Plan.skipFrom?_spec canonical fine hj
            split
            · refine .skip ⟨first, count + n, passed.skip _ nothing⟩ ?_
              rw [left, Rule.recurringFrom_skip nothing]
              rfl
            · exact openPeriod_preserves passed limit left
          · exact .outOfRange
        · exact openPeriod_preserves passed limit left
    · rename_i limit
      refine .stop ?_
      rw [left, Rule.recurringFrom_of_le (Nat.le_of_not_lt limit)]

end Scan

end Almanac
