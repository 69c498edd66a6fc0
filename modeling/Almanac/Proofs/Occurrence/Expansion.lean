import Almanac.Proofs.Occurrence.FixedOffset

set_option autoImplicit false

/-!
The expansion of a rule with a fixed offset is sound and complete.

The occurrences of a rule without bounds are the instants of the wall times at which it recurs, in
ascending order, each once, and none is lost. They show these wall times themselves just where
resolving leaves these as they stand, as it does for whole seconds of UTC. Elsewhere an occurrence
may be some microseconds off, and one that falls before the start is lost.
-/

namespace Almanac

open Calendar

namespace Rule

/-- A wall time at which a rule recurs: in a period that starts before the last year, a whole number
of intervals after that of the start. -/
def Recurs (r : Rule) (t : WallTime) : Prop :=
  ∃ first k, r.freq.periodOf? r.weekStart r.start.wall = some first ∧
    r.freq.yearOfPeriod r.weekStart (first + k * r.interval) < lastYear ∧
    r.RecursIn (first + k * r.interval) t

theorem recurs_rezoned {r : Rule} {zone : Zone} {fold : Bool} {count : Option Nat}
    {finish endsBefore : Option Zoned} {t : WallTime} :
    (r.rezoned zone fold count finish endsBefore).Recurs t ↔ r.Recurs t := by
  simp only [Recurs, recursIn_rezoned]
  rfl

/-- A wall time at which a rule recurs, as the clock of its start shows it. -/
def stands (r : Rule) (t : WallTime) : Zoned := ⟨t, r.start.zone, false⟩

variable {r : Rule} {offset : Offset} {first : Nat}

theorem recurs_iff (canonical : r.Canonical)
    (hstart : r.freq.periodOf? r.weekStart r.start.wall = some first) {t : WallTime} :
    r.Recurs t ↔ t.micros ∈ r.recurringFrom first := by
  have period := Frequency.isPeriod_of_periodOf? hstart
  rw [mem_recurringFrom]
  constructor
  · rintro ⟨first', k, hfirst, early, recurs⟩
    obtain rfl := Option.some.inj (hfirst.symm.trans hstart)
    have inPeriod := period.mono (Nat.le_add_right first' (k * r.interval))
    have limit := (Frequency.lt_periodLimit_iff inPeriod).mpr early
    exact ⟨k, limit, (mem_recurringIn canonical inPeriod limit).mpr ⟨t, rfl, recurs⟩⟩
  · rintro ⟨k, limit, member⟩
    have inPeriod := period.mono (Nat.le_add_right first (k * r.interval))
    obtain ⟨s, same, recurs⟩ := (mem_recurringIn canonical inPeriod limit).mp member
    obtain rfl := WallTime.eq_of_micros same
    exact ⟨first, k, hstart, (Frequency.lt_periodLimit_iff inPeriod).mp limit, recurs⟩

theorem mem_instants_recurringFrom (canonical : r.Canonical)
    (hstart : r.freq.periodOf? r.weekStart r.start.wall = some first) {t : Zoned} :
    t ∈ r.instants (r.recurringFrom first) ↔
      ∃ w, r.Recurs w ∧ r.start.zone.resolve? w = some t ∧ t.before r.start = false := by
  rw [mem_instants]
  constructor
  · rintro ⟨n, member, resolved, late⟩
    obtain ⟨w, hw, _⟩ := Option.bind_eq_some_iff.mp resolved
    obtain rfl : w.micros = n := by
      have := WallTime.ofMicros?_eq_some_iff.mp hw
      omega
    rw [instantOf?_micros] at resolved
    exact ⟨w, (recurs_iff canonical hstart).mpr member, resolved, late⟩
  · rintro ⟨w, recurs, resolved, late⟩
    exact ⟨w.micros, (recurs_iff canonical hstart).mp recurs, by rw [instantOf?_micros, resolved],
      late⟩

theorem Recurs.microsecond {t : WallTime} (h : r.Recurs t) :
    t.micros % 1000000 = r.start.wall.micros % 1000000 := by
  obtain ⟨_, _, _, _, ⟨_, _, time⟩, _⟩ := h
  rw [← t.microsecond_eq, ← r.start.wall.microsecond_eq, time.microsecond]

theorem Recurs.near {t : WallTime} (h : r.Recurs t) :
    r.start.wall.micros < t.micros + 366 * 86400000000 := by
  obtain ⟨first, k, hfirst, -, ⟨inPeriod, -, -⟩, -⟩ := h
  have period := Frequency.isPeriod_of_periodOf? hfirst
  have later := period.mono (Nat.le_add_right first (k * r.interval))
  have high := ((Frequency.periodOf?_eq_some_iff period).mp hfirst).2
  have low := ((Frequency.periodOf?_eq_some_iff later).mp inPeriod).1
  have length := (Frequency.startOf_succ_bounds (w := r.weekStart) period).2
  have order := Frequency.startOf_mono (w := r.weekStart) period
    (Nat.le_add_right first (k * r.interval))
  omega

/-- What recurs at or after the start and is read as it stands is not before the start; what recurs
earlier is. -/
theorem stands_before_iff (fixed : r.start.zone = .fixed offset) {w : WallTime} {t : Zoned}
    (recurs : r.Recurs w) (resolved : r.start.zone.resolve? w = some t) (h : t = r.stands w ∨
      w.micros < r.start.wall.micros) :
    t.before r.start = false ↔ r.start.wall.micros ≤ w.micros := by
  rw [fixed] at resolved
  obtain ⟨zone, _, high, low⟩ := Zone.resolve?_fixed resolved
  have fraction := recurs.microsecond
  rw [Bool.eq_false_iff, Ne, Zoned.before_fixed zone fixed]
  rcases h with rfl | early
  · exact Nat.not_lt
  · omega

/-- In a fixed offset no other wall time at which a rule recurs is read as one of these stands. -/
theorem eq_of_resolves_to_stands (fixed : r.start.zone = .fixed offset) {w w' : WallTime}
    (recurs : r.Recurs w) (recurs' : r.Recurs w')
    (resolved : r.start.zone.resolve? w' = some (r.stands w)) : w' = w := by
  rw [fixed] at resolved
  obtain ⟨-, -, high, low⟩ := Zone.resolve?_fixed resolved
  have fraction := recurs.microsecond
  have fraction' := recurs'.microsecond
  -- both are whole seconds from the start, and resolving moves less than that
  apply WallTime.eq_of_micros
  simp only [stands] at high low
  omega

end Rule

theorem Scan.recurs_of_pending_fresh {r : Rule} (canonical : r.Canonical) {resume : Option Stamp}
    {n : Nat} (member : n ∈ (Scan.fresh resume).pending r) : ∃ w, r.Recurs w ∧ w.micros = n := by
  rw [pending] at member
  split at member
  · rename_i i hi
    obtain ⟨first, k, hfirst, rfl, -⟩ := Plan.firstPeriod?_spec hi
    obtain ⟨j, limit, member⟩ := Rule.mem_recurringFrom.mp member
    rw [Nat.add_assoc, ← Nat.add_mul] at limit member
    have period := (Frequency.isPeriod_of_periodOf? hfirst).mono
      (Nat.le_add_right first ((k + j) * r.interval))
    obtain ⟨w, same, recurs⟩ := (Rule.mem_recurringIn canonical period limit).mp member
    exact ⟨w, ⟨first, k + j, hfirst, (Frequency.lt_periodLimit_iff period).mp limit, recurs⟩, same⟩
  · cases member

namespace Sequence

open Rule

variable {r : Rule} {offset : Offset}

theorem exists_first_of_run (unbounded : r.isBounded = false)
    (inside : (ofRule r none).run.2 ≠ .outOfRange) :
    ∃ first, r.freq.periodOf? r.weekStart r.start.wall = some first := by
  by_contra missing
  have uncounted : r.count = none := by
    simp only [isBounded, Bool.or_eq_false_iff, Option.isSome_eq_false_iff,
      Option.isNone_iff_eq_none] at unbounded
    exact unbounded.1.1
  apply inside
  rw [run_of_no_firstPeriod uncounted]
  apply Option.bind_eq_none_iff.mpr
  intro first hfirst
  exact absurd ⟨first, hfirst⟩ missing

theorem mem_run_iff (canonical : r.Canonical) (fixed : r.start.zone = .fixed offset)
    (unbounded : r.isBounded = false) (inside : (ofRule r none).run.2 ≠ .outOfRange) {t : Zoned} :
    t ∈ (ofRule r none).run.1 ↔
      ∃ w, r.Recurs w ∧ r.start.zone.resolve? w = some t ∧ t.before r.start = false := by
  obtain ⟨first, hstart⟩ := exists_first_of_run unbounded inside
  have all := (run_fixed canonical fixed hstart none).2 inside
  have unfiltered (ts : List Zoned) : ts.filter (fun t => !(ofRule r none).isEarly t) = ts :=
    List.filter_eq_self.mpr (fun t _ => rfl)
  rw [all, unfiltered, bounded_of_unbounded unbounded]
  exact mem_instants_recurringFrom canonical hstart

theorem run_ascending (canonical : r.Canonical) (fixed : r.start.zone = .fixed offset)
    (unbounded : r.isBounded = false) (inside : (ofRule r none).run.2 ≠ .outOfRange) :
    (ofRule r none).run.1.Pairwise (fun s t => s.before t = true) := by
  obtain ⟨first, hstart⟩ := exists_first_of_run unbounded inside
  have period := Frequency.isPeriod_of_periodOf? hstart
  rw [(run_fixed canonical fixed hstart none).2 inside, bounded_of_unbounded unbounded]
  exact (instants_ascending fixed (recurringFrom_apart canonical period)).filter _

/-- The occurrences are the wall times themselves from the start on just where resolving leaves
these as they stand. -/
theorem mem_run_iff_stands (canonical : r.Canonical) (fixed : r.start.zone = .fixed offset)
    (unbounded : r.isBounded = false) (inside : (ofRule r none).run.2 ≠ .outOfRange) :
    (∀ t, t ∈ (ofRule r none).run.1 ↔
        ∃ w, r.Recurs w ∧ r.start.wall.micros ≤ w.micros ∧ t = r.stands w) ↔
      ∀ w, r.Recurs w → r.start.wall.micros ≤ w.micros →
        r.start.zone.resolve? w = some (r.stands w) := by
  have member (t : Zoned) := mem_run_iff canonical fixed unbounded inside (t := t)
  constructor
  · intro exact w recurs late
    obtain ⟨w', recurs', resolved, _⟩ := (member _).mp ((exact (r.stands w)).mpr
      ⟨w, recurs, late, rfl⟩)
    have same := eq_of_resolves_to_stands fixed recurs recurs' resolved
    rw [← same, resolved, same]
  · intro stays t
    rw [member]
    constructor
    · rintro ⟨w, recurs, resolved, late⟩
      by_cases after : r.start.wall.micros ≤ w.micros
      · have stands := stays w recurs after
        exact ⟨w, recurs, after, Option.some.inj (resolved.symm.trans stands)⟩
      · exact absurd ((stands_before_iff fixed recurs resolved (.inr (by omega))).mp late) after
    · rintro ⟨w, recurs, after, rfl⟩
      have stands := stays w recurs after
      exact ⟨w, recurs, stands, (stands_before_iff fixed recurs stands (.inl rfl)).mpr after⟩

/-- Where the start is a whole second of UTC, resolving leaves all wall times as they stand. -/
theorem resolve?_of_whole_start (canonical : r.Canonical) (fixed : r.start.zone = .fixed offset)
    (unbounded : r.isBounded = false) (inside : (ofRule r none).run.2 ≠ .outOfRange)
    (whole : r.start.utc % 1000000 = 0) {w : WallTime} (recurs : r.Recurs w) :
    r.start.zone.resolve? w = some (r.stands w) := by
  obtain ⟨first, hstart⟩ := exists_first_of_run unbounded inside
  have pending : w.micros ∈ (ofRule r none).scan.pending r := by
    have found : (Plan.ofRule r).firstPeriod? none = some first := by
      rw [Plan.firstPeriod?]
      exact Option.bind_eq_some_iff.mpr ⟨first, hstart, rfl⟩
    have resume : (if r.count.isNone then none else none : Option Stamp) = none := by split <;> rfl
    simp only [ofRule, Scan.pending, resume, found]
    exact (recurs_iff canonical hstart).mp recurs
  obtain ⟨t, resolved⟩ := run_resolves canonical unbounded (coherent_ofRule r none) rfl inside pending
  rw [instantOf?_micros] at resolved
  have eq : t = r.stands w := by
    have exact := resolved
    rw [fixed] at exact
    have fraction := recurs.microsecond
    rw [Zoned.utc_fixed fixed] at whole
    rw [stands, fixed]
    exact Zone.resolve?_fixed_whole (by omega) exact
  rw [resolved, eq]

/-- Expansion of a rule with a fixed offset and without bounds. As long as it does not leave the
calendar, it gives the instants of all wall times at which the rule recurs, in ascending order,
without those before the start. These are the wall times themselves from the start on just where
resolving leaves each of them as it stands, as it does where the start is a whole second of UTC. -/
theorem expansion_of_fixed_offset {spec : Spec} {now : Stamp} (read : spec.rule now = .ok r)
    (fixed : r.start.zone = .fixed offset) (unbounded : r.isBounded = false)
    (inside : (ofRule r none).run.2 ≠ .outOfRange) :
    (ofRule r none).run.1.Pairwise (fun s t => s.before t = true) ∧
    (∀ t, t ∈ (ofRule r none).run.1 ↔
      ∃ w, r.Recurs w ∧ r.start.zone.resolve? w = some t ∧ t.before r.start = false) ∧
    ((∀ t, t ∈ (ofRule r none).run.1 ↔
        ∃ w, r.Recurs w ∧ r.start.wall.micros ≤ w.micros ∧ t = r.stands w) ↔
      ∀ w, r.Recurs w → r.start.wall.micros ≤ w.micros →
        r.start.zone.resolve? w = some (r.stands w)) ∧
    (r.start.utc % 1000000 = 0 → ∀ t, t ∈ (ofRule r none).run.1 ↔
      ∃ w, r.Recurs w ∧ r.start.wall.micros ≤ w.micros ∧ t = r.stands w) := by
  have canonical := Spec.rule_canonical read
  have stands := mem_run_iff_stands canonical fixed unbounded inside
  refine ⟨run_ascending canonical fixed unbounded inside,
    fun t => mem_run_iff canonical fixed unbounded inside, stands, fun whole => stands.mpr ?_⟩
  intro w recurs _
  exact resolve?_of_whole_start canonical fixed unbounded inside whole recurs

/-- The rule that recurs every third day from midnight UTC of the twelfth day before the last year
on, at most `count` times. -/
def lastDays (count : Option Nat) : Rule where
  freq := .daily
  start := ⟨.startOf ⟨3651682, by decide⟩, .utc, false⟩
  interval := 3
  count := count
  finish := none
  endsBefore := none
  weekStart := .monday
  seconds := []
  minutes := []
  hours := []
  days := []
  monthDays := []
  yearDays := []
  weekNumbers := []
  months := []
  positions := []
  interval_pos := by decide

/-- Midnight UTC of one of the last days before the last year. -/
def onLastDay (day : Fin 12) : Zoned :=
  ⟨.startOf ⟨3651682 + day, Nat.lt_of_lt_of_le (Nat.add_lt_add_left day.isLt _) (by decide)⟩, .utc,
    false⟩

theorem read_lastDays : (Spec.map [("freq", .frequency .daily), ("interval", .int 3)]).rule
    ⟨.startOf ⟨3651682, by decide⟩, some .utc, false⟩ = .ok (lastDays none) := by
  rfl

theorem run_lastDays : (ofRule (lastDays none) none).run =
    ([onLastDay 0, onLastDay 3, onLastDay 6, onLastDay 9], .ended) :=
  run_of_runWithin (n := 20) (by decide +kernel)

theorem expansion_lastDays :
    (ofRule (lastDays none) none).run.1.Pairwise (fun s t => s.before t = true) ∧
    ∀ t, t ∈ [onLastDay 0, onLastDay 3, onLastDay 6, onLastDay 9] ↔ ∃ w, (lastDays none).Recurs w ∧
      (lastDays none).start.wall.micros ≤ w.micros ∧ t = (lastDays none).stands w := by
  have inside : (ofRule (lastDays none) none).run.2 ≠ .outOfRange := by
    rw [run_lastDays]
    decide
  obtain ⟨ascending, _, _, whole⟩ := expansion_of_fixed_offset read_lastDays rfl rfl inside
  have whole := whole (by decide)
  rw [run_lastDays] at whole
  exact ⟨ascending, whole⟩

end Sequence

end Almanac
