import Almanac.Proofs.Occurrence.Equal
import Almanac.Proofs.Occurrence.Genuine
import Almanac.Proofs.Occurrence.Twin
import Almanac.Proofs.Rule.Saved

set_option autoImplicit false

/-!
The occurrences that rule text keeps.

A rule and what its text keeps of it recur at the same wall times, which the one reads in its zone and
the other at the offset of its start. From a start that stands clear of the jumps of its zone the two
go on in step, occurrence by occurrence, up to the first later jump: what comes before the start is
read as before it by both, and what comes before the jump is read alike. After the jump nothing more
comes before it, and there the two part.
-/

namespace Almanac

namespace Scan

variable {r : Rule} {i hitYear year n : Nat} {queue : List Nat} {t : Zoned}

theorem step_read (resolved : r.instantOf? n = some t) :
    (opened i hitYear year (n :: queue)).step (.ofRule r) =
      if t.before r.start then .skip (.opened i hitYear year queue)
      else .emit t (.opened i year year queue) := by
  rw [Rule.instantOf?] at resolved
  rw [step, show (Plan.ofRule r).rule = r from rfl, resolved]

theorem step_unread (unread : r.instantOf? n = none) :
    (opened i hitYear year (n :: queue)).step (.ofRule r) = .outOfRange := by
  rw [Rule.instantOf?] at unread
  rw [step, show (Plan.ofRule r).rule = r from rfl, unread]

/-- What is still to be looked at after a step is the last of what was so before. -/
theorem Preserves.suffix {s s' : Scan} (h : Preserves r s (.skip s') ∨ Preserves r s (.emit t s')) :
    s'.Coherent r ∧ s'.pending r <:+ s.pending r := by
  rcases h with h | h
  · cases h with
    | skip coherent same => exact ⟨coherent, same ▸ List.suffix_rfl⟩
    | early coherent same => exact ⟨coherent, same ▸ List.suffix_cons _ _⟩
  · cases h with
    | emit coherent same => exact ⟨coherent, same ▸ List.suffix_cons _ _⟩

/-- Scans that do the same where there is no wall time to be read. -/
theorem StepTwin.of_eq {R : Zoned → Zoned → Prop} {p p' : Plan} {s : Scan}
    (alike : s.step p' = s.step p)
    (idle : ∀ i hitYear year n queue, s ≠ .opened i hitYear year (n :: queue)) :
    StepTwin R (s.step p) (s.step p') := by
  rw [alike]
  cases step : s.step p with
  | skip => exact .skip
  | emit =>
    obtain ⟨i, hitYear, year, n, queue, scan, -⟩ := exists_opened_of_emit step
    exact absurd scan (idle i hitYear year n queue)
  | stop => exact .stop
  | outOfRange => exact .outOfRange

end Scan

namespace Sequence

variable {r : Rule} {s u : Sequence}

/-- A sequence that looks at the wall times at which a rule recurs, from the first one on, and still
has to look at the last of them. -/
structure Onward (r : Rule) (s : Sequence) : Prop where
  coherent : s.Coherent r
  fresh : ∀ resume, s.scan = .fresh resume → resume = none
  pending : s.scan.pending r <:+ (Scan.fresh none).pending r

theorem onward_ofRule (r : Rule) : (ofRule r none).Onward r := by
  have scan : (ofRule r none).scan = .fresh none := congrArg Scan.fresh (ite_self none)
  refine ⟨coherent_ofRule r none, fun resume same => ?_, ?_⟩
  · exact (Scan.fresh.inj (scan.symm.trans same)).symm
  · rw [scan]

namespace Onward

theorem next (canonical : r.Canonical) (onward : s.Onward r) (on : s.GoesOn u) : u.Onward r := by
  obtain ⟨⟨plan, coherent⟩, -, pending⟩ := onward
  have scan := on.scan
  rw [plan] at scan
  have preserves := Scan.step_preserves canonical coherent
  obtain ⟨coherent', fewer⟩ : u.scan.Coherent r ∧ u.scan.pending r <:+ s.scan.pending r := by
    rcases scan with step | ⟨t, step⟩
    · exact Scan.Preserves.suffix (t := r.start) (.inl (step ▸ preserves))
    · exact Scan.Preserves.suffix (.inr (step ▸ preserves))
  refine ⟨⟨on.plan.trans plan, coherent'⟩, fun resume fresh => ?_, fewer.trans pending⟩
  -- no scan is as far from its end as one that has yet to find its first period
  have nearer := Scan.step_lt _ scan
  rw [fresh] at nearer
  generalize s.scan = scan at nearer
  cases scan <;> simp [Scan.Nearer, Scan.distance, Prod.lex_def] at nearer

variable (canonical : r.Canonical) (onward : s.Onward r)
include canonical onward

theorem recurs {n : Nat} (member : n ∈ s.scan.pending r) : ∃ w, r.Recurs w ∧ w.micros = n :=
  Scan.recurs_of_pending_fresh canonical (onward.pending.subset member)

theorem ascending : (s.scan.pending r).Pairwise (· < ·) := by
  apply List.Pairwise.sublist onward.pending.sublist
  rw [Scan.pending]
  split
  · rename_i i hi
    obtain ⟨first, k, hfirst, rfl, -⟩ := Plan.firstPeriod?_spec hi
    have period := (Frequency.isPeriod_of_periodOf? hfirst).mono
      (Nat.le_add_right first (k * r.interval))
    exact (Rule.recurringFrom_apart canonical period).imp fun apart => by omega
  · exact .nil

end Onward

end Sequence

namespace Rule

open Sequence

variable {r : Rule} {T : Int}

/-- The start of a rule, and its bounds where they are compared with it by the clocks of its zone,
are plain times, and what the jumps before the start skip is read as before it. -/
structure StandsClear (r : Rule) : Prop where
  plain : r.start.Plain
  gaps : ∀ T d, (T, d) ∈ r.start.zone.jumps → T ≤ r.start.utc → T + d ≤ r.start.utc
  bounds : ∀ t ∈ r.moments, t.zone.sharesTable r.start.zone = true →
    t.zone = r.start.zone ∧ t.Plain

theorem recurs_saved {w : WallTime} : r.saved.Recurs w ↔ r.Recurs w := recurs_rezoned

/-- A rule on whole seconds with offsets of whole seconds, whose start stands clear of jumps and has
a year of calendar before and after it. -/
structure Regular (r : Rule) : Prop extends r.OnSeconds, r.StandsClear where
  canonical : r.Canonical
  offsets : r.start.zone.WholeOffsets
  after : 1000 ≤ r.start.wall.year
  before : r.start.wall.year ≤ 9998

namespace Regular

variable (regular : r.Regular)
include regular

theorem second_of_recurs {w : WallTime} (recurs : r.Recurs w) : w.micros % 1000000 = 0 :=
  regular.toOnSeconds.recurs recurs

theorem saved : r.saved.Regular where
  second := regular.second
  apart := trivial
  plain := r.start.plain_atOffset
  gaps T d jump := by cases jump
  bounds t member shares := by
    rw [moments_saved] at member
    obtain ⟨t, -, rfl⟩ := List.mem_map.mp member
    cases shares
  canonical := ⟨regular.canonical.seconds_ascending, regular.canonical.minutes_ascending,
    regular.canonical.hours_ascending, regular.canonical.seconds_lt, regular.canonical.minutes_lt,
    regular.canonical.hours_lt⟩
  offsets := regular.plain.wholeOffset regular.apart regular.offsets
  after := regular.after
  before := regular.before

theorem start_bounds : 364877 * 86400000000 ≤ r.start.wall.micros ∧
    r.start.wall.micros < 3651694 * 86400000000 := by
  have low : ¬ r.start.wall.year < 1000 := Nat.not_lt.mpr regular.after
  have high : r.start.wall.year < 9999 := Nat.lt_succ_of_le regular.before
  rw [WallTime.year, Calendar.yearOf_lt_iff, WallTime.day, dayMicros_eq] at low high
  have first : Calendar.daysBeforeYear 1000 = 364877 := rfl
  have last : Calendar.daysBeforeYear 9999 = 3651694 := rfl
  omega

theorem early {w : WallTime} (recurs : r.Recurs w) (early : w.micros < r.start.wall.micros) :
    ∃ t, r.instantOf? w.micros = some t ∧ t.before r.start = true := by
  have second := regular.second_of_recurs recurs
  have near := recurs.near
  have bounds := regular.start_bounds
  have calendar := calendarMicros_eq
  obtain ⟨t, resolved⟩ := Zone.exists_resolve? regular.offsets second (by omega) (by omega)
  refine ⟨t, by rw [instantOf?_micros, resolved], ?_⟩
  exact regular.plain.before_of_resolve? regular.apart regular.offsets regular.gaps second early
    resolved

/-- Once a scan has come to what is shown after the next jump, all that is still given comes after
it. -/
theorem le_utc_of_mem_run (still : r.start.StillUntil T) (ahead : r.start.utc < T) {s : Sequence}
    (onward : s.Onward r) {i hitYear year n : Nat} {queue : List Nat}
    (scan : s.scan = .opened i hitYear year (n :: queue)) (late : T + r.start.offset.micros ≤ n)
    {t : Zoned} (member : t ∈ s.run.1) : T ≤ t.utc := by
  obtain ⟨m, pending, resolved⟩ :=
    exists_pending_of_mem_run regular.canonical onward.coherent member
  have later : n ≤ m := by
    have ascending := onward.ascending regular.canonical
    rw [scan] at ascending pending
    rcases List.mem_cons.mp pending with rfl | pending
    · exact Nat.le_refl _
    · exact Nat.le_of_lt ((List.pairwise_cons.mp ascending).1 m pending)
  obtain ⟨w, recurs, rfl⟩ := onward.recurs regular.canonical pending
  rw [instantOf?_micros] at resolved
  exact regular.plain.le_utc_of_resolve? regular.apart regular.offsets still ahead
    (regular.second_of_recurs recurs) (by omega) resolved

end Regular

/-- An instant that a rule gives, and the same instant at its offset. -/
def KeptAs (r : Rule) (t t' : Zoned) : Prop := t.zone = r.start.zone ∧ t.Plain ∧ t' = t.atOffset

namespace Regular

variable (regular : r.Regular)
include regular

theorem before_kept {t : Zoned} (zone : t.zone = r.start.zone) (plain : t.Plain) :
    t.atOffset.before r.saved.start = t.before r.start := by
  rw [Bool.eq_iff_iff, Zoned.Plain.before_iff (zone ▸ regular.apart) zone.symm plain regular.plain]
  exact Zoned.before_iff_utc (t := t.atOffset) rfl

theorem isPast_kept {t : Zoned} (zone : t.zone = r.start.zone) (plain : t.Plain) :
    r.saved.isPast t.atOffset = r.isPast t := by
  have line : ∀ b ∈ r.moments, (b.before t = true ↔ b.utc < t.utc) ∧
      (b.notAfter t = true ↔ b.utc ≤ t.utc) := by
    intro b member
    by_cases shares : b.zone.sharesTable r.start.zone = true
    · obtain ⟨zone', plain'⟩ := regular.bounds b member shares
      have apart : b.zone.Apart := zone' ▸ regular.apart
      exact ⟨Zoned.Plain.before_iff apart (zone.trans zone'.symm) plain' plain,
        Zoned.Plain.notAfter_iff apart (zone.trans zone'.symm) plain' plain⟩
    · rw [← zone] at shares
      simp only [Zoned.before, Zoned.notAfter, Zoned.onCommonLine, if_neg shares, decide_eq_true_eq,
        and_self]
  rw [Bool.eq_iff_iff, isPast_iff, isPast_iff]
  have finish : (∃ b, r.saved.finish = some b ∧ b.before t.atOffset = true) ↔
      ∃ b, r.finish = some b ∧ b.before t = true := by
    simp only [Rule.saved, Option.map_eq_some_iff, exists_exists_and_eq_and]
    refine exists_congr fun b => and_congr_right fun some => ?_
    rw [(line b (by simp [moments, some])).1]
    exact Zoned.before_iff_utc (t := b.atOffset) rfl
  have endsBefore : (∃ b, r.saved.endsBefore = some b ∧ b.notAfter t.atOffset = true) ↔
      ∃ b, r.endsBefore = some b ∧ b.notAfter t = true := by
    simp only [Rule.saved, Option.map_eq_some_iff, exists_exists_and_eq_and]
    refine exists_congr fun b => and_congr_right fun some => ?_
    rw [(line b (by simp [moments, some])).2]
    exact Zoned.notAfter_iff_utc (t := b.atOffset) rfl
  rw [finish, endsBefore]

theorem twin : Twin r.KeptAs (ofRule r none) (ofRule r.saved none) where
  compares :=
    { limit := rfl
      old := by
        rintro l _ t _ ⟨lzone, lplain, rfl⟩ ⟨tzone, tplain, rfl⟩
        rw [Bool.eq_iff_iff, Zoned.Plain.notAfter_iff (tzone ▸ regular.apart)
          (lzone.trans tzone.symm) tplain lplain]
        exact Zoned.notAfter_iff_utc (t := t.atOffset) rfl
      past := by
        rintro t _ ⟨zone, plain, rfl⟩
        exact regular.isPast_kept zone plain
      early := by
        rintro t _ ⟨zone, plain, rfl⟩
        rfl }
  scan := rfl
  last := .none
  counted := rfl
  exhausted := rfl

/-- The scans of a rule and of what its text keeps of it do the same with a wall time that is shown before
the next jump. -/
theorem step_wall (still : r.start.StillUntil T) {w : WallTime} (recurs : r.Recurs w)
    (inside : (w.micros : Int) < T + r.start.offset.micros) {i hitYear year : Nat}
    {queue : List Nat} :
    Scan.StepTwin r.KeptAs ((Scan.opened i hitYear year (w.micros :: queue)).step (.ofRule r))
      ((Scan.opened i hitYear year (w.micros :: queue)).step (.ofRule r.saved)) := by
  by_cases early : w.micros < r.start.wall.micros
  · obtain ⟨t, resolved, before⟩ := regular.early recurs early
    obtain ⟨t', resolved', before'⟩ := regular.saved.early (recurs_saved.mpr recurs) early
    rw [Scan.step_read resolved, Scan.step_read resolved', if_pos before, if_pos before']
    exact .skip
  · have second := regular.second_of_recurs recurs
    have alike : r.saved.instantOf? w.micros = (r.instantOf? w.micros).map Zoned.atOffset := by
      rw [instantOf?_micros, instantOf?_micros]
      exact regular.plain.resolve?_between regular.apart regular.offsets still second
        (Nat.not_lt.mp early) inside
    cases resolved : r.instantOf? w.micros with
    | none =>
      rw [resolved] at alike
      rw [Scan.step_unread resolved, Scan.step_unread alike]
      exact .outOfRange
    | some t =>
      rw [resolved] at alike
      obtain ⟨zone, plain, -⟩ := Zone.resolve?_exact regular.apart regular.offsets second
        ((instantOf?_micros r w).symm.trans resolved)
      rw [Scan.step_read resolved, Scan.step_read alike, regular.before_kept zone plain]
      split
      · exact .skip
      · exact .emit ⟨zone, plain, rfl⟩

/-- The scans of the two do the same, until they come to what is shown after the next jump. -/
theorem scans (still : r.start.StillUntil T) {s : Sequence} (onward : s.Onward r) :
    Scan.StepTwin r.KeptAs (s.scan.step (.ofRule r)) (s.scan.step (.ofRule r.saved)) ∨
      ∃ i hitYear year n queue, s.scan = .opened i hitYear year (n :: queue) ∧
        T + r.start.offset.micros ≤ n := by
  cases scan : s.scan with
  | finished => exact .inl .stop
  | fresh resume =>
    obtain rfl := onward.fresh resume scan
    exact .inl (.of_eq Scan.step_fresh_rezoned nofun)
  | opened i hitYear year queue =>
    cases queue with
    | nil => exact .inl (.of_eq (Scan.step_opened_rezoned i hitYear year) nofun)
    | cons n queue =>
      by_cases late : T + r.start.offset.micros ≤ n
      · exact .inr ⟨i, hitYear, year, n, queue, rfl, late⟩
      · have pending : n ∈ s.scan.pending r := by
          rw [scan]
          exact List.mem_cons_self
        obtain ⟨w, recurs, rfl⟩ := onward.recurs regular.canonical pending
        exact .inl (regular.step_wall still recurs (Int.not_le.mp late))

theorem run_saved (still : r.start.StillUntil T) (ahead : r.start.utc < T) :
    ((ofRule r.saved none).run.1.map Zoned.utc).filter (· < T) =
      ((ofRule r none).run.1.map Zoned.utc).filter (· < T) := by
  have same {ts ts' : List Zoned} (related : List.Forall₂ r.KeptAs ts ts') :
      ts'.map Zoned.utc = ts.map Zoned.utc := by
    induction related with
    | nil => rfl
    | cons kept _ ih =>
      obtain ⟨-, -, rfl⟩ := kept
      rw [List.map_cons, List.map_cons, ih, Zoned.utc_atOffset]
  -- both look at the wall times in order, and part at the first that is shown after the jump
  have together := regular.twin.together
    (fun s s' => s.Onward r ∧ s'.Onward r.saved)
    (fun u u' => ∀ t ∈ u.run.1 ++ u'.run.1, T ≤ t.utc) ?_ ?_
    ⟨onward_ofRule r, onward_ofRule r.saved⟩
  · rcases together with ⟨related, run, run'⟩ | ⟨related, twin, part, run, run'⟩
    · rw [run, run', same related]
    · have none {ts : List Zoned} (late : ∀ t ∈ ts, T ≤ t.utc) :
          (ts.map Zoned.utc).filter (· < T) = [] := by
        simp only [List.filter_eq_nil_iff, List.mem_map, decide_eq_true_eq]
        rintro u ⟨t, member, rfl⟩
        exact Int.not_lt.mpr (late t member)
      rw [run, run', List.map_append, List.map_append, List.filter_append, List.filter_append,
        same related, none fun t member => part t (List.mem_append_left _ member),
        none fun t member => part t (List.mem_append_right _ member)]
  · rintro s s' twin ⟨onward, onward'⟩
    rw [twin.scan, onward.coherent.plan, onward'.coherent.plan]
    rcases regular.scans still onward with scans | ⟨i, hitYear, year, n, queue, scan, late⟩
    · exact .inl scans
    · right
      intro t member
      rcases List.mem_append.mp member with member | member
      · exact regular.le_utc_of_mem_run still ahead onward scan late member
      · exact regular.saved.le_utc_of_mem_run (T := T) nofun ahead onward' (twin.scan.trans scan)
          late member
  · rintro s s' u u' ⟨onward, onward'⟩ on on'
    exact ⟨onward.next regular.canonical on,
      onward'.next regular.saved.canonical on'⟩

end Regular

end Rule

theorem Spec.rule_wellFormed {spec : Spec} {now : Stamp} {r : Rule} (read : spec.rule now = .ok r)
    (inRange : ∀ d ∈ r.days, ∀ n, d.ordinal = some n → Part.day.Admits n) : r.WellFormed := by
  obtain ⟨ps, -, from_⟩ := Spec.rule_readFrom read
  exact ⟨from_.checked, inRange⟩

namespace Rule

open Sequence

/-- A rule that was read, whose ordinals are in their range and which can be written, on whole seconds
in a zone whose offsets are whole seconds and whose transitions lie two days or more apart, with a
start and bounds that stand clear of the jumps of the zone. Its text gives, whenever it is read, the
rule with its instants at their offsets. That recurs at the same wall times; it gives the same
instants up to the first jump after the start, and all of them where no jump comes after the start. -/
theorem text_keeps_instants {spec : Spec} {now : Stamp} {r : Rule} (read : spec.rule now = .ok r)
    (inRange : ∀ d ∈ r.days, ∀ n, d.ordinal = some n → Part.day.Admits n) (writable : r.Writable)
    (whole : r.OnSeconds) (offsets : r.start.zone.WholeOffsets) (clear : r.StandsClear)
    (before : r.start.wall.year ≤ 9998) (later : Stamp) :
    ∃ back, (Spec.text r.text).rule later = .ok back ∧ back = r.saved ∧
      (∀ w, back.Recurs w ↔ r.Recurs w) ∧
      (∀ T, r.start.StillUntil T → r.start.utc < T →
        ((ofRule back none).run.1.map Zoned.utc).filter (· < T) =
          ((ofRule r none).run.1.map Zoned.utc).filter (· < T)) ∧
      ((∀ T d, (T, d) ∈ r.start.zone.jumps → T ≤ r.start.utc) →
        (ofRule back none).run.1.map Zoned.utc = (ofRule r none).run.1.map Zoned.utc) := by
  have regular : r.Regular :=
    { whole, clear with
      canonical := Spec.rule_canonical read
      offsets
      after := writable.years _ List.mem_cons_self
      before }
  refine ⟨r.saved, (Spec.rule_wellFormed read inRange).rule_text writable later, rfl,
    fun w => recurs_saved, fun T still ahead => regular.run_saved still ahead, fun none => ?_⟩
  -- the clocks show no instant later than a day after the end of the calendar
  have bounded (t : Zoned) : t.utc < calendarMicros + 86400000000 := by
    have inCalendar := t.wall.inCalendar
    have offset := t.offset.bounds
    have utc : t.utc = t.wall.micros - t.offset.micros := rfl
    omega
  have all (ts : List Zoned) :
      (ts.map Zoned.utc).filter (· < (calendarMicros + 86400000000 : Int)) = ts.map Zoned.utc := by
    rw [List.filter_eq_self]
    intro u member
    obtain ⟨t, -, rfl⟩ := List.mem_map.mp member
    exact decide_eq_true (bounded t)
  have same := regular.run_saved
    (fun T d jump after => absurd (none T d jump) (Int.not_le.mpr after)) (bounded r.start)
  rwa [all, all] at same

/-- A rule that recurs every day, at the hours and minutes that are given. -/
def everyDay (start : Zoned) (count : Option Nat) (finish : Option Zoned)
    (hours minutes : List Nat) : Rule where
  freq := .daily
  start := start
  interval := 1
  count := count
  finish := finish
  endsBefore := none
  weekStart := .monday
  seconds := []
  minutes := minutes
  hours := hours
  days := []
  monthDays := []
  yearDays := []
  weekNumbers := []
  months := []
  positions := []
  interval_pos := Nat.one_pos

theorem writable_everyDay {start : Zoned} {count : Option Nat} {finish : Option Zoned}
    {hours minutes : List Nat} (few : ∀ n, count = some n → n ≤ 2)
    (moments : ∀ t ∈ start :: finish.toList, t.offset.Legible ∧ 1000 ≤ t.wall.year) :
    (everyDay start count finish hours minutes).Writable where
  interval := Nat.one_lt_pow (by decide) (by decide)
  count n some := Nat.lt_of_le_of_lt (few n some)
    (Nat.lt_of_lt_of_le (show 2 < 10 ^ 1 by decide) (Nat.pow_le_pow_right (by decide) (by decide)))
  offsets t member := (moments t (by simpa [Rule.moments, everyDay] using member)).1
  years t member := (moments t (by simpa [Rule.moments, everyDay] using member)).2

/-- Nine in the morning on two days in New York, on the second of which the clocks go forward at
two. -/
def nineTwice : Rule :=
  everyDay ⟨⟨63435517200000000, by decide⟩, newYork, false⟩ (some 2) none [] []

def nineTwiceGiven : Spec :=
  .map [("freq", .frequency .daily), ("count", .int 2), ("dtstart", .stamp nineTwice.start)]

theorem read_nineTwice : nineTwiceGiven.rule midnight = .ok nineTwice := by
  rfl

theorem writable_nineTwice : nineTwice.Writable := by
  apply writable_everyDay
  · rintro n ⟨⟩
    exact Nat.le_refl 2
  · intro t member
    cases List.mem_singleton.mp member
    exact ⟨.inr (by decide), by decide +kernel⟩

theorem run_nineTwice : (ofRule nineTwice none).run =
      ([⟨⟨63435517200000000, by decide⟩, newYork, false⟩,
        ⟨⟨63435603600000000, by decide⟩, newYork, false⟩], .ended) ∧
    (ofRule nineTwice.saved none).run =
      ([⟨⟨63435517200000000, by decide⟩, .fixed ⟨-18000000000, by decide⟩, false⟩,
        ⟨⟨63435603600000000, by decide⟩, .fixed ⟨-18000000000, by decide⟩, false⟩], .ended) :=
  ⟨run_of_runWithin (n := 20) (by decide +kernel), run_of_runWithin (n := 20) (by decide +kernel)⟩

/-- Up to the jump its text keeps its instants. -/
theorem text_keeps_nineTwice : ∃ back, (Spec.text nineTwice.text).rule midnight = .ok back ∧
    ((ofRule back none).run.1.map Zoned.utc).filter (· < 63435596400000000) =
      [63435535200000000] := by
  have clear : nineTwice.StandsClear :=
    { plain := ⟨by decide, by decide⟩
      gaps := by
        intro T d jump past
        cases List.mem_singleton.mp jump
        exact absurd past (by decide)
      bounds := by
        intro t member shares
        cases List.mem_singleton.mp member
        exact ⟨rfl, by decide, by decide⟩ }
  have still : nineTwice.start.StillUntil 63435596400000000 := by
    intro T d jump after
    cases List.mem_singleton.mp jump
    exact Int.le_refl _
  obtain ⟨back, read, -, -, same, -⟩ := text_keeps_instants read_nineTwice (by rintro d ⟨⟩)
    writable_nineTwice ⟨by decide, List.pairwise_singleton _ _⟩ wholeOffsets_newYork clear
    (by decide +kernel) midnight
  refine ⟨back, read, ?_⟩
  rw [same 63435596400000000 still (by decide), run_nineTwice.1]
  decide

/-- Half past two once, from an hour after the clocks of New York have gone forward at two: the time
that they skip is read as half past three. -/
def afterGap : Rule :=
  everyDay ⟨⟨63435582000000000, by decide⟩, newYork, false⟩ (some 1) none [2] [30]

def afterGapGiven : Spec :=
  .map [("freq", .frequency .daily), ("count", .int 1), ("byhour", .int 2), ("byminute", .int 30),
    ("dtstart", .stamp afterGap.start)]

theorem read_afterGap : afterGapGiven.rule midnight = .ok afterGap := by
  rfl

/-- A quarter to two, until the second time that the clocks of London show half past one on the day on
which they go back at two. -/
def untilRepeated : Rule :=
  everyDay ⟨autumnMidnight.wall, london, false⟩ none (some (halfPastOne true)) [1] [45]

def untilRepeatedGiven : Spec :=
  .map [("freq", .frequency .daily), ("byhour", .int 1), ("byminute", .int 45),
    ("dtstart", .stamp untilRepeated.start), ("until", .stamp (halfPastOne true))]

theorem read_untilRepeated : untilRepeatedGiven.rule midnight = .ok untilRepeated := by
  rfl

/-- The text of the rule, read at some time, gives a rule with the same instants. -/
def TextKeepsInstants (r : Rule) (now : Stamp) : Prop :=
  ∃ back, (Spec.text r.text).rule now = .ok back ∧
    (ofRule back none).run.1.map Zoned.utc = (ofRule r none).run.1.map Zoned.utc

theorem not_textKeepsInstants {spec : Spec} {now : Stamp} {r : Rule} (read : spec.rule now = .ok r)
    (plain : r.days = []) (writable : r.Writable)
    (differ : (ofRule r.saved none).run.1.map Zoned.utc ≠ (ofRule r none).run.1.map Zoned.utc) :
    ¬ r.TextKeepsInstants now := by
  rintro ⟨back, read', same⟩
  have kept := (Spec.rule_wellFormed read (by simp [plain])).rule_text writable now
  rw [read', Except.ok.injEq] at kept
  exact differ (kept ▸ same)

/-- Rules that start at plain times of a named zone, on whole seconds, and whose text does not keep
their instants: a jump lies between two of them; or the start comes so soon after a jump that a time
skipped there is read as after it; or a bound is the later reading of a repeated time, which the rule
does not tell from the earlier. -/
theorem texts_lose_instants :
    (nineTwiceGiven.rule midnight = .ok nineTwice ∧ nineTwice.start.Plain ∧
      nineTwice.start.wall.microsecond = 0 ∧ ¬ nineTwice.TextKeepsInstants midnight) ∧
    (afterGapGiven.rule midnight = .ok afterGap ∧ afterGap.start.Plain ∧
      afterGap.start.wall.microsecond = 0 ∧ ¬ afterGap.TextKeepsInstants midnight) ∧
    (untilRepeatedGiven.rule midnight = .ok untilRepeated ∧ untilRepeated.start.Plain ∧
      untilRepeated.start.wall.microsecond = 0 ∧ ¬ untilRepeated.TextKeepsInstants midnight) := by
  refine ⟨⟨read_nineTwice, ⟨by decide, by decide⟩, by decide, ?_⟩,
    ⟨read_afterGap, ⟨by decide, by decide⟩, by decide, ?_⟩,
    read_untilRepeated, ⟨by decide, by decide⟩, by decide, ?_⟩
  · apply not_textKeepsInstants read_nineTwice rfl writable_nineTwice
    rw [run_nineTwice.1, run_nineTwice.2]
    decide
  · have run : (ofRule afterGap none).run =
        ([⟨⟨63435583800000000, by decide⟩, newYork, false⟩], .ended) :=
      run_of_runWithin (n := 20) (by decide +kernel)
    have run' : (ofRule afterGap.saved none).run =
        ([⟨⟨63435666600000000, by decide⟩, .fixed ⟨-14400000000, by decide⟩, false⟩], .ended) :=
      run_of_runWithin (n := 20) (by decide +kernel)
    refine not_textKeepsInstants read_afterGap rfl (writable_everyDay ?_ ?_) ?_
    · rintro n ⟨⟩
      decide
    · intro t member
      cases List.mem_singleton.mp member
      exact ⟨.inr (by decide), by decide +kernel⟩
    · rw [run, run']
      decide
  · have run : (ofRule untilRepeated none).run = ([], .ended) :=
      run_of_runWithin (n := 20) (by decide +kernel)
    have run' : (ofRule untilRepeated.saved none).run =
        ([⟨⟨63455535900000000, by decide⟩, .fixed ⟨3600000000, by decide⟩, false⟩], .ended) :=
      run_of_runWithin (n := 20) (by decide +kernel)
    refine not_textKeepsInstants read_untilRepeated rfl (writable_everyDay ?_ ?_) ?_
    · rintro n ⟨⟩
    · simp only [Option.toList_some, List.mem_cons, List.not_mem_nil, or_false]
      rintro t (rfl | rfl)
      · exact ⟨.inr (by decide), by decide +kernel⟩
      · exact ⟨.inl rfl, by decide +kernel⟩
    · rw [run, run']
      decide

end Rule

end Almanac
