import Almanac.Proofs.Occurrence.Expansion
import Almanac.Proofs.Occurrence.InCalendar
import Almanac.Proofs.Rule.WellFormed

set_option autoImplicit false

/-!
The start of a rule as its first occurrence.

A rule of a frequency and an interval alone takes whatever its frequency leaves open from its start,
and so it recurs at the start. In a fixed offset nothing else that recurs comes as early without lying
before the start. So the start is the first occurrence just where resolving leaves it as it stands:
on a whole second of UTC, and at every microsecond from 1698 to 2241. Elsewhere a start with a
fraction of a second may move by some microseconds, or be lost.
-/

namespace Almanac

open Calendar

namespace Rule

/-- A rule of a frequency and an interval alone, without any list of values. -/
structure Bare (r : Rule) : Prop where
  seconds : r.seconds = []
  minutes : r.minutes = []
  hours : r.hours = []
  days : r.days = []
  monthDays : r.monthDays = []
  yearDays : r.yearDays = []
  weekNumbers : r.weekNumbers = []
  months : r.months = []
  positions : r.positions = []

variable {r : Rule} {offset : Offset} {first : Nat}

namespace Bare

variable (bare : r.Bare)
include bare

theorem selectsDay {d : Nat} (likeStart : r.LikeStart d) : r.SelectsDay d where
  month given := absurd bare.months given
  week given := absurd bare.weekNumbers given
  yearDay given := absurd bare.yearDays given
  monthDay given := absurd bare.monthDays given
  weekday given := absurd bare.days given
  likeStart _ := likeStart

theorem selectsDay_of_fine (fine : r.freq.isSubDaily = true) (d : Nat) : r.SelectsDay d := by
  apply bare.selectsDay
  constructor
  · intro yearly
    rw [yearly] at fine
    cases fine
  · rintro (yearly | monthly)
    · rw [yearly] at fine
      cases fine
    · rw [monthly] at fine
      cases fine
  · intro weekly
    rw [weekly] at fine
    cases fine

theorem weeksFit : r.WeeksFit :=
  ⟨fun given => absurd bare.weekNumbers given, fun given => absurd bare.weekNumbers given⟩

theorem jumpsFit : r.JumpsFit none := by
  refine fun fine => .inr ⟨fun _ => rfl, fun first _ => ?_⟩
  unfold goesOnFrom
  dsimp only
  rw [if_neg (not_not_intro (bare.selectsDay_of_fine fine _)),
    if_neg fun hour => hour.2.1 bare.hours, if_neg fun minute => minute.2.1 bare.minutes]

theorem recurs_start (low : 2 ≤ r.start.wall.year) (high : r.start.wall.year ≤ 9998) :
    r.Recurs r.start.wall := by
  obtain ⟨first, hfirst⟩ := exists_first low
  have period := Frequency.isPeriod_of_periodOf? hfirst
  have reached := Frequency.firstDay_le_of_mem_days
    ((Frequency.periodOf?_iff_fields period).mp hfirst).1
  have early : r.freq.yearOfPeriod r.weekStart first < lastYear :=
    (yearOf_mono reached).trans_lt (Nat.lt_succ_of_le high)
  have here : first + 0 * r.interval = first := by rw [Nat.zero_mul, Nat.add_zero]
  refine ⟨first, 0, hfirst, by rwa [here], ⟨⟨by rwa [here], ?_, ?_⟩, absurd bare.positions⟩⟩
  · exact bare.selectsDay ⟨fun _ _ => rfl, fun _ => rfl, fun _ => rfl⟩
  · exact
      { hour := ⟨fun _ _ => rfl, fun given => absurd bare.hours given⟩
        minute := ⟨fun _ _ => rfl, fun given => absurd bare.minutes given⟩
        second := ⟨fun _ _ => rfl, fun given => absurd bare.seconds given⟩
        microsecond := rfl }

end Bare

theorem resolve?_start_of_kept (fixed : r.start.zone = .fixed offset)
    (low : 2 ≤ r.start.wall.year) (high : r.start.wall.year ≤ 9998)
    (kept : throughSeconds (r.start.utc - epochMicros).natAbs =
      (r.start.utc - epochMicros).natAbs) :
    r.start.zone.resolve? r.start.wall = some (r.stands r.start.wall) := by
  have day := WallTime.day_of_year_pos low
  have day' := WallTime.day_of_year_lt high
  rw [WallTime.day_eq] at day day'
  have bounds := offset.bounds
  have calendar := calendarMicros_eq
  rw [Zoned.utc_fixed fixed] at kept
  have utc : (⟨r.start.wall, .fixed offset, false⟩ : Zoned).utc =
    r.start.wall.micros - offset.micros := rfl
  rw [stands, fixed, Zone.resolve?_of_kept (utc ▸ kept), Zoned.ofUtc?_eq_some_iff, utc]
  refine ⟨⟨by omega, by omega⟩, ?_, rfl, rfl⟩
  exact (Int.sub_add_cancel _ _).symm

end Rule

namespace Sequence

variable {s s' : Sequence} {t : Zoned}

theorem next_found_iff : s.next.1 = .found t ↔ s.run.1.head? = some t := by
  rw [next_eq]
  match s.run with
  | (u :: _, _) => simp
  | ([], .outOfRange) | ([], .ended) | ([], .limit) => simp

/-- A sequence that passes over nothing counts what it has given. -/
theorem counted_of_next_found (open? : s.notBefore = none) (found : s.next = (.found t, s')) :
    s'.counted = s.counted + 1 ∧ s'.last = some t := by
  induction s using stepInduction with
  | skip s u step ih =>
    have stepped := s.stepped
    rw [step] at stepped
    cases stepped with
    | scanned | repeated => exact ih open? ((next_of_step_skip step).symm.trans found)
    | early _ _ _ _ _ early =>
      rw [open?] at early
      cases early
  | found s u s'' step ih =>
    have stepped := s.stepped
    rw [step] at stepped
    rw [next_of_step_found step] at found
    cases found
    cases stepped with
    | found => exact ⟨rfl, rfl⟩
  | ended s u step =>
    rw [next_of_step_ended step] at found
    cases found
  | outOfRange s u step =>
    rw [next_of_step_outOfRange step] at found
    cases found

end Sequence

theorem eq_cons_of_least {l : List Zoned} {t : Zoned}
    (rise : l.Pairwise (fun s t => s.utc < t.utc)) (member : t ∈ l)
    (least : ∀ s ∈ l, t.utc ≤ s.utc) : l = t :: l.tail := by
  cases l with
  | nil => cases member
  | cons s l =>
    rcases List.mem_cons.mp member with rfl | later
    · rfl
    · have before := List.rel_of_pairwise_cons rise later
      exact absurd (least s List.mem_cons_self) (Int.not_le_of_gt before)

namespace Rule

variable {r : Rule} {offset : Offset} {first : Nat}

variable (canonical : r.Canonical) (fixed : r.start.zone = .fixed offset)
  (hstart : r.freq.periodOf? r.weekStart r.start.wall = some first)
include canonical fixed hstart

/-- Where a rule recurs at its start and this is read as it stands, it is the first of its
instants. -/
theorem instants_of_start (recurs : r.Recurs r.start.wall)
    (resolved : r.start.zone.resolve? r.start.wall = some (r.stands r.start.wall)) :
    r.instants (r.recurringFrom first) =
      r.stands r.start.wall :: (r.instants (r.recurringFrom first)).tail := by
  have zone : (r.stands r.start.wall).zone = .fixed offset := fixed
  have utc : (r.stands r.start.wall).utc = r.start.utc := by
    rw [Zoned.utc_fixed zone, Zoned.utc_fixed fixed]
    rfl
  have late : (r.stands r.start.wall).before r.start = false := by
    rw [Bool.eq_false_iff, Ne, Zoned.before_iff_utc zone, utc]
    exact Int.lt_irrefl _
  refine eq_cons_of_least (instants_rise canonical fixed (Frequency.isPeriod_of_periodOf? hstart))
    ((mem_instants_recurringFrom canonical hstart).mpr ⟨_, recurs, resolved, late⟩) ?_
  intro t member
  obtain ⟨w, -, read, late⟩ := (mem_instants_recurringFrom canonical hstart).mp member
  rw [fixed] at read
  rw [Bool.eq_false_iff, Ne, Zoned.before_iff_utc (Zone.resolve?_fixed read).1, Int.not_lt] at late
  exact utc.trans_le late

end Rule

namespace Sequence

open Rule

variable {r : Rule} {offset : Offset}

/-- The start of a rule of a frequency and an interval alone, in a fixed offset and in the years from 2
to 9998. It is the first occurrence just where resolving leaves it as it stands, as it does where it is
a whole second of UTC or lies within `2 ^ 33` seconds of 1970; and where it is the first occurrence,
it is counted as the first. -/
theorem start_is_first {spec : Spec} {now : Stamp} (read : spec.rule now = .ok r) (bare : r.Bare)
    (fixed : r.start.zone = .fixed offset) (low : 2 ≤ r.start.wall.year)
    (high : r.start.wall.year ≤ 9998) (within : r.isPast (r.stands r.start.wall) = false) :
    ((ofRule r none).next.1 = .found (r.stands r.start.wall) ↔
      r.start.zone.resolve? r.start.wall = some (r.stands r.start.wall)) ∧
    ((ofRule r none).next.1 = .found (r.stands r.start.wall) →
      (ofRule r none).next.2.counted = 1 ∧
        (ofRule r none).next.2.last = some (r.stands r.start.wall)) ∧
    (r.start.utc % 1000000 = 0 ∨ (r.start.utc - epochMicros).natAbs < 2 ^ 33 * 1000000 →
      (ofRule r none).next.1 = .found (r.stands r.start.wall)) := by
  have canonical := Spec.rule_canonical read
  obtain ⟨ps, -, from_⟩ := Spec.rule_readFrom read
  have short : r.count.any (fun n => n ≤ 0) = false := by
    cases count : r.count with
    | none => rfl
    | some n =>
      have := from_.checked.count n count
      exact decide_eq_false (by omega)
  have recurs := bare.recurs_start low high
  obtain ⟨first, hstart⟩ := exists_first low
  have inside : (ofRule r none).run.2 ≠ .outOfRange := by
    rw [(never_outOfRange read low (by simp) bare.jumpsFit bare.weeksFit).2]
    decide
  have all := (run_fixed canonical fixed hstart none).2 inside
  have unfiltered (ts : List Zoned) : ts.filter (fun t => !(ofRule r none).isEarly t) = ts :=
    List.filter_eq_self.mpr (fun t _ => rfl)
  rw [unfiltered] at all
  have stands : (ofRule r none).next.1 = .found (r.stands r.start.wall) ↔
      r.start.zone.resolve? r.start.wall = some (r.stands r.start.wall) := by
    rw [next_found_iff, all]
    constructor
    · intro head
      have member := (bounded_sublist r 0 _).subset (List.mem_of_head? head)
      obtain ⟨w, recurs', resolved, -⟩ := (mem_instants_recurringFrom canonical hstart).mp member
      rwa [eq_of_resolves_to_stands fixed recurs recurs' resolved] at resolved
    · intro resolved
      rw [instants_of_start canonical fixed hstart recurs resolved, bounded_cons short within]
      rfl
  refine ⟨stands, fun found => ?_, fun exact => stands.mpr ?_⟩
  · exact counted_of_next_found (s := ofRule r none) rfl (Prod.ext found rfl)
  · apply resolve?_start_of_kept fixed low high
    rcases exact with whole | near
    · exact throughSeconds_whole whole
    · exact throughSeconds_near near

/-- The rule that recurs twice, every day from a microsecond past midnight UTC on the first of January
2011. -/
def twiceDaily : Rule where
  freq := .daily
  start := ⟨⟨63429436800000001, by decide⟩, .utc, false⟩
  interval := 1
  count := some 2
  finish := none
  endsBefore := none
  weekStart := .monday
  seconds := []
  minutes := []
  hours := []
  days := []
  monthDays := []
  yearDays := []
  weekNumbers := []
  months := []
  positions := []
  interval_pos := Nat.one_pos

theorem read_twiceDaily : (Spec.map [("freq", .frequency .daily), ("count", .int 2),
    ("dtstart", .stamp twiceDaily.start)]).rule twiceDaily.start = .ok twiceDaily := by
  rfl

theorem start_is_first_twiceDaily :
    (ofRule twiceDaily none).next.1 = .found twiceDaily.start ∧
      (ofRule twiceDaily none).next.2.counted = 1 := by
  obtain ⟨-, counted, exact⟩ := start_is_first read_twiceDaily
    ⟨rfl, rfl, rfl, rfl, rfl, rfl, rfl, rfl, rfl⟩ rfl (by decide) (by decide) rfl
  have found := exact (.inr (by decide))
  exact ⟨found, (counted found).1⟩

end Sequence

end Almanac
