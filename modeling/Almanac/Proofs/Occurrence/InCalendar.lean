import Mathlib.Logic.Function.Iterate
import Almanac.Proofs.Occurrence.Jumps
import Almanac.Proofs.Occurrence.Run

set_option autoImplicit false

/-!
Expansion that stays in the calendar.

A rule whose start lies between the first and the last year of the calendar has periods whose days
are a few days clear of the edges of the calendar at least, so everything that recurs in them can be
read in every zone. What may still fail is the number of a week that belongs to the first or the
last year, and a jump whose length is refused. Where a rule needs neither, no step fails, and
its run comes to an end.
-/

namespace Almanac

open Calendar

theorem Calendar.yearOf_monthOf_of_early {d : Nat} (low : 365 ≤ d) (high : d < 368) :
    yearOf d = 2 ∧ monthOf d = 1 := by
  have first : dayNumber 2 1 1 = 365 := rfl
  have length : monthLength 2 1 = 31 := rfl
  exact (inMonth_iff (by decide) (by decide) (by decide)).mpr (by omega)

theorem Calendar.yearOf_monthOf_of_late {d : Nat} (low : 3651691 ≤ d) (high : d < 3651694) :
    yearOf d = 9998 ∧ monthOf d = 12 := by
  have first : dayNumber 9998 12 1 = 3651663 := rfl
  have length : monthLength 9998 12 = 31 := rfl
  exact (inMonth_iff (by decide) (by decide) (by decide)).mpr (by omega)

theorem WallTime.day_of_year_pos {wall : WallTime} (low : 2 ≤ wall.year) : 365 ≤ wall.day :=
  Nat.le_of_not_lt fun early =>
    Nat.not_lt_of_le low (yearOf_lt_iff.mpr (show wall.day < daysBeforeYear 2 from early))

theorem WallTime.day_of_year_lt {wall : WallTime} (high : wall.year ≤ 9998) :
    wall.day < 3651694 :=
  yearOf_lt_iff.mp (Nat.lt_succ_of_le high)

theorem Stamp.exists_wallIn? (stamp : Stamp) (low : 2 ≤ stamp.wall.year)
    (high : stamp.wall.year ≤ 9998) (zone : Zone) : ∃ wall, stamp.wallIn? zone = some wall := by
  cases own : stamp.zone with
  | none => exact ⟨stamp.wall, by rw [Stamp.wallIn?, own]⟩
  | some own' =>
    have day := WallTime.day_of_year_pos low
    have day' := WallTime.day_of_year_lt high
    have calendar := calendarMicros_eq
    rw [WallTime.day_eq] at day day'
    simp only [Stamp.wallIn?, own, Zoned.inZone?]
    split
    · exact ⟨_, rfl⟩
    · have bounds := (⟨stamp.wall, own', stamp.fold⟩ : Zoned).offset.bounds
      obtain ⟨t, read⟩ := Zoned.exists_ofUtc? zone
        (u := (⟨stamp.wall, own', stamp.fold⟩ : Zoned).utc)
        (by rw [Zoned.utc]; dsimp only; omega) (by rw [Zoned.utc]; dsimp only; omega)
      exact ⟨t.wall, by rw [read]; rfl⟩

namespace Rule

variable {r : Rule} {i d : Nat}

/-- A rule that needs no number of a week that belongs to the first year of the calendar and starts
before it, nor of one that belongs to the last year. -/
structure WeeksFit (r : Rule) : Prop where
  first : r.weekNumbers ≠ [] → r.weekStart = .friday → r.start.wall.year = 2 →
    r.months ≠ [] ∧ 1 ∉ r.months
  last : r.weekNumbers ≠ [] →
    r.weekStart = .tuesday ∨ r.weekStart = .wednesday ∨ r.weekStart = .thursday →
    r.Aligned 9998 → r.months ≠ [] ∧ 12 ∉ r.months

/-- A rule whose interval is less than a thousand million days, where it may jump within a day. One
with a longer interval needs no jump if it expands from its start and selects the day and the time
of this. -/
def JumpsFit (r : Rule) (notBefore : Option Stamp) : Prop :=
  r.freq.isSubDaily = true → r.interval < 1000000000 * r.freq.perDay ∨
    (r.count = none → notBefore = none) ∧
      ∀ first, r.freq.periodOf? r.weekStart r.start.wall = some first →
        r.goesOnFrom first = r.freq.startOf r.weekStart first

section Start

variable (low : 2 ≤ r.start.wall.year)
include low

theorem exists_first : ∃ first, r.freq.periodOf? r.weekStart r.start.wall = some first := by
  have day := WallTime.day_of_year_pos low
  have index := r.weekStart.index_lt
  cases r.freq with
  | weekly => exact ⟨_, if_pos (by omega)⟩
  | yearly | monthly | daily | hourly | minutely | secondly => exact ⟨_, rfl⟩

/-- The days of the periods that a scan opens are clear of the edges of the calendar. -/
theorem day_bounds (aligned : r.Aligned i) (limit : i < r.freq.periodLimit r.weekStart)
    (member : d ∈ r.freq.days r.weekStart i) : 359 ≤ d ∧ d < 3651701 := by
  obtain ⟨first, n, hfirst, rfl⟩ := aligned
  have firstPeriod := Frequency.isPeriod_of_periodOf? hfirst
  have period := firstPeriod.mono (Nat.le_add_right first (n * r.interval))
  have inYear := (Frequency.lt_periodLimit_iff period).mp limit
  have last : daysBeforeYear lastYear = 3651694 := rfl
  have start := WallTime.day_of_year_pos low
  have startDay := ((Frequency.periodOf?_iff_fields firstPeriod).mp hfirst).1
  have onward := Frequency.firstDay_mono (w := r.weekStart) firstPeriod
    (Nat.le_add_right first (n * r.interval))
  have reached := Frequency.firstDay_le_of_mem_days member
  by_cases weekly : r.freq = .weekly
  · -- a week may reach into the years before and after
    have early := yearOf_lt_iff.mp inYear
    rw [Frequency.days_coarse (by rw [weekly]; rfl), List.mem_range'_1] at member startDay
    simp only [weekly, Frequency.firstDay, Frequency.dayLength] at *
    omega
  · have firstYear := Frequency.yearOf_of_mem_days firstPeriod (absurd · weekly) startDay
    have year := Frequency.yearOf_of_mem_days period (absurd · weekly) member
    have early := Frequency.firstDay_of_year (low.trans_eq firstYear)
    have late := yearOf_lt_iff.mp (year.trans_lt inYear)
    omega

theorem exists_instantOf? (canonical : r.Canonical) (aligned : r.Aligned i)
    (limit : i < r.freq.periodLimit r.weekStart) {n : Nat} (member : n ∈ r.recurringIn i) :
    ∃ t, r.instantOf? n = some t := by
  have period := aligned.isPeriod
  obtain ⟨w, rfl, ⟨inPeriod, -⟩, -⟩ := (mem_recurringIn canonical period limit).mp member
  have bounds := day_bounds low aligned limit ((Frequency.periodOf?_iff_fields period).mp inPeriod).1
  have calendar := calendarMicros_eq
  rw [WallTime.day_eq] at bounds
  obtain ⟨t, read⟩ := @Zone.exists_resolve?_inside r.start.zone w (by omega) (by omega)
  exact ⟨t, by rw [instantOf?_micros, read]⟩

end Start

/-- A rule of which a scan can tell what recurs in each period that it opens. -/
structure Tells (r : Rule) : Prop where
  canonical : r.Canonical
  low : 2 ≤ r.start.wall.year
  yearly : r.weekNumbers ≠ [] → r.freq = .yearly
  weeks : r.WeeksFit

theorem Tells.no_weeks (tells : r.Tells) (fine : r.freq.isSubDaily = true) :
    r.weekNumbers = [] := by
  by_contra given
  rw [tells.yearly given] at fine
  cases fine

theorem Tells.candidates? (tells : r.Tells) (aligned : r.Aligned i)
    (limit : i < r.freq.periodLimit r.weekStart) :
    (Plan.ofRule r).candidates? i = some (r.recurringIn i) := by
  have low := tells.low
  refine Plan.candidates?_eq fun d member => Plan.selectsDay?_ne_none fun given listed => ?_
  have freq := tells.yearly given
  have period := aligned.isPeriod
  obtain ⟨first, n, hfirst, hi⟩ := id aligned
  have year : yearOf d = i := by
    rw [Frequency.yearOf_of_mem_days period (by simp [freq]) member]
    rw [freq] at period ⊢
    exact Frequency.yearOfPeriod_yearly period
  have start : first = r.start.wall.year := by
    rw [freq] at hfirst
    exact (Option.some.inj hfirst).symm
  have last : i < 9999 := by
    rw [freq] at limit
    exact limit
  have inDays := yearOf_bounds d
  rw [year] at inDays
  refine weekNumber?_ne_none (by omega) (year ▸ last) (fun friday => ?_) (fun weekday => ?_)
  · by_contra early
    have second : daysBeforeYear 2 = 365 := rfl
    have := daysBeforeYear_mono (show 2 ≤ i by omega)
    obtain ⟨hyear, month⟩ := yearOf_monthOf_of_early (d := d) (by omega) (by omega)
    obtain ⟨months, january⟩ := tells.weeks.first given friday (by omega)
    exact january (month ▸ listed months)
  · by_contra late
    have next : daysBeforeYear lastYear = 3651694 := rfl
    have := daysBeforeYear_mono (show i + 1 ≤ lastYear from last)
    obtain ⟨hyear, month⟩ := yearOf_monthOf_of_late (d := d) (by omega) (by omega)
    obtain ⟨months, december⟩ := tells.weeks.last given weekday
      (by rw [← hyear, year]; exact aligned)
    exact december (month ▸ listed months)

end Rule

/-! Scans. -/

namespace Scan

variable {r : Rule} {s s' : Scan} {i : Nat}

/-- A period from which a scan may go on: it is past the limit, or the scan can tell where it
leads. -/
def LeadsOn (r : Rule) (i : Nat) : Prop :=
  r.freq.isSubDaily = true →
    r.freq.periodLimit r.weekStart ≤ i ∨ (Plan.ofRule r).skipFrom? i ≠ none

/-- A scan of which no step fails. -/
def Inside (r : Rule) : Scan → Prop
  | fresh resume => ∃ i, (Plan.ofRule r).firstPeriod? resume = some i ∧ LeadsOn r i
  | opened next _ _ queue => r.Aligned next ∧ LeadsOn r next ∧
      ∀ n ∈ queue, ∃ t, r.instantOf? n = some t
  | finished => True

theorem exists_boundary? (weeks : r.weekNumbers = []) (i : Nat) :
    ∃ boundary, (Plan.ofRule r).boundary? i = some boundary := by
  obtain ⟨selected, hselected⟩ := Option.ne_none_iff_exists'.mp
    (Plan.selectsDay?_ne_none (d := r.freq.firstDay r.weekStart i) (absurd weeks))
  have rule : (Plan.ofRule r).rule = r := rfl
  rw [Plan.boundary?, rule, hselected]
  simp only [bind, Option.bind]
  repeat' split
  all_goals exact ⟨_, rfl⟩

theorem skipFrom?_ne_none (weeks : r.weekNumbers = []) (fits : (Plan.ofRule r).stepFits = true)
    (i : Nat) : (Plan.ofRule r).skipFrom? i ≠ none := by
  obtain ⟨boundary, hboundary⟩ := exists_boundary? weeks i
  rw [Plan.skipFrom?, hboundary]
  cases boundary with
  | none => exact Option.some_ne_none _
  | some goal => simp [fits]

theorem stepFits_of_interval (short : r.interval < 1000000000 * r.freq.perDay) :
    (Plan.ofRule r).stepFits = true :=
  decide_eq_true short

theorem stepFits_of_jump {j : Nat} (h : (Plan.ofRule r).skipFrom? i = some j) (onward : i < j) :
    (Plan.ofRule r).stepFits = true := by
  obtain ⟨boundary, _, h⟩ := Option.bind_eq_some_iff.mp h
  cases boundary with
  | none =>
    cases h
    omega
  | some goal =>
    dsimp only at h
    split at h
    · assumption
    · cases h

/-- A scan cannot go on from its first period where that does not lead on. -/
theorem step_of_not_leadsOn (stuck : ¬LeadsOn r i) :
    (opened i (yearOf (r.freq.firstDay r.weekStart i)) (yearOf (r.freq.firstDay r.weekStart i))
      []).step (.ofRule r) = .outOfRange := by
  have rule : (Plan.ofRule r).rule = r := rfl
  rw [LeadsOn, Classical.not_imp, not_or, Nat.not_le, not_not] at stuck
  obtain ⟨fine, limit, jumpless⟩ := stuck
  have fine : (Plan.ofRule r).isSubDaily = true := fine
  simp [step, rule, limit, fine, jumpless]

/-- What a step may be whose scan stays inside. -/
inductive StepInside (r : Rule) : Step → Prop where
  | skip {s : Scan} (inside : s.Inside r) : StepInside r (.skip s)
  | emit {t : Zoned} {s : Scan} (inside : s.Inside r) : StepInside r (.emit t s)
  | stop : StepInside r .stop

variable (tells : r.Tells)
include tells

/-- An interval whose jumps are refused leads past the limit. -/
theorem leadsOn_next (i : Nat) : LeadsOn r (i + r.interval) := by
  intro fine
  by_cases fits : (Plan.ofRule r).stepFits = true
  · exact .inr (skipFrom?_ne_none (tells.no_weeks fine) fits _)
  · have rule : (Plan.ofRule r).rule = r := rfl
    have long : 1000000000 * r.freq.perDay ≤ r.interval := by
      simpa only [Plan.stepFits, rule, decide_eq_true_eq, Nat.not_lt] using fits
    have limit : r.freq.periodLimit r.weekStart = 3651694 * r.freq.perDay := by
      cases hf : r.freq with
      | yearly | monthly | weekly | daily =>
        rw [hf] at fine
        cases fine
      | hourly | minutely | secondly => rfl
    left
    omega

theorem openPeriod_inside (aligned : r.Aligned i) (limit : i < r.freq.periodLimit r.weekStart)
    (hitYear year : Nat) : StepInside r (openPeriod (.ofRule r) i hitYear year) := by
  rw [openPeriod, tells.candidates? aligned limit]
  exact .skip ⟨aligned.next, leadsOn_next tells i, fun n member =>
    Rule.exists_instantOf? tells.low tells.canonical aligned limit member⟩

theorem step_inside (inside : s.Inside r) : StepInside r (s.step (.ofRule r)) := by
  have rule : (Plan.ofRule r).rule = r := rfl
  match s with
  | finished => exact .stop
  | fresh resume =>
    obtain ⟨i, found, leads⟩ := inside
    obtain ⟨first, n, hfirst, hi, _⟩ := Plan.firstPeriod?_spec found
    rw [step, found]
    exact .skip ⟨⟨first, n, hfirst, hi⟩, leads, fun n member => absurd member List.not_mem_nil⟩
  | opened i hitYear year (wall :: queue) =>
    obtain ⟨aligned, leads, reads⟩ := inside
    obtain ⟨t, resolved⟩ := reads wall List.mem_cons_self
    have left : ∀ n ∈ queue, ∃ t, r.instantOf? n = some t :=
      fun n member => reads n (List.mem_cons_of_mem _ member)
    simp only [step, rule]
    rw [show WallTime.ofMicros? wall >>= r.start.zone.resolve? = some t from resolved]
    dsimp only
    split
    · exact .skip ⟨aligned, leads, left⟩
    · exact .emit ⟨aligned, leads, left⟩
  | opened i hitYear year [] =>
    obtain ⟨aligned, leads, _⟩ := inside
    simp only [step, rule]
    split
    · rename_i limit
      split
      · exact .stop
      · split
        · rename_i fine
          obtain ⟨j, skipped⟩ := Option.ne_none_iff_exists'.mp
            ((leads fine).resolve_left (Nat.not_le_of_lt limit))
          rw [skipped]
          dsimp only
          split
          · rename_i onward
            obtain ⟨n, hj, _⟩ := Plan.skipFrom?_spec tells.canonical fine skipped
            have jump := skipFrom?_ne_none (tells.no_weeks fine) (stepFits_of_jump skipped onward) j
            exact .skip ⟨hj ▸ aligned.add n, fun _ => .inr jump,
              fun n member => absurd member List.not_mem_nil⟩
          · exact openPeriod_inside tells aligned limit _ _
        · exact openPeriod_inside tells aligned limit _ _
    · exact .stop

/-- A scan leads on from the period of a start that needs no jump. -/
theorem skipFrom?_of_start (fine : r.freq.isSubDaily = true)
    (here : r.goesOnFrom i = r.freq.startOf r.weekStart i) :
    (Plan.ofRule r).skipFrom? i ≠ none := by
  obtain ⟨boundary, hboundary⟩ := exists_boundary? (tells.no_weeks fine) i
  cases boundary with
  | none =>
    rw [Plan.skipFrom?, hboundary]
    exact Option.some_ne_none _
  | some goal =>
    have later := (Plan.boundary?_spec tells.canonical fine hboundary).1
    have start := (Plan.startOf_boundary? fine hboundary).trans here
    have := Frequency.le_of_startOf_le (Frequency.isPeriod_fine fine) (Nat.le_of_eq start)
    exact absurd this (Nat.not_le_of_lt later)

theorem fresh_inside {notBefore : Option Stamp}
    (bound : ∀ stamp, notBefore = some stamp → 2 ≤ stamp.wall.year ∧ stamp.wall.year ≤ 9998)
    (jumps : r.JumpsFit notBefore) :
    (fresh (if r.count.isNone then notBefore else none)).Inside r := by
  obtain ⟨first, hfirst⟩ := Rule.exists_first tells.low
  have rule : (Plan.ofRule r).rule = r := rfl
  cases hresume : (if r.count.isNone then notBefore else none) with
  | none =>
    refine ⟨first, by simp [Plan.firstPeriod?, rule, hfirst], fun fine => .inr ?_⟩
    rcases jumps fine with short | ⟨_, here⟩
    · exact skipFrom?_ne_none (tells.no_weeks fine) (stepFits_of_interval short) first
    · exact skipFrom?_of_start tells fine (here first hfirst)
  | some stamp =>
    obtain ⟨unlimited, given⟩ : r.count = none ∧ notBefore = some stamp := by
      split at hresume
      · exact ⟨Option.isNone_iff_eq_none.mp ‹_›, hresume⟩
      · cases hresume
    obtain ⟨low, high⟩ := bound stamp given
    obtain ⟨wall, hwall⟩ := stamp.exists_wallIn? low high r.start.zone
    have fits (fine : r.freq.isSubDaily = true) : (Plan.ofRule r).stepFits = true := by
      rcases jumps fine with short | ⟨unresumed, _⟩
      · exact stepFits_of_interval short
      · rw [unresumed unlimited] at given
        cases given
    have short : ¬ ((Plan.ofRule r).isSubDaily && !(Plan.ofRule r).stepFits) = true := by
      intro refused
      rw [Bool.and_eq_true, Bool.not_eq_true'] at refused
      rw [fits refused.1] at refused
      cases refused.2
    obtain ⟨i, found⟩ : ∃ i, (Plan.ofRule r).firstPeriod? (some stamp) = some i := by
      simp only [Plan.firstPeriod?, rule, hfirst, hwall, Option.bind_eq_bind, Option.bind_some]
      rw [if_neg short]
      exact ⟨_, rfl⟩
    exact ⟨i, found, fun fine => .inr (skipFrom?_ne_none (tells.no_weeks fine) (fits fine) i)⟩

end Scan

/-! Sequences. -/

namespace Sequence

variable {r : Rule} {s s' : Sequence}

/-- A sequence of which no step fails. -/
structure Inside (r : Rule) (s : Sequence) : Prop where
  plan : s.plan = .ofRule r
  scan : s.scan.Inside r

/-- What a step may be whose sequence stays inside. -/
inductive StepInside (r : Rule) : Step → Prop where
  | skip {s : Sequence} (inside : s.Inside r) : StepInside r (.skip s)
  | found {t : Zoned} {s : Sequence} (inside : s.Inside r) : StepInside r (.found t s)
  | ended {s : Sequence} (inside : s.Inside r) : StepInside r (.ended s)

theorem step_inside (tells : r.Tells) (inside : s.Inside r) : StepInside r s.step := by
  obtain ⟨plan, scan⟩ := inside
  have steps := Scan.step_inside tells scan
  rw [← plan] at steps
  have stepped := s.stepped
  generalize s.step = step at stepped ⊢
  cases stepped with
  | exhausted | counted => exact .ended ⟨plan, scan⟩
  | scanned _ _ step =>
    rw [step] at steps
    cases steps with
    | skip inside => exact .skip ⟨plan, inside⟩
  | repeated _ _ step | early _ _ step =>
    rw [step] at steps
    cases steps with
    | emit inside => exact .skip ⟨plan, inside⟩
  | past _ _ step =>
    rw [step] at steps
    cases steps with
    | emit inside => exact .ended ⟨plan, inside⟩
  | found _ _ step =>
    rw [step] at steps
    cases steps with
    | emit inside => exact .found ⟨plan, inside⟩
  | stopped => exact .ended ⟨plan, trivial⟩
  | outOfRange _ _ step =>
    rw [step] at steps
    cases steps

theorem next_inside (tells : r.Tells) (inside : s.Inside r) :
    s.next.1 ≠ .outOfRange ∧ s.next.2.Inside r := by
  induction s using stepInduction with
  | skip s s' step ih =>
    have steps := step_inside tells inside
    rw [step] at steps
    cases steps with
    | skip inside' =>
      rw [next_of_step_skip step]
      exact ih inside'
  | found s t s' step ih =>
    have steps := step_inside tells inside
    rw [step] at steps
    cases steps with
    | found inside' =>
      rw [next_of_step_found step]
      exact ⟨by simp, inside'⟩
  | ended s s' step =>
    have steps := step_inside tells inside
    rw [step] at steps
    cases steps with
    | ended inside' =>
      rw [next_of_step_ended step]
      exact ⟨by simp, inside'⟩
  | outOfRange s s' step =>
    have steps := step_inside tells inside
    rw [step] at steps
    cases steps

theorem iterate_next_inside (tells : r.Tells) (inside : s.Inside r) (n : Nat) :
    ((fun s => s.next.2)^[n] s).Inside r := by
  induction n with
  | zero => exact inside
  | succ n ih =>
    rw [Function.iterate_succ_apply']
    exact (next_inside tells ih).2

theorem run_inside (tells : r.Tells) (inside : s.Inside r) : s.run.2 = .ended := by
  induction s using stepInduction with
  | skip s s' step ih =>
    have steps := step_inside tells inside
    rw [step] at steps
    cases steps with
    | skip inside' =>
      rw [run_skip step]
      exact ih inside'
  | found s t s' step ih =>
    have steps := step_inside tells inside
    rw [step] at steps
    cases steps with
    | found inside' =>
      rw [run_found step]
      exact ih inside'
  | ended s s' step => rw [run_ended step]
  | outOfRange s s' step =>
    have steps := step_inside tells inside
    rw [step] at steps
    cases steps

/-- A sequence that fails anywhere fails at once: its first period cannot be told, or it would have to
jump from there. -/
theorem run_ofRule (tells : r.Tells) (notBefore : Option Stamp) :
    (ofRule r notBefore).run = ([], .outOfRange) ∨ (ofRule r notBefore).run.2 = .ended := by
  generalize hs : ofRule r notBefore = s
  have plan : s.plan = .ofRule r := hs ▸ rfl
  have live : s.exhausted = false := hs ▸ rfl
  have fresh : s.scan = .fresh (if r.count.isNone then notBefore else none) := hs ▸ rfl
  generalize (if r.count.isNone then notBefore else none) = resume at fresh
  cases reached : s.countReached with
  | true =>
    have step : s.step = s.exhaust := by
      rw [step, live, reached]
      rfl
    exact .inr (by rw [run_ended step])
  | false =>
    by_cases inside : s.scan.Inside r
    · exact .inr (run_inside tells ⟨plan, inside⟩)
    · left
      rw [fresh] at inside
      cases found : (Plan.ofRule r).firstPeriod? resume with
      | none =>
        have fails : s.scan.step s.plan = .outOfRange := by rw [plan, fresh, Scan.step, found]
        exact run_outOfRange (step_of_scan_outOfRange live reached fails)
      | some i =>
        have opens : s.scan.step s.plan = .skip (.opened i (yearOf (r.freq.firstDay r.weekStart i))
            (yearOf (r.freq.firstDay r.weekStart i)) []) := by
          rw [plan, fresh, Scan.step, found]
          rfl
        have stuck : ¬Scan.LeadsOn r i := fun leads => inside ⟨i, found, leads⟩
        have fails := Scan.step_of_not_leadsOn stuck
        rw [← plan] at fails
        rw [run_skip (step_of_scan_skip live reached opens)]
        exact run_outOfRange (step_of_scan_outOfRange live reached fails)

/-- A rule that starts after the first year of the calendar and is expanded from its start or from a
stamp of the years from 2 to 9998. Where its jumps are not refused, and the weeks whose numbers it
needs lie in the calendar, asking for the next occurrence never fails, however often, and the
occurrences come to an end. -/
theorem never_outOfRange {spec : Spec} {now : Stamp} (read : spec.rule now = .ok r)
    (low : 2 ≤ r.start.wall.year) {notBefore : Option Stamp}
    (bound : ∀ stamp, notBefore = some stamp → 2 ≤ stamp.wall.year ∧ stamp.wall.year ≤ 9998)
    (jumps : r.JumpsFit notBefore) (weeks : r.WeeksFit) :
    (∀ n, ((fun s => s.next.2)^[n] (ofRule r notBefore)).next.1 ≠ .outOfRange) ∧
      (ofRule r notBefore).run.2 = .ended := by
  have tells : r.Tells :=
    ⟨Spec.rule_canonical read, low, Spec.yearly_of_weekNumbers read, weeks⟩
  have inside : (ofRule r notBefore).Inside r := ⟨rfl, Scan.fresh_inside tells bound jumps⟩
  exact ⟨fun n => (next_inside tells (iterate_next_inside tells inside n)).1,
    run_inside tells inside⟩

/-- The rule that recurs in the first week of every other year from 9997 on, in weeks from Tuesday
on. It passes over year 9998, the last days of which belong to the first week of 9999. -/
def otherFirstWeeks : Rule where
  freq := .yearly
  start := ⟨⟨315443289600000000, by decide⟩, .utc, false⟩
  interval := 2
  count := none
  finish := none
  endsBefore := none
  weekStart := .tuesday
  seconds := []
  minutes := []
  hours := []
  days := []
  monthDays := []
  yearDays := []
  weekNumbers := [1]
  months := []
  positions := []
  interval_pos := Nat.two_pos

theorem read_otherFirstWeeks : (Spec.map [("freq", .frequency .yearly), ("interval", .int 2),
    ("byweekno", .int 1), ("wkst", .weekday .tuesday),
    ("dtstart", .stamp otherFirstWeeks.start)]).rule otherFirstWeeks.start =
      .ok otherFirstWeeks := by
  rfl

theorem never_outOfRange_otherFirstWeeks :
    (ofRule otherFirstWeeks (some otherFirstWeeks.start)).run.2 = .ended := by
  refine (never_outOfRange read_otherFirstWeeks (by decide) ?_ ?_ ⟨?_, ?_⟩).2
  · rintro stamp ⟨⟩
    decide
  · intro fine
    cases fine
  · intro _ friday
    cases friday
  · rintro _ _ ⟨first, n, hfirst, aligned⟩
    obtain rfl : 9997 = first := Option.some.inj hfirst
    have interval : otherFirstWeeks.interval = 2 := rfl
    rw [interval] at aligned
    omega

end Sequence

end Almanac
