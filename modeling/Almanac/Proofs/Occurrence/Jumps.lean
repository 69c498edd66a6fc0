import Mathlib.Order.Bounds.Defs
import Almanac.Occurrence.Sequence
import Almanac.Proofs.Occurrence.Scan

set_option autoImplicit false

/-!
Jumps within a day.

A rule of a frequency finer than a day jumps from a period whose day, hour or minute it does not
select. The jump leads to the first period of the rule from the next midnight, full hour or full
minute on, and those that it passes over have no candidates. So a loop that jumps gives the same
instants as the plain one, which opens one period after the other.
-/

namespace Almanac

open Calendar

namespace Rule

variable {r : Rule} {i j : Nat}

open Classical in
/-- The wall time, in microseconds, from which a rule is to go on at period `i`: the midnight after
a day that is not selected, the full hour after an hour that is not listed or the full minute after
such a minute, and else the start of the period itself. -/
noncomputable def goesOnFrom (r : Rule) (i : Nat) : Nat :=
  let t := r.freq.startOf r.weekStart i
  if ¬ r.SelectsDay (t / dayMicros) then (t / dayMicros + 1) * dayMicros
  else if r.freq ≠ .hourly ∧ r.hours ≠ [] ∧ t / hourMicros % 24 ∉ r.hours then
    (t / hourMicros + 1) * hourMicros
  else if r.freq = .secondly ∧ r.minutes ≠ [] ∧ t / minuteMicros % 60 ∉ r.minutes then
    (t / minuteMicros + 1) * minuteMicros
  else t

end Rule

/-! Days, hours and minutes as numbers of periods. -/

namespace Frequency

variable {f : Frequency} {w : Weekday} {i : Nat}

theorem hour_eq (fine : f.isSubDaily = true) :
    f.timeOfDay i / hourMicros = f.startOf w i / hourMicros % 24 := by
  cases f with
  | yearly | monthly | weekly | daily => cases fine
  | hourly | minutely | secondly =>
    simp only [startOf_hourly, startOf_minutely, startOf_secondly, timeOfDay, perDay, dayMicros_eq,
      hourMicros_eq]
    omega

theorem minute_eq (fine : f.isSubDaily = true) :
    f.timeOfDay i % hourMicros / minuteMicros = f.startOf w i / minuteMicros % 60 := by
  cases f with
  | yearly | monthly | weekly | daily => cases fine
  | hourly | minutely | secondly =>
    simp only [startOf_hourly, startOf_minutely, startOf_secondly, timeOfDay, perDay, dayMicros_eq,
      hourMicros_eq, minuteMicros_eq]
    omega

theorem startOf_day (fine : f.isSubDaily = true) (d : Nat) :
    f.startOf w (d * f.perDay) = d * dayMicros := by
  cases f with
  | yearly | monthly | weekly | daily => cases fine
  | hourly | minutely | secondly =>
    simp only [startOf_hourly, startOf_minutely, startOf_secondly, perDay, dayMicros_eq]
    omega

theorem startOf_hour (fine : f.isSubDaily = true) :
    f.startOf w ((i / (f.perDay / 24) + 1) * (f.perDay / 24)) =
      (f.startOf w i / hourMicros + 1) * hourMicros := by
  cases f with
  | yearly | monthly | weekly | daily => cases fine
  | hourly | minutely | secondly =>
    simp only [startOf_hourly, startOf_minutely, startOf_secondly, perDay, hourMicros_eq]
    omega

theorem startOf_minute : secondly.startOf w ((i / 60 + 1) * 60) =
    (secondly.startOf w i / minuteMicros + 1) * minuteMicros := by
  simp only [startOf_secondly, minuteMicros_eq]
  omega

end Frequency

namespace Plan

variable {r : Rule} {i j : Nat}

/-- The boundary that a plan finds starts at the wall time from which the rule is to go on. -/
theorem startOf_boundary? (fine : r.freq.isSubDaily = true) {boundary : Option Nat}
    (h : (ofRule r).boundary? i = some boundary) :
    r.freq.startOf r.weekStart (boundary.getD i) = r.goesOnFrom i := by
  have rule : (ofRule r).rule = r := rfl
  have day : r.freq.firstDay r.weekStart i = r.freq.startOf r.weekStart i / dayMicros := by
    rw [dayMicros_eq, Frequency.firstDay_eq (Frequency.isPeriod_fine fine)]
  simp only [boundary?, rule, day, Frequency.hour_eq (w := r.weekStart) fine,
    Frequency.minute_eq (w := r.weekStart) fine] at h
  obtain ⟨selected, hselected, h⟩ := Option.bind_eq_some_iff.mp h
  have selects := selectsDay?_spec hselected
  unfold Rule.goesOnFrom
  dsimp only
  split at h
  · rename_i unselected
    obtain rfl : selected = false := by simpa using unselected
    obtain rfl := Option.some.inj h
    rw [if_pos (fun member => Bool.false_ne_true (selects.mpr member)), Option.getD_some,
      Frequency.startOf_day fine]
  · rename_i hselected
    rw [if_neg (not_not_intro (selects.mp (by simpa using hselected)))]
    split at h
    · rename_i hour
      obtain rfl := Option.some.inj h
      rw [if_pos (by simpa [and_assoc] using hour), Option.getD_some, Frequency.startOf_hour fine]
    · rename_i hour
      rw [if_neg (by simpa [and_assoc] using hour)]
      split at h
      · rename_i minute
        obtain rfl := Option.some.inj h
        have listed : r.freq = .secondly ∧ r.minutes ≠ [] ∧
            r.freq.startOf r.weekStart i / minuteMicros % 60 ∉ r.minutes := by
          simpa [and_assoc] using minute
        rw [if_pos listed, Option.getD_some, listed.1, Frequency.startOf_minute]
      · rename_i minute
        obtain rfl := Option.some.inj h
        rw [if_neg (by simpa [and_assoc] using minute), Option.getD_none]

end Plan

namespace Rule

variable {r : Rule} {i j : Nat}

/-- A scan jumps to the first aligned period from where the rule is to go on. -/
theorem isLeast_skipFrom? (canonical : r.Canonical) (fine : r.freq.isSubDaily = true)
    (aligned : r.Aligned i) (h : (Plan.ofRule r).skipFrom? i = some j) :
    IsLeast {c | r.Aligned c ∧ r.goesOnFrom i ≤ r.freq.startOf r.weekStart c} j := by
  obtain ⟨boundary, n, hboundary, onward, rfl, after, before⟩ :=
    Plan.skipFrom?_boundary canonical fine h
  rw [← Plan.startOf_boundary? fine hboundary]
  have period (k : Nat) := Frequency.isPeriod_fine (i := k) fine
  refine ⟨⟨aligned.add n, Frequency.startOf_mono (period _) after⟩, ?_⟩
  obtain ⟨first, m, hfirst, hi⟩ := aligned
  rintro c ⟨⟨first', k, hfirst', hc⟩, reached⟩
  obtain rfl : first' = first := Option.some.inj (hfirst'.symm.trans hfirst)
  have reached := Frequency.le_of_startOf_le (period c) reached
  -- a period before the one found is before the boundary, since it is aligned too
  by_contra sooner
  have notBefore : m ≤ k := by
    apply Nat.le_of_mul_le_mul_right _ r.interval_pos
    omega
  obtain ⟨l, rfl⟩ := Nat.exists_eq_add_of_le notBefore
  rw [Nat.add_mul, ← Nat.add_assoc, ← hi] at hc
  have fewer : l < n := by
    apply Nat.lt_of_mul_lt_mul_right (a := r.interval)
    omega
  have := before l fewer
  omega

/-- Nothing recurs in the aligned periods that a scan jumps over. -/
theorem recurringIn_of_skipped (canonical : r.Canonical) (fine : r.freq.isSubDaily = true)
    (aligned : r.Aligned i) (h : (Plan.ofRule r).skipFrom? i = some j) {c : Nat}
    (hc : r.Aligned c) (low : i ≤ c) (high : c < j) : r.recurringIn c = [] := by
  obtain ⟨boundary, _, hboundary, -⟩ := Plan.skipFrom?_boundary canonical fine h
  have early : c < boundary.getD i := by
    by_contra late
    have reached := Frequency.startOf_mono (w := r.weekStart)
      (Frequency.isPeriod_fine fine) (show boundary.getD i ≤ c by omega)
    rw [Plan.startOf_boundary? fine hboundary] at reached
    exact Nat.not_le_of_lt high ((isLeast_skipFrom? canonical fine aligned h).2 ⟨hc, reached⟩)
  cases boundary with
  | none => exact absurd early (Nat.not_lt_of_le low)
  | some goal => exact (Plan.boundary?_spec canonical fine hboundary).2 c low early

theorem candidates?_of_recurringIn (weeks : r.weekNumbers = []) (nothing : r.recurringIn i = []) :
    (Plan.ofRule r).candidates? i = some [] := by
  rw [Plan.candidates?_eq fun _ _ => Plan.selectsDay?_ne_none (absurd weeks), nothing]

end Rule

/-! Loops over the periods of a plan. -/

namespace Scan

/-- A way to make steps that comes to its end. -/
structure Loop (p : Plan) where
  step : Scan → Scan.Step
  nearer : ∀ {s s'}, (step s = .skip s' ∨ ∃ t, step s = .emit t s') → Nearer p s' s

/-- What a loop emits, and how it ends. -/
def Loop.run {p : Plan} (loop : Loop p) (s : Scan) : List Zoned × Sequence.Ending :=
  match _h : loop.step s with
  | .skip s' => loop.run s'
  | .emit t s' => (t :: (loop.run s').1, (loop.run s').2)
  | .stop => ([], .ended)
  | .outOfRange => ([], .outOfRange)
termination_by s.distance p
decreasing_by
  · exact loop.nearer (.inl ‹_›)
  · exact loop.nearer (.inr ⟨_, ‹_›⟩)

namespace Loop

variable {p : Plan} {loop : Loop p} {s s' : Scan} {t : Zoned}

theorem run_skip (h : loop.step s = .skip s') : loop.run s = loop.run s' := by
  rw [run]
  split <;> simp_all

theorem run_emit (h : loop.step s = .emit t s') :
    loop.run s = (t :: (loop.run s').1, (loop.run s').2) := by
  rw [run]
  split <;> simp_all

theorem run_stop (h : loop.step s = .stop) : loop.run s = ([], .ended) := by
  rw [run]
  split <;> simp_all

theorem run_outOfRange (h : loop.step s = .outOfRange) : loop.run s = ([], .outOfRange) := by
  rw [run]
  split <;> simp_all

/-- A loop goes on from its step. -/
theorem run_congr (h : loop.step s = loop.step s') : loop.run s = loop.run s' := by
  match step : loop.step s' with
  | .skip u => rw [run_skip (h.trans step), run_skip step]
  | .emit t u => rw [run_emit (h.trans step), run_emit step]
  | .stop => rw [run_stop (h.trans step), run_stop step]
  | .outOfRange => rw [run_outOfRange (h.trans step), run_outOfRange step]

/-- What a loop emits, where it comes to its end within a number of steps. -/
def runWithin (loop : Loop p) : Nat → Scan → Option (List Zoned × Sequence.Ending)
  | 0, _ => none
  | n + 1, s =>
    match loop.step s with
    | .skip s' => loop.runWithin n s'
    | .emit t s' => (loop.runWithin n s').map (fun run => (t :: run.1, run.2))
    | .stop => some ([], .ended)
    | .outOfRange => some ([], .outOfRange)

theorem run_of_runWithin {n : Nat} {run : List Zoned × Sequence.Ending}
    (h : loop.runWithin n s = some run) : loop.run s = run := by
  induction n generalizing s run with
  | zero => cases h
  | succ n ih =>
    rw [runWithin] at h
    split at h
    · rename_i step
      rw [run_skip step, ih h]
    · rename_i step
      obtain ⟨rest, hrest, rfl⟩ := Option.map_eq_some_iff.mp h
      rw [run_emit step, ih hrest]
    · rename_i step
      cases h
      exact run_stop step
    · rename_i step
      cases h
      exact run_outOfRange step

end Loop

/-- The loop of a scan, with its jumps. -/
def jumping (p : Plan) : Loop p := ⟨step p, step_lt p⟩

/-- A step that opens the next period of a rule wherever a scan might jump. -/
def plainStep (p : Plan) : Scan → Step
  | opened i hitYear _ [] =>
    if i < p.rule.freq.periodLimit p.rule.weekStart then
      let year := yearOf (p.rule.freq.firstDay p.rule.weekStart i)
      if 400 * p.rule.interval < year - hitYear then .stop else openPeriod p i hitYear year
    else .stop
  | s => s.step p

theorem plainStep_lt (p : Plan) {s s' : Scan}
    (h : plainStep p s = .skip s' ∨ ∃ t, plainStep p s = .emit t s') : Nearer p s' s := by
  match s with
  | fresh _ | finished | opened _ _ _ (_ :: _) => exact step_lt p h
  | opened i hitYear year [] =>
    simp only [plainStep] at h
    split at h
    · rename_i limit
      split at h
      · simp at h
      · rcases h with h | ⟨t, h⟩
        · obtain ⟨queue, rfl⟩ := openPeriod_skip p h
          refine .right _ (.left _ _ ?_)
          have := p.rule.interval_pos
          show _ - (i + p.rule.interval) < _ - i
          omega
        · exact absurd h (openPeriod_ne_emit p)
    · simp at h

/-- The loop that opens one period of a rule after the other. -/
def plain (p : Plan) : Loop p := ⟨plainStep p, plainStep_lt p⟩

section Jumps

variable {r : Rule} {s s' : Scan} {i hitYear year : Nat}

/-- Whether a loop stops at a period: it lies in the last year, or there was no hit for too long. -/
def Over (r : Rule) (i hitYear : Nat) : Prop :=
  r.freq.periodLimit r.weekStart ≤ i ∨
    400 * r.interval < r.freq.yearOfPeriod r.weekStart i - hitYear

theorem Over.mono {j : Nat} (period : r.freq.IsPeriod i) (past : Over r i hitYear) (hij : i ≤ j) :
    Over r j hitYear := by
  have later := Frequency.yearOfPeriod_mono (w := r.weekStart) period hij
  unfold Over at *
  omega

theorem plainStep_over (past : Over r i hitYear) (year : Nat) :
    plainStep (.ofRule r) (opened i hitYear year []) = .stop := by
  by_cases limit : i < r.freq.periodLimit r.weekStart
  · exact (if_pos limit).trans (if_pos (past.resolve_left (Nat.not_le_of_lt limit)))
  · exact if_neg limit

theorem plainStep_open (inside : ¬ Over r i hitYear) (year : Nat) :
    plainStep (.ofRule r) (opened i hitYear year []) =
      openPeriod (.ofRule r) i hitYear (r.freq.yearOfPeriod r.weekStart i) := by
  rw [Over, not_or, Nat.not_le] at inside
  exact (if_pos inside.1).trans (if_neg inside.2)

/-- How a scan advances, where it has no candidates left, beside the plain loop. -/
inductive Advances (r : Rule) (i hitYear : Nat) : Step → Prop where
  | past (past : Over r i hitYear) : Advances r i hitYear .stop
  | opens (inside : ¬ Over r i hitYear) : Advances r i hitYear
      (openPeriod (.ofRule r) i hitYear (r.freq.yearOfPeriod r.weekStart i))
  | jumps {j year : Nat} (fine : r.freq.isSubDaily = true)
      (skipped : (Plan.ofRule r).skipFrom? i = some j) :
      Advances r i hitYear (.skip (opened j hitYear year []))
  | outOfRange : Advances r i hitYear .outOfRange

theorem advances (r : Rule) (i hitYear year : Nat) :
    Advances r i hitYear ((opened i hitYear year []).step (.ofRule r)) := by
  have rule : (Plan.ofRule r).rule = r := rfl
  simp only [step, rule]
  split
  · rename_i limit
    split
    · rename_i long
      exact .past (.inr long)
    · rename_i short
      have inside : ¬ Over r i hitYear := not_or_intro (Nat.not_le_of_lt limit) short
      split
      · rename_i fine
        split
        · rename_i j skipped
          split
          · exact .jumps fine skipped
          · exact .opens inside
        · exact .outOfRange
      · exact .opens inside
  · rename_i limit
    exact .past (.inl (Nat.le_of_not_lt limit))

/-- The plain loop passes through periods without candidates. -/
theorem plain_run_through (fine : r.freq.isSubDaily = true) (year' : Nat) {n : Nat}
    (nothing : ∀ k < n, (Plan.ofRule r).candidates? (i + k * r.interval) = some []) :
    (plain (.ofRule r)).run (opened i hitYear year []) =
      (plain (.ofRule r)).run (opened (i + n * r.interval) hitYear year' []) := by
  induction n generalizing i year with
  | zero =>
    rw [Nat.zero_mul, Nat.add_zero]
    exact Loop.run_congr rfl
  | succ n ih =>
    by_cases past : Over r i hitYear
    · have past' := past.mono (Frequency.isPeriod_fine fine)
        (Nat.le_add_right i ((n + 1) * r.interval))
      exact Loop.run_congr ((plainStep_over past year).trans (plainStep_over past' year').symm)
    · have first := nothing 0 (Nat.succ_pos n)
      rw [Nat.zero_mul, Nat.add_zero] at first
      have opens : plainStep (.ofRule r) (opened i hitYear year []) =
          .skip (opened (i + r.interval) hitYear (r.freq.yearOfPeriod r.weekStart i) []) := by
        rw [plainStep_open past year, openPeriod, first]
        rfl
      have next (k : Nat) : i + r.interval + k * r.interval = i + (k + 1) * r.interval := by
        rw [Nat.succ_mul]
        omega
      rw [Loop.run_skip opens, ih, next]
      intro k hk
      rw [next]
      exact nothing (k + 1) (Nat.succ_lt_succ hk)

/-- Where a step goes on without an instant, the plain loop comes to the same. -/
theorem plain_run_of_skip (canonical : r.Canonical) (weeks : r.weekNumbers = [])
    (h : s.step (.ofRule r) = .skip s') :
    (plain (.ofRule r)).run s = (plain (.ofRule r)).run s' := by
  match s with
  | fresh _ | finished | opened _ _ _ (_ :: _) => exact Loop.run_skip h
  | opened i hitYear year [] =>
    have advances := advances r i hitYear year
    rw [h] at advances
    generalize next : Step.skip s' = step at advances
    cases advances with
    | past past => cases next
    | opens inside => exact Loop.run_skip ((plainStep_open inside year).trans next.symm)
    | @jumps j year' fine skipped =>
      cases next
      obtain ⟨n, rfl, nothing⟩ := Plan.skipFrom?_spec canonical fine skipped
      exact plain_run_through fine year' fun k hk =>
        Rule.candidates?_of_recurringIn weeks (nothing k hk)
    | outOfRange => cases next

theorem plainStep_of_emit {t : Zoned} (h : s.step (.ofRule r) = .emit t s') :
    plainStep (.ofRule r) s = .emit t s' := by
  match s with
  | fresh _ | finished | opened _ _ _ (_ :: _) => exact h
  | opened i hitYear year [] =>
    have advances := advances r i hitYear year
    rw [h] at advances
    generalize next : Step.emit t s' = step at advances
    cases advances with
    | opens inside => exact absurd next.symm (openPeriod_ne_emit _)
    | past | jumps | outOfRange => cases next

theorem plainStep_of_stop (h : s.step (.ofRule r) = .stop) : plainStep (.ofRule r) s = .stop := by
  match s with
  | fresh _ | finished | opened _ _ _ (_ :: _) => exact h
  | opened i hitYear year [] =>
    have advances := advances r i hitYear year
    rw [h] at advances
    generalize next : Step.stop = step at advances
    cases advances with
    | past past => exact plainStep_over past year
    | opens inside => exact plainStep_open inside year
    | jumps | outOfRange => cases next

/-- A loop with jumps that stays in the calendar gives what the plain one does. -/
theorem plain_run_eq (canonical : r.Canonical) (weeks : r.weekNumbers = [])
    (inside : ((jumping (.ofRule r)).run s).2 ≠ .outOfRange) :
    (plain (.ofRule r)).run s = (jumping (.ofRule r)).run s := by
  fun_induction Loop.run (jumping (.ofRule r)) s with
  | case1 s s' step ih => rw [plain_run_of_skip canonical weeks step, ih inside]
  | case2 s t s' step ih => rw [Loop.run_emit (plainStep_of_emit step), ih inside]
  | case3 s step => exact Loop.run_stop (plainStep_of_stop step)
  | case4 s step => exact absurd rfl inside

end Jumps

end Scan

namespace Rule

variable {r : Rule}

/-- The jumps of a rule of a frequency finer than a day. As long as a jump is not refused, it leads
from an aligned period to the first aligned one from the next midnight on, where the day is not
selected, else from the next full hour or full minute on, where the hour or the minute is not
listed, and else to the period itself. A scan that is led to the last year or past it stops, and the
aligned periods in between have no candidates. So from every point of resumption a loop that jumps
and never leaves the calendar gives what the plain loop does. -/
theorem jumps_exact {spec : Spec} {now : Stamp} (read : spec.rule now = .ok r)
    (fine : r.freq.isSubDaily = true) :
    (∀ i j, r.Aligned i → (Plan.ofRule r).skipFrom? i = some j →
      IsLeast {c | r.Aligned c ∧ r.goesOnFrom i ≤ r.freq.startOf r.weekStart c} j ∧
      (lastYear ≤ r.freq.yearOfPeriod r.weekStart j → ∀ hitYear year,
        (Scan.opened j hitYear year []).step (.ofRule r) = .stop) ∧
      ∀ c, r.Aligned c → i ≤ c → c < j → (Plan.ofRule r).candidates? c = some []) ∧
    ∀ resume, ((Scan.jumping (.ofRule r)).run (.fresh resume)).2 ≠ .outOfRange →
      (Scan.plain (.ofRule r)).run (.fresh resume) =
        (Scan.jumping (.ofRule r)).run (.fresh resume) := by
  have canonical := Spec.rule_canonical read
  have weeks : r.weekNumbers = [] := by
    by_contra given
    rw [Spec.yearly_of_weekNumbers read given] at fine
    cases fine
  refine ⟨fun i j aligned skipped => ⟨isLeast_skipFrom? canonical fine aligned skipped, ?_, ?_⟩,
    fun resume inside => Scan.plain_run_eq canonical weeks inside⟩
  · intro last hitYear year
    have limit : ¬ j < r.freq.periodLimit r.weekStart := by
      rw [Frequency.lt_periodLimit_iff (Frequency.isPeriod_fine fine)]
      exact Nat.not_lt_of_le last
    exact if_neg limit
  · exact fun c hc low high => candidates?_of_recurringIn weeks
      (recurringIn_of_skipped canonical fine aligned skipped hc low high)

/-- The rule that recurs every 25 minutes from two hours before the last year of the calendar on, as
long as it is past 23:00. -/
def lateInTheDay : Rule where
  freq := .minutely
  start := ⟨⟨315506354400000000, by decide⟩, .utc, false⟩
  interval := 25
  count := none
  finish := none
  endsBefore := none
  weekStart := .monday
  seconds := []
  minutes := []
  hours := [23]
  days := []
  monthDays := []
  yearDays := []
  weekNumbers := []
  months := []
  positions := []
  interval_pos := Nat.succ_pos 24

theorem read_lateInTheDay : (Spec.map [("freq", .frequency .minutely), ("interval", .int 25),
    ("byhour", .int 23), ("dtstart", .stamp lateInTheDay.start)]).rule lateInTheDay.start =
      .ok lateInTheDay := by
  rfl

/-- Its first jump leads from 22:00 to 23:15, and it recurs then and at 23:40. -/
theorem jumps_lateInTheDay :
    IsLeast {c | lateInTheDay.Aligned c ∧
      lateInTheDay.goesOnFrom 5258439240 ≤ Frequency.minutely.startOf .monday c} 5258439315 ∧
    (Plan.ofRule lateInTheDay).candidates? (5258439240 + 25) = some [] ∧
    (Scan.plain (.ofRule lateInTheDay)).run (.fresh none) =
      ([⟨⟨315506358900000000, by decide⟩, .utc, false⟩,
        ⟨⟨315506360400000000, by decide⟩, .utc, false⟩], .ended) := by
  obtain ⟨jumps, same⟩ := jumps_exact read_lateInTheDay rfl
  obtain ⟨least, -, empty⟩ := jumps 5258439240 5258439315 ⟨5258439240, 0, rfl, rfl⟩
    (by decide +kernel)
  have run : (Scan.jumping (.ofRule lateInTheDay)).run (.fresh none) =
      ([⟨⟨315506358900000000, by decide⟩, .utc, false⟩,
        ⟨⟨315506360400000000, by decide⟩, .utc, false⟩], .ended) :=
    Scan.Loop.run_of_runWithin (n := 10) (by decide +kernel)
  refine ⟨least, empty _ ⟨5258439240, 1, rfl, rfl⟩ (by decide) (by decide), ?_⟩
  rw [same none (by rw [run]; decide), run]

end Rule

end Almanac
