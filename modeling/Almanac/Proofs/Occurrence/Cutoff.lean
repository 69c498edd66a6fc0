import Mathlib.Logic.Relation
import Almanac.Proofs.Occurrence.Scan

set_option autoImplicit false

/-!
Stopping after empty years.

A scan gives up after 400 years times the interval without a hit. Whatever it has passed through on
the way there, nothing recurs from then on in the periods that it would have looked at. So what it
has not met by then is not there to be met.
-/

namespace Almanac

open Calendar

namespace Scan

/-- Whether a step goes on with a scan. -/
def GoesOn (p : Plan) (s s' : Scan) : Prop :=
  s.step p = .skip s' ∨ ∃ t, s.step p = .emit t s'

variable {r : Rule} {s s' : Scan}

theorem Coherent.goesOn (canonical : r.Canonical) (coherent : s.Coherent r)
    (on : s.GoesOn (.ofRule r) s') : s'.Coherent r := by
  have preserves := step_preserves canonical coherent
  rcases on with step | ⟨t, step⟩
  · rw [step] at preserves
    exact preserves.of_skip.1
  · rw [step] at preserves
    exact preserves.of_emit.1

/-- Scans stay coherent. -/
theorem Coherent.reached (canonical : r.Canonical) (coherent : s.Coherent r)
    (path : Relation.ReflTransGen (GoesOn (.ofRule r)) s s') : s'.Coherent r := by
  induction path with
  | refl => exact coherent
  | tail _ on ih => exact ih.goesOn canonical on

/-- A scan that resumes anywhere and comes, before the last year of the calendar, to a period that
starts more than 400 years times the interval after the last hit, or after its first period, stops
there. In this period and those that are a whole number of intervals later nothing recurs up to the
last year, and they have no candidates as far as these can be told. -/
theorem nothing_after_cutoff {spec : Spec} {now : Stamp} (read : spec.rule now = .ok r)
    {resume : Option Stamp} {i hitYear year : Nat}
    (reached : Relation.ReflTransGen (GoesOn (.ofRule r)) (fresh resume)
      (opened i hitYear year []))
    (inside : r.freq.yearOfPeriod r.weekStart i < lastYear)
    (long : 400 * r.interval < r.freq.yearOfPeriod r.weekStart i - hitYear) :
    (opened i hitYear year []).step (.ofRule r) = .stop ∧
      ∀ k, r.freq.yearOfPeriod r.weekStart (i + k * r.interval) < lastYear →
        (∀ w, ¬ r.RecursIn (i + k * r.interval) w) ∧
          ∀ queue, (Plan.ofRule r).candidates? (i + k * r.interval) = some queue → queue = [] := by
  have canonical := Spec.rule_canonical read
  obtain ⟨first, count, passed⟩ : (opened i hitYear year []).Coherent r :=
    Coherent.reached (s := fresh resume) canonical trivial reached
  have period : r.freq.IsPeriod i := by
    rw [passed.next_eq]
    exact passed.isPeriod.mono (Nat.le_add_right _ _)
  refine ⟨?_, fun k inside => ?_⟩
  · have limit := (Frequency.lt_periodLimit_iff period).mpr inside
    exact (if_pos limit).trans (if_pos long)
  · have period := period.mono (Nat.le_add_right i (k * r.interval))
    have limit := (Frequency.lt_periodLimit_iff period).mpr inside
    have nothing : r.recurringIn (i + k * r.interval) = [] := by
      have here : i + k * r.interval = first + (count + k) * r.interval := by
        rw [passed.next_eq, Nat.add_mul, Nat.add_assoc]
      rw [here] at limit ⊢
      exact passed.recurringIn_eq_nil canonical long _ (Nat.le_add_right count k) limit
    constructor
    · intro w recurs
      have member := (Rule.mem_recurringIn canonical period limit).mpr ⟨w, rfl, recurs⟩
      rw [nothing] at member
      cases member
    · intro queue candidates
      rw [Plan.candidates?_spec candidates, nothing]

/-- The rule that recurs on the thirtieth of February. -/
def thirtiethOfFebruary : Rule where
  freq := .yearly
  start := ⟨⟨63429436800000000, by decide⟩, .utc, false⟩
  interval := 1
  count := none
  finish := none
  endsBefore := none
  weekStart := .monday
  seconds := []
  minutes := []
  hours := []
  days := []
  monthDays := [30]
  yearDays := []
  weekNumbers := []
  months := [2]
  positions := []
  interval_pos := Nat.one_pos

theorem read_thirtiethOfFebruary : (Spec.map [("freq", .frequency .yearly), ("bymonth", .int 2),
    ("bymonthday", .int 30), ("dtstart", .stamp thirtiethOfFebruary.start)]).rule
      thirtiethOfFebruary.start = .ok thirtiethOfFebruary := by
  rfl

theorem recurringIn_thirtiethOfFebruary (i : Nat) : thirtiethOfFebruary.recurringIn i = [] := by
  refine Plan.recurringIn_eq_nil_of_days fun d _ selected => ?_
  have month : monthOf d = 2 := List.mem_singleton.mp (selected.month (List.cons_ne_nil _ _))
  have inMonth := (monthDayOf_bounds d).2.2
  rw [month] at inMonth
  have short : monthLength (yearOf d) 2 ≤ 29 := by
    rw [monthLength, if_pos rfl]
    split <;> omega
  have listed := selected.monthDay (List.cons_ne_nil _ _)
  simp only [thirtiethOfFebruary, CountedIn, List.mem_singleton, month] at listed
  omega

theorem openPeriod_thirtiethOfFebruary (i hitYear year : Nat) :
    openPeriod (.ofRule thirtiethOfFebruary) i hitYear year =
      .skip (opened (i + 1) hitYear year []) := by
  have candidates : (Plan.ofRule thirtiethOfFebruary).candidates? i = some [] := by
    rw [Plan.candidates?_eq fun _ _ => Plan.selectsDay?_ne_none (absurd rfl),
      recurringIn_thirtiethOfFebruary]
  rw [openPeriod, candidates]
  rfl

/-- It comes to the year 2412 without a hit. -/
theorem path_thirtiethOfFebruary (n : Nat) (few : n ≤ 401) : ∃ year,
    Relation.ReflTransGen (GoesOn (.ofRule thirtiethOfFebruary)) (fresh none)
      (opened (2011 + n) 2011 year []) := by
  induction n with
  | zero => exact ⟨2011, .single (.inl rfl)⟩
  | succ n ih =>
    obtain ⟨year, path⟩ := ih (by omega)
    have here : yearOf (daysBeforeYear (2011 + n)) = 2011 + n := yearOf_daysBeforeYear (by omega)
    have limit : 2011 + n < 9999 := by omega
    have short : ¬ 400 * 1 < yearOf (daysBeforeYear (2011 + n)) - 2011 := by omega
    refine ⟨yearOf (daysBeforeYear (2011 + n)), path.tail (.inl ?_)⟩
    exact (if_pos limit).trans ((if_neg short).trans (openPeriod_thirtiethOfFebruary _ _ _))

theorem nothing_after_thirtiethOfFebruary :
    ∃ year, (opened 2412 2011 year []).step (.ofRule thirtiethOfFebruary) = .stop ∧
      ∀ w, ¬ thirtiethOfFebruary.RecursIn (2412 + 100 * 1) w := by
  obtain ⟨year, path⟩ := path_thirtiethOfFebruary 401 (Nat.le_refl _)
  have here (y : Nat) (hy : 0 < y) : Frequency.yearly.yearOfPeriod .monday y = y :=
    Frequency.yearOfPeriod_yearly hy
  obtain ⟨stops, nothing⟩ := nothing_after_cutoff read_thirtiethOfFebruary path
    ((here 2412 (by decide)).trans_lt (by decide))
    (by
      show 400 * 1 < Frequency.yearly.yearOfPeriod .monday 2412 - 2011
      rw [here 2412 (by decide)]
      decide)
  exact ⟨year, stops, (nothing 100 ((here 2512 (by decide)).trans_lt (by decide))).1⟩

end Scan

end Almanac
