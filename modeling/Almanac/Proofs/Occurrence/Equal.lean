import Almanac.Proofs.Occurrence.Compose
import Almanac.Proofs.Occurrence.Rising
import Almanac.Proofs.Occurrence.Twin

set_option autoImplicit false

/-!
Equal rules.

Rules are equal when their starts and bounds are the same instants and all else is the same. Two
equal rules whose starts have the same offset run alike, as long as their bounds are the same instants
of UTC. Equality does not promise either: starts with other offsets may be the same instant and show
other times of day, and bounds in one named zone are compared by what its clocks show, which may be
two instants.
-/

namespace Almanac

namespace Zoned

variable {s t : Zoned}

theorem utc_eq_of_same (same : s.same t = true)
    (shared : s.zone.sharesTable t.zone = true → s.utc = t.utc) : s.utc = t.utc := by
  unfold Zoned.same at same
  split at same
  · exact shared ‹_›
  · simp only [Bool.and_eq_true, decide_eq_true_eq] at same
    exact same.1.1

end Zoned

namespace Rule

variable {a b : Rule} {offset : Offset}

/-- Bounds that are compared by the clocks of a zone that they share are the same instants. -/
def BoundsAgree (a b : Rule) : Prop :=
  ∀ s t : Zoned, (a.finish = some s ∧ b.finish = some t) ∨
    (a.endsBefore = some s ∧ b.endsBefore = some t) →
      s.zone.sharesTable t.zone = true → s.utc = t.utc

theorem utc_eq_of_sameBound {o o' : Option Zoned} (same : sameBound o o' = true)
    (shared : ∀ s t, o = some s → o' = some t → s.zone.sharesTable t.zone = true → s.utc = t.utc) :
    o'.map Zoned.utc = o.map Zoned.utc := by
  cases o with
  | none =>
    cases o' with
    | none => rfl
    | some t => cases same
  | some s =>
    cases o' with
    | none => cases same
    | some t => exact congrArg some (Zoned.utc_eq_of_same same (shared s t rfl rfl)).symm

/-- Equal rules with starts of one offset differ only in the fold of the start and in how their
bounds are written. -/
theorem eq_rezoned_of_same (fixed : a.start.zone = .fixed offset)
    (fixed' : b.start.zone = .fixed offset) (same : a.same b = true) :
    b = a.rezoned a.start.zone b.start.fold a.count b.finish b.endsBefore := by
  simp only [Rule.same, Bool.and_eq_true, decide_eq_true_eq] at same
  obtain ⟨⟨⟨⟨⟨⟨⟨⟨⟨⟨⟨⟨⟨⟨⟨freq, start⟩, interval⟩, count⟩, -⟩, -⟩, weekStart⟩, seconds⟩, minutes⟩, hours⟩,
    days⟩, monthDays⟩, yearDays⟩, weekNumbers⟩, months⟩, positions⟩ := same
  have wall : a.start.wall = b.start.wall := by
    have utc := Zoned.utc_eq_of_same start (by rw [fixed]; exact nofun)
    rw [Zoned.utc_fixed fixed, Zoned.utc_fixed fixed'] at utc
    exact WallTime.eq_of_micros (by omega)
  obtain ⟨freq', ⟨wall', zone', fold'⟩, interval'⟩ := b
  dsimp only at *
  rw [rezoned]
  subst freq interval count weekStart seconds minutes hours days monthDays yearDays weekNumbers months
    positions wall fixed'
  rw [fixed]

theorem isPast_rezoned {z : Zone} {fold : Bool} {finish endsBefore : Option Zoned}
    (sameFinish : finish.map Zoned.utc = a.finish.map Zoned.utc)
    (sameStop : endsBefore.map Zoned.utc = a.endsBefore.map Zoned.utc) {t : Zoned}
    (zone : t.zone = .fixed offset) :
    (a.rezoned z fold a.count finish endsBefore).isPast t = a.isPast t := by
  have before (o : Option Zoned) : o.any (fun finish => finish.before t) =
      (o.map Zoned.utc).any (fun u => u < t.utc) := by
    cases o with
    | none => rfl
    | some s => exact Bool.eq_iff_iff.mpr ((Zoned.utc_before_iff zone).trans decide_eq_true_iff.symm)
  have notAfter (o : Option Zoned) : o.any (fun stop => stop.notAfter t) =
      (o.map Zoned.utc).any (fun u => u ≤ t.utc) := by
    cases o with
    | none => rfl
    | some s =>
      exact Bool.eq_iff_iff.mpr ((Zoned.utc_notAfter_iff zone).trans decide_eq_true_iff.symm)
  simp only [isPast, before, notAfter, rezoned, sameFinish, sameStop]

end Rule

theorem Scan.step_rezoned {a : Rule} {offset : Offset} (fixed : a.start.zone = .fixed offset)
    {fold : Bool} {finish endsBefore : Option Zoned} (s : Scan) :
    s.step (Plan.ofRule (a.rezoned a.start.zone fold a.count finish endsBefore)) =
      s.step (Plan.ofRule a) := by
  match s with
  | .finished => rfl
  | .fresh resume => exact step_resumed_rezoned resume
  | .opened i hitYear year [] => exact step_opened_rezoned i hitYear year
  | .opened i hitYear year (wall :: queue) =>
    have before (t : Zoned) :
        t.before (a.rezoned a.start.zone fold a.count finish endsBefore).start =
          t.before a.start := by
      have fixed' : (a.rezoned a.start.zone fold a.count finish endsBefore).start.zone =
        .fixed offset := fixed
      rw [Bool.eq_iff_iff, Zoned.utc_before_iff fixed, Zoned.utc_before_iff fixed',
        Zoned.utc_fixed fixed, Zoned.utc_fixed fixed']
      rfl
    have rule (r : Rule) : (Plan.ofRule r).rule = r := rfl
    have zone : (a.rezoned a.start.zone fold a.count finish endsBefore).start.zone =
      a.start.zone := rfl
    simp only [Scan.step, rule, before, zone]

namespace Sequence

variable {a b : Rule} {offset : Offset}

/-- In a zone with a fixed offset the fold of the start, and how bounds at the same instants of UTC
are written, do not matter to a run. -/
theorem run_rezoned (fixed : a.start.zone = .fixed offset) {fold : Bool}
    {finish endsBefore : Option Zoned} (sameFinish : finish.map Zoned.utc = a.finish.map Zoned.utc)
    (sameStop : endsBefore.map Zoned.utc = a.endsBefore.map Zoned.utc) (notBefore : Option Stamp) :
    (ofRule (a.rezoned a.start.zone fold a.count finish endsBefore) notBefore).run =
      (ofRule a notBefore).run := by
  have twin : Twin (fun t t' => t' = t ∧ t.zone = .fixed offset) (ofRule a notBefore)
      (ofRule (a.rezoned a.start.zone fold a.count finish endsBefore) notBefore) :=
    { compares :=
        { limit := rfl
          old := by
            rintro l _ t _ ⟨rfl, -⟩ ⟨rfl, -⟩
            rfl
          past := by
            rintro t _ ⟨rfl, zone⟩
            exact Rule.isPast_rezoned sameFinish sameStop zone
          early := by
            rintro t _ ⟨rfl, -⟩
            rfl }
      scan := rfl
      last := .none
      counted := rfl
      exhausted := rfl }
  have together := twin.together
    (fun s s' => s.plan = .ofRule a ∧
      s'.plan = .ofRule (a.rezoned a.start.zone fold a.count finish endsBefore))
    (fun _ _ => False) ?_ ?_ ⟨rfl, rfl⟩
  · cases together with
    | wholly related run run' =>
      have eq := related.imp (S := Eq) fun t t' h => h.1.symm
      rw [List.forall₂_eq_eq_eq] at eq
      rw [run, run', eq]
    | upTo _ _ part => exact part.elim
  · rintro s s' twin ⟨plan, plan'⟩
    left
    rw [plan, plan', twin.scan, Scan.step_rezoned fixed]
    cases step : s.scan.step (.ofRule a) with
    | skip scan => exact .skip
    | emit t scan => exact .emit ⟨rfl, (Scan.zone_of_emit step).trans fixed⟩
    | stop => exact .stop
    | outOfRange => exact .outOfRange
  · rintro s s' u u' ⟨plan, plan'⟩ on on'
    exact ⟨on.plan.trans plan, on'.plan.trans plan'⟩

/-- Equal rules whose starts have one offset, and whose bounds are the same instants of UTC, have the
same run from every point of departure: the same occurrences in the same order, and the same end. -/
theorem run_eq_of_same (fixed : a.start.zone = .fixed offset) (fixed' : b.start.zone = .fixed offset)
    (same : a.same b = true) (bounds : a.BoundsAgree b) (notBefore : Option Stamp) :
    (ofRule b notBefore).run = (ofRule a notBefore).run := by
  have eq := Rule.eq_rezoned_of_same fixed fixed' same
  simp only [Rule.same, Bool.and_eq_true, decide_eq_true_eq] at same
  obtain ⟨⟨⟨⟨⟨⟨⟨⟨⟨⟨⟨⟨-, sameFinish⟩, sameStop⟩, -⟩, -⟩, -⟩, -⟩, -⟩, -⟩, -⟩, -⟩, -⟩, -⟩ := same
  have finish := Rule.utc_eq_of_sameBound sameFinish fun s t hs ht => bounds s t (.inl ⟨hs, ht⟩)
  have stop := Rule.utc_eq_of_sameBound sameStop fun s t hs ht => bounds s t (.inr ⟨hs, ht⟩)
  rw [eq]
  exact run_rezoned fixed finish stop notBefore

/-- A rule that recurs every day at the full hour. -/
def dailyAt (hour : Nat) (start finish : Zoned) : Rule where
  freq := .daily
  start := start
  interval := 1
  count := none
  finish := some finish
  endsBefore := none
  weekStart := .monday
  seconds := []
  minutes := []
  hours := [hour]
  days := []
  monthDays := []
  yearDays := []
  weekNumbers := []
  months := []
  positions := []
  interval_pos := by decide

/-- The mapping that gives such a rule. -/
def dailyAtGiven (hour : Nat) (start finish : Zoned) : Spec :=
  .map [("freq", .frequency .daily), ("byhour", .int hour), ("dtstart", .stamp start),
    ("until", .stamp finish)]

/-- The clocks of London from the summer of 2011 on, until next spring. -/
def london : Zone := .table
  { name := "London"
    initial := ⟨3600000000, by decide⟩
    transitions := [⟨63455533200000000, .zero⟩] }

/-- The start of 6 March 2011 in UTC, as the clocks of an offset of five hours show it. -/
def midnightInTheEast : Zoned :=
  ⟨⟨63434984400000000, by decide⟩, .fixed ⟨18000000000, by decide⟩, false⟩

def midnight : Zoned := ⟨⟨63434966400000000, by decide⟩, .utc, false⟩

/-- A day later, as both clocks show it. -/
def nextMidnight : Zoned := ⟨⟨63435052800000000, by decide⟩, .utc, false⟩

def nextMidnightInTheEast : Zoned :=
  ⟨⟨63435070800000000, by decide⟩, .fixed ⟨18000000000, by decide⟩, false⟩

/-- Equal rules whose bounds are one instant, shown by two clocks, run alike. -/
theorem dailyAt_run_alike :
    (dailyAtGiven 9 midnight nextMidnight).rule midnight =
        .ok (dailyAt 9 midnight nextMidnight) ∧
      (dailyAtGiven 9 midnight nextMidnightInTheEast).rule midnight =
        .ok (dailyAt 9 midnight nextMidnightInTheEast) ∧
      (ofRule (dailyAt 9 midnight nextMidnightInTheEast) none).run =
        (ofRule (dailyAt 9 midnight nextMidnight) none).run := by
  refine ⟨rfl, rfl, run_eq_of_same rfl rfl (by decide +kernel) ?_ none⟩
  rintro s t (⟨⟨⟩, ⟨⟩⟩ | ⟨⟨⟩, -⟩)
  exact nofun

/-- Midnight of 30 October 2011 in UTC. -/
def autumnMidnight : Zoned := ⟨⟨63455529600000000, by decide⟩, .utc, false⟩

/-- Half past one in London, before or after the clocks go back at two. -/
def halfPastOne (fold : Bool) : Zoned := ⟨⟨63455535000000000, by decide⟩, london, fold⟩

/-- Equal rules that run differently: their starts show one instant at two offsets, or their bounds
are the two instants of a repeated time of a named zone. -/
theorem equal_rules_differ :
    ((dailyAtGiven 9 midnight nextMidnight).rule midnight =
        .ok (dailyAt 9 midnight nextMidnight) ∧
      (dailyAtGiven 9 midnightInTheEast nextMidnight).rule midnight =
        .ok (dailyAt 9 midnightInTheEast nextMidnight) ∧
      (dailyAt 9 midnight nextMidnight).same (dailyAt 9 midnightInTheEast nextMidnight) = true ∧
      (ofRule (dailyAt 9 midnight nextMidnight) none).run.1.map Zoned.utc ≠
        (ofRule (dailyAt 9 midnightInTheEast nextMidnight) none).run.1.map Zoned.utc) ∧
    ((dailyAtGiven 1 autumnMidnight (halfPastOne false)).rule midnight =
        .ok (dailyAt 1 autumnMidnight (halfPastOne false)) ∧
      (dailyAtGiven 1 autumnMidnight (halfPastOne true)).rule midnight =
        .ok (dailyAt 1 autumnMidnight (halfPastOne true)) ∧
      (dailyAt 1 autumnMidnight (halfPastOne false)).same
        (dailyAt 1 autumnMidnight (halfPastOne true)) = true ∧
      (ofRule (dailyAt 1 autumnMidnight (halfPastOne false)) none).run.1.map Zoned.utc ≠
        (ofRule (dailyAt 1 autumnMidnight (halfPastOne true)) none).run.1.map Zoned.utc) := by
  have west : (ofRule (dailyAt 9 midnight nextMidnight) none).run =
      ([⟨⟨63434998800000000, by decide⟩, .utc, false⟩], .ended) :=
    run_of_runWithin (n := 20) (by decide +kernel)
  have east : (ofRule (dailyAt 9 midnightInTheEast nextMidnight) none).run =
      ([⟨⟨63434998800000000, by decide⟩, midnightInTheEast.zone, false⟩], .ended) :=
    run_of_runWithin (n := 20) (by decide +kernel)
  have first : (ofRule (dailyAt 1 autumnMidnight (halfPastOne false)) none).run = ([], .ended) :=
    run_of_runWithin (n := 20) (by decide +kernel)
  have second : (ofRule (dailyAt 1 autumnMidnight (halfPastOne true)) none).run =
      ([⟨⟨63455533200000000, by decide⟩, .utc, false⟩], .ended) :=
    run_of_runWithin (n := 20) (by decide +kernel)
  refine ⟨⟨rfl, rfl, by decide +kernel, ?_⟩, rfl, rfl, by decide +kernel, ?_⟩
  · rw [west, east]
    decide
  · rw [first, second]
    decide

end Sequence

end Almanac
