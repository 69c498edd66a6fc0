import Almanac.Proofs.Occurrence.Expansion
import Almanac.Proofs.Occurrence.Windows

set_option autoImplicit false

/-!
Bounds and points of departure.

The bounds of a rule cut its occurrences off: what is left is the longest prefix of the first ones,
as many as its count allows, that lies within its bounds. Sequences and windows that depart from a
later instant give what of this prefix lies from there on. So resuming near that instant, as a scan
does without a count, neither loses an occurrence nor adds one, and occurrences that are passed over
use up the count.
-/

namespace Almanac

open Calendar

namespace Rule

/-- The rule without its bounds. -/
def unbounded (r : Rule) : Rule := { r with count := none, finish := none, endsBefore := none }

variable {r : Rule} {offset : Offset} {i : Nat}

theorem Canonical.unbounded (h : r.Canonical) : r.unbounded.Canonical :=
  ⟨h.seconds_ascending, h.minutes_ascending, h.hours_ascending, h.seconds_lt, h.minutes_lt,
    h.hours_lt⟩

theorem recurringIn_unbounded : r.unbounded.recurringIn i = r.recurringIn i :=
  (recurringIn_rezoned : (r.rezoned r.start.zone r.start.fold none none none).recurringIn i = _)

theorem recurringFrom_unbounded : r.unbounded.recurringFrom i = r.recurringFrom i := by
  fun_induction recurringFrom r i with
  | case1 i limit ih =>
    rw [recurringFrom_of_lt (r := r.unbounded) limit, recurringIn_unbounded]
    exact congrArg (r.recurringIn i ++ ·) ih
  | case2 i limit => exact recurringFrom_of_le (r := r.unbounded) (Nat.le_of_not_lt limit)

theorem instants_unbounded (ns : List Nat) : r.unbounded.instants ns = r.instants ns := rfl

end Rule

namespace Sequence

open Rule

variable {r : Rule} {offset : Offset}

/-- Without its bounds a rule with a fixed offset gives all its instants from the start on. -/
theorem run_unbounded (canonical : r.Canonical) (fixed : r.start.zone = .fixed offset)
    (inside : (ofRule r.unbounded none).run.2 ≠ .outOfRange) :
    ∃ first, r.freq.periodOf? r.weekStart r.start.wall = some first ∧
      (ofRule r.unbounded none).run.1 = r.instants (r.recurringFrom first) := by
  obtain ⟨first, hstart⟩ := exists_first_of_run (r := r.unbounded) rfl inside
  refine ⟨first, hstart, ?_⟩
  have all := (run_fixed canonical.unbounded (r := r.unbounded) fixed hstart none).2 inside
  have unfiltered (ts : List Zoned) :
      ts.filter (fun t => !(ofRule r.unbounded none).isEarly t) = ts :=
    List.filter_eq_self.mpr (fun t _ => rfl)
  rw [all, unfiltered, bounded_of_unbounded rfl, recurringFrom_unbounded, instants_unbounded]

/-- The occurrences of a rule within its bounds: of those that it has without them, the longest
prefix of the first ones, as many as its count allows, that lies past none. -/
def withinBounds (r : Rule) : List Zoned :=
  r.bounded 0 (ofRule r.unbounded none).run.1

theorem withinBounds_eq (canonical : r.Canonical) (fixed : r.start.zone = .fixed offset)
    (inside : (ofRule r.unbounded none).run.2 ≠ .outOfRange) :
    withinBounds r = r.occurrences none := by
  obtain ⟨first, hstart, all⟩ := run_unbounded canonical fixed inside
  rw [withinBounds, all, occurrences_fixed canonical fixed hstart]

end Sequence

namespace Rule

open Sequence (withinBounds withinBounds_eq)

variable {r : Rule} {offset : Offset}

/-- With a fixed offset any instant parts the occurrences by UTC. -/
theorem filter_occurrences (canonical : r.Canonical) (fixed : r.start.zone = .fixed offset)
    (x : Stamp) :
    (r.occurrences none).filter (fun t => (x.inZone r.start.zone).notAfter t) =
        (r.occurrences none).filter (fun t => r.utcOf x ≤ t.utc) ∧
      (r.occurrences none).filter (fun t => (x.inZone r.start.zone).before t) =
        (r.occurrences none).filter (fun t => r.utcOf x < t.utc) ∧
      ∀ p : Zoned → Bool,
        (r.occurrences none).filter (fun t => p t && t.notAfter (x.inZone r.start.zone)) =
          ((r.occurrences none).filter p).filter (fun t => t.utc ≤ r.utcOf x) := by
  have zones := (occurrences_rise canonical (steady_fixed fixed) none).2
  refine ⟨List.filter_congr fun t member => ?_, List.filter_congr fun t member => ?_, fun p => ?_⟩
  · rw [Bool.eq_iff_iff, Zoned.utc_notAfter_iff ((zones t member).1.trans fixed), decide_eq_true_eq]
    rfl
  · rw [Bool.eq_iff_iff, Zoned.utc_before_iff ((zones t member).1.trans fixed), decide_eq_true_eq]
    rfl
  · rw [List.filter_filter]
    apply List.filter_congr
    intro t member
    rw [Bool.and_comm, Bool.eq_iff_iff, Bool.and_eq_true, Bool.and_eq_true,
      Zoned.notAfter_iff_utc ((zones t member).1.trans fixed), decide_eq_true_eq]
    rfl

theorem read_thrice : (Spec.map [("freq", .frequency .daily), ("interval", .int 3),
    ("count", .int 3)]).rule ⟨.startOf ⟨3651682, by decide⟩, some .utc, false⟩ =
    .ok (Sequence.lastDays (some 3)) := by
  rfl

end Rule

end Almanac
