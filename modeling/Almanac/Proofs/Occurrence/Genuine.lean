import Almanac.Proofs.Occurrence.Compose
import Almanac.Proofs.Occurrence.Expansion
import Almanac.Proofs.Occurrence.Rising
import Almanac.Proofs.Time.Exact

set_option autoImplicit false

/-!
The occurrences of a rule are genuine.

Each is the reading of a wall time at which the rule recurs, whatever the point of departure. Where
the start is on a whole second and the offsets of its zone are whole seconds, so that nothing is
rounded, an occurrence shows that wall time at the first instant at which the clocks do, or, where a
jump skips it, as much later as the jump is long. So no occurrence shows a time that the clocks do
not, and of two occurrences the later one comes later in UTC.
-/

namespace Almanac

namespace Rule

variable {r : Rule} {w : WallTime} {t : Zoned}

/-- A rule that starts on a whole second in a zone whose transitions lie two days or more apart. -/
structure OnSeconds (r : Rule) : Prop where
  second : r.start.wall.microsecond = 0
  apart : r.start.zone.Apart

theorem OnSeconds.recurs (whole : r.OnSeconds) (recurs : r.Recurs w) : w.micros % 1000000 = 0 := by
  rw [recurs.microsecond, ← r.start.wall.microsecond_eq]
  exact whole.second

/-- What a rule on whole seconds reads is plain, where its offsets are whole seconds or there is
only one. -/
theorem OnSeconds.resolve? (whole : r.OnSeconds)
    (offsets : r.start.zone.jumps = [] ∨ r.start.zone.WholeOffsets)
    (second : w.micros % 1000000 = 0) (h : r.start.zone.resolve? w = some t) :
    t.zone = r.start.zone ∧ t.Plain ∧ w.micros ≤ t.wall.micros + 63 := by
  rcases offsets with still | offsets
  · exact Zone.resolve?_of_no_jumps whole.apart still h
  · obtain ⟨zone, plain, reads⟩ := Zone.resolve?_exact whole.apart offsets second h
    exact ⟨zone, plain, Nat.le_add_right_of_le reads.le⟩

end Rule

namespace Sequence

open Rule

variable {r : Rule} {t : Zoned}

theorem recurs_of_mem_run (canonical : r.Canonical) {notBefore : Option Stamp}
    (member : t ∈ (ofRule r notBefore).run.1) :
    ∃ w, r.Recurs w ∧ r.start.zone.resolve? w = some t := by
  obtain ⟨n, pending, resolved⟩ :=
    exists_pending_of_mem_run canonical (coherent_ofRule r notBefore) member
  obtain ⟨w, recurs, rfl⟩ := Scan.recurs_of_pending_fresh canonical pending
  exact ⟨w, recurs, (instantOf?_micros r w).symm.trans resolved⟩

/-- The occurrences of a rule that starts on a whole second, in a zone whose transitions lie two
days or more apart and whose offsets are whole seconds (or in which nothing changes). From every
point of departure, and up to where a run leaves the calendar, they rise as instants of UTC; each
shows a time that the clocks of the zone show at its instant, and not the later reading of a
repeated time; and each resolves a wall time at which the rule recurs. With offsets of whole seconds
it is the first instant at which the clocks show that time, or, where a jump skips the time, it
shows a time later by the length of the jump. -/
theorem run_genuine {spec : Spec} {now : Stamp} (read : spec.rule now = .ok r)
    (second : r.start.wall.microsecond = 0) (apart : r.start.zone.Apart)
    (offsets : r.start.zone.jumps = [] ∨ r.start.zone.WholeOffsets) (notBefore : Option Stamp) :
    (ofRule r notBefore).run.1.Pairwise (fun s t => s.utc < t.utc) ∧
    ∀ t ∈ (ofRule r notBefore).run.1, t.zone = r.start.zone ∧ t.Plain ∧
      ∃ w, r.Recurs w ∧ r.start.zone.resolve? w = some t ∧
        (r.start.zone.WholeOffsets → r.start.zone.Reads w t) := by
  have canonical := Spec.rule_canonical read
  have whole : r.OnSeconds := ⟨second, apart⟩
  have genuine : ∀ t ∈ (ofRule r notBefore).run.1, t.zone = r.start.zone ∧ t.Plain ∧
      ∃ w, r.Recurs w ∧ r.start.zone.resolve? w = some t ∧
        (r.start.zone.WholeOffsets → r.start.zone.Reads w t) := by
    intro t member
    obtain ⟨w, recurs, resolved⟩ := recurs_of_mem_run canonical member
    have second := whole.recurs recurs
    obtain ⟨zone, plain, -⟩ := whole.resolve? offsets second resolved
    exact ⟨zone, plain, w, recurs, resolved, fun exact =>
      (Zone.resolve?_exact apart exact second resolved).2.2⟩
  refine ⟨(run_ofRule_rises r notBefore).imp_of_mem ?_, genuine⟩
  intro s t hs ht before
  obtain ⟨szone, splain, -⟩ := genuine s hs
  obtain ⟨tzone, tplain, -⟩ := genuine t ht
  exact (Zoned.Plain.before_iff (szone ▸ apart) (tzone.trans szone.symm) splain tplain).mp before

/-- The rule that recurs at half past two on three days, the last of them the one on which the clocks
of New York skip the hour from 2:00. -/
def halfPastTwo : Rule where
  freq := .daily
  start := ⟨⟨63435407400000000, by decide⟩, newYork, false⟩
  interval := 1
  count := some 3
  finish := none
  endsBefore := none
  weekStart := .monday
  seconds := []
  minutes := []
  hours := []
  days := []
  monthDays := []
  yearDays := []
  weekNumbers := []
  months := []
  positions := []
  interval_pos := Nat.one_pos

theorem read_halfPastTwo : (Spec.map [("freq", .frequency .daily), ("count", .int 3),
    ("dtstart", .stamp ⟨⟨63435407400000000, by decide⟩, some newYork, false⟩)]).rule
    ⟨.startOf ⟨0, by decide⟩, some .utc, false⟩ = .ok halfPastTwo := by
  rfl

theorem run_halfPastTwo : (ofRule halfPastTwo none).run =
    ([⟨⟨63435407400000000, by decide⟩, newYork, false⟩,
      ⟨⟨63435493800000000, by decide⟩, newYork, false⟩,
      ⟨⟨63435583800000000, by decide⟩, newYork, false⟩], .ended) :=
  run_of_runWithin (n := 20) (by decide +kernel)

theorem wholeOffsets_newYork : newYork.WholeOffsets := by
  refine ⟨by decide, fun t member => ?_⟩
  cases List.mem_singleton.mp member
  decide

/-- On the last day it is read as half past three. -/
theorem genuine_halfPastTwo :
    (ofRule halfPastTwo none).run.1.Pairwise (fun s t => s.utc < t.utc) ∧
      ∃ w, halfPastTwo.Recurs w ∧
        newYork.Reads w ⟨⟨63435583800000000, by decide⟩, newYork, false⟩ := by
  obtain ⟨rise, genuine⟩ := run_genuine read_halfPastTwo (by decide) (List.pairwise_singleton _ _)
    (.inr wholeOffsets_newYork) none
  have last : (⟨⟨63435583800000000, by decide⟩, newYork, false⟩ : Zoned) ∈
      (ofRule halfPastTwo none).run.1 := by
    rw [run_halfPastTwo]
    simp
  obtain ⟨-, -, w, recurs, -, reads⟩ := genuine _ last
  exact ⟨rise, w, recurs, reads wholeOffsets_newYork⟩

end Sequence

end Almanac
