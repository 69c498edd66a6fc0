import Almanac.Proofs.Occurrence.Run
import Almanac.Proofs.Time.Settled

set_option autoImplicit false

/-!
The occurrences of a sequence rise.

All that a scan gives is read in the zone of the start, where times compare by the wall, and a
sequence takes only what is later than what it took last. So no occurrence is given twice, whatever
the zone and the point of departure.
-/

namespace Almanac

namespace Zoned

variable {s t u : Zoned}

theorem not_before_self (t : Zoned) : t.before t = false := by
  rw [Bool.eq_false_iff, Ne, before_iff_wall rfl]
  exact Nat.lt_irrefl _

theorem before_trans (hst : t.zone = s.zone) (htu : u.zone = t.zone) (h : s.before t = true)
    (h' : t.before u = true) : s.before u = true := by
  rw [before_iff_wall hst.symm] at h
  rw [before_iff_wall htu.symm] at h'
  rw [before_iff_wall (htu.trans hst).symm]
  exact h.trans h'

end Zoned

theorem Scan.exists_opened_of_emit {p : Plan} {s s' : Scan} {t : Zoned}
    (h : s.step p = .emit t s') : ∃ i hitYear year wall queue,
      s = .opened i hitYear year (wall :: queue) ∧
        (WallTime.ofMicros? wall >>= p.rule.start.zone.resolve?) = some t := by
  match s with
  | finished => cases h
  | fresh resume =>
    rw [step] at h
    split at h <;> cases h
  | opened i hitYear year (wall :: queue) =>
    rw [step] at h
    split at h
    · rename_i found resolved
      split at h
      · cases h
      · cases h
        exact ⟨i, hitYear, year, wall, queue, rfl, resolved⟩
    · cases h
  | opened i hitYear year [] =>
    simp only [step] at h
    split at h
    · split at h
      · cases h
      · split at h
        · split at h
          · split at h
            · cases h
            · exact absurd h (openPeriod_ne_emit p)
          · cases h
        · exact absurd h (openPeriod_ne_emit p)
    · cases h

theorem Scan.exists_resolve?_of_emit {p : Plan} {s s' : Scan} {t : Zoned}
    (h : s.step p = .emit t s') : ∃ w, p.rule.start.zone.resolve? w = some t := by
  obtain ⟨_, _, _, _, _, -, resolved⟩ := exists_opened_of_emit h
  obtain ⟨w, -, resolved⟩ := Option.bind_eq_some_iff.mp resolved
  exact ⟨w, resolved⟩

theorem Scan.zone_of_emit {p : Plan} {s s' : Scan} {t : Zoned} (h : s.step p = .emit t s') :
    t.zone = p.rule.start.zone := by
  obtain ⟨w, resolved⟩ := exists_resolve?_of_emit h
  obtain ⟨u, hu, _⟩ := Zone.resolve?_spec resolved
  exact (Zoned.ofUtc?_eq_some_iff.mp hu).2.2.1

namespace Sequence

variable {s : Sequence}

theorem before_of_new {t : Zoned} (new : s.last.any (fun last => t.notAfter last) = false) :
    ∀ l ∈ s.last, l.before t = true := by
  intro l hl
  rw [Option.mem_def.mp hl] at new
  have new : t.notAfter l = false := new
  rwa [Zoned.notAfter_eq, Bool.not_eq_false'] at new

/-- The run of a sequence rises above what it took last. -/
theorem run_rises (s : Sequence) (last : ∀ l ∈ s.last, l.zone = s.plan.rule.start.zone) :
    s.run.1.Pairwise (fun u t => u.before t = true) ∧
      ∀ t ∈ s.run.1, t.zone = s.plan.rule.start.zone ∧ ∀ l ∈ s.last, l.before t = true := by
  induction s using stepInduction with
  | skip s next step ih =>
    have stepped := s.stepped
    rw [step] at stepped
    rw [run_skip step]
    cases stepped with
    | scanned | repeated => exact ih last
    | @early t scan live short emit new within early =>
      have zone := Scan.zone_of_emit emit
      have later := before_of_new new
      obtain ⟨rise, above⟩ := ih (by simpa using zone)
      refine ⟨rise, fun u member => ⟨(above u member).1, fun l hl => ?_⟩⟩
      exact Zoned.before_trans (zone.trans (last l hl).symm) ((above u member).1.trans zone.symm)
        (later l hl) ((above u member).2 t rfl)
  | found s u next step ih =>
    have stepped := s.stepped
    rw [step] at stepped
    rw [run_found step]
    cases stepped with
    | @found t scan live short emit new within due =>
      have zone := Scan.zone_of_emit emit
      have later := before_of_new new
      obtain ⟨rise, above⟩ := ih (by simpa using zone)
      refine ⟨List.pairwise_cons.mpr ⟨fun v member => (above v member).2 u rfl, rise⟩, ?_⟩
      intro v member
      rcases List.mem_cons.mp member with rfl | member
      · exact ⟨zone, later⟩
      · refine ⟨(above v member).1, fun l hl => ?_⟩
        exact Zoned.before_trans (zone.trans (last l hl).symm)
          ((above v member).1.trans zone.symm) (later l hl) ((above v member).2 u rfl)
  | ended s next step =>
    rw [run_ended step]
    exact ⟨.nil, by simp⟩
  | outOfRange s next step =>
    rw [run_outOfRange step]
    exact ⟨.nil, by simp⟩

theorem run_ofRule_rises (r : Rule) (notBefore : Option Stamp) :
    (ofRule r notBefore).run.1.Pairwise (fun s t => s.before t = true) :=
  (run_rises (ofRule r notBefore) (by simp [ofRule])).1

end Sequence

end Almanac
