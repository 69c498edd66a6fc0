import Almanac.Proofs.Occurrence.Rising
import Almanac.Proofs.Time.Reckoning

set_option autoImplicit false

/-!
Sequences whose point of departure is read anew.

What a sequence gives is read in the zone of its start. So it gives the same when the instant that it
departs from is read at another offset, as long as both readings compare in the same way.
-/

namespace Almanac

variable {ρ : Reckoning}

/-- What a scan gives is among the times that its rule may give. -/
theorem Scan.admits_of_emit {p : Plan} {s s' : Scan} {t : Zoned}
    (zone : ρ.Zones p.rule.start.zone) (h : s.step p = .emit t s') : ρ.Admits t := by
  obtain ⟨w, resolved⟩ := exists_resolve?_of_emit h
  exact Reckoning.admits_of_resolve? zone resolved

theorem Scan.step_fresh_some {p : Plan} {resume : Option Stamp} {i : Nat}
    (first : p.firstPeriod? resume = some i) : (fresh resume).step p =
      let year := Calendar.yearOf (p.rule.freq.firstDay p.rule.weekStart i)
      .skip (.opened i year year []) := by
  rw [step, first]

theorem Scan.step_fresh_none {p : Plan} {resume : Option Stamp}
    (first : p.firstPeriod? resume = none) : (fresh resume).step p = .outOfRange := by
  rw [step, first]

theorem Plan.firstPeriod?_reading {p : Plan} {now : Zoned} (zone : ρ.Zones p.rule.start.zone)
    (shows : ρ.Shows now) :
    p.firstPeriod? (some (ρ.reading now : Stamp)) = p.firstPeriod? (some (now : Stamp)) := by
  have same := congrArg (Option.map Zoned.wall) (shows.inZone?_reading zone)
  have wall : Stamp.wallIn? (ρ.reading now) p.rule.start.zone =
    Stamp.wallIn? now p.rule.start.zone := same
  rw [firstPeriod?, firstPeriod?]
  dsimp only
  rw [wall]

namespace Sequence

/-- The sequence with its point of departure as it is told. -/
def readBy (ρ : Reckoning) (s : Sequence) : Sequence :=
  { s with notBefore := s.notBefore.map ρ.reading }

/-- The rule starts where it may, and the point of departure was shown by the clock. -/
structure Fits (ρ : Reckoning) (s : Sequence) : Prop where
  zone : ρ.Zones s.plan.rule.start.zone
  bound : ∀ t ∈ s.notBefore, ρ.Shows t

variable {s s' : Sequence} {t : Zoned} {missed missed' : Zoned → Bool}

theorem Fits.alike (fits : s.Fits ρ) (alike : s.Alike s') : s'.Fits ρ := by
  obtain ⟨zone, bound⟩ := fits
  rw [← alike.plan] at zone
  rw [← alike.notBefore] at bound
  exact ⟨zone, bound⟩

theorem Fits.admits_of_mem_run (fits : s.Fits ρ) : ∀ t ∈ s.run.1, ρ.Admits t := by
  refine s.forall_mem_run fun u t u' alike step => ?_
  have stepped := u.stepped
  rw [step] at stepped
  cases stepped with
  | found live short emit => exact Scan.admits_of_emit (fits.alike alike).zone emit

theorem Fits.admits_of_found (fits : s.Fits ρ) (step : s.step = .found t s') : ρ.Admits t := by
  have stepped := s.stepped
  rw [step] at stepped
  cases stepped with
  | found live short emit => exact Scan.admits_of_emit fits.zone emit

namespace Step

def readBy (ρ : Reckoning) : Step → Step
  | skip s => skip (s.readBy ρ)
  | found t s => found t (s.readBy ρ)
  | ended s => ended (s.readBy ρ)
  | outOfRange s => outOfRange (s.readBy ρ)

end Step

theorem take_readBy (fits : s.Fits ρ) (admits : ρ.Admits t) (scan : Scan) :
    (s.readBy ρ).take t scan = (s.take t scan).readBy ρ := by
  obtain ⟨plan, notBefore, before, last, counted, exhausted⟩ := s
  have early : (notBefore.map ρ.reading).any (fun bound => t.before bound) =
      notBefore.any fun bound => t.before bound := by
    cases notBefore with
    | none => rfl
    | some now =>
      have shows := fits.bound now rfl
      exact Reckoning.before_congr shows.reading.admits shows.admits admits shows.place_reading
  have past : isPast ⟨plan, notBefore.map ρ.reading, scan, last, counted, exhausted⟩ t =
    isPast ⟨plan, notBefore, scan, last, counted, exhausted⟩ t := rfl
  simp only [take, readBy, past, early]
  split
  · rfl
  · split
    · rfl
    · split <;> rfl

theorem step_readBy (fits : s.Fits ρ) : (s.readBy ρ).step = s.step.readBy ρ := by
  have reached : (s.readBy ρ).countReached = s.countReached := rfl
  have scan : (s.readBy ρ).scan.step (s.readBy ρ).plan = s.scan.step s.plan := rfl
  have exhausted : (s.readBy ρ).exhausted = s.exhausted := rfl
  unfold step
  rw [exhausted, reached, scan]
  split
  · rfl
  · split
    · rfl
    · split
      · rfl
      · rename_i emitted
        exact take_readBy fits (Scan.admits_of_emit fits.zone emitted) _
      · rfl
      · rfl

/-- Seeking is the same, whatever reading of the clock it goes by. -/
theorem seek_readBy (fits : s.Fits ρ) (same : ∀ t, ρ.Admits t → missed' t = missed t) (passed : Nat) :
    (s.readBy ρ).seek missed' passed =
      (s.seek missed passed).map id (Prod.map id (readBy ρ)) := by
  induction s using stepInduction generalizing passed with
  | skip s next step ih =>
    have step' := (step_readBy fits).trans (congrArg (Step.readBy ρ) step)
    rw [seek_skip step, seek_skip step', ih (fits.alike (step_alike (.inl step)))]
  | found s t next step ih =>
    have step' := (step_readBy fits).trans (congrArg (Step.readBy ρ) step)
    have told := same t (fits.admits_of_found step)
    cases passes : missed t with
    | true =>
      rw [seek_found_over step passes, seek_found_over step' (told.trans passes),
        ih (fits.alike (step_alike (.inr (.inl ⟨t, step⟩))))]
    | false =>
      rw [seek_found step passes, seek_found step' (told.trans passes)]
      rfl
  | ended s next step =>
    have step' := (step_readBy fits).trans (congrArg (Step.readBy ρ) step)
    rw [seek_ended step, seek_ended step']
    rfl
  | outOfRange s next step =>
    have step' := (step_readBy fits).trans (congrArg (Step.readBy ρ) step)
    rw [seek_outOfRange step, seek_outOfRange step']
    rfl

/-- Without a count a sequence resumes near its point of departure, which comes to the same too. -/
theorem seek_ofRule_reading (missed : Zoned → Bool) {r : Rule} {now : Zoned}
    (zone : ρ.Zones r.start.zone) (shows : ρ.Shows now) (passed : Nat) :
    (ofRule r (some (ρ.reading now : Stamp))).seek missed passed =
      ((ofRule r (some (now : Stamp))).seek missed passed).map id (Prod.map id (readBy ρ)) := by
  have fits : (ofRule r (some (now : Stamp))).Fits ρ := by
    refine ⟨zone, fun t bound => ?_⟩
    cases bound
    exact shows
  cases counted : r.count with
  | some n =>
    have same : ofRule r (some (ρ.reading now : Stamp)) =
        (ofRule r (some (now : Stamp))).readBy ρ := by
      simp only [ofRule, readBy, counted]
      rfl
    rw [same, seek_readBy fits fun _ _ => rfl]
  | none =>
    have same := Plan.firstPeriod?_reading (p := .ofRule r) zone shows
    have short (now : Zoned) : (ofRule r (some (now : Stamp))).countReached = false := by
      simp [countReached, ofRule, Plan.ofRule, counted]
    have scan (now : Zoned) : (ofRule r (some (now : Stamp))).scan = .fresh (some (now : Stamp)) := by
      simp [ofRule, counted]
    -- both begin with the same period
    cases first : (Plan.ofRule r).firstPeriod? (some (now : Stamp)) with
    | some i =>
      have step := step_of_scan_skip rfl (short now) (scan now ▸ Scan.step_fresh_some first)
      have step' := step_of_scan_skip rfl (short (ρ.reading now))
        (scan (ρ.reading now) ▸ Scan.step_fresh_some (same.trans first))
      rw [seek_skip step, seek_skip step']
      exact seek_readBy (fits.alike (step_alike (.inl step))) (fun _ _ => rfl) passed
    | none =>
      have step := step_of_scan_outOfRange rfl (short now) (scan now ▸ Scan.step_fresh_none first)
      have step' := step_of_scan_outOfRange rfl (short (ρ.reading now))
        (scan (ρ.reading now) ▸ Scan.step_fresh_none (same.trans first))
      rw [seek_outOfRange step, seek_outOfRange step']
      rfl

end Sequence

end Almanac
