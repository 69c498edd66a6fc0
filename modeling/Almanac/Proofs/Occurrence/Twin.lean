import Almanac.Proofs.Occurrence.Candidates
import Almanac.Proofs.Occurrence.Run
import Mathlib.Data.List.Forall2
import Mathlib.Data.Option.Basic

set_option autoImplicit false

/-!
Sequences side by side.

Two rules that differ only in the zone of their start and in their bounds scan the same periods for the
same wall times, and differ in how they read them. Where their scans give corresponding instants and
these compare alike, their sequences do the same at every step.
-/

namespace Almanac

/-! What a scan does without reading a wall time does not depend on the zone. -/

namespace Scan

variable {r : Rule} {zone : Zone} {fold : Bool} {count : Option Nat}
  {finish endsBefore : Option Zoned}

theorem step_fresh_rezoned :
    (fresh none).step (Plan.ofRule (r.rezoned zone fold count finish endsBefore)) =
      (fresh none).step (Plan.ofRule r) := rfl

theorem step_resumed_rezoned (resume : Option Stamp) :
    (fresh resume).step (Plan.ofRule (r.rezoned r.start.zone fold count finish endsBefore)) =
      (fresh resume).step (Plan.ofRule r) := rfl

theorem step_opened_rezoned (i hitYear year : Nat) :
    (opened i hitYear year []).step (Plan.ofRule (r.rezoned zone fold count finish endsBefore)) =
      (opened i hitYear year []).step (Plan.ofRule r) := rfl

/-- Two steps of scans that do the same, with corresponding instants. -/
inductive StepTwin (R : Zoned → Zoned → Prop) : Step → Step → Prop where
  | skip {s : Scan} : StepTwin R (.skip s) (.skip s)
  | emit {t t' : Zoned} {s : Scan} (related : R t t') : StepTwin R (.emit t s) (.emit t' s)
  | stop : StepTwin R .stop .stop
  | outOfRange : StepTwin R .outOfRange .outOfRange

end Scan

namespace Sequence

variable {R : Zoned → Zoned → Prop} {s s' : Sequence}

/-- Two sequences compare corresponding instants alike, with one another and with their bounds. -/
structure Compares (R : Zoned → Zoned → Prop) (s s' : Sequence) : Prop where
  limit : s'.plan.rule.count = s.plan.rule.count
  old : ∀ l l' t t', R l l' → R t t' → t'.notAfter l' = t.notAfter l
  past : ∀ t t', R t t' → s'.isPast t' = s.isPast t
  early : ∀ t t', R t t' →
    s'.notBefore.any (fun bound => t'.before bound) = s.notBefore.any (fun bound => t.before bound)

/-- Two sequences that have come equally far. -/
structure Twin (R : Zoned → Zoned → Prop) (s s' : Sequence) : Prop where
  compares : Compares R s s'
  scan : s'.scan = s.scan
  last : Option.Rel R s.last s'.last
  counted : s'.counted = s.counted
  exhausted : s'.exhausted = s.exhausted

/-- Two steps of sequences that do the same, with corresponding instants. -/
inductive StepTwin (R : Zoned → Zoned → Prop) : Step → Step → Prop where
  | skip {s s' : Sequence} (twin : Twin R s s') : StepTwin R (.skip s) (.skip s')
  | found {t t' : Zoned} {s s' : Sequence} (related : R t t') (twin : Twin R s s') :
      StepTwin R (.found t s) (.found t' s')
  | ended {s s' : Sequence} : StepTwin R (.ended s) (.ended s')
  | outOfRange {s s' : Sequence} : StepTwin R (.outOfRange s) (.outOfRange s')

theorem Twin.take (twin : Twin R s s') {t t' : Zoned} (related : R t t') (scan : Scan) :
    StepTwin R (s.take t scan) (s'.take t' scan) := by
  obtain ⟨compares, -, last, counted, exhausted⟩ := twin
  have old : s'.last.any (fun last => t'.notAfter last) =
      s.last.any (fun last => t.notAfter last) := by
    generalize s.last = l, s'.last = l' at last
    cases last with
    | none => rfl
    | some related' => exact compares.old _ _ t t' related' related
  have past := compares.past t t' related
  have early := compares.early t t' related
  unfold Sequence.take
  dsimp only
  rw [old]
  split
  · exact .skip ⟨⟨compares.limit, compares.old, compares.past, compares.early⟩, rfl, last, counted,
      exhausted⟩
  · have past : isPast { s' with scan } t' = isPast { s with scan } t := past
    rw [past]
    split
    · exact .ended
    · rw [early]
      have next : Twin R { s with scan, last := some t, counted := s.counted + 1 }
          { s' with scan, last := some t', counted := s'.counted + 1 } :=
        ⟨⟨compares.limit, compares.old, compares.past, compares.early⟩, rfl, .some related,
          congrArg (· + 1) counted, exhausted⟩
      split
      · exact .skip next
      · exact .found related next

/-- Sequences whose scans do the same do the same. -/
theorem Twin.step (twin : Twin R s s')
    (scans : Scan.StepTwin R (s.scan.step s.plan) (s'.scan.step s'.plan)) :
    StepTwin R s.step s'.step := by
  have ⟨compares, _, last, counted, exhausted⟩ := twin
  have reached : s'.countReached = s.countReached := by
    rw [countReached, countReached, compares.limit, counted]
  unfold Sequence.step
  rw [exhausted, reached]
  split
  · exact .ended
  · split
    · exact .ended
    · generalize s.scan.step s.plan = step, s'.scan.step s'.plan = step' at scans
      cases scans with
      | @skip scan =>
        exact .skip ⟨⟨compares.limit, compares.old, compares.past, compares.early⟩, rfl, last,
          counted, rfl⟩
      | emit related => exact twin.take related _
      | stop => exact .ended
      | outOfRange => exact .outOfRange

/-- Whether a step goes on with a sequence. -/
def GoesOn (s u : Sequence) : Prop := s.step = .skip u ∨ ∃ t, s.step = .found t u

theorem GoesOn.plan {u : Sequence} (on : s.GoesOn u) : u.plan = s.plan := (step_lt on).1

/-- What goes on has made a step of its scan. -/
theorem GoesOn.scan {u : Sequence} (on : s.GoesOn u) :
    s.scan.step s.plan = .skip u.scan ∨ ∃ t, s.scan.step s.plan = .emit t u.scan := by
  have stepped := s.stepped
  rcases on with step | ⟨t, step⟩
  · rw [step] at stepped
    cases stepped with
    | scanned _ _ scanned => exact .inl scanned
    | repeated _ _ emitted => exact .inr ⟨_, emitted⟩
    | early _ _ emitted => exact .inr ⟨_, emitted⟩
  · rw [step] at stepped
    cases stepped with
    | found _ _ emitted => exact .inr ⟨_, emitted⟩

/-- How far the runs of two sequences go together: to their end, or to where they part. -/
inductive Together (R : Zoned → Zoned → Prop) (Part : Sequence → Sequence → Prop)
    (s s' : Sequence) : Prop where
  | wholly {ts ts' : List Zoned} {ending : Ending} (related : List.Forall₂ R ts ts')
      (run : s.run = (ts, ending)) (run' : s'.run = (ts', ending))
  | upTo {ts ts' : List Zoned} {u u' : Sequence} (related : List.Forall₂ R ts ts')
      (twin : Twin R u u') (part : Part u u') (run : s.run = (ts ++ u.run.1, u.run.2))
      (run' : s'.run = (ts' ++ u'.run.1, u'.run.2))

namespace Together

variable {Part : Sequence → Sequence → Prop} {u u' : Sequence} {t t' : Zoned}

theorem skip (together : Together R Part u u') (step : s.step = .skip u)
    (step' : s'.step = .skip u') : Together R Part s s' := by
  rcases together with ⟨related, run, run'⟩ | ⟨related, twin, part, run, run'⟩
  · exact .wholly related ((run_skip step).trans run) ((run_skip step').trans run')
  · exact .upTo related twin part ((run_skip step).trans run) ((run_skip step').trans run')

theorem found (together : Together R Part u u') (first : R t t') (step : s.step = .found t u)
    (step' : s'.step = .found t' u') : Together R Part s s' := by
  rcases together with ⟨related, run, run'⟩ | ⟨related, twin, part, run, run'⟩
  · exact .wholly (.cons first related) (by rw [run_found step, run]) (by rw [run_found step', run'])
  · exact .upTo (.cons first related) twin part (by rw [run_found step, run]; rfl)
      (by rw [run_found step', run']; rfl)

end Together

/-- Twins go together until they part. -/
theorem Twin.together (Inv Part : Sequence → Sequence → Prop)
    (scans : ∀ s s', Twin R s s' → Inv s s' →
      Scan.StepTwin R (s.scan.step s.plan) (s'.scan.step s'.plan) ∨ Part s s')
    (inv_next : ∀ s s' u u', Inv s s' → s.GoesOn u → s'.GoesOn u' → Inv u u')
    (twin : Twin R s s') (inv : Inv s s') : Together R Part s s' := by
  have steps {s s' : Sequence} (twin : Twin R s s') (inv : Inv s s') :
      StepTwin R s.step s'.step ∨ Part s s' := (scans s s' twin inv).imp_left twin.step
  induction s using stepInduction generalizing s' with
  | skip s u step ih =>
    rcases steps twin inv with steps | part
    · rw [step] at steps
      generalize step' : s'.step = next at steps
      cases steps with
      | skip twin' =>
        exact (ih twin' (inv_next s s' _ _ inv (.inl step) (.inl step'))).skip step step'
    · exact .upTo .nil twin part rfl rfl
  | found s t u step ih =>
    rcases steps twin inv with steps | part
    · rw [step] at steps
      generalize step' : s'.step = next at steps
      cases steps with
      | found related twin' =>
        exact (ih twin' (inv_next s s' _ _ inv (.inr ⟨t, step⟩) (.inr ⟨_, step'⟩))).found related
          step step'
    · exact .upTo .nil twin part rfl rfl
  | ended s u step =>
    rcases steps twin inv with steps | part
    · rw [step] at steps
      generalize step' : s'.step = next at steps
      cases steps with
      | ended => exact .wholly .nil (run_ended step) (run_ended step')
    · exact .upTo .nil twin part rfl rfl
  | outOfRange s u step =>
    rcases steps twin inv with steps | part
    · rw [step] at steps
      generalize step' : s'.step = next at steps
      cases steps with
      | outOfRange => exact .wholly .nil (run_outOfRange step) (run_outOfRange step')
    · exact .upTo .nil twin part rfl rfl

end Sequence

end Almanac
