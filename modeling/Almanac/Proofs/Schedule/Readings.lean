import Almanac.Proofs.Occurrence.Reread
import Almanac.Proofs.Schedule.Cores

set_option autoImplicit false

/-!
What schedules make of the clock.

A handle keeps the time at which it was made as the point of departure of its occurrences, and a rule
may take its start from it. Of this time only a reading is told. That is enough to say what becomes of
the handle, where a rule that is read gives the same for each reading of an instant.
-/

namespace Almanac

variable {α : Type} {ρ : Reckoning}

/-- Whatever the clock shows for an instant, the same rule is read from the source, and it starts in
one of the zones. -/
structure RuleSource.Fits (ρ : Reckoning) (source : RuleSource) : Prop where
  same : ∀ now, ρ.Shows now → source.rule (ρ.reading now) = source.rule now
  starts : ∀ now rule, ρ.Shows now → source.rule now = .ok rule → ρ.Zones rule.start.zone

/-- Where a start is given the time does not matter. -/
theorem Rule.ofParams_of_start {ps : Params} (given : ps.get? .start ≠ none) (now now' : Stamp) :
    ofParams ps now = ofParams ps now' := by
  obtain ⟨v, given⟩ := Option.ne_none_iff_exists'.mp given
  have read : ps.read .start (Value.instant .start .utc) =
      some <$> Value.instant .start .utc v := by
    rw [Params.read, given]
    rfl
  simp only [ofParams, read, bind_map_left, Option.getD_some]

theorem Spec.rule_of_start {spec : Spec}
    (given : ∀ ps, spec.params = .ok ps → ps.get? .start ≠ none) (now now' : Stamp) :
    spec.rule now = spec.rule now' := by
  unfold Spec.rule
  cases read : spec.params with
  | error e => simp only [bind, Except.bind]
  | ok ps =>
    simp only [bind, Except.bind]
    exact Rule.ofParams_of_start (given ps read) now now'

namespace RuleSource

/-- In one zone it is enough that rules start there. -/
theorem fits_oneZone {zone : Zone} {plain : zone.Plain} {source : RuleSource}
    (starts : ∀ (now : Zoned) (rule : Rule), now.At zone → source.rule now = .ok rule →
      rule.start.zone = zone) : source.Fits (.oneZone zone plain) :=
  ⟨fun _ _ => rfl, fun now rule shows => starts now rule shows.admits⟩

/-- A specification that gives a start itself fits where this start does. -/
theorem fits_spec {s : Spec} (given : ∀ ps, s.params = .ok ps → ps.get? .start ≠ none)
    (starts : ∀ now rule, s.rule now = .ok rule → ρ.Zones rule.start.zone) :
    (spec s).Fits ρ :=
  ⟨fun _ _ => s.rule_of_start given _ _, fun now rule _ => starts now rule⟩

/-- So does a rule that was compiled earlier. -/
theorem fits_compiled {s : Spec} {earlier : Stamp}
    (starts : ∀ rule, s.rule earlier = .ok rule → ρ.Zones rule.start.zone) :
    (compiled s earlier).Fits ρ :=
  ⟨fun _ _ => rfl, fun _ rule _ => starts rule⟩

end RuleSource

namespace Handle

/-- The handle with its point of departure as it is told. -/
def readBy (ρ : Reckoning) (x : Handle α) : Handle α := { x with sequence := x.sequence.readBy ρ }

variable {x : Handle α} {missed missed' : Zoned → Bool} {session name event : String} {rule : Rule}
  {args : List α} {coalesce : Bool} {now : Zoned}

/-- In one zone everything is told. -/
@[simp] theorem readBy_oneZone {zone : Zone} (plain : zone.Plain) :
    x.readBy (.oneZone zone plain) = x := by
  obtain ⟨_, _, _, _, _, ⟨_, _ | _, _, _, _, _⟩, _⟩ := x <;> rfl

@[simp] theorem isArmed_readBy : (x.readBy ρ).isArmed = x.isArmed := rfl

theorem withdrawn_readBy : (x.readBy ρ).withdrawn = x.withdrawn.readBy ρ := by
  unfold withdrawn
  rw [isArmed_readBy]
  split <;> rfl

theorem sought?_readBy (fits : x.sequence.Fits ρ)
    (same : ∀ t, ρ.Admits t → missed' t = missed t) :
    (x.readBy ρ).sought? missed' = (x.sought? missed).map (readBy ρ) := by
  have seek := Sequence.seek_readBy fits same 0
  unfold sought? readBy
  rw [seek]
  generalize x.sequence.seek missed 0 = result
  obtain ⟨_ | _ | _, -, sequence⟩ := result <;> rfl

theorem sought?_fresh_reading (zone : ρ.Zones rule.start.zone) (shows : ρ.Shows now) :
    (fresh session name event rule args coalesce (ρ.reading now)).sought? missed =
      ((fresh session name event rule args coalesce now).sought? missed).map (readBy ρ) := by
  have seek := Sequence.seek_ofRule_reading missed zone shows 0
  unfold sought? fresh
  rw [seek]
  generalize (Sequence.ofRule rule (some (now : Stamp))).seek missed 0 = result
  obtain ⟨_ | _ | _, -, sequence⟩ := result <;> rfl

theorem fits_fresh (zone : ρ.Zones rule.start.zone) (shows : ρ.Shows now) :
    (fresh session name event rule args coalesce now).sequence.Fits ρ := by
  refine ⟨zone, fun t bound => ?_⟩
  cases bound
  exact shows

end Handle

end Almanac
