import Almanac.Proofs.Schedule.Playing

set_option autoImplicit false

/-!
Schedules do not disturb each other.

Where no schedule depends on the zone that the clock takes over from another, and handlers keep to
their sessions, what becomes of the schedules of a place is what their share comes to by the actions
at this place and the moves of the clock. So it is the same when nothing is added or removed elsewhere.
-/

namespace Almanac

variable {α : Type}

/-- The setting in which schedules are added at the place that is watched only. -/
def Setting.alone (σ : Setting) : Setting := { σ with slots := (· = σ.slot) }

namespace Agenda

open Run

variable {a b b' : Agenda α} {σ : Setting} {s t : Share α} {deeds deeds' : List (Deed α)}
  {action : Action α} {goes : Run α → Run α → Prop} {r : Run α} {ids : List HandleId} {now : Zoned}

section Alone

theorem used_of_keepsTo (kept : action.keepsTo σ.schedulers σ.slot = true) (q : Slot)
    (place : action.place? σ.schedulers = some q) : q = σ.slot := by
  rw [Action.keepsTo, place] at kept
  simpa using kept

/-- Where nothing is added elsewhere, no handle is stuck in an advance that comes to something. -/
theorem not_stuck_alone {micros : Int} {goal : Zoned} (shows : σ.reckoning.Shows b.clock)
    (holds : σ.reckoning.Holds (σ.reckoning.place b.clock + micros))
    (acts : s.Acts σ (σ.reckoning.reading b.clock) (.advance micros) t now)
    (added : b.clock.add? micros = some goal) : ¬Stuck σ.alone b.clock goal ids s := by
  simp only [Share.Acts, shows.reading_add? holds, added] at acts
  exact not_stuck (σ := σ.alone) (fun q only => only) acts.1 acts.2.1

/-- An action that keeps to the place comes to the same when it is played where nothing is added
elsewhere. -/
theorem concludes_alone (regular : b.Regular σ.alone [] ids s)
    (outer : action.Outer σ.reckoning σ.keys σ.nests)
    (holds : ∀ micros, action.moves? = some micros →
      σ.reckoning.Holds (σ.reckoning.place b.clock + micros))
    (kept : action.keepsTo σ.schedulers σ.slot = true)
    (acts : s.Acts σ (σ.reckoning.reading b.clock) action t now)
    (path : Relation.ReflTransGen Goes (Run.start b action) r) (ended : r.activities = []) :
    σ.reckoning.reading r.agenda.clock = now ∧ r.agenda.Regular σ.alone []
      (ids ++ (Deed.added? σ.schedulers σ.slot ⟨action, r.outcome⟩).toList) t := by
  obtain ⟨-, u, acts', regular'⟩ := Run.concludes (σ := σ.alone) (fun _ _ step => step) regular outer
    (used_of_keepsTo kept) holds path ended fun micros goal r r' same added step stuck => by
      subst same
      exact not_stuck_alone regular.reckoned.clock (holds micros rfl) acts added stuck.1
  obtain ⟨rfl, same⟩ := acts'.unique acts
  exact ⟨same, regular'⟩

theorem exists_end_alone (none : ¬σ.nests) (regular : b.Regular σ.alone [] ids s)
    (outer : action.Outer σ.reckoning σ.keys σ.nests)
    (holds : ∀ micros, action.moves? = some micros →
      σ.reckoning.Holds (σ.reckoning.place b.clock + micros))
    (kept : action.keepsTo σ.schedulers σ.slot = true)
    (acts : s.Acts σ (σ.reckoning.reading b.clock) action t now) :
    ∃ r, Relation.ReflTransGen Goes (Run.start b action) r ∧ r.activities = [] := by
  by_cases advance : ∃ micros, action = .advance micros
  · obtain ⟨micros, rfl⟩ := advance
    rcases start_advance regular micros (holds micros rfl) with
      ⟨goal, added, shows, advances⟩ | ⟨-, failed⟩
    · have free : ¬Stuck σ.alone b.clock goal ids s :=
        not_stuck_alone regular.reckoned.clock (holds micros rfl) acts added
      exact Advances.exists_end (σ := σ.alone) none free regular.reckoned.clock shows advances
    · exact ⟨_, .refl, by rw [failed]; rfl⟩
  · have concludes := concludes_start (σ := σ.alone) regular outer (used_of_keepsTo kept) holds
      fun micros same => advance ⟨micros, same⟩
    exact ⟨_, .refl, concludes.ended⟩

end Alone

/-- What holds once deeds have been played, among which no handle failed to be armed again: all is in
order, and so is what comes of the deeds that keep to the place, with the same share and the clock
read alike. These can be played where handlers dispatch no events. -/
structure Apart (σ : Setting) (a : Agenda α) (deeds : List (Deed α)) (b : Agenda α) (t : Share α) :
    Prop where
  regular : b.Regular σ [] (Deed.handles σ.schedulers σ.slot deeds) t
  ahead : σ.reckoning.place b.clock ≤ σ.reckoning.place a.clock + Deed.ahead deeds
  alone : ∀ deeds' b', a.Plays Goes deeds' b' → deeds'.map Deed.action =
      (deeds.map Deed.action).filter (Action.keepsTo σ.schedulers σ.slot) →
    σ.reckoning.reading b'.clock = σ.reckoning.reading b.clock ∧
      b'.Regular σ.alone [] (Deed.handles σ.schedulers σ.slot deeds') t
  playable : ¬σ.nests → ∃ deeds' b', a.Plays Goes deeds' b' ∧ deeds'.map Deed.action =
    (deeds.map Deed.action).filter (Action.keepsTo σ.schedulers σ.slot)

theorem Apart.nil (start : a.Regular σ [] [] s) (start' : a.Regular σ.alone [] [] s) :
    Apart σ a [] a s := by
  refine ⟨start, by simp [Deed.ahead], fun deeds' b' plays same => ?_, fun _ => ⟨[], a, .nil, rfl⟩⟩
  cases plays with
  | nil => exact ⟨rfl, start'⟩
  | snoc => simp at same

section Deed

variable (apart : Apart σ a deeds b s)
  (acts : s.Acts σ (σ.reckoning.reading b.clock) action t (σ.reckoning.reading r.agenda.clock))
  (regular : r.agenda.Regular σ []
    (Deed.handles σ.schedulers σ.slot (deeds ++ [⟨action, r.outcome⟩])) t)
  (holds : ∀ micros, action.moves? = some micros →
    σ.reckoning.Holds (σ.reckoning.place b.clock + micros))
include apart acts regular holds

theorem Apart.ahead_concat : σ.reckoning.place r.agenda.clock ≤
    σ.reckoning.place a.clock + Deed.ahead (deeds ++ [⟨action, r.outcome⟩]) := by
  have shows := apart.regular.reckoned.clock
  have reached := acts.place_le shows.reading (shows.place_reading.symm ▸ holds)
  rw [shows.place_reading, regular.reckoned.clock.place_reading] at reached
  have before := apart.ahead
  simp only [Deed.ahead, List.map_append, List.map_singleton, List.sum_append, List.sum_singleton]
    at before ⊢
  omega

/-- A deed elsewhere does not count. -/
theorem Apart.elsewhere (other : action.keepsTo σ.schedulers σ.slot = false) :
    Apart σ a (deeds ++ [⟨action, r.outcome⟩]) r.agenda t := by
  have same : ((deeds ++ [(⟨action, r.outcome⟩ : Deed α)]).map Deed.action).filter
      (Action.keepsTo σ.schedulers σ.slot) =
      (deeds.map Deed.action).filter (Action.keepsTo σ.schedulers σ.slot) := by
    simp [other]
  have ahead := apart.ahead_concat acts regular holds
  obtain ⟨rfl, now⟩ := acts.elsewhere other
  refine ⟨regular, ahead, ?_, ?_⟩
  · rw [same, now]
    exact apart.alone
  · rw [same]
    exact apart.playable

/-- A deed that keeps to the place comes to the same where it is played with those only. -/
theorem Apart.keepsTo (outer : action.Outer σ.reckoning σ.keys σ.nests)
    (kept : action.keepsTo σ.schedulers σ.slot = true) :
    Apart σ a (deeds ++ [⟨action, r.outcome⟩]) r.agenda t := by
  have script : ((deeds ++ [(⟨action, r.outcome⟩ : Deed α)]).map Deed.action).filter
      (Action.keepsTo σ.schedulers σ.slot) =
      (deeds.map Deed.action).filter (Action.keepsTo σ.schedulers σ.slot) ++ [action] := by
    simp [kept]
  have stands {c : Agenda α} {ids : List HandleId} (regular' : c.Regular σ.alone [] ids s)
      (clock : σ.reckoning.reading c.clock = σ.reckoning.reading b.clock) :
      σ.reckoning.place b.clock = σ.reckoning.place c.clock :=
    ((regular'.reckoned.clock.reading_eq_iff apart.regular.reckoned.clock).mp clock).symm
  refine ⟨regular, apart.ahead_concat acts regular holds, fun deeds' b' plays same => ?_,
    fun none => ?_⟩
  · rw [script] at same
    obtain ⟨earlier, c, r', played, before, path, ended, rfl, rfl⟩ := plays.last same
    obtain ⟨clock, regular'⟩ := apart.alone earlier c played before
    rw [← clock] at acts
    rw [stands regular' clock] at holds
    rw [Deed.handles_concat]
    exact concludes_alone regular' outer holds kept acts path ended
  · obtain ⟨earlier, c, played, before⟩ := apart.playable none
    obtain ⟨clock, regular'⟩ := apart.alone earlier c played before
    rw [← clock] at acts
    rw [stands regular' clock] at holds
    obtain ⟨r', path, ended⟩ := exists_end_alone none regular' outer holds kept acts
    refine ⟨_, _, played.snoc path ended, ?_⟩
    rw [script, List.map_append, before]
    rfl

end Deed

theorem Plays.apart (start : a.Regular σ [] [] s) (start' : a.Regular σ.alone [] [] s)
    (all : ∀ q, σ.slots q) (full : a.Plays GoesCalmly deeds b)
    (outer : ∀ d ∈ deeds, d.action.Outer σ.reckoning σ.keys σ.nests)
    (stays : σ.reckoning.Holds (σ.reckoning.place a.clock + Deed.ahead deeds)) :
    ∃ t, Apart σ a deeds b t := by
  induction full with
  | nil => exact ⟨s, .nil start start'⟩
  | @snoc deeds b action r plays path ended ih =>
    obtain ⟨earlier, last⟩ := List.forall_mem_append.mp outer
    have outer : action.Outer σ.reckoning σ.keys σ.nests := last ⟨action, r.outcome⟩ List.mem_cons_self
    have total : Deed.ahead (deeds ++ [⟨action, r.outcome⟩]) = Deed.ahead deeds + action.ahead := by
      simp [Deed.ahead]
    rw [total] at stays
    obtain ⟨t, apart⟩ := ih earlier
      (start.reckoned.clock.holds.between stays (by omega) (by omega))
    have holds (micros : Int) (moves : action.moves? = some micros) :
        σ.reckoning.Holds (σ.reckoning.place b.clock + micros) := by
      refine (outer.allows moves).holds apart.regular.reckoned.clock.holds stays ?_
      have reached := apart.ahead
      rw [Action.ahead, moves, Option.getD_some]
      omega
    obtain ⟨-, u, acts, regular⟩ := Run.concludes (fun _ _ step => step.1) apart.regular outer
      (fun q _ => all q) holds path ended fun _ _ _ _ _ _ step stuck => step.2 stuck.2
    rw [← Deed.handles_concat] at regular
    cases kept : action.keepsTo σ.schedulers σ.slot with
    | true => exact ⟨u, apart.keepsTo acts regular holds outer kept⟩
    | false => exact ⟨u, apart.elsewhere acts regular holds kept⟩

theorem regular_start {clock : Zoned} (shows : σ.reckoning.Shows clock) (revocable : Bool) :
    (Agenda.start clock revocable σ.sessions σ.schedulers : Agenda α).Regular σ [] [] ⟨[], []⟩ := by
  have none (h : HandleId) :
      (Agenda.start clock revocable σ.sessions σ.schedulers : Agenda α).core? h = none := rfl
  refine ⟨sound_start _ _ _ _, orderly_start _ _ _ _, ?_, rfl, ?_, ⟨shows, ?_, ?_⟩,
    ⟨List.nodup_nil, ?_⟩, ⟨rfl, rfl⟩⟩
  · intro s there
    rw [eq_empty_of_start there]
    exact Session.tame_empty _
  · simp [names, Agenda.start, Session.empty, Function.comp_def]
  · exact List.forall_mem_nil _
  · intro h x found
    rw [none] at found
    cases found
  · intro h x found
    rw [none] at found
    cases found

end Agenda

/-- Schedules do not disturb each other. Schedules are added and removed while the clock is advanced or
set, with handlers that keep to their sessions, and no handle fails to be armed again. Then the
schedules of one place come to the same, with all their dispatches and the clock at each, when nothing
is added or removed at other places. Unless handlers dispatch events themselves, all that is left can
be played to its end. As this holds of whatever has been done, it holds after each action.

The clock and the rules of all schedules may be in one zone, in which no wall time is read with a fold.
Or they are at any offsets of whole seconds, the clock never moves back, and it stays a day away from
the ends of the calendar. There it is told in UTC what the clock shows and when a schedule was made,
and each rule that is read has a start of its own: else it would start in the zone of the clock, which
the clock may have taken over from another schedule. -/
theorem Run.schedules_independent (ρ : Reckoning) {clock : Zoned} (shows : ρ.Shows clock)
    (revocable : Bool) (sessions : List String) (schedulers : List (String × Config)) (slot : Slot)
    {nests : Prop} {deeds : List (Deed α)} {b : Agenda α}
    (plays : (Agenda.start clock revocable sessions schedulers).Plays GoesCalmly deeds b)
    (outer : ∀ d ∈ deeds, d.action.Outer ρ (schedulers.map fun e => e.2.heapKey) nests)
    (stays : ρ.Holds (ρ.place clock + Deed.ahead deeds)) :
    (∀ deeds' b', (Agenda.start clock revocable sessions schedulers).Plays Goes deeds' b' →
      deeds'.map Deed.action = (deeds.map Deed.action).filter (Action.keepsTo schedulers slot) →
      ρ.reading b'.clock = ρ.reading b.clock ∧
      (Deed.handles schedulers slot deeds').map (b'.coreBy? ρ) =
        (Deed.handles schedulers slot deeds).map (b.coreBy? ρ) ∧
      b'.dispatchesOf ρ (Deed.handles schedulers slot deeds') =
        b.dispatchesOf ρ (Deed.handles schedulers slot deeds)) ∧
    (¬nests → ∃ deeds' b', (Agenda.start clock revocable sessions schedulers).Plays Goes deeds' b' ∧
      deeds'.map Deed.action = (deeds.map Deed.action).filter (Action.keepsTo schedulers slot)) := by
  let σ : Setting := ⟨ρ, schedulers, sessions, fun _ => True, slot, nests⟩
  obtain ⟨t, apart⟩ := plays.apart (σ := σ) (Agenda.regular_start shows revocable)
    (Agenda.regular_start (σ := σ.alone) shows revocable) (fun _ => trivial) outer stays
  refine ⟨fun deeds' b' plays' same => ?_, apart.playable⟩
  obtain ⟨clock, regular⟩ := apart.alone deeds' b' plays' same
  exact ⟨clock, regular.shown.schedules.trans apart.regular.shown.schedules.symm,
    regular.shown.dispatches.trans apart.regular.shown.dispatches.symm⟩

/-! Two schedules that start at one instant. -/

namespace twoHours

/-- The instant at which the rule starts, as it is shown two hours further east. -/
def east : Zoned := ⟨⟨63082288800000000, by decide⟩, .fixed ⟨7200000000, by decide⟩, false⟩

def earlier : Zoned := ⟨⟨63082278000000000, by decide⟩, .utc, false⟩

/-- The rule as it is compiled there. -/
def eastern : Rule := { twoHours with start := east }

def eastSecond : Zoned := ⟨⟨63082292400000000, by decide⟩, east.zone, false⟩

/-- What is left of a rule once the last of `n` occurrences has been taken. -/
def left (r : Rule) (now : Zoned) (hour : Nat) (last : Zoned) (n : Nat) : Sequence :=
  { Sequence.ofRule r (some now) with
    scan := .opened hour 2000 2000 [], last := some last, counted := n }

theorem seek_eastern {passOver : Zoned → Bool} (kept : passOver east = false) :
    (Sequence.ofRule eastern (some earlier)).seek passOver 0 =
      (.found east, 0, left eastern earlier 17522859 east 1) := by
  have opened : (Sequence.ofRule eastern (some earlier)).step =
    .skip { Sequence.ofRule eastern (some earlier) with
      scan := .opened 17522858 2000 2000 [] } := rfl
  have hour : ({ Sequence.ofRule eastern (some earlier) with
      scan := .opened 17522858 2000 2000 [] } : Sequence).step =
    .skip { Sequence.ofRule eastern (some earlier) with
      scan := .opened 17522859 2000 2000 [63082288800000000] } := rfl
  rw [Sequence.seek_skip opened, Sequence.seek_skip hour]
  exact Sequence.seek_found rfl kept

theorem seek_eastSecond {passOver : Zoned → Bool} (kept : passOver eastSecond = false) :
    (left eastern earlier 17522859 east 1).seek passOver 0 =
      (.found eastSecond, 0, left eastern earlier 17522860 eastSecond 2) := by
  have hour : (left eastern earlier 17522859 east 1).step =
    .skip { left eastern earlier 17522859 east 1 with
      scan := .opened 17522860 2000 2000 [63082292400000000] } := rfl
  rw [Sequence.seek_skip hour]
  exact Sequence.seek_found rfl kept

theorem seek_fromEast {passOver : Zoned → Bool} (kept : passOver twoHours.start = false) :
    (Sequence.ofRule twoHours (some east)).seek passOver 0 =
      (.found twoHours.start, 0, left twoHours east 17522857 twoHours.start 1) := by
  have opened : (Sequence.ofRule twoHours (some east)).step =
    .skip { Sequence.ofRule twoHours (some east) with
      scan := .opened 17522856 2000 2000 [] } := rfl
  have hour : ({ Sequence.ofRule twoHours (some east) with
      scan := .opened 17522856 2000 2000 [] } : Sequence).step =
    .skip { Sequence.ofRule twoHours (some east) with
      scan := .opened 17522857 2000 2000 [63082281600000000] } := rfl
  rw [Sequence.seek_skip opened, Sequence.seek_skip hour]
  exact Sequence.seek_found rfl kept

/-- Once the schedule in the east has been added, an hour before it starts. -/
def waiting : Agenda Nat :=
  .first earlier "other" "hour" eastern (left eastern earlier 17522859 east 1) east

theorem addSchedule_eastern :
    (Agenda.single earlier).addSchedule {} "inbox" "other" "hour" (.compiled spec east) [] =
      (waiting, .ok 0) :=
  addSchedule_first eastern (by decide +kernel) rfl (seek_eastern rfl)

def unhandled : Happening Nat :=
  .logged ⟨.warning, "Session " ++ Text.quoted "inbox" ++ " has no handler for event " ++
    Text.quoted "hour"⟩

/-- Its handle in its first dispatch. -/
def fired : Handle Nat :=
  { firstHandle "other" "hour" (left eastern earlier 17522859 east 1) east (some 0) with
    timer := none, fired := 1 }

def eastFiring : Agenda Nat :=
  { waiting with
    clock := east
    pending := []
    handles := [fired]
    journal := unhandled :: .dispatched 0 east east :: waiting.journal }

/-- Once it has been armed again. -/
def eastAgain : Agenda Nat :=
  { eastFiring with
    pending := [⟨1, eastSecond, 0⟩]
    nextEntry := 2
    handles := [{ fired with
      sequence := left eastern earlier 17522860 eastSecond 2
      timer := some 1
      nextFire := some eastSecond }]
    journal := .logged ⟨.debug, "Schedule " ++ Text.quoted "other" ++ " armed for " ++
      eastSecond.text⟩ :: eastFiring.journal }

theorem path_advance : Relation.ReflTransGen Run.GoesCalmly
    (Run.start waiting (.advance 3600000000)) ⟨eastAgain, [], some (.ok (.count 1))⟩ := by
  have calm {r r' : Run Nat} (step : r.step? = some r') (fine : ∀ f, r'.outcome ≠ some (.error f)) :
      r.GoesCalmly r' := ⟨step, fun ⟨_, f, failed⟩ => fine f failed⟩
  have goal : earlier.add? 3600000000 = some twoHours.start :=
    Zoned.add?_eq_some_iff.mpr ⟨rfl, rfl, rfl⟩
  have start : Run.start waiting (.advance 3600000000) =
      ⟨waiting, [.advancing twoHours.start 0], none⟩ := by
    rw [Run.start, Run.perform, show waiting.clock.add? 3600000000 = _ from goal]
    rfl
  have fires : Run.step? (⟨waiting, [.advancing twoHours.start 0], none⟩ : Run Nat) =
    some ⟨eastFiring, [.firing 0 "inbox", .advancing twoHours.start 1], some (.ok .nothing)⟩ := rfl
  have rearm : eastFiring.rearm 0 = (eastAgain, .ok ()) := by
    have next : fired.sequence.seek (fun t => true && t.before eastFiring.clock) 0 = _ :=
      seek_eastSecond rfl
    show Agenda.arm _ 0 fired true = _
    rw [Agenda.arm_found next]
    rfl
  have rearms : Run.step? ⟨eastFiring, [.firing 0 "inbox", .advancing twoHours.start 1],
      some (.ok .nothing)⟩ = some ⟨eastAgain, [.advancing twoHours.start 1], some (.ok .nothing)⟩ := by
    have ends : Run.stepFiring eastFiring [.advancing twoHours.start 1] 0 (some (.ok .nothing)) =
        Run.reply eastAgain [.advancing twoHours.start 1] .nothing := by
      unfold Run.stepFiring
      dsimp only
      rw [rearm]
    exact congrArg (fun r : Run Nat => some r.settle) ends
  have ends : Run.step? (⟨eastAgain, [.advancing twoHours.start 1], some (.ok .nothing)⟩ : Run Nat) =
    some ⟨eastAgain, [], some (.ok (.count 1))⟩ := rfl
  rw [start]
  refine .head (calm fires ?_) (.head (calm rearms ?_) (.head (calm ends ?_) .refl)) <;> simp

/-- The rule in UTC with a start of its own. -/
def starting : Spec :=
  .map [("freq", .frequency .hourly), ("count", .int 2), ("dtstart", .stamp twoHours.start)]

/-- The handle of a schedule in UTC that is added while the clock shows the time in the east. -/
def joining (registry : Option RegistryId) : Handle Nat :=
  { added registry with sequence := left twoHours east 17522857 twoHours.start 1, timer := some 2 }

def joined : Agenda Nat :=
  { eastAgain with
    pending := [⟨1, eastSecond, 0⟩, ⟨2, twoHours.start, 1⟩]
    nextEntry := 3
    handles := eastAgain.handles ++ [joining (some 0)]
    registries := [(0, ⟨[("other", 0), ("hour", 1)]⟩)]
    journal := .logged ⟨.info, "Schedule " ++ Text.quoted "hour" ++ " added: event " ++
      Text.quoted "hour" ++ ", " ++ twoHours.text⟩ :: armedFor twoHours.start ::
      eastAgain.journal }

theorem addSchedule_joined :
    eastAgain.addSchedule {} "inbox" "hour" "hour" (.spec starting) [] = (joined, .ok 1) := by
  have rule : (RuleSource.spec starting).rule { eastAgain.clock with
      wall := eastAgain.clock.wall.wholeSecond } = .ok twoHours := rfl
  have obtained : eastAgain.obtainRegistry "inbox" defaultHeapKey =
    (eastAgain, 0, ⟨[("other", 0)]⟩) := rfl
  have create : eastAgain.create "inbox" "hour" "hour" twoHours [] true
      { eastAgain.clock with wall := eastAgain.clock.wall.wholeSecond } =
      ({ joined with
        handles := eastAgain.handles ++ [joining none]
        registries := eastAgain.registries
        journal := armedFor twoHours.start :: eastAgain.journal }, .ok 1) := by
    unfold Agenda.create
    dsimp only
    rw [Agenda.arm_eq (seek_fromEast rfl)]
    rfl
  unfold Agenda.addSchedule
  dsimp only
  rw [rule]
  dsimp only at create ⊢
  rw [obtained]
  dsimp only
  rw [Bool.not_true, Bool.and_false, if_neg nofun, create]
  dsimp only [Agenda.noteAdded]
  rw [if_pos hasText]
  rfl

def deeds : List (Deed Nat) :=
  [⟨.add "main" "inbox" "other" "hour" (.compiled spec east) [], some (.ok (.handle (some 0)))⟩,
    ⟨.advance 3600000000, some (.ok (.count 1))⟩,
    ⟨.add "main" "inbox" "hour" "hour" (.spec starting) [], some (.ok (.handle (some 1)))⟩]

theorem plays_deeds : (Agenda.single earlier).Plays Run.GoesCalmly deeds joined := by
  have first : Run.start (Agenda.single earlier)
      (.add "main" "inbox" "other" "hour" (.compiled spec east) []) =
      ⟨waiting, [], some (.ok (.handle (some 0)))⟩ :=
    congrArg (fun made => (Run.result [] made).settle) addSchedule_eastern
  have last : Run.start eastAgain (.add "main" "inbox" "hour" "hour" (.spec starting) []) =
      ⟨joined, [], some (.ok (.handle (some 1)))⟩ :=
    congrArg (fun made => (Run.result [] made).settle) addSchedule_joined
  have fired : (Agenda.single earlier).Plays Run.GoesCalmly [deeds[0], deeds[1]] eastAgain :=
    (Agenda.Plays.nil.snoc_start first).snoc path_advance rfl
  exact fired.snoc_start last

theorem fits_starting : (RuleSource.spec starting).Fits .wholeOffsets := by
  refine RuleSource.fits_spec (fun ps read => ?_) fun now rule read => ?_
  · have params : starting.params = .ok [(.freq, .frequency .hourly), (.count, .int 2),
      (.start, .stamp twoHours.start)] := rfl
    cases params.symm.trans read
    exact Option.some_ne_none _
  · have same : starting.rule now = .ok twoHours := rfl
    cases same.symm.trans read
    exact Zone.isWhole_utc

theorem fits_eastern : (RuleSource.compiled spec east).Fits .wholeOffsets := by
  refine RuleSource.fits_compiled fun rule read => ?_
  have same : spec.rule east = .ok eastern := rfl
  cases same.symm.trans read
  exact ⟨_, rfl, rfl⟩

theorem outer_deeds : ∀ d ∈ deeds, d.action.Outer .wholeOffsets [defaultHeapKey] False := by
  have forward : Reckoning.wholeOffsets.Allows 3600000000 := show (0 : Int) ≤ 3600000000 by decide
  exact List.forall_mem_cons.mpr ⟨.add _ _ _ _ _ fits_eastern, List.forall_mem_cons.mpr
    ⟨.advance forward, List.forall_mem_singleton.mpr (.add _ _ _ _ _ fits_starting)⟩⟩

/-- In UTC alone, where the rule starts when it is added: nothing is removed elsewhere. -/
def utcDeeds : List (Deed Nat) :=
  [⟨.add "main" "inbox" "hour" "hour" (.spec spec) [], some (.ok (.handle (some 0)))⟩,
    ⟨.remove "main" "inbox" "other", some (.ok (.truth false))⟩]

theorem plays_utcDeeds : scheduling.Plays Run.GoesCalmly utcDeeds stored := by
  have first : Run.start scheduling (.add "main" "inbox" "hour" "hour" (.spec spec) []) =
      ⟨stored, [], some (.ok (.handle (some 0)))⟩ :=
    congrArg (fun made => (Run.result [] made).settle) addSchedule_eq
  have last : Run.start stored (.remove "main" "inbox" "other") =
    ⟨stored, [], some (.ok (.truth false))⟩ := rfl
  exact (Agenda.Plays.nil.snoc_start first).snoc_start last

def inUtc : Reckoning := .oneZone .utc (Zone.plain_fixed .zero)

theorem fits_spec : (RuleSource.spec spec).Fits inUtc := by
  refine RuleSource.fits_oneZone fun now rule at_ read => ?_
  obtain ⟨wall, zone, fold⟩ := now
  obtain ⟨rfl, rfl⟩ := at_
  have same : (RuleSource.spec spec).rule (⟨wall, .utc, false⟩ : Zoned) =
    .ok { twoHours with start := ⟨wall.wholeSecond, .utc, false⟩ } := rfl
  cases same.symm.trans read
  rfl

/-- The schedule in UTC comes to the same where the one in the east is not added, from which the clock
has taken over its zone. So it does in UTC alone, where nothing is removed elsewhere. -/
theorem independent_deeds : (joined.clock = east ∧ ∃ deeds' b',
      (Agenda.single earlier).Plays Run.Goes deeds' b' ∧
      deeds'.map Deed.action = [.advance 3600000000,
        .add "main" "inbox" "hour" "hour" (.spec starting) []] ∧
      Reckoning.wholeOffsets.reading b'.clock = twoHours.start ∧
      (Deed.handles [("main", {})] ⟨"inbox", defaultHeapKey, "hour"⟩ deeds').map
        (b'.coreBy? .wholeOffsets) = [some { joining none with
          sequence := left twoHours twoHours.start 17522857 twoHours.start 1, timer := none }]) ∧
    ∃ deeds' b', scheduling.Plays Run.Goes deeds' b' ∧
      deeds'.map Deed.action = [.add "main" "inbox" "hour" "hour" (.spec spec) []] ∧
      b'.clock = twoHours.start ∧
      (Deed.handles [("main", {})] ⟨"inbox", defaultHeapKey, "hour"⟩ deeds').map b'.core? =
        [stored.core? 0] := by
  constructor
  · have shows : Reckoning.wholeOffsets.Shows earlier :=
      ⟨Zone.isWhole_utc, by decide, by decide⟩
    obtain ⟨same, playable⟩ := Run.schedules_independent .wholeOffsets shows true ["inbox"]
      [("main", {})] ⟨"inbox", defaultHeapKey, "hour"⟩ plays_deeds outer_deeds
      ⟨by decide, by decide⟩
    obtain ⟨deeds', b', plays, script⟩ := playable id
    obtain ⟨clock, cores, -⟩ := same deeds' b' plays script
    exact ⟨rfl, deeds', b', plays, script, clock.trans rfl, cores.trans rfl⟩
  · have outer : ∀ d ∈ utcDeeds, d.action.Outer inUtc [defaultHeapKey] False :=
      List.forall_mem_cons.mpr ⟨.add _ _ _ _ _ fits_spec, List.forall_mem_singleton.mpr
        (.remove _ _ _)⟩
    obtain ⟨same, playable⟩ := Run.schedules_independent inUtc ⟨⟨rfl, rfl⟩, trivial⟩ true ["inbox"]
      [("main", {})] ⟨"inbox", defaultHeapKey, "hour"⟩ plays_utcDeeds outer trivial
    obtain ⟨deeds', b', plays, script⟩ := playable id
    obtain ⟨clock, cores, -⟩ := same deeds' b' plays script
    have told (a : Agenda Nat) : a.coreBy? inUtc = a.core? := Agenda.coreBy?_oneZone _
    rw [told, told] at cores
    exact ⟨deeds', b', plays, script, clock, cores⟩

end twoHours

end Almanac
