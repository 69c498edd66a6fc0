import Almanac.Proofs.Schedule.Delivery
import Almanac.Proofs.Schedule.Sound

set_option autoImplicit false

/-!
No occurrence of a schedule is lost, and none is dispatched twice.

In a reachable run the occurrences that a handle has consumed are the first ones of its rule. All
but the one it waits for were dispatched, each once and in order, or passed over.
-/

namespace Almanac

variable {α : Type}

namespace Fate

/-- The occurrence that was dispatched. -/
def due? : Fate → Option Zoned
  | dispatched due _ => some due
  | passedOver => none

theorem sublist_of_met {ts : List Zoned} {fates : List Fate} (met : List.Forall₂ Of ts fates) :
    (fates.filterMap due?).Sublist ts := by
  induction met with
  | nil => exact .slnil
  | cons of _ ih =>
    cases of with
    | dispatched => exact ih.cons_cons _
    | passedOver => exact ih.cons _

theorem eq_of_met {ts : List Zoned} {fates : List Fate} (met : List.Forall₂ Of ts fates)
    (all : ∀ f ∈ fates, f.isDispatch = true) :
    fates.filterMap due? = ts ∧ (fates.filter isDispatch).length = ts.length := by
  rw [List.filter_eq_self.mpr all, met.length_eq]
  refine ⟨?_, rfl⟩
  induction met with
  | nil => rfl
  | @cons t f ts fates of _ ih =>
    have rest := ih fun f member => all f (List.mem_cons_of_mem _ member)
    cases of with
    | dispatched => exact congrArg (t :: ·) rest
    | passedOver => cases all _ List.mem_cons_self

end Fate

namespace Handle

/-- What became of the occurrences of a handle that has consumed the first `k` of them and is not
inside its own dispatch. An armed handle waits for the last of these, and a cancelled one may have
been cancelled before its dispatch, or in it. -/
def Tallies (handle : Handle α) (occurrences : List Zoned) (k : Nat) (fates : List Fate) : Prop :=
  match handle.state with
  | .armed =>
    0 < k ∧ handle.nextFire = occurrences[k - 1]? ∧
      List.Forall₂ Fate.Of (occurrences.take (k - 1)) fates
  | .exhausted => k = occurrences.length ∧ List.Forall₂ Fate.Of occurrences fates
  | .cancelled =>
    0 < k ∧ ∃ earlier last, fates = earlier ++ last ∧
      List.Forall₂ Fate.Of (occurrences.take (k - 1)) earlier ∧
      (last = [] ∨ ∃ t clock, occurrences[k - 1]? = some t ∧ clock.before t = false ∧
        last = [.dispatched t clock])

variable {handle : Handle α} {occurrences : List Zoned} {revocable : Bool} {entries : List Entry}
  {busy : Nat} {fates : List Fate}

/-- What became of occurrences is known from the first on. -/
theorem Stands.met (stands : handle.Stands occurrences revocable entries busy fates) :
    ∃ past, past <+: occurrences ∧ List.Forall₂ Fate.Of past fates := by
  cases stands with
  | @waiting past _ _ _ _ _ consumed met | @cancelled past _ _ _ _ _ _ consumed _ _ met =>
    exact ⟨past, ⟨_, consumed.symm⟩, met⟩
  | @dispatching past t _ _ _ _ _ consumed met due
  | @cancelledAfter past t _ _ _ _ _ _ consumed _ met due =>
    refine ⟨past ++ [t], ⟨handle.sequence.run.1, ?_⟩,
      List.rel_append met (.cons (.dispatched due) .nil)⟩
    rw [consumed, List.append_assoc, List.singleton_append]
  | exhausted state next timer consumed met => exact ⟨occurrences, List.prefix_refl _, met⟩

theorem Stands.tallies (stands : handle.Stands occurrences revocable entries 0 fates) :
    ∃ k ≤ occurrences.length, handle.sequence.run.1 = occurrences.drop k ∧
      handle.Tallies occurrences k fates := by
  -- Where one occurrence stands between those before it and those not consumed yet.
  have split {past rest : List Zoned} {t : Zoned} (consumed : occurrences = past ++ t :: rest) :
      past.length + 1 ≤ occurrences.length ∧ rest = occurrences.drop (past.length + 1) ∧
        occurrences[past.length + 1 - 1]? = some t ∧
        occurrences.take (past.length + 1 - 1) = past := by
    subst consumed
    refine ⟨by simp, by simp, by simp, by simp⟩
  unfold Tallies
  cases stands with
  | @waiting past e fates state next timer consumed met =>
    obtain ⟨inside, rest, last, first⟩ := split consumed
    refine ⟨past.length + 1, inside, rest, ?_⟩
    rw [state, last, first]
    exact ⟨Nat.succ_pos _, next, met⟩
  | exhausted state next timer consumed met =>
    refine ⟨occurrences.length, le_rfl, ?_, ?_⟩
    · rw [consumed, List.drop_length]
    · rw [state]
      exact ⟨rfl, met⟩
  | @cancelled past t _ _ state next timer consumed few revoked met =>
    obtain ⟨inside, rest, last, first⟩ := split consumed
    refine ⟨past.length + 1, inside, rest, ?_⟩
    rw [state, last, first]
    exact ⟨Nat.succ_pos _, fates, [], (List.append_nil _).symm, met, .inl rfl⟩
  | @cancelledAfter past t clock _ earlier state next timer consumed few met due =>
    obtain ⟨inside, rest, last, first⟩ := split consumed
    refine ⟨past.length + 1, inside, rest, ?_⟩
    rw [state, last, first]
    exact ⟨Nat.succ_pos _, earlier, _, rfl, met, .inr ⟨t, clock, rfl, due, rfl⟩⟩

end Handle

/-- No occurrence is lost or dispatched twice. Of the occurrences that a fresh sequence of the rule
of a handle gives, with the same bound, the handle's own sequence has consumed the first `k` whenever
the handle is not inside its own dispatch, and each of these is accounted for. -/
theorem Run.occurrences_conserved {r : Run α} (reachable : r.Reachable) {h : HandleId}
    {handle : Handle α} (found : r.agenda.handle? h = some handle) :
    ∃ notBefore occurrences,
      (Sequence.ofRule handle.rule (some notBefore)).Alike handle.sequence ∧
      (Sequence.ofRule handle.rule (some notBefore)).run.1 = occurrences ∧
      occurrences.Pairwise (fun s t => s.before t = true) ∧
      (h ∉ r.firing → ∃ k ≤ occurrences.length, handle.sequence.run.1 = occurrences.drop k ∧
        handle.Tallies occurrences k (r.agenda.fates h)) ∧
      handle.fired = ((r.agenda.fates h).filter Fate.isDispatch).length ∧
      ((r.agenda.fates h).filterMap Fate.due?).Sublist occurrences ∧
      (handle.coalesce = false → (∀ f ∈ r.agenda.fates h, f.isDispatch = true) ∧
        (r.agenda.fates h).filterMap Fate.due? = occurrences.take handle.fired) ∧
      ∀ later earlier due clock, r.agenda.journal = later ++ .dispatched h due clock :: earlier →
        ∃ x news, Happening.Delivers handle.session handle.event handle.args x ∧
          later = news ++ [x] := by
  have sound := sound_of_reachable reachable
  obtain ⟨⟨occurrences, ⟨notBefore, alike, run⟩, stands⟩, fired, all⟩ :=
    (sound.holds h).kept handle found
  obtain ⟨past, first, met⟩ := stands.met
  refine ⟨notBefore, occurrences, alike, run, ?_, fun outside => ?_, fired,
    (Fate.sublist_of_met met).trans first.sublist, fun strict => ⟨all strict, ?_⟩, ?_⟩
  · rw [← run]
    exact Sequence.run_ofRule_rises handle.rule (some notBefore)
  · rw [List.count_eq_zero.mpr outside] at stands
    exact stands.tallies
  · obtain ⟨dispatched, number⟩ := Fate.eq_of_met met (all strict)
    rw [dispatched, fired, number]
    exact List.prefix_iff_eq_take.mp first
  · intro later earlier due clock journal
    obtain ⟨session, event, args, x, news, address, delivers, same⟩ :=
      delivered_of_reachable reachable later earlier h due clock journal
    rw [found] at address
    cases address
    exact ⟨x, news, delivers, same⟩

/-! A run with a schedule of two occurrences, whose handler fails at the first. -/

/-- The rule that recurs at the first two hours of the year 2000. -/
def twoHours : Rule where
  freq := .hourly
  start := ⟨.startOf ⟨730119, by decide⟩, .utc, false⟩
  interval := 1
  count := some 2
  finish := none
  endsBefore := none
  weekStart := .monday
  seconds := []
  minutes := []
  hours := []
  days := []
  monthDays := []
  yearDays := []
  weekNumbers := []
  months := []
  positions := []
  interval_pos := Nat.zero_lt_one

namespace twoHours

def spec : Spec := .map [("freq", .frequency .hourly), ("count", .int 2)]

def second : Zoned := ⟨⟨63082285200000000, by decide⟩, .utc, false⟩

/-- Its sequence once the last of `n` occurrences has been taken, and the hour `hour` is next. -/
def sequence (hour : Nat) (last : Zoned) (n : Nat) : Sequence :=
  { Sequence.ofRule twoHours (some twoHours.start) with
    scan := .opened hour 2000 2000 [], last := some last, counted := n }

/-- Its sequence before any occurrence has been taken. -/
def scanned (scan : Scan) : Sequence :=
  { Sequence.ofRule twoHours (some twoHours.start) with scan }

theorem seek_first {passOver : Zoned → Bool} (kept : passOver twoHours.start = false) :
    (Sequence.ofRule twoHours (some twoHours.start)).seek passOver 0 =
      (.found twoHours.start, 0, sequence 17522857 twoHours.start 1) := by
  have opened : (Sequence.ofRule twoHours (some twoHours.start)).step =
      .skip (scanned (.opened 17522856 2000 2000 [])) := rfl
  have hour : (scanned (.opened 17522856 2000 2000 [])).step =
      .skip (scanned (.opened 17522857 2000 2000 [63082281600000000])) := rfl
  rw [Sequence.seek_skip opened, Sequence.seek_skip hour]
  exact Sequence.seek_found rfl kept

theorem step_first : (sequence 17522857 twoHours.start 1).step =
    .skip { sequence 17522857 twoHours.start 1 with
      scan := .opened 17522858 2000 2000 [63082285200000000] } := rfl

theorem seek_second {passOver : Zoned → Bool} (kept : passOver second = false) :
    (sequence 17522857 twoHours.start 1).seek passOver 0 =
      (.found second, 0, sequence 17522858 second 2) := by
  rw [Sequence.seek_skip step_first]
  exact Sequence.seek_found rfl kept

/-- The same bound gives the same occurrences, however it is written. -/
theorem run_eq {notBefore : Stamp} (alike : (Sequence.ofRule twoHours (some notBefore)).Alike
    (sequence 17522858 second 2)) :
    (Sequence.ofRule twoHours (some notBefore)).run = ([twoHours.start, second], .ended) := by
  have same : Sequence.ofRule twoHours (some notBefore) =
      Sequence.ofRule twoHours (some twoHours.start) := by
    obtain ⟨plan, bound⟩ := alike
    simp only [Sequence.ofRule] at bound ⊢
    rw [← bound]
    rfl
  rw [same]
  exact Sequence.run_of_runWithin (n := 7) (by decide +kernel)

/-- The handle of the schedule, armed for an occurrence. -/
def handle (sequence : Sequence) (t : Zoned) (timer : Option EntryId) (fired : Nat) : Handle Nat :=
  { name := "hour", event := "hour", args := [], session := "inbox", coalesce := false
    sequence, registry := none, timer, nextFire := some t, fired, state := .armed }

def armedFor (t : Zoned) : Happening Nat :=
  .logged ⟨.debug, "Schedule " ++ Text.quoted "hour" ++ " armed for " ++ t.text⟩

def failed : Happening Nat :=
  .logged ⟨.error, "Schedule " ++ Text.quoted "hour" ++ ": dispatch of event " ++
    Text.quoted "hour" ++ " failed"⟩

/-- The agenda of a session whose handler for the schedule has been called a number of times. -/
def agenda (calls : Nat) (handles : List (Handle Nat)) (pending : List Entry) (nextEntry : EntryId)
    (journal : List (Happening Nat)) : Agenda Nat :=
  { (.start twoHours.start true [] [] : Agenda Nat) with
    sessions := [⟨"inbox", [], [("hour", ⟨[(none, .fail "late")], calls⟩)], true⟩]
    handles, pending, nextEntry, journal }

/-- Once the schedule has been created. -/
def created : Agenda Nat :=
  agenda 0 [handle (sequence 17522857 twoHours.start 1) twoHours.start (some 0) 0]
    [⟨0, twoHours.start, 0⟩] 1 [armedFor twoHours.start]

/-- In its first dispatch, once the handler has failed. -/
def dispatching : Agenda Nat :=
  agenda 1 [handle (sequence 17522857 twoHours.start 1) twoHours.start none 1] [] 1
    [.called "inbox" "hour" [], .dispatched 0 twoHours.start twoHours.start,
      armedFor twoHours.start]

/-- After its first dispatch. -/
def rearmed : Agenda Nat :=
  agenda 1 [handle (sequence 17522858 second 2) second (some 1) 1] [⟨1, second, 0⟩] 2
    (armedFor second :: failed :: dispatching.journal)

theorem create_eq :
    (agenda 0 [] [] 0 []).create "inbox" "hour" "hour" twoHours [] false twoHours.start =
      (created, .ok 0) := by
  unfold Agenda.create
  dsimp only
  rw [Agenda.arm_eq (seek_first rfl)]
  rfl

theorem stepFiring_eq (below : List (Activity Nat)) :
    Run.stepFiring dispatching below 0 (some (.error (.raised "late"))) =
      Run.reply rearmed below .nothing := by
  have rearm (message : String) : (dispatching.log .error message).rearm 0 =
      ({ rearmed with
        journal := armedFor second :: .logged ⟨.error, message⟩ :: dispatching.journal }, .ok ()) := by
    show Agenda.arm _ 0 (handle (sequence 17522857 twoHours.start 1) twoHours.start none 1) false = _
    rw [Agenda.arm_eq (seek_second rfl)]
    rfl
  have found : dispatching.handle? 0 =
      some (handle (sequence 17522857 twoHours.start 1) twoHours.start none 1) := rfl
  unfold Run.stepFiring
  rw [found]
  dsimp only
  rw [rearm]
  rfl

theorem reachable_dispatching : Run.Reachable ⟨dispatching,
    [.firing 0 "inbox", .advancing twoHours.start 1], some (.error (.raised "late"))⟩ := by
  have start : Run.Reachable (⟨.start twoHours.start true ["inbox"] [], [], none⟩ : Run Nat) :=
    .start _ _ _ _
  have made : Run.Reachable ⟨created, [], some (.ok (.handle (some 0)))⟩ := by
    have made : Run.Reachable (Run.start (agenda 0 [] [] 0 [])
        (.create "inbox" "hour" "hour" (.spec spec) [] false none)) :=
      (start.act trivial (.on "inbox" "hour" [(none, .fail "late")])).act trivial _
    have same : Run.start (agenda 0 [] [] 0 [])
        (.create "inbox" "hour" "hour" (.spec spec) [] false none) =
        (Run.result [] ((agenda 0 [] [] 0 []).create "inbox" "hour" "hour" twoHours [] false
          twoHours.start)).settle := rfl
    rw [same, create_eq] at made
    exact made
  have calm {r r' : Run Nat} (other : ∀ h s below, r.activities ≠ .firing h s :: below) :
      ¬r.Raises r' := by
    rintro ⟨⟨h, session, below, top⟩, -⟩
    exact other h session below top
  have dispatched := (made.act trivial (.advance 0)).step rfl (calm nofun)
  have handled := dispatched.step rfl (calm nofun)
  exact handled.step rfl (calm nofun)

theorem step_dispatching :
    Run.step? ⟨dispatching, [.firing 0 "inbox", .advancing twoHours.start 1],
      some (.error (.raised "late"))⟩ =
    some ⟨rearmed, [.advancing twoHours.start 1], some (.ok .nothing)⟩ :=
  congrArg (fun r : Run Nat => some r.settle) (stepFiring_eq [.advancing twoHours.start 1])

theorem reachable_rearmed :
    Run.Reachable ⟨rearmed, [.advancing twoHours.start 1], some (.ok .nothing)⟩ := by
  refine reachable_dispatching.step step_dispatching ?_
  rintro ⟨-, f, failed⟩
  cases failed

/-- The failed dispatch has consumed the first occurrence, and the handle waits for the second. -/
theorem conserved_rearmed : rearmed.handle? 0 = some (handle (sequence 17522858 second 2) second
      (some 1) 1) ∧
    Run.Reachable ⟨rearmed, [.advancing twoHours.start 1], some (.ok .nothing)⟩ ∧
    (handle (sequence 17522858 second 2) second (some 1) 1).Tallies [twoHours.start, second] 2
      (rearmed.fates 0) ∧
    (rearmed.fates 0).filterMap Fate.due? = [twoHours.start] := by
  refine ⟨rfl, reachable_rearmed, ?_⟩
  obtain ⟨notBefore, occurrences, alike, run, -, outside, -, -, strict, -⟩ :=
    Run.occurrences_conserved reachable_rearmed
      (show rearmed.handle? 0 = some (handle (sequence 17522858 second 2) second (some 1) 1) from rfl)
  have occurrences : [twoHours.start, second] = occurrences := by
    rw [← run]
    exact (congrArg Prod.fst (run_eq alike)).symm
  subst occurrences
  obtain ⟨k, inside, rest, tallies⟩ := outside (by decide)
  refine ⟨?_, (strict rfl).2⟩
  obtain ⟨pos, next, met⟩ := tallies
  -- The handle does not wait for the first occurrence.
  have last : k = 2 := by
    match k, inside with
    | 1, _ => cases next
    | 2, _ => rfl
  subst last
  exact ⟨pos, next, met⟩

end twoHours

end Almanac
