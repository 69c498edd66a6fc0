import Almanac.Proofs.Schedule.Ending

set_option autoImplicit false

/-!
Actions that are played one after another.

Adding and removing a schedule and setting the clock are done at once; an advance goes on to its end.
What each comes to for the share of a place depends on this share and the clock alone.
-/

namespace Almanac

variable {α : Type} {ρ : Reckoning}

namespace Action

/-- What a scheduler or the timer is asked for from outside, and the setting of quiet handlers. -/
inductive Outer (ρ : Reckoning) (keys : List String) (nests : Prop) : Action α → Prop where
  | on (session event : String) {script : Script α}
      (quiet : ∀ line ∈ script, line.2.Quiet keys nests) :
      Outer ρ keys nests (.on session event script)
  | add (via session name event : String) {source : RuleSource} (args : List α)
      (fits : source.Fits ρ) : Outer ρ keys nests (.add via session name event source args)
  | remove (via session name : String) : Outer ρ keys nests (.remove via session name)
  | advance {micros : Int} (allowed : ρ.Allows micros) : Outer ρ keys nests (.advance micros)
  | jump {micros : Int} (allowed : ρ.Allows micros) : Outer ρ keys nests (.jump micros)

/-- How far an action moves the clock, if it does. -/
def moves? : Action α → Option Int
  | .advance micros | .jump micros => some micros
  | _ => none

/-- How far ahead the clock is at most after an action. -/
def ahead (action : Action α) : Nat := (action.moves?.getD 0).toNat

theorem Outer.allows {keys : List String} {nests : Prop} {action : Action α} {micros : Int}
    (outer : action.Outer ρ keys nests) (moves : action.moves? = some micros) : ρ.Allows micros := by
  cases outer with
  | advance allowed | jump allowed =>
    cases moves
    exact allowed
  | on | add | remove => cases moves

/-- The place at which an action adds or removes a schedule. -/
def place? (schedulers : List (String × Config)) : Action α → Option Slot
  | .add via session name _ _ _ | .remove via session name =>
    (schedulers.lookup via).map fun config => ⟨session, config.heapKey, name⟩
  | _ => none

/-- An action that adds or removes no schedule at another place. -/
def keepsTo (schedulers : List (String × Config)) (slot : Slot) (action : Action α) : Bool :=
  (action.place? schedulers).all (· = slot)

end Action

namespace Share

/-- What an action comes to for the share of a place and the clock, as this is told. -/
def Acts (σ : Setting) (s : Share α) (clock : Zoned) (action : Action α) (t : Share α)
    (clock' : Zoned) : Prop :=
  match action with
  | .add via session name event source args => clock' = clock ∧
      t = match σ.schedulers.lookup via with
        | some config =>
          if session ∈ σ.sessions ∧ ⟨session, config.heapKey, name⟩ = σ.slot then
            s.added clock config session name event source args
          else s
        | none => s
  | .remove via session name => clock' = clock ∧
      t = match σ.schedulers.lookup via with
        | some config =>
          if session ∈ σ.sessions ∧ ⟨session, config.heapKey, name⟩ = σ.slot then s.withdrawn else s
        | none => s
  | .jump micros => clock' = (clock.add? micros).getD clock ∧ t = s
  | .advance micros =>
    match clock.add? micros with
    | some goal => Rounds σ.reckoning clock goal s t ∧ t.Settled goal ∧ clock' = clock.later goal
    | none => clock' = clock ∧ t = s
  | _ => clock' = clock ∧ t = s

variable {σ : Setting} {s t t' : Share α} {clock now now' : Zoned} {action : Action α}

theorem Acts.unique (acts : s.Acts σ clock action t now) (acts' : s.Acts σ clock action t' now') :
    t = t' ∧ now = now' := by
  cases action with
  | advance micros =>
    unfold Acts at acts acts'
    dsimp only at acts acts'
    split at acts
    · rename_i goal added
      rw [added] at acts'
      obtain ⟨rounds, settled, rfl⟩ := acts
      obtain ⟨rounds', settled', rfl⟩ := acts'
      exact ⟨rounds.settled_unique settled rounds' settled', rfl⟩
    · rename_i added
      rw [added] at acts'
      exact ⟨acts.2.trans acts'.2.symm, acts.1.trans acts'.1.symm⟩
  | _ => exact ⟨acts.2.trans acts'.2.symm, acts.1.trans acts'.1.symm⟩

theorem Acts.place_le (shows : σ.reckoning.Shows clock)
    (holds : ∀ micros, action.moves? = some micros →
      σ.reckoning.Holds (σ.reckoning.place clock + micros))
    (acts : s.Acts σ clock action t now) :
    σ.reckoning.place now ≤ σ.reckoning.place clock + action.ahead := by
  have stays : σ.reckoning.place clock ≤ σ.reckoning.place clock + action.ahead := by omega
  cases action with
  | jump micros =>
    rw [acts.1]
    cases added : clock.add? micros with
    | none => exact stays
    | some u =>
      rw [Option.getD_some, (shows.add? (holds micros rfl) added).2]
      exact Int.add_le_add_left (Int.self_le_toNat micros) _
  | advance micros =>
    unfold Acts at acts
    dsimp only at acts
    split at acts
    · rename_i goal added
      obtain ⟨reached, place⟩ := shows.add? (holds micros rfl) added
      rw [acts.2.2, Reckoning.place_later shows.admits reached.admits, place]
      exact max_le stays (Int.add_le_add_left (Int.self_le_toNat micros) _)
    · rw [acts.1]
      exact stays
  | _ =>
    rw [acts.1]
    exact stays

/-- What is added or removed elsewhere does not count. -/
theorem Acts.elsewhere (acts : s.Acts σ clock action t now)
    (other : action.keepsTo σ.schedulers σ.slot = false) : t = s ∧ now = clock := by
  cases action with
  | add via session name event source args | remove via session name =>
    obtain ⟨same, rfl⟩ := acts
    refine ⟨?_, same⟩
    simp only [Action.keepsTo, Action.place?] at other
    cases scheduler : σ.schedulers.lookup via with
    | none => rfl
    | some config =>
      rw [scheduler] at other
      have away : (⟨session, config.heapKey, name⟩ : Slot) ≠ σ.slot := by simpa using other
      dsimp only
      rw [if_neg fun here => away here.2]
  | _ => simp [Action.keepsTo, Action.place?] at other

end Share

namespace Run

/-- A step in which no handle fails to be armed again. -/
def GoesCalmly (r r' : Run α) : Prop := r.step? = some r' ∧ ¬r.Raises r'

end Run

namespace Agenda

/-- Actions that are carried out one after another, each up to its end. -/
inductive Plays (goes : Run α → Run α → Prop) (a : Agenda α) : List (Deed α) → Agenda α → Prop where
  | nil : Plays goes a [] a
  | snoc {deeds : List (Deed α)} {b : Agenda α} {action : Action α} {r : Run α}
      (plays : Plays goes a deeds b) (path : Relation.ReflTransGen goes (Run.start b action) r)
      (ended : r.activities = []) : Plays goes a (deeds ++ [⟨action, r.outcome⟩]) r.agenda

end Agenda

/-- The handle of the schedule that a deed has added at a place. -/
def Deed.added? (schedulers : List (String × Config)) (slot : Slot) (d : Deed α) : Option HandleId :=
  match d.outcome with
  | some (.ok (.handle h)) => if d.action.place? schedulers = some slot then h else none
  | _ => none

/-- The handles of the schedules that deeds have added at a place. -/
def Deed.handles (schedulers : List (String × Config)) (slot : Slot) (deeds : List (Deed α)) :
    List HandleId :=
  deeds.filterMap (Deed.added? schedulers slot)

/-- How far ahead the clock is at most after deeds. -/
def Deed.ahead (deeds : List (Deed α)) : Nat := (deeds.map fun d => d.action.ahead).sum

theorem Deed.handles_concat (schedulers : List (String × Config)) (slot : Slot)
    (deeds : List (Deed α)) (d : Deed α) : Deed.handles schedulers slot (deeds ++ [d]) =
      Deed.handles schedulers slot deeds ++ (d.added? schedulers slot).toList := by
  cases told : d.added? schedulers slot <;> simp [Deed.handles, told]

theorem Deed.added?_eq_none {schedulers : List (String × Config)} {slot : Slot} {d : Deed α}
    (away : d.action.place? schedulers ≠ some slot) : d.added? schedulers slot = none := by
  unfold added?
  split
  · rw [if_neg away]
  · rfl

namespace Run

open Agenda

variable {a : Agenda α} {σ : Setting} {ids : List HandleId} {s t : Share α} {r r' : Run α}
  {action : Action α}

theorem eq_of_ended {goes : Run α → Run α → Prop} (each : ∀ r r', goes r r' → r.step? = some r')
    (path : Relation.ReflTransGen goes r r') (ended : r.activities = []) : r' = r := by
  rcases Relation.ReflTransGen.cases_head path with same | ⟨next, step, -⟩
  · exact same.symm
  · have step := each r next step
    rw [step?, ended] at step
    cases step

theorem withScheduler_eq (tame : a.Tame σ.keys σ.nests) (via session : String) (f : Config → Run α) :
    withScheduler a [] via session f =
      if session ∈ a.names then
        match a.schedulers.lookup via with
        | some config => f config
        | none => fault a [] (.unknownScheduler via)
      else fault a [] (.unknownSession session) := by
  unfold withScheduler withSession listed?
  by_cases lives : session ∈ a.names
  · obtain ⟨u, found⟩ := Option.ne_none_iff_exists'.mp (session?_ne_none_iff.mpr lives)
    have listed := (tame u (List.mem_of_find?_eq_some found)).listed
    cases a.schedulers.lookup via <;> simp [found, Option.filter, listed, lives]
  · have gone : a.session? session = none := by
      by_contra there
      exact lives (session?_ne_none_iff.mp there)
    simp [gone, lives]

/-- An action has come to its end, with what it comes to for the share of the place. -/
structure Concludes (σ : Setting) (a : Agenda α) (ids : List HandleId) (s : Share α)
    (action : Action α) (r : Run α) : Prop where
  ended : r.activities = []
  share : ∃ t, s.Acts σ (σ.reckoning.reading a.clock) action t (σ.reckoning.reading r.agenda.clock) ∧
    r.agenda.Regular σ [] (ids ++ (Deed.added? σ.schedulers σ.slot ⟨action, r.outcome⟩).toList) t

theorem concludes_fault (regular : a.Regular σ [] ids s) (f : Fault)
    (acts : s.Acts σ (σ.reckoning.reading a.clock) action s (σ.reckoning.reading a.clock)) :
    Concludes σ a ids s action (fault a [] f).settle := by
  rw [settle_of_tame regular.tame]
  exact ⟨rfl, s, acts, by simpa [Deed.added?, fault] using regular⟩

/-- Adding tells the handle that is new at the place. -/
theorem added?_result (made : Agenda α × Except Fault HandleId) {via session name event : String}
    {source : RuleSource} {args : List α} {config : Config}
    (scheduler : σ.schedulers.lookup via = some config) :
    ids ++ (Deed.added? σ.schedulers σ.slot
        ⟨.add via session name event source args, (result [] made).outcome⟩).toList =
      if ⟨session, config.heapKey, name⟩ = σ.slot then ids ++ made.2.toOption.toList else ids := by
  obtain ⟨b, _ | h⟩ := made
  · simp [Deed.added?, result, Except.map, Except.toOption]
  · simp only [Deed.added?, result, Except.map, Action.place?, scheduler, Option.map_some,
      Option.some.injEq, Except.toOption]
    split <;> simp

theorem concludes_withScheduler (regular : a.Regular σ [] ids s) (via session : String)
    {f : Config → Run α}
    (each : ∀ config, σ.schedulers.lookup via = some config → session ∈ σ.sessions →
      Concludes σ a ids s action (f config).settle)
    (idle : (∀ config, σ.schedulers.lookup via = some config → session ∉ σ.sessions) →
      s.Acts σ (σ.reckoning.reading a.clock) action s (σ.reckoning.reading a.clock)) :
    Concludes σ a ids s action (withScheduler a [] via session f).settle := by
  rw [withScheduler_eq regular.tame, regular.schedulers, regular.names]
  by_cases lives : session ∈ σ.sessions
  · rw [if_pos lives]
    cases scheduler : σ.schedulers.lookup via with
    | none => exact concludes_fault regular _ (idle (by simp [scheduler]))
    | some config => exact each config scheduler lives
  · rw [if_neg lives]
    exact concludes_fault regular _ (idle fun _ _ => lives)

theorem concludes_add (regular : a.Regular σ [] ids s) (via session name event : String)
    {source : RuleSource} (args : List α) (fits : source.Fits σ.reckoning)
    (used : ∀ config, σ.schedulers.lookup via = some config →
      σ.slots ⟨session, config.heapKey, name⟩) :
    Concludes σ a ids s (.add via session name event source args)
      (Run.start a (.add via session name event source args)) := by
  rw [Run.start, perform]
  refine concludes_withScheduler regular via session (fun config scheduler lives => ?_) fun gone => ?_
  · have key : config.heapKey ∈ σ.keys := by
      obtain ⟨before, after, same, -⟩ := List.lookup_eq_some_iff.mp scheduler
      simp [Setting.keys, same]
    have lives' : session ∈ a.names := by
      rw [regular.names]
      exact lives
    have clock := (regular.orderly.enters lives' config name event source args).clock
    have added := regular.add lives' key (used config scheduler) fits event args
    rw [settle_of_tame added.tame]
    rw [← added?_result _ scheduler] at added
    refine ⟨rfl, _, ⟨congrArg _ clock, ?_⟩, added⟩
    simp [scheduler, lives]
  · refine ⟨rfl, ?_⟩
    split
    · rename_i config scheduler
      rw [if_neg fun here => gone config scheduler here.1]
    · rfl

theorem concludes_remove (regular : a.Regular σ [] ids s) (via session name : String) :
    Concludes σ a ids s (.remove via session name) (Run.start a (.remove via session name)) := by
  rw [Run.start, perform]
  refine concludes_withScheduler regular via session (fun config scheduler lives => ?_) fun gone => ?_
  · have removed := regular.remove config session name
    have clock := (withdraws_remove a config session name).clock
    rw [settle_of_tame removed.tame]
    refine ⟨rfl, _, ⟨congrArg _ clock, ?_⟩, by simpa [Deed.added?, reply] using removed⟩
    simp [scheduler, lives]
  · refine ⟨rfl, ?_⟩
    split
    · rename_i config scheduler
      rw [if_neg fun here => gone config scheduler here.1]
    · rfl

theorem concludes_on (regular : a.Regular σ [] ids s) (session event : String) {script : Script α}
    (quiet : ∀ line ∈ script, line.2.Quiet σ.keys σ.nests) :
    Concludes σ a ids s (.on session event script) (Run.start a (.on session event script)) := by
  obtain ⟨idles, -⟩ := minds_perform regular.tame [] (.on session event quiet)
  have ended : (perform a [] (.on session event script)).activities = [] := by
    rw [perform, withSession]
    split <;> rfl
  rw [Run.start, settle_of_tame idles.tame]
  refine ⟨ended, s, ⟨congrArg _ idles.clock, rfl⟩, ?_⟩
  rw [Deed.added?_eq_none (by simp [Action.place?])]
  simpa using regular.idles idles

theorem concludes_jump (regular : a.Regular σ [] ids s) {micros : Int}
    (holds : σ.reckoning.Holds (σ.reckoning.place a.clock + micros)) :
    Concludes σ a ids s (.jump micros) (Run.start a (.jump micros)) := by
  have told := regular.reckoned.clock.reading_add? holds
  rw [Run.start, perform]
  split
  · rename_i clock added
    have moved := regular.setClock (regular.reckoned.clock.add? holds added).1
    rw [settle_of_tame moved.tame]
    refine ⟨rfl, s, ⟨?_, rfl⟩, by simpa [Deed.added?, reply] using moved⟩
    rw [told, added]
    rfl
  · rename_i beyond
    exact concludes_fault regular _ (by simp [Share.Acts, told, beyond])

/-- An advance comes to its end as long as no handle is stuck. -/
theorem concludes_advance {goes : Run α → Run α → Prop} (each : ∀ r r', goes r r' → r.step? = some r')
    (regular : a.Regular σ [] ids s) {micros : Int}
    (holds : σ.reckoning.Holds (σ.reckoning.place a.clock + micros))
    (path : Relation.ReflTransGen goes (Run.start a (.advance micros)) r) (ended : r.activities = [])
    (free : ∀ goal r r', a.clock.add? micros = some goal → goes r r' →
      ¬(Stuck σ a.clock goal ids s ∧ r.Raises r')) :
    Concludes σ a ids s (.advance micros) r := by
  have away : Action.place? σ.schedulers (.advance micros : Action α) ≠ some σ.slot := by
    simp [Action.place?]
  have told := regular.reckoned.clock.reading_add? holds
  rcases start_advance regular micros holds with ⟨goal, added, shows, advances⟩ | ⟨beyond, failed⟩
  · have advances : Advances σ a.clock goal ids s r := by
      clear ended
      induction path with
      | refl => exact advances
      | tail path step ih =>
        exact (ih.step regular.reckoned.clock shows (each _ _ step)).resolve_right
          (free goal _ _ added step)
    cases advances with
    | rests activities => rw [activities] at ended; cases ended
    | fires activities => simp [activities] at ended
    | @ends t _ rounds settled regular' clock =>
      refine ⟨ended, t, ?_, ?_⟩
      · simp only [Share.Acts, told, added]
        exact ⟨rounds, settled, clock⟩
      · rw [Deed.added?_eq_none away]
        simpa using regular'
  · rw [failed] at path
    cases eq_of_ended each path rfl
    have acts : s.Acts σ (σ.reckoning.reading a.clock) (.advance micros) s
        (σ.reckoning.reading a.clock) := by
      simp [Share.Acts, told, beyond]
    have concludes := concludes_fault regular .outOfRange acts
    rw [settle_of_tame regular.tame] at concludes
    exact concludes

/-- All actions but an advance are carried out at once. -/
theorem concludes_start (regular : a.Regular σ [] ids s)
    (outer : action.Outer σ.reckoning σ.keys σ.nests)
    (used : ∀ q, action.place? σ.schedulers = some q → σ.slots q)
    (holds : ∀ micros, action.moves? = some micros →
      σ.reckoning.Holds (σ.reckoning.place a.clock + micros))
    (other : ∀ micros, action ≠ .advance micros) :
    Concludes σ a ids s action (Run.start a action) := by
  cases outer with
  | on session event quiet => exact concludes_on regular session event quiet
  | add via session name event args fits =>
    refine concludes_add regular via session name event args fits fun config scheduler => ?_
    exact used _ (by rw [Action.place?, scheduler, Option.map_some])
  | remove via session name => exact concludes_remove regular via session name
  | advance => exact absurd rfl (other _)
  | jump => exact concludes_jump regular (holds _ rfl)

/-- What an action comes to when it has come to its end. -/
theorem concludes {goes : Run α → Run α → Prop} (each : ∀ r r', goes r r' → r.step? = some r')
    (regular : a.Regular σ [] ids s) (outer : action.Outer σ.reckoning σ.keys σ.nests)
    (used : ∀ q, action.place? σ.schedulers = some q → σ.slots q)
    (holds : ∀ micros, action.moves? = some micros →
      σ.reckoning.Holds (σ.reckoning.place a.clock + micros))
    (path : Relation.ReflTransGen goes (Run.start a action) r) (ended : r.activities = [])
    (free : ∀ micros goal r r', action = .advance micros → a.clock.add? micros = some goal →
      goes r r' → ¬(Stuck σ a.clock goal ids s ∧ r.Raises r')) :
    Concludes σ a ids s action r := by
  by_cases advance : ∃ micros, action = .advance micros
  · obtain ⟨micros, rfl⟩ := advance
    exact concludes_advance each regular (holds micros rfl) path ended fun goal r r' =>
      free micros goal r r' rfl
  · have concludes := concludes_start regular outer used holds fun micros same =>
      advance ⟨micros, same⟩
    rw [eq_of_ended each path concludes.ended]
    exact concludes

end Run

namespace Agenda

variable {a b c : Agenda α} {goes : Run α → Run α → Prop} {deeds : List (Deed α)} {action : Action α}

theorem Plays.snoc_start {outcome : Option (Outcome α)} (plays : a.Plays goes deeds b)
    (done : Run.start b action = ⟨c, [], outcome⟩) :
    a.Plays goes (deeds ++ [⟨action, outcome⟩]) c := by
  have played : a.Plays goes (deeds ++ [⟨action, (Run.start b action).outcome⟩])
      (Run.start b action).agenda :=
    plays.snoc .refl (congrArg Run.activities done)
  rw [done] at played
  exact played

theorem Plays.last {actions : List (Action α)} (plays : a.Plays goes deeds b)
    (same : deeds.map Deed.action = actions ++ [action]) : ∃ earlier c r,
      a.Plays goes earlier c ∧ earlier.map Deed.action = actions ∧
        Relation.ReflTransGen goes (Run.start c action) r ∧ r.activities = [] ∧
        deeds = earlier ++ [⟨action, r.outcome⟩] ∧ b = r.agenda := by
  cases plays with
  | nil => simp at same
  | @snoc deeds c action' r plays path ended =>
    rw [List.map_append, List.map_singleton] at same
    obtain ⟨before, last⟩ := List.append_inj' same rfl
    cases List.singleton_inj.mp last
    exact ⟨deeds, c, r, plays, before, path, ended, rfl, rfl⟩

end Agenda

end Almanac
