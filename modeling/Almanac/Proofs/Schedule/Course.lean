import Almanac.Proofs.Schedule.Steps

set_option autoImplicit false

/-!
The course of a run: what can come next, what comes later, and what was done on the way.

Any action may come next where one is free, and any step, also one in which a handle is not armed
again because its sequence fails.
-/

namespace Almanac

variable {α : Type}

/-- An action that was carried out, with what was answered. Nothing is answered yet where it started
an activity. -/
structure Deed (α : Type) where
  action : Action α
  outcome : Option (Outcome α)

namespace Run

/-- The action that a handler carries out next, if it goes on. -/
def turn? (script : Script α) (call : Nat) (outcome : Option (Outcome α)) : Option (Action α) :=
  match outcome, script with
  | some (.error _), _ => none
  | _, [] => none
  | _, (only, action) :: _ => if isFor call only then some action else none

/-- The action that the next step carries out. -/
def asked? (r : Run α) : Option (Action α) :=
  match r.activities with
  | .handling _ _ script call :: _ => turn? script call r.outcome
  | _ => none

/-- What can come next, with the action that is carried out, if one is. -/
inductive Next (r : Run α) : Option (Action α) → Run α → Prop where
  | act (free : r.Free) (action : Action α) :
      Next r (some action) (perform r.agenda r.activities action).settle
  | step {r' : Run α} (step : r.step? = some r') : Next r r.asked? r'

inductive Later (r : Run α) : Run α → Prop where
  | refl : Later r r
  | tail {r' r'' : Run α} {did : Option (Action α)} (later : Later r r') (next : r'.Next did r'') :
      Later r r''

/-- The runs that come about, with all that was done in them, the latest first. -/
inductive History : List (Deed α) → Run α → Prop where
  | start (clock : Zoned) (revocable : Bool) (sessions : List String)
      (schedulers : List (String × Config)) :
      History [] ⟨.start clock revocable sessions schedulers, [], none⟩
  | next {deeds : List (Deed α)} {r r' : Run α} {did : Option (Action α)}
      (history : History deeds r) (next : r.Next did r') :
      History ((did.map (⟨·, r'.outcome⟩)).toList ++ deeds) r'

variable {r r' : Run α} {below : List (Activity α)} {did : Option (Action α)} {action : Action α}
  {via session : String} {answer : Reply α}

/-- A handler carries out an action above the rest of its script, or leaves the agenda as it is. -/
theorem stepHandling_cases (a : Agenda α) (below : List (Activity α)) (session event : String)
    (script : Script α) (call : Nat) (outcome : Option (Outcome α)) :
    (∃ action rest, turn? script call outcome = some action ∧
      stepHandling a below session event script call outcome =
        perform a (.handling session event rest call :: below) action) ∨
    turn? script call outcome = none ∧
      (stepHandling a below session event script call outcome).agenda = a := by
  match outcome, script with
  | some (.error _), _ | none, [] | some (.ok _), [] => exact .inr ⟨rfl, rfl⟩
  | none, (only, action) :: rest | some (.ok _), (only, action) :: rest =>
    cases turn : isFor call only with
    | true => exact .inl ⟨action, rest, by simp [turn?, turn], by simp [stepHandling, turn]⟩
    | false => exact .inr ⟨by simp [turn?, turn], by simp [stepHandling, turn, reply]⟩

/-- What is kept by all that a step does besides carrying out an action. -/
structure Keeps (P : Agenda α → Prop) : Prop where
  log : ∀ {a : Agenda α} (level : LogLevel) (message : String), P a → P (a.log level message)
  dispatch : ∀ {a : Agenda α} (below : List (Activity α)) (session event : String) (args : List α),
    P a → P (dispatch a below session event args).agenda
  rearm : ∀ {a : Agenda α} (h : HandleId), P a → P (a.rearm h).1
  serves : ∀ {a b : Agenda α} {e : Entry} {served : Option (Handle α)}, P a → a.Serves e b served →
    P b
  clock : ∀ {a : Agenda α} (t : Zoned), P a → P (a.clockAtLeast t)
  release : ∀ {a : Agenda α} (held : List String), P a → P (a.release held)

namespace Keeps

variable {P : Agenda α → Prop} {a : Agenda α}

theorem stepFiring (keeps : Keeps P) (start : P a) (below : List (Activity α)) (h : HandleId)
    (outcome : Option (Outcome α)) : P (stepFiring a below h outcome).agenda := by
  -- A fault is noted before the handle is armed again.
  have noted : ∃ b, P b ∧ (Run.stepFiring a below h outcome).agenda = (b.rearm h).1 := by
    unfold Run.stepFiring
    dsimp only
    split <;> rename_i rearmed <;> refine ⟨_, ?_, (congrArg Prod.fst rearmed).symm⟩
    all_goals
      split
      · exact keeps.log _ _ start
      · exact start
  obtain ⟨b, held, same⟩ := noted
  rw [same]
  exact keeps.rearm h held

theorem stepAdvancing (keeps : Keeps P) (start : P a) (below : List (Activity α)) (goal : Zoned)
    (count : Nat) (outcome : Option (Outcome α)) :
    P (stepAdvancing a below goal count outcome).agenda := by
  unfold Run.stepAdvancing
  split
  · exact start
  · split
    · exact keeps.clock goal start
    · rename_i e due
      have served := keeps.serves start (a.serves (Agenda.mem_of_dueBy? due))
      dsimp only
      generalize ((a.removeEntry e.id).clockAtLeast e.due).fire e.handle = result at served ⊢
      obtain ⟨b, _ | handle⟩ := result
      · exact served
      · exact keeps.dispatch _ _ _ _ served

/-- It is kept by a step if the action that the step carries out keeps it. -/
theorem step (keeps : Keeps P) (start : P r.agenda) (step : r.step? = some r')
    (performed : ∀ below action, r.asked? = some action → P (perform r.agenda below action).agenda) :
    P r'.agenda := by
  unfold step? at step
  unfold asked? at performed
  split at step
  · cases step
  · rename_i session event script call below activities
    cases step
    rw [activities] at performed
    apply keeps.release
    rcases stepHandling_cases r.agenda below session event script call r.outcome with
      ⟨action, rest, turn, same⟩ | ⟨-, same⟩
    · rw [same]
      exact performed _ action turn
    · rw [same]
      exact start
  · cases step
    exact keeps.release _ (keeps.stepFiring start _ _ _)
  · cases step
    exact keeps.release _ (keeps.stepAdvancing start _ _ _ _)

end Keeps

/-- Whatever is carried out is performed above activities that start no other dispatch. -/
theorem Next.performs (next : r.Next (some action) r') : ∃ below,
    below.filterMap Activity.firing? = r.firing ∧ r' = (perform r.agenda below action).settle := by
  generalize asked : some action = did at next
  cases next with
  | act free action' =>
    cases asked
    exact ⟨r.activities, rfl, rfl⟩
  | step step =>
    unfold asked? at asked
    split at asked
    · rename_i session event script call below activities
      unfold step? at step
      rw [activities] at step
      cases step
      rcases stepHandling_cases r.agenda below session event script call r.outcome with
        ⟨action', rest, turn, performed⟩ | ⟨idle, -⟩
      · rw [turn] at asked
        cases asked
        refine ⟨_, ?_, congrArg settle performed⟩
        rw [Run.firing, activities]
        rfl
      · rw [idle] at asked
        cases asked
    · cases asked

theorem withScheduler_cases (a : Agenda α) (below : List (Activity α)) (via session : String)
    (f : Config → Run α) :
    (∃ config, a.schedulers.lookup via = some config ∧ session ∈ a.names ∧
      withScheduler a below via session f = f config) ∨
    ∃ unknown, (unknown = .unknownSession session ∨ unknown = .unknownScheduler via) ∧
      withScheduler a below via session f = fault a below unknown := by
  unfold withScheduler withSession
  cases listed : a.listed? session with
  | none => exact .inr ⟨_, .inl rfl, rfl⟩
  | some s =>
    have lives : session ∈ a.names :=
      Agenda.mem_names_of_session? (Option.filter_eq_some_iff.mp listed).1
    cases scheduler : a.schedulers.lookup via with
    | none => exact .inr ⟨_, .inr rfl, rfl⟩
    | some config => exact .inl ⟨config, rfl, lives, rfl⟩

theorem withScheduler_of_ok {a : Agenda α} {f : Config → Run α}
    (answered : (withScheduler a below via session f).outcome = some (.ok answer)) :
    ∃ config, a.schedulers.lookup via = some config ∧ session ∈ a.names ∧
      withScheduler a below via session f = f config := by
  rcases withScheduler_cases a below via session f with done | ⟨unknown, -, failed⟩
  · exact done
  · rw [failed] at answered
    cases answered

theorem withScheduler_eq_of_ok {a : Agenda α} {f : Config → Run α} {config : Config}
    (scheduler : a.schedulers.lookup via = some config)
    (answered : (withScheduler a below via session f).outcome = some (.ok answer)) :
    withScheduler a below via session f = f config := by
  obtain ⟨config', scheduler', -, performed⟩ := withScheduler_of_ok answered
  cases scheduler.symm.trans scheduler'
  exact performed

theorem result_of_ok {made : Agenda α × Except Fault HandleId}
    (answered : (result below made).outcome = some (.ok answer)) :
    ∃ h, made.2 = .ok h ∧ answer = .handle (some h) := by
  obtain ⟨a, _ | h⟩ := made
  · cases answered
  · cases answered
    exact ⟨h, rfl, rfl⟩

theorem result_of_error {made : Agenda α × Except Fault HandleId} {f : Fault}
    (answered : (result below made).outcome = some (.error f)) : made.2 = .error f := by
  obtain ⟨a, _ | h⟩ := made
  · cases answered
    rfl
  · cases answered

theorem Next.stepped (next : r.Next did r') : r.Stepped r' := by
  cases next with
  | act free action =>
    have performs := Run.performs r.agenda r.activities action
    exact .moves (performs.moves.quiet (Agenda.quiet_release _)) performs.firing
  | step step => exact Run.stepped step

end Run

end Almanac
