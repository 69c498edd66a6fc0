import Almanac.Schedule.Scheduler

set_option autoImplicit false

/-!
Running actions on an agenda, one small step at a time.

An action is done at once, or it starts an activity: a handler that works through its script, the
firing of a handle around its dispatch, or the clock's advance through the entries that come due.
Activities started within others stand above them on a stack. Each step asks the topmost activity
to go on from the outcome of what ran above it last. A fault in a handler ends the handler; a
firing records it and goes on, and every other activity ends with it.
-/

namespace Almanac

variable {α : Type}

inductive Activity (α : Type) where
  | handling (session event : String) (script : Script α) (call : Nat)
  | firing (h : HandleId) (session : String)
  | advancing (goal : Zoned) (count : Nat)

/-- The session that an activity keeps alive. -/
def Activity.session? : Activity α → Option String
  | handling session _ _ _ => some session
  | firing _ session => some session
  | advancing _ _ => none

/-- A run: the activities, the topmost first, and the outcome of the last one that ended. -/
structure Run (α : Type) where
  agenda : Agenda α
  activities : List (Activity α)
  outcome : Option (Outcome α)

namespace Run

def reply (a : Agenda α) (below : List (Activity α)) (r : Reply α) : Run α :=
  ⟨a, below, some (.ok r)⟩

def fault (a : Agenda α) (below : List (Activity α)) (f : Fault) : Run α :=
  ⟨a, below, some (.error f)⟩

def result (below : List (Activity α)) (r : Agenda α × Except Fault HandleId) : Run α :=
  ⟨r.1, below, some (r.2.map (fun h => .handle (some h)))⟩

/-- Calls the handler of a session for an event, if it has one. -/
def dispatch (a : Agenda α) (below : List (Activity α)) (session event : String)
    (args : List α) : Run α :=
  match a.session? session with
  | none => fault a below (.unknownSession session)
  | some s =>
    match s.handlers.lookup event with
    | none =>
      reply (a.log .warning ("Session " ++ Text.quoted s.name ++ " has no handler for event " ++
        Text.quoted event)) below .nothing
    | some handler =>
      let call := handler.calls + 1
      let a := a.setSession
        { s with handlers := putPair event { handler with calls := call } s.handlers }
      ⟨a.record (.called session event args),
        .handling session event handler.script call :: below, none⟩

/-- Goes on with a session that can be named. -/
def withSession (a : Agenda α) (below : List (Activity α)) (session : String)
    (f : Session α → Run α) : Run α :=
  match a.listed? session with
  | some s => f s
  | none => fault a below (.unknownSession session)

/-- Goes on with a session and the configuration of a scheduler. -/
def withScheduler (a : Agenda α) (below : List (Activity α)) (via session : String)
    (f : Config → Run α) : Run α :=
  withSession a below session fun _ =>
    match a.schedulers.lookup via with
    | some config => f config
    | none => fault a below (.unknownScheduler via)

def withHandle (a : Agenda α) (below : List (Activity α)) (h : HandleId)
    (f : Handle α → Run α) : Run α :=
  match a.handle? h with
  | some handle => f handle
  | none => fault a below (.unknownHandle h)

/-- Goes on with the registry of a session under a key, which is put there if there is none. -/
def withRegistry (a : Agenda α) (below : List (Activity α)) (session key : String)
    (f : Agenda α → RegistryId → Named HandleId → Run α) : Run α :=
  withSession a below session fun _ =>
    let (a, id, r) := a.obtainRegistry session key
    f a id r

/-- Answers how reading a rule went, unless there is an error that cannot be told. -/
def judge (a : Agenda α) (below : List (Activity α)) (read : Except SpecError Rule)
    (f : Except SpecError Rule → Reply α) : Run α :=
  match read with
  | .ok rule => reply a below (f (.ok rule))
  | .error e => if e.hasText then reply a below (f (.error e)) else fault a below .tooManyDigits

/-- Carries out an action above the activities `below`. -/
def perform (a : Agenda α) (below : List (Activity α)) : Action α → Run α
  | .on session event script =>
    withSession a below session fun s =>
      let a := a.setSession { s with handlers := putPair event ⟨script, 0⟩ s.handlers }
      reply a below .nothing
  | .add via session name event source args =>
    withScheduler a below via session fun config =>
      result below (a.addSchedule config session name event source args)
  | .create session name event source args coalesce notBefore =>
    withSession a below session fun _ =>
      match source.rule a.clock with
      | .error e => fault a below e.fault
      | .ok rule =>
        result below
          (a.create session name event rule args coalesce (notBefore.getD a.clock))
  | .remove via session name =>
    withScheduler a below via session fun config =>
      let (a, removed) := a.remove config session name
      reply a below (.truth removed)
  | .removeAll via session =>
    withScheduler a below via session fun config =>
      let (a, n) := a.removeAll config session
      reply a below (.count n)
  | .get via session name =>
    withScheduler a below via session fun config =>
      reply a below (.handle (a.get? config session name))
  | .schedules via session =>
    withScheduler a below via session fun config =>
      reply a below (.names (a.schedules config session))
  | .verify source =>
    match source.verify a.clock with
    | .ok rule => reply a below (.rule rule)
    | .error e => fault a below e.fault
  | .isValid source => judge a below (source.verify a.clock) fun r => .truth r.isOk
  | .tryVerify source => judge a below (source.verify a.clock) .verdict
  | .advance micros =>
    match a.clock.add? micros with
    | some goal => ⟨a, .advancing goal 0 :: below, none⟩
    | none => fault a below .outOfRange
  | .jump micros =>
    match a.clock.add? micros with
    | some clock => reply { a with clock } below .nothing
    | none => fault a below .outOfRange
  | .dispatch session event args =>
    withSession a below session fun _ => dispatch a below session event args
  | .drop session =>
    withSession a below session fun s =>
      reply (a.setSession { s with listed := false }) below .nothing
  | .heap session =>
    withSession a below session fun s => reply a below (.heap (a.heapShown s))
  | .setHeap session key value =>
    withSession a below session fun _ =>
      reply (a.setHeap session key (.plain value)) below .nothing
  | .showSession session => withSession a below session fun s => reply a below (.text s.shown)
  | .describe h => withHandle a below h fun handle => reply a below (.description handle)
  | .cancel h =>
    withHandle a below h fun _ =>
      let (a, cancelled) := a.cancel h
      reply a below (.truth cancelled)
  | .findRegistry session key =>
    withRegistry a below session key fun a id _ =>
      reply a below (.truth ((a.findRegistry session key).any (fun r => r.1 = id)))
  | .putInRegistry session key name h =>
    withHandle a below h fun _ =>
      withRegistry a below session key fun a id _ =>
        let (a, previous) := a.putInRegistry id name h
        reply a below (.handle previous)
  | .discardFromRegistry session key name h =>
    withHandle a below h fun _ =>
      withRegistry a below session key fun a id _ =>
        let (a, dropped) := a.discard id name h
        reply a below (.truth dropped)
  | .getFromRegistry session key name =>
    withRegistry a below session key fun a _ r => reply a below (.handle (r.get? name))
  | .popFromRegistry session key name =>
    withRegistry a below session key fun a id _ =>
      let (a, h) := a.popFromRegistry id name
      reply a below (.handle h)
  | .clearRegistry session key =>
    withRegistry a below session key fun a id _ =>
      let (a, n) := a.clearRegistry id
      reply a below (.count n)
  | .viewRegistry session key asked =>
    withRegistry a below session key fun a _ r =>
      reply a below (.view ⟨r.names, asked.map r.contains⟩)
  | .fail message => fault a below (.raised message)

/-- Whether an action is for the call of a handler with the given number. -/
def isFor (call : Nat) (only : Option Nat) : Bool :=
  match only with
  | none => true
  | some n => n = call

/-- The next step of a handler. -/
def stepHandling (a : Agenda α) (below : List (Activity α)) (session event : String)
    (script : Script α) (call : Nat) (outcome : Option (Outcome α)) : Run α :=
  match outcome, script with
  | some (.error f), _ => fault a below f
  | _, [] => reply a below (.handled event call)
  | _, (only, action) :: rest =>
    let below := .handling session event rest call :: below
    if isFor call only then perform a below action else reply a below .nothing

/-- The end of a firing, after its dispatch. Whatever fault the dispatch ended with is noted, and the
handle is armed again; no fault of a run leaves a firing before that. -/
def stepFiring (a : Agenda α) (below : List (Activity α)) (h : HandleId)
    (outcome : Option (Outcome α)) : Run α :=
  let a := match outcome, a.handle? h with
    | some (.error _), some handle =>
      a.log .error ("Schedule " ++ Text.quoted handle.name ++ ": dispatch of event " ++
        Text.quoted handle.event ++ " failed")
    | _, _ => a
  match a.rearm h with
  | (a, .ok ()) => reply a below .nothing
  | (a, .error f) => fault a below f

/-- Runs the next entry that is due, or ends the advance. -/
def stepAdvancing (a : Agenda α) (below : List (Activity α)) (goal : Zoned) (count : Nat)
    (outcome : Option (Outcome α)) : Run α :=
  match outcome with
  | some (.error f) => fault a below f
  | _ =>
    match a.dueBy? goal with
    | none => reply (a.clockAtLeast goal) below (.count count)
    | some entry =>
      let a := (a.removeEntry entry.id).clockAtLeast entry.due
      let below := .advancing goal (count + 1) :: below
      match a.fire entry.handle with
      | (a, none) => reply a below .nothing
      | (a, some handle) =>
        dispatch a (.firing entry.handle handle.session :: below) handle.session handle.event
          handle.args

/-- Lets go of what no activity holds any more. -/
def settle (r : Run α) : Run α :=
  { r with agenda := r.agenda.release (r.activities.filterMap Activity.session?) }

/-- One step of a run that still has activities. -/
def step? (r : Run α) : Option (Run α) :=
  match r.activities with
  | [] => none
  | .handling session event script call :: below =>
    some (stepHandling r.agenda below session event script call r.outcome).settle
  | .firing h _ :: below => some (stepFiring r.agenda below h r.outcome).settle
  | .advancing goal count :: below =>
    some (stepAdvancing r.agenda below goal count r.outcome).settle

def start (a : Agenda α) (action : Action α) : Run α := (perform a [] action).settle

/-- At most `fuel` steps. -/
def steps : Nat → Run α → Run α
  | 0, r => r
  | fuel + 1, r =>
    match r.step? with
    | none => r
    | some r => steps fuel r

end Run

end Almanac
