import Almanac.Proofs.Schedule.Keeping

set_option autoImplicit false

/-!
What there is of a schedule, apart from the numbers of its registry and its timer entry.

How a handle is armed depends on its sequence alone, and on the clock where it passes over what it has
missed. So what adding and removing a schedule do to handles is told by the rule that is read, and by
the handle that is stored under the name.
-/

namespace Almanac

variable {α : Type}

namespace Handle

/-- The handle without its registry and its timer entry. -/
def core (handle : Handle α) : Handle α := { handle with registry := none, timer := none }

/-- The handle waiting for its next occurrence that is not missed, or exhausted where there is none.
There is no such handle where the occurrence leaves the calendar. -/
def sought? (handle : Handle α) (missed : Zoned → Bool) : Option (Handle α) :=
  match handle.sequence.seek missed 0 with
  | (.found t, _, sequence) => some { handle with sequence, nextFire := some t }
  | (.ended, _, sequence) => some { handle with sequence, state := .exhausted, nextFire := none }
  | (.outOfRange, _, _) => none

/-- The handle once it has been cancelled, if it was armed. -/
def withdrawn (handle : Handle α) : Handle α :=
  if handle.isArmed then { handle with state := .cancelled, nextFire := none } else handle

/-- A handle that is about to be armed for the first time. -/
def fresh (session name event : String) (rule : Rule) (args : List α) (coalesce : Bool)
    (notBefore : Stamp) : Handle α :=
  { name, event, args, session, coalesce
    sequence := .ofRule rule (some notBefore)
    registry := none
    timer := none
    nextFire := none
    fired := 0
    state := .armed }

@[simp] theorem core_fresh (session name event : String) (rule : Rule) (args : List α)
    (coalesce : Bool) (notBefore : Stamp) :
    (fresh session name event rule args coalesce notBefore).core =
      fresh session name event rule args coalesce notBefore := rfl

theorem isArmed_iff {handle : Handle α} : handle.isArmed = true ↔ handle.state = .armed := by
  simp [isArmed]

theorem withdrawn_of_ended {handle : Handle α} (ended : handle.state ≠ .armed) :
    handle.withdrawn = handle := by
  rw [withdrawn, if_neg (isArmed_iff.not.mpr ended)]

theorem sequence_withdrawn (handle : Handle α) :
    handle.withdrawn.sequence = handle.sequence := by
  unfold withdrawn
  split <;> rfl

/-- Seeking leaves the rule and the point of departure, and finds one of the occurrences that are
left. -/
theorem sought?_spec {handle handle' : Handle α} {missed : Zoned → Bool}
    (sought : handle.sought? missed = some handle') :
    handle.sequence.Alike handle'.sequence ∧
      ∀ t, handle'.nextFire = some t → t ∈ handle.sequence.run.1 := by
  unfold sought? at sought
  have found := handle.sequence.sought missed 0
  generalize handle.sequence.seek missed 0 = result at sought found
  cases found with
  | @found skipped t sequence alike run =>
    cases sought
    refine ⟨alike, fun u same => ?_⟩
    cases same
    rw [run]
    exact List.mem_append_right skipped List.mem_cons_self
  | ended alike =>
    cases sought
    refine ⟨alike, fun u same => ?_⟩
    cases same
  | outOfRange => cases sought

end Handle

namespace Agenda

variable {a b : Agenda α} {h h' : HandleId} {handle handle' x : Handle α} {id : RegistryId}
  {r : Named HandleId} {config : Config} {session name event : String}

def core? (a : Agenda α) (h : HandleId) : Option (Handle α) := (a.handle? h).map Handle.core

theorem core?_set (found : a.handle? h = some handle) (handles : b.handles = a.handles.set h handle')
    (h' : HandleId) : b.core? h' = if h' = h then some handle'.core else a.core? h' := by
  split
  · rename_i same
    subst same
    rw [core?, handle?_set_self handles (lt_of_handle? found), Option.map_some]
  · rename_i other
    rw [core?, handle?_set_ne handles other, core?]

theorem core?_quiet (quiet : a.Quiet b) (h : HandleId) : b.core? h = a.core? h := by
  have same := congrArg (Option.map Handle.core) (quiet.handle? h)
  rw [Option.map_map, Option.map_map] at same
  exact same

theorem core?_cancel (a : Agenda α) (h h' : HandleId) : (a.cancel h).1.core? h' =
    if h = h' then (a.core? h').map Handle.withdrawn else a.core? h' := by
  rcases cancel_spec a h with ⟨same, idle⟩ | ⟨-, handle, cancels⟩
  · rw [same]
    split
    · rename_i own
      subst own
      cases found : a.handle? h with
      | none => rw [core?, found, Option.map_none, Option.map_none]
      | some handle =>
        have ended : handle.core.state ≠ .armed := idle handle found
        rw [core?, found, Option.map_some, Option.map_some, Handle.withdrawn_of_ended ended]
    · rfl
  · rw [core?_set cancels.found cancels.handles]
    by_cases own : h = h'
    · subst own
      have armed : handle.core.isArmed = true := Handle.isArmed_iff.mpr cancels.armed
      rw [if_pos rfl, if_pos rfl, core?, cancels.found, Option.map_some, Option.map_some,
        Handle.withdrawn, if_pos armed]
      rfl
    · rw [if_neg (Ne.symm own), if_neg own]

/-! The clock. -/

@[simp] theorem clock_record (a : Agenda α) (x : Happening α) : (a.record x).clock = a.clock := rfl

@[simp] theorem clock_log (a : Agenda α) (level : LogLevel) (message : String) :
    (a.log level message).clock = a.clock := rfl

@[simp] theorem clock_noteAdded (a : Agenda α) (name event : String) (rule : Rule) :
    (a.noteAdded name event rule).clock = a.clock := by
  unfold noteAdded
  split <;> rfl

@[simp] theorem clock_setHandle (a : Agenda α) (h : HandleId) (handle : Handle α) :
    (a.setHandle h handle).clock = a.clock := rfl

@[simp] theorem clock_setRegistry (a : Agenda α) (id : RegistryId) (r : Named HandleId) :
    (a.setRegistry id r).clock = a.clock := rfl

@[simp] theorem clock_cancel (a : Agenda α) (h : HandleId) : (a.cancel h).1.clock = a.clock := by
  unfold cancel
  split
  · rfl
  · split
    · dsimp only
      split
      · unfold revoke
        split <;> rfl
      · rfl
    · rfl

@[simp] theorem clock_leave (a : Agenda α) (h : HandleId) (handle : Handle α) :
    (a.leave h handle).clock = a.clock := by
  obtain ⟨registries, left⟩ := leave_eq a h handle
  rw [left]

@[simp] theorem clock_obtainRegistry (a : Agenda α) (session key : String) :
    (a.obtainRegistry session key).1.clock = a.clock := by
  unfold obtainRegistry setHeap
  split
  · rfl
  · dsimp only
    split <;> rfl

@[simp] theorem clock_file (a : Agenda α) (id : RegistryId) (h : HandleId) :
    (a.file id h).clock = a.clock := by
  unfold file
  split <;> rfl

/-! Arming. -/

/-- The arming of a handle, told by what it comes to. -/
structure Arrives (a : Agenda α) (h : HandleId) (x : Handle α) (b : Agenda α) : Prop where
  handles : ∃ handle, handle.core = x ∧ b.handles = a.handles.set h handle
  pending : b.pending = a.pending ++ (x.nextFire.map fun t => ⟨a.nextEntry, t, h⟩).toList
  clock : b.clock = a.clock

theorem arm_core (a : Agenda α) (h : HandleId) (handle : Handle α) (passMissed : Bool) :
    match a.arm h handle passMissed with
    | (b, .ok _) => ∃ x, handle.core.sought? (fun t => passMissed && t.before a.clock) = some x ∧
        a.Arrives h x b
    | (_, .error _) => handle.core.sought? (fun t => passMissed && t.before a.clock) = none := by
  unfold arm Handle.sought?
  dsimp only [Handle.core]
  generalize handle.sequence.seek (fun t => passMissed && t.before a.clock) 0 = found
  obtain ⟨answer, passed, sequence⟩ := found
  generalize hnoted : (if passed = 0 then a else _) = noted
  have clock : noted.clock = a.clock := by
    rw [← hnoted]
    split <;> rfl
  obtain ⟨handles, pending, nextEntry, -⟩ := note_spec _ _ _ _ hnoted
  cases answer with
  | found t =>
    refine ⟨_, rfl, ⟨{ handle with sequence, nextFire := some t, timer := some noted.nextEntry },
      rfl, ?_⟩, ?_, clock⟩
    · rw [← handles]
      rfl
    · show noted.pending ++ [_] = _
      rw [pending, nextEntry]
      rfl
  | ended =>
    obtain ⟨handles', pending', -⟩ := exhaust_spec noted h { handle with sequence }
    refine ⟨_, rfl, ⟨{ handle with sequence, state := .exhausted, nextFire := none, timer := none },
      rfl, handles'.trans (by rw [handles])⟩, ?_, ?_⟩
    · rw [pending', pending]
      exact (List.append_nil _).symm
    · obtain ⟨message, exhausted⟩ := exhaust_eq noted h { handle with sequence }
      rw [exhausted]
      simpa using clock
  | outOfRange => rfl

theorem Arrives.core? (arrives : a.Arrives h x b) (inside : h < a.handles.length) (h' : HandleId) :
    b.core? h' = if h' = h then some x else a.core? h' := by
  obtain ⟨handle, rfl, handles⟩ := arrives.handles
  exact core?_set (List.getElem?_eq_getElem inside) handles h'

theorem Arrives.due (arrives : a.Arrives h x b) {e : Entry} (member : e ∈ b.pending) :
    e ∈ a.pending ∨ x.nextFire = some e.due := by
  rw [arrives.pending, List.mem_append] at member
  refine member.imp_right fun new => ?_
  obtain ⟨t, next, rfl⟩ := Option.map_eq_some_iff.mp (Option.mem_toList.mp new)
  exact next

/-- A handle that is created is sought from its beginning. -/
theorem create_core (a : Agenda α) (session name event : String) (rule : Rule) (args : List α)
    (coalesce : Bool) (notBefore : Stamp) :
    match a.create session name event rule args coalesce notBefore with
    | (b, .ok h) => h = a.handles.length ∧ ∃ x,
        (Handle.fresh session name event rule args coalesce notBefore).sought? (fun _ => false) =
          some x ∧
        (∀ h', b.core? h' = if h' = a.handles.length then some x else a.core? h') ∧
        (∀ e ∈ b.pending, e ∈ a.pending ∨ x.nextFire = some e.due) ∧ b.clock = a.clock
    | (b, .error f) => f = .outOfRange ∧ b = a ∧
        (Handle.fresh session name event rule args coalesce notBefore).sought? (fun _ => false) =
          none := by
  have spec := create_spec a session name event rule args coalesce notBefore
  unfold create at spec ⊢
  dsimp only at spec ⊢
  have armed := arm_core
    { a with handles := a.handles ++ [Handle.fresh session name event rule args coalesce notBefore] }
    a.handles.length (.fresh session name event rule args coalesce notBefore) false
  simp only [Bool.false_and, Handle.core_fresh] at armed
  unfold Handle.fresh at armed ⊢
  generalize ({ a with handles := a.handles ++ [_] } : Agenda α).arm a.handles.length _ false = result
    at spec armed ⊢
  rcases result with ⟨b, fault | ⟨⟩⟩
  · exact ⟨spec.1, rfl, armed⟩
  · obtain ⟨x, sought, arrives⟩ := armed
    refine ⟨rfl, x, sought, fun h' => ?_, fun e member => arrives.due member, arrives.clock⟩
    rw [arrives.core? (by simp)]
    split
    · rfl
    · rename_i other
      rw [Agenda.core?, handle?_append_ne other, Agenda.core?]

/-! Removing. -/

/-- Cores, clock and timer entries are left as they are. -/
structure Spares (a b : Agenda α) : Prop where
  cores : ∀ h, b.core? h = a.core? h
  pending : b.pending = a.pending
  clock : b.clock = a.clock

theorem Spares.quiet (quiet : a.Quiet b) (clock : b.clock = a.clock) : a.Spares b :=
  ⟨core?_quiet quiet, quiet.pending, clock⟩

/-- The handle that a session has under a name is withdrawn. -/
structure Withdraws (a : Agenda α) (old : Option HandleId) (b : Agenda α) : Prop where
  cores : ∀ h, b.core? h = if old = some h then (a.core? h).map Handle.withdrawn else a.core? h
  pending : ∀ e ∈ b.pending, e ∈ a.pending
  clock : b.clock = a.clock
  sessions : b.sessions = a.sessions

theorem Withdraws.none (spares : a.Spares b) (sessions : b.sessions = a.sessions) :
    a.Withdraws none b := by
  refine ⟨fun h => ?_, fun e member => spares.pending ▸ member, spares.clock, sessions⟩
  rw [if_neg (by simp), spares.cores]

theorem withdraws_cancel (a : Agenda α) (h : HandleId) : a.Withdraws (some h) (a.cancel h).1 := by
  refine ⟨fun h' => ?_, ?_, clock_cancel a h, sessions_of_holdings (holdings_cancel a h)⟩
  · rw [core?_cancel]
    simp
  · rcases cancel_spec a h with ⟨same, -⟩ | ⟨-, handle, cancels⟩
    · rw [same]
      exact fun _ => id
    · rw [cancels.pending]
      exact fun e member => (List.mem_filter.mp member).1

theorem Withdraws.after {c : Agenda α} {old : Option HandleId} (withdraws : b.Withdraws old c)
    (spares : a.Spares b) (sessions : b.sessions = a.sessions) : a.Withdraws old c := by
  refine ⟨fun h => ?_, fun e member => ?_, withdraws.clock.trans spares.clock,
    withdraws.sessions.trans sessions⟩
  · rw [withdraws.cores, spares.cores]
  · rw [← spares.pending]
    exact withdraws.pending e member

theorem Withdraws.before {c : Agenda α} {old : Option HandleId} (withdraws : a.Withdraws old b)
    (spares : b.Spares c) (sessions : c.sessions = b.sessions) : a.Withdraws old c := by
  refine ⟨fun h => ?_, fun e member => ?_, spares.clock.trans withdraws.clock,
    sessions.trans withdraws.sessions⟩
  · rw [spares.cores, withdraws.cores]
  · exact withdraws.pending e (spares.pending ▸ member)

theorem spares_log (a : Agenda α) (level : LogLevel) (message : String) :
    a.Spares (a.log level message) :=
  .quiet (quiet_log _ _) rfl

theorem spares_setRegistry (a : Agenda α) (id : RegistryId) (r : Named HandleId) :
    a.Spares (a.setRegistry id r) :=
  .quiet (quiet_setRegistry _ _) rfl

theorem withdraws_remove (a : Agenda α) (config : Config) (session name : String) :
    a.Withdraws (a.get? config session name) (a.remove config session name).1 := by
  have spec := a.remove_spec config session name
  generalize a.remove config session name = removed at spec ⊢
  have got {id : RegistryId} {r : Named HandleId}
      (held : a.findRegistry session config.heapKey = some (id, r)) :
      a.get? config session name = r.get? name := by
    simp [get?, held]
  cases spec with
  | unheld held =>
    have nothing : a.get? config session name = none := by simp [get?, held]
    rw [nothing]
    exact .none ⟨fun _ => rfl, rfl, rfl⟩ rfl
  | unnamed held named =>
    rw [got held, named]
    exact .none (spares_setRegistry a _ _) rfl
  | @cancels id r h held named =>
    rw [got held, named]
    have erased := spares_setRegistry a id (r.erase name)
    exact ((withdraws_cancel _ h).after erased rfl).before (spares_log _ _ _) rfl

/-! Adding. -/

theorem get?_obtained {b : Agenda α} (obtained : a.obtainRegistry session config.heapKey = (b, id, r))
    (name : String) : r.get? name = a.get? config session name := by
  unfold obtainRegistry at obtained
  split at obtained
  · rename_i held
    cases obtained
    simp [get?, held]
  · rename_i held
    cases obtained
    simp [get?, held, Named.empty, Named.get?]

@[simp] theorem handles_obtainRegistry (a : Agenda α) (session key : String) :
    (a.obtainRegistry session key).1.handles = a.handles := by
  unfold obtainRegistry setHeap
  split
  · rfl
  · dsimp only
    split <;> rfl

theorem Vacates.withdraws (vacates : a.Vacates r name h b) (new : r.get? name ≠ some h) :
    a.Withdraws (r.get? name) b := by
  cases vacates with
  | free named =>
    rw [named]
    exact .none ⟨fun _ => rfl, rfl, rfl⟩ rfl
  | own named => exact absurd named new
  | replaced named =>
    rw [named]
    exact (withdraws_cancel a _).before (spares_log _ _ _) rfl

/-- What adding a schedule comes to, told by the rule that is read, by what is stored under the name,
and by what a fresh handle is sought to. -/
inductive Enters (a : Agenda α) (config : Config) (session name event : String) (source : RuleSource)
    (args : List α) : Agenda α × Except Fault HandleId → Prop where
  | invalid {e : SpecError}
      (unread : source.rule { a.clock with wall := a.clock.wall.wholeSecond } = .error e) :
      Enters a config session name event source args (a, .error e.fault)
  | duplicate {rule : Rule} {b : Agenda α}
      (read : source.rule { a.clock with wall := a.clock.wall.wholeSecond } = .ok rule)
      (taken : a.get? config session name ≠ none) (strict : config.replaceExisting = false)
      (spares : a.Spares b)
      (sessions : b.sessions = (a.obtainRegistry session config.heapKey).1.sessions) :
      Enters a config session name event source args (b, .error (.duplicate name))
  | fails {rule : Rule} {b : Agenda α}
      (read : source.rule { a.clock with wall := a.clock.wall.wholeSecond } = .ok rule)
      (free : a.get? config session name ≠ none → config.replaceExisting = true)
      (beyond : (Handle.fresh session name event rule args config.coalesce
        { a.clock with wall := a.clock.wall.wholeSecond }).sought? (fun _ => false) = none)
      (spares : a.Spares b)
      (sessions : b.sessions = (a.obtainRegistry session config.heapKey).1.sessions) :
      Enters a config session name event source args (b, .error .outOfRange)
  | makes {rule : Rule} {b : Agenda α} {x : Handle α}
      (read : source.rule { a.clock with wall := a.clock.wall.wholeSecond } = .ok rule)
      (free : a.get? config session name ≠ none → config.replaceExisting = true)
      (sought : (Handle.fresh session name event rule args config.coalesce
        { a.clock with wall := a.clock.wall.wholeSecond }).sought? (fun _ => false) = some x)
      (cores : ∀ h, b.core? h = if h = a.handles.length then some x
        else if a.get? config session name = some h then (a.core? h).map Handle.withdrawn
        else a.core? h)
      (due : ∀ e ∈ b.pending, e ∈ a.pending ∨ x.nextFire = some e.due)
      (clock : b.clock = a.clock)
      (sessions : b.sessions = (a.obtainRegistry session config.heapKey).1.sessions) :
      Enters a config session name event source args (b, .ok a.handles.length)

variable {event : String} {source : RuleSource} {args : List α} {ended : HandleId → Prop}

theorem Enters.clock {added : Agenda α × Except Fault HandleId}
    (enters : a.Enters config session name event source args added) :
    added.1.clock = a.clock := by
  cases enters with
  | invalid => rfl
  | duplicate read taken strict spares => exact spares.clock
  | fails read free beyond spares => exact spares.clock
  | makes read free sought cores due clock => exact clock

theorem obtained_spares (obtained : a.obtainRegistry session config.heapKey = (b, id, r)) :
    a.Spares b ∧ b.handles = a.handles ∧
      b.sessions = (a.obtainRegistry session config.heapKey).1.sessions := by
  have quiet := quiet_obtainRegistry (a := a) session config.heapKey
  have clock := clock_obtainRegistry a session config.heapKey
  have handles := handles_obtainRegistry a session config.heapKey
  rw [obtained] at quiet clock handles ⊢
  exact ⟨.quiet quiet clock, handles, rfl⟩

theorem taken_iff (obtained : a.obtainRegistry session config.heapKey = (b, id, r)) :
    r.contains name = true ↔ a.get? config session name ≠ none := by
  rw [Named.contains, get?_obtained obtained, Option.isSome_iff_ne_none]

/-- The new handle has been sought, and nothing else has been done to handles. -/
structure Begins (a : Agenda α) (config : Config) (session name event : String) (source : RuleSource)
    (args : List α) (rule : Rule) (x : Handle α) (c : Agenda α) : Prop where
  read : source.rule { a.clock with wall := a.clock.wall.wholeSecond } = .ok rule
  free : a.get? config session name ≠ none → config.replaceExisting = true
  sought : (Handle.fresh session name event rule args config.coalesce
    { a.clock with wall := a.clock.wall.wholeSecond }).sought? (fun _ => false) = some x
  cores : ∀ h, c.core? h = if h = a.handles.length then some x else a.core? h
  due : ∀ e ∈ c.pending, e ∈ a.pending ∨ x.nextFire = some e.due
  clock : c.clock = a.clock
  sessions : c.sessions = (a.obtainRegistry session config.heapKey).1.sessions

theorem Makes.unsought {rule : Rule} {c : Agenda α} {fault : Fault}
    (makes : a.Makes config session name event source args rule b id r (c, .error fault)) :
    (Handle.fresh session name event rule args config.coalesce
      { a.clock with wall := a.clock.wall.wholeSecond }).sought? (fun _ => false) = none := by
  have created := create_core b session name event rule args config.coalesce
    { a.clock with wall := a.clock.wall.wholeSecond }
  rw [makes.made] at created
  exact created.2.2

theorem Makes.begins {rule : Rule} {c : Agenda α}
    (makes : a.Makes config session name event source args rule b id r (c, .ok h)) :
    h = a.handles.length ∧ ∃ x, a.Begins config session name event source args rule x c := by
  obtain ⟨spares, handles, sessions⟩ := obtained_spares makes.obtained
  have created := create_core b session name event rule args config.coalesce
    { a.clock with wall := a.clock.wall.wholeSecond }
  rw [makes.made] at created
  obtain ⟨rfl, x, sought, cores, due, clock⟩ := created
  obtain ⟨-, handle, creates, -⟩ := makes.creates
  rw [handles] at cores ⊢
  refine ⟨rfl, x, makes.read, ?_, sought, fun h => ?_, fun e member => ?_, ?_, ?_⟩
  · rw [← taken_iff makes.obtained]
    exact makes.free
  · rw [cores, spares.cores]
  · rw [← spares.pending]
    exact due e member
  · exact clock.trans spares.clock
  · exact (creates.arms.sessions.trans rfl).trans sessions

/-- The handle that makes way is withdrawn. -/
theorem Begins.enters {rule : Rule} {c d : Agenda α}
    (begins : a.Begins config session name event source args rule x c)
    (known : ∀ h, a.get? config session name = some h → h ≠ a.handles.length)
    (withdraws : c.Withdraws (a.get? config session name) d) :
    a.Enters config session name event source args (d, .ok a.handles.length) := by
  refine .makes begins.read begins.free begins.sought (fun h => ?_) ?_
    (withdraws.clock.trans begins.clock) (withdraws.sessions.trans begins.sessions)
  · rw [withdraws.cores, begins.cores]
    by_cases own : h = a.handles.length
    · have other : a.get? config session name ≠ some h := fun stored => known h stored own
      rw [if_neg other, if_pos own, if_pos own]
    · rw [if_neg own, if_neg own]
  · exact fun e member => begins.due e (withdraws.pending e member)

theorem Withdraws.popped {d : Agenda α} {old : Option HandleId} {message : String}
    (registry : a.registry? id = some r)
    (popped : (a.log .info message).popFromRegistry id name = (d, old)) :
    a.Spares d ∧ d.sessions = a.sessions ∧ r.get? name = old := by
  obtain ⟨rfl, named⟩ := popped_eq popped registry
  exact ⟨.quiet ((quiet_log _ _).trans (quiet_setRegistry _ _)) rfl, rfl, named⟩

theorem Orderly.enters (orderly : a.Orderly ended) (lives : session ∈ a.names) (config : Config)
    (name event : String) (source : RuleSource) (args : List α) :
    a.Enters config session name event source args
      (a.addSchedule config session name event source args) := by
  have known (h : HandleId) (stored : a.get? config session name = some h) :
      h ≠ a.handles.length := by
    obtain ⟨id, -, files⟩ := orderly.get?_iff.mp stored
    obtain ⟨s, -, -, state, labelled, -⟩ := orderly.filed id name h files
    obtain ⟨handle, found, -⟩ := Option.map_eq_some_iff.mp labelled
    exact (lt_of_handle? found).ne
  have spec := a.addSchedule_spec config session name event source args
  generalize a.addSchedule config session name event source args = added at spec ⊢
  cases spec with
  | invalid unread => exact .invalid unread
  | duplicate read obtained taken strict =>
    obtain ⟨spares, -, sessions⟩ := obtained_spares obtained
    exact .duplicate read ((taken_iff obtained).mp taken) strict spares sessions
  | fails makes =>
    obtain ⟨spares, -, sessions⟩ := obtained_spares makes.obtained
    obtain ⟨rfl, rfl⟩ := makes.unmade
    exact .fails makes.read (fun taken => makes.free ((taken_iff makes.obtained).mpr taken))
      makes.unsought spares sessions
  | @stores rule b c id r h makes armed =>
    have fresh := orderly.makes lives makes
    obtain ⟨rfl, x, begins⟩ := makes.begins
    have new : r.get? name ≠ some a.handles.length := by
      rw [get?_obtained makes.obtained]
      exact fun stored => known _ stored rfl
    obtain ⟨d, vacates, put⟩ := putInRegistry_spec fresh.registry name a.handles.length
    have withdraws := vacates.withdraws new
    rw [get?_obtained makes.obtained] at withdraws
    apply begins.enters known
    rw [put]
    have filed : d.Spares ((d.setRegistry id (r.put name a.handles.length)).file id
        a.handles.length) :=
      .quiet ((quiet_setRegistry _ _).trans (quiet_file _ _)) (by simp)
    have sessions := sessions_of_holdings
      (holdings_file (d.setRegistry id (r.put name a.handles.length)) id a.handles.length)
    exact (withdraws.before filed sessions).before
      (.quiet (quiet_noteAdded _ _ _) (clock_noteAdded _ _ _ _))
      (sessions_of_holdings (holdings_noteAdded _ _ _ _))
  | drops makes past popped =>
    have fresh := orderly.makes lives makes
    obtain ⟨rfl, x, begins⟩ := makes.begins
    obtain ⟨spares, sessions, named⟩ := Withdraws.popped fresh.registry popped
    rw [get?_obtained makes.obtained] at named
    apply begins.enters known
    rw [named]
    exact .none spares sessions
  | ends makes past popped =>
    have fresh := orderly.makes lives makes
    obtain ⟨rfl, x, begins⟩ := makes.begins
    obtain ⟨spares, sessions, named⟩ := Withdraws.popped fresh.registry popped
    rw [get?_obtained makes.obtained] at named
    apply begins.enters known
    rw [named]
    exact ((withdraws_cancel _ _).after spares sessions).before (spares_log _ _ _) rfl

end Agenda

end Almanac
