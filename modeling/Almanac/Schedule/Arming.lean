import Almanac.Schedule.Agenda

set_option autoImplicit false

/-!
Arming, ending and firing the handles of an agenda.

A handle is armed by taking the next occurrence of its sequence and registering a timer entry for
it. When nothing is left the handle is exhausted and leaves its registry.
-/

namespace Almanac

variable {α : Type}

namespace Agenda

/-- Cancels an armed handle. Whether it was armed is told. -/
def cancel (a : Agenda α) (h : HandleId) : Agenda α × Bool :=
  match a.handle? h with
  | none => (a, false)
  | some handle =>
    if handle.isArmed then
      let a := a.setHandle h { handle with state := .cancelled, nextFire := none, timer := none }
      let a := match handle.timer with
        | some entry => a.revoke entry
        | none => a
      (a.log .debug ("Schedule " ++ Text.quoted handle.name ++ " cancelled after " ++
        toString handle.fired ++ " dispatches"), true)
    else (a, false)

/-- Drops a name from a registry if it still stands for the handle. -/
def discard (a : Agenda α) (id : RegistryId) (name : String) (h : HandleId) : Agenda α × Bool :=
  match a.registry? id with
  | none => (a, false)
  | some r => if r.get? name = some h then (a.setRegistry id (r.erase name), true) else (a, false)

/-- Ends a handle that has no occurrence left. -/
def exhaust (a : Agenda α) (h : HandleId) (handle : Handle α) : Agenda α :=
  let a := a.setHandle h { handle with state := .exhausted, nextFire := none, timer := none }
  let a := a.log .debug ("Schedule " ++ Text.quoted handle.name ++ " exhausted after " ++
    toString handle.fired ++ " dispatches")
  match handle.registry with
  | some id => (a.discard id handle.name h).1
  | none => a

/-- Arms a handle for its next occurrence, or for its next one that is not past. -/
def arm (a : Agenda α) (h : HandleId) (handle : Handle α) (passMissed : Bool) :
    Agenda α × Except Fault Unit :=
  let missed (t : Zoned) : Bool := passMissed && t.before a.clock
  let (answer, passed, sequence) := handle.sequence.seek missed 0
  let handle := { handle with sequence }
  let noted :=
    if passed = 0 then a
    else (a.record (.passedOver h passed)).log .warning ("Schedule " ++ Text.quoted handle.name ++
      " skipped " ++ toString passed ++ " missed occurrences")
  match answer with
  | .outOfRange => (a.setHandle h handle, .error .outOfRange)
  | .ended => (noted.exhaust h handle, .ok ())
  | .found t =>
    let (a, entry) := noted.register t h
    let a := a.setHandle h { handle with nextFire := some t, timer := some entry }
    (a.log .debug ("Schedule " ++ Text.quoted handle.name ++ " armed for " ++ t.text), .ok ())

/-- A new handle, armed for its first occurrence at or after `notBefore`. -/
def create (a : Agenda α) (session name event : String) (rule : Rule) (args : List α)
    (coalesce : Bool) (notBefore : Stamp) : Agenda α × Except Fault HandleId :=
  let h := a.handles.length
  let handle : Handle α :=
    { name, event, args, session, coalesce
      sequence := .ofRule rule (some notBefore)
      registry := none
      timer := none
      nextFire := none
      fired := 0
      state := .armed }
  match { a with handles := a.handles ++ [handle] }.arm h handle false with
  | (a, .ok ()) => (a, .ok h)
  | (_, .error fault) => (a, .error fault)

/-- Arms a handle again after its dispatch, unless it has ended meanwhile. -/
def rearm (a : Agenda α) (h : HandleId) : Agenda α × Except Fault Unit :=
  match a.handle? h with
  | none => (a, .ok ())
  | some handle => if handle.isArmed then a.arm h handle handle.coalesce else (a, .ok ())

/-- What the entry of a handle finds when it runs: a dispatch to make, or nothing to do. A handle
whose session is gone is cancelled. -/
def fire (a : Agenda α) (h : HandleId) : Agenda α × Option (Handle α) :=
  match a.handle? h with
  | none => (a, none)
  | some handle =>
    if handle.isArmed then
      let handle := { handle with timer := none }
      if (a.session? handle.session).isNone then
        let a := a.log .debug ("Schedule " ++ Text.quoted handle.name ++
          " dropped: its consumer no longer exists")
        (a.setHandle h { handle with state := .cancelled, nextFire := none }, none)
      else
        let handle := { handle with fired := handle.fired + 1 }
        let a := a.setHandle h handle
        let a := match handle.nextFire with
          | some due => a.record (.dispatched h due a.clock)
          | none => a
        (a, some handle)
    else (a, none)

end Agenda

end Almanac
