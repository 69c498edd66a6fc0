import Almanac.Schedule.Arming

set_option autoImplicit false

/-!
The operations of a scheduler on the schedules of a session, and those of a session's registries.
-/

namespace Almanac

variable {α : Type}

namespace Agenda

/-- Stores a handle under a name and cancels the one that it replaces, which is told. -/
def putInRegistry (a : Agenda α) (id : RegistryId) (name : String) (h : HandleId) :
    Agenda α × Option HandleId :=
  match a.registry? id with
  | none => (a, none)
  | some r =>
    let previous := r.get? name
    let a := match previous with
      | some old =>
        if old = h then a
        else (a.cancel old).1.log .info ("Schedule " ++ Text.quoted name ++ " replaced")
      | none => a
    let a := a.setRegistry id (r.put name h)
    let a := match a.handle? h with
      | some handle => a.setHandle h { handle with registry := some id }
      | none => a
    (a, previous)

/-- Removes a name from a registry and tells its handle. -/
def popFromRegistry (a : Agenda α) (id : RegistryId) (name : String) :
    Agenda α × Option HandleId :=
  match a.registry? id with
  | none => (a, none)
  | some r => (a.setRegistry id (r.erase name), r.get? name)

/-- Cancels handles and counts those that were armed. -/
def cancelAll (a : Agenda α) : List HandleId → Agenda α × Nat
  | [] => (a, 0)
  | h :: hs =>
    let (a, cancelled) := a.cancel h
    let (a, n) := cancelAll a hs
    (a, if cancelled then n + 1 else n)

def clearRegistry (a : Agenda α) (id : RegistryId) : Agenda α × Nat :=
  match a.registry? id with
  | none => (a, 0)
  | some r => (a.setRegistry id .empty).cancelAll r.values

/-- Notes that a schedule was added, unless its rule has no text. -/
def noteAdded (a : Agenda α) (name event : String) (rule : Rule) : Agenda α :=
  if rule.hasText then
    a.log .info ("Schedule " ++ Text.quoted name ++ " added: event " ++ Text.quoted event ++ ", " ++
      rule.text)
  else a

/-- Adds a schedule. A handle that is exhausted from the start is not stored, but ends the one
stored under its name all the same. -/
def addSchedule (a : Agenda α) (config : Config) (session name event : String)
    (source : RuleSource) (args : List α) : Agenda α × Except Fault HandleId :=
  let now : Zoned := { a.clock with wall := a.clock.wall.wholeSecond }
  match source.rule now with
  | .error e => (a, .error e.fault)
  | .ok rule =>
    let (a, id, registry) := a.obtainRegistry session config.heapKey
    if registry.contains name && !config.replaceExisting then (a, .error (.duplicate name))
    else match a.create session name event rule args config.coalesce now with
      | (a, .error fault) => (a, .error fault)
      | (a, .ok h) =>
        let quoted := Text.quoted name
        if (a.handle? h).any Handle.isArmed then
          ((a.putInRegistry id name h).1.noteAdded name event rule, .ok h)
        else
          let a := a.log .info ("Schedule " ++ quoted ++
            " has no future occurrence; not registered")
          match a.popFromRegistry id name with
          | (a, some old) =>
            ((a.cancel old).1.log .info ("Schedule " ++ quoted ++ " replaced"), .ok h)
          | (a, none) => (a, .ok h)

/-- Cancels the schedule of a name. Whether there was a live one is told. -/
def remove (a : Agenda α) (config : Config) (session name : String) : Agenda α × Bool :=
  match a.findRegistry session config.heapKey with
  | none => (a, false)
  | some (id, _) =>
    match a.popFromRegistry id name with
    | (a, none) => (a, false)
    | (a, some h) =>
      let (a, cancelled) := a.cancel h
      (a.log .info ("Schedule " ++ Text.quoted name ++ " removed"), cancelled)

def removeAll (a : Agenda α) (config : Config) (session : String) : Agenda α × Nat :=
  match a.findRegistry session config.heapKey with
  | none => (a, 0)
  | some (id, _) =>
    let (a, n) := a.clearRegistry id
    (a.log .info ("Removed " ++ toString n ++ " schedules"), n)

def get? (a : Agenda α) (config : Config) (session name : String) : Option HandleId := do
  let (_, r) ← a.findRegistry session config.heapKey
  r.get? name

/-- The names of a session's schedules. -/
def schedules (a : Agenda α) (config : Config) (session : String) : List String :=
  match a.findRegistry session config.heapKey with
  | some (_, r) => r.names
  | none => []

/-- The names of the schedules of every session that can be named, by scheduler. -/
def allSchedules (a : Agenda α) : List (String × String × List String) :=
  (a.sessions.filter Session.listed).flatMap fun s =>
    a.schedulers.map fun (via, config) => (s.name, via, a.schedules config s.name)

/-- The heap of a session, by key. -/
def heapShown (a : Agenda α) (s : Session α) : List (String × HeapShown α) :=
  let shown : HeapValue α → HeapShown α
    | .registry id => .registry ((a.registry? id).elim 0 Named.size)
    | .plain value => .plain value
  (s.heap.map fun (key, v) => (key, shown v)).mergeSort (fun x y => x.1 ≤ y.1)

end Agenda

end Almanac
