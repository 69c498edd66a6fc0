import Almanac.Schedule.Action
import Almanac.Schedule.Config
import Almanac.Schedule.Named

set_option autoImplicit false

/-!
An agenda: a clock with its outstanding timer entries, the sessions that receive events, and the
handles of their schedules.

A session keeps the registries of its schedules on its heap, one for each key. Handles know their
registry only by its number, and a registry that no heap holds any more is gone. A session that is
dropped can no longer be named; it is gone too once nothing that it is dispatching still runs.

All that happens is recorded in the journal, the latest first.
-/

namespace Almanac

variable {α : Type}

/-- A timer entry: the handle to fire at an instant. -/
structure Entry where
  id : EntryId
  due : Zoned
  handle : HandleId

inductive HeapValue (α : Type) where
  | registry (id : RegistryId)
  | plain (value : α)

/-- What a session does for an event, and how often it has done it. -/
structure Handler (α : Type) where
  script : Script α
  calls : Nat

structure Session (α : Type) where
  name : String
  heap : List (String × HeapValue α)
  handlers : List (String × Handler α)
  listed : Bool

inductive Happening (α : Type) where
  | logged (record : LogRecord)
  | called (session event : String) (args : List α)
  | dispatched (h : HandleId) (due clock : Zoned)
  | passedOver (h : HandleId) (count : Nat)

structure Agenda (α : Type) where
  clock : Zoned
  revocable : Bool
  pending : List Entry
  nextEntry : EntryId
  handles : List (Handle α)
  registries : List (RegistryId × Named HandleId)
  nextRegistry : RegistryId
  sessions : List (Session α)
  schedulers : List (String × Config)
  journal : List (Happening α)

namespace Session

def empty (name : String) : Session α := ⟨name, [], [], true⟩

def shown (s : Session α) : String := "Session(" ++ Text.quoted s.name ++ ")"

/-- The registries that a session holds. -/
def registries (s : Session α) : List RegistryId :=
  s.heap.filterMap fun (_, v) => match v with
    | .registry id => some id
    | .plain _ => none

end Session

/-- The list with a value under a key, in the place of the old one or at the end. -/
def putPair {β : Type} (key : String) (b : β) : List (String × β) → List (String × β)
  | [] => [(key, b)]
  | e :: es => if e.1 = key then (key, b) :: es else e :: putPair key b es

namespace Agenda

def start (clock : Zoned) (revocable : Bool) (sessions : List String)
    (schedulers : List (String × Config)) : Agenda α :=
  { clock, revocable, schedulers
    pending := []
    nextEntry := 0
    handles := []
    registries := []
    nextRegistry := 0
    sessions := sessions.map .empty
    journal := [] }

/-! Recording. -/

def record (a : Agenda α) (h : Happening α) : Agenda α := { a with journal := h :: a.journal }

def log (a : Agenda α) (level : LogLevel) (message : String) : Agenda α :=
  a.record (.logged ⟨level, message⟩)

/-! Handles. -/

def handle? (a : Agenda α) (h : HandleId) : Option (Handle α) := a.handles[h]?

def setHandle (a : Agenda α) (h : HandleId) (handle : Handle α) : Agenda α :=
  { a with handles := a.handles.set h handle }

/-! Sessions. -/

/-- A session that still exists. -/
def session? (a : Agenda α) (name : String) : Option (Session α) :=
  a.sessions.find? (fun s => s.name = name)

/-- A session that can be named. -/
def listed? (a : Agenda α) (name : String) : Option (Session α) :=
  (a.session? name).filter Session.listed

def setSession (a : Agenda α) (s : Session α) : Agenda α :=
  { a with sessions := a.sessions.map (fun t => if t.name = s.name then s else t) }

/-- Lets go of sessions that can neither be named nor are held, and of their registries. -/
def release (a : Agenda α) (held : List String) : Agenda α :=
  let stays (s : Session α) : Bool := s.listed || held.contains s.name
  if a.sessions.all stays then a
  else
    let gone := (a.sessions.filter (fun s => !stays s)).flatMap Session.registries
    { a with
      sessions := a.sessions.filter stays
      registries := a.registries.filter (fun r => !gone.contains r.1) }

/-! Registries. -/

def registry? (a : Agenda α) (id : RegistryId) : Option (Named HandleId) := a.registries.lookup id

def setRegistry (a : Agenda α) (id : RegistryId) (r : Named HandleId) : Agenda α :=
  { a with registries := a.registries.map (fun e => if e.1 = id then (id, r) else e) }

/-- The registry on a session's heap under a key. -/
def findRegistry (a : Agenda α) (session key : String) : Option (RegistryId × Named HandleId) := do
  let s ← a.session? session
  match ← s.heap.lookup key with
  | .registry id => return (id, ← a.registry? id)
  | .plain _ => none

/-- Puts a value on a session's heap. A registry that it replaces is gone. -/
def setHeap (a : Agenda α) (session key : String) (value : HeapValue α) : Agenda α :=
  match a.session? session with
  | none => a
  | some s =>
    let gone := match s.heap.lookup key with
      | some (.registry id) => [id]
      | _ => []
    { a with registries := a.registries.filter (fun r => !gone.contains r.1) }
      |>.setSession { s with heap := putPair key value s.heap }

/-- The registry on a session's heap under a key, put there if there is none. -/
def obtainRegistry (a : Agenda α) (session key : String) :
    Agenda α × RegistryId × Named HandleId :=
  match a.findRegistry session key with
  | some (id, r) => (a, id, r)
  | none =>
    let id := a.nextRegistry
    let a := a.setHeap session key (.registry id)
    ({ a with
        registries := a.registries ++ [(id, .empty)]
        nextRegistry := id + 1 },
      id, .empty)

/-! The clock and its entries. -/

/-- The later of the clock and an instant; the clock where neither is later. -/
def clockAtLeast (a : Agenda α) (t : Zoned) : Agenda α :=
  if a.clock.before t then { a with clock := t } else a

/-- The entry to run first: the earliest, and of several the one registered first. -/
def earliest : List Entry → Option Entry
  | [] => none
  | e :: es =>
    match earliest es with
    | none => some e
    | some later => some (if later.due.before e.due then later else e)

/-- The first entry to run among those due by an instant. -/
def dueBy? (a : Agenda α) (t : Zoned) : Option Entry :=
  earliest (a.pending.filter (fun e => e.due.notAfter t))

def removeEntry (a : Agenda α) (id : EntryId) : Agenda α :=
  { a with pending := a.pending.filter (fun e => e.id ≠ id) }

def register (a : Agenda α) (due : Zoned) (h : HandleId) : Agenda α × EntryId :=
  ({ a with
      pending := a.pending ++ [⟨a.nextEntry, due, h⟩]
      nextEntry := a.nextEntry + 1 },
    a.nextEntry)

/-- Takes an entry back, if the timer can. -/
def revoke (a : Agenda α) (id : EntryId) : Agenda α :=
  if a.revocable then a.removeEntry id else a

end Agenda

end Almanac
