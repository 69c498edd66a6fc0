import Almanac.Occurrence.Sequence
import Almanac.Text.Quoted

set_option autoImplicit false

/-!
Schedule handles. A handle stands for one schedule: the event it dispatches, the occurrences it has
left, and the one timer entry that it waits for while armed.
-/

namespace Almanac

abbrev HandleId := Nat

abbrev EntryId := Nat

abbrev RegistryId := Nat

inductive HandleState where
  | armed | exhausted | cancelled
  deriving DecidableEq

def HandleState.name : HandleState → String
  | armed => "armed"
  | exhausted => "exhausted"
  | cancelled => "cancelled"

structure Handle (α : Type) where
  name : String
  event : String
  args : List α
  session : String
  coalesce : Bool
  sequence : Sequence
  registry : Option RegistryId
  timer : Option EntryId
  nextFire : Option Zoned
  fired : Nat
  state : HandleState

namespace Handle

variable {α : Type}

def rule (h : Handle α) : Rule := h.sequence.plan.rule

def isArmed (h : Handle α) : Bool := h.state = .armed

def shown (h : Handle α) : String :=
  "ScheduleHandle(name=" ++ Text.quoted h.name ++ ", event=" ++ Text.quoted h.event ++
    ", state=" ++ h.state.name ++ ")"

end Handle

end Almanac
