import Almanac.Rule.Spec
import Almanac.Rule.Written
import Almanac.Schedule.Handle

set_option autoImplicit false

/-!
What can be asked of an agenda, by its user or by the handlers of its events, and what is answered.
The arguments that events carry, and plain values kept on a heap, are of any type `α`.
-/

namespace Almanac

/-- Where the rule of a schedule comes from: a specification, or a rule compiled at an earlier
time. -/
inductive RuleSource where
  | spec (s : Spec)
  | compiled (s : Spec) (now : Stamp)

namespace RuleSource

def rule (source : RuleSource) (now : Stamp) : Except SpecError Rule :=
  match source with
  | spec s => s.rule now
  | compiled s earlier => s.rule earlier

/-- A check of a specification; a compiled rule is none. -/
def verify (source : RuleSource) (now : Stamp) : Except SpecError Rule :=
  match source with
  | spec s => s.rule now
  | compiled s earlier => do
    let _ ← s.rule earlier
    throw (.unsupported "RecurrenceRule")

end RuleSource

inductive Action (α : Type) where
  | on (session event : String) (script : List (Option Nat × Action α))
  | add (via session name event : String) (source : RuleSource) (args : List α)
  | create (session name event : String) (source : RuleSource) (args : List α) (coalesce : Bool)
      (notBefore : Option Stamp)
  | remove (via session name : String)
  | removeAll (via session : String)
  | get (via session name : String)
  | schedules (via session : String)
  | verify (source : RuleSource)
  | isValid (source : RuleSource)
  | tryVerify (source : RuleSource)
  | advance (micros : Int)
  | jump (micros : Int)
  | dispatch (session event : String) (args : List α)
  | drop (session : String)
  | heap (session : String)
  | setHeap (session key : String) (value : α)
  | showSession (session : String)
  | describe (h : HandleId)
  | cancel (h : HandleId)
  | findRegistry (session key : String)
  | putInRegistry (session key name : String) (h : HandleId)
  | discardFromRegistry (session key name : String) (h : HandleId)
  | getFromRegistry (session key name : String)
  | popFromRegistry (session key name : String)
  | clearRegistry (session key : String)
  | viewRegistry (session key : String) (asked : List String)
  | fail (message : String)

/-- The actions of a handler in their order. One with a number is for the call of that number
only. -/
abbrev Script (α : Type) := List (Option Nat × Action α)

/-- Why an action was not carried out. All of these are errors that a firing catches; what would
stop a program altogether, such as an interrupt, is not among them. -/
inductive Fault where
  | invalid (e : SpecError)
  /-- An error in a specification cannot be told, as a number in its complaint is too long. -/
  | tooManyDigits
  | duplicate (name : String)
  | outOfRange
  | raised (message : String)
  | unknownSession (name : String)
  | unknownScheduler (name : String)
  | unknownHandle (h : HandleId)

/-- What becomes of an error in a specification. -/
def SpecError.fault (e : SpecError) : Fault := if e.hasText then .invalid e else .tooManyDigits

namespace SpecError

variable {e e' : SpecError}

@[simp] theorem fault_eq_invalid_iff : e.fault = .invalid e' ↔ e = e' ∧ e.hasText = true := by
  unfold fault
  split <;> simp_all

@[simp] theorem fault_eq_tooManyDigits_iff : e.fault = .tooManyDigits ↔ e.hasText = false := by
  unfold fault
  split <;> simp_all

@[simp] theorem fault_ne_duplicate {name : String} : e.fault ≠ .duplicate name := by
  unfold fault
  split <;> simp

end SpecError

def Fault.duplicateMessage (name : String) : String :=
  "schedule " ++ Text.quoted name ++ " already exists"

/-- What a registry shows of itself: its names, and which of those asked for are among them. -/
structure RegistryView where
  names : List String
  has : List Bool

inductive HeapShown (α : Type) where
  | registry (size : Nat)
  | plain (value : α)

inductive Reply (α : Type) where
  | nothing
  | handle (h : Option HandleId)
  | truth (b : Bool)
  | count (n : Nat)
  | names (ns : List String)
  | text (s : String)
  | rule (r : Rule)
  | verdict (r : Except SpecError Rule)
  | heap (entries : List (String × HeapShown α))
  | description (h : Handle α)
  | view (v : RegistryView)
  | handled (event : String) (call : Nat)

abbrev Outcome (α : Type) := Except Fault (Reply α)

end Almanac
