import Almanac.Rule.Basic
import Almanac.Rule.Given
import Almanac.Rule.Parts

set_option autoImplicit false

/-!
Building a rule from its specification, which is rule text or a mapping from part names to values.
Both give values to parts; the values are then read part by part and the parts checked against each
other. The first error found is the one reported.
-/

namespace Almanac

/-- The values given for parts. -/
abbrev Params := List (Part × Value)

namespace Params

/-- The value of a part; a value of nothing counts as none given. -/
def get? (ps : Params) (part : Part) : Option Value :=
  (ps.lookup part).filter (fun v => !v.isNothing)

/-- Reads the value of a part, where there is one. -/
def read {α : Type} (ps : Params) (part : Part) (f : Value → Except SpecError α) :
    Except SpecError (Option α) :=
  match ps.get? part with
  | some v => (f v).map some
  | none => .ok none

def numbers (ps : Params) (part : Part) : Except SpecError (List Int) := do
  return (← ps.read part (Value.numbers part)).getD []

/-- The numbers of a part that admits none below zero. -/
def naturals (ps : Params) (part : Part) : Except SpecError (List Nat) := do
  return (← ps.numbers part).map Int.toNat

end Params

namespace Rule

def conflict? (r : Rule) : Option Conflict :=
  let ordinals := r.days.filterMap DayPattern.ordinal
  if !r.weekNumbers.isEmpty && r.freq ≠ .yearly then some .weekNumbersNotYearly
  else if !r.yearDays.isEmpty && (r.freq = .daily || r.freq = .weekly || r.freq = .monthly) then
    some (.yearDays r.freq)
  else if !r.monthDays.isEmpty && r.freq = .weekly then some .monthDaysWeekly
  else if ordinals.isEmpty then none
  else if (r.freq ≠ .monthly && r.freq ≠ .yearly) || !r.weekNumbers.isEmpty then some .ordinals
  else if (r.freq = .monthly || !r.months.isEmpty) && ordinals.any (fun n => 5 < n.natAbs) then
    some .ordinalsInMonth
  else none

/-- The start of a rule that gives none: `now`, on a whole second. -/
def defaultStart (now : Stamp) : Zoned := { now.inZone .utc with wall := now.wall.wholeSecond }

/-- The rule with the given parts. -/
def ofParams (ps : Params) (now : Stamp) : Except SpecError Rule := do
  let freq ← ((ps.lookup .freq).getD .nothing).frequencyOf
  let ⟨interval, interval_pos⟩ := (← ps.read .interval Value.intervalOf).getD ⟨1, Nat.one_pos⟩
  if (ps.get? .count).isSome && (ps.get? .finish).isSome then throw .countAndFinish
  let start := (← ps.read .start (Value.instant .start .utc)).getD (defaultStart now)
  let count ← ps.read .count Value.countOf
  let finish ← ps.read .finish (Value.instant .finish start.zone)
  let endsBefore ← ps.read .endsBefore (Value.instant .endsBefore start.zone)
  let weekStart := (← ps.read .weekStart (Value.weekdayOf .weekStart)).getD .monday
  let days := (← ps.read .day Value.patterns).getD []
  let seconds ← ps.naturals .second
  let minutes ← ps.naturals .minute
  let hours ← ps.naturals .hour
  let monthDays ← ps.numbers .monthDay
  let yearDays ← ps.numbers .yearDay
  let weekNumbers ← ps.numbers .weekNumber
  let months ← ps.naturals .month
  let positions ← ps.numbers .position
  let rule : Rule :=
    { freq, start, interval, count, finish, endsBefore, weekStart, seconds, minutes, hours, days,
      monthDays, yearDays, weekNumbers, months, positions, interval_pos }
  match rule.conflict? with
  | some c => throw (.conflict c)
  | none => return rule

end Rule

/-- A recurrence specification. A mapping is cut short at a name that has no text. -/
inductive Spec where
  | text (s : String)
  | map (entries : List (String × Value))
  | cut (entries : List (String × Value)) (name : Value)
  | unsupported (typeName : String)

namespace Spec

/-- The entries of a mapping in which a repeated name takes its last value at its first place. -/
def distinctEntries (entries : List (String × Value)) : List (String × Value) :=
  entries.foldl (fun seen e =>
    if seen.any (fun s => s.1 = e.1) then seen.map (fun s => if s.1 = e.1 then e else s)
    else seen ++ [e]) []

def ofEntries (entries : List (Value × Value)) : Spec :=
  let (named, rest) := entries.span (fun e => e.1.isShowable)
  let named := distinctEntries (named.map (fun (k, v) => (k.plain, v)))
  match rest with
  | [] => map named
  | (name, _) :: _ => cut named name

/-- The specification that a value is, if it is text or a mapping. -/
def ofValue : Value → Spec
  | .text s => text s
  | .dict entries => ofEntries entries
  | v => unsupported v.typeName

/-- The values of a mapping by part. -/
def paramsOf (seen : Params) : List (String × Value) → Except SpecError Params
  | [] => .ok seen
  | (name, v) :: rest =>
    match Part.ofName? name with
    | none => .error (.unknownParameter (.text name))
    | some part =>
      if seen.any (fun p => p.1 = part) then .error (.repeatedParameter name)
      else paramsOf (seen ++ [(part, v)]) rest

def params : Spec → Except SpecError Params
  | text s => do return (← Parts.ofText s).map (fun (p, s) => (p, .text s))
  | map entries => paramsOf [] entries
  | cut entries name => do
    let _ ← paramsOf [] entries
    throw (.unknownParameter name)
  | unsupported typeName => .error (.unsupported typeName)

/-- The rule of a specification. `now` is the start where the specification gives none. -/
def rule (spec : Spec) (now : Stamp) : Except SpecError Rule := do
  Rule.ofParams (← spec.params) now

/-- Whether the specification gives a rule, which does not depend on the time. There is no answer
where the complaint has no text. -/
def isValid? (spec : Spec) : Option Bool :=
  match spec.rule ⟨.startOf ⟨0, by decide⟩, some .utc, false⟩ with
  | .ok _ => some true
  | .error e => if e.hasText then some false else none

end Spec

end Almanac
