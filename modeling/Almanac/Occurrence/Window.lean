import Almanac.Occurrence.Sequence

set_option autoImplicit false

/-!
Windows on the occurrences of a rule: those after one instant and up to another.
-/

namespace Almanac

structure Window where
  seq : Sequence
  after : Option Zoned
  upTo : Option Zoned

namespace Window

/-- The occurrences strictly after an instant, or all of them. -/
def ofRule (r : Rule) (after : Option Stamp) : Window :=
  { seq := .ofRule r after
    after := after.map (·.inZone r.start.zone)
    upTo := none }

/-- The occurrences strictly after one instant and not after another. -/
def between (r : Rule) (after upTo : Stamp) : Window :=
  { ofRule r (some after) with upTo := some (upTo.inZone r.start.zone) }

def next (w : Window) : Sequence.Answer × Window :=
  let (answer, _, seq) := w.seq.seek (fun t => w.after.any (fun after => t.notAfter after)) 0
  let w := { w with seq }
  match answer with
  | .found t => if w.upTo.any (fun upTo => upTo.before t) then (.ended, w) else (.found t, w)
  | answer => (answer, w)

/-- The next `n` occurrences. -/
def takeNext : Nat → Window → List Zoned × Sequence.Ending
  | 0, _ => ([], .limit)
  | n + 1, w =>
    match w.next with
    | (.found t, w) =>
      let (ts, ending) := takeNext n w
      (t :: ts, ending)
    | (.ended, _) => ([], .ended)
    | (.outOfRange, _) => ([], .outOfRange)

end Window

namespace Rule

/-- The first occurrence strictly after an instant. -/
def nextFrom (r : Rule) (instant : Stamp) : Sequence.Answer :=
  (Window.ofRule r (some instant)).next.1

/-- The first `n` occurrences strictly after an instant, or nothing where `n` is negative or an
occurrence leaves the calendar. -/
def nextFewFrom? (r : Rule) (instant : Stamp) (n : Int) : Option (List Zoned) :=
  if n < 0 then none
  else match (Window.ofRule r (some instant)).takeNext n.toNat with
    | (_, .outOfRange) => none
    | (ts, _) => some ts

end Rule

end Almanac
