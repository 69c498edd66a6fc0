import Almanac.Time.Wall

set_option autoImplicit false

/-!
Time zones. A zone is a fixed offset from UTC or a named table of transitions between offsets.

A wall time that a transition skips or repeats has two readings, told apart by a fold: the fold is
set for the later reading of a repeated time, and for a skipped time it takes the offset after the
transition. So the wall time from which a new offset is read is the transition plus the larger of
its two offsets without the fold, and plus the smaller with it.
-/

namespace Almanac

/-- A distance east of UTC in microseconds, less than a day either way. -/
structure Offset where
  micros : Int
  underDay : micros.natAbs < dayMicros
  deriving DecidableEq

namespace Offset

def zero : Offset := ⟨0, by decide⟩

def ofMicros? (n : Int) : Option Offset := if h : n.natAbs < dayMicros then some ⟨n, h⟩ else none

def ofSeconds? (n : Int) : Option Offset := ofMicros? (n * secondMicros)

end Offset

/-- A change of offset at an instant, in microseconds of UTC since the start of year 1. -/
structure Transition where
  utc : Int
  offset : Offset
  deriving DecidableEq

namespace Transition

/-- The transition at a number of seconds since 1970. -/
def ofUnix (seconds : Int) (offset : Offset) : Transition :=
  ⟨seconds * secondMicros + epochMicros, offset⟩

/-- The wall time from which the new offset is read. -/
def wallBoundary (old : Offset) (t : Transition) (fold : Bool) : Int :=
  t.utc + (if fold then min old.micros t.offset.micros else max old.micros t.offset.micros)

end Transition

structure ZoneTable where
  name : String
  initial : Offset
  transitions : List Transition
  deriving DecidableEq

namespace ZoneTable

/-- The offset read at a wall time, after the transitions whose boundary is not past it. -/
def offsetFrom (wall : Int) (fold : Bool) : Offset → List Transition → Offset
  | old, [] => old
  | old, t :: ts =>
    if t.wallBoundary old fold ≤ wall then offsetFrom wall fold t.offset ts else old

/-- The offset in force at an instant, and whether its wall time repeats one from before the last
transition. -/
def inForce (utc : Int) : Offset → Bool → List Transition → Offset × Bool
  | old, repeated, [] => (old, repeated)
  | old, repeated, t :: ts =>
    if t.utc ≤ utc then inForce utc t.offset (utc - t.utc < old.micros - t.offset.micros) ts
    else (old, repeated)

end ZoneTable

inductive Zone where
  | fixed (offset : Offset)
  | table (rules : ZoneTable)
  deriving DecidableEq

namespace Zone

def utc : Zone := fixed .zero

def offsetAt (z : Zone) (wall : WallTime) (fold : Bool) : Offset :=
  match z with
  | fixed o => o
  | table r => ZoneTable.offsetFrom wall.micros fold r.initial r.transitions

/-- The offset in force at an instant, and the fold of its wall time. -/
def offsetAtUtc (z : Zone) (utc : Int) : Offset × Bool :=
  match z with
  | fixed o => (o, false)
  | table r => ZoneTable.inForce utc r.initial false r.transitions

/-- Whether two zones are one table, known by its name. Wall times in one table are compared as
they stand. -/
def sharesTable : Zone → Zone → Bool
  | table r, table s => r.name == s.name
  | _, _ => false

end Zone

end Almanac
