import Almanac.Time.Zone

set_option autoImplicit false

/-!
Wall times in a zone, and how they compare.

Two times in one named zone compare by their wall time alone; all others by their instant in UTC.
Two times are the same when neither is earlier, but across zones a time whose offset would change
with its fold is the same as no other.
-/

namespace Almanac

structure Zoned where
  wall : WallTime
  zone : Zone
  fold : Bool
  deriving DecidableEq

namespace Zoned

def offset (t : Zoned) : Offset := t.zone.offsetAt t.wall t.fold

/-- Microseconds of UTC since the start of year 1. -/
def utc (t : Zoned) : Int := t.wall.micros - t.offset.micros

/-- The places of two times on a common line: the wall of a shared zone, or UTC. -/
def onCommonLine (s t : Zoned) : Int × Int :=
  if s.zone.sharesTable t.zone then (s.wall.micros, t.wall.micros) else (s.utc, t.utc)

def before (s t : Zoned) : Bool :=
  let (a, b) := onCommonLine s t
  a < b

def notAfter (s t : Zoned) : Bool :=
  let (a, b) := onCommonLine s t
  a ≤ b

/-- Whether flipping the fold changes the offset. -/
def foldSensitive (t : Zoned) : Bool := t.zone.offsetAt t.wall (!t.fold) ≠ t.offset

def same (s t : Zoned) : Bool :=
  if s.zone.sharesTable t.zone then s.wall = t.wall
  else s.utc = t.utc && !s.foldSensitive && !t.foldSensitive

/-- The instant in a zone, where both its UTC time and its wall time are in the calendar. -/
def ofUtc? (zone : Zone) (utc : Int) : Option Zoned := do
  let _ ← WallTime.ofMicros? utc
  let (offset, fold) := zone.offsetAtUtc utc
  return ⟨← WallTime.ofMicros? (utc + offset.micros), zone, fold⟩

/-- The same instant read in another zone. -/
def inZone? (t : Zoned) (zone : Zone) : Option Zoned :=
  if t.zone.sharesTable zone then some t else ofUtc? zone t.utc

/-- Moves the wall time; the result is read without a fold. -/
def add? (t : Zoned) (micros : Int) : Option Zoned := do
  return ⟨← t.wall.add? micros, t.zone, false⟩

end Zoned

/-- A wall time as written, whose zone may be left open. -/
structure Stamp where
  wall : WallTime
  zone : Option Zone
  fold : Bool
  deriving DecidableEq

namespace Stamp

/-- The stamp read in its own zone, or in `zone` where it has none. -/
def inZone (s : Stamp) (zone : Zone) : Zoned := ⟨s.wall, s.zone.getD zone, s.fold⟩

/-- What the clocks of `zone` show; a stamp without a zone is one of theirs. -/
def wallIn? (s : Stamp) (zone : Zone) : Option WallTime :=
  match s.zone with
  | none => some s.wall
  | some own => ((⟨s.wall, own, s.fold⟩ : Zoned).inZone? zone).map Zoned.wall

end Stamp

instance : Coe Zoned Stamp := ⟨fun t => ⟨t.wall, some t.zone, t.fold⟩⟩

end Almanac
