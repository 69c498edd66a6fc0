import Almanac.Proofs.Time.Exact

set_option autoImplicit false

/-!
How the times of a run are read.

A clock that is moved up to an occurrence takes over its zone. Where all is in one zone without folds
that changes nothing: instants are ordered by their wall times, and are the same when these are. Where
zones are offsets of whole seconds the clock may show one instant at another offset. There instants
are ordered in UTC, and what is left of an offset is dropped by reading them there; only near the ends
of the calendar an instant that is shown at one offset cannot be shown at another.
-/

namespace Almanac

/-- No wall time is read in the zone with a fold. -/
def Zone.Plain (z : Zone) : Prop := ∀ wall t, z.resolve? wall = some t → t.fold = false

/-- A zone with a fixed offset knows no folds. -/
theorem Zone.plain_fixed (offset : Offset) : (fixed offset).Plain :=
  fun _ _ resolved => (resolve?_fixed resolved).2.1

/-- The zone is an offset of whole seconds. -/
def Zone.IsWhole (z : Zone) : Prop :=
  ∃ offset : Offset, z = .fixed offset ∧ offset.micros % secondMicros = 0

theorem Zone.isWhole_utc : utc.IsWhole := ⟨.zero, rfl, rfl⟩

namespace Zoned

/-- The instant is read in a zone, without a fold. -/
structure At (z : Zone) (t : Zoned) : Prop where
  zone : t.zone = z
  fold : t.fold = false

/-- The later of two instants; the first where neither is later. -/
def later (s t : Zoned) : Zoned := if s.before t then t else s

/-- What a clock shows, on a whole second. -/
def wholeSecond (t : Zoned) : Zoned := { t with wall := t.wall.wholeSecond }

variable {z : Zone} {s t u : Zoned}

theorem At.eq (hs : s.At z) (ht : t.At z) (same : s.wall.micros = t.wall.micros) : s = t := by
  obtain ⟨⟨m, inside⟩, zone, fold⟩ := s
  obtain ⟨⟨n, inside'⟩, zone', fold'⟩ := t
  obtain ⟨rfl, rfl⟩ := hs
  obtain ⟨rfl, rfl⟩ := ht
  cases same
  rfl

theorem add?_eq_some_iff {n : Int} : t.add? n = some u ↔
    (u.wall.micros : Int) = t.wall.micros + n ∧ u.zone = t.zone ∧ u.fold = false := by
  obtain ⟨wall, zone, fold⟩ := u
  simp only [add?, WallTime.add?, Option.bind_eq_bind, Option.bind_eq_some_iff,
    WallTime.ofMicros?_eq_some_iff, Option.pure_def, Option.some.injEq, mk.injEq]
  constructor
  · rintro ⟨wall, micros, rfl, rfl, rfl⟩
    exact ⟨micros, rfl, rfl⟩
  · rintro ⟨micros, rfl, rfl⟩
    exact ⟨wall, micros, rfl, rfl, rfl⟩

end Zoned

/-- How the times of a run are read: all in one zone that knows no folds, or at any offsets of whole
seconds. -/
inductive Reckoning where
  | oneZone (zone : Zone) (plain : zone.Plain)
  | wholeOffsets

namespace Reckoning

/-- The zones in which rules may start. -/
def Zones : Reckoning → Zone → Prop
  | oneZone zone _, z => z = zone
  | wholeOffsets, z => z.IsWhole

/-- The times that rules may give. -/
def Admits : Reckoning → Zoned → Prop
  | oneZone zone _, t => t.At zone
  | wholeOffsets, t => t.zone.IsWhole

/-- Where a time stands on the line by which times are ordered. -/
def place : Reckoning → Zoned → Int
  | oneZone .., t => t.wall.micros
  | wholeOffsets, t => t.utc

/-- Where the clock may come to. An instant that is a day or more from both ends of the calendar can
be shown at every offset. -/
def Holds : Reckoning → Int → Prop
  | oneZone .., _ => True
  | wholeOffsets, n => dayMicros ≤ n ∧ n < calendarMicros - dayMicros

/-- How far the clock may be moved at a time. -/
def Allows : Reckoning → Int → Prop
  | oneZone .., _ => True
  | wholeOffsets, micros => 0 ≤ micros

/-- How an instant is told: as the clock shows it, or in UTC. -/
def reading : Reckoning → Zoned → Zoned
  | oneZone .., t => t
  | wholeOffsets, t => (t.inZone? .utc).getD t

/-- A time that the clock may show. -/
structure Shows (ρ : Reckoning) (t : Zoned) : Prop where
  admits : ρ.Admits t
  holds : ρ.Holds (ρ.place t)

variable {ρ : Reckoning} {s t u : Zoned} {n : Int}

theorem admits_of_resolve? {z : Zone} {wall : WallTime} (zone : ρ.Zones z)
    (resolved : z.resolve? wall = some t) : ρ.Admits t := by
  cases ρ with
  | oneZone _ plain =>
    obtain ⟨u, read, -⟩ := Zone.resolve?_spec resolved
    exact ⟨(Zoned.ofUtc?_eq_some_iff.mp read).2.2.1.trans zone, plain wall t (zone ▸ resolved)⟩
  | wholeOffsets =>
    obtain ⟨offset, rfl, whole⟩ := zone
    exact ⟨offset, (Zone.resolve?_fixed resolved).1, whole⟩

theorem before_iff (hs : ρ.Admits s) (ht : ρ.Admits t) :
    s.before t = true ↔ ρ.place s < ρ.place t := by
  cases ρ with
  | oneZone =>
    rw [Zoned.before_iff_wall (hs.zone.trans ht.zone.symm)]
    exact Int.ofNat_lt.symm
  | wholeOffsets =>
    obtain ⟨offset, zone, -⟩ := hs
    exact Zoned.before_iff_utc zone

theorem notAfter_iff (hs : ρ.Admits s) (ht : ρ.Admits t) :
    s.notAfter t = true ↔ ρ.place s ≤ ρ.place t := by
  rw [Zoned.notAfter_iff_not_before, before_iff ht hs, Int.not_lt]

theorem before_congr (hs : ρ.Admits s) (ht : ρ.Admits t) (hu : ρ.Admits u)
    (same : ρ.place s = ρ.place t) : u.before s = u.before t := by
  rw [Bool.eq_iff_iff, before_iff hu hs, before_iff hu ht, same]

/-! The later of two times. -/

theorem admits_later (hs : ρ.Admits s) (ht : ρ.Admits t) : ρ.Admits (s.later t) := by
  unfold Zoned.later
  split
  · exact ht
  · exact hs

theorem place_later (hs : ρ.Admits s) (ht : ρ.Admits t) :
    ρ.place (s.later t) = max (ρ.place s) (ρ.place t) := by
  have before := before_iff hs ht
  unfold Zoned.later
  split
  · rw [Int.max_eq_right (before.mp ‹_›).le]
  · rw [Int.max_eq_left (Int.not_lt.mp (before.not.mp ‹_›))]

theorem Holds.between {m k : Int} (low : ρ.Holds m) (high : ρ.Holds k) (above : m ≤ n)
    (below : n ≤ k) : ρ.Holds n := by
  cases ρ with
  | oneZone => trivial
  | wholeOffsets => exact ⟨low.1.trans above, below.trans_lt high.2⟩

/-- An allowed move leads to where the clock may come to, if that reaches as far. -/
theorem Allows.holds {m k : Int} (allowed : ρ.Allows n) (low : ρ.Holds m) (high : ρ.Holds k)
    (below : m + n.toNat ≤ k) : ρ.Holds (m + n) := by
  cases ρ with
  | oneZone => trivial
  | wholeOffsets =>
    have forward : 0 ≤ n := allowed
    exact low.between high (by omega) (by omega)

theorem Shows.later {goal : Zoned} (hs : ρ.Shows s) (ht : ρ.Admits t) (hg : ρ.Shows goal)
    (due : ρ.place t ≤ ρ.place goal) : ρ.Shows (s.later t) := by
  refine ⟨admits_later hs.admits ht, ?_⟩
  unfold Zoned.later
  split
  · rename_i before
    exact hs.holds.between hg.holds ((before_iff hs.admits ht).mp before).le due
  · exact hs.holds

/-! Readings. -/

/-- Away from the ends of the calendar every instant can be read in UTC. -/
theorem Shows.reading_spec (ht : wholeOffsets.Shows t) :
    ((wholeOffsets.reading t).wall.micros : Int) = t.utc ∧ (wholeOffsets.reading t).At .utc := by
  obtain ⟨⟨offset, zone, -⟩, low, high⟩ := ht
  have inUtc : t.inZone? .utc = Zoned.ofUtc? .utc t.utc := by
    rw [Zoned.inZone?, zone]
    rfl
  simp only [place, dayMicros_eq] at low high
  obtain ⟨u, read⟩ := Zoned.exists_ofUtc? .utc low (by omega)
  obtain ⟨-, wall, zone, fold⟩ := Zoned.ofUtc?_eq_some_iff.mp read
  rw [reading, inUtc, read]
  exact ⟨wall.trans (Int.add_zero _), zone, fold⟩

theorem Shows.place_reading (ht : ρ.Shows t) : ρ.place (ρ.reading t) = ρ.place t := by
  cases ρ with
  | oneZone => rfl
  | wholeOffsets =>
    obtain ⟨wall, at_⟩ := ht.reading_spec
    rw [place, Zoned.utc_fixed at_.zone, wall]
    exact Int.sub_zero _

theorem Shows.reading (ht : ρ.Shows t) : ρ.Shows (ρ.reading t) := by
  refine ⟨?_, ht.place_reading ▸ ht.holds⟩
  cases ρ with
  | oneZone => exact ht.admits
  | wholeOffsets =>
    rw [Admits, ht.reading_spec.2.zone]
    exact Zone.isWhole_utc

theorem Shows.reading_congr (hs : ρ.Shows s) (ht : ρ.Shows t) (same : ρ.place s = ρ.place t) :
    ρ.reading s = ρ.reading t := by
  cases ρ with
  | oneZone => exact hs.admits.eq ht.admits (Int.ofNat_inj.mp same)
  | wholeOffsets =>
    obtain ⟨wall, at_⟩ := hs.reading_spec
    obtain ⟨wall', at'⟩ := ht.reading_spec
    exact at_.eq at' (Int.ofNat_inj.mp (wall.trans (same.trans wall'.symm)))

/-- Readings are all that can be told of the clock. -/
theorem Shows.reading_eq_iff (hs : ρ.Shows s) (ht : ρ.Shows t) :
    ρ.reading s = ρ.reading t ↔ ρ.place s = ρ.place t := by
  refine ⟨fun same => ?_, hs.reading_congr ht⟩
  rw [← hs.place_reading, same, ht.place_reading]

theorem Shows.reading_later (hs : ρ.Shows s) (ht : ρ.Shows t) :
    ρ.reading (s.later t) = (ρ.reading s).later (ρ.reading t) := by
  have same : (ρ.reading s).before (ρ.reading t) = s.before t := by
    rw [Bool.eq_iff_iff, before_iff hs.reading.admits ht.reading.admits,
      before_iff hs.admits ht.admits, hs.place_reading, ht.place_reading]
  rw [Zoned.later, Zoned.later, same, apply_ite ρ.reading]

/-- What is shown in UTC is read as it stands. -/
theorem Shows.reading_of_utc (ht : wholeOffsets.Shows t) (at_ : t.At .utc) :
    wholeOffsets.reading t = t := by
  obtain ⟨wall, read⟩ := ht.reading_spec
  refine read.eq at_ (Int.ofNat_inj.mp (wall.trans ?_))
  rw [Zoned.utc_fixed at_.zone]
  exact Int.sub_zero _

/-- In a zone where a rule may start an instant shows the same, however the clock shows it. -/
theorem Shows.inZone?_reading {z : Zone} (ht : ρ.Shows t) (zone : ρ.Zones z) :
    (ρ.reading t).inZone? z = t.inZone? z := by
  cases ρ with
  | oneZone => rfl
  | wholeOffsets =>
    obtain ⟨offset, rfl, -⟩ := zone
    obtain ⟨own, fixed, -⟩ := ht.admits
    have there (u : Zoned) (fixed : ∃ own, u.zone = .fixed own) :
        u.inZone? (.fixed offset) = Zoned.ofUtc? (.fixed offset) u.utc := by
      obtain ⟨own, fixed⟩ := fixed
      rw [Zoned.inZone?, fixed]
      rfl
    rw [there _ ⟨_, ht.reading_spec.2.zone⟩, there _ ⟨own, fixed⟩]
    exact congrArg _ ht.place_reading

/-! Moving the clock. -/

theorem Shows.add? (ht : ρ.Shows t) (holds : ρ.Holds (ρ.place t + n)) (added : t.add? n = some u) :
    ρ.Shows u ∧ ρ.place u = ρ.place t + n := by
  obtain ⟨wall, zone, fold⟩ := Zoned.add?_eq_some_iff.mp added
  have same : ρ.place u = ρ.place t + n := by
    cases ρ with
    | oneZone => exact wall
    | wholeOffsets =>
      obtain ⟨offset, fixed, -⟩ := ht.admits
      rw [place, place, Zoned.utc_fixed (zone.trans fixed), Zoned.utc_fixed fixed, wall]
      omega
  refine ⟨⟨?_, same ▸ holds⟩, same⟩
  cases ρ with
  | oneZone => exact ⟨zone.trans ht.admits.zone, fold⟩
  | wholeOffsets =>
    rw [Admits, zone]
    exact ht.admits

/-- Away from the ends of the calendar the clock can be moved at every offset. -/
theorem Shows.exists_add? (ht : wholeOffsets.Shows t) (holds : wholeOffsets.Holds (t.utc + n)) :
    ∃ u, t.add? n = some u := by
  obtain ⟨⟨offset, zone, -⟩, -⟩ := ht
  have bounds := offset.bounds
  obtain ⟨low, high⟩ := holds
  rw [Zoned.utc_fixed zone, dayMicros_eq] at low high
  have inside : (t.wall.micros + n).toNat < calendarMicros := by omega
  exact ⟨⟨⟨_, inside⟩, t.zone, false⟩, Zoned.add?_eq_some_iff.mpr
    ⟨Int.toNat_of_nonneg (by omega), rfl, rfl⟩⟩

theorem Shows.reading_add? (ht : ρ.Shows t) (holds : ρ.Holds (ρ.place t + n)) :
    (ρ.reading t).add? n = (t.add? n).map ρ.reading := by
  cases ρ with
  | oneZone => exact Option.map_id'.symm
  | wholeOffsets =>
    have read := ht.reading
    have holds' := ht.place_reading ▸ holds
    obtain ⟨u, added⟩ := ht.exists_add? holds
    obtain ⟨v, added'⟩ := read.exists_add? holds'
    obtain ⟨hu, here⟩ := ht.add? holds added
    obtain ⟨hv, there⟩ := read.add? holds' added'
    obtain ⟨-, zone, fold⟩ := Zoned.add?_eq_some_iff.mp added'
    have inUtc : v.At .utc := ⟨zone.trans ht.reading_spec.2.zone, fold⟩
    have same := hv.reading_congr hu (there.trans (ht.place_reading ▸ here.symm))
    rw [added, added', Option.map_some, ← same, hv.reading_of_utc inUtc]

/-! Whole seconds. -/

theorem Shows.utc_wholeSecond (ht : wholeOffsets.Shows t) :
    t.wholeSecond.utc = t.utc - t.utc % 1000000 := by
  obtain ⟨⟨offset, zone, whole⟩, -⟩ := ht
  have fixed : t.wholeSecond.zone = .fixed offset := zone
  have wall : (t.wholeSecond.wall.micros : Int) = t.wall.micros - t.wall.micros % 1000000 := by
    have micros : t.wholeSecond.wall.micros = t.wall.micros - t.wall.microsecond := rfl
    rw [micros, WallTime.microsecond_eq]
    omega
  rw [secondMicros_eq] at whole
  rw [Zoned.utc_fixed fixed, Zoned.utc_fixed zone, wall]
  omega

theorem Shows.wholeSecond (ht : ρ.Shows t) : ρ.Shows t.wholeSecond := by
  cases ρ with
  | oneZone => exact ⟨⟨ht.admits.zone, ht.admits.fold⟩, trivial⟩
  | wholeOffsets =>
    refine ⟨ht.admits, ?_⟩
    obtain ⟨low, high⟩ := ht.holds
    simp only [place] at low high
    rw [Holds, place, ht.utc_wholeSecond]
    rw [dayMicros_eq] at low high ⊢
    omega

theorem Shows.reading_wholeSecond (ht : ρ.Shows t) :
    ρ.reading t.wholeSecond = (ρ.reading t).wholeSecond := by
  cases ρ with
  | oneZone => rfl
  | wholeOffsets =>
    have read := ht.reading
    obtain ⟨-, zone, fold⟩ := ht.reading_spec
    have same : wholeOffsets.place t.wholeSecond =
        wholeOffsets.place (wholeOffsets.reading t).wholeSecond := by
      have place := ht.place_reading
      simp only [Reckoning.place] at place ⊢
      rw [ht.utc_wholeSecond, read.utc_wholeSecond, place]
    rw [ht.wholeSecond.reading_congr read.wholeSecond same]
    exact read.wholeSecond.reading_of_utc ⟨zone, fold⟩

end Reckoning

end Almanac
