import Almanac.Proofs.Time.Resolve

set_option autoImplicit false

/-!
Zones whose clocks settle between jumps.

Where the transitions of a table lie two days or more apart, no clock jumps again before every time
that the last jump skipped or repeated is over. Reading a wall time and showing its instant again
then gives the wall time back, except in a gap, which it leaves by the length of the jump; and of two
instants the later one shows the later time, unless it repeats one from before a jump.
-/

namespace Almanac

namespace ZoneTable

variable {u v wall : Int} {old : Offset} {ts : List Transition} {repeated repeated' : Bool}

/-- The jumps of the clocks: the instant of each, and how far it moves them on. -/
def jumps : Offset → List Transition → List (Int × Int)
  | _, [] => []
  | old, t :: ts => (t.utc, t.offset.micros - old.micros) :: jumps t.offset ts

/-- Transitions that leave two days between one and the next. -/
def Apart (ts : List Transition) : Prop :=
  ts.Pairwise (fun s t => s.utc + 172800000000 ≤ t.utc)

/-- A wall time that a jump of length `d` at the instant `T` skips. Its instant lies in the gap, where
it shows the time as much later as the jump is long, and before the gap every time shown is earlier
than the one skipped. -/
structure Skips (wall : Int) (old : Offset) (ts : List Transition) (T d : Int) : Prop where
  jump : (T, d) ∈ jumps old ts
  reached : T ≤ wall - (offsetFrom wall false old ts).micros
  within : wall - (offsetFrom wall false old ts).micros < T + d
  after : ∃ new : Offset, new.micros = (offsetFrom wall false old ts).micros + d ∧
    inForce (wall - (offsetFrom wall false old ts).micros) old false ts = (new, false)
  before : ∀ u repeated, u < T → u + (inForce u old repeated ts).1.micros < wall

/-- Offsets and transitions at whole seconds. -/
def Whole (old : Offset) (ts : List Transition) : Prop :=
  old.micros % 1000000 = 0 ∧ ∀ t ∈ ts, t.utc % 1000000 = 0 ∧ t.offset.micros % 1000000 = 0

/-- The offset read at a wall time is that of a transition which has happened by then, or the one
from before all transitions. -/
theorem offsetFrom_reached (wall : Int) (old : Offset) (ts : List Transition) :
    offsetFrom wall false old ts = old ∨
      ∃ t ∈ ts, offsetFrom wall false old ts = t.offset ∧ t.utc + t.offset.micros ≤ wall := by
  induction ts generalizing old with
  | nil => exact .inl rfl
  | cons t ts ih =>
    rw [offsetFrom]
    split
    · rename_i past
      have boundary : t.utc + t.offset.micros ≤ wall :=
        Int.le_trans (Int.add_le_add_left (Int.le_max_right _ _) _) past
      rcases ih t.offset with same | ⟨t', member, same, reached⟩
      · exact .inr ⟨t, List.mem_cons_self, same, boundary⟩
      · exact .inr ⟨t', List.mem_cons_of_mem t member, same, reached⟩
    · exact .inl rfl

theorem inForce_reached (u : Int) (old : Offset) (repeated : Bool) (ts : List Transition) :
    inForce u old repeated ts = (old, repeated) ∨
      ∃ t ∈ ts, (inForce u old repeated ts).1 = t.offset ∧ t.utc ≤ u := by
  induction ts generalizing old repeated with
  | nil => exact .inl rfl
  | cons t ts ih =>
    rw [inForce]
    split
    · rename_i past
      rcases ih t.offset (decide (u - t.utc < old.micros - t.offset.micros)) with
        same | ⟨t', member, same, reached⟩
      · exact .inr ⟨t, List.mem_cons_self, by rw [same], past⟩
      · exact .inr ⟨t', List.mem_cons_of_mem t member, same, reached⟩
    · exact .inl rfl

theorem inForce_before (later : ∀ t ∈ ts, u < t.utc) :
    inForce u old repeated ts = (old, repeated) := by
  rcases inForce_reached u old repeated ts with same | ⟨t, member, _, reached⟩
  · exact same
  · have := later t member
    omega

/-- The instant of a wall time shows it again, unless a jump skips it. -/
theorem inForce_offsetFrom (apart : Apart ts) :
    inForce (wall - (offsetFrom wall false old ts).micros) old false ts =
        (offsetFrom wall false old ts, false) ∨ ∃ T d, Skips wall old ts T d := by
  induction ts generalizing old with
  | nil => exact .inl rfl
  | cons t ts ih =>
    obtain ⟨later, apart⟩ := List.pairwise_cons.mp apart
    have oldBounds := old.bounds
    have newBounds := t.offset.bounds
    by_cases past : t.wallBoundary old false ≤ wall
    · -- the instant lies after the transition, and after all that it repeats
      have boundary : t.utc + max old.micros t.offset.micros ≤ wall := past
      have reading : offsetFrom wall false old (t :: ts) = offsetFrom wall false t.offset ts := by
        rw [offsetFrom, if_pos past]
      have reached : t.utc ≤ wall - (offsetFrom wall false t.offset ts).micros ∧
          old.micros - t.offset.micros ≤
            wall - (offsetFrom wall false t.offset ts).micros - t.utc := by
        rcases offsetFrom_reached wall t.offset ts with same | ⟨t', member, same, reached⟩
        · rw [same]
          omega
        · have := later t' member
          rw [same]
          omega
      have force : inForce (wall - (offsetFrom wall false t.offset ts).micros) old false (t :: ts) =
          inForce (wall - (offsetFrom wall false t.offset ts).micros) t.offset false ts := by
        rw [inForce, if_pos reached.1, decide_eq_false (Int.not_lt.mpr reached.2)]
      rw [reading, force]
      rcases (ih apart : inForce (wall - (offsetFrom wall false t.offset ts).micros) t.offset false
        ts = _ ∨ _) with same | ⟨T, d, skips⟩
      · exact .inl same
      · right
        refine ⟨T, d, List.mem_cons_of_mem _ skips.jump, by rw [reading]; exact skips.reached,
          by rw [reading]; exact skips.within, by rw [reading, force]; exact skips.after, ?_⟩
        intro u repeated before
        rw [inForce]
        split
        · exact skips.before u _ before
        · dsimp only
          omega
    · have boundary : wall < t.utc + max old.micros t.offset.micros := Int.not_le.mp past
      have reading : offsetFrom wall false old (t :: ts) = old := by rw [offsetFrom, if_neg past]
      by_cases reached : t.utc ≤ wall - old.micros
      · right
        refine ⟨t.utc, t.offset.micros - old.micros, List.mem_cons_self, by rw [reading]; omega,
          by rw [reading]; omega, ⟨t.offset, by rw [reading]; omega, ?_⟩, ?_⟩
        · rw [reading, inForce, if_pos reached, decide_eq_false (by omega)]
          apply inForce_before
          intro t' member
          have := later t' member
          omega
        · intro u repeated before
          rw [inForce, if_neg (by omega)]
          dsimp only
          omega
      · left
        rw [reading, inForce, if_neg reached]

/-- Of two instants the later one shows the later time, unless it repeats one from before a jump. -/
theorem shown_lt (apart : Apart ts) (less : u < v) (new : (inForce v old repeated ts).2 = false) :
    u + (inForce u old repeated' ts).1.micros < v + (inForce v old repeated ts).1.micros := by
  induction ts generalizing old repeated repeated' with
  | nil => exact Int.add_lt_add_right less _
  | cons t ts ih =>
    obtain ⟨later, apart⟩ := List.pairwise_cons.mp apart
    have oldBounds := old.bounds
    rw [inForce] at new
    rw [inForce, inForce]
    by_cases reached : t.utc ≤ v
    · rw [if_pos reached] at new ⊢
      by_cases reached' : t.utc ≤ u
      · rw [if_pos reached']
        exact ih apart new
      · rw [if_neg reached']
        dsimp only
        generalize hrep : decide (v - t.utc < old.micros - t.offset.micros) = rep at new ⊢
        rcases inForce_reached v t.offset rep ts with same | ⟨t', member, same, happened⟩
        · rw [same] at new ⊢
          dsimp only at new ⊢
          rw [new, decide_eq_false_iff_not] at hrep
          omega
        · have := later t' member
          have := t'.offset.bounds
          rw [same]
          omega
    · rw [if_neg reached, if_neg (show ¬ t.utc ≤ u by omega)]
      exact Int.add_lt_add_right less _

/-- The time shown at an instant is read with the offset then in force, and with the fold if it
repeats one from before a jump. -/
theorem offsetFrom_inForce (apart : Apart ts)
    (recent : repeated = true → ∀ t ∈ ts, u + old.micros + 86400000000 ≤ t.utc) :
    offsetFrom (u + (inForce u old repeated ts).1.micros) (inForce u old repeated ts).2 old ts =
      (inForce u old repeated ts).1 := by
  induction ts generalizing old repeated with
  | nil => rfl
  | cons t ts ih =>
    obtain ⟨later, apart⟩ := List.pairwise_cons.mp apart
    have oldBounds := old.bounds
    have newBounds := t.offset.bounds
    rw [inForce]
    by_cases reached : t.utc ≤ u
    · rw [if_pos reached]
      generalize hrep : decide (u - t.utc < old.micros - t.offset.micros) = rep
      have shown := @ih t.offset rep apart fun again t' member => by
        have := later t' member
        rw [again, decide_eq_true_eq] at hrep
        omega
      rw [offsetFrom, if_pos, shown]
      show t.utc + _ ≤ _
      rcases inForce_reached u t.offset rep ts with same | ⟨t', member, same, happened⟩
      · rw [same]
        dsimp only
        cases rep with
        | true =>
          rw [if_pos rfl]
          omega
        | false =>
          rw [decide_eq_false_iff_not] at hrep
          rw [if_neg Bool.false_ne_true]
          omega
      · have := later t' member
        have := t'.offset.bounds
        rw [same]
        split <;> omega
    · rw [if_neg reached, offsetFrom, if_neg]
      show ¬ t.utc + _ ≤ u + old.micros
      cases repeated with
      | true =>
        have := recent rfl t List.mem_cons_self
        rw [if_pos rfl]
        omega
      | false =>
        rw [if_neg Bool.false_ne_true]
        omega

theorem inForce_sameSecond (whole : Whole old ts) (same : u / 1000000 = v / 1000000) :
    inForce u old repeated ts = inForce v old repeated ts := by
  induction ts generalizing old repeated with
  | nil => rfl
  | cons t ts ih =>
    obtain ⟨oldWhole, transitions⟩ := whole
    obtain ⟨⟨instant, newWhole⟩, transitions⟩ := List.forall_mem_cons.mp transitions
    have rep : decide (u - t.utc < old.micros - t.offset.micros) =
        decide (v - t.utc < old.micros - t.offset.micros) := by
      rw [decide_eq_decide]
      omega
    rw [inForce, inForce, rep, ih ⟨newWhole, transitions⟩]
    exact if_congr (by omega) rfl rfl

theorem offsetFrom_whole (whole : Whole old ts) :
    (offsetFrom wall false old ts).micros % 1000000 = 0 := by
  rcases offsetFrom_reached wall old ts with same | ⟨t, member, same, _⟩
  · rw [same]
    exact whole.1
  · rw [same]
    exact (whole.2 t member).2

theorem jumps_whole (whole : Whole old ts) {T d : Int} (member : (T, d) ∈ jumps old ts) :
    T % 1000000 = 0 ∧ d % 1000000 = 0 := by
  induction ts generalizing old with
  | nil => cases member
  | cons t ts ih =>
    obtain ⟨oldWhole, transitions⟩ := whole
    obtain ⟨⟨instant, newWhole⟩, transitions⟩ := List.forall_mem_cons.mp transitions
    rcases List.mem_cons.mp member with head | member
    · cases head
      omega
    · exact ih ⟨newWhole, transitions⟩ member

end ZoneTable

/-- Whether a fraction of a second, in microseconds, stays in its second when resolving moves it. -/
def StaysInSecond (micros : Nat) : Prop := micros = 0 ∨ 63 ≤ micros ∧ micros < 999937

theorem StaysInSecond.lt {micros : Nat} (stays : StaysInSecond micros) : micros < 999937 := by
  rw [StaysInSecond] at stays
  omega

namespace Zone

variable {z : Zone} {u v : Int}

/-- The jumps of the clocks of a zone. -/
def jumps : Zone → List (Int × Int)
  | fixed _ => []
  | table rules => ZoneTable.jumps rules.initial rules.transitions

/-- A zone with a fixed offset, or a table whose transitions lie two days or more apart. -/
def Apart : Zone → Prop
  | fixed _ => True
  | table rules => ZoneTable.Apart rules.transitions

/-- A zone with a fixed offset, or a table whose transitions lie at whole seconds and two days or
more apart. -/
def Settled : Zone → Prop
  | fixed _ => True
  | table rules =>
    ZoneTable.Apart rules.transitions ∧ ZoneTable.Whole rules.initial rules.transitions

theorem Settled.apart {z : Zone} (settled : z.Settled) : z.Apart := by
  cases z with
  | fixed offset => trivial
  | table rules => exact settled.1

/-- The wall time that the clocks of a zone show at an instant, in or out of the calendar. -/
def clock (z : Zone) (u : Int) : Int := u + (z.offsetAtUtc u).1.micros

theorem sharesTable_comm (y z : Zone) : y.sharesTable z = z.sharesTable y := by
  cases y with
  | fixed offset => cases z <;> rfl
  | table rules =>
    cases z with
    | fixed offset => rfl
    | table rules' => exact BEq.comm

theorem clock_lt (apart : z.Apart) (less : u < v) (new : (z.offsetAtUtc v).2 = false) :
    z.clock u < z.clock v := by
  cases z with
  | fixed offset => exact Int.add_lt_add_right less _
  | table rules => exact ZoneTable.shown_lt apart less new

end Zone

namespace Zoned

variable {s t z : Zoned} {offset : Offset}

theorem before_iff_of_other (other : s.zone.sharesTable t.zone = false) :
    (s.before t = true ↔ s.utc < t.utc) ∧ (t.before s = true ↔ t.utc < s.utc) := by
  have other' := (Zone.sharesTable_comm t.zone s.zone).trans other
  simp only [before, onCommonLine, other, other', Bool.false_eq_true, if_false, decide_eq_true_eq,
    and_self]

theorem notAfter_eq (s t : Zoned) : s.notAfter t = !t.before s := by
  rw [Bool.eq_iff_iff, Bool.not_eq_true', Bool.eq_false_iff]
  simp only [notAfter, before, onCommonLine, Zone.sharesTable_comm t.zone s.zone]
  split <;> simp

theorem notAfter_iff_not_before : s.notAfter t = true ↔ ¬ t.before s = true := by
  rw [notAfter_eq, Bool.not_eq_true', Bool.eq_false_iff]

/-! A time with a fixed offset compares with any other by UTC. -/

theorem utc_fixed (ht : t.zone = .fixed offset) : t.utc = t.wall.micros - offset.micros := by
  rw [utc, Zoned.offset, ht]
  rfl

theorem before_iff_utc (ht : t.zone = .fixed offset) : t.before z = true ↔ t.utc < z.utc :=
  (before_iff_of_other (by rw [ht]; rfl)).1

theorem utc_before_iff (ht : t.zone = .fixed offset) : z.before t = true ↔ z.utc < t.utc :=
  (before_iff_of_other (by rw [ht]; rfl)).2

theorem notAfter_iff_utc (ht : t.zone = .fixed offset) : t.notAfter z = true ↔ t.utc ≤ z.utc := by
  rw [notAfter_iff_not_before, utc_before_iff ht, Int.not_lt]

theorem utc_notAfter_iff (ht : t.zone = .fixed offset) : z.notAfter t = true ↔ z.utc ≤ t.utc := by
  rw [notAfter_iff_not_before, before_iff_utc ht, Int.not_lt]

theorem before_fixed (ht : t.zone = .fixed offset) (hz : z.zone = .fixed offset) :
    t.before z = true ↔ t.wall.micros < z.wall.micros := by
  rw [before_iff_utc ht, utc_fixed ht, utc_fixed hz]
  omega

theorem before_iff_wall (zone : t.zone = z.zone) :
    t.before z = true ↔ t.wall.micros < z.wall.micros := by
  cases hz : z.zone with
  | fixed offset => exact before_fixed (zone.trans hz) hz
  | table rules =>
    have shares : t.zone.sharesTable z.zone = true := by
      rw [zone, hz]
      exact beq_self_eq_true _
    rw [before, onCommonLine, if_pos shares, decide_eq_true_eq]
    omega

/-! Times that no jump repeats compare as their instants do. -/

/-- A time that the clocks of its zone show at its instant, and that no jump repeats. -/
structure Plain (t : Zoned) : Prop where
  shown : (t.wall.micros : Int) = t.zone.clock t.utc
  new : (t.zone.offsetAtUtc t.utc).2 = false

theorem Plain.wall_lt_iff (apart : s.zone.Apart) (zone : t.zone = s.zone) (hs : s.Plain)
    (ht : t.Plain) : s.wall.micros < t.wall.micros ↔ s.utc < t.utc := by
  have hs' := hs.shown
  have ht' := ht.shown
  rw [zone] at ht'
  constructor
  · intro less
    by_contra order
    rcases Int.lt_or_eq_of_le (Int.not_lt.mp order) with later | same
    · have := Zone.clock_lt apart later hs.new
      omega
    · rw [same] at ht'
      omega
  · intro less
    have := Zone.clock_lt apart less (by rw [← zone]; exact ht.new)
    omega

theorem Plain.before_iff (apart : s.zone.Apart) (zone : t.zone = s.zone) (hs : s.Plain)
    (ht : t.Plain) : s.before t = true ↔ s.utc < t.utc :=
  (before_iff_wall zone.symm).trans (Plain.wall_lt_iff apart zone hs ht)

theorem Plain.notAfter_iff (apart : s.zone.Apart) (zone : t.zone = s.zone) (hs : s.Plain)
    (ht : t.Plain) : s.notAfter t = true ↔ s.utc ≤ t.utc := by
  rw [notAfter_iff_not_before, Plain.before_iff (zone ▸ apart) zone.symm ht hs, Int.not_lt]

end Zoned

namespace Zone

variable {z : Zone} {wall : WallTime} {t : Zoned} {u : Int}

/-- A reading `t` of a wall time that a jump of length `d` at the instant `T` skips. -/
structure Skipped (z : Zone) (wall : Nat) (t : Zoned) (T d : Int) : Prop where
  jump : (T, d) ∈ z.jumps
  reached : T ≤ t.utc
  within : t.utc < T + d
  sameSecond : (t.wall.micros - d) / 1000000 = (wall : Int) / 1000000
  before : ∀ u, u < T → z.clock u < wall

theorem offsetAt_of_shown (apart : z.Apart) (shown : (wall.micros : Int) = z.clock u) :
    z.offsetAt wall (z.offsetAtUtc u).2 = (z.offsetAtUtc u).1 := by
  cases z with
  | fixed offset => rfl
  | table rules =>
    rw [offsetAt, shown]
    exact ZoneTable.offsetFrom_inForce apart (absurd · Bool.false_ne_true)

theorem shown_of_ofUtc? (apart : z.Apart) (h : Zoned.ofUtc? z u = some t) : t.zone = z ∧
    t.utc = u ∧ (t.wall.micros : Int) = t.zone.clock t.utc ∧
      t.fold = (t.zone.offsetAtUtc t.utc).2 := by
  obtain ⟨_, hwall, zone, fold⟩ := Zoned.ofUtc?_eq_some_iff.mp h
  have offset : t.offset = (z.offsetAtUtc u).1 := by
    rw [Zoned.offset, zone, fold]
    exact offsetAt_of_shown apart hwall
  have utc : t.utc = u := by
    rw [Zoned.utc, offset, hwall]
    exact Int.add_sub_cancel _ _
  refine ⟨zone, utc, ?_, ?_⟩
  · rw [hwall, zone, utc]
    rfl
  · rw [zone, utc, fold]

theorem plain_of_ofUtc? (apart : z.Apart) (h : Zoned.ofUtc? z u = some t)
    (new : (z.offsetAtUtc u).2 = false) : t.zone = z ∧ t.utc = u ∧ t.Plain := by
  obtain ⟨zone, utc, shown, -⟩ := shown_of_ofUtc? apart h
  exact ⟨zone, utc, shown, by rw [zone, utc]; exact new⟩

/-- In a settled zone a wall time is read near where it stands, or as much later as the jump is long
that skips it. -/
theorem resolve?_settled (settled : z.Settled)
    (stays : z.jumps = [] ∨ wall.microsecond < 999937) (h : z.resolve? wall = some t) :
    t.zone = z ∧ t.Plain ∧ ((t.wall.micros ≤ wall.micros + 63 ∧ wall.micros ≤ t.wall.micros + 63) ∨
      ∃ T d, z.Skipped wall.micros t T d) := by
  obtain ⟨u, hu, high, low, -, onward⟩ := resolve?_spec h
  obtain ⟨_, hwall, _, _⟩ := Zoned.ofUtc?_eq_some_iff.mp hu
  cases z with
  | fixed offset =>
    obtain ⟨zone, _, plain⟩ := plain_of_ofUtc? settled.apart hu rfl
    obtain ⟨_, _, near⟩ := resolve?_fixed h
    exact ⟨zone, plain, .inl near⟩
  | table rules =>
    obtain ⟨name, old, ts⟩ := rules
    have ⟨apart, whole⟩ : ZoneTable.Apart ts ∧ ZoneTable.Whole old ts := settled
    have readingWhole : (ZoneTable.offsetFrom wall.micros false old ts).micros % 1000000 = 0 :=
      ZoneTable.offsetFrom_whole whole
    generalize hreading : ZoneTable.offsetFrom wall.micros false old ts = reading at readingWhole
    have utc : (⟨wall, table ⟨name, old, ts⟩, false⟩ : Zoned).utc = wall.micros - reading.micros :=
      hreading ▸ rfl
    rw [utc] at high low onward
    have sameSecond : ts = [] ∨ u / 1000000 = (wall.micros - reading.micros) / 1000000 := by
      rcases stays with still | stays
      · cases ts with
        | nil => exact .inl rfl
        | cons t ts => cases still
      · rw [WallTime.microsecond_eq] at stays
        omega
    have force : (table ⟨name, old, ts⟩).offsetAtUtc u =
        ZoneTable.inForce (wall.micros - reading.micros) old false ts := by
      rcases sameSecond with rfl | sameSecond
      · rfl
      · exact ZoneTable.inForce_sameSecond whole sameSecond
    rcases @ZoneTable.inForce_offsetFrom wall.micros old ts apart with same | skips
    · rw [hreading] at same
      rw [same] at force
      obtain ⟨zone, _, plain⟩ := plain_of_ofUtc? (z := table ⟨name, old, ts⟩) apart hu
        (by rw [force])
      rw [force] at hwall
      dsimp only at hwall
      exact ⟨zone, plain, .inl (by omega)⟩
    · obtain ⟨T, d, jump, reached, within, ⟨new, longer, after⟩, before⟩ := skips
      rw [hreading] at reached within longer after
      rw [after] at force
      obtain ⟨zone, same, plain⟩ := plain_of_ofUtc? (z := table ⟨name, old, ts⟩) apart hu
        (by rw [force])
      rw [force] at hwall
      dsimp only at hwall
      rcases sameSecond with rfl | sameSecond
      · cases jump
      · obtain ⟨instant, length⟩ := ZoneTable.jumps_whole whole jump
        refine ⟨zone, plain, .inr ⟨T, d, jump, by omega, by omega, by omega, ?_⟩⟩
        intro u earlier
        exact before u false earlier

end Zone

end Almanac
