import Almanac.Proofs.Time.Exact

set_option autoImplicit false

/-!
Between two jumps a zone is an offset.

From a plain time until the next jump the offset of that time stays in force. The wall times that the
clocks show in between are read as they are at that offset; later ones are read at or after the jump,
and earlier ones before the time, unless an earlier jump is so recent that what it skips is read as
later.
-/

namespace Almanac

namespace ZoneTable

variable {u v : Int} {old : Offset} {ts : List Transition} {repeated repeated' : Bool}

theorem exists_mem_jumps (old : Offset) {t : Transition} (member : t ∈ ts) :
    ∃ d, (t.utc, d) ∈ jumps old ts := by
  induction ts generalizing old with
  | nil => cases member
  | cons first ts ih =>
    rcases List.mem_cons.mp member with rfl | member
    · exact ⟨_, List.mem_cons_self⟩
    · obtain ⟨d, jump⟩ := ih first.offset member
      exact ⟨d, List.mem_cons_of_mem _ jump⟩

theorem inForce_between (new : (inForce u old repeated ts).2 = false) (order : u ≤ v)
    (flags : repeated' = true → repeated = true) (still : ∀ t ∈ ts, u < t.utc → v < t.utc) :
    inForce v old repeated' ts = inForce u old repeated ts := by
  induction ts generalizing old repeated repeated' with
  | nil =>
    obtain rfl : repeated = false := new
    rw [Bool.eq_false_iff.mpr (fun set => Bool.false_ne_true (flags set))]
    rfl
  | cons t ts ih =>
    obtain ⟨first, still⟩ := List.forall_mem_cons.mp still
    rw [inForce] at new ⊢
    rw [inForce]
    by_cases reached : t.utc ≤ u
    · rw [if_pos reached] at new ⊢
      rw [if_pos (Int.le_trans reached order)]
      apply ih new _ still
      simp only [decide_eq_true_eq]
      omega
    · have ahead := first (Int.not_le.mp reached)
      rw [if_neg reached] at new ⊢
      obtain rfl : repeated = false := new
      rw [if_neg (Int.not_le.mpr ahead),
        Bool.eq_false_iff.mpr (fun set => Bool.false_ne_true (flags set))]

end ZoneTable

namespace Zone

variable {z : Zone} {u v : Int} {wall : WallTime} {offset : Offset}

/-- From an instant that no jump repeats nothing changes until the next jump. -/
theorem offsetAtUtc_between (new : (z.offsetAtUtc u).2 = false) (order : u ≤ v)
    (still : ∀ T d, (T, d) ∈ z.jumps → u < T → v < T) : z.offsetAtUtc v = z.offsetAtUtc u := by
  cases z with
  | fixed offset => rfl
  | table rules =>
    apply ZoneTable.inForce_between new order id
    intro t member
    obtain ⟨d, jump⟩ := ZoneTable.exists_mem_jumps rules.initial member
    exact still t.utc d jump

/-- What is shown on a whole second that no jump repeats is read as it stands, within the calendar. -/
theorem resolve?_of_force (apart : z.Apart) (force : z.offsetAtUtc u = (offset, false))
    (shown : (wall.micros : Int) = u + offset.micros) (second : u % 1000000 = 0) :
    z.offsetAt wall false = offset ∧
      z.resolve? wall = (WallTime.ofMicros? u).map fun _ => ⟨wall, z, false⟩ := by
  have read : z.offsetAt wall false = offset := by
    have onClock : (wall.micros : Int) = z.clock u := by rw [clock, force, shown]
    have read := offsetAt_of_shown apart onClock
    rwa [force] at read
  have instant : (⟨wall, z, false⟩ : Zoned).utc = u := by
    rw [Zoned.utc, Zoned.offset, read, shown]
    exact Int.add_sub_cancel _ _
  have back : WallTime.ofMicros? (u + offset.micros) = some wall := by
    rw [← shown]
    exact WallTime.ofMicros?_eq_some_iff.mpr rfl
  refine ⟨read, ?_⟩
  rw [resolve?_whole (by rw [instant]; exact second), instant, Zoned.ofUtc?, force]
  cases WallTime.ofMicros? u with
  | none => rfl
  | some _ => simp [back]

theorem exists_resolve? (whole : z.WholeOffsets) (second : wall.micros % 1000000 = 0)
    (low : 172800000000 ≤ wall.micros) (high : wall.micros + 172800000000 ≤ calendarMicros) :
    ∃ t, z.resolve? wall = some t := by
  have offset := whole.offsetAt wall
  have bounds := (z.offsetAt wall false).bounds
  have instant : (⟨wall, z, false⟩ : Zoned).utc = wall.micros - (z.offsetAt wall false).micros :=
    rfl
  rw [resolve?_whole (by rw [instant]; omega), instant]
  exact Zoned.exists_ofUtc? z (by omega) (by omega)

end Zone

namespace Zoned

variable {s t : Zoned} {wall : WallTime} {T : Int}

/-- The time read at its offset. -/
def atOffset (t : Zoned) : Zoned := ⟨t.wall, .fixed t.offset, false⟩

theorem utc_atOffset (t : Zoned) : t.atOffset.utc = t.utc := rfl

theorem plain_atOffset (t : Zoned) : t.atOffset.Plain :=
  ⟨(Int.sub_add_cancel _ _).symm, rfl⟩

/-- No jump after the time comes before the instant `T`. -/
def StillUntil (t : Zoned) (T : Int) : Prop :=
  ∀ T' d, (T', d) ∈ t.zone.jumps → t.utc < T' → T ≤ T'

theorem Plain.offsetAtUtc (plain : s.Plain) : s.zone.offsetAtUtc s.utc = (s.offset, false) := by
  have shown := plain.shown
  have new := plain.new
  rw [Zone.clock] at shown
  generalize s.zone.offsetAtUtc s.utc = force at shown new
  obtain ⟨offset, fold⟩ := force
  have same : offset.micros = s.offset.micros := by
    rw [utc] at shown
    dsimp only at shown
    omega
  obtain rfl : fold = false := new
  generalize s.offset = own at same
  cases offset
  cases own
  cases same
  rfl

variable (apart : s.zone.Apart) (plain : s.Plain)

include plain in
theorem Plain.offsetAtUtc_of_still (still : s.StillUntil T) {u : Int} (after : s.utc ≤ u)
    (before : u < T) : s.zone.offsetAtUtc u = (s.offset, false) := by
  rw [← plain.offsetAtUtc]
  apply Zone.offsetAtUtc_between plain.new after
  intro T' d jump later
  exact Int.lt_of_lt_of_le before (still T' d jump later)

include apart plain in
theorem Plain.wholeOffset (whole : s.zone.WholeOffsets) : s.offset.micros % 1000000 = 0 := by
  have read := Zone.offsetAt_of_shown apart plain.shown
  rw [plain.offsetAtUtc] at read
  dsimp only at read
  rw [← read]
  exact whole.offsetAt s.wall

include apart plain

/-- A wall time that is shown between a plain time and the next jump is read as at the offset of that
time. -/
theorem Plain.resolve?_between (whole : s.zone.WholeOffsets) (still : s.StillUntil T)
    (second : wall.micros % 1000000 = 0) (after : s.wall.micros ≤ wall.micros)
    (before : (wall.micros : Int) < T + s.offset.micros) :
    (Zone.fixed s.offset).resolve? wall = (s.zone.resolve? wall).map atOffset := by
  have offset := plain.wholeOffset apart whole
  have utc : s.utc = s.wall.micros - s.offset.micros := rfl
  obtain ⟨read, resolved⟩ := Zone.resolve?_of_force apart
    (plain.offsetAtUtc_of_still still (u := wall.micros - s.offset.micros) (by omega) (by omega))
    (Int.sub_add_cancel _ _).symm (by omega)
  obtain ⟨-, resolved'⟩ := Zone.resolve?_of_force (z := .fixed s.offset) trivial rfl
    (Int.sub_add_cancel (wall.micros : Int) s.offset.micros).symm (by omega)
  have same : (⟨wall, s.zone, false⟩ : Zoned).atOffset = ⟨wall, .fixed s.offset, false⟩ := by
    show (⟨wall, .fixed (s.zone.offsetAt wall false), false⟩ : Zoned) = _
    rw [read]
  rw [resolved, resolved', Option.map_map, Function.comp_def, same]

theorem Plain.le_utc_of_resolve? (whole : s.zone.WholeOffsets) (still : s.StillUntil T)
    (ahead : s.utc < T) (second : wall.micros % 1000000 = 0)
    (late : T + s.offset.micros ≤ wall.micros) (h : s.zone.resolve? wall = some t) :
    T ≤ t.utc := by
  have shown : s.zone.clock s.utc = s.utc + s.offset.micros := by
    rw [Zone.clock, plain.offsetAtUtc]
  obtain ⟨zone, tplain, reads⟩ := Zone.resolve?_exact apart whole second h
  cases reads with
  | shown same first =>
    by_contra early
    have here : (wall.micros : Int) = s.zone.clock t.utc := by
      have := tplain.shown
      rwa [zone, same] at this
    by_cases after : s.utc ≤ t.utc
    · rw [Zone.clock, plain.offsetAtUtc_of_still still after (Int.not_le.mp early)] at here
      dsimp only at here
      omega
    · have := Zone.clock_lt apart (Int.not_le.mp after) plain.new
      omega
  | @skipped T' d jump soon before after forward =>
    by_cases past : T' ≤ s.utc
    · have := after s.utc past
      omega
    · exact Int.le_trans (still T' d jump (Int.not_le.mp past)) soon.1

/-- A wall time before a plain time is read as before it, unless the time stands so soon after a jump
that what is skipped there is read as later. -/
theorem Plain.before_of_resolve? (whole : s.zone.WholeOffsets)
    (gaps : ∀ T d, (T, d) ∈ s.zone.jumps → T ≤ s.utc → T + d ≤ s.utc)
    (second : wall.micros % 1000000 = 0) (early : wall.micros < s.wall.micros)
    (h : s.zone.resolve? wall = some t) : t.before s = true := by
  obtain ⟨zone, tplain, reads⟩ := Zone.resolve?_exact apart whole second h
  rw [Plain.before_iff (zone ▸ apart) zone.symm tplain plain]
  cases reads with
  | shown same first =>
    rw [← Plain.wall_lt_iff (zone ▸ apart) zone.symm tplain plain, same]
    exact early
  | @skipped T d jump soon before after forward =>
    by_cases past : T ≤ s.utc
    · have := gaps T d jump past
      omega
    · have := before s.utc (Int.not_le.mp past)
      have := plain.shown
      omega

end Zoned

end Almanac
