import Almanac.Proofs.Time.Settled

set_option autoImplicit false

/-!
Where resolving is exact.

With offsets of whole seconds a wall time on a whole second is resolved without rounding. Where the
transitions also lie two days or more apart, it is read as it stands, as the first of the instants
at which the clocks show it; and where a jump skips it, so that they never show it, it is read as
much later as the jump is long.
-/

namespace Almanac

namespace ZoneTable

variable {u v wall T d : Int} {old : Offset} {ts : List Transition} {repeated repeated' : Bool}

theorem exists_of_mem_jumps (member : (T, d) ∈ jumps old ts) : ∃ t ∈ ts, t.utc = T := by
  induction ts generalizing old with
  | nil => cases member
  | cons t ts ih =>
    rcases List.mem_cons.mp member with head | member
    · cases head
      exact ⟨t, List.mem_cons_self, rfl⟩
    · obtain ⟨t', member, utc⟩ := ih member
      exact ⟨t', List.mem_cons_of_mem t member, utc⟩

theorem inForce_congr (same : ∀ t ∈ ts, t.utc ≤ u ↔ t.utc ≤ v) :
    (inForce u old repeated ts).1 = (inForce v old repeated' ts).1 := by
  induction ts generalizing old repeated repeated' with
  | nil => rfl
  | cons t ts ih =>
    obtain ⟨first, same⟩ := List.forall_mem_cons.mp same
    rw [inForce, inForce]
    by_cases reached : t.utc ≤ u
    · rw [if_pos reached, if_pos (first.mp reached)]
      exact ih same
    · rw [if_neg reached, if_neg (fun reached' => reached (first.mpr reached'))]

theorem Apart.far (apart : Apart ts) {s t : Transition} (hs : s ∈ ts) (ht : t ∈ ts)
    (less : s.utc < t.utc) : s.utc + 172800000000 ≤ t.utc := by
  induction ts with
  | nil => cases hs
  | cons first ts ih =>
    obtain ⟨later, apart⟩ := List.pairwise_cons.mp apart
    rcases List.mem_cons.mp hs with rfl | hs' <;> rcases List.mem_cons.mp ht with rfl | ht'
    · omega
    · exact later t ht'
    · have := later s hs'
      omega
    · exact ih apart hs' ht'

/-- From a jump on, the clocks show later times than those that it skips. -/
theorem Skips.later (skips : Skips wall old ts T d) (apart : Apart ts) (reached : T ≤ u) :
    wall < u + (inForce u old repeated ts).1.micros := by
  obtain ⟨jump, low, high, ⟨new, longer, force⟩, -⟩ := skips
  obtain ⟨t, member, rfl⟩ := exists_of_mem_jumps jump
  have newBounds := new.bounds
  by_cases soon : u < t.utc + 172800000000
  · have still : ∀ t' ∈ ts, t'.utc ≤ u ↔ t'.utc ≤ wall - (offsetFrom wall false old ts).micros := by
      intro t' member'
      have before := apart.far member' member
      have after := apart.far member member'
      have := (offsetFrom wall false old ts).bounds
      omega
    have same : (inForce u old repeated ts).1 = new :=
      calc (inForce u old repeated ts).1
          = (inForce (wall - (offsetFrom wall false old ts).micros) old false ts).1 :=
            inForce_congr still
        _ = new := congrArg Prod.fst force
    rw [same]
    omega
  · have := (inForce u old repeated ts).1.bounds
    omega

end ZoneTable

namespace Zone

variable {z : Zone} {wall : WallTime} {t : Zoned}

/-- Offsets of whole seconds. -/
def WholeOffsets : Zone → Prop
  | fixed offset => offset.micros % 1000000 = 0
  | table rules => rules.initial.micros % 1000000 = 0 ∧
      ∀ t ∈ rules.transitions, t.offset.micros % 1000000 = 0

theorem WholeOffsets.offsetAt (whole : z.WholeOffsets) (wall : WallTime) :
    (z.offsetAt wall false).micros % 1000000 = 0 := by
  cases z with
  | fixed offset => exact whole
  | table rules =>
    rcases ZoneTable.offsetFrom_reached wall.micros rules.initial rules.transitions with
      same | ⟨t, member, same, _⟩
    · rw [Zone.offsetAt, same]
      exact whole.1
    · rw [Zone.offsetAt, same]
      exact whole.2 t member

/-- How a wall time is read. -/
inductive Reads (z : Zone) (wall : WallTime) (t : Zoned) : Prop where
  /-- The clocks show it, and `t` is the first instant at which they do. -/
  | shown (same : t.wall = wall) (first : ∀ u, z.clock u = wall.micros → t.utc ≤ u)
  /-- A jump skips it, and `t`, not long after the jump, shows a time that is later by the length of
  the jump. -/
  | skipped {T d : Int} (jump : (T, d) ∈ z.jumps) (soon : T ≤ t.utc ∧ t.utc < T + d)
      (before : ∀ u, u < T → z.clock u < wall.micros)
      (after : ∀ u, T ≤ u → (wall.micros : Int) < z.clock u)
      (forward : (t.wall.micros : Int) = wall.micros + d)

theorem Reads.le (reads : z.Reads wall t) : wall.micros ≤ t.wall.micros := by
  cases reads with
  | shown same _ => exact Nat.le_of_eq (congrArg WallTime.micros same.symm)
  | skipped jump soon before after forward => omega

theorem resolve?_exact (apart : z.Apart) (whole : z.WholeOffsets)
    (second : wall.micros % 1000000 = 0) (h : z.resolve? wall = some t) :
    t.zone = z ∧ t.Plain ∧ z.Reads wall t := by
  obtain ⟨u, hu, -, -, exact, -⟩ := resolve?_spec h
  obtain rfl : u = wall.micros - (z.offsetAt wall false).micros := by
    have offset := whole.offsetAt wall
    apply exact
    show ((wall.micros : Int) - (z.offsetAt wall false).micros) % 1000000 = 0
    omega
  have hwall := (Zoned.ofUtc?_eq_some_iff.mp hu).2.1
  -- what is shown again is shown first there, as the instant is not a repeated one
  have shown (force : z.offsetAtUtc (wall.micros - (z.offsetAt wall false).micros) =
      (z.offsetAt wall false, false)) : t.zone = z ∧ t.Plain ∧ z.Reads wall t := by
    obtain ⟨zone, utc, plain⟩ := plain_of_ofUtc? apart hu (by rw [force])
    rw [force, Int.sub_add_cancel, Int.natCast_inj] at hwall
    have same : t.wall = wall := WallTime.eq_of_micros hwall
    refine ⟨zone, plain, .shown same fun v hv => ?_⟩
    by_contra earlier
    have new := plain.new
    rw [zone] at new
    have := clock_lt apart (Int.not_le.mp earlier) new
    have := plain.shown
    rw [zone, same] at this
    omega
  cases z with
  | fixed offset => exact shown rfl
  | table rules =>
    rcases @ZoneTable.inForce_offsetFrom wall.micros rules.initial rules.transitions apart with
      same | ⟨T, d, skips⟩
    · exact shown same
    · obtain ⟨new, longer, force⟩ := skips.after
      have force : (table rules).offsetAtUtc
          (wall.micros - ((table rules).offsetAt wall false).micros) = (new, false) := force
      have longer : new.micros = ((table rules).offsetAt wall false).micros + d := longer
      obtain ⟨zone, utc, plain⟩ := plain_of_ofUtc? apart hu (by rw [force])
      have soon : T ≤ t.utc ∧ t.utc < T + d := by
        rw [utc]
        exact ⟨skips.reached, skips.within⟩
      rw [force] at hwall
      dsimp only at hwall
      exact ⟨zone, plain, .skipped skips.jump soon (fun u early => skips.before u false early)
        (fun u late => skips.later apart late) (by omega)⟩

theorem exists_offset_of_no_jumps (still : z.jumps = []) :
    ∃ offset, (∀ wall fold, z.offsetAt wall fold = offset) ∧
      ∀ u, z.offsetAtUtc u = (offset, false) := by
  cases z with
  | fixed offset => exact ⟨offset, fun _ _ => rfl, fun _ => rfl⟩
  | table rules =>
    obtain ⟨name, initial, transitions⟩ := rules
    cases transitions with
    | nil => exact ⟨initial, fun _ _ => rfl, fun _ => rfl⟩
    | cons t ts => cases still

/-- Without jumps a wall time is read near where it stands. -/
theorem resolve?_of_no_jumps (apart : z.Apart) (still : z.jumps = [])
    (h : z.resolve? wall = some t) :
    t.zone = z ∧ t.Plain ∧ wall.micros ≤ t.wall.micros + 63 := by
  obtain ⟨offset, reading, force⟩ := exists_offset_of_no_jumps still
  obtain ⟨u, hu, -, low, -⟩ := resolve?_spec h
  obtain ⟨zone, -, plain⟩ := plain_of_ofUtc? apart hu (by rw [force])
  have hwall := (Zoned.ofUtc?_eq_some_iff.mp hu).2.1
  have utc : (⟨wall, z, false⟩ : Zoned).utc = wall.micros - offset.micros := by
    rw [Zoned.utc, Zoned.offset, reading]
  rw [force] at hwall
  dsimp only at hwall
  exact ⟨zone, plain, by omega⟩

end Zone

end Almanac
