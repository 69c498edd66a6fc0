import Almanac.Proofs.Time.Exact

set_option autoImplicit false

/-!
The order of wall times and that of instants.

Times of one table compare by their wall times, so a bound of that table holds back what stands
before it, or after it, on the clock. It does the same in UTC where the clocks show the bound at its
instant, and for the first time if it is a lower bound. A bound that a jump skips is read after the
jump without the fold, which does for an upper bound, and before the jump with it, which does for a
lower one.
-/

namespace Almanac

namespace ZoneTable

variable {wall : Int} {old : Offset} {ts : List Transition} {repeated : Bool}

theorem offsetFrom_near (wall : Int) (fold : Bool) (old : Offset) (ts : List Transition) :
    offsetFrom wall fold old ts = old ∨
      ∃ t ∈ ts, offsetFrom wall fold old ts = t.offset ∧ t.utc < wall + 86400000000 := by
  induction ts generalizing old with
  | nil => exact .inl rfl
  | cons t ts ih =>
    rw [offsetFrom]
    split
    · rename_i past
      have near : t.utc < wall + 86400000000 := by
        have oldBounds := old.bounds
        have newBounds := t.offset.bounds
        have past : t.utc + (if fold then min old.micros t.offset.micros
          else max old.micros t.offset.micros) ≤ wall := past
        split at past <;> omega
      rcases ih t.offset with same | ⟨t', member, same, near'⟩
      · exact .inr ⟨t, List.mem_cons_self, same, near⟩
      · exact .inr ⟨t', List.mem_cons_of_mem t member, same, near'⟩
    · exact .inl rfl

/-- The instant read with the fold shows the wall time, unless a transition that is still to come
skips it. -/
theorem inForce_offsetFrom_fold (apart : Apart ts) :
    (inForce (wall - (offsetFrom wall true old ts).micros) old repeated ts).1 =
        offsetFrom wall true old ts ∨
      ∃ t ∈ ts, wall - (offsetFrom wall true old ts).micros < t.utc ∧
        ∀ u repeated, u < t.utc → u + (inForce u old repeated ts).1.micros < wall := by
  induction ts generalizing old repeated with
  | nil => exact .inl rfl
  | cons t ts ih =>
    obtain ⟨later, apart⟩ := List.pairwise_cons.mp apart
    have oldBounds := old.bounds
    have newBounds := t.offset.bounds
    by_cases past : t.wallBoundary old true ≤ wall
    · have boundary : t.utc + min old.micros t.offset.micros ≤ wall := past
      rw [show offsetFrom wall true old (t :: ts) = offsetFrom wall true t.offset ts by
        rw [offsetFrom, if_pos past]]
      by_cases reached : t.utc ≤ wall - (offsetFrom wall true t.offset ts).micros
      · rw [inForce, if_pos reached]
        rcases @ih t.offset _ apart with same | ⟨t', member, ahead, before⟩
        · exact .inl same
        · refine .inr ⟨t', List.mem_cons_of_mem t member, ahead, fun u repeated early => ?_⟩
          rw [inForce]
          split
          · exact before u _ early
          · -- the skipped time lies beside the later transition
            have := later t' member
            have := before (t'.utc - 1) false (by omega)
            have := (inForce (t'.utc - 1) t.offset false ts).1.bounds
            dsimp only
            omega
      · refine .inr ⟨t, List.mem_cons_self, by omega, fun u repeated early => ?_⟩
        rw [inForce, if_neg (by omega)]
        dsimp only
        rcases offsetFrom_near wall true t.offset ts with same | ⟨t', member, same, near⟩
        · rw [same] at reached
          omega
        · have := later t' member
          have := t'.offset.bounds
          rw [same] at reached
          omega
    · have boundary : wall < t.utc + min old.micros t.offset.micros := Int.not_le.mp past
      left
      rw [show offsetFrom wall true old (t :: ts) = old by rw [offsetFrom, if_neg past], inForce,
        if_neg (by omega)]

end ZoneTable

namespace Zoned

variable {b t : Zoned}

/-- The clocks of the zone show the time at its instant. -/
def Shown (t : Zoned) : Prop := (t.wall.micros : Int) = t.zone.clock t.utc

theorem shown_of_force (force : (t.zone.offsetAtUtc t.utc).1 = t.offset) : t.Shown := by
  rw [Shown, Zone.clock, force]
  exact (Int.sub_add_cancel _ _).symm

/-- A skipped time that is read with the fold lies before the jump, up to which the clocks show
earlier times. -/
theorem exists_jump_ahead (apart : t.zone.Apart) (hidden : ¬ t.Shown) (fold : t.fold = true) :
    ∃ T, t.utc < T ∧ ∀ u, u < T → t.zone.clock u < t.wall.micros := by
  obtain ⟨wall, zone, fold'⟩ := t
  obtain rfl : fold' = true := fold
  cases zone with
  | fixed offset => exact absurd (shown_of_force rfl) hidden
  | table rules =>
    rcases @ZoneTable.inForce_offsetFrom_fold wall.micros rules.initial rules.transitions false
      apart with same | ⟨t, -, ahead, before⟩
    · exact (hidden (shown_of_force same)).elim
    · exact ⟨t.utc, ahead, fun u early => before u false early⟩

theorem exists_jump_behind (apart : t.zone.Apart) (hidden : ¬ t.Shown) (fold : t.fold = false) :
    ∃ T, T ≤ t.utc ∧ ∀ u, T ≤ u → t.wall.micros < t.zone.clock u := by
  obtain ⟨wall, zone, fold'⟩ := t
  obtain rfl : fold' = false := fold
  cases zone with
  | fixed offset => exact absurd (shown_of_force rfl) hidden
  | table rules =>
    rcases @ZoneTable.inForce_offsetFrom wall.micros rules.initial rules.transitions apart with
      same | ⟨T, d, skips⟩
    · exact (hidden (shown_of_force (congrArg Prod.fst same))).elim
    · exact ⟨T, skips.reached, fun u late => skips.later apart late⟩

/-! Bounds that hold in UTC. -/

/-- A bound that holds back in UTC what is before it in a zone. -/
inductive Floor (b : Zoned) (z : Zone) : Prop where
  /-- It compares by UTC. -/
  | elsewhere (other : b.zone.sharesTable z = false)
  /-- No jump skips it, and it is not the later reading of a repeated time. -/
  | plain (zone : z = b.zone) (apart : z.Apart) (plain : b.Plain)
  /-- A jump skips it, and it is read before the jump. -/
  | skipped (zone : z = b.zone) (apart : z.Apart) (hidden : ¬ b.Shown) (fold : b.fold = true)

/-- A bound that holds back in UTC a time that is after it. -/
inductive Ceiling (b t : Zoned) : Prop where
  /-- It compares by UTC. -/
  | elsewhere (other : b.zone.sharesTable t.zone = false)
  /-- No jump skips it, and the time is not the later reading of a repeated one. -/
  | shown (zone : t.zone = b.zone) (apart : t.zone.Apart) (shown : b.Shown) (first : t.fold = false)
  /-- A jump skips it, and it is read after the jump. -/
  | skipped (zone : t.zone = b.zone) (apart : t.zone.Apart) (hidden : ¬ b.Shown)
    (fold : b.fold = false)

variable {z : Zone} {u : Int} (read : ofUtc? z u = some t)
include read

theorem Floor.utc_le (floor : b.Floor z) (started : ¬ t.before b = true) : b.utc ≤ t.utc := by
  obtain rfl : t.zone = z := (ofUtc?_eq_some_iff.mp read).2.2.1
  by_contra early
  cases floor with
  | elsewhere other => exact started ((before_iff_of_other other).2.mpr (Int.not_le.mp early))
  | plain zone apart plain =>
    rw [before_iff_wall zone] at started
    obtain ⟨-, -, shown, -⟩ := Zone.shown_of_ofUtc? apart read
    have := Zone.clock_lt apart (Int.not_le.mp early) (zone ▸ plain.new)
    have := zone ▸ plain.shown
    omega
  | skipped zone apart hidden fold =>
    rw [before_iff_wall zone] at started
    obtain ⟨-, -, shown, -⟩ := Zone.shown_of_ofUtc? apart read
    obtain ⟨T, ahead, before⟩ := exists_jump_ahead (zone ▸ apart) hidden fold
    have := before t.utc (by omega)
    rw [← zone] at this
    omega

theorem Ceiling.past (ceiling : b.Ceiling t) (past : b.utc ≤ t.utc) :
    ¬ t.before b = true ∧ (b.utc < t.utc → b.before t = true) := by
  obtain rfl : t.zone = z := (ofUtc?_eq_some_iff.mp read).2.2.1
  cases ceiling with
  | elsewhere other =>
    rw [(before_iff_of_other other).1, (before_iff_of_other other).2]
    exact ⟨Int.not_lt.mpr past, id⟩
  | shown zone apart shown first =>
    rw [before_iff_wall zone, before_iff_wall zone.symm]
    obtain ⟨-, -, shown', fold⟩ := Zone.shown_of_ofUtc? apart read
    rw [Shown, ← zone] at shown
    rcases Int.lt_or_eq_of_le past with later | same
    · have := Zone.clock_lt apart later (fold.symm.trans first)
      omega
    · rw [same] at shown
      omega
  | skipped zone apart hidden fold =>
    rw [before_iff_wall zone, before_iff_wall zone.symm]
    obtain ⟨-, -, shown, -⟩ := Zone.shown_of_ofUtc? apart read
    obtain ⟨T, behind, after⟩ := exists_jump_behind (zone ▸ apart) hidden fold
    have := after t.utc (by omega)
    rw [← zone] at this
    omega

theorem Ceiling.utc_le (ceiling : b.Ceiling t) (within : ¬ b.before t = true) : t.utc ≤ b.utc :=
  Int.not_lt.mp fun later => within ((ceiling.past read (Int.le_of_lt later)).2 later)

theorem Ceiling.utc_lt (ceiling : b.Ceiling t) (within : ¬ b.notAfter t = true) :
    t.utc < b.utc := by
  rw [notAfter_iff_not_before, not_not] at within
  exact Int.not_le.mp fun past => (ceiling.past read past).1 within

end Zoned

end Almanac
