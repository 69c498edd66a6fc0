import Almanac.Proofs.Occurrence.Steady

set_option autoImplicit false

/-!
Rules in a zone with a fixed offset.

The wall times at which such a rule recurs lie whole seconds apart, and resolving moves each by some
microseconds at most. So the instants keep the order of the wall times, none is lost or repeated,
and what recurs after the period of the start is never read as before the start.
-/

namespace Almanac

namespace Rule

variable {r : Rule} {i : Nat}

/-! The wall times at which a rule recurs, from one period on. -/

theorem recurringFrom_apart (canonical : r.Canonical) (period : r.freq.IsPeriod i) :
    (r.recurringFrom i).Pairwise (fun m n => m + 1000000 ≤ n) := by
  fun_induction recurringFrom r i with
  | case1 i limit ih =>
    rw [List.pairwise_append]
    refine ⟨?_, ih (period.mono (Nat.le_add_right _ _)), ?_⟩
    · apply (recurringIn_ascending canonical i).imp_of_mem
      intro m n hm hn less
      obtain ⟨_, _, mfraction, _⟩ := recurringIn_bounds canonical period limit hm
      obtain ⟨_, _, nfraction, _⟩ := recurringIn_bounds canonical period limit hn
      omega
    · intro m hm n hn
      obtain ⟨k, hk, member⟩ := mem_recurringFrom.mp hn
      obtain ⟨_, high, mfraction, _⟩ := recurringIn_bounds canonical period limit hm
      obtain ⟨low, _, nfraction, _⟩ := recurringIn_bounds canonical
        (period.mono (show i ≤ i + r.interval + k * r.interval by omega)) hk member
      have positive := r.interval_pos
      have := r.freq.startOf_mono (w := r.weekStart) (period.mono (Nat.le_add_right i 1))
        (show i + 1 ≤ i + r.interval + k * r.interval by omega)
      omega
  | case2 i limit => exact .nil

/-! Their instants. -/

variable {offset : Offset}

theorem instantOf?_fixed (fixed : r.start.zone = .fixed offset) {n : Nat} {t : Zoned}
    (h : r.instantOf? n = some t) :
    t.zone = .fixed offset ∧ t.fold = false ∧ t.wall.micros ≤ n + 63 ∧ n ≤ t.wall.micros + 63 := by
  obtain ⟨wall, hwall, h⟩ := Option.bind_eq_some_iff.mp h
  have micros := WallTime.ofMicros?_eq_some_iff.mp hwall
  rw [fixed] at h
  obtain ⟨zone, fold, high, low⟩ := Zone.resolve?_fixed h
  exact ⟨zone, fold, by omega, by omega⟩

theorem instants_ascending (fixed : r.start.zone = .fixed offset) {ns : List Nat}
    (apart : ns.Pairwise (fun m n => m + 1000000 ≤ n)) :
    (r.instants ns).Pairwise (fun s t => s.before t = true) := by
  apply List.Pairwise.filter
  rw [List.pairwise_filterMap]
  apply apart.imp
  intro m n far s hs t ht
  obtain ⟨szone, _, shigh, _⟩ := instantOf?_fixed fixed hs
  obtain ⟨tzone, _, _, tlow⟩ := instantOf?_fixed fixed ht
  rw [Zoned.before_fixed szone tzone]
  omega

theorem steady_fixed (fixed : r.start.zone = .fixed offset) : r.Steady :=
  ⟨by rw [fixed]; trivial, .inl (by rw [fixed]; rfl)⟩

theorem instants_rise (canonical : r.Canonical) (fixed : r.start.zone = .fixed offset)
    (period : r.freq.IsPeriod i) :
    (r.instants (r.recurringFrom i)).Pairwise (fun s t => s.utc < t.utc) := by
  have ascending := instants_ascending fixed (recurringFrom_apart canonical period)
  apply ascending.imp_of_mem
  intro s t hs _ before
  obtain ⟨n, _, resolved, _⟩ := mem_instants.mp hs
  exact (Zoned.before_iff_utc (instantOf?_fixed fixed resolved).1).mp before

theorem climb_fixed (canonical : r.Canonical) (fixed : r.start.zone = .fixed offset)
    (period : r.freq.IsPeriod i) :
    climb none (r.instants (r.recurringFrom i)) = r.instants (r.recurringFrom i) := by
  apply climb_ascending
  · apply (instants_rise canonical fixed period).imp_of_mem
    intro s t _ ht less
    obtain ⟨n, _, resolved, _⟩ := mem_instants.mp ht
    rw [Bool.eq_false_iff, Ne, Zoned.notAfter_iff_utc (instantOf?_fixed fixed resolved).1]
    omega
  · intro t _
    rfl

/-! Points of departure. -/

theorem marks_fixed (fixed : r.start.zone = .fixed offset) (x : Stamp) : r.Marks x := by
  refine ⟨fun t zone _ => Zoned.notAfter_iff_utc (zone.trans fixed),
    fun t zone _ => Zoned.before_iff_utc (zone.trans fixed),
    fun t zone _ => Zoned.utc_before_iff (zone.trans fixed), ?_⟩
  intro wall shown
  rw [utcOf]
  rw [fixed] at shown ⊢
  obtain ⟨own, zone, fold⟩ := x
  cases zone with
  | none =>
    cases shown
    show (own.micros : Int) = (Zone.fixed offset).clock (own.micros - offset.micros)
    exact (Int.sub_add_cancel _ _).symm
  | some zone =>
    obtain ⟨t, ht, rfl⟩ := Option.map_eq_some_iff.mp shown
    have shares : zone.sharesTable (.fixed offset) = false := by cases zone <;> rfl
    rw [Zoned.inZone?, if_neg (by simp [shares])] at ht
    exact (Zoned.ofUtc?_eq_some_iff.mp ht).2.1

theorem clearOfJumps_fixed (fixed : r.start.zone = .fixed offset) (x : Stamp) :
    r.ClearOfJumps x := by
  right
  intro T d jump
  rw [fixed] at jump
  cases jump

/-- The occurrences of a rule with a fixed offset are what its bounds leave of all its instants. -/
theorem occurrences_fixed (canonical : r.Canonical) (fixed : r.start.zone = .fixed offset)
    (hstart : r.freq.periodOf? r.weekStart r.start.wall = some i) :
    r.occurrences none = r.bounded 0 (r.instants (r.recurringFrom i)) := by
  rw [occurrences_of_firstPeriod (by rw [ite_self, firstPeriod?_none, hstart]),
    climb_fixed canonical fixed (Frequency.isPeriod_of_periodOf? hstart)]

end Rule

namespace Sequence

variable {r : Rule} {offset : Offset} {first : Nat}

/-- A run gives what its rule allows of all instants from the start on, without those that are
early. -/
theorem run_fixed (canonical : r.Canonical) (fixed : r.start.zone = .fixed offset)
    (hstart : r.freq.periodOf? r.weekStart r.start.wall = some first) (notBefore : Option Stamp) :
    (ofRule r notBefore).run.1 <+: (r.bounded 0 (r.instants (r.recurringFrom first))).filter
        (fun t => !(ofRule r notBefore).isEarly t) ∧
      ((ofRule r notBefore).run.2 ≠ .outOfRange →
        (ofRule r notBefore).run.1 = (r.bounded 0 (r.instants (r.recurringFrom first))).filter
          (fun t => !(ofRule r notBefore).isEarly t)) := by
  have steady := Rule.steady_fixed fixed
  rw [← Rule.occurrences_fixed canonical fixed hstart]
  cases notBefore with
  | none => exact run_occurrences canonical none
  | some x =>
    have marks := Rule.marks_fixed fixed x
    rw [filter_isEarly canonical steady marks]
    exact run_resumed canonical steady marks (Rule.clearOfJumps_fixed fixed x)

end Sequence

end Almanac
