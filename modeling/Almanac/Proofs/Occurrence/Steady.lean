import Almanac.Proofs.Occurrence.Due
import Almanac.Proofs.Time.Settled

set_option autoImplicit false

/-!
Rules whose zone is settled.

What such a rule gives compares by UTC, and what recurs after the period of the start is never read
as before the start. On resuming at an instant a scan leaves out only what is read as before it,
unless the instant lies in the hours after a jump that is longer than the interval of the rule: a
wall time that the jump skips is read as much later as the jump is long, and may lie after the
instant.
-/

namespace Almanac

section Climb

variable {P : Zoned → Prop} {x : Int} {last last' : Option Zoned} {left ts : List Zoned}

theorem climb_rises (compares : ∀ s t, P s → P t → (t.notAfter s = true ↔ t.utc ≤ s.utc))
    (hts : ∀ t ∈ ts, P t) (hlast : ∀ t ∈ last, P t) :
    (climb last ts).Pairwise (fun s t => s.utc < t.utc) ∧
      ∀ t ∈ climb last ts, t ∈ ts ∧ ∀ s ∈ last, s.utc < t.utc := by
  induction ts generalizing last with
  | nil => exact ⟨.nil, by simp [climb]⟩
  | cons t ts ih =>
    obtain ⟨ht, hts⟩ := List.forall_mem_cons.mp hts
    rw [climb]
    split
    · obtain ⟨rise, after⟩ := ih hts hlast
      exact ⟨rise, fun u member => ⟨List.mem_cons_of_mem t (after u member).1, (after u member).2⟩⟩
    · rename_i new
      obtain ⟨rise, after⟩ := ih hts (show ∀ s ∈ some t, P s by simpa using ht)
      have above : ∀ s ∈ last, s.utc < t.utc := by
        intro s hs
        by_contra order
        apply new
        rw [Option.any_eq_true]
        exact ⟨s, hs, (compares s t (hlast s hs) ht).mpr (by omega)⟩
      refine ⟨List.pairwise_cons.mpr ⟨fun u member => (after u member).2 t rfl, rise⟩, ?_⟩
      intro u member
      rcases List.mem_cons.mp member with rfl | member
      · exact ⟨List.mem_cons_self, above⟩
      · obtain ⟨member, later⟩ := after u member
        refine ⟨List.mem_cons_of_mem t member, fun s hs => ?_⟩
        have := above s hs
        have := later t rfl
        omega

/-- What climbs above an instant does not depend on what was taken up to it. -/
theorem climb_filter_seed (compares : ∀ s t, P s → P t → (t.notAfter s = true ↔ t.utc ≤ s.utc))
    (hts : ∀ t ∈ ts, P t) (hlast : ∀ t ∈ last, P t ∧ t.utc ≤ x)
    (hlast' : ∀ t ∈ last', P t ∧ t.utc ≤ x) :
    (climb last ts).filter (fun t => x < t.utc) = (climb last' ts).filter (fun t => x < t.utc) := by
  induction ts generalizing last last' with
  | nil => rfl
  | cons t ts ih =>
    obtain ⟨ht, hts⟩ := List.forall_mem_cons.mp hts
    by_cases later : x < t.utc
    · -- later than both, it is taken after either
      have new (l : Option Zoned) (hl : ∀ s ∈ l, P s ∧ s.utc ≤ x) :
          climb l (t :: ts) = t :: climb (some t) ts := by
        rw [climb, if_neg]
        intro old
        obtain ⟨s, hs, order⟩ := (Option.any_eq_true _ _).mp old
        obtain ⟨hs, early⟩ := hl s hs
        have := (compares s t hs ht).mp order
        omega
      rw [new last hlast, new last' hlast']
    · have step (l : Option Zoned) (hl : ∀ s ∈ l, P s ∧ s.utc ≤ x) : ∃ l' : Option Zoned,
          (∀ s ∈ l', P s ∧ s.utc ≤ x) ∧ (climb l (t :: ts)).filter (fun t => x < t.utc) =
            (climb l' ts).filter (fun t => x < t.utc) := by
        rw [climb]
        split
        · exact ⟨l, hl, rfl⟩
        · exact ⟨some t, by simpa using ⟨ht, Int.not_lt.mp later⟩,
            List.filter_cons_of_neg (by simpa using later)⟩
      obtain ⟨l, hl, eq⟩ := step last hlast
      obtain ⟨l', hl', eq'⟩ := step last' hlast'
      rw [eq, eq', ih hts hl hl']

/-- What climbs above an instant does not depend on what is left out up to it. -/
theorem climb_filter_append (compares : ∀ s t, P s → P t → (t.notAfter s = true ↔ t.utc ≤ s.utc))
    (hts : ∀ t ∈ ts, P t) (hleft : ∀ t ∈ left, P t ∧ t.utc ≤ x)
    (hlast : ∀ t ∈ last, P t ∧ t.utc ≤ x) :
    (climb last (left ++ ts)).filter (fun t => x < t.utc) =
      (climb none ts).filter (fun t => x < t.utc) := by
  induction left generalizing last with
  | nil => exact climb_filter_seed compares hts hlast (by simp)
  | cons t left ih =>
    obtain ⟨ht, hleft⟩ := List.forall_mem_cons.mp hleft
    rw [List.cons_append, climb]
    split
    · exact ih hleft hlast
    · rw [List.filter_cons_of_neg (by simpa using ht.2)]
      exact ih hleft (by simpa using ht)

end Climb

namespace Rule

variable {r : Rule} {i : Nat}

/-- A rule in a settled zone whose fraction of a second stays in its second. -/
structure Steady (r : Rule) : Prop where
  settled : r.start.zone.Settled
  stays : r.start.zone.jumps = [] ∨ StaysInSecond r.start.wall.microsecond

theorem instantOf?_steady (steady : r.Steady) {n : Nat} {t : Zoned}
    (fraction : n % 1000000 = r.start.wall.microsecond) (h : r.instantOf? n = some t) :
    t.zone = r.start.zone ∧ t.Plain ∧ ((t.wall.micros ≤ n + 63 ∧ n ≤ t.wall.micros + 63) ∨
      ∃ T d, r.start.zone.Skipped n t T d) := by
  obtain ⟨wall, hwall, resolved⟩ := Option.bind_eq_some_iff.mp h
  have micros : wall.micros = n := Int.natCast_inj.mp (WallTime.ofMicros?_eq_some_iff.mp hwall)
  subst micros
  exact Zone.resolve?_settled steady.settled
    (steady.stays.imp_right (fun stays => by rw [wall.microsecond_eq, fraction]; exact stays.lt))
    resolved

theorem instants_plain (canonical : r.Canonical) (steady : r.Steady) (period : r.freq.IsPeriod i) :
    ∀ t ∈ r.instants (r.recurringFrom i), t.zone = r.start.zone ∧ t.Plain := by
  intro t member
  obtain ⟨n, hn, resolved, _⟩ := mem_instants.mp member
  obtain ⟨k, limit, recurs⟩ := mem_recurringFrom.mp hn
  obtain ⟨_, _, fraction, _⟩ := recurringIn_bounds canonical
    (period.mono (Nat.le_add_right _ _)) limit recurs
  obtain ⟨zone, plain, _⟩ := instantOf?_steady steady fraction resolved
  exact ⟨zone, plain⟩

/-! Points of departure. -/

/-- The instant of a stamp as a rule reads it, in microseconds of UTC. -/
def utcOf (r : Rule) (x : Stamp) : Int := (x.inZone r.start.zone).utc

/-- A stamp that compares by UTC with what a rule gives, and at whose instant the clocks of the rule
are known to show what it shows. -/
structure Marks (r : Rule) (x : Stamp) : Prop where
  notAfter_iff : ∀ t : Zoned, t.zone = r.start.zone → t.Plain →
    (t.notAfter (x.inZone r.start.zone) = true ↔ t.utc ≤ r.utcOf x)
  before_iff : ∀ t : Zoned, t.zone = r.start.zone → t.Plain →
    (t.before (x.inZone r.start.zone) = true ↔ t.utc < r.utcOf x)
  after_iff : ∀ t : Zoned, t.zone = r.start.zone → t.Plain →
    ((x.inZone r.start.zone).before t = true ↔ r.utcOf x < t.utc)
  clock : ∀ wall, x.wallIn? r.start.zone = some wall →
    (wall.micros : Int) = r.start.zone.clock (r.utcOf x)

theorem marks_of_fixed {x : Stamp} {offset : Offset} (hx : x.zone = some (.fixed offset)) :
    r.Marks x := by
  have zone : (x.inZone r.start.zone).zone = .fixed offset := by rw [Stamp.inZone, hx]; rfl
  refine ⟨fun t _ _ => Zoned.utc_notAfter_iff zone, fun t _ _ => Zoned.utc_before_iff zone,
    fun t _ _ => Zoned.before_iff_utc zone, ?_⟩
  intro wall shown
  rw [Stamp.wallIn?, hx] at shown
  obtain ⟨t, ht, rfl⟩ := Option.map_eq_some_iff.mp shown
  rw [Zoned.inZone?, if_neg (by cases r.start.zone <;> exact Bool.false_ne_true)] at ht
  rw [utcOf, Stamp.inZone, hx]
  exact (Zoned.ofUtc?_eq_some_iff.mp ht).2.1

theorem marks_of_plain (steady : r.Steady) {x : Zoned} (zone : x.zone = r.start.zone)
    (plain : x.Plain) : r.Marks x := by
  refine ⟨fun t hzone hplain => ?_, fun t hzone hplain => ?_, fun t hzone hplain => ?_, ?_⟩
  · exact Zoned.Plain.notAfter_iff (hzone ▸ steady.settled.apart) (zone.trans hzone.symm) hplain plain
  · exact Zoned.Plain.before_iff (hzone ▸ steady.settled.apart) (zone.trans hzone.symm) hplain plain
  · exact Zoned.Plain.before_iff (zone ▸ steady.settled.apart) (hzone.trans zone.symm) plain hplain
  · intro wall shown
    have shown : (x.inZone? r.start.zone).map Zoned.wall = some wall := shown
    obtain ⟨t, ht, rfl⟩ := Option.map_eq_some_iff.mp shown
    show (t.wall.micros : Int) = r.start.zone.clock x.utc
    rw [Zoned.inZone?] at ht
    split at ht
    · cases ht
      rw [← zone]
      exact plain.shown
    · exact (Zoned.ofUtc?_eq_some_iff.mp ht).2.1

/-- Whether an instant is clear of the jumps that are longer than the interval of a rule: it does not
lie within the length of such a jump after it. Where a rule has a count nothing is left out. -/
def ClearOfJumps (r : Rule) (x : Stamp) : Prop :=
  r.count.isSome ∨ ∀ T d, (T, d) ∈ r.start.zone.jumps →
    d ≤ r.interval * r.freq.leastLength ∨ r.utcOf x < T ∨ T + d ≤ r.utcOf x

/-- What a scan leaves out on resuming at an instant that is clear of jumps is read as before it. -/
theorem utc_lt_of_resumption (canonical : r.Canonical) (steady : r.Steady) {x : Stamp}
    (marks : r.Marks x)
    (clear : ∀ T d, (T, d) ∈ r.start.zone.jumps →
      d ≤ r.interval * r.freq.leastLength ∨ r.utcOf x < T ∨ T + d ≤ r.utcOf x)
    {wall : WallTime} {first n goal : Nat} (period : r.freq.IsPeriod first)
    (hwall : x.wallIn? r.start.zone = some wall)
    (hgoal : r.freq.periodOf? r.weekStart wall = some goal)
    (reach : first + n * r.interval + r.interval ≤ goal) {left : List Nat}
    (hleft : ∀ m ∈ left, ∃ k < n, first + k * r.interval < r.freq.periodLimit r.weekStart ∧
      m ∈ r.recurringIn (first + k * r.interval)) {t : Zoned} (member : t ∈ r.instants left) :
    t.zone = r.start.zone ∧ t.Plain ∧ t.utc < r.utcOf x := by
  obtain ⟨m, hm, resolved, _⟩ := mem_instants.mp member
  obtain ⟨k, hk, limit, recurs⟩ := hleft m hm
  obtain ⟨second, whole, early, far⟩ :=
    Plan.recurs_before_resumption canonical period hgoal reach hk limit recurs
  obtain ⟨_, _, fraction, _⟩ := recurringIn_bounds canonical
    (period.mono (Nat.le_add_right _ _)) limit recurs
  obtain ⟨zone, plain, place⟩ := instantOf?_steady steady fraction resolved
  have length : 1000000 ≤ r.interval * r.freq.leastLength :=
    Nat.le_trans r.freq.leastLength_bound (Nat.le_mul_of_pos_left _ r.interval_pos)
  have clock := marks.clock wall hwall
  refine ⟨zone, plain, ?_⟩
  by_contra order
  have shown : wall.micros ≤ t.wall.micros := by
    rcases Int.lt_or_eq_of_le (Int.not_lt.mp order) with later | same
    · have := Zone.clock_lt steady.settled.apart later (zone ▸ plain.new)
      have := plain.shown
      rw [zone] at this
      omega
    · have := plain.shown
      rw [zone, ← same] at this
      omega
  rcases place with ⟨near, _⟩ | ⟨T, d, skipped⟩
  · omega
  · have := skipped.within
    have := skipped.sameSecond
    rcases clear T d skipped.jump with short | before | after
    · omega
    · have := skipped.before _ before
      omega
    · omega

/-! Occurrences. -/

theorem isPast_of_later (steady : r.Steady) {s t : Zoned} (hs : s.zone = r.start.zone ∧ s.Plain)
    (ht : t.zone = r.start.zone ∧ t.Plain) (less : s.utc < t.utc) (past : r.isPast s = true) :
    r.isPast t = true := by
  obtain ⟨szone, splain⟩ := hs
  obtain ⟨tzone, tplain⟩ := ht
  have walls := (Zoned.Plain.wall_lt_iff (szone ▸ steady.settled.apart) (tzone.trans szone.symm) splain
    tplain).mpr less
  -- a bound is compared either with both walls or with both instants
  have line (z : Zoned) :
      (z.onCommonLine s = ((z.wall.micros : Int), (s.wall.micros : Int)) ∧
        z.onCommonLine t = ((z.wall.micros : Int), (t.wall.micros : Int))) ∨
      (z.onCommonLine s = (z.utc, s.utc) ∧ z.onCommonLine t = (z.utc, t.utc)) := by
    unfold Zoned.onCommonLine
    rw [szone, tzone]
    split
    · exact .inl ⟨rfl, rfl⟩
    · exact .inr ⟨rfl, rfl⟩
  rw [isPast_iff] at past ⊢
  rcases past with ⟨z, given, past⟩ | ⟨z, given, past⟩
  · refine .inl ⟨z, given, ?_⟩
    rw [Zoned.before] at past ⊢
    rcases line z with ⟨ls, lt⟩ | ⟨ls, lt⟩ <;> rw [ls, decide_eq_true_eq] at past <;>
      rw [lt, decide_eq_true_eq] <;> omega
  · refine .inr ⟨z, given, ?_⟩
    rw [Zoned.notAfter] at past ⊢
    rcases line z with ⟨ls, lt⟩ | ⟨ls, lt⟩ <;> rw [ls, decide_eq_true_eq] at past <;>
      rw [lt, decide_eq_true_eq] <;> omega

theorem takeWhile_isPast (steady : r.Steady) {ts : List Zoned}
    (rise : ts.Pairwise (fun s t => s.utc < t.utc))
    (plain : ∀ t ∈ ts, t.zone = r.start.zone ∧ t.Plain) :
    ts.takeWhile (fun t => !r.isPast t) = ts.filter (fun t => !r.isPast t) := by
  apply takeWhile_eq_filter
  apply rise.imp_of_mem
  intro s t hs ht less within
  rw [Bool.not_eq_true', Bool.eq_false_iff] at within ⊢
  exact fun past => within (isPast_of_later steady (plain s hs) (plain t ht) less past)

/-- The occurrences of a rule when its scan resumes near an instant, or starts with the rule. -/
noncomputable def occurrences (r : Rule) (resume : Option Stamp) : List Zoned :=
  match (Plan.ofRule r).firstPeriod? (if r.count.isNone then resume else none) with
  | some i => r.bounded 0 (climb none (r.instants (r.recurringFrom i)))
  | none => []

variable {resume : Option Stamp}

theorem occurrences_of_firstPeriod
    (hi : (Plan.ofRule r).firstPeriod? (if r.count.isNone then resume else none) = some i) :
    r.occurrences resume = r.bounded 0 (climb none (r.instants (r.recurringFrom i))) := by
  rw [occurrences, hi]

theorem firstPeriod?_none : (Plan.ofRule r).firstPeriod? none =
    r.freq.periodOf? r.weekStart r.start.wall := by
  have rule : (Plan.ofRule r).rule = r := rfl
  rw [Plan.firstPeriod?, rule]
  exact Option.bind_fun_some _

theorem climb_plain (canonical : r.Canonical) (steady : r.Steady) (period : r.freq.IsPeriod i) :
    (climb none (r.instants (r.recurringFrom i))).Pairwise (fun s t => s.utc < t.utc) ∧
      ∀ t ∈ climb none (r.instants (r.recurringFrom i)), t.zone = r.start.zone ∧ t.Plain := by
  have plain := instants_plain canonical steady period
  obtain ⟨rise, member⟩ := climb_rises (P := fun t => t.zone = r.start.zone ∧ t.Plain)
    (fun s t hs ht => Zoned.Plain.notAfter_iff (ht.1 ▸ steady.settled.apart) (hs.1.trans ht.1.symm)
      ht.2 hs.2) plain (show ∀ t ∈ none, _ by simp)
  exact ⟨rise, fun t ht => plain t (member t ht).1⟩

theorem occurrences_rise (canonical : r.Canonical) (steady : r.Steady) (resume : Option Stamp) :
    (r.occurrences resume).Pairwise (fun s t => s.utc < t.utc) ∧
      ∀ t ∈ r.occurrences resume, t.zone = r.start.zone ∧ t.Plain := by
  unfold occurrences
  split
  · rename_i i hi
    obtain ⟨first, n, hfirst, rfl, _⟩ := Plan.firstPeriod?_spec hi
    obtain ⟨rise, plain⟩ := climb_plain canonical steady
      ((Frequency.isPeriod_of_periodOf? hfirst).mono (Nat.le_add_right _ (n * r.interval)))
    have sublist := bounded_sublist r 0
      (climb none (r.instants (r.recurringFrom (first + n * r.interval))))
    exact ⟨rise.sublist sublist, fun t member => plain t (sublist.subset member)⟩
  · exact ⟨.nil, by simp⟩

theorem bounded_climb (canonical : r.Canonical) (steady : r.Steady) (uncounted : r.count = none)
    (period : r.freq.IsPeriod i) : r.bounded 0 (climb none (r.instants (r.recurringFrom i))) =
      (climb none (r.instants (r.recurringFrom i))).filter (fun t => !r.isPast t) := by
  obtain ⟨rise, plain⟩ := climb_plain canonical steady period
  rw [bounded, leaves, uncounted]
  exact takeWhile_isPast steady rise plain

/-- Opening a later period leaves out only what is read as before an instant that is clear of jumps,
if the period was told from that instant. -/
theorem climb_resumed (canonical : r.Canonical) (steady : r.Steady) {x : Stamp}
    (marks : r.Marks x)
    (clear : ∀ T d, (T, d) ∈ r.start.zone.jumps →
      d ≤ r.interval * r.freq.leastLength ∨ r.utcOf x < T ∨ T + d ≤ r.utcOf x)
    {wall : WallTime} {n goal : Nat} (period : r.freq.IsPeriod i)
    (hwall : x.wallIn? r.start.zone = some wall)
    (hgoal : r.freq.periodOf? r.weekStart wall = some goal)
    (reach : i + n * r.interval + r.interval ≤ goal) :
    (climb none (r.instants (r.recurringFrom (i + n * r.interval)))).filter
        (fun t => r.utcOf x ≤ t.utc) =
      (climb none (r.instants (r.recurringFrom i))).filter (fun t => r.utcOf x ≤ t.utc) := by
  obtain ⟨left, split, hleft⟩ := recurringFrom_split (r := r) (i := i) n
  have early (t : Zoned) (member : t ∈ r.instants left) :=
    utc_lt_of_resumption canonical steady marks clear period hwall hgoal reach hleft member
  have onward : (fun t : Zoned => decide (r.utcOf x ≤ t.utc)) =
      fun t : Zoned => decide (r.utcOf x - 1 < t.utc) := by
    funext t
    exact decide_eq_decide.mpr (by omega)
  rw [onward, split, instants_append]
  symm
  apply climb_filter_append (P := fun t => t.zone = r.start.zone ∧ t.Plain)
  · intro s t hs ht
    exact Zoned.Plain.notAfter_iff (ht.1 ▸ steady.settled.apart) (hs.1.trans ht.1.symm) ht.2 hs.2
  · exact instants_plain canonical steady (period.mono (Nat.le_add_right _ _))
  · intro t member
    obtain ⟨zone, plain, less⟩ := early t member
    exact ⟨⟨zone, plain⟩, by omega⟩
  · simp

/-- Resuming at an instant that is clear of jumps neither loses nor adds an occurrence from there
on. -/
theorem occurrences_resumed (canonical : r.Canonical) (steady : r.Steady) {x : Stamp}
    (marks : r.Marks x) (clear : r.ClearOfJumps x)
    (hi : (Plan.ofRule r).firstPeriod? (if r.count.isNone then some x else none) = some i) :
    (r.occurrences (some x)).filter (fun t => r.utcOf x ≤ t.utc) =
      (r.occurrences none).filter (fun t => r.utcOf x ≤ t.utc) := by
  rw [occurrences_of_firstPeriod hi]
  obtain ⟨first, n, hfirst, rfl, resumed⟩ := Plan.firstPeriod?_spec hi
  have period := Frequency.isPeriod_of_periodOf? hfirst
  have plainly : r.occurrences none = r.bounded 0 (climb none (r.instants (r.recurringFrom first))) :=
    occurrences_of_firstPeriod (by rw [ite_self, firstPeriod?_none, hfirst])
  rw [plainly]
  rcases Nat.eq_zero_or_pos n with rfl | later
  · rw [Nat.zero_mul, Nat.add_zero]
  · -- resuming, the scan leaves out what is read as before the instant
    obtain ⟨stamp, wall, goal, given, hwall, hgoal, reach⟩ := resumed later
    have uncounted : r.count = none := by
      by_contra counted
      rw [if_neg (by simpa using counted)] at given
      cases given
    rw [if_pos (by simp [uncounted])] at given
    cases given
    rcases clear with counted | clear
    · rw [uncounted] at counted
      cases counted
    · rw [bounded_climb canonical steady uncounted period,
        bounded_climb canonical steady uncounted (period.mono (Nat.le_add_right _ _)),
        List.filter_comm, climb_resumed canonical steady marks clear period hwall hgoal reach,
        List.filter_comm]

end Rule

namespace Sequence

variable {r : Rule}

theorem due_ofRule (r : Rule) (notBefore : Option Stamp) : (ofRule r notBefore).due r =
    (r.occurrences notBefore).filter (fun t => !(ofRule r notBefore).isEarly t) := by
  rw [due_of_live rfl]
  show (r.bounded 0 (climb none ((Scan.fresh _).remaining r))).filter _ = _
  rw [Rule.occurrences, Scan.remaining, Scan.pending]
  cases (Plan.ofRule r).firstPeriod? (if r.count.isNone then notBefore else none) with
  | some i => rfl
  | none => rw [Rule.instants_nil, climb, Rule.bounded_nil]

theorem run_of_no_firstPeriod {notBefore : Option Stamp} (uncounted : r.count = none)
    (hi : (Plan.ofRule r).firstPeriod? notBefore = none) :
    (ofRule r notBefore).run = ([], .outOfRange) := by
  have step : (ofRule r notBefore).step =
      .outOfRange { ofRule r notBefore with scan := .finished } := by
    have rule : (Plan.ofRule r).rule = r := rfl
    simp only [step, ofRule, countReached, rule, uncounted, Option.any_none, Scan.step,
      Option.isNone_none, if_true, hi]
    rfl
  exact run_outOfRange step

/-- A run gives the occurrences that are not early, up to where it leaves the calendar. -/
theorem run_occurrences (canonical : r.Canonical) (notBefore : Option Stamp) :
    (ofRule r notBefore).run.1 <+:
        (r.occurrences notBefore).filter (fun t => !(ofRule r notBefore).isEarly t) ∧
      ((ofRule r notBefore).run.2 ≠ .outOfRange → (ofRule r notBefore).run.1 =
        (r.occurrences notBefore).filter (fun t => !(ofRule r notBefore).isEarly t)) := by
  rw [← due_ofRule]
  exact run_due canonical (coherent_ofRule r notBefore)

theorem filter_isEarly (canonical : r.Canonical) (steady : r.Steady) {x : Stamp}
    (marks : r.Marks x) (resume : Option Stamp) :
    (r.occurrences resume).filter (fun t => !(ofRule r (some x)).isEarly t) =
      (r.occurrences resume).filter (fun t => r.utcOf x ≤ t.utc) := by
  apply List.filter_congr
  intro t member
  obtain ⟨zone, plain⟩ := (Rule.occurrences_rise canonical steady resume).2 t member
  have early : (ofRule r (some x)).isEarly t = t.before (x.inZone r.start.zone) := rfl
  rw [early, Bool.eq_iff_iff, Bool.not_eq_true', Bool.eq_false_iff, Ne, marks.before_iff t zone plain,
    decide_eq_true_eq]
  exact Int.not_lt

/-- A run that departs from an instant that is clear of jumps gives the occurrences from there on,
up to where it leaves the calendar. -/
theorem run_resumed (canonical : r.Canonical) (steady : r.Steady) {x : Stamp}
    (marks : r.Marks x) (clear : r.ClearOfJumps x) :
    (ofRule r (some x)).run.1 <+: (r.occurrences none).filter (fun t => r.utcOf x ≤ t.utc) ∧
      ((ofRule r (some x)).run.2 ≠ .outOfRange → (ofRule r (some x)).run.1 =
        (r.occurrences none).filter (fun t => r.utcOf x ≤ t.utc)) := by
  cases hi : (Plan.ofRule r).firstPeriod? (if r.count.isNone then some x else none) with
  | some i =>
    rw [← Rule.occurrences_resumed canonical steady marks clear hi,
      ← filter_isEarly canonical steady marks]
    exact run_occurrences canonical (some x)
  | none =>
    cases hcount : r.count with
    | none =>
      rw [hcount, Option.isNone_none, if_pos rfl] at hi
      rw [run_of_no_firstPeriod hcount hi]
      exact ⟨List.nil_prefix, fun inside => absurd rfl inside⟩
    | some n =>
      have run := run_occurrences canonical (some x)
      rw [filter_isEarly canonical steady marks] at run
      have same : r.occurrences (some x) = r.occurrences none := by
        simp only [Rule.occurrences, hcount, Option.isNone_some, Bool.false_eq_true, if_false]
      rw [same] at run
      exact run

end Sequence

end Almanac
