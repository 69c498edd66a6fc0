import Almanac.Proofs.Rule.Ascending
import Almanac.Rule.Spec
import Mathlib.Data.List.Forall2

set_option autoImplicit false

/-!
What reading a specification guarantees of the rule that it gives: the lists of hours, minutes and
seconds are ascending and hold values that a clock can show.
-/

namespace Almanac

theorem Except.bind_eq_ok {ε α β : Type} {x : Except ε α} {f : α → Except ε β} {b : β} :
    (x >>= f) = .ok b ↔ ∃ a, x = .ok a ∧ f a = .ok b := by
  cases x with
  | error e => simp [bind, Except.bind]
  | ok a => simp [bind, Except.bind]

theorem Except.mapM_eq_ok_iff {ε α β : Type} {f : α → Except ε β} {as : List α} {bs : List β} :
    as.mapM f = .ok bs ↔ List.Forall₂ (fun a b => f a = .ok b) as bs := by
  induction as generalizing bs with
  | nil => simp [pure, Except.pure, eq_comm]
  | cons a as ih =>
    simp only [List.mapM_cons, Except.bind_eq_ok, pure, Except.pure, Except.ok.injEq, ih,
      List.forall₂_cons_left_iff]
    constructor
    · rintro ⟨b, first, bs, rest, rfl⟩
      exact ⟨b, bs, first, rest, rfl⟩
    · rintro ⟨b, bs, first, rest, rfl⟩
      exact ⟨b, first, bs, rest, rfl⟩

theorem Except.mem_mapM_iff {ε α β : Type} {f : α → Except ε β} {as : List α} {bs : List β}
    (h : as.mapM f = .ok bs) {b : β} : b ∈ bs ↔ ∃ a ∈ as, f a = .ok b := by
  rw [Except.mapM_eq_ok_iff] at h
  induction h with
  | nil => simp
  | cons first rest ih => simp [ih, first, eq_comm]

namespace Rule

/-- The times of day that a rule lists are ascending and can be shown by a clock. -/
structure Canonical (r : Rule) : Prop where
  seconds_ascending : r.seconds.Pairwise (· < ·)
  minutes_ascending : r.minutes.Pairwise (· < ·)
  hours_ascending : r.hours.Pairwise (· < ·)
  seconds_lt : ∀ n ∈ r.seconds, n < 60
  minutes_lt : ∀ n ∈ r.minutes, n < 60
  hours_lt : ∀ n ∈ r.hours, n < 24

end Rule

/-- The numbers read for a part are ascending and in its range. -/
theorem Value.numbers_spec {part : Part} {v : Value} {ns : List Int}
    (h : v.numbers part = .ok ns) :
    ns.Pairwise (· < ·) ∧ ∀ n ∈ ns, part.range.holds n = true := by
  simp only [Value.numbers, Except.bind_eq_ok, pure, Except.pure, Except.ok.injEq] at h
  obtain ⟨read, hread, rfl⟩ := h
  constructor
  · have sorted : (ascending (fun a b : Int => a < b) read).Pairwise (fun a b => decide (a < b)) :=
      ascending_pairwise (fun a b c => by simpa using Int.lt_trans) read
        (fun a _ b _ => by simpa using Int.lt_trichotomy a b)
    exact sorted.imp (fun h => by simpa using h)
  · intro n hn
    obtain ⟨item, _, found⟩ := (Except.mem_mapM_iff hread).mp (mem_ascending.mp hn)
    simp only [Value.number, Except.bind_eq_ok] at found
    obtain ⟨m, _, found⟩ := found
    split at found
    · rename_i inRange
      cases found
      exact inRange
    · cases found

theorem Params.numbers_spec {ps : Params} {part : Part} {ns : List Int}
    (h : ps.numbers part = .ok ns) :
    ns.Pairwise (· < ·) ∧ ∀ n ∈ ns, part.range.holds n = true := by
  simp only [Params.numbers, Except.bind_eq_ok, pure, Except.pure, Except.ok.injEq] at h
  obtain ⟨given, hgiven, rfl⟩ := h
  unfold Params.read at hgiven
  split at hgiven
  · rename_i v _
    cases read : v.numbers part with
    | error e => simp [read, Except.map] at hgiven
    | ok ns =>
      simp only [read, Except.map, Except.ok.injEq] at hgiven
      subst hgiven
      exact Value.numbers_spec read
  · cases hgiven
    simp

/-- The numbers of a part that admits none below zero are its numbers. -/
theorem Params.numbers_of_naturals {ps : Params} {part : Part}
    (unsigned : part.range.signed = false) {ns : List Nat} (h : ps.naturals part = .ok ns) :
    ps.numbers part = .ok (ns.map (fun n : Nat => (n : Int))) := by
  simp only [Params.naturals, Except.bind_eq_ok, pure, Except.pure, Except.ok.injEq] at h
  obtain ⟨ns, read, rfl⟩ := h
  have back : (ns.map Int.toNat).map (fun n : Nat => (n : Int)) = ns := by
    rw [List.map_map]
    apply (List.map_congr_left _).trans ns.map_id
    intro n member
    have holds := (Params.numbers_spec read).2 n member
    simp only [NumberRange.holds, unsigned, Bool.false_eq_true, if_false, Bool.and_eq_true,
      decide_eq_true_eq] at holds
    exact Int.toNat_of_nonneg (by omega)
  rw [back, read]

theorem Params.naturals_spec {ps : Params} {part : Part} {ns : List Nat}
    (unsigned : part.range.signed = false) (h : ps.naturals part = .ok ns) :
    ns.Pairwise (· < ·) ∧ ∀ n ∈ ns, n ≤ part.range.high := by
  obtain ⟨sorted, inRange⟩ := Params.numbers_spec (Params.numbers_of_naturals unsigned h)
  constructor
  · rw [List.pairwise_map] at sorted
    exact sorted.imp Int.ofNat_lt.mp
  · intro n hn
    have holds := inRange n (List.mem_map_of_mem hn)
    simp only [NumberRange.holds, unsigned, Bool.false_eq_true, if_false, Bool.and_eq_true,
      decide_eq_true_eq] at holds
    omega

namespace Rule

/-- All that is read for a rule with the given parts. -/
structure ReadFrom (r : Rule) (ps : Params) (now : Stamp) : Prop where
  freq : ((ps.lookup .freq).getD .nothing).frequencyOf = .ok r.freq
  interval : ∃ given, ps.read .interval Value.intervalOf = .ok given ∧
    r.interval = (given.getD ⟨1, Nat.one_pos⟩).val
  oneBound : ((ps.get? .count).isSome && (ps.get? .finish).isSome) = false
  start : ∃ given, ps.read .start (Value.instant .start .utc) = .ok given ∧
    r.start = given.getD (defaultStart now)
  count : ps.read .count Value.countOf = .ok r.count
  finish : ps.read .finish (Value.instant .finish r.start.zone) = .ok r.finish
  endsBefore : ps.read .endsBefore (Value.instant .endsBefore r.start.zone) = .ok r.endsBefore
  weekStart : ∃ given, ps.read .weekStart (Value.weekdayOf .weekStart) = .ok given ∧
    r.weekStart = given.getD .monday
  days : ∃ given, ps.read .day Value.patterns = .ok given ∧ r.days = given.getD []
  seconds : ps.naturals .second = .ok r.seconds
  minutes : ps.naturals .minute = .ok r.minutes
  hours : ps.naturals .hour = .ok r.hours
  monthDays : ps.numbers .monthDay = .ok r.monthDays
  yearDays : ps.numbers .yearDay = .ok r.yearDays
  weekNumbers : ps.numbers .weekNumber = .ok r.weekNumbers
  months : ps.naturals .month = .ok r.months
  positions : ps.numbers .position = .ok r.positions
  noConflict : r.conflict? = none

theorem readFrom_of_ofParams {ps : Params} {now : Stamp} {r : Rule}
    (h : ofParams ps now = .ok r) : r.ReadFrom ps now := by
  simp only [ofParams, Except.bind_eq_ok] at h
  obtain ⟨freq, hfreq, interval, hinterval, h⟩ := h
  split at h
  · simp [throw, throwThe, MonadExceptOf.throw, bind, Except.bind] at h
  · rename_i oneBound
    simp only [Except.bind_eq_ok] at h
    obtain ⟨start, hstart, count, hcount, finish, hfinish, endsBefore, hendsBefore, weekStart,
      hweekStart, days, hdays, seconds, hseconds, minutes, hminutes, hours, hhours, monthDays,
      hmonthDays, yearDays, hyearDays, weekNumbers, hweekNumbers, months, hmonths, positions,
      hpositions, h⟩ := h
    split at h
    · simp [throw, throwThe, MonadExceptOf.throw] at h
    · rename_i noConflict
      cases h
      exact
        { freq := hfreq
          interval := ⟨interval, hinterval, rfl⟩
          oneBound := by simpa using oneBound
          start := ⟨start, hstart, rfl⟩
          count := hcount
          finish := hfinish
          endsBefore := hendsBefore
          weekStart := ⟨weekStart, hweekStart, rfl⟩
          days := ⟨days, hdays, rfl⟩
          seconds := hseconds
          minutes := hminutes
          hours := hhours
          monthDays := hmonthDays
          yearDays := hyearDays
          weekNumbers := hweekNumbers
          months := hmonths
          positions := hpositions
          noConflict := noConflict }

/-- A rule is given by parts exactly when it is what is read from them. -/
theorem ofParams_eq_ok_iff {ps : Params} {now : Stamp} {r : Rule} :
    ofParams ps now = .ok r ↔ r.ReadFrom ps now := by
  refine ⟨readFrom_of_ofParams, fun read => ?_⟩
  cases r
  obtain ⟨freq, ⟨interval, hinterval, rfl⟩, oneBound, ⟨start, hstart, rfl⟩, count, finish,
    endsBefore, ⟨weekStart, hweekStart, rfl⟩, ⟨days, hdays, rfl⟩, seconds, minutes, hours, monthDays,
    yearDays, weekNumbers, months, positions, noConflict⟩ := read
  dsimp only at *
  simp only [ofParams, freq, hinterval, oneBound, hstart, count, finish, endsBefore, hweekStart,
    hdays, seconds, minutes, hours, monthDays, yearDays, weekNumbers, months, positions, noConflict,
    bind, Except.bind, Bool.false_eq_true, if_false]
  rfl

end Rule

theorem Spec.rule_readFrom {spec : Spec} {now : Stamp} {r : Rule} (h : spec.rule now = .ok r) :
    ∃ ps, spec.params = .ok ps ∧ r.ReadFrom ps now := by
  simp only [Spec.rule, Except.bind_eq_ok] at h
  obtain ⟨ps, hps, h⟩ := h
  exact ⟨ps, hps, Rule.readFrom_of_ofParams h⟩

/-- A rule that is read from a specification is canonical. -/
theorem Spec.rule_canonical {spec : Spec} {now : Stamp} {r : Rule} (h : spec.rule now = .ok r) :
    r.Canonical := by
  obtain ⟨ps, _, read⟩ := Spec.rule_readFrom h
  obtain ⟨seconds, seconds_le⟩ := Params.naturals_spec rfl read.seconds
  obtain ⟨minutes, minutes_le⟩ := Params.naturals_spec rfl read.minutes
  obtain ⟨hours, hours_le⟩ := Params.naturals_spec rfl read.hours
  exact
    { seconds_ascending := seconds
      minutes_ascending := minutes
      hours_ascending := hours
      seconds_lt := fun n hn => Nat.lt_succ_of_le (seconds_le n hn)
      minutes_lt := fun n hn => Nat.lt_succ_of_le (minutes_le n hn)
      hours_lt := fun n hn => Nat.lt_succ_of_le (hours_le n hn) }

/-- A rule that is read from a specification lists weeks only where it is yearly. -/
theorem Spec.yearly_of_weekNumbers {spec : Spec} {now : Stamp} {r : Rule}
    (h : spec.rule now = .ok r) (given : r.weekNumbers ≠ []) : r.freq = .yearly := by
  obtain ⟨ps, _, read⟩ := Spec.rule_readFrom h
  have noConflict := read.noConflict
  by_contra other
  rw [Rule.conflict?, if_pos (by simp [given, other])] at noConflict
  cases noConflict

end Almanac
