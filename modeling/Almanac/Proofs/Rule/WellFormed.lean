import Almanac.Proofs.Rule.Roundtrip

set_option autoImplicit false

/-!
Mappings give well-formed rules, but for the ordinals of ready-made patterns.

Whatever the shapes in which its values are given, a mapping that is accepted gives a rule that keeps
the invariants of rules, and each list of the rule holds what the items of its value are read as,
once and in ascending order. The one check that is left out is that of the ordinal in a weekday
pattern that is given as such: outside its range it is taken over, and where it is zero the pattern
has no place of its own among those of its weekday.
-/

namespace Almanac

namespace Value

theorem DayBefore.asymm {a b : DayPattern} (before : DayBefore a b) : ¬ DayBefore b a := by
  simp only [DayBefore, ← number_inj] at *
  omega

theorem patterns_ranked {v : Value} {ds : List DayPattern} (read : patterns v = .ok ds) :
    ds.Pairwise (fun a b => a ≠ b ∧ ¬ DayBefore b a) := by
  simp only [patterns, Except.bind_eq_ok, pure, Except.pure, Except.ok.injEq] at read
  obtain ⟨given, -, rfl⟩ := read
  have ranked : (ascending patternBefore given).Pairwise
      (fun a b => a ≠ b ∧ patternBefore b a = false) := by
    apply ascending_ranked
    · intro a b before
      rw [patternBefore_iff] at before
      rw [Bool.eq_false_iff, Ne, patternBefore_iff]
      exact before.asymm
    · intro a b c before notBefore
      rw [patternBefore_iff] at *
      rw [Bool.eq_false_iff, Ne, patternBefore_iff] at notBefore
      simp only [DayBefore, ← number_inj] at *
      omega
  apply ranked.imp
  rintro a b ⟨other, notBefore⟩
  rw [Bool.eq_false_iff, Ne, patternBefore_iff] at notBefore
  exact ⟨other, notBefore⟩

/-- An ordinal outside its range is read only from a pattern that is given as such. -/
theorem pattern_inRange_or {v : Value} {d : DayPattern} (read : pattern v = .ok d) :
    (∀ n, d.ordinal = some n → Part.day.Admits n) ∨ v = .dayPattern d := by
  unfold pattern at read
  split at read
  · cases read
    exact .inr rfl
  · cases read
    exact .inl (by simp)
  · left
    split at read
    · split at read
      · split at read
        · rename_i inside
          cases read
          simpa [Part.holds_range_iff] using inside
        · cases read
      · cases read
        simp
    · cases read
  · cases read

end Value

namespace Params

variable {ps qs : Params} {p : Part}

/-- The items of the value of a part. -/
def itemsOf (ps : Params) (p : Part) : List Value :=
  match ps.get? p with
  | some v => v.items
  | none => []

/-- One of the items of a part is read as the number. -/
def Gives (ps : Params) (p : Part) (n : Int) : Prop := ∃ v ∈ ps.itemsOf p, v.number p = .ok n

/-- One of the items for days is read as the pattern. -/
def GivesDay (ps : Params) (d : DayPattern) : Prop := ∃ v ∈ ps.itemsOf .day, v.pattern = .ok d

theorem read_eq_ok_iff {α : Type} {f : Value → Except SpecError α} {o : Option α} :
    ps.read p f = .ok o ↔
      (ps.get? p = none ∧ o = none) ∨ ∃ v a, ps.get? p = some v ∧ f v = .ok a ∧ o = some a := by
  unfold read
  cases ps.get? p with
  | none => simp [eq_comm]
  | some v => simp [Except.map_eq_ok, @eq_comm _ o]

theorem mem_numbers {ns : List Int} (read : ps.numbers p = .ok ns) (n : Int) :
    n ∈ ns ↔ ps.Gives p n := by
  simp only [numbers, Except.bind_eq_ok, pure, Except.pure, Except.ok.injEq, read_eq_ok_iff] at read
  obtain ⟨o, ⟨none, rfl⟩ | ⟨v, as, some, read, rfl⟩, rfl⟩ := read
  · simp [Gives, itemsOf, none]
  · simp only [Value.numbers, Except.bind_eq_ok, pure, Except.pure, Except.ok.injEq] at read
    obtain ⟨given, read, rfl⟩ := read
    rw [Gives, itemsOf, some, Option.getD_some, mem_ascending]
    exact Except.mem_mapM_iff read

theorem mem_days {ds : Option (List DayPattern)} (read : ps.read .day Value.patterns = .ok ds)
    (d : DayPattern) : d ∈ ds.getD [] ↔ ps.GivesDay d := by
  rw [read_eq_ok_iff] at read
  obtain ⟨none, rfl⟩ | ⟨v, as, some, read, rfl⟩ := read
  · simp [GivesDay, itemsOf, none]
  · simp only [Value.patterns, Except.bind_eq_ok, pure, Except.pure, Except.ok.injEq] at read
    obtain ⟨given, read, rfl⟩ := read
    rw [GivesDay, itemsOf, some, Option.getD_some, mem_ascending]
    exact Except.mem_mapM_iff read

theorem keeps_numbers {ns : List Int} (read : ps.numbers p = .ok ns) : p.Keeps ns := by
  obtain ⟨sorted, holds⟩ := numbers_spec read
  exact ⟨sorted, fun n member => Part.holds_range_iff.mp (holds n member)⟩

/-- The two give the same single values, and for each list the same set of values. -/
structure SameValues (ps qs : Params) : Prop where
  single : ∀ p, p ∉ Parts.listed → p ≠ .day → ps.get? p = qs.get? p
  numbers : ∀ p ∈ Parts.listed, ∀ n, ps.Gives p n ↔ qs.Gives p n
  days : ∀ d, ps.GivesDay d ↔ qs.GivesDay d

namespace SameValues

variable (same : ps.SameValues qs)
include same

theorem read_eq {α : Type} {f : Value → Except SpecError α} {o o' : Option α}
    (single : p ∉ Parts.listed) (other : p ≠ .day) (given : ps.read p f = .ok o)
    (given' : qs.read p f = .ok o') : o = o' := by
  rw [read, same.single p single other, ← read, given'] at given
  exact (Except.ok.inj given).symm

theorem numbers_eq (listed : p ∈ Parts.listed) {ns ms : List Int} (read : ps.numbers p = .ok ns)
    (read' : qs.numbers p = .ok ms) : ns = ms := by
  apply (keeps_numbers read).sorted.eq_of_mem_iff (keeps_numbers read').sorted
  intro n
  rw [mem_numbers read, mem_numbers read', same.numbers p listed]

theorem frequency_eq :
    (ps.lookup .freq).getD .nothing = (qs.lookup .freq).getD .nothing := by
  have given (ps : Params) : (ps.lookup .freq).getD .nothing = (ps.get? .freq).getD .nothing := by
    unfold get?
    cases ps.lookup .freq with
    | none => rfl
    | some v => cases v <;> rfl
  rw [given, given, same.single .freq (by decide) (by decide)]

end SameValues

end Params

namespace Rule

variable {r r' : Rule} {ps qs : Params} {now : Stamp}

/-- The numbers that a rule lists for a part. -/
def listOf (r : Rule) : Part → List Int
  | .second => r.seconds.map (fun n : Nat => (n : Int))
  | .minute => r.minutes.map (fun n : Nat => (n : Int))
  | .hour => r.hours.map (fun n : Nat => (n : Int))
  | .monthDay => r.monthDays
  | .yearDay => r.yearDays
  | .weekNumber => r.weekNumbers
  | .month => r.months.map (fun n : Nat => (n : Int))
  | .position => r.positions
  | _ => []

/-- The invariants that are checked of every rule. Its instants have their zones by their type. -/
structure Checked (r : Rule) : Prop where
  interval : 1 ≤ r.interval
  count : ∀ n, r.count = some n → 1 ≤ n
  oneBound : r.count = none ∨ r.finish = none
  lists : ∀ p ∈ Parts.listed, p.Keeps (r.listOf p)
  days : r.days.Pairwise (fun a b => a ≠ b ∧ ¬ Value.DayBefore b a)
  weekNumbers : r.weekNumbers ≠ [] → r.freq = .yearly
  yearDays : r.yearDays ≠ [] → r.freq ≠ .daily ∧ r.freq ≠ .weekly ∧ r.freq ≠ .monthly
  monthDays : r.monthDays ≠ [] → r.freq ≠ .weekly
  ordinals : ∀ d ∈ r.days, ∀ n, d.ordinal = some n → (r.freq = .monthly ∨ r.freq = .yearly) ∧
    r.weekNumbers = [] ∧ (r.freq = .monthly ∨ r.months ≠ [] → n.natAbs ≤ 5)

/-- All invariants: the ordinals, too, are in their range. -/
structure WellFormed (r : Rule) : Prop extends Checked r where
  inRange : ∀ d ∈ r.days, ∀ n, d.ordinal = some n → Part.day.Admits n

/-- The days of a well-formed rule are strictly ascending. -/
theorem WellFormed.days_ascending (wellFormed : r.WellFormed) :
    r.days.Pairwise Value.DayBefore := by
  apply wellFormed.days.imp_of_mem
  rintro a b ha hb ⟨other, notBefore⟩
  rcases Value.DayBefore.connected (wellFormed.inRange a ha) (wellFormed.inRange b hb) with
    before | same | after
  · exact before
  · exact absurd same other
  · exact absurd after notBefore

theorem ReadFrom.numbers_listOf (read : r.ReadFrom ps now) {p : Part} (listed : p ∈ Parts.listed) :
    ps.numbers p = .ok (r.listOf p) := by
  simp only [Parts.listed, List.mem_cons, List.not_mem_nil, or_false] at listed
  rcases listed with rfl | rfl | rfl | rfl | rfl | rfl | rfl | rfl
  · exact Params.numbers_of_naturals rfl read.seconds
  · exact Params.numbers_of_naturals rfl read.minutes
  · exact Params.numbers_of_naturals rfl read.hours
  · exact read.monthDays
  · exact read.yearDays
  · exact read.weekNumbers
  · exact Params.numbers_of_naturals rfl read.months
  · exact read.positions

theorem ReadFrom.mem_days (read : r.ReadFrom ps now) (d : DayPattern) :
    d ∈ r.days ↔ ps.GivesDay d := by
  obtain ⟨given, read, same⟩ := read.days
  rw [same, Params.mem_days read]

/-- Every rule that is read keeps the invariants that are checked. -/
theorem ReadFrom.checked (read : r.ReadFrom ps now) : r.Checked := by
  obtain ⟨weekNumbers, yearDays, monthDays, ordinals⟩ := conflict?_eq_none_iff.mp read.noConflict
  exact
    { interval := r.interval_pos
      count := by
        intro n counted
        have given := read.count
        rw [counted, Params.read_eq_ok_iff] at given
        obtain ⟨-, ⟨⟩⟩ | ⟨v, m, -, given, same⟩ := given
        cases same
        simp only [Value.countOf, Except.bind_eq_ok] at given
        obtain ⟨m, -, given⟩ := given
        split at given
        · cases given
          omega
        · cases given
      oneBound := by
        have one := read.oneBound
        have count := Params.read_eq_ok_iff.mp read.count
        have finish := Params.read_eq_ok_iff.mp read.finish
        rcases count with ⟨-, none⟩ | ⟨_, _, counted, -⟩
        · exact .inl none
        · rcases finish with ⟨-, none⟩ | ⟨_, _, bounded, -⟩
          · exact .inr none
          · simp [counted, bounded] at one
      lists := fun p listed => Params.keeps_numbers (read.numbers_listOf listed)
      days := by
        obtain ⟨given, read, same⟩ := read.days
        rw [same]
        obtain ⟨-, rfl⟩ | ⟨v, ds, -, ranked, rfl⟩ := Params.read_eq_ok_iff.mp read
        · exact .nil
        · exact Value.patterns_ranked ranked
      weekNumbers, yearDays, monthDays, ordinals }

/-- A rule that is read is well-formed unless a ready-made pattern has an ordinal outside its
range. -/
theorem ReadFrom.wellFormed_iff (read : r.ReadFrom ps now) : r.WellFormed ↔
    ∀ d, .dayPattern d ∈ ps.itemsOf .day → ∀ n, d.ordinal = some n → Part.day.Admits n := by
  constructor
  · intro wellFormed d given
    exact wellFormed.inRange d ((read.mem_days d).mpr ⟨_, given, rfl⟩)
  · intro ready
    refine ⟨read.checked, fun d member => ?_⟩
    obtain ⟨v, item, given⟩ := (read.mem_days d).mp member
    rcases Value.pattern_inRange_or given with inRange | rfl
    · exact inRange
    · exact ready d item

/-- Lists of naturals that are the same as lists of integers are the same. -/
theorem eq_of_map_natCast {ns ms : List Nat}
    (same : ns.map (fun n : Nat => (n : Int)) = ms.map (fun n : Nat => (n : Int))) : ns = ms :=
  List.map_injective_iff.mpr (fun _ _ => Int.ofNat_inj.mp) same

theorem ReadFrom.listOf_eq (read : r.ReadFrom ps now) (read' : r'.ReadFrom qs now)
    (same : ps.SameValues qs) {p : Part} (listed : p ∈ Parts.listed) :
    r.listOf p = r'.listOf p :=
  same.numbers_eq listed (read.numbers_listOf listed) (read'.numbers_listOf listed)

theorem ReadFrom.days_perm (read : r.ReadFrom ps now) (read' : r'.ReadFrom qs now)
    (same : ps.SameValues qs) : r'.days.Perm r.days := by
  rw [List.perm_ext_iff_of_nodup (read'.checked.days.imp And.left)
    (read.checked.days.imp And.left)]
  intro d
  rw [read.mem_days, read'.mem_days, same.days]

/-- A rule depends only on the single values and on the sets of values of its lists, up to the order
of its days. -/
theorem ReadFrom.eq_of_sameValues (read : r.ReadFrom ps now) (read' : r'.ReadFrom qs now)
    (same : ps.SameValues qs) : r' = { r with days := r'.days } := by
  have freq : r.freq = r'.freq := by
    have given := read.freq
    rw [same.frequency_eq, read'.freq] at given
    exact (Except.ok.inj given).symm
  have start : r.start = r'.start := by
    obtain ⟨given, read, eq⟩ := read.start
    obtain ⟨given', read', eq'⟩ := read'.start
    rw [eq, eq', same.read_eq (by decide) (by decide) read read']
  have interval : r.interval = r'.interval := by
    obtain ⟨given, read, eq⟩ := read.interval
    obtain ⟨given', read', eq'⟩ := read'.interval
    rw [eq, eq', same.read_eq (by decide) (by decide) read read']
  have weekStart : r.weekStart = r'.weekStart := by
    obtain ⟨given, read, eq⟩ := read.weekStart
    obtain ⟨given', read', eq'⟩ := read'.weekStart
    rw [eq, eq', same.read_eq (by decide) (by decide) read read']
  have count := same.read_eq (by decide) (by decide) read.count read'.count
  have finish := same.read_eq (by decide) (by decide) read.finish (start ▸ read'.finish)
  have endsBefore := same.read_eq (by decide) (by decide) read.endsBefore (start ▸ read'.endsBefore)
  have list {p : Part} (listed : p ∈ Parts.listed) := read.listOf_eq read' same listed
  have seconds := eq_of_map_natCast (list (p := .second) (by decide))
  have minutes := eq_of_map_natCast (list (p := .minute) (by decide))
  have hours := eq_of_map_natCast (list (p := .hour) (by decide))
  have monthDays : r.monthDays = r'.monthDays := list (p := .monthDay) (by decide)
  have yearDays : r.yearDays = r'.yearDays := list (p := .yearDay) (by decide)
  have weekNumbers : r.weekNumbers = r'.weekNumbers := list (p := .weekNumber) (by decide)
  have months := eq_of_map_natCast (list (p := .month) (by decide))
  have positions : r.positions = r'.positions := list (p := .position) (by decide)
  clear read read'
  cases r
  cases r'
  dsimp only at *
  subst freq start interval weekStart count finish endsBefore seconds minutes hours monthDays yearDays
    weekNumbers months positions
  rfl

end Rule

/-- What holds of every rule that is read from a mapping, whatever the shapes of its values. It keeps
the invariants that are checked, and all of them unless a ready-made weekday pattern among the items
for days has an ordinal outside its range. Each list holds just the values that its items are read
as. So a mapping that gives the same single values and the same sets of values gives, at the same
time, the same rule, but for the order of the days where a pattern has such an ordinal. -/
theorem Spec.mapping_keeps_invariants {entries : List (String × Value)} {now : Stamp} {r : Rule}
    (read : (Spec.map entries).rule now = .ok r) :
    ∃ ps, (Spec.map entries).params = .ok ps ∧ r.Checked ∧
    (r.WellFormed ↔
      ∀ d, .dayPattern d ∈ ps.itemsOf .day → ∀ n, d.ordinal = some n → Part.day.Admits n) ∧
    (∀ p ∈ Parts.listed, ∀ n, n ∈ r.listOf p ↔ ps.Gives p n) ∧
    (∀ d, d ∈ r.days ↔ ps.GivesDay d) ∧
    ∀ entries' qs r', (Spec.map entries').params = .ok qs → (Spec.map entries').rule now = .ok r' →
      ps.SameValues qs → r'.days.Perm r.days ∧ r' = { r with days := r'.days } ∧
        (r.WellFormed → r' = r) := by
  obtain ⟨ps, params, from_⟩ := Spec.rule_readFrom read
  refine ⟨ps, params, from_.checked, from_.wellFormed_iff,
    fun p listed n => Params.mem_numbers (from_.numbers_listOf listed) n, from_.mem_days, ?_⟩
  intro entries' qs r' params' read' same
  obtain ⟨qs', params'', from'⟩ := Spec.rule_readFrom read'
  obtain rfl := Except.ok.inj (params''.symm.trans params')
  have perm := from_.days_perm from' same
  have eq := from_.eq_of_sameValues from' same
  refine ⟨perm, eq, fun wellFormed => ?_⟩
  have inRange : r'.WellFormed :=
    ⟨from'.checked, fun d member => wellFormed.inRange d (perm.mem_iff.mp member)⟩
  have days : r'.days = r.days := by
    apply perm.eq_of_pairwise _ inRange.days_ascending wellFormed.days_ascending
    intro a b _ _ before after
    exact absurd after before.asymm
  rw [eq, days]

/-- The rule of every other month, given by text and by ready-made values. -/
def everyOtherMonthGiven : List (String × Value) :=
  [("freq", .text "monthly"), ("INTERVAL", .text "2"), ("byhour", .tuple [.int 17, .text "9"]),
    ("by_minute", .text "30,0,30"), ("wkst", .weekday .sunday),
    ("bymonthday", .list [.int 13, .text "-31", .int 13]), ("bymonth", .text "11,3"),
    ("byday", .list [.weekday .friday, .text "2MO", .dayPattern ⟨.monday, some (-1)⟩]),
    ("bysetpos", .int (-1)),
    ("dtstart", .stamp everyOtherMonth.start),
    ("until", .text "2011-12-31T00:00:00.250000Z")]

theorem read_everyOtherMonthGiven :
    (Spec.map everyOtherMonthGiven).rule everyOtherMonth.start = .ok everyOtherMonth := by
  rfl

theorem everyOtherMonth_wellFormed :
    (Spec.map everyOtherMonthGiven).rule everyOtherMonth.start = .ok everyOtherMonth ∧
      everyOtherMonth.WellFormed := by
  obtain ⟨ps, params, -, wellFormed, -⟩ := Spec.mapping_keeps_invariants read_everyOtherMonthGiven
  have items : (Spec.map everyOtherMonthGiven).params.map (Params.itemsOf · .day) =
      .ok [.weekday .friday, .text "2MO", .dayPattern ⟨.monday, some (-1)⟩] := by
    rfl
  rw [params, Except.map, Except.ok.injEq] at items
  refine ⟨read_everyOtherMonthGiven, wellFormed.mpr fun d given => ?_⟩
  simp only [items, List.mem_cons, reduceCtorEq, Value.dayPattern.injEq, false_or, List.not_mem_nil,
    or_false] at given
  rw [given]
  rintro n ⟨⟩
  exact Part.holds_range_iff.mp (by decide)

/-- An ordinal that no year has is taken over from a ready-made pattern. -/
example : ∃ r, (Spec.map [("freq", .frequency .yearly),
    ("byday", .dayPattern ⟨.monday, some 99⟩)]).rule everyOtherMonth.start = .ok r ∧
      ¬ r.WellFormed := by
  refine ⟨_, rfl, fun wellFormed => ?_⟩
  have inRange := wellFormed.inRange ⟨.monday, some 99⟩ List.mem_cons_self 99 rfl
  exact absurd (Part.holds_range_iff.mpr inRange) (by decide)

end Almanac
