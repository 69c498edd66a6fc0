import Almanac.Proofs.Rule.Items
import Almanac.Proofs.Rule.Refusal

set_option autoImplicit false

/-!
Which rule texts give a rule.

A text gives a rule when its grammar is kept, every value makes sense for its part, and the parts go
together. The lists of the rule hold what their items write, once and in ascending order.
-/

namespace Almanac

namespace Frequency

theorem ofName?_eq_some_iff {s : String} {f : Frequency} :
    ofName? s = some f ↔ f.name = Text.folded s := by
  unfold ofName?
  constructor
  · intro found
    simpa using List.find?_some found
  · intro same
    rw [← same]
    cases f <;> rfl

end Frequency

namespace Value

variable {s : String}

theorem frequencyOf_text {f : Frequency} :
    frequencyOf (.text s) = .ok f ↔ f.name = Text.folded s := by
  rw [frequencyOf, ← Frequency.ofName?_eq_some_iff]
  cases Frequency.ofName? s <;> simp

theorem weekdayOf_text {part : Part} {w : Weekday} :
    weekdayOf part (.text s) = .ok w ↔ Text.folded s ∈ w.names := by
  rw [weekdayOf, ← Weekday.ofText?_eq_some_iff]
  cases Weekday.ofText? s <;> simp

theorem intervalOf_text {n : { n : Nat // 0 < n }} :
    intervalOf (.text s) = .ok n ↔ Text.integer? s.toList = some (n.val : Int) := by
  obtain ⟨n, pos⟩ := n
  rw [← @integer_text .interval s, intervalOf]
  cases integer .interval (.text s) with
  | error e => simp
  | ok m =>
    simp only [Except.ok.injEq]
    split
    · rw [Except.ok.injEq, Subtype.mk.injEq]
      omega
    · apply iff_of_false nofun
      omega

theorem countOf_text {n : Nat} :
    countOf (.text s) = .ok n ↔ Text.integer? s.toList = some (n : Int) ∧ 1 ≤ n := by
  rw [← @integer_text .count s, countOf]
  cases integer .count (.text s) with
  | error e => simp [bind, Except.bind]
  | ok m =>
    simp only [bind, Except.bind, Except.ok.injEq]
    split
    · rw [Except.ok.injEq]
      omega
    · apply iff_of_false nofun
      omega

theorem exists_intervalOf_iff : (∃ n, intervalOf (.text s) = .ok n) ↔
    ∃ n, Text.integer? s.toList = some n ∧ 1 ≤ n := by
  simp only [intervalOf_text]
  constructor
  · rintro ⟨⟨n, pos⟩, read⟩
    exact ⟨n, read, by omega⟩
  · rintro ⟨n, read, pos⟩
    exact ⟨⟨n.toNat, by omega⟩, by rw [read, Int.toNat_of_nonneg (by omega)]⟩

theorem exists_countOf_iff : (∃ n, countOf (.text s) = .ok n) ↔
    ∃ n, Text.integer? s.toList = some n ∧ 1 ≤ n := by
  simp only [countOf_text]
  constructor
  · rintro ⟨n, read, pos⟩
    exact ⟨n, read, by omega⟩
  · rintro ⟨n, read, pos⟩
    exact ⟨n.toNat, by rw [read, Int.toNat_of_nonneg (by omega)], by omega⟩

theorem instant_text {part : Part} {zone : Zone} {t : Zoned} :
    instant part zone (.text s) = .ok t ↔
      ∃ stamp, Reading.stamp? (Text.trim s.toList) = some stamp ∧ stamp.inZone zone = t := by
  unfold instant
  dsimp only
  cases Reading.stamp? (Text.trim s.toList) <;> simp

end Value

namespace Parts

variable {α : Type} {parts : List (Part × String)} {p : Part} {v : String}

/-- The values of the parts of a text. -/
def params (parts : List (Part × String)) : Params := parts.map (fun (p, s) => (p, .text s))

theorem lookup_params : (params parts).lookup p = (parts.lookup p).map Value.text := by
  induction parts with
  | nil => rfl
  | cons given parts ih =>
    obtain ⟨q, u⟩ := given
    rw [params, List.map_cons, List.lookup_cons, List.lookup_cons, ← params, ih]
    split <;> rfl

theorem get?_params : (params parts).get? p = (parts.lookup p).map Value.text := by
  rw [Params.get?, lookup_params]
  cases parts.lookup p <;> rfl

theorem read_params {f : Value → Except SpecError α} : (params parts).read p f =
    match parts.lookup p with
    | some v => (f (.text v)).map some
    | none => .ok none := by
  rw [Params.read, get?_params]
  cases parts.lookup p <;> rfl

theorem exists_read_iff {f : Value → Except SpecError α} :
    (∃ o, (params parts).read p f = .ok o) ↔
      ∀ v, parts.lookup p = some v → ∃ a, f (.text v) = .ok a := by
  rw [read_params]
  cases parts.lookup p <;> simp [Except.map_eq_ok]

/-- The items of the value of a part. -/
def itemsOf (parts : List (Part × String)) (p : Part) : List (List Char) :=
  match parts.lookup p with
  | some v => items v
  | none => []

theorem itemsOf_eq_nil_iff : itemsOf parts p = [] ↔ parts.lookup p = none := by
  unfold itemsOf
  cases given : parts.lookup p with
  | none => simp
  | some v => simp [items, List.splitOn_ne_nil]

/-- The list holds, once and in ascending order, the numbers that the items of the part write. -/
def Numbers (parts : List (Part × String)) (p : Part) (ns : List Int) : Prop :=
  Value.Collects (Value.IsNumber p) (· < ·) (itemsOf parts p) ns

/-- The list holds, once each and in their order, the patterns that the items for days write. -/
def Days (parts : List (Part × String)) (ds : List DayPattern) : Prop :=
  Value.Collects Value.IsDay Value.DayBefore (itemsOf parts .day) ds

section Lists

variable (values : ∀ p v, parts.lookup p = some v → IsValue v)
include values

theorem exists_numbers_iff : (∃ ns, (params parts).numbers p = .ok ns) ↔
    ∀ w ∈ itemsOf parts p, ∃ n, Value.IsNumber p w n := by
  simp only [Params.numbers, Except.bind_eq_ok, pure, Except.pure, Except.ok.injEq, read_params,
    itemsOf]
  cases given : parts.lookup p with
  | none => simp
  | some v => simp [Except.map_eq_ok, ← Value.exists_numbers_text (values p v given)]

theorem numbers_collects {ns : List Int} (read : (params parts).numbers p = .ok ns) :
    Numbers parts p ns := by
  simp only [Params.numbers, Except.bind_eq_ok, pure, Except.pure, Except.ok.injEq,
    read_params] at read
  unfold Numbers itemsOf
  cases given : parts.lookup p with
  | none =>
    simp only [given] at read
    obtain ⟨_, ⟨⟩, rfl⟩ := read
    exact ⟨by simp, by simp⟩
  | some v =>
    simp only [given, Except.map_eq_ok] at read
    obtain ⟨_, ⟨ns, read, rfl⟩, rfl⟩ := read
    exact Value.numbers_text (values p v given) read

theorem exists_naturals_iff : (∃ ns, (params parts).naturals p = .ok ns) ↔
    ∀ w ∈ itemsOf parts p, ∃ n, Value.IsNumber p w n := by
  rw [← exists_numbers_iff values]
  simp [Params.naturals, Except.bind_eq_ok, pure, Except.pure]

theorem naturals_collects (unsigned : p.range.signed = false) {ns : List Nat}
    (read : (params parts).naturals p = .ok ns) : Numbers parts p (ns.map (fun n : Nat => (n : Int))) :=
  numbers_collects values (Params.numbers_of_naturals unsigned read)

theorem exists_patterns_iff : (∃ ds, (params parts).read .day Value.patterns = .ok ds) ↔
    ∀ w ∈ itemsOf parts .day, ∃ d, Value.IsDay w d := by
  rw [exists_read_iff, itemsOf]
  cases given : parts.lookup .day with
  | none => simp
  | some v => simp [← Value.exists_patterns_text (values .day v given)]

theorem patterns_collects {ds : Option (List DayPattern)}
    (read : (params parts).read .day Value.patterns = .ok ds) : Days parts (ds.getD []) := by
  rw [read_params] at read
  unfold Days itemsOf
  cases given : parts.lookup .day with
  | none =>
    simp only [given, Except.ok.injEq] at read
    subst read
    exact ⟨by simp, by simp⟩
  | some v =>
    simp only [given, Except.map_eq_ok] at read
    obtain ⟨ds, read, rfl⟩ := read
    exact Value.patterns_text (values .day v given) read

end Lists

/-- The text is an instant: the basic form of a date and time that there is, or no basic form and
an instant in the extended form. -/
def IsInstant (v : String) : Prop :=
  (∃ form, Reading.Basic form v.toList ∧ form.IsReal) ∨
    (¬ ∃ form, Reading.Basic form v.toList) ∧ (Reading.extended? v.toList).isSome

theorem exists_instant_iff (value : IsValue v) {zone : Zone} :
    (∃ t, Value.instant p zone (.text v) = .ok t) ↔ IsInstant v := by
  have read : (∃ t, Value.instant p zone (.text v) = .ok t) ↔
      (Reading.stamp? v.toList).isSome := by
    simp [Value.instant_text, Text.trim_solid value.solid, Option.isSome_iff_exists]
  rw [read, IsInstant, Reading.stamp?]
  simp only [← Reading.basic?_eq_some_iff, ← Reading.BasicForm.stamp?_isSome_iff]
  cases Reading.basic? v.toList <;> simp

end Parts

namespace Rule

theorem ite_some_eq_none_iff {α : Type} {c : Prop} [Decidable c] {a : α} {o : Option α} :
    (if c then some a else o) = none ↔ ¬c ∧ o = none := by
  split <;> simp [*]

/-- No two parts of a rule conflict: what each list and each ordinal asks of the rest. -/
theorem conflict?_eq_none_iff {r : Rule} : r.conflict? = none ↔
    (r.weekNumbers ≠ [] → r.freq = .yearly) ∧
    (r.yearDays ≠ [] → r.freq ≠ .daily ∧ r.freq ≠ .weekly ∧ r.freq ≠ .monthly) ∧
    (r.monthDays ≠ [] → r.freq ≠ .weekly) ∧
    ∀ d ∈ r.days, ∀ n, d.ordinal = some n → (r.freq = .monthly ∨ r.freq = .yearly) ∧
      r.weekNumbers = [] ∧ (r.freq = .monthly ∨ r.months ≠ [] → n.natAbs ≤ 5) := by
  have far : (r.days.filterMap DayPattern.ordinal).any (fun n => decide (5 < n.natAbs)) = true ↔
      ∃ d ∈ r.days, ∃ n, d.ordinal = some n ∧ 5 < n.natAbs := by
    simp only [List.any_eq_true, List.mem_filterMap, decide_eq_true_eq]
    constructor
    · rintro ⟨n, ⟨d, member, ordinal⟩, high⟩
      exact ⟨d, member, n, ordinal, high⟩
    · rintro ⟨d, member, n, ordinal, high⟩
      exact ⟨n, ⟨d, member, ordinal⟩, high⟩
  unfold conflict?
  dsimp only
  rw [ite_some_eq_none_iff, ite_some_eq_none_iff, ite_some_eq_none_iff]
  refine and_congr (by simp) (and_congr (by simp [and_assoc]) (and_congr (by simp) ?_))
  cases ordinals : r.days.filterMap DayPattern.ordinal with
  | nil =>
    rw [List.filterMap_eq_nil_iff] at ordinals
    apply iff_of_true (if_pos rfl)
    intro d member n ordinal
    cases (ordinals d member).symm.trans ordinal
  | cons n ns =>
    obtain ⟨d, member, ordinal⟩ := List.mem_filterMap.mp (ordinals ▸ List.mem_cons_self)
    rw [ordinals] at far
    rw [if_neg (by simp), ite_some_eq_none_iff, ite_some_eq_none_iff, Bool.and_eq_true, far]
    simp only [Bool.or_eq_true, Bool.and_eq_true, decide_eq_true_eq, Bool.not_eq_true',
      List.isEmpty_eq_false_iff]
    constructor
    · rintro ⟨units, near, -⟩ d' member' n' ordinal'
      refine ⟨by tauto, by tauto, fun month => ?_⟩
      by_contra high
      exact near ⟨month, d', member', n', ordinal', by omega⟩
    · intro every
      obtain ⟨units, weeks, -⟩ := every d member n ordinal
      refine ⟨by tauto, ?_, trivial⟩
      rintro ⟨month, d', member', n', ordinal', high⟩
      have low := (every d' member' n' ordinal').2.2 month
      omega

end Rule

namespace Parts

/-- The parts that hold lists of numbers. -/
def listed : List Part :=
  [.second, .minute, .hour, .monthDay, .yearDay, .weekNumber, .month, .position]

/-- The parts go together in a rule of the frequency. -/
structure Compatible (parts : List (Part × String)) (freq : Frequency) : Prop where
  weekNumbers : parts.lookup .weekNumber ≠ none → freq = .yearly
  yearDays : parts.lookup .yearDay ≠ none → freq ≠ .daily ∧ freq ≠ .weekly ∧ freq ≠ .monthly
  monthDays : parts.lookup .monthDay ≠ none → freq ≠ .weekly
  ordinals : ∀ w ∈ itemsOf parts .day, ∀ d n, Value.IsDay w d → d.ordinal = some n →
    (freq = .monthly ∨ freq = .yearly) ∧ parts.lookup .weekNumber = none ∧
      (freq = .monthly ∨ parts.lookup .month ≠ none → n.natAbs ≤ 5)

/-- The parts make a rule of the frequency: each value makes sense for its part, and the parts go
together. -/
structure Admissible (parts : List (Part × String)) (freq : Frequency) : Prop where
  named : ∃ v, parts.lookup .freq = some v ∧ freq.name = Text.folded v
  interval : ∀ v, parts.lookup .interval = some v → ∃ n, Text.integer? v.toList = some n ∧ 1 ≤ n
  count : ∀ v, parts.lookup .count = some v → ∃ n, Text.integer? v.toList = some n ∧ 1 ≤ n
  oneBound : parts.lookup .count = none ∨ parts.lookup .finish = none
  instants : ∀ p ∈ [Part.start, .finish, .endsBefore], ∀ v, parts.lookup p = some v → IsInstant v
  weekStart : ∀ v, parts.lookup .weekStart = some v → ∃ w : Weekday, Text.folded v ∈ w.names
  numbers : ∀ p ∈ listed, ∀ w ∈ itemsOf parts p, ∃ n, Value.IsNumber p w n
  days : ∀ w ∈ itemsOf parts .day, ∃ d, Value.IsDay w d
  compatible : Compatible parts freq

end Parts

namespace Rule

/-- The lists of a rule hold what the items of the parts write, once and in ascending order. -/
structure Lists (r : Rule) (parts : List (Part × String)) : Prop where
  seconds : Parts.Numbers parts .second (r.seconds.map (fun n : Nat => (n : Int)))
  minutes : Parts.Numbers parts .minute (r.minutes.map (fun n : Nat => (n : Int)))
  hours : Parts.Numbers parts .hour (r.hours.map (fun n : Nat => (n : Int)))
  days : Parts.Days parts r.days
  monthDays : Parts.Numbers parts .monthDay r.monthDays
  yearDays : Parts.Numbers parts .yearDay r.yearDays
  weekNumbers : Parts.Numbers parts .weekNumber r.weekNumbers
  months : Parts.Numbers parts .month (r.months.map (fun n : Nat => (n : Int)))
  positions : Parts.Numbers parts .position r.positions

section

variable {r : Rule} {parts : List (Part × String)} {now : Stamp}
  (values : ∀ p v, parts.lookup p = some v → Parts.IsValue v)
include values

theorem ReadFrom.lists (read : r.ReadFrom (Parts.params parts) now) : r.Lists parts where
  seconds := Parts.naturals_collects values rfl read.seconds
  minutes := Parts.naturals_collects values rfl read.minutes
  hours := Parts.naturals_collects values rfl read.hours
  days := by
    obtain ⟨given, read, same⟩ := read.days
    rw [same]
    exact Parts.patterns_collects values read
  monthDays := Parts.numbers_collects values read.monthDays
  yearDays := Parts.numbers_collects values read.yearDays
  weekNumbers := Parts.numbers_collects values read.weekNumbers
  months := Parts.naturals_collects values rfl read.months
  positions := Parts.numbers_collects values read.positions

end

/-- The parts go together exactly when the lists that they make do not conflict. -/
theorem Lists.noConflict_iff {r : Rule} {parts : List (Part × String)} (lists : r.Lists parts)
    (numbers : ∀ p ∈ Parts.listed, ∀ w ∈ Parts.itemsOf parts p, ∃ n, Value.IsNumber p w n) :
    r.conflict? = none ↔ Parts.Compatible parts r.freq := by
  have given : ∀ p ∈ Parts.listed, ∀ ns, Parts.Numbers parts p ns →
      (ns = [] ↔ parts.lookup p = none) := fun p listed ns collects =>
    (collects.eq_nil_iff (numbers p listed)).trans Parts.itemsOf_eq_nil_iff
  have weeks := given .weekNumber (by decide) _ lists.weekNumbers
  have years := given .yearDay (by decide) _ lists.yearDays
  have monthDays := given .monthDay (by decide) _ lists.monthDays
  have months := given .month (by decide) _ lists.months
  rw [List.map_eq_nil_iff] at months
  rw [conflict?_eq_none_iff]
  simp only [ne_eq, weeks, years, monthDays, months, lists.days.mem_iff]
  constructor
  · rintro ⟨weeks, years, monthDays, ordinals⟩
    exact ⟨weeks, years, monthDays, fun w member d n day => ordinals d ⟨w, member, day⟩ n⟩
  · rintro ⟨weeks, years, monthDays, ordinals⟩
    refine ⟨weeks, years, monthDays, ?_⟩
    rintro d ⟨w, member, day⟩ n
    exact ordinals w member d n day

variable {r : Rule} {parts : List (Part × String)} {now : Stamp}
  (values : ∀ p v, parts.lookup p = some v → Parts.IsValue v)
include values

theorem ReadFrom.admissible (read : r.ReadFrom (Parts.params parts) now) :
    Parts.Admissible parts r.freq := by
  have numbers : ∀ p ∈ Parts.listed, ∀ w ∈ Parts.itemsOf parts p, ∃ n, Value.IsNumber p w n := by
    simp only [Parts.listed, List.forall_mem_cons]
    refine ⟨(Parts.exists_naturals_iff values).mp ⟨_, read.seconds⟩,
      (Parts.exists_naturals_iff values).mp ⟨_, read.minutes⟩,
      (Parts.exists_naturals_iff values).mp ⟨_, read.hours⟩,
      (Parts.exists_numbers_iff values).mp ⟨_, read.monthDays⟩,
      (Parts.exists_numbers_iff values).mp ⟨_, read.yearDays⟩,
      (Parts.exists_numbers_iff values).mp ⟨_, read.weekNumbers⟩,
      (Parts.exists_naturals_iff values).mp ⟨_, read.months⟩,
      (Parts.exists_numbers_iff values).mp ⟨_, read.positions⟩, by simp⟩
  obtain ⟨interval, hinterval, -⟩ := read.interval
  obtain ⟨start, hstart, -⟩ := read.start
  obtain ⟨weekStart, hweekStart, -⟩ := read.weekStart
  obtain ⟨days, hdays, -⟩ := read.days
  constructor
  · have freq := read.freq
    rw [Parts.lookup_params] at freq
    cases given : parts.lookup .freq with
    | none => simp [given, Value.frequencyOf] at freq
    | some v =>
      simp only [given, Option.map_some, Option.getD_some, Value.frequencyOf_text] at freq
      exact ⟨v, rfl, freq⟩
  · exact fun v given =>
      Value.exists_intervalOf_iff.mp (Parts.exists_read_iff.mp ⟨_, hinterval⟩ v given)
  · exact fun v given =>
      Value.exists_countOf_iff.mp (Parts.exists_read_iff.mp ⟨_, read.count⟩ v given)
  · have bound := read.oneBound
    simp only [Parts.get?_params, Option.isSome_map, Bool.and_eq_false_iff,
      Option.isSome_eq_false_iff, Option.isNone_iff_eq_none] at bound
    exact bound
  · simp only [List.forall_mem_cons]
    refine ⟨fun v given => ?_, fun v given => ?_, fun v given => ?_, by simp⟩
    · exact (Parts.exists_instant_iff (values _ v given)).mp
        (Parts.exists_read_iff.mp ⟨_, hstart⟩ v given)
    · exact (Parts.exists_instant_iff (values _ v given)).mp
        (Parts.exists_read_iff.mp ⟨_, read.finish⟩ v given)
    · exact (Parts.exists_instant_iff (values _ v given)).mp
        (Parts.exists_read_iff.mp ⟨_, read.endsBefore⟩ v given)
  · intro v given
    obtain ⟨w, read⟩ := Parts.exists_read_iff.mp ⟨_, hweekStart⟩ v given
    exact ⟨w, Value.weekdayOf_text.mp read⟩
  · exact numbers
  · exact (Parts.exists_patterns_iff values).mp ⟨_, hdays⟩
  · exact ((read.lists values).noConflict_iff numbers).mp read.noConflict

theorem exists_instant {freq : Frequency} (admissible : Parts.Admissible parts freq) (p : Part)
    (instant : p ∈ [Part.start, .finish, .endsBefore]) (zone : Zone) :
    ∃ t, (Parts.params parts).read p (Value.instant p zone) = .ok t :=
  Parts.exists_read_iff.mpr fun v given =>
    (Parts.exists_instant_iff (values p v given)).mpr (admissible.instants p instant v given)

theorem exists_numbers {freq : Frequency} (admissible : Parts.Admissible parts freq) (p : Part)
    (listed : p ∈ Parts.listed) : ∃ ns, (Parts.params parts).numbers p = .ok ns :=
  (Parts.exists_numbers_iff values).mpr (admissible.numbers p listed)

theorem exists_naturals {freq : Frequency} (admissible : Parts.Admissible parts freq) (p : Part)
    (listed : p ∈ Parts.listed) : ∃ ns, (Parts.params parts).naturals p = .ok ns :=
  (Parts.exists_naturals_iff values).mpr (admissible.numbers p listed)

/-- Parts that make sense and go together are read as a rule. -/
theorem exists_readFrom {freq : Frequency} (admissible : Parts.Admissible parts freq) :
    ∃ r : Rule, r.ReadFrom (Parts.params parts) now := by
  obtain ⟨v, given, named⟩ := admissible.named
  obtain ⟨interval, hinterval⟩ := Parts.exists_read_iff.mpr fun v given =>
    Value.exists_intervalOf_iff.mpr (admissible.interval v given)
  obtain ⟨count, hcount⟩ := Parts.exists_read_iff.mpr fun v given =>
    Value.exists_countOf_iff.mpr (admissible.count v given)
  have instants := exists_instant values admissible
  obtain ⟨start, hstart⟩ := instants .start (by decide) .utc
  obtain ⟨finish, hfinish⟩ := instants .finish (by decide) (start.getD (defaultStart now)).zone
  obtain ⟨endsBefore, hendsBefore⟩ :=
    instants .endsBefore (by decide) (start.getD (defaultStart now)).zone
  obtain ⟨weekStart, hweekStart⟩ : ∃ w,
      (Parts.params parts).read .weekStart (Value.weekdayOf .weekStart) = .ok w :=
    Parts.exists_read_iff.mpr fun v given =>
      (admissible.weekStart v given).imp fun w named => Value.weekdayOf_text.mpr named
  obtain ⟨days, hdays⟩ := (Parts.exists_patterns_iff values).mpr admissible.days
  have numbers := exists_numbers values admissible
  have naturals := exists_naturals values admissible
  obtain ⟨seconds, hseconds⟩ := naturals .second (by decide)
  obtain ⟨minutes, hminutes⟩ := naturals .minute (by decide)
  obtain ⟨hours, hhours⟩ := naturals .hour (by decide)
  obtain ⟨monthDays, hmonthDays⟩ := numbers .monthDay (by decide)
  obtain ⟨yearDays, hyearDays⟩ := numbers .yearDay (by decide)
  obtain ⟨weekNumbers, hweekNumbers⟩ := numbers .weekNumber (by decide)
  obtain ⟨months, hmonths⟩ := naturals .month (by decide)
  obtain ⟨positions, hpositions⟩ := numbers .position (by decide)
  obtain ⟨r, hr⟩ : ∃ r : Rule, r =
      { freq, start := start.getD (defaultStart now), interval := (interval.getD ⟨1, Nat.one_pos⟩).val,
        count, finish, endsBefore, weekStart := weekStart.getD .monday, seconds, minutes, hours,
        days := days.getD [], monthDays, yearDays, weekNumbers, months, positions,
        interval_pos := (interval.getD ⟨1, Nat.one_pos⟩).property } := ⟨_, rfl⟩
  have lists : r.Lists parts := by
    rw [hr]
    exact
      { seconds := Parts.naturals_collects values rfl hseconds
        minutes := Parts.naturals_collects values rfl hminutes
        hours := Parts.naturals_collects values rfl hhours
        days := Parts.patterns_collects values hdays
        monthDays := Parts.numbers_collects values hmonthDays
        yearDays := Parts.numbers_collects values hyearDays
        weekNumbers := Parts.numbers_collects values hweekNumbers
        months := Parts.naturals_collects values rfl hmonths
        positions := Parts.numbers_collects values hpositions }
  have noConflict : r.conflict? = none := by
    rw [lists.noConflict_iff admissible.numbers, hr]
    exact admissible.compatible
  refine ⟨r, ?_⟩
  rw [hr] at noConflict ⊢
  exact
    { freq := by
        rw [Parts.lookup_params, given]
        exact Value.frequencyOf_text.mpr named
      interval := ⟨interval, hinterval, rfl⟩
      oneBound := by
        rw [Parts.get?_params, Parts.get?_params]
        rcases admissible.oneBound with none | none <;> simp only [none] <;> simp
      start := ⟨start, hstart, rfl⟩
      count := hcount
      finish := hfinish
      endsBefore := hendsBefore
      weekStart := ⟨weekStart, hweekStart, rfl⟩
      days := ⟨days, hdays, rfl⟩
      seconds := hseconds
      minutes := hminutes
      hours := hhours
      monthDays := hmonthDays
      yearDays := hyearDays
      weekNumbers := hweekNumbers
      months := hmonths
      positions := hpositions
      noConflict := noConflict }

end Rule

namespace Parts

variable {s : String} {parts parts' : List (Part × String)}

theorem Writes.unique (writes : Writes s parts) (writes' : Writes s parts') : parts = parts' := by
  rw [← ofText_eq_ok_iff] at writes writes'
  exact Except.ok.inj (writes.symm.trans writes')

theorem Writes.values (writes : Writes s parts) (p : Part) (v : String)
    (given : parts.lookup p = some v) : IsValue v := by
  obtain ⟨before, after, rfl, -⟩ := List.lookup_eq_some_iff.mp given
  exact writes.isValue (List.mem_append_right before List.mem_cons_self)

end Parts

namespace Spec

theorem params_text {s : String} {ps : Params} :
    (Spec.text s).params = .ok ps ↔ ∃ parts, Parts.Writes s parts ∧ ps = Parts.params parts := by
  rw [Spec.params, Except.bind_eq_ok]
  apply exists_congr
  intro parts
  rw [Parts.ofText_eq_ok_iff]
  apply and_congr_right
  intro _
  constructor
  · rintro ⟨⟩
    rfl
  · rintro rfl
    rfl

theorem rule_text {s : String} {now : Stamp} {r : Rule} : (Spec.text s).rule now = .ok r ↔
    ∃ parts, Parts.Writes s parts ∧ r.ReadFrom (Parts.params parts) now := by
  simp only [Spec.rule, Except.bind_eq_ok, params_text, Rule.ofParams_eq_ok_iff]
  constructor
  · rintro ⟨_, ⟨parts, writes, rfl⟩, read⟩
    exact ⟨parts, writes, read⟩
  · rintro ⟨parts, writes, read⟩
    exact ⟨_, ⟨parts, writes, rfl⟩, read⟩

/-- What is wrong with a rule text that gives no rule: one of its values or its parts together, or its
form. -/
theorem wrong_of_text {s : String} {now : Stamp} {e : SpecError}
    (failed : (Spec.text s).rule now = .error e) :
    (∃ parts, Parts.ofText s = .ok parts ∧ (Parts.params parts).Wrong e) ∨
      ∃ fault span, Parts.ofText s = .error (.text fault span s) ∧ e = .text fault span s := by
  rcases Parts.ofText_cases s with ⟨-, parts, -, -, given⟩ | ⟨⟨fault, span, given⟩, -⟩
  · simp only [Spec.rule, Spec.params, given] at failed
    exact .inl ⟨parts, given, Rule.ofParams_fails _ now e failed⟩
  · simp only [Spec.rule, Spec.params, given] at failed
    cases failed
    exact .inr ⟨fault, span, given, rfl⟩

/-- Whatever is wrong with a rule text can be told. -/
theorem hasText_of_text {s : String} {now : Stamp} {e : SpecError}
    (failed : (Spec.text s).rule now = .error e) : e.hasText = true := by
  rcases wrong_of_text failed with ⟨parts, -, wrong⟩ | ⟨fault, span, -, rfl⟩
  · refine wrong.hasText fun part v given => ?_
    rw [Parts.lookup_params] at given
    obtain ⟨t, -, rfl⟩ := Option.map_eq_some_iff.mp given
    exact ⟨t, rfl⟩
  · rfl

end Spec

end Almanac
