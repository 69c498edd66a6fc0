import Almanac.Proofs.Rule.Legible

set_option autoImplicit false

/-!
Rule text round-trips.

What is read from a text can be read again where it is written: numbers that are read are short enough
to be written, and lists are kept in their order. No text gives an offset of less than a second, but
the time of reading may have one, and an instant that is given no offset is at that of the time of
reading. So the text of a rule that was read gives the rule again exactly where none of its offsets
is that short.
-/

namespace Almanac

/-- The stamp has no fold, and its zone, where it has one, is an offset that can be written. -/
structure Stamp.Plain (s : Stamp) : Prop where
  fold : s.fold = false
  zone : ∀ z, s.zone = some z → ∃ o, z = .fixed o ∧ o.Legible

namespace Reading

theorem utc_legible : ∃ o, Zone.utc = .fixed o ∧ o.Legible := ⟨.zero, rfl, .inl rfl⟩

theorem legible_of_offset? {negative : Bool} {c : ClockForm} {z : Zone}
    (read : offset? negative c = some z) : ∃ o, z = .fixed o ∧ o.Legible := by
  unfold offset? at read
  dsimp only at read
  split at read
  · cases read
    exact utc_legible
  · rename_i long
    obtain ⟨o, made, rfl⟩ := Option.map_eq_some_iff.mp read
    refine ⟨o, rfl, .inr ?_⟩
    unfold Offset.ofMicros? at made
    split at made
    · cases made
      simp only [secondMicros_eq, offset?.signed]
      split <;> omega
    · cases made

theorem legible_of_extendedClock? {s : List Char} {time : ClockForm} {zone : Option Zone}
    (read : extendedClock? s = some (time, zone)) {z : Zone} (some : zone = some z) :
    ∃ o, z = .fixed o ∧ o.Legible := by
  simp only [extendedClock?, bind, Option.bind_eq_some_iff] at read
  obtain ⟨time', -, read⟩ := read
  subst some
  split at read
  · split at read <;> cases read
  · split at read <;> cases read
    exact utc_legible
  · obtain ⟨offset, -, read⟩ := Option.bind_eq_some_iff.mp read
    split at read
    · obtain ⟨z', made, same⟩ := Option.bind_eq_some_iff.mp read
      cases same
      exact legible_of_offset? made
    · cases read

theorem plain_of_extended? {s : List Char} {t : Stamp} (read : extended? s = some t) : t.Plain := by
  simp only [extended?, bind, Option.bind_eq_some_iff] at read
  obtain ⟨length, -, day, -, date, -, read⟩ := read
  split at read
  · cases read
    exact ⟨rfl, by simp⟩
  · obtain ⟨⟨time, zone⟩, clock, read⟩ := Option.bind_eq_some_iff.mp read
    split at read
    · obtain ⟨wall, -, same⟩ := Option.bind_eq_some_iff.mp read
      cases same
      exact ⟨rfl, fun z => legible_of_extendedClock? clock⟩
    · cases read

theorem plain_of_stamp? {s : List Char} {t : Stamp} (read : stamp? s = some t) : t.Plain := by
  unfold stamp? at read
  split at read
  · rename_i form _
    simp only [BasicForm.stamp?, bind, Option.bind_eq_some_iff] at read
    obtain ⟨wall, -, same⟩ := read
    cases same
    refine ⟨rfl, ?_⟩
    dsimp only
    split
    · simpa using utc_legible
    · simp
  · exact plain_of_extended? read

end Reading

namespace Parts

variable {α : Type} {parts : List (Part × String)} {p : Part} {f : Value → Except SpecError α}

theorem read_eq_some_iff {a : α} : (params parts).read p f = .ok (some a) ↔
    ∃ v, parts.lookup p = some v ∧ f (.text v) = .ok a := by
  rw [read_params]
  cases parts.lookup p <;> simp [Except.map_eq_ok]

theorem Numbers.keeps {ns : List Int} (numbers : Numbers parts p ns) : p.Keeps ns where
  sorted := numbers.sorted
  admits n member := by
    obtain ⟨w, -, -, admits⟩ := (numbers.mem_iff n).mp member
    exact admits

theorem short_of_interval {n : { n : Nat // 0 < n }}
    (read : (params parts).read .interval Value.intervalOf = .ok (some n)) :
    n.val < 10 ^ Text.digitLimit := by
  obtain ⟨v, -, given⟩ := read_eq_some_iff.mp read
  exact Text.integer?_lt (Value.intervalOf_text.mp given)

theorem short_of_count {n : Nat} (read : (params parts).read .count Value.countOf = .ok (some n)) :
    1 ≤ n ∧ n < 10 ^ Text.digitLimit := by
  obtain ⟨v, -, given⟩ := read_eq_some_iff.mp read
  obtain ⟨written, positive⟩ := Value.countOf_text.mp given
  exact ⟨positive, Text.integer?_lt written⟩

/-- An instant that is read is at an offset that can be written, or in the zone that is assumed, and
has no fold. -/
theorem zone_of_instant {zone : Zone} {t : Zoned}
    (read : (params parts).read p (Value.instant p zone) = .ok (some t)) :
    ((∃ o, t.zone = .fixed o ∧ o.Legible) ∨ t.zone = zone) ∧ t.fold = false := by
  obtain ⟨v, -, given⟩ := read_eq_some_iff.mp read
  obtain ⟨stamp, written, rfl⟩ := Value.instant_text.mp given
  obtain ⟨fold, own⟩ := Reading.plain_of_stamp? written
  refine ⟨?_, fold⟩
  rw [Stamp.inZone]
  cases zone : stamp.zone with
  | none => exact .inr rfl
  | some z => exact .inl (own z zone)

end Parts

namespace Rule

open Parts

variable {r : Rule} {parts : List (Part × String)} {now : Stamp}

/-- The instants of a rule. -/
def moments (r : Rule) : List Zoned := r.start :: (r.finish.toList ++ r.endsBefore.toList)

theorem ReadFrom.zone_start (read : r.ReadFrom (params parts) now) :
    (∃ o, r.start.zone = .fixed o ∧ o.Legible) ∨ now.zone = some r.start.zone := by
  obtain ⟨given, read, same⟩ := read.start
  rw [same]
  cases given with
  | some t =>
    rw [Option.getD_some]
    rcases (zone_of_instant read).1 with own | utc
    · exact .inl own
    · exact .inl (utc ▸ Reading.utc_legible)
  | none =>
    rw [Option.getD_none, defaultStart, Stamp.inZone]
    cases own : now.zone with
    | none => exact .inl Reading.utc_legible
    | some z => exact .inr rfl

theorem ReadFrom.bound (read : r.ReadFrom (params parts) now) {t : Zoned}
    (member : t ∈ r.finish.toList ++ r.endsBefore.toList) :
    ((∃ o, t.zone = .fixed o ∧ o.Legible) ∨ now.zone = some t.zone) ∧ t.fold = false := by
  obtain ⟨p, given⟩ : ∃ p, (params parts).read p (Value.instant p r.start.zone) = .ok (some t) := by
    rcases List.mem_append.mp member with finish | endsBefore
    · exact ⟨_, Option.mem_toList.mp finish ▸ read.finish⟩
    · exact ⟨_, Option.mem_toList.mp endsBefore ▸ read.endsBefore⟩
  obtain ⟨own | shared, fold⟩ := zone_of_instant given
  · exact ⟨.inl own, fold⟩
  · exact ⟨shared ▸ read.zone_start, fold⟩

/-- An instant of a rule that is read is at an offset that can be written, or in the zone of the time of
reading. -/
theorem ReadFrom.zone (read : r.ReadFrom (params parts) now) {t : Zoned} (member : t ∈ r.moments) :
    (∃ o, t.zone = .fixed o ∧ o.Legible) ∨ now.zone = some t.zone := by
  rcases List.mem_cons.mp member with rfl | bound
  · exact read.zone_start
  · exact (read.bound bound).1

/-- A rule that is read from a text is legible where its years have four digits. -/
theorem ReadFrom.legible (read : r.ReadFrom (params parts) now)
    (values : ∀ p v, parts.lookup p = some v → IsValue v)
    (zone : ∀ z, now.zone = some z → ∃ o, z = .fixed o)
    (years : ∀ t ∈ r.moments, 1000 ≤ t.wall.year) : r.Legible := by
  have lists := read.lists values
  have instant (t : Zoned) (member : t ∈ r.moments) : t.Legible := by
    refine ⟨?_, years t member⟩
    rcases read.zone member with ⟨o, fixed, -⟩ | shared
    · exact ⟨o, fixed⟩
    · exact zone _ shared
  exact
    { interval := by
        obtain ⟨given, read, same⟩ := read.interval
        rw [same]
        cases given with
        | none => exact Nat.one_lt_pow (by decide) (by decide)
        | some n => exact short_of_interval read
      count := fun n some => short_of_count (some ▸ read.count)
      oneBound := by
        by_contra both
        obtain ⟨⟨n, count⟩, ⟨t, finish⟩⟩ : (∃ n, r.count = some n) ∧ ∃ t, r.finish = some t := by
          simpa [not_or, Option.ne_none_iff_exists'] using both
        obtain ⟨v, counted, -⟩ := read_eq_some_iff.mp (count ▸ read.count)
        obtain ⟨w, bounded, -⟩ := read_eq_some_iff.mp (finish ▸ read.finish)
        have one := read.oneBound
        simp [get?_params, counted, bounded] at one
      start := instant _ List.mem_cons_self
      finish := fun t some => instant t (by simp [moments, some])
      endsBefore := fun t some => instant t (by simp [moments, some])
      seconds := lists.seconds.keeps
      minutes := lists.minutes.keeps
      hours := lists.hours.keeps
      days := ⟨lists.days.sorted, fun d member => by
        obtain ⟨w, -, -, admits⟩ := (lists.days.mem_iff d).mp member
        exact admits⟩
      monthDays := lists.monthDays.keeps
      yearDays := lists.yearDays.keeps
      weekNumbers := lists.weekNumbers.keeps
      months := lists.months.keeps
      positions := lists.positions.keeps
      noConflict := read.noConflict }

theorem Legible.instant (legible : r.Legible) {t : Zoned} (member : t ∈ r.moments) : t.Legible := by
  simp only [moments, List.mem_cons, List.mem_append, Option.mem_toList] at member
  rcases member with rfl | finish | endsBefore
  · exact legible.start
  · exact legible.finish t finish
  · exact legible.endsBefore t endsBefore

end Rule

/-! A rule with its start unfolded is the same rule. -/

theorem Zoned.Legible.same_self {t : Zoned} (legible : t.Legible) (fold : Bool) :
    Zoned.same { t with fold } t = true := by
  obtain ⟨o, fixed⟩ := legible.fixed
  simp [Zoned.same, fixed, Zone.sharesTable, Zoned.utc, Zoned.offset, Zone.offsetAt,
    Zoned.foldSensitive]

namespace Rule

variable {r : Rule}

/-- The rule with its start read without a fold. -/
def unfolded (r : Rule) : Rule := { r with start := { r.start with fold := false } }

theorem Legible.same_unfolded (legible : r.Legible) : r.unfolded.same r = true := by
  have start := legible.start.same_self false
  have bound : ∀ o : Option Zoned, (∀ t, o = some t → t.Legible) → sameBound o o = true := by
    intro o legible
    cases o with
    | none => rfl
    | some t => exact (legible t rfl).same_self t.fold
  simp [same, unfolded, start, bound r.finish legible.finish, bound r.endsBefore legible.endsBefore]

theorem Legible.writtenInRule_unfolded (legible : r.Legible) :
    r.unfolded.start.writtenInRule = r.start.writtenInRule := by
  obtain ⟨o, fixed⟩ := legible.start.fixed
  simp [unfolded, Zoned.writtenInRule, Zoned.written, Zoned.offset, fixed, Zone.offsetAt]

theorem Legible.text_unfolded (legible : r.Legible) : r.unfolded.text = r.text := by
  have start := legible.writtenInRule_unfolded
  simp only [text, writtenParts, writtenInstant, start]
  rfl

theorem Legible.moments_unfolded (legible : r.Legible) :
    r.unfolded.moments.map (fun t => (t.utc, t.offset)) =
      r.moments.map (fun t => (t.utc, t.offset)) := by
  obtain ⟨o, fixed⟩ := legible.start.fixed
  simp [moments, unfolded, Zoned.utc, Zoned.offset, fixed, Zone.offsetAt]

/-! What is read agrees with what was written. -/

/-- Every part of the rules agrees, and so do the rules and their texts: instants are the same, at the
same offsets. Only a fold of the start, which at a fixed offset tells nothing, may be lost. -/
structure Agrees (back r : Rule) : Prop where
  parts : back = { r with start := { r.start with fold := false } }
  moments : back.moments.map (fun t => (t.utc, t.offset)) =
    r.moments.map (fun t => (t.utc, t.offset))
  same : back.same r = true
  text : back.text = r.text

theorem moments_asRead (r : Rule) : r.asRead.moments = r.moments.map Zoned.asRead := by
  simp [moments, asRead, Option.toList_map]

/-- Bounds without a fold are read as they are exactly where their offsets can be written. -/
theorem map_asRead_eq_iff {o : Option Zoned} (legible : ∀ t, o = some t → t.Legible)
    (folds : ∀ t, o = some t → t.fold = false) :
    o.map Zoned.asRead = o ↔ ∀ t, o = some t → t.offset.Legible := by
  cases o with
  | none => simp
  | some t =>
    simp only [Option.map_some, Option.some.injEq, forall_eq'] at legible folds ⊢
    rw [← Offset.asRead_eq_iff]
    constructor
    · intro same
      rw [← t.offset_asRead, same]
    · intro same
      rw [legible.asRead_eq (Offset.asRead_eq_iff.mp same), ← folds]

variable (legible : r.Legible)
  (folds : ∀ t ∈ r.finish.toList ++ r.endsBefore.toList, t.fold = false)

include legible folds

/-- Read at its start, what is written without the start is the rule exactly where the offsets of its
bounds can be written. -/
theorem Legible.asRead_start_eq_iff : ({ r.asRead with start := r.start } : Rule) = r ↔
    ∀ t ∈ r.finish.toList ++ r.endsBefore.toList, t.offset.Legible := by
  have finish := map_asRead_eq_iff legible.finish fun t some => folds t (by simp [some])
  have endsBefore := map_asRead_eq_iff legible.endsBefore fun t some => folds t (by simp [some])
  have parts : ({ r.asRead with start := r.start } : Rule) = r ↔
      r.finish.map Zoned.asRead = r.finish ∧ r.endsBefore.map Zoned.asRead = r.endsBefore := by
    constructor
    · intro same
      exact ⟨congrArg Rule.finish same, congrArg Rule.endsBefore same⟩
    · rintro ⟨finish, endsBefore⟩
      rw [asRead, finish, endsBefore]
  rw [parts, finish, endsBefore, List.forall_mem_append]
  simp only [Option.mem_toList]

theorem Legible.asRead_agrees_iff : r.asRead.Agrees r ↔ ∀ t ∈ r.moments, t.offset.Legible := by
  constructor
  · intro agrees t member
    have moments := agrees.moments
    rw [moments_asRead, List.map_map, List.map_inj_left] at moments
    exact Offset.asRead_eq_iff.mp (congrArg Prod.snd (moments t member))
  · intro long
    obtain ⟨start, bounds⟩ := List.forall_mem_cons.mp long
    have same : r.asRead = r.unfolded := by
      have others := (legible.asRead_start_eq_iff folds).mpr bounds
      rw [unfolded, ← legible.start.asRead_eq start]
      conv_rhs => rw [← others]
      rfl
    rw [same]
    exact ⟨rfl, legible.moments_unfolded, legible.same_unfolded, legible.text_unfolded⟩

end Rule

/-- A rule of every other month with ordinals on its days, negative days of the month, a start at an
offset of its own and a last instant with a fraction of a second. -/
def everyOtherMonth : Rule where
  freq := .monthly
  start := ⟨⟨63434998800000000, by decide⟩, .fixed ⟨19800000000, by decide⟩, false⟩
  interval := 2
  count := none
  finish := some ⟨⟨63460886400250000, by decide⟩, .utc, false⟩
  endsBefore := none
  weekStart := .sunday
  seconds := []
  minutes := [0, 30]
  hours := [9, 17]
  days := [⟨.monday, some (-1)⟩, ⟨.monday, some 2⟩, ⟨.friday, none⟩]
  monthDays := [-31, 13]
  yearDays := []
  weekNumbers := []
  months := [3, 11]
  positions := [-1]
  interval_pos := by decide

theorem everyOtherMonth_legible : everyOtherMonth.Legible where
  interval := Nat.lt_of_lt_of_le (show 2 < 10 ^ 1 by decide)
    (Nat.pow_le_pow_right (by decide) (by decide))
  count n some := by cases some
  oneBound := .inl rfl
  start := ⟨⟨_, rfl⟩, by decide +kernel⟩
  finish t some := by
    cases some
    exact ⟨⟨_, rfl⟩, by decide +kernel⟩
  endsBefore t some := by cases some
  seconds := ⟨by decide, by simp [everyOtherMonth, Part.Admits]⟩
  minutes := ⟨by decide, by simp [everyOtherMonth, Part.Admits]⟩
  hours := ⟨by decide, by simp [everyOtherMonth, Part.Admits]⟩
  days := by simp [everyOtherMonth, Part.Admits, Value.DayBefore, Weekday.number, Weekday.index]
  monthDays := ⟨by decide, by simp [everyOtherMonth, Part.Admits]⟩
  yearDays := ⟨by decide, by simp [everyOtherMonth, Part.Admits]⟩
  weekNumbers := ⟨by decide, by simp [everyOtherMonth, Part.Admits]⟩
  months := ⟨by decide, by simp [everyOtherMonth, Part.Admits]⟩
  positions := ⟨by decide, by simp [everyOtherMonth, Part.Admits]⟩
  noConflict := by decide

/-- A time at an offset of half a second. -/
def halfSecond : Zoned := ⟨⟨63434998800000000, by decide⟩, .fixed ⟨500000, by decide⟩, false⟩

/-- Every day from then on. -/
def dailyFromHalfSecond : Rule where
  freq := .daily
  start := halfSecond
  interval := 1
  count := none
  finish := none
  endsBefore := none
  weekStart := .monday
  seconds := []
  minutes := []
  hours := []
  days := []
  monthDays := []
  yearDays := []
  weekNumbers := []
  months := []
  positions := []
  interval_pos := Nat.one_pos

theorem dailyFromHalfSecond_legible : dailyFromHalfSecond.Legible :=
  have nothing (p : Part) : p.Keeps [] := ⟨.nil, List.forall_mem_nil _⟩
  { interval := Nat.one_lt_pow (by decide) (by decide)
    count := fun n some => by cases some
    oneBound := .inl rfl
    start := ⟨⟨_, rfl⟩, by decide +kernel⟩
    finish := fun t some => by cases some
    endsBefore := fun t some => by cases some
    seconds := nothing _
    minutes := nothing _
    hours := nothing _
    days := ⟨.nil, List.forall_mem_nil _⟩
    monthDays := nothing _
    yearDays := nothing _
    weekNumbers := nothing _
    months := nothing _
    positions := nothing _
    noConflict := rfl }

theorem rule_dailyFromHalfSecond :
    (Spec.text "FREQ=DAILY").rule halfSecond = .ok dailyFromHalfSecond := by
  have text : dailyFromHalfSecond.textWithoutStart = "FREQ=DAILY" := by decide +kernel
  rw [← text]
  exact dailyFromHalfSecond_legible.rule_textWithoutStart (by decide +kernel)

end Almanac
