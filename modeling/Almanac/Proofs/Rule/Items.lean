import Almanac.Proofs.Rule.Canonical
import Almanac.Proofs.Rule.Patterns
import Almanac.Proofs.Rule.Values

set_option autoImplicit false

/-!
Reading the lists of a rule text.

A list is read when every item of it is, and what is read holds the value of each item, once and in
ascending order. An item of a list of numbers is a number in the range of its part, and an item of a
list of days is a weekday pattern whose ordinal is in its range.
-/

namespace Almanac

theorem Except.exists_mapM_eq_ok_iff {ε α β : Type} {f : α → Except ε β} {as : List α} :
    (∃ bs, as.mapM f = .ok bs) ↔ ∀ a ∈ as, ∃ b, f a = .ok b := by
  induction as with
  | nil => simp [pure, Except.pure]
  | cons a as ih =>
    simp only [List.mapM_cons, Except.bind_eq_ok, pure, Except.pure, Except.ok.injEq,
      List.forall_mem_cons, ← ih]
    constructor
    · rintro ⟨-, b, first, bs, rest, rfl⟩
      exact ⟨⟨b, first⟩, bs, rest⟩
    · rintro ⟨⟨b, first⟩, bs, rest⟩
      exact ⟨_, b, first, bs, rest, rfl⟩

namespace Part

/-- The numbers that the items of a part may be. -/
def Admits (p : Part) (n : Int) : Prop :=
  match p with
  | .second | .minute => 0 ≤ n ∧ n ≤ 59
  | .hour => 0 ≤ n ∧ n ≤ 23
  | .month => 1 ≤ n ∧ n ≤ 12
  | .monthDay => 1 ≤ n.natAbs ∧ n.natAbs ≤ 31
  | .yearDay | .position => 1 ≤ n.natAbs ∧ n.natAbs ≤ 366
  | .weekNumber | .day => 1 ≤ n.natAbs ∧ n.natAbs ≤ 53
  | _ => False

theorem holds_range_iff {p : Part} {n : Int} : p.range.holds n = true ↔ p.Admits n := by
  cases p <;> simp only [range, NumberRange.holds, Admits, Bool.and_eq_true, decide_eq_true_eq,
    if_true, Bool.false_eq_true, if_false, iff_false] <;> omega

end Part

namespace Value

variable {part : Part} {s : String} {w : List Char}

theorem integer_text {n : Int} : integer part (.text s) = .ok n ↔ Text.integer? s.toList = some n := by
  rw [integer]
  cases Text.integer? s.toList <;> simp

theorem number_text {n : Int} : number part (.text s) = .ok n ↔
    Text.integer? s.toList = some n ∧ part.Admits n := by
  rw [number, Except.bind_eq_ok]
  simp only [integer_text, ← Part.holds_range_iff]
  constructor
  · rintro ⟨m, read, given⟩
    split at given
    · cases given
      exact ⟨read, ‹_›⟩
    · cases given
  · rintro ⟨read, inside⟩
    exact ⟨n, read, if_pos inside⟩

/-- The item writes a weekday pattern with an ordinal in its range. -/
def IsDay (w : List Char) (d : DayPattern) : Prop :=
  WritesPattern d w ∧ ∀ n, d.ordinal = some n → Part.day.Admits n

theorem pattern_text {d : DayPattern} (solid : ∀ c ∈ s.toList, Text.isBlank c = false) :
    pattern (.text s) = .ok d ↔ IsDay s.toList d := by
  obtain ⟨w, ordinal⟩ := d
  rw [pattern, Text.trim_solid solid, IsDay, ← ordinalWeekday?_eq_some_iff]
  cases read : ordinalWeekday? s.toList with
  | none => simp
  | some p =>
    obtain ⟨ordinal', w'⟩ := p
    cases ordinal' with
    | none =>
      constructor
      · rintro ⟨⟩
        exact ⟨rfl, by simp⟩
      · rintro ⟨⟨⟩, -⟩
        rfl
    | some n =>
      dsimp only
      constructor
      · intro given
        split at given
        · rename_i inside
          cases given
          exact ⟨rfl, by simpa [Part.holds_range_iff] using inside⟩
        · cases given
      · rintro ⟨⟨⟩, inside⟩
        exact if_pos (Part.holds_range_iff.mpr (inside n rfl))

/-- A list of values is what the items write, each once and in ascending order. -/
structure Collects {α : Type} (reads : List Char → α → Prop) (before : α → α → Prop)
    (ws : List (List Char)) (as : List α) : Prop where
  sorted : as.Pairwise before
  mem_iff : ∀ a, a ∈ as ↔ ∃ w ∈ ws, reads w a

/-- A list is empty only where there are no items, since every item writes something. -/
theorem Collects.eq_nil_iff {α : Type} {reads : List Char → α → Prop} {before : α → α → Prop}
    {ws : List (List Char)} {as : List α} (collects : Collects reads before ws as)
    (every : ∀ w ∈ ws, ∃ a, reads w a) : as = [] ↔ ws = [] := by
  simp only [List.eq_nil_iff_forall_not_mem, collects.mem_iff]
  constructor
  · intro none w member
    obtain ⟨a, writes⟩ := every w member
    exact none a ⟨w, member, writes⟩
  · rintro none a ⟨w, member, -⟩
    exact none w member

section List

variable {α : Type} {read : Value → Except SpecError α}
  {reads : List Char → α → Prop} {before : α → α → Bool} {v : String}
  (value : Parts.IsValue v)
  (item : ∀ w, Token.IsWord w → ∀ a, read (.text (String.ofList w)) = .ok a ↔ reads w a)
include value item

theorem exists_mapM_items :
    (∃ as, (items (.text v)).mapM read = .ok as) ↔ ∀ w ∈ Parts.items v, ∃ a, reads w a := by
  rw [Except.exists_mapM_eq_ok_iff, items_text value, List.forall_mem_map]
  apply forall₂_congr
  intro w member
  exact exists_congr (item w (value.isWord member))

theorem mem_mapM_items {as : List α} (given : (items (.text v)).mapM read = .ok as) (a : α) :
    a ∈ as ↔ ∃ w ∈ Parts.items v, reads w a := by
  rw [Except.mem_mapM_iff given, items_text value]
  constructor
  · rintro ⟨_, member, found⟩
    obtain ⟨w, among, rfl⟩ := List.mem_map.mp member
    exact ⟨w, among, (item w (value.isWord among) a).mp found⟩
  · rintro ⟨w, among, found⟩
    exact ⟨_, List.mem_map_of_mem among, (item w (value.isWord among) a).mpr found⟩

end List

variable {v : String}

/-- The item is a number in the range of the part. -/
def IsNumber (part : Part) (w : List Char) (n : Int) : Prop :=
  Text.integer? w = some n ∧ part.Admits n

theorem number_item (w : List Char) (_ : Token.IsWord w) (n : Int) :
    number part (.text (String.ofList w)) = .ok n ↔ IsNumber part w n := by
  rw [number_text, String.toList_ofList, IsNumber]

theorem pattern_item (w : List Char) (word : Token.IsWord w) (d : DayPattern) :
    pattern (.text (String.ofList w)) = .ok d ↔ IsDay w d := by
  rw [pattern_text (by simpa using word.solid), String.toList_ofList]

theorem exists_numbers_text (value : Parts.IsValue v) :
    (∃ ns, numbers part (.text v) = .ok ns) ↔
      ∀ w ∈ Parts.items v, ∃ n, IsNumber part w n := by
  rw [← exists_mapM_items value number_item]
  simp [numbers, Except.bind_eq_ok, pure, Except.pure]

theorem numbers_text (value : Parts.IsValue v) {ns : List Int}
    (given : numbers part (.text v) = .ok ns) :
    Collects (IsNumber part) (· < ·) (Parts.items v) ns where
  sorted := (numbers_spec given).1
  mem_iff n := by
    simp only [numbers, Except.bind_eq_ok, pure, Except.pure, Except.ok.injEq] at given
    obtain ⟨read, given, rfl⟩ := given
    rw [mem_ascending, mem_mapM_items value number_item given]

/-- By weekday and then by ordinal, of which none comes between the negative and the positive. -/
def DayBefore (a b : DayPattern) : Prop :=
  a.weekday.number < b.weekday.number ∨
    a.weekday = b.weekday ∧ a.ordinal.getD 0 < b.ordinal.getD 0

theorem number_inj {a b : Weekday} : a.number = b.number ↔ a = b := by
  cases a <;> cases b <;> decide

theorem patternBefore_iff {a b : DayPattern} : patternBefore a b = true ↔ DayBefore a b := by
  simp [patternBefore, DayBefore, number_inj]

theorem DayBefore.trans {a b c : DayPattern} (first : DayBefore a b) (second : DayBefore b c) :
    DayBefore a c := by
  simp only [DayBefore, ← number_inj] at *
  omega

/-- Any two patterns come one after the other, since no ordinal is zero. -/
theorem DayBefore.connected {a b : DayPattern} (ha : ∀ n, a.ordinal = some n → Part.day.Admits n)
    (hb : ∀ n, b.ordinal = some n → Part.day.Admits n) :
    DayBefore a b ∨ a = b ∨ DayBefore b a := by
  obtain ⟨w, m⟩ := a
  obtain ⟨w', n⟩ := b
  simp only [DayBefore, ← number_inj, DayPattern.mk.injEq, Part.Admits] at *
  cases m <;> cases n <;> simp_all <;> omega

theorem exists_patterns_text (value : Parts.IsValue v) :
    (∃ ds, patterns (.text v) = .ok ds) ↔ ∀ w ∈ Parts.items v, ∃ d, IsDay w d := by
  rw [← exists_mapM_items value pattern_item]
  simp [patterns, Except.bind_eq_ok, pure, Except.pure]

theorem patterns_text (value : Parts.IsValue v) {ds : List DayPattern}
    (given : patterns (.text v) = .ok ds) : Collects IsDay DayBefore (Parts.items v) ds := by
  simp only [patterns, Except.bind_eq_ok, pure, Except.pure, Except.ok.injEq] at given
  obtain ⟨read, given, rfl⟩ := given
  have among := mem_mapM_items value pattern_item given
  constructor
  · have sorted : (ascending patternBefore read).Pairwise (patternBefore · · = true) := by
      apply ascending_pairwise
      · simpa only [patternBefore_iff] using fun a b c => DayBefore.trans
      · intro a ha b hb
        obtain ⟨w, -, -, inside⟩ := (among a).mp ha
        obtain ⟨w', -, -, inside'⟩ := (among b).mp hb
        simpa only [patternBefore_iff] using DayBefore.connected inside inside'
    exact sorted.imp patternBefore_iff.mp
  · intro d
    rw [mem_ascending, among]

end Value

end Almanac
