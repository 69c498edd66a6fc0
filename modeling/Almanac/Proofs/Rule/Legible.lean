import Almanac.Proofs.Rule.Validity
import Almanac.Proofs.Rule.Written

set_option autoImplicit false

/-!
What is read where a rule is written.

Every part is read back from what is written for it: numbers by their digits, lists item by item, which
are in their order already, and instants in either form, as long as their years have four digits. Only
an offset of less than a second is read as none. A part that is left out is one that takes its default.
-/

namespace Almanac

namespace Zoned

/-- The instant has a fixed offset and a year of four digits. -/
structure Legible (t : Zoned) : Prop where
  fixed : ∃ o, t.zone = .fixed o
  year : 1000 ≤ t.wall.year

/-- The instant that is read where `t` is written. -/
def asRead (t : Zoned) : Zoned := ⟨t.wall, .fixed t.offset.asRead, false⟩

@[simp] theorem offset_asRead (t : Zoned) : t.asRead.offset = t.offset.asRead := rfl

theorem Legible.asRead_eq {t : Zoned} (legible : t.Legible) (long : t.offset.Legible) :
    t.asRead = { t with fold := false } := by
  obtain ⟨o, fixed⟩ := legible.fixed
  rw [asRead, Offset.asRead_eq_iff.mpr long, offset_of_fixed fixed, fixed]

end Zoned

namespace Value

variable {α : Type}

theorem items_written {ws : List String} (some : ws ≠ []) (words : ∀ w ∈ ws, Token.IsWord w.toList) :
    items (.text (String.intercalate "," ws)) = ws.map text := by
  rw [items_text ⟨ws, some, words, rfl⟩, Parts.items_joined some words, List.map_map]
  apply List.map_congr_left
  intro w _
  rw [Function.comp_apply, String.ofList_toList]

/-- Items that are read one by one are read together. -/
theorem mapM_written {as : List α} {write : α → String} {read : Value → Except SpecError α}
    (some : as ≠ []) (words : ∀ a ∈ as, Token.IsWord (write a).toList)
    (back : ∀ a ∈ as, read (.text (write a)) = .ok a) :
    (items (.text (String.intercalate "," (as.map write)))).mapM read = .ok as := by
  rw [items_written (by simpa using some) (by simpa using words), List.map_map,
    Except.mapM_eq_ok_iff, List.forall₂_map_left_iff, List.forall₂_same]
  exact back

theorem number_written {p : Part} {n : Int} (admits : p.Admits n) :
    number p (.text (toString n)) = .ok n := by
  rw [number_text]
  refine ⟨Text.integer?_toString ?_, admits⟩
  have small : n.natAbs < 10 ^ 3 := by
    cases p <;> simp only [Part.Admits] at admits <;> omega
  exact Nat.lt_of_lt_of_le small (Nat.pow_le_pow_right (by decide) (by decide))

theorem numbers_written {p : Part} {ns : List Int} (some : ns ≠ []) (sorted : ns.Pairwise (· < ·))
    (admits : ∀ n ∈ ns, p.Admits n) :
    numbers p (.text (String.intercalate "," (ns.map toString))) = .ok ns := by
  rw [numbers, mapM_written some (fun n _ => Token.isWord_toString n)
    fun n member => number_written (admits n member)]
  have kept : ascending (fun a b : Int => a < b) ns = ns := by
    apply ascending_of_pairwise
    · simp
    · intro a b before
      simp at before ⊢
      omega
    · simpa using sorted
  simp [bind, Except.bind, kept, pure, Except.pure]

theorem pattern_written {d : DayPattern} (admits : ∀ n, d.ordinal = some n → Part.day.Admits n) :
    pattern (.text d.text) = .ok d := by
  rw [pattern_text (Rule.isWord_day d).solid]
  refine ⟨?_, admits⟩
  obtain ⟨w, ordinal⟩ := d
  have letters : ∀ c ∈ w.code.toList, isAsciiLetter c = true := by
    have all : w.code.toList.all isAsciiLetter = true := by
      cases w <;> decide +kernel
    exact List.all_eq_true.mp all
  have named : Text.folded (String.ofList w.code.toList) ∈ w.names := by
    cases w <;> decide +kernel
  cases ordinal with
  | none => exact ⟨[], w.code.toList, rfl, .none, letters, named⟩
  | some n =>
    have range : 1 ≤ n.natAbs ∧ n.natAbs ≤ 53 := admits n rfl
    have other : n ≠ 0 := by omega
    have short : (Nat.toDigits 10 n.natAbs).length ≤ 2 :=
      (Nat.length_toDigits_le_iff (by decide) (by decide)).mpr (by omega)
    have some := List.length_pos_iff.mpr (Text.toDigits_ne_nil n.natAbs)
    refine ⟨(toString n).toList, w.code.toList, ?_, ?_, letters, named⟩
    · simp [DayPattern.text, other]
    · have writes := WritesOrdinal.some (Text.sign_of_number n)
        (show (Nat.toDigits 10 n.natAbs).length = 1 ∨ _ = 2 by omega)
        (Reading.numeral_toDigits Reading.readsDigits_text n.natAbs)
      rw [Text.signed_natAbs, ← Text.toList_toString] at writes
      exact writes

theorem patterns_written {ds : List DayPattern} (some : ds ≠ []) (sorted : ds.Pairwise DayBefore)
    (admits : ∀ d ∈ ds, ∀ n, d.ordinal = .some n → Part.day.Admits n) :
    patterns (.text (String.intercalate "," (ds.map DayPattern.text))) = .ok ds := by
  rw [patterns, mapM_written some (fun d _ => Rule.isWord_day d)
    fun d member => pattern_written (admits d member)]
  have kept : ascending patternBefore ds = ds := by
    apply ascending_of_pairwise
    · simp [patternBefore]
    · intro a b before
      rw [patternBefore_iff] at before
      rw [← Bool.not_eq_true, patternBefore_iff]
      simp only [DayBefore, ← number_inj] at *
      omega
    · simpa only [patternBefore_iff] using sorted
  simp [bind, Except.bind, kept, pure, Except.pure]

end Value

namespace Value

theorem intervalOf_written {n : Nat} (pos : 0 < n) (short : n < 10 ^ Text.digitLimit) :
    intervalOf (.text (toString n)) = .ok ⟨n, pos⟩ := by
  rw [intervalOf_text]
  exact Text.integer?_toString (n := (n : Int)) short

theorem countOf_written {n : Nat} (pos : 1 ≤ n) (short : n < 10 ^ Text.digitLimit) :
    countOf (.text (toString n)) = .ok n := by
  rw [countOf_text]
  exact ⟨Text.integer?_toString (n := (n : Int)) short, pos⟩

theorem instant_written {p : Part} {zone : Zone} {t : Zoned} (legible : t.Legible) :
    instant p zone (.text (String.ofList t.writtenInRule)) = .ok t.asRead := by
  obtain ⟨o, fixed⟩ := legible.fixed
  rw [instant_text, String.toList_ofList, Text.trim_solid t.isWord_writtenInRule.solid,
    Zoned.stamp?_writtenInRule fixed fun _ => legible.year, Zoned.asRead, Zoned.offset_of_fixed fixed]
  exact ⟨_, rfl, rfl⟩

end Value

namespace Part

/-- The numbers are ascending and in the range of the part. -/
structure Keeps (p : Part) (ns : List Int) : Prop where
  sorted : ns.Pairwise (· < ·)
  admits : ∀ n ∈ ns, p.Admits n

end Part

namespace Rule

open Parts

/-- The text of the rule can be read: its numbers are not too long, its instants have fixed offsets and
years of four digits, and its lists are in their order and ranges. -/
structure Legible (r : Rule) : Prop where
  interval : r.interval < 10 ^ Text.digitLimit
  count : ∀ n, r.count = some n → 1 ≤ n ∧ n < 10 ^ Text.digitLimit
  oneBound : r.count = none ∨ r.finish = none
  start : r.start.Legible
  finish : ∀ t, r.finish = some t → t.Legible
  endsBefore : ∀ t, r.endsBefore = some t → t.Legible
  seconds : Part.second.Keeps (r.seconds.map (fun n : Nat => (n : Int)))
  minutes : Part.minute.Keeps (r.minutes.map (fun n : Nat => (n : Int)))
  hours : Part.hour.Keeps (r.hours.map (fun n : Nat => (n : Int)))
  days : r.days.Pairwise Value.DayBefore ∧
    ∀ d ∈ r.days, ∀ n, d.ordinal = some n → Part.day.Admits n
  monthDays : Part.monthDay.Keeps r.monthDays
  yearDays : Part.yearDay.Keeps r.yearDays
  weekNumbers : Part.weekNumber.Keeps r.weekNumbers
  months : Part.month.Keeps (r.months.map (fun n : Nat => (n : Int)))
  positions : Part.position.Keeps r.positions
  noConflict : r.conflict? = none

/-- The rule that is read where `r` is written. -/
def asRead (r : Rule) : Rule :=
  { r with
    start := r.start.asRead
    finish := r.finish.map Zoned.asRead
    endsBefore := r.endsBefore.map Zoned.asRead }

section Given

variable {α β : Type} {r : Rule} {withStart : Bool} {p : Part} {f : Value → Except SpecError α}

theorem lookup_given (member : p ∈ order withStart) : (r.given withStart).lookup p =
    if r.written p = [] then none else some (String.intercalate "," (r.written p)) := by
  rw [given, lookup_filterMap_given?]
  by_cases none : r.written p = [] <;> simp [none, member]

theorem read_given_none (member : p ∈ order withStart) (none : r.written p = []) :
    (params (r.given withStart)).read p f = .ok .none := by
  rw [read_params, lookup_given member, if_pos none]

theorem read_given_some (member : p ∈ order withStart) {a : α} (some : r.written p ≠ [])
    (back : f (.text (String.intercalate "," (r.written p))) = .ok a) :
    (params (r.given withStart)).read p f = .ok (.some a) := by
  rw [read_params, lookup_given member, if_neg some]
  simp [back, Except.map]

theorem numbers_given (member : p ∈ order withStart) {ns : List Int} (keeps : p.Keeps ns)
    (written : r.written p = ns.map toString) :
    (params (r.given withStart)).numbers p = .ok ns := by
  rw [Params.numbers]
  by_cases none : ns = []
  · rw [read_given_none member (by simp [written, none])]
    simp [bind, Except.bind, pure, Except.pure, none]
  · rw [read_given_some member (by simpa [written] using none)
      (written ▸ Value.numbers_written none keeps.sorted keeps.admits)]
    rfl

theorem naturals_given (member : p ∈ order withStart) {ns : List Nat}
    (keeps : p.Keeps (ns.map (fun n : Nat => (n : Int)))) (written : r.written p = ns.map toString) :
    (params (r.given withStart)).naturals p = .ok ns := by
  have same : r.written p = (ns.map (fun n : Nat => (n : Int))).map toString := by
    rw [written, List.map_map]
    rfl
  rw [Params.naturals, numbers_given member keeps same]
  simp [bind, Except.bind, pure, Except.pure, Function.comp_def]

theorem days_given (member : .day ∈ order withStart) (sorted : r.days.Pairwise Value.DayBefore)
    (admits : ∀ d ∈ r.days, ∀ n, d.ordinal = some n → Part.day.Admits n) :
    ∃ given, (params (r.given withStart)).read .day Value.patterns = .ok given ∧
      r.days = given.getD [] := by
  by_cases none : r.days = []
  · exact ⟨_, read_given_none member (by simp [written, none]), none⟩
  · exact ⟨_, read_given_some member (by simpa [written] using none)
      (Value.patterns_written none sorted admits), rfl⟩

theorem interval_given (member : .interval ∈ order withStart)
    (short : r.interval < 10 ^ Text.digitLimit) :
    ∃ given, (params (r.given withStart)).read .interval Value.intervalOf = .ok given ∧
      r.interval = (given.getD ⟨1, Nat.one_pos⟩).val := by
  by_cases one : r.interval = 1
  · exact ⟨_, read_given_none member (by simp [written, one]), one⟩
  · have back := Value.intervalOf_written r.interval_pos short
    exact ⟨_, read_given_some member (by simp [written, one]) (by simpa [written, one] using back), rfl⟩

theorem weekStart_given (member : .weekStart ∈ order withStart) :
    ∃ given, (params (r.given withStart)).read .weekStart (Value.weekdayOf .weekStart) = .ok given ∧
      r.weekStart = given.getD .monday := by
  by_cases monday : r.weekStart = .monday
  · exact ⟨_, read_given_none member (by simp [written, monday]), monday⟩
  · have back : Value.weekdayOf .weekStart (.text r.weekStart.code) = .ok r.weekStart := by
      rw [Value.weekdayOf_text]
      cases r.weekStart <;> decide +kernel
    exact ⟨_, read_given_some member (by simp [written, monday]) (by simpa [written, monday] using back),
      rfl⟩

/-- A part that a rule may leave out is read where it is written. -/
theorem option_given (member : p ∈ order withStart) {o : Option β} {write : β → String} {g : β → α}
    (written : r.written p = o.toList.map write)
    (back : ∀ b, o = some b → f (.text (write b)) = .ok (g b)) :
    (params (r.given withStart)).read p f = .ok (o.map g) := by
  cases o with
  | none => exact read_given_none member (by simpa using written)
  | some b =>
    apply read_given_some member (by simp [written])
    simpa [written] using back b rfl

theorem count_given (member : .count ∈ order withStart)
    (short : ∀ n, r.count = some n → 1 ≤ n ∧ n < 10 ^ Text.digitLimit) :
    (params (r.given withStart)).read .count Value.countOf = .ok r.count := by
  rw [option_given member rfl fun n some => Value.countOf_written (short n some).1 (short n some).2]
  simp

theorem bound_given (member : p ∈ order withStart) {zone : Zone} {o : Option Zoned}
    (written : r.written p = o.toList.map (fun t => String.ofList t.writtenInRule))
    (legible : ∀ t, o = some t → t.Legible) :
    (params (r.given withStart)).read p (Value.instant p zone) = .ok (o.map Zoned.asRead) :=
  option_given member written fun t some => Value.instant_written (legible t some)

end Given

section Legible

variable {r : Rule} {withStart : Bool} {now : Stamp}

theorem mem_order {p : Part} (other : p ≠ .start) : p ∈ order withStart := by
  cases p <;> simp_all [order]

/-- What a legible rule writes is read, with the start that is given. -/
theorem Legible.readFrom (legible : r.Legible) {t : Zoned}
    (start : ∃ given, (params (r.given withStart)).read .start (Value.instant .start .utc) =
      .ok given ∧ t = given.getD (defaultStart now)) :
    ({ r.asRead with start := t } : Rule).ReadFrom (params (r.given withStart)) now where
  freq := by
    rw [lookup_params, lookup_given (mem_order (by decide)), if_neg (by simp [written])]
    simp only [written, String.intercalate_singleton, Option.map_some, Option.getD_some,
      Value.frequencyOf_text]
    have coded (f : Frequency) : f.name = Text.folded f.code := by cases f <;> decide +kernel
    exact coded r.freq
  interval := interval_given (mem_order (by decide)) legible.interval
  oneBound := by
    rw [get?_params, get?_params, lookup_given (mem_order (by decide)),
      lookup_given (mem_order (by decide))]
    rcases legible.oneBound with none | none <;> simp [written, none]
  start := start
  count := count_given (mem_order (by decide)) legible.count
  finish := bound_given (mem_order (by decide)) rfl legible.finish
  endsBefore := bound_given (mem_order (by decide)) rfl legible.endsBefore
  weekStart := weekStart_given (mem_order (by decide))
  days := days_given (mem_order (by decide)) legible.days.1 legible.days.2
  seconds := naturals_given (mem_order (by decide)) legible.seconds rfl
  minutes := naturals_given (mem_order (by decide)) legible.minutes rfl
  hours := naturals_given (mem_order (by decide)) legible.hours rfl
  monthDays := numbers_given (mem_order (by decide)) legible.monthDays rfl
  yearDays := numbers_given (mem_order (by decide)) legible.yearDays rfl
  weekNumbers := numbers_given (mem_order (by decide)) legible.weekNumbers rfl
  months := naturals_given (mem_order (by decide)) legible.months rfl
  positions := numbers_given (mem_order (by decide)) legible.positions rfl
  noConflict := legible.noConflict

theorem Legible.rule_text (legible : r.Legible) : (Spec.text r.text).rule now = .ok r.asRead := by
  rw [Spec.rule_text]
  refine ⟨_, r.writes_text true, legible.readFrom ⟨some r.start.asRead, ?_, rfl⟩⟩
  apply read_given_some (by simp [order]) (by simp [written])
  simpa [written, String.intercalate_singleton] using Value.instant_written legible.start

theorem Legible.rule_textWithoutStart (legible : r.Legible) (whole : r.start.wall.microsecond = 0) :
    (Spec.text r.textWithoutStart).rule r.start = .ok { r.asRead with start := r.start } := by
  have none : (r.given false).lookup .start = none := by
    rw [given, lookup_filterMap_given?]
    simp [order]
  rw [Spec.rule_text]
  refine ⟨_, r.writes_text false, legible.readFrom ⟨.none, ?_, ?_⟩⟩
  · rw [read_params, none]
  · simp [defaultStart, Stamp.inZone, WallTime.wholeSecond_of_whole whole]

end Legible

end Rule

end Almanac
