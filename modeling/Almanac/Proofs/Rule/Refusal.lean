import Almanac.Proofs.Text.Numerals

set_option autoImplicit false

/-!
What reading values can find wrong.

Whatever is read from the values given for parts, the fault is one of a value, of an item of a value or
of parts together. So it is never one of the form of a text; and where all values are texts themselves
it can be told, as no number that is read from a text is too long to be written.
-/

namespace Almanac

/-- If this fails, then with an error of which `P` holds. -/
def FailsWith {α : Type} (P : SpecError → Prop) (x : Except SpecError α) : Prop :=
  ∀ e, x = .error e → P e

namespace FailsWith

variable {α β : Type} {P Q : SpecError → Prop} {x : Except SpecError α} {f : α → Except SpecError β}

theorem ok (a : α) : FailsWith P (.ok a) := nofun

theorem error {e : SpecError} (wrong : P e) : FailsWith P (.error e : Except SpecError α) := by
  rintro _ ⟨⟩
  exact wrong

theorem mono (fails : FailsWith P x) (implies : ∀ e, P e → Q e) : FailsWith Q x :=
  fun e failed => implies e (fails e failed)

theorem bind (first : FailsWith P x) (rest : ∀ a, x = .ok a → FailsWith P (f a)) :
    FailsWith P (x >>= f) := by
  cases x with
  | error e =>
    rintro _ ⟨⟩
    exact first e rfl
  | ok a => exact rest a rfl

theorem mapM {as : List α} (each : ∀ a ∈ as, FailsWith P (f a)) : FailsWith P (as.mapM f) := by
  induction as with
  | nil => exact ok _
  | cons a as ih =>
    obtain ⟨first, rest⟩ := List.forall_mem_cons.mp each
    rw [List.mapM_cons]
    exact first.bind fun b _ => (ih rest).bind fun bs _ => ok _

end FailsWith

namespace Value

/-- What is read of a value is the value itself, or one of its items. -/
def Holds (v item : Value) : Prop := item = v ∨ item ∈ v.items

/-- What reading a value can find wrong with it. -/
inductive Wrong (v : Value) : SpecError → Prop where
  | frequency : Wrong v (.unknownFrequency v)
  | interval : Wrong v (.invalidInterval v)
  | integer (part : Part) {item : Value} (own : v.Holds item) : Wrong v (.notInteger part item)
  | positive {n : Int} (read : v.integer .count = .ok n) : Wrong v (.notPositive n)
  | range {part : Part} {item : Value} {n : Int} (own : v.Holds item)
      (read : item.integer part = .ok n) : Wrong v (.notInRange part n)
  | ordinal {s : List Char} {n : Int} {w : Weekday}
      (read : ordinalWeekday? s = some (some n, w)) : Wrong v (.ordinalNotInRange n)
  | weekday (part : Part) {item : Value} (own : v.Holds item) : Wrong v (.unknownWeekday part item)
  | instant (part : Part) : Wrong v (.malformedInstant part v)
  | instantText (part : Part) (s : String) : Wrong v (.malformedInstant part (.text s))

variable {v item : Value}

open FailsWith

theorem integer_fails (part : Part) (v : Value) :
    FailsWith (· = .notInteger part v) (v.integer part) := by
  unfold integer
  split
  · exact ok _
  · split
    · exact ok _
    · exact error rfl
  · exact error rfl

theorem number_fails (part : Part) (own : v.Holds item) : FailsWith v.Wrong (item.number part) := by
  refine ((integer_fails part item).mono ?_).bind fun n read => ?_
  · rintro _ rfl
    exact .integer part own
  · split
    · exact ok _
    · exact error (.range own read)

theorem numbers_fails (part : Part) (v : Value) : FailsWith v.Wrong (v.numbers part) :=
  (mapM fun _ member => number_fails part (.inr member)).bind fun _ _ => ok _

theorem weekdayOf_fails (part : Part) (v : Value) : FailsWith v.Wrong (v.weekdayOf part) := by
  unfold weekdayOf
  split
  · exact ok _
  · split
    · exact ok _
    · exact error (.weekday part (.inl rfl))
  · exact error (.weekday part (.inl rfl))

theorem pattern_fails (own : v.Holds item) : FailsWith v.Wrong item.pattern := by
  unfold pattern
  split
  · exact ok _
  · exact ok _
  · split
    · rename_i read
      split
      · split
        · exact ok _
        · exact error (.ordinal read)
      · exact ok _
    · exact error (.weekday .day own)
  · exact error (.weekday .day own)

theorem patterns_fails (v : Value) : FailsWith v.Wrong v.patterns :=
  (mapM fun _ member => pattern_fails (.inr member)).bind fun _ _ => ok _

theorem instant_fails (part : Part) (zone : Zone) (v : Value) :
    FailsWith v.Wrong (v.instant part zone) := by
  unfold instant
  split
  · exact ok _
  · exact ok _
  · dsimp only
    split
    · exact ok _
    · exact error (.instantText part _)
  · exact error (.instant part)

theorem frequencyOf_fails (v : Value) : FailsWith (· = .unknownFrequency v) v.frequencyOf := by
  unfold frequencyOf
  split
  · exact ok _
  · split
    · exact ok _
    · exact error rfl
  · exact error rfl

theorem intervalOf_fails (v : Value) : FailsWith v.Wrong v.intervalOf := by
  unfold intervalOf
  split
  · split
    · exact ok _
    · exact error .interval
  · exact error .interval

theorem countOf_fails (v : Value) : FailsWith v.Wrong v.countOf := by
  refine ((integer_fails .count v).mono ?_).bind fun n read => ?_
  · rintro _ rfl
    exact .integer .count (.inl rfl)
  · split
    · exact ok _
    · exact error (.positive read)

end Value

namespace Params

/-- What building a rule from values of parts can find wrong with them. -/
inductive Wrong (ps : Params) : SpecError → Prop where
  | noFrequency : Wrong ps (.unknownFrequency .nothing)
  | value {part : Part} {v : Value} {e : SpecError} (given : ps.lookup part = some v)
      (wrong : v.Wrong e) : Wrong ps e
  | bounds : Wrong ps .countAndFinish
  | conflict (c : Conflict) : Wrong ps (.conflict c)

variable {α : Type} (ps : Params) (part : Part)

open FailsWith

theorem frequency_fails :
    FailsWith ps.Wrong ((ps.lookup .freq).getD .nothing).frequencyOf := by
  refine (Value.frequencyOf_fails _).mono ?_
  rintro _ rfl
  cases given : ps.lookup .freq with
  | none => exact .noFrequency
  | some v => exact .value given .frequency

theorem read_fails {f : Value → Except SpecError α} (each : ∀ v, FailsWith v.Wrong (f v)) :
    FailsWith ps.Wrong (ps.read part f) := by
  unfold read
  split
  · rename_i v given
    have given := (Option.filter_eq_some_iff.mp given).1
    intro e failed
    apply Wrong.value given
    apply each v e
    revert failed
    cases f v <;> simp [Except.map]
  · exact ok _

theorem numbers_fails : FailsWith ps.Wrong (ps.numbers part) :=
  (ps.read_fails part (Value.numbers_fails part)).bind fun _ _ => ok _

theorem naturals_fails : FailsWith ps.Wrong (ps.naturals part) :=
  (ps.numbers_fails part).bind fun _ _ => ok _

end Params

open Params FailsWith in
/-- All that building a rule can find wrong. -/
theorem Rule.ofParams_fails (ps : Params) (now : Stamp) : FailsWith ps.Wrong (ofParams ps now) := by
  unfold ofParams
  refine ps.frequency_fails.bind fun freq _ =>
    (ps.read_fails _ Value.intervalOf_fails).bind fun interval _ => ?_
  dsimp only
  split
  · exact error .bounds
  · refine (ps.read_fails _ (Value.instant_fails _ _)).bind fun start _ =>
      (ps.read_fails _ Value.countOf_fails).bind fun count _ =>
      (ps.read_fails _ (Value.instant_fails _ _)).bind fun finish _ =>
      (ps.read_fails _ (Value.instant_fails _ _)).bind fun endsBefore _ =>
      (ps.read_fails _ (Value.weekdayOf_fails _)).bind fun weekStart _ =>
      (ps.read_fails _ Value.patterns_fails).bind fun days _ =>
      (ps.naturals_fails _).bind fun seconds _ => (ps.naturals_fails _).bind fun minutes _ =>
      (ps.naturals_fails _).bind fun hours _ => (ps.numbers_fails _).bind fun monthDays _ =>
      (ps.numbers_fails _).bind fun yearDays _ => (ps.numbers_fails _).bind fun weekNumbers _ =>
      (ps.naturals_fails _).bind fun months _ => (ps.numbers_fails _).bind fun positions _ => ?_
    split
    · exact error (.conflict _)
    · exact ok _

variable {ps : Params} {e : SpecError}

/-- No rule is refused for its form once its parts are known. -/
theorem Params.Wrong.kind_ne_form (wrong : ps.Wrong e) : e.kind ≠ .form := by
  cases wrong with
  | noFrequency | bounds | conflict => nofun
  | value given wrong => cases wrong <;> nofun

/-! Values that are texts. -/

namespace Text

theorem isWritable_iff {n : Int} : isWritable n = true ↔ n.natAbs < 10 ^ digitLimit := by
  rw [isWritable, decide_eq_true_eq]
  exact Nat.length_toDigits_le_iff (by decide) (by decide)

/-- A number that is read can be written. -/
theorem isWritable_of_integer? {s : List Char} {n : Int} (read : integer? s = some n) :
    isWritable n = true :=
  isWritable_iff.mpr (integer?_lt read)

end Text

namespace Value

theorem Holds.text {s : String} {item : Value} (own : (Value.text s).Holds item) :
    ∃ t, item = .text t := by
  rcases own with rfl | member
  · exact ⟨s, rfl⟩
  · obtain ⟨t, -, rfl⟩ := List.mem_map.mp member
    exact ⟨_, rfl⟩

theorem isWritable_of_integer {part : Part} {s : String} {n : Int}
    (read : integer part (.text s) = .ok n) : Text.isWritable n = true := by
  unfold integer at read
  dsimp only at read
  split at read
  · rename_i given
    cases read
    exact Text.isWritable_of_integer? given
  · cases read

/-- An ordinal has two digits at most. -/
theorem isWritable_of_ordinal {s : List Char} {n : Int} {w : Weekday}
    (read : ordinalWeekday? s = some (some n, w)) : Text.isWritable n = true := by
  unfold ordinalWeekday? at read
  generalize leading : leadingOrdinal s = p at read
  obtain ⟨ordinal, name⟩ := p
  dsimp only at read
  split at read
  · obtain ⟨w', -, same⟩ := Option.bind_eq_some_iff.mp read
    cases same
    obtain ⟨t, -, writes⟩ := leadingOrdinal_sound leading
    cases writes with
    | @some negative sign written k n signed short number =>
      obtain ⟨ds, digits, length, rfl⟩ := number
      have value : (Text.signed negative (Text.ofDigits ds)).natAbs = Text.ofDigits ds := by
        unfold Text.signed
        split <;> simp
      rw [Text.isWritable_iff, value]
      calc Text.ofDigits ds
          < (0 + 1) * 10 ^ ds.length := Text.foldl_digits_lt (Text.digits_lt digits) 0
        _ ≤ 10 ^ Text.digitLimit := by
          rw [Nat.zero_add, Nat.one_mul]
          exact Nat.pow_le_pow_right (by decide) (by rw [length]; unfold Text.digitLimit; omega)
  · cases read

theorem Wrong.hasText {s : String} (wrong : (text s).Wrong e) : e.hasText = true := by
  cases wrong with
  | frequency | interval | instant | instantText => rfl
  | integer part own | weekday part own =>
    obtain ⟨t, rfl⟩ := own.text
    rfl
  | positive read => exact isWritable_of_integer read
  | range own read =>
    obtain ⟨t, rfl⟩ := own.text
    exact isWritable_of_integer read
  | ordinal read => exact isWritable_of_ordinal read

end Value

/-- Where all values are texts an error can be told. -/
theorem Params.Wrong.hasText (wrong : ps.Wrong e)
    (texts : ∀ part v, ps.lookup part = some v → ∃ s, v = .text s) : e.hasText = true := by
  cases wrong with
  | noFrequency | bounds | conflict => rfl
  | value given wrong =>
    obtain ⟨s, rfl⟩ := texts _ _ given
    exact wrong.hasText

end Almanac
