import Almanac.Proofs.Text.Lowercase
import Almanac.Proofs.Time.BasicForm
import Almanac.Rule.Given
import Mathlib.Data.List.TakeWhile

set_option autoImplicit false

/-!
Weekday patterns in text: an ordinal or none, and a name of a weekday.

An ordinal is a sign or none and one or two digits, and a name has letters of ASCII only. So the
ordinal of a pattern ends where its name starts, and reading takes both apart there.
-/

namespace Almanac

theorem Weekday.ofText?_eq_some_iff {s : String} {w : Weekday} :
    Weekday.ofText? s = some w ↔ Text.folded s ∈ w.names := by
  unfold Weekday.ofText? Weekday.ofName?
  constructor
  · intro found
    simpa using List.find?_some found
  · intro named
    cases w <;> simp only [Weekday.names, List.mem_cons, List.not_mem_nil, or_false] at named <;>
      rcases named with same | same | same <;> rw [same] <;> rfl

namespace Text

/-- A sign or none, and whether it is a minus sign. -/
inductive Sign : Bool → List Char → Prop where
  | none : Sign false []
  | plus : Sign false ['+']
  | minus : Sign true ['-']

theorem splitSign_sound {s body : List Char} {negative : Bool}
    (split : splitSign s = (negative, body)) : ∃ sign, Sign negative sign ∧ s = sign ++ body := by
  unfold splitSign at split
  split at split
  · cases split
    exact ⟨_, .plus, rfl⟩
  · cases split
    exact ⟨_, .minus, rfl⟩
  · cases split
    exact ⟨_, .none, rfl⟩

theorem splitSign_complete {sign body : List Char} {negative : Bool} (signed : Sign negative sign)
    (bare : ∀ c ∈ body.head?, c ≠ '+' ∧ c ≠ '-') :
    splitSign (sign ++ body) = (negative, body) := by
  cases signed with
  | plus | minus => rfl
  | none =>
    rw [List.nil_append]
    unfold splitSign
    split
    · exact absurd rfl (bare '+' rfl).1
    · exact absurd rfl (bare '-' rfl).2
    · rfl

theorem not_sign_of_isDigit {c : Char} (digit : isDigit c = true) : c ≠ '+' ∧ c ≠ '-' := by
  constructor
  · rintro rfl
    revert digit
    decide
  · rintro rfl
    revert digit
    decide

end Text

namespace Value

theorem asciiLetter {c : Char} (letter : isAsciiLetter c = true) :
    Text.isDigit c = false ∧ c ≠ '+' ∧ c ≠ '-' := by
  have ascii : c.toNat < 128 := by
    simp only [isAsciiLetter, Bool.or_eq_true, Bool.and_eq_true, decide_eq_true_eq, Char.le_def,
      UInt32.le_iff_toNat_le] at letter
    have : c.toNat ≤ 122 := by
      rcases letter with ⟨-, below⟩ | ⟨-, below⟩
      · exact below
      · exact Nat.le_trans below (by decide)
    omega
  revert letter
  apply Text.forall_ascii
    (P := fun c => isAsciiLetter c = true → Text.isDigit c = false ∧ c ≠ '+' ∧ c ≠ '-') _ ascii
  decide +kernel

/-- The text writes an ordinal, or nothing at all where there is none. -/
inductive WritesOrdinal : Option Int → List Char → Prop where
  | none : WritesOrdinal none []
  | some {negative : Bool} {sign digits : List Char} {k n : Nat} (signed : Text.Sign negative sign)
      (short : k = 1 ∨ k = 2) (number : Reading.Numeral Text.digit? k n digits) :
      WritesOrdinal (some (Text.signed negative n)) (sign ++ digits)

/-- The text writes a weekday pattern: its ordinal, and a name of its weekday. -/
def WritesPattern (d : DayPattern) (s : List Char) : Prop :=
  ∃ ordinal name, s = ordinal ++ name ∧ WritesOrdinal d.ordinal ordinal ∧
    (∀ c ∈ name, isAsciiLetter c = true) ∧ Text.folded (String.ofList name) ∈ d.weekday.names

theorem leadingOrdinal_sound {s name : List Char} {ordinal : Option Int}
    (read : leadingOrdinal s = (ordinal, name)) :
    ∃ t, s = t ++ name ∧ WritesOrdinal ordinal t := by
  unfold leadingOrdinal at read
  generalize hsign : Text.splitSign s = p at read
  obtain ⟨negative, body⟩ := p
  obtain ⟨sign, signed, rfl⟩ := Text.splitSign_sound hsign
  dsimp only at read
  split at read
  · cases read
    exact ⟨[], rfl, .none⟩
  · rename_i some
    cases read
    generalize hdigits : (body.take 2).takeWhile Text.isDigit = digits at some ⊢
    have before : digits <+: body :=
      hdigits ▸ (List.takeWhile_prefix _).trans (List.take_prefix 2 body)
    have short : digits.length ≤ 2 := by
      have := (List.takeWhile_prefix (p := Text.isDigit) (l := body.take 2)).length_le
      rw [hdigits, List.length_take] at this
      omega
    have pos : digits.length ≠ 0 := by simpa using some
    have all : ∀ c ∈ digits, Text.isDigit c = true := fun c member =>
      List.mem_takeWhile_imp (hdigits ▸ member)
    refine ⟨sign ++ digits, ?_, .some signed (k := digits.length) (by omega)
      (Reading.numeral_iff.mpr ⟨rfl, all, rfl⟩)⟩
    rw [List.append_assoc, List.prefix_iff_eq_append.mp before]

theorem leadingOrdinal_complete {ordinal : Option Int} {t name : List Char}
    (writes : WritesOrdinal ordinal t) (letters : ∀ c ∈ name, isAsciiLetter c = true) :
    leadingOrdinal (t ++ name) = (ordinal, name) := by
  have plain : ∀ c ∈ name.head?, isAsciiLetter c = true := fun c head =>
    letters c (List.mem_of_mem_head? head)
  have stops : ∀ n, (name.take n).takeWhile Text.isDigit = [] := by
    intro n
    cases name with
    | nil => simp
    | cons c name =>
      cases n with
      | zero => rfl
      | succ n => simp [asciiLetter (plain c rfl)]
  cases writes with
  | none =>
    have split : Text.splitSign name = (false, name) :=
      Text.splitSign_complete .none fun c head => (asciiLetter (plain c head)).2
    simp [leadingOrdinal, split, stops]
  | @some negative sign digits k n signed short number =>
    obtain ⟨length, digit, value⟩ := Reading.numeral_iff.mp number
    have all : ∀ c ∈ digits, Text.isDigit c = true := digit
    have split : Text.splitSign (sign ++ (digits ++ name)) = (negative, digits ++ name) := by
      apply Text.splitSign_complete signed
      intro c head
      cases digits with
      | nil => exact (asciiLetter (plain c head)).2
      | cons d digits =>
        cases head
        exact Text.not_sign_of_isDigit (all c List.mem_cons_self)
    have taken : ((digits ++ name).take 2).takeWhile Text.isDigit = digits := by
      rw [List.take_append, List.take_of_length_le (by omega), List.takeWhile_append_of_pos all,
        stops, List.append_nil]
    have some : digits.isEmpty = false := by
      cases digits with
      | nil => simp at length; omega
      | cons => rfl
    simp [leadingOrdinal, split, taken, some, value]

theorem ordinalWeekday?_eq_some_iff {s : List Char} {ordinal : Option Int} {w : Weekday} :
    ordinalWeekday? s = some (ordinal, w) ↔ WritesPattern ⟨w, ordinal⟩ s := by
  constructor
  · intro read
    unfold ordinalWeekday? at read
    generalize leading : leadingOrdinal s = p at read
    obtain ⟨o, name⟩ := p
    obtain ⟨t, rfl, writes⟩ := leadingOrdinal_sound leading
    dsimp only at read
    split at read
    · rename_i letters
      obtain ⟨w', named, same⟩ := Option.bind_eq_some_iff.mp read
      cases same
      exact ⟨t, name, rfl, writes, by simpa using letters, Weekday.ofText?_eq_some_iff.mp named⟩
    · cases read
  · rintro ⟨t, name, rfl, writes, letters, named⟩
    have all : name.all isAsciiLetter = true := by simpa using letters
    simp [ordinalWeekday?, leadingOrdinal_complete writes letters, all,
      Weekday.ofText?_eq_some_iff.mpr named]

end Value

end Almanac
