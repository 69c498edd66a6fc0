import Almanac.Proofs.Rule.Patterns
import Almanac.Proofs.Rule.Values
import Almanac.Time.Written

set_option autoImplicit false

/-!
Written numbers are read back.

Both ways to write a number, with a given number of places or with as many as it needs, put its last
digit behind what is written of the rest. So what they write are numerals of the number, and readers
of numerals find it there. A whole number is read back as long as its digits are not too many, which
they never are for a number that was read.
-/

namespace Almanac

namespace Reading

variable {digit? : Char → Option Nat}

/-- The characters that numbers are written with are read as their digits. -/
def ReadsDigits (digit? : Char → Option Nat) : Prop := ∀ d < 10, digit? (Nat.digitChar d) = some d

theorem readsDigits_text : ReadsDigits Text.digit? := by
  unfold ReadsDigits
  decide

theorem readsDigits_ascii : ReadsDigits Text.asciiDigit? := by
  unfold ReadsDigits
  decide

theorem Numeral.snoc {k n d : Nat} {s : List Char} {c : Char} (numeral : Numeral digit? k n s)
    (digit : digit? c = some d) : Numeral digit? (k + 1) (10 * n + d) (s ++ [c]) := by
  obtain ⟨ds, digits, rfl, rfl⟩ := numeral
  exact ⟨ds ++ [d], List.rel_append digits (.cons digit .nil), by simp, by simp [Text.ofDigits]⟩

variable (reads : ReadsDigits digit?)
include reads

theorem numeral_decimals {k n : Nat} (fits : n < 10 ^ k) : Numeral digit? k n (decimals k n) := by
  induction k generalizing n with
  | zero =>
    obtain rfl : n = 0 := by simpa using fits
    exact ⟨[], .nil, rfl, rfl⟩
  | succ k ih =>
    have rest : n / 10 < 10 ^ k := by omega
    have last := (ih rest).snoc (reads (n % 10) (Nat.mod_lt _ (by decide)))
    rw [Nat.div_add_mod] at last
    exact last

theorem numeral_toDigits (n : Nat) :
    Numeral digit? (Nat.toDigits 10 n).length n (Nat.toDigits 10 n) := by
  induction n using Nat.strongRecOn with
  | ind n ih =>
    rw [Nat.toDigits_eq_if (by decide)]
    split
    · rename_i small
      exact ⟨[n], .cons (reads n small) .nil, rfl, by simp [Text.ofDigits]⟩
    · rename_i large
      have last := (ih (n / 10) (by omega)).snoc (reads (n % 10) (Nat.mod_lt _ (by decide)))
      rw [Nat.div_add_mod] at last
      simpa using last

end Reading

namespace Text

theorem digit?_lt {c : Char} {d : Nat} (digit : digit? c = some d) : d < 10 := by
  obtain ⟨z, found, rfl⟩ := Option.map_eq_some_iff.mp digit
  have covers := List.find?_some found
  simp only [decide_eq_true_eq] at covers
  omega

theorem digits_lt {s : List Char} {ds : List Nat}
    (digits : List.Forall₂ (fun c d => digit? c = some d) s ds) : ∀ d ∈ ds, d < 10 := by
  induction digits with
  | nil => exact List.forall_mem_nil _
  | cons first rest ih => exact List.forall_mem_cons.mpr ⟨digit?_lt first, ih⟩

theorem digitRun?_of_digits {s : List Char} {ds : List Nat}
    (digits : List.Forall₂ (fun c d => digit? c = some d) s ds) (some : s ≠ []) :
    digitRun? s = .some ds := by
  induction digits with
  | nil => exact absurd rfl some
  | @cons c d s ds first rest ih =>
    cases rest with
    | nil => simp [digitRun?, first]
    | @cons c' d' s ds second rest =>
      have mark : c' ≠ '_' := by
        rintro rfl
        revert second
        have none : digit? '_' = .none := by decide
        simp [none]
      rw [digitRun?.eq_4 c (c' :: s) (by simp) (by simp [mark]), first, ih (List.cons_ne_nil _ _)]
      rfl

theorem digitRun?_lt {s : List Char} {ds : List Nat} (read : digitRun? s = some ds) :
    ∀ d ∈ ds, d < 10 := by
  fun_induction digitRun? s generalizing ds with
  | case1 => cases read
  | case2 c =>
    obtain ⟨d, digit, rfl⟩ := Option.map_eq_some_iff.mp read
    simpa using digit?_lt digit
  | case3 c rest ih | case4 c rest _ _ ih =>
    obtain ⟨d, digit, read⟩ := Option.bind_eq_some_iff.mp read
    obtain ⟨ds, rest, same⟩ := Option.bind_eq_some_iff.mp read
    cases same
    exact List.forall_mem_cons.mpr ⟨digit?_lt digit, ih rest⟩

theorem foldl_digits_lt {ds : List Nat} (digits : ∀ d ∈ ds, d < 10) (n : Nat) :
    ds.foldl (fun n d => 10 * n + d) n < (n + 1) * 10 ^ ds.length := by
  induction ds generalizing n with
  | nil => simp
  | cons d ds ih =>
    obtain ⟨first, rest⟩ := List.forall_mem_cons.mp digits
    calc (d :: ds).foldl (fun n d => 10 * n + d) n
        < (10 * n + d + 1) * 10 ^ ds.length := ih rest _
      _ ≤ ((n + 1) * 10) * 10 ^ ds.length := Nat.mul_le_mul_right _ (by omega)
      _ = (n + 1) * 10 ^ (d :: ds).length := by rw [List.length_cons, Nat.pow_succ', Nat.mul_assoc]

/-- No number that is read has too many digits to be written. -/
theorem integer?_lt {s : List Char} {n : Int} (read : integer? s = some n) :
    n.natAbs < 10 ^ digitLimit := by
  obtain ⟨ds, digits, read⟩ := Option.bind_eq_some_iff.mp read
  split at read
  · rename_i short
    cases read
    have value : (signed (splitSign (trim s)).1 (ofDigits ds)).natAbs = ofDigits ds := by
      unfold signed
      split <;> simp
    calc (signed (splitSign (trim s)).1 (ofDigits ds)).natAbs
        = ofDigits ds := value
      _ < (0 + 1) * 10 ^ ds.length := foldl_digits_lt (digitRun?_lt digits) 0
      _ ≤ 10 ^ digitLimit := by
        rw [Nat.zero_add, Nat.one_mul]
        exact Nat.pow_le_pow_right (by decide) short
  · cases read

/-- The characters of a whole number: a minus sign below zero, and the digits of its magnitude. -/
theorem toList_toString (n : Int) :
    (toString n).toList = (if n < 0 then ['-'] else []) ++ Nat.toDigits 10 n.natAbs := by
  cases n with
  | ofNat n => simp [toString, Int.repr]
  | negSucc n => simp [toString, Int.repr, Int.negSucc_lt_zero]

theorem isDigit_of_mem_toDigits {n : Nat} {c : Char} (member : c ∈ Nat.toDigits 10 n) :
    isDigit c = true := by
  obtain ⟨-, digits, -⟩ := Reading.numeral_iff.mp
    (Reading.numeral_toDigits Reading.readsDigits_text n)
  exact digits c member

theorem toDigits_ne_nil (n : Nat) : Nat.toDigits 10 n ≠ [] := by
  rw [Nat.toDigits_eq_if (by decide)]
  split <;> simp

end Text

namespace Token

/-- Digits of ASCII are word characters. -/
theorem isWordChar_of_isDigit {c : Char} (digit : c.isDigit = true) : isWordChar c = true := by
  have ascii : c.toNat < 128 :=
    Nat.lt_of_le_of_lt (Char.isDigit_iff_toNat.mp digit).2 (by decide)
  revert digit
  apply Text.forall_ascii (P := fun c => c.isDigit = true → isWordChar c = true) _ ascii
  decide +kernel

theorem isWord_toDigits (n : Nat) : IsWord (Nat.toDigits 10 n) where
  nonempty := Text.toDigits_ne_nil n
  run _ member := isWordChar_of_isDigit (Nat.isDigit_of_mem_toDigits (by decide) (by decide) member)

theorem IsWord.append {s t : List Char} (before : ∀ c ∈ s, isWordChar c = true) (word : IsWord t) :
    IsWord (s ++ t) where
  nonempty := by simp [word.nonempty]
  run := List.forall_mem_append.mpr ⟨before, word.run⟩

theorem isWord_toString (n : Int) : IsWord (toString n).toList := by
  rw [Text.toList_toString]
  apply IsWord.append _ (isWord_toDigits _)
  split
  · simpa using show isWordChar '-' = true by decide
  · simp

end Token

namespace Text

/-- The sign of a number is a minus sign below zero, and none otherwise. -/
theorem sign_of_number (n : Int) : Sign (decide (n < 0)) (if n < 0 then ['-'] else []) := by
  by_cases negative : n < 0
  · simpa [negative] using Sign.minus
  · simpa [negative] using Sign.none

theorem signed_natAbs (n : Int) : signed (decide (n < 0)) n.natAbs = n := by
  simp only [signed, decide_eq_true_eq]
  split <;> omega

/-- A whole number that is written is read back. -/
theorem integer?_toString {n : Int} (fits : n.natAbs < 10 ^ digitLimit) :
    integer? (toString n).toList = some n := by
  have whole : Reading.Numeral digit? _ n.natAbs (Nat.toDigits 10 n.natAbs) :=
    Reading.numeral_toDigits Reading.readsDigits_text n.natAbs
  obtain ⟨ds, digits, length, value⟩ := whole
  have short : ds.length ≤ digitLimit := by
    rw [length]
    exact (Nat.length_toDigits_le_iff (by decide) (by decide)).mpr fits
  have bare : ∀ c ∈ (Nat.toDigits 10 n.natAbs).head?, c ≠ '+' ∧ c ≠ '-' := fun c head =>
    not_sign_of_isDigit (isDigit_of_mem_toDigits (List.mem_of_mem_head? head))
  rw [integer?, trim_solid (Token.isWord_toString n).solid, toList_toString,
    splitSign_complete (sign_of_number n) bare]
  simp only [digitRun?_of_digits digits (toDigits_ne_nil _), bind, Option.bind_some, if_pos short,
    value, signed_natAbs]

end Text

end Almanac
