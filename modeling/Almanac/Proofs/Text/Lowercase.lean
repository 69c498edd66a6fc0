import Almanac.Text.Lowercase

set_option autoImplicit false

/-!
Lower case against ASCII.

Inside ASCII, lower case is the one of ASCII. Outside, one capital has its small letter in ASCII, the
Kelvin sign, and one has a small letter there together with a mark. So a word in which neither of
these small letters occurs is the lower case of its own spellings in ASCII, and of nothing else.
-/

namespace Almanac.Text

/-! Single characters. -/

theorem caseRuns_beyond_ascii {r : CaseRun} (member : r ∈ caseRuns) :
    r.last < 128 ∨ r.first = 8490 ∧ r.last = 8490 ∧ r.shift = -8383 ∨ 128 ≤ r.first + r.shift := by
  have all : caseRuns.all (fun r => r.last < 128 ∨
      r.first = 8490 ∧ r.last = 8490 ∧ r.shift = -8383 ∨ 128 ≤ r.first + r.shift) = true := by
    decide +kernel
  simpa using List.all_eq_true.mp all r member

theorem toNat_ofNat (n : Nat) : (Char.ofNat n).toNat = n ∨ (Char.ofNat n).toNat = 0 := by
  by_cases valid : n.isValidChar
  · left
    rw [Char.ofNat, dif_pos valid]
    rfl
  · right
    rw [Char.ofNat, dif_neg valid]
    rfl

/-- What holds of the first 128 code points holds of every character of ASCII. -/
theorem forall_ascii {P : Char → Prop} (table : ∀ n < 128, P (Char.ofNat n)) {c : Char}
    (ascii : c.toNat < 128) : P c := by
  have holds := table c.toNat ascii
  rw [Char.ofNat_toNat] at holds
  exact holds

theorem smallLetter_ascii {c : Char} (ascii : c.toNat < 128) : smallLetter c = c.toLower := by
  apply forall_ascii (P := fun c => smallLetter c = c.toLower) _ ascii
  decide +kernel

/-- The Kelvin sign. -/
def kelvin : Char := '\u212A'

/-- Outside ASCII only the Kelvin sign has its small letter in ASCII. -/
theorem smallLetter_beyond_ascii {c : Char} (beyond : 128 ≤ c.toNat) :
    c = kelvin ∧ smallLetter c = 'k' ∨ 128 ≤ (smallLetter c).toNat ∨ (smallLetter c).toNat = 0 := by
  unfold smallLetter
  split
  · rename_i r found
    have member := List.mem_of_find?_eq_some found
    have covers := List.find?_some (p := fun r : CaseRun => r.covers c.toNat) found
    simp only [CaseRun.covers, Bool.and_eq_true, decide_eq_true_eq] at covers
    have value := toNat_ofNat (c.toNat + r.shift).toNat
    rcases caseRuns_beyond_ascii member with ascii | ⟨first, last, shift⟩ | far
    · omega
    · have place : c.toNat = 8490 := by omega
      have same : c = kelvin := by
        rw [← Char.ofNat_toNat c, place]
        rfl
      rw [place, shift]
      exact .inl ⟨same, rfl⟩
    · omega
  · exact .inr (.inl beyond)

theorem toLower_beyond_ascii {c : Char} (beyond : 128 ≤ c.toNat) : c.toLower = c := by
  apply dif_neg
  intro capital
  have : c.toNat ≤ 90 := UInt32.le_iff_toNat_le.mp capital.2
  omega

/-- A character that only characters of ASCII have in their lower case. -/
def IsOwnCase (c : Char) : Prop := c.toNat < 128 ∧ c ≠ 'k' ∧ c ≠ 'i' ∧ 0 < c.toNat

theorem smallLetter_eq_iff {c x : Char} (own : IsOwnCase x) : smallLetter c = x ↔ c.toLower = x := by
  obtain ⟨ascii, other, -, pos⟩ := own
  rcases Nat.lt_or_ge c.toNat 128 with inside | beyond
  · rw [smallLetter_ascii inside]
  · have small := smallLetter_beyond_ascii beyond
    rw [toLower_beyond_ascii beyond]
    apply iff_of_false
    · rintro rfl
      rcases small with ⟨-, same⟩ | far | null
      · exact other same
      · omega
      · omega
    · rintro rfl
      omega

/-! Texts. -/

variable {before rest s p o : List Char} {c x : Char}

theorem lowerAfter_cons (sigma : c ≠ 'Σ') (dotted : c ≠ 'İ') :
    lowerAfter before (c :: rest) = smallLetter c :: lowerAfter (c :: before) rest := by
  rw [lowerAfter, if_neg sigma, if_neg dotted]
  rfl

theorem lowerAfter_ne_nil : lowerAfter before (c :: rest) ≠ [] := by
  rw [lowerAfter]
  grind

/-- The two capitals that are not simply taken to their small letters. -/
theorem lowerAfter_ne_cons (special : c = 'Σ' ∨ c = 'İ') (own : IsOwnCase x) :
    lowerAfter before (c :: rest) ≠ x :: o := by
  have final : x ≠ 'ς' ∧ x ≠ 'σ' := by
    constructor
    · rintro rfl
      exact absurd own.1 (by decide)
    · rintro rfl
      exact absurd own.1 (by decide)
  have dotless := own.2.2.1
  rcases special with rfl | rfl
  · rw [lowerAfter, if_pos rfl]
    grind
  · rw [lowerAfter, if_neg (by decide), if_pos rfl]
    grind

theorem mem_lowerAfter (member : c ∈ s) (sigma : c ≠ 'Σ') (dotted : c ≠ 'İ') :
    smallLetter c ∈ lowerAfter before s := by
  induction s generalizing before with
  | nil => cases member
  | cons d s ih =>
    rcases List.mem_cons.mp member with rfl | member
    · rw [lowerAfter_cons sigma dotted]
      exact List.mem_cons_self
    · rw [lowerAfter]
      exact List.mem_append_right _ (ih member)

/-- A word of such characters is the lower case of its spellings in ASCII. -/
theorem lowerAfter_eq_iff (own : ∀ x ∈ o, IsOwnCase x) :
    lowerAfter before p = o ↔ p.map Char.toLower = o := by
  induction p generalizing before o with
  | nil => simp [lowerAfter]
  | cons c p ih =>
    cases o with
    | nil => simp [lowerAfter_ne_nil]
    | cons x o =>
      obtain ⟨first, own⟩ := List.forall_mem_cons.mp own
      by_cases special : c = 'Σ' ∨ c = 'İ'
      · apply iff_of_false (lowerAfter_ne_cons special first)
        intro same
        have far : 128 ≤ c.toNat := by rcases special with rfl | rfl <;> decide
        rw [List.map_cons, toLower_beyond_ascii far, List.cons.injEq] at same
        have ascii := first.1
        rw [← same.1] at ascii
        omega
      · rw [not_or] at special
        rw [lowerAfter_cons special.1 special.2, List.map_cons, List.cons.injEq, List.cons.injEq,
          ih own, smallLetter_eq_iff first]

end Almanac.Text
