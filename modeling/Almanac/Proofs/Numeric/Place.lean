import Almanac.Occurrence.Plan
import Almanac.Proofs.Rule.Ascending
import Mathlib.Data.List.Sort
import Mathlib.Data.Set.Card

set_option autoImplicit false

/-!
The place of a number in a set of numbers, counted from the least or, negative, from the greatest.

In an ascending list places are indices, so the members that a plan keeps at given positions are
those with one of these places.
-/

namespace Almanac

/-- Whether `a` is member number `n` of a set in ascending order, from the end where `n` is
negative. -/
def IsNth (s : Set Nat) (a : Nat) (n : Int) : Prop :=
  a ∈ s ∧ (0 < n ∧ ({x | x ∈ s ∧ x ≤ a}.ncard : Int) = n ∨
    n < 0 ∧ ({x | x ∈ s ∧ a ≤ x}.ncard : Int) = -n)

theorem ncard_mem_of_ascending {l : List Nat} (sorted : l.Pairwise (· < ·)) :
    {x | x ∈ l}.ncard = l.length := by
  have distinct : l.Nodup := sorted.imp (fun h => Nat.ne_of_lt h)
  have coe : {x | x ∈ l} = (l.toFinset : Set Nat) := by
    ext x
    simp
  rw [coe, Set.ncard_coe_finset, List.toFinset_card_of_nodup distinct]

theorem ncard_le_getElem {l : List Nat} (sorted : l.Pairwise (· < ·)) {i : Nat}
    (hi : i < l.length) : {x | x ∈ l ∧ x ≤ l[i]}.ncard = i + 1 := by
  have upTo : {x | x ∈ l ∧ x ≤ l[i]} = {x | x ∈ l.take (i + 1)} := by
    ext x
    simp only [Set.mem_ofPred_eq, List.mem_take_iff_getElem]
    constructor
    · rintro ⟨member, le⟩
      obtain ⟨j, hj, rfl⟩ := List.getElem_of_mem member
      refine ⟨j, ?_, rfl⟩
      have : j ≤ i := by
        by_contra after
        have := List.pairwise_iff_getElem.mp sorted i j hi hj (by omega)
        omega
      omega
    · rintro ⟨j, hj, rfl⟩
      refine ⟨List.getElem_mem _, ?_⟩
      rcases Nat.lt_or_eq_of_le (show j ≤ i by omega) with before | rfl
      · exact Nat.le_of_lt (List.pairwise_iff_getElem.mp sorted j i (by omega) hi before)
      · exact Nat.le_refl _
  rw [upTo, ncard_mem_of_ascending (sorted.sublist (List.take_sublist _ _)), List.length_take]
  omega

theorem ncard_getElem_le {l : List Nat} (sorted : l.Pairwise (· < ·)) {i : Nat}
    (hi : i < l.length) : {x | x ∈ l ∧ l[i] ≤ x}.ncard = l.length - i := by
  have onward : {x | x ∈ l ∧ l[i] ≤ x} = {x | x ∈ l.drop i} := by
    ext x
    simp only [Set.mem_ofPred_eq, List.mem_drop_iff_getElem]
    constructor
    · rintro ⟨member, le⟩
      obtain ⟨j, hj, rfl⟩ := List.getElem_of_mem member
      have notBefore : i ≤ j := by
        by_contra before
        have := List.pairwise_iff_getElem.mp sorted j i hj hi (by omega)
        omega
      exact ⟨j - i, by omega, by simp only [Nat.add_sub_cancel' notBefore]⟩
    · rintro ⟨j, hj, rfl⟩
      refine ⟨List.getElem_mem _, ?_⟩
      rcases Nat.eq_zero_or_pos j with rfl | positive
      · simp
      · exact Nat.le_of_lt (List.pairwise_iff_getElem.mp sorted i (i + j) hi (by omega) (by omega))
  rw [onward, ncard_mem_of_ascending (sorted.sublist (List.drop_sublist _ _)), List.length_drop]

/-- The places in an ascending list are its indices, from one or from the end. -/
theorem isNth_mem_iff {l : List Nat} (sorted : l.Pairwise (· < ·)) {a : Nat} {n : Int} :
    IsNth {x | x ∈ l} a n ↔
      n.natAbs ≤ l.length ∧ l[(if 0 < n then n - 1 else l.length + n).toNat]? = some a := by
  constructor
  · rintro ⟨member, place⟩
    obtain ⟨i, hi, rfl⟩ := List.getElem_of_mem member
    have low := ncard_le_getElem sorted hi
    have high := ncard_getElem_le sorted hi
    simp only [Set.mem_ofPred_eq] at place
    rw [low, high] at place
    rcases place with ⟨positive, rfl⟩ | ⟨negative, count⟩
    · rw [if_pos positive]
      refine ⟨by omega, ?_⟩
      rw [show ((i + 1 : Nat) : Int) - 1 = i by omega, Int.toNat_natCast, List.getElem?_eq_getElem hi]
    · rw [if_neg (by omega), show (l.length : Int) + n = i by omega, Int.toNat_natCast,
        List.getElem?_eq_getElem hi]
      exact ⟨by omega, rfl⟩
  · rintro ⟨inside, found⟩
    obtain ⟨hi, rfl⟩ := List.getElem?_eq_some_iff.mp found
    refine ⟨List.getElem_mem _, ?_⟩
    have low := ncard_le_getElem sorted hi
    have high := ncard_getElem_le sorted hi
    simp only [Set.mem_ofPred_eq]
    rw [low, high]
    by_cases positive : 0 < n
    · left
      rw [if_pos positive] at hi ⊢
      omega
    · right
      rw [if_neg positive] at hi ⊢
      omega

/-- In an ascending list the member with a place is found by counting from the first or, for a
negative place, from the last. -/
theorem isNth_mem_iff_getElem? {l : List Nat} (sorted : l.Pairwise (· < ·)) {a : Nat} {n : Int} :
    IsNth {x | x ∈ l} a n ↔
      0 < n ∧ l[n.toNat - 1]? = some a ∨ n < 0 ∧ l.reverse[n.natAbs - 1]? = some a := by
  rw [isNth_mem_iff sorted]
  rcases Int.lt_trichotomy n 0 with negative | rfl | positive
  · have fromFirst : ¬ 0 < n := by omega
    simp only [fromFirst, negative, if_false, false_and, true_and, false_or]
    by_cases inside : n.natAbs ≤ l.length
    · rw [List.getElem?_reverse (by omega),
        show l.length - 1 - (n.natAbs - 1) = (l.length + n).toNat by omega]
      exact and_iff_right inside
    · have beyond : l.reverse[n.natAbs - 1]? = none := by
        rw [List.getElem?_eq_none_iff, List.length_reverse]
        omega
      simp [beyond, inside]
  · simp
  · have fromLast : ¬ n < 0 := by omega
    simp only [fromLast, positive, if_true, false_and, true_and, or_false]
    rw [show (n - 1).toNat = n.toNat - 1 by omega]
    apply and_iff_right_of_imp
    intro found
    obtain ⟨inside, -⟩ := List.getElem?_eq_some_iff.mp found
    omega

theorem Plan.mem_atPositions {positions : List Int} {l : List Nat} (sorted : l.Pairwise (· < ·))
    {a : Nat} :
    a ∈ Plan.atPositions positions l ↔ ∃ n ∈ positions, IsNth {x | x ∈ l} a n := by
  simp only [Plan.atPositions, mem_ascending, List.mem_filterMap, isNth_mem_iff sorted]
  constructor
  · rintro ⟨n, member, found⟩
    refine ⟨n, member, ?_⟩
    split at found
    · rename_i inside
      exact ⟨inside, found⟩
    · cases found
  · rintro ⟨n, member, inside, found⟩
    exact ⟨n, member, by rw [if_pos inside, found]⟩

theorem Plan.atPositions_ascending (positions : List Int) (l : List Nat) :
    (Plan.atPositions positions l).Pairwise (· < ·) := by
  have sorted (xs : List Nat) : (ascending (fun a b : Nat => a < b) xs).Pairwise
      (fun a b => decide (a < b)) :=
    ascending_pairwise (fun a b c => by simpa using Nat.lt_trans) xs
      (fun a _ b _ => by simpa using Nat.lt_trichotomy a b)
  exact (sorted _).imp (fun h => by simpa using h)

theorem Plan.atPositions_nil (positions : List Int) : Plan.atPositions positions [] = [] := by
  apply List.eq_nil_iff_forall_not_mem.mpr
  intro a member
  obtain ⟨n, _, place⟩ := (mem_atPositions List.Pairwise.nil).mp member
  exact absurd place.1 (by simp)

theorem Plan.atPositions_map_add (positions : List Int) (l : List Nat) (c : Nat) :
    Plan.atPositions positions (l.map (· + c)) = (Plan.atPositions positions l).map (· + c) := by
  have moved : ((Plan.atPositions positions l).map (· + c)).Pairwise (· < ·) := by
    rw [List.pairwise_map]
    exact (Plan.atPositions_ascending positions l).imp (fun h => Nat.add_lt_add_right h c)
  apply (Plan.atPositions_ascending _ _).eq_of_mem_iff moved
  intro a
  simp only [Plan.atPositions, mem_ascending, List.mem_filterMap, List.mem_map, List.length_map,
    List.getElem?_map]
  constructor
  · rintro ⟨n, member, found⟩
    split at found
    · rename_i inside
      obtain ⟨b, hb, rfl⟩ := Option.map_eq_some_iff.mp found
      exact ⟨b, ⟨n, member, by rw [if_pos inside, hb]⟩, rfl⟩
    · cases found
  · rintro ⟨b, ⟨n, member, found⟩, rfl⟩
    refine ⟨n, member, ?_⟩
    split at found
    · rename_i inside
      rw [if_pos inside, found]
      rfl
    · cases found

end Almanac
