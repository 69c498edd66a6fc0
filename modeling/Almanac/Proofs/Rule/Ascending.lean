import Almanac.Rule.Ascending

set_option autoImplicit false

/-!
Insertion builds ascending lists: the result holds the values given, each once, in the order that
`before` states. For that the order must be transitive and compare any two different values. Where it
ranks values and some share a rank, they are still kept once, and none before one of a lower rank.
-/

namespace Almanac

variable {α : Type} [DecidableEq α] {before : α → α → Bool}

theorem mem_insertAscending {x y : α} {l : List α} :
    y ∈ insertAscending before x l ↔ y = x ∨ y ∈ l := by
  induction l with
  | nil => simp [insertAscending]
  | cons z zs ih =>
    unfold insertAscending
    by_cases same : x = z
    · subst same
      simp
    · rw [if_neg same]
      by_cases first : before x z = true
      · simp [first]
      · rw [if_neg first]
        simp only [List.mem_cons, ih]
        exact or_left_comm

theorem mem_foldl_insertAscending {y : α} {xs acc : List α} :
    y ∈ xs.foldl (fun acc x => insertAscending before x acc) acc ↔ y ∈ xs ∨ y ∈ acc := by
  induction xs generalizing acc with
  | nil => simp
  | cons x xs ih =>
    rw [List.foldl_cons, ih, mem_insertAscending, List.mem_cons, ← or_assoc, or_comm (a := y ∈ xs)]

theorem mem_ascending {y : α} {xs : List α} : y ∈ ascending before xs ↔ y ∈ xs := by
  simp [ascending, mem_foldl_insertAscending]

section Related

variable {related : α → α → Prop}
  (first : ∀ x z, before x z = true → related x z ∧ ∀ y, related z y → related x y)
include first

theorem insertAscending_related {x : α} {l : List α}
    (last : ∀ z ∈ l, x ≠ z → before x z ≠ true → related z x) (sorted : l.Pairwise related) :
    (insertAscending before x l).Pairwise related := by
  induction l with
  | nil => simp [insertAscending]
  | cons z zs ih =>
    obtain ⟨least, rest⟩ := List.pairwise_cons.mp sorted
    obtain ⟨here, there⟩ := List.forall_mem_cons.mp last
    unfold insertAscending
    by_cases same : x = z
    · rw [if_pos same]
      exact sorted
    · rw [if_neg same]
      by_cases less : before x z = true
      · obtain ⟨own, others⟩ := first x z less
        rw [if_pos less]
        exact List.pairwise_cons.mpr
          ⟨List.forall_mem_cons.mpr ⟨own, fun y member => others y (least y member)⟩, sorted⟩
      · rw [if_neg less]
        refine List.pairwise_cons.mpr ⟨fun y member => ?_, ih there rest⟩
        rcases mem_insertAscending.mp member with rfl | member
        · exact here same less
        · exact least y member

/-- A value comes before what it stands before, and after all else. It is enough that this relates any
two of the values given. -/
theorem ascending_related (xs : List α)
    (last : ∀ x ∈ xs, ∀ z ∈ xs, x ≠ z → before x z ≠ true → related z x) :
    (ascending before xs).Pairwise related := by
  have grown : ∀ ys acc : List α, (∀ y ∈ ys, y ∈ xs) → (∀ y ∈ acc, y ∈ xs) → acc.Pairwise related →
      (ys.foldl (fun acc x => insertAscending before x acc) acc).Pairwise related := by
    intro ys
    induction ys with
    | nil => exact fun _ _ _ sorted => sorted
    | cons y ys ih =>
      intro acc among given sorted
      obtain ⟨own, among⟩ := List.forall_mem_cons.mp among
      refine ih _ among (fun z member => ?_)
        (insertAscending_related first (fun z member => last y own z (given z member)) sorted)
      rcases mem_insertAscending.mp member with rfl | member
      · exact own
      · exact given z member
  exact grown xs [] (fun _ member => member) nofun .nil

end Related

/-- It is enough that the order compares any two of the values given. -/
theorem ascending_pairwise
    (trans : ∀ a b c, before a b = true → before b c = true → before a c = true) (xs : List α)
    (connected : ∀ a ∈ xs, ∀ b ∈ xs, before a b = true ∨ a = b ∨ before b a = true) :
    (ascending before xs).Pairwise (before · · = true) := by
  refine ascending_related (fun x z less => ⟨less, fun y => trans x z y less⟩) xs ?_
  intro x member z member' other above
  exact ((connected x member z member').resolve_left above).resolve_left other

theorem ascending_ranked (asymm : ∀ a b, before a b = true → before b a = false)
    (ranks : ∀ a b c, before a b = true → before c b = false → before a c = true) (xs : List α) :
    (ascending before xs).Pairwise (fun a b => a ≠ b ∧ before b a = false) := by
  have apart {x y : α} (less : before x y = true) : x ≠ y ∧ before y x = false := by
    refine ⟨?_, asymm x y less⟩
    rintro rfl
    simp [asymm x x less] at less
  refine ascending_related
    (fun x z less => ⟨apart less, fun y above => apart (ranks x z y less above.2)⟩) xs ?_
  exact fun x _ z _ other above => ⟨other.symm, Bool.eq_false_iff.mpr above⟩

/-- A list that is ascending already is left as it is. -/
theorem ascending_of_pairwise {xs : List α} (irrefl : ∀ a, before a a = false)
    (asymm : ∀ a b, before a b = true → before b a = false)
    (sorted : xs.Pairwise (before · · = true)) : ascending before xs = xs := by
  have appended : ∀ (x : α) (l : List α), (∀ y ∈ l, before y x = true) →
      insertAscending before x l = l ++ [x] := by
    intro x l below
    induction l with
    | nil => rfl
    | cons y l ih =>
      obtain ⟨first, below⟩ := List.forall_mem_cons.mp below
      have other : x ≠ y := by
        rintro rfl
        simp [irrefl] at first
      rw [insertAscending, if_neg other, if_neg (by simp [asymm y x first]), ih below]
      rfl
  have grown : ∀ ys acc : List α, (acc ++ ys).Pairwise (before · · = true) →
      ys.foldl (fun acc x => insertAscending before x acc) acc = acc ++ ys := by
    intro ys
    induction ys with
    | nil => simp
    | cons y ys ih =>
      intro acc sorted
      have below : ∀ z ∈ acc, before z y = true := fun z member =>
        (List.pairwise_append.mp sorted).2.2 z member y List.mem_cons_self
      rw [List.append_cons] at sorted ⊢
      rw [List.foldl_cons, appended y acc below, ih _ sorted]
  exact grown xs [] sorted

end Almanac
