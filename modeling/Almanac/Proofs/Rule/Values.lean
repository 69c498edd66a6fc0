import Almanac.Proofs.Rule.Grammar
import Almanac.Rule.Spec

set_option autoImplicit false

/-!
The values that rule text gives.

A value is one or more words with commas between them. No word has a comma or white space in it, so
nothing is cut from a value when it is read, and its items are its words.
-/

namespace Almanac

namespace Text

/-- The code points of white space. -/
def blanks : List Nat :=
  [9, 10, 11, 12, 13, 28, 29, 30, 31, 32, 133, 160, 5760, 8192, 8193, 8194, 8195, 8196, 8197, 8198,
  8199, 8200, 8201, 8202, 8232, 8233, 8239, 8287, 12288]

theorem mem_blanks {c : Char} (blank : isBlank c = true) : c.toNat ∈ blanks := by
  simp only [isBlank, blankBounds, inBounds, Bool.if_false_left, Bool.if_true_left,
    Bool.and_eq_true, Bool.or_eq_true, Bool.not_eq_true', decide_eq_true_eq, decide_eq_false_iff_not,
    Bool.false_eq_true, or_false] at blank
  simp only [blanks, List.mem_cons, List.not_mem_nil, or_false]
  omega

theorem trim_solid {s : List Char} (solid : ∀ c ∈ s, isBlank c = false) : trim s = s := by
  have kept : ∀ s : List Char, (∀ c ∈ s, isBlank c = false) → dropBlanks s = s := by
    intro s solid
    cases s with
    | nil => rfl
    | cons c s => simp [dropBlanks, solid c]
  simp [trim, kept s solid, kept s.reverse (by simpa using solid)]

end Text

namespace Token

/-- A word of rule text. -/
structure IsWord (w : List Char) : Prop where
  nonempty : w ≠ []
  run : ∀ c ∈ w, isWordChar c = true

theorem isBlank_text_of_isWordChar {c : Char} (inside : isWordChar c = true) :
    Text.isBlank c = false := by
  by_contra blank
  have table : ∀ n ∈ Text.blanks, isWordChar (Char.ofNat n) = false := by decide +kernel
  have outside := table c.toNat (Text.mem_blanks (by simpa using blank))
  simp [inside] at outside

theorem IsWord.solid {w : List Char} (word : IsWord w) : ∀ c ∈ w, Text.isBlank c = false :=
  fun c member => isBlank_text_of_isWordChar (word.run c member)

theorem IsWord.comma {w : List Char} (word : IsWord w) : ',' ∉ w := by
  intro member
  have inside := word.run ',' member
  revert inside
  decide

theorem isWord_of_spells {ls : List Lexeme} {s : List Char} (spells : Spells ls s) {w : String}
    (member : .word w ∈ ls) : IsWord w.toList := by
  induction spells with
  | nil => cases member
  | blank blank rest ih => exact ih member
  | mark mark rest ih =>
    rcases List.mem_cons.mp member with rfl | member
    · obtain ⟨-, ⟨⟩⟩ | ⟨-, ⟨⟩⟩ | ⟨-, ⟨⟩⟩ := punctuation?_eq_some mark
    · exact ih member
  | word nonempty run ends rest ih =>
    rcases List.mem_cons.mp member with same | member
    · cases same
      rw [String.toList_ofList]
      exact ⟨nonempty, run⟩
    · exact ih member

end Token

namespace Parts

open Token

/-- The text is made of words with commas between them. -/
def IsValue (v : String) : Prop :=
  ∃ ws : List String, ws ≠ [] ∧ (∀ w ∈ ws, IsWord w.toList) ∧ v = String.intercalate "," ws

theorem mem_intersperse {α : Type} {x s : α} {l : List α} (member : x ∈ l) :
    x ∈ l.intersperse s := by
  induction l with
  | nil => cases member
  | cons y l ih =>
    cases l with
    | nil => exact member
    | cons z l =>
      rcases List.mem_cons.mp member with rfl | member
      · exact List.mem_cons_self
      · exact List.mem_cons_of_mem _ (List.mem_cons_of_mem _ (ih member))

theorem mem_of_mem_intersperse {α : Type} {x s : α} {l : List α} (member : x ∈ l.intersperse s) :
    x = s ∨ x ∈ l := by
  induction l with
  | nil => cases member
  | cons y l ih =>
    cases l with
    | nil => exact .inr member
    | cons z l =>
      simp only [List.intersperse_cons_cons, List.mem_cons] at member
      rcases member with rfl | rfl | member
      · exact .inr List.mem_cons_self
      · exact .inl rfl
      · rcases ih member with same | among
        · exact .inl same
        · exact .inr (List.mem_cons_of_mem _ among)

/-- The values of the clauses are among the words that are spelled. -/
theorem Lists.word_mem {clauses : List Clause} {ls : List Lexeme} (listed : Lists clauses ls)
    {c : Clause} (member : c ∈ clauses) {w : String} (value : w ∈ c.values) : .word w ∈ ls := by
  have inside : .word w ∈ c.lexemes :=
    List.mem_cons_of_mem _ (List.mem_cons_of_mem _ (mem_intersperse (List.mem_map_of_mem value)))
  induction listed with
  | last c' =>
    cases List.mem_singleton.mp member
    exact inside
  | closed c' =>
    cases List.mem_singleton.mp member
    exact List.mem_append_left _ inside
  | more c' rest ih =>
    rcases List.mem_cons.mp member with rfl | member
    · exact List.mem_append_left _ inside
    · exact List.mem_append_right _ (List.mem_cons_of_mem _ (ih member))

theorem exists_mem_of_forall₂ {α β : Type} {related : α → β → Prop} {l : List α} {l' : List β}
    (all : List.Forall₂ related l l') {b : β} (member : b ∈ l') : ∃ a ∈ l, related a b := by
  induction all with
  | nil => cases member
  | @cons a b' l l' first rest ih =>
    rcases List.mem_cons.mp member with rfl | member
    · exact ⟨a, List.mem_cons_self, first⟩
    · obtain ⟨a', inside, related⟩ := ih member
      exact ⟨a', List.mem_cons_of_mem _ inside, related⟩

theorem Writes.isValue {s : String} {parts : List (Part × String)} (writes : Writes s parts)
    {p : Part} {v : String} (member : (p, v) ∈ parts) : IsValue v := by
  obtain ⟨body, lexemes, clauses, -, spells, listed, gives, -⟩ := writes
  obtain ⟨c, inside, -, joined⟩ := exists_mem_of_forall₂ gives member
  exact ⟨c.values, c.some, fun w value => isWord_of_spells spells (listed.word_mem inside value),
    joined⟩

/-- The items of a value: what stands between its commas. -/
def items (v : String) : List (List Char) := v.toList.splitOn ','

theorem items_joined {ws : List String} (some : ws ≠ []) (words : ∀ w ∈ ws, IsWord w.toList) :
    items (String.intercalate "," ws) = ws.map String.toList := by
  rw [items, String.toList_intercalate]
  apply List.splitOn_intercalate
  · simpa using fun w member => (words w member).comma
  · simpa using some

theorem IsValue.isWord {v : String} (value : IsValue v) {w : List Char} (member : w ∈ items v) :
    IsWord w := by
  obtain ⟨ws, some, words, rfl⟩ := value
  rw [items_joined some words] at member
  obtain ⟨w, inside, rfl⟩ := List.mem_map.mp member
  exact words w inside

/-- There is no white space in a value. -/
theorem IsValue.solid {v : String} (value : IsValue v) : ∀ c ∈ v.toList, Text.isBlank c = false := by
  obtain ⟨ws, -, words, rfl⟩ := value
  intro c member
  simp only [String.toList_intercalate, List.intercalate, List.mem_flatten] at member
  obtain ⟨l, among, member⟩ := member
  rcases mem_of_mem_intersperse among with rfl | among
  · obtain rfl : c = ',' := by simpa using member
    decide
  · obtain ⟨w, inside, rfl⟩ := List.mem_map.mp among
    exact (words w inside).solid c member

end Parts

namespace Value

theorem fields_eq_splitOn (s : List Char) : fields s = s.splitOn ',' := by
  induction s with
  | nil => simp [fields]
  | cons c s ih =>
    rw [fields, ih, List.splitOn_cons_eq_if_modifyHead]
    simp only [beq_iff_eq]
    split
    · rfl
    · obtain ⟨f, fs, split⟩ := List.exists_cons_of_ne_nil (List.splitOn_ne_nil ',' s)
      rw [split]
      rfl

/-- The items that are read from a value are its words. -/
theorem items_text {v : String} (value : Parts.IsValue v) :
    items (.text v) = (Parts.items v).map (fun w => text (String.ofList w)) := by
  have trimmed : ∀ w ∈ Parts.items v, Text.trim w = w :=
    fun w member => Text.trim_solid (value.isWord member).solid
  have kept : ∀ w ∈ Parts.items v, (!w.isEmpty) = true := by
    intro w member
    simpa using (value.isWord member).nonempty
  rw [items, fields_eq_splitOn, ← Parts.items, List.map_congr_left trimmed, List.map_id',
    List.filter_eq_self.mpr kept]

end Value

end Almanac
