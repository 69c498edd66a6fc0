import Almanac.Proofs.Text.Lowercase
import Almanac.Rule.Token
import Mathlib.Data.List.TakeWhile

set_option autoImplicit false

/-!
How a text spells the lexemes of a rule.

Punctuation is spelled by its character and a word by a longest run of word characters; blanks may
stand anywhere between them. Scanning a text finds the lexemes that it spells (`spells_of_scan`), and
finds them in every spelling (`scan_of_spells`). The opening is passed over first; a text in which it
were read as part of a word would name no part, so nothing is lost by that.
-/

namespace Almanac

theorem Except.map_eq_ok {ε α β : Type} {x : Except ε α} {f : α → β} {b : β} :
    x.map f = .ok b ↔ ∃ a, x = .ok a ∧ f a = b := by
  cases x <;> simp [Except.map]

theorem Except.map_eq_error {ε α β : Type} {x : Except ε α} {f : α → β} {e : ε} :
    x.map f = .error e ↔ x = .error e := by
  cases x <;> simp [Except.map]

namespace Token

/-! Scanning. -/

/-- The text spells the lexemes, with blanks between them as it likes. -/
inductive Spells : List Lexeme → List Char → Prop where
  | nil : Spells [] []
  | blank {c : Char} {ls : List Lexeme} {s : List Char} (blank : isBlank c = true)
      (rest : Spells ls s) : Spells ls (c :: s)
  | mark {c : Char} {l : Lexeme} {ls : List Lexeme} {s : List Char}
      (mark : punctuation? c = some l) (rest : Spells ls s) : Spells (l :: ls) (c :: s)
  | word {w : List Char} {ls : List Lexeme} {s : List Char} (nonempty : w ≠ [])
      (run : ∀ c ∈ w, isWordChar c = true) (ends : ∀ c ∈ s.head?, isWordChar c = false)
      (rest : Spells ls s) : Spells (.word (String.ofList w) :: ls) (w ++ s)

theorem isWordChar_of_isBlank {c : Char} (blank : isBlank c = true) : isWordChar c = false := by
  simp only [isBlank, Bool.or_eq_true, decide_eq_true_eq] at blank
  rcases blank with ((rfl | rfl) | rfl) | rfl <;> decide

theorem isBlank_of_isWordChar {c : Char} (inside : isWordChar c = true) : isBlank c = false := by
  by_contra blank
  rw [isWordChar_of_isBlank (by simpa using blank)] at inside
  cases inside

/-- No blank leads a text that starts with a word character. -/
theorem dropWhile_isBlank {c : Char} (start : isWordChar c = true) (s : List Char) :
    (c :: s).dropWhile isBlank = c :: s := by
  rw [List.dropWhile_cons, isBlank_of_isWordChar start]
  rfl

theorem punctuation?_eq_some {c : Char} {l : Lexeme} (mark : punctuation? c = some l) :
    c = '=' ∧ l = .equals ∨ c = ';' ∧ l = .semicolon ∨ c = ',' ∧ l = .comma := by
  grind [punctuation?]

theorem isWordChar_of_punctuation? {c : Char} {l : Lexeme} (mark : punctuation? c = some l) :
    isWordChar c = false := by
  rcases punctuation?_eq_some mark with ⟨rfl, -⟩ | ⟨rfl, -⟩ | ⟨rfl, -⟩ <;> decide

theorem isBlank_of_punctuation? {c : Char} {l : Lexeme} (mark : punctuation? c = some l) :
    isBlank c = false := by
  rcases punctuation?_eq_some mark with ⟨rfl, -⟩ | ⟨rfl, -⟩ | ⟨rfl, -⟩ <;> decide

theorem not_isWordChar_head_dropWhile (s : List Char) :
    ∀ c ∈ (s.dropWhile isWordChar).head?, isWordChar c = false := by
  intro c head
  have stops := List.head?_dropWhile_not isWordChar s
  rw [Option.mem_def.mp head] at stops
  simpa using stops

theorem spells_of_scan {n : Nat} {s : List Char} {ts : List Token} (scanned : scan n s = .ok ts) :
    Spells (ts.map Token.lexeme) s := by
  fun_induction scan n s generalizing ts with
  | case1 n =>
    cases scanned
    exact .nil
  | case2 n c rest blank ih => exact .blank blank (ih scanned)
  | case3 n c rest blank lexeme mark ih =>
    obtain ⟨ts, scanned', rfl⟩ := Except.map_eq_ok.mp scanned
    exact .mark mark (ih scanned')
  | case4 n c rest blank mark start word stop =>
    rename_i ih
    obtain ⟨ts, scanned', rfl⟩ := Except.map_eq_ok.mp scanned
    rw [← List.takeWhile_append_dropWhile (p := isWordChar) (l := rest), ← List.cons_append]
    refine .word (List.cons_ne_nil _ _) ?_ (not_isWordChar_head_dropWhile rest) (ih scanned')
    exact List.forall_mem_cons.mpr ⟨start, fun c member => List.mem_takeWhile_imp member⟩
  | case5 => cases scanned

/-- A word is read whole. -/
theorem scan_word {n : Nat} {w s : List Char} (nonempty : w ≠ [])
    (run : ∀ c ∈ w, isWordChar c = true) (ends : ∀ c ∈ s.head?, isWordChar c = false) :
    scan n (w ++ s) = (scan (n + w.length) s).map
      (⟨.word (String.ofList w), ⟨n, n + w.length⟩⟩ :: ·) := by
  cases w with
  | nil => exact absurd rfl nonempty
  | cons c w =>
    obtain ⟨start, run⟩ := List.forall_mem_cons.mp run
    have blank := isBlank_of_isWordChar start
    have mark : punctuation? c = none := by
      by_contra mark
      obtain ⟨l, mark⟩ := Option.ne_none_iff_exists'.mp mark
      simp [isWordChar_of_punctuation? mark] at start
    have stops : s.takeWhile isWordChar = [] ∧ s.dropWhile isWordChar = s := by
      cases s with
      | nil => exact ⟨rfl, rfl⟩
      | cons d s => simp [ends d rfl]
    rw [List.cons_append, scan]
    simp only [blank, mark, start, Bool.false_eq_true, if_false, if_true,
      List.takeWhile_append_of_pos run, List.dropWhile_append_of_pos run, stops, List.append_nil]

theorem scan_of_spells {n : Nat} {ls : List Lexeme} {s : List Char} (spells : Spells ls s) :
    ∃ ts, scan n s = .ok ts ∧ ts.map Token.lexeme = ls := by
  induction spells generalizing n with
  | nil => exact ⟨[], by rw [scan], rfl⟩
  | blank blank rest ih =>
    obtain ⟨ts, scanned, same⟩ := ih (n := n + 1)
    exact ⟨ts, by simp [scan, blank, scanned], same⟩
  | @mark c l ls s mark rest ih =>
    obtain ⟨ts, scanned, same⟩ := ih (n := n + 1)
    refine ⟨⟨l, ⟨n, n + 1⟩⟩ :: ts, ?_, congrArg (l :: ·) same⟩
    simp [scan, isBlank_of_punctuation? mark, mark, scanned, Except.map]
  | @word w ls s nonempty run ends rest ih =>
    obtain ⟨ts, scanned, same⟩ := ih (n := n + w.length)
    refine ⟨⟨.word (String.ofList w), ⟨n, n + w.length⟩⟩ :: ts, ?_, congrArg (_ :: ·) same⟩
    rw [scan_word nonempty run ends, scanned]
    rfl

/-! The opening. -/

/-- The text without the opening that may lead it, in any case and behind blanks. -/
inductive Opens : List Char → List Char → Prop where
  | bare (s : List Char) : Opens s s
  | opened {blanks p : List Char} (body : List Char) (blank : ∀ c ∈ blanks, isBlank c = true)
      (opening : p.map Char.toLower = opening) : Opens (blanks ++ (p ++ body)) body

theorem lower_eq_opening_iff {p : List Char} :
    Text.lower p = opening ↔ p.map Char.toLower = opening := by
  apply Text.lowerAfter_eq_iff
  simp [opening, Text.IsOwnCase]

theorem isWordChar_of_opening {p : List Char} (opens : p.map Char.toLower = opening) :
    ∀ c ∈ p, isWordChar c = true := by
  intro c member
  have lower : c.toLower ∈ opening := opens ▸ List.mem_map_of_mem member
  have ascii : c.toNat < 128 := by
    by_contra beyond
    rw [Text.toLower_beyond_ascii (Nat.le_of_not_lt beyond)] at lower
    have inside : ∀ c ∈ opening, c.toNat < 128 := by simp [opening]
    exact beyond (inside c lower)
  revert lower
  apply Text.forall_ascii (P := fun c => c.toLower ∈ opening → isWordChar c = true) _ ascii
  decide +kernel

theorem afterOpening_eq (s : List Char) :
    (afterOpening s).2 =
      if ((s.dropWhile isBlank).take opening.length).map Char.toLower = opening then
        (s.dropWhile isBlank).drop opening.length
      else s.dropWhile isBlank := by
  unfold afterOpening
  simp only [lower_eq_opening_iff]
  split <;> rfl

/-- The opening is passed over wherever it stands. -/
theorem afterOpening_opened {blanks p body : List Char} (blank : ∀ c ∈ blanks, isBlank c = true)
    (opens : p.map Char.toLower = opening) : (afterOpening (blanks ++ (p ++ body))).2 = body := by
  have length : opening.length = p.length := by rw [← opens, List.length_map]
  have behind : (blanks ++ (p ++ body)).dropWhile isBlank = p ++ body := by
    rw [List.dropWhile_append_of_pos blank]
    cases p with
    | nil => cases opens
    | cons c p => exact dropWhile_isBlank (isWordChar_of_opening opens c List.mem_cons_self) _
  rw [afterOpening_eq, behind, length, List.take_left, List.drop_left, if_pos opens]

/-! Both together. -/

theorem spells_blanks {ls : List Lexeme} {blanks s : List Char}
    (blank : ∀ c ∈ blanks, isBlank c = true) (spells : Spells ls s) : Spells ls (blanks ++ s) := by
  induction blanks with
  | nil => exact spells
  | cons c blanks ih =>
    obtain ⟨first, blank⟩ := List.forall_mem_cons.mp blank
    exact .blank first (ih blank)

theorem opens_of_afterOpening {ls : List Lexeme} {s : List Char}
    (spells : Spells ls (afterOpening s).2) : ∃ body, Opens s body ∧ Spells ls body := by
  have blank : ∀ c ∈ s.takeWhile isBlank, isBlank c = true := fun c => List.mem_takeWhile_imp
  have split := List.takeWhile_append_dropWhile (p := isBlank) (l := s)
  rw [afterOpening_eq] at spells
  split at spells
  · rename_i opens
    refine ⟨_, ?_, spells⟩
    have opened := Opens.opened ((s.dropWhile isBlank).drop opening.length) blank opens
    rw [List.take_append_drop, split] at opened
    exact opened
  · refine ⟨s, .bare s, ?_⟩
    rw [← split]
    exact spells_blanks blank spells

theorem spells_dropWhile {ls : List Lexeme} {s : List Char} (spells : Spells ls s) :
    Spells ls (s.dropWhile isBlank) := by
  induction spells with
  | nil => exact .nil
  | blank blank rest ih =>
    rw [List.dropWhile_cons, if_pos blank]
    exact ih
  | mark mark rest =>
    rw [List.dropWhile_cons, if_neg (by simp [isBlank_of_punctuation? mark])]
    exact .mark mark rest
  | @word w ls s nonempty run ends rest =>
    obtain ⟨c, w, rfl⟩ := List.exists_cons_of_ne_nil nonempty
    rw [List.cons_append, dropWhile_isBlank (run c List.mem_cons_self)]
    exact .word nonempty run ends rest

theorem colon_mem_of_opening {p : List Char} (opens : p.map Char.toLower = opening) : ':' ∈ p := by
  have colon : ':' ∈ p.map Char.toLower := opens ▸ by decide
  obtain ⟨c, member, lower⟩ := List.mem_map.mp colon
  have same : c = ':' := by
    rcases Nat.lt_or_ge c.toNat 128 with ascii | beyond
    · revert lower
      apply Text.forall_ascii (P := fun c => c.toLower = ':' → c = ':') _ ascii
      decide +kernel
    · rw [← lower, Text.toLower_beyond_ascii beyond]
  rw [← same]
  exact member

/-- A text that starts with an opening spells a word that starts with it. -/
theorem colon_mem_word {name : String} {ls : List Lexeme} {p s : List Char}
    (opens : p.map Char.toLower = opening) (spells : Spells (.word name :: ls) (p ++ s)) :
    ':' ∈ name.toList := by
  have inside := isWordChar_of_opening opens
  obtain ⟨c, q, rfl⟩ : ∃ c q, p = c :: q := by
    cases p with
    | nil => cases opens
    | cons c q => exact ⟨c, q, rfl⟩
  generalize hs : c :: q ++ s = t at spells
  cases spells with
  | blank blank rest =>
    cases hs
    rw [isBlank_of_isWordChar (inside c List.mem_cons_self)] at blank
    cases blank
  | mark mark rest =>
    obtain ⟨-, ⟨⟩⟩ | ⟨-, ⟨⟩⟩ | ⟨-, ⟨⟩⟩ := punctuation?_eq_some mark
  | @word w _ s' nonempty run ends rest =>
    rw [String.toList_ofList]
    rcases List.append_eq_append_iff.mp hs with ⟨more, rfl, -⟩ | ⟨more, same, rfl⟩
    · exact List.mem_append_left _ (colon_mem_of_opening opens)
    · -- The word is read to its end, so nothing of the opening is left behind it.
      cases more with
      | nil =>
        rw [List.append_nil] at same
        exact same ▸ colon_mem_of_opening opens
      | cons d more =>
        have last : d ∈ c :: q := same ▸ List.mem_append_right w List.mem_cons_self
        have stops := ends d rfl
        rw [inside d last] at stops
        cases stops

theorem spells_afterOpening {name : String} {ls : List Lexeme} {s body : List Char}
    (opens : Opens s body) (spells : Spells (.word name :: ls) body) (plain : ':' ∉ name.toList) :
    Spells (.word name :: ls) (afterOpening s).2 := by
  cases opens with
  | opened body blank opening =>
    rw [afterOpening_opened blank opening]
    exact spells
  | bare =>
    have spells := spells_dropWhile spells
    rw [afterOpening_eq]
    split
    · rename_i opens
      rw [← List.take_append_drop opening.length (s.dropWhile isBlank)] at spells
      exact absurd (colon_mem_word opens spells) plain
    · exact spells

end Token

end Almanac
