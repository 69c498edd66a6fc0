import Almanac.Proofs.Rule.Values
import Almanac.Proofs.Time.Written
import Almanac.Rule.Written

set_option autoImplicit false

/-!
Rule text keeps the grammar.

A rule writes, in a fixed order, a clause for every part that it has something to write for. Names and
values are words, so the text spells the lexemes of its clauses, and what reading it gives is the parts
that were written.
-/

namespace Almanac

namespace Part

theorem named_code (p : Part) : p.Named p.code := by
  left
  cases p <;> decide +kernel

theorem isWord_code (p : Part) : Token.IsWord p.code.toList := by
  have all : p.code.toList.all Token.isWordChar = true := by
    cases p <;> decide +kernel
  have some : p.code.toList ≠ [] := by
    cases p <;> decide +kernel
  exact ⟨some, List.all_eq_true.mp all⟩

end Part

namespace Parts

open Token

/-- Name and values of a clause are words. -/
structure Clause.IsPlain (c : Clause) : Prop where
  name : IsWord c.name.toList
  values : ∀ v ∈ c.values, IsWord v.toList

/-- The characters of a clause, without blanks. -/
def Clause.chars (c : Clause) : List Char :=
  c.name.toList ++ '=' :: [','].intercalate (c.values.map String.toList)

variable {ls : List Lexeme} {s : List Char}

theorem spells_word {w : String} (word : IsWord w.toList)
    (ends : ∀ c ∈ s.head?, isWordChar c = false) (rest : Spells ls s) :
    Spells (.word w :: ls) (w.toList ++ s) := by
  have spells := Spells.word word.nonempty word.run ends rest
  rw [String.ofList_toList] at spells
  exact spells

theorem spells_values {ws : List String} (some : ws ≠ []) (words : ∀ w ∈ ws, IsWord w.toList)
    (ends : ∀ c ∈ s.head?, isWordChar c = false) (rest : Spells ls s) :
    Spells ((ws.map Lexeme.word).intersperse .comma ++ ls)
      ([','].intercalate (ws.map String.toList) ++ s) := by
  induction ws with
  | nil => exact absurd rfl some
  | cons w ws ih =>
    obtain ⟨first, words⟩ := List.forall_mem_cons.mp words
    cases ws with
    | nil => simpa [List.intercalate] using spells_word first ends rest
    | cons v ws =>
      have tail := ih (List.cons_ne_nil _ _) words
      have comma : Spells (.comma :: ((v :: ws).map Lexeme.word).intersperse .comma ++ ls)
          (',' :: ([','].intercalate ((v :: ws).map String.toList) ++ s)) := .mark rfl tail
      have head := spells_word first (by simp; decide) comma
      simpa [List.intercalate] using head

theorem spells_clause {c : Clause} (plain : c.IsPlain)
    (ends : ∀ c ∈ s.head?, isWordChar c = false) (rest : Spells ls s) :
    Spells (c.lexemes ++ ls) (c.chars ++ s) := by
  have values := spells_values c.some plain.values ends rest
  have head := spells_word plain.name (by simp; decide) (Spells.mark (c := '=') rfl values)
  simpa [Clause.lexemes, Clause.chars] using head

theorem spells_clauses {clauses : List Clause} (some : clauses ≠ [])
    (plain : ∀ c ∈ clauses, c.IsPlain) : ∃ lexemes, Lists clauses lexemes ∧
      Spells lexemes ([';'].intercalate (clauses.map Clause.chars)) := by
  induction clauses with
  | nil => exact absurd rfl some
  | cons c clauses ih =>
    obtain ⟨first, plain⟩ := List.forall_mem_cons.mp plain
    cases clauses with
    | nil =>
      refine ⟨_, .last c, ?_⟩
      have spells := spells_clause first (by simp) Spells.nil
      simpa [List.intercalate] using spells
    | cons d clauses =>
      obtain ⟨lexemes, listed, rest⟩ := ih (List.cons_ne_nil _ _) plain
      refine ⟨_, .more c listed, ?_⟩
      have spells := spells_clause first (by simp; decide) (Spells.mark (c := ';') rfl rest)
      simpa [List.intercalate] using spells

/-- The clauses of a rule text, each with what its part is given. -/
theorem writes_clauses {clauses : List Clause} {parts : List (Part × String)} {s : String}
    (some : clauses ≠ []) (plain : ∀ c ∈ clauses, c.IsPlain)
    (gives : List.Forall₂ Clause.Gives clauses parts) (distinct : (parts.map Prod.fst).Nodup)
    (text : s.toList = [';'].intercalate (clauses.map Clause.chars)) : Writes s parts := by
  obtain ⟨lexemes, listed, spells⟩ := spells_clauses some plain
  exact ⟨s.toList, lexemes, clauses, .bare _, text ▸ spells, listed, gives, distinct⟩

end Parts

namespace Rule

open Parts

/-- What a rule writes for a part, item by item; nothing where the part is left out. -/
def written (r : Rule) : Part → List String
  | .freq => [r.freq.code]
  | .start => [String.ofList r.start.writtenInRule]
  | .interval => if r.interval = 1 then [] else [toString r.interval]
  | .count => r.count.toList.map toString
  | .finish => r.finish.toList.map (fun t => String.ofList t.writtenInRule)
  | .endsBefore => r.endsBefore.toList.map (fun t => String.ofList t.writtenInRule)
  | .weekStart => if r.weekStart = .monday then [] else [r.weekStart.code]
  | .month => r.months.map toString
  | .weekNumber => r.weekNumbers.map toString
  | .yearDay => r.yearDays.map toString
  | .monthDay => r.monthDays.map toString
  | .day => r.days.map DayPattern.text
  | .hour => r.hours.map toString
  | .minute => r.minutes.map toString
  | .second => r.seconds.map toString
  | .position => r.positions.map toString

/-- The parts in the order in which they are written. -/
def order (withStart : Bool) : List Part :=
  .freq :: ((if withStart then [.start] else []) ++
    [.interval, .count, .finish, .endsBefore, .weekStart, .month, .weekNumber, .yearDay, .monthDay,
      .day, .hour, .minute, .second, .position])

theorem nodup_order (withStart : Bool) : (order withStart).Nodup := by
  cases withStart <;> decide

theorem writtenParts_eq (r : Rule) (withStart : Bool) :
    r.writtenParts withStart =
      (order withStart).flatMap (fun p => writtenList p (r.written p)) := by
  have single : ∀ p v, writtenList p [v] = [writtenPart p v] := fun p v => by
    simp [writtenList, String.intercalate_singleton]
  have option : ∀ {α : Type} (p : Part) (o : Option α) (f : α → String),
      writtenList p (o.toList.map f) = o.toList.map (fun a => writtenPart p (f a)) := by
    intro α p o f
    cases o with
    | none => rfl
    | some a => exact single p (f a)
  have default : ∀ (c : Prop) [Decidable c] (p : Part) (v : String),
      writtenList p (if c then [] else [v]) = if c then [] else [writtenPart p v] := by
    intro c _ p v
    split
    · rfl
    · exact single p v
  cases withStart <;>
    simp only [writtenParts, order, written, List.flatMap_cons, List.flatMap_nil, single, option,
      default, writtenInstant, List.append_assoc, List.append_nil, List.cons_append, List.nil_append,
      if_true, if_false, Bool.false_eq_true] <;> rfl

/-! Every item is a word. -/

theorem isWord_natural (n : Nat) : Token.IsWord (toString n).toList := by
  rw [Nat.toString_eq_ofList_toDigits, String.toList_ofList]
  exact Token.isWord_toDigits n

theorem isWord_weekday (w : Weekday) : Token.IsWord w.code.toList := by
  have all : w.code.toList.all Token.isWordChar = true := by
    cases w <;> decide +kernel
  have some : w.code.toList ≠ [] := by
    cases w <;> decide +kernel
  exact ⟨some, List.all_eq_true.mp all⟩

theorem isWord_freq (f : Frequency) : Token.IsWord f.code.toList := by
  have all : f.code.toList.all Token.isWordChar = true := by
    cases f <;> decide +kernel
  have some : f.code.toList ≠ [] := by
    cases f <;> decide +kernel
  exact ⟨some, List.all_eq_true.mp all⟩

theorem isWord_day (d : DayPattern) : Token.IsWord d.text.toList := by
  unfold DayPattern.text
  split
  · split
    · exact isWord_weekday _
    · rw [String.toList_append]
      exact .append (Token.isWord_toString _).run (isWord_weekday _)
  · exact isWord_weekday _

theorem isWord_written (r : Rule) (p : Part) : ∀ v ∈ r.written p, Token.IsWord v.toList := by
  have instant : ∀ t : Zoned, Token.IsWord (String.ofList t.writtenInRule).toList := fun t => by
    rw [String.toList_ofList]
    exact t.isWord_writtenInRule
  cases p <;> simp only [written, List.forall_mem_map, List.mem_singleton, forall_eq]
  case freq => exact isWord_freq _
  case start => exact instant _
  case interval =>
    split
    · simp
    · simpa using isWord_natural _
  case weekStart =>
    split
    · simp
    · simpa using isWord_weekday _
  case day => exact fun d _ => isWord_day d
  case finish | endsBefore => exact fun t _ => instant t
  case count | month | hour | minute | second => exact fun n _ => isWord_natural n
  case weekNumber | yearDay | monthDay | position => exact fun n _ => Token.isWord_toString n

/-! The parts that are written. -/

/-- The value written for a part, where it is not left out. -/
def given? (r : Rule) (p : Part) : Option (Part × String) :=
  if r.written p = [] then none else some (p, String.intercalate "," (r.written p))

/-- The parts that a rule text gives, with their values. -/
def given (r : Rule) (withStart : Bool) : List (Part × String) := (order withStart).filterMap r.given?

theorem lookup_filterMap_given? (r : Rule) (ps : List Part) (p : Part) :
    (ps.filterMap r.given?).lookup p =
      if p ∈ ps ∧ r.written p ≠ [] then some (String.intercalate "," (r.written p)) else none := by
  induction ps with
  | nil => simp
  | cons q ps ih =>
    by_cases none : r.written q = []
    · have other : r.written p ≠ [] → p ≠ q := by
        rintro some rfl
        exact some none
      rw [List.filterMap_cons_none (by rw [given?, if_pos none]), ih]
      grind
    · rw [List.filterMap_cons_some (by rw [given?, if_neg none]), List.lookup_cons, ih]
      by_cases same : p = q
      · subst same
        simp [none]
      · simp [same, beq_false_of_ne same]

theorem nodup_given (r : Rule) (withStart : Bool) : ((r.given withStart).map Prod.fst).Nodup := by
  have kept : (r.given withStart).map Prod.fst =
      (order withStart).filter (fun p => r.written p ≠ []) := by
    rw [given, List.map_filterMap, ← List.filterMap_eq_filter]
    congr
    funext p
    by_cases none : r.written p = [] <;> simp [given?, none, Option.guard]
  rw [kept]
  exact (nodup_order withStart).filter _

theorem exists_clauses (r : Rule) (ps : List Part) : ∃ clauses : List Clause,
    (∀ c ∈ clauses, c.IsPlain) ∧ List.Forall₂ Clause.Gives clauses (ps.filterMap r.given?) ∧
      (ps.flatMap (fun p => writtenList p (r.written p))).map String.toList =
        clauses.map Clause.chars := by
  induction ps with
  | nil => exact ⟨[], by simp, .nil, rfl⟩
  | cons p ps ih =>
    obtain ⟨clauses, plain, gives, chars⟩ := ih
    by_cases none : r.written p = []
    · refine ⟨clauses, plain, ?_, ?_⟩
      · simpa [given?, none] using gives
      · simpa [writtenList, none] using chars
    · refine ⟨⟨p.code, r.written p, none⟩ :: clauses, ?_, ?_, ?_⟩
      · exact List.forall_mem_cons.mpr ⟨⟨p.isWord_code, r.isWord_written p⟩, plain⟩
      · rw [List.filterMap_cons_some (by rw [given?, if_neg none])]
        exact .cons ⟨p.named_code, rfl⟩ gives
      · have text : (writtenPart p (String.intercalate "," (r.written p))).toList =
            Clause.chars ⟨p.code, r.written p, none⟩ := by
          simp [writtenPart, Clause.chars, String.toList_intercalate]
        have alone : writtenList p (r.written p) =
            [writtenPart p (String.intercalate "," (r.written p))] := by
          simp [writtenList, none]
        rw [List.flatMap_cons, alone, List.map_append, chars, List.map_singleton, text]
        rfl

/-- A rule text writes the parts that its rule gives. -/
theorem writes_text (r : Rule) (withStart : Bool) :
    Writes (String.intercalate ";" (r.writtenParts withStart)) (r.given withStart) := by
  obtain ⟨clauses, plain, gives, chars⟩ := r.exists_clauses (order withStart)
  have some : clauses ≠ [] := by
    rintro rfl
    have first : r.given? .freq = .some (.freq, r.freq.code) := by
      simp [given?, written, String.intercalate_singleton]
    rw [order, List.filterMap_cons_some first] at gives
    cases gives
  apply writes_clauses some plain gives (r.nodup_given withStart)
  rw [String.toList_intercalate, writtenParts_eq, chars]
  rfl

end Rule

end Almanac
