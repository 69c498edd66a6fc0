import Almanac.Proofs.Rule.Spelling
import Almanac.Rule.Parts
import Mathlib.Data.List.Forall2
import Mathlib.Data.List.Nodup

set_option autoImplicit false

/-!
The grammar of rule text, and that reading accepts exactly what it allows.

A rule text may have an opening. It goes on with clauses, of a name, an equals sign and one or more
values with commas between them; a semicolon stands between two clauses, and one more may stand after
the last. Every name is that of a part, and no part is given twice. Reading a text gives the parts
that it writes in this way, and refuses every other text for its form.
-/

namespace Almanac

namespace Part

/-- The part goes by a name: in lower case and without underscores and hyphens it is the part's own,
or `frequency`. -/
def Named (p : Part) (s : String) : Prop :=
  let key := (Text.lower s.toList).filter (fun c => c ≠ '_' ∧ c ≠ '-')
  key = p.name.toList ∨ p = .freq ∧ key = "frequency".toList

theorem find?_name_eq_some_iff {p : Part} {s : String} :
    all.find? (fun p => p.name = s) = some p ↔ p.name = s := by
  constructor
  · intro found
    simpa using List.find?_some found
  · rintro rfl
    cases p <;> rfl

theorem name_eq_freq_iff {p : Part} : p.name = "freq" ↔ p = .freq := by
  cases p <;> decide

theorem name_ne_frequency (p : Part) : "frequency".toList ≠ p.name.toList := by
  cases p <;> decide

theorem ofName?_eq_some_iff {p : Part} {s : String} : ofName? s = some p ↔ p.Named s := by
  unfold ofName? canonical Named
  generalize (Text.lower s.toList).filter (fun c => c ≠ '_' ∧ c ≠ '-') = key
  rw [find?_name_eq_some_iff]
  dsimp only
  split
  · rename_i other
    rw [other, name_eq_freq_iff]
    constructor
    · exact fun same => .inr ⟨same, rfl⟩
    · rintro (own | ⟨same, -⟩)
      · exact absurd own p.name_ne_frequency
      · exact same
  · rename_i plain
    constructor
    · intro same
      rw [same, String.toList_ofList]
      exact .inl rfl
    · rintro (own | ⟨-, other⟩)
      · rw [own, String.ofList_toList]
      · exact absurd other plain

/-- A colon stays where a name is taken to lower case without underscores and hyphens. -/
theorem colon_mem_key {s : String} (member : ':' ∈ s.toList) :
    ':' ∈ (Text.lower s.toList).filter (fun c => c ≠ '_' ∧ c ≠ '-') := by
  apply List.mem_filter.mpr ⟨_, by decide⟩
  have lower : Text.smallLetter ':' ∈ Text.lower s.toList :=
    Text.mem_lowerAfter member (by decide) (by decide)
  rw [Text.smallLetter_ascii (by decide)] at lower
  exact lower

/-- No name of a part has a colon in it. -/
theorem Named.plain {p : Part} {s : String} (named : p.Named s) : ':' ∉ s.toList := by
  intro member
  have kept := colon_mem_key member
  rcases named with own | ⟨-, other⟩
  · rw [own] at kept
    revert kept
    cases p <;> decide
  · rw [other] at kept
    revert kept
    decide

end Part

namespace Parts

/-- A part as it is written: its name and its values, of which there is at least one. -/
structure Clause where
  name : String
  values : List String
  some : values ≠ []

namespace Clause

/-- The name, an equals sign, and the values with commas between them. -/
def lexemes (c : Clause) : List Lexeme :=
  .word c.name :: .equals :: (c.values.map Lexeme.word).intersperse .comma

/-- The clause gives the part that goes by its name, and as its value the values joined by commas. -/
def Gives (c : Clause) (given : Part × String) : Prop :=
  given.1.Named c.name ∧ given.2 = String.intercalate "," c.values

end Clause

/-- The clauses one after another with a semicolon between them, and one more allowed after the
last. -/
inductive Lists : List Clause → List Lexeme → Prop where
  | last (c : Clause) : Lists [c] c.lexemes
  | closed (c : Clause) : Lists [c] (c.lexemes ++ [.semicolon])
  | more (c : Clause) {cs : List Clause} {ls : List Lexeme} (rest : Lists cs ls) :
      Lists (c :: cs) (c.lexemes ++ .semicolon :: ls)

variable {finish : Nat} {name : String} {ts rest : List Token} {ws : List String}
  {ls : List Lexeme} {seen parts : List (Part × String)}

theorem values_sound (read : values finish name ts = .ok (ws, rest)) :
    ws ≠ [] ∧ ts.map Token.lexeme =
      (ws.map Lexeme.word).intersperse .comma ++ rest.map Token.lexeme := by
  fun_induction values finish name ts generalizing ws rest with
  | case1 w span span' ts ih =>
    obtain ⟨⟨ws, rest'⟩, read, same⟩ := Except.map_eq_ok.mp read
    cases same
    obtain ⟨some, lexemes⟩ := ih read
    obtain ⟨v, ws, rfl⟩ := List.exists_cons_of_ne_nil some
    exact ⟨List.cons_ne_nil _ _, by simp [lexemes]⟩
  | case2 w span ts =>
    cases read
    exact ⟨List.cons_ne_nil _ _, by simp⟩
  | case3 => cases read

theorem values_last {w : String} {span : Span} (ends : (ts.map Token.lexeme).head? ≠ some .comma) :
    values finish name (⟨.word w, span⟩ :: ts) = .ok ([w], ts) := by
  match ts with
  | [] | ⟨.word _, _⟩ :: _ | ⟨.equals, _⟩ :: _ | ⟨.semicolon, _⟩ :: _ => rfl
  | ⟨.comma, _⟩ :: _ => exact absurd rfl ends

variable (finish name) in
theorem values_complete (some : ws ≠ [])
    (lexemes : ts.map Token.lexeme = (ws.map Lexeme.word).intersperse .comma ++ ls)
    (ends : ls.head? ≠ Option.some .comma) :
    ∃ rest, values finish name ts = .ok (ws, rest) ∧ rest.map Token.lexeme = ls := by
  induction ws generalizing ts with
  | nil => exact absurd rfl some
  | cons w ws ih =>
    cases ws with
    | nil =>
      obtain ⟨⟨_, span⟩, rest, rfl, rfl, rfl⟩ := List.map_eq_cons_iff.mp lexemes
      exact ⟨rest, values_last ends, rfl⟩
    | cons v ws =>
      simp only [List.map_cons, List.intersperse_cons_cons, List.cons_append] at lexemes
      obtain ⟨⟨_, span⟩, ts, rfl, rfl, lexemes'⟩ := List.map_eq_cons_iff.mp lexemes
      obtain ⟨⟨_, span'⟩, ts, rfl, rfl, lexemes''⟩ := List.map_eq_cons_iff.mp lexemes'
      obtain ⟨after, read, same⟩ := ih (List.cons_ne_nil _ _) lexemes''
      exact ⟨after, by rw [values, read]; rfl, same⟩

theorem nodup_grown {part : Part} (distinct : (seen.map Prod.fst).Nodup)
    (unseen : ¬(seen.any fun p => decide (p.fst = part)) = true) (value : String) :
    ((seen ++ [(part, value)]).map Prod.fst).Nodup := by
  simp only [List.any_eq_true, decide_eq_true_eq, not_exists, not_and] at unseen
  rw [List.map_append, List.map_singleton, List.nodup_append]
  refine ⟨distinct, List.nodup_singleton _, ?_⟩
  simpa using fun p v member same => unseen (p, v) member same

/-- The parts that clauses give are added to those seen before, and no part is given twice. -/
theorem read_sound (distinct : (seen.map Prod.fst).Nodup) (read : read finish seen ts = .ok parts) :
    ∃ clauses new, (ts = [] ∧ clauses = [] ∨ Lists clauses (ts.map Token.lexeme)) ∧
      List.Forall₂ Clause.Gives clauses new ∧ parts = seen ++ new ∧ (parts.map Prod.fst).Nodup := by
  fun_induction Parts.read finish seen ts with
  | case1 seen =>
    cases read
    exact ⟨[], [], .inl ⟨rfl, rfl⟩, .nil, (List.append_nil _).symm, distinct⟩
  | case5 seen name _ part named unseen _ rest ws grown _ given =>
    injection read with read
    obtain ⟨some, lexemes⟩ := values_sound given
    refine ⟨[⟨name, ws, some⟩], [(part, String.intercalate "," ws)], .inr ?_, ?_, read.symm, ?_⟩
    · rw [List.map_cons, List.map_cons, lexemes, List.map_nil, List.append_nil]
      exact .last _
    · exact .cons ⟨Part.ofName?_eq_some_iff.mp named, rfl⟩ .nil
    · rw [← read]
      exact nodup_grown distinct unseen _
  | case6 seen name _ part named unseen _ rest ws grown _ after _ given ih =>
    obtain ⟨some, lexemes⟩ := values_sound given
    obtain ⟨clauses, new, listed, gives, same, distinct⟩ := ih (nodup_grown distinct unseen _) read
    have gives : List.Forall₂ Clause.Gives (⟨name, ws, some⟩ :: clauses)
        ((part, String.intercalate "," ws) :: new) :=
      .cons ⟨Part.ofName?_eq_some_iff.mp named, rfl⟩ gives
    refine ⟨_, _, .inr ?_, gives, ?_, distinct⟩
    · rw [List.map_cons, List.map_cons, lexemes, List.map_cons]
      rcases listed with ⟨rfl, rfl⟩ | listed
      · exact .closed _
      · exact .more _ listed
    · rw [same, List.append_assoc]
      rfl
  | case2 | case3 | case4 | case7 | case8 | case9 => cases read

variable (finish) in
/-- A clause at the head of the tokens is read, and then what stands behind its semicolon. -/
theorem read_clause {c : Clause} {given : Part × String} (gives : c.Gives given)
    (unseen : given.1 ∉ seen.map Prod.fst) (lexemes : ts.map Token.lexeme = c.lexemes ++ ls)
    (ends : ls.head? ≠ some .comma) :
    ∃ after : List Token, after.map Token.lexeme = ls ∧ read finish seen ts = match after with
      | [] => .ok (seen ++ [given])
      | ⟨.semicolon, _⟩ :: after => read finish (seen ++ [given]) after
      | t :: _ => .error ⟨.expectedSeparator, t.span⟩ := by
  obtain ⟨part, value⟩ := given
  obtain ⟨named, joined⟩ := gives
  obtain ⟨⟨_, span⟩, ts, rfl, rfl, lexemes'⟩ := List.map_eq_cons_iff.mp lexemes
  obtain ⟨⟨_, span'⟩, ts, rfl, rfl, lexemes''⟩ := List.map_eq_cons_iff.mp lexemes'
  obtain ⟨after, values, same⟩ :=
    values_complete finish c.name c.some lexemes'' ends
  refine ⟨after, same, ?_⟩
  have fresh : (seen.any fun p => decide (p.1 = part)) = false := by
    simpa using fun p v member same => unseen (List.mem_map.mpr ⟨(p, v), member, same⟩)
  rw [read]
  simp only [Part.ofName?_eq_some_iff.mpr named, fresh, Bool.false_eq_true, if_false]
  split
  · rename_i failed
    cases values.symm.trans failed
  · rename_i read
    cases values.symm.trans read
    have joined : value = String.intercalate "," c.values := joined
    rw [← joined]
    cases after with
    | nil => rfl
    | cons t after =>
      obtain ⟨lexeme, span⟩ := t
      cases lexeme <;> rfl

/-- Nothing of what is added was seen before. -/
theorem unseen_of_nodup {given : Part × String} {new : List (Part × String)}
    (distinct : ((seen ++ given :: new).map Prod.fst).Nodup) : given.1 ∉ seen.map Prod.fst := by
  rw [List.map_append, List.nodup_append] at distinct
  exact fun member => distinct.2.2 _ member _ List.mem_cons_self rfl

theorem read_complete {clauses : List Clause} {new : List (Part × String)}
    (listed : Lists clauses (ts.map Token.lexeme)) (gives : List.Forall₂ Clause.Gives clauses new)
    (distinct : ((seen ++ new).map Prod.fst).Nodup) :
    read finish seen ts = .ok (seen ++ new) := by
  generalize hls : ts.map Token.lexeme = ls at listed
  induction listed generalizing ts seen new with
  | last c =>
    obtain ⟨given, _, gave, nothing, rfl⟩ := List.forall₂_cons_left_iff.mp gives
    cases nothing
    rw [← List.append_nil c.lexemes] at hls
    obtain ⟨after, same, read⟩ :=
      read_clause finish gave (unseen_of_nodup distinct) hls (by simp)
    rw [List.map_eq_nil_iff.mp same] at read
    exact read
  | closed c =>
    obtain ⟨given, _, gave, nothing, rfl⟩ := List.forall₂_cons_left_iff.mp gives
    cases nothing
    obtain ⟨after, same, clause⟩ :=
      read_clause finish gave (unseen_of_nodup distinct) hls (by simp)
    obtain ⟨⟨_, span⟩, after, rfl, rfl, nothing⟩ := List.map_eq_cons_iff.mp same
    rw [clause, List.map_eq_nil_iff.mp nothing]
    exact Parts.read.eq_1 _ _
  | more c rest ih =>
    obtain ⟨given, new, gave, others, rfl⟩ := List.forall₂_cons_left_iff.mp gives
    obtain ⟨after, same, clause⟩ :=
      read_clause finish gave (unseen_of_nodup distinct) hls (by simp)
    obtain ⟨⟨_, span⟩, after, rfl, rfl, same'⟩ := List.map_eq_cons_iff.mp same
    rw [List.append_cons] at distinct ⊢
    rw [clause]
    exact ih others distinct same'

/-- The text writes the parts: behind its opening, if it has one, it spells clauses that give them,
and no part is given twice. -/
def Writes (s : String) (parts : List (Part × String)) : Prop :=
  ∃ body lexemes clauses, Token.Opens s.toList body ∧ Token.Spells lexemes body ∧
    Lists clauses lexemes ∧ List.Forall₂ Clause.Gives clauses parts ∧ (parts.map Prod.fst).Nodup

theorem Lists.head {clauses : List Clause} (listed : Lists clauses ls) :
    ∃ c cs more, clauses = c :: cs ∧ ls = .word c.name :: more := by
  cases listed with
  | last c | closed c | more c => exact ⟨c, _, _, rfl, rfl⟩

theorem ofTokens_eq_ok_iff : ofTokens ts = .ok parts ↔
    ∃ clauses, Lists clauses (ts.map Token.lexeme) ∧ List.Forall₂ Clause.Gives clauses parts ∧
      (parts.map Prod.fst).Nodup := by
  cases last : ts.getLast? with
  | none =>
    simp only [ofTokens, last]
    apply iff_of_false nofun
    rintro ⟨clauses, listed, -⟩
    obtain ⟨c, cs, more, -, lexemes⟩ := listed.head
    rw [List.getLast?_eq_none_iff.mp last] at lexemes
    cases lexemes
  | some t =>
    simp only [ofTokens, last]
    constructor
    · intro read
      have unseen : (([] : List (Part × String)).map Prod.fst).Nodup := List.nodup_nil
      obtain ⟨clauses, new, ⟨rfl, -⟩ | listed, gives, rfl, distinct⟩ := read_sound unseen read
      · cases last
      · exact ⟨clauses, listed, gives, distinct⟩
    · rintro ⟨clauses, listed, gives, distinct⟩
      exact read_complete listed gives distinct

/-- Reading a text gives the parts that its tokens make, or refuses it for its form. -/
theorem ofText_cases (s : String) :
    (∃ ts parts, Token.ofChars s.toList = .ok ts ∧ ofTokens ts = .ok parts ∧
        ofText s = .ok parts) ∨
      (∃ fault span, ofText s = .error (.text fault span s)) ∧
        ∀ ts parts, Token.ofChars s.toList = .ok ts → ofTokens ts ≠ .ok parts := by
  unfold ofText Token.ofText
  cases scanned : Token.ofChars s.toList with
  | error stray => exact .inr ⟨⟨_, _, rfl⟩, nofun⟩
  | ok ts =>
    cases read : ofTokens ts with
    | error fault =>
      refine .inr ⟨⟨fault.fault, fault.span, by simp [bind, Except.bind, read]⟩, ?_⟩
      rintro _ parts ⟨⟩
      rw [read]
      nofun
    | ok parts => exact .inl ⟨ts, parts, rfl, read, by simp [bind, Except.bind, read]⟩

theorem ofText_eq_ok_iff {s : String} : ofText s = .ok parts ↔ Writes s parts := by
  constructor
  · intro given
    rcases ofText_cases s with ⟨ts, parts', scanned, read, given'⟩ | ⟨⟨fault, span, failed⟩, -⟩
    · cases given.symm.trans given'
      obtain ⟨clauses, listed, gives, distinct⟩ := ofTokens_eq_ok_iff.mp read
      obtain ⟨body, opens, spells⟩ := Token.opens_of_afterOpening (Token.spells_of_scan scanned)
      exact ⟨body, _, clauses, opens, spells, listed, gives, distinct⟩
    · cases given.symm.trans failed
  · rintro ⟨body, lexemes, clauses, opens, spells, listed, gives, distinct⟩
    obtain ⟨c, cs, more, rfl, rfl⟩ := listed.head
    obtain ⟨given, _, gave, -, -⟩ := List.forall₂_cons_left_iff.mp gives
    have spelled := Token.spells_afterOpening opens spells gave.1.plain
    obtain ⟨ts, scanned, same⟩ :=
      Token.scan_of_spells (n := (Token.afterOpening s.toList).1) spelled
    rw [← same] at listed
    have read := ofTokens_eq_ok_iff.mpr ⟨_, listed, gives, distinct⟩
    rcases ofText_cases s with ⟨ts', parts', scanned', read', given'⟩ | ⟨-, none⟩
    · cases scanned.symm.trans scanned'
      cases read.symm.trans read'
      exact given'
    · exact absurd read (none ts parts scanned)

/-- Reading a rule text gives the parts that it writes, and refuses for its form a text that writes
none. -/
theorem reads_what_is_written (s : String) :
    (∀ parts, ofText s = .ok parts ↔ Writes s parts) ∧
      ∀ e, ofText s = .error e → e.kind = .form := by
  refine ⟨fun parts => ofText_eq_ok_iff, ?_⟩
  intro e failed
  rcases ofText_cases s with ⟨ts, parts, -, -, given⟩ | ⟨⟨fault, span, failed'⟩, -⟩
  · cases failed.symm.trans given
  · cases failed.symm.trans failed'
    rfl

end Parts

end Almanac
