import Almanac.Proofs.Rule.WellFormed

set_option autoImplicit false

/-!
Rule text and mappings agree, and the order of their parts does not matter.

Parts with known names, no two of one name, and words for values can be given as text, clause by
clause, or as a mapping from the names to the values. Either way the same values are given to the
same parts, so either way the same rule or the same error comes out, in whatever order the parts
stand. Of the value of a list only the set of its items counts for the rule.
-/

namespace Almanac

namespace Part

/-! Known names are words. -/

/-- Only word characters have a word character of ASCII as their small letter. -/
theorem isWordChar_of_smallLetter {c : Char} (ascii : (Text.smallLetter c).toNat < 128)
    (inside : Token.isWordChar (Text.smallLetter c) = true) : Token.isWordChar c = true := by
  rcases Nat.lt_or_ge c.toNat 128 with low | beyond
  · rw [Text.smallLetter_ascii low] at inside
    revert inside
    apply Text.forall_ascii
      (P := fun c => Token.isWordChar c.toLower = true → Token.isWordChar c = true) _ low
    decide +kernel
  · rcases Text.smallLetter_beyond_ascii beyond with ⟨rfl, -⟩ | far | null
    · decide +kernel
    · omega
    · have zero : Text.smallLetter c = Char.ofNat 0 := by
        rw [← Char.ofNat_toNat (Text.smallLetter c), null]
      rw [zero] at inside
      cases inside

/-- The characters that may stand in the lower case of a name. -/
theorem Named.mem_lower {p : Part} {s : String} (named : p.Named s) {c : Char}
    (member : c ∈ Text.lower s.toList) : c.toNat < 128 ∧ Token.isWordChar c = true := by
  by_cases mark : c = '_' ∨ c = '-'
  · rcases mark with rfl | rfl <;> decide
  · rw [not_or] at mark
    have kept : c ∈ (Text.lower s.toList).filter (fun c => c ≠ '_' ∧ c ≠ '-') :=
      List.mem_filter.mpr ⟨member, by simpa using mark⟩
    have table : ∀ p : Part, p.name.toList.all (fun c => c.toNat < 128 && Token.isWordChar c) := by
      intro p
      cases p <;> decide +kernel
    have frequency :
        "frequency".toList.all (fun c => c.toNat < 128 && Token.isWordChar c) := by
      decide +kernel
    simp only [List.all_eq_true, Bool.and_eq_true, decide_eq_true_eq] at table frequency
    rcases named with own | ⟨-, other⟩
    · exact table p c (own ▸ kept)
    · exact frequency c (other ▸ kept)

theorem Named.isWord {p : Part} {s : String} (named : p.Named s) : Token.IsWord s.toList := by
  constructor
  · intro none
    rcases named with own | ⟨-, other⟩
    · rw [none] at own
      revert own
      cases p <;> decide +kernel
    · rw [none] at other
      revert other
      decide +kernel
  · intro c member
    by_cases special : c = 'Σ' ∨ c = 'İ'
    · rcases special with rfl | rfl <;> decide +kernel
    · rw [not_or] at special
      have small : Text.smallLetter c ∈ Text.lower s.toList :=
        Text.mem_lowerAfter member special.1 special.2
      obtain ⟨ascii, inside⟩ := named.mem_lower small
      exact isWordChar_of_smallLetter ascii inside

end Part

/-! The order of the parts. -/

section Lookup

variable {κ β : Type} [BEq κ] [LawfulBEq κ] {l l' : List (κ × β)} {k : κ}

theorem lookup_eq_some_iff_mem (distinct : (l.map Prod.fst).Nodup) {b : β} :
    l.lookup k = some b ↔ (k, b) ∈ l := by
  rw [List.lookup_eq_some_iff]
  constructor
  · rintro ⟨before, after, rfl, -⟩
    exact List.mem_append_right before List.mem_cons_self
  · intro member
    obtain ⟨before, after, rfl⟩ := List.append_of_mem member
    rw [List.map_append, List.nodup_append] at distinct
    refine ⟨before, after, rfl, fun e among => ?_⟩
    rw [bne_iff_ne]
    exact fun same => distinct.2.2 e.1 (List.mem_map_of_mem among) k List.mem_cons_self same.symm

theorem lookup_eq_of_perm (perm : l.Perm l') (distinct : (l.map Prod.fst).Nodup) :
    l.lookup k = l'.lookup k := by
  have distinct' : (l'.map Prod.fst).Nodup := (perm.map Prod.fst).nodup_iff.mp distinct
  ext b
  rw [lookup_eq_some_iff_mem distinct, lookup_eq_some_iff_mem distinct', perm.mem_iff]

/-- Lists with the same keys in the same order are looked up alike. -/
theorem lookup_of_forall₂ {related : κ → β → β → Prop}
    (alike : List.Forall₂ (fun e e' => e.1 = e'.1 ∧ related e.1 e.2 e'.2) l l') (k : κ) :
    l.lookup k = none ∧ l'.lookup k = none ∨
      ∃ b b', l.lookup k = some b ∧ l'.lookup k = some b' ∧ related k b b' := by
  induction alike with
  | nil => exact .inl ⟨rfl, rfl⟩
  | @cons e e' l l' first rest ih =>
    obtain ⟨same, related⟩ := first
    rw [List.lookup_cons, List.lookup_cons, ← same]
    cases found : k == e.1 with
    | true =>
      obtain rfl := eq_of_beq found
      exact .inr ⟨_, _, rfl, rfl, related⟩
    | false => exact ih

end Lookup

/-- A rule depends only on which value is given to which part. -/
theorem Rule.ofParams_congr {ps qs : Params} (same : ∀ p, ps.lookup p = qs.lookup p) (now : Stamp) :
    ofParams ps now = ofParams qs now := by
  have get : ps.get? = qs.get? := funext fun p => by rw [Params.get?, Params.get?, same]
  simp only [ofParams, Params.naturals, Params.numbers, Params.read, get, same]

/-! The items of the lists. -/

instance : Std.Irrefl Value.DayBefore := ⟨fun _ before => before.asymm before⟩

instance : Std.Antisymm Value.DayBefore := ⟨fun _ _ before after => absurd after before.asymm⟩

/-- A list is settled by the set of its items. -/
theorem Value.Collects.eq_of_mem_iff {α : Type} {reads : List Char → α → Prop}
    {before : α → α → Prop} [Std.Antisymm before] [Std.Irrefl before] {ws ws' : List (List Char)}
    {as as' : List α} (collects : Collects reads before ws as)
    (collects' : Collects reads before ws' as') (same : ∀ w, w ∈ ws ↔ w ∈ ws') : as = as' := by
  apply collects.sorted.eq_of_mem_iff collects'.sorted
  intro a
  simp only [collects.mem_iff, collects'.mem_iff, same]

namespace Part

/-- The value of the part is a list of items. -/
def IsList (p : Part) : Prop := p ∈ Parts.listed ∨ p = .day

instance (p : Part) : Decidable p.IsList :=
  inferInstanceAs (Decidable (p ∈ Parts.listed ∨ p = .day))

end Part

namespace Parts

variable {parts parts' : List (Part × String)} {p : Part}

/-- The two give the same values to the parts that hold no lists, and the same items to all. -/
structure SameItems (parts parts' : List (Part × String)) : Prop where
  single : ∀ p : Part, ¬ p.IsList → parts.lookup p = parts'.lookup p
  items : ∀ p w, w ∈ itemsOf parts p ↔ w ∈ itemsOf parts' p

namespace SameItems

theorem symm (same : SameItems parts parts') : SameItems parts' parts where
  single p other := (same.single p other).symm
  items p w := (same.items p w).symm

variable (same : SameItems parts parts')
include same

theorem read {α : Type} {f : Value → Except SpecError α} (single : ¬ p.IsList) :
    (params parts).read p f = (params parts').read p f := by
  rw [read_params, read_params, same.single p single]

variable (values : ∀ p v, parts.lookup p = some v → IsValue v)
  (values' : ∀ p v, parts'.lookup p = some v → IsValue v)
include values values'

theorem numbers {ns : List Int} (read : (params parts).numbers p = .ok ns) :
    (params parts').numbers p = .ok ns := by
  have every := (exists_numbers_iff values).mp ⟨ns, read⟩
  obtain ⟨ms, read'⟩ := (exists_numbers_iff (p := p) values').mpr
    fun w member => every w ((same.items p w).mpr member)
  have eq := (numbers_collects values read).eq_of_mem_iff (numbers_collects values' read')
    (same.items p)
  rw [eq, read']

theorem naturals {ns : List Nat} (read : (params parts).naturals p = .ok ns) :
    (params parts').naturals p = .ok ns := by
  simp only [Params.naturals, Except.bind_eq_ok, pure, Except.pure, Except.ok.injEq] at read ⊢
  obtain ⟨ms, read, rfl⟩ := read
  exact ⟨ms, same.numbers values values' read, rfl⟩

theorem days {given : Option (List DayPattern)}
    (read : (params parts).read .day Value.patterns = .ok given) :
    ∃ given', (params parts').read .day Value.patterns = .ok given' ∧
      given.getD [] = given'.getD [] := by
  have every := (exists_patterns_iff values).mp ⟨given, read⟩
  obtain ⟨given', read'⟩ := (exists_patterns_iff values').mpr
    fun w member => every w ((same.items .day w).mpr member)
  exact ⟨given', read', (patterns_collects values read).eq_of_mem_iff
    (patterns_collects values' read') (same.items .day)⟩

/-- A rule that is read is also read from the same items in another order. -/
theorem readFrom {r : Rule} {now : Stamp} (read : r.ReadFrom (params parts) now) :
    r.ReadFrom (params parts') now where
  freq := by
    have given := read.freq
    rwa [lookup_params, same.single .freq (by decide), ← lookup_params] at given
  interval := same.read (p := .interval) (by decide) ▸ read.interval
  oneBound := by
    have one := read.oneBound
    rwa [get?_params, get?_params, same.single .count (by decide), same.single .finish (by decide),
      ← get?_params, ← get?_params] at one
  start := same.read (p := .start) (by decide) ▸ read.start
  count := same.read (p := .count) (by decide) ▸ read.count
  finish := same.read (p := .finish) (by decide) ▸ read.finish
  endsBefore := same.read (p := .endsBefore) (by decide) ▸ read.endsBefore
  weekStart := same.read (p := .weekStart) (by decide) ▸ read.weekStart
  days := by
    obtain ⟨given, days, eq⟩ := read.days
    obtain ⟨given', days', eq'⟩ := same.days values values' days
    exact ⟨given', days', eq.trans eq'⟩
  seconds := same.naturals values values' read.seconds
  minutes := same.naturals values values' read.minutes
  hours := same.naturals values values' read.hours
  monthDays := same.numbers values values' read.monthDays
  yearDays := same.numbers values values' read.yearDays
  weekNumbers := same.numbers values values' read.weekNumbers
  months := same.naturals values values' read.months
  positions := same.numbers values values' read.positions
  noConflict := read.noConflict

end SameItems

/-! Parts as they are given. -/

namespace Clause

/-- The items with commas between them. -/
def value (c : Clause) : String := String.intercalate "," c.values

def text (c : Clause) : String := c.name ++ "=" ++ c.value

/-- The part of the name, and its value. -/
def given? (c : Clause) : Option (Part × String) := (Part.ofName? c.name).map fun p => (p, c.value)

/-- The clauses give one part the same value or, where it is a list, the same items in any order
and any number of times. -/
def Alike (c c' : Clause) : Prop :=
  c.name = c'.name ∧ (c.values = c'.values ∨
    (∃ p, Part.ofName? c.name = Option.some p ∧ p.IsList) ∧ ∀ w, w ∈ c.values ↔ w ∈ c'.values)

end Clause

/-- There are parts, all with known names and no two of one name, and their items are words. -/
structure AreGiven (clauses : List Clause) : Prop where
  some : clauses ≠ []
  known : ∀ c ∈ clauses, (Part.ofName? c.name).isSome
  distinct : (clauses.map fun c => Part.canonical c.name).Nodup
  words : ∀ c ∈ clauses, ∀ w ∈ c.values, Token.IsWord w.toList

/-- The values that clauses give to parts. -/
def givenBy (clauses : List Clause) : List (Part × String) := clauses.filterMap Clause.given?

theorem gives_givenBy {clauses : List Clause}
    (known : ∀ c ∈ clauses, (Part.ofName? c.name).isSome) :
    List.Forall₂ Clause.Gives clauses (givenBy clauses) := by
  induction clauses with
  | nil => exact .nil
  | cons c clauses ih =>
    obtain ⟨first, known⟩ := List.forall_mem_cons.mp known
    obtain ⟨p, named⟩ := Option.isSome_iff_exists.mp first
    rw [givenBy, List.filterMap_cons_some (by rw [Clause.given?, named]; rfl)]
    exact .cons ⟨Part.ofName?_eq_some_iff.mp named, rfl⟩ (ih known)

namespace AreGiven

variable {clauses clauses' : List Clause} (given : AreGiven clauses)
include given

theorem of_perm (perm : clauses'.Perm clauses) : AreGiven clauses' where
  some none := given.some (List.nil_perm.mp (none ▸ perm))
  known c member := given.known c (perm.subset member)
  distinct := (perm.map _).nodup_iff.mpr given.distinct
  words c member := given.words c (perm.subset member)

/-- No part is given twice. -/
theorem nodup : ((givenBy clauses).map Prod.fst).Nodup := by
  have canonical : ∀ {s : String} {p : Part}, Part.ofName? s = .some p → Part.canonical s = p.name := by
    intro s p named
    exact (Part.find?_name_eq_some_iff.mp named).symm
  have apart := given.distinct
  rw [List.Nodup, List.pairwise_map] at apart
  rw [givenBy, List.Nodup, List.pairwise_map, List.pairwise_filterMap]
  apply apart.imp
  intro c c' other e hc e' hc' same
  obtain ⟨p, named, rfl⟩ := Option.map_eq_some_iff.mp hc
  obtain ⟨p', named', rfl⟩ := Option.map_eq_some_iff.mp hc'
  obtain rfl : p = p' := same
  exact other ((canonical named).trans (canonical named').symm)

theorem plain {c : Clause} (member : c ∈ clauses) : c.IsPlain where
  name := by
    obtain ⟨p, named⟩ := Option.isSome_iff_exists.mp (given.known c member)
    exact (Part.ofName?_eq_some_iff.mp named).isWord
  values := given.words c member

theorem writes : Writes (String.intercalate ";" (clauses.map Clause.text)) (givenBy clauses) := by
  apply writes_clauses given.some (fun c => given.plain) (gives_givenBy given.known) given.nodup
  have chars : ∀ c : Clause, c.text.toList = c.chars := fun c => by
    simp [Clause.text, Clause.chars, Clause.value, String.toList_intercalate]
  simp [String.toList_intercalate, Function.comp_def, chars]

theorem values (p : Part) (v : String) (found : (givenBy clauses).lookup p = .some v) :
    IsValue v := given.writes.values p v found

end AreGiven

/-! Parts that are given alike. -/

/-- The values are one or, for a list, have the same items. -/
def ValuesAlike (p : Part) (v v' : String) : Prop :=
  v = v' ∨ p.IsList ∧ ∀ w, w ∈ items v ↔ w ∈ items v'

section Alike

variable {clauses clauses' : List Clause} (alike : List.Forall₂ Clause.Alike clauses clauses')
include alike

theorem names_of_alike :
    clauses.map (fun c => Part.canonical c.name) = clauses'.map fun c => Part.canonical c.name := by
  induction alike with
  | nil => rfl
  | cons first rest ih => rw [List.map_cons, List.map_cons, ih, first.1]

theorem AreGiven.of_alike (given : AreGiven clauses) : AreGiven clauses' where
  some := by
    rintro rfl
    exact given.some (List.forall₂_nil_right_iff.mp alike)
  known c' member := by
    obtain ⟨c, inside, same, -⟩ := exists_mem_of_forall₂ alike member
    exact same ▸ given.known c inside
  distinct := names_of_alike alike ▸ given.distinct
  words c' member w item := by
    obtain ⟨c, inside, -, same | ⟨-, same⟩⟩ := exists_mem_of_forall₂ alike member
    · exact given.words c inside w (same ▸ item)
    · exact given.words c inside w ((same w).mpr item)

theorem givenBy_alike (given : AreGiven clauses) :
    List.Forall₂ (fun e e' => e.1 = e'.1 ∧ ValuesAlike e.1 e.2 e'.2)
      (givenBy clauses) (givenBy clauses') := by
  have known := given.known
  have words := given.words
  have words' := (given.of_alike alike).words
  clear given
  induction alike with
  | nil => exact .nil
  | @cons c c' clauses clauses' first rest ih =>
    obtain ⟨known, others⟩ := List.forall_mem_cons.mp known
    obtain ⟨words, otherWords⟩ := List.forall_mem_cons.mp words
    obtain ⟨words', otherWords'⟩ := List.forall_mem_cons.mp words'
    obtain ⟨p, named⟩ := Option.isSome_iff_exists.mp known
    obtain ⟨name, values⟩ := first
    rw [givenBy, givenBy, List.filterMap_cons_some (by rw [Clause.given?, named]; rfl),
      List.filterMap_cons_some (by rw [Clause.given?, ← name, named]; rfl)]
    refine .cons ⟨rfl, ?_⟩ (ih others otherWords otherWords')
    rcases values with same | ⟨⟨q, named', list⟩, same⟩
    · left
      rw [Clause.value, Clause.value, same]
    · right
      obtain rfl := Option.some.inj (named.symm.trans named')
      refine ⟨list, fun w => ?_⟩
      simp only [Clause.value, items_joined c.some words, items_joined c'.some words', List.mem_map,
        same]

theorem sameItems (given : AreGiven clauses) : SameItems (givenBy clauses) (givenBy clauses') where
  single p other := by
    rcases lookup_of_forall₂ (givenBy_alike alike given) p with
      ⟨none, none'⟩ | ⟨v, v', found, found', same | ⟨list, -⟩⟩
    · rw [none, none']
    · rw [found, found', same]
    · exact absurd list other
  items p w := by
    unfold itemsOf
    rcases lookup_of_forall₂ (givenBy_alike alike given) p with
      ⟨none, none'⟩ | ⟨v, v', found, found', same | ⟨-, same⟩⟩
    · rw [none, none']
    · rw [found, found', same]
    · rw [found, found']
      exact same w

end Alike

end Parts

namespace Spec

open Parts

/-- Parts as text, clause by clause. -/
def textOf (clauses : List Clause) : Spec := text (String.intercalate ";" (clauses.map Clause.text))

/-- Parts as a mapping from their names to the texts of their values. -/
def mapOf (clauses : List Clause) : Spec := map (clauses.map fun c => (c.name, .text c.value))

theorem paramsOf_clauses {seen : Params} {clauses : List Clause}
    (known : ∀ c ∈ clauses, (Part.ofName? c.name).isSome)
    (distinct : (seen.map Prod.fst ++ (givenBy clauses).map Prod.fst).Nodup) :
    paramsOf seen (clauses.map fun c => (c.name, .text c.value)) =
      .ok (seen ++ Parts.params (givenBy clauses)) := by
  induction clauses generalizing seen with
  | nil => simp [paramsOf, givenBy, Parts.params]
  | cons c clauses ih =>
    obtain ⟨first, known⟩ := List.forall_mem_cons.mp known
    obtain ⟨p, named⟩ := Option.isSome_iff_exists.mp first
    have given : givenBy (c :: clauses) = (p, c.value) :: givenBy clauses :=
      List.filterMap_cons_some (by rw [Clause.given?, named]; rfl)
    rw [given, List.map_cons] at distinct
    have unseen : (seen.any fun e => e.1 = p) = false := by
      rw [List.nodup_append] at distinct
      simpa using fun q v member same =>
        distinct.2.2 q (List.mem_map.mpr ⟨(q, v), member, rfl⟩) p List.mem_cons_self same
    rw [List.map_cons, paramsOf, named, given]
    simp only [unseen, Bool.false_eq_true, if_false]
    rw [ih known (by simpa using distinct)]
    simp [Parts.params]

section Agreement

variable {clauses clauses' : List Clause}

theorem params_textOf (given : AreGiven clauses) :
    (textOf clauses).params = .ok (Parts.params (givenBy clauses)) :=
  params_text.mpr ⟨_, given.writes, rfl⟩

theorem params_mapOf (given : AreGiven clauses) :
    (mapOf clauses).params = .ok (Parts.params (givenBy clauses)) :=
  paramsOf_clauses given.known (by simpa using given.nodup)

theorem rule_of_params {spec : Spec} {ps : Params} (params : spec.params = .ok ps) (now : Stamp) :
    spec.rule now = Rule.ofParams ps now := by
  rw [rule, params]
  rfl

theorem rule_textOf (given : AreGiven clauses) (now : Stamp) :
    (textOf clauses).rule now = Rule.ofParams (Parts.params (givenBy clauses)) now :=
  rule_of_params (params_textOf given) now

theorem rule_mapOf (given : AreGiven clauses) (now : Stamp) :
    (mapOf clauses).rule now = Rule.ofParams (Parts.params (givenBy clauses)) now :=
  rule_of_params (params_mapOf given) now

theorem ofParams_of_perm (given : AreGiven clauses) (perm : clauses'.Perm clauses) (now : Stamp) :
    Rule.ofParams (Parts.params (givenBy clauses')) now =
      Rule.ofParams (Parts.params (givenBy clauses)) now := by
  apply Rule.ofParams_congr
  intro p
  have same : (givenBy clauses').lookup p = (givenBy clauses).lookup p :=
    lookup_eq_of_perm (perm.filterMap _) (given.of_perm perm).nodup
  rw [lookup_params, lookup_params, same]

theorem ofParams_of_alike (given : AreGiven clauses)
    (alike : List.Forall₂ Clause.Alike clauses clauses') (now : Stamp) (r : Rule) :
    Rule.ofParams (Parts.params (givenBy clauses')) now = .ok r ↔
      Rule.ofParams (Parts.params (givenBy clauses)) now = .ok r := by
  have same := sameItems alike given
  have given' := given.of_alike alike
  rw [Rule.ofParams_eq_ok_iff, Rule.ofParams_eq_ok_iff]
  exact ⟨same.symm.readFrom given'.values given.values, same.readFrom given.values given'.values⟩

/-- Parts that are given as text and the same parts given as a mapping, in whatever order, give one
rule or fail with one error. Where the items of the lists are given in another order or more than
once, the same rule is given, or none again. -/
theorem text_agrees_with_mapping (given : AreGiven clauses) :
    (∀ clauses', clauses'.Perm clauses → ∀ now,
      (textOf clauses').rule now = (mapOf clauses).rule now ∧
      (mapOf clauses').rule now = (mapOf clauses).rule now) ∧
    ∀ clauses', List.Forall₂ Clause.Alike clauses clauses' → ∀ now r,
      ((textOf clauses').rule now = .ok r ↔ (textOf clauses).rule now = .ok r) ∧
      ((mapOf clauses').rule now = .ok r ↔ (mapOf clauses).rule now = .ok r) := by
  constructor
  · intro clauses' perm now
    have given' := given.of_perm perm
    rw [rule_textOf given', rule_mapOf given', rule_mapOf given, ofParams_of_perm given perm]
    exact ⟨rfl, rfl⟩
  · intro clauses' alike now r
    have given' := given.of_alike alike
    rw [rule_textOf given', rule_mapOf given', rule_textOf given, rule_mapOf given]
    exact ⟨ofParams_of_alike given alike now r, ofParams_of_alike given alike now r⟩

end Agreement

/-- Every other month on Fridays and on the second Monday. -/
def fridays : List Clause :=
  [⟨"freq", ["monthly"], by decide⟩, ⟨"BY_DAY", ["2MO", "fr"], by decide⟩,
    ⟨"Interval", ["2"], by decide⟩]

/-- The same with the items for days in another order, one of them twice. -/
def fridaysTwice : List Clause :=
  [⟨"freq", ["monthly"], by decide⟩, ⟨"BY_DAY", ["fr", "2MO", "fr"], by decide⟩,
    ⟨"Interval", ["2"], by decide⟩]

instance (w : List Char) : Decidable (Token.IsWord w) :=
  decidable_of_iff (w ≠ [] ∧ w.all Token.isWordChar = true)
    ⟨fun word => ⟨word.1, List.all_eq_true.mp word.2⟩,
      fun word => ⟨word.nonempty, List.all_eq_true.mpr word.run⟩⟩

theorem areGiven_fridays : AreGiven fridays where
  some := by decide
  known := by decide +kernel
  distinct := by decide +kernel
  words := by decide +kernel

theorem alike_fridays : List.Forall₂ Clause.Alike fridays fridaysTwice := by
  have items : ∀ w, w ∈ ["2MO", "fr"] ↔ w ∈ ["fr", "2MO", "fr"] := by
    intro w
    simp only [List.mem_cons, List.not_mem_nil, or_false]
    tauto
  exact .cons ⟨rfl, .inl rfl⟩ (.cons ⟨rfl, .inr ⟨⟨.day, by decide +kernel, by decide⟩, items⟩⟩
    (.cons ⟨rfl, .inl rfl⟩ .nil))

/-- Text in another order, a mapping, and text with an item twice give one rule. -/
theorem text_agrees_fridays : ∃ r, (mapOf fridays).rule everyOtherMonth.start = .ok r ∧
    (text "Interval=2;BY_DAY=2MO,fr;freq=monthly").rule everyOtherMonth.start = .ok r ∧
    (text "freq=monthly;BY_DAY=fr,2MO,fr;Interval=2").rule everyOtherMonth.start = .ok r := by
  obtain ⟨perms, alike⟩ := text_agrees_with_mapping areGiven_fridays
  have read : ∃ r, (mapOf fridays).rule everyOtherMonth.start = .ok r := ⟨_, rfl⟩
  obtain ⟨r, read⟩ := read
  have backwards : textOf fridays.reverse = text "Interval=2;BY_DAY=2MO,fr;freq=monthly" := by
    rfl
  have twice : textOf fridaysTwice = text "freq=monthly;BY_DAY=fr,2MO,fr;Interval=2" := by
    rfl
  refine ⟨r, read, ?_, ?_⟩
  · rw [← backwards, (perms _ (List.reverse_perm _) everyOtherMonth.start).1, read]
  · rw [← twice, (alike _ alike_fridays everyOtherMonth.start r).1,
      (perms _ (.refl _) everyOtherMonth.start).1, read]

end Spec

end Almanac
