import Almanac.Proofs.Rule.Grammar
import Almanac.Proofs.Rule.Refusal

set_option autoImplicit false

/-!
Where the tokens of a rule text stand, and where its errors point.

The tokens of a text follow each other through it. A word is a longest run of word characters, a
mark of punctuation is one character, and all that stands outside the tokens and the opening is
blank. The opening consists of word characters, too, but is passed over first: a word may start
right behind it. A text that cannot be cut into tokens is refused at its first character that is
neither blank nor punctuation nor a word character, and every other fault in its form is placed at a
token or behind the last one, so all errors point inside the text.
-/

namespace Almanac

namespace Span

/-- The place is one of the span's. -/
def Holds (span : Span) (i : Nat) : Prop := span.start ≤ i ∧ i < span.stop

/-- The span lies in a text of `n` characters. -/
def Within (span : Span) (n : Nat) : Prop := span.start ≤ span.stop ∧ span.stop ≤ n

end Span

namespace Token

variable {s w rest : List Char} {m n i j k : Nat} {ts : List Token}

/-! The opening. -/

/-- The opening stands at place `a`, in any case and behind blanks only. -/
structure OpensAt (s : List Char) (a : Nat) : Prop where
  blanks : ∀ c ∈ s.take a, isBlank c = true
  spelled : (s.extract a (a + opening.length)).map Char.toLower = opening

/-- The span of the opening, which is empty in a text that has none. -/
inductive Opening (s : List Char) : Span → Prop where
  | opened {a : Nat} (opens : OpensAt s a) : Opening s ⟨a, a + opening.length⟩
  | none (never : ∀ a, ¬ OpensAt s a) : Opening s ⟨0, 0⟩

/-! Tokens in their places. -/

/-- The characters from place `i` up to `j` are there, and all of them are word characters. -/
structure IsRun (s : List Char) (i j : Nat) : Prop where
  nonempty : i < j
  inside : j ≤ s.length
  wordChars : ∀ c ∈ s.extract i j, isWordChar c = true

/-- A run that is not part of a longer one in the text from place `m` on. -/
structure IsLongestRun (s : List Char) (m i j : Nat) : Prop where
  run : IsRun s i j
  behind : m ≤ i
  longest : ∀ i' j', m ≤ i' → i' ≤ i → j ≤ j' → IsRun s i' j' → i' = i ∧ j' = j

/-- The token is what stands at its span in a text whose opening ends at place `m`: a longest run of
word characters behind the opening, or a mark of punctuation. -/
inductive Stands (s : List Char) (m : Nat) : Token → Prop where
  | word {i j : Nat} (run : IsLongestRun s m i j) :
      Stands s m ⟨.word (String.ofList (s.extract i j)), ⟨i, j⟩⟩
  | mark {i : Nat} {c : Char} {l : Lexeme} (here : s[i]? = some c)
      (mark : punctuation? c = some l) : Stands s m ⟨l, ⟨i, i + 1⟩⟩

/-- The tokens of a text whose opening is at `opened` cover all of it but the opening and blanks. -/
structure Cover (s : List Char) (opened : Span) (ts : List Token) : Prop where
  nonempty : ∀ t ∈ ts, t.span.start < t.span.stop
  inside : ∀ t ∈ ts, opened.stop ≤ t.span.start ∧ t.span.stop ≤ s.length
  ascending : ts.Pairwise (fun t u => t.span.stop ≤ u.span.start)
  stands : ∀ t ∈ ts, Stands s opened.stop t
  blank : ∀ i c, s[i]? = some c → ¬ opened.Holds i → (∀ t ∈ ts, ¬ t.span.Holds i) →
    isBlank c = true

/-- A character that is neither blank nor punctuation nor a word character. -/
def IsForeign (c : Char) : Prop :=
  isBlank c = false ∧ punctuation? c = none ∧ isWordChar c = false

/-- The first foreign character from place `m` on is `c`, at place `i`. -/
structure IsFirstForeign (s : List Char) (m i : Nat) (c : Char) : Prop where
  here : s[i]? = some c
  behind : m ≤ i
  foreign : IsForeign c
  first : ∀ j d, m ≤ j → j < i → s[j]? = some d → ¬ IsForeign d

/-! Places and the rest of a text. -/

theorem drop_eq_append (place : s.drop n = w ++ rest) :
    s.extract n (n + w.length) = w ∧ s.drop (n + w.length) = rest := by
  rw [List.extract_eq_take_drop, ← List.drop_drop, place, Nat.add_sub_cancel_left, List.take_left,
    List.drop_left]
  exact ⟨rfl, rfl⟩

theorem drop_eq_cons {c : Char} (place : s.drop n = c :: rest) :
    s[n]? = some c ∧ s.drop (n + 1) = rest := by
  refine ⟨?_, (drop_eq_append (w := [c]) place).2⟩
  rw [← List.head?_drop, place]
  rfl

theorem IsRun.exists_getElem? (run : IsRun s i j) (low : i ≤ k) (high : k < j) :
    ∃ c, s[k]? = some c ∧ isWordChar c = true := by
  have inside : k < s.length := Nat.lt_of_lt_of_le high run.inside
  refine ⟨s[k], List.getElem?_eq_getElem inside, run.wordChars _ ?_⟩
  apply List.mem_of_getElem? (i := k - i)
  rw [List.extract_eq_take_drop, List.getElem?_take_of_lt (by omega), List.getElem?_drop,
    Nat.add_sub_cancel' low, List.getElem?_eq_getElem inside]

theorem mem_take_of_getElem? {c : Char} (here : s[i]? = some c) (high : i < k) : c ∈ s.take k := by
  apply List.mem_of_getElem? (i := i)
  rw [List.getElem?_take_of_lt high, here]

/-! The tokens from one place on. -/

/-- The tokens follow each other through the text from place `n` on, with blanks between them. -/
inductive Laid (s : List Char) : Nat → List Token → Prop where
  | done {n : Nat} (ends : s.length ≤ n) : Laid s n []
  | blank {n : Nat} {c : Char} {ts : List Token} (here : s[n]? = some c) (blank : isBlank c = true)
      (rest : Laid s (n + 1) ts) : Laid s n ts
  | mark {n : Nat} {c : Char} {l : Lexeme} {ts : List Token} (here : s[n]? = some c)
      (mark : punctuation? c = some l) (rest : Laid s (n + 1) ts) :
      Laid s n (⟨l, ⟨n, n + 1⟩⟩ :: ts)
  | word {n j : Nat} {ts : List Token} (run : IsRun s n j)
      (ends : ∀ c ∈ s[j]?, isWordChar c = false) (rest : Laid s j ts) :
      Laid s n (⟨.word (String.ofList (s.extract n j)), ⟨n, j⟩⟩ :: ts)

/-- A word is read as the longest run from its place on. -/
theorem isRun_of_drop {c : Char} (place : s.drop n = c :: rest) (start : isWordChar c = true) :
    let word := c :: rest.takeWhile isWordChar
    IsRun s n (n + word.length) ∧ s.extract n (n + word.length) = word ∧
      s.drop (n + word.length) = rest.dropWhile isWordChar := by
  intro word
  have split : s.drop n = word ++ rest.dropWhile isWordChar := by
    rw [place, List.cons_append, List.takeWhile_append_dropWhile]
  obtain ⟨text, next⟩ := drop_eq_append split
  have length : s.length - n = word.length + (rest.dropWhile isWordChar).length := by
    rw [← List.length_drop, split, List.length_append]
  have nonempty : 0 < word.length := Nat.succ_pos _
  refine ⟨⟨Nat.lt_add_of_pos_right nonempty, by omega, ?_⟩, text, next⟩
  rw [text]
  exact List.forall_mem_cons.mpr ⟨start, fun c member => List.mem_takeWhile_imp member⟩

theorem laid_of_scan (place : s.drop n = rest) (scanned : scan n rest = .ok ts) : Laid s n ts := by
  fun_induction scan n rest generalizing ts with
  | case1 n =>
    cases scanned
    exact .done (List.drop_eq_nil_iff.mp place)
  | case2 n c rest blank ih =>
    obtain ⟨here, next⟩ := drop_eq_cons place
    exact .blank here blank (ih next scanned)
  | case3 n c rest blank lexeme mark ih =>
    obtain ⟨here, next⟩ := drop_eq_cons place
    obtain ⟨ts, scanned', rfl⟩ := Except.map_eq_ok.mp scanned
    exact .mark here mark (ih next scanned')
  | case4 n c rest blank mark start word stop =>
    rename_i ih
    obtain ⟨ts, scanned', rfl⟩ := Except.map_eq_ok.mp scanned
    obtain ⟨run, text, next⟩ := isRun_of_drop place start
    have ends : ∀ c ∈ s[stop]?, isWordChar c = false := by
      rw [← List.head?_drop, next]
      exact not_isWordChar_head_dropWhile rest
    have laid := Laid.word run ends (ih next scanned')
    rwa [text] at laid
  | case5 => cases scanned

theorem Laid.bounds (laid : Laid s n ts) :
    ∀ t ∈ ts, n ≤ t.span.start ∧ t.span.start < t.span.stop ∧ t.span.stop ≤ s.length := by
  induction laid with
  | done => exact fun _ member => absurd member List.not_mem_nil
  | blank here blank rest ih =>
    exact fun t member => (ih t member).imp_left Nat.le_of_succ_le
  | @mark n c l ts here mark rest ih =>
    have inside : n < s.length := (List.getElem?_eq_some_iff.mp here).1
    refine List.forall_mem_cons.mpr ⟨⟨Nat.le_refl n, Nat.lt_succ_self n, inside⟩, ?_⟩
    exact fun t member => (ih t member).imp_left Nat.le_of_succ_le
  | @word n j ts run ends rest ih =>
    refine List.forall_mem_cons.mpr ⟨⟨Nat.le_refl n, run.nonempty, run.inside⟩, ?_⟩
    exact fun t member => (ih t member).imp_left (Nat.le_trans (Nat.le_of_lt run.nonempty))

theorem Laid.ascending (laid : Laid s n ts) :
    ts.Pairwise (fun t u => t.span.stop ≤ u.span.start) := by
  induction laid with
  | done => exact .nil
  | blank here blank rest ih => exact ih
  | mark _ _ rest ih | word _ _ rest ih =>
    exact .cons (fun t member => (rest.bounds t member).1) ih

/-- Outside the tokens there are blanks only. -/
theorem Laid.isBlank_outside (laid : Laid s n ts) {c : Char} (here : s[i]? = some c) (low : n ≤ i)
    (outside : ∀ t ∈ ts, ¬ t.span.Holds i) : isBlank c = true := by
  induction laid with
  | done ends =>
    have inside := (List.getElem?_eq_some_iff.mp here).1
    omega
  | @blank n d ts first blank rest ih =>
    rcases Nat.eq_or_lt_of_le low with rfl | later
    · rwa [← Option.some.inj (first.symm.trans here)]
    · exact ih later outside
  | mark _ _ rest ih | word _ _ rest ih =>
    obtain ⟨notFirst, outside⟩ := List.forall_mem_cons.mp outside
    refine ih ?_ outside
    by_contra early
    exact notFirst ⟨low, Nat.lt_of_not_le early⟩

/-- No word runs on over place `n`: the characters on its two sides are not both in one. -/
def Parted (s : List Char) (n : Nat) : Prop :=
  ∀ c ∈ s[n - 1]?, isWordChar c = true → ∀ d ∈ s[n]?, isWordChar d = false

theorem IsRun.isLongest (run : IsRun s i j) (behind : m ≤ i) (parted : m < i → Parted s i)
    (ends : ∀ c ∈ s[j]?, isWordChar c = false) : IsLongestRun s m i j := by
  refine ⟨run, behind, ?_⟩
  intro i' j' behind' before after run'
  have nonempty := run.nonempty
  constructor
  · by_contra earlier
    obtain ⟨c, last, inWord⟩ := run'.exists_getElem? (k := i - 1) (by omega) (by omega)
    obtain ⟨d, first, inWord'⟩ := run.exists_getElem? (Nat.le_refl i) nonempty
    rw [parted (by omega) c last inWord d first] at inWord'
    cases inWord'
  · by_contra later
    obtain ⟨c, next, inWord⟩ := run'.exists_getElem? (k := j) (by omega) (by omega)
    rw [ends c next] at inWord
    cases inWord

theorem Parted.of_prev {c : Char} (here : s[n]? = some c) (outside : isWordChar c = false) :
    Parted s (n + 1) := by
  intro d last inWord
  obtain rfl := Option.some.inj (here.symm.trans last)
  rw [outside] at inWord
  cases inWord

/-- Every token is what stands at its span, since a word is begun only where words are parted. -/
theorem Laid.stands (laid : Laid s n ts) (behind : m ≤ n) (parted : m < n → Parted s n) :
    ∀ t ∈ ts, Stands s m t := by
  induction laid with
  | done => exact fun _ member => absurd member List.not_mem_nil
  | blank here blank rest ih =>
    exact ih (Nat.le_succ_of_le behind) fun _ => .of_prev here (isWordChar_of_isBlank blank)
  | mark here mark rest ih =>
    exact List.forall_mem_cons.mpr ⟨.mark here mark, ih (Nat.le_succ_of_le behind) fun _ =>
      .of_prev here (isWordChar_of_punctuation? mark)⟩
  | @word n j ts run ends rest ih =>
    refine List.forall_mem_cons.mpr ⟨.word (run.isLongest behind parted ends), ?_⟩
    exact ih (Nat.le_trans behind (Nat.le_of_lt run.nonempty)) fun _ _ _ _ => ends

/-! The first foreign character. -/

theorem not_isForeign_of_isBlank {c : Char} (blank : isBlank c = true) : ¬ IsForeign c := by
  rintro ⟨solid, -, -⟩
  rw [solid] at blank
  cases blank

/-- Nothing foreign is passed over. -/
theorem IsFirstForeign.of_later {c : Char} (first : IsFirstForeign s k i c) (later : n ≤ k)
    (passed : ∀ j d, n ≤ j → j < k → s[j]? = some d → ¬ IsForeign d) : IsFirstForeign s n i c := by
  refine ⟨first.here, Nat.le_trans later first.behind, first.foreign, ?_⟩
  intro j d low high here
  rcases Nat.lt_or_ge j k with early | late
  · exact passed j d low early here
  · exact first.first j d late high here

/-- One character that is not foreign is passed over. -/
theorem IsFirstForeign.of_succ {c d : Char} (first : IsFirstForeign s (n + 1) i c)
    (here : s[n]? = some d) (own : ¬ IsForeign d) : IsFirstForeign s n i c := by
  refine first.of_later (Nat.le_succ n) ?_
  intro j d' low high here'
  obtain rfl := Nat.le_antisymm low (Nat.le_of_lt_succ high)
  rwa [← Option.some.inj (here.symm.trans here')]

theorem firstForeign_of_scan {stray : Stray} (place : s.drop n = rest)
    (scanned : scan n rest = .error stray) : IsFirstForeign s n stray.place stray.char := by
  fun_induction scan n rest with
  | case1 => cases scanned
  | case2 n c rest blank ih =>
    obtain ⟨here, next⟩ := drop_eq_cons place
    exact (ih next scanned).of_succ here (not_isForeign_of_isBlank blank)
  | case3 n c rest blank lexeme mark ih =>
    obtain ⟨here, next⟩ := drop_eq_cons place
    refine (ih next (Except.map_eq_error.mp scanned)).of_succ here fun foreign => ?_
    rw [foreign.2.1] at mark
    cases mark
  | case4 n c rest blank mark start word stop =>
    rename_i ih
    obtain ⟨run, -, next⟩ := isRun_of_drop place start
    refine (ih next (Except.map_eq_error.mp scanned)).of_later (Nat.le_of_lt run.nonempty) ?_
    intro j d low high here foreign
    obtain ⟨d', here', inWord⟩ := run.exists_getElem? low high
    obtain rfl := Option.some.inj (here.symm.trans here')
    rw [foreign.2.2] at inWord
    cases inWord
  | case5 n c rest blank mark outside =>
    cases scanned
    have here := (drop_eq_cons place).1
    refine ⟨here, Nat.le_refl n, ⟨by simpa using blank, mark, by simpa using outside⟩, ?_⟩
    intro j d low high
    exact absurd high (Nat.not_lt.mpr low)

/-! Behind the opening. -/

theorem take_leading (s : List Char) :
    s.take (s.length - (s.dropWhile isBlank).length) = s.takeWhile isBlank := by
  have split := congrArg List.length (List.takeWhile_append_dropWhile (p := isBlank) (l := s))
  rw [List.length_append] at split
  rw [show s.length - (s.dropWhile isBlank).length = (s.takeWhile isBlank).length by omega]
  exact (List.prefix_iff_eq_take.mp (List.takeWhile_prefix isBlank)).symm

theorem drop_leading (s : List Char) :
    s.drop (s.length - (s.dropWhile isBlank).length) = s.dropWhile isBlank :=
  (List.suffix_iff_eq_drop.mp (List.dropWhile_suffix isBlank)).symm

/-- The opening is no blank, so it stands where the leading blanks end. -/
theorem OpensAt.dropWhile (opens : OpensAt s i) : s.dropWhile isBlank = s.drop i := by
  have spelled := opens.spelled
  rw [List.extract_eq_take_drop, Nat.add_sub_cancel_left] at spelled
  have behind : (s.drop i).dropWhile isBlank = s.drop i := by
    cases rest : s.drop i with
    | nil =>
      rw [rest] at spelled
      cases spelled
    | cons c rest' =>
      rw [rest] at spelled
      exact dropWhile_isBlank (isWordChar_of_opening spelled c List.mem_cons_self) rest'
  rw [← behind]
  conv_lhs => rw [← List.take_append_drop i s]
  exact List.dropWhile_append_of_pos opens.blanks

theorem OpensAt.eq_leading (opens : OpensAt s i) :
    i = s.length - (s.dropWhile isBlank).length := by
  have length := congrArg List.length opens.spelled
  rw [List.length_map, List.extract_eq_take_drop, List.length_take, List.length_drop] at length
  have six : opening.length = 6 := rfl
  rw [opens.dropWhile, List.length_drop]
  omega

/-- A text has its opening in one place. -/
theorem Opening.unique {opened opened' : Span} (h : Opening s opened) (h' : Opening s opened') :
    opened = opened' := by
  cases h with
  | opened opens =>
    cases h' with
    | opened opens' => rw [opens.eq_leading, opens'.eq_leading]
    | none never => exact absurd opens (never _)
  | none never =>
    cases h' with
    | opened opens' => exact absurd opens' (never _)
    | none => rfl

/-- The text is read from its opening on, or from the first character that is not blank. -/
theorem afterOpening_spec (s : List Char) : ∃ opened, Opening s opened ∧
    opened.stop ≤ (afterOpening s).1 ∧ s.drop (afterOpening s).1 = (afterOpening s).2 ∧
    ∀ i c, opened.stop ≤ i → i < (afterOpening s).1 → s[i]? = some c → isBlank c = true := by
  have drop := drop_leading s
  unfold afterOpening
  dsimp only
  generalize start : s.length - (s.dropWhile isBlank).length = k at drop
  have blanks : ∀ c ∈ s.take k, isBlank c = true := by
    rw [← start, take_leading]
    exact fun c member => List.mem_takeWhile_imp member
  have head : s.extract k (k + opening.length) = (s.dropWhile isBlank).take opening.length := by
    rw [List.extract_eq_take_drop, drop, Nat.add_sub_cancel_left]
  split
  · rename_i spelled
    rw [lower_eq_opening_iff, ← head] at spelled
    refine ⟨_, .opened ⟨blanks, spelled⟩, Nat.le_refl _, ?_, ?_⟩
    · rw [← List.drop_drop, drop]
    · intro i c low high
      exact absurd high (Nat.not_lt.mpr low)
  · rename_i unspelled
    rw [lower_eq_opening_iff, ← head] at unspelled
    refine ⟨_, .none ?_, Nat.zero_le _, drop, ?_⟩
    · intro a opens
      obtain rfl : a = k := opens.eq_leading.trans start
      exact unspelled opens.spelled
    · exact fun i c _ high here => blanks c (mem_take_of_getElem? here high)

theorem Opening.isBlank_before {opened : Span} {c : Char} (opening : Opening s opened)
    (here : s[i]? = some c) (before : i < opened.start) : isBlank c = true := by
  cases opening with
  | opened opens => exact opens.blanks c (mem_take_of_getElem? here before)
  | none => exact absurd before (Nat.not_lt_zero i)

/-! Both together. -/

theorem cover_of_ofChars {opened : Span} (opening : Opening s opened) (read : ofChars s = .ok ts) :
    Cover s opened ts := by
  obtain ⟨opened', opening', behind, place, blanks⟩ := afterOpening_spec s
  obtain rfl := opening.unique opening'
  have laid : Laid s (afterOpening s).1 ts := laid_of_scan place read
  -- Only blanks stand between the opening and the first token, so no word runs on over its start.
  have parted : opened.stop < (afterOpening s).1 → Parted s (afterOpening s).1 := by
    intro later c here inWord
    rw [isWordChar_of_isBlank (blanks _ c (by omega) (by omega) here)] at inWord
    cases inWord
  refine ⟨fun t member => (laid.bounds t member).2.1, ?_, laid.ascending,
    laid.stands behind parted, ?_⟩
  · intro t member
    obtain ⟨after, -, inside⟩ := laid.bounds t member
    exact ⟨Nat.le_trans behind after, inside⟩
  · intro i c here outside none
    rcases Nat.lt_or_ge i (afterOpening s).1 with early | late
    · rcases Nat.lt_or_ge i opened.start with before | after
      · exact opening.isBlank_before here before
      · exact blanks i c (Nat.le_of_not_lt fun high => outside ⟨after, high⟩) early here
    · exact laid.isBlank_outside here late none

theorem firstForeign_of_ofChars {opened : Span} {stray : Stray} (opening : Opening s opened)
    (failed : ofChars s = .error stray) :
    IsFirstForeign s opened.stop stray.place stray.char := by
  obtain ⟨opened', opening', behind, place, blanks⟩ := afterOpening_spec s
  obtain rfl := opening.unique opening'
  have first : IsFirstForeign s (afterOpening s).1 stray.place stray.char :=
    firstForeign_of_scan place failed
  exact first.of_later behind fun j d low high here =>
    not_isForeign_of_isBlank (blanks j d low high here)

end Token

/-! Errors. -/

namespace Parts

variable {finish length : Nat} {name : String} {ts rest : List Token} {ws : List String}
  {seen : List (Part × String)} {e : Fault}

theorem spanOf_within (behind : finish ≤ length) (spans : ∀ t ∈ ts, t.span.Within length) :
    (spanOf finish ts).Within length := by
  cases ts with
  | nil => exact ⟨Nat.le_refl _, behind⟩
  | cons t ts => exact spans t List.mem_cons_self

/-- The tokens behind the values of a part are among those that were there before. -/
theorem suffix_of_values (read : values finish name ts = .ok (ws, rest)) : rest <:+ ts := by
  fun_induction values finish name ts generalizing ws rest with
  | case1 w span span' ts ih =>
    obtain ⟨⟨ws, rest'⟩, read, same⟩ := Except.map_eq_ok.mp read
    cases same
    exact (ih read).trans ((List.suffix_cons _ _).trans (List.suffix_cons _ _))
  | case2 w span ts =>
    cases read
    exact List.suffix_cons _ _
  | case3 => cases read

theorem values_within (behind : finish ≤ length) (spans : ∀ t ∈ ts, t.span.Within length)
    (failed : values finish name ts = .error e) : e.span.Within length := by
  fun_induction values finish name ts with
  | case1 w span span' ts ih =>
    refine ih (fun t member => spans t ?_) (Except.map_eq_error.mp failed)
    exact List.mem_cons_of_mem _ (List.mem_cons_of_mem _ member)
  | case2 => cases failed
  | case3 ts =>
    cases failed
    exact spanOf_within behind spans

theorem read_within (behind : finish ≤ length) (spans : ∀ t ∈ ts, t.span.Within length)
    (failed : read finish seen ts = .error e) : e.span.Within length := by
  fun_induction Parts.read finish seen ts with
  | case1 => cases failed
  | case2 | case3 | case9 =>
    cases failed
    exact spans _ List.mem_cons_self
  | case4 seen name span part named unseen span' rest e' given =>
    cases failed
    refine values_within behind (fun t member => spans t ?_) given
    exact List.mem_cons_of_mem _ (List.mem_cons_of_mem _ member)
  | case5 => cases failed
  | case6 seen name span part named unseen span' rest ws grown span'' after given _ ih =>
    refine ih (fun t member => spans t ?_) failed
    have kept := (suffix_of_values given).subset (List.mem_cons_of_mem _ member)
    exact List.mem_cons_of_mem _ (List.mem_cons_of_mem _ kept)
  | case7 seen name span part named unseen span' rest ws t after given other _ =>
    cases failed
    have kept := (suffix_of_values given).subset List.mem_cons_self
    exact spans _ (List.mem_cons_of_mem _ (List.mem_cons_of_mem _ kept))
  | case8 seen name span part named unseen rest other =>
    cases failed
    exact spanOf_within behind fun t member => spans t (List.mem_cons_of_mem _ member)

/-- The fault of a text lies in it, as its tokens do. -/
theorem ofTokens_within (spans : ∀ t ∈ ts, t.span.Within length) (failed : ofTokens ts = .error e) :
    e.span.Within length := by
  unfold ofTokens at failed
  split at failed
  · cases failed
    exact ⟨Nat.le_refl 0, Nat.zero_le length⟩
  · rename_i last found
    exact read_within (spans last (List.mem_of_getLast? found)).2 spans failed

/-- An error in reading a text points inside it. -/
theorem ofText_within {s : String} {e : SpecError} (failed : ofText s = .error e) :
    ∃ fault span, e = .text fault span s ∧ span.Within s.length := by
  obtain ⟨opened, opening, -⟩ := Token.afterOpening_spec s.toList
  unfold ofText Token.ofText at failed
  cases read : Token.ofChars s.toList with
  | error stray =>
    simp only [read] at failed
    cases failed
    have first := Token.firstForeign_of_ofChars opening read
    have inside := (List.getElem?_eq_some_iff.mp first.here).1
    exact ⟨_, _, rfl, Nat.le_succ _, by rwa [String.length_toList] at inside⟩
  | ok ts =>
    have cover := Token.cover_of_ofChars opening read
    have spans : ∀ t ∈ ts, t.span.Within s.length := by
      intro t member
      refine ⟨Nat.le_of_lt (cover.nonempty t member), ?_⟩
      rw [← String.length_toList]
      exact (cover.inside t member).2
    cases parts : ofTokens ts with
    | ok => simp [bind, Except.bind, read, parts] at failed
    | error fault =>
      simp only [bind, Except.bind, read, parts] at failed
      cases failed
      exact ⟨_, _, rfl, ofTokens_within spans parts⟩

end Parts

namespace Spec

/-- The tokens of a text cover it, in ascending order and apart from each other, but for its opening
and for blanks. A text that cannot be cut into tokens is refused at its first foreign character
behind the opening, and every error in the form of a text points inside it. -/
theorem text_spans_accurate (s : String) :
    ∃ opened, (∀ span, Token.Opening s.toList span ↔ span = opened) ∧
      (∀ ts, Token.ofText s = .ok ts → Token.Cover s.toList opened ts) ∧
      (∀ e, Token.ofText s = .error e → ∃ i c, Token.IsFirstForeign s.toList opened.stop i c ∧
        e = .text (.unexpectedCharacter c) ⟨i, i + 1⟩ s) ∧
      ∀ now e, (text s).rule now = .error e → e.kind = .form →
        ∃ span, e.report.span = some span ∧ span.start ≤ span.stop ∧ span.stop ≤ s.length := by
  obtain ⟨opened, opening, -⟩ := Token.afterOpening_spec s.toList
  refine ⟨opened, fun span => ⟨fun h => h.unique opening, fun h => h ▸ opening⟩, ?_, ?_, ?_⟩
  · intro ts read
    unfold Token.ofText at read
    split at read
    · rename_i ts' scanned
      cases read
      exact Token.cover_of_ofChars opening scanned
    · cases read
  · intro e failed
    unfold Token.ofText at failed
    split at failed
    · cases failed
    · rename_i stray scanned
      cases failed
      exact ⟨_, _, Token.firstForeign_of_ofChars opening scanned, rfl⟩
  · intro now e failed form
    simp only [rule, params] at failed
    cases read : Parts.ofText s with
    | ok parts =>
      simp only [read] at failed
      exact absurd form (Rule.ofParams_fails _ now e failed).kind_ne_form
    | error e' =>
      obtain ⟨fault, span, rfl, within⟩ := Parts.ofText_within read
      simp only [read] at failed
      cases failed
      exact ⟨span, rfl, within⟩

/-- A text that ends before its second part does. -/
def unfinished : String := " RRULE:freq=daily;count "

def unfinishedTokens : List Token :=
  [⟨.word "freq", ⟨7, 11⟩⟩, ⟨.equals, ⟨11, 12⟩⟩, ⟨.word "daily", ⟨12, 17⟩⟩, ⟨.semicolon, ⟨17, 18⟩⟩,
    ⟨.word "count", ⟨18, 23⟩⟩]

theorem ofText_unfinished : Token.ofText unfinished = .ok unfinishedTokens := by
  have scanned : Token.ofChars unfinished.toList = .ok unfinishedTokens := by decide +kernel
  simp only [Token.ofText, scanned]

theorem rule_unfinished (now : Stamp) : (text unfinished).rule now =
    .error (.text (.expectedEquals "count") ⟨23, 23⟩ unfinished) := by
  have freq : Part.ofName? "freq" = some .freq := by decide +kernel
  have count : Part.ofName? "count" = some .count := by decide +kernel
  have read : Parts.ofTokens unfinishedTokens = .error ⟨.expectedEquals "count", ⟨23, 23⟩⟩ := by
    simp [Parts.ofTokens, unfinishedTokens, Parts.read, Parts.values, Parts.spanOf, freq, count]
  simp only [rule, params, Parts.ofText, ofText_unfinished, bind, Except.bind, read]

/-- The tokens of an unfinished text cover it, its error points behind the last of them, and a sign
that no token starts with is found where it stands. -/
theorem text_spans_unfinished :
    (∃ opened, Token.Opening unfinished.toList opened ∧
      Token.Cover unfinished.toList opened unfinishedTokens) ∧
    (∃ e span, (text unfinished).rule ⟨.startOf ⟨0, by decide⟩, some .utc, false⟩ = .error e ∧
      e.report.span = some span ∧ span.stop ≤ unfinished.length) ∧
    ∃ opened i c, Token.IsFirstForeign "by%day".toList opened i c ∧ Token.ofText "by%day" =
      .error (.text (.unexpectedCharacter c) ⟨i, i + 1⟩ "by%day") := by
  obtain ⟨opened, opening, covered, -, inside⟩ := text_spans_accurate unfinished
  obtain ⟨span, points, -, within⟩ :=
    inside ⟨.startOf ⟨0, by decide⟩, some .utc, false⟩ _ (rule_unfinished _) rfl
  have scanned : Token.ofChars "by%day".toList = .error ⟨'%', 2⟩ := by decide +kernel
  have failed : Token.ofText "by%day" =
      .error (.text (.unexpectedCharacter '%') ⟨2, 3⟩ "by%day") := by
    simp only [Token.ofText, scanned]
  obtain ⟨opened', -, -, foreign, -⟩ := text_spans_accurate "by%day"
  obtain ⟨i, c, first, same⟩ := foreign _ failed
  refine ⟨⟨opened, (opening _).mpr rfl, covered _ ofText_unfinished⟩, ?_, ?_⟩
  · exact ⟨_, span, rule_unfinished _, points, within⟩
  · exact ⟨opened'.stop, i, c, first, failed.trans (congrArg _ same)⟩

end Spec

end Almanac
