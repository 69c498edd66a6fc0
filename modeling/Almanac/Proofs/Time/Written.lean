import Almanac.Proofs.Text.Numerals
import Almanac.Proofs.Time.BasicForm
import Almanac.Time.Written

set_option autoImplicit false

/-!
Written instants are read back.

The basic form is written for whole seconds at no offset, and is one as long as its year has four
digits; with fewer the `T` stands where reading looks for a digit, in either form. In the extended
form every field stands where reading looks for it: the hyphens divide the date, the time ends at the
sign of the offset, and the offset ends the text. Reading takes an offset of less than a second for
none at all, so an offset is read back when it is none or not that short.
-/

namespace Almanac

open Calendar

/-- The offset is none at all, or a second at least. -/
def Offset.Legible (o : Offset) : Prop := o.micros = 0 ∨ secondMicros ≤ o.micros.natAbs

/-- The offset that is read where `o` is written. -/
def Offset.asRead (o : Offset) : Offset := if secondMicros ≤ o.micros.natAbs then o else .zero

theorem Offset.asRead_eq_iff {o : Offset} : o.asRead = o ↔ o.Legible := by
  obtain ⟨n, under⟩ := o
  unfold asRead Legible
  split
  · rename_i long
    exact iff_of_true rfl (.inr long)
  · rename_i short
    simp [zero, short, eq_comm]

/-! The digits of a field. -/

theorem decimals_two (n : Nat) :
    decimals 2 n = [Nat.digitChar (n / 10 % 10), Nat.digitChar (n % 10)] := rfl

@[simp] theorem length_decimals (k n : Nat) : (decimals k n).length = k := by
  induction k generalizing n with
  | zero => rfl
  | succ k ih => simp [decimals, ih]

theorem isDigit_digitChar {d : Nat} (small : d < 10) : (Nat.digitChar d).isDigit = true := by
  have table : ∀ d < 10, (Nat.digitChar d).isDigit = true := by decide
  exact table d small

theorem isDigit_of_mem_decimals {k n : Nat} {c : Char} (member : c ∈ decimals k n) :
    c.isDigit = true := by
  induction k generalizing n with
  | zero => cases member
  | succ k ih =>
    rcases List.mem_append.mp member with member | member
    · exact ih member
    · rw [List.mem_singleton.mp member]
      exact isDigit_digitChar (Nat.mod_lt _ (by decide))

theorem mem_writtenFraction {us : Nat} {c : Char} (member : c ∈ writtenFraction us) :
    c.isDigit = true ∨ c = '.' := by
  unfold writtenFraction at member
  split at member
  · cases member
  · rcases List.mem_cons.mp member with point | digit
    · exact .inr point
    · exact .inl (isDigit_of_mem_decimals digit)

namespace Reading

theorem number?_numeral {digit? : Char → Option Nat} {k n : Nat} {s rest : List Char}
    (numeral : Numeral digit? k n s) : number? digit? k 0 (s ++ rest) = some (n, rest) :=
  number?_eq_some_iff.mpr ⟨s, rfl, numeral⟩

theorem number?_decimals {k n : Nat} (fits : n < 10 ^ k) (rest : List Char) :
    number? Text.asciiDigit? k 0 (decimals k n ++ rest) = some (n, rest) :=
  number?_numeral (numeral_decimals readsDigits_ascii fits)

/-! The fields of a time. -/

theorem isEnd_eq (s : List Char) : decide ((s.headD (Char.ofNat 0)).toNat = 0) = isEnd s := by
  cases s <;> rfl

/-- The text goes on with what ends a time: an offset, or nothing. -/
def Ends (s : List Char) : Prop := ∀ c ∈ s.head?, startsOffset c = true

theorem startsOffset_iff {c : Char} : startsOffset c = true ↔ c = '+' ∨ c = '-' ∨ c = 'Z' := by
  simp [startsOffset, or_assoc]

/-- No digit of a fraction is left where a time ends. -/
theorem Ends.dropWhile {s : List Char} (ends : Ends s) :
    s.dropWhile (fun c => (Text.asciiDigit? c).isSome) = s := by
  cases s with
  | nil => rfl
  | cons c s =>
    have plain : Text.asciiDigit? c = none := by
      rcases startsOffset_iff.mp (ends c rfl) with rfl | rfl | rfl <;> rfl
    simp [plain]

theorem clockFields?_colon {left width n : Nat} {division : Division} {s : List Char}
    {read : List Nat} (fits : n < 100) (divided : left = 2 ∨ division = .colons) (more : 3 < width) :
    clockFields? (left + 1) division width (decimals 2 n ++ ':' :: s) read =
      clockFields? left .colons (width - 3) s (read ++ [n]) := by
  have division : (if left = 2 then .colons else division : Division) = .colons := by
    rcases divided with two | colons
    · rw [if_pos two]
    · rw [colons, ite_self]
  rw [clockFields?, number?_decimals fits]
  simp [bind, division, Nat.not_le.mpr more]

theorem clockFields?_end {left n : Nat} {division : Division} {s : List Char} {read : List Nat}
    (fits : n < 100) :
    clockFields? (left + 1) division 2 (decimals 2 n ++ s) read =
      some (read ++ [n], 0, isEnd s) := by
  rw [clockFields?, number?_decimals fits, ← isEnd_eq]
  simp [bind]

theorem clockFields?_point {left n us : Nat} {s : List Char} {read : List Nat}
    (fits : n < 100) (fraction : us < 10 ^ 6) (last : left ≠ 2) (ends : Ends s) :
    clockFields? (left + 1) .colons 9 (decimals 2 n ++ '.' :: (decimals 6 us ++ s)) read =
      some (read ++ [n], us, isEnd s) := by
  rw [clockFields?, number?_decimals fits]
  simp [bind, last, fraction?, number?_decimals fraction, ends.dropWhile, pow10]

/-- Hours and minutes, with a colon between them. -/
theorem clock?_minutes (rest : List Char) {h mi : Nat} (hour : h < 100) (minute : mi < 100) :
    clock? 5 (decimals 2 h ++ ':' :: (decimals 2 mi ++ rest)) =
      some ⟨h, mi, 0, 0, isEnd rest⟩ := by
  rw [clock?, clockFields?_colon hour (.inl rfl) (by decide), clockFields?_end minute]
  rfl

/-- Hours, minutes and seconds, and a fraction of a second where there is one. -/
theorem clock?_seconds {rest : List Char} (ends : Ends rest) {h mi s us : Nat} (hour : h < 100)
    (minute : mi < 100) (second : s < 100) (micros : us < 10 ^ 6) :
    clock? (8 + (writtenFraction us).length)
        (decimals 2 h ++ ':' :: (decimals 2 mi ++ ':' :: (decimals 2 s ++
          (writtenFraction us ++ rest)))) =
      some ⟨h, mi, s, us, isEnd rest⟩ := by
  have long : 3 < 8 + (writtenFraction us).length := by omega
  have rest : 3 < 8 + (writtenFraction us).length - 3 := by omega
  rw [clock?, clockFields?_colon hour (.inl rfl) long, clockFields?_colon minute (.inr rfl) rest]
  by_cases whole : us = 0
  · rw [whole]
    simp only [writtenFraction, if_true, List.length_nil, List.nil_append]
    rw [clockFields?_end second]
    rfl
  · simp only [writtenFraction, if_neg whole, List.length_cons, length_decimals, List.cons_append]
    rw [clockFields?_point second micros (by decide) ends]
    rfl

/-! Offsets. -/

theorem extendedClock?_written {time offset : List Char} {c : Char} {form form' : ClockForm}
    (plain : ∀ c ∈ time, startsOffset c = false) (sign : c = '+' ∨ c = '-')
    (first : clock? time.length (time ++ c :: offset) = some form)
    (second : clock? offset.length offset = some form') (complete : form'.complete = true) :
    extendedClock? (time ++ c :: offset) = (offset? (c = '-') form').map (fun z => (form, some z)) := by
  have starts : startsOffset c = true := by
    rcases sign with rfl | rfl <;> rfl
  have width : ((time ++ c :: offset).takeWhile (fun c => !startsOffset c)).length = time.length := by
    rw [List.takeWhile_append_of_pos (by simpa using plain)]
    simp [starts]
  rw [extendedClock?, width, first]
  simp only [bind, Option.bind_some, List.drop_left]
  rcases sign with rfl | rfl <;> simp [second, complete, pure, Option.map_eq_bind]

theorem offset?_fields (o : Offset) {h mi s us : Nat}
    (fields : o.micros.natAbs = h * 3600000000 + mi * 60000000 + s * 1000000 + us)
    (micros : us < 1000000) :
    offset? (decide (o.micros < 0)) ⟨h, mi, s, us, true⟩ = some (.fixed o.asRead) := by
  unfold offset? Offset.asRead
  rw [secondMicros_eq]
  dsimp only
  split
  · rw [if_neg (by omega)]
    rfl
  · rw [if_pos (by omega)]
    have whole : offset?.signed (decide (o.micros < 0))
        ((h * 3600 + mi * 60 + s) * 1000000 + us) = o.micros := by
      rw [offset?.signed]
      simp only [decide_eq_true_eq]
      split <;> omega
    rw [whole, Offset.ofMicros?, dif_pos o.underDay]
    rfl

/-- What is written behind the sign of an offset reads as its fields. -/
theorem clock?_offset (o : Offset) : ∃ body h mi s us,
    o.written = (if o.micros < 0 then '-' else '+') :: body ∧
      o.micros.natAbs = h * 3600000000 + mi * 60000000 + s * 1000000 + us ∧ us < 1000000 ∧
      clock? body.length body = some ⟨h, mi, s, us, true⟩ := by
  have under := o.underDay
  rw [dayMicros_eq] at under
  unfold Offset.written
  rw [hourMicros_eq, minuteMicros_eq, secondMicros_eq]
  generalize o.micros.natAbs = n at under
  have hour : n / 3600000000 < 100 := by omega
  have minute : n % 3600000000 / 60000000 < 100 := by omega
  by_cases whole : n % 60000000 = 0
  · refine ⟨_, n / 3600000000, n % 3600000000 / 60000000, 0, 0, rfl, by omega, by decide, ?_⟩
    rw [if_pos whole]
    have read := clock?_minutes [] hour minute
    simpa [isEnd] using read
  · refine ⟨_, n / 3600000000, n % 3600000000 / 60000000, n % 60000000 / 1000000,
      n % 60000000 % 1000000, rfl, by omega, Nat.mod_lt _ (by decide), ?_⟩
    rw [if_neg whole]
    have none : Ends [] := by simp [Ends]
    have read := clock?_seconds none hour minute (show n % 60000000 / 1000000 < 100 by omega)
      (show n % 60000000 % 1000000 < 10 ^ 6 from Nat.mod_lt _ (by decide))
    have length (k : Nat) : 2 + (2 + (2 + k + 1) + 1) = 8 + k := by omega
    simpa [isEnd, length] using read

/-! Dates. -/

theorem digitChar_ne_W (n : Nat) : Nat.digitChar (n % 10) ≠ 'W' := by
  intro same
  have digit := isDigit_digitChar (Nat.mod_lt n (show 0 < 10 by decide))
  rw [same] at digit
  revert digit
  decide

theorem dateLength?_date (y m d : Nat) (rest : List Char) :
    dateLength? (decimals 4 y ++ '-' :: (decimals 2 m ++ '-' :: (decimals 2 d ++ rest))) =
      some 10 := by
  simp [dateLength?, decimals, digitChar_ne_W]

theorem extendedDate?_date {y m d : Nat} (year : y < 10000) (month : m < 100) (day : d < 100)
    (rest : List Char) :
    extendedDate? 10 (decimals 4 y ++ '-' :: (decimals 2 m ++ '-' :: (decimals 2 d ++ rest))) =
      dayNumber? y m d := by
  rw [extendedDate?, number?_decimals year]
  simp only [bind, Option.bind_some]
  split
  · rename_i s same
    simp [decimals_two, digitChar_ne_W] at same
  · simp [civilDate?, number?_decimals (k := 2) month, number?_decimals (k := 2) day, skip?]

theorem basic?_extended {y : Nat} (year : y < 10000) (s : List Char) :
    basic? (decimals 4 y ++ '-' :: s) = none := by
  have read : number? Text.digit? 4 0 (decimals 4 y ++ '-' :: s) = some (y, '-' :: s) :=
    number?_numeral (numeral_decimals readsDigits_text year)
  rw [basic?.eq_def, read]
  have stop : Text.digit? '-' = none := by decide
  simp [number?, stop]

/-! Dates without hyphens. -/

/-- Eight digits at the start of a text. -/
theorem digits_take {digit? : Char → Option Nat} {year month day : Nat} {y m d : List Char}
    (isYear : Numeral digit? 4 year y) (isMonth : Numeral digit? 2 month m)
    (isDay : Numeral digit? 2 day d) (rest : List Char) :
    ∀ c ∈ (y ++ (m ++ (d ++ rest))).take 8, (digit? c).isSome := by
  obtain ⟨fourDigits, years, -⟩ := numeral_iff.mp isYear
  obtain ⟨twoDigits, months, -⟩ := numeral_iff.mp isMonth
  obtain ⟨twoDigits', days, -⟩ := numeral_iff.mp isDay
  have eight : (y ++ (m ++ (d ++ rest))).take 8 = y ++ (m ++ d) := by
    rw [← List.append_assoc m, ← List.append_assoc]
    exact List.take_left' (by simp [fourDigits, twoDigits, twoDigits'])
  rw [eight]
  simp only [List.forall_mem_append]
  exact ⟨years, months, days⟩

theorem basic?_digits {s : List Char} {form : BasicForm} (read : basic? s = some form) :
    ∀ c ∈ s.take 8, (Text.digit? c).isSome := by
  cases basic?_eq_some_iff.mp read with
  | date isYear isMonth isDay =>
    have digits := digits_take isYear isMonth isDay []
    rwa [List.append_nil] at digits
  | time isYear isMonth isDay _ _ _ utc => exact digits_take isYear isMonth isDay _

/-- A date whose fifth character is neither a hyphen nor a `W` is eight digits. -/
theorem extendedDate?_digits {length day : Nat} {s : List Char}
    (read : extendedDate? length s = some day) (fifth : ∀ c ∈ s[4]?, c ≠ '-' ∧ c ≠ 'W') :
    ∀ c ∈ s.take 8, (Text.asciiDigit? c).isSome := by
  simp only [extendedDate?, bind, Option.bind_eq_some_iff, Prod.exists, number?_eq_some_iff] at read
  obtain ⟨year, rest, ⟨y, rfl, isYear⟩, read⟩ := read
  have four := (numeral_iff.mp isYear).1
  have head : ∀ c ∈ rest.head?, c ≠ '-' ∧ c ≠ 'W' := by
    rwa [List.getElem?_append_right four.le, four, Nat.sub_self, ← List.head?_eq_getElem?] at fifth
  have civil : civilDate? year false rest = some day := by
    cases rest with
    | nil => exact read
    | cons c rest =>
      obtain ⟨hyphen, week⟩ := head c rfl
      simpa [hyphen, week] using read
  simp only [civilDate?, bind, Option.bind_eq_some_iff, Prod.exists, number?_eq_some_iff,
    Bool.false_eq_true, if_false, Option.bind_some] at civil
  obtain ⟨month, _, ⟨m, rfl, isMonth⟩, dayOfMonth, _, ⟨d, rfl, isDay⟩, -⟩ := civil
  exact digits_take isYear isMonth isDay _

/-- Neither form has a `T` in the place of a digit of the date. -/
theorem stamp?_eq_none {s : List Char} (mark : 'T' ∈ s.take 8)
    (fifth : ∀ c ∈ s[4]?, c ≠ '-' ∧ c ≠ 'W') : stamp? s = none := by
  have basic : basic? s = none := by
    by_contra read
    obtain ⟨form, read⟩ := Option.ne_none_iff_exists'.mp read
    exact absurd (basic?_digits read 'T' mark) (by decide)
  have extended : extended? s = none := by
    by_contra read
    obtain ⟨stamp, read⟩ := Option.ne_none_iff_exists'.mp read
    obtain ⟨length, -, read⟩ := Option.bind_eq_some_iff.mp read
    obtain ⟨day, read, -⟩ := Option.bind_eq_some_iff.mp read
    exact absurd (extendedDate?_digits read fifth 'T' mark) (by decide)
  rw [stamp?, basic]
  exact extended

end Reading

namespace WallTime

theorem day_lt (t : WallTime) : t.day < dayCount := by
  have inside := t.inCalendar
  rw [calendarMicros_eq] at inside
  have count : dayCount = 3652059 := rfl
  rw [day_eq, count]
  omega

theorem year_lt (t : WallTime) : t.year < 10000 := Nat.lt_succ_of_le (yearOf_le_lastYear t.day_lt)

theorem dayNumber?_fields (t : WallTime) :
    dayNumber? t.year t.month t.dayOfMonth = some t.day :=
  dayNumber?_civil t.day_lt

theorem ofDay?_day (t : WallTime) : Date.ofDay? t.day = some ⟨t.day, t.day_lt⟩ := dif_pos t.day_lt

/-- A wall time is the one with its own fields. -/
theorem ofCivil?_fields (t : WallTime) :
    ofCivil? t.year t.month t.dayOfMonth t.hour t.minute t.second t.microsecond = some t := by
  have clock : t.hour < 24 ∧ t.minute < 60 ∧ t.second < 60 ∧ t.microsecond < secondMicros :=
    ⟨t.hour_lt, t.minute_lt, t.second_lt, secondMicros_eq ▸ t.microsecond_lt⟩
  have total := t.micros_eq
  rw [timeOfDay] at total
  rw [ofCivil?, Date.ofCivil?, dayNumber?_fields]
  simp only [bind, Option.bind_some, ofDay?_day]
  rw [if_pos clock, ofMicros?_eq_some_iff, dayMicros_eq, hourMicros_eq, minuteMicros_eq,
    secondMicros_eq]
  omega

end WallTime

namespace WallTime

open Reading

theorem month_lt (t : WallTime) : t.month < 100 := by
  have := (monthDayOf_bounds t.day).2.1
  exact Nat.lt_of_le_of_lt this (by decide)

theorem dayOfMonth_lt (t : WallTime) : t.dayOfMonth < 100 := by
  have bound := (monthDayOf_bounds t.day).2.2.2.1
  have short : ∀ y m, monthLength y m ≤ 31 := by
    intro y m
    unfold monthLength
    repeat' split
    all_goals decide
  exact Nat.lt_of_le_of_lt (bound.trans (short _ _)) (by decide)

/-- The basic form is that of its fields, since a year of four digits is written with four. -/
theorem basic_writtenBasic {t : WallTime} (year : 1000 ≤ t.year) :
    Basic ⟨t.year, t.month, t.dayOfMonth, t.hour, t.minute, t.second, true⟩ t.writtenBasic := by
  have digits : (Nat.toDigits 10 t.year).length = 4 := by
    have upper := (Nat.length_toDigits_le_iff (b := 10) (n := t.year) (k := 4) (by decide)
      (by decide)).mpr t.year_lt
    have lower := (Nat.length_toDigits_le_iff (b := 10) (n := t.year) (k := 3) (by decide)
      (by decide)).not.mpr (by omega)
    omega
  have isYear := numeral_toDigits readsDigits_text t.year
  rw [digits] at isYear
  have field : ∀ {n : Nat}, n < 100 → Numeral Text.digit? 2 n (decimals 2 n) := fun fits =>
    numeral_decimals readsDigits_text fits
  have made := Basic.time isYear (field t.month_lt) (field t.dayOfMonth_lt)
    (field (Nat.lt_trans t.hour_lt (by decide))) (field (Nat.lt_trans t.minute_lt (by decide)))
    (field (Nat.lt_trans t.second_lt (by decide))) true
  simpa [writtenBasic, Nat.toString_eq_ofList_toDigits] using made

/-- A year of fewer digits leaves the `T` in the place of a digit. -/
theorem stamp?_writtenBasic_eq_none {t : WallTime} (year : t.year < 1000) :
    stamp? t.writtenBasic = none := by
  let date := Nat.toDigits 10 t.year ++ (decimals 2 t.month ++ decimals 2 t.dayOfMonth)
  let clock := decimals 2 t.hour ++ (decimals 2 t.minute ++ (decimals 2 t.second ++ ['Z']))
  have split : t.writtenBasic = date ++ 'T' :: clock := by
    simp [writtenBasic, date, clock]
  have short : (Nat.toDigits 10 t.year).length ≤ 3 :=
    (Nat.length_toDigits_le_iff (by decide) (by decide)).mpr year
  have some := List.length_pos_iff.mpr (Text.toDigits_ne_nil t.year)
  have length : date.length = (Nat.toDigits 10 t.year).length + 4 := by simp [date]
  have digits : ∀ c ∈ date, c.isDigit = true := by
    simp only [date, List.forall_mem_append]
    exact ⟨fun c => Nat.isDigit_of_mem_toDigits (by decide) (by decide), fun c => isDigit_of_mem_decimals,
      fun c => isDigit_of_mem_decimals⟩
  rw [split]
  apply stamp?_eq_none
  · rw [List.take_append, List.mem_append]
    right
    obtain ⟨n, more⟩ : ∃ n, 8 - date.length = n + 1 := ⟨7 - date.length, by omega⟩
    simp [more]
  · rw [List.getElem?_append_left (by omega)]
    intro c fifth
    have digit := digits c (List.mem_of_getElem? fifth)
    constructor <;> rintro rfl <;> cases digit

theorem writtenClock_eq (t : WallTime) (rest : List Char) : t.writtenClock ++ rest =
    decimals 2 t.hour ++ ':' :: (decimals 2 t.minute ++ ':' :: (decimals 2 t.second ++
      (writtenFraction t.microsecond ++ rest))) := by
  simp [writtenClock]

theorem clock?_writtenClock (t : WallTime) {rest : List Char} (ends : Ends rest) :
    clock? t.writtenClock.length (t.writtenClock ++ rest) =
      some ⟨t.hour, t.minute, t.second, t.microsecond, isEnd rest⟩ := by
  have length : t.writtenClock.length = 8 + (writtenFraction t.microsecond).length := by
    simp [writtenClock]
    omega
  rw [length, writtenClock_eq]
  exact clock?_seconds ends (Nat.lt_trans t.hour_lt (by decide))
    (Nat.lt_trans t.minute_lt (by decide)) (Nat.lt_trans t.second_lt (by decide)) t.microsecond_lt

theorem mem_writtenClock {t : WallTime} {c : Char} (member : c ∈ t.writtenClock) :
    c.isDigit = true ∨ c = ':' ∨ c = '.' := by
  simp only [writtenClock, List.mem_append, List.mem_cons] at member
  rcases member with ((hour | colon | minute) | colon | second) | fraction
  · exact .inl (isDigit_of_mem_decimals hour)
  · exact .inr (.inl colon)
  · exact .inl (isDigit_of_mem_decimals minute)
  · exact .inr (.inl colon)
  · exact .inl (isDigit_of_mem_decimals second)
  · exact (mem_writtenFraction fraction).imp_right .inr

theorem startsOffset_of_mem_writtenClock {t : WallTime} {c : Char} (member : c ∈ t.writtenClock) :
    startsOffset c = false := by
  by_contra starts
  rcases startsOffset_iff.mp (by simpa using starts) with rfl | rfl | rfl <;>
    rcases mem_writtenClock member with digit | mark | mark <;>
      first | cases digit | cases mark

/-- The time of day and the offset behind a date are read as such. -/
theorem extendedClock?_fields (t : WallTime) (o : Offset) :
    extendedClock? (t.writtenClock ++ o.written) =
      some (⟨t.hour, t.minute, t.second, t.microsecond, false⟩, some (.fixed o.asRead)) := by
  obtain ⟨body, h, mi, s, us, written, fields, micros, read⟩ := clock?_offset o
  have sign : (if o.micros < 0 then '-' else '+') = '+' ∨ (if o.micros < 0 then '-' else '+') = '-' := by
    split <;> simp
  have negative : decide ((if o.micros < 0 then '-' else '+') = '-') = decide (o.micros < 0) := by
    split <;> simp [*]
  rw [written]
  generalize (if o.micros < 0 then '-' else '+') = c at sign negative
  have ends : Ends (c :: body) := by
    simpa [Ends, startsOffset_iff] using sign.imp_right Or.inl
  rw [extendedClock?_written (fun c member => startsOffset_of_mem_writtenClock member) sign
    (t.clock?_writtenClock ends) read rfl, negative, offset?_fields o fields micros]
  have more : isEnd (c :: body) = false := by
    rcases sign with rfl | rfl <;> rfl
  rw [more]
  rfl

/-- What is written in the extended form is read as the same wall time, at the offset as read. -/
theorem extended?_written (t : WallTime) (o : Offset) :
    extended? (t.written ++ o.written) = some ⟨t, some (.fixed o.asRead), false⟩ := by
  have split : t.written ++ o.written = decimals 4 t.year ++ '-' :: (decimals 2 t.month ++
      '-' :: (decimals 2 t.dayOfMonth ++ 'T' :: (t.writtenClock ++ o.written))) := by
    simp [written, writtenDate]
  have behind : (t.written ++ o.written).drop 10 = 'T' :: (t.writtenClock ++ o.written) := by
    rw [split]
    simp [decimals]
  have total := t.micros_eq
  rw [timeOfDay] at total
  have start : (startOf ⟨t.day, t.day_lt⟩).micros = t.day * 86400000000 := by
    rw [← dayMicros_eq]
    rfl
  have micros : (startOf ⟨t.day, t.day_lt⟩).add? (t.hour * hourMicros + t.minute * minuteMicros +
      t.second * secondMicros + t.microsecond : Nat) = some t := by
    rw [add?, ofMicros?_eq_some_iff, start, hourMicros_eq, minuteMicros_eq, secondMicros_eq]
    omega
  have length : dateLength? (t.written ++ o.written) = some 10 := by
    rw [split, dateLength?_date]
  have day : extendedDate? 10 (t.written ++ o.written) = some t.day := by
    rw [split, extendedDate?_date t.year_lt t.month_lt t.dayOfMonth_lt, dayNumber?_fields]
  simp only [extended?, bind, Option.bind_some, length, day, ofDay?_day, behind,
    extendedClock?_fields t o]
  rw [if_pos ⟨t.hour_lt, t.minute_lt, t.second_lt⟩, micros]
  rfl

end WallTime

namespace Zoned

open Reading

variable {t : Zoned} {o : Offset}

/-- The basic form is used for the instant. -/
def IsPlain (t : Zoned) : Prop := t.offset.micros = 0 ∧ t.wall.microsecond = 0

theorem offset_of_fixed (zone : t.zone = .fixed o) : t.offset = o := by
  rw [Zoned.offset, zone]
  rfl

theorem writtenInRule_of_plain (plain : t.IsPlain) : t.writtenInRule = t.wall.writtenBasic :=
  if_pos plain

theorem writtenInRule_of_not_plain (plain : ¬ t.IsPlain) : t.writtenInRule = t.written :=
  if_neg plain

/-- The extended form is read for every year. -/
theorem stamp?_written (zone : t.zone = .fixed o) :
    stamp? t.written = some ⟨t.wall, some (.fixed o.asRead), false⟩ := by
  have basic : basic? t.written = none := by
    have split : ∃ rest, t.written = decimals 4 t.wall.year ++ '-' :: rest := by
      rw [written, WallTime.written, WallTime.writtenDate]
      simp only [List.append_assoc, List.cons_append]
      exact ⟨_, rfl⟩
    obtain ⟨rest, split⟩ := split
    rw [split, basic?_extended t.wall.year_lt]
  rw [stamp?, basic]
  dsimp only
  rw [written, offset_of_fixed zone]
  exact t.wall.extended?_written o

/-- The basic form is read where the year has four digits. -/
theorem stamp?_writtenBasic (zone : t.zone = .fixed o) (plain : t.IsPlain)
    (year : 1000 ≤ t.wall.year) : stamp? t.wall.writtenBasic = some ⟨t.wall, some t.zone, false⟩ := by
  have fields := t.wall.ofCivil?_fields
  rw [plain.2] at fields
  have utc : o = .zero := by
    have none := plain.1
    rw [offset_of_fixed zone] at none
    obtain ⟨n, under⟩ := o
    cases none
    rfl
  rw [stamp?, basic?_eq_some_iff.mpr (WallTime.basic_writtenBasic year)]
  simp [BasicForm.stamp?, fields, zone, utc, Zone.utc]

theorem stamp?_writtenInRule (zone : t.zone = .fixed o) (year : t.IsPlain → 1000 ≤ t.wall.year) :
    stamp? t.writtenInRule = some ⟨t.wall, some (.fixed o.asRead), false⟩ := by
  by_cases plain : t.IsPlain
  · have legible : o.Legible := .inl (offset_of_fixed zone ▸ plain.1)
    rw [writtenInRule_of_plain plain, stamp?_writtenBasic zone plain (year plain), zone,
      Offset.asRead_eq_iff.mpr legible]
  · rw [writtenInRule_of_not_plain plain, stamp?_written zone]

/-! All that is written of an instant can stand in a word. -/

theorem isWordChar_decimals {k n : Nat} : ∀ c ∈ decimals k n, Token.isWordChar c = true :=
  fun _ member => Token.isWordChar_of_isDigit (isDigit_of_mem_decimals member)

theorem isWordChar_writtenFraction {micros : Nat} :
    ∀ c ∈ writtenFraction micros, Token.isWordChar c = true := by
  intro c member
  rcases mem_writtenFraction member with digit | rfl
  · exact Token.isWordChar_of_isDigit digit
  · decide

theorem isWordChar_writtenOffset (o : Offset) : ∀ c ∈ o.written, Token.isWordChar c = true := by
  have sign : Token.isWordChar (if o.micros < 0 then '-' else '+') = true := by split <;> decide
  have colon : Token.isWordChar ':' = true := by decide
  have seconds (n : Nat) : ∀ c ∈ (if n = 0 then [] else ':' :: decimals 2 (n / secondMicros) ++
      writtenFraction (n % secondMicros) : List Char), Token.isWordChar c = true := by
    split
    · simp
    · simpa only [List.cons_append, List.forall_mem_append, List.forall_mem_cons] using
        ⟨colon, isWordChar_decimals, isWordChar_writtenFraction⟩
  simp only [Offset.written, List.cons_append, List.forall_mem_append, List.forall_mem_cons]
  exact ⟨sign, ⟨isWordChar_decimals, colon, isWordChar_decimals⟩, seconds _⟩

/-- An instant is written as one word. -/
theorem isWord_writtenInRule (t : Zoned) : Token.IsWord t.writtenInRule := by
  have digits {k n : Nat} := isWordChar_decimals (k := k) (n := n)
  have year : ∀ c ∈ Nat.toDigits 10 t.wall.year, Token.isWordChar c = true :=
    (Token.isWord_toDigits _).run
  have marks : Token.isWordChar '-' = true ∧ Token.isWordChar ':' = true ∧
      Token.isWordChar 'T' = true ∧ Token.isWordChar 'Z' = true := by decide
  obtain ⟨minus, colon, mark, zulu⟩ := marks
  unfold writtenInRule
  split
  · constructor
    · simp [WallTime.writtenBasic]
    · simp only [WallTime.writtenBasic, List.forall_mem_append, List.forall_mem_cons,
        Nat.toString_eq_ofList_toDigits, String.toList_ofList]
      exact ⟨⟨⟨⟨⟨⟨year, digits⟩, digits⟩, mark, digits⟩, digits⟩, digits⟩, zulu, by simp⟩
  · constructor
    · simp [written, WallTime.written]
    · simp only [written, WallTime.written, WallTime.writtenDate, WallTime.writtenClock,
        List.forall_mem_append, List.forall_mem_cons]
      exact ⟨⟨⟨⟨digits, minus, digits⟩, minus, digits⟩, mark,
        ⟨⟨digits, colon, digits⟩, colon, digits⟩, isWordChar_writtenFraction⟩,
        isWordChar_writtenOffset _⟩

end Zoned

end Almanac
