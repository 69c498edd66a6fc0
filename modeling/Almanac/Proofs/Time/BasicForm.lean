import Almanac.Proofs.Calendar.Month
import Almanac.Proofs.Time.Wall
import Almanac.Time.Reading
import Mathlib.Data.List.Forall2

set_option autoImplicit false

/-!
What the basic form of an instant is.

A number of so many digits is read exactly where as many digits stand, and its value is theirs. The
basic form is then a date of eight digits, alone or with a time of six digits behind a `T`, to which a
`Z` may be put.
-/

namespace Almanac

open Calendar

namespace Calendar

/-- Every date of the years 1 to 9999 is a day of the calendar. -/
theorem dayNumber_lt_dayCount {y m d : Nat} (hy : 1 ≤ y) (hy' : y ≤ lastYear) (hm : 1 ≤ m)
    (hm' : m ≤ 12) (hd : d ≤ monthLength y m) (hd' : 1 ≤ d) : dayNumber y m d < dayCount := by
  have month := daysBeforeMonth_le y (k := 13) hm (by omega)
  have year := daysBeforeYear_succ y hy
  have last := daysBeforeYear_mono (show y + 1 ≤ lastYear + 1 by omega)
  rw [daysBeforeMonth_thirteen] at month
  rw [daysBeforeYear_lastYear_succ] at last
  unfold dayNumber
  omega

end Calendar

theorem Date.ofCivil?_isSome_iff {y m d : Nat} : (Date.ofCivil? y m d).isSome ↔
    (1 ≤ y ∧ y ≤ lastYear) ∧ (1 ≤ m ∧ m ≤ 12) ∧ 1 ≤ d ∧ d ≤ monthLength y m := by
  unfold Date.ofCivil? dayNumber?
  split
  · rename_i real
    obtain ⟨y1, y2, m1, m2, d1, d2⟩ := real
    have inside := dayNumber_lt_dayCount y1 y2 m1 m2 d2 d1
    simp [Date.ofDay?, inside, y1, y2, m1, m2, d1, d2]
  · rename_i none
    apply iff_of_false nofun
    rintro ⟨⟨y1, y2⟩, ⟨m1, m2⟩, d1, d2⟩
    exact none ⟨y1, y2, m1, m2, d1, d2⟩

namespace WallTime

/-- Every time of every day of the calendar is in it. -/
theorem ofMicros?_isSome (date : Date) {h mi s us : Nat} (hour : h < 24) (minute : mi < 60)
    (second : s < 60) (micros : us < secondMicros) :
    (ofMicros? (date.day * dayMicros + h * hourMicros + mi * minuteMicros + s * secondMicros +
      us)).isSome := by
  obtain ⟨n, total⟩ : ∃ n : Nat, n = date.day * dayMicros + h * hourMicros + mi * minuteMicros +
    s * secondMicros + us := ⟨_, rfl⟩
  have inside : n < calendarMicros := by
    have day : date.day < 3652059 := date.inCalendar
    rw [dayMicros_eq, hourMicros_eq, minuteMicros_eq, secondMicros_eq] at total
    rw [secondMicros_eq] at micros
    rw [calendarMicros_eq]
    omega
  have made : ofMicros? (n : Int) = some ⟨n, inside⟩ := ofMicros?_eq_some_iff.mpr rfl
  have cast : (n : Int) = date.day * dayMicros + h * hourMicros + mi * minuteMicros +
      s * secondMicros + us := by
    rw [total]
    push_cast
    rfl
  rw [← cast, made]
  rfl

theorem ofCivil?_isSome_iff {y mo d h mi s us : Nat} : (ofCivil? y mo d h mi s us).isSome ↔
    (Date.ofCivil? y mo d).isSome ∧ h < 24 ∧ mi < 60 ∧ s < 60 ∧ us < secondMicros := by
  unfold ofCivil?
  cases Date.ofCivil? y mo d with
  | none => exact iff_of_false nofun (fun given => nomatch given.1)
  | some date =>
    simp only [bind, Option.bind_some]
    split
    · rename_i clock
      obtain ⟨hour, minute, second, micros⟩ := clock
      exact iff_of_true (ofMicros?_isSome date hour minute second micros)
        ⟨rfl, hour, minute, second, micros⟩
    · rename_i none
      exact iff_of_false nofun (fun given => none given.2)

end WallTime

namespace Reading

open Text

/-- The characters are `k` digits, and `n` is the number that they write. -/
def Numeral (digit? : Char → Option Nat) (k n : Nat) (s : List Char) : Prop :=
  ∃ ds, List.Forall₂ (fun c d => digit? c = some d) s ds ∧ ds.length = k ∧ ofDigits ds = n

variable {digit? : Char → Option Nat} {k m n : Nat} {s rest : List Char}

theorem number?_cons {c : Char} : number? digit? (k + 1) n (c :: s) = some (m, rest) ↔
    ∃ d, digit? c = some d ∧ number? digit? k (10 * n + d) s = some (m, rest) := by
  rw [number?]
  cases digit? c <;> simp

/-- Digits are read on from those before them. -/
theorem number?_eq_some_iff_foldl : number? digit? k n s = some (m, rest) ↔
    ∃ t ds, s = t ++ rest ∧ List.Forall₂ (fun c d => digit? c = some d) t ds ∧ ds.length = k ∧
      ds.foldl (fun n d => 10 * n + d) n = m := by
  induction k generalizing n s with
  | zero =>
    constructor
    · rintro ⟨⟩
      exact ⟨[], [], rfl, .nil, rfl, rfl⟩
    · rintro ⟨t, ds, rfl, digits, length, rfl⟩
      obtain rfl := List.length_eq_zero_iff.mp length
      cases digits
      rfl
  | succ k ih =>
    cases s with
    | nil =>
      apply iff_of_false nofun
      rintro ⟨t, ds, split, digits, length, -⟩
      obtain ⟨rfl, -⟩ := List.append_eq_nil_iff.mp split.symm
      cases digits
      cases length
    | cons c s =>
      rw [number?_cons]
      constructor
      · rintro ⟨d, digit, read⟩
        obtain ⟨t, ds, rfl, digits, rfl, value⟩ := ih.mp read
        exact ⟨c :: t, d :: ds, rfl, .cons digit digits, rfl, value⟩
      · rintro ⟨t, ds, split, digits, length, value⟩
        cases digits with
        | nil => cases length
        | @cons c' d t ds digit digits =>
          cases split
          exact ⟨d, digit, ih.mpr ⟨t, ds, rfl, digits, Nat.succ_inj.mp length, value⟩⟩

theorem number?_eq_some_iff : number? digit? k 0 s = some (m, rest) ↔
    ∃ t, s = t ++ rest ∧ Numeral digit? k m t := by
  rw [number?_eq_some_iff_foldl]
  constructor
  · rintro ⟨t, ds, split, digits, length, value⟩
    exact ⟨t, split, ds, digits, length, value⟩
  · rintro ⟨t, split, ds, digits, length, value⟩
    exact ⟨t, ds, split, digits, length, value⟩

theorem forall₂_digits_iff {ds : List Nat} :
    List.Forall₂ (fun c d => digit? c = some d) s ds ↔
      (∀ c ∈ s, (digit? c).isSome) ∧ s.filterMap digit? = ds := by
  induction s generalizing ds with
  | nil => cases ds <;> simp
  | cons c s ih =>
    rw [List.forall₂_cons_left_iff]
    cases digit : digit? c with
    | none => simp [digit]
    | some d => simp [digit, ih, and_assoc, eq_comm (a := ds)]

/-- The characters are all digits, and the number is the one of their values. -/
theorem numeral_iff : Numeral digit? k n s ↔
    s.length = k ∧ (∀ c ∈ s, (digit? c).isSome) ∧ ofDigits (s.filterMap digit?) = n := by
  constructor
  · rintro ⟨ds, digits, rfl, value⟩
    obtain ⟨all, rfl⟩ := forall₂_digits_iff.mp digits
    exact ⟨digits.length_eq, all, value⟩
  · rintro ⟨length, all, value⟩
    have digits := forall₂_digits_iff.mpr ⟨all, rfl⟩
    exact ⟨_, digits, digits.length_eq ▸ length, value⟩

/-- The text is the basic form of an instant. -/
inductive Basic : BasicForm → List Char → Prop where
  | date {year month day : Nat} {y m d : List Char} (isYear : Numeral Text.digit? 4 year y)
      (isMonth : Numeral Text.digit? 2 month m) (isDay : Numeral Text.digit? 2 day d) :
      Basic ⟨year, month, day, 0, 0, 0, false⟩ (y ++ (m ++ d))
  | time {year month day hour minute second : Nat} {y m d h mi s : List Char}
      (isYear : Numeral Text.digit? 4 year y) (isMonth : Numeral Text.digit? 2 month m)
      (isDay : Numeral Text.digit? 2 day d) (isHour : Numeral Text.digit? 2 hour h)
      (isMinute : Numeral Text.digit? 2 minute mi) (isSecond : Numeral Text.digit? 2 second s)
      (utc : Bool) :
      Basic ⟨year, month, day, hour, minute, second, utc⟩
        (y ++ (m ++ (d ++ 'T' :: (h ++ (mi ++ (s ++ if utc then ['Z'] else []))))))

theorem basicClock?_eq_some_iff {h mi sec : Nat} {utc : Bool} :
    basicClock? s = some (h, mi, sec, utc) ↔ ∃ hs ms ss, Numeral Text.digit? 2 h hs ∧
      Numeral Text.digit? 2 mi ms ∧ Numeral Text.digit? 2 sec ss ∧
      s = hs ++ (ms ++ (ss ++ if utc then ['Z'] else [])) := by
  simp only [basicClock?, bind, Option.bind_eq_some_iff, Prod.exists, number?_eq_some_iff]
  constructor
  · rintro ⟨h, s, ⟨hs, rfl, isHour⟩, mi, s, ⟨ms, rfl, isMinute⟩, sec, s, ⟨ss, rfl, isSecond⟩, ends⟩
    split at ends
    · cases ends
      exact ⟨hs, ms, ss, isHour, isMinute, isSecond, rfl⟩
    · cases ends
      exact ⟨hs, ms, ss, isHour, isMinute, isSecond, rfl⟩
    · cases ends
  · rintro ⟨hs, ms, ss, isHour, isMinute, isSecond, rfl⟩
    refine ⟨h, _, ⟨hs, rfl, isHour⟩, mi, _, ⟨ms, rfl, isMinute⟩, sec, _, ⟨ss, rfl, isSecond⟩, ?_⟩
    cases utc <;> rfl

theorem basic?_eq_some_iff {form : BasicForm} : basic? s = some form ↔ Basic form s := by
  simp only [basic?, bind, Option.bind_eq_some_iff, Prod.exists, number?_eq_some_iff]
  constructor
  · rintro ⟨y, s, ⟨ys, rfl, isYear⟩, m, s, ⟨ms, rfl, isMonth⟩, d, s, ⟨ds, rfl, isDay⟩, ends⟩
    split at ends
    · cases ends
      rw [List.append_nil]
      exact .date isYear isMonth isDay
    · obtain ⟨⟨h, mi, sec, utc⟩, read, same⟩ := Option.bind_eq_some_iff.mp ends
      obtain ⟨hs, mis, ss, isHour, isMinute, isSecond, rfl⟩ := basicClock?_eq_some_iff.mp read
      cases same
      exact .time isYear isMonth isDay isHour isMinute isSecond utc
    · cases ends
  · rintro (⟨isYear, isMonth, isDay⟩ | ⟨isYear, isMonth, isDay, isHour, isMinute, isSecond, utc⟩)
    · exact ⟨_, _, ⟨_, rfl, isYear⟩, _, _, ⟨_, rfl, isMonth⟩, _, [], ⟨_, by simp, isDay⟩, rfl⟩
    · refine ⟨_, _, ⟨_, rfl, isYear⟩, _, _, ⟨_, rfl, isMonth⟩, _, _, ⟨_, rfl, isDay⟩, ?_⟩
      exact Option.bind_eq_some_iff.mpr
        ⟨_, basicClock?_eq_some_iff.mpr ⟨_, _, _, isHour, isMinute, isSecond, rfl⟩, rfl⟩

/-- The form gives a date of the calendar and a time of the day. -/
structure BasicForm.IsReal (f : BasicForm) : Prop where
  year : 1 ≤ f.year ∧ f.year ≤ lastYear
  month : 1 ≤ f.month ∧ f.month ≤ 12
  day : 1 ≤ f.day ∧ f.day ≤ monthLength f.year f.month
  clock : f.hour < 24 ∧ f.minute < 60 ∧ f.second < 60

theorem BasicForm.stamp?_isSome_iff {f : BasicForm} : f.stamp?.isSome ↔ f.IsReal := by
  have wall : f.stamp?.isSome =
      (WallTime.ofCivil? f.year f.month f.day f.hour f.minute f.second 0).isSome := by
    unfold BasicForm.stamp?
    cases WallTime.ofCivil? f.year f.month f.day f.hour f.minute f.second 0 <;> rfl
  rw [wall, WallTime.ofCivil?_isSome_iff, Date.ofCivil?_isSome_iff]
  constructor
  · rintro ⟨⟨year, month, day⟩, hour, minute, second, -⟩
    exact ⟨year, month, day, hour, minute, second⟩
  · rintro ⟨year, month, day, hour, minute, second⟩
    exact ⟨⟨year, month, day⟩, hour, minute, second, by decide⟩

end Reading

end Almanac
