set_option autoImplicit false

/-!
The seven weekdays, numbered from Monday, and the names they are read from.
-/

namespace Almanac

inductive Weekday where
  | monday | tuesday | wednesday | thursday | friday | saturday | sunday
  deriving DecidableEq, Repr

namespace Weekday

/-- Monday is 0 and Sunday is 6. -/
def index : Weekday → Nat
  | monday => 0
  | tuesday => 1
  | wednesday => 2
  | thursday => 3
  | friday => 4
  | saturday => 5
  | sunday => 6

/-- Monday is 1 and Sunday is 7. -/
def number (w : Weekday) : Nat := w.index + 1

def all : List Weekday := [monday, tuesday, wednesday, thursday, friday, saturday, sunday]

def ofIndex (n : Nat) : Weekday := all.getD (n % 7) monday

def ofNumber? (n : Int) : Option Weekday := all.find? (fun w => (w.number : Int) = n)

/-- The two-letter code. -/
def code : Weekday → String
  | monday => "MO"
  | tuesday => "TU"
  | wednesday => "WE"
  | thursday => "TH"
  | friday => "FR"
  | saturday => "SA"
  | sunday => "SU"

/-- The lower-case names of a weekday: two letters, three letters, in full. -/
def names : Weekday → List String
  | monday => ["mo", "mon", "monday"]
  | tuesday => ["tu", "tue", "tuesday"]
  | wednesday => ["we", "wed", "wednesday"]
  | thursday => ["th", "thu", "thursday"]
  | friday => ["fr", "fri", "friday"]
  | saturday => ["sa", "sat", "saturday"]
  | sunday => ["su", "sun", "sunday"]

def ofName? (s : String) : Option Weekday := all.find? (fun w => w.names.contains s)

/-- Day 0 of the calendar is a Monday. -/
def ofDay (n : Nat) : Weekday := ofIndex n

@[simp] theorem index_ofIndex (n : Nat) : (ofIndex n).index = n % 7 := by
  have h : n % 7 < 7 := Nat.mod_lt _ (by decide)
  unfold ofIndex
  generalize n % 7 = k at h
  match k, h with
  | 0, _ | 1, _ | 2, _ | 3, _ | 4, _ | 5, _ | 6, _ => rfl

theorem index_lt (w : Weekday) : w.index < 7 := by cases w <;> decide

/-- The days from the last `w` on or before day `n` to day `n`. -/
def daysSince (w : Weekday) (n : Nat) : Nat := (n + 7 - w.index) % 7

end Weekday

end Almanac
