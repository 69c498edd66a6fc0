import Almanac.Numeric.Power
import Almanac.Text.Digit
import Almanac.Time.Zoned

set_option autoImplicit false

/-!
Reading instants.

The basic form is eight digits of a date, optionally followed by `T`, six digits of a time and `Z`;
its digits may be of any script. All other text is read in the extended form: a civil date or a week
date, each with or without hyphens, then any one character and a time, then an offset.

In a time the fields have two digits and are divided by colons or by nothing, as the first division
decides. A fraction follows a point or a comma, a further colon, or the six digits of a time
without colons; its first six digits count. An offset starts at the first sign or `Z`, and
one stray ASCII character before it is passed over. A NUL ends a time as the end of the text does.
-/

namespace Almanac.Reading

open Calendar Text

/-- The number of `k` digits at the start of the text, and what follows them. -/
def number? (digit? : Char → Option Nat) : Nat → Nat → List Char → Option (Nat × List Char)
  | 0, n, s => some (n, s)
  | _ + 1, _, [] => none
  | k + 1, n, c :: s => do number? digit? k (10 * n + (← digit? c)) s

def skip? (c : Char) : List Char → Option (List Char)
  | [] => none
  | d :: s => if c = d then some s else none

/-! The basic form. -/

structure BasicForm where
  year : Nat
  month : Nat
  day : Nat
  hour : Nat
  minute : Nat
  second : Nat
  utc : Bool

def basicClock? (s : List Char) : Option (Nat × Nat × Nat × Bool) := do
  let (h, s) ← number? digit? 2 0 s
  let (m, s) ← number? digit? 2 0 s
  let (sec, s) ← number? digit? 2 0 s
  match s with
  | [] => return (h, m, sec, false)
  | ['Z'] => return (h, m, sec, true)
  | _ => none

def basic? (s : List Char) : Option BasicForm := do
  let (y, s) ← number? digit? 4 0 s
  let (m, s) ← number? digit? 2 0 s
  let (d, s) ← number? digit? 2 0 s
  match s with
  | [] => return ⟨y, m, d, 0, 0, 0, false⟩
  | 'T' :: s =>
    let (h, mi, sec, utc) ← basicClock? s
    return ⟨y, m, d, h, mi, sec, utc⟩
  | _ => none

def BasicForm.stamp? (f : BasicForm) : Option Stamp := do
  let wall ← WallTime.ofCivil? f.year f.month f.day f.hour f.minute f.second 0
  return ⟨wall, if f.utc then some .utc else none, false⟩

/-! Dates of the extended form. -/

def asciiDigitAt (s : List Char) (i : Nat) : Bool := (s[i]?.bind asciiDigit?).isSome

/-- The number of characters that a date takes at the start of the text. In a week date without
hyphens the digits after the week tell whether a day follows, since the digits of a time come in
pairs. -/
def dateLength? (s : List Char) : Option Nat :=
  if s.length < 7 then none
  else if s.length = 7 then some 7
  else if s[4]? = some '-' then
    if s[5]? = some 'W' then
      if s[8]? = some '-' then
        if s.length = 9 then none
        else if asciiDigitAt s 10 then some 8
        else some 10
      else some 8
    else some 10
  else if s[4]? = some 'W' then
    let stop := 7 + ((s.drop 7).takeWhile (fun c => (asciiDigit? c).isSome)).length
    if stop < 9 then some stop
    else if stop % 2 = 0 then some 7
    else some 8
  else some 8

/-- The first day of week 1, in weeks from Monday to Sunday. -/
def isoYearStart (y : Nat) : Int :=
  let newYear := daysBeforeYear y
  let since := newYear % 7
  if since ≤ 3 then (newYear : Int) - since else newYear + (7 - since)

def weekDay? (y w d : Nat) : Option Nat :=
  let newYear := daysBeforeYear y % 7
  let long := newYear = 3 ∨ newYear = 2 ∧ isLeap y
  if 1 ≤ y ∧ y ≤ lastYear ∧ (1 ≤ w ∧ w ≤ 52 ∨ w = 53 ∧ long) ∧ 1 ≤ d ∧ d ≤ 7 then
    let n := isoYearStart y + (w - 1) * 7 + (d - 1)
    if 0 ≤ n ∧ n < dayCount then some n.toNat else none
  else none

def weekDate? (length y : Nat) (hyphens : Bool) (s : List Char) : Option Nat := do
  let (w, s) ← number? asciiDigit? 2 0 s
  let taken := if hyphens then 8 else 7
  if taken < length then
    let s ← if hyphens then skip? '-' s else some s
    let (d, _) ← number? asciiDigit? 1 0 s
    weekDay? y w d
  else weekDay? y w 1

def civilDate? (y : Nat) (hyphens : Bool) (s : List Char) : Option Nat := do
  let (m, s) ← number? asciiDigit? 2 0 s
  let s ← if hyphens then skip? '-' s else some s
  let (d, _) ← number? asciiDigit? 2 0 s
  dayNumber? y m d

/-- The day that a date of the given length writes. -/
def extendedDate? (length : Nat) (s : List Char) : Option Nat := do
  let (y, s) ← number? asciiDigit? 4 0 s
  let (hyphens, s) := match s with
    | '-' :: s => (true, s)
    | s => (false, s)
  match s with
  | 'W' :: s => weekDate? length y hyphens s
  | s => civilDate? y hyphens s

/-! Times of the extended form. -/

/-- Hours, minutes, seconds and microseconds as written, and whether the text ends with them. -/
structure ClockForm where
  hour : Nat
  minute : Nat
  second : Nat
  micros : Nat
  complete : Bool

def isEnd (s : List Char) : Bool :=
  match s with
  | [] => true
  | c :: _ => c.toNat = 0

/-- Reads up to six digits of a fraction, which take the rest of the field, and passes over
further ones. `width` is the length of the field and `s` also holds what follows it. -/
def fraction? (width : Nat) (s : List Char) : Option (Nat × Bool) := do
  let taken := min width 6
  let (n, rest) ← number? asciiDigit? taken 0 s
  return (n * pow10 (6 - taken), isEnd (rest.dropWhile (fun c => (asciiDigit? c).isSome)))

inductive Division where
  | colons
  | none

/-- Reads the fields from the one at place `i` on. `width` is what is left of the time and `s` also
holds what follows it, so that a division may be read past the end of the time. -/
def clockFields? : Nat → Division → Nat → List Char → List Nat → Option (List Nat × Nat × Bool)
  | 0, _, width, s, read => do
    let (micros, complete) ← fraction? width s
    return (read, micros, complete)
  | left + 1, division, width, s, read => do
    let (n, s) ← number? asciiDigit? 2 0 s
    let read := read ++ [n]
    let c := s.headD (Char.ofNat 0)
    let division := if left = 2 then (if c = ':' then .colons else .none) else division
    if width ≤ 3 then
      if width = 3 ∧ 128 ≤ c.toNat then none
      else return (read, 0, c.toNat = 0)
    else
      match division, c with
      | .colons, ':' => clockFields? left division (width - 3) (s.drop 1) read
      | _, '.' | _, ',' =>
        let (micros, complete) ← fraction? (width - 3) (s.drop 1)
        return (read, micros, complete)
      | .none, _ => clockFields? left division (width - 2) s read
      | .colons, _ => none

/-- Reads a time that takes the first `width` characters of the text. -/
def clock? (width : Nat) (s : List Char) : Option ClockForm := do
  let (read, micros, complete) ← clockFields? 3 .none width s []
  return ⟨read.getD 0 0, read.getD 1 0, read.getD 2 0, micros, complete⟩

def startsOffset (c : Char) : Bool := c = '+' || c = '-' || c = 'Z'

/-- The zone of an offset. Less than a second counts only beside whole seconds. -/
def offset? (negative : Bool) (c : ClockForm) : Option Zone :=
  let seconds := c.hour * 3600 + c.minute * 60 + c.second
  if seconds = 0 then some .utc
  else
    let n := seconds * secondMicros + c.micros
    (Offset.ofMicros? (signed negative n)).map .fixed
where
  signed (negative : Bool) (n : Nat) : Int := if negative then -(n : Int) else n

/-- The time of day and the zone. -/
def extendedClock? (s : List Char) : Option (ClockForm × Option Zone) := do
  let width := (s.takeWhile (fun c => !startsOffset c)).length
  let time ← clock? width s
  match s.drop width with
  | [] => if time.complete then return (time, none) else none
  | 'Z' :: rest => if isEnd rest then return (time, some .utc) else none
  | sign :: rest =>
    let offset ← clock? rest.length rest
    if offset.complete then return (time, some (← offset? (sign = '-') offset)) else none

def extended? (s : List Char) : Option Stamp := do
  let length ← dateLength? s
  let day ← extendedDate? length s
  let date ← Date.ofDay? day
  match s.drop length with
  | [] => return ⟨.startOf date, none, false⟩
  | _ :: rest =>
    let (time, zone) ← extendedClock? rest
    if time.hour < 24 ∧ time.minute < 60 ∧ time.second < 60 then
      let micros := time.hour * hourMicros + time.minute * minuteMicros +
        time.second * secondMicros + time.micros
      return ⟨← (WallTime.startOf date).add? micros, zone, false⟩
    else none

/-- The instant that a text writes. -/
def stamp? (s : List Char) : Option Stamp :=
  match basic? s with
  | some form => form.stamp?
  | none => extended? s

end Almanac.Reading
