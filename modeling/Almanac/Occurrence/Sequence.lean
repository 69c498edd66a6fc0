import Almanac.Occurrence.Scan

set_option autoImplicit false

/-!
The occurrences of a rule, one after another.

A sequence takes the candidates of a scan that are later than the last one taken, as long as the
count and both bounds allow. It passes over those before `notBefore`, which still use up the count;
without a count its scan resumes near `notBefore`. Once exhausted a sequence stays so. An error in
the scan finishes the scan, so the next call finds the sequence exhausted.
-/

namespace Almanac

structure Sequence where
  plan : Plan
  notBefore : Option Zoned
  scan : Scan
  last : Option Zoned
  counted : Nat
  exhausted : Bool

namespace Sequence

def ofRule (r : Rule) (notBefore : Option Stamp) : Sequence :=
  { plan := .ofRule r
    notBefore := notBefore.map (·.inZone r.start.zone)
    scan := .fresh (if r.count.isNone then notBefore else none)
    last := none
    counted := 0
    exhausted := false }

/-- What one step of a sequence gives. -/
inductive Step where
  | skip (s : Sequence)
  | found (t : Zoned) (s : Sequence)
  | ended (s : Sequence)
  | outOfRange (s : Sequence)

def exhaust (s : Sequence) : Step := .ended { s with exhausted := true }

def countReached (s : Sequence) : Bool := s.plan.rule.count.any (fun n => n ≤ s.counted)

/-- Whether an instant lies past one of the bounds of the rule. -/
def isPast (s : Sequence) (t : Zoned) : Bool :=
  s.plan.rule.finish.any (fun finish => finish.before t) ||
    s.plan.rule.endsBefore.any (fun stop => stop.notAfter t)

/-- Takes the candidate `t`, after which the scan is `scan`. -/
def take (s : Sequence) (t : Zoned) (scan : Scan) : Step :=
  let s := { s with scan }
  if s.last.any (fun last => t.notAfter last) then .skip s
  else if s.isPast t then s.exhaust
  else
    let s := { s with last := some t, counted := s.counted + 1 }
    if s.notBefore.any (fun bound => t.before bound) then .skip s else .found t s

def step (s : Sequence) : Step :=
  if s.exhausted then .ended s
  else if s.countReached then s.exhaust
  else match s.scan.step s.plan with
    | .skip scan => .skip { s with scan }
    | .emit t scan => s.take t scan
    | .stop => exhaust { s with scan := .finished }
    | .outOfRange => .outOfRange { s with scan := .finished }

theorem take_lt (s : Sequence) {t : Zoned} {scan : Scan} {s' : Sequence}
    (h : s.take t scan = .skip s' ∨ ∃ u, s.take t scan = .found u s') :
    s'.plan = s.plan ∧ s'.scan = scan := by
  simp only [take, exhaust] at h
  split at h
  · rcases h with h | ⟨u, h⟩ <;> cases h
    exact ⟨rfl, rfl⟩
  · split at h
    · simp at h
    · split at h
      · rcases h with h | ⟨u, h⟩ <;> cases h
        exact ⟨rfl, rfl⟩
      · rcases h with h | ⟨u, h⟩ <;> cases h
        exact ⟨rfl, rfl⟩

/-- A step that goes on leaves the scan nearer to its end. -/
theorem step_lt {s s' : Sequence} (h : s.step = .skip s' ∨ ∃ t, s.step = .found t s') :
    s'.plan = s.plan ∧ s'.scan.Nearer s.plan s.scan := by
  simp only [step, exhaust] at h
  split at h
  · simp at h
  · split at h
    · simp at h
    · split at h
      · rename_i scan hs
        rcases h with h | ⟨u, h⟩ <;> cases h
        exact ⟨rfl, Scan.step_lt _ (.inl hs)⟩
      · rename_i t scan hs
        obtain ⟨hp, hc⟩ := take_lt s h
        exact ⟨hp, hc ▸ Scan.step_lt _ (.inr ⟨t, hs⟩)⟩
      · simp at h
      · simp at h

/-- What a sequence answers when asked for an occurrence. -/
inductive Answer where
  | found (t : Zoned)
  | ended
  | outOfRange
  deriving DecidableEq

/-- The first occurrence that is not passed over, the number of those passed over on top of
`passed`, and the sequence after it. -/
def seek (passOver : Zoned → Bool) (s : Sequence) (passed : Nat) : Answer × Nat × Sequence :=
  match _h : s.step with
  | .skip s' => seek passOver s' passed
  | .found t s' => if passOver t then seek passOver s' (passed + 1) else (.found t, passed, s')
  | .ended s' => (.ended, passed, s')
  | .outOfRange s' => (.outOfRange, passed, s')
termination_by s.scan.distance s.plan
decreasing_by
  · obtain ⟨hp, hlt⟩ := step_lt (.inl ‹_›)
    rw [hp]
    exact hlt
  · obtain ⟨hp, hlt⟩ := step_lt (.inr ⟨_, ‹_›⟩)
    rw [hp]
    exact hlt

/-- The next occurrence. -/
def next (s : Sequence) : Answer × Sequence :=
  let (answer, _, s) := s.seek (fun _ => false) 0
  (answer, s)

/-- How taking a number of occurrences came to its end. -/
inductive Ending where
  | limit
  | ended
  | outOfRange
  deriving DecidableEq

/-- The next `n` occurrences. -/
def takeNext : Nat → Sequence → List Zoned × Ending × Sequence
  | 0, s => ([], .limit, s)
  | n + 1, s =>
    match s.next with
    | (.found t, s) =>
      let (ts, ending, s) := takeNext n s
      (t :: ts, ending, s)
    | (.ended, s) => ([], .ended, s)
    | (.outOfRange, s) => ([], .outOfRange, s)

end Sequence

end Almanac
