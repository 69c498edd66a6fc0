import Almanac.Occurrence.Plan
import Almanac.Time.Resolve

set_option autoImplicit false

/-!
Scanning the periods of a plan for its candidates, one small step at a time.

The scan opens the period of the start, or one not long before a point from which it resumes, and
then every period that is a whole number of intervals further on. Frequencies finer than a day skip
periods whose day, hour or minute is not selected. Candidates before the start are passed over. The
scan stops before the last year of the calendar, and after `400 * interval` years in which it met no
candidate at or after the start: by then the pattern of the calendar has come round for every
period that the interval reaches. Every step brings the scan nearer to its end (`step_lt`).
-/

namespace Almanac

open Calendar

namespace Plan

/-- Steps of a thousand million days or more are refused. -/
def stepFits (p : Plan) : Bool :=
  p.rule.interval < 1000000000 * p.rule.freq.perDay

/-- Whether the scan jumps within a day. -/
def isSubDaily (p : Plan) : Bool := p.rule.freq.isSubDaily

/-- The first number at or after `goal` that is a whole number of intervals after `i`. -/
def alignedFrom (p : Plan) (i goal : Nat) : Nat :=
  i + (goal - i + (p.rule.interval - 1)) / p.rule.interval * p.rule.interval

/-- The first period after the day, hour or minute of period `i`, where that is not selected. -/
def boundary? (p : Plan) (i : Nat) : Option (Option Nat) := do
  let f := p.rule.freq
  let day := f.firstDay p.rule.weekStart i
  let t := f.timeOfDay i
  if !(← p.selectsDay? day) then return some ((day + 1) * f.perDay)
  else if f ≠ .hourly && !p.rule.hours.isEmpty && !p.rule.hours.contains (t / hourMicros) then
    let perHour := f.perDay / 24
    return some ((i / perHour + 1) * perHour)
  else if f = .secondly && !p.rule.minutes.isEmpty &&
      !p.rule.minutes.contains (t % hourMicros / minuteMicros) then
    return some ((i / 60 + 1) * 60)
  else return none

/-- The period to look at instead of period `i`: the first aligned one after an unselected day,
hour or minute, else `i` itself. -/
def skipFrom? (p : Plan) (i : Nat) : Option Nat := do
  match ← p.boundary? i with
  | some goal => if p.stepFits then some (p.alignedFrom i goal) else none
  | none => some i

/-- The first period to open. Resuming, it lies one interval before the last aligned period that
starts by then, or is the period of the start where that is later. -/
def firstPeriod? (p : Plan) (resume : Option Stamp) : Option Nat := do
  let r := p.rule
  let i ← r.freq.periodOf? r.weekStart r.start.wall
  match resume with
  | none => return i
  | some stamp =>
    let wall ← stamp.wallIn? r.start.zone
    if p.isSubDaily && !p.stepFits then none
    else
      let goal := (r.freq.periodOf? r.weekStart wall).getD 0
      return i + ((goal - i) / r.interval - 1) * r.interval

end Plan

/-- The state of a scan. When open, `next` is the period to open next, `queue` holds the candidates
left in the one last opened, which lies in year `year`, and `hitYear` is the year of the last
candidate at or after the start, or of the first period. -/
inductive Scan where
  | fresh (resume : Option Stamp)
  | opened (next hitYear year : Nat) (queue : List Nat)
  | finished

namespace Scan

/-- What one step of a scan gives. -/
inductive Step where
  | skip (s : Scan)
  | emit (t : Zoned) (s : Scan)
  | stop
  | outOfRange

/-- Opens period `i`. -/
def openPeriod (p : Plan) (i hitYear year : Nat) : Step :=
  match p.candidates? i with
  | some queue => .skip (.opened (i + p.rule.interval) hitYear year queue)
  | none => .outOfRange

def step (p : Plan) : Scan → Step
  | finished => .stop
  | fresh resume =>
    match p.firstPeriod? resume with
    | some i =>
      let year := yearOf (p.rule.freq.firstDay p.rule.weekStart i)
      .skip (.opened i year year [])
    | none => .outOfRange
  | opened i hitYear year (wall :: queue) =>
    match WallTime.ofMicros? wall >>= p.rule.start.zone.resolve? with
    | some t =>
      if t.before p.rule.start then .skip (.opened i hitYear year queue)
      else .emit t (.opened i year year queue)
    | none => .outOfRange
  | opened i hitYear _ [] =>
    if i < p.rule.freq.periodLimit p.rule.weekStart then
      let year := yearOf (p.rule.freq.firstDay p.rule.weekStart i)
      if 400 * p.rule.interval < year - hitYear then .stop
      else if p.isSubDaily then
        match p.skipFrom? i with
        | some j => if i < j then .skip (.opened j hitYear year []) else openPeriod p i hitYear year
        | none => .outOfRange
      else openPeriod p i hitYear year
    else .stop

/-- How far a scan is from its end: whether its first period is still to be found, the periods left,
and the candidates left in the open one. -/
def distance (p : Plan) : Scan → Nat × Nat × Nat
  | fresh _ => (1, 0, 0)
  | opened i _ _ queue => (0, p.rule.freq.periodLimit p.rule.weekStart - i, queue.length)
  | finished => (0, 0, 0)

def Nearer (p : Plan) (s t : Scan) : Prop :=
  Prod.Lex (· < ·) (Prod.Lex (· < ·) (· < ·)) (s.distance p) (t.distance p)

theorem openPeriod_skip (p : Plan) {i hitYear year : Nat} {s : Scan}
    (h : openPeriod p i hitYear year = .skip s) :
    ∃ queue, s = .opened (i + p.rule.interval) hitYear year queue := by
  unfold openPeriod at h
  split at h
  · cases h
    exact ⟨_, rfl⟩
  · cases h

theorem openPeriod_ne_emit (p : Plan) {i hitYear year : Nat} {t : Zoned} {s : Scan} :
    openPeriod p i hitYear year ≠ .emit t s := by
  unfold openPeriod
  split <;> simp

/-- A step that goes on leaves the scan nearer to its end. -/
theorem step_lt (p : Plan) {s s' : Scan}
    (h : s.step p = .skip s' ∨ ∃ t, s.step p = .emit t s') : Nearer p s' s := by
  have later (i hitYear year year' : Nat) (queue : List Nat) (j : Nat) (hj : i < j)
      (hi : i < p.rule.freq.periodLimit p.rule.weekStart) :
      Nearer p (.opened j hitYear year queue) (.opened i hitYear year' []) := by
    refine .right _ (.left _ _ ?_)
    show _ - j < _ - i
    omega
  match s with
  | finished => simp [step] at h
  | fresh resume =>
    simp only [step] at h
    split at h
    · rcases h with h | ⟨t, h⟩
      · cases h
        exact .left _ _ (by decide)
      · cases h
    · simp at h
  | opened i hitYear year (wall :: queue) =>
    simp only [step] at h
    split at h
    · split at h
      · rcases h with h | ⟨t, h⟩
        · cases h
          exact .right _ (.right _ (by simp))
        · cases h
      · rcases h with h | ⟨t, h⟩
        · cases h
        · cases h
          exact .right _ (.right _ (by simp))
    · simp at h
  | opened i hitYear year [] =>
    have opening {y : Nat} (hi : i < p.rule.freq.periodLimit p.rule.weekStart)
        (h : openPeriod p i hitYear y = .skip s' ∨ ∃ t, openPeriod p i hitYear y = .emit t s') :
        Nearer p s' (.opened i hitYear year []) := by
      rcases h with h | ⟨t, h⟩
      · obtain ⟨queue, rfl⟩ := openPeriod_skip p h
        exact later _ _ _ _ _ _ (Nat.lt_add_of_pos_right p.rule.interval_pos) hi
      · exact absurd h (openPeriod_ne_emit p)
    simp only [step] at h
    split at h
    · rename_i hi
      split at h
      · simp at h
      · split at h
        · split at h
          · split at h
            · rcases h with h | ⟨t, h⟩
              · cases h
                exact later _ _ _ _ _ _ (by assumption) hi
              · cases h
            · exact opening hi h
          · simp at h
        · exact opening hi h
    · simp at h

end Scan

end Almanac
