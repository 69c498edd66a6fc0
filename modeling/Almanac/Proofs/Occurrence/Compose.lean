import Almanac.Proofs.Occurrence.Windows
import Almanac.Proofs.Rule.Canonical
import Mathlib.Data.List.Sort

set_option autoImplicit false

/-!
Composing windows.

The windows from one instant to a second and from the second to a third make up the window from the
first to the third just where the scans that resume at the first and at the second have the same
occurrences between the second and the third. So it is from instants that are clear of jumps, and
walking from one such occurrence to the next meets them all. In the hours after a jump that is longer
than the interval of the rule it may not be so: the scan that resumes there leaves out wall times that
the jump skips, although they are read as later.
-/

namespace Almanac

theorem filter_between_append {ts : List Zoned} {u v : Int}
    (rise : ts.Pairwise (fun s t => s.utc < t.utc)) (order : u ≤ v) :
    ts.filter (fun t => t.utc ≤ v) =
      ts.filter (fun t => t.utc ≤ u) ++ (ts.filter (fun t => u < t.utc)).filter
        (fun t => t.utc ≤ v) := by
  induction ts with
  | nil => rfl
  | cons t ts ih =>
    obtain ⟨later, rise⟩ := List.pairwise_cons.mp rise
    by_cases early : t.utc ≤ u
    · rw [List.filter_cons_of_pos (by simp; omega), List.filter_cons_of_pos (by simpa using early),
        List.filter_cons_of_neg (by simp; omega), ih rise, List.cons_append]
    · have none : ts.filter (fun t => t.utc ≤ u) = [] := by
        apply List.filter_eq_nil_iff.mpr
        intro s member
        have := later s member
        rw [decide_eq_true_eq]
        omega
      have all : ts.filter (fun t => u < t.utc) = ts := by
        apply List.filter_eq_self.mpr
        intro s member
        have := later s member
        rw [decide_eq_true_eq]
        omega
      rw [List.filter_cons_of_neg (p := fun t : Zoned => decide (t.utc ≤ u)) (by simpa using early),
        none, List.filter_cons_of_pos (p := fun t : Zoned => decide (u < t.utc))
          (by simpa using early), all, List.nil_append]

theorem filter_later_later {u v : Int} (order : u ≤ v) (ts : List Zoned) :
    (ts.filter (fun t => u < t.utc)).filter (fun t => v < t.utc) =
      ts.filter (fun t => v < t.utc) := by
  rw [List.filter_filter]
  apply List.filter_congr
  intro t _
  rw [← Bool.decide_and, decide_eq_decide]
  omega

theorem eq_of_rise {ts ts' : List Zoned} (rise : ts.Pairwise (fun s t => s.utc < t.utc))
    (rise' : ts'.Pairwise (fun s t => s.utc < t.utc)) (same : ∀ t, t ∈ ts ↔ t ∈ ts') : ts = ts' := by
  have : Std.Irrefl (fun s t : Zoned => s.utc < t.utc) := ⟨fun t => Int.lt_irrefl t.utc⟩
  have : Std.Antisymm (fun s t : Zoned => s.utc < t.utc) :=
    ⟨fun s t less less' => absurd less (Int.lt_asymm less')⟩
  exact rise.eq_of_mem_iff rise' same

namespace Window

variable {r : Rule} {a b c : Stamp}

/-- Whether the windows from `a` to `b` and from `b` to `c` make up the one from `a` to `c`. -/
def Composes (r : Rule) (a b c : Stamp) : Prop :=
  (between r a c).run.1 = (between r a b).run.1 ++ (between r b c).run.1

/-- Windows compose just where resuming at the second instant gives what resuming at the first
does. -/
theorem composes_iff (canonical : r.Canonical) (steady : r.Steady) (ha : r.Marks a)
    (hb : r.Marks b) (hc : r.Marks c) (hab : r.utcOf a ≤ r.utcOf b) (hbc : r.utcOf b ≤ r.utcOf c)
    (ab : (between r a b).run.2 ≠ .outOfRange) (bc : (between r b c).run.2 ≠ .outOfRange)
    (ac : (between r a c).run.2 ≠ .outOfRange) :
    Composes r a b c ↔ ∀ t : Zoned, r.utcOf b < t.utc → t.utc ≤ r.utcOf c →
      (t ∈ r.occurrences (some a) ↔ t ∈ r.occurrences (some b)) := by
  obtain ⟨rise, _⟩ := Rule.occurrences_rise canonical steady (some a)
  obtain ⟨rise', _⟩ := Rule.occurrences_rise canonical steady (some b)
  rw [Composes, run_between canonical steady ha hc ac, run_between canonical steady ha hb ab,
    run_between canonical steady hb hc bc, filter_between_append (rise.filter _) hbc,
    filter_later_later hab, List.append_cancel_left_eq]
  constructor
  · intro same t after upTo
    have mem := congrArg (fun ts => t ∈ ts) same
    simpa [after, upTo] using mem
  · intro same
    apply eq_of_rise ((rise.filter _).filter _) ((rise'.filter _).filter _)
    intro t
    simp only [List.mem_filter, decide_eq_true_eq]
    constructor
    · rintro ⟨⟨member, after⟩, upTo⟩
      exact ⟨⟨(same t after upTo).mp member, after⟩, upTo⟩
    · rintro ⟨⟨member, after⟩, upTo⟩
      exact ⟨⟨(same t after upTo).mpr member, after⟩, upTo⟩

theorem composes_of_clear (canonical : r.Canonical) (steady : r.Steady) (ha : r.Marks a)
    (hb : r.Marks b) (hc : r.Marks c) (hab : r.utcOf a ≤ r.utcOf b) (hbc : r.utcOf b ≤ r.utcOf c)
    (aclear : r.ClearOfJumps a) (bclear : r.ClearOfJumps b)
    (ab : (between r a b).run.2 ≠ .outOfRange) (bc : (between r b c).run.2 ≠ .outOfRange)
    (ac : (between r a c).run.2 ≠ .outOfRange) : Composes r a b c := by
  obtain ⟨rise, _⟩ := Rule.occurrences_rise canonical steady none
  rw [Composes, run_between_clear canonical steady ha hc aclear ac,
    run_between_clear canonical steady ha hb aclear ab,
    run_between_clear canonical steady hb hc bclear bc, filter_between_append (rise.filter _) hbc,
    filter_later_later hab]

end Window

namespace Rule

variable {r : Rule} {x : Stamp}

/-- The occurrences met by walking on from an instant, each time from the one just met, as many as
`n`; nothing where the walk leaves the calendar. -/
def walk? (r : Rule) : Stamp → Nat → Option (List Zoned)
  | _, 0 => some []
  | x, n + 1 =>
    match r.nextFrom x with
    | .found t => (walk? r t n).map (t :: ·)
    | .ended => some []
    | .outOfRange => none

theorem filter_later_of_cons {ts rest : List Zoned} {t : Zoned} {u : Int}
    (rise : ts.Pairwise (fun s t => s.utc < t.utc))
    (later : ts.filter (fun s => u < s.utc) = t :: rest) :
    ts.filter (fun s => t.utc < s.utc) = rest := by
  have first := (later ▸ rise.filter _ : (t :: rest).Pairwise (fun s t => s.utc < t.utc))
  have member : t ∈ ts.filter (fun s => u < s.utc) := later ▸ List.mem_cons_self
  have after : u < t.utc := by simpa using (List.mem_filter.mp member).2
  calc ts.filter (fun s => t.utc < s.utc)
      = (ts.filter (fun s => u < s.utc)).filter (fun s => t.utc < s.utc) := by
        rw [filter_later_later (by omega)]
    _ = (t :: rest).filter (fun s => t.utc < s.utc) := by rw [later]
    _ = rest := by
        rw [List.filter_cons_of_neg (by simp), List.filter_eq_self]
        intro s hs
        exact decide_eq_true ((List.pairwise_cons.mp first).1 s hs)

/-- Walking over instants that are clear of jumps meets the first occurrences after the instant. -/
theorem walk?_eq (canonical : r.Canonical) (steady : r.Steady) (marks : r.Marks x)
    (clear : r.ClearOfJumps x) {n : Nat} {walked : List Zoned} (h : r.walk? x n = some walked)
    (clears : ∀ t ∈ walked, r.ClearOfJumps t) :
    walked = ((r.occurrences none).filter (fun t => r.utcOf x < t.utc)).take n := by
  induction n generalizing x walked with
  | zero =>
    cases h
    rfl
  | succ n ih =>
    obtain ⟨rise, plain⟩ := occurrences_rise canonical steady none
    rw [walk?] at h
    have next := nextFrom_eq canonical steady marks clear
    generalize hlater : (r.occurrences none).filter (fun t => r.utcOf x < t.utc) = later at next ⊢
    match hn : r.nextFrom x with
    | .outOfRange =>
      rw [hn] at h
      cases h
    | .ended =>
      rw [hn] at h next
      cases h
      cases later with
      | nil => rfl
      | cons t ts => cases next (by decide)
    | .found t =>
      rw [hn] at h next
      cases later with
      | nil => cases next nofun
      | cons u rest =>
        cases next nofun
        obtain ⟨others, hothers, rfl⟩ := Option.map_eq_some_iff.mp h
        have member : t ∈ (r.occurrences none).filter (fun t => r.utcOf x < t.utc) :=
          hlater ▸ List.mem_cons_self
        obtain ⟨zone, tplain⟩ := plain t (List.mem_of_mem_filter member)
        have rest_eq : (r.occurrences none).filter (fun s => r.utcOf (t : Stamp) < s.utc) = rest :=
          filter_later_of_cons rise hlater
        rw [List.take_succ_cons, ih (marks_of_plain steady zone tplain)
          (clears t List.mem_cons_self) hothers
          (fun s hs => clears s (List.mem_cons_of_mem t hs)), rest_eq]

/-- Windows of a steady rule between instants of UTC. They compose just where the scans that resume
at the first and at the second instant have the same occurrences between the second and the third,
as they do from instants that are clear of jumps; and walking on over such instants meets the same
occurrences as taking them one after another. -/
theorem windows_compose {spec : Spec} {now : Stamp} (read : spec.rule now = .ok r)
    (steady : r.Steady) :
    (∀ a b c : Stamp, a.zone = some .utc → b.zone = some .utc → c.zone = some .utc →
      a.wall.micros ≤ b.wall.micros → b.wall.micros ≤ c.wall.micros →
      (Window.between r a b).run.2 ≠ .outOfRange → (Window.between r b c).run.2 ≠ .outOfRange →
      (Window.between r a c).run.2 ≠ .outOfRange →
      (Window.Composes r a b c ↔ ∀ t : Zoned, (b.wall.micros : Int) < t.utc →
        t.utc ≤ c.wall.micros → (t ∈ r.occurrences (some a) ↔ t ∈ r.occurrences (some b))) ∧
      (r.ClearOfJumps a → r.ClearOfJumps b → Window.Composes r a b c)) ∧
    ∀ (a : Stamp) (n : Nat) (visited walked : List Zoned), a.zone = some .utc →
      r.nextFewFrom? a n = some visited → r.walk? a n = some walked →
      r.ClearOfJumps a → (∀ t ∈ walked, r.ClearOfJumps t) → walked = visited := by
  have canonical := Spec.rule_canonical read
  have marks {x : Stamp} (hx : x.zone = some .utc) : r.Marks x := marks_of_fixed hx
  have utc {x : Stamp} (hx : x.zone = some .utc) : r.utcOf x = x.wall.micros := by
    rw [utcOf, Stamp.inZone, hx]
    exact Int.sub_zero _
  constructor
  · intro a b c ha hb hc hab hbc ab bc ac
    have hab' : r.utcOf a ≤ r.utcOf b := by
      rw [utc ha, utc hb]
      omega
    have hbc' : r.utcOf b ≤ r.utcOf c := by
      rw [utc hb, utc hc]
      omega
    rw [← utc hb, ← utc hc]
    exact ⟨Window.composes_iff canonical steady (marks ha) (marks hb) (marks hc) hab' hbc' ab bc ac,
      fun aclear bclear => Window.composes_of_clear canonical steady (marks ha) (marks hb) (marks hc)
        hab' hbc' aclear bclear ab bc ac⟩
  · intro a n visited walked ha hvisited hwalked clear clears
    rw [walk?_eq canonical steady (marks ha) clear hwalked clears,
      nextFewFrom?_eq canonical steady (marks ha) clear n hvisited]

/-- The clocks of New York in 2011, until November. -/
def newYork : Zone := .table
  { name := "New York"
    initial := ⟨-18000000000, by decide⟩
    transitions := [⟨63435596400000000, ⟨-14400000000, by decide⟩⟩] }

/-- The rule that recurs every 25 minutes, from 1:50 until 4:00, over the hour from 2:00 that the
clocks of New York skip. -/
def acrossGap : Rule where
  freq := .minutely
  start := ⟨⟨63435577800000000, by decide⟩, newYork, false⟩
  interval := 25
  count := none
  finish := some ⟨⟨63435600000000000, by decide⟩, .utc, false⟩
  endsBefore := none
  weekStart := .monday
  seconds := []
  minutes := []
  hours := []
  days := []
  monthDays := []
  yearDays := []
  weekNumbers := []
  months := []
  positions := []
  interval_pos := by decide

/-- Its occurrences, at 1:50, 3:15, 3:40 and 3:55. At 3:15 and 3:40 the skipped 2:15 and 2:40 are
read. -/
def metAcrossGap : List Zoned :=
  [⟨⟨63435577800000000, by decide⟩, newYork, false⟩,
    ⟨⟨63435582900000000, by decide⟩, newYork, false⟩,
    ⟨⟨63435584400000000, by decide⟩, newYork, false⟩,
    ⟨⟨63435585300000000, by decide⟩, newYork, false⟩]

/-- The instants at 1:30, 1:55, 3:31 and 3:59 in New York. -/
def aroundGap : List Stamp :=
  [⟨⟨63435594600000000, by decide⟩, some .utc, false⟩,
    ⟨⟨63435596100000000, by decide⟩, some .utc, false⟩,
    ⟨⟨63435598260000000, by decide⟩, some .utc, false⟩,
    ⟨⟨63435599940000000, by decide⟩, some .utc, false⟩]

theorem read_acrossGap : (Spec.map [("freq", .frequency .minutely), ("interval", .int 25),
    ("dtstart", .stamp ⟨⟨63435577800000000, by decide⟩, some newYork, false⟩),
    ("until", .stamp ⟨⟨63435600000000000, by decide⟩, some .utc, false⟩)]).rule
    ⟨.startOf ⟨0, by decide⟩, some .utc, false⟩ = .ok acrossGap := by
  rfl

theorem steady_acrossGap : acrossGap.Steady := by
  refine ⟨⟨List.pairwise_singleton _ _, by decide, ?_⟩, .inr (.inl (by decide))⟩
  intro t member
  cases List.mem_singleton.mp member
  decide

/-- Departing before the gap the rule has all its occurrences, and after it the last one only. -/
theorem run_acrossGap :
    (Sequence.ofRule acrossGap (some aroundGap[0])).run = (metAcrossGap, .ended) ∧
      (Sequence.ofRule acrossGap (some aroundGap[1])).run = (metAcrossGap.drop 1, .ended) ∧
      (Sequence.ofRule acrossGap (some aroundGap[2])).run = (metAcrossGap.drop 3, .ended) := by
  refine ⟨?_, ?_, ?_⟩
  · exact Sequence.run_of_runWithin (n := 20) (by decide +kernel)
  · exact Sequence.run_of_runWithin (n := 20) (by decide +kernel)
  · exact Sequence.run_of_runWithin (n := 20) (by decide +kernel)

theorem between_acrossGap (x y : Stamp) {ts : List Zoned}
    (h : (Sequence.ofRule acrossGap (some x)).run = (ts, .ended)) :
    (Window.between acrossGap x y).run =
      ((ts.filter (fun t => !t.notAfter (x.inZone newYork))).takeWhile
        (fun t => !(y.inZone newYork).before t), .ended) := by
  have seq : (Window.between acrossGap x y).seq.run = (ts, .ended) := h
  rw [Window.run_eq, seq, ite_self]
  rfl

/-- The window from 1:30 to 3:59 is made up of those that meet at 1:55, but not of those that meet at
3:31. -/
theorem windows_acrossGap :
    Window.Composes acrossGap aroundGap[0] aroundGap[1] aroundGap[3] ∧
      ¬ Window.Composes acrossGap aroundGap[0] aroundGap[2] aroundGap[3] ∧
      ¬ ∀ t : Zoned, (aroundGap[2].wall.micros : Int) < t.utc → t.utc ≤ aroundGap[3].wall.micros →
        (t ∈ acrossGap.occurrences (some aroundGap[0]) ↔
          t ∈ acrossGap.occurrences (some aroundGap[2])) := by
  obtain ⟨run, run', run''⟩ := run_acrossGap
  have inside {x y : Stamp} {ts : List Zoned}
      (h : (Sequence.ofRule acrossGap (some x)).run = (ts, .ended)) :
      (Window.between acrossGap x y).run.2 ≠ .outOfRange := by
    rw [between_acrossGap x y h]
    exact nofun
  have clear {x : Stamp} (before : acrossGap.utcOf x < 63435596400000000) :
      acrossGap.ClearOfJumps x := by
    right
    intro T d jump
    cases List.mem_singleton.mp jump
    exact .inr (.inl before)
  obtain ⟨composes, _⟩ := windows_compose read_acrossGap steady_acrossGap
  have fails : ¬ Window.Composes acrossGap aroundGap[0] aroundGap[2] aroundGap[3] := by
    rw [Window.Composes, between_acrossGap _ _ run, between_acrossGap _ _ run,
      between_acrossGap _ _ run'']
    decide +kernel
  refine ⟨?_, fails, ?_⟩
  · exact (composes aroundGap[0] aroundGap[1] aroundGap[3] rfl rfl rfl (by decide) (by decide)
      (inside run) (inside run') (inside run)).2 (clear (by decide)) (clear (by decide))
  · exact fun same => fails ((composes aroundGap[0] aroundGap[2] aroundGap[3] rfl rfl rfl
      (by decide) (by decide) (inside run) (inside run'') (inside run)).1.mpr same)

end Rule

end Almanac
