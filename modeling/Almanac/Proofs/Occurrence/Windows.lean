import Almanac.Proofs.Occurrence.Steady

set_option autoImplicit false

/-!
Windows on a steady rule.

A window gives the occurrences that its scan has after its first instant and up to its last one.
From a point of departure that is clear of jumps these are occurrences of the rule as it starts, and
the next ones after an instant are the first of them.
-/

namespace Almanac

namespace Window

variable {r : Rule} {x y : Stamp}

theorem filter_startsAfter (marks : r.Marks x) {ts : List Zoned}
    (plain : ∀ t ∈ ts, t.zone = r.start.zone ∧ t.Plain) :
    (ts.filter (fun t => r.utcOf x ≤ t.utc)).filter
        (fun t => !t.notAfter (x.inZone r.start.zone)) =
      ts.filter (fun t => r.utcOf x < t.utc) := by
  rw [List.filter_filter]
  apply List.filter_congr
  intro t member
  obtain ⟨zone, plain⟩ := plain t member
  rw [Bool.eq_iff_iff, Bool.and_eq_true, Bool.not_eq_true', Bool.eq_false_iff, Ne,
    marks.notAfter_iff t zone plain, decide_eq_true_eq, decide_eq_true_eq]
  omega

theorem filter_endsBefore (marks : r.Marks y) {ts : List Zoned}
    (rise : ts.Pairwise (fun s t => s.utc < t.utc))
    (plain : ∀ t ∈ ts, t.zone = r.start.zone ∧ t.Plain) :
    ts.takeWhile (fun t => !(y.inZone r.start.zone).before t) =
      ts.filter (fun t => t.utc ≤ r.utcOf y) := by
  have within (t : Zoned) (member : t ∈ ts) :
      (!(y.inZone r.start.zone).before t) = decide (t.utc ≤ r.utcOf y) := by
    obtain ⟨zone, plain⟩ := plain t member
    rw [Bool.eq_iff_iff, Bool.not_eq_true', Bool.eq_false_iff, Ne, marks.after_iff t zone plain,
      decide_eq_true_eq]
    exact Int.not_lt
  rw [takeWhile_eq_filter]
  · exact List.filter_congr within
  · apply rise.imp_of_mem
    intro s t hs ht less
    rw [within s hs, within t ht, decide_eq_true_eq, decide_eq_true_eq]
    omega

/-- What is known of the sequence of a window gives what the window does. -/
theorem run_between_of_run {all : List Zoned} (starts : r.Marks x) (ends : r.Marks y)
    (rise : all.Pairwise (fun s t => s.utc < t.utc))
    (plain : ∀ t ∈ all, t.zone = r.start.zone ∧ t.Plain)
    (first : (Sequence.ofRule r (some x)).run.1 <+: all.filter (fun t => r.utcOf x ≤ t.utc))
    (whole : (Sequence.ofRule r (some x)).run.2 ≠ .outOfRange →
      (Sequence.ofRule r (some x)).run.1 = all.filter (fun t => r.utcOf x ≤ t.utc))
    (inside : (between r x y).run.2 ≠ .outOfRange) :
    (between r x y).run.1 =
      (all.filter (fun t => r.utcOf x < t.utc)).filter (fun t => t.utc ≤ r.utcOf y) := by
  rw [(run_of_isPrefix (w := between r x y) first whole).2 inside]
  show List.takeWhile (fun t => !(y.inZone r.start.zone).before t) (List.filter
    (fun t => !t.notAfter (x.inZone r.start.zone)) _) = _
  rw [filter_startsAfter starts plain]
  exact filter_endsBefore ends (rise.filter _)
    (fun t member => plain t (List.mem_of_mem_filter member))

/-- A window between two instants gives the occurrences after the first and not after the second
that its scan has on resuming at the first. -/
theorem run_between (canonical : r.Canonical) (steady : r.Steady) (starts : r.Marks x)
    (ends : r.Marks y) (inside : (between r x y).run.2 ≠ .outOfRange) :
    (between r x y).run.1 = ((r.occurrences (some x)).filter (fun t => r.utcOf x < t.utc)).filter
      (fun t => t.utc ≤ r.utcOf y) := by
  obtain ⟨rise, plain⟩ := Rule.occurrences_rise canonical steady (some x)
  have run := Sequence.run_occurrences canonical (some x)
  rw [Sequence.filter_isEarly canonical steady starts] at run
  exact run_between_of_run starts ends rise plain run.1 run.2 inside

/-- A window between an instant that is clear of jumps and another gives the occurrences after the
first and not after the second. -/
theorem run_between_clear (canonical : r.Canonical) (steady : r.Steady) (starts : r.Marks x)
    (ends : r.Marks y) (clear : r.ClearOfJumps x)
    (inside : (between r x y).run.2 ≠ .outOfRange) :
    (between r x y).run.1 = ((r.occurrences none).filter (fun t => r.utcOf x < t.utc)).filter
      (fun t => t.utc ≤ r.utcOf y) := by
  obtain ⟨rise, plain⟩ := Rule.occurrences_rise canonical steady none
  obtain ⟨first, whole⟩ := Sequence.run_resumed canonical steady starts clear
  exact run_between_of_run starts ends rise plain first whole inside

theorem run_after (canonical : r.Canonical) (steady : r.Steady) (marks : r.Marks x)
    (clear : r.ClearOfJumps x) :
    (ofRule r (some x)).run.1 <+: (r.occurrences none).filter (fun t => r.utcOf x < t.utc) ∧
      ((ofRule r (some x)).run.2 ≠ .outOfRange → (ofRule r (some x)).run.1 =
        (r.occurrences none).filter (fun t => r.utcOf x < t.utc)) := by
  obtain ⟨first, whole⟩ := Sequence.run_resumed canonical steady marks clear
  have run := run_of_isPrefix (w := ofRule r (some x)) first whole
  have endless (ts : List Zoned) :
      ts.takeWhile (fun t => !(ofRule r (some x)).endsBefore t) = ts :=
    List.takeWhile_eq_self_iff.mpr (fun t _ => rfl)
  rw [endless] at run
  rw [← filter_startsAfter marks (Rule.occurrences_rise canonical steady none).2]
  exact run

end Window

namespace Rule

variable {r : Rule} {x : Stamp}

theorem nextFrom_eq (canonical : r.Canonical) (steady : r.Steady) (marks : r.Marks x)
    (clear : r.ClearOfJumps x) (within : r.nextFrom x ≠ .outOfRange) :
    r.nextFrom x = match ((r.occurrences none).filter (fun t => r.utcOf x < t.utc)).head? with
      | some t => .found t
      | none => .ended := by
  obtain ⟨first, whole⟩ := Window.run_after canonical steady marks clear
  unfold nextFrom at within ⊢
  rw [Window.next_eq] at within ⊢
  generalize (Window.ofRule r (some x)).run = run at *
  obtain ⟨ts, ending⟩ := run
  cases ts with
  | cons t ts =>
    obtain ⟨rest, eq⟩ := first
    rw [← eq]
    rfl
  | nil =>
    cases ending with
    | outOfRange => exact absurd rfl within
    | limit | ended =>
      rw [← whole (by decide)]
      rfl

theorem nextFewFrom?_eq (canonical : r.Canonical) (steady : r.Steady) (marks : r.Marks x)
    (clear : r.ClearOfJumps x) (n : Nat) {ts : List Zoned} (h : r.nextFewFrom? x n = some ts) :
    ts = ((r.occurrences none).filter (fun t => r.utcOf x < t.utc)).take n := by
  obtain ⟨first, whole⟩ := Window.run_after canonical steady marks clear
  unfold nextFewFrom? at h
  rw [if_neg (by omega), Int.toNat_natCast, Window.takeNext_eq] at h
  generalize (Window.ofRule r (some x)).run = run at *
  obtain ⟨found, ending⟩ := run
  dsimp only at *
  by_cases enough : n ≤ found.length
  · rw [if_pos enough] at h
    cases h
    obtain ⟨rest, eq⟩ := first
    rw [← eq, List.take_append_of_le_length enough]
  · rw [if_neg enough] at h
    cases ending with
    | outOfRange => cases h
    | limit | ended =>
      cases h
      rw [whole (by decide)]

end Rule

end Almanac
