import Mathlib.Data.Finset.Card
import Mathlib.Data.List.Chain
import Mathlib.Logic.Function.Iterate
import Almanac.Proofs.Occurrence.Cutoff
import Almanac.Proofs.Occurrence.Due
import Almanac.Proofs.Occurrence.Twin

set_option autoImplicit false

/-!
The cursor of a scan, and why expansion ends.

Where a scan has no candidates left it looks at one more period, at which its cursor stands. From
there it opens the next period of its rule or jumps ahead, so the next time its cursor stands a whole
number of intervals later, one at least. It does not move on from the last year of the calendar. So
however many candidates a sequence drops on the way, it makes only as many steps from one answer to
the next as there are periods and candidates left, and after so many answers it has none to give.
-/

namespace Almanac

open Calendar

namespace Rule

/-- How a cursor moves from one period to another: the first starts before the last year of the
calendar, the other is a whole number of intervals later, one at least, and starts no sooner than a
period after it. -/
structure MovesOn (r : Rule) (i j : Nat) : Prop where
  inside : r.freq.yearOfPeriod r.weekStart i < lastYear
  aligned : ∃ n, 0 < n ∧ j = i + n * r.interval
  later : r.freq.startOf r.weekStart i + r.freq.leastLength ≤ r.freq.startOf r.weekStart j

variable {r : Rule} {i j : Nat}

theorem MovesOn.lt (moves : r.MovesOn i j) : i < j := by
  obtain ⟨n, positive, rfl⟩ := moves.aligned
  exact Nat.lt_add_of_pos_right (Nat.mul_pos positive r.interval_pos)

theorem movesOn_of_aligned (period : r.freq.IsPeriod i)
    (limit : i < r.freq.periodLimit r.weekStart) {n : Nat} (positive : 0 < n) :
    r.MovesOn i (i + n * r.interval) := by
  refine ⟨(Frequency.lt_periodLimit_iff period).mp limit, ⟨n, positive, rfl⟩, ?_⟩
  calc r.freq.startOf r.weekStart i + r.freq.leastLength
      ≤ r.freq.startOf r.weekStart (i + 1) := (Frequency.startOf_succ_bounds period).1
    _ ≤ r.freq.startOf r.weekStart (i + n * r.interval) :=
        Frequency.startOf_mono (period.mono (Nat.le_add_right i 1))
          (Nat.add_le_add_left (Nat.mul_pos positive r.interval_pos) i)

/-- A jump within a day leads to the period where it starts, or moves the cursor on. -/
theorem eq_or_movesOn_of_jump (canonical : r.Canonical) (fine : r.freq.isSubDaily = true)
    (inside : r.freq.yearOfPeriod r.weekStart i < lastYear)
    (jump : (Plan.ofRule r).skipFrom? i = some j) : j = i ∨ r.MovesOn i j := by
  have period := Frequency.isPeriod_fine (i := i) fine
  obtain ⟨n, rfl, -⟩ := Plan.skipFrom?_spec canonical fine jump
  rcases Nat.eq_zero_or_pos n with rfl | positive
  · exact .inl (by rw [Nat.zero_mul, Nat.add_zero])
  · exact .inr (movesOn_of_aligned period ((Frequency.lt_periodLimit_iff period).mpr inside)
      positive)

/-- Cursors that move on stand at no more periods than there are before the last year, and one. -/
theorem length_le_of_movesOn {cursors : List Nat} (period : ∀ i ∈ cursors, r.freq.IsPeriod i)
    (rise : cursors.Pairwise r.MovesOn) :
    cursors.length ≤ r.freq.periodLimit r.weekStart + 1 := by
  cases cursors using List.reverseRecOn with
  | nil => exact Nat.zero_le _
  | append_singleton before last =>
    obtain ⟨rise, -, inside⟩ := List.pairwise_append.mp rise
    have distinct : before.Nodup := rise.imp fun moves => Nat.ne_of_lt moves.lt
    have below : before ⊆ List.range (r.freq.periodLimit r.weekStart) := by
      intro i member
      have early := (inside i member last (List.mem_singleton_self last)).inside
      exact List.mem_range.mpr ((Frequency.lt_periodLimit_iff
        (period i (List.mem_append_left _ member))).mpr early)
    have few := (List.subperm_of_subset distinct below).length_le
    rw [List.length_range] at few
    rw [List.length_append, List.length_singleton]
    exact Nat.succ_le_succ few

end Rule

/-! Scans. -/

namespace Scan

/-- The period that a scan looks at, where no candidates are left from the one before. -/
def cursor? : Scan → Option Nat
  | opened i _ _ [] => some i
  | _ => none

variable {r : Rule} {s s' : Scan} {i j hitYear year : Nat}

theorem cursor?_eq_some (h : s.cursor? = some i) :
    ∃ hitYear year, s = opened i hitYear year [] := by
  match s with
  | opened i hitYear year [] =>
    cases h
    exact ⟨hitYear, year, rfl⟩
  | opened _ _ _ (_ :: _) | fresh _ | finished => cases h

theorem Coherent.isPeriod (coherent : s.Coherent r) (cursor : s.cursor? = some i) :
    r.freq.IsPeriod i := by
  obtain ⟨hitYear, year, rfl⟩ := cursor?_eq_some cursor
  obtain ⟨first, count, passed⟩ := coherent
  rw [passed.next_eq]
  exact passed.isPeriod.mono (Nat.le_add_right _ _)

/-- From where its cursor stands a scan goes on to a later period, and only before the last year. -/
theorem exists_opened_of_cursor (canonical : r.Canonical)
    (on : (opened i hitYear year []).GoesOn (.ofRule r) s') :
    i < r.freq.periodLimit r.weekStart ∧ ∃ n hitYear year queue, 0 < n ∧
      s' = opened (i + n * r.interval) hitYear year queue := by
  have rule : (Plan.ofRule r).rule = r := rfl
  have opening {y : Nat} (on : openPeriod (.ofRule r) i hitYear y = .skip s' ∨
      ∃ t, openPeriod (.ofRule r) i hitYear y = .emit t s') :
      ∃ n hitYear year queue, 0 < n ∧ s' = opened (i + n * r.interval) hitYear year queue := by
    rcases on with on | ⟨t, on⟩
    · obtain ⟨queue, rfl⟩ := openPeriod_skip _ on
      exact ⟨1, hitYear, y, queue, Nat.one_pos, by rw [Nat.one_mul, rule]⟩
    · exact absurd on (openPeriod_ne_emit _)
  simp only [GoesOn, step, rule] at on
  split at on
  · rename_i limit
    refine ⟨limit, ?_⟩
    split at on
    · simp at on
    · split at on
      · rename_i fine
        split at on
        · rename_i j jump
          split at on
          · rename_i later
            obtain ⟨n, rfl, -⟩ := Plan.skipFrom?_spec canonical fine jump
            have positive : 0 < n := Nat.pos_of_ne_zero fun none => by simp [none] at later
            rcases on with on | ⟨t, on⟩
            · cases on
              exact ⟨n, _, _, _, positive, rfl⟩
            · cases on
          · exact opening on
        · simp at on
      · exact opening on
  · simp at on

/-- A scan never goes back to an earlier period. -/
theorem exists_opened_of_goesOn (canonical : r.Canonical) {queue : List Nat}
    (on : (opened i hitYear year queue).GoesOn (.ofRule r) s') :
    ∃ n hitYear year queue, s' = opened (i + n * r.interval) hitYear year queue := by
  cases queue with
  | nil =>
    obtain ⟨-, n, hitYear, year, queue, -, eq⟩ := exists_opened_of_cursor canonical on
    exact ⟨n, hitYear, year, queue, eq⟩
  | cons wall queue =>
    have here : i = i + 0 * r.interval := by rw [Nat.zero_mul, Nat.add_zero]
    simp only [GoesOn, step] at on
    split at on
    · split at on
      · rcases on with on | ⟨t, on⟩ <;> cases on
        exact ⟨0, hitYear, year, queue, by rw [← here]⟩
      · rcases on with on | ⟨t, on⟩ <;> cases on
        exact ⟨0, year, year, queue, by rw [← here]⟩
    · simp at on

/-- Whatever number of steps lies between two periods at which the cursor of a scan stands, it has
moved on from the one to the other. -/
theorem movesOn_of_path (canonical : r.Canonical) (period : r.freq.IsPeriod i)
    (cursor : s.cursor? = some i) (cursor' : s'.cursor? = some j)
    (path : Relation.TransGen (GoesOn (.ofRule r)) s s') : r.MovesOn i j := by
  obtain ⟨hitYear, year, rfl⟩ := cursor?_eq_some cursor
  have onward : i < r.freq.periodLimit r.weekStart ∧ ∃ n hitYear year queue, 0 < n ∧
      s' = opened (i + n * r.interval) hitYear year queue := by
    clear cursor'
    induction path with
    | single on => exact exists_opened_of_cursor canonical on
    | tail _ on ih =>
      obtain ⟨limit, n, hitYear, year, queue, positive, rfl⟩ := ih
      obtain ⟨m, hitYear, year, queue, rfl⟩ := exists_opened_of_goesOn canonical on
      exact ⟨limit, n + m, hitYear, year, queue, Nat.add_pos_left positive m,
        by rw [Nat.add_mul, Nat.add_assoc]⟩
  obtain ⟨limit, n, hitYear', year', queue, positive, rfl⟩ := onward
  obtain ⟨_, _, eq⟩ := cursor?_eq_some cursor'
  obtain ⟨rfl, -⟩ := opened.inj eq
  exact Rule.movesOn_of_aligned period limit positive

end Scan

/-! Sequences. -/

namespace Sequence

variable {r : Rule} {s s' : Sequence} {path : List Sequence} {result : Answer × Sequence}

/-- The period that the scan of a sequence looks at next, where it has no candidates left. -/
def cursor? (s : Sequence) : Option Nat := s.scan.cursor?

theorem Coherent.goesOn (canonical : r.Canonical) (coherent : s.Coherent r) (on : s.GoesOn s') :
    s'.Coherent r ∧ s.scan.GoesOn (.ofRule r) s'.scan := by
  have scans : s.scan.GoesOn (.ofRule r) s'.scan := coherent.plan ▸ on.scan
  exact ⟨⟨on.plan.trans coherent.plan, coherent.scan.goesOn canonical scans⟩, scans⟩

/-- What a chain of steps passes through is coherent, and its scans follow each other. -/
theorem Coherent.chain (canonical : r.Canonical) (coherent : s.Coherent r)
    (chain : (s :: path).IsChain GoesOn) : (∀ u ∈ s :: path, u.Coherent r) ∧
      (s :: path).IsChain (fun u u' => u.scan.GoesOn (.ofRule r) u'.scan) := by
  induction path generalizing s with
  | nil => exact ⟨List.forall_mem_singleton.mpr coherent, .singleton _⟩
  | cons s' path ih =>
    obtain ⟨on, chain⟩ := List.isChain_cons_cons.mp chain
    obtain ⟨coherent', scans⟩ := coherent.goesOn canonical on
    obtain ⟨coherents, chain⟩ := ih coherent' chain
    exact ⟨List.forall_mem_cons.mpr ⟨coherent, coherents⟩, .cons_cons scans chain⟩

theorem cursors_rise (canonical : r.Canonical) (coherent : s.Coherent r)
    (chain : (s :: path).IsChain GoesOn) :
    ((s :: path).filterMap cursor?).Pairwise r.MovesOn ∧
      ((s :: path).filterMap cursor?).length ≤ r.freq.periodLimit r.weekStart + 1 := by
  obtain ⟨coherents, scans⟩ := coherent.chain canonical chain
  have rise : ((s :: path).filterMap cursor?).Pairwise r.MovesOn := by
    rw [List.pairwise_filterMap]
    have paths : (s :: path).Pairwise (fun u u' =>
        Relation.TransGen (Scan.GoesOn (.ofRule r)) u.scan u'.scan) :=
      List.isChain_map (fun u => u.scan) |>.mpr (scans.imp fun _ _ => .single) |>.pairwise
        |> List.pairwise_map.mp
    exact paths.imp_of_mem fun member _ path i cursor j cursor' =>
      Scan.movesOn_of_path canonical ((coherents _ member).scan.isPeriod cursor) cursor cursor' path
  refine ⟨rise, Rule.length_le_of_movesOn (fun i member => ?_) rise⟩
  obtain ⟨u, member, cursor⟩ := List.mem_filterMap.mp member
  exact (coherents u member).scan.isPeriod cursor

theorem wellFounded_goesOn : WellFounded (fun s' s => GoesOn s s') := by
  refine Subrelation.wf ?_ (InvImage.wf (fun s => s.scan.distance s.plan)
    (Prod.lex Nat.lt_wfRel (Prod.lex Nat.lt_wfRel Nat.lt_wfRel)).wf)
  intro s' s on
  obtain ⟨plan, nearer⟩ := step_lt on
  show Prod.Lex (· < ·) (Prod.Lex (· < ·) (· < ·)) (s'.scan.distance s'.plan)
    (s.scan.distance s.plan)
  rw [plan]
  exact nearer

/-! The loop of a call. -/

/-- The loop that looks for the next occurrence: the sequences that it passes through, and what it
answers. -/
inductive Asks : Sequence → List Sequence → Answer × Sequence → Prop where
  | skip {s s' : Sequence} {path : List Sequence} {result : Answer × Sequence}
      (step : s.step = .skip s') (rest : Asks s' path result) : Asks s (s' :: path) result
  | found {s s' : Sequence} {t : Zoned} (step : s.step = .found t s') : Asks s [] (.found t, s')
  | ended {s s' : Sequence} (step : s.step = .ended s') : Asks s [] (.ended, s')
  | outOfRange {s s' : Sequence} (step : s.step = .outOfRange s') : Asks s [] (.outOfRange, s')

theorem Asks.isChain (asks : s.Asks path result) : (s :: path).IsChain GoesOn := by
  induction asks with
  | skip step rest ih => exact .cons_cons (.inl step) ih
  | found | ended | outOfRange => exact .singleton _

theorem exists_asks (s : Sequence) : ∃ path, s.Asks path s.next := by
  induction s using stepInduction with
  | skip s s' step ih =>
    obtain ⟨path, asks⟩ := ih
    exact ⟨s' :: path, next_of_step_skip step ▸ .skip step asks⟩
  | found s t s' step => exact ⟨[], next_of_step_found step ▸ .found step⟩
  | ended s s' step => exact ⟨[], next_of_step_ended step ▸ .ended step⟩
  | outOfRange s s' step => exact ⟨[], next_of_step_outOfRange step ▸ .outOfRange step⟩

theorem Asks.coherent (canonical : r.Canonical) (coherent : s.Coherent r)
    (asks : s.Asks path result) : result.2.Coherent r := by
  induction asks with
  | skip step rest ih => exact ih (coherent.goesOn canonical (.inl step)).1
  | found step => exact (coherent.goesOn canonical (.inr ⟨_, step⟩)).1
  | @ended s s' step =>
    obtain ⟨plan, scan⟩ := coherent
    have stepped := s.stepped
    rw [step] at stepped
    cases stepped with
    | exhausted | counted => exact ⟨plan, scan⟩
    | past _ _ emitted => exact ⟨plan, scan.goesOn canonical (plan ▸ .inr ⟨_, emitted⟩)⟩
    | stopped => exact ⟨plan, trivial⟩
  | @outOfRange s s' step =>
    have stepped := s.stepped
    rw [step] at stepped
    cases stepped with
    | outOfRange => exact ⟨coherent.plan, trivial⟩

theorem iterate_next_coherent (canonical : r.Canonical) (coherent : s.Coherent r) (n : Nat) :
    ((fun s => s.next.2)^[n] s).Coherent r := by
  induction n with
  | zero => exact coherent
  | succ n ih =>
    rw [Function.iterate_succ_apply']
    obtain ⟨path, asks⟩ := exists_asks ((fun s => s.next.2)^[n] s)
    exact asks.coherent canonical ih

/-! Sequences that have ended. -/

theorem next_of_exhausted (spent : s.exhausted = true) : s.next = (.ended, s) := by
  apply next_of_step_ended
  rw [step, if_pos spent]

theorem exhausted_of_next_ended (ended : s.next.1 = .ended) : s.next.2.exhausted = true := by
  obtain ⟨path, asks⟩ := s.exists_asks
  generalize s.next = result at asks ended ⊢
  induction asks with
  | skip step rest ih => exact ih ended
  | found | outOfRange => cases ended
  | ended step => exact exhausted_of_step_ended step

/-- A sequence that has answered that it has ended stays as it is and answers the same. -/
theorem ended_for_ever (ended : s.next.1 = .ended) (n : Nat) :
    ((fun s => s.next.2)^[n] s).next.1 = .ended := by
  cases n with
  | zero => exact ended
  | succ n =>
    have stays := next_of_exhausted (exhausted_of_next_ended ended)
    rw [Function.iterate_succ_apply, Function.iterate_fixed (congrArg Prod.snd stays) n, stays]

theorem ended_of_step_outOfRange (step : s.step = .outOfRange s') : s'.next.1 = .ended := by
  have stepped := s.stepped
  rw [step] at stepped
  cases stepped with
  | outOfRange live short failed =>
    have stops : Sequence.step { s with scan := .finished } = exhaust { s with scan := .finished } :=
      (if_neg (Bool.eq_false_iff.mp live)).trans (if_neg (Bool.eq_false_iff.mp short))
    rw [next_of_step_ended stops]

theorem exists_ended (s : Sequence) : ∃ n, ((fun s => s.next.2)^[n] s).next.1 = .ended := by
  induction s using stepInduction with
  | skip s s' step ih =>
    obtain ⟨n, ended⟩ := ih
    refine ⟨n, ?_⟩
    cases n with
    | zero => exact next_of_step_skip step ▸ ended
    | succ n =>
      rw [Function.iterate_succ_apply] at ended ⊢
      rwa [next_of_step_skip step]
  | found s t s' step ih =>
    obtain ⟨n, ended⟩ := ih
    refine ⟨n + 1, ?_⟩
    rwa [Function.iterate_succ_apply, next_of_step_found step]
  | ended s s' step => exact ⟨0, by rw [Function.iterate_zero, id, next_of_step_ended step]⟩
  | outOfRange s s' step =>
    refine ⟨1, ?_⟩
    rw [Function.iterate_one, next_of_step_outOfRange step]
    exact ended_of_step_outOfRange step

/-- Expansion ends, whatever the bounds of a rule, its zone and the point of departure. A jump within
a day never leads to an earlier period. Along any steps of the sequence, the periods that its scan
looks at come one after the other, each a whole number of intervals after the one before it, one at
least, and only the last of them may lie in the last year of the calendar; so there are finitely
many, and no steps go on for ever. Every call passes through finitely many of these steps before it
answers. Once the answer is that there are no more occurrences, it stays so, and after finitely many
calls it is. -/
theorem expansion_ends {spec : Spec} {now : Stamp} (read : spec.rule now = .ok r)
    (notBefore : Option Stamp) :
    (r.freq.isSubDaily = true → ∀ i j, r.freq.yearOfPeriod r.weekStart i < lastYear →
      (Plan.ofRule r).skipFrom? i = some j → j = i ∨ r.MovesOn i j) ∧
    (∀ path, (ofRule r notBefore :: path).IsChain GoesOn →
      (path.filterMap cursor?).Pairwise r.MovesOn ∧
        (path.filterMap cursor?).length ≤ r.freq.periodLimit r.weekStart + 1) ∧
    WellFounded (fun s' s => GoesOn s s') ∧
    (∀ n, let s := (fun s => s.next.2)^[n] (ofRule r notBefore)
      (∃ path, s.Asks path s.next ∧ ((s :: path).filterMap cursor?).Pairwise r.MovesOn ∧
        ((s :: path).filterMap cursor?).length ≤ r.freq.periodLimit r.weekStart + 1) ∧
      (s.next.1 = .ended → ∀ m, ((fun s => s.next.2)^[m] s).next.1 = .ended)) ∧
    ∃ n, ∀ m, n ≤ m → ((fun s => s.next.2)^[m] (ofRule r notBefore)).next.1 = .ended := by
  have canonical := Spec.rule_canonical read
  have coherent := coherent_ofRule r notBefore
  refine ⟨fun fine i j inside jump => Rule.eq_or_movesOn_of_jump canonical fine inside jump,
    fun path chain => ?_, wellFounded_goesOn, fun n => ⟨?_, ended_for_ever⟩, ?_⟩
  · exact cursors_rise canonical coherent chain
  · obtain ⟨path, asks⟩ := exists_asks ((fun s => s.next.2)^[n] (ofRule r notBefore))
    exact ⟨path, asks, cursors_rise canonical (iterate_next_coherent canonical coherent n)
      asks.isChain⟩
  · obtain ⟨n, ended⟩ := exists_ended (ofRule r notBefore)
    refine ⟨n, fun m later => ?_⟩
    obtain ⟨k, rfl⟩ := Nat.exists_eq_add_of_le' later
    rw [Function.iterate_add_apply]
    exact ended_for_ever ended k

/-- The rule that recurs on the thirtieth of February looks at no year twice, and ends. -/
theorem expansion_ends_thirtiethOfFebruary :
    (∃ path, (ofRule Scan.thirtiethOfFebruary none).Asks path
        (ofRule Scan.thirtiethOfFebruary none).next ∧
      (path.filterMap cursor?).length ≤ 10000) ∧
    ∃ n, ∀ m, n ≤ m →
      ((fun s => s.next.2)^[m] (ofRule Scan.thirtiethOfFebruary none)).next.1 = .ended := by
  obtain ⟨-, -, -, calls, ends⟩ := expansion_ends Scan.read_thirtiethOfFebruary none
  obtain ⟨⟨path, asks, -, few⟩, -⟩ := calls 0
  exact ⟨⟨path, asks, few⟩, ends⟩

end Sequence

end Almanac
