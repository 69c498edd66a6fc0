import Almanac.Proofs.Occurrence.Run
import Almanac.Proofs.Occurrence.Scan
import Mathlib.Data.List.TakeWhile

set_option autoImplicit false

/-!
The occurrences that a sequence has due.

Of the instants that its scan has still to give, a sequence takes those that are later than every
one before, as many as its count leaves, up to the first that lies past a bound; of these it gives
the ones that are not before its point of departure. A run that does not leave the calendar gives
exactly the occurrences due, and one that does gives the first of them.
-/

namespace Almanac

/-- The instants that are later than a given one and all before them. -/
def climb : Option Zoned → List Zoned → List Zoned
  | _, [] => []
  | last, t :: ts =>
    if last.any (fun last => t.notAfter last) then climb last ts else t :: climb (some t) ts

theorem climb_sublist (last : Option Zoned) (ts : List Zoned) : (climb last ts).Sublist ts := by
  induction ts generalizing last with
  | nil => exact .slnil
  | cons t ts ih =>
    rw [climb]
    split
    · exact (ih last).cons t
    · exact (ih (some t)).cons_cons t

/-- Instants that rise throughout are all later than those before them. -/
theorem climb_ascending {last : Option Zoned} {ts : List Zoned}
    (ascending : ts.Pairwise (fun s t => t.notAfter s = false))
    (after : ∀ t ∈ ts, last.any (fun last => t.notAfter last) = false) : climb last ts = ts := by
  induction ts generalizing last with
  | nil => rfl
  | cons t ts ih =>
    obtain ⟨later, ascending⟩ := List.pairwise_cons.mp ascending
    have new := after t List.mem_cons_self
    rw [climb, if_neg (by simp [new]), ih ascending]
    intro u hu
    simpa using later u hu

/-- In a list where no member that passes a test follows one that fails it, those that pass come
first. -/
theorem takeWhile_eq_filter {α : Type} {p : α → Bool} {l : List α}
    (closed : l.Pairwise (fun a b => p b = true → p a = true)) : l.takeWhile p = l.filter p := by
  induction l with
  | nil => rfl
  | cons a l ih =>
    obtain ⟨first, closed⟩ := List.pairwise_cons.mp closed
    by_cases passes : p a = true
    · rw [List.takeWhile_cons_of_pos passes, List.filter_cons_of_pos passes, ih closed]
    · rw [List.takeWhile_cons_of_neg passes, List.filter_cons_of_neg passes]
      symm
      apply List.filter_eq_nil_iff.mpr
      intro b hb later
      exact passes (first b hb later)

namespace Rule

/-- The instants that the count of a rule leaves when some have been counted. -/
def leaves (r : Rule) (counted : Nat) (ts : List Zoned) : List Zoned :=
  match r.count with
  | none => ts
  | some n => ts.take (n - counted)

/-- Whether an instant lies past one of the bounds of a rule. -/
def isPast (r : Rule) (t : Zoned) : Bool :=
  r.finish.any (fun finish => finish.before t) || r.endsBefore.any (fun stop => stop.notAfter t)

theorem isPast_iff {r : Rule} {t : Zoned} : r.isPast t = true ↔
    (∃ finish, r.finish = some finish ∧ finish.before t = true) ∨
      ∃ stop, r.endsBefore = some stop ∧ stop.notAfter t = true := by
  unfold isPast
  cases r.finish <;> cases r.endsBefore <;> simp

/-- The instants up to the first that lies past a bound. -/
def bounded (r : Rule) (counted : Nat) (ts : List Zoned) : List Zoned :=
  (r.leaves counted ts).takeWhile (fun t => !r.isPast t)

variable {r : Rule} {counted : Nat} {t : Zoned} {ts : List Zoned}

theorem bounded_of_unbounded (h : r.isBounded = false) : r.bounded counted ts = ts := by
  simp only [isBounded, Bool.or_eq_false_iff, Option.isSome_eq_false_iff,
    Option.isNone_iff_eq_none] at h
  obtain ⟨⟨count, finish⟩, endsBefore⟩ := h
  have within (t : Zoned) : r.isPast t = false := by
    rw [isPast, finish, endsBefore]
    rfl
  rw [bounded, leaves, count, List.takeWhile_eq_self_iff]
  intro t _
  rw [within]
  rfl

theorem bounded_sublist (r : Rule) (counted : Nat) (ts : List Zoned) :
    (r.bounded counted ts).Sublist ts := by
  unfold bounded leaves
  split
  · exact List.takeWhile_sublist _
  · exact (List.takeWhile_sublist _).trans (List.take_sublist _ _)

@[simp]
theorem bounded_nil : r.bounded counted [] = [] := by
  unfold bounded leaves
  split <;> simp

theorem bounded_of_reached (h : r.count.any (fun n => n ≤ counted) = true) :
    r.bounded counted ts = [] := by
  unfold bounded leaves
  split
  · rename_i unlimited
    simp [unlimited] at h
  · rename_i n limited
    have reached : n ≤ counted := by simpa [limited] using h
    rw [Nat.sub_eq_zero_of_le reached]
    rfl

theorem bounded_cons_past (past : r.isPast t = true) : r.bounded counted (t :: ts) = [] := by
  unfold bounded leaves
  split
  · simp [past]
  · rename_i n _
    cases n - counted <;> simp [past]

theorem bounded_cons (short : r.count.any (fun n => n ≤ counted) = false)
    (within : r.isPast t = false) :
    r.bounded counted (t :: ts) = t :: r.bounded (counted + 1) ts := by
  unfold bounded leaves
  split
  · simp [within]
  · rename_i n limited
    have left : counted < n := by simpa [limited] using short
    have next : n - counted = n - (counted + 1) + 1 := by omega
    rw [next, List.take_succ_cons, List.takeWhile_cons_of_pos (by simp [within])]

end Rule

namespace Sequence

variable {r : Rule} {s s' : Sequence} {t : Zoned}

/-- Whether an instant lies before the point of departure of a sequence. -/
def isEarly (s : Sequence) (t : Zoned) : Bool := s.notBefore.any (fun bound => t.before bound)

/-- The occurrences of a rule that a sequence has still to give. -/
noncomputable def due (r : Rule) (s : Sequence) : List Zoned :=
  if s.exhausted then []
  else (r.bounded s.counted (climb s.last (s.scan.remaining r))).filter (fun t => !s.isEarly t)

/-- A sequence over the plan of a rule whose scan is coherent. -/
structure Coherent (r : Rule) (s : Sequence) : Prop where
  plan : s.plan = .ofRule r
  scan : s.scan.Coherent r

theorem coherent_ofRule (r : Rule) (notBefore : Option Stamp) :
    (ofRule r notBefore).Coherent r :=
  ⟨rfl, trivial⟩

theorem due_of_live (live : s.exhausted = false) : s.due r =
    (r.bounded s.counted (climb s.last (s.scan.remaining r))).filter (fun t => !s.isEarly t) := by
  rw [due, live]
  rfl

/-- What a step of a sequence does to the occurrences that it has due. -/
inductive Preserves (r : Rule) (s : Sequence) : Step → Prop where
  | skip {s' : Sequence} (coherent : s'.Coherent r) (due : s.due r = s'.due r) :
      Preserves r s (.skip s')
  | found {t : Zoned} {s' : Sequence} (coherent : s'.Coherent r) (due : s.due r = t :: s'.due r) :
      Preserves r s (.found t s')
  | ended {s' : Sequence} (due : s.due r = []) : Preserves r s (.ended s')
  | outOfRange {s' : Sequence} : Preserves r s (.outOfRange s')

/-- Every step keeps the occurrences due, and a sequence ends when it has none. -/
theorem step_preserves (canonical : r.Canonical) (coherent : s.Coherent r) :
    Preserves r s s.step := by
  obtain ⟨plan, scan⟩ := coherent
  have rule : s.plan.rule = r := by rw [plan]; rfl
  have past (t : Zoned) : s.isPast t = r.isPast t := by rw [isPast, rule, Rule.isPast]
  have reached : s.countReached = r.count.any (fun n => n ≤ s.counted) := by
    rw [countReached, rule]
  have preserves := Scan.step_preserves canonical scan
  rw [← plan] at preserves
  have stepped := s.stepped
  generalize s.step = step at stepped ⊢
  cases stepped with
  | exhausted spent =>
    apply Preserves.ended
    rw [due, spent]
    rfl
  | counted live short =>
    apply Preserves.ended
    rw [due_of_live live, Rule.bounded_of_reached (reached ▸ short), List.filter_nil]
  | @scanned after live short step =>
    obtain ⟨coherent', remaining⟩ := Scan.Preserves.of_skip (step ▸ preserves)
    refine .skip ⟨plan, coherent'⟩ ?_
    rw [due_of_live live, remaining]
    exact (due_of_live (s := { s with scan := after }) live).symm
  | @repeated t after live short step old =>
    obtain ⟨coherent', remaining⟩ := Scan.Preserves.of_emit (step ▸ preserves)
    refine .skip ⟨plan, coherent'⟩ ?_
    rw [due_of_live live, remaining, climb, if_pos old]
    exact (due_of_live (s := { s with scan := after }) live).symm
  | past live short step new past' =>
    obtain ⟨_, remaining⟩ := Scan.Preserves.of_emit (step ▸ preserves)
    apply Preserves.ended
    rw [due_of_live live, remaining, climb, if_neg (by simp [new]),
      Rule.bounded_cons_past (past _ ▸ past'), List.filter_nil]
  | early live short step new within early =>
    obtain ⟨coherent', remaining⟩ := Scan.Preserves.of_emit (step ▸ preserves)
    refine .skip ⟨plan, coherent'⟩ ?_
    rw [due_of_live live, remaining, climb, if_neg (by simp [new]),
      Rule.bounded_cons (reached ▸ short) (past _ ▸ within),
      List.filter_cons_of_neg (by simpa [isEarly] using early)]
    exact (due_of_live (s := { s with scan := _, last := some _, counted := _ }) live).symm
  | found live short step new within due' =>
    obtain ⟨coherent', remaining⟩ := Scan.Preserves.of_emit (step ▸ preserves)
    refine .found ⟨plan, coherent'⟩ ?_
    rw [due_of_live live, remaining, climb, if_neg (by simp [new]),
      Rule.bounded_cons (reached ▸ short) (past _ ▸ within),
      List.filter_cons_of_pos (by simpa [isEarly] using due')]
    exact congrArg (_ :: ·)
      (due_of_live (s := { s with scan := _, last := some _, counted := _ }) live).symm
  | stopped live short step =>
    apply Preserves.ended
    rw [due_of_live live, Scan.Preserves.of_stop (step ▸ preserves), climb, Rule.bounded_nil,
      List.filter_nil]
  | outOfRange live short step => exact .outOfRange

/-- A run gives the occurrences due, up to where it leaves the calendar. -/
theorem run_due (canonical : r.Canonical) (coherent : s.Coherent r) :
    s.run.1 <+: s.due r ∧ (s.run.2 ≠ .outOfRange → s.run.1 = s.due r) := by
  induction s using stepInduction with
  | skip s next step ih =>
    have preserves := step_preserves canonical coherent
    rw [step] at preserves
    cases preserves with
    | skip coherent' due =>
      rw [run_skip step, due]
      exact ih coherent'
  | found s t next step ih =>
    have preserves := step_preserves canonical coherent
    rw [step] at preserves
    cases preserves with
    | found coherent' due =>
      obtain ⟨first, all⟩ := ih coherent'
      rw [run_found step, due]
      exact ⟨List.prefix_cons_inj t |>.mpr first, fun inside => congrArg (t :: ·) (all inside)⟩
  | ended s next step =>
    have preserves := step_preserves canonical coherent
    rw [step] at preserves
    cases preserves with
    | ended due =>
      rw [run_ended step, due]
      exact ⟨List.prefix_rfl, fun _ => rfl⟩
  | outOfRange s next step =>
    rw [run_outOfRange step]
    exact ⟨List.nil_prefix, fun inside => absurd rfl inside⟩

/-- A run gives only what its scan has still to look at. -/
theorem exists_pending_of_mem_run (canonical : r.Canonical) (coherent : s.Coherent r)
    (member : t ∈ s.run.1) :
    ∃ n ∈ s.scan.pending r, r.instantOf? n = some t := by
  have due := (run_due canonical coherent).1.subset member
  unfold Sequence.due at due
  split at due
  · cases due
  · have given := (climb_sublist _ _).subset ((Rule.bounded_sublist r _ _).subset
      (List.mem_of_mem_filter due))
    obtain ⟨n, pending, resolved, -⟩ := Rule.mem_instants.mp given
    exact ⟨n, pending, resolved⟩

/-- A step under no bounds resolves what its scan need no longer look at, and ends only when that is
everything. -/
theorem step_resolves (canonical : r.Canonical) (unbounded : r.isBounded = false)
    (coherent : s.Coherent r) (live : s.exhausted = false) :
    match s.step with
    | .skip s' | .found _ s' => s'.Coherent r ∧ s'.exhausted = false ∧
        ∀ n ∈ s.scan.pending r, (∃ t, r.instantOf? n = some t) ∨ n ∈ s'.scan.pending r
    | .ended _ => s.scan.pending r = []
    | .outOfRange _ => True := by
  obtain ⟨plan, scan⟩ := coherent
  have rule : s.plan.rule = r := by rw [plan]; rfl
  simp only [Rule.isBounded, Bool.or_eq_false_iff, Option.isSome_eq_false_iff,
    Option.isNone_iff_eq_none] at unbounded
  obtain ⟨⟨count, finish⟩, endsBefore⟩ := unbounded
  have preserves := Scan.step_preserves canonical scan
  rw [← plan] at preserves
  have stepped := s.stepped
  generalize s.step = step at stepped ⊢
  cases stepped with
  | exhausted spent =>
    rw [live] at spent
    cases spent
  | counted live reached =>
    rw [countReached, rule, count] at reached
    cases reached
  | scanned live short step =>
    rw [step] at preserves
    exact ⟨⟨plan, (Scan.Preserves.of_skip preserves).1⟩, live,
      fun n => Scan.Preserves.resolved (t := r.start) (.inl preserves)⟩
  | repeated live short step | early live short step | found live short step =>
    rw [step] at preserves
    exact ⟨⟨plan, (Scan.Preserves.of_emit preserves).1⟩, live,
      fun n => Scan.Preserves.resolved (.inr preserves)⟩
  | past live short step new past =>
    rw [isPast, rule, finish, endsBefore] at past
    cases past
  | stopped live short step =>
    rw [step] at preserves
    cases preserves with
    | stop pending => exact pending
  | outOfRange live short step => trivial

/-- The run of a rule without bounds resolves every wall time, unless it leaves the calendar. -/
theorem run_resolves (canonical : r.Canonical) (unbounded : r.isBounded = false)
    (coherent : s.Coherent r) (live : s.exhausted = false) (inside : s.run.2 ≠ .outOfRange)
    {n : Nat} (member : n ∈ s.scan.pending r) :
    ∃ t, r.instantOf? n = some t := by
  induction s using stepInduction with
  | skip s next step ih =>
    have resolves := step_resolves canonical unbounded coherent live
    rw [step] at resolves
    obtain ⟨coherent', live', resolved⟩ := resolves
    rcases resolved n member with done | left
    · exact done
    · exact ih coherent' live' (run_skip step ▸ inside) left
  | found s t next step ih =>
    have resolves := step_resolves canonical unbounded coherent live
    rw [step] at resolves
    obtain ⟨coherent', live', resolved⟩ := resolves
    rcases resolved n member with done | left
    · exact done
    · rw [run_found step] at inside
      exact ih coherent' live' inside left
  | ended s next step =>
    have resolves := step_resolves canonical unbounded coherent live
    rw [step] at resolves
    rw [resolves] at member
    cases member
  | outOfRange s next step =>
    rw [run_outOfRange step] at inside
    exact absurd rfl inside

end Sequence

end Almanac
