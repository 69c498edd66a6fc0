import Almanac.Occurrence.Window
import Mathlib.Data.List.TakeWhile
import Mathlib.Data.Prod.Basic

set_option autoImplicit false

/-!
All that a sequence or a window gives.

Asking for the next occurrence until there is none makes a run: a list of occurrences, and the way
it ended. A run follows the steps of the sequence, and whatever looks for occurrences, one by one or
a number of them, with or without passing some over, finds them in the run.
-/

namespace Almanac

theorem Scan.Nearer.trans {p : Plan} {s t u : Scan} (h : Nearer p s t) (h' : Nearer p t u) :
    Nearer p s u :=
  trans_of (Prod.Lex (· < ·) (Prod.Lex (· < ·) (· < ·))) h h'

namespace Sequence

/-! Steps. -/

/-- What a step of a sequence can do. -/
inductive Stepped (s : Sequence) : Step → Prop where
  | exhausted (spent : s.exhausted = true) : Stepped s (.ended s)
  | counted (live : s.exhausted = false) (reached : s.countReached = true) :
      Stepped s (.ended { s with exhausted := true })
  | scanned {scan : Scan} (live : s.exhausted = false) (short : s.countReached = false)
      (step : s.scan.step s.plan = .skip scan) : Stepped s (.skip { s with scan })
  | repeated {t : Zoned} {scan : Scan} (live : s.exhausted = false) (short : s.countReached = false)
      (step : s.scan.step s.plan = .emit t scan)
      (old : s.last.any (fun last => t.notAfter last) = true) : Stepped s (.skip { s with scan })
  | past {t : Zoned} {scan : Scan} (live : s.exhausted = false) (short : s.countReached = false)
      (step : s.scan.step s.plan = .emit t scan)
      (new : s.last.any (fun last => t.notAfter last) = false) (past : s.isPast t = true) :
      Stepped s (.ended { s with scan, exhausted := true })
  | early {t : Zoned} {scan : Scan} (live : s.exhausted = false) (short : s.countReached = false)
      (step : s.scan.step s.plan = .emit t scan)
      (new : s.last.any (fun last => t.notAfter last) = false) (within : s.isPast t = false)
      (early : s.notBefore.any (fun bound => t.before bound) = true) :
      Stepped s (.skip { s with scan, last := some t, counted := s.counted + 1 })
  | found {t : Zoned} {scan : Scan} (live : s.exhausted = false) (short : s.countReached = false)
      (step : s.scan.step s.plan = .emit t scan)
      (new : s.last.any (fun last => t.notAfter last) = false) (within : s.isPast t = false)
      (due : s.notBefore.any (fun bound => t.before bound) = false) :
      Stepped s (.found t { s with scan, last := some t, counted := s.counted + 1 })
  | stopped (live : s.exhausted = false) (short : s.countReached = false)
      (step : s.scan.step s.plan = .stop) :
      Stepped s (.ended { s with scan := .finished, exhausted := true })
  | outOfRange (live : s.exhausted = false) (short : s.countReached = false)
      (step : s.scan.step s.plan = .outOfRange) :
      Stepped s (.outOfRange { s with scan := .finished })

theorem stepped (s : Sequence) : s.Stepped s.step := by
  unfold step
  split
  · rename_i spent
    exact .exhausted spent
  · rename_i live
    have live : s.exhausted = false := by simpa using live
    split
    · rename_i reached
      exact .counted live reached
    · rename_i short
      have short : s.countReached = false := by simpa using short
      split
      · rename_i step
        exact .scanned live short step
      · rename_i t scan step
        unfold take
        dsimp only
        split
        · rename_i old
          exact .repeated live short step old
        · rename_i new
          have new : s.last.any (fun last => t.notAfter last) = false := by simpa using new
          split
          · rename_i past
            exact .past live short step new past
          · rename_i within
            have within : s.isPast t = false := Bool.eq_false_iff.mpr within
            split
            · rename_i early
              exact .early live short step new within early
            · rename_i due
              exact .found live short step new within (by simpa using due)
      · rename_i step
        exact .stopped live short step
      · rename_i step
        exact .outOfRange live short step

/-! A step of a sequence that goes on is a step of its scan. -/

theorem step_of_scan_skip {s : Sequence} {scan : Scan} (live : s.exhausted = false)
    (short : s.countReached = false) (step : s.scan.step s.plan = .skip scan) :
    s.step = .skip { s with scan } := by
  rw [Sequence.step, live, short, step]
  rfl

theorem step_of_scan_outOfRange {s : Sequence} (live : s.exhausted = false)
    (short : s.countReached = false) (step : s.scan.step s.plan = .outOfRange) :
    s.step = .outOfRange { s with scan := .finished } := by
  rw [Sequence.step, live, short, step]
  rfl

/-- Sequences of the same plan that start at the same point. -/
structure Alike (s s' : Sequence) : Prop where
  plan : s'.plan = s.plan
  notBefore : s'.notBefore = s.notBefore

theorem Alike.trans {s t u : Sequence} (h : s.Alike t) (h' : t.Alike u) : s.Alike u :=
  ⟨h'.plan.trans h.plan, h'.notBefore.trans h.notBefore⟩

theorem step_alike {s s' : Sequence} (h : s.step = .skip s' ∨ (∃ t, s.step = .found t s') ∨
    s.step = .ended s' ∨ s.step = .outOfRange s') : s.Alike s' := by
  have stepped := s.stepped
  rcases h with h | ⟨t, h⟩ | h | h <;> rw [h] at stepped <;> cases stepped <;> exact ⟨rfl, rfl⟩

theorem exhausted_of_step_ended {s s' : Sequence} (h : s.step = .ended s') :
    s'.exhausted = true := by
  have stepped := s.stepped
  rw [h] at stepped
  cases stepped with
  | exhausted spent => exact spent
  | counted | past | stopped => rfl

/-- To show something of a sequence it is enough to follow its steps. -/
theorem stepInduction {motive : Sequence → Prop}
    (skip : ∀ s s', s.step = .skip s' → motive s' → motive s)
    (found : ∀ s t s', s.step = .found t s' → motive s' → motive s)
    (ended : ∀ s s', s.step = .ended s' → motive s)
    (outOfRange : ∀ s s', s.step = .outOfRange s' → motive s) (s : Sequence) : motive s := by
  match h : s.step with
  | .skip s' => exact skip s s' h (stepInduction skip found ended outOfRange s')
  | .found t s' => exact found s t s' h (stepInduction skip found ended outOfRange s')
  | .ended s' => exact ended s s' h
  | .outOfRange s' => exact outOfRange s s' h
termination_by s.scan.distance s.plan
decreasing_by
  · obtain ⟨hp, hlt⟩ := step_lt (.inl h)
    rw [hp]
    exact hlt
  · obtain ⟨hp, hlt⟩ := step_lt (.inr ⟨_, h⟩)
    rw [hp]
    exact hlt

/-! Seeking, step by step. -/

variable {passOver : Zoned → Bool} {s s' : Sequence} {t : Zoned} {passed : Nat}

theorem seek_skip (h : s.step = .skip s') : s.seek passOver passed = s'.seek passOver passed := by
  rw [seek]
  split <;> simp_all

theorem seek_found_over (h : s.step = .found t s') (passes : passOver t = true) :
    s.seek passOver passed = s'.seek passOver (passed + 1) := by
  rw [seek]
  split <;> simp_all

theorem seek_found (h : s.step = .found t s') (kept : passOver t = false) :
    s.seek passOver passed = (.found t, passed, s') := by
  rw [seek]
  split <;> simp_all

theorem seek_ended (h : s.step = .ended s') :
    s.seek passOver passed = (.ended, passed, s') := by
  rw [seek]
  split <;> simp_all

theorem seek_outOfRange (h : s.step = .outOfRange s') :
    s.seek passOver passed = (.outOfRange, passed, s') := by
  rw [seek]
  split <;> simp_all

/-- A sequence that has found an occurrence is nearer to its end. -/
theorem seek_nearer {k : Nat} (h : s.seek passOver passed = (.found t, k, s')) :
    s'.plan = s.plan ∧ s'.scan.Nearer s.plan s.scan := by
  induction s using stepInduction generalizing passed with
  | skip s next step ih =>
    obtain ⟨plan, nearer⟩ := step_lt (.inl step)
    rw [seek_skip step] at h
    obtain ⟨plan', nearer'⟩ := ih h
    exact ⟨plan'.trans plan, (plan ▸ nearer').trans nearer⟩
  | found s u next step ih =>
    obtain ⟨plan, nearer⟩ := step_lt (.inr ⟨u, step⟩)
    by_cases passes : passOver u = true
    · rw [seek_found_over step passes] at h
      obtain ⟨plan', nearer'⟩ := ih h
      exact ⟨plan'.trans plan, (plan ▸ nearer').trans nearer⟩
    · rw [seek_found step (by simpa using passes)] at h
      cases h
      exact ⟨plan, nearer⟩
  | ended s next step =>
    rw [seek_ended step] at h
    cases h
  | outOfRange s next step =>
    rw [seek_outOfRange step] at h
    cases h

theorem next_of_step_skip (step : s.step = .skip s') : s.next = s'.next := by
  rw [next, seek_skip step, next]

theorem next_of_step_found (step : s.step = .found t s') :
    s.next = (.found t, s') := by
  rw [next, seek_found step rfl]

theorem next_of_step_ended (step : s.step = .ended s') : s.next = (.ended, s') := by
  rw [next, seek_ended step]

theorem next_of_step_outOfRange (step : s.step = .outOfRange s') :
    s.next = (.outOfRange, s') := by
  rw [next, seek_outOfRange step]

theorem next_found (h : s.next = (.found t, s')) :
    ∃ k, s.seek (fun _ => false) 0 = (.found t, k, s') := by
  unfold next at h
  generalize s.seek (fun _ => false) 0 = sought at h
  obtain ⟨answer, k, after⟩ := sought
  cases h
  exact ⟨k, rfl⟩

/-! Runs. -/

/-- The occurrences that a sequence gives one after another, and how it ends. -/
def run (s : Sequence) : List Zoned × Ending :=
  match _h : s.next with
  | (.found t, s') =>
    let (ts, ending) := run s'
    (t :: ts, ending)
  | (.ended, _) => ([], .ended)
  | (.outOfRange, _) => ([], .outOfRange)
termination_by s.scan.distance s.plan
decreasing_by
  obtain ⟨k, hk⟩ := next_found ‹_›
  obtain ⟨hp, hlt⟩ := seek_nearer hk
  rw [hp]
  exact hlt

theorem run_of_found (h : s.next = (.found t, s')) : s.run = (t :: s'.run.1, s'.run.2) := by
  rw [run]
  split <;> simp_all

theorem run_of_ended (h : s.next = (.ended, s')) : s.run = ([], .ended) := by
  rw [run]
  split <;> simp_all

theorem run_of_outOfRange (h : s.next = (.outOfRange, s')) : s.run = ([], .outOfRange) := by
  rw [run]
  split <;> simp_all

theorem run_skip (h : s.step = .skip s') : s.run = s'.run := by
  have next := next_of_step_skip h
  match hn : s'.next with
  | (.found t, s'') => rw [run_of_found (next.trans hn), run_of_found hn]
  | (.ended, s'') => rw [run_of_ended (next.trans hn), run_of_ended hn]
  | (.outOfRange, s'') => rw [run_of_outOfRange (next.trans hn), run_of_outOfRange hn]

theorem run_found (h : s.step = .found t s') : s.run = (t :: s'.run.1, s'.run.2) :=
  run_of_found (next_of_step_found h)

theorem run_ended (h : s.step = .ended s') : s.run = ([], .ended) :=
  run_of_ended (next_of_step_ended h)

theorem run_outOfRange (h : s.step = .outOfRange s') : s.run = ([], .outOfRange) :=
  run_of_outOfRange (next_of_step_outOfRange h)

/-- What every step gives, from here on, holds of the whole run. -/
theorem forall_mem_run {P : Zoned → Prop} (s : Sequence)
    (given : ∀ u t u', s.Alike u → u.step = .found t u' → P t) : ∀ t ∈ s.run.1, P t := by
  induction s using stepInduction with
  | skip s next step ih =>
    rw [run_skip step]
    exact ih fun u t u' alike => given u t u' ((step_alike (.inl step)).trans alike)
  | found s t next step ih =>
    have alike := step_alike (.inr (.inl ⟨t, step⟩))
    rw [run_found step]
    exact List.forall_mem_cons.mpr ⟨given s t next ⟨rfl, rfl⟩ step,
      ih fun u v u' alike' => given u v u' (alike.trans alike')⟩
  | ended s next step =>
    rw [run_ended step]
    exact List.forall_mem_nil _
  | outOfRange s next step =>
    rw [run_outOfRange step]
    exact List.forall_mem_nil _

/-- The run of a sequence, where it comes to its end within a number of steps. -/
def runWithin : Nat → Sequence → Option (List Zoned × Ending)
  | 0, _ => none
  | n + 1, s =>
    match s.step with
    | .skip s' => runWithin n s'
    | .found t s' => (runWithin n s').map (fun run => (t :: run.1, run.2))
    | .ended _ => some ([], .ended)
    | .outOfRange _ => some ([], .outOfRange)

theorem run_of_runWithin {n : Nat} {run : List Zoned × Ending} (h : runWithin n s = some run) :
    s.run = run := by
  induction n generalizing s run with
  | zero => cases h
  | succ n ih =>
    rw [runWithin] at h
    split at h
    · rename_i step
      rw [run_skip step, ih h]
    · rename_i step
      obtain ⟨rest, hrest, rfl⟩ := Option.map_eq_some_iff.mp h
      rw [run_found step, ih hrest]
    · rename_i step
      cases h
      exact run_ended step
    · rename_i step
      cases h
      exact run_outOfRange step

/-- What looking for an occurrence finds in a run. -/
inductive Sought (passOver : Zoned → Bool) (s : Sequence) (passed : Nat) :
    Answer × Nat × Sequence → Prop where
  | found {skipped : List Zoned} {t : Zoned} {s' : Sequence} (alike : s.Alike s')
      (run : s.run = (skipped ++ t :: s'.run.1, s'.run.2))
      (passes : ∀ u ∈ skipped, passOver u = true) (kept : passOver t = false) :
      Sought passOver s passed (.found t, passed + skipped.length, s')
  | ended {skipped : List Zoned} {s' : Sequence} (alike : s.Alike s')
      (run : s.run = (skipped, .ended)) (passes : ∀ u ∈ skipped, passOver u = true)
      (exhausted : s'.exhausted = true) :
      Sought passOver s passed (.ended, passed + skipped.length, s')
  | outOfRange {skipped : List Zoned} {s' : Sequence} (alike : s.Alike s')
      (run : s.run = (skipped, .outOfRange)) (passes : ∀ u ∈ skipped, passOver u = true) :
      Sought passOver s passed (.outOfRange, passed + skipped.length, s')

theorem sought (passOver : Zoned → Bool) (s : Sequence) (passed : Nat) :
    Sought passOver s passed (s.seek passOver passed) := by
  induction s using stepInduction generalizing passed with
  | skip s next step ih =>
    have alike := step_alike (.inl step)
    have run := run_skip step
    rw [seek_skip step]
    have ih := ih passed
    generalize next.seek passOver passed = sought at ih ⊢
    cases ih with
    | found alike' run' passes kept => exact .found (alike.trans alike') (run.trans run') passes kept
    | ended alike' run' passes exhausted =>
      exact .ended (alike.trans alike') (run.trans run') passes exhausted
    | outOfRange alike' run' passes => exact .outOfRange (alike.trans alike') (run.trans run') passes
  | found s u next step ih =>
    have alike := step_alike (.inr (.inl ⟨u, step⟩))
    have run := run_found step
    by_cases passes : passOver u = true
    · rw [seek_found_over step passes]
      have ih := ih (passed + 1)
      have count (skipped : List Zoned) :
          passed + 1 + skipped.length = passed + (u :: skipped).length := by
        rw [List.length_cons]
        omega
      generalize next.seek passOver (passed + 1) = sought at ih ⊢
      cases ih with
      | found alike' run' passes' kept =>
        rw [count]
        exact .found (alike.trans alike') (by rw [run, run']; rfl)
          (List.forall_mem_cons.mpr ⟨passes, passes'⟩) kept
      | ended alike' run' passes' exhausted =>
        rw [count]
        exact .ended (alike.trans alike') (by rw [run, run'])
          (List.forall_mem_cons.mpr ⟨passes, passes'⟩) exhausted
      | outOfRange alike' run' passes' =>
        rw [count]
        exact .outOfRange (alike.trans alike') (by rw [run, run'])
          (List.forall_mem_cons.mpr ⟨passes, passes'⟩)
    · have kept : passOver u = false := by simpa using passes
      rw [seek_found step kept]
      exact .found alike (show s.run = ([] ++ u :: next.run.1, next.run.2) from run) (by simp) kept
  | ended s next step =>
    rw [seek_ended step]
    exact .ended (step_alike (.inr (.inr (.inl step)))) (run_ended step) (List.forall_mem_nil _)
      (exhausted_of_step_ended step)
  | outOfRange s next step =>
    rw [seek_outOfRange step]
    exact .outOfRange (step_alike (.inr (.inr (.inr step)))) (run_outOfRange step)
      (List.forall_mem_nil _)

/-- Whether looking for an occurrence runs off the calendar: the run does, and all that it gives
before are passed over. -/
def RunsOff (s : Sequence) (passOver : Zoned → Bool) : Prop :=
  s.run.2 = .outOfRange ∧ ∀ t ∈ s.run.1, passOver t = true

/-- The answer to a sequence asked for an occurrence is the first one of its run. -/
theorem next_eq (s : Sequence) : s.next.1 =
    match s.run with
    | (t :: _, _) => .found t
    | ([], .outOfRange) => .outOfRange
    | ([], _) => .ended := by
  match hn : s.next with
  | (.found t, s') => rw [run_of_found hn]
  | (.ended, s') => rw [run_of_ended hn]
  | (.outOfRange, s') => rw [run_of_outOfRange hn]

end Sequence

/-- The part of a list up to a failure does not depend on what follows. -/
theorem takeWhile_eq_of_isPrefix {α : Type} {p : α → Bool} {l l' : List α} (first : l <+: l')
    (fails : ∃ a ∈ l, p a = false) : l.takeWhile p = l'.takeWhile p := by
  obtain ⟨rest, rfl⟩ := first
  induction l with
  | nil => simp at fails
  | cons a l ih =>
    by_cases passes : p a = true
    · obtain ⟨b, member, fails⟩ := fails
      rcases List.mem_cons.mp member with rfl | member
      · simp [passes] at fails
      · rw [List.cons_append, List.takeWhile_cons_of_pos passes, List.takeWhile_cons_of_pos passes,
          ih ⟨b, member, fails⟩]
    · rw [List.cons_append, List.takeWhile_cons_of_neg passes, List.takeWhile_cons_of_neg passes]

theorem takeWhile_isPrefix {α : Type} {p : α → Bool} {l l' : List α} (first : l <+: l') :
    l.takeWhile p <+: l'.takeWhile p := by
  by_cases fails : ∃ a ∈ l, p a = false
  · exact takeWhile_eq_of_isPrefix first fails ▸ List.prefix_rfl
  · have passes : ∀ a ∈ l, p a = true := by simpa using fails
    obtain ⟨rest, rfl⟩ := first
    rw [List.takeWhile_append_of_pos passes, List.takeWhile_eq_self_iff.mpr passes]
    exact List.prefix_append _ _

namespace Window

open Sequence (Ending Answer)

variable {w w' : Window} {t : Zoned}

/-- Whether a window starts after an instant. -/
def startsAfter (w : Window) (t : Zoned) : Bool := w.after.any (fun after => t.notAfter after)

/-- Whether a window ends before an instant. -/
def endsBefore (w : Window) (t : Zoned) : Bool := w.upTo.any (fun upTo => upTo.before t)

variable {seq : Sequence} {k : Nat}

theorem next_of_found (h : w.seq.seek w.startsAfter 0 = (.found t, k, seq))
    (within : w.endsBefore t = false) : w.next = (.found t, { w with seq }) := by
  have h : w.seq.seek (fun t => w.after.any (fun after => t.notAfter after)) 0 =
    (.found t, k, seq) := h
  have within : ¬ w.upTo.any (fun upTo => upTo.before t) = true := Bool.eq_false_iff.mp within
  simp only [next, h]
  rw [if_neg within]

theorem next_of_past (h : w.seq.seek w.startsAfter 0 = (.found t, k, seq))
    (past : w.endsBefore t = true) : w.next = (.ended, { w with seq }) := by
  have h : w.seq.seek (fun t => w.after.any (fun after => t.notAfter after)) 0 =
    (.found t, k, seq) := h
  have past : w.upTo.any (fun upTo => upTo.before t) = true := past
  simp only [next, h]
  rw [if_pos past]

theorem next_of_ended (h : w.seq.seek w.startsAfter 0 = (.ended, k, seq)) :
    w.next = (.ended, { w with seq }) := by
  have h : w.seq.seek (fun t => w.after.any (fun after => t.notAfter after)) 0 =
    (.ended, k, seq) := h
  simp only [next, h]

theorem next_of_outOfRange (h : w.seq.seek w.startsAfter 0 = (.outOfRange, k, seq)) :
    w.next = (.outOfRange, { w with seq }) := by
  have h : w.seq.seek (fun t => w.after.any (fun after => t.notAfter after)) 0 =
    (.outOfRange, k, seq) := h
  simp only [next, h]

/-- A window that has found an occurrence is nearer to its end. -/
theorem next_nearer (h : w.next = (.found t, w')) :
    w'.seq.plan = w.seq.plan ∧ w'.seq.scan.Nearer w.seq.plan w.seq.scan := by
  match hs : w.seq.seek w.startsAfter 0 with
  | (.found u, k, seq) =>
    by_cases past : w.endsBefore u = true
    · rw [next_of_past hs past] at h
      cases h
    · rw [next_of_found hs (Bool.eq_false_iff.mpr past)] at h
      cases h
      exact Sequence.seek_nearer hs
  | (.ended, k, seq) =>
    rw [next_of_ended hs] at h
    cases h
  | (.outOfRange, k, seq) =>
    rw [next_of_outOfRange hs] at h
    cases h

/-- To show something of a window it is enough to show it when it holds after the next occurrence. -/
theorem nextInduction {motive : Window → Prop}
    (step : ∀ w, (∀ t w', w.next = (.found t, w') → motive w') → motive w) (w : Window) :
    motive w := by
  apply step
  intro t w' h
  exact nextInduction step w'
termination_by w.seq.scan.distance w.seq.plan
decreasing_by
  obtain ⟨hp, hlt⟩ := next_nearer h
  rw [hp]
  exact hlt

/-- The occurrences that a window gives one after another, and how it ends. -/
def run (w : Window) : List Zoned × Ending :=
  match _h : w.next with
  | (.found t, w') =>
    let (ts, ending) := run w'
    (t :: ts, ending)
  | (.ended, _) => ([], .ended)
  | (.outOfRange, _) => ([], .outOfRange)
termination_by w.seq.scan.distance w.seq.plan
decreasing_by
  obtain ⟨hp, hlt⟩ := next_nearer ‹_›
  rw [hp]
  exact hlt

theorem run_of_found (h : w.next = (.found t, w')) : w.run = (t :: w'.run.1, w'.run.2) := by
  rw [run]
  split <;> simp_all

theorem run_of_ended (h : w.next = (.ended, w')) : w.run = ([], .ended) := by
  rw [run]
  split <;> simp_all

theorem run_of_outOfRange (h : w.next = (.outOfRange, w')) : w.run = ([], .outOfRange) := by
  rw [run]
  split <;> simp_all

/-- The answer to a window asked for an occurrence is the first one of its run. -/
theorem next_eq (w : Window) : w.next.1 =
    match w.run with
    | (t :: _, _) => .found t
    | ([], .outOfRange) => .outOfRange
    | ([], _) => .ended := by
  match hn : w.next with
  | (.found t, w') => rw [run_of_found hn]
  | (.ended, w') => rw [run_of_ended hn]
  | (.outOfRange, w') => rw [run_of_outOfRange hn]

/-- Taking a number of occurrences takes the first ones of the run. -/
theorem takeNext_eq (n : Nat) (w : Window) : w.takeNext n =
    (w.run.1.take n, if n ≤ w.run.1.length then .limit else w.run.2) := by
  induction n generalizing w with
  | zero => simp [takeNext]
  | succ n ih =>
    match hn : w.next with
    | (.found t, w') =>
      simp only [takeNext, hn, run_of_found hn, ih w', List.take_succ_cons, List.length_cons,
        Nat.add_le_add_iff_right]
    | (.ended, w') =>
      simp [takeNext, hn, run_of_ended hn]
    | (.outOfRange, w') =>
      simp [takeNext, hn, run_of_outOfRange hn]

/-- What is left of a run when some of it is passed over before an occurrence. -/
theorem filter_sought {passes : Zoned → Bool} {skipped rest : List Zoned}
    (skips : ∀ u ∈ skipped, passes u = true) (kept : passes t = false) :
    (skipped ++ t :: rest).filter (fun u => !passes u) = t :: rest.filter (fun u => !passes u) := by
  have none : skipped.filter (fun u => !passes u) = [] := by
    apply List.filter_eq_nil_iff.mpr
    intro u hu
    simp [skips u hu]
  rw [List.filter_append, none, List.nil_append, List.filter_cons_of_pos (by simp [kept])]

/-- A window gives what its sequence does, from the first instant on that it does not start after
and up to the first one that it ends before. -/
theorem run_eq (w : Window) : w.run =
    ((w.seq.run.1.filter (fun t => !w.startsAfter t)).takeWhile (fun t => !w.endsBefore t),
      if (w.seq.run.1.filter (fun t => !w.startsAfter t)).all (fun t => !w.endsBefore t)
      then w.seq.run.2 else .ended) := by
  induction w using nextInduction with
  | step w ih =>
    have sought := w.seq.sought w.startsAfter 0
    generalize hs : w.seq.seek w.startsAfter 0 = found at sought
    cases sought with
    | @found skipped t seq alike run skips kept =>
      rw [run, filter_sought skips kept]
      by_cases past : w.endsBefore t = true
      · rw [run_of_ended (next_of_past hs past), List.takeWhile_cons_of_neg (by simp [past]),
          List.all_cons]
        simp [past]
      · have next := next_of_found hs (Bool.eq_false_iff.mpr past)
        rw [run_of_found next, ih t _ next, List.takeWhile_cons_of_pos (by simp [past]),
          List.all_cons]
        simp only [Bool.not_eq_true] at past
        simp only [past, Bool.not_false, Bool.true_and]
        rfl
    | @ended skipped seq alike run skips exhausted =>
      have none : skipped.filter (fun u => !w.startsAfter u) = [] := by
        apply List.filter_eq_nil_iff.mpr
        intro u hu
        simp [skips u hu]
      rw [run_of_ended (next_of_ended hs), run, none]
      rfl
    | @outOfRange skipped seq alike run skips =>
      have none : skipped.filter (fun u => !w.startsAfter u) = [] := by
        apply List.filter_eq_nil_iff.mpr
        intro u hu
        simp [skips u hu]
      rw [run_of_outOfRange (next_of_outOfRange hs), run, none]
      rfl

/-- What is known of the run of a sequence up to where it leaves the calendar gives as much of the
run of a window on it. -/
theorem run_of_isPrefix {all : List Zoned} (first : w.seq.run.1 <+: all)
    (whole : w.seq.run.2 ≠ .outOfRange → w.seq.run.1 = all) :
    w.run.1 <+:
        (all.filter (fun t => !w.startsAfter t)).takeWhile (fun t => !w.endsBefore t) ∧
      (w.run.2 ≠ .outOfRange → w.run.1 =
        (all.filter (fun t => !w.startsAfter t)).takeWhile (fun t => !w.endsBefore t)) := by
  have kept := first.filter (fun t => !w.startsAfter t)
  rw [run_eq]
  refine ⟨takeWhile_isPrefix kept, fun inside => ?_⟩
  dsimp only at inside ⊢
  split at inside
  · rw [whole inside]
  · rename_i crossed
    exact takeWhile_eq_of_isPrefix kept (by simpa [and_assoc] using crossed)

end Window

end Almanac
