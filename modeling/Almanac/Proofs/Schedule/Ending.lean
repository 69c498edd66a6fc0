import Almanac.Proofs.Schedule.Advance

set_option autoImplicit false

/-!
Advances come to their end.

Each dispatch takes an entry, and arming a handle again costs it an occurrence. So as long as handlers
dispatch no events themselves an advance ends, where no handle is stuck on the way.
-/

namespace Almanac

variable {α : Type}

theorem sum_map_set {β : Type} (f : β → Nat) {l : List β} {i : Nat} {x y : β}
    (found : l[i]? = some x) :
    ((l.set i y).map f).sum + f x = (l.map f).sum + f y := by
  induction l generalizing i with
  | nil => cases found
  | cons z l ih =>
    cases i with
    | zero =>
      cases found
      simp only [List.set_cons_zero, List.map_cons, List.sum_cons]
      omega
    | succ i =>
      have rest := ih (i := i) found
      simp only [List.set_cons_succ, List.map_cons, List.sum_cons]
      omega

namespace Agenda

variable {a b : Agenda α} {h : HandleId} {handle handle' : Handle α} {e : Entry}

/-- The occurrences that handles have left. -/
def occurrencesLeft (a : Agenda α) : Nat := (a.handles.map fun x => x.sequence.run.1.length).sum

/-- What an advance may use up: timer entries, and the occurrences that handles have left. -/
def remaining (a : Agenda α) : Nat := a.pending.length + a.occurrencesLeft

theorem remaining_quiet (quiet : a.Quiet b) : b.remaining = a.remaining := by
  have same := congrArg (List.map fun x : Handle α => x.sequence.run.1.length) quiet.handles
  rw [List.map_map, List.map_map] at same
  rw [remaining, remaining, quiet.pending]
  exact congrArg (fun l => a.pending.length + List.sum l) same

theorem occurrencesLeft_set (found : a.handle? h = some handle)
    (handles : b.handles = a.handles.set h handle') :
    b.occurrencesLeft + handle.sequence.run.1.length =
      a.occurrencesLeft + handle'.sequence.run.1.length := by
  rw [occurrencesLeft, handles]
  exact sum_map_set _ found

theorem remaining_taken (member : e ∈ a.pending) : (a.taken e).remaining < a.remaining := by
  have fewer : (a.taken e).pending.length < a.pending.length :=
    List.length_filter_lt_length_iff_exists.mpr ⟨e, member, by simp⟩
  exact Nat.add_lt_add_right fewer _

theorem remaining_fire (a : Agenda α) (h : HandleId) : (a.fire h).1.remaining = a.remaining := by
  have set {handle handle' : Handle α} (found : a.handle? h = some handle)
      (same : handle'.sequence = handle.sequence) :
      (a.setHandle h handle').remaining = a.remaining := by
    have left := occurrencesLeft_set (b := a.setHandle h handle') found rfl
    rw [same] at left
    exact congrArg (a.pending.length + ·) (Nat.add_right_cancel left)
  unfold fire
  split
  · rfl
  · rename_i handle found
    split
    · dsimp only
      split
      · exact set found rfl
      · split <;> exact set found rfl
    · rfl

theorem remaining_rearm (a : Agenda α) (h : HandleId) :
    match a.rearm h with
    | (b, .ok _) => b.remaining ≤ a.remaining
    | (_, .error _) => True := by
  have spec := rearm_spec a h
  generalize a.rearm h = result at spec ⊢
  cases spec with
  | idle => exact le_rfl
  | raises => trivial
  | @arms handle b found armed arms =>
    dsimp only [remaining]
    cases arms with
    | waits alike run passes handles pending =>
      have left := occurrencesLeft_set found handles
      dsimp only at left
      have more := congrArg (fun run => run.1.length) run
      rw [pending]
      simp only [List.length_append, List.length_cons, List.length_nil] at more ⊢
      omega
    | ends alike run nothing passes handles pending =>
      have left := occurrencesLeft_set found handles
      simp only [nothing, List.length_nil] at left
      rw [pending]
      omega

end Agenda

namespace Activity

/-- The steps that an activity takes at most for itself. -/
def weight : Activity α → Nat
  | handling _ _ script _ => script.length + 1
  | firing .. | advancing .. => 1

end Activity

namespace Run

open Agenda

variable {a : Agenda α} {below : List (Activity α)} {keys : List String} {r r' : Run α}
  {σ : Setting} {start goal : Zoned} {ids : List HandleId} {s : Share α}

def weight (r : Run α) : Nat := (r.activities.map Activity.weight).sum

/-- What comes next is closer to the end: less remains to be used up, or as much with fewer steps. -/
def Nears (r r' : Run α) : Prop :=
  Prod.Lex (· < ·) (· < ·) (r'.agenda.remaining, r'.weight) (r.agenda.remaining, r.weight)

/-- A step. -/
def Goes (r r' : Run α) : Prop := r.step? = some r'

theorem nears_of_le (remaining : r'.agenda.remaining ≤ r.agenda.remaining)
    (weight : r'.weight < r.weight) : r.Nears r' := by
  rcases Nat.lt_or_eq_of_le remaining with less | same
  · exact .left _ _ less
  · rw [Nears, same]
    exact .right _ weight

theorem remaining_settle (r : Run α) : r.settle.agenda.remaining = r.agenda.remaining :=
  remaining_quiet (quiet_release _)

/-- What handlers do without dispatching events is done at once. -/
theorem activities_perform (a : Agenda α) (below : List (Activity α)) {action : Action α}
    (quiet : action.Quiet keys False) : (perform a below action).activities = below := by
  have spec := perform_spec a below action
  generalize perform a below action = r at spec ⊢
  cases spec with
  | answers | on | setsHeap => rfl
  | dispatches =>
    cases quiet with
    | dispatch session event args never => exact never.elim
  | _ => cases quiet

theorem weight_stepHandling (a : Agenda α) (below : List (Activity α)) (session event : String)
    {script : Script α} (call : Nat) (quiet : ∀ line ∈ script, line.2.Quiet keys False)
    (outcome : Option (Outcome α)) :
    (stepHandling a below session event script call outcome).weight <
      script.length + 1 + (below.map Activity.weight).sum := by
  have rest (only : Option Nat) (action : Action α) (rest : Script α) :
      ((Activity.handling session event rest call :: below).map Activity.weight).sum <
        ((only, action) :: rest).length + 1 + (below.map Activity.weight).sum := by
    simp only [List.map_cons, List.sum_cons, List.length_cons, Activity.weight]
    omega
  unfold stepHandling weight
  split
  · exact Nat.lt_add_of_pos_left (Nat.succ_pos _)
  · exact Nat.lt_add_of_pos_left (Nat.succ_pos _)
  · rename_i only action script _
    dsimp only
    split
    · rw [activities_perform a _ (quiet (only, action) List.mem_cons_self)]
      exact rest only action script
    · exact rest only action script

theorem nears_stepAdvancing {goal : Zoned} {n : Nat} {outcome : Option (Outcome α)}
    (fine : ∀ f, outcome ≠ some (.error f)) :
    Nears ⟨a, [.advancing goal n], outcome⟩ (stepAdvancing a [] goal n outcome).settle := by
  have ends {b : Agenda α} {outcome' : Option (Outcome α)} (same : b.remaining = a.remaining) :
      Nears ⟨a, [.advancing goal n], outcome⟩ (settle ⟨b, [], outcome'⟩) := by
    refine nears_of_le ?_ Nat.zero_lt_one
    rw [remaining_settle]
    exact same.le
  unfold stepAdvancing
  split
  · rename_i f
    exact absurd rfl (fine f)
  · split
    · exact ends (remaining_quiet (quiet_clockAtLeast goal))
    · rename_i e first
      left
      have fired : (((a.removeEntry e.id).clockAtLeast e.due).fire e.handle).1.remaining <
          a.remaining := by
        rw [remaining_fire, remaining_quiet (quiet_clockAtLeast e.due)]
        exact remaining_taken (mem_of_dueBy? first)
      rw [remaining_settle]
      dsimp only
      generalize ((a.removeEntry e.id).clockAtLeast e.due).fire e.handle = result at fired ⊢
      obtain ⟨b, _ | handle⟩ := result
      · exact fired
      · exact (remaining_quiet (quiet_dispatch _ _ _)).trans_lt fired

theorem nears_stepFiring {below : List (Activity α)} {h : HandleId} {session : String}
    {outcome : Option (Outcome α)}
    (fine : ∀ f, (stepFiring a below h outcome).outcome ≠ some (.error f)) :
    Nears ⟨a, .firing h session :: below, outcome⟩ (stepFiring a below h outcome).settle := by
  obtain ⟨b, noted, ended⟩ := stepFiring_rearm a below h outcome
  have same : b.remaining = a.remaining := by
    rcases noted with rfl | ⟨message, rfl⟩
    · rfl
    · exact remaining_quiet (quiet_log _ _)
  have rearm := remaining_rearm b h
  rw [ended] at fine ⊢
  generalize b.rearm h = result at rearm fine ⊢
  obtain ⟨c, f | ⟨⟩⟩ := result
  · exact absurd rfl (fine f)
  · refine nears_of_le ?_ (Nat.lt_add_of_pos_left Nat.zero_lt_one)
    rw [remaining_settle, ← same]
    exact rearm

/-- Between dispatches an advance has no fault. -/
theorem Advances.fine (advances : Advances σ start goal ids s r) {n : Nat}
    (activities : r.activities = [.advancing goal n]) (f : Fault) : r.outcome ≠ some (.error f) := by
  cases advances with
  | rests _ fine => exact fine f
  | fires activities' =>
    have lengths := congrArg List.length (activities.symm.trans activities')
    simp at lengths
  | ends activities' => cases activities.symm.trans activities'

theorem activities_stepFiring (a : Agenda α) (below : List (Activity α)) (h : HandleId)
    (outcome : Option (Outcome α)) : (stepFiring a below h outcome).activities = below := by
  obtain ⟨b, -, ended⟩ := stepFiring_rearm a below h outcome
  rw [ended]
  split <;> rfl

theorem Advances.goes_on (none : ¬σ.nests) (free : ¬Stuck σ start goal ids s)
    (hs : σ.reckoning.Shows start) (hg : σ.reckoning.Shows goal)
    (advances : Advances σ start goal ids s r) (going : r.activities ≠ []) :
    ∃ r', r.step? = some r' ∧ Advances σ start goal ids s r' ∧ r.Nears r' := by
  have next {r' : Run α} (step : r.step? = some r') : Advances σ start goal ids s r' :=
    (advances.step hs hg step).resolve_right fun stuck => free stuck.1
  obtain ⟨a, activities, outcome⟩ := r
  cases advances with
  | rests activities' fine =>
    cases activities'
    exact ⟨_, rfl, next rfl, nears_stepAdvancing fine⟩
  | @fires t n h session x due handling activities' quiet rounds fires =>
    cases handling with
    | nil =>
      cases activities'
      refine ⟨_, rfl, next rfl, nears_stepFiring ?_⟩
      exact (next rfl).fine (activities_stepFiring a _ h outcome)
    | cons y rest =>
      have tame := fires.regular.tame
      rw [eq_false none] at quiet tame
      cases quiet y List.mem_cons_self with
      | handling session' event call each =>
        cases activities'
        have lighter := weight_stepHandling a (rest ++ [.firing h session, .advancing goal n]) session'
          event call each outcome
        refine ⟨_, rfl, next rfl, nears_of_le ?_ lighter⟩
        rw [remaining_settle]
        exact (remaining_quiet (minds_stepHandling tame _ _ _ each _ outcome).idles.quiet).le
  | ends activities' => exact absurd activities' going

/-- Where no handle is stuck an advance comes to its end. -/
theorem Advances.exists_end (none : ¬σ.nests) (free : ¬Stuck σ start goal ids s)
    (hs : σ.reckoning.Shows start) (hg : σ.reckoning.Shows goal) {r : Run α}
    (advances : Advances σ start goal ids s r) :
    ∃ r', Relation.ReflTransGen Goes r r' ∧ r'.activities = [] := by
  by_cases ended : r.activities = []
  · exact ⟨r, .refl, ended⟩
  · obtain ⟨next, step, advances, nears⟩ := advances.goes_on none free hs hg ended
    obtain ⟨r', path, ended⟩ := advances.exists_end none free hs hg
    exact ⟨r', path.head step, ended⟩
termination_by (r.agenda.remaining, r.weight)
decreasing_by exact nears

end Run

end Almanac
