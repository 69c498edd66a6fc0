import Almanac.Proofs.Occurrence.Genuine
import Almanac.Proofs.Schedule.Registered

set_option autoImplicit false

/-!
Late dispatches.

A schedule that has fallen behind catches up at once, if it coalesces: when it is armed again after
a dispatch, it passes over what lies before the clock. So a dispatch is never for an occurrence that
lies before the clock at an earlier dispatch, and of all that begin at an instant or later one at
most is for an occurrence before it.

Before and after are meant in UTC here, while the times that are compared may share a zone, and then
compare by their walls. So the clock must not go back in UTC, and where the dispatch of the handle
ends, what is left of its occurrences must compare with the clock as it does in UTC.
-/

namespace Almanac

variable {α : Type}

/-- Times that rise in UTC, and that compare with the clock as they do there. -/
structure Zoned.Linear (now : Zoned) (ts : List Zoned) : Prop where
  clock : ∀ t ∈ ts, t.before now = true ↔ t.utc < now.utc
  rises : ts.Pairwise fun s t => s.utc < t.utc

theorem Zoned.Linear.le_of_kept {now t : Zoned} {ts : List Zoned} (linear : Zoned.Linear now ts)
    (member : t ∈ ts) (kept : t.before now = false) : now.utc ≤ t.utc := by
  rw [← Int.not_lt, ← linear.clock t member, kept]
  exact Bool.false_ne_true

/-! What lies before the clock. -/

namespace Sequence

/-- The occurrences left that lie before an instant. -/
def behind (s : Sequence) (now : Zoned) : List Zoned := s.run.1.filter fun t => t.utc < now.utc

/-- The occurrences left that do not. -/
def ahead (s : Sequence) (now : Zoned) : List Zoned := s.run.1.filter fun t => now.utc ≤ t.utc

variable {s : Sequence} {now t : Zoned} {skipped rest : List Zoned}

theorem behind_ahead_of_split (run : s.run.1 = skipped ++ rest)
    (before : ∀ u ∈ skipped, u.utc < now.utc) (after : ∀ u ∈ rest, now.utc ≤ u.utc) :
    s.behind now = skipped ∧ s.ahead now = rest := by
  have behind : ∀ u ∈ rest, ¬ u.utc < now.utc := fun u member => Int.not_lt.mpr (after u member)
  have ahead : ∀ u ∈ skipped, ¬ now.utc ≤ u.utc := fun u member => Int.not_le.mpr (before u member)
  constructor
  · rw [Sequence.behind, run, List.filter_append, List.filter_eq_self.mpr (by simpa using before),
      List.filter_eq_nil_iff.mpr (by simpa using behind), List.append_nil]
  · rw [Sequence.ahead, run, List.filter_append, List.filter_eq_nil_iff.mpr (by simpa using ahead),
      List.filter_eq_self.mpr (by simpa using after), List.nil_append]

/-- What a search passes over for lying before the clock is all that does. -/
theorem behind_ahead_of_found (run : s.run.1 = skipped ++ t :: rest)
    (linear : Zoned.Linear now s.run.1) (passes : ∀ u ∈ skipped, u.before now = true)
    (kept : t.before now = false) : s.behind now = skipped ∧ s.ahead now = t :: rest := by
  rw [run] at linear
  have head := linear.le_of_kept (List.mem_append_right _ List.mem_cons_self) kept
  have above := (List.pairwise_cons.mp (List.pairwise_append.mp linear.rises).2.1).1
  refine behind_ahead_of_split run (fun u member => ?_) (List.forall_mem_cons.mpr
    ⟨head, fun u member => head.trans (above u member).le⟩)
  exact (linear.clock u (List.mem_append_left _ member)).mp (passes u member)

theorem behind_ahead_of_ended (run : s.run.1 = skipped) (linear : Zoned.Linear now s.run.1)
    (passes : ∀ u ∈ skipped, u.before now = true) : s.behind now = skipped ∧ s.ahead now = [] := by
  refine behind_ahead_of_split (run.trans (List.append_nil _).symm) (fun u member => ?_)
    (List.forall_mem_nil _)
  exact (linear.clock u (run ▸ member)).mp (passes u member)

end Sequence

/-- A dispatch: the occurrence that it is for, and the clock when it begins. -/
structure Dispatch where
  due : Zoned
  clock : Zoned

def Fate.dispatch? : Fate → Option Dispatch
  | dispatched due clock => some ⟨due, clock⟩
  | passedOver => none

namespace Dispatch

/-- A dispatch that begins at an instant or later, for an occurrence before it. -/
def Late (T : Int) (d : Dispatch) : Prop := T ≤ d.clock.utc ∧ d.due.utc < T

instance (T : Int) (d : Dispatch) : Decidable (d.Late T) := inferInstanceAs (Decidable (_ ∧ _))

theorem late_le_one {ds : List Dispatch}
    (ordered : ds.Pairwise fun d d' => d.clock.utc ≤ d'.due.utc) (T : Int) :
    (ds.filter fun d => d.Late T).length ≤ 1 := by
  have late : ∀ d ∈ ds.filter (fun d => d.Late T), d.Late T :=
    fun d member => of_decide_eq_true (List.mem_filter.mp member).2
  have ordered := ordered.filter (fun d => d.Late T)
  generalize ds.filter (fun d => d.Late T) = few at late ordered ⊢
  match few with
  | [] => exact Nat.zero_le _
  | [_] => exact le_rfl
  | d :: d' :: rest =>
    -- The second begins after the clock of the first, but is for something before it.
    have first := (late d List.mem_cons_self).1
    have second := (late d' (List.mem_cons_of_mem _ List.mem_cons_self)).2
    have apart := (List.pairwise_cons.mp ordered).1 d' List.mem_cons_self
    exact absurd (first.trans apart) (Int.not_le.mpr second)

end Dispatch

namespace Handle

variable {handle : Handle α} {occurrences : List Zoned} {revocable : Bool} {entries : List Entry}
  {busy : Nat} {fates : List Fate}

/-- What a handle on whole seconds has left rises in UTC, and compares as there with a clock of
another table, or with one of its own that is plain. -/
theorem Kept.linear (kept : handle.Kept revocable entries busy fates)
    (canonical : handle.rule.Canonical) (whole : handle.rule.OnSeconds)
    (offsets : handle.rule.start.zone.jumps = [] ∨ handle.rule.start.zone.WholeOffsets) {now : Zoned}
    (clock : now.zone = handle.rule.start.zone ∧ now.Plain ∨
      handle.rule.start.zone.sharesTable now.zone = false) :
    Zoned.Linear now handle.sequence.run.1 := by
  obtain ⟨⟨occurrences, ⟨notBefore, -, run⟩, stands⟩, -⟩ := kept
  rw [← run] at stands
  have plain : ∀ t ∈ handle.sequence.run.1, t.zone = handle.rule.start.zone ∧ t.Plain := by
    intro t member
    obtain ⟨w, recurs, resolved⟩ :=
      Sequence.recurs_of_mem_run canonical (stands.left.subset member)
    obtain ⟨zone, plain, -⟩ := whole.resolve? offsets (whole.recurs recurs) resolved
    exact ⟨zone, plain⟩
  constructor
  · intro t member
    obtain ⟨zone, splain⟩ := plain t member
    rcases clock with ⟨same, nplain⟩ | other
    · exact Zoned.Plain.before_iff (zone ▸ whole.apart) (same.trans zone.symm) splain nplain
    · exact (Zoned.before_iff_of_other (zone ▸ other)).1
  · have rises := (Sequence.run_ofRule_rises handle.rule (some notBefore)).sublist
      stands.left.sublist
    refine rises.imp_of_mem fun {s t} hs ht before => ?_
    obtain ⟨szone, splain⟩ := plain s hs
    obtain ⟨tzone, tplain⟩ := plain t ht
    exact (Zoned.Plain.before_iff (szone ▸ whole.apart) (tzone.trans szone.symm) splain tplain).mp
      before

end Handle

namespace Agenda

/-! Dispatches so far, and the instant that a handle waits for. -/

/-- The dispatches of a handle that have begun, the oldest first. -/
def begun (a : Agenda α) (h : HandleId) : List Dispatch :=
  (a.fates h).filterMap Fate.dispatch?

/-- The instant that a handle waits for. -/
def aim? (a : Agenda α) (h : HandleId) : Option Zoned := (a.handle? h).bind Handle.nextFire

/-- Whether a handle coalesces, if it exists. -/
def Coalesces (a : Agenda α) (h : HandleId) : Prop :=
  ∀ handle, a.handle? h = some handle → handle.coalesce = true

variable {a b : Agenda α} {firing firing' : List HandleId} {h h' : HandleId}
  {handle handle' : Handle α} {e : Entry} {now now' : Int}

theorem Persists.coalesces (persists : a.Persists b) (coalesces : b.Coalesces h) :
    a.Coalesces h := by
  intro handle found
  obtain ⟨handle', found', becomes⟩ := persists h handle found
  exact becomes.coalesce.symm.trans (coalesces handle' found')

theorem begun_of_fates (fates : b.fates h = a.fates h) :
    b.begun h = a.begun h := by
  rw [begun, fates, begun]

theorem begun_of_passed {n : Nat}
    (fates : b.fates h = a.fates h ++ if h' = h then List.replicate n .passedOver else []) :
    b.begun h = a.begun h := by
  have none : (List.replicate n Fate.passedOver).filterMap Fate.dispatch? = [] := by
    rw [List.filterMap_eq_nil_iff]
    intro f member
    rw [List.eq_of_mem_replicate member]
    rfl
  rw [begun, fates, List.filterMap_append]
  split
  · rw [none, List.append_nil]
    rfl
  · exact List.append_nil _

theorem aim?_of_found (found : a.handle? h = some handle) : a.aim? h = handle.nextFire := by
  rw [aim?, found, Option.bind_some]

theorem aim?_set_self (found : a.handle? h = some handle)
    (handles : b.handles = a.handles.set h handle') : b.aim? h = handle'.nextFire :=
  aim?_of_found (handle?_set_self handles (lt_of_handle? found))

theorem aim?_set_ne (handles : b.handles = a.handles.set h handle') (other : h' ≠ h) :
    b.aim? h' = a.aim? h' := by
  rw [aim?, handle?_set_ne handles other, aim?]

theorem Quiet.aim? (quiet : a.Quiet b) (h : HandleId) : b.aim? h = a.aim? h := by
  have same := congrArg (Option.bind · Handle.nextFire) (quiet.handle? h)
  simp only [Option.bind_map] at same
  exact same

namespace Arms

variable {missed : Zoned → Bool}

theorem begun (arms : a.Arms h' handle missed b) : b.begun h = a.begun h := by
  cases arms with
  | waits _ _ _ _ _ _ _ _ fates | ends _ _ _ _ _ _ _ _ _ fates =>
    exact begun_of_passed (fates h)

theorem aim?_ne (arms : a.Arms h' handle missed b) (other : h ≠ h') : b.aim? h = a.aim? h := by
  cases arms with
  | waits _ _ _ handles | ends _ _ _ _ handles => exact aim?_set_ne handles other

/-- Where a coalescing handle is armed, it waits for nothing before the clock. -/
theorem ahead (coalesce : handle.coalesce = true)
    (arms : a.Arms h handle (fun t => handle.coalesce && t.before a.clock) b)
    (linear : Zoned.Linear a.clock handle.sequence.run.1) (found : a.handle? h = some handle) :
    ∀ t, b.aim? h = some t → a.clock.utc ≤ t.utc := by
  intro t aims
  cases arms with
  | waits alike run passes handles pending nextEntry revocable tells fates holdings kept =>
    rw [aim?_set_self found handles] at aims
    cases aims
    rw [coalesce, Bool.true_and] at kept
    rw [run] at linear
    exact linear.le_of_kept (List.mem_append_right _ List.mem_cons_self) kept
  | ends alike run nothing passes handles =>
    rw [aim?_set_self found handles] at aims
    cases aims

end Arms

/-! The order of dispatches. -/

/-- How the dispatches of a coalescing handle follow one another: none is for an occurrence that lay
before the clock when an earlier one began, and neither is the one that it waits for. -/
structure Spaced (a : Agenda α) (firing : List HandleId) (h : HandleId) (now : Int) : Prop where
  ordered : (a.begun h).Pairwise fun d d' => d.clock.utc ≤ d'.due.utc
  past : ∀ d ∈ a.begun h, d.clock.utc ≤ now
  ahead : h ∉ firing → ∀ t, a.aim? h = some t → ∀ d ∈ a.begun h, d.clock.utc ≤ t.utc

namespace Spaced

/-- It is enough to look at what the handle waits for, where nothing is dispatched. -/
theorem carry (spaced : a.Spaced firing h now) (dispatches : b.begun h = a.begun h)
    (later : now ≤ now') (ahead : h ∉ firing' → ∀ t, b.aim? h = some t →
      ∀ d ∈ a.begun h, d.clock.utc ≤ t.utc) : b.Spaced firing' h now' := by
  obtain ⟨ordered, past, -⟩ := spaced
  rw [← dispatches] at ordered past ahead
  exact ⟨ordered, fun d member => (past d member).trans later, ahead⟩

theorem same (spaced : a.Spaced firing h now) (dispatches : b.begun h = a.begun h)
    (aim : b.aim? h = a.aim? h) (later : now ≤ now') : b.Spaced firing h now' :=
  spaced.carry dispatches later fun outside t aims => spaced.ahead outside t (aim.symm.trans aims)

theorem quiet (spaced : a.Spaced firing h now) (quiet : a.Quiet b) (later : now ≤ now') :
    b.Spaced firing h now' :=
  spaced.same (begun_of_fates (quiet.fates h)) (quiet.aim? h) later

/-- A handle may cease to wait. -/
theorem drops (spaced : a.Spaced firing h now) (found : a.handle? h' = some handle)
    (handles : b.handles = a.handles.set h' handle') (ended : handle'.nextFire = none)
    (fates : b.fates h = a.fates h) : b.Spaced firing h now := by
  by_cases own : h = h'
  · subst own
    refine spaced.carry (begun_of_fates fates) le_rfl fun _ t aims => ?_
    rw [aim?_set_self found handles, ended] at aims
    cases aims
  · exact spaced.same (begun_of_fates fates) (aim?_set_ne handles own) le_rfl

/-- Arming a handle of which nothing was dispatched yet, or another. -/
theorem creates (spaced : a.Spaced firing h now) (sound : a.Sound firing)
    (creates : a.Creates handle b) : b.Spaced firing h now := by
  have missing : a.handle? a.handles.length = none := List.getElem?_eq_none le_rfl
  have dispatches : b.begun h = a.begun h := creates.arms.begun
  by_cases own : h = a.handles.length
  · have none : a.begun h = [] := by
      rw [Agenda.begun, own, ((sound.holds _).unknown missing).2.2, List.filterMap_nil]
    refine spaced.carry dispatches le_rfl fun _ t _ d member => ?_
    rw [none] at member
    cases member
  · have appended : { a with handles := a.handles ++ [handle] }.aim? h = a.aim? h :=
      congrArg (Option.bind · Handle.nextFire) (handle?_append_ne own)
    exact spaced.same dispatches ((creates.arms.aim?_ne own).trans appended) le_rfl

theorem moves (spaced : a.Spaced firing h now) (sound : a.Sound firing) (moves : a.Moves b) :
    b.Spaced firing h now := by
  induction moves with
  | refl => exact spaced
  | tail moves move ih =>
    cases move with
    | quiet quiet => exact ih.quiet quiet le_rfl
    | cancels cancels => exact ih.drops cancels.found cancels.handles rfl (cancels.fates h)
    | creates creates => exact ih.creates (sound.moves moves) creates

/-- What an entry that is taken does. The dispatch that begins is for what the handle waited for. -/
theorem serves (spaced : a.Spaced firing h now) (sound : a.Sound firing) {served : Option (Handle α)}
    (serves : a.Serves e b served) (later : now ≤ b.clock.utc) :
    b.Spaced ((served.map fun _ => e.handle).toList ++ firing) h b.clock.utc := by
  cases serves with
  | idles takes idle handles _ fates =>
    refine spaced.same (begun_of_fates (fates h)) ?_ later
    rw [aim?, handle?_of_handles handles, aim?]
  | drops takes found armed handles _ fates =>
    exact (spaced.drops found handles rfl (fates h)).same rfl rfl later
  | @fires handle clock takes found armed due _ handles journal clock' =>
    have fates := fates_of_dispatch journal h
    obtain ⟨outside, next⟩ := sound.waits_of_mem takes.member found armed
    by_cases own : h = e.handle
    · subst own
      have dispatches : b.begun e.handle = a.begun e.handle ++ [⟨e.due, clock⟩] := by
        rw [Agenda.begun, fates, if_pos rfl, next, List.filterMap_append]
        rfl
      have ahead := spaced.ahead outside e.due ((aim?_of_found found).trans next)
      rw [clock'] at later ⊢
      refine ⟨?_, ?_, fun idle => absurd List.mem_cons_self idle⟩
      · rw [dispatches, List.pairwise_append]
        refine ⟨spaced.ordered, List.pairwise_singleton _ _, fun d member d' last => ?_⟩
        rw [List.mem_singleton.mp last]
        exact ahead d member
      · rw [dispatches]
        refine List.forall_mem_append.mpr ⟨fun d member => (spaced.past d member).trans later, ?_⟩
        exact List.forall_mem_singleton.mpr le_rfl
    · rw [if_neg (Ne.symm own), List.append_nil] at fates
      refine spaced.carry (begun_of_fates fates) later fun idle t aims => ?_
      rw [aim?_set_ne handles own] at aims
      exact spaced.ahead (fun runs => idle (List.mem_cons_of_mem _ runs)) t aims

/-- The end of the dispatch of a handle that has ended meanwhile. -/
theorem finishes (spaced : a.Spaced (h' :: firing) h now) (sound : a.Sound (h' :: firing))
    (idle : ∀ handle, a.handle? h' = some handle → handle.state ≠ .armed) :
    a.Spaced firing h now := by
  refine spaced.carry rfl le_rfl fun outside t aims => ?_
  by_cases own : h = h'
  · subst own
    obtain ⟨handle, found, next⟩ := Option.bind_eq_some_iff.mp aims
    obtain ⟨⟨occurrences, -, stands⟩, -⟩ := (sound.holds h).kept handle found
    exact absurd (stands.next_iff.mp (next ▸ rfl)) (idle handle found)
  · exact spaced.ahead (List.not_mem_cons_of_ne_of_not_mem own outside) t aims

/-- The end of a dispatch after which a handle is armed again. -/
theorem rearms (spaced : a.Spaced (h' :: firing) h a.clock.utc)
    (found : a.handle? h' = some handle)
    (arms : a.Arms h' handle (fun t => handle.coalesce && t.before a.clock) b)
    (own : h' = h → handle.coalesce = true ∧
      Zoned.Linear a.clock handle.sequence.run.1) :
    b.Spaced firing h a.clock.utc := by
  refine spaced.carry arms.begun le_rfl fun outside t aims => ?_
  by_cases same : h = h'
  · subst same
    obtain ⟨coalesce, linear⟩ := own rfl
    exact fun d member => (spaced.past d member).trans (arms.ahead coalesce linear found t aims)
  · rw [arms.aim?_ne same] at aims
    exact spaced.ahead (List.not_mem_cons_of_ne_of_not_mem same outside) t aims

end Spaced

theorem spaced_start (clock : Zoned) (revocable : Bool) (sessions : List String)
    (schedulers : List (String × Config)) :
    (start clock revocable sessions schedulers : Agenda α).Spaced [] h clock.utc :=
  ⟨.nil, nofun, fun _ _ _ => nofun⟩

end Agenda

namespace Run

variable {r r' : Run α} {h : HandleId} {handle : Handle α} {did : Option (Action α)}

/-- A step as it is in a run whose clock does not go back in UTC. No arming after a dispatch fails in
it, and where it ends the dispatch of the handle, the clock and what the handle has left compare as
they do in UTC. -/
structure Forth (h : HandleId) (r r' : Run α) : Prop where
  calm : ¬r.Raises r'
  clock : r.agenda.clock.utc ≤ r'.agenda.clock.utc
  linear : r.firing = h :: r'.firing → ∀ handle, r.agenda.handle? h = some handle →
    handle.state = .armed → Zoned.Linear r.agenda.clock handle.sequence.run.1

/-- The runs that come about by such steps. -/
inductive Onward (h : HandleId) : Run α → Prop where
  | start (clock : Zoned) (revocable : Bool) (sessions : List String)
      (schedulers : List (String × Config)) :
      Onward h ⟨.start clock revocable sessions schedulers, [], none⟩
  | next {r r' : Run α} {did : Option (Action α)} (onward : Onward h r) (next : r.Next did r')
      (forth : Forth h r r') : Onward h r'

theorem Onward.reachable (onward : Onward h r) : r.Reachable := by
  induction onward with
  | start clock revocable sessions schedulers => exact .start clock revocable sessions schedulers
  | next onward next forth ih =>
    cases next with
    | act free action => exact ih.act free action
    | step step => exact ih.step step forth.calm

theorem spaced_stepped (spaced : r.agenda.Spaced r.firing h r.agenda.clock.utc)
    (sound : r.agenda.Sound r.firing) (coalesces : r.agenda.Coalesces h) (stepped : r.Stepped r')
    (forth : r.Forth h r') : r'.agenda.Spaced r'.firing h r'.agenda.clock.utc := by
  cases stepped with
  | moves moves firing =>
    rw [firing]
    exact (spaced.moves sound moves).same rfl rfl forth.clock
  | serves serves quiet firing delivers clock =>
    have later := forth.clock
    rw [firing, clock]
    rw [clock] at later
    exact (spaced.serves sound serves later).quiet quiet le_rfl
  | finishes firing idle quiet =>
    rw [firing] at spaced sound
    exact (spaced.finishes sound idle).quiet quiet forth.clock
  | @rearms h' handle b c firing quiet found armed arms quiet' faulted =>
    obtain ⟨handles, clock, -⟩ := same_of_faulted faulted
    rw [firing, ← clock] at spaced
    have armed := (spaced.quiet quiet le_rfl).rearms found arms fun own => by
      subst own
      have found' := (handles _).symm.trans found
      rw [clock]
      exact ⟨coalesces handle found', forth.linear firing handle found' armed⟩
    exact armed.quiet quiet' (clock ▸ forth.clock)
  | raises raises => exact absurd raises forth.calm

theorem Onward.spaced (onward : Onward h r) (coalesces : r.agenda.Coalesces h) :
    r.agenda.Spaced r.firing h r.agenda.clock.utc := by
  induction onward with
  | start clock revocable sessions schedulers =>
    exact Agenda.spaced_start clock revocable sessions schedulers
  | next onward next forth ih =>
    have before := next.stepped.persists.coalesces coalesces
    exact spaced_stepped (ih before) (sound_of_reachable onward.reachable) before next.stepped forth

/-! Catching up. -/

/-- How an armed handle goes on when its dispatch has ended. It passes over all that lies before the
clock, and a warning counts just this. It is armed for the first occurrence left that does not, or it
is exhausted where there is none. -/
structure CatchesUp (r : Run α) (h : HandleId) (handle : Handle α) (r' : Run α) : Prop where
  split : handle.sequence.run.1 =
    handle.sequence.behind r.agenda.clock ++ handle.sequence.ahead r.agenda.clock
  noted : ∃ fault message, (fault = [] ∨ ∃ failed, fault = [.logged ⟨.error, failed⟩]) ∧
    r'.agenda.journal = .logged ⟨.debug, message⟩ ::
      Agenda.passing h handle.name (handle.sequence.behind r.agenda.clock).length ++
        (fault ++ r.agenda.journal)
  goesOn : ∃ handle', r'.agenda.handle? h = some handle' ∧
    (∀ t rest, handle.sequence.ahead r.agenda.clock = t :: rest → handle'.state = .armed ∧
      handle'.nextFire = some t ∧ handle'.sequence.run.1 = rest ∧
      ∃ e ∈ r'.agenda.pending, handle'.timer = some e.id ∧ e.due = t ∧ e.handle = h) ∧
    (handle'.state = .exhausted ↔ handle.sequence.ahead r.agenda.clock = [])

/-- Every handle that is still armed when its dispatch ends is armed again. -/
theorem Stepped.arms_of_ended (stepped : r.Stepped r') (calm : ¬r.Raises r')
    (ended : r.firing = h :: r'.firing) (found : r.agenda.handle? h = some handle)
    (armed : handle.state = .armed) : ∃ b c,
      (b = r.agenda ∨ ∃ message, b = r.agenda.log .error message) ∧
      b.Arms h handle (fun t => handle.coalesce && t.before b.clock) c ∧ c.Quiet r'.agenda ∧
      r'.agenda.journal = c.journal := by
  obtain ⟨b, faulted, -, -, rearming⟩ := stepped.rearming ended found armed
  cases rearming with
  | arms arms quiet journal => exact ⟨b, _, faulted, arms, quiet, journal⟩
  | fails raises => exact absurd raises calm

theorem catchesUp_of_arms {b c : Agenda α}
    (faulted : b = r.agenda ∨ ∃ message, b = r.agenda.log .error message)
    (found : r.agenda.handle? h = some handle) (armed : handle.state = .armed)
    (coalesce : handle.coalesce = true)
    (linear : Zoned.Linear r.agenda.clock handle.sequence.run.1)
    (arms : b.Arms h handle (fun t => handle.coalesce && t.before b.clock) c)
    (quiet : c.Quiet r'.agenda) (journal : r'.agenda.journal = c.journal) :
    r.CatchesUp h handle r' := by
  obtain ⟨handles, clock, fault, failed, before⟩ := same_of_faulted faulted
  have found' : b.handle? h = some handle := (handles h).trans found
  -- What the handle has become.
  have becomes {x : Handle α} (set : c.handles = b.handles.set h x) : ∃ handle',
      r'.agenda.handle? h = some handle' ∧ handle'.unregistered = x.unregistered :=
    quiet.found (Agenda.handle?_set_self set (Agenda.lt_of_handle? found'))
  rw [clock] at arms
  have missed {skipped : List Zoned}
      (passes : ∀ u ∈ skipped, (handle.coalesce && u.before r.agenda.clock) = true) :
      ∀ u ∈ skipped, u.before r.agenda.clock = true :=
    fun u member => (Bool.and_eq_true_iff.mp (passes u member)).2
  cases arms with
  | @waits skipped t sequence alike run passes set pending _ _ _ _ _ kept noted =>
    rw [coalesce, Bool.true_and] at kept
    have run := congrArg Prod.fst run
    obtain ⟨behind, ahead⟩ :=
      Sequence.behind_ahead_of_found run linear (missed passes) kept
    obtain ⟨message, noted⟩ := noted
    obtain ⟨handle', there, same⟩ := becomes set
    have state : handle'.state = .armed := (congrArg Handle.state same :).trans armed
    refine ⟨by rw [behind, ahead]; exact run, ⟨fault, message, failed, ?_⟩, handle', there, ?_, ?_⟩
    · rw [journal, noted, before, behind]
    · intro u rest left
      cases ahead.symm.trans left
      refine ⟨state, (congrArg Handle.nextFire same :),
        congrArg (fun x : Handle α => x.sequence.run.1) same, ⟨b.nextEntry, t, h⟩, ?_,
        (congrArg Handle.timer same :), rfl, rfl⟩
      rw [quiet.pending, pending]
      exact List.mem_append_right _ (List.mem_singleton_self _)
    · rw [state, ahead]
      exact iff_of_false nofun nofun
  | @ends skipped sequence alike run nothing passes set _ _ _ _ _ _ noted =>
    have run := congrArg Prod.fst run
    obtain ⟨behind, ahead⟩ := Sequence.behind_ahead_of_ended run linear (missed passes)
    obtain ⟨message, noted⟩ := noted
    obtain ⟨handle', there, same⟩ := becomes set
    refine ⟨?_, ⟨fault, message, failed, ?_⟩, handle', there, ?_, ?_⟩
    · rw [behind, ahead, List.append_nil]
      exact run
    · rw [journal, noted, before, behind]
    · intro u rest left
      cases ahead.symm.trans left
    · exact iff_of_true (congrArg Handle.state same :) ahead

/-- A coalescing handle catches up at once. Of its dispatches that begin at an instant or later one
at most is for an occurrence before this. Each time that its dispatch ends, if it is still armed, it
passes over exactly what lies before the clock. -/
theorem at_most_one_late (onward : Onward h r) (found : r.agenda.handle? h = some handle)
    (coalesce : handle.coalesce = true) :
    (∀ T, ((r.agenda.begun h).filter fun d => d.Late T).length ≤ 1) ∧
    ∀ did r', r.Next did r' → r.Forth h r' → r.firing = h :: r'.firing → handle.state = .armed →
      r.CatchesUp h handle r' := by
  constructor
  · intro T
    have coalesces : r.agenda.Coalesces h := by
      intro handle' found'
      cases found.symm.trans found'
      exact coalesce
    exact Dispatch.late_le_one (onward.spaced coalesces).ordered T
  · intro did r' next forth ended armed
    obtain ⟨b, c, faulted, arms, quiet, journal⟩ :=
      next.stepped.arms_of_ended forth.calm ended found armed
    exact catchesUp_of_arms faulted found armed coalesce (forth.linear ended handle found armed) arms
      quiet journal

end Run

/-! The schedule of two occurrences, which the clock has overtaken when the first is dispatched. -/

namespace twoHours

def halfPastOne : Zoned := ⟨⟨63082287000000000, by decide⟩, .utc, false⟩

/-- In the late dispatch of the first occurrence. -/
def overdue : Agenda Nat :=
  { stored with
    clock := halfPastOne
    pending := []
    handles := [{ added (some 0) with timer := none, fired := 1 }]
    journal := .logged ⟨.warning, "Session " ++ Text.quoted "inbox" ++
        " has no handler for event " ++ Text.quoted "hour"⟩ ::
      .dispatched 0 twoHours.start halfPastOne :: stored.journal }

/-- The handle once the second occurrence has been passed over. -/
def spent : Handle Nat :=
  { added (some 0) with
    sequence := { sequence 17522858 second 2 with exhausted := true }
    state := .exhausted
    nextFire := none
    timer := none
    fired := 1 }

def caughtUp : Agenda Nat :=
  { overdue with
    handles := [spent]
    registries := [(0, .empty)]
    journal := .logged ⟨.debug, "Schedule " ++ Text.quoted "hour" ++ " exhausted after " ++
        toString 1 ++ " dispatches"⟩ :: Agenda.passing 0 "hour" 1 ++ overdue.journal }

theorem seek_over {passOver : Zoned → Bool} (passes : passOver second = true) :
    (sequence 17522857 twoHours.start 1).seek passOver 0 =
      (.ended, 1, { sequence 17522858 second 2 with exhausted := true }) := by
  rw [Sequence.seek_skip step_first, Sequence.seek_found_over rfl passes]
  exact Sequence.seek_ended rfl

theorem step_overdue : Run.step? (⟨overdue, [.firing 0 "inbox", .advancing halfPastOne 1],
      some (.ok .nothing)⟩ : Run Nat) =
    some ⟨caughtUp, [.advancing halfPastOne 1], some (.ok .nothing)⟩ := by
  have rearm : overdue.rearm 0 = (caughtUp, .ok ()) := by
    show Agenda.arm _ 0 { added (some 0) with timer := none, fired := 1 } true = _
    unfold Agenda.arm
    dsimp only [added, handle]
    rw [seek_over rfl]
    rfl
  have fired : Run.stepFiring overdue [.advancing halfPastOne 1] 0 (some (.ok .nothing)) =
      Run.reply caughtUp [.advancing halfPastOne 1] .nothing := by
    unfold Run.stepFiring
    dsimp only
    rw [rearm]
  exact congrArg (fun r : Run Nat => some r.settle) fired

/-- A step that ends no dispatch. -/
theorem forth_of_running {r r' : Run Nat} (idle : r.activities.head?.bind Activity.firing? = none)
    (later : r.agenda.clock.utc ≤ r'.agenda.clock.utc)
    (running : r.firing.length ≤ r'.firing.length) : r.Forth 0 r' := by
  refine ⟨?_, later, fun ended => ?_⟩
  · rintro ⟨⟨h, session, below, top⟩, -⟩
    rw [top] at idle
    cases idle
  · rw [ended] at running
    exact absurd running (Nat.not_succ_le_self _)

theorem onward_overdue : Run.Onward 0 (⟨overdue, [.firing 0 "inbox", .advancing halfPastOne 1],
    some (.ok .nothing)⟩ : Run Nat) := by
  have scheduled : Run.Onward 0 (⟨stored, [], some (.ok (.handle (some 0)))⟩ : Run Nat) :=
    (Run.Onward.start twoHours.start true ["inbox"] [("main", {})]).next next_stored
      (forth_of_running rfl le_rfl (Nat.zero_le _))
  have free {a : Agenda Nat} {outcome : Option (Outcome Nat)} : (⟨a, [], outcome⟩ : Run Nat).Free :=
    trivial
  have jump : (Run.perform stored [] (.jump 5400000000)).settle =
      ⟨{ stored with clock := halfPastOne }, [], some (.ok .nothing)⟩ := by
    have wall : twoHours.start.wall.add? 5400000000 = some halfPastOne.wall :=
      WallTime.ofMicros?_eq_some_iff.mpr rfl
    have clock : stored.clock.add? 5400000000 = some halfPastOne := by
      show twoHours.start.add? 5400000000 = _
      rw [Zoned.add?, wall]
      rfl
    rw [Run.perform, clock]
    rfl
  have jumped := scheduled.next (.act free (.jump 5400000000))
    (forth_of_running rfl (by rw [jump]; decide) (Nat.zero_le _))
  rw [jump] at jumped
  have advancing := jumped.next (.act free (.advance 0)) (forth_of_running rfl le_rfl (Nat.zero_le _))
  exact advancing.next (.step rfl) (forth_of_running rfl le_rfl (Nat.zero_le _))

/-- The second occurrence is passed over, and nothing is left. -/
theorem late_overdue : (overdue.begun 0).length = 1 ∧
    (∀ T, ((overdue.begun 0).filter fun d => d.Late T).length ≤ 1) ∧
    (⟨overdue, [.firing 0 "inbox", .advancing halfPastOne 1],
      some (.ok .nothing)⟩ : Run Nat).CatchesUp 0 { added (some 0) with timer := none, fired := 1 }
      ⟨caughtUp, [.advancing halfPastOne 1], some (.ok .nothing)⟩ := by
  have found : overdue.handle? 0 = some { added (some 0) with timer := none, fired := 1 } := rfl
  obtain ⟨few, catchesUp⟩ := Run.at_most_one_late onward_overdue found rfl
  refine ⟨rfl, few, catchesUp _ _ (.step step_overdue) ⟨?_, le_rfl, fun _ handle' found' _ => ?_⟩
    rfl rfl⟩
  · rintro ⟨-, f, failed⟩
    cases failed
  · have read : spec.rule scheduling.clock = .ok twoHours := rfl
    have kept := ((Run.sound_of_reachable onward_overdue.reachable).holds 0).kept handle' found'
    cases found.symm.trans found'
    exact kept.linear (Spec.rule_canonical read) ⟨rfl, trivial⟩ (.inl rfl) (.inr rfl)

end twoHours

end Almanac
