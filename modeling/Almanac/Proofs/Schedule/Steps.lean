import Almanac.Proofs.Schedule.Actions
import Almanac.Proofs.Occurrence.Rising

set_option autoImplicit false

/-!
What the steps of a run do to schedules.

Whatever an action or a handler does comes down to moves of the agenda. The rest are the steps of a
dispatch: an entry that has come due is taken and its handle fires, and once the dispatch has ended
the handle is armed again, unless it has ended meanwhile.
-/

namespace Almanac

variable {α : Type}

/-- The handle whose dispatch an activity is. -/
def Activity.firing? : Activity α → Option HandleId
  | firing h _ => some h
  | handling .. | advancing .. => none

/-- What is noted when an event is dispatched to a session: the call of its handler, or that it has
none. -/
inductive Happening.Delivers (session event : String) (args : List α) : Happening α → Prop where
  | called : Delivers session event args (.called session event args)
  | unhandled : Delivers session event args (.logged ⟨.warning, "Session " ++
      Text.quoted session ++ " has no handler for event " ++ Text.quoted event⟩)

namespace Agenda

/-! Taking an entry. -/

/-- The taking of an entry from the timer. -/
structure Takes (a : Agenda α) (e : Entry) (b : Agenda α) : Prop where
  member : e ∈ a.pending
  pending : b.pending = a.pending.filter (fun e' => e'.id ≠ e.id)
  nextEntry : b.nextEntry = a.nextEntry
  revocable : b.revocable = a.revocable
  holdings : b.holdings = a.holdings

/-- What an entry that is taken finds: a handle that has ended, one whose session is gone, which is
cancelled, or one that fires. -/
inductive Serves (a : Agenda α) (e : Entry) (b : Agenda α) : Option (Handle α) → Prop where
  | idles (takes : Takes a e b)
      (idle : ∀ handle, a.handle? e.handle = some handle → handle.state ≠ .armed)
      (handles : b.handles = a.handles) (tells : a.Tells b) (fates : ∀ h, b.fates h = a.fates h) :
      Serves a e b none
  | drops {handle : Handle α} (takes : Takes a e b) (found : a.handle? e.handle = some handle)
      (armed : handle.state = .armed)
      (handles : b.handles = a.handles.set e.handle
        { handle with state := .cancelled, nextFire := none, timer := none })
      (tells : a.Tells b) (fates : ∀ h, b.fates h = a.fates h)
      (gone : b.session? handle.session = none) : Serves a e b none
  | fires {handle : Handle α} {clock : Zoned} (takes : Takes a e b)
      (found : a.handle? e.handle = some handle) (armed : handle.state = .armed)
      (due : clock.before e.due = false) (lives : b.session? handle.session ≠ none)
      (handles : b.handles = a.handles.set e.handle
        { handle with timer := none, fired := handle.fired + 1 })
      (journal : b.journal =
        (handle.nextFire.map (.dispatched e.handle · clock)).toList ++ a.journal)
      (now : b.clock = clock) :
      Serves a e b (some { handle with timer := none, fired := handle.fired + 1 })

theorem Serves.member {a b : Agenda α} {e : Entry} {served : Option (Handle α)}
    (serves : a.Serves e b served) : e ∈ a.pending := by
  cases serves with
  | idles takes | drops takes | fires takes => exact takes.member

/-- What becomes of a handle that fires. -/
theorem fates_of_dispatch {a b : Agenda α} {h : HandleId} {due : Option Zoned} {clock : Zoned}
    (journal : b.journal = (due.map (.dispatched h · clock)).toList ++ a.journal) (h' : HandleId) :
    b.fates h' = a.fates h' ++ if h = h' then (due.map (.dispatched · clock)).toList else [] := by
  rw [fates, journal, fates]
  cases due with
  | none => rw [Option.map_none, Option.map_none, Option.toList_none, Option.toList_none, ite_self,
      List.append_nil, List.nil_append]
  | some t =>
    rw [Option.map_some, Option.toList_some, List.singleton_append, List.reverse_cons,
      List.flatMap_append, List.flatMap_singleton]
    rfl

/-- The clock is moved up to an instant, or stands there or later already. -/
theorem clockAtLeast_eq (a : Agenda α) (t : Zoned) :
    ∃ clock, a.clockAtLeast t = { a with clock } ∧ clock.before t = false := by
  unfold clockAtLeast
  split
  · exact ⟨t, rfl, t.not_before_self⟩
  · rename_i behind
    exact ⟨a.clock, rfl, Bool.eq_false_iff.mpr behind⟩

theorem serves (a : Agenda α) {e : Entry} (member : e ∈ a.pending) :
    Serves a e (((a.removeEntry e.id).clockAtLeast e.due).fire e.handle).1
      (((a.removeEntry e.id).clockAtLeast e.due).fire e.handle).2 := by
  obtain ⟨clock, moved, due⟩ := clockAtLeast_eq (a.removeEntry e.id) e.due
  rw [moved]
  unfold fire
  split
  · rename_i missing
    refine .idles ⟨member, rfl, rfl, rfl, rfl⟩ (fun handle known => ?_) rfl (.same rfl) fun _ => rfl
    rw [show a.handle? e.handle = none from missing] at known
    cases known
  · rename_i handle found
    split
    · rename_i armed
      have armed : handle.state = .armed := by simpa [Handle.isArmed] using armed
      dsimp only
      split
      · rename_i gone
        have gone : ({ a.removeEntry e.id with clock }).session? handle.session = none := by
          simpa using gone
        refine .drops ⟨member, rfl, rfl, rfl, rfl⟩ found armed rfl (.record (.same rfl) rfl) ?_ gone
        exact (quiet_log _ _).fates
      · rename_i lives
        have lives : ({ a.removeEntry e.id with clock }).session? handle.session ≠ none := by
          simpa using lives
        split
        · rename_i next
          refine .fires ⟨member, rfl, rfl, rfl, rfl⟩ found armed due lives rfl ?_ rfl
          rw [next]
          rfl
        · rename_i next
          refine .fires ⟨member, rfl, rfl, rfl, rfl⟩ found armed due lives rfl ?_ rfl
          rw [next]
          rfl
    · rename_i idle
      refine .idles ⟨member, rfl, rfl, rfl, rfl⟩ (fun other known => ?_) rfl (.same rfl) fun _ => rfl
      rw [show a.handle? e.handle = some handle from found] at known
      cases known
      simpa [Handle.isArmed] using idle

theorem release_journal {a : Agenda α} (held : List String) :
    (a.release held).journal = a.journal := by
  unfold release
  dsimp only
  split <;> rfl

theorem clock_release {a : Agenda α} (held : List String) : (a.release held).clock = a.clock := by
  unfold release
  dsimp only
  split <;> rfl

theorem mem_of_earliest {es : List Entry} {e : Entry} (h : earliest es = some e) : e ∈ es := by
  induction es generalizing e with
  | nil => cases h
  | cons first es ih =>
    unfold earliest at h
    split at h
    · cases h
      exact List.mem_cons_self
    · rename_i later found
      split at h
      · cases h
        exact List.mem_cons_of_mem _ (ih found)
      · cases h
        exact List.mem_cons_self

theorem mem_of_dueBy? {a : Agenda α} {t : Zoned} {e : Entry} (h : a.dueBy? t = some e) :
    e ∈ a.pending :=
  (List.mem_filter.mp (mem_of_earliest h)).1

end Agenda

namespace Run

/-! Actions. -/

/-- The handles inside their own dispatch, the innermost first. -/
def firing (r : Run α) : List HandleId := r.activities.filterMap Activity.firing?

/-- What is done at one level of a run comes down to moves, and starts no dispatch of a handle. -/
structure Performs (a : Agenda α) (below : List (Activity α)) (r : Run α) : Prop where
  moves : a.Moves r.agenda
  firing : r.firing = below.filterMap Activity.firing?

variable {a : Agenda α} {below : List (Activity α)}

theorem quiet_dispatch (session event : String) (args : List α) :
    a.Quiet (dispatch a below session event args).agenda := by
  unfold dispatch
  split
  · exact .refl a
  · split
    · exact Agenda.quiet_log _ _
    · exact (Agenda.quiet_setSession _).trans (Agenda.quiet_record _ (fun _ => rfl) rfl)

theorem clock_dispatch (session event : String) (args : List α) :
    (dispatch a below session event args).agenda.clock = a.clock := by
  unfold dispatch
  split
  · rfl
  · split <;> rfl

theorem firing_dispatch (session event : String) (args : List α) :
    (dispatch a below session event args).firing = below.filterMap Activity.firing? := by
  unfold dispatch
  split
  · rfl
  · split <;> rfl

/-- An event that is dispatched to a session that exists is delivered. -/
theorem delivers_dispatch (below : List (Activity α)) {session : String} (event : String)
    (args : List α) (lives : a.session? session ≠ none) : ∃ x, Happening.Delivers session event args x ∧
      (dispatch a below session event args).agenda.journal = x :: a.journal := by
  unfold dispatch
  split
  · rename_i gone
    exact absurd gone lives
  · rename_i s found
    have name := Agenda.name_of_session? found
    split
    · refine ⟨_, .unhandled, ?_⟩
      rw [name]
      rfl
    · exact ⟨_, .called, rfl⟩

theorem performs (a : Agenda α) (below : List (Activity α)) (action : Action α) :
    Performs a below (perform a below action) := by
  have spec := perform_spec a below action
  generalize perform a below action = r at spec ⊢
  cases spec with
  | answers | advances => exact ⟨.refl, rfl⟩
  | jumps clock =>
    exact ⟨Agenda.Moves.refl.quiet (.same rfl rfl rfl rfl rfl (Agenda.names_subset rfl)), rfl⟩
  | dispatches session event args =>
    exact ⟨Agenda.Moves.refl.quiet (quiet_dispatch session event args),
      firing_dispatch session event args⟩
  | on | drops => exact ⟨Agenda.Moves.refl.quiet (Agenda.quiet_setSession _), rfl⟩
  | setsHeap => exact ⟨Agenda.Moves.refl.quiet (Agenda.quiet_setHeap _ _ _), rfl⟩
  | adds lives config => exact ⟨Agenda.Moves.refl.addSchedule config _ _ _ _ _, rfl⟩
  | creates creates => exact ⟨Agenda.Moves.refl.tail (.creates creates), rfl⟩
  | removes config => exact ⟨Agenda.Moves.refl.remove config _ _, rfl⟩
  | removesAll config => exact ⟨Agenda.Moves.refl.removeAll config _, rfl⟩
  | cancels h => exact ⟨Agenda.Moves.refl.cancel h, rfl⟩
  | findsRegistry _ obtained | getsFromRegistry _ _ obtained | viewsRegistry _ _ obtained =>
    exact ⟨Agenda.Moves.refl.obtained obtained, rfl⟩
  | @putsInRegistry _ _ _ id _ name h _ _ obtained =>
    exact ⟨(Agenda.Moves.refl.obtained obtained).putInRegistry id name h, rfl⟩
  | @discards _ _ _ id _ name h _ obtained =>
    exact ⟨(Agenda.Moves.refl.obtained obtained).quiet (Agenda.quiet_discard id name h), rfl⟩
  | @popsFromRegistry _ _ _ id _ name _ obtained =>
    exact ⟨(Agenda.Moves.refl.obtained obtained).quiet (Agenda.quiet_popFromRegistry id name), rfl⟩
  | @clearsRegistry _ _ _ id _ _ obtained =>
    exact ⟨(Agenda.Moves.refl.obtained obtained).clearRegistry id, rfl⟩

/-! Steps. -/

/-- Whether arming a handle again after its dispatch fails in a step. -/
def Raises (r r' : Run α) : Prop :=
  (∃ h session below, r.activities = .firing h session :: below) ∧
    ∃ f, r'.outcome = some (.error f)

/-- What a step of a run can do to schedules: moves, the taking of an entry, or the end of a
dispatch, after which the handle has ended, or is armed again or is not because its sequence fails. -/
inductive Stepped (r r' : Run α) : Prop where
  | moves (moves : r.agenda.Moves r'.agenda) (firing : r'.firing = r.firing)
  | serves {e : Entry} {b : Agenda α} {handle : Option (Handle α)}
      (serves : r.agenda.Serves e b handle) (quiet : b.Quiet r'.agenda)
      (firing : r'.firing = (handle.map fun _ => e.handle).toList ++ r.firing)
      (delivers : ∀ fired, handle = some fired →
        ∃ x, Happening.Delivers fired.session fired.event fired.args x ∧
          r'.agenda.journal = x :: b.journal)
      (clock : r'.agenda.clock = b.clock)
  | finishes {h : HandleId} (firing : r.firing = h :: r'.firing)
      (idle : ∀ handle, r.agenda.handle? h = some handle → handle.state ≠ .armed)
      (quiet : r.agenda.Quiet r'.agenda)
  | rearms {h : HandleId} {handle : Handle α} {b c : Agenda α} (firing : r.firing = h :: r'.firing)
      (quiet : r.agenda.Quiet b) (found : b.handle? h = some handle) (armed : handle.state = .armed)
      (arms : b.Arms h handle (fun t => handle.coalesce && t.before b.clock) c)
      (quiet' : c.Quiet r'.agenda)
      (faulted : b = r.agenda ∨ ∃ message, b = r.agenda.log .error message)
      (journal : r'.agenda.journal = c.journal) (answered : r'.outcome = some (.ok .nothing))
  | raises {h : HandleId} {handle : Handle α} {b : Agenda α} {sequence : Sequence}
      (raises : r.Raises r') (firing : r.firing = h :: r'.firing) (quiet : r.agenda.Quiet b)
      (found : b.handle? h = some handle) (armed : handle.state = .armed)
      (quiet' : (b.setHandle h { handle with sequence }).Quiet r'.agenda)
      (faulted : b = r.agenda ∨ ∃ message, b = r.agenda.log .error message)
      (alike : handle.sequence.Alike sequence)
      (off : handle.sequence.RunsOff fun t => handle.coalesce && t.before b.clock)
      (answered : r'.outcome = some (.error .outOfRange))

/-- Noting a fault changes neither handles nor the clock. -/
theorem same_of_faulted {a b : Agenda α} (faulted : b = a ∨ ∃ message, b = a.log .error message) :
    (∀ h, b.handle? h = a.handle? h) ∧ b.clock = a.clock ∧ ∃ fault,
      (fault = [] ∨ ∃ message, fault = [.logged ⟨.error, message⟩]) ∧
        b.journal = fault ++ a.journal := by
  rcases faulted with rfl | ⟨message, rfl⟩
  · exact ⟨fun _ => rfl, rfl, [], .inl rfl, rfl⟩
  · exact ⟨fun _ => rfl, rfl, _, .inr ⟨message, rfl⟩, rfl⟩

/-- What becomes of a handle that is still armed when its dispatch ends, once a fault has been noted.
Where its sequence fails nothing is done but to go on in it. -/
inductive Rearming (r : Run α) (h : HandleId) (handle : Handle α) (r' : Run α) (b : Agenda α) :
    Prop where
  | arms {c : Agenda α} (arms : b.Arms h handle (fun t => handle.coalesce && t.before b.clock) c)
      (quiet : c.Quiet r'.agenda) (journal : r'.agenda.journal = c.journal)
      (answered : r'.outcome = some (.ok .nothing))
  | fails {sequence : Sequence} (raises : r.Raises r')
      (quiet : (b.setHandle h { handle with sequence }).Quiet r'.agenda)
      (off : handle.sequence.RunsOff fun t => handle.coalesce && t.before b.clock)
      (answered : r'.outcome = some (.error .outOfRange))

theorem Stepped.rearming {r r' : Run α} {h : HandleId} {handle : Handle α} (stepped : r.Stepped r')
    (ended : r.firing = h :: r'.firing) (found : r.agenda.handle? h = some handle)
    (armed : handle.state = .armed) :
    ∃ b, (b = r.agenda ∨ ∃ message, b = r.agenda.log .error message) ∧
      b.handle? h = some handle ∧ r.agenda.Quiet b ∧ r.Rearming h handle r' b := by
  have longer : r.firing.length = r'.firing.length + 1 := congrArg List.length ended
  cases stepped with
  | moves moves firing =>
    rw [firing] at longer
    exact absurd longer (Nat.ne_add_one _)
  | serves serves quiet firing =>
    rw [firing, List.length_append] at longer
    omega
  | finishes firing idle =>
    cases firing.symm.trans ended
    exact absurd armed (idle handle found)
  | rearms firing quiet found' armed' arms quiet' faulted journal answered =>
    cases firing.symm.trans ended
    cases (found'.symm.trans ((same_of_faulted faulted).1 h)).trans found
    exact ⟨_, faulted, found', quiet, .arms arms quiet' journal answered⟩
  | raises raises firing quiet found' armed' quiet' faulted alike off answered =>
    cases firing.symm.trans ended
    cases (found'.symm.trans ((same_of_faulted faulted).1 h)).trans found
    exact ⟨_, faulted, found', quiet, .fails raises quiet' off answered⟩

theorem settle_journal (r : Run α) : r.settle.agenda.journal = r.agenda.journal :=
  Agenda.release_journal _

variable {r : Run α}

/-- The end of a dispatch, once a fault has been noted. -/
theorem stepped_rearm {h : HandleId} {session : String} {b : Agenda α}
    (activities : r.activities = .firing h session :: below)
    (faulted : b = r.agenda ∨ ∃ message, b = r.agenda.log .error message) :
    r.Stepped (match b.rearm h with
      | (a, .ok ()) => reply a below .nothing
      | (a, .error f) => fault a below f).settle := by
  have firing : r.firing = h :: below.filterMap Activity.firing? := by
    rw [Run.firing, activities]
    rfl
  have quiet : r.agenda.Quiet b := by
    rcases faulted with rfl | ⟨message, rfl⟩
    · exact .refl _
    · exact Agenda.quiet_log _ _
  have same : b.handles = r.agenda.handles := by
    rcases faulted with rfl | ⟨message, rfl⟩ <;> rfl
  have rearm := Agenda.rearm_spec b h
  generalize b.rearm h = result at rearm ⊢
  cases rearm with
  | idle idle =>
    exact .finishes firing
      (fun handle found => idle handle ((Agenda.handle?_of_handles same h).trans found))
      (quiet.trans (Agenda.quiet_release _))
  | arms found armed arms =>
    exact .rearms firing quiet found armed arms (Agenda.quiet_release _) faulted
      (Agenda.release_journal _) rfl
  | raises found armed alike off =>
    exact .raises ⟨⟨h, session, below, activities⟩, .outOfRange, rfl⟩ firing quiet found armed
      (Agenda.quiet_release _) faulted alike off rfl

/-- A step of a handler goes on with its script. -/
theorem stepped_handling {session event : String} {script : Script α} {call : Nat}
    (activities : r.activities = .handling session event script call :: below) :
    r.Stepped (stepHandling r.agenda below session event script call r.outcome).settle := by
  have firing : r.firing = below.filterMap Activity.firing? := by
    rw [Run.firing, activities]
    rfl
  have stepped {r' : Run α} (performs : Performs r.agenda below r') : r.Stepped r'.settle :=
    .moves (performs.moves.quiet (Agenda.quiet_release _)) (performs.firing.trans firing.symm)
  unfold stepHandling
  split
  · exact stepped ⟨.refl, rfl⟩
  · exact stepped ⟨.refl, rfl⟩
  · rename_i only action rest _
    dsimp only
    split
    · have performs := performs r.agenda (.handling session event rest call :: below) action
      exact stepped ⟨performs.moves, performs.firing⟩
    · exact stepped ⟨.refl, rfl⟩

/-- A step of an advance takes the next entry that is due, if there is one. -/
theorem stepped_advancing {goal : Zoned} {count : Nat}
    (activities : r.activities = .advancing goal count :: below) :
    r.Stepped (stepAdvancing r.agenda below goal count r.outcome).settle := by
  have firing : r.firing = below.filterMap Activity.firing? := by
    rw [Run.firing, activities]
    rfl
  unfold stepAdvancing
  split
  · exact .moves (Agenda.Moves.refl.quiet (Agenda.quiet_release _)) firing.symm
  · split
    · exact .moves (Agenda.Moves.refl.quiet
        ((Agenda.quiet_clockAtLeast goal).trans (Agenda.quiet_release _))) firing.symm
    · rename_i e found
      have serves := r.agenda.serves (Agenda.mem_of_dueBy? found)
      dsimp only
      generalize ((r.agenda.removeEntry e.id).clockAtLeast e.due).fire e.handle = result at serves ⊢
      obtain ⟨b, _ | handle⟩ := result
      · refine .serves serves (Agenda.quiet_release _) firing.symm (fun fired same => ?_)
          (Agenda.clock_release _)
        cases same
      · refine .serves serves ((quiet_dispatch handle.session handle.event handle.args).trans
          (Agenda.quiet_release _)) ?_ (fun fired same => ?_)
          ((Agenda.clock_release _).trans (clock_dispatch _ _ _))
        · exact (firing_dispatch handle.session handle.event handle.args).trans
            (congrArg (e.handle :: ·) firing.symm)
        · cases same
          cases serves with
          | @fires handle clock takes found armed due lives =>
            obtain ⟨x, delivers, journal⟩ := delivers_dispatch (.firing e.handle handle.session ::
              .advancing goal (count + 1) :: below) handle.event handle.args lives
            refine ⟨x, delivers, ?_⟩
            rw [settle_journal]
            exact journal

/-- Every step of a run is one of these. -/
theorem stepped {r' : Run α} (step : r.step? = some r') : r.Stepped r' := by
  unfold step? at step
  split at step
  · cases step
  · rename_i activities
    cases step
    exact stepped_handling activities
  · rename_i h session below activities
    cases step
    rcases r.outcome with _ | fault | reply
    · exact stepped_rearm activities (.inl rfl)
    · cases found : r.agenda.handle? h with
      | none =>
        unfold stepFiring
        rw [found]
        exact stepped_rearm activities (.inl rfl)
      | some handle =>
        unfold stepFiring
        rw [found]
        exact stepped_rearm activities (.inr ⟨_, rfl⟩)
    · exact stepped_rearm activities (.inl rfl)
  · rename_i activities
    cases step
    exact stepped_advancing activities

/-! Reachable runs. -/

/-- Whether the next action is free: it is where nothing runs, and within a handler, which need not
keep to its script and may go on after a fault. -/
def Free (r : Run α) : Prop :=
  match r.activities with
  | [] | .handling .. :: _ => True
  | .firing .. :: _ | .advancing .. :: _ => False

/-- The runs that come about by actions, also those of handlers, and by their steps, as long as no
arming after a dispatch fails. -/
inductive Reachable : Run α → Prop where
  | start (clock : Zoned) (revocable : Bool) (sessions : List String)
      (schedulers : List (String × Config)) :
      Reachable ⟨.start clock revocable sessions schedulers, [], none⟩
  | act {r : Run α} (reachable : Reachable r) (free : r.Free) (action : Action α) :
      Reachable (perform r.agenda r.activities action).settle
  | step {r r' : Run α} (reachable : Reachable r) (step : r.step? = some r')
      (calm : ¬r.Raises r') : Reachable r'

end Run

end Almanac
