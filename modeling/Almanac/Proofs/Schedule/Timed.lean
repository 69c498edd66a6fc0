import Almanac.Proofs.Schedule.Course
import Almanac.Proofs.Schedule.Sound

set_option autoImplicit false

/-!
The timer entries of a run, also of one in which a handle could not be armed again.

An armed handle knows every entry that is for it, so it has one at most, and none while its dispatch
runs. Where the timer can take entries back a handle that has ended has none. So cancelling a handle
takes back all that is outstanding for it, and nothing else.
-/

namespace Almanac

variable {α : Type}

/-- What a handle has to do with the timer: whether it is armed, and the entry that it knows. -/
structure Watch where
  armed : Bool
  timer : Option EntryId

def Handle.watch (handle : Handle α) : Watch := ⟨handle.isArmed, handle.timer⟩

theorem Handle.watch_of_armed {handle : Handle α} (armed : handle.state = .armed) :
    handle.watch.armed = true :=
  decide_eq_true armed

namespace Agenda

def watch? (a : Agenda α) (h : HandleId) : Option Watch := (a.handle? h).map Handle.watch

/-- How handles and timer entries belong together, given the handles inside their own dispatch. -/
structure Timed (a : Agenda α) (firing : List HandleId) : Prop where
  numbered : a.Numbered
  own : ∀ e ∈ a.pending, ∃ w, a.watch? e.handle = some w ∧
    (w.armed = true → w.timer = some e.id) ∧ (a.revocable = true → w.armed = true)
  known : ∀ h w id, a.watch? h = some w → w.timer = some id →
    id < a.nextEntry ∧ ∀ e ∈ a.pending, e.id = id → e.handle = h
  idle : ∀ h ∈ firing, a.watch? h ≠ none ∧ a.entriesOf h = []
  once : firing.Nodup

variable {a b c : Agenda α} {firing : List HandleId} {h h' : HandleId} {handle handle' : Handle α}
  {e : Entry}

/-! What is known of a handle. -/

theorem watch?_of_found (found : a.handle? h = some handle) : a.watch? h = some handle.watch := by
  rw [watch?, found, Option.map_some]

theorem watch?_set_self (found : a.handle? h = some handle)
    (handles : b.handles = a.handles.set h handle') : b.watch? h = some handle'.watch :=
  watch?_of_found (handle?_set_self handles (lt_of_handle? found))

theorem watch?_set_ne (handles : b.handles = a.handles.set h handle') (other : h' ≠ h) :
    b.watch? h' = a.watch? h' := by
  rw [watch?, handle?_set_ne handles other, watch?]

theorem Quiet.watch? (quiet : a.Quiet b) (h : HandleId) : b.watch? h = a.watch? h := by
  have same := congrArg (Option.map Handle.watch) (quiet.handle? h)
  rw [Option.map_map, Option.map_map] at same
  exact same

namespace Timed

/-! Changes that bring in no entry. -/

/-- A handle may forget its entry, if what is left for it cannot be taken back and finds it ended. -/
theorem shrinks (timed : a.Timed firing) (numbered : b.Numbered) (pending : b.pending ⊆ a.pending)
    (nextEntry : b.nextEntry = a.nextEntry) (revocable : b.revocable = a.revocable)
    (watch : ∀ h, b.watch? h = a.watch? h ∨ ∃ armed, b.watch? h = some ⟨armed, none⟩ ∧
      ∀ e ∈ b.entriesOf h, armed = false ∧ a.revocable = false) : b.Timed firing := by
  refine ⟨numbered, fun e member => ?_, fun h w id found timer => ?_, fun h runs => ?_, timed.once⟩
  · obtain ⟨w, found, armed, live⟩ := timed.own e (pending member)
    rcases watch e.handle with same | ⟨armed', forgot, left⟩
    · refine ⟨w, same.trans found, armed, ?_⟩
      rw [revocable]
      exact live
    · obtain ⟨rfl, irrevocable⟩ := left e (mem_entriesOf.mpr ⟨member, rfl⟩)
      rw [revocable, irrevocable]
      exact ⟨_, forgot, nofun, nofun⟩
  · rcases watch h with same | ⟨armed, forgot, -⟩
    · obtain ⟨given, only⟩ := timed.known h w id (same.symm.trans found) timer
      rw [nextEntry]
      exact ⟨given, fun e member => only e (pending member)⟩
    · cases forgot.symm.trans found
      cases timer
  · obtain ⟨there, nothing⟩ := timed.idle h runs
    constructor
    · rcases watch h with same | ⟨armed, forgot, -⟩
      · rw [same]
        exact there
      · rw [forgot]
        exact Option.some_ne_none _
    · rw [List.eq_nil_iff_forall_not_mem] at nothing ⊢
      intro e member
      obtain ⟨member, whose⟩ := mem_entriesOf.mp member
      exact nothing e (mem_entriesOf.mpr ⟨pending member, whose⟩)

theorem same (timed : a.Timed firing) (pending : b.pending = a.pending)
    (nextEntry : b.nextEntry = a.nextEntry) (revocable : b.revocable = a.revocable)
    (watch : ∀ h, b.watch? h = a.watch? h) : b.Timed firing :=
  timed.shrinks (timed.numbered.of_same pending nextEntry) (pending ▸ List.Subset.refl _) nextEntry
    revocable fun h => .inl (watch h)

theorem quiet (timed : a.Timed firing) (quiet : a.Quiet b) : b.Timed firing :=
  timed.same quiet.pending quiet.nextEntry quiet.revocable quiet.watch?

theorem filter (timed : a.Timed firing) {p : Entry → Bool} (pending : b.pending = a.pending.filter p)
    (nextEntry : b.nextEntry = a.nextEntry) (revocable : b.revocable = a.revocable)
    (watch : ∀ h, b.watch? h = a.watch? h ∨ ∃ armed, b.watch? h = some ⟨armed, none⟩ ∧
      ∀ e ∈ b.entriesOf h, armed = false ∧ a.revocable = false) : b.Timed firing :=
  timed.shrinks (timed.numbered.filter pending nextEntry)
    (pending ▸ List.filter_sublist.subset) nextEntry revocable watch

/-- There are no entries for a handle that does not exist. -/
theorem entriesOf_missing (timed : a.Timed firing) (missing : a.handle? h = none) :
    a.entriesOf h = [] := by
  rw [List.eq_nil_iff_forall_not_mem]
  intro e member
  obtain ⟨pending, rfl⟩ := mem_entriesOf.mp member
  obtain ⟨w, watched, -⟩ := timed.own e pending
  rw [watch?, missing] at watched
  cases watched

/-- An armed handle knows every entry that is for it. -/
theorem timer_of_mem (timed : a.Timed firing) (found : a.handle? h = some handle)
    (armed : handle.state = .armed) (member : e ∈ a.entriesOf h) : handle.timer = some e.id := by
  obtain ⟨pending, rfl⟩ := mem_entriesOf.mp member
  obtain ⟨w, watched, timer, -⟩ := timed.own e pending
  cases (watch?_of_found found).symm.trans watched
  exact timer (Handle.watch_of_armed armed)

theorem cancels (timed : a.Timed firing) (cancels : a.Cancels h handle b) : b.Timed firing := by
  refine timed.filter cancels.pending cancels.nextEntry cancels.revocable fun h' => ?_
  by_cases own : h' = h
  · subst own
    refine .inr ⟨_, watch?_set_self cancels.found cancels.handles, fun e member => ⟨rfl, ?_⟩⟩
    rw [entriesOf_filter cancels.pending] at member
    obtain ⟨member, left⟩ := List.mem_filter.mp member
    rw [timed.timer_of_mem cancels.found cancels.armed member] at left
    simpa using left
  · exact .inl (watch?_set_ne cancels.handles own)

/-- Nothing is left for an armed handle whose entry is taken. -/
theorem taken (timed : a.Timed firing) (takes : a.Takes e b)
    (found : a.handle? e.handle = some handle) (armed : handle.state = .armed) :
    b.entriesOf e.handle = [] := by
  rw [entriesOf_filter takes.pending, List.filter_eq_nil_iff]
  intro e' member
  have own := timed.timer_of_mem found armed (mem_entriesOf.mpr ⟨takes.member, rfl⟩)
  rw [timed.timer_of_mem found armed member] at own
  simpa using own

/-- Taking an entry, after which its handle knows of none. -/
theorem takes (timed : a.Timed firing) (takes : a.Takes e b)
    (found : a.handle? e.handle = some handle) (armed : handle.state = .armed)
    (handles : b.handles = a.handles.set e.handle handle') (forgot : handle'.timer = none) :
    b.Timed firing := by
  refine timed.filter takes.pending takes.nextEntry takes.revocable fun h => ?_
  by_cases own : h = e.handle
  · subst own
    refine .inr ⟨handle'.isArmed, ?_, ?_⟩
    · rw [watch?_set_self found handles, Handle.watch, forgot]
    · rw [timed.taken takes found armed]
      nofun
  · exact .inl (watch?_set_ne handles own)

theorem serves (timed : a.Timed firing) {served : Option (Handle α)}
    (serves : a.Serves e b served) : b.Timed ((served.map fun _ => e.handle).toList ++ firing) := by
  cases serves with
  | idles takes idle handles =>
    refine timed.filter takes.pending takes.nextEntry takes.revocable fun h => .inl ?_
    rw [watch?, handle?_of_handles handles, watch?]
  | drops takes found armed handles => exact timed.takes takes found armed handles rfl
  | @fires handle clock takes found armed due lives handles journal =>
    have taken := timed.taken takes found armed
    obtain ⟨numbered, own, known, idle, once⟩ := timed.takes takes found armed handles rfl
    refine ⟨numbered, own, known, fun h runs => ?_, List.nodup_cons.mpr ⟨fun runs => ?_, once⟩⟩
    · rcases List.mem_cons.mp runs with rfl | runs
      · rw [watch?_set_self found handles]
        exact ⟨Option.some_ne_none _, taken⟩
      · exact idle h runs
    · have nothing := (timed.idle e.handle runs).2
      rw [List.eq_nil_iff_forall_not_mem] at nothing
      exact nothing e (mem_entriesOf.mpr ⟨takes.member, rfl⟩)

/-! Arming. -/

/-- A handle that has no entry and whose dispatch does not run gets one. -/
theorem registers (timed : a.Timed firing) {t : Zoned}
    (pending : b.pending = a.pending ++ [⟨a.nextEntry, t, h⟩])
    (nextEntry : b.nextEntry = a.nextEntry + 1) (revocable : b.revocable = a.revocable)
    (self : b.watch? h = some ⟨true, some a.nextEntry⟩)
    (others : ∀ h' ≠ h, b.watch? h' = a.watch? h') (free : a.entriesOf h = []) (outside : h ∉ firing) :
    b.Timed firing := by
  have cases {e : Entry} (member : e ∈ b.pending) : e ∈ a.pending ∨ e = ⟨a.nextEntry, t, h⟩ := by
    rw [pending] at member
    exact (List.mem_append.mp member).imp_right List.mem_singleton.mp
  refine ⟨timed.numbered.append pending nextEntry, fun e member => ?_,
    fun h' w id watched timer => ?_, fun h' runs => ?_, timed.once⟩
  · rcases cases member with old | rfl
    · have elsewhere : e.handle ≠ h := by
        rintro rfl
        rw [List.eq_nil_iff_forall_not_mem] at free
        exact free e (mem_entriesOf.mpr ⟨old, rfl⟩)
      rw [others _ elsewhere, revocable]
      exact timed.own e old
    · exact ⟨_, self, fun _ => rfl, fun _ => rfl⟩
  · rw [nextEntry]
    by_cases own : h' = h
    · subst own
      cases self.symm.trans watched
      cases timer
      refine ⟨Nat.lt_succ_self _, fun e member id => ?_⟩
      rcases cases member with old | rfl
      · exact absurd id (timed.numbered.given e old).ne
      · rfl
    · obtain ⟨given, only⟩ := timed.known h' w id ((others h' own).symm.trans watched) timer
      refine ⟨given.trans (Nat.lt_succ_self _), fun e member same => ?_⟩
      rcases cases member with old | rfl
      · exact only e old same
      · exact absurd same.symm given.ne
  · have other : h' ≠ h := by
      rintro rfl
      exact outside runs
    obtain ⟨there, nothing⟩ := timed.idle h' runs
    rw [others h' other]
    refine ⟨there, ?_⟩
    rw [entriesOf_append pending, nothing, if_neg other.symm]
    rfl

/-- Arming a handle that has no entry and whose dispatch does not run. Nothing else need be known of
it. -/
theorem arms (timed : a.Timed firing) {missed : Zoned → Bool} (pending : b.pending = a.pending)
    (nextEntry : b.nextEntry = a.nextEntry) (revocable : b.revocable = a.revocable)
    (others : ∀ h' ≠ h, b.watch? h' = a.watch? h') (found : b.handle? h = some handle)
    (armed : handle.state = .armed) (free : a.entriesOf h = []) (outside : h ∉ firing)
    (arms : b.Arms h handle missed c) : c.Timed firing := by
  cases arms with
  | @waits skipped t sequence alike run passes handles pending' nextEntry' revocable' =>
    have self := watch?_set_self found handles
    rw [Handle.watch, Handle.isArmed, decide_eq_true armed] at self
    rw [pending] at pending'
    rw [nextEntry] at pending' nextEntry' self
    exact timed.registers pending' nextEntry' (revocable'.trans revocable) self
      (fun h' other => (watch?_set_ne handles other).trans (others h' other)) free outside
  | ends alike run nothing passes handles pending' nextEntry' revocable' =>
    have pending := pending'.trans pending
    have nextEntry := nextEntry'.trans nextEntry
    refine timed.shrinks (timed.numbered.of_same pending nextEntry) (pending ▸ List.Subset.refl _)
      nextEntry (revocable'.trans revocable) fun h' => ?_
    by_cases own : h' = h
    · subst own
      refine .inr ⟨_, watch?_set_self found handles, ?_⟩
      rw [entriesOf, pending, ← entriesOf, free]
      exact List.forall_mem_nil _
    · exact .inl ((watch?_set_ne handles own).trans (others h' own))

theorem creates (timed : a.Timed firing) (creates : a.Creates handle b) : b.Timed firing := by
  have missing : a.handle? a.handles.length = none := List.getElem?_eq_none le_rfl
  refine timed.arms (b := { a with handles := a.handles ++ [handle] }) rfl rfl rfl
    (fun h other => ?_) List.getElem?_concat_length creates.state (timed.entriesOf_missing missing)
    (fun runs => ?_) creates.arms
  · exact congrArg (Option.map Handle.watch) (handle?_append_ne other)
  · refine (timed.idle _ runs).1 ?_
    rw [watch?, missing, Option.map_none]

theorem moves (timed : a.Timed firing) (moves : a.Moves b) : b.Timed firing := by
  induction moves with
  | refl => exact timed
  | tail moves move ih =>
    cases move with
    | quiet quiet => exact ih.quiet quiet
    | cancels cancels => exact ih.cancels cancels
    | creates creates => exact ih.creates creates

/-! Dispatches that end. -/

theorem pop (timed : a.Timed (h :: firing)) : a.Timed firing := by
  obtain ⟨numbered, own, known, idle, once⟩ := timed
  exact ⟨numbered, own, known, fun h' runs => idle h' (List.mem_cons_of_mem _ runs),
    (List.nodup_cons.mp once).2⟩

theorem rearms (timed : a.Timed (h :: firing)) {missed : Zoned → Bool}
    (found : a.handle? h = some handle) (armed : handle.state = .armed)
    (arms : a.Arms h handle missed b) : b.Timed firing :=
  timed.pop.arms rfl rfl rfl (fun _ _ => rfl) found armed (timed.idle h List.mem_cons_self).2
    (List.nodup_cons.mp timed.once).1 arms

/-- Going on in the sequence of a handle. -/
theorem sequence (timed : a.Timed firing) (found : a.handle? h = some handle) (sequence : Sequence) :
    (a.setHandle h { handle with sequence }).Timed firing := by
  refine timed.same rfl rfl rfl fun h' => ?_
  have handles : (a.setHandle h { handle with sequence }).handles =
      a.handles.set h { handle with sequence } := rfl
  by_cases own : h' = h
  · subst own
    rw [watch?_set_self found handles, watch?_of_found found]
    rfl
  · exact watch?_set_ne handles own

/-! Cancelling takes back what is outstanding. -/

/-- Cancelling a handle takes back the entries for it, if the timer can, and no others. -/
theorem pending_cancel (timed : a.Timed firing) (h : HandleId) : (a.cancel h).1.pending =
    a.pending.filter fun e => !(a.revocable && decide (e.handle = h)) := by
  rcases cancel_spec a h with ⟨same, idle⟩ | ⟨-, handle, cancels⟩
  · rw [same]
    refine (List.filter_eq_self.mpr fun e member => ?_).symm
    obtain ⟨w, watched, -, live⟩ := timed.own e member
    rw [Bool.not_eq_true', Bool.and_eq_false_imp]
    intro revocable
    apply decide_eq_false
    rintro rfl
    obtain ⟨handle, found, rfl⟩ := Option.map_eq_some_iff.mp watched
    exact idle handle found (of_decide_eq_true (live revocable))
  · rw [cancels.pending, entriesWithout]
    refine List.filter_congr fun e member => ?_
    have whose : handle.timer = some e.id ↔ e.handle = h := by
      constructor
      · intro timer
        exact (timed.known h _ _ (watch?_of_found cancels.found) timer).2 e member rfl
      · intro whose
        exact timed.timer_of_mem cancels.found cancels.armed (mem_entriesOf.mpr ⟨member, whose⟩)
    rw [decide_eq_decide.mpr whose]

end Timed

theorem timed_start (clock : Zoned) (revocable : Bool) (sessions : List String)
    (schedulers : List (String × Config)) :
    (start clock revocable sessions schedulers : Agenda α).Timed [] := by
  refine ⟨⟨.nil, nofun⟩, nofun, fun h w id watched => ?_, nofun, .nil⟩
  have none : (start clock revocable sessions schedulers : Agenda α).watch? h = none := rfl
  cases none.symm.trans watched

end Agenda

namespace Run

variable {r r' : Run α} {deeds : List (Deed α)}

theorem timed_stepped (timed : r.agenda.Timed r.firing) (stepped : r.Stepped r') :
    r'.agenda.Timed r'.firing := by
  cases stepped with
  | moves moves firing =>
    rw [firing]
    exact timed.moves moves
  | serves serves quiet firing =>
    rw [firing]
    exact (timed.serves serves).quiet quiet
  | finishes firing idle quiet =>
    rw [firing] at timed
    exact timed.pop.quiet quiet
  | rearms firing quiet found armed arms quiet' =>
    rw [firing] at timed
    exact ((timed.quiet quiet).rearms found armed arms).quiet quiet'
  | raises raises firing quiet found armed quiet' =>
    rw [firing] at timed
    exact ((timed.pop.quiet quiet).sequence found _).quiet quiet'

theorem History.timed (history : History deeds r) : r.agenda.Timed r.firing := by
  induction history with
  | start clock revocable sessions schedulers =>
    exact Agenda.timed_start clock revocable sessions schedulers
  | next history next ih => exact timed_stepped ih next.stepped

end Run

end Almanac
