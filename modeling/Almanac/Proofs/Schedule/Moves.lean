import Almanac.Proofs.Occurrence.Run
import Almanac.Proofs.Schedule.Operations

set_option autoImplicit false

/-!
What the operations of an agenda do to schedules.

Most of what an operation does leaves schedules alone: it records something, or changes sessions,
registries or the clock. What it does to schedules is a sequence of three kinds of moves: quiet
changes, the cancelling of an armed handle, and the creation of a handle, which is then armed.
-/

namespace Almanac

variable {α : Type}

/-- What became of an occurrence. -/
inductive Fate where
  | dispatched (due clock : Zoned)
  | passedOver

/-- The fates that a happening brings to the occurrences of a handle. -/
def Happening.fates (h : HandleId) : Happening α → List Fate
  | dispatched h' due clock => if h' = h then [.dispatched due clock] else []
  | passedOver h' n => if h' = h then List.replicate n .passedOver else []
  | _ => []

def Happening.isDispatch : Happening α → Bool
  | dispatched .. => true
  | logged .. | called .. | passedOver .. => false

/-- The handle without its registry. -/
def Handle.unregistered (handle : Handle α) : Handle α := { handle with registry := none }

namespace Agenda

/-! Handles. -/

section Handles

variable {a b : Agenda α} {h h' : HandleId} {handle : Handle α}

theorem handle?_of_handles (handles : b.handles = a.handles) (h : HandleId) :
    b.handle? h = a.handle? h := by
  rw [handle?, handles, handle?]

theorem handle?_set_ne (handles : b.handles = a.handles.set h handle) (other : h' ≠ h) :
    b.handle? h' = a.handle? h' := by
  rw [handle?, handles]
  exact List.getElem?_set_ne other.symm

theorem handle?_set_self (handles : b.handles = a.handles.set h handle)
    (inside : h < a.handles.length) : b.handle? h = some handle := by
  rw [handle?, handles]
  exact List.getElem?_set_self inside

theorem lt_of_handle? (found : a.handle? h = some handle) : h < a.handles.length :=
  (List.getElem?_eq_some_iff.mp found).1

/-- A handle that is added is the next one. -/
theorem handle?_append_ne (other : h ≠ a.handles.length) :
    { a with handles := a.handles ++ [handle] }.handle? h = a.handle? h := by
  rcases Nat.lt_or_gt_of_ne other with inside | outside
  · exact List.getElem?_append_left inside
  · rw [handle?, handle?, List.getElem?_eq_none outside.le, List.getElem?_eq_none]
    rw [List.length_append]
    exact outside

end Handles

/-! News. -/

/-- The fates of the occurrences of a handle so far. -/
def fates (a : Agenda α) (h : HandleId) : List Fate :=
  a.journal.reverse.flatMap (Happening.fates h)

theorem fates_record (a : Agenda α) (x : Happening α) (h : HandleId) :
    (a.record x).fates h = a.fates h ++ x.fates h := by
  rw [fates, record, List.reverse_cons, List.flatMap_append, List.flatMap_singleton]
  rfl

/-- All that has been added to the journal, and no dispatch is among it. -/
def Tells (a b : Agenda α) : Prop :=
  ∃ news, b.journal = news ++ a.journal ∧ ∀ x ∈ news, x.isDispatch = false

namespace Tells

variable {a b c : Agenda α}

theorem same (journal : b.journal = a.journal) : Tells a b := ⟨[], journal, nofun⟩

theorem trans (h : Tells a b) (h' : Tells b c) : Tells a c := by
  obtain ⟨news, journal, none⟩ := h
  obtain ⟨news', journal', none'⟩ := h'
  refine ⟨news' ++ news, by rw [journal', journal, List.append_assoc], fun x member => ?_⟩
  rcases List.mem_append.mp member with member | member
  · exact none' x member
  · exact none x member

theorem record (h : Tells a b) {x : Happening α} (nothing : x.isDispatch = false) :
    Tells a (b.record x) :=
  h.trans ⟨[x], rfl, fun y member => by rw [List.mem_singleton.mp member]; exact nothing⟩

end Tells

/-! Sessions. -/

/-- The sessions that exist. -/
def names (a : Agenda α) : List String := a.sessions.map Session.name

theorem names_subset {a b : Agenda α} (sessions : b.sessions = a.sessions) : b.names ⊆ a.names := by
  intro name member
  rw [names, sessions] at member
  exact member

theorem session?_ne_none_iff {a : Agenda α} {name : String} :
    a.session? name ≠ none ↔ name ∈ a.names := by
  simp [session?, names, List.find?_eq_none]

theorem name_of_session? {a : Agenda α} {name : String} {s : Session α}
    (found : a.session? name = some s) : s.name = name := by
  simpa using List.find?_some found

theorem mem_names_of_session? {a : Agenda α} {name : String} {s : Session α}
    (found : a.session? name = some s) : name ∈ a.names := by
  apply session?_ne_none_iff.mp
  rw [found]
  exact Option.some_ne_none s

theorem names_setSession (a : Agenda α) (s : Session α) : (a.setSession s).names ⊆ a.names := by
  intro name member
  simp only [names, setSession, List.map_map, List.mem_map, Function.comp_apply] at member ⊢
  obtain ⟨t, found, rfl⟩ := member
  refine ⟨t, found, ?_⟩
  split
  · assumption
  · rfl

/-! Quiet changes. -/

/-- A change that leaves all handles, up to the registries that they know, all timer entries and the
fates of all occurrences, and brings in no session. -/
structure Quiet (a b : Agenda α) : Prop where
  handles : b.handles.map Handle.unregistered = a.handles.map Handle.unregistered
  pending : b.pending = a.pending
  nextEntry : b.nextEntry = a.nextEntry
  revocable : b.revocable = a.revocable
  tells : Tells a b
  fates : ∀ h, b.fates h = a.fates h
  names : b.names ⊆ a.names

namespace Quiet

variable {a b c : Agenda α}

/-- A change of none of all this is quiet. -/
theorem same (handles : b.handles = a.handles) (pending : b.pending = a.pending)
    (nextEntry : b.nextEntry = a.nextEntry) (revocable : b.revocable = a.revocable)
    (journal : b.journal = a.journal) (names : b.names ⊆ a.names) : Quiet a b :=
  ⟨congrArg _ handles, pending, nextEntry, revocable, .same journal,
    fun h => by rw [Agenda.fates, journal, Agenda.fates], names⟩

theorem refl (a : Agenda α) : Quiet a a := .same rfl rfl rfl rfl rfl (List.Subset.refl _)

theorem trans (h : Quiet a b) (h' : Quiet b c) : Quiet a c :=
  ⟨h'.handles.trans h.handles, h'.pending.trans h.pending, h'.nextEntry.trans h.nextEntry,
    h'.revocable.trans h.revocable, h.tells.trans h'.tells,
    fun x => (h'.fates x).trans (h.fates x), List.Subset.trans h'.names h.names⟩

/-- A quiet change leaves every handle, up to its registry. -/
theorem handle? (quiet : Quiet a b) (h : HandleId) :
    (b.handle? h).map Handle.unregistered = (a.handle? h).map Handle.unregistered := by
  have := congrArg (fun l => l[h]?) quiet.handles
  simpa [Agenda.handle?] using this

theorem found (quiet : Quiet a b) {h : HandleId} {handle : Handle α}
    (found : a.handle? h = some handle) : ∃ handle', b.handle? h = some handle' ∧
      handle'.unregistered = handle.unregistered := by
  have kept := quiet.handle? h
  rw [found, Option.map_some] at kept
  exact Option.map_eq_some_iff.mp kept

end Quiet

variable {a b : Agenda α}

theorem quiet_record (x : Happening α) (nothing : ∀ h, x.fates h = [])
    (undispatched : x.isDispatch = false) : Quiet a (a.record x) :=
  ⟨rfl, rfl, rfl, rfl, .record (.same rfl) undispatched,
    fun h => by rw [fates_record, nothing h, List.append_nil], names_subset rfl⟩

theorem quiet_log (level : LogLevel) (message : String) : Quiet a (a.log level message) :=
  quiet_record _ (fun _ => rfl) rfl

/-- Whether it is noted or not that a schedule was added, all else is as it was. -/
theorem noteAdded_eq (a : Agenda α) (name event : String) (rule : Rule) :
    a.noteAdded name event rule = a ∨ ∃ message, a.noteAdded name event rule = a.log .info message := by
  unfold noteAdded
  split
  · exact .inr ⟨_, rfl⟩
  · exact .inl rfl

theorem quiet_noteAdded (name event : String) (rule : Rule) :
    Quiet a (a.noteAdded name event rule) := by
  rcases a.noteAdded_eq name event rule with same | ⟨message, logged⟩
  · rw [same]
    exact .refl a
  · rw [logged]
    exact quiet_log _ _

@[simp] theorem handle?_noteAdded (a : Agenda α) (name event : String) (rule : Rule) (h : HandleId) :
    (a.noteAdded name event rule).handle? h = a.handle? h := by
  rcases a.noteAdded_eq name event rule with same | ⟨message, logged⟩
  · rw [same]
  · rw [logged]
    rfl

theorem quiet_setSession (s : Session α) : Quiet a (a.setSession s) :=
  .same rfl rfl rfl rfl rfl (names_setSession a s)

theorem quiet_setRegistry (id : RegistryId) (r : Named HandleId) : Quiet a (a.setRegistry id r) :=
  .same rfl rfl rfl rfl rfl (names_subset rfl)

theorem quiet_release (held : List String) : Quiet a (a.release held) := by
  unfold release
  dsimp only
  split
  · exact .refl a
  · exact .same rfl rfl rfl rfl rfl (List.map_subset _ List.filter_sublist.subset)

theorem quiet_setHeap (session key : String) (value : HeapValue α) :
    Quiet a (a.setHeap session key value) := by
  unfold setHeap
  split
  · exact .refl a
  · exact .same rfl rfl rfl rfl rfl (names_setSession _ _)

theorem quiet_obtainRegistry (session key : String) :
    Quiet a (a.obtainRegistry session key).1 := by
  unfold obtainRegistry
  split
  · exact .refl a
  · have heap := quiet_setHeap (a := a) session key (.registry a.nextRegistry)
    exact heap.trans (.same rfl rfl rfl rfl rfl (names_subset rfl))

theorem quiet_clockAtLeast (t : Zoned) : Quiet a (a.clockAtLeast t) := by
  unfold clockAtLeast
  split
  · exact .same rfl rfl rfl rfl rfl (names_subset rfl)
  · exact .refl a

theorem quiet_discard (id : RegistryId) (name : String) (h : HandleId) :
    Quiet a (a.discard id name h).1 := by
  unfold discard
  split
  · exact .refl a
  · split
    · exact quiet_setRegistry _ _
    · exact .refl a

theorem quiet_leave (h : HandleId) (handle : Handle α) : Quiet a (a.leave h handle) := by
  unfold leave
  split
  · exact quiet_discard _ _ h
  · exact .refl a

theorem quiet_popFromRegistry (id : RegistryId) (name : String) :
    Quiet a (a.popFromRegistry id name).1 := by
  unfold popFromRegistry
  split
  · exact .refl a
  · exact quiet_setRegistry _ _

/-- A handle may learn of its registry. -/
theorem quiet_setHandle {h : HandleId} {handle handle' : Handle α} (found : a.handle? h = some handle)
    (same : handle'.unregistered = handle.unregistered) : Quiet a (a.setHandle h handle') := by
  refine ⟨?_, rfl, rfl, rfl, .same rfl, fun _ => rfl, names_subset rfl⟩
  have member : (a.handles.map Handle.unregistered)[h]? = some handle.unregistered := by
    rw [List.getElem?_map]
    exact congrArg (Option.map Handle.unregistered) found
  obtain ⟨inside, member⟩ := List.getElem?_eq_some_iff.mp member
  show (a.handles.set h handle').map Handle.unregistered = _
  rw [List.map_set, same, ← member, List.set_getElem_self]

theorem quiet_file (id : RegistryId) (h : HandleId) : Quiet a (a.file id h) := by
  unfold file
  split
  · rename_i handle found
    exact quiet_setHandle found rfl
  · exact .refl a

/-! Cancelling. -/

/-- The entries that are left when a timer entry is taken back, if the timer can. -/
def entriesWithout (a : Agenda α) (timer : Option EntryId) : List Entry :=
  a.pending.filter (fun e => !(a.revocable && decide (timer = some e.id)))

theorem revoke_spec (a : Agenda α) (id : EntryId) :
    (a.revoke id).pending = a.entriesWithout (some id) ∧ (a.revoke id).handles = a.handles ∧
      (a.revoke id).nextEntry = a.nextEntry ∧ (a.revoke id).revocable = a.revocable ∧
      (a.revoke id).journal = a.journal := by
  unfold revoke entriesWithout
  split
  · rename_i revocable
    refine ⟨List.filter_congr fun e _ => ?_, rfl, rfl, rfl, rfl⟩
    simp [revocable, eq_comm]
  · rename_i revocable
    refine ⟨(List.filter_eq_self.mpr fun e _ => ?_).symm, rfl, rfl, rfl, rfl⟩
    simp [revocable]

/-- The cancelling of an armed handle. -/
structure Cancels (a : Agenda α) (h : HandleId) (handle : Handle α) (b : Agenda α) : Prop where
  found : a.handle? h = some handle
  armed : handle.state = .armed
  handles : b.handles =
    a.handles.set h { handle with state := .cancelled, nextFire := none, timer := none }
  pending : b.pending = a.entriesWithout handle.timer
  nextEntry : b.nextEntry = a.nextEntry
  revocable : b.revocable = a.revocable
  tells : Tells a b
  fates : ∀ h', b.fates h' = a.fates h'
  holdings : b.holdings = a.holdings

theorem cancel_spec (a : Agenda α) (h : HandleId) :
    (a.cancel h = (a, false) ∧ ∀ handle, a.handle? h = some handle → handle.state ≠ .armed) ∨
      (a.cancel h).2 = true ∧ ∃ handle, Cancels a h handle (a.cancel h).1 := by
  unfold cancel
  split
  · rename_i missing
    exact .inl ⟨rfl, fun handle found => by rw [missing] at found; cases found⟩
  · rename_i handle found
    split
    · rename_i armed
      right
      have armed : handle.state = .armed := by simpa [Handle.isArmed] using armed
      refine ⟨rfl, handle, ?_⟩
      dsimp only
      cases htimer : handle.timer with
      | none =>
        have entries : a.pending = a.entriesWithout none :=
          (List.filter_eq_self.mpr fun e _ => by simp).symm
        exact ⟨found, armed, rfl, by rw [htimer]; exact entries, rfl, rfl,
          .record (.same rfl) rfl, fun h' => (quiet_log _ _).fates h', rfl⟩
      | some entry =>
        obtain ⟨pending, handles, nextEntry, revocable, journal⟩ := revoke_spec (a.setHandle h
          { handle with state := .cancelled, nextFire := none, timer := none }) entry
        refine ⟨found, armed, handles, by rw [htimer]; exact pending, nextEntry, revocable,
          .record (.same journal) rfl, fun h' => ?_, by simp⟩
        exact ((quiet_log _ _).fates h').trans (by rw [fates, journal]; rfl)
    · rename_i idle
      refine .inl ⟨rfl, fun other found' => ?_⟩
      cases found.symm.trans found'
      simpa [Handle.isArmed] using idle

/-! Arming. -/

/-- What is noted, the latest first, when a number of occurrences of a handle are passed over. -/
def passing (h : HandleId) (name : String) (n : Nat) : List (Happening α) :=
  if n = 0 then []
  else [.logged ⟨.warning, "Schedule " ++ Text.quoted name ++ " skipped " ++ toString n ++
    " missed occurrences"⟩, .passedOver h n]

/-- The arming of a handle for the next occurrence of its sequence that is not missed. It waits for
that, with a new timer entry, or it is exhausted where there is none. -/
inductive Arms (a : Agenda α) (h : HandleId) (handle : Handle α) (missed : Zoned → Bool)
    (b : Agenda α) : Prop where
  | waits {skipped : List Zoned} {t : Zoned} {sequence : Sequence}
      (alike : handle.sequence.Alike sequence)
      (run : handle.sequence.run = (skipped ++ t :: sequence.run.1, sequence.run.2))
      (passes : ∀ u ∈ skipped, missed u = true)
      (handles : b.handles = a.handles.set h
        { handle with sequence, nextFire := some t, timer := some a.nextEntry })
      (pending : b.pending = a.pending ++ [⟨a.nextEntry, t, h⟩])
      (nextEntry : b.nextEntry = a.nextEntry + 1)
      (revocable : b.revocable = a.revocable) (tells : Tells a b)
      (fates : ∀ h', b.fates h' = a.fates h' ++
        if h = h' then List.replicate skipped.length .passedOver else [])
      (holdings : b.holdings = a.holdings) (kept : missed t = false)
      (journal : ∃ message, b.journal = .logged ⟨.debug, message⟩ ::
        passing h handle.name skipped.length ++ a.journal)
  | ends {skipped : List Zoned} {sequence : Sequence} (alike : handle.sequence.Alike sequence)
      (run : handle.sequence.run = (skipped, .ended)) (nothing : sequence.run = ([], .ended))
      (passes : ∀ u ∈ skipped, missed u = true)
      (handles : b.handles = a.handles.set h
        { handle with sequence, state := .exhausted, nextFire := none, timer := none })
      (pending : b.pending = a.pending)
      (nextEntry : b.nextEntry = a.nextEntry)
      (revocable : b.revocable = a.revocable) (tells : Tells a b)
      (fates : ∀ h', b.fates h' = a.fates h' ++
        if h = h' then List.replicate skipped.length .passedOver else [])
      (holdings : b.holdings = (a.leave h handle).holdings)
      (journal : ∃ message, b.journal = .logged ⟨.debug, message⟩ ::
        passing h handle.name skipped.length ++ a.journal)

theorem Arms.tells {h : HandleId} {handle : Handle α} {missed : Zoned → Bool}
    (arms : Arms a h handle missed b) : Tells a b := by
  cases arms with
  | waits alike run passes handles pending nextEntry revocable tells => exact tells
  | ends alike run nothing passes handles pending nextEntry revocable tells => exact tells

/-- A handle that is exhausted leaves its registry. -/
theorem exhaust_eq (a : Agenda α) (h : HandleId) (handle : Handle α) :
    ∃ message, a.exhaust h handle = ((a.setHandle h
      { handle with state := .exhausted, nextFire := none, timer := none }).log .debug
        message).leave h handle :=
  ⟨_, rfl⟩

theorem exhaust_spec (a : Agenda α) (h : HandleId) (handle : Handle α) :
    (a.exhaust h handle).handles = a.handles.set h
        { handle with state := .exhausted, nextFire := none, timer := none } ∧
      (a.exhaust h handle).pending = a.pending ∧ (a.exhaust h handle).nextEntry = a.nextEntry ∧
      (a.exhaust h handle).revocable = a.revocable ∧ Tells a (a.exhaust h handle) ∧
      (∀ h', (a.exhaust h handle).fates h' = a.fates h') ∧
      (a.exhaust h handle).holdings = (a.leave h handle).holdings ∧
      ∃ message, (a.exhaust h handle).journal = .logged ⟨.debug, message⟩ :: a.journal := by
  obtain ⟨message, exhausted⟩ := exhaust_eq a h handle
  rw [exhausted]
  generalize hended : a.setHandle h
    { handle with state := .exhausted, nextFire := none, timer := none } = ended
  have same : (ended.log .debug message).holdings = a.holdings := by
    rw [← hended]
    rfl
  have quiet := (quiet_log (a := ended) .debug message).trans (quiet_leave h handle)
  have handles := handles_leave (ended.log .debug message) h handle
  subst hended
  exact ⟨handles, quiet.pending, quiet.nextEntry, quiet.revocable, quiet.tells, quiet.fates,
    holdings_leave same h handle, message, journal_leave _ h handle⟩

/-- The noting of occurrences that are passed over. -/
theorem note_spec (a : Agenda α) (h : HandleId) (name : String) (n : Nat) {b : Agenda α}
    (hb : (if n = 0 then a else (a.record (.passedOver h n)).log .warning ("Schedule " ++
      Text.quoted name ++ " skipped " ++ toString n ++ " missed occurrences")) = b) :
    b.handles = a.handles ∧ b.pending = a.pending ∧ b.nextEntry = a.nextEntry ∧
      b.revocable = a.revocable ∧ Tells a b ∧ (∀ h', b.fates h' =
        a.fates h' ++ if h = h' then List.replicate n .passedOver else []) ∧
      b.holdings = a.holdings ∧ b.journal = passing h name n ++ a.journal := by
  subst hb
  unfold passing
  split
  · rename_i nothing
    refine ⟨rfl, rfl, rfl, rfl, .same rfl, fun h' => ?_, rfl, rfl⟩
    rw [nothing, List.replicate_zero, ite_self, List.append_nil]
  · refine ⟨rfl, rfl, rfl, rfl, .record (.record (.same rfl) rfl) rfl, fun h' => ?_, rfl, rfl⟩
    rw [(quiet_log _ _).fates, fates_record]
    rfl

/-- Arming a handle arms it, or fails where its next occurrence leaves the calendar. All that a
failure changes is the sequence of the handle. -/
theorem arm_spec (a : Agenda α) (h : HandleId) (handle : Handle α) (passMissed : Bool) :
    match a.arm h handle passMissed with
    | (b, .ok _) => Arms a h handle (fun t => passMissed && t.before a.clock) b
    | (b, .error f) => f = .outOfRange ∧
        handle.sequence.RunsOff (fun t => passMissed && t.before a.clock) ∧
        ∃ sequence, handle.sequence.Alike sequence ∧
          b = a.setHandle h { handle with sequence } := by
  unfold arm
  dsimp only
  have sought := handle.sequence.sought (fun t => passMissed && t.before a.clock) 0
  generalize handle.sequence.seek (fun t => passMissed && t.before a.clock) 0 = found at sought ⊢
  cases sought with
  | @found skipped t sequence alike run passes kept =>
    rw [Nat.zero_add]
    dsimp only
    generalize hnoted : (if skipped.length = 0 then a else _) = noted
    obtain ⟨handles, pending, nextEntry, revocable, tells, fates, holdings, journal⟩ :=
      note_spec _ _ _ _ hnoted
    refine .waits alike run passes ?_ ?_ ?_ revocable (tells.record rfl) ?_ holdings kept
      ⟨_, congrArg (_ :: ·) journal⟩
    · show noted.handles.set h
        { handle with sequence, nextFire := some t, timer := some noted.nextEntry } = _
      rw [handles, nextEntry]
    · show noted.pending ++ [_] = _
      rw [pending, nextEntry]
    · show noted.nextEntry + 1 = _
      rw [nextEntry]
    · intro h'
      exact ((quiet_log _ _).fates h').trans (fates h')
  | @ended skipped sequence alike run passes exhausted =>
    rw [Nat.zero_add]
    dsimp only
    generalize hnoted : (if skipped.length = 0 then a else _) = noted
    obtain ⟨handles, pending, nextEntry, revocable, tells, fates, holdings, journal⟩ :=
      note_spec _ _ _ _ hnoted
    obtain ⟨handles', pending', nextEntry', revocable', tells', fates', holdings', message,
      journal'⟩ := exhaust_spec noted h { handle with sequence }
    have nothing : sequence.run = ([], .ended) :=
      Sequence.run_ended (show sequence.step = .ended sequence by
        rw [Sequence.step, if_pos exhausted])
    exact .ends alike run nothing passes (handles'.trans (by rw [handles]))
      (pending'.trans pending) (nextEntry'.trans nextEntry) (revocable'.trans revocable)
      (tells.trans tells') (fun h' => (fates' h').trans (fates h'))
      (holdings'.trans (holdings_leave holdings h handle))
      ⟨message, journal'.trans (congrArg (_ :: ·) journal)⟩
  | outOfRange alike run passes =>
    refine ⟨rfl, ⟨?_, ?_⟩, _, alike, rfl⟩
    · rw [run]
    · rw [run]
      exact passes

theorem arm_found {h : HandleId} {handle : Handle α} {passMissed : Bool} {sequence : Sequence}
    {t : Zoned}
    (found : handle.sequence.seek (fun t => passMissed && t.before a.clock) 0 =
      (.found t, 0, sequence)) :
    a.arm h handle passMissed = (((a.register t h).1.setHandle h { handle with
      sequence, nextFire := some t, timer := some a.nextEntry }).log .debug
        ("Schedule " ++ Text.quoted handle.name ++ " armed for " ++ t.text), .ok ()) := by
  unfold arm
  dsimp only
  rw [found]
  rfl

theorem arm_eq {h : HandleId} {handle : Handle α} {sequence : Sequence} {t : Zoned}
    (found : handle.sequence.seek (fun t => false && t.before a.clock) 0 =
      (.found t, 0, sequence)) :
    a.arm h handle false = (((a.register t h).1.setHandle h { handle with
      sequence, nextFire := some t, timer := some a.nextEntry }).log .debug
        ("Schedule " ++ Text.quoted handle.name ++ " armed for " ++ t.text), .ok ()) :=
  arm_found found

theorem arm_outOfRange {h : HandleId} {handle : Handle α} {passMissed : Bool} {sequence : Sequence}
    {passed : Nat}
    (off : handle.sequence.seek (fun t => passMissed && t.before a.clock) 0 =
      (.outOfRange, passed, sequence)) :
    a.arm h handle passMissed = (a.setHandle h { handle with sequence }, .error .outOfRange) := by
  unfold arm
  dsimp only
  rw [off]

/-- A handle is armed or exhausted only where its sequence stays in the calendar. -/
theorem Arms.not_runsOff {h : HandleId} {handle : Handle α} {missed : Zoned → Bool}
    (arms : Arms a h handle missed b) : ¬handle.sequence.RunsOff missed := by
  rintro ⟨off, passes⟩
  cases arms with
  | waits alike run skips handles pending nextEntry revocable tells fates holdings kept =>
    rw [run] at passes
    rw [passes _ (List.mem_append_right _ List.mem_cons_self)] at kept
    cases kept
  | ends alike run =>
    rw [run] at off
    cases off

/-- A handle without a registry leaves none. -/
theorem Arms.holdings {h : HandleId} {handle : Handle α} {missed : Zoned → Bool}
    (arms : Arms a h handle missed b) (unfiled : handle.registry = none) :
    b.holdings = a.holdings := by
  cases arms with
  | waits alike run passes handles pending nextEntry revocable tells fates holdings => exact holdings
  | ends alike run nothing passes handles pending nextEntry revocable tells fates holdings =>
    unfold leave at holdings
    rw [unfiled] at holdings
    exact holdings

theorem Arms.sessions {h : HandleId} {handle : Handle α} {missed : Zoned → Bool}
    (arms : Arms a h handle missed b) : b.sessions = a.sessions := by
  cases arms with
  | waits alike run passes handles pending nextEntry revocable tells fates holdings =>
    exact sessions_of_holdings holdings
  | ends alike run nothing passes handles pending nextEntry revocable tells fates holdings =>
    exact (sessions_of_holdings holdings).trans (sessions_leave a h handle)

/-- What arming a handle again after its dispatch can come to. -/
inductive Rearms (a : Agenda α) (h : HandleId) : Agenda α × Except Fault Unit → Prop where
  | idle (idle : ∀ handle, a.handle? h = some handle → handle.state ≠ .armed) :
      Rearms a h (a, .ok ())
  | arms {handle : Handle α} {b : Agenda α} (found : a.handle? h = some handle)
      (armed : handle.state = .armed)
      (arms : Arms a h handle (fun t => handle.coalesce && t.before a.clock) b) :
      Rearms a h (b, .ok ())
  | raises {handle : Handle α} {sequence : Sequence} (found : a.handle? h = some handle)
      (armed : handle.state = .armed) (alike : handle.sequence.Alike sequence)
      (off : handle.sequence.RunsOff fun t => handle.coalesce && t.before a.clock) :
      Rearms a h (a.setHandle h { handle with sequence }, .error .outOfRange)

theorem rearm_spec (a : Agenda α) (h : HandleId) : Rearms a h (a.rearm h) := by
  unfold rearm
  split
  · rename_i missing
    exact .idle fun handle found => by rw [missing] at found; cases found
  · rename_i handle found
    split
    · rename_i armed
      have armed : handle.state = .armed := by simpa [Handle.isArmed] using armed
      have spec := arm_spec a h handle handle.coalesce
      generalize a.arm h handle handle.coalesce = result at spec ⊢
      rcases result with ⟨b, fault | ⟨⟩⟩
      · obtain ⟨rfl, off, sequence, alike, rfl⟩ := spec
        exact .raises found armed alike off
      · exact .arms found armed spec
    · rename_i idle
      refine .idle fun other found' => ?_
      rw [found] at found'
      cases found'
      simpa [Handle.isArmed] using idle

/-! Creating. -/

/-- The creation of a handle, which is armed for its first occurrence. -/
structure Creates (a : Agenda α) (handle : Handle α) (b : Agenda α) : Prop where
  sequence : ∃ rule notBefore, handle.sequence = .ofRule rule (some notBefore)
  registry : handle.registry = none
  fired : handle.fired = 0
  state : handle.state = .armed
  arms : Arms { a with handles := a.handles ++ [handle] } a.handles.length handle (fun _ => false) b

/-- Creating either creates the next handle, or fails and changes nothing. -/
theorem create_spec (a : Agenda α) (session name event : String) (rule : Rule) (args : List α)
    (coalesce : Bool) (notBefore : Stamp) :
    match a.create session name event rule args coalesce notBefore with
    | (b, .ok h) => h = a.handles.length ∧ ∃ handle, Creates a handle b ∧
        handle.name = name ∧ handle.session = session
    | (b, .error f) => f = .outOfRange ∧ b = a := by
  unfold create
  dsimp only
  generalize hhandle : (⟨name, event, args, session, coalesce, .ofRule rule (some notBefore), none,
    none, none, 0, .armed⟩ : Handle α) = handle
  have spec := arm_spec { a with handles := a.handles ++ [handle] } a.handles.length handle false
  generalize { a with handles := a.handles ++ [handle] }.arm a.handles.length handle false = result
    at spec ⊢
  rcases result with ⟨b, fault | ⟨⟩⟩
  · exact ⟨spec.1, rfl⟩
  · refine ⟨rfl, handle, ⟨?_, ?_, ?_, ?_, ?_⟩, ?_, ?_⟩
    · exact ⟨rule, notBefore, by rw [← hhandle]⟩
    · rw [← hhandle]
    · rw [← hhandle]
    · rw [← hhandle]
    · simpa only [Bool.false_and] using spec
    · rw [← hhandle]
    · rw [← hhandle]

section Makes

variable {config : Config} {session name event : String} {source : RuleSource} {args : List α}
  {rule : Rule} {c : Agenda α} {id : RegistryId} {r : Named HandleId} {h : HandleId}

/-- The handle of a schedule that is added is the next one. -/
theorem Makes.creates (makes : a.Makes config session name event source args rule b id r (c, .ok h)) :
    h = b.handles.length ∧ ∃ handle, Creates b handle c ∧ handle.name = name ∧
      handle.session = session := by
  have spec := create_spec b session name event rule args config.coalesce
    { a.clock with wall := a.clock.wall.wholeSecond }
  rw [makes.made] at spec
  exact spec

theorem Makes.unmade {fault : Fault}
    (makes : a.Makes config session name event source args rule b id r (c, .error fault)) :
    fault = .outOfRange ∧ c = b := by
  have spec := create_spec b session name event rule args config.coalesce
    { a.clock with wall := a.clock.wall.wholeSecond }
  rw [makes.made] at spec
  exact spec

end Makes

/-! Moves. -/

inductive Move (a b : Agenda α) : Prop where
  | quiet (quiet : Quiet a b)
  | cancels {h : HandleId} {handle : Handle α} (cancels : Cancels a h handle b)
  | creates {handle : Handle α} (creates : Creates a handle b)

/-- Any number of moves. -/
inductive Moves (a : Agenda α) : Agenda α → Prop where
  | refl : Moves a a
  | tail {b c : Agenda α} (moves : Moves a b) (move : Move b c) : Moves a c

namespace Moves

variable {c : Agenda α}

theorem quiet (moves : Moves a b) (quiet : Quiet b c) : Moves a c := moves.tail (.quiet quiet)

theorem log (moves : Moves a b) (level : LogLevel) (message : String) :
    Moves a (b.log level message) :=
  moves.quiet (quiet_log level message)

theorem cancel (moves : Moves a b) (h : HandleId) : Moves a (b.cancel h).1 := by
  rcases cancel_spec b h with ⟨same, -⟩ | ⟨-, handle, cancels⟩
  · rw [same]
    exact moves
  · exact moves.tail (.cancels cancels)

theorem cancelAll (moves : Moves a b) (hs : List HandleId) : Moves a (b.cancelAll hs).1 := by
  induction hs generalizing b with
  | nil => exact moves
  | cons h hs ih => exact ih (moves.cancel h)

theorem putInRegistry (moves : Moves a b) (id : RegistryId) (name : String) (h : HandleId) :
    Moves a (b.putInRegistry id name h).1 := by
  cases registry : b.registry? id with
  | none =>
    rw [Agenda.putInRegistry, registry]
    exact moves
  | some r =>
    obtain ⟨c, vacates, put⟩ := putInRegistry_spec registry name h
    rw [put]
    have vacated : Moves a c := by
      cases vacates with
      | free | own => exact moves
      | replaced => exact (moves.cancel _).log _ _
    exact (vacated.quiet (quiet_setRegistry _ _)).quiet (quiet_file id h)

theorem popped {id : RegistryId} {name : String} {old : Option HandleId} (moves : Moves a b)
    (popped : b.popFromRegistry id name = (c, old)) : Moves a c := by
  have quiet := quiet_popFromRegistry (a := b) id name
  rw [popped] at quiet
  exact moves.quiet quiet

theorem clearRegistry (moves : Moves a b) (id : RegistryId) :
    Moves a (b.clearRegistry id).1 := by
  cases registry : b.registry? id with
  | none =>
    rw [Agenda.clearRegistry, registry]
    exact moves
  | some r =>
    rw [clearRegistry_eq registry]
    exact (moves.quiet (quiet_setRegistry _ _)).cancelAll _

variable {config : Config} {session name event : String} {source : RuleSource} {args : List α}

theorem obtained {key : String} {id : RegistryId} {r : Named HandleId} (moves : Moves a b)
    (obtained : b.obtainRegistry session key = (c, id, r)) : Moves a c := by
  have quiet := quiet_obtainRegistry (a := b) session key
  rw [obtained] at quiet
  exact moves.quiet quiet

theorem makes {rule : Rule} {id : RegistryId} {r : Named HandleId} {d : Agenda α}
    {outcome : Except Fault HandleId} (moves : Moves a b)
    (makes : b.Makes config session name event source args rule c id r (d, outcome)) :
    Moves a d := by
  have obtained := moves.obtained makes.obtained
  rcases outcome with fault | h
  · obtain ⟨-, rfl⟩ := makes.unmade
    exact obtained
  · obtain ⟨-, handle, creates, -⟩ := makes.creates
    exact obtained.tail (.creates creates)

theorem addSchedule (moves : Moves a b) (config : Config) (session name event : String)
    (source : RuleSource) (args : List α) :
    Moves a (b.addSchedule config session name event source args).1 := by
  have spec := b.addSchedule_spec config session name event source args
  generalize b.addSchedule config session name event source args = added at spec ⊢
  cases spec with
  | invalid => exact moves
  | duplicate read obtained => exact moves.obtained obtained
  | fails makes => exact moves.makes makes
  | stores makes => exact ((moves.makes makes).putInRegistry _ _ _).quiet (quiet_noteAdded _ _ _)
  | drops makes ended popped => exact ((moves.makes makes).log _ _).popped popped
  | ends makes ended popped => exact ((((moves.makes makes).log _ _).popped popped).cancel _).log _ _

theorem remove (moves : Moves a b) (config : Config) (session name : String) :
    Moves a (b.remove config session name).1 := by
  have spec := b.remove_spec config session name
  generalize b.remove config session name = removed at spec ⊢
  cases spec with
  | unheld => exact moves
  | unnamed => exact moves.quiet (quiet_setRegistry _ _)
  | cancels => exact ((moves.quiet (quiet_setRegistry _ _)).cancel _).log _ _

theorem removeAll (moves : Moves a b) (config : Config) (session : String) :
    Moves a (b.removeAll config session).1 := by
  have spec := b.removeAll_spec config session
  generalize b.removeAll config session = removed at spec ⊢
  cases spec with
  | unheld => exact moves
  | @clears id r c n held cancelled =>
    have cleared := (moves.quiet (quiet_setRegistry id .empty)).cancelAll r.values
    rw [cancelled] at cleared
    exact cleared.log _ _

end Moves

end Agenda

end Almanac
