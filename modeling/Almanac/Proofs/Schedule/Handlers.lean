import Almanac.Proofs.Schedule.Registered

set_option autoImplicit false

/-!
Handlers that keep to their sessions.

A handler may send events to sessions, look at heaps and put values on them, set other handlers and
fail. As long as it does no more, and leaves the keys of schedulers alone, all schedules stay as they
are, with their timer entries and registries, and so does the clock.
-/

namespace Almanac

variable {α : Type} {keys : List String} {nests : Prop}

/-- What is done without a scheduler, a handle or the timer. The values under `keys` are not touched,
and events are dispatched only where that `nests`. -/
inductive Action.Quiet (keys : List String) (nests : Prop) : Action α → Prop where
  | on (session event : String) {script : Script α}
      (quiet : ∀ line ∈ script, line.2.Quiet keys nests) :
      Quiet keys nests (.on session event script)
  | dispatch (session event : String) (args : List α) (may : nests) :
      Quiet keys nests (.dispatch session event args)
  | heap (session : String) : Quiet keys nests (.heap session)
  | setHeap (session : String) {key : String} (value : α) (other : key ∉ keys) :
      Quiet keys nests (.setHeap session key value)
  | showSession (session : String) : Quiet keys nests (.showSession session)
  | describe (h : HandleId) : Quiet keys nests (.describe h)
  | fail (message : String) : Quiet keys nests (.fail message)

/-- The handling of an event by quiet actions. -/
inductive Activity.Quiet (keys : List String) (nests : Prop) : Activity α → Prop where
  | handling (session event : String) {script : Script α} (call : Nat)
      (quiet : ∀ line ∈ script, line.2.Quiet keys nests) :
      Quiet keys nests (.handling session event script call)

/-- A session that can be named, with quiet handlers, whose registries are each under one of the keys
of schedulers. -/
structure Session.Tame (keys : List String) (nests : Prop) (s : Session α) : Prop where
  listed : s.listed = true
  quiet : ∀ e ∈ s.handlers, ∀ line ∈ e.2.script, line.2.Quiet keys nests
  inside : ∀ key id, s.heap.lookup key = some (.registry id) → key ∈ keys
  once : ∀ key key' id, s.heap.lookup key = some (.registry id) →
    s.heap.lookup key' = some (.registry id) → key' = key

theorem Session.tame_empty (name : String) : (Session.empty name : Session α).Tame keys nests := by
  refine ⟨rfl, fun e member => ?_, fun key id held => ?_, fun key key' id held => ?_⟩
  · cases member
  · cases held
  · cases held

namespace Agenda

variable {a b c : Agenda α}

def Tame (keys : List String) (nests : Prop) (a : Agenda α) : Prop :=
  ∀ s ∈ a.sessions, s.Tame keys nests

theorem Tame.of_sessions (tame : a.Tame keys nests) (sessions : b.sessions = a.sessions) :
    b.Tame keys nests := by
  rw [Tame, sessions]
  exact tame

theorem Tame.setSession (tame : a.Tame keys nests) {s : Session α} (new : s.Tame keys nests) :
    (a.setSession s).Tame keys nests := by
  intro t there
  obtain ⟨u, before, rfl⟩ := mem_setSession.mp there
  split
  · exact new
  · exact tame u before

/-- Where all sessions can be named none is let go. -/
theorem Tame.release (tame : a.Tame keys nests) (held : List String) : a.release held = a := by
  have stay : a.sessions.all (fun s => s.listed || held.contains s.name) = true := by
    rw [List.all_eq_true]
    intro s there
    rw [(tame s there).listed, Bool.true_or]
  rw [Agenda.release, if_pos stay]

theorem names_setSession_eq (a : Agenda α) (s : Session α) : (a.setSession s).names = a.names := by
  simp only [names, setSession, List.map_map]
  apply List.map_congr_left
  intro t _
  rw [Function.comp_apply]
  split
  · rename_i same
    exact same.symm
  · rfl

/-! Changes that no schedule notices. -/

/-- A quiet change that leaves the clock, the sessions that there are, and all registries. -/
structure Idles (keys : List String) (nests : Prop) (a b : Agenda α) : Prop where
  quiet : a.Quiet b
  tidies : a.Tidies b
  clock : b.clock = a.clock
  names : b.names = a.names
  tame : b.Tame keys nests

theorem Idles.refl (tame : a.Tame keys nests) : a.Idles keys nests a :=
  ⟨.refl a, .refl a, rfl, rfl, tame⟩

theorem Idles.trans (idles : a.Idles keys nests b) (idles' : b.Idles keys nests c) :
    a.Idles keys nests c :=
  ⟨idles.quiet.trans idles'.quiet, idles.tidies.trans idles'.tidies,
    idles'.clock.trans idles.clock, idles'.names.trans idles.names, idles'.tame⟩

theorem Idles.record (tame : a.Tame keys nests) {x : Happening α} (nothing : ∀ h, x.fates h = [])
    (undispatched : x.isDispatch = false) : a.Idles keys nests (a.record x) :=
  ⟨quiet_record x nothing undispatched, .record a x, rfl, rfl, tame⟩

/-- A session may get other handlers. -/
theorem Idles.setHandlers (tame : a.Tame keys nests) {session : String} {s : Session α}
    (found : a.session? session = some s) {handlers : List (String × Handler α)}
    (quiet : ∀ e ∈ handlers, ∀ line ∈ e.2.script, line.2.Quiet keys nests) :
    a.Idles keys nests (a.setSession { s with handlers }) := by
  obtain ⟨listed, -, inside, once⟩ := tame s (List.mem_of_find?_eq_some found)
  exact ⟨quiet_setSession _, .setSession found rfl rfl, rfl, names_setSession_eq _ _,
    tame.setSession ⟨listed, quiet, inside, once⟩⟩

/-- A value may be put where no registry is. -/
theorem Tidies.putPlain {session key : String} {s : Session α} (found : a.session? session = some s)
    (vacant : ∀ id, s.heap.lookup key ≠ some (.registry id)) (value : α) :
    a.Tidies (a.setSession { s with heap := putPair key (.plain value) s.heap }) := by
  intro ended orderly
  have member := List.mem_of_find?_eq_some found
  refine ⟨orderly.setSession member rfl ?_ ?_, orderly.retains_setSession member rfl ?_⟩
  · intro id holds
    obtain ⟨key', before⟩ := Session.mem_registries_iff.mp holds
    refine Session.mem_registries_iff.mpr ⟨key', ?_⟩
    exact (mem_putPair before).resolve_right (vacant id)
  · intro id holds
    obtain ⟨key', after⟩ := Session.mem_registries_iff.mp holds
    rcases mem_of_mem_putPair after with same | before
    · cases same
    · exact .inl (Session.mem_registries_iff.mpr ⟨key', before⟩)
  · intro key' id held
    rw [lookup_putPair]
    split
    · rename_i here
      exact absurd held (here ▸ vacant id)
    · exact held

theorem Idles.putPlain (tame : a.Tame keys nests) {session key : String} {s : Session α}
    (found : a.session? session = some s) (other : key ∉ keys) (value : α) :
    a.Idles keys nests (a.setHeap session key (.plain value)) := by
  obtain ⟨listed, quiet, inside, once⟩ := tame s (List.mem_of_find?_eq_some found)
  have vacant (id : RegistryId) : s.heap.lookup key ≠ some (.registry id) :=
    fun held => other (inside key id held)
  -- What is a registry afterwards was one before.
  have before {key' : String} {id : RegistryId}
      (held : (putPair key (.plain value) s.heap).lookup key' = some (.registry id)) :
      s.heap.lookup key' = some (.registry id) := by
    rw [lookup_putPair] at held
    split at held
    · cases held
    · exact held
  rw [setHeap_vacant found vacant]
  refine ⟨quiet_setSession _, .putPlain found vacant value, rfl, names_setSession_eq _ _,
    tame.setSession ⟨listed, quiet, ?_, ?_⟩⟩
  · intro key' id held
    exact inside key' id (before held)
  · intro key' key'' id held held'
    exact once key' key'' id (before held) (before held')

end Agenda

namespace Run

open Agenda

variable {a : Agenda α} {below : List (Activity α)} {r : Run α}

theorem settle_of_tame (tame : r.agenda.Tame keys nests) : r.settle = r := by
  rw [settle, tame.release]

/-- What is done at one level of a run, above the activities `below`, starts at most the handling of
events, and no schedule notices. -/
structure Minds (keys : List String) (nests : Prop) (a : Agenda α) (below : List (Activity α))
    (r : Run α) : Prop where
  idles : a.Idles keys nests r.agenda
  above : ∃ handling, r.activities = handling ++ below ∧ ∀ x ∈ handling, x.Quiet keys nests

theorem Minds.same {outcome : Option (Outcome α)} {b : Agenda α} (idles : a.Idles keys nests b) :
    Minds keys nests a below ⟨b, below, outcome⟩ :=
  ⟨idles, [], rfl, fun _ member => by cases member⟩

/-- Within a handler. -/
theorem Minds.within {x : Activity α} (minds : Minds keys nests a (x :: below) r)
    (quiet : x.Quiet keys nests) : Minds keys nests a below r := by
  obtain ⟨idles, handling, same, each⟩ := minds
  refine ⟨idles, handling ++ [x], by simpa using same, fun y member => ?_⟩
  rcases List.mem_append.mp member with before | last
  · exact each y before
  · rw [List.mem_singleton.mp last]
    exact quiet

theorem minds_dispatch (tame : a.Tame keys nests) (below : List (Activity α))
    (session event : String) (args : List α) :
    Minds keys nests a below (dispatch a below session event args) := by
  unfold dispatch
  split
  · exact .same (.refl tame)
  · rename_i s found
    have quiet := (tame s (List.mem_of_find?_eq_some found)).quiet
    split
    · exact .same (.record tame (fun _ => rfl) rfl)
    · rename_i handler named
      obtain ⟨before, after, split, -⟩ := List.lookup_eq_some_iff.mp named
      have script : ∀ line ∈ handler.script, line.2.Quiet keys nests := by
        apply quiet (event, handler)
        rw [split]
        exact List.mem_append_right before List.mem_cons_self
      refine ⟨?_, [_], rfl, fun x member => ?_⟩
      · have counted : a.Idles keys nests (a.setSession { s with
            handlers := putPair event ⟨handler.script, handler.calls + 1⟩ s.handlers }) := by
          refine .setHandlers tame found fun e there => ?_
          rcases mem_of_mem_putPair there with rfl | old
          · exact script
          · exact quiet e old
        exact counted.trans (.record counted.tame (fun _ => rfl) rfl)
      · rw [List.mem_singleton.mp member]
        exact .handling _ _ _ script

theorem minds_perform (tame : a.Tame keys nests) (below : List (Activity α)) {action : Action α}
    (quiet : action.Quiet keys nests) : Minds keys nests a below (perform a below action) := by
  have spec := perform_spec a below action
  generalize perform a below action = r at spec ⊢
  cases spec with
  | answers => exact .same (.refl tame)
  | dispatches session event args => exact minds_dispatch tame below session event args
  | @on s session event script found =>
    cases quiet with
    | on _ _ scripted =>
      refine .same (.setHandlers tame found fun e there => ?_)
      rcases mem_of_mem_putPair there with rfl | old
      · exact scripted
      · exact (tame s (List.mem_of_find?_eq_some found)).quiet e old
  | setsHeap key value found =>
    cases quiet with
    | setHeap _ _ other => exact .same (.putPlain tame found other value)
  | _ => cases quiet

/-- A step of a handler. -/
theorem minds_stepHandling (tame : a.Tame keys nests) (below : List (Activity α))
    (session event : String) {script : Script α} (quiet : ∀ line ∈ script, line.2.Quiet keys nests)
    (call : Nat) (outcome : Option (Outcome α)) :
    Minds keys nests a below (stepHandling a below session event script call outcome) := by
  unfold stepHandling
  split
  · exact .same (.refl tame)
  · exact .same (.refl tame)
  · rename_i only action rest _
    have rest : (Activity.handling session event rest call).Quiet keys nests :=
      .handling session event call fun line member => quiet line (List.mem_cons_of_mem _ member)
    refine Minds.within ?_ rest
    split
    · exact minds_perform tame _ (quiet (only, action) List.mem_cons_self)
    · exact .same (.refl tame)

end Run

end Almanac
