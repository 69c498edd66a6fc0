import Almanac.Proofs.Schedule.Lifetime

set_option autoImplicit false

/-!
The end of a schedule is final.

A handle that has been cancelled, removed or replaced, or whose session is gone, is spent. Whatever
comes later, nothing is dispatched for it and no timer entry is registered, also where the timer
cannot take entries back and still runs the one that waits.
-/

namespace Almanac

variable {α : Type}

namespace Agenda

variable {a b c : Agenda α} {h h' : HandleId} {handle handle' : Handle α} {e : Entry}

/-- Nothing is dispatched for a handle, and no timer entry for it is registered. -/
structure Silent (h : HandleId) (a b : Agenda α) : Prop where
  journal : ∃ news, b.journal = news ++ a.journal ∧ ∀ due clock, .dispatched h due clock ∉ news
  entries : ∀ e ∈ b.pending, e.handle = h → e ∈ a.pending
  fired : ∀ handle, a.handle? h = some handle → ∃ handle', b.handle? h = some handle' ∧
    handle'.fired = handle.fired

theorem fired_of_set {old new : Handle α} (found : a.handle? h' = some old)
    (handles : b.handles = a.handles.set h' new) (same : h = h' → new.fired = old.fired)
    (known : a.handle? h = some handle) :
    ∃ handle', b.handle? h = some handle' ∧ handle'.fired = handle.fired := by
  by_cases own : h = h'
  · subst own
    cases found.symm.trans known
    exact ⟨new, handle?_set_self handles (lt_of_handle? found), same rfl⟩
  · refine ⟨handle, ?_, rfl⟩
    rw [handle?_set_ne handles own]
    exact known

theorem Tells.undispatched (tells : a.Tells b) (h : HandleId) :
    ∃ news, b.journal = news ++ a.journal ∧ ∀ due clock, .dispatched h due clock ∉ news := by
  obtain ⟨news, journal, none⟩ := tells
  refine ⟨news, journal, fun due clock member => ?_⟩
  cases none _ member

namespace Silent

theorem refl (h : HandleId) (a : Agenda α) : a.Silent h a :=
  ⟨⟨[], rfl, fun _ _ => List.not_mem_nil⟩, fun _ member _ => member,
    fun handle found => ⟨handle, found, rfl⟩⟩

theorem trans (silent : a.Silent h b) (silent' : b.Silent h c) : a.Silent h c := by
  obtain ⟨⟨news, journal, none⟩, entries, fired⟩ := silent
  obtain ⟨⟨news', journal', none'⟩, entries', fired'⟩ := silent'
  refine ⟨⟨news' ++ news, ?_, ?_⟩, ?_, ?_⟩
  · rw [journal', journal, List.append_assoc]
  · intro due clock member
    rcases List.mem_append.mp member with member | member
    · exact none' due clock member
    · exact none due clock member
  · intro e member own
    exact entries e (entries' e member own) own
  · intro handle found
    obtain ⟨handle', found', same⟩ := fired handle found
    obtain ⟨handle'', found'', same'⟩ := fired' handle' found'
    exact ⟨handle'', found'', same'.trans same⟩

theorem quiet (quiet : a.Quiet b) : a.Silent h b := by
  refine ⟨quiet.tells.undispatched h, ?_, ?_⟩
  · intro e member _
    rw [quiet.pending] at member
    exact member
  · intro handle found
    obtain ⟨handle', found', same⟩ := quiet.found found
    exact ⟨handle', found', (congrArg Handle.fired same :)⟩

theorem sequence (found : a.handle? h' = some handle) {sequence : Sequence} :
    a.Silent h (a.setHandle h' { handle with sequence }) := by
  have handles : (a.setHandle h' { handle with sequence }).handles =
      a.handles.set h' { handle with sequence } := rfl
  exact ⟨⟨[], rfl, fun _ _ => List.not_mem_nil⟩, fun _ member _ => member,
    fun _ => fired_of_set found handles (fun _ => rfl)⟩

theorem cancels (cancels : a.Cancels h' handle b) : a.Silent h b := by
  refine ⟨cancels.tells.undispatched h, ?_, ?_⟩
  · intro e member _
    rw [cancels.pending] at member
    exact (List.mem_filter.mp member).1
  · intro other found
    exact fired_of_set cancels.found cancels.handles (fun _ => rfl) found

theorem arms {missed : Zoned → Bool} (found : a.handle? h' = some handle) (other : h ≠ h')
    (arms : a.Arms h' handle missed b) : a.Silent h b := by
  cases arms with
  | waits alike run passes handles pending nextEntry revocable tells =>
    refine ⟨tells.undispatched h, ?_, fun _ => fired_of_set found handles (fun _ => rfl)⟩
    intro e member own
    rw [pending, List.mem_append, List.mem_singleton] at member
    rcases member with member | rfl
    · exact member
    · exact absurd own.symm other
  | ends alike run nothing passes handles pending nextEntry revocable tells =>
    refine ⟨tells.undispatched h, ?_, fun _ => fired_of_set found handles (fun _ => rfl)⟩
    intro e member _
    rw [pending] at member
    exact member

theorem creates (known : a.handle? h = some handle') (creates : a.Creates handle b) :
    a.Silent h b := by
  have inside := lt_of_handle? known
  have appended : a.Silent h { a with handles := a.handles ++ [handle] } := by
    refine ⟨⟨[], rfl, fun _ _ => List.not_mem_nil⟩, fun _ member _ => member, ?_⟩
    intro old found
    refine ⟨old, ?_, rfl⟩
    rw [handle?_append_ne inside.ne]
    exact found
  exact appended.trans (.arms List.getElem?_concat_length inside.ne creates.arms)

theorem moves (known : a.handle? h = some handle) (moves : a.Moves b) : a.Silent h b := by
  induction moves with
  | refl => exact .refl h a
  | tail moves move ih =>
    cases move with
    | quiet quiet => exact ih.trans (.quiet quiet)
    | cancels cancels => exact ih.trans (.cancels cancels)
    | creates creates =>
      obtain ⟨handle', known', -⟩ := Persists.moves moves h handle known
      exact ih.trans (.creates known' creates)

/-- Taking an entry, unless the handle fires. -/
theorem serves {served : Option (Handle α)} (serves : a.Serves e b served)
    (other : served ≠ none → h ≠ e.handle) : a.Silent h b := by
  have taken {b : Agenda α} (takes : a.Takes e b) : ∀ e' ∈ b.pending, e'.handle = h → e' ∈ a.pending := by
    intro e' member _
    rw [takes.pending] at member
    exact (List.mem_filter.mp member).1
  cases serves with
  | idles takes idle handles tells =>
    refine ⟨tells.undispatched h, taken takes, fun handle found => ⟨handle, ?_, rfl⟩⟩
    exact (handle?_of_handles handles h).trans found
  | drops takes found armed handles tells =>
    exact ⟨tells.undispatched h, taken takes, fun _ => fired_of_set found handles (fun _ => rfl)⟩
  | @fires fired clock takes found armed due lives handles journal =>
    have other := other (Option.some_ne_none _)
    refine ⟨⟨_, journal, ?_⟩, taken takes,
      fun _ => fired_of_set found handles (fun own => absurd own other)⟩
    intro due clock member
    obtain ⟨t, -, same⟩ := Option.mem_map.mp (Option.mem_toList.mp member)
    cases same
    exact other rfl

end Silent

/-! Handles that are ended. -/

def Ended (a : Agenda α) (h : HandleId) : Prop :=
  ∃ handle, a.handle? h = some handle ∧ handle.state ≠ .armed

theorem Ended.persists (ended : a.Ended h) (persists : a.Persists b) : b.Ended h := by
  obtain ⟨handle, found, ended⟩ := ended
  obtain ⟨handle', found', becomes⟩ := persists h handle found
  exact ⟨handle', found', becomes.ended ended⟩

theorem ended_cancel (found : a.handle? h = some handle) : (a.cancel h).1.Ended h := by
  rcases cancel_spec a h with ⟨same, idle⟩ | ⟨-, old, cancels⟩
  · rw [same]
    exact ⟨handle, found, idle handle found⟩
  · exact ⟨_, handle?_set_self cancels.handles (lt_of_handle? found), nofun⟩

theorem ended_cancelAll {hs : List HandleId} (member : h ∈ hs) (found : a.handle? h = some handle) :
    (a.cancelAll hs).1.Ended h := by
  induction hs generalizing a handle with
  | nil => cases member
  | cons first hs ih =>
    have rest : ((a.cancel first).1.cancelAll hs).1.Ended h := by
      rcases List.mem_cons.mp member with rfl | member
      · exact (ended_cancel found).persists (.moves (Moves.refl.cancelAll hs))
      · obtain ⟨handle', found', -⟩ := Persists.moves (Moves.refl.cancel first) h handle found
        exact ih member found'
    exact rest

variable {config : Config} {session name event : String} {source : RuleSource} {args : List α}

theorem ended_remove (stored : a.get? config session name = some h)
    (found : a.handle? h = some handle) : (a.remove config session name).1.Ended h := by
  obtain ⟨id, r, message, removed⟩ := remove_stored stored
  rw [removed]
  have cancelled : ((a.setRegistry id (r.erase name)).cancel h).1.Ended h := ended_cancel found
  exact cancelled.persists (.quiet (quiet_log _ _))

theorem ended_removeAll (stored : a.get? config session name = some h)
    (found : a.handle? h = some handle) : (a.removeAll config session).1.Ended h := by
  obtain ⟨id, r, held, named⟩ := get?_eq_some_iff.mp stored
  have member : h ∈ r.values := Named.mem_values_of_mem (Named.mem_of_get? named)
  have spec := a.removeAll_spec config session
  generalize a.removeAll config session = removed at spec ⊢
  cases spec with
  | unheld held' => cases held.symm.trans held'
  | clears held' cancelled =>
    cases held.symm.trans held'
    have ended : ((a.setRegistry id .empty).cancelAll r.values).1.Ended h :=
      ended_cancelAll member found
    rw [cancelled] at ended
    exact ended.persists (.quiet (quiet_log _ _))

theorem ended_putInRegistry {id : RegistryId} {r : Named HandleId} (registry : a.registry? id = some r)
    (named : r.get? name = some h) (other : h ≠ h') (found : a.handle? h = some handle) :
    (a.putInRegistry id name h').1.Ended h := by
  obtain ⟨b, vacates, put⟩ := putInRegistry_spec registry name h'
  have cancelled : b.Ended h := by
    cases vacates with
    | free free => cases named.symm.trans free
    | own own =>
      cases named.symm.trans own
      exact absurd rfl other
    | replaced replaced =>
      cases named.symm.trans replaced
      exact (ended_cancel found).persists (.quiet (quiet_log _ _))
  rw [put]
  exact (cancelled.persists (.quiet (quiet_setRegistry _ _))).persists (.quiet (quiet_file _ _))

/-- Where a registry is there it is the one that is used, and it holds what it did when the handle
has been created. -/
theorem Makes.held {rule : Rule} {id id' : RegistryId} {r r' : Named HandleId} {new : HandleId}
    (makes : a.Makes config session name event source args rule b id' r' (c, .ok new))
    (held : a.findRegistry session config.heapKey = some (id, r)) :
    id' = id ∧ c.registry? id = some r ∧ new = a.handles.length ∧ a.Persists c := by
  have obtained := makes.obtained
  rw [obtainRegistry_eq held] at obtained
  cases obtained
  obtain ⟨new, handle, creates, -⟩ := makes.creates
  have kept := registry?_of_holdings (creates.arms.holdings creates.registry) id
  exact ⟨rfl, kept.trans (registry?_of_findRegistry held), new, .creates creates⟩

/-- Adding a schedule ends the one stored under its name, whether it is stored in its place or is
exhausted from the start. -/
theorem ended_addSchedule {new : HandleId} (stored : a.get? config session name = some h)
    (found : a.handle? h = some handle)
    (added : (a.addSchedule config session name event source args).2 = .ok new) :
    (a.addSchedule config session name event source args).1.Ended h := by
  obtain ⟨id, r, held, named⟩ := get?_eq_some_iff.mp stored
  have spec := a.addSchedule_spec config session name event source args
  generalize a.addSchedule config session name event source args = result at added spec ⊢
  cases spec with
  | invalid | duplicate | fails => cases added
  | stores makes =>
    obtain ⟨rfl, registry, rfl, persists⟩ := makes.held held
    obtain ⟨handle', found', -⟩ := persists h handle found
    have replaced := ended_putInRegistry registry named (lt_of_handle? found).ne found'
    exact replaced.persists (.quiet (quiet_noteAdded _ _ _))
  | drops makes past popped =>
    obtain ⟨rfl, registry, -⟩ := makes.held held
    obtain ⟨-, unnamed⟩ := popped_eq popped registry
    cases named.symm.trans unnamed
  | ends makes past popped =>
    obtain ⟨rfl, registry, -, persists⟩ := makes.held held
    obtain ⟨handle', found', -⟩ := persists h handle found
    obtain ⟨rfl, named'⟩ := popped_eq popped registry
    cases named.symm.trans named'
    refine Ended.persists ?_ (.quiet (quiet_log _ _))
    exact ended_cancel found'

end Agenda

namespace Run

open Agenda

/-- The ways in which a handle ends for good: it is cancelled, or removed by its name or with all
others; another one is added under its name; or its session goes while its dispatch does not run. -/
inductive Ends (r : Run α) (h : HandleId) (r' : Run α) : Prop where
  | cancelled (next : r.Next (some (.cancel h)) r')
  | removed {via session name : String} {config : Config} {answer : Reply α}
      (next : r.Next (some (.remove via session name)) r')
      (answered : r'.outcome = some (.ok answer))
      (scheduler : r.agenda.schedulers.lookup via = some config)
      (stored : r.agenda.get? config session name = some h)
  | cleared {via session name : String} {config : Config} {answer : Reply α}
      (next : r.Next (some (.removeAll via session)) r')
      (answered : r'.outcome = some (.ok answer))
      (scheduler : r.agenda.schedulers.lookup via = some config)
      (stored : r.agenda.get? config session name = some h)
  | replaced {via session name event : String} {config : Config} {source : RuleSource}
      {args : List α} {answer : Reply α}
      (next : r.Next (some (.add via session name event source args)) r')
      (answered : r'.outcome = some (.ok answer))
      (scheduler : r.agenda.schedulers.lookup via = some config)
      (stored : r.agenda.get? config session name = some h)
  | lost {did : Option (Action α)} {handle : Handle α} (next : r.Next did r')
      (found : r.agenda.handle? h = some handle)
      (gone : r'.agenda.session? handle.session = none) (outside : h ∉ r'.firing)

variable {r r' : Run α} {h h' : HandleId} {handle : Handle α} {did : Option (Action α)}

/-- A handle that fires no more: it has ended, or its session is gone while its dispatch does not
run. -/
def Spent (r : Run α) (h : HandleId) : Prop :=
  ∃ handle, r.agenda.handle? h = some handle ∧
    (handle.state ≠ .armed ∨ handle.session ∉ r.agenda.names ∧ h ∉ r.firing)

theorem names_moves {a b : Agenda α} (moves : a.Moves b) : b.names ⊆ a.names := by
  induction moves with
  | refl => exact List.Subset.refl _
  | tail moves move ih =>
    cases move with
    | quiet quiet => exact List.Subset.trans quiet.names ih
    | cancels cancels => exact List.Subset.trans (names_subset (sessions_of_holdings cancels.holdings)) ih
    | creates creates => exact List.Subset.trans (names_subset creates.arms.sessions) ih

theorem names_serves {a b : Agenda α} {e : Entry} {served : Option (Handle α)}
    (serves : a.Serves e b served) : b.names ⊆ a.names := by
  cases serves with
  | idles takes | drops takes | fires takes =>
    exact names_subset (sessions_of_holdings takes.holdings)

theorem Stepped.names (stepped : r.Stepped r') : r'.agenda.names ⊆ r.agenda.names := by
  cases stepped with
  | moves moves => exact names_moves moves
  | serves serves quiet => exact List.Subset.trans quiet.names (names_serves serves)
  | finishes firing idle quiet => exact quiet.names
  | rearms firing quiet found armed arms quiet' =>
    exact List.Subset.trans quiet'.names (List.Subset.trans (names_subset arms.sessions) quiet.names)
  | raises raises firing quiet found armed quiet' =>
    exact List.Subset.trans quiet'.names quiet.names

/-- The handle that is armed again after its dispatch is not spent. -/
theorem Spent.other {b : Agenda α} (spent : r.Spent h) (firing : r.firing = h' :: r'.firing)
    (quiet : r.agenda.Quiet b) (found : b.handle? h' = some handle) (armed : handle.state = .armed) :
    h ≠ h' := by
  rintro rfl
  obtain ⟨old, known, ended | ⟨-, outside⟩⟩ := spent
  · obtain ⟨new, found', becomes⟩ := Persists.quiet quiet h old known
    cases found.symm.trans found'
    exact becomes.ended ended armed
  · apply outside
    rw [firing]
    exact List.mem_cons_self

theorem Spent.unserved {b : Agenda α} {e : Entry} {served : Option (Handle α)}
    (spent : r.Spent h) (serves : r.agenda.Serves e b served) (some : served ≠ none) :
    h ≠ e.handle := by
  rintro rfl
  obtain ⟨old, known, lost⟩ := spent
  have names := names_serves serves
  cases serves with
  | idles | drops => exact some rfl
  | fires takes found armed due lives =>
    cases known.symm.trans found
    rcases lost with ended | ⟨gone, -⟩
    · exact ended armed
    · exact gone (names (session?_ne_none_iff.mp lives))

/-- Nothing is dispatched in a step for a handle that neither fires in it nor is armed again. -/
theorem Stepped.silent (stepped : r.Stepped r') (known : r.agenda.handle? h = some handle)
    (unserved : ∀ {b : Agenda α} {e : Entry} {served : Option (Handle α)},
      r.agenda.Serves e b served → served ≠ none → h ≠ e.handle)
    (other : ∀ {b : Agenda α} {h' : HandleId} {handle' : Handle α}, r.firing = h' :: r'.firing →
      r.agenda.Quiet b → b.handle? h' = some handle' → handle'.state = .armed → h ≠ h') :
    r.agenda.Silent h r'.agenda ∧ (h ∈ r'.firing → h ∈ r.firing) := by
  have ends {h' : HandleId} (firing : r.firing = h' :: r'.firing) (member : h ∈ r'.firing) :
      h ∈ r.firing :=
    firing ▸ List.mem_cons_of_mem _ member
  cases stepped with
  | moves moves firing => exact ⟨.moves known moves, by rw [firing]; exact id⟩
  | @serves e b served serves quiet firing =>
    refine ⟨(Silent.serves serves (unserved serves)).trans (.quiet quiet), fun member => ?_⟩
    rw [firing] at member
    cases served with
    | none => exact member
    | some fired =>
      exact (List.mem_cons.mp member).resolve_left (unserved serves (Option.some_ne_none fired))
  | finishes firing idle quiet => exact ⟨.quiet quiet, ends firing⟩
  | rearms firing quiet found armed arms quiet' =>
    have other := other firing quiet found armed
    exact ⟨((Silent.quiet quiet).trans (.arms found other arms)).trans (.quiet quiet'), ends firing⟩
  | raises raises firing quiet found armed quiet' =>
    exact ⟨((Silent.quiet quiet).trans (.sequence found)).trans (.quiet quiet'), ends firing⟩

theorem Spent.stepped (spent : r.Spent h) (stepped : r.Stepped r') :
    r.agenda.Silent h r'.agenda ∧ r'.Spent h := by
  have names := stepped.names
  obtain ⟨handle, found, lost⟩ := id spent
  obtain ⟨silent, firing⟩ := stepped.silent found spent.unserved spent.other
  obtain ⟨handle', found', becomes⟩ := stepped.persists h handle found
  refine ⟨silent, handle', found', lost.imp becomes.ended ?_⟩
  rintro ⟨gone, outside⟩
  rw [becomes.session]
  exact ⟨fun member => gone (names member), fun member => outside (firing member)⟩

theorem Spent.later (spent : r.Spent h) (later : r.Later r') :
    r.agenda.Silent h r'.agenda ∧ r'.Spent h := by
  induction later with
  | refl => exact ⟨.refl h _, spent⟩
  | tail later next ih =>
    obtain ⟨silent, spent⟩ := ih
    obtain ⟨silent', spent'⟩ := spent.stepped next.stepped
    exact ⟨silent.trans silent', spent'⟩

/-! What ends a handle. -/

theorem Spent.of_ended (ended : r.agenda.Ended h) : r.settle.Spent h := by
  obtain ⟨handle, found, ended⟩ := ended.persists (.quiet (quiet_release _))
  exact ⟨handle, found, .inl ended⟩

theorem Ends.spent (ends : r.Ends h r') (found : r.agenda.handle? h = some handle) :
    r'.Spent h := by
  cases ends with
  | cancelled next =>
    obtain ⟨below, -, rfl⟩ := next.performs
    apply Spent.of_ended
    rw [perform, withHandle, found]
    exact ended_cancel found
  | removed next answered scheduler stored =>
    obtain ⟨below, -, rfl⟩ := next.performs
    have performed := withScheduler_eq_of_ok scheduler answered
    apply Spent.of_ended
    rw [perform, performed]
    exact ended_remove stored found
  | cleared next answered scheduler stored =>
    obtain ⟨below, -, rfl⟩ := next.performs
    have performed := withScheduler_eq_of_ok scheduler answered
    apply Spent.of_ended
    rw [perform, performed]
    exact ended_removeAll stored found
  | @replaced via session name event config source args answer next answered scheduler stored =>
    obtain ⟨below, -, rfl⟩ := next.performs
    have performed := withScheduler_eq_of_ok scheduler answered
    rw [perform, performed] at answered
    have answered : (result below _).outcome = some (.ok answer) := answered
    obtain ⟨new, added, -⟩ := result_of_ok answered
    apply Spent.of_ended
    rw [perform, performed]
    exact ended_addSchedule stored found added
  | lost next found' gone outside =>
    cases found.symm.trans found'
    obtain ⟨handle', known, becomes⟩ := next.stepped.persists h handle found
    refine ⟨handle', known, .inr ⟨?_, outside⟩⟩
    rw [becomes.session]
    intro member
    exact session?_ne_none_iff.mpr member gone

/-- What has ended is final. Whatever comes after, with all that handlers do and whether or not the
timer can take entries back, nothing is dispatched for the handle and no entry is registered. -/
theorem ended_for_good (found : r.agenda.handle? h = some handle) (ends : r.Ends h r')
    {r'' : Run α} (later : r'.Later r'') : r'.agenda.Silent h r''.agenda :=
  ((ends.spent found).later later).1

end Run

namespace twoHours

/-- The run once the schedule has been created, with a timer that cannot take entries back. -/
def unrevocable : Run Nat := ⟨{ created with revocable := false }, [], none⟩

def cancelled : Run Nat := (Run.perform unrevocable.agenda [] (.cancel 0)).settle

/-- Cancelled, the schedule still has its entry, and nothing is dispatched where that runs. -/
theorem silent_cancelled : cancelled.agenda.pending = [⟨0, twoHours.start, 0⟩] ∧
    ∃ r, cancelled.Later r ∧ r.agenda.pending = [] ∧ cancelled.agenda.Silent 0 r.agenda := by
  have next : unrevocable.Next (some (.cancel 0)) cancelled :=
    .act (show unrevocable.Free from trivial) (.cancel 0)
  have advanced : cancelled.Next (some (.advance 0)) _ :=
    .act (show cancelled.Free from trivial) (.advance 0)
  have later := (Run.Later.refl.tail advanced).tail (.step rfl)
  exact ⟨rfl, _, later, rfl, Run.ended_for_good rfl (.cancelled next) later⟩

end twoHours

end Almanac
