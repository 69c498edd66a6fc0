import Almanac.Proofs.Schedule.Shelving

set_option autoImplicit false

/-!
The operations of an agenda keep registries in order.

Whatever takes a handle out of a registry also ends it, and whatever ends a handle takes it out of
the registry that it knows. Only the cancelling of a handle on its own does not.
-/

namespace Almanac

variable {α : Type}

namespace Agenda

variable {a b c : Agenda α} {h : HandleId} {handle : Handle α} {id : RegistryId}
  {r : Named HandleId} {name session : String} {ended : HandleId → Prop}

/-! Handles that stay where they are. -/

theorem Tidies.same (holdings : b.holdings = a.holdings) (labels : ∀ h, b.label? h = a.label? h) :
    a.Tidies b := by
  intro ended orderly
  refine orderly.relabel holdings (fun _ _ h _ => .inl (labels h)) ?_ ?_
  · intro h name session id labelled
    rw [labels] at labelled
    exact labelled
  · intro h id known
    rw [known?, labels]
    exact known

theorem Tidies.record (a : Agenda α) (x : Happening α) : a.Tidies (a.record x) :=
  .same rfl fun _ => rfl

theorem Tidies.log (a : Agenda α) (level : LogLevel) (message : String) :
    a.Tidies (a.log level message) :=
  .record a _

theorem Tidies.noteAdded (a : Agenda α) (name event : String) (rule : Rule) :
    a.Tidies (a.noteAdded name event rule) := by
  rcases a.noteAdded_eq name event rule with same | ⟨message, logged⟩
  · rw [same]
    exact .refl a
  · rw [logged]
    exact .log a _ _

theorem Tidies.clockAtLeast (a : Agenda α) (t : Zoned) : a.Tidies (a.clockAtLeast t) := by
  obtain ⟨clock, moved, -⟩ := clockAtLeast_eq a t
  rw [moved]
  exact .same rfl fun _ => rfl

/-- A registry is found, or opened where there is none. -/
theorem Tidies.obtained {key : String} (lives : session ∈ a.names)
    (obtained : a.obtainRegistry session key = (b, id, r)) : a.Tidies b := by
  intro ended orderly
  obtain ⟨orderly', retains, -⟩ := orderly.obtain lives obtained
  exact ⟨orderly', retains⟩

/-- A handle may be cancelled on its own if it counts as ended. -/
theorem Orderly.cancel (orderly : a.Orderly ended) (past : ended h) :
    (a.cancel h).1.Orderly ended ∧ a.Retains (a.cancel h).1 := by
  refine orderly.relabel (holdings_cancel a h) ?_ ?_ ?_
  · intro id name h' _
    rw [label?_cancel]
    split
    · rename_i own
      subst own
      exact .inr ⟨past, rfl⟩
    · exact .inl rfl
  · intro h' name session id labelled
    rw [label?_cancel] at labelled
    split at labelled
    · obtain ⟨l, -, same⟩ := Option.map_eq_some_iff.mp labelled
      exact absurd (congrArg Label.state same) l.cancelled_state
    · exact labelled
  · intro h' id known
    rw [known?, label?_cancel]
    split
    · rename_i own
      subst own
      rw [Label.registry_map Label.cancelled_registry]
      exact known
    · exact known

/-- A handle that no registry stores may change, if not to an armed one that knows a registry. -/
theorem Orderly.unfiled (orderly : a.Orderly ended) (holdings : b.holdings = a.holdings)
    (others : ∀ h' ≠ h, b.label? h' = a.label? h') (unfiled : ∀ id name, ¬a.Files id name h)
    (idle : ∀ l, b.label? h = some l → l.registry = none ∨ l.state ≠ .armed)
    (known : ∀ id, a.known? h = some id → b.known? h = some id) : b.Orderly ended ∧ a.Retains b := by
  refine orderly.relabel holdings ?_ ?_ ?_
  · intro id name h' files
    left
    apply others
    rintro rfl
    exact unfiled id name files
  · intro h' name session id labelled
    by_cases own : h' = h
    · subst own
      rcases idle _ labelled with unknown | past
      · cases unknown
      · exact absurd rfl past
    · rw [others h' own] at labelled
      exact labelled
  · intro h' id knows
    by_cases own : h' = h
    · subst own
      exact known id knows
    · rw [known?, others h' own]
      exact knows

/-! Taking handles out. -/

theorem Tidies.takes (registry : a.registry? id = some r)
    (holdings : b.holdings = (a.setRegistry id (r.erase name)).holdings)
    (labels : ∀ h, b.label? h =
      if r.get? name = some h then (a.label? h).map Label.cancelled else a.label? h) :
    a.Tidies b := by
  intro ended orderly
  refine orderly.erase registry (Named.nodup_erase (orderly.distinct id r registry) name) ?_ ?_
    holdings labels Label.cancelled_state Label.cancelled_registry
  · rintro ⟨name', h⟩
    rw [Named.mem_erase]
    exact and_congr_right fun member => (orderly.get?_ne_iff registry member).symm
  · intro h named
    exact ⟨name, Named.mem_of_get? named⟩

theorem Tidies.take_none (registry : a.registry? id = some r) (named : r.get? name = none) :
    a.Tidies (a.setRegistry id (r.erase name)) := by
  refine .takes registry rfl fun h => ?_
  rw [named, if_neg (Option.some_ne_none h).symm]
  rfl

/-- A handle that is taken out is cancelled. -/
theorem Tidies.take_some (registry : a.registry? id = some r) (named : r.get? name = some h) :
    a.Tidies ((a.setRegistry id (r.erase name)).cancel h).1 := by
  refine .takes registry (holdings_cancel _ h) fun h' => ?_
  simpa [named] using label?_cancel (a.setRegistry id (r.erase name)) h h'

theorem Tidies.popped_none (registry : a.registry? id = some r)
    (popped : a.popFromRegistry id name = (b, none)) : a.Tidies b := by
  obtain ⟨rfl, named⟩ := popped_eq popped registry
  exact .take_none registry named

theorem Tidies.popped_some (registry : a.registry? id = some r)
    (popped : a.popFromRegistry id name = (b, some h)) : a.Tidies (b.cancel h).1 := by
  obtain ⟨rfl, named⟩ := popped_eq popped registry
  exact .take_some registry named

theorem Tidies.clears (registry : a.registry? id = some r) :
    a.Tidies ((a.setRegistry id .empty).cancelAll r.values).1 := by
  intro ended orderly
  have nothing : (Named.empty : Named HandleId).names.Nodup := List.nodup_nil
  refine orderly.erase registry nothing ?_ ?_ (holdings_cancelAll _ _)
    (label?_cancelAll _ r.values) Label.cancelled_state Label.cancelled_registry
  · rintro ⟨name, h⟩
    exact iff_of_false List.not_mem_nil fun stays => stays.2 (Named.mem_values_of_mem stays.1)
  · intro h listed
    obtain ⟨⟨name, h⟩, member, rfl⟩ := List.mem_map.mp listed
    exact ⟨name, member⟩

theorem Tidies.remove (a : Agenda α) (config : Config) (session name : String) :
    a.Tidies (a.remove config session name).1 := by
  have spec := a.remove_spec config session name
  generalize a.remove config session name = removed at spec ⊢
  cases spec with
  | unheld => exact .refl a
  | unnamed held named => exact .take_none (registry?_of_findRegistry held) named
  | cancels held named =>
    exact (Tidies.take_some (registry?_of_findRegistry held) named).trans (.log _ _ _)

theorem Tidies.removeAll (a : Agenda α) (config : Config) (session : String) :
    a.Tidies (a.removeAll config session).1 := by
  have spec := a.removeAll_spec config session
  generalize a.removeAll config session = removed at spec ⊢
  cases spec with
  | unheld => exact .refl a
  | clears held cancelled =>
    have clears := Tidies.clears (registry?_of_findRegistry held)
    rw [cancelled] at clears
    exact clears.trans (.log _ _ _)

/-! Arming and creating. -/

/-- A handle leaves its registry if it is stored there. -/
theorem leave_cases (a : Agenda α) (h : HandleId) (handle : Handle α) :
    (∃ id r, handle.registry = some id ∧ a.registry? id = some r ∧ r.get? handle.name = some h ∧
      a.leave h handle = a.setRegistry id (r.erase handle.name)) ∨
    a.leave h handle = a ∧ ∀ id r, handle.registry = some id → a.registry? id = some r →
      r.get? handle.name ≠ some h := by
  unfold leave discard
  cases known : handle.registry with
  | none => exact .inr ⟨rfl, fun id r same => by cases same⟩
  | some id =>
    dsimp only
    cases registry : a.registry? id with
    | none =>
      right
      refine ⟨rfl, fun id' r same there => ?_⟩
      cases same
      rw [registry] at there
      cases there
    | some r =>
      dsimp only
      split
      · rename_i named
        exact .inl ⟨id, r, rfl, registry, named, rfl⟩
      · rename_i other
        right
        refine ⟨rfl, fun id' r' same there => ?_⟩
        cases same
        cases registry.symm.trans there
        exact other

/-- A handle that is exhausted leaves its registry. -/
theorem Tidies.exhausts (found : a.handle? h = some handle)
    (holdings : b.holdings = (a.leave h handle).holdings)
    (labels : ∀ h', b.label? h' =
      if h' = h then (a.label? h').map Label.exhausted else a.label? h') : a.Tidies b := by
  intro ended orderly
  have label : a.label? h = some handle.label := by rw [label?, found, Option.map_some]
  rcases leave_cases a h handle with ⟨id, r, -, registry, named, left⟩ | ⟨left, other⟩
  · rw [left] at holdings
    have distinct := orderly.distinct id r registry
    refine orderly.erase registry (Named.nodup_erase distinct _) ?_ ?_ holdings labels
      Label.exhausted_state fun _ => rfl
    · rintro ⟨name, h'⟩
      rw [Named.mem_erase]
      refine and_congr_right fun member => ?_
      rw [← orderly.get?_ne_iff registry member, named, Ne, Option.some_inj, eq_comm]
    · rintro _ rfl
      exact ⟨_, Named.mem_of_get? named⟩
  · rw [left] at holdings
    have own := labels h
    rw [if_pos rfl, label, Option.map_some] at own
    refine orderly.unfiled holdings (fun h' other => (labels h').trans (if_neg other)) ?_ ?_ ?_
    · intro id name files
      have known := orderly.known files
      have named := orderly.named files
      rw [known?, label] at known
      rw [label] at named
      obtain ⟨r, registry, member⟩ := files
      cases Option.some.inj named
      exact other id r known registry (Named.get?_of_mem (orderly.distinct id r registry) member)
    · intro l labelled
      cases own.symm.trans labelled
      exact .inr handle.label.exhausted_state
    · intro id known
      rw [known?, label] at known
      rw [known?, own]
      exact known

theorem Tidies.arms {missed : Zoned → Bool} (found : a.handle? h = some handle)
    (arms : a.Arms h handle missed b) : a.Tidies b := by
  cases arms with
  | waits alike run passes handles pending nextEntry revocable tells fates holdings =>
    exact .same holdings fun h' => label?_set_same found handles rfl h'
  | ends alike run nothing passes handles pending nextEntry revocable tells fates holdings =>
    refine .exhausts found holdings fun h' => ?_
    rw [label?_set found handles]
    split
    · rename_i own
      rw [own, label?, found]
      rfl
    · rfl

/-- A new handle knows no registry. -/
theorem Tidies.creates (creates : a.Creates handle b) : a.Tidies b := by
  have fresh : a.handle? a.handles.length = none := List.getElem?_eq_none le_rfl
  have last : ({ a with handles := a.handles ++ [handle] } : Agenda α).handle? a.handles.length =
      some handle := List.getElem?_concat_length
  refine Tidies.trans (fun ended orderly => ?_) (.arms last creates.arms)
  have unknown : a.known? a.handles.length = none := by
    rw [known?, label?, fresh]
    rfl
  refine orderly.unfiled rfl ?_ (fun id name => orderly.not_files unknown) ?_ ?_
  · intro h other
    rw [label?, handle?_append_ne other, label?]
  · intro l labelled
    rw [label?, last] at labelled
    cases labelled
    exact .inl creates.registry
  · intro id known
    rw [unknown] at known
    cases known

/-! Adding. -/

/-- A handle is filed for a session under a key and a name: as long as it is armed and its session
exists, it knows a registry that the session has under the key. -/
def FiledFor (a : Agenda α) (session key name : String) (h : HandleId) : Prop :=
  ∃ l, a.label? h = some l ∧ l.name = name ∧ l.session = session ∧
    (l.state = .armed → session ∈ a.names → ∃ id, l.registry = some id ∧ a.Shelf session key id)

theorem FiledFor.keeps {key : String} (filed : a.FiledFor session key name h)
    (persists : a.Persists b) (retains : a.Retains b) : b.FiledFor session key name h := by
  obtain ⟨l, labelled, named, whose, shelved⟩ := filed
  obtain ⟨handle, found, rfl⟩ := Option.map_eq_some_iff.mp labelled
  obtain ⟨handle', found', becomes⟩ := persists h handle found
  refine ⟨handle'.label, by rw [label?, found', Option.map_some], becomes.name.trans named,
    becomes.session.trans whose, fun armed lives => ?_⟩
  have armed' : handle.state = .armed := by
    by_contra past
    exact becomes.ended past armed
  obtain ⟨id, knows, shelf⟩ := shelved armed' (retains.names lives)
  have known : a.known? h = some id := by
    rw [known?, labelled]
    exact knows
  have known' := retains.known h id known
  rw [known?, label?, found'] at known'
  exact ⟨id, known', retains.shelves _ _ _ shelf lives⟩

/-- A handle that has been created is the one that it was to be, or exhausted from the start. -/
theorem label?_of_creates (creates : a.Creates handle b) :
    ∃ handle', b.handle? a.handles.length = some handle' ∧
      (handle'.label = handle.label ∨ handle'.label = handle.label.exhausted) := by
  have last : ({ a with handles := a.handles ++ [handle] } : Agenda α).handle? a.handles.length =
      some handle := List.getElem?_concat_length
  cases creates.arms with
  | waits alike run passes handles =>
    exact ⟨_, handle?_set_self handles (lt_of_handle? last), .inl rfl⟩
  | ends alike run nothing passes handles =>
    exact ⟨_, handle?_set_self handles (lt_of_handle? last), .inr rfl⟩

/-- Where adding a schedule has come to once its handle has been created: the handle knows no
registry yet, and is armed or exhausted from the start. -/
structure Fresh (ended : HandleId → Prop) (a : Agenda α) (session key name : String)
    (id : RegistryId) (r : Named HandleId) (h : HandleId) (c : Agenda α) : Prop where
  orderly : c.Orderly ended
  retains : a.Retains c
  shelf : c.Shelf session key id
  registry : c.registry? id = some r
  made : ∃ handle, c.handle? h = some handle ∧
    (handle.label = ⟨name, session, none, .armed⟩ ∨
      handle.label = ⟨name, session, none, .exhausted⟩)

variable {config : Config} {event key : String} {source : RuleSource} {args : List α} {rule : Rule}

theorem Orderly.makes (orderly : a.Orderly ended) (lives : session ∈ a.names)
    (makes : a.Makes config session name event source args rule b id r (c, .ok h)) :
    Fresh ended a session config.heapKey name id r h c := by
  obtain ⟨orderly', retains, -, shelf, registry, -⟩ := orderly.obtain lives makes.obtained
  obtain ⟨rfl, handle, creates, rfl, rfl⟩ := makes.creates
  obtain ⟨orderly'', retains'⟩ := Tidies.creates creates ended orderly'
  obtain ⟨handle', found, label⟩ := label?_of_creates creates
  have holdings := creates.arms.holdings creates.registry
  refine ⟨orderly'', retains.trans retains', ?_,
    (registry?_of_holdings holdings id).trans registry, handle', found, ?_⟩
  · rw [Shelf, sessions_of_holdings holdings]
    exact shelf
  · have expected : handle.label = ⟨handle.name, handle.session, none, .armed⟩ := by
      rw [Handle.label, creates.registry, creates.state]
    rw [expected] at label
    exact label

/-- What adding a schedule keeps in order. Its handle is filed, and a duplicate is only told of where
one is stored under the name. -/
structure AddsOrderly (ended : HandleId → Prop) (a : Agenda α) (config : Config)
    (session name : String) (added : Agenda α × Except Fault HandleId) : Prop where
  orderly : added.1.Orderly ended
  retains : a.Retains added.1
  filed : ∀ h, added.2 = .ok h → added.1.FiledFor session config.heapKey name h
  duplicate : ∀ other, added.2 = .error (.duplicate other) →
    other = name ∧ ∃ h, a.get? config session name = some h

theorem AddsOrderly.failed {fault : Fault} (orderly : b.Orderly ended)
    (retains : a.Retains b) (other : ∀ name, fault ≠ .duplicate name) :
    AddsOrderly ended a config session name (b, .error fault) := by
  refine ⟨orderly, retains, fun h same => ?_, fun taken same => ?_⟩
  · cases same
  · exact absurd (Except.error.inj same) (other taken)

theorem AddsOrderly.made (orderly : b.Orderly ended) (retains : a.Retains b)
    (filed : b.FiledFor session config.heapKey name h) :
    AddsOrderly ended a config session name (b, .ok h) := by
  refine ⟨orderly, retains, fun h' same => ?_, fun taken same => ?_⟩
  · cases same
    exact filed
  · cases same

/-- An armed handle is stored. -/
theorem Fresh.stores (fresh : Fresh ended a session config.heapKey name id r h c)
    (armed : (c.handle? h).any Handle.isArmed = true) (event : String) (rule : Rule) :
    AddsOrderly ended a config session name
      ((c.putInRegistry id name h).1.noteAdded name event rule, .ok h) := by
  obtain ⟨orderly, retains, ⟨s, there, rfl, held⟩, registry, handle, found, label⟩ := fresh
  have label : handle.label = ⟨name, s.name, none, .armed⟩ := by
    refine label.resolve_right fun past => ?_
    have exhausted : handle.state = .exhausted := congrArg Label.state past
    rw [found, Option.any_some, Handle.isArmed, exhausted] at armed
    cases armed
  obtain ⟨orderly', retains', stored⟩ :=
    orderly.put registry there (Session.mem_registries held) found label
  obtain ⟨orderly'', retains''⟩ := Tidies.noteAdded _ name event rule ended orderly'
  rw [label?, ← handle?_noteAdded _ name event rule, ← label?] at stored
  refine .made orderly'' ((retains.trans retains').trans retains'') ⟨_, stored, rfl, rfl, ?_⟩
  intro _ lives
  exact ⟨id, rfl, (retains'.trans retains'').shelves _ _ _ ⟨s, there, rfl, held⟩ lives⟩

/-- One that is exhausted from the start is filed whatever becomes of its name. -/
theorem Fresh.ends (fresh : Fresh ended a session config.heapKey name id r h c)
    (past : (c.handle? h).any Handle.isArmed = false) {d : Agenda α} (moves : c.Moves d)
    (tidies : c.Tidies d) : AddsOrderly ended a config session name (d, .ok h) := by
  obtain ⟨orderly, retains, -, -, handle, found, label⟩ := fresh
  have past : handle.state ≠ .armed := by
    rw [found] at past
    simpa [Handle.isArmed] using past
  have filed : c.FiledFor session config.heapKey name h := by
    refine ⟨handle.label, ?_, ?_, ?_, fun armed => absurd armed past⟩
    · rw [label?, found, Option.map_some]
    · exact label.elim (congrArg Label.name) (congrArg Label.name)
    · exact label.elim (congrArg Label.session) (congrArg Label.session)
  obtain ⟨orderly', retains'⟩ := tidies ended orderly
  exact .made orderly' (retains.trans retains') (filed.keeps (.moves moves) retains')

theorem Orderly.adds (orderly : a.Orderly ended) (lives : session ∈ a.names)
    (config : Config) (name event : String) (source : RuleSource) (args : List α) :
    AddsOrderly ended a config session name
      (a.addSchedule config session name event source args) := by
  have spec := a.addSchedule_spec config session name event source args
  generalize a.addSchedule config session name event source args = added at spec ⊢
  cases spec with
  | invalid =>
    refine .failed orderly (.refl a) fun taken same => ?_
    exact absurd same SpecError.fault_ne_duplicate
  | @duplicate rule b id r read obtained taken =>
    obtain ⟨orderly', retains, -, shelf, registry, origin⟩ := orderly.obtain lives obtained
    obtain ⟨h, named⟩ := Option.isSome_iff_exists.mp taken
    have got : a.get? config session name = some h := by
      rcases origin with rfl | rfl
      · exact orderly.get?_iff.mpr ⟨id, shelf, r, registry, Named.mem_of_get? named⟩
      · cases named
    refine ⟨orderly', retains, fun h same => ?_, fun other same => ?_⟩
    · cases same
    · cases same
      exact ⟨rfl, h, got⟩
  | fails makes =>
    obtain ⟨orderly', retains, -⟩ := orderly.obtain lives makes.obtained
    obtain ⟨rfl, rfl⟩ := makes.unmade
    exact .failed orderly' retains fun taken same => by cases same
  | stores makes armed => exact (orderly.makes lives makes).stores armed _ _
  | drops makes past popped =>
    have fresh := orderly.makes lives makes
    exact fresh.ends past ((Moves.refl.log _ _).popped popped)
      ((Tidies.log _ _ _).trans (.popped_none fresh.registry popped))
  | ends makes past popped =>
    have fresh := orderly.makes lives makes
    exact fresh.ends past ((((Moves.refl.log _ _).popped popped).cancel _).log _ _)
      (((Tidies.log _ _ _).trans (.popped_some fresh.registry popped)).trans (.log _ _ _))

/-- Adding keeps registries in order. -/
theorem Tidies.addSchedule (lives : session ∈ a.names) (config : Config) (name event : String)
    (source : RuleSource) (args : List α) :
    a.Tidies (a.addSchedule config session name event source args).1 := by
  intro ended orderly
  have adds := orderly.adds lives config name event source args
  exact ⟨adds.orderly, adds.retains⟩

/-! Taking an entry. -/

/-- What an entry finds leaves registries as they are. A handle whose session is gone is in none. -/
theorem Tidies.serves {e : Entry} {served : Option (Handle α)} (serves : a.Serves e b served) :
    a.Tidies b := by
  cases serves with
  | idles takes idle handles => exact .same takes.holdings (label?_of_handles handles)
  | fires takes found armed due lives handles =>
    exact .same takes.holdings fun h => label?_set_same found handles rfl h
  | @drops handle takes found armed handles tells fates gone =>
    intro ended orderly
    have label : a.label? e.handle = some handle.label := by rw [label?, found, Option.map_some]
    have own := label?_set found handles e.handle
    rw [if_pos rfl] at own
    have others : ∀ h ≠ e.handle, b.label? h = a.label? h :=
      fun h other => (label?_set found handles h).trans (if_neg other)
    refine orderly.unfiled takes.holdings others ?_ ?_ ?_
    · intro id name files
      obtain ⟨s, there, -, state, labelled, -⟩ := orderly.filed id name e.handle files
      have whose : handle.session = s.name :=
        congrArg Label.session (Option.some.inj (Eq.trans label.symm labelled))
      rw [session?, sessions_of_holdings takes.holdings, ← session?, whose] at gone
      exact session?_ne_none_iff.mpr (List.mem_map_of_mem there) gone
    · intro l labelled
      cases own.symm.trans labelled
      have ended : HandleState.cancelled ≠ .armed := by decide
      exact .inr ended
    · intro id known
      rw [known?, label] at known
      rw [known?, own]
      exact known

theorem Tidies.rearm (a : Agenda α) (h : HandleId) : a.Tidies (a.rearm h).1 := by
  have spec := rearm_spec a h
  generalize a.rearm h = result at spec ⊢
  cases spec with
  | idle => exact .refl a
  | arms found armed arms => exact .arms found arms
  | @raises handle sequence found =>
    have handles : (a.setHandle h { handle with sequence }).handles =
      a.handles.set h { handle with sequence } := rfl
    exact .same rfl fun h' => label?_set_same found handles rfl h'

end Agenda

end Almanac
