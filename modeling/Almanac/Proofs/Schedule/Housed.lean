import Almanac.Proofs.Schedule.Registered

set_option autoImplicit false

/-!
Where the registries of a run are, whatever is done to it.

Heaps and registries may also be changed directly, so that a registry may hold handles under any
names. Still no two places hold the same registry, a new registry is new, and only handles that exist
are stored. So what is done to the registry in one place is seen in no other.
-/

namespace Almanac

variable {α : Type}

namespace Agenda

/-- How sessions, registries and handles belong together. -/
structure Housed (a : Agenda α) : Prop where
  same : ∀ s ∈ a.sessions, ∀ t ∈ a.sessions, s.name = t.name → s = t
  apart : ∀ session key session' key' id, a.Shelf session key id → a.Shelf session' key' id →
    session' = session ∧ key' = key
  shelved : ∀ session key id, a.Shelf session key id → id < a.nextRegistry
  given : ∀ id, a.registry? id ≠ none → id < a.nextRegistry
  filed : ∀ id name h, a.Files id name h → a.handle? h ≠ none

variable {a b : Agenda α} {h : HandleId} {handle : Handle α} {id id' : RegistryId}
  {r r' : Named HandleId} {session key name : String} {config : Config}

/-! Looking up. -/

theorem files_of_get? (registry : a.registry? id = some r) (named : r.get? name = some h) :
    a.Files id name h :=
  ⟨r, registry, Named.mem_of_get? named⟩

theorem Persists.exists (persists : a.Persists b) (there : a.handle? h ≠ none) :
    b.handle? h ≠ none := by
  obtain ⟨handle, found⟩ := Option.ne_none_iff_exists'.mp there
  obtain ⟨handle', found', -⟩ := persists h handle found
  rw [found']
  exact Option.some_ne_none _

theorem shelf_iff_of_session? (same : ∀ s ∈ a.sessions, ∀ t ∈ a.sessions, s.name = t.name → s = t)
    {s : Session α} (found : a.session? session = some s) :
    a.Shelf session key id ↔ s.heap.lookup key = some (.registry id) := by
  have member := List.mem_of_find?_eq_some found
  have named := name_of_session? found
  constructor
  · rintro ⟨t, there, whose, held⟩
    cases same t there s member (whose.trans named.symm)
    exact held
  · exact fun held => ⟨s, member, named, held⟩

theorem shelf_setSession {s s' : Session α} (found : a.session? session = some s)
    (named : s'.name = session) {session' : String} : (a.setSession s').Shelf session' key id ↔
      if session' = session then s'.heap.lookup key = some (.registry id)
      else a.Shelf session' key id := by
  have member := List.mem_of_find?_eq_some found
  have before := name_of_session? found
  constructor
  · rintro ⟨t, there, rfl, held⟩
    rcases mem_setSession_cases there with rfl | ⟨there, other⟩
    · rw [if_pos named]
      exact held
    · rw [if_neg (named ▸ other)]
      exact ⟨t, there, rfl, held⟩
  · intro shelf
    split at shelf
    · rename_i own
      exact ⟨s', mem_setSession.mpr ⟨s, member, (if_pos (before.trans named.symm)).symm⟩,
        named.trans own.symm, shelf⟩
    · rename_i other
      obtain ⟨t, there, rfl, held⟩ := shelf
      exact ⟨t, mem_setSession.mpr ⟨t, there, (if_neg (named ▸ other)).symm⟩, rfl, held⟩

/-- Where a session holds no registry under a key a value is just put there. -/
theorem setHeap_of_missing {s : Session α} (found : a.session? session = some s)
    (missing : a.findRegistry session key = none) (value : HeapValue α) :
    a.setHeap session key value = a.setSession { s with heap := putPair key value s.heap } := by
  unfold Agenda.setHeap
  rw [found]
  cases held : s.heap.lookup key with
  | none => simp [held]
  | some old =>
    cases old with
    | plain old => simp [held]
    | registry id =>
      have unknown : a.registry? id = none := by
        by_contra there
        obtain ⟨r, registry⟩ := Option.ne_none_iff_exists'.mp there
        rw [findRegistry_eq_some_iff.mpr ⟨⟨s, found, held⟩, registry⟩] at missing
        cases missing
      have stay : a.registries.filter (fun r => !([id].contains r.1)) = a.registries := by
        refine List.filter_eq_self.mpr fun e member => ?_
        have other := bne_iff_ne.mp (List.lookup_eq_none_iff.mp unknown e member)
        simpa using other.symm
      simp only [held]
      rw [stay]

namespace Housed

theorem findRegistry_iff (housed : a.Housed) :
    a.findRegistry session key = some (id, r) ↔ a.Shelf session key id ∧ a.registry? id = some r :=
  findRegistry_iff_shelf housed.same

theorem shelf_unique (housed : a.Housed) (shelf : a.Shelf session key id)
    (shelf' : a.Shelf session key id') : id' = id := by
  obtain ⟨s, there, named, held⟩ := shelf
  obtain ⟨t, there', named', held'⟩ := shelf'
  cases housed.same s there t there' (named.trans named'.symm)
  cases held.symm.trans held'
  rfl

theorem get?_iff (housed : a.Housed) : a.get? config session name = some h ↔
    ∃ id r, a.Shelf session config.heapKey id ∧ a.registry? id = some r ∧ r.get? name = some h := by
  simp only [get?_eq_some_iff, housed.findRegistry_iff, and_assoc]

/-- A schedule that is stored has a handle. -/
theorem exists_of_get? (housed : a.Housed) (stored : a.get? config session name = some h) :
    a.handle? h ≠ none := by
  obtain ⟨id, r, -, registry, named⟩ := housed.get?_iff.mp stored
  exact housed.filed id name h (files_of_get? registry named)

theorem get?_of_holdings (holdings : b.holdings = a.holdings) (config : Config)
    (session name : String) : b.get? config session name = a.get? config session name := by
  simp only [Agenda.get?, findRegistry, session?, Agenda.registry?, sessions_of_holdings holdings,
    registries_of_holdings holdings]

/-! Changes that bring in no registry. -/

theorem shrinks (housed : a.Housed)
    (same : ∀ s ∈ b.sessions, ∀ t ∈ b.sessions, s.name = t.name → s = t)
    (shelves : ∀ session key id, b.Shelf session key id → a.Shelf session key id)
    (next : b.nextRegistry = a.nextRegistry)
    (registries : ∀ id, b.registry? id ≠ none → a.registry? id ≠ none)
    (files : ∀ id name h, b.Files id name h → a.Files id name h ∨ b.handle? h ≠ none)
    (persists : a.Persists b) : b.Housed := by
  refine ⟨same, fun session key session' key' id shelf shelf' => ?_,
    fun session key id shelf => ?_, fun id there => ?_, fun id name h stored => ?_⟩
  · exact housed.apart session key session' key' id (shelves _ _ _ shelf) (shelves _ _ _ shelf')
  · rw [next]
    exact housed.shelved session key id (shelves _ _ _ shelf)
  · rw [next]
    exact housed.given id (registries id there)
  · rcases files id name h stored with before | there
    · exact persists.exists (housed.filed id name h before)
    · exact there

theorem of_holdings (housed : a.Housed) (holdings : b.holdings = a.holdings)
    (persists : a.Persists b) : b.Housed := by
  refine housed.shrinks ?_ ?_ (nextRegistry_of_holdings holdings) ?_ ?_ persists
  · rw [sessions_of_holdings holdings]
    exact housed.same
  · intro session key id shelf
    rw [Shelf, sessions_of_holdings holdings] at shelf
    exact shelf
  · intro id there
    rw [registry?_of_holdings holdings] at there
    exact there
  · intro id name h stored
    exact .inl ((files_of_holdings holdings).mp stored)

/-- A registry may come to hold other handles that exist. -/
theorem setRegistry (housed : a.Housed) (registry : a.registry? id = some r)
    (new : ∀ e ∈ r'.entries, e ∈ r.entries ∨ a.handle? e.2 ≠ none) :
    (a.setRegistry id r').Housed := by
  refine housed.shrinks housed.same (fun _ _ _ shelf => shelf) rfl ?_ ?_ (.same rfl)
  · intro id' there
    by_cases own : id' = id
    · subst own
      rw [registry]
      exact Option.some_ne_none _
    · rw [registry?_setRegistry_ne own] at there
      exact there
  · rintro id' name h ⟨r'', found, member⟩
    by_cases own : id' = id
    · subst own
      rw [registry?_setRegistry_self registry] at found
      cases found
      exact (new (name, h) member).imp_left fun before => ⟨r, registry, before⟩
    · rw [registry?_setRegistry_ne own] at found
      exact .inl ⟨r'', found, member⟩

theorem erase (housed : a.Housed) (registry : a.registry? id = some r) (name : String) :
    (a.setRegistry id (r.erase name)).Housed :=
  housed.setRegistry registry fun _ member => .inl (Named.mem_erase.mp member).1

theorem clear (housed : a.Housed) (registry : a.registry? id = some r) :
    (a.setRegistry id .empty).Housed :=
  housed.setRegistry registry nofun

/-- What a registry comes to hold is found in its place, and nowhere else. -/
theorem get?_setRegistry (housed : a.Housed) (shelf : a.Shelf session key id)
    (registry : a.registry? id = some r) (r' : Named HandleId) (config : Config)
    (session' name : String) : (a.setRegistry id r').get? config session' name =
      if session' = session ∧ config.heapKey = key then r'.get? name
      else a.get? config session' name := by
  have same : ∀ s ∈ (a.setRegistry id r').sessions, ∀ t ∈ (a.setRegistry id r').sessions,
      s.name = t.name → s = t := housed.same
  have registry' := registry?_setRegistry_self registry r'
  refine Option.ext fun h => ?_
  rw [get?_iff_shelf same]
  split
  · rename_i here
    obtain ⟨rfl, rfl⟩ := here
    constructor
    · rintro ⟨id', r'', shelf', known, named⟩
      cases housed.shelf_unique shelf shelf'
      cases registry'.symm.trans known
      exact named
    · exact fun named => ⟨id, r', shelf, registry', named⟩
  · rename_i elsewhere
    have other {id' : RegistryId} (shelf' : a.Shelf session' config.heapKey id') : id' ≠ id := by
      rintro rfl
      exact elsewhere (housed.apart _ _ _ _ _ shelf shelf')
    rw [housed.get?_iff]
    constructor
    · rintro ⟨id', r'', shelf', known, named⟩
      rw [registry?_setRegistry_ne (other shelf')] at known
      exact ⟨id', r'', shelf', known, named⟩
    · rintro ⟨id', r'', shelf', known, named⟩
      refine ⟨id', r'', shelf', ?_, named⟩
      rw [registry?_setRegistry_ne (other shelf')]
      exact known

/-- A session may change, if it comes to hold nothing. -/
theorem setSession (housed : a.Housed) {s s' : Session α} (found : a.session? session = some s)
    (named : s'.name = s.name) (keeps : ∀ key id, s'.heap.lookup key = some (.registry id) →
      s.heap.lookup key = some (.registry id)) : (a.setSession s').Housed := by
  have member := List.mem_of_find?_eq_some found
  refine housed.shrinks (same_setSession housed.same s') ?_ rfl (fun _ there => there)
    (fun _ _ _ files => .inl files) (.same rfl)
  rintro session' key id ⟨t, there, rfl, held⟩
  rcases mem_setSession_cases there with rfl | ⟨before, -⟩
  · exact ⟨s, member, named.symm, keeps key id held⟩
  · exact ⟨t, before, rfl, held⟩

/-- Registries may go. -/
theorem withoutRegistries (housed : a.Housed) (gone : List RegistryId) :
    { a with registries := a.registries.filter fun r => !gone.contains r.1 }.Housed := by
  have registry {id : RegistryId} {r : Named HandleId}
      (found : Agenda.registry?
        { a with registries := a.registries.filter fun r => !gone.contains r.1 } id = some r) :
      a.registry? id = some r := by
    rw [Agenda.registry?, lookup_filter] at found
    split at found
    · cases found
    · exact found
  refine housed.shrinks housed.same (fun _ _ _ shelf => shelf) rfl ?_ ?_ (.same rfl)
  · intro id there
    obtain ⟨r, found⟩ := Option.ne_none_iff_exists'.mp there
    rw [registry found]
    exact Option.some_ne_none _
  · rintro id name h ⟨r, found, member⟩
    exact .inl ⟨r, registry found, member⟩

/-- A plain value may be put on a heap. -/
theorem setHeap (housed : a.Housed) (session key : String) (value : α) :
    (a.setHeap session key (.plain value)).Housed := by
  unfold Agenda.setHeap
  split
  · exact housed
  · rename_i s found
    refine (housed.withoutRegistries _).setSession found rfl fun key' id held => ?_
    rw [lookup_putPair] at held
    split at held
    · cases held
    · exact held

theorem staying (housed : a.Housed) (stays : Session α → Bool) : (a.staying stays).Housed := by
  have member {s : Session α} (there : s ∈ (a.staying stays).sessions) : s ∈ a.sessions :=
    (List.mem_filter.mp there).1
  refine (housed.withoutRegistries (a.leaving stays)).shrinks ?_ ?_ rfl (fun _ there => there)
    (fun _ _ _ files => .inl files) (.same rfl)
  · intro s there t there'
    exact housed.same s (member there) t (member there')
  · rintro session key id ⟨s, there, named, held⟩
    exact ⟨s, member there, named, held⟩

theorem release (housed : a.Housed) (held : List String) : (a.release held).Housed := by
  unfold Agenda.release
  dsimp only
  split
  · exact housed
  · exact housed.staying _

/-! New registries. -/

/-- The opening of a registry on the heap of a session, where there was none. -/
structure Opens (a : Agenda α) (session key : String) (b : Agenda α) : Prop where
  missing : a.findRegistry session key = none
  same : ∀ s ∈ b.sessions, ∀ t ∈ b.sessions, s.name = t.name → s = t
  shelf : ∀ session' key' id, b.Shelf session' key' id ↔
    if session' = session ∧ key' = key then id = a.nextRegistry else a.Shelf session' key' id
  registry : ∀ id, b.registry? id = if id = a.nextRegistry then some .empty else a.registry? id
  next : b.nextRegistry = a.nextRegistry + 1
  handles : b.handles = a.handles

theorem opens (housed : a.Housed) {s : Session α} (found : a.session? session = some s)
    (missing : a.findRegistry session key = none) :
    Opens a session key (a.setSession { s with
      heap := putPair key (.registry a.nextRegistry) s.heap }).withRegistry := by
  generalize changed : ({ s with heap := putPair key (.registry a.nextRegistry) s.heap } :
    Session α) = s'
  have named : s'.name = session := by
    rw [← changed]
    exact (name_of_session? found : s.name = session)
  have heap (key' : String) : s'.heap.lookup key' =
      if key' = key then some (.registry a.nextRegistry) else s.heap.lookup key' := by
    rw [← changed]
    exact lookup_putPair _ _ _ _
  have fresh : a.registry? a.nextRegistry = none := by
    by_contra there
    exact absurd (housed.given _ there) (Nat.lt_irrefl _)
  refine ⟨missing, same_setSession housed.same s', fun session' key' id => ?_, fun id => ?_, rfl, rfl⟩
  · refine (shelf_setSession found named).trans ?_
    by_cases own : session' = session
    · subst own
      rw [if_pos rfl, heap, shelf_iff_of_session? housed.same found]
      by_cases here : key' = key
      · simp [here, eq_comm]
      · simp [here]
    · rw [if_neg own, if_neg fun both => own both.1]
  · refine (registry?_withRegistry (a.setSession s') id).trans ?_
    show (a.registry? id).or (if id = a.nextRegistry then some .empty else none) = _
    split
    · rename_i own
      rw [own, fresh, Option.none_or]
    · exact Option.or_none

theorem Opens.housed (opens : Opens a session key b) (housed : a.Housed) : b.Housed := by
  refine ⟨opens.same, fun session₁ key₁ session₂ key₂ id one two => ?_,
    fun session₁ key₁ id one => ?_, fun id there => ?_, fun id name h files => ?_⟩
  · rw [opens.shelf] at one two
    split at one <;> split at two
    · rename_i own own'
      exact ⟨own'.1.trans own.1.symm, own'.2.trans own.2.symm⟩
    · exact absurd one (housed.shelved _ _ _ two).ne
    · exact absurd two (housed.shelved _ _ _ one).ne
    · exact housed.apart _ _ _ _ id one two
  · rw [opens.shelf] at one
    rw [opens.next]
    split at one
    · rw [one]
      exact Nat.lt_succ_self _
    · exact Nat.lt_succ_of_lt (housed.shelved _ _ _ one)
  · rw [opens.registry] at there
    rw [opens.next]
    split at there
    · rename_i own
      rw [own]
      exact Nat.lt_succ_self _
    · exact Nat.lt_succ_of_lt (housed.given id there)
  · obtain ⟨r, known, member⟩ := files
    rw [opens.registry] at known
    rw [handle?_of_handles opens.handles]
    split at known
    · cases known
      cases member
    · exact housed.filed id name h ⟨r, known, member⟩

/-- A registry that is opened holds nothing, so that the same schedules are found as before. -/
theorem Opens.get?_eq (opens : Opens a session key b) (housed : a.Housed) (config : Config)
    (session' name : String) : b.get? config session' name = a.get? config session' name := by
  refine Option.ext fun h => ?_
  rw [(opens.housed housed).get?_iff, housed.get?_iff]
  constructor
  · rintro ⟨id, r, shelf, registry, named⟩
    rw [opens.shelf] at shelf
    rw [opens.registry] at registry
    split at shelf
    · rw [if_pos shelf] at registry
      cases registry
      cases named
    · rw [if_neg (housed.shelved _ _ _ shelf).ne] at registry
      exact ⟨id, r, shelf, registry, named⟩
  · rintro ⟨id, r, shelf, registry, named⟩
    have elsewhere : ¬(session' = session ∧ config.heapKey = key) := by
      rintro ⟨rfl, rfl⟩
      have missing := opens.missing
      rw [housed.findRegistry_iff.mpr ⟨shelf, registry⟩] at missing
      cases missing
    refine ⟨id, r, (opens.shelf _ _ _).mpr ?_, ?_, named⟩
    · rw [if_neg elsewhere]
      exact shelf
    · rw [opens.registry, if_neg (housed.shelved _ _ _ shelf).ne]
      exact registry

/-- What asking for the registry of a session comes to. -/
structure Obtains (a : Agenda α) (session key : String) (b : Agenda α) (id : RegistryId)
    (r : Named HandleId) : Prop where
  housed : b.Housed
  shelf : b.Shelf session key id
  registry : b.registry? id = some r
  get?_eq : ∀ (config : Config) (session name : String),
    b.get? config session name = a.get? config session name

theorem obtain (housed : a.Housed) (lives : session ∈ a.names)
    (obtained : a.obtainRegistry session key = (b, id, r)) : Obtains a session key b id r := by
  unfold obtainRegistry at obtained
  split at obtained
  · rename_i held
    cases obtained
    obtain ⟨shelf, registry⟩ := housed.findRegistry_iff.mp held
    exact ⟨housed, shelf, registry, fun _ _ _ => rfl⟩
  · rename_i missing
    obtain ⟨s, found⟩ := Option.ne_none_iff_exists'.mp (session?_ne_none_iff.mpr lives)
    dsimp only at obtained
    rw [setHeap_of_missing found missing] at obtained
    cases obtained
    have opens := housed.opens found missing
    refine ⟨opens.housed housed, (opens.shelf _ _ _).mpr ?_, (opens.registry _).trans ?_,
      opens.get?_eq housed⟩
    · rw [if_pos ⟨rfl, rfl⟩]
    · rw [if_pos rfl]

/-! Operations. -/

theorem cancel (housed : a.Housed) (h : HandleId) : (a.cancel h).1.Housed :=
  housed.of_holdings (holdings_cancel a h) (.moves (Moves.refl.cancel h))

theorem log (housed : a.Housed) (level : LogLevel) (message : String) :
    (a.log level message).Housed :=
  housed.of_holdings rfl (.same rfl)

theorem creates (housed : a.Housed) (creates : a.Creates handle b) : b.Housed :=
  housed.of_holdings (creates.arms.holdings creates.registry) (.creates creates)

theorem putInRegistry (housed : a.Housed) (there : a.handle? h ≠ none) (id : RegistryId)
    (name : String) : (a.putInRegistry id name h).1.Housed := by
  cases registry : a.registry? id with
  | none =>
    rw [Agenda.putInRegistry, registry]
    exact housed
  | some r =>
    obtain ⟨b, vacates, put⟩ := putInRegistry_spec registry name h
    rw [put]
    have vacated : b.Housed ∧ b.registry? id = some r ∧ a.Persists b := by
      cases vacates with
      | free | own => exact ⟨housed, registry, .same rfl⟩
      | @replaced old =>
        refine ⟨(housed.cancel old).log _ _, ?_, .moves ((Moves.refl.cancel old).log _ _)⟩
        exact (registry?_of_holdings (holdings_cancel a old) id).trans registry
    obtain ⟨housed, registry, persists⟩ := vacated
    have filed : (b.setRegistry id (r.put name h)).Housed := by
      refine housed.setRegistry registry fun e member => ?_
      rcases Named.mem_of_mem_put member with rfl | before
      · exact .inr (persists.exists there)
      · exact .inl before
    exact filed.of_holdings (holdings_file _ id h) (.quiet (quiet_file id h))

theorem cancelAll (housed : a.Housed) (hs : List HandleId) : (a.cancelAll hs).1.Housed :=
  housed.of_holdings (holdings_cancelAll a hs) (.moves (Moves.refl.cancelAll hs))

theorem popped (housed : a.Housed) {old : Option HandleId}
    (popped : a.popFromRegistry id name = (b, old)) : b.Housed := by
  cases registry : a.registry? id with
  | none =>
    rw [popFromRegistry, registry] at popped
    cases popped
    exact housed
  | some r =>
    obtain ⟨rfl, -⟩ := popped_eq popped registry
    exact housed.erase registry name

theorem clearRegistry (housed : a.Housed) (id : RegistryId) : (a.clearRegistry id).1.Housed := by
  cases registry : a.registry? id with
  | none =>
    rw [Agenda.clearRegistry, registry]
    exact housed
  | some r =>
    rw [clearRegistry_eq registry]
    exact (housed.clear registry).cancelAll _

theorem discard (housed : a.Housed) (id : RegistryId) (name : String) (h : HandleId) :
    (a.discard id name h).1.Housed := by
  unfold Agenda.discard
  split
  · exact housed
  · rename_i r registry
    split
    · exact housed.erase registry name
    · exact housed

theorem leave (housed : a.Housed) (h : HandleId) (handle : Handle α) :
    (a.leave h handle).Housed := by
  unfold Agenda.leave
  split
  · exact housed.discard _ _ h
  · exact housed

theorem remove (housed : a.Housed) (config : Config) (session name : String) :
    (a.remove config session name).1.Housed := by
  have spec := a.remove_spec config session name
  generalize a.remove config session name = removed at spec ⊢
  cases spec with
  | unheld => exact housed
  | unnamed held => exact housed.erase (registry?_of_findRegistry held) name
  | cancels held => exact ((housed.erase (registry?_of_findRegistry held) name).cancel _).log _ _

theorem removeAll (housed : a.Housed) (config : Config) (session : String) :
    (a.removeAll config session).1.Housed := by
  have spec := a.removeAll_spec config session
  generalize a.removeAll config session = removed at spec ⊢
  cases spec with
  | unheld => exact housed
  | @clears id r b n held cancelled =>
    have cleared := (housed.clear (registry?_of_findRegistry held)).cancelAll r.values
    rw [cancelled] at cleared
    exact cleared.log _ _

variable {event : String} {source : RuleSource} {args : List α} {rule : Rule} {c : Agenda α}

/-- The registry is there when the handle has been created, and the same schedules are found. -/
theorem makes (housed : a.Housed) (lives : session ∈ a.names)
    (makes : a.Makes config session name event source args rule b id r (c, .ok h)) :
    Obtains a session config.heapKey c id r ∧ c.handle? h ≠ none := by
  have obtains := housed.obtain lives makes.obtained
  obtain ⟨rfl, handle, creates, -⟩ := makes.creates
  obtain ⟨handle', found, -⟩ := label?_of_creates creates
  have holdings : c.holdings = b.holdings := creates.arms.holdings creates.registry
  refine ⟨⟨obtains.housed.creates creates, ?_, (registry?_of_holdings holdings id).trans
    obtains.registry, fun config session name => ?_⟩, ?_⟩
  · rw [Shelf, sessions_of_holdings holdings]
    exact obtains.shelf
  · rw [get?_of_holdings holdings, obtains.get?_eq]
  · rw [found]
    exact Option.some_ne_none _

theorem addSchedule (housed : a.Housed) (lives : session ∈ a.names) (config : Config)
    (name event : String) (source : RuleSource) (args : List α) :
    (a.addSchedule config session name event source args).1.Housed := by
  have spec := a.addSchedule_spec config session name event source args
  generalize a.addSchedule config session name event source args = added at spec ⊢
  cases spec with
  | invalid => exact housed
  | duplicate read obtained => exact (housed.obtain lives obtained).housed
  | fails makes =>
    obtain ⟨-, rfl⟩ := makes.unmade
    exact (housed.obtain lives makes.obtained).housed
  | stores makes =>
    obtain ⟨obtains, there⟩ := housed.makes lives makes
    exact (obtains.housed.putInRegistry there _ name).of_holdings (holdings_noteAdded _ _ _ _)
      (.quiet (quiet_noteAdded _ _ _))
  | drops makes past popped =>
    obtain ⟨obtains, -⟩ := housed.makes lives makes
    exact (obtains.housed.log _ _).popped popped
  | ends makes past popped =>
    obtain ⟨obtains, -⟩ := housed.makes lives makes
    exact (((obtains.housed.log _ _).popped popped).cancel _).log _ _

theorem serves (housed : a.Housed) {e : Entry} {served : Option (Handle α)}
    (serves : a.Serves e b served) : b.Housed := by
  refine housed.of_holdings ?_ (.serves serves)
  cases serves with
  | idles takes | drops takes | fires takes => exact takes.holdings

theorem rearm (housed : a.Housed) (h : HandleId) : (a.rearm h).1.Housed := by
  have spec := rearm_spec a h
  generalize a.rearm h = result at spec ⊢
  cases spec with
  | idle => exact housed
  | @arms handle b found armed arms =>
    have persists := Persists.arms found armed arms
    cases arms with
    | waits alike run passes handles pending nextEntry revocable tells fates holdings =>
      exact housed.of_holdings holdings persists
    | ends alike run nothing passes handles pending nextEntry revocable tells fates holdings =>
      refine (housed.leave h handle).of_holdings holdings ?_
      intro h' old found'
      exact persists h' old ((handle?_of_handles (handles_leave _ _ _) h').symm.trans found')
  | raises found => exact housed.of_holdings rfl (.sequence found)

end Housed

theorem housed_start (clock : Zoned) (revocable : Bool) (sessions : List String)
    (schedulers : List (String × Config)) :
    (start clock revocable sessions schedulers : Agenda α).Housed := by
  have bare {session key : String} {id : RegistryId} :
      ¬(start clock revocable sessions schedulers : Agenda α).Shelf session key id := by
    rintro ⟨s, there, -, held⟩
    rw [eq_empty_of_start there] at held
    cases held
  refine ⟨same_start, fun _ _ _ _ _ shelf => absurd shelf bare,
    fun _ _ _ shelf => absurd shelf bare, nofun, ?_⟩
  rintro id name h ⟨r, registry, -⟩
  cases registry

end Agenda

namespace Run

open Agenda

variable {a : Agenda α} {below : List (Activity α)} {r r' : Run α} {deeds : List (Deed α)}

theorem housed_dispatch (housed : a.Housed) (session event : String) (args : List α) :
    (dispatch a below session event args).agenda.Housed := by
  unfold dispatch
  split
  · exact housed
  · rename_i s found
    split
    · exact housed.log _ _
    · rename_i handler _
      have counted : (a.setSession { s with
          handlers := putPair event { handler with calls := handler.calls + 1 } s.handlers }).Housed :=
        housed.setSession found rfl fun _ _ => id
      exact counted.of_holdings rfl (.same rfl)

theorem housed_perform (housed : a.Housed) (below : List (Activity α)) (action : Action α) :
    (perform a below action).agenda.Housed := by
  have spec := perform_spec a below action
  generalize perform a below action = r at spec ⊢
  cases spec with
  | answers | advances => exact housed
  | jumps => exact housed.of_holdings rfl (.same rfl)
  | dispatches session event args => exact housed_dispatch housed session event args
  | on found | drops found => exact housed.setSession found rfl fun _ _ => id
  | setsHeap key value => exact housed.setHeap _ key value
  | adds lives config => exact housed.addSchedule lives config _ _ _ _
  | creates creates => exact housed.creates creates
  | removes config => exact housed.remove config _ _
  | removesAll config => exact housed.removeAll config _
  | cancels h => exact housed.cancel h
  | findsRegistry lives obtained | getsFromRegistry _ lives obtained
  | viewsRegistry _ lives obtained => exact (housed.obtain lives obtained).housed
  | @putsInRegistry _ _ b id _ name h known lives obtained =>
    have persists : a.Persists b := .moves (Moves.refl.obtained obtained)
    exact (housed.obtain lives obtained).housed.putInRegistry (persists.exists known) id name
  | @discards _ _ _ id _ name h lives obtained =>
    exact (housed.obtain lives obtained).housed.discard id name h
  | popsFromRegistry _ lives obtained => exact (housed.obtain lives obtained).housed.popped rfl
  | @clearsRegistry _ _ _ id _ lives obtained =>
    exact (housed.obtain lives obtained).housed.clearRegistry id

theorem keeps_housed : Keeps fun a : Agenda α => a.Housed where
  log level message housed := housed.log level message
  dispatch _ session event args housed := housed_dispatch housed session event args
  rearm h housed := housed.rearm h
  serves housed serves := housed.serves serves
  clock t housed := housed.of_holdings (holdings_clockAtLeast _ t) (.quiet (quiet_clockAtLeast t))
  release held housed := housed.release held

/-- Registries stay apart in every run. -/
theorem History.housed (history : History deeds r) : r.agenda.Housed := by
  induction history with
  | start clock revocable sessions schedulers => exact housed_start _ _ _ _
  | next history next ih =>
    cases next with
    | act free action => exact (housed_perform ih _ action).release _
    | step step =>
      exact keeps_housed.step ih step fun below action _ => housed_perform ih below action

end Run

end Almanac
