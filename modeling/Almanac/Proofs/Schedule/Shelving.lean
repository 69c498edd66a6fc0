import Almanac.Proofs.Schedule.Filing

set_option autoImplicit false

/-!
What keeps registries on the heaps of their sessions.

A session gets a registry when one is first asked for under a key, and keeps it. When a session is
let go its registries go too, and no others.
-/

namespace Almanac

variable {α : Type}

namespace Agenda

variable {a b : Agenda α} {h : HandleId} {id : RegistryId} {r : Named HandleId}
  {session key : String} {ended : HandleId → Prop}

/-! Sessions at the start. -/

section Start

variable {clock : Zoned} {revocable : Bool} {sessions : List String}
  {schedulers : List (String × Config)}

theorem eq_empty_of_start {s : Session α}
    (there : s ∈ (Agenda.start clock revocable sessions schedulers : Agenda α).sessions) :
    s = .empty s.name := by
  obtain ⟨name, -, rfl⟩ := List.mem_map.mp there
  rfl

theorem same_start : ∀ s ∈ (Agenda.start clock revocable sessions schedulers : Agenda α).sessions,
    ∀ t ∈ (Agenda.start clock revocable sessions schedulers : Agenda α).sessions,
      s.name = t.name → s = t := by
  intro s there t there' names
  rw [eq_empty_of_start there, eq_empty_of_start there', names]

end Start

/-! Changes of sessions. -/

theorem mem_setSession {s t : Session α} : t ∈ (a.setSession s).sessions ↔
    ∃ u ∈ a.sessions, t = if u.name = s.name then s else u := by
  simp [setSession, eq_comm]

theorem mem_setSession_cases {s t : Session α} (there : t ∈ (a.setSession s).sessions) :
    t = s ∨ t ∈ a.sessions ∧ t.name ≠ s.name := by
  obtain ⟨u, before, rfl⟩ := mem_setSession.mp there
  split
  · exact .inl rfl
  · rename_i other
    exact .inr ⟨before, other⟩

theorem same_setSession (same : ∀ s ∈ a.sessions, ∀ t ∈ a.sessions, s.name = t.name → s = t)
    (s' : Session α) : ∀ s ∈ (a.setSession s').sessions, ∀ t ∈ (a.setSession s').sessions,
      s.name = t.name → s = t := by
  intro s there t there' names
  rcases mem_setSession_cases there with rfl | ⟨before, other⟩
  · rcases mem_setSession_cases there' with rfl | ⟨-, other'⟩
    · rfl
    · exact absurd names.symm other'
  · rcases mem_setSession_cases there' with rfl | ⟨before', -⟩
    · exact absurd names other
    · exact same s before t before' names

/-- A session may get registries that no session holds, and lose none. -/
theorem Orderly.setSession (orderly : a.Orderly ended) {s s' : Session α} (member : s ∈ a.sessions)
    (named : s'.name = s.name) (keeps : s.registries ⊆ s'.registries)
    (new : ∀ id ∈ s'.registries, id ∈ s.registries ∨
      a.registry? id ≠ none ∧ ∀ t ∈ a.sessions, id ∉ t.registries) :
    (a.setSession s').Orderly ended := by
  have image {u : Session α} (there : u ∈ a.sessions) : ∃ t ∈ (a.setSession s').sessions,
      t.name = u.name ∧ u.registries ⊆ t.registries := by
    refine ⟨_, mem_setSession.mpr ⟨u, there, rfl⟩, ?_⟩
    split
    · rename_i own
      cases orderly.same u there s member (own.trans named)
      exact ⟨named, keeps⟩
    · exact ⟨rfl, List.Subset.refl _⟩
  have meets {t : Session α} {id : RegistryId} (there : t ∈ a.sessions) (holds : id ∈ s'.registries)
      (holds' : id ∈ t.registries) : s'.name = t.name := by
    rcases new id holds with old | ⟨-, fresh⟩
    · exact named.trans (orderly.apart s member t there id old holds')
    · exact absurd holds' (fresh t there)
  refine ⟨⟨same_setSession orderly.same s', ?_, ?_, orderly.given⟩, orderly.distinct, ?_, ?_⟩
  · intro t there t' there' id holds holds'
    rcases mem_setSession_cases there with rfl | ⟨before, -⟩
    · rcases mem_setSession_cases there' with rfl | ⟨before', -⟩
      · rfl
      · exact meets before' holds holds'
    · rcases mem_setSession_cases there' with rfl | ⟨before', -⟩
      · exact (meets before holds' holds).symm
      · exact orderly.apart t before t' before' id holds holds'
  · intro t there id holds
    rcases mem_setSession_cases there with rfl | ⟨before, -⟩
    · rcases new id holds with old | ⟨registered, -⟩
      · exact orderly.kept s member id old
      · exact registered
    · exact orderly.kept t before id holds
  · intro id name h stored
    obtain ⟨u, there, holds, rest⟩ := orderly.filed id name h stored
    obtain ⟨t, there, same, keeps⟩ := image there
    rw [← same] at rest
    exact ⟨t, there, keeps holds, rest⟩
  · intro h name session id labelled lives
    exact orderly.stored h name session id labelled (names_setSession a s' lives)

theorem Orderly.retains_setSession (orderly : a.Orderly ended) {s s' : Session α}
    (member : s ∈ a.sessions) (named : s'.name = s.name)
    (keeps : ∀ key id, s.heap.lookup key = some (.registry id) →
      s'.heap.lookup key = some (.registry id)) : a.Retains (a.setSession s') := by
  refine ⟨names_setSession a s', rfl, ?_, fun _ _ known => known⟩
  rintro session key id ⟨u, there, rfl, held⟩ -
  refine ⟨_, mem_setSession.mpr ⟨u, there, rfl⟩, ?_⟩
  split
  · rename_i own
    cases orderly.same u there s member (own.trans named)
    exact ⟨named, keeps key id held⟩
  · exact ⟨rfl, held⟩

theorem Tidies.setSession {s s' : Session α} (found : a.session? session = some s)
    (named : s'.name = s.name) (heap : s'.heap = s.heap) : a.Tidies (a.setSession s') := by
  intro ended orderly
  have member := List.mem_of_find?_eq_some found
  have registries : s'.registries = s.registries := by
    rw [Session.registries, heap, Session.registries]
  refine ⟨orderly.setSession member named (by rw [registries]; exact List.Subset.refl _) ?_,
    orderly.retains_setSession member named (by rw [heap]; exact fun _ _ held => held)⟩
  intro id holds
  rw [registries] at holds
  exact .inl holds

/-! New registries. -/

/-- An agenda with one more registry, which no session holds yet. -/
def withRegistry (a : Agenda α) : Agenda α :=
  { a with registries := a.registries ++ [(a.nextRegistry, .empty)], nextRegistry := a.nextRegistry + 1 }

theorem registry?_withRegistry (a : Agenda α) (id : RegistryId) : a.withRegistry.registry? id =
    (a.registry? id).or (if id = a.nextRegistry then some .empty else none) := by
  rw [Agenda.registry?, withRegistry, List.lookup_append, lookup_cons, List.lookup_nil, registry?]

theorem Orderly.withRegistry (orderly : a.Orderly ended) : a.withRegistry.Orderly ended := by
  have registry {id : RegistryId} {r : Named HandleId} (found : a.withRegistry.registry? id = some r) :
      a.registry? id = some r ∨ id = a.nextRegistry ∧ r = .empty := by
    rw [registry?_withRegistry] at found
    rcases Option.or_eq_some_iff.mp found with old | ⟨-, new⟩
    · exact .inl old
    · split at new
      · rename_i own
        exact .inr ⟨own, (Option.some.inj new).symm⟩
      · cases new
  have old {id : RegistryId} {r : Named HandleId} (found : a.registry? id = some r) :
      a.withRegistry.registry? id = some r := by
    rw [registry?_withRegistry, found, Option.some_or]
  have files {id : RegistryId} {name : String} {h : HandleId} :
      a.withRegistry.Files id name h ↔ a.Files id name h := by
    constructor
    · rintro ⟨r, found, member⟩
      rcases registry found with before | ⟨-, rfl⟩
      · exact ⟨r, before, member⟩
      · cases member
    · rintro ⟨r, found, member⟩
      exact ⟨r, old found, member⟩
  refine ⟨⟨orderly.same, orderly.apart, ?_, ?_⟩, ?_, ?_, ?_⟩
  · intro s member id holds
    obtain ⟨r, found⟩ := Option.ne_none_iff_exists'.mp (orderly.kept s member id holds)
    rw [old found]
    exact Option.some_ne_none r
  · intro id there
    obtain ⟨r, found⟩ := Option.ne_none_iff_exists'.mp there
    rcases registry found with before | ⟨rfl, -⟩
    · apply Nat.lt_succ_of_lt
      apply orderly.given id
      rw [before]
      exact Option.some_ne_none r
    · exact Nat.lt_succ_self _
  · intro id r found
    rcases registry found with before | ⟨-, rfl⟩
    · exact orderly.distinct id r before
    · exact List.nodup_nil
  · intro id name h stored
    exact orderly.filed id name h (files.mp stored)
  · intro h name session id labelled lives
    exact files.mpr (orderly.stored h name session id labelled lives)

theorem setHeap_vacant {s : Session α} (found : a.session? session = some s)
    (vacant : ∀ id, s.heap.lookup key ≠ some (.registry id)) (value : HeapValue α) :
    a.setHeap session key value = a.setSession { s with heap := putPair key value s.heap } := by
  unfold setHeap
  rw [found]
  cases held : s.heap.lookup key with
  | none => simp [held]
  | some old =>
    cases old with
    | registry id => exact absurd held (vacant id)
    | plain old => simp [held]

/-- Where no registry is found under a key none is on the heap, as it would exist. -/
theorem Orderly.vacant (orderly : a.Orderly ended) {s : Session α} (member : s ∈ a.sessions)
    (missing : a.findRegistry s.name key = none) (id : RegistryId) :
    s.heap.lookup key ≠ some (.registry id) := by
  intro held
  obtain ⟨r, registry⟩ := Option.ne_none_iff_exists'.mp
    (orderly.kept s member id (Session.mem_registries held))
  rw [orderly.findRegistry_iff.mpr ⟨⟨s, member, rfl, held⟩, registry⟩] at missing
  cases missing

theorem Orderly.registry?_new (orderly : a.Orderly ended) :
    a.withRegistry.registry? a.nextRegistry = some .empty := by
  have fresh : a.registry? a.nextRegistry = none := by
    by_contra there
    exact absurd (orderly.given _ there) (Nat.lt_irrefl _)
  rw [registry?_withRegistry, fresh, if_pos rfl, Option.none_or]

/-- A new registry may be put on the heap of a session, under a key where there is none. -/
theorem Orderly.opens (orderly : a.Orderly ended) {s s' : Session α} (member : s ∈ a.sessions)
    (vacant : ∀ id, s.heap.lookup key ≠ some (.registry id)) (named : s'.name = s.name)
    (heap : s'.heap = putPair key (.registry a.nextRegistry) s.heap) :
    (a.withRegistry.setSession s').Orderly ended ∧ a.Retains (a.withRegistry.setSession s') := by
  have keeps : s.registries ⊆ s'.registries := by
    intro id holds
    obtain ⟨key', inside⟩ := Session.mem_registries_iff.mp holds
    apply Session.mem_registries_iff.mpr
    rw [heap]
    exact ⟨key', (mem_putPair inside).resolve_right (vacant id)⟩
  have unheld : ∀ t ∈ a.sessions, a.nextRegistry ∉ t.registries :=
    fun t there holds => absurd (orderly.given _ (orderly.kept t there _ holds)) (Nat.lt_irrefl _)
  have new : ∀ id ∈ s'.registries, id ∈ s.registries ∨ a.withRegistry.registry? id ≠ none ∧
      ∀ t ∈ a.sessions, id ∉ t.registries := by
    intro id holds
    obtain ⟨key', inside⟩ := Session.mem_registries_iff.mp holds
    rw [heap] at inside
    rcases mem_of_mem_putPair inside with same | before
    · cases same
      right
      rw [orderly.registry?_new]
      exact ⟨Option.some_ne_none _, unheld⟩
    · exact .inl (Session.mem_registries_iff.mpr ⟨key', before⟩)
  have retains : a.Retains a.withRegistry := .of_sessions rfl rfl fun _ _ known => known
  refine ⟨orderly.withRegistry.setSession member named keeps new,
    retains.trans (orderly.withRegistry.retains_setSession member named fun key' id held => ?_)⟩
  rw [heap, lookup_putPair]
  split
  · rename_i here
    exact absurd held (here ▸ vacant id)
  · exact held

/-- The registry of a session under a key, which is found there or new. -/
theorem Orderly.obtain (orderly : a.Orderly ended) (lives : session ∈ a.names)
    (obtained : a.obtainRegistry session key = (b, id, r)) :
    b.Orderly ended ∧ a.Retains b ∧ b.handles = a.handles ∧ b.Shelf session key id ∧
      b.registry? id = some r ∧ (b = a ∨ r = .empty) := by
  unfold obtainRegistry at obtained
  split at obtained
  · rename_i found
    cases obtained
    obtain ⟨shelf, registry⟩ := orderly.findRegistry_iff.mp found
    exact ⟨orderly, .refl _, rfl, shelf, registry, .inl rfl⟩
  · rename_i missing
    obtain ⟨s, member, rfl⟩ := List.mem_map.mp lives
    have vacant := orderly.vacant member missing
    dsimp only at obtained
    rw [setHeap_vacant (orderly.session?_eq member) vacant] at obtained
    generalize changed : { s with heap := putPair key (.registry a.nextRegistry) s.heap } = s'
      at obtained
    have named : s'.name = s.name := by rw [← changed]
    have heap : s'.heap = putPair key (.registry a.nextRegistry) s.heap := by rw [← changed]
    have done : b = a.withRegistry.setSession s' ∧ id = a.nextRegistry ∧ r = .empty := by
      cases obtained
      exact ⟨rfl, rfl, rfl⟩
    obtain ⟨rfl, rfl, rfl⟩ := done
    obtain ⟨orderly', retains⟩ := orderly.opens member vacant named heap
    refine ⟨orderly', retains, rfl, ⟨s', mem_setSession.mpr ⟨s, member, (if_pos named.symm).symm⟩,
      named, ?_⟩, orderly.registry?_new, .inr rfl⟩
    rw [heap, lookup_putPair, if_pos rfl]

/-! Sessions that are let go. -/

theorem lookup_filter (gone : List RegistryId) (registries : List (RegistryId × Named HandleId))
    (id : RegistryId) : (registries.filter (fun e => !gone.contains e.1)).lookup id =
      if id ∈ gone then none else registries.lookup id := by
  induction registries with
  | nil => rw [List.filter_nil, List.lookup_nil, ite_self]
  | cons e registries ih =>
    obtain ⟨id', r⟩ := e
    by_cases out : id' ∈ gone
    · rw [List.filter_cons_of_neg (by simpa using out), ih, lookup_cons]
      split
      · rfl
      · rename_i stays
        rw [if_neg]
        rintro rfl
        exact stays out
    · rw [List.filter_cons_of_pos (by simpa using out), lookup_cons, lookup_cons, ih]
      by_cases own : id = id'
      · subst own
        rw [if_pos rfl, if_pos rfl, if_neg out]
      · rw [if_neg own, if_neg own]

/-- The registries of the sessions that do not stay. -/
def leaving (a : Agenda α) (stays : Session α → Bool) : List RegistryId :=
  (a.sessions.filter fun s => !stays s).flatMap Session.registries

/-- The agenda without the sessions that do not stay, and without their registries. -/
def staying (a : Agenda α) (stays : Session α → Bool) : Agenda α :=
  { a with
    sessions := a.sessions.filter stays
    registries := a.registries.filter fun r => !(a.leaving stays).contains r.1 }

theorem Shelved.mem_leaving_iff (shelved : a.Shelved) {stays : Session α → Bool} {s : Session α}
    (there : s ∈ a.sessions) (holds : id ∈ s.registries) :
    id ∈ a.leaving stays ↔ stays s = false := by
  rw [leaving, List.mem_flatMap]
  constructor
  · rintro ⟨t, out, holds'⟩
    obtain ⟨there', out⟩ := List.mem_filter.mp out
    cases shelved.same s there t there' (shelved.apart s there t there' id holds holds')
    simpa using out
  · intro out
    exact ⟨s, List.mem_filter.mpr ⟨there, by simpa using out⟩, holds⟩

/-- Letting go of sessions lets go of their registries, and of nothing else. -/
theorem Tidies.staying (a : Agenda α) (stays : Session α → Bool) : a.Tidies (a.staying stays) := by
  intro ended orderly
  have member {s : Session α} : s ∈ (a.staying stays).sessions ↔ s ∈ a.sessions ∧ stays s = true :=
    List.mem_filter
  have registry (id : RegistryId) : Agenda.registry? (a.staying stays) id =
      if id ∈ a.leaving stays then none else a.registry? id :=
    lookup_filter _ _ _
  have files {id : RegistryId} {name : String} {h : HandleId} :
      (a.staying stays).Files id name h ↔ a.Files id name h ∧ id ∉ a.leaving stays := by
    rw [Files, registry, Files]
    split <;> simp_all
  have stay {s : Session α} (there : s ∈ (a.staying stays).sessions) {id : RegistryId}
      (holds : id ∈ s.registries) : id ∉ a.leaving stays := by
    obtain ⟨there, stays'⟩ := member.mp there
    rw [orderly.mem_leaving_iff there holds, stays']
    decide
  have names : (a.staying stays).names ⊆ a.names := List.map_subset _ List.filter_sublist.subset
  refine ⟨⟨⟨?_, ?_, ?_, ?_⟩, ?_, ?_, ?_⟩, names, rfl, ?_, fun _ _ known => known⟩
  · intro s there t there'
    exact orderly.same s (member.mp there).1 t (member.mp there').1
  · intro s there t there'
    exact orderly.apart s (member.mp there).1 t (member.mp there').1
  · intro s there id holds
    rw [registry, if_neg (stay there holds)]
    exact orderly.kept s (member.mp there).1 id holds
  · intro id there
    rw [registry] at there
    split at there
    · exact absurd rfl there
    · exact orderly.given id there
  · intro id r found
    rw [registry] at found
    split at found
    · cases found
    · exact orderly.distinct id r found
  · intro id name h stored
    obtain ⟨stored, inside⟩ := files.mp stored
    obtain ⟨s, there, holds, rest⟩ := orderly.filed id name h stored
    refine ⟨s, member.mpr ⟨there, ?_⟩, holds, rest⟩
    rw [orderly.mem_leaving_iff there holds] at inside
    simpa using inside
  · intro h name session id labelled lives
    have stored := orderly.stored h name session id labelled (names lives)
    obtain ⟨s, there, holds, state, labelled', -⟩ := orderly.filed id name h stored
    have whose : session = s.name :=
      congrArg Label.session (Option.some.inj (Eq.trans labelled.symm labelled'))
    obtain ⟨t, there', named⟩ := List.mem_map.mp lives
    cases orderly.same t (member.mp there').1 s there (named.trans whose)
    exact files.mpr ⟨stored, stay there' holds⟩
  · rintro session key id ⟨s, there, rfl, held⟩ lives
    obtain ⟨t, there', same⟩ := List.mem_map.mp lives
    cases orderly.same t (member.mp there').1 s there same
    exact ⟨_, there', rfl, held⟩

theorem Tidies.release (a : Agenda α) (held : List String) : a.Tidies (a.release held) := by
  unfold Agenda.release
  dsimp only
  split
  · exact .refl a
  · exact .staying a _

end Agenda

end Almanac
