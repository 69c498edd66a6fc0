import Almanac.Proofs.Schedule.Finality

set_option autoImplicit false

/-!
Which handles are stored in registries.

A registry that is only used through schedulers is in order. Each name in it stands for a handle of
that name, whose session holds the registry and which is armed or has been cancelled on its own; and
every armed handle that knows its registry is stored there, as long as its session exists.
-/

namespace Almanac

variable {α : Type}

/-- How a handle is filed: its name, whose it is, the registry that it knows and its state. -/
structure Label where
  name : String
  session : String
  registry : Option RegistryId
  state : HandleState

def Label.cancelled (l : Label) : Label :=
  if l.state = .armed then { l with state := .cancelled } else l

def Label.exhausted (l : Label) : Label := { l with state := .exhausted }

theorem Label.cancelled_state (l : Label) : l.cancelled.state ≠ .armed := by
  unfold cancelled
  split
  · intro same
    cases same
  · assumption

theorem Label.exhausted_state (l : Label) : l.exhausted.state ≠ .armed := by
  intro same
  cases same

theorem Label.cancelled_registry (l : Label) : l.cancelled.registry = l.registry := by
  unfold cancelled
  split <;> rfl

theorem Label.registry_map {f : Label → Label} (keeps : ∀ l, (f l).registry = l.registry)
    (l : Option Label) : (l.map f).bind registry = l.bind registry := by
  cases l with
  | none => rfl
  | some l => exact keeps l

def Handle.label (handle : Handle α) : Label :=
  ⟨handle.name, handle.session, handle.registry, handle.state⟩

theorem Session.mem_registries_iff {s : Session α} {id : RegistryId} :
    id ∈ s.registries ↔ ∃ key, (key, .registry id) ∈ s.heap := by
  rw [registries, List.mem_filterMap]
  constructor
  · rintro ⟨⟨key, value⟩, member, same⟩
    cases value with
    | registry id' =>
      cases same
      exact ⟨key, member⟩
    | plain value => cases same
  · rintro ⟨key, member⟩
    exact ⟨(key, .registry id), member, rfl⟩

theorem Session.mem_registries {s : Session α} {key : String} {id : RegistryId}
    (held : s.heap.lookup key = some (.registry id)) : id ∈ s.registries := by
  obtain ⟨before, after, split, -⟩ := List.lookup_eq_some_iff.mp held
  refine mem_registries_iff.mpr ⟨key, ?_⟩
  rw [split]
  exact List.mem_append_right before List.mem_cons_self

namespace Agenda

def label? (a : Agenda α) (h : HandleId) : Option Label := (a.handle? h).map Handle.label

/-- The registry that a handle knows. -/
def known? (a : Agenda α) (h : HandleId) : Option RegistryId := (a.label? h).bind Label.registry

/-- A registry holds a handle under a name. -/
def Files (a : Agenda α) (id : RegistryId) (name : String) (h : HandleId) : Prop :=
  ∃ r, a.registry? id = some r ∧ (name, h) ∈ r.entries

/-- A session holds a registry under a key. -/
def Shelf (a : Agenda α) (session key : String) (id : RegistryId) : Prop :=
  ∃ s ∈ a.sessions, s.name = session ∧ s.heap.lookup key = some (.registry id)

/-- The order of the registries that sessions hold. -/
structure Shelved (a : Agenda α) : Prop where
  same : ∀ s ∈ a.sessions, ∀ t ∈ a.sessions, s.name = t.name → s = t
  apart : ∀ s ∈ a.sessions, ∀ t ∈ a.sessions, ∀ id ∈ s.registries, id ∈ t.registries →
    s.name = t.name
  kept : ∀ s ∈ a.sessions, ∀ id ∈ s.registries, a.registry? id ≠ none
  given : ∀ id, a.registry? id ≠ none → id < a.nextRegistry

/-- The order of registries and handles. Handles that `ended` tells of may still be stored when they
have been cancelled. -/
structure Orderly (ended : HandleId → Prop) (a : Agenda α) : Prop extends Shelved a where
  distinct : ∀ id r, a.registry? id = some r → r.names.Nodup
  filed : ∀ id name h, a.Files id name h → ∃ s ∈ a.sessions, id ∈ s.registries ∧
    ∃ state, a.label? h = some ⟨name, s.name, some id, state⟩ ∧
      (state = .armed ∨ state = .cancelled ∧ ended h)
  stored : ∀ h name session id, a.label? h = some ⟨name, session, some id, .armed⟩ →
    session ∈ a.names → a.Files id name h

/-- What is never lost: the set-up of schedulers, the registries of sessions that still exist, and
which registry a handle knows. -/
structure Retains (a b : Agenda α) : Prop where
  names : b.names ⊆ a.names
  schedulers : b.schedulers = a.schedulers
  shelves : ∀ session key id, a.Shelf session key id → session ∈ b.names → b.Shelf session key id
  known : ∀ h id, a.known? h = some id → b.known? h = some id

/-- A change that leaves registries in order and loses nothing. -/
def Tidies (a b : Agenda α) : Prop :=
  ∀ ended, a.Orderly ended → b.Orderly ended ∧ a.Retains b

variable {a b c : Agenda α} {h : HandleId} {handle handle' : Handle α} {id : RegistryId}
  {r r' : Named HandleId} {name session key : String} {ended : HandleId → Prop}

/-! Labels. -/

theorem label?_of_handles (handles : b.handles = a.handles) (h : HandleId) :
    b.label? h = a.label? h := by
  rw [label?, handle?_of_handles handles, label?]

@[simp] theorem label?_log (a : Agenda α) (level : LogLevel) (message : String) (h : HandleId) :
    (a.log level message).label? h = a.label? h := rfl

@[simp] theorem label?_setRegistry (a : Agenda α) (id : RegistryId) (r : Named HandleId)
    (h : HandleId) : (a.setRegistry id r).label? h = a.label? h := rfl

theorem label?_set (found : a.handle? h = some handle) (handles : b.handles = a.handles.set h handle')
    (h' : HandleId) : b.label? h' = if h' = h then some handle'.label else a.label? h' := by
  split
  · rename_i same
    subst same
    rw [label?, handle?_set_self handles (lt_of_handle? found), Option.map_some]
  · rename_i other
    rw [label?, handle?_set_ne handles other, label?]

theorem label?_setHandle (found : a.handle? h = some handle) (h' : HandleId) :
    (a.setHandle h handle').label? h' = if h' = h then some handle'.label else a.label? h' := by
  have handles : (a.setHandle h handle').handles = a.handles.set h handle' := rfl
  exact label?_set found handles h'

/-- Setting a handle to one with the same label changes none. -/
theorem label?_set_same (found : a.handle? h = some handle)
    (handles : b.handles = a.handles.set h handle') (same : handle'.label = handle.label)
    (h' : HandleId) : b.label? h' = a.label? h' := by
  rw [label?_set found handles]
  split
  · rename_i own
    subst own
    rw [same, label?, found, Option.map_some]
  · rfl

theorem label?_cancel (a : Agenda α) (h h' : HandleId) : (a.cancel h).1.label? h' =
    if h = h' then (a.label? h').map Label.cancelled else a.label? h' := by
  rcases cancel_spec a h with ⟨same, idle⟩ | ⟨-, handle, cancels⟩
  · rw [same]
    split
    · rename_i own
      subst own
      cases found : a.handle? h with
      | none => rw [label?, found, Option.map_none, Option.map_none]
      | some handle =>
        have idle : handle.label.state ≠ .armed := idle handle found
        rw [label?, found, Option.map_some, Option.map_some, Label.cancelled, if_neg idle]
    · rfl
  · by_cases own : h = h'
    · subst own
      have armed : handle.label.state = .armed := cancels.armed
      rw [label?_set cancels.found cancels.handles, if_pos rfl, if_pos rfl, label?, cancels.found,
        Option.map_some, Option.map_some, Label.cancelled, if_pos armed]
      rfl
    · rw [label?_set cancels.found cancels.handles, if_neg (Ne.symm own), if_neg own]

@[simp] theorem holdings_cancel (a : Agenda α) (h : HandleId) :
    (a.cancel h).1.holdings = a.holdings := by
  rcases cancel_spec a h with ⟨same, -⟩ | ⟨-, handle, cancels⟩
  · rw [same]
  · exact cancels.holdings

theorem label?_cancelAll (a : Agenda α) (hs : List HandleId) (h : HandleId) :
    (a.cancelAll hs).1.label? h = if h ∈ hs then (a.label? h).map Label.cancelled else a.label? h := by
  induction hs generalizing a with
  | nil => rfl
  | cons first hs ih =>
    have rest : (a.cancelAll (first :: hs)).1 = ((a.cancel first).1.cancelAll hs).1 := rfl
    have twice (l : Label) : l.cancelled.cancelled = l.cancelled := if_neg l.cancelled_state
    rw [rest, ih, label?_cancel]
    by_cases own : first = h
    · subst own
      simp [Function.comp_def, twice]
    · simp [own, Ne.symm own]

@[simp] theorem holdings_cancelAll (a : Agenda α) (hs : List HandleId) :
    (a.cancelAll hs).1.holdings = a.holdings := by
  induction hs generalizing a with
  | nil => rfl
  | cons first hs ih => exact (ih _).trans (holdings_cancel a first)

/-! Where no two sessions have the same name. -/

section Same

variable (same : ∀ s ∈ a.sessions, ∀ t ∈ a.sessions, s.name = t.name → s = t)
include same

theorem session?_of_mem {s : Session α} (member : s ∈ a.sessions) : a.session? s.name = some s := by
  cases found : a.session? s.name with
  | none => exact absurd found (session?_ne_none_iff.mpr (List.mem_map_of_mem member))
  | some t =>
    rw [same t (List.mem_of_find?_eq_some found) s member (name_of_session? found)]

theorem findRegistry_iff_shelf :
    a.findRegistry session key = some (id, r) ↔ a.Shelf session key id ∧ a.registry? id = some r := by
  rw [findRegistry_eq_some_iff]
  refine and_congr_left fun _ => ⟨?_, ?_⟩
  · rintro ⟨s, found, held⟩
    exact ⟨s, List.mem_of_find?_eq_some found, name_of_session? found, held⟩
  · rintro ⟨s, member, rfl, held⟩
    exact ⟨s, session?_of_mem same member, held⟩

theorem get?_iff_shelf {config : Config} : a.get? config session name = some h ↔
    ∃ id r, a.Shelf session config.heapKey id ∧ a.registry? id = some r ∧ r.get? name = some h := by
  simp only [get?_eq_some_iff, findRegistry_iff_shelf same, and_assoc]

end Same

/-! What follows from order. -/

namespace Orderly

theorem mono {ended' : HandleId → Prop} (orderly : a.Orderly ended) (more : ∀ h, ended h → ended' h) :
    a.Orderly ended' := by
  refine { orderly with filed := fun id name h files => ?_ }
  obtain ⟨s, member, holds, state, labelled, live⟩ := orderly.filed id name h files
  exact ⟨s, member, holds, state, labelled, live.imp_right (And.imp_right (more h))⟩

theorem known (orderly : a.Orderly ended) (files : a.Files id name h) : a.known? h = some id := by
  obtain ⟨s, -, -, state, labelled, -⟩ := orderly.filed id name h files
  rw [known?, labelled]
  rfl

theorem named (orderly : a.Orderly ended) (files : a.Files id name h) :
    (a.label? h).map Label.name = some name := by
  obtain ⟨s, -, -, state, labelled, -⟩ := orderly.filed id name h files
  rw [labelled]
  rfl

theorem not_files (orderly : a.Orderly ended) (new : a.known? h = none) : ¬a.Files id name h := by
  intro files
  rw [orderly.known files] at new
  cases new

/-- A handle is stored at most once. -/
theorem files_unique {id' : RegistryId} {name' : String} (orderly : a.Orderly ended)
    (files : a.Files id name h) (files' : a.Files id' name' h) : id' = id ∧ name' = name := by
  have same := (orderly.known files').symm.trans (orderly.known files)
  have same' := (orderly.named files').symm.trans (orderly.named files)
  exact ⟨Option.some.inj same, Option.some.inj same'⟩

theorem get?_ne_iff {name' : String} (orderly : a.Orderly ended) (registry : a.registry? id = some r)
    (member : (name', h) ∈ r.entries) : r.get? name ≠ some h ↔ name' ≠ name := by
  refine not_congr ⟨fun named => ?_, ?_⟩
  · exact (orderly.files_unique ⟨r, registry, Named.mem_of_get? named⟩ ⟨r, registry, member⟩).2
  · rintro rfl
    exact Named.get?_of_mem (orderly.distinct id r registry) member

theorem session?_eq (orderly : a.Orderly ended) {s : Session α} (member : s ∈ a.sessions) :
    a.session? s.name = some s :=
  session?_of_mem orderly.same member

theorem findRegistry_iff (orderly : a.Orderly ended) :
    a.findRegistry session key = some (id, r) ↔ a.Shelf session key id ∧ a.registry? id = some r :=
  findRegistry_iff_shelf orderly.same

theorem get?_iff (orderly : a.Orderly ended) {config : Config} :
    a.get? config session name = some h ↔
      ∃ id, a.Shelf session config.heapKey id ∧ a.Files id name h := by
  rw [get?_iff_shelf orderly.same]
  constructor
  · rintro ⟨id, r, shelf, registry, named⟩
    exact ⟨id, shelf, r, registry, Named.mem_of_get? named⟩
  · rintro ⟨id, shelf, r, registry, member⟩
    exact ⟨id, r, shelf, registry, Named.get?_of_mem (orderly.distinct id r registry) member⟩

end Orderly

theorem Retains.refl (a : Agenda α) : a.Retains a :=
  ⟨List.Subset.refl _, rfl, fun _ _ _ shelf _ => shelf, fun _ _ known => known⟩

theorem Retains.trans (retains : a.Retains b) (retains' : b.Retains c) : a.Retains c := by
  refine ⟨List.Subset.trans retains'.names retains.names,
    retains'.schedulers.trans retains.schedulers, ?_, ?_⟩
  · intro session key id shelf lives
    exact retains'.shelves _ _ _ (retains.shelves _ _ _ shelf (retains'.names lives)) lives
  · intro h id known
    exact retains'.known h id (retains.known h id known)

theorem Tidies.refl (a : Agenda α) : a.Tidies a := fun _ orderly => ⟨orderly, .refl a⟩

theorem Tidies.trans (tidies : a.Tidies b) (tidies' : b.Tidies c) : a.Tidies c := by
  intro ended orderly
  obtain ⟨orderly, retains⟩ := tidies ended orderly
  obtain ⟨orderly, retains'⟩ := tidies' ended orderly
  exact ⟨orderly, retains.trans retains'⟩

/-! Changes of registries and labels. -/

theorem Retains.of_sessions (sessions : b.sessions = a.sessions)
    (schedulers : b.schedulers = a.schedulers)
    (known : ∀ h id, a.known? h = some id → b.known? h = some id) : a.Retains b := by
  refine ⟨names_subset sessions, schedulers, ?_, known⟩
  intro session key id shelf _
  rw [Shelf, sessions]
  exact shelf

theorem Shelved.present (shelved : a.Shelved) (sessions : b.sessions = a.sessions)
    (next : b.nextRegistry = a.nextRegistry)
    (present : ∀ id, b.registry? id ≠ none ↔ a.registry? id ≠ none) : b.Shelved := by
  refine ⟨?_, ?_, ?_, ?_⟩
  · rw [sessions]
    exact shelved.same
  · rw [sessions]
    exact shelved.apart
  · intro s member id holds
    rw [sessions] at member
    exact (present id).mpr (shelved.kept s member id holds)
  · intro id there
    rw [next]
    exact shelved.given id ((present id).mp there)

theorem files_of_holdings (same : b.holdings = a.holdings) :
    b.Files id name h ↔ a.Files id name h := by
  rw [Files, registry?_of_holdings same, Files]

/-- Labels may change where no registry stores their handles, but for those of handles that have
ended, which are cancelled. -/
theorem Orderly.relabel (orderly : a.Orderly ended) (holdings : b.holdings = a.holdings)
    (filed : ∀ id name h, a.Files id name h → b.label? h = a.label? h ∨
      ended h ∧ b.label? h = (a.label? h).map Label.cancelled)
    (armed : ∀ h name session id, b.label? h = some ⟨name, session, some id, .armed⟩ →
      a.label? h = some ⟨name, session, some id, .armed⟩)
    (known : ∀ h id, a.known? h = some id → b.known? h = some id) :
    b.Orderly ended ∧ a.Retains b := by
  have sessions := sessions_of_holdings holdings
  have registry := registry?_of_holdings holdings
  refine ⟨{ orderly.toShelved.present sessions (nextRegistry_of_holdings holdings) ?_ with
    distinct := ?_, filed := ?_, stored := ?_ },
    .of_sessions sessions (schedulers_of_holdings holdings) known⟩
  · intro id
    rw [registry]
  · intro id r found
    rw [registry] at found
    exact orderly.distinct id r found
  · intro id name h files
    rw [files_of_holdings holdings] at files
    obtain ⟨s, member, holds, state, labelled, live⟩ := orderly.filed id name h files
    rw [sessions]
    rcases filed id name h files with same | ⟨past, cancelled⟩
    · exact ⟨s, member, holds, state, same.trans labelled, live⟩
    · refine ⟨s, member, holds, .cancelled, ?_, .inr ⟨rfl, past⟩⟩
      rw [cancelled, labelled, Option.map_some, Label.cancelled]
      rcases live with rfl | ⟨rfl, -⟩ <;> rfl
  · intro h name session id labelled lives
    rw [files_of_holdings holdings]
    rw [names, sessions] at lives
    exact orderly.stored h name session id (armed h name session id labelled) lives

/-- A change of the entries of one registry, and of no other holdings. -/
structure Refills (a : Agenda α) (id : RegistryId) (r' : Named HandleId) (b : Agenda α) : Prop where
  sessions : b.sessions = a.sessions
  nextRegistry : b.nextRegistry = a.nextRegistry
  schedulers : b.schedulers = a.schedulers
  present : a.registry? id ≠ none
  self : b.registry? id = some r'
  others : ∀ id' ≠ id, b.registry? id' = a.registry? id'

theorem refills_of_holdings (registry : a.registry? id = some r)
    (holdings : b.holdings = (a.setRegistry id r').holdings) : a.Refills id r' b := by
  refine ⟨(sessions_of_holdings holdings).trans rfl, (nextRegistry_of_holdings holdings).trans rfl,
    (schedulers_of_holdings holdings).trans rfl, ?_, ?_, fun id' other => ?_⟩
  · rw [registry]
    exact Option.some_ne_none r
  · exact (registry?_of_holdings holdings id).trans (registry?_setRegistry_self registry r')
  · exact (registry?_of_holdings holdings id').trans (registry?_setRegistry_ne other r')

theorem Shelved.refills (shelved : a.Shelved) (refills : a.Refills id r' b) : b.Shelved := by
  refine shelved.present refills.sessions refills.nextRegistry fun id' => ?_
  by_cases own : id' = id
  · subst own
    rw [refills.self]
    exact iff_of_true (Option.some_ne_none r') refills.present
  · rw [refills.others id' own]

theorem Orderly.distinct_refills (orderly : a.Orderly ended) (refills : a.Refills id r' b)
    (distinct : r'.names.Nodup) (id' : RegistryId) (r : Named HandleId)
    (found : b.registry? id' = some r) : r.names.Nodup := by
  by_cases own : id' = id
  · subst own
    cases refills.self.symm.trans found
    exact distinct
  · rw [refills.others id' own] at found
    exact orderly.distinct id' r found

/-- What is stored once handles have been taken out of a registry. -/
theorem Orderly.files_erased {out : HandleId → Prop} (orderly : a.Orderly ended)
    (registry : a.registry? id = some r) (entries : ∀ e, e ∈ r'.entries ↔ e ∈ r.entries ∧ ¬out e.2)
    (inside : ∀ h, out h → ∃ name, (name, h) ∈ r.entries) (refills : a.Refills id r' b)
    {id' : RegistryId} : b.Files id' name h ↔ a.Files id' name h ∧ ¬out h := by
  by_cases own : id' = id
  · subst own
    simp [Files, refills.self, registry, entries]
  · rw [Files, refills.others id' own, Files]
    refine ⟨fun files => ⟨files, fun gone => ?_⟩, And.left⟩
    obtain ⟨name', member⟩ := inside h gone
    exact own (orderly.files_unique ⟨r, registry, member⟩ files).1

/-- What is stored once a handle has been put in a registry. -/
theorem Orderly.files_put (orderly : a.Orderly ended) (registry : a.registry? id = some r)
    (refills : a.Refills id (r.put name h) b) {id' : RegistryId} {name' : String} {h' : HandleId} :
    b.Files id' name' h' ↔
      id' = id ∧ name' = name ∧ h' = h ∨ a.Files id' name' h' ∧ r.get? name ≠ some h' := by
  by_cases own : id' = id
  · subst own
    have stored : b.Files id' name' h' ↔ (name', h') ∈ (r.put name h).entries := by
      simp [Files, refills.self]
    have before : a.Files id' name' h' ↔ (name', h') ∈ r.entries := by
      simp [Files, registry]
    rw [stored, before, Named.mem_put (orderly.distinct id' r registry), Prod.mk.injEq,
      and_congr_right (orderly.get?_ne_iff registry)]
    simp only [true_and]
  · have spared (before : a.Files id' name' h') : r.get? name ≠ some h' := by
      intro named
      exact own (orderly.files_unique ⟨r, registry, Named.mem_of_get? named⟩ before).1
    rw [Files, refills.others id' own, ← Files]
    exact ⟨fun before => .inr ⟨before, spared before⟩,
      fun after => after.elim (fun same => absurd same.1 own) And.left⟩

/-- Handles may be taken out of a registry and end. -/
theorem Orderly.erase {out : HandleId → Prop} [DecidablePred out] {ending : Label → Label}
    (orderly : a.Orderly ended) (registry : a.registry? id = some r) (distinct : r'.names.Nodup)
    (entries : ∀ e, e ∈ r'.entries ↔ e ∈ r.entries ∧ ¬out e.2)
    (inside : ∀ h, out h → ∃ name, (name, h) ∈ r.entries)
    (holdings : b.holdings = (a.setRegistry id r').holdings)
    (labels : ∀ h, b.label? h = if out h then (a.label? h).map ending else a.label? h)
    (ends : ∀ l, (ending l).state ≠ .armed) (keeps : ∀ l, (ending l).registry = l.registry) :
    b.Orderly ended ∧ a.Retains b := by
  have refills := refills_of_holdings registry holdings
  have files {id' : RegistryId} {name : String} {h : HandleId} :
      b.Files id' name h ↔ a.Files id' name h ∧ ¬out h :=
    orderly.files_erased registry entries inside refills
  refine ⟨⟨orderly.toShelved.refills refills, orderly.distinct_refills refills distinct, ?_, ?_⟩,
    .of_sessions refills.sessions refills.schedulers ?_⟩
  · intro id' name h stays
    obtain ⟨before, stays⟩ := files.mp stays
    rw [refills.sessions, labels, if_neg stays]
    exact orderly.filed id' name h before
  · intro h name session id' labelled lives
    rw [names, refills.sessions] at lives
    rw [labels] at labelled
    split at labelled
    · obtain ⟨l, -, same⟩ := Option.map_eq_some_iff.mp labelled
      exact absurd (congrArg Label.state same) (ends l)
    · rename_i stays
      exact files.mpr ⟨orderly.stored h name session id' labelled lives, stays⟩
  · intro h id' known
    rw [known?, labels]
    split
    · rw [Label.registry_map keeps]
      exact known
    · exact known

theorem handle?_cancel_ne {h' : HandleId} (other : h' ≠ h) :
    (a.cancel h).1.handle? h' = a.handle? h' := by
  rcases cancel_spec a h with ⟨same, -⟩ | ⟨-, handle, cancels⟩
  · rw [same]
  · exact handle?_set_ne cancels.handles other

/-- The handle that makes way is cancelled. -/
theorem Vacates.effect (vacates : a.Vacates r name h b) (new : r.get? name ≠ some h) :
    b.holdings = a.holdings ∧ b.handle? h = a.handle? h ∧ ∀ h', b.label? h' =
      if r.get? name = some h' then (a.label? h').map Label.cancelled else a.label? h' := by
  cases vacates with
  | free named =>
    refine ⟨rfl, rfl, fun h' => ?_⟩
    rw [named, if_neg (Option.some_ne_none h').symm]
  | own named => exact absurd named new
  | @replaced old named other =>
    refine ⟨holdings_cancel a old, handle?_cancel_ne other.symm, fun h' => ?_⟩
    simpa [named] using label?_cancel a old h'

theorem putInRegistry_effect (registry : a.registry? id = some r) (found : a.handle? h = some handle)
    (new : r.get? name ≠ some h) :
    (a.putInRegistry id name h).1.holdings = (a.setRegistry id (r.put name h)).holdings ∧
      ∀ h', (a.putInRegistry id name h).1.label? h' =
        if h' = h then some ⟨handle.name, handle.session, some id, handle.state⟩
        else if r.get? name = some h' then (a.label? h').map Label.cancelled else a.label? h' := by
  obtain ⟨b, vacates, put⟩ := putInRegistry_spec registry name h
  obtain ⟨holdings, kept, labels⟩ := vacates.effect new
  have found' : (b.setRegistry id (r.put name h)).handle? h = some handle := kept.trans found
  rw [put]
  dsimp only
  rw [file_eq found']
  refine ⟨holdings_setRegistry holdings _ _, fun h' => ?_⟩
  rw [label?_setHandle found', label?_setRegistry, labels]
  rfl

/-- An armed handle that knows no registry yet may be stored in one of its session. -/
theorem Orderly.put (orderly : a.Orderly ended) (registry : a.registry? id = some r) {s : Session α}
    (member : s ∈ a.sessions) (holds : id ∈ s.registries) (found : a.handle? h = some handle)
    (label : handle.label = ⟨name, s.name, none, .armed⟩) :
    (a.putInRegistry id name h).1.Orderly ended ∧ a.Retains (a.putInRegistry id name h).1 ∧
      (a.putInRegistry id name h).1.label? h = some ⟨name, s.name, some id, .armed⟩ := by
  have new : a.label? h = some ⟨name, s.name, none, .armed⟩ := by
    rw [label?, found, Option.map_some, label]
  have unknown : a.known? h = none := by
    rw [known?, new]
    rfl
  have stands : Label.mk handle.name handle.session (some id) handle.state =
      ⟨name, s.name, some id, .armed⟩ :=
    congrArg (fun l : Label => { l with registry := some id }) label
  obtain ⟨holdings, labels⟩ := putInRegistry_effect registry found
    fun named => orderly.not_files unknown ⟨r, registry, Named.mem_of_get? named⟩
  rw [stands] at labels
  generalize (a.putInRegistry id name h).1 = b at holdings labels ⊢
  have refills := refills_of_holdings registry holdings
  refine ⟨⟨orderly.toShelved.refills refills,
    orderly.distinct_refills refills (Named.nodup_put (orderly.distinct id r registry)), ?_, ?_⟩,
    .of_sessions refills.sessions refills.schedulers ?_, (labels h).trans (if_pos rfl)⟩
  · intro id' name' h' stored
    rw [refills.sessions, labels]
    rcases (orderly.files_put registry refills).mp stored with ⟨rfl, rfl, rfl⟩ | ⟨before, stays⟩
    · rw [if_pos rfl]
      exact ⟨s, member, holds, .armed, rfl, .inl rfl⟩
    · have other : h' ≠ h := by
        rintro rfl
        exact orderly.not_files unknown before
      rw [if_neg other, if_neg stays]
      exact orderly.filed id' name' h' before
  · intro h' name' session id' labelled lives
    rw [names, refills.sessions] at lives
    rw [labels] at labelled
    split at labelled
    · rename_i own
      cases labelled
      exact (orderly.files_put registry refills).mpr (.inl ⟨rfl, rfl, own⟩)
    · split at labelled
      · obtain ⟨l, -, same⟩ := Option.map_eq_some_iff.mp labelled
        exact absurd (congrArg Label.state same) l.cancelled_state
      · rename_i stays
        have before := orderly.stored h' name' session id' labelled lives
        exact (orderly.files_put registry refills).mpr (.inr ⟨before, stays⟩)
  · intro h' id' known
    have other : h' ≠ h := by
      rintro rfl
      rw [unknown] at known
      cases known
    rw [known?, labels, if_neg other]
    split
    · rw [Label.registry_map Label.cancelled_registry]
      exact known
    · exact known

end Agenda

end Almanac
