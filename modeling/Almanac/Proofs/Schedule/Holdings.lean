import Almanac.Schedule.Scheduler

set_option autoImplicit false

/-!
What sessions hold: their heaps, and the registries on these.

Most operations on handles leave all of it alone. A registry is looked up in two steps: its number on
the heap of a session, and what it holds by that number.
-/

namespace Almanac

variable {α : Type}

theorem lookup_cons {κ β : Type} [BEq κ] [LawfulBEq κ] [DecidableEq κ] (k k' : κ) (v : β)
    (es : List (κ × β)) : ((k, v) :: es).lookup k' = if k' = k then some v else es.lookup k' := by
  by_cases same : k' = k
  · simp [same]
  · rw [List.lookup_cons, beq_false_of_ne same, if_neg same]

section PutPair

variable {β : Type} {key : String} {b : β} {es : List (String × β)} {e : String × β}

theorem lookup_putPair (key : String) (b : β) (es : List (String × β)) (key' : String) :
    (putPair key b es).lookup key' = if key' = key then some b else es.lookup key' := by
  induction es with
  | nil => rw [putPair, lookup_cons, List.lookup_nil]
  | cons first es ih =>
    rw [putPair]
    split
    · rename_i here
      rw [lookup_cons, lookup_cons, here]
      split <;> rfl
    · rename_i other
      rw [lookup_cons, lookup_cons, ih]
      split
      · rename_i here
        rw [if_neg (here ▸ other)]
      · rfl

theorem mem_of_mem_putPair (member : e ∈ putPair key b es) : e = (key, b) ∨ e ∈ es := by
  induction es with
  | nil => exact .inl (List.mem_singleton.mp member)
  | cons first es ih =>
    rw [putPair] at member
    split at member
    · exact (List.mem_cons.mp member).imp_right (List.mem_cons_of_mem _)
    · rcases List.mem_cons.mp member with rfl | member
      · exact .inr List.mem_cons_self
      · exact (ih member).imp_right (List.mem_cons_of_mem _)

theorem putEntry_eq (key : String) (b : β) (es : List (String × β)) :
    Named.putEntry key b es = putPair key b es := by
  induction es with
  | nil => rfl
  | cons first es ih => rw [Named.putEntry, putPair, ih]

/-- All that was there stays, but for what is found under the key. -/
theorem mem_putPair (member : e ∈ es) : e ∈ putPair key b es ∨ es.lookup key = some e.2 := by
  induction es with
  | nil => cases member
  | cons first es ih =>
    rw [putPair, lookup_cons]
    split
    · rename_i here
      rw [if_pos here.symm]
      rcases List.mem_cons.mp member with rfl | member
      · exact .inr rfl
      · exact .inl (List.mem_cons_of_mem _ member)
    · rename_i other
      rw [if_neg (Ne.symm other)]
      rcases List.mem_cons.mp member with rfl | member
      · exact .inl List.mem_cons_self
      · exact (ih member).imp_left (List.mem_cons_of_mem _)

end PutPair

namespace Named

variable {β : Type}

theorem get?_put (r : Named β) (name : String) (b : β) (name' : String) :
    (r.put name b).get? name' = if name' = name then some b else r.get? name' := by
  rw [get?, put, putEntry_eq, lookup_putPair, get?]

theorem mem_of_mem_put {r : Named β} {name : String} {b : β} {e : String × β}
    (member : e ∈ (r.put name b).entries) : e = (name, b) ∨ e ∈ r.entries := by
  rw [put, putEntry_eq] at member
  exact mem_of_mem_putPair member

theorem get?_erase (r : Named β) (name name' : String) :
    (r.erase name).get? name' = if name' = name then none else r.get? name' := by
  unfold get? erase
  dsimp only
  induction r.entries with
  | nil => rw [List.filter_nil, List.lookup_nil, ite_self]
  | cons e es ih =>
    obtain ⟨other, b⟩ := e
    by_cases out : other = name
    · subst out
      rw [List.filter_cons_of_neg (by simp), ih, lookup_cons]
      split <;> rfl
    · rw [List.filter_cons_of_pos (by simpa using out), lookup_cons, lookup_cons, ih]
      split
      · rename_i here
        rw [if_neg (here ▸ out)]
      · rfl

end Named

namespace Agenda

/-- The sessions with their registries, and the set-up of the schedulers. -/
def holdings (a : Agenda α) :
    List (Session α) × List (RegistryId × Named HandleId) × RegistryId × List (String × Config) :=
  (a.sessions, a.registries, a.nextRegistry, a.schedulers)

variable {a b : Agenda α} {h : HandleId} {handle : Handle α}

theorem sessions_of_holdings (same : b.holdings = a.holdings) : b.sessions = a.sessions :=
  congrArg Prod.fst same

theorem registries_of_holdings (same : b.holdings = a.holdings) : b.registries = a.registries :=
  congrArg (fun held => held.2.1) same

theorem nextRegistry_of_holdings (same : b.holdings = a.holdings) :
    b.nextRegistry = a.nextRegistry :=
  congrArg (fun held => held.2.2.1) same

theorem schedulers_of_holdings (same : b.holdings = a.holdings) : b.schedulers = a.schedulers :=
  congrArg (fun held => held.2.2.2) same

@[simp] theorem holdings_record (a : Agenda α) (x : Happening α) :
    (a.record x).holdings = a.holdings := rfl

@[simp] theorem holdings_log (a : Agenda α) (level : LogLevel) (message : String) :
    (a.log level message).holdings = a.holdings := rfl

@[simp] theorem holdings_noteAdded (a : Agenda α) (name event : String) (rule : Rule) :
    (a.noteAdded name event rule).holdings = a.holdings := by
  unfold noteAdded
  split <;> rfl

@[simp] theorem holdings_setHandle (a : Agenda α) (h : HandleId) (handle : Handle α) :
    (a.setHandle h handle).holdings = a.holdings := rfl

@[simp] theorem holdings_revoke (a : Agenda α) (id : EntryId) :
    (a.revoke id).holdings = a.holdings := by
  unfold revoke
  split <;> rfl

@[simp] theorem holdings_clockAtLeast (a : Agenda α) (t : Zoned) :
    (a.clockAtLeast t).holdings = a.holdings := by
  unfold clockAtLeast
  split <;> rfl

/-- What is left when a handle leaves the registry that it knows. -/
def leave (a : Agenda α) (h : HandleId) (handle : Handle α) : Agenda α :=
  match handle.registry with
  | some id => (a.discard id handle.name h).1
  | none => a

/-- Leaving a registry changes nothing but registries. -/
theorem leave_eq (a : Agenda α) (h : HandleId) (handle : Handle α) :
    ∃ registries, a.leave h handle = { a with registries } := by
  unfold leave discard
  split
  · split
    · exact ⟨_, rfl⟩
    · split <;> exact ⟨_, rfl⟩
  · exact ⟨_, rfl⟩

theorem handles_leave (a : Agenda α) (h : HandleId) (handle : Handle α) :
    (a.leave h handle).handles = a.handles := by
  obtain ⟨registries, left⟩ := leave_eq a h handle
  rw [left]

theorem sessions_leave (a : Agenda α) (h : HandleId) (handle : Handle α) :
    (a.leave h handle).sessions = a.sessions := by
  obtain ⟨registries, left⟩ := leave_eq a h handle
  rw [left]

theorem journal_leave (a : Agenda α) (h : HandleId) (handle : Handle α) :
    (a.leave h handle).journal = a.journal := by
  obtain ⟨registries, left⟩ := leave_eq a h handle
  rw [left]

theorem holdings_setRegistry (same : b.holdings = a.holdings) (id : RegistryId)
    (r : Named HandleId) : (b.setRegistry id r).holdings = (a.setRegistry id r).holdings := by
  simp only [holdings, Prod.mk.injEq] at same
  simp [holdings, setRegistry, same]

/-- Leaving a registry concerns the registries only. -/
theorem holdings_leave (same : b.holdings = a.holdings) (h : HandleId) (handle : Handle α) :
    (b.leave h handle).holdings = (a.leave h handle).holdings := by
  have registry (id : RegistryId) : b.registry? id = a.registry? id := by
    simp only [Agenda.registry?, registries_of_holdings same]
  unfold leave discard
  split
  · simp only [registry]
    split
    · exact same
    · split
      · exact holdings_setRegistry same _ _
      · exact same
  · exact same

/-! Registries by their numbers. -/

theorem registry?_setRegistry (a : Agenda α) (id id' : RegistryId) (r : Named HandleId) :
    Agenda.registry? (a.setRegistry id r) id' =
      if id' = id then (a.registry? id).map fun _ => r else a.registry? id' := by
  unfold registry? setRegistry
  dsimp only
  induction a.registries with
  | nil => simp
  | cons e registries ih =>
    obtain ⟨n, held⟩ := e
    rw [List.map_cons, lookup_cons]
    by_cases same : n = id
    · subst same
      rw [if_pos rfl, lookup_cons, lookup_cons, if_pos rfl, ih]
      split <;> rfl
    · rw [if_neg same, lookup_cons, lookup_cons, if_neg (Ne.symm same), ih]
      split
      · rename_i here
        rw [if_neg (here ▸ same)]
      · rfl

theorem registry?_setRegistry_self {id : RegistryId} {r : Named HandleId}
    (found : a.registry? id = some r) (r' : Named HandleId) :
    Agenda.registry? (a.setRegistry id r') id = some r' := by
  rw [registry?_setRegistry, if_pos rfl, found, Option.map_some]

theorem registry?_setRegistry_ne {id id' : RegistryId} (other : id' ≠ id) (r : Named HandleId) :
    Agenda.registry? (a.setRegistry id r) id' = a.registry? id' := by
  rw [registry?_setRegistry, if_neg other]

theorem registry?_of_holdings (same : b.holdings = a.holdings) (id : RegistryId) :
    b.registry? id = a.registry? id := by
  rw [Agenda.registry?, registries_of_holdings same, registry?]

/-! Registries by session and key. -/

theorem findRegistry_eq_some_iff {session key : String} {id : RegistryId} {r : Named HandleId} :
    a.findRegistry session key = some (id, r) ↔
      (∃ s, a.session? session = some s ∧ s.heap.lookup key = some (.registry id)) ∧
        a.registry? id = some r := by
  unfold findRegistry
  constructor
  · intro found
    obtain ⟨s, named, found⟩ := Option.bind_eq_some_iff.mp found
    obtain ⟨value, heap, found⟩ := Option.bind_eq_some_iff.mp found
    cases value with
    | plain value => cases found
    | registry id' =>
      obtain ⟨r', registry, found⟩ := Option.bind_eq_some_iff.mp found
      cases found
      exact ⟨⟨s, named, heap⟩, registry⟩
  · rintro ⟨⟨s, named, heap⟩, registry⟩
    simp [named, heap, registry]

theorem registry?_of_findRegistry {session key : String} {id : RegistryId} {r : Named HandleId}
    (held : a.findRegistry session key = some (id, r)) : a.registry? id = some r :=
  (findRegistry_eq_some_iff.mp held).2

theorem get?_eq_some_iff {config : Config} {session name : String} :
    a.get? config session name = some h ↔
      ∃ id r, a.findRegistry session config.heapKey = some (id, r) ∧ r.get? name = some h := by
  simp [get?, Option.bind_eq_some_iff]

end Agenda

end Almanac
