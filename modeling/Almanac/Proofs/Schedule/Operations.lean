import Almanac.Proofs.Schedule.Holdings

set_option autoImplicit false

/-!
What the operations of a scheduler come to.

An operation ends in one of a few ways, by what the session has under the key of the scheduler and
what is stored there under the name. Each way is told with all that leads to it. Whatever is said of
an operation follows from these, so nothing else has to look into the operations.
-/

namespace Almanac

variable {α : Type}

namespace Agenda

variable {a : Agenda α} {id : RegistryId} {r : Named HandleId}

/-! Registries. -/

theorem popFromRegistry_eq (registry : a.registry? id = some r) (name : String) :
    a.popFromRegistry id name = (a.setRegistry id (r.erase name), r.get? name) := by
  rw [popFromRegistry, registry]

theorem popped_eq {name : String} {b : Agenda α} {old : Option HandleId}
    (popped : a.popFromRegistry id name = (b, old)) (registry : a.registry? id = some r) :
    b = a.setRegistry id (r.erase name) ∧ r.get? name = old := by
  rw [popFromRegistry_eq registry] at popped
  exact (Prod.mk.inj popped).imp_left Eq.symm

theorem clearRegistry_eq (registry : a.registry? id = some r) :
    a.clearRegistry id = (a.setRegistry id .empty).cancelAll r.values := by
  rw [clearRegistry, registry]

/-- What is left when a name is made free for a handle. -/
inductive Vacates (a : Agenda α) (r : Named HandleId) (name : String) (h : HandleId) :
    Agenda α → Prop where
  | free (named : r.get? name = none) : Vacates a r name h a
  | own (named : r.get? name = some h) : Vacates a r name h a
  | replaced {old : HandleId} (named : r.get? name = some old) (other : old ≠ h) :
      Vacates a r name h
        ((a.cancel old).1.log .info ("Schedule " ++ Text.quoted name ++ " replaced"))

/-- The agenda once a handle knows its registry. -/
def file (a : Agenda α) (id : RegistryId) (h : HandleId) : Agenda α :=
  match a.handle? h with
  | some handle => a.setHandle h { handle with registry := some id }
  | none => a

theorem file_eq {h : HandleId} {handle : Handle α} (found : a.handle? h = some handle) :
    a.file id h = a.setHandle h { handle with registry := some id } := by
  rw [file, found]

@[simp] theorem holdings_file (a : Agenda α) (id : RegistryId) (h : HandleId) :
    (a.file id h).holdings = a.holdings := by
  unfold file
  split <;> rfl

theorem putInRegistry_spec (registry : a.registry? id = some r) (name : String) (h : HandleId) :
    ∃ b, a.Vacates r name h b ∧
      a.putInRegistry id name h = ((b.setRegistry id (r.put name h)).file id h, r.get? name) := by
  unfold putInRegistry
  simp only [registry]
  cases named : r.get? name with
  | none => exact ⟨a, .free named, rfl⟩
  | some old =>
    dsimp only
    by_cases own : old = h
    · rw [own] at named
      refine ⟨a, .own named, ?_⟩
      simp only [own, if_true]
      rfl
    · refine ⟨_, .replaced named own, ?_⟩
      simp only [if_neg own]
      rfl

/-! Removing. -/

/-- What removing a name comes to. -/
inductive Removes (a : Agenda α) (config : Config) (session name : String) :
    Agenda α × Bool → Prop where
  | unheld (held : a.findRegistry session config.heapKey = none) :
      Removes a config session name (a, false)
  | unnamed {id : RegistryId} {r : Named HandleId}
      (held : a.findRegistry session config.heapKey = some (id, r))
      (named : r.get? name = none) :
      Removes a config session name (a.setRegistry id (r.erase name), false)
  | cancels {id : RegistryId} {r : Named HandleId} {h : HandleId}
      (held : a.findRegistry session config.heapKey = some (id, r))
      (named : r.get? name = some h) :
      Removes a config session name
        (((a.setRegistry id (r.erase name)).cancel h).1.log .info
            ("Schedule " ++ Text.quoted name ++ " removed"),
          ((a.setRegistry id (r.erase name)).cancel h).2)

theorem remove_spec (a : Agenda α) (config : Config) (session name : String) :
    a.Removes config session name (a.remove config session name) := by
  unfold remove
  cases held : a.findRegistry session config.heapKey with
  | none => exact .unheld held
  | some found =>
    obtain ⟨id, r⟩ := found
    dsimp only
    rw [popFromRegistry_eq (registry?_of_findRegistry held)]
    cases named : r.get? name with
    | none => exact .unnamed held named
    | some h => exact .cancels held named

/-- Removing the name of a stored handle cancels it. -/
theorem remove_stored {config : Config} {session name : String} {h : HandleId}
    (stored : a.get? config session name = some h) :
    ∃ (id : RegistryId) (r : Named HandleId) (message : String), a.remove config session name =
      (((a.setRegistry id (r.erase name)).cancel h).1.log .info message,
        ((a.setRegistry id (r.erase name)).cancel h).2) := by
  obtain ⟨id, r, held, named⟩ := get?_eq_some_iff.mp stored
  have spec := a.remove_spec config session name
  generalize a.remove config session name = removed at spec ⊢
  cases spec with
  | unheld held' => cases held.symm.trans held'
  | unnamed held' named' =>
    cases held.symm.trans held'
    cases named.symm.trans named'
  | cancels held' named' =>
    cases held.symm.trans held'
    cases named.symm.trans named'
    exact ⟨id, r, _, rfl⟩

/-- What removing all names comes to. -/
inductive RemovesAll (a : Agenda α) (config : Config) (session : String) :
    Agenda α × Nat → Prop where
  | unheld (held : a.findRegistry session config.heapKey = none) :
      RemovesAll a config session (a, 0)
  | clears {id : RegistryId} {r : Named HandleId} {b : Agenda α} {n : Nat}
      (held : a.findRegistry session config.heapKey = some (id, r))
      (cancelled : (a.setRegistry id .empty).cancelAll r.values = (b, n)) :
      RemovesAll a config session (b.log .info ("Removed " ++ toString n ++ " schedules"), n)

theorem removeAll_spec (a : Agenda α) (config : Config) (session : String) :
    a.RemovesAll config session (a.removeAll config session) := by
  unfold removeAll
  cases held : a.findRegistry session config.heapKey with
  | none => exact .unheld held
  | some found =>
    obtain ⟨id, r⟩ := found
    dsimp only
    rw [clearRegistry_eq (registry?_of_findRegistry held)]
    exact .clears held rfl

/-! Adding. -/

theorem obtainRegistry_eq {session key : String} (held : a.findRegistry session key = some (id, r)) :
    a.obtainRegistry session key = (a, id, r) := by
  rw [obtainRegistry, held]

/-- The first part of adding a schedule, up to what creating its handle comes to: the rule is read,
the registry is obtained, and the name is free there or may be replaced. -/
structure Makes (a : Agenda α) (config : Config) (session name event : String) (source : RuleSource)
    (args : List α) (rule : Rule) (b : Agenda α) (id : RegistryId) (r : Named HandleId)
    (made : Agenda α × Except Fault HandleId) : Prop where
  read : source.rule { a.clock with wall := a.clock.wall.wholeSecond } = .ok rule
  obtained : a.obtainRegistry session config.heapKey = (b, id, r)
  free : r.contains name = true → config.replaceExisting = true
  made : b.create session name event rule args config.coalesce
    { a.clock with wall := a.clock.wall.wholeSecond } = made

/-- What adding a schedule comes to. -/
inductive Adds (a : Agenda α) (config : Config) (session name event : String) (source : RuleSource)
    (args : List α) : Agenda α × Except Fault HandleId → Prop where
  | invalid {e : SpecError}
      (unread : source.rule { a.clock with wall := a.clock.wall.wholeSecond } = .error e) :
      Adds a config session name event source args (a, .error e.fault)
  | duplicate {rule : Rule} {b : Agenda α} {id : RegistryId} {r : Named HandleId}
      (read : source.rule { a.clock with wall := a.clock.wall.wholeSecond } = .ok rule)
      (obtained : a.obtainRegistry session config.heapKey = (b, id, r))
      (taken : r.contains name = true) (strict : config.replaceExisting = false) :
      Adds a config session name event source args (b, .error (.duplicate name))
  | fails {rule : Rule} {b c : Agenda α} {id : RegistryId} {r : Named HandleId} {fault : Fault}
      (makes : a.Makes config session name event source args rule b id r (c, .error fault)) :
      Adds a config session name event source args (c, .error fault)
  | stores {rule : Rule} {b c : Agenda α} {id : RegistryId} {r : Named HandleId} {h : HandleId}
      (makes : a.Makes config session name event source args rule b id r (c, .ok h))
      (armed : (c.handle? h).any Handle.isArmed = true) :
      Adds a config session name event source args
        ((c.putInRegistry id name h).1.noteAdded name event rule, .ok h)
  | drops {rule : Rule} {b c d : Agenda α} {id : RegistryId} {r : Named HandleId} {h : HandleId}
      (makes : a.Makes config session name event source args rule b id r (c, .ok h))
      (ended : (c.handle? h).any Handle.isArmed = false)
      (popped : (c.log .info ("Schedule " ++ Text.quoted name ++
        " has no future occurrence; not registered")).popFromRegistry id name = (d, none)) :
      Adds a config session name event source args (d, .ok h)
  | ends {rule : Rule} {b c d : Agenda α} {id : RegistryId} {r : Named HandleId} {h old : HandleId}
      (makes : a.Makes config session name event source args rule b id r (c, .ok h))
      (ended : (c.handle? h).any Handle.isArmed = false)
      (popped : (c.log .info ("Schedule " ++ Text.quoted name ++
        " has no future occurrence; not registered")).popFromRegistry id name = (d, some old)) :
      Adds a config session name event source args
        ((d.cancel old).1.log .info ("Schedule " ++ Text.quoted name ++ " replaced"), .ok h)

theorem addSchedule_spec (a : Agenda α) (config : Config) (session name event : String)
    (source : RuleSource) (args : List α) : a.Adds config session name event source args
      (a.addSchedule config session name event source args) := by
  unfold addSchedule
  dsimp only
  split
  · rename_i unread
    exact .invalid unread
  · rename_i rule read
    generalize obtained : a.obtainRegistry session config.heapKey = found
    obtain ⟨b, id, r⟩ := found
    dsimp only
    split
    · rename_i taken
      obtain ⟨taken, strict⟩ := Bool.and_eq_true_iff.mp taken
      exact .duplicate read obtained taken (Bool.not_eq_true' _ ▸ strict)
    · rename_i free
      have free : r.contains name = true → config.replaceExisting = true := by simpa using free
      split
      · rename_i c fault made
        exact .fails ⟨read, obtained, free, made⟩
      · rename_i c h made
        have makes : a.Makes config session name event source args rule b id r (c, .ok h) :=
          ⟨read, obtained, free, made⟩
        split
        · rename_i armed
          exact .stores makes armed
        · rename_i ended
          have ended := Bool.not_eq_true _ ▸ ended
          split
          · rename_i d old popped
            exact .ends makes ended popped
          · rename_i d popped
            exact .drops makes ended popped

end Agenda

end Almanac
