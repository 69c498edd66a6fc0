import Almanac.Proofs.Schedule.Keeping

set_option autoImplicit false

/-!
Where the schedules of a run are stored.

As long as nothing changes heaps or registries directly, every armed schedule of a session that
exists is stored under its name, so that it can be found and removed. What is stored is armed, or has
been cancelled on its own.
-/

namespace Almanac

variable {α : Type}

/-- Whether an action changes a heap or a registry directly. -/
def Action.meddles : Action α → Bool
  | setHeap .. | putInRegistry .. | discardFromRegistry .. | popFromRegistry .. | clearRegistry .. =>
    true
  | _ => false

namespace Run

open Agenda

variable {a : Agenda α} {below : List (Activity α)} {r r' : Run α} {ended : HandleId → Prop}

/-! Actions. -/

theorem tidies_dispatch (session event : String) (args : List α) :
    a.Tidies (dispatch a below session event args).agenda := by
  unfold dispatch
  split
  · exact .refl a
  · rename_i s found
    split
    · exact .log a _ _
    · refine Tidies.trans ?_ (.record _ _)
      exact .setSession found rfl rfl

/-- Every action keeps registries in order, but for the cancelling of a handle on its own and those
that change heaps or registries directly. -/
theorem tidies_perform (a : Agenda α) (below : List (Activity α)) (action : Action α)
    (tame : action.meddles = false) (other : ∀ h, action ≠ .cancel h) :
    a.Tidies (perform a below action).agenda := by
  have spec := perform_spec a below action
  generalize perform a below action = r at spec ⊢
  cases spec with
  | answers | advances => exact .refl a
  | jumps clock => exact .same rfl fun _ => rfl
  | dispatches session event args => exact tidies_dispatch session event args
  | on found | drops found => exact .setSession found rfl rfl
  | adds lives config => exact .addSchedule lives config _ _ _ _
  | creates creates => exact .creates creates
  | removes config => exact .remove a config _ _
  | removesAll config => exact .removeAll a config _
  | cancels h => exact absurd rfl (other h)
  | findsRegistry lives obtained | getsFromRegistry _ lives obtained
  | viewsRegistry _ lives obtained => exact .obtained lives obtained
  | setsHeap | putsInRegistry | discards | popsFromRegistry | clearsRegistry => cases tame

/-- A handle that is cancelled on its own counts as ended where that is told. -/
theorem keeps_cancel (orderly : a.Orderly ended) (below : List (Activity α)) (h : HandleId)
    (past : (perform a below (.cancel h)).outcome = some (.ok (.truth true)) → ended h) :
    (perform a below (.cancel h)).agenda.Orderly ended ∧
      a.Retains (perform a below (.cancel h)).agenda := by
  rw [perform, withHandle] at past ⊢
  split
  · rename_i handle found
    rw [found] at past
    rcases cancel_spec a h with ⟨same, -⟩ | ⟨cancelled, -⟩
    · rw [same]
      exact ⟨orderly, .refl a⟩
    · refine orderly.cancel (past ?_)
      show some (Except.ok (Reply.truth (a.cancel h).2)) = _
      rw [cancelled]
  · exact ⟨orderly, .refl a⟩

/-! Steps. -/

theorem tidies_step (step : r.step? = some r') (idle : r.asked? = none) :
    r.agenda.Tidies r'.agenda := by
  have keeps : Keeps fun b => r.agenda.Tidies b :=
    { log := fun _ _ tidies => tidies.trans (.log _ _ _)
      dispatch := fun _ _ _ _ tidies => tidies.trans (tidies_dispatch _ _ _)
      rearm := fun h tidies => tidies.trans (.rearm _ h)
      serves := fun tidies serves => tidies.trans (.serves serves)
      clock := fun t tidies => tidies.trans (.clockAtLeast _ t)
      release := fun _ tidies => tidies.trans (.release _ _) }
  refine keeps.step (.refl _) step fun _ action asked => ?_
  cases asked.symm.trans idle

theorem Next.keeps {did : Option (Action α)} (next : r.Next did r') (orderly : r.agenda.Orderly ended)
    (tame : ∀ action, did = some action → action.meddles = false)
    (past : ∀ h, did = some (.cancel h) → r'.outcome = some (.ok (.truth true)) → ended h) :
    r'.agenda.Orderly ended ∧ r.agenda.Retains r'.agenda := by
  cases did with
  | none =>
    generalize asked : none = did at next
    cases next with
    | act => cases asked
    | step step => exact tidies_step step asked.symm ended orderly
  | some action =>
    obtain ⟨below, -, rfl⟩ := next.performs
    have performed : (perform r.agenda below action).agenda.Orderly ended ∧
        r.agenda.Retains (perform r.agenda below action).agenda := by
      by_cases cancels : ∃ h, action = .cancel h
      · obtain ⟨h, rfl⟩ := cancels
        exact keeps_cancel orderly below h (past h rfl)
      · exact tidies_perform r.agenda below action (tame action rfl)
          (fun h same => cancels ⟨h, same⟩) ended orderly
    obtain ⟨orderly', retains⟩ := performed
    obtain ⟨orderly'', retains'⟩ := Tidies.release _ _ ended orderly'
    exact ⟨orderly'', retains.trans retains'⟩

/-! Histories. -/

theorem orderly_start (clock : Zoned) (revocable : Bool) (sessions : List String)
    (schedulers : List (String × Config)) :
    (Agenda.start clock revocable sessions schedulers : Agenda α).Orderly ended := by
  have unheld {s : Session α} {id : RegistryId}
      (there : s ∈ (Agenda.start clock revocable sessions schedulers : Agenda α).sessions) :
      id ∉ s.registries := by
    rw [eq_empty_of_start there]
    exact List.not_mem_nil
  refine ⟨⟨same_start, ?_, ?_, nofun⟩, nofun, ?_, nofun⟩
  · intro s there t _ id holds
    exact absurd holds (unheld there)
  · intro s there id holds
    exact absurd holds (unheld there)
  · rintro id name h ⟨r, registry, -⟩
    cases registry

/-- The deed of cancelling a handle that was armed. -/
def cancelling (h : HandleId) : Deed α := ⟨.cancel h, some (.ok (.truth true))⟩

/-- The deed of adding a schedule whose handle is told. -/
def adding (via session name event : String) (source : RuleSource) (args : List α) (h : HandleId) :
    Deed α :=
  ⟨.add via session name event source args, some (.ok (.handle (some h)))⟩

variable {deeds : List (Deed α)}

theorem Next.keeps_told {did : Option (Action α)} (next : r.Next did r')
    (orderly : r.agenda.Orderly fun h => cancelling h ∈ deeds)
    (tame : ∀ d ∈ (did.map (⟨·, r'.outcome⟩)).toList ++ deeds, d.action.meddles = false) :
    (r'.agenda.Orderly fun h => cancelling h ∈ (did.map (⟨·, r'.outcome⟩)).toList ++ deeds) ∧
      r.agenda.Retains r'.agenda := by
  refine next.keeps (orderly.mono fun h member => List.mem_append_right _ member) ?_ ?_
  · rintro action rfl
    exact tame ⟨action, r'.outcome⟩ (List.mem_append_left _ List.mem_cons_self)
  · rintro h rfl told
    apply List.mem_append_left
    rw [told]
    exact List.mem_cons_self

/-- Registries are in order after tame deeds, up to handles that were cancelled on their own. -/
theorem History.orderly (history : History deeds r) (tame : ∀ d ∈ deeds, d.action.meddles = false) :
    r.agenda.Orderly fun h => cancelling h ∈ deeds := by
  induction history with
  | start clock revocable sessions schedulers => exact orderly_start _ _ _ _
  | next history next ih =>
    have orderly := ih fun d member => tame d (List.mem_append_right _ member)
    exact (next.keeps_told orderly tame).1

/-- A schedule that was added is filed for its session, under the key of its scheduler. -/
theorem History.filed (history : History deeds r) (tame : ∀ d ∈ deeds, d.action.meddles = false)
    {via session name event : String} {source : RuleSource} {args : List α} {h : HandleId}
    (added : adding via session name event source args h ∈ deeds) :
    ∃ config, r.agenda.schedulers.lookup via = some config ∧
      r.agenda.FiledFor session config.heapKey name h := by
  induction history with
  | start => cases added
  | @next deeds r r' did history next ih =>
    have earlier : ∀ d ∈ deeds, d.action.meddles = false :=
      fun d member => tame d (List.mem_append_right _ member)
    have orderly := history.orderly earlier
    rcases List.mem_append.mp added with latest | before
    · -- The schedule has just been added.
      obtain ⟨action, rfl, deed⟩ := Option.map_eq_some_iff.mp (Option.mem_toList.mp latest)
      obtain ⟨rfl, answered⟩ := Deed.mk.inj deed
      obtain ⟨below, -, rfl⟩ := next.performs
      obtain ⟨config, scheduler, lives, performed⟩ := withScheduler_of_ok answered
      rw [perform, performed] at answered ⊢
      have answered : (result below _).outcome = some (.ok (.handle (some h))) := answered
      obtain ⟨new, made, told⟩ := result_of_ok answered
      cases told
      have adds := orderly.adds lives config name event source args
      have filed := adds.filed h made
      obtain ⟨-, retains⟩ := Tidies.release _ ((result below (r.agenda.addSchedule config session
        name event source args)).activities.filterMap Activity.session?) _ adds.orderly
      refine ⟨config, ?_, filed.keeps (.quiet (quiet_release _)) retains⟩
      rw [← scheduler]
      exact congrArg (List.lookup via) (retains.schedulers.trans adds.retains.schedulers)
    · obtain ⟨config, scheduler, filed⟩ := ih earlier before
      obtain ⟨-, retains⟩ := next.keeps_told orderly tame
      refine ⟨config, ?_, filed.keeps next.stepped.persists retains⟩
      rw [retains.schedulers]
      exact scheduler

end Run

namespace Agenda

variable {a : Agenda α} {h : HandleId} {handle : Handle α} {config : Config} {session name : String}
  {ended : HandleId → Prop}

theorem FiledFor.stored (filed : a.FiledFor session config.heapKey name h)
    (orderly : a.Orderly ended) (found : a.handle? h = some handle) (armed : handle.state = .armed)
    (lives : session ∈ a.names) : a.get? config session name = some h := by
  obtain ⟨l, labelled, rfl, rfl, shelved⟩ := filed
  have same : l = handle.label := by
    rw [label?, found] at labelled
    exact (Option.some.inj labelled).symm
  have armed' : l.state = .armed := by
    rw [same]
    exact armed
  obtain ⟨id, known, shelf⟩ := shelved armed' lives
  refine orderly.get?_iff.mpr ⟨id, shelf, orderly.stored h l.name l.session id ?_ lives⟩
  rw [labelled, ← known, ← armed']

theorem Orderly.handle_of_files {id : RegistryId} (orderly : a.Orderly ended)
    (files : a.Files id name h) : ∃ handle, a.handle? h = some handle ∧ handle.name = name ∧
      (∃ s ∈ a.sessions, id ∈ s.registries ∧ handle.session = s.name) ∧
      (handle.state = .armed ∨ handle.state = .cancelled ∧ ended h) := by
  obtain ⟨s, there, holds, state, labelled, live⟩ := orderly.filed id name h files
  obtain ⟨handle, found, label⟩ := Option.map_eq_some_iff.mp labelled
  have state' : handle.state = state := congrArg Label.state label
  rw [← state'] at live
  exact ⟨handle, found, congrArg Label.name label,
    ⟨s, there, holds, congrArg Label.session label⟩, live⟩

theorem Orderly.handle_of_get? (orderly : a.Orderly ended)
    (got : a.get? config session name = some h) : ∃ handle, a.handle? h = some handle ∧
      handle.name = name ∧ handle.session = session ∧
      (handle.state = .armed ∨ handle.state = .cancelled ∧ ended h) := by
  obtain ⟨id, ⟨t, there', rfl, held⟩, files⟩ := orderly.get?_iff.mp got
  obtain ⟨handle, found, named, ⟨s, there, holds, whose⟩, live⟩ := orderly.handle_of_files files
  have same := orderly.apart s there t there' id holds (Session.mem_registries held)
  exact ⟨handle, found, named, whose.trans same, live⟩

theorem Orderly.schedules (orderly : a.Orderly ended) (config : Config) (session : String) :
    (a.schedules config session).Nodup ∧ ∀ name, name ∈ a.schedules config session ↔
      ∃ h, a.get? config session name = some h := by
  cases held : a.findRegistry session config.heapKey with
  | none => simp [Agenda.schedules, get?, held]
  | some found =>
    obtain ⟨id, registry⟩ := found
    have distinct := orderly.distinct id registry (findRegistry_eq_some_iff.mp held).2
    simp only [Agenda.schedules, get?, held, Option.bind_eq_bind, Option.bind_some]
    refine ⟨distinct, fun name => ⟨fun listed => ?_, ?_⟩⟩
    · obtain ⟨⟨name, h⟩, member, rfl⟩ := List.mem_map.mp listed
      exact ⟨h, Named.get?_of_mem distinct member⟩
    · rintro ⟨h, named⟩
      exact Named.mem_names_of_mem (Named.mem_of_get? named)

theorem remove_armed (stored : a.get? config session name = some h)
    (found : a.handle? h = some handle) (armed : handle.state = .armed) :
    (a.remove config session name).2 = true ∧
      ∃ handle', (a.remove config session name).1.handle? h = some handle' ∧
        handle'.state = .cancelled := by
  obtain ⟨id, r, message, removed⟩ := remove_stored stored
  rw [removed]
  rcases cancel_spec (a.setRegistry id (r.erase name)) h with ⟨-, idle⟩ | ⟨cancelled, old, cancels⟩
  · exact absurd armed (idle handle found)
  · exact ⟨cancelled, _, handle?_set_self cancels.handles (lt_of_handle? cancels.found), rfl⟩

end Agenda

namespace Run

open Agenda

variable {r : Run α} {deeds : List (Deed α)}

/-- No schedule is orphaned. As long as nothing changes heaps or registries directly, an armed handle
that was made by adding a schedule, and whose session exists, is the one stored under its name. So
no two of one session, key and name are armed, and removing the name ends it. -/
theorem no_orphans (history : History deeds r) (tame : ∀ d ∈ deeds, d.action.meddles = false)
    {via session name event : String} {source : RuleSource} {args : List α} {h : HandleId}
    (added : adding via session name event source args h ∈ deeds) {handle : Handle α}
    (found : r.agenda.handle? h = some handle) (armed : handle.state = .armed)
    (lives : r.agenda.session? handle.session ≠ none) :
    handle.name = name ∧ handle.session = session ∧
      ∃ config, r.agenda.schedulers.lookup via = some config ∧
        r.agenda.get? config session name = some h ∧
        (∀ via' config' event' source' args' h' handle',
          adding via' session name event' source' args' h' ∈ deeds →
          r.agenda.schedulers.lookup via' = some config' → config'.heapKey = config.heapKey →
          r.agenda.handle? h' = some handle' → handle'.state = .armed → h' = h) ∧
        (r.agenda.remove config session name).2 = true ∧
        ∃ handle', (r.agenda.remove config session name).1.handle? h = some handle' ∧
          handle'.state = .cancelled := by
  have orderly := history.orderly tame
  obtain ⟨config, scheduler, filed⟩ := history.filed tame added
  have whose : handle.name = name ∧ handle.session = session := by
    obtain ⟨l, labelled, named, whose, -⟩ := filed
    rw [label?, found] at labelled
    cases labelled
    exact ⟨named, whose⟩
  obtain ⟨named, whose⟩ := whose
  rw [whose] at lives
  have lives := session?_ne_none_iff.mp lives
  have stored := filed.stored orderly found armed lives
  refine ⟨named, whose, config, scheduler, stored, ?_, remove_armed stored found armed⟩
  intro via' config' event' source' args' h' handle' added' scheduler' key found' armed'
  obtain ⟨config'', scheduler'', filed'⟩ := history.filed tame added'
  cases scheduler'.symm.trans scheduler''
  rw [key] at filed'
  exact Option.some.inj ((filed'.stored orderly found' armed' lives).symm.trans stored)

/-- What is stored is live, unless it has been cancelled on its own. As long as nothing changes heaps
or registries directly, every handle in a registry is armed, or it has been cancelled by an action of
its own, which leaves it there. So the schedules of a session are listed by such names only, and a
duplicate is only told of where such a handle is stored. -/
theorem stored_live_or_cancelled (history : History deeds r)
    (tame : ∀ d ∈ deeds, d.action.meddles = false) :
    (∀ id registry name h, r.agenda.registry? id = some registry → (name, h) ∈ registry.entries →
      ∃ handle, r.agenda.handle? h = some handle ∧ handle.name = name ∧
        (handle.state = .armed ∨ handle.state = .cancelled ∧ cancelling h ∈ deeds)) ∧
    (∀ config session name h, r.agenda.get? config session name = some h →
      ∃ handle, r.agenda.handle? h = some handle ∧ handle.name = name ∧ handle.session = session ∧
        (handle.state = .armed ∨ handle.state = .cancelled ∧ cancelling h ∈ deeds)) ∧
    (∀ config session, (r.agenda.schedules config session).Nodup ∧
      ∀ name, name ∈ r.agenda.schedules config session ↔
        ∃ h, r.agenda.get? config session name = some h) ∧
    ∀ via session name event source args r' other,
      r.Next (some (.add via session name event source args)) r' →
      r'.outcome = some (.error (.duplicate other)) →
      other = name ∧ ∃ config h, r.agenda.schedulers.lookup via = some config ∧
        r.agenda.get? config session name = some h := by
  have orderly := history.orderly tame
  refine ⟨?_, fun config session name h => orderly.handle_of_get?,
    fun config session => orderly.schedules config session, ?_⟩
  · intro id registry name h there member
    obtain ⟨handle, found, named, -, live⟩ := orderly.handle_of_files ⟨registry, there, member⟩
    exact ⟨handle, found, named, live⟩
  · intro via session name event source args r' other next answered
    obtain ⟨below, -, rfl⟩ := next.performs
    rw [perform] at answered
    rcases withScheduler_cases r.agenda below via session fun config => result below
        (r.agenda.addSchedule config session name event source args) with
      ⟨config, scheduler, lives, done⟩ | ⟨unknown, which, failed⟩
    · rw [done] at answered
      have answered : (result below _).outcome = some (.error (.duplicate other)) := answered
      obtain ⟨same, h, got⟩ :=
        (orderly.adds lives config name event source args).duplicate other (result_of_error answered)
      exact ⟨same, config, h, scheduler, got⟩
    · rw [failed] at answered
      rcases which with rfl | rfl <;> cases answered

end Run

/-! The first schedule of all. -/

section First

variable {clock t : Zoned} {name event : String} {source : RuleSource} {sequence : Sequence}

/-- The handle that a scheduler makes, armed for an occurrence after which `sequence` is left. -/
def firstHandle (name event : String) (sequence : Sequence) (t : Zoned)
    (registry : Option RegistryId) : Handle α :=
  { name, event, args := [], session := "inbox", coalesce := true, sequence, registry
    timer := some 0, nextFire := some t, fired := 0, state := .armed }

/-- The agenda of one scheduler and one session. -/
def Agenda.single (clock : Zoned) : Agenda α := .start clock true ["inbox"] [("main", {})]

/-- The same once a schedule has been added. -/
def Agenda.first (clock : Zoned) (name event : String) (rule : Rule) (sequence : Sequence)
    (t : Zoned) : Agenda α :=
  { (.single clock : Agenda α) with
    pending := [⟨0, t, 0⟩]
    nextEntry := 1
    handles := [firstHandle name event sequence t (some 0)]
    registries := [(0, ⟨[(name, 0)]⟩)]
    nextRegistry := 1
    sessions := [⟨"inbox", [(defaultHeapKey, .registry 0)], [], true⟩]
    journal := [.logged ⟨.info, "Schedule " ++ Text.quoted name ++ " added: event " ++
        Text.quoted event ++ ", " ++ rule.text⟩,
      .logged ⟨.debug, "Schedule " ++ Text.quoted name ++ " armed for " ++ t.text⟩] }

theorem addSchedule_first (rule : Rule) (written : rule.hasText = true)
    (read : source.rule { clock with wall := clock.wall.wholeSecond } = .ok rule)
    (found : (Sequence.ofRule rule (some { clock with wall := clock.wall.wholeSecond })).seek
      (fun t => false && t.before clock) 0 = (.found t, 0, sequence)) :
    (Agenda.single clock : Agenda α).addSchedule {} "inbox" name event source [] =
      (.first clock name event rule sequence t, .ok 0) := by
  have create : ((Agenda.single clock : Agenda α).obtainRegistry "inbox" defaultHeapKey).1.create
      "inbox" name event rule [] true { clock with wall := clock.wall.wholeSecond } =
      ({ (Agenda.first clock name event rule sequence t : Agenda α) with
        handles := [firstHandle name event sequence t none]
        registries := [(0, .empty)]
        journal := [.logged ⟨.debug,
          "Schedule " ++ Text.quoted name ++ " armed for " ++ t.text⟩] }, .ok 0) := by
    unfold Agenda.create
    dsimp only
    rw [Agenda.arm_eq found]
    rfl
  unfold Agenda.addSchedule
  dsimp only
  rw [show (Agenda.single clock : Agenda α).clock = clock from rfl, read]
  dsimp only at create ⊢
  rw [Bool.not_true, Bool.and_false, if_neg nofun, create]
  dsimp only [Agenda.noteAdded]
  rw [if_pos written]
  rfl

theorem Run.next_first (rule : Rule) (written : rule.hasText = true)
    (read : source.rule { clock with wall := clock.wall.wholeSecond } = .ok rule)
    (found : (Sequence.ofRule rule (some { clock with wall := clock.wall.wholeSecond })).seek
      (fun t => false && t.before clock) 0 = (.found t, 0, sequence)) :
    (⟨.single clock, [], none⟩ : Run α).Next (some (.add "main" "inbox" name event source []))
      ⟨.first clock name event rule sequence t, [], some (.ok (.handle (some 0)))⟩ := by
  have done : (Run.perform (Agenda.single clock : Agenda α) []
      (.add "main" "inbox" name event source [])).settle =
      ⟨.first clock name event rule sequence t, [], some (.ok (.handle (some 0)))⟩ := by
    have carried : Run.perform (Agenda.single clock : Agenda α) []
        (.add "main" "inbox" name event source []) = Run.result []
          ((Agenda.single clock : Agenda α).addSchedule {} "inbox" name event source []) := rfl
    rw [carried, addSchedule_first rule written read found]
    rfl
  have free : (⟨.single clock, [], none⟩ : Run α).Free := trivial
  have next := Run.Next.act free (.add "main" "inbox" name event source [])
  dsimp only at next
  rw [done] at next
  exact next

end First

/-! The schedule of two occurrences, added by a scheduler and then cancelled on its own. -/

namespace twoHours

def scheduling : Agenda Nat := .start twoHours.start true ["inbox"] [("main", {})]

/-- The handle as the scheduler makes it, before and after it is stored. -/
def added (registry : Option RegistryId) : Handle Nat :=
  { handle (sequence 17522857 twoHours.start 1) twoHours.start (some 0) 0 with
    coalesce := true, registry }

/-- Once the schedule has been added. -/
def stored : Agenda Nat :=
  { scheduling with
    pending := [⟨0, twoHours.start, 0⟩]
    nextEntry := 1
    handles := [added (some 0)]
    registries := [(0, ⟨[("hour", 0)]⟩)]
    nextRegistry := 1
    sessions := [⟨"inbox", [(defaultHeapKey, .registry 0)], [], true⟩]
    journal := [.logged ⟨.info, "Schedule " ++ Text.quoted "hour" ++ " added: event " ++
      Text.quoted "hour" ++ ", " ++ twoHours.text⟩, armedFor twoHours.start] }

theorem hasText : twoHours.hasText = true := by decide +kernel

theorem addSchedule_eq : scheduling.addSchedule {} "inbox" "hour" "hour" (.spec spec) [] =
    (stored, .ok 0) :=
  addSchedule_first twoHours hasText rfl (seek_first rfl)

theorem next_stored : (⟨scheduling, [], none⟩ : Run Nat).Next
    (some (.add "main" "inbox" "hour" "hour" (.spec spec) []))
    ⟨stored, [], some (.ok (.handle (some 0)))⟩ :=
  Run.next_first twoHours hasText rfl (seek_first rfl)

/-- The run once the schedule has been added. -/
theorem history_stored : Run.History [Run.adding "main" "inbox" "hour" "hour" (.spec spec) [] 0]
    (⟨stored, [], some (.ok (.handle (some 0)))⟩ : Run Nat) :=
  (Run.History.start twoHours.start true ["inbox"] [("main", {})]).next next_stored

/-- The schedule is found and can be removed. -/
theorem kept_stored : stored.get? {} "inbox" "hour" = some 0 ∧
    (stored.remove {} "inbox" "hour").2 = true := by
  have found : stored.handle? 0 = some (added (some 0)) := rfl
  have lives : stored.session? "inbox" ≠ none := nofun
  obtain ⟨-, -, config, scheduler, got, -, removed, -⟩ := Run.no_orphans history_stored
    (List.forall_mem_singleton.mpr rfl) List.mem_cons_self found rfl lives
  cases scheduler
  exact ⟨got, removed⟩

/-- Once the handle has been cancelled on its own. -/
def listed : Run Nat := (Run.perform stored [] (.cancel 0)).settle

/-- A handle that has been cancelled on its own is still stored and its name listed. -/
theorem listed_cancelled : listed.agenda.schedules {} "inbox" = ["hour"] ∧
    ∃ h handle, listed.agenda.get? {} "inbox" "hour" = some h ∧
      listed.agenda.handle? h = some handle ∧ handle.state = .cancelled := by
  have free : (⟨stored, [], some (.ok (.handle (some 0)))⟩ : Run Nat).Free := trivial
  have history := history_stored.next (.act free (.cancel 0))
  have tame : ∀ d ∈ [Run.cancelling 0, Run.adding "main" "inbox" "hour" "hour" (.spec spec) [] 0],
      (d : Deed Nat).action.meddles = false :=
    List.forall_mem_cons.mpr ⟨rfl, List.forall_mem_singleton.mpr rfl⟩
  obtain ⟨-, got, listing, -⟩ := Run.stored_live_or_cancelled (r := listed) history tame
  have names : listed.agenda.schedules {} "inbox" = ["hour"] := rfl
  obtain ⟨h, stored⟩ := ((listing {} "inbox").2 "hour").mp (names ▸ List.mem_cons_self)
  obtain ⟨handle, found, -, -, live⟩ := got {} "inbox" "hour" h stored
  refine ⟨names, h, handle, stored, found, ?_⟩
  rcases live with armed | ⟨cancelled, -⟩
  · cases stored
    cases found
    cases armed
  · exact cancelled

end twoHours

end Almanac
