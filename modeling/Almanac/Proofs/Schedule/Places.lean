import Almanac.Proofs.Schedule.Handlers
import Almanac.Proofs.Schedule.Shares

set_option autoImplicit false

/-!
Schedules at their places.

Every schedule is added at some place, and the armed one of a place is stored there, so adding and
removing concern the place alone. What is watched is one place, with the handles of its schedules and
the share that they show.
-/

namespace Almanac

variable {α : Type}

/-- What does not change in a run: how times are read, the schedulers, the sessions, the places where
schedules are added, the place that is watched, and whether handlers dispatch events in turn. -/
structure Setting where
  reckoning : Reckoning
  schedulers : List (String × Config)
  sessions : List String
  slots : Slot → Prop
  slot : Slot
  nests : Prop

/-- The keys under which the schedulers keep their registries. -/
def Setting.keys (σ : Setting) : List String := σ.schedulers.map fun e => e.2.heapKey

namespace Agenda

/-- All times are read by a reckoning. -/
structure Reckoned (ρ : Reckoning) (a : Agenda α) : Prop where
  clock : ρ.Shows a.clock
  due : ∀ e ∈ a.pending, ρ.Admits e.due
  fits : ∀ h x, a.core? h = some x → x.sequence.Fits ρ

/-- Every schedule is filed for one of the `slots`, and some handles are those for the `slot`. -/
structure Places (slots : Slot → Prop) (slot : Slot) (ids : List HandleId) (a : Agenda α) : Prop where
  nodup : ids.Nodup
  filed : ∀ h x, a.core? h = some x → ∃ q : Slot, slots q ∧
    a.FiledFor q.session q.key q.name h ∧ q.session ∈ a.names ∧ (h ∈ ids ↔ q = slot)

/-- The order that schedules are in while one place is watched. -/
structure Regular (σ : Setting) (firing : List HandleId) (a : Agenda α) (ids : List HandleId)
    (s : Share α) : Prop where
  sound : a.Sound firing
  orderly : a.Orderly fun _ => False
  tame : a.Tame σ.keys σ.nests
  schedulers : a.schedulers = σ.schedulers
  names : a.names = σ.sessions
  reckoned : a.Reckoned σ.reckoning
  places : a.Places σ.slots σ.slot ids
  shown : a.Shows σ.reckoning ids s

variable {a b c : Agenda α} {σ : Setting} {firing firing' : List HandleId} {ids : List HandleId}
  {s t : Share α} {h : HandleId} {x : Handle α} {ρ : Reckoning} {config : Config}
  {session name event : String} {source : RuleSource} {args : List α}

theorem core?_eq_some_iff : a.core? h = some x ↔ ∃ handle, a.handle? h = some handle ∧
    handle.core = x :=
  Option.map_eq_some_iff

theorem Reckoned.congr (reckoned : a.Reckoned ρ) (clock : b.clock = a.clock)
    (pending : b.pending = a.pending) (cores : ∀ h, b.core? h = a.core? h) : b.Reckoned ρ := by
  refine ⟨clock ▸ reckoned.clock, pending ▸ reckoned.due, fun h x found => ?_⟩
  rw [cores] at found
  exact reckoned.fits h x found

theorem Reckoned.withdraws {old : Option HandleId} (reckoned : a.Reckoned ρ)
    (withdraws : a.Withdraws old b) : b.Reckoned ρ := by
  refine ⟨?_, fun e member => reckoned.due e (withdraws.pending e member), fun h x found => ?_⟩
  · rw [withdraws.clock]
    exact reckoned.clock
  · rw [withdraws.cores] at found
    split at found
    · obtain ⟨y, before, rfl⟩ := Option.map_eq_some_iff.mp found
      rw [Handle.sequence_withdrawn]
      exact reckoned.fits h y before
    · exact reckoned.fits h x found

theorem Places.keeps {slots : Slot → Prop} {slot : Slot} {ids' : List HandleId}
    (places : a.Places slots slot ids) (persists : a.Persists b) (retains : a.Retains b)
    (names : b.names = a.names) (nodup : ids'.Nodup)
    (each : ∀ h x, b.core? h = some x → (∃ y, a.core? h = some y) ∧ (h ∈ ids' ↔ h ∈ ids) ∨
      ∃ q : Slot, slots q ∧ b.FiledFor q.session q.key q.name h ∧ q.session ∈ b.names ∧
        (h ∈ ids' ↔ q = slot)) : b.Places slots slot ids' := by
  refine ⟨nodup, fun h x found => ?_⟩
  rcases each h x found with ⟨⟨y, before⟩, same⟩ | new
  · obtain ⟨q, inside, filed, lives, own⟩ := places.filed h y before
    rw [names, same]
    exact ⟨q, inside, filed.keeps persists retains, lives, own⟩
  · exact new

namespace Regular

/-- A change that brings in no handle keeps all but what has to be told of it. -/
theorem change (regular : a.Regular σ firing ids s) (sound : b.Sound firing') (tidies : a.Tidies b)
    (persists : a.Persists b) (names : b.names = a.names) (tame : b.Tame σ.keys σ.nests)
    (reckoned : b.Reckoned σ.reckoning)
    (fewer : ∀ h x, b.core? h = some x → ∃ y, a.core? h = some y)
    (shown : b.Shows σ.reckoning ids t) : b.Regular σ firing' ids t := by
  obtain ⟨orderly, retains⟩ := tidies _ regular.orderly
  exact ⟨sound, orderly, tame, retains.schedulers.trans regular.schedulers,
    names.trans regular.names, reckoned, regular.places.keeps persists retains names
      regular.places.nodup fun h x found => .inl ⟨fewer h x found, .rfl⟩, shown⟩

theorem idles (regular : a.Regular σ firing ids s) (idles : a.Idles σ.keys σ.nests b) :
    b.Regular σ firing ids s := by
  have cores := core?_quiet idles.quiet
  exact regular.change (regular.sound.quiet idles.quiet) idles.tidies (.quiet idles.quiet)
    idles.names idles.tame (regular.reckoned.congr idles.clock idles.quiet.pending cores)
    (fun h x found => ⟨x, cores h ▸ found⟩)
    (regular.shown.congr (fun h _ => cores h) idles.quiet.tells.dispatches)

theorem setClock (regular : a.Regular σ firing ids s) {clock : Zoned}
    (shows : σ.reckoning.Shows clock) :
    ({ a with clock } : Agenda α).Regular σ firing ids s :=
  regular.change (regular.sound.quiet (.same rfl rfl rfl rfl rfl (names_subset rfl)))
    (.same rfl fun _ => rfl) (.same rfl) rfl regular.tame
    ⟨shows, regular.reckoned.due, regular.reckoned.fits⟩ (fun _ x found => ⟨x, found⟩)
    (regular.shown.congr (fun _ _ => rfl) rfl)

/-- What is stored is armed, and is one of the handles that are watched where the place is. -/
theorem stored (regular : a.Regular σ firing ids s)
    (stored : a.get? config session name = some h) :
    (∃ x, a.core? h = some x ∧ x.state = .armed) ∧
      (h ∈ ids ↔ ⟨session, config.heapKey, name⟩ = σ.slot) := by
  obtain ⟨id, ⟨u, there, rfl, held⟩, files⟩ := regular.orderly.get?_iff.mp stored
  obtain ⟨v, there', holds, state, labelled, live⟩ := regular.orderly.filed id name h files
  have whose : v.name = u.name :=
    regular.orderly.apart v there' u there id holds (Session.mem_registries held)
  have armed : state = .armed := live.resolve_right And.right
  obtain ⟨handle, found, label⟩ := Option.map_eq_some_iff.mp labelled
  have core : a.core? h = some handle.core := core?_eq_some_iff.mpr ⟨handle, found, rfl⟩
  refine ⟨⟨_, core, (congrArg Label.state label).trans armed⟩, ?_⟩
  obtain ⟨⟨session, key, other⟩, -, ⟨l, labelled', rfl, owner, shelved⟩, lives, own⟩ :=
    regular.places.filed h _ core
  cases labelled.symm.trans labelled'
  -- The handle knows the registry that stores it, and a session has it under one key only.
  obtain ⟨id', known, w, there'', named, held'⟩ := shelved armed lives
  cases known
  cases regular.orderly.same w there'' u there (named.trans (owner.symm.trans whose))
  cases (regular.tame u there).once _ _ _ held held'
  cases named
  exact own

/-- An armed schedule of the place that is watched is stored there. -/
theorem stored_of_armed (regular : a.Regular σ firing ids s) (key : config.heapKey = σ.slot.key)
    (inside : h ∈ ids) (found : a.core? h = some x) (armed : x.state = .armed) :
    a.get? config σ.slot.session σ.slot.name = some h := by
  obtain ⟨handle, found', rfl⟩ := core?_eq_some_iff.mp found
  obtain ⟨q, -, filed, lives, own⟩ := regular.places.filed h _ found
  rw [own.mp inside, ← key] at filed
  rw [own.mp inside] at lives
  exact filed.stored regular.orderly found' armed lives

theorem exists_handle (regular : a.Regular σ firing ids s) {i : Nat}
    (found : s.schedules[i]? = some x) :
    ∃ h y, ids[i]? = some h ∧ a.core? h = some y ∧ y.readBy σ.reckoning = x := by
  rw [← regular.shown.coreBy?] at found
  obtain ⟨h, here, read⟩ := Option.bind_eq_some_iff.mp found
  obtain ⟨y, core, same⟩ := Option.map_eq_some_iff.mp read
  exact ⟨h, y, here, core, same⟩

theorem single (regular : a.Regular σ firing ids s) : s.Single := by
  intro i j x y found found' armed armed'
  obtain ⟨h, x, here, core, rfl⟩ := regular.exists_handle found
  obtain ⟨h', y, here', core', rfl⟩ := regular.exists_handle found'
  let config : Config := { heapKey := σ.slot.key }
  have key : config.heapKey = σ.slot.key := rfl
  have stored := regular.stored_of_armed key (List.mem_of_getElem? here) core armed
  have stored' := regular.stored_of_armed key (List.mem_of_getElem? here') core' armed'
  cases stored.symm.trans stored'
  obtain ⟨inside, first⟩ := List.getElem?_eq_some_iff.mp here
  obtain ⟨inside', second⟩ := List.getElem?_eq_some_iff.mp here'
  exact regular.places.nodup.getElem_inj_iff.mp (first.trans second.symm)

/-- The share tells whether a schedule is stored at the place. -/
theorem any_armed_iff (regular : a.Regular σ firing ids s) (key : config.heapKey = σ.slot.key) :
    s.schedules.any Handle.isArmed = true ↔ a.get? config σ.slot.session σ.slot.name ≠ none := by
  rw [List.any_eq_true]
  constructor
  · rintro ⟨x, member, armed⟩
    obtain ⟨i, found⟩ := List.mem_iff_getElem?.mp member
    obtain ⟨h, x, here, core, rfl⟩ := regular.exists_handle found
    rw [regular.stored_of_armed key (List.mem_of_getElem? here) core (Handle.isArmed_iff.mp armed)]
    exact Option.some_ne_none h
  · intro there
    obtain ⟨h, stored⟩ := Option.ne_none_iff_exists'.mp there
    obtain ⟨⟨x, core, armed⟩, own⟩ := regular.stored stored
    have inside : h ∈ ids := own.mpr (by rw [key])
    obtain ⟨i, here⟩ := List.mem_iff_getElem?.mp inside
    refine ⟨x.readBy σ.reckoning, List.mem_iff_getElem?.mpr ⟨i, ?_⟩, Handle.isArmed_iff.mpr armed⟩
    rw [regular.shown.found here, coreBy?, core, Option.map_some]

/-! Removing. -/

theorem withdrawn (regular : a.Regular σ firing ids s)
    (cores : ∀ h ∈ ids, b.core? h = if a.get? config session name = some h
      then (a.core? h).map Handle.withdrawn else a.core? h)
    (dispatches : b.dispatches = a.dispatches) :
    b.Shows σ.reckoning ids
      (if ⟨session, config.heapKey, name⟩ = σ.slot then s.withdrawn else s) := by
  split
  · rename_i own
    refine regular.shown.withdraw cores (fun h inside x core armed => ?_) dispatches
    have key : config.heapKey = σ.slot.key := congrArg Slot.key own
    have stored := regular.stored_of_armed key inside core armed
    rw [← own] at stored
    exact stored
  · rename_i other
    refine regular.shown.congr (fun h inside => ?_) dispatches
    rw [cores h inside, if_neg]
    intro stored
    exact other ((regular.stored stored).2.mp inside)

theorem remove (regular : a.Regular σ firing ids s) (config : Config) (session name : String) :
    (a.remove config session name).1.Regular σ firing ids
      (if ⟨session, config.heapKey, name⟩ = σ.slot then s.withdrawn else s) := by
  have withdraws := withdraws_remove a config session name
  have moves : a.Moves (a.remove config session name).1 := Moves.refl.remove config session name
  refine regular.change (regular.sound.moves moves) (.remove a config session name) (.moves moves)
    (congrArg (List.map Session.name) withdraws.sessions) (regular.tame.of_sessions withdraws.sessions)
    (regular.reckoned.withdraws withdraws) (fun h x found => ?_)
    (regular.withdrawn (fun h _ => withdraws.cores h) moves.tells.dispatches)
  rw [withdraws.cores] at found
  split at found
  · obtain ⟨y, before, -⟩ := Option.map_eq_some_iff.mp found
    exact ⟨y, before⟩
  · exact ⟨x, found⟩

/-! Adding. -/

theorem known (regular : a.Regular σ firing ids s) (inside : h ∈ ids) :
    ∃ x, a.core? h = some x := by
  have shown : a.coreBy? σ.reckoning h ∈ ids.map (a.coreBy? σ.reckoning) :=
    List.mem_map_of_mem inside
  rw [regular.shown.schedules] at shown
  obtain ⟨y, -, same⟩ := List.mem_map.mp shown
  obtain ⟨x, core, -⟩ := Option.map_eq_some_iff.mp same.symm
  exact ⟨x, core⟩

end Regular

theorem core?_length (a : Agenda α) : a.core? a.handles.length = none := by
  rw [core?, handle?, List.getElem?_eq_none le_rfl, Option.map_none]

theorem Sound.undispatched (sound : a.Sound firing) (unknown : a.core? h = none) :
    ∀ d ∈ a.dispatches, d.1 ≠ h := by
  rintro ⟨h', due, clock⟩ member rfl
  obtain ⟨x, told, dispatched⟩ := List.mem_filterMap.mp member
  cases x with
  | dispatched h' due' clock' =>
    cases dispatched
    have nothing := ((sound.holds h').unknown (Option.map_eq_none_iff.mp unknown)).2.2
    have fate : Fate.dispatched due clock ∈ a.fates h' := by
      refine List.mem_flatMap.mpr ⟨_, told, ?_⟩
      simp [Happening.fates]
    rw [nothing] at fate
    cases fate
  | logged | called | passedOver => cases dispatched

theorem Tame.obtain {keys : List String} {nests : Prop} {key : String} (tame : a.Tame keys nests)
    (shelved : a.Shelved) (inside : key ∈ keys) (session : String) :
    (a.obtainRegistry session key).1.Tame keys nests ∧
      (a.obtainRegistry session key).1.names = a.names := by
  unfold obtainRegistry setHeap
  split
  · exact ⟨tame, rfl⟩
  · dsimp only
    split
    · exact ⟨tame, rfl⟩
    · rename_i s found
      have there := List.mem_of_find?_eq_some found
      obtain ⟨listed, quiet, within, once⟩ := tame s there
      have fresh (key' : String) : s.heap.lookup key' ≠ some (.registry a.nextRegistry) := by
        intro held
        have given := shelved.given _ (shelved.kept s there _ (Session.mem_registries held))
        exact absurd given (Nat.lt_irrefl _)
      refine ⟨Tame.of_sessions (Tame.setSession tame (s := { s with
        heap := putPair key (.registry a.nextRegistry) s.heap }) ⟨listed, quiet, ?_, ?_⟩) rfl,
        names_setSession_eq a _⟩
      · intro key' id held
        rw [lookup_putPair] at held
        split at held
        · rename_i here
          rw [here]
          exact inside
        · exact within key' id held
      · intro key' key'' id held held'
        rw [lookup_putPair] at held held'
        split at held <;> split at held'
        · simp_all
        · cases held
          exact absurd held' (fresh key'')
        · cases held'
          exact absurd held (fresh key')
        · exact once key' key'' id held held'

theorem Places.enters {slots : Slot → Prop} {slot q : Slot} (places : a.Places slots slot ids)
    (persists : a.Persists b) (retains : a.Retains b) (names : b.names = a.names) (used : slots q)
    (lives : q.session ∈ b.names) (new : h ∉ ids) (filed : b.FiledFor q.session q.key q.name h)
    (others : ∀ h' x, b.core? h' = some x → h' = h ∨ ∃ y, a.core? h' = some y) :
    b.Places slots slot (if q = slot then ids ++ [h] else ids) := by
  refine places.keeps persists retains names ?_ fun h' x found => ?_
  · split
    · exact places.nodup.append (List.nodup_singleton h) (List.disjoint_singleton.mpr new)
    · exact places.nodup
  · by_cases fresh : h' = h
    · subst fresh
      refine .inr ⟨q, used, filed, lives, ?_⟩
      split
      · rename_i own
        simp [own]
      · rename_i other
        simp [new, other]
    · refine .inl ⟨(others h' x found).resolve_left fresh, ?_⟩
      split
      · simp [fresh]
      · exact .rfl

theorem Reckoned.makes {rule : Rule} {old : Option HandleId} {now : Zoned} (reckoned : a.Reckoned ρ)
    (start : ρ.Zones rule.start.zone) (shows : ρ.Shows now)
    (sought : (Handle.fresh session name event rule args config.coalesce now).sought?
      (fun _ => false) = some x)
    (cores : ∀ h, b.core? h = if h = a.handles.length then some x
      else if old = some h then (a.core? h).map Handle.withdrawn else a.core? h)
    (due : ∀ e ∈ b.pending, e ∈ a.pending ∨ x.nextFire = some e.due) (clock : b.clock = a.clock) :
    b.Reckoned ρ := by
  have fits : (Handle.fresh session name event rule args config.coalesce now).sequence.Fits ρ :=
    Handle.fits_fresh start shows
  obtain ⟨alike, next⟩ := Handle.sought?_spec sought
  refine ⟨?_, fun e member => ?_, fun h y found => ?_⟩
  · rw [clock]
    exact reckoned.clock
  · rcases due e member with before | new
    · exact reckoned.due e before
    · exact fits.admits_of_mem_run e.due (next e.due new)
  · rw [cores] at found
    split at found
    · cases found
      exact fits.alike alike
    · split at found
      · obtain ⟨z, before, rfl⟩ := Option.map_eq_some_iff.mp found
        rw [Handle.sequence_withdrawn]
        exact reckoned.fits h z before
      · exact reckoned.fits h y found

namespace Regular

/-- Where adding makes no schedule at most an empty registry is new. -/
theorem spares (regular : a.Regular σ firing ids s) (moves : a.Moves b) (tidies : a.Tidies b)
    (spares : a.Spares b) (key : config.heapKey ∈ σ.keys)
    (sessions : b.sessions = (a.obtainRegistry session config.heapKey).1.sessions) :
    b.Regular σ firing ids s := by
  obtain ⟨tame, names⟩ := regular.tame.obtain regular.orderly.toShelved key session
  exact regular.change (regular.sound.moves moves) tidies (.moves moves)
    ((congrArg (List.map Session.name) sessions).trans names) (tame.of_sessions sessions)
    (regular.reckoned.congr spares.clock spares.pending spares.cores)
    (fun h x found => ⟨x, spares.cores h ▸ found⟩)
    (regular.shown.congr (fun h _ => spares.cores h) moves.tells.dispatches)

/-- A schedule that is made comes behind those of its place, which are withdrawn. -/
theorem makes (regular : a.Regular σ firing ids s) (moves : a.Moves b) (tidies : a.Tidies b)
    (lives : session ∈ a.names) (key : config.heapKey ∈ σ.keys)
    (used : σ.slots ⟨session, config.heapKey, name⟩)
    (filed : b.FiledFor session config.heapKey name a.handles.length) {rule : Rule} {now : Zoned}
    (start : σ.reckoning.Zones rule.start.zone) (shows : σ.reckoning.Shows now)
    (sought : (Handle.fresh session name event rule args config.coalesce now).sought?
      (fun _ => false) = some x)
    (cores : ∀ h, b.core? h = if h = a.handles.length then some x
      else if a.get? config session name = some h then (a.core? h).map Handle.withdrawn
      else a.core? h)
    (due : ∀ e ∈ b.pending, e ∈ a.pending ∨ x.nextFire = some e.due) (clock : b.clock = a.clock)
    (sessions : b.sessions = (a.obtainRegistry session config.heapKey).1.sessions) :
    b.Regular σ firing
      (if ⟨session, config.heapKey, name⟩ = σ.slot then ids ++ [a.handles.length] else ids)
      (if ⟨session, config.heapKey, name⟩ = σ.slot
        then { s.withdrawn with schedules := s.withdrawn.schedules ++ [x.readBy σ.reckoning] }
        else s) := by
  obtain ⟨tame, names⟩ := regular.tame.obtain regular.orderly.toShelved key session
  obtain ⟨orderly, retains⟩ := tidies _ regular.orderly
  have dispatches := moves.tells.dispatches
  have names : b.names = a.names := (congrArg (List.map Session.name) sessions).trans names
  have new : a.handles.length ∉ ids := by
    intro inside
    obtain ⟨y, core⟩ := regular.known inside
    rw [core?_length] at core
    cases core
  have others : ∀ h ∈ ids, b.core? h = if a.get? config session name = some h
      then (a.core? h).map Handle.withdrawn else a.core? h := by
    intro h inside
    have old : h ≠ a.handles.length := by
      rintro rfl
      exact new inside
    rw [cores, if_neg old]
  have vacated := regular.withdrawn others dispatches
  refine ⟨regular.sound.moves moves, orderly, tame.of_sessions sessions,
    retains.schedulers.trans regular.schedulers, names.trans regular.names,
    regular.reckoned.makes start shows sought cores due clock,
    regular.places.enters (.moves moves) retains names used (names ▸ lives) new filed
      fun h y found => ?_, ?_⟩
  · rw [cores] at found
    split at found
    · exact .inl ‹_›
    · right
      split at found
      · obtain ⟨z, before, -⟩ := Option.map_eq_some_iff.mp found
        exact ⟨z, before⟩
      · exact ⟨y, found⟩
  · split
    · rename_i own
      rw [if_pos own] at vacated
      have core : b.core? a.handles.length = some x := by rw [cores, if_pos rfl]
      exact vacated.append (dispatches ▸ regular.sound.undispatched a.core?_length) core
    · rename_i other
      rw [if_neg other] at vacated
      exact vacated

/-- What adding a schedule at a place comes to for the share. -/
theorem add (regular : a.Regular σ firing ids s) (lives : session ∈ a.names)
    (key : config.heapKey ∈ σ.keys) (used : σ.slots ⟨session, config.heapKey, name⟩)
    (fits : source.Fits σ.reckoning) (event : String) (args : List α) :
    (a.addSchedule config session name event source args).1.Regular σ firing
      (if ⟨session, config.heapKey, name⟩ = σ.slot
        then ids ++ (a.addSchedule config session name event source args).2.toOption.toList else ids)
      (if ⟨session, config.heapKey, name⟩ = σ.slot
        then s.added (σ.reckoning.reading a.clock) config session name event source args else s) := by
  have moves : a.Moves (a.addSchedule config session name event source args).1 :=
    Moves.refl.addSchedule config session name event source args
  have adds := regular.orderly.adds lives config name event source args
  have tidies : a.Tidies (a.addSchedule config session name event source args).1 :=
    .addSchedule lives config name event source args
  have enters := regular.orderly.enters lives config name event source args
  have taken (own : (⟨session, config.heapKey, name⟩ : Slot) = σ.slot) :
      s.schedules.any Handle.isArmed = true ↔ a.get? config session name ≠ none := by
    have key : config.heapKey = σ.slot.key := congrArg Slot.key own
    have stands := regular.any_armed_iff key
    rw [← own] at stands
    exact stands
  -- Where nothing is made the share stays as it is.
  have unmade {b : Agenda α} {f : Fault} (kept : b.Regular σ firing ids s)
      (same : (⟨session, config.heapKey, name⟩ : Slot) = σ.slot →
        s.added (σ.reckoning.reading a.clock) config session name event source args = s) :
      b.Regular σ firing (if ⟨session, config.heapKey, name⟩ = σ.slot
        then ids ++ (.error f : Except Fault HandleId).toOption.toList else ids)
        (if ⟨session, config.heapKey, name⟩ = σ.slot
          then s.added (σ.reckoning.reading a.clock) config session name event source args else s) := by
    split
    · rename_i own
      rw [same own]
      simpa [Except.toOption] using kept
    · exact kept
  have filed := adds.filed
  have shows : σ.reckoning.Shows a.clock.wholeSecond := regular.reckoned.clock.wholeSecond
  -- The rule, and what becomes of the new handle, as they are told where the clock is.
  have told : source.rule (σ.reckoning.reading a.clock).wholeSecond =
      source.rule a.clock.wholeSecond := by
    rw [← regular.reckoned.clock.reading_wholeSecond]
    exact fits.same _ shows
  generalize a.addSchedule config session name event source args = added
    at moves tidies filed enters ⊢
  cases enters with
  | invalid unread => exact unmade regular fun _ => Share.added_invalid (told.trans unread)
  | duplicate read occupied strict spares sessions =>
    exact unmade (regular.spares moves tidies spares key sessions) fun own =>
      Share.added_taken (told.trans read) ((taken own).mpr occupied) strict
  | fails read free beyond spares sessions =>
    have start := fits.starts _ _ shows read
    refine unmade (regular.spares moves tidies spares key sessions) fun own => ?_
    rw [Share.added_free (told.trans read) fun armed => free ((taken own).mp armed),
      ← regular.reckoned.clock.reading_wholeSecond, Handle.sought?_fresh_reading start shows]
    have beyond : (Handle.fresh session name event _ args config.coalesce
      a.clock.wholeSecond).sought? (fun _ => false) = none := beyond
    rw [beyond]
    rfl
  | makes read free sought cores due clock sessions =>
    have start := fits.starts _ _ shows read
    have sought : (Handle.fresh session name event _ args config.coalesce
      a.clock.wholeSecond).sought? (fun _ => false) = some _ := sought
    have made := regular.makes moves tidies lives key used (filed _ rfl) start shows sought cores due
      clock sessions
    split
    · rename_i own
      rw [if_pos own, if_pos own] at made
      rw [Share.added_free (told.trans read) fun armed => free ((taken own).mp armed),
        ← regular.reckoned.clock.reading_wholeSecond, Handle.sought?_fresh_reading start shows,
        sought]
      exact made
    · rename_i other
      rw [if_neg other, if_neg other] at made
      exact made

end Regular

end Agenda

end Almanac
