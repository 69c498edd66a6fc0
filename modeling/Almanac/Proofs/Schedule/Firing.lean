import Almanac.Proofs.Schedule.Lifetime
import Almanac.Proofs.Schedule.Places

set_option autoImplicit false

/-!
Firing a schedule, and arming it again, in their order.

The entry that is taken is the one that its handle waits for. The handle is armed again for a later
time, so an advance takes entries in the order of their times.
-/

namespace Almanac

variable {α : Type}

namespace Agenda

variable {a b : Agenda α} {σ : Setting} {ids : List HandleId} {s : Share α} {h : HandleId}
  {x : Handle α} {handle : Handle α} {ρ : Reckoning} {e : Entry} {t goal : Zoned}

/-! Entries. -/

theorem Sound.exists_entry (sound : a.Sound []) (found : a.handle? h = some handle)
    (armed : handle.state = .armed) : ∃ e ∈ a.pending, handle.nextFire = some e.due := by
  obtain ⟨⟨occurrences, -, stands⟩, -⟩ := (sound.holds h).kept handle found
  obtain ⟨e, only, next, -⟩ := stands.waits armed
  have own : e ∈ a.entriesOf h := by
    rw [only]
    exact List.mem_singleton_self e
  exact ⟨e, (mem_entriesOf.mp own).1, next⟩

/-- All that is left of a handle in its dispatch is later than what is dispatched. -/
theorem Sound.rises (sound : a.Sound [h]) (found : a.handle? h = some handle)
    (armed : handle.state = .armed) (next : handle.nextFire = some t) :
    ∀ u ∈ handle.sequence.run.1, t.before u = true := by
  obtain ⟨⟨occurrences, ⟨notBefore, -, run⟩, stands⟩, -⟩ := (sound.holds h).kept handle found
  rw [List.count_singleton_self] at stands
  generalize a.entriesOf h = entries, a.fates h = fates at stands
  cases stands with
  | @dispatching past t' clock fates state next' timer consumed =>
    cases next.symm.trans next'
    have rise := Sequence.run_ofRule_rises handle.rule (some notBefore)
    rw [run, consumed] at rise
    exact (List.pairwise_cons.mp (List.pairwise_append.mp rise).2.1).1
  | cancelledAfter state => rw [armed] at state; cases state

theorem eq_nil_of_earliest {es : List Entry} (none : earliest es = none) : es = [] := by
  cases es with
  | nil => rfl
  | cons e es =>
    unfold earliest at none
    split at none <;> cases none

theorem le_of_earliest {es : List Entry} (admits : ∀ e ∈ es, ρ.Admits e.due)
    (first : earliest es = some e) : ∀ e' ∈ es, ρ.place e.due ≤ ρ.place e'.due := by
  induction es generalizing e with
  | nil => cases first
  | cons d es ih =>
    have tail : ∀ e ∈ es, ρ.Admits e.due := fun e member => admits e (List.mem_cons_of_mem d member)
    have head : ρ.Admits d.due := admits d List.mem_cons_self
    unfold earliest at first
    split at first
    · rename_i none
      cases first
      intro e' member
      rw [eq_nil_of_earliest none, List.mem_singleton] at member
      rw [member]
    · rename_i later found
      have least := ih tail found
      have before := Reckoning.before_iff (tail later (mem_of_earliest found)) head
      split at first
      · rename_i earlier
        cases first
        refine List.forall_mem_cons.mpr ⟨(before.mp earlier).le, least⟩
      · rename_i other
        cases first
        have first := Int.not_lt.mp (before.not.mp other)
        exact List.forall_mem_cons.mpr ⟨le_rfl, fun e' member => first.trans (least e' member)⟩

/-! Taking an entry. -/

/-- The agenda once an entry has been taken. -/
def taken (a : Agenda α) (e : Entry) : Agenda α :=
  { a.removeEntry e.id with clock := a.clock.later e.due }

theorem clockAtLeast_later (a : Agenda α) (t : Zoned) :
    a.clockAtLeast t = { a with clock := a.clock.later t } := by
  unfold clockAtLeast Zoned.later
  split <;> rfl

theorem clockAtLeast_taken (a : Agenda α) (e : Entry) :
    (a.removeEntry e.id).clockAtLeast e.due = a.taken e :=
  clockAtLeast_later _ _

theorem mem_taken {e' : Entry} (member : e' ∈ (a.taken e).pending) : e' ∈ a.pending :=
  (List.mem_filter.mp member).1

theorem Reckoned.taken (reckoned : a.Reckoned ρ) (shows : ρ.Shows (a.clock.later e.due)) :
    (a.taken e).Reckoned ρ :=
  ⟨shows, fun e' there => reckoned.due e' (mem_taken there), reckoned.fits⟩

theorem Reckoned.handles (reckoned : a.Reckoned ρ) (clock : b.clock = a.clock)
    (due : ∀ e ∈ b.pending, ρ.Admits e.due) (fits : x.sequence.Fits ρ)
    (cores : ∀ h', b.core? h' = if h' = h then some x else a.core? h') : b.Reckoned ρ := by
  refine ⟨?_, due, fun h' y found => ?_⟩
  · rw [clock]
    exact reckoned.clock
  · rw [cores] at found
    split at found
    · cases found
      exact fits
    · exact reckoned.fits h' y found

theorem exists_core?_of_set {y : Handle α} (core : a.core? h = some y)
    (cores : ∀ h', b.core? h' = if h' = h then some x else a.core? h') (h' : HandleId) (z : Handle α)
    (known : b.core? h' = some z) : ∃ y, a.core? h' = some y := by
  rw [cores] at known
  split at known
  · rename_i own
    rw [own]
    exact ⟨y, core⟩
  · exact ⟨z, known⟩

theorem fire_ended (idle : ∀ handle, a.handle? h = some handle → handle.state ≠ .armed) :
    a.fire h = (a, none) := by
  unfold fire
  split
  · rfl
  · rename_i handle found
    rw [if_neg (Handle.isArmed_iff.not.mpr (idle handle found))]

theorem fire_armed (found : a.handle? h = some handle) (armed : handle.state = .armed)
    (next : handle.nextFire = some t) (lives : handle.session ∈ a.names) :
    a.fire h = ((a.setHandle h { handle with timer := none, fired := handle.fired + 1 }).record
        (.dispatched h t a.clock),
      some { handle with timer := none, fired := handle.fired + 1 }) := by
  have there : ¬(a.session? handle.session).isNone = true := by
    simpa using session?_ne_none_iff.mpr lives
  unfold fire
  simp only [found, if_pos (Handle.isArmed_iff.mpr armed), if_neg there, next]
  rfl

theorem dispatches_record (a : Agenda α) (h : HandleId) (t clock : Zoned) :
    (a.record (.dispatched h t clock)).dispatches = a.dispatches ++ [(h, t, clock)] := by
  simp [dispatches, record, Happening.dispatch?]

namespace Regular

theorem lives (regular : a.Regular σ [] ids s) (found : a.handle? h = some handle) :
    handle.session ∈ a.names := by
  obtain ⟨q, -, ⟨l, labelled, -, whose, -⟩, lives, -⟩ :=
    regular.places.filed h _ (core?_eq_some_iff.mpr ⟨handle, found, rfl⟩)
  rw [label?, found] at labelled
  cases labelled
  rw [show handle.session = q.session from whose]
  exact lives

/-- An entry whose handle has ended changes nothing but the clock. -/
theorem idle_entry (regular : a.Regular σ [] ids s) (member : e ∈ a.pending)
    (shows : σ.reckoning.Shows (a.clock.later e.due))
    (idle : ∀ handle, a.handle? e.handle = some handle → handle.state ≠ .armed) :
    (a.taken e).fire e.handle = (a.taken e, none) ∧ (a.taken e).Regular σ [] ids s := by
  have fired : (a.taken e).fire e.handle = (a.taken e, none) := fire_ended idle
  have serves := a.serves member
  rw [clockAtLeast_taken, fired] at serves
  refine ⟨fired, regular.change (regular.sound.serves serves) (.serves serves) (.serves serves) rfl
    regular.tame (regular.reckoned.taken shows) (fun h x found => ⟨x, found⟩) ?_⟩
  exact regular.shown.congr (fun _ _ => rfl) rfl

theorem fires (regular : a.Regular σ [] ids s) (member : e ∈ a.pending)
    (shows : σ.reckoning.Shows (a.clock.later e.due))
    (found : a.handle? e.handle = some handle) (armed : handle.state = .armed) :
    ∃ b, (a.taken e).fire e.handle =
        (b, some { handle with timer := none, fired := handle.fired + 1 }) ∧
      b.Regular σ [e.handle] ids (if e.handle ∈ ids then
        s.fired (ids.idxOf e.handle) (handle.core.readBy σ.reckoning) e.due
          (σ.reckoning.reading (a.clock.later e.due)) else s) ∧
      b.core? e.handle = some { handle.core with fired := handle.fired + 1 } ∧
      b.pending = (a.taken e).pending ∧ b.clock = a.clock.later e.due := by
  have next := (regular.sound.waits_of_mem member found armed).2
  have core : a.core? e.handle = some handle.core := core?_eq_some_iff.mpr ⟨handle, found, rfl⟩
  have fired : (a.taken e).fire e.handle = _ :=
    fire_armed (a := a.taken e) found armed next (regular.lives found)
  have serves := a.serves member
  rw [clockAtLeast_taken, fired] at serves
  have sound := regular.sound.serves serves
  have tidies := Tidies.serves serves
  have persists := Persists.serves serves
  have taken := regular.reckoned.taken shows
  have cores (h' : HandleId) := core?_set (b := (((a.taken e).setHandle e.handle
    { handle with timer := none, fired := handle.fired + 1 }).record (.dispatched e.handle e.due
      (a.taken e).clock))) (a := a.taken e) found rfl h'
  refine ⟨_, fired, regular.change sound tidies persists rfl regular.tame ?_ ?_ ?_, ?_, rfl, rfl⟩
  · refine taken.handles rfl taken.due ?_ cores
    exact regular.reckoned.fits e.handle handle.core core
  · exact exists_core?_of_set core cores
  · exact regular.shown.fire regular.places.nodup cores (dispatches_record _ _ _ _)
  · rw [cores, if_pos rfl]
    rfl

/-- What is armed again comes to what its schedule does for itself. -/
theorem arrives {now : Zoned} {x y : Handle α}
    (regular : a.Regular σ [h] ids (if h ∈ ids then s.fired (ids.idxOf h) x t now else s))
    (found : a.handle? h = some handle) (armed : handle.state = .armed)
    (arms : a.Arms h handle (fun t => handle.coalesce && t.before a.clock) b)
    (arrives : a.Arrives h y b) (alike : handle.sequence.Alike y.sequence)
    (left : ∀ u, y.nextFire = some u → u ∈ handle.sequence.run.1) :
    b.Regular σ [] ids (if h ∈ ids then { s.fired (ids.idxOf h) x t now with
      schedules := s.schedules.set (ids.idxOf h) (y.readBy σ.reckoning) } else s) := by
  have core : a.core? h = some handle.core := core?_eq_some_iff.mpr ⟨handle, found, rfl⟩
  have cores := arrives.core? (lt_of_handle? found)
  have fits : handle.sequence.Fits σ.reckoning := regular.reckoned.fits h handle.core core
  refine regular.change (regular.sound.rearms found armed arms) (.arms found arms)
    (.arms found armed arms) (congrArg (List.map Session.name) arms.sessions)
    (regular.tame.of_sessions arms.sessions) ?_ ?_ ?_
  · refine regular.reckoned.handles arrives.clock (fun e member => ?_) (fits.alike alike) cores
    rcases arrives.due member with before | new
    · exact regular.reckoned.due e before
    · exact fits.admits_of_mem_run e.due (left e.due new)
  · exact exists_core?_of_set core cores
  · exact regular.shown.rearm regular.places.nodup cores arms.tells.dispatches

/-- At the end of its dispatch a handle is armed for a later time, or ended, as its schedule is for
itself at the time `clock`, which stands where the clock does. -/
theorem rearms {clock now : Zoned}
    (regular : a.Regular σ [h] ids
      (if h ∈ ids then s.fired (ids.idxOf h) (x.readBy σ.reckoning) t now else s))
    (core : a.core? h = some { x with fired := x.fired + 1 }) (armed : x.state = .armed)
    (next : x.nextFire = some t) (admits : σ.reckoning.Admits clock)
    (stands : σ.reckoning.place a.clock = σ.reckoning.place clock) :
    match a.rearm h with
    | (b, .ok _) => ∃ y : Handle α,
        Share.rearmed? (x.readBy σ.reckoning) clock = some (y.readBy σ.reckoning) ∧
        b.Regular σ [] ids (if h ∈ ids then { s.fired (ids.idxOf h) (x.readBy σ.reckoning) t now with
          schedules := s.schedules.set (ids.idxOf h) (y.readBy σ.reckoning) } else s) ∧
        b.clock = a.clock ∧ ∀ e ∈ b.pending, e ∈ a.pending ∨ t.before e.due = true
    | (_, .error _) => Share.rearmed? (x.readBy σ.reckoning) clock = none := by
  obtain ⟨handle, found, same⟩ := core?_eq_some_iff.mp core
  have armed' : handle.state = .armed := (congrArg Handle.state same).trans armed
  have next' : handle.nextFire = some t := (congrArg Handle.nextFire same).trans next
  have rises := regular.sound.rises found armed' next'
  have fits := regular.reckoned.fits h _ (core?_eq_some_iff.mpr ⟨handle, found, rfl⟩)
  have told : Share.rearmed? (x.readBy σ.reckoning) clock =
      (handle.core.sought? fun t => handle.coalesce && t.before a.clock).map
        (Handle.readBy σ.reckoning) := by
    have coalesce : handle.coalesce = x.coalesce := (congrArg Handle.coalesce same :)
    rw [← Handle.sought?_readBy fits fun t here => ?_, same]
    · rfl
    · rw [coalesce]
      exact congrArg _ (Reckoning.before_congr regular.reckoned.clock.admits admits here stands).symm
  have arm : a.rearm h = a.arm h handle handle.coalesce := by
    simp [rearm, found, Handle.isArmed_iff.mpr armed']
  have spec := arm_spec a h handle handle.coalesce
  have sought := arm_core a h handle handle.coalesce
  rw [arm]
  generalize a.arm h handle handle.coalesce = result at spec sought ⊢
  obtain ⟨b, fault | ⟨⟩⟩ := result
  · rw [told]
    exact congrArg _ sought
  · obtain ⟨y, sought, arrives⟩ := sought
    obtain ⟨alike, left⟩ := Handle.sought?_spec sought
    refine ⟨y, told.trans (congrArg _ sought),
      regular.arrives found armed' spec arrives alike left, arrives.clock, ?_⟩
    exact fun e member => (arrives.due member).imp_right fun new => rises e.due (left e.due new)

end Regular

end Agenda

end Almanac
