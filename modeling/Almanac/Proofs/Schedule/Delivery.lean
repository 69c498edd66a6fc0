import Almanac.Proofs.Schedule.Persistence

set_option autoImplicit false

/-!
Every dispatch reaches the session of its handle.

The journal notes the dispatch of a handle, and right after it that the handle's event was delivered
to its session. Whom a handle is for, and with which event, never changes.
-/

namespace Almanac

variable {α : Type}

namespace Agenda

/-- All handles are still there, with their addresses. -/
def Stays (a b : Agenda α) : Prop :=
  ∀ h x, (a.handle? h).map Handle.address = some x → (b.handle? h).map Handle.address = some x

/-- Each dispatch in the journal is followed at once by its delivery. -/
def Delivered (a : Agenda α) : Prop :=
  ∀ later earlier h due clock, a.journal = later ++ .dispatched h due clock :: earlier →
    ∃ session event args x news, (a.handle? h).map Handle.address = some (session, event, args) ∧
      Happening.Delivers session event args x ∧ later = news ++ [x]

variable {a b c : Agenda α} {h : HandleId} {handle handle' : Handle α} {e : Entry}

theorem Persists.stays (persists : a.Persists b) : a.Stays b := by
  intro h x known
  obtain ⟨handle, found, address⟩ := Option.map_eq_some_iff.mp known
  obtain ⟨handle', found', becomes⟩ := persists h handle found
  rw [found', Option.map_some, becomes.address, address]

namespace Delivered

/-- News of no dispatch leave all dispatches delivered. -/
theorem tells (delivered : a.Delivered) (stays : a.Stays b) (tells : a.Tells b) :
    b.Delivered := by
  obtain ⟨news, journal, none⟩ := tells
  intro later earlier h due clock found
  rw [journal] at found
  rcases List.append_eq_append_iff.mp found with ⟨rest, old, new⟩ | ⟨rest, old, new⟩
  · obtain ⟨session, event, args, x, rest', known, delivers, same⟩ := delivered _ _ _ _ _ new
    refine ⟨session, event, args, x, news ++ rest', stays _ _ known, delivers, ?_⟩
    rw [old, same, List.append_assoc]
  · cases rest with
    | nil =>
      obtain ⟨session, event, args, x, rest', known, delivers, same⟩ :=
        delivered [] _ _ _ _ new.symm
      cases List.append_ne_nil_of_right_ne_nil _ (List.cons_ne_nil _ _) same.symm
    | cons y rest =>
      cases new
      have := none (.dispatched h due clock) (old ▸ List.mem_append_right _ List.mem_cons_self)
      cases this

theorem quiet (delivered : a.Delivered) (quiet : a.Quiet b) : b.Delivered :=
  delivered.tells (Persists.quiet quiet).stays quiet.tells

theorem moves (delivered : a.Delivered) (moves : a.Moves b) : b.Delivered := by
  induction moves with
  | refl => exact delivered
  | tail moves move ih =>
    cases move with
    | quiet quiet => exact ih.quiet quiet
    | cancels cancels => exact ih.tells (Persists.cancels cancels).stays cancels.tells
    | creates creates => exact ih.tells (Persists.creates creates).stays creates.arms.tells

/-- An event that is delivered right after its dispatch. -/
theorem deliver {x : Happening α} {t : Option Zoned} {clock : Zoned} (delivered : a.Delivered)
    (stays : a.Stays b) (found : a.handle? h = some handle)
    (delivers : Happening.Delivers handle.session handle.event handle.args x)
    (journal : b.journal = x :: ((t.map (.dispatched h · clock)).toList ++ a.journal)) :
    b.Delivered := by
  have quiet : x.isDispatch = false := by cases delivers <;> rfl
  cases t with
  | none =>
    refine delivered.tells stays ⟨[x], journal, fun y member => ?_⟩
    rw [List.mem_singleton.mp member]
    exact quiet
  | some t =>
    intro later earlier h' due' clock' same
    rw [journal] at same
    -- The dispatch is not the latest news, but may be the one before.
    rcases later with _ | ⟨y, _ | ⟨z, later⟩⟩
    · cases same
      cases quiet
    · cases same
      refine ⟨_, _, _, _, [], stays _ _ ?_, delivers, rfl⟩
      rw [found]
      rfl
    · have old := (List.cons.inj (List.cons.inj same).2).2
      obtain ⟨session, event, args, w, news, known, delivers', rfl⟩ := delivered _ _ _ _ _ old
      exact ⟨session, event, args, w, _ :: _ :: news, stays _ _ known, delivers', rfl⟩

end Delivered

end Agenda

namespace Run

variable {r r' : Run α}

theorem delivered_stepped (delivered : r.agenda.Delivered) (stepped : r.Stepped r')
    (calm : ¬r.Raises r') : r'.agenda.Delivered := by
  cases stepped with
  | moves moves => exact delivered.moves moves
  | serves serves quiet firing delivers =>
    have persists := Agenda.Persists.serves serves
    cases serves with
    | idles takes idle handles tells => exact (delivered.tells persists.stays tells).quiet quiet
    | drops takes found armed handles tells =>
      exact (delivered.tells persists.stays tells).quiet quiet
    | fires takes found armed due lives handles journal =>
      obtain ⟨x, delivers, news⟩ := delivers _ rfl
      rw [journal] at news
      exact delivered.deliver (persists.trans (.quiet quiet)).stays found delivers news
  | finishes firing idle quiet => exact delivered.quiet quiet
  | rearms firing quiet found armed arms quiet' =>
    have persists := Agenda.Persists.arms found armed arms
    exact ((delivered.quiet quiet).tells persists.stays arms.tells).quiet quiet'
  | raises raises => exact absurd raises calm

theorem delivered_of_reachable (reachable : r.Reachable) : r.agenda.Delivered := by
  induction reachable with
  | start clock revocable sessions schedulers =>
    intro later earlier h due clock same
    cases List.append_ne_nil_of_right_ne_nil _ (List.cons_ne_nil _ _) same.symm
  | @act r reachable free action ih =>
    exact (ih.moves (performs r.agenda r.activities action).moves).quiet (Agenda.quiet_release _)
  | step reachable step calm ih => exact delivered_stepped ih (stepped step) calm

end Run

end Almanac
