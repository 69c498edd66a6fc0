import Almanac.Proofs.Schedule.Steps

set_option autoImplicit false

/-!
Handles never go away.

Whatever happens, a handle stays whose it is, and with the event that it dispatches. One that has
ended stays so.
-/

namespace Almanac

variable {α : Type}

namespace Handle

/-- What a handle dispatches, and to whom. -/
def address (handle : Handle α) : String × String × List α :=
  (handle.session, handle.event, handle.args)

/-- What may become of a handle. -/
structure Becomes (handle handle' : Handle α) : Prop where
  name : handle'.name = handle.name
  address : handle'.address = handle.address
  state : handle'.state = handle.state ∨ handle.state = .armed ∧ handle'.state ≠ .armed
  coalesce : handle'.coalesce = handle.coalesce

variable {handle handle' handle'' : Handle α}

theorem Becomes.refl (handle : Handle α) : handle.Becomes handle :=
  ⟨rfl, rfl, .inl rfl, rfl⟩

theorem Becomes.trans (becomes : handle.Becomes handle') (becomes' : handle'.Becomes handle'') :
    handle.Becomes handle'' := by
  refine ⟨becomes'.name.trans becomes.name, becomes'.address.trans becomes.address, ?_,
    becomes'.coalesce.trans becomes.coalesce⟩
  rcases becomes'.state with same | ⟨armed, ended⟩
  · rw [same]
    exact becomes.state
  · rcases becomes.state with same | ⟨-, ended'⟩
    · exact .inr ⟨same.symm.trans armed, ended⟩
    · exact absurd armed ended'

theorem Becomes.session (becomes : handle.Becomes handle') : handle'.session = handle.session :=
  congrArg Prod.fst becomes.address

/-- A handle that has ended stays so. -/
theorem Becomes.ended (becomes : handle.Becomes handle') (ended : handle.state ≠ .armed) :
    handle'.state ≠ .armed := by
  rcases becomes.state with same | ⟨armed, -⟩
  · rw [same]
    exact ended
  · exact absurd armed ended

theorem becomes_of_unregistered (same : handle'.unregistered = handle.unregistered) :
    handle.Becomes handle' :=
  ⟨(congrArg name same :), (congrArg address same :), .inl (congrArg state same :),
    (congrArg coalesce same :)⟩

end Handle

namespace Agenda

/-- All handles are still there, as what may have become of them. -/
def Persists (a b : Agenda α) : Prop :=
  ∀ h handle, a.handle? h = some handle → ∃ handle', b.handle? h = some handle' ∧
    handle.Becomes handle'

variable {a b c : Agenda α} {h : HandleId} {handle handle' : Handle α} {e : Entry}

namespace Persists

theorem trans (persists : a.Persists b) (persists' : b.Persists c) : a.Persists c := by
  intro h handle found
  obtain ⟨handle', found', becomes⟩ := persists h handle found
  obtain ⟨handle'', found'', becomes'⟩ := persists' h handle' found'
  exact ⟨handle'', found'', becomes.trans becomes'⟩

theorem same (handles : b.handles = a.handles) : a.Persists b := by
  intro h handle found
  exact ⟨handle, (handle?_of_handles handles h).trans found, .refl handle⟩

theorem set (found : a.handle? h = some handle) (handles : b.handles = a.handles.set h handle')
    (becomes : handle.Becomes handle') : a.Persists b := by
  intro h' other known
  by_cases same : h' = h
  · subst same
    cases found.symm.trans known
    exact ⟨handle', handle?_set_self handles (lt_of_handle? found), becomes⟩
  · refine ⟨other, ?_, .refl other⟩
    rw [handle?_set_ne handles same]
    exact known

theorem quiet (quiet : a.Quiet b) : a.Persists b := by
  intro h handle found
  obtain ⟨handle', found', same⟩ := quiet.found found
  exact ⟨handle', found', Handle.becomes_of_unregistered same⟩

theorem sequence (found : a.handle? h = some handle) {sequence : Sequence} :
    a.Persists (a.setHandle h { handle with sequence }) := by
  have handles : (a.setHandle h { handle with sequence }).handles =
      a.handles.set h { handle with sequence } := rfl
  exact .set found handles ⟨rfl, rfl, .inl rfl, rfl⟩

theorem cancels (cancels : a.Cancels h handle b) : a.Persists b :=
  .set cancels.found cancels.handles ⟨rfl, rfl, .inr ⟨cancels.armed, nofun⟩, rfl⟩

theorem arms {missed : Zoned → Bool} (found : a.handle? h = some handle)
    (armed : handle.state = .armed) (arms : a.Arms h handle missed b) : a.Persists b := by
  cases arms with
  | waits alike run passes handles => exact .set found handles ⟨rfl, rfl, .inl rfl, rfl⟩
  | ends alike run nothing passes handles =>
    exact .set found handles ⟨rfl, rfl, .inr ⟨armed, nofun⟩, rfl⟩

theorem creates (creates : a.Creates handle b) : a.Persists b := by
  have appended : a.Persists { a with handles := a.handles ++ [handle] } := by
    intro h old found
    refine ⟨old, ?_, .refl old⟩
    rw [handle?, List.getElem?_append_left (lt_of_handle? found)]
    exact found
  exact appended.trans (.arms List.getElem?_concat_length creates.state creates.arms)

theorem moves (moves : a.Moves b) : a.Persists b := by
  induction moves with
  | refl => exact .same rfl
  | tail moves move ih =>
    cases move with
    | quiet quiet => exact ih.trans (.quiet quiet)
    | cancels cancels => exact ih.trans (.cancels cancels)
    | creates creates => exact ih.trans (.creates creates)

theorem serves {served : Option (Handle α)} (serves : a.Serves e b served) : a.Persists b := by
  cases serves with
  | idles takes idle handles => exact .same handles
  | drops takes found armed handles =>
    exact .set found handles ⟨rfl, rfl, .inr ⟨armed, nofun⟩, rfl⟩
  | fires takes found armed due lives handles => exact .set found handles ⟨rfl, rfl, .inl rfl, rfl⟩

end Persists

end Agenda

namespace Run

variable {r r' : Run α}

theorem Stepped.persists (stepped : r.Stepped r') : r.agenda.Persists r'.agenda := by
  cases stepped with
  | moves moves => exact .moves moves
  | serves serves quiet => exact (Agenda.Persists.serves serves).trans (.quiet quiet)
  | finishes firing idle quiet => exact .quiet quiet
  | rearms firing quiet found armed arms quiet' =>
    exact ((Agenda.Persists.quiet quiet).trans (.arms found armed arms)).trans (.quiet quiet')
  | raises raises firing quiet found armed quiet' =>
    exact ((Agenda.Persists.quiet quiet).trans (.sequence found)).trans (.quiet quiet')

end Run

end Almanac
