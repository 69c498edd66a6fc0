import Almanac.Proofs.Schedule.Conservation
import Almanac.Proofs.Schedule.Course

set_option autoImplicit false

/-!
The life of a handle, and its timer entry.

A handle that has ended stays so in all that comes later. With a timer that can take entries back, a
handle in a reachable run has one entry while it waits for an occurrence, and none while its dispatch
runs or after it has ended.
-/

namespace Almanac

variable {α : Type}

namespace Run

variable {r r' : Run α}

theorem Later.persists (later : r.Later r') : r.agenda.Persists r'.agenda := by
  induction later with
  | refl => exact .same rfl
  | tail later next ih => exact ih.trans next.stepped.persists

end Run

namespace Handle

variable {handle : Handle α} {occurrences : List Zoned} {entries : List Entry} {busy : Nat}
  {fates : List Fate}

theorem Stands.next_iff {revocable : Bool}
    (stands : handle.Stands occurrences revocable entries busy fates) :
    handle.nextFire.isSome = true ↔ handle.state = .armed := by
  cases stands with
  | waiting state next | dispatching state next | exhausted state next | cancelled state next
  | cancelledAfter state next => simp [state, next]

theorem Stands.few {revocable : Bool}
    (stands : handle.Stands occurrences revocable entries busy fates) : entries.length ≤ 1 := by
  cases stands with
  | waiting => exact le_rfl
  | dispatching | exhausted | cancelledAfter => exact Nat.zero_le _
  | cancelled _ _ _ _ few => exact few

theorem Stands.waits {revocable : Bool}
    (stands : handle.Stands occurrences revocable entries 0 fates) (armed : handle.state = .armed) :
    ∃ e, entries = [e] ∧ handle.nextFire = some e.due ∧ handle.timer = some e.id := by
  cases stands with
  | @waiting _ e _ _ next timer => exact ⟨e, rfl, next, timer⟩
  | exhausted state | cancelled state | cancelledAfter state =>
    rw [armed] at state
    cases state

theorem Stands.left {revocable : Bool}
    (stands : handle.Stands occurrences revocable entries busy fates) :
    handle.sequence.run.1 <:+ occurrences := by
  -- What is left follows what has been consumed, and the occurrence consumed last.
  have left {past : List Zoned} {t : Zoned} (consumed : occurrences =
      past ++ t :: handle.sequence.run.1) : handle.sequence.run.1 <:+ occurrences :=
    ⟨past ++ [t], by rw [consumed, List.append_assoc, List.singleton_append]⟩
  cases stands with
  | waiting _ _ _ consumed | dispatching _ _ _ consumed | cancelled _ _ _ consumed
  | cancelledAfter _ _ _ consumed => exact left consumed
  | exhausted _ _ _ consumed =>
    rw [consumed]
    exact List.nil_suffix

theorem Stands.none_of_ended (stands : handle.Stands occurrences true entries busy fates)
    (ended : handle.state ≠ .armed) : entries = [] := by
  cases stands with
  | waiting state | dispatching state => exact absurd state ended
  | exhausted | cancelledAfter => rfl
  | cancelled _ _ _ _ _ revoked => exact revoked rfl

end Handle

theorem Agenda.Sound.waits_of_mem {a : Agenda α} {firing : List HandleId} {e : Entry}
    {handle : Handle α} (sound : a.Sound firing) (member : e ∈ a.pending)
    (found : a.handle? e.handle = some handle) (armed : handle.state = .armed) :
    e.handle ∉ firing ∧ handle.nextFire = some e.due := by
  obtain ⟨⟨occurrences, -, stands⟩, -⟩ := (sound.holds e.handle).kept handle found
  have own : e ∈ a.entriesOf e.handle := mem_entriesOf.mpr ⟨member, rfl⟩
  rw [← List.count_eq_zero]
  generalize a.entriesOf e.handle = entries, a.fates e.handle = fates,
    firing.count e.handle = busy at stands own
  cases stands with
  | waiting _ next =>
    rw [List.mem_singleton.mp own]
    exact ⟨rfl, next⟩
  | dispatching | exhausted | cancelledAfter => cases own
  | cancelled state =>
    rw [armed] at state
    cases state

/-- A handle and its timer stay in step. It waits for an instant exactly while it is armed, and has
one entry, for that instant, while it is armed and its dispatch does not run. Once it has ended it
has none, and it stays as it has ended in all that comes later. -/
theorem Run.handle_and_timer_in_step {r : Run α} (reachable : r.Reachable)
    (revocable : r.agenda.revocable = true) {h : HandleId} {handle : Handle α}
    (found : r.agenda.handle? h = some handle) :
    (handle.nextFire.isSome = true ↔ handle.state = .armed) ∧
      (r.agenda.entriesOf h).length ≤ 1 ∧
      (handle.state = .armed → h ∉ r.firing → ∃ e, r.agenda.entriesOf h = [e] ∧
        handle.nextFire = some e.due ∧ handle.timer = some e.id) ∧
      (handle.state ≠ .armed → r.agenda.entriesOf h = []) ∧
      ∀ r', r.Later r' → ∃ handle', r'.agenda.handle? h = some handle' ∧
        (handle'.state = handle.state ∨
          handle.state = .armed ∧ (handle'.state = .exhausted ∨ handle'.state = .cancelled)) := by
  obtain ⟨⟨occurrences, -, stands⟩, -⟩ := ((sound_of_reachable reachable).holds h).kept handle found
  refine ⟨stands.next_iff, stands.few, ?_, ?_, ?_⟩
  · intro armed outside
    rw [List.count_eq_zero.mpr outside] at stands
    exact stands.waits armed
  · intro ended
    rw [revocable] at stands
    exact stands.none_of_ended ended
  · intro r' later
    obtain ⟨handle', found', becomes⟩ := later.persists h handle found
    refine ⟨handle', found', becomes.state.imp id (And.imp id fun ended => ?_)⟩
    cases state : handle'.state with
    | armed => exact absurd state ended
    | exhausted => exact .inl rfl
    | cancelled => exact .inr rfl

namespace twoHours

/-- In the dispatch of the first occurrence there is no entry, and once the handle has been armed
again there is one for the second. -/
theorem in_step_rearmed : (dispatching.entriesOf 0).length ≤ 1 ∧
    (∃ e, rearmed.entriesOf 0 = [e] ∧ some second = some e.due ∧ some 1 = some e.id) ∧
    ∃ handle', rearmed.handle? 0 = some handle' ∧ handle'.state = .armed := by
  obtain ⟨-, few, -, -, later⟩ := Run.handle_and_timer_in_step reachable_dispatching rfl
    (show dispatching.handle? 0 = some (handle (sequence 17522857 twoHours.start 1) twoHours.start
      none 1) from rfl)
  obtain ⟨-, -, waits, -⟩ := Run.handle_and_timer_in_step reachable_rearmed rfl
    (show rearmed.handle? 0 = some (handle (sequence 17522858 second 2) second (some 1) 1) from rfl)
  refine ⟨few, waits rfl (by decide), ?_⟩
  obtain ⟨handle', found, same | ⟨-, ended | ended⟩⟩ :=
    later _ (Run.Later.refl.tail (.step step_dispatching))
  · exact ⟨handle', found, same⟩
  · cases found
    cases ended
  · cases found
    cases ended

end twoHours

end Almanac
