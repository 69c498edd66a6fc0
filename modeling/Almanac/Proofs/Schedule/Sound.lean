import Almanac.Proofs.Schedule.Steps
import Mathlib.Data.List.Forall2
import Mathlib.Data.List.Nodup

set_option autoImplicit false

/-!
What holds of the schedules of an agenda all along.

What a handle has consumed of its occurrences, what became of them, its state, the timer entries for
it and the dispatches that still run fit together in one of a few ways. Each step of a run takes a
handle from one of these to another.
-/

namespace Almanac

variable {α : Type}

/-! Fates. -/

namespace Fate

/-- The fates that an occurrence can have: it is dispatched, not before it is due, or passed over. -/
inductive Of (t : Zoned) : Fate → Prop where
  | dispatched {clock : Zoned} (due : clock.before t = false) : Of t (.dispatched t clock)
  | passedOver : Of t .passedOver

def isDispatch : Fate → Bool
  | dispatched .. => true
  | passedOver => false

theorem of_passedOver (ts : List Zoned) :
    List.Forall₂ Of ts (List.replicate ts.length .passedOver) := by
  induction ts with
  | nil => exact .nil
  | cons t ts ih => exact .cons .passedOver ih

end Fate

namespace Handle

/-- All that a fresh sequence of the rule of a handle, with the same bound, gives. -/
def Gives (handle : Handle α) (occurrences : List Zoned) : Prop :=
  ∃ notBefore, (Sequence.ofRule handle.rule (some notBefore)).Alike handle.sequence ∧
    (Sequence.ofRule handle.rule (some notBefore)).run.1 = occurrences

/-- Where a handle stands in its occurrences, given the timer entries for it, the number of its
dispatches that still run, and what became of its occurrences. -/
inductive Stands (handle : Handle α) (occurrences : List Zoned) (revocable : Bool) :
    List Entry → Nat → List Fate → Prop where
  | waiting {past : List Zoned} {e : Entry} {fates : List Fate} (state : handle.state = .armed)
      (next : handle.nextFire = some e.due) (timer : handle.timer = some e.id)
      (consumed : occurrences = past ++ e.due :: handle.sequence.run.1)
      (met : List.Forall₂ Fate.Of past fates) :
      Stands handle occurrences revocable [e] 0 fates
  | dispatching {past : List Zoned} {t clock : Zoned} {fates : List Fate}
      (state : handle.state = .armed) (next : handle.nextFire = some t)
      (timer : handle.timer = none) (consumed : occurrences = past ++ t :: handle.sequence.run.1)
      (met : List.Forall₂ Fate.Of past fates) (due : clock.before t = false) :
      Stands handle occurrences revocable [] 1 (fates ++ [.dispatched t clock])
  | exhausted {fates : List Fate} (state : handle.state = .exhausted)
      (next : handle.nextFire = none) (timer : handle.timer = none)
      (consumed : handle.sequence.run = ([], .ended))
      (met : List.Forall₂ Fate.Of occurrences fates) :
      Stands handle occurrences revocable [] 0 fates
  | cancelled {past : List Zoned} {t : Zoned} {entries : List Entry} {fates : List Fate}
      (state : handle.state = .cancelled) (next : handle.nextFire = none)
      (timer : handle.timer = none) (consumed : occurrences = past ++ t :: handle.sequence.run.1)
      (few : entries.length ≤ 1) (revoked : revocable = true → entries = [])
      (met : List.Forall₂ Fate.Of past fates) :
      Stands handle occurrences revocable entries 0 fates
  | cancelledAfter {past : List Zoned} {t clock : Zoned} {busy : Nat} {fates : List Fate}
      (state : handle.state = .cancelled) (next : handle.nextFire = none)
      (timer : handle.timer = none) (consumed : occurrences = past ++ t :: handle.sequence.run.1)
      (few : busy ≤ 1) (met : List.Forall₂ Fate.Of past fates) (due : clock.before t = false) :
      Stands handle occurrences revocable [] busy (fates ++ [.dispatched t clock])

/-- What always holds of a handle. -/
structure Kept (handle : Handle α) (revocable : Bool) (entries : List Entry) (busy : Nat)
    (fates : List Fate) : Prop where
  stands : ∃ occurrences, handle.Gives occurrences ∧
    handle.Stands occurrences revocable entries busy fates
  fired : handle.fired = (fates.filter Fate.isDispatch).length
  all : handle.coalesce = false → ∀ f ∈ fates, f.isDispatch = true

variable {handle : Handle α} {revocable : Bool} {entries : List Entry} {busy : Nat}
  {fates : List Fate}

theorem gives_of_alike {occurrences : List Zoned} (gives : handle.Gives occurrences)
    {handle' : Handle α} (alike : handle.sequence.Alike handle'.sequence) :
    handle'.Gives occurrences := by
  obtain ⟨notBefore, fresh, run⟩ := gives
  have same : handle'.rule = handle.rule := congrArg Plan.rule alike.plan
  refine ⟨notBefore, ?_, ?_⟩
  · rw [same]
    exact fresh.trans alike
  · rw [same]
    exact run

theorem kept_of_unregistered {handle' : Handle α}
    (same : handle'.unregistered = handle.unregistered)
    (kept : handle.Kept revocable entries busy fates) :
    handle'.Kept revocable entries busy fates := by
  obtain ⟨name, event, args, session, coalesce, sequence, registry, timer, next, fired, state⟩ :=
    handle
  obtain ⟨name', event', args', session', coalesce', sequence', registry', timer', next', fired',
    state'⟩ := handle'
  cases same
  obtain ⟨⟨occurrences, gives, stands⟩, fired, all⟩ := kept
  refine ⟨⟨occurrences, gives, ?_⟩, fired, all⟩
  cases stands with
  | waiting state next timer consumed met => exact .waiting state next timer consumed met
  | dispatching state next timer consumed met due =>
    exact .dispatching state next timer consumed met due
  | exhausted state next timer consumed met => exact .exhausted state next timer consumed met
  | cancelled state next timer consumed few revoked met =>
    exact .cancelled state next timer consumed few revoked met
  | cancelledAfter state next timer consumed few met due =>
    exact .cancelledAfter state next timer consumed few met due

theorem Kept.timer (kept : handle.Kept revocable entries busy fates) {id : EntryId}
    (timer : handle.timer = some id) : ∃ e ∈ entries, e.id = id := by
  obtain ⟨⟨occurrences, gives, stands⟩, fired, all⟩ := kept
  cases stands with
  | @waiting past e _ _ _ timer' =>
    rw [timer] at timer'
    cases timer'
    exact ⟨e, List.mem_singleton_self _, rfl⟩
  | dispatching _ _ timer' | exhausted _ _ timer' | cancelled _ _ timer' | cancelledAfter _ _ timer' =>
    rw [timer] at timer'
    cases timer'

/-! What a step makes of a handle. -/

theorem Kept.cancel (kept : handle.Kept revocable entries busy fates)
    (armed : handle.state = .armed) :
    { handle with state := .cancelled, nextFire := none, timer := none }.Kept revocable
      (entries.filter (fun e => !(revocable && decide (handle.timer = some e.id)))) busy fates := by
  obtain ⟨⟨occurrences, gives, stands⟩, fired, all⟩ := kept
  refine ⟨⟨occurrences, gives, ?_⟩, fired, all⟩
  cases stands with
  | @waiting past e fates state next timer consumed met =>
    refine .cancelled rfl rfl rfl consumed (List.length_filter_le _ _) (fun revoked => ?_) met
    rw [revoked, timer]
    simp
  | dispatching state next timer consumed met due =>
    exact .cancelledAfter rfl rfl rfl consumed le_rfl met due
  | exhausted state | cancelled state | cancelledAfter state => rw [armed] at state; cases state

theorem Kept.drop (kept : handle.Kept revocable entries busy fates) (armed : handle.state = .armed)
    {e : Entry} (member : e ∈ entries) :
    { handle with state := .cancelled, nextFire := none, timer := none }.Kept revocable
      (entries.filter (fun e' => e'.id ≠ e.id)) busy fates := by
  obtain ⟨⟨occurrences, gives, stands⟩, fired, all⟩ := kept
  refine ⟨⟨occurrences, gives, ?_⟩, fired, all⟩
  cases stands with
  | waiting state next timer consumed met =>
    cases List.mem_singleton.mp member
    have taken : [e].filter (fun e' => e'.id ≠ e.id) = [] := by simp
    rw [taken]
    exact .cancelled rfl rfl rfl consumed (Nat.zero_le _) (fun _ => rfl) met
  | dispatching | cancelledAfter => cases member
  | exhausted state | cancelled state => rw [armed] at state; cases state

theorem Kept.idle (kept : handle.Kept revocable entries busy fates)
    (idle : handle.state ≠ .armed) (p : Entry → Bool) :
    handle.Kept revocable (entries.filter p) busy fates := by
  obtain ⟨⟨occurrences, gives, stands⟩, fired, all⟩ := kept
  refine ⟨⟨occurrences, gives, ?_⟩, fired, all⟩
  cases stands with
  | waiting state | dispatching state => exact absurd state idle
  | exhausted state next timer consumed met => exact .exhausted state next timer consumed met
  | cancelled state next timer consumed few revoked met =>
    refine .cancelled state next timer consumed ((List.length_filter_le _ _).trans few)
      (fun revocable => ?_) met
    rw [revoked revocable, List.filter_nil]
  | cancelledAfter state next timer consumed few met due =>
    exact .cancelledAfter state next timer consumed few met due

theorem Kept.fire (kept : handle.Kept revocable entries busy fates) (armed : handle.state = .armed)
    {e : Entry} (member : e ∈ entries) {clock : Zoned} (due : clock.before e.due = false) :
    { handle with timer := none, fired := handle.fired + 1 }.Kept revocable
      (entries.filter (fun e' => e'.id ≠ e.id)) (busy + 1)
      (fates ++ (handle.nextFire.map (Fate.dispatched · clock)).toList) := by
  obtain ⟨⟨occurrences, gives, stands⟩, fired, all⟩ := kept
  cases stands with
  | waiting state next timer consumed met =>
    cases List.mem_singleton.mp member
    have taken : [e].filter (fun e' => e'.id ≠ e.id) = [] := by simp
    have last : (handle.nextFire.map (Fate.dispatched · clock)).toList =
        [.dispatched e.due clock] := by
      rw [next]
      rfl
    rw [taken, last]
    refine ⟨⟨occurrences, gives, .dispatching state next rfl consumed met due⟩, ?_, ?_⟩
    · show handle.fired + 1 = _
      rw [fired, List.filter_append, List.length_append]
      rfl
    · intro strict f member
      rcases List.mem_append.mp member with member | member
      · exact all strict f member
      · cases List.mem_singleton.mp member
        rfl
  | dispatching | cancelledAfter => cases member
  | exhausted state | cancelled state => rw [armed] at state; cases state

/-- The end of the dispatch of a handle that has ended meanwhile. -/
theorem Kept.finish (kept : handle.Kept revocable entries (busy + 1) fates)
    (idle : handle.state ≠ .armed) : handle.Kept revocable entries busy fates := by
  obtain ⟨⟨occurrences, gives, stands⟩, fired, all⟩ := kept
  refine ⟨⟨occurrences, gives, ?_⟩, fired, all⟩
  cases stands with
  | dispatching state => exact absurd state idle
  | cancelledAfter state next timer consumed few met due =>
    exact .cancelledAfter state next timer consumed (Nat.le_of_succ_le few) met due

/-- What became of all occurrences of a handle but the `rest`. -/
structure Accounted (handle : Handle α) (rest : List Zoned) (fates : List Fate) : Prop where
  past : ∃ past, handle.Gives (past ++ rest) ∧ List.Forall₂ Fate.Of past fates
  fired : handle.fired = (fates.filter Fate.isDispatch).length
  all : handle.coalesce = false → ∀ f ∈ fates, f.isDispatch = true

/-- A fresh handle has consumed nothing. -/
theorem accounted_ofRule {rule : Rule} {notBefore : Stamp}
    (sequence : handle.sequence = .ofRule rule (some notBefore)) (fired : handle.fired = 0) :
    handle.Accounted handle.sequence.run.1 [] := by
  have same : handle.rule = rule := by rw [Handle.rule, sequence]; rfl
  refine ⟨⟨[], ⟨notBefore, ?_, ?_⟩, .nil⟩, fired, fun _ f member => by cases member⟩
  · rw [same, sequence]
    exact ⟨rfl, rfl⟩
  · rw [same, sequence]
    rfl

/-- At the end of the dispatch of an armed handle all that it has consumed is accounted for. -/
theorem Kept.accounted (kept : handle.Kept revocable entries (busy + 1) fates)
    (armed : handle.state = .armed) :
    entries = [] ∧ busy = 0 ∧ handle.Accounted handle.sequence.run.1 fates := by
  obtain ⟨⟨occurrences, gives, stands⟩, fired, all⟩ := kept
  cases stands with
  | @dispatching past t clock fates state next timer consumed met due =>
    refine ⟨rfl, rfl, ⟨past ++ [t], ?_, ?_⟩, fired, all⟩
    · rw [List.append_assoc, List.singleton_append, ← consumed]
      exact gives
    · exact List.rel_append met (.cons (.dispatched due) .nil)
  | cancelledAfter state => rw [armed] at state; cases state

/-- Occurrences that are passed over are accounted for too. -/
theorem Accounted.passOver {skipped rest : List Zoned} (accounted : handle.Accounted (skipped ++ rest) fates)
    (coalesced : skipped ≠ [] → handle.coalesce = true) :
    handle.Accounted rest (fates ++ List.replicate skipped.length Fate.passedOver) := by
  obtain ⟨⟨past, gives, met⟩, fired, all⟩ := accounted
  refine ⟨⟨past ++ skipped, ?_, List.rel_append met (Fate.of_passedOver skipped)⟩, ?_, ?_⟩
  · rw [List.append_assoc]
    exact gives
  · rw [List.filter_append, List.length_append, ← fired, List.filter_replicate_of_neg]
    · rfl
    · exact Bool.false_ne_true
  · intro strict f member
    have none : skipped = [] := by
      by_contra some
      rw [coalesced some] at strict
      cases strict
    rw [none, List.length_nil, List.replicate_zero, List.append_nil] at member
    exact all strict f member

/-- Arming a handle for the next occurrence that is not accounted for. -/
theorem Accounted.wait {sequence : Sequence} {e : Entry}
    (accounted : handle.Accounted (e.due :: sequence.run.1) fates) (armed : handle.state = .armed)
    (alike : handle.sequence.Alike sequence) :
    { handle with sequence, nextFire := some e.due, timer := some e.id }.Kept revocable [e] 0
      fates := by
  obtain ⟨⟨past, gives, met⟩, fired, all⟩ := accounted
  exact ⟨⟨_, gives_of_alike gives alike, .waiting armed rfl rfl rfl met⟩, fired, all⟩

/-- Ending a handle all of whose occurrences are accounted for. -/
theorem Accounted.exhaust {sequence : Sequence} (accounted : handle.Accounted [] fates)
    (alike : handle.sequence.Alike sequence) (nothing : sequence.run = ([], .ended)) :
    { handle with sequence, state := .exhausted, nextFire := none, timer := none }.Kept revocable
      [] 0 fates := by
  obtain ⟨⟨past, gives, met⟩, fired, all⟩ := accounted
  rw [List.append_nil] at gives
  exact ⟨⟨_, gives_of_alike gives alike, .exhausted rfl rfl rfl nothing met⟩, fired, all⟩

end Handle

namespace Agenda

/-! Sound agendas. -/

/-- The timer entries for a handle. -/
def entriesOf (a : Agenda α) (h : HandleId) : List Entry :=
  a.pending.filter (fun e => e.handle = h)

/-- The timer entries have different numbers, all of them given out. -/
structure Numbered (a : Agenda α) : Prop where
  distinct : (a.pending.map Entry.id).Nodup
  given : ∀ e ∈ a.pending, e.id < a.nextEntry

/-- What an agenda knows of a handle, and that it knows nothing of one that does not exist. -/
structure Holds (a : Agenda α) (firing : List HandleId) (h : HandleId) : Prop where
  kept : ∀ handle, a.handle? h = some handle →
    handle.Kept a.revocable (a.entriesOf h) (firing.count h) (a.fates h)
  unknown : a.handle? h = none → a.entriesOf h = [] ∧ firing.count h = 0 ∧ a.fates h = []

/-- What holds of every agenda, given the handles inside their own dispatch. -/
structure Sound (a : Agenda α) (firing : List HandleId) : Prop where
  numbered : a.Numbered
  holds : ∀ h, a.Holds firing h

variable {a b : Agenda α} {firing firing' : List HandleId} {h h' : HandleId} {handle : Handle α}
  {e : Entry}

/-! The handles of others. -/

theorem Holds.congr (holds : a.Holds firing h) (revocable : b.revocable = a.revocable)
    (handle : (b.handle? h).map Handle.unregistered = (a.handle? h).map Handle.unregistered)
    (entries : b.entriesOf h = a.entriesOf h) (count : firing'.count h = firing.count h)
    (fates : b.fates h = a.fates h) : b.Holds firing' h := by
  obtain ⟨kept, unknown⟩ := holds
  rw [← revocable, ← entries, ← count, ← fates] at kept
  rw [← entries, ← count, ← fates] at unknown
  refine ⟨fun new found => ?_, fun missing => unknown ?_⟩
  · rw [found, Option.map_some] at handle
    obtain ⟨old, known, same⟩ := Option.map_eq_some_iff.mp handle.symm
    exact Handle.kept_of_unregistered same.symm (kept old known)
  · rw [missing, Option.map_none] at handle
    exact Option.map_eq_none_iff.mp handle.symm

theorem holds_of_kept (found : a.handle? h = some handle)
    (kept : handle.Kept a.revocable (a.entriesOf h) (firing.count h) (a.fates h)) :
    a.Holds firing h := by
  refine ⟨fun other found' => ?_, fun missing => ?_⟩
  · rw [found] at found'
    cases found'
    exact kept
  · rw [found] at missing
    cases missing

theorem Numbered.of_same (numbered : a.Numbered) (pending : b.pending = a.pending)
    (nextEntry : b.nextEntry = a.nextEntry) : b.Numbered := by
  obtain ⟨distinct, given⟩ := numbered
  rw [← pending] at distinct given
  rw [← nextEntry] at given
  exact ⟨distinct, given⟩

theorem Sound.quiet (sound : a.Sound firing) (quiet : a.Quiet b) : b.Sound firing := by
  refine ⟨sound.numbered.of_same quiet.pending quiet.nextEntry, fun h => ?_⟩
  refine (sound.holds h).congr quiet.revocable (quiet.handle? h) ?_ rfl (quiet.fates h)
  rw [entriesOf, quiet.pending, entriesOf]

/-! Timer entries. -/

theorem mem_entriesOf : e ∈ a.entriesOf h ↔ e ∈ a.pending ∧ e.handle = h := by
  rw [entriesOf, List.mem_filter, decide_eq_true_eq]

theorem Numbered.eq_of_id (numbered : a.Numbered) {e e' : Entry} (member : e ∈ a.pending)
    (member' : e' ∈ a.pending) (same : e.id = e'.id) : e = e' :=
  List.inj_on_of_nodup_map numbered.distinct member member' same

theorem Numbered.filter (numbered : a.Numbered) {p : Entry → Bool}
    (pending : b.pending = a.pending.filter p) (next : b.nextEntry = a.nextEntry) : b.Numbered := by
  refine ⟨?_, ?_⟩
  · rw [pending]
    exact numbered.distinct.sublist (List.filter_sublist.map _)
  · intro e member
    rw [pending] at member
    rw [next]
    exact numbered.given e (List.mem_filter.mp member).1

theorem Numbered.append (numbered : a.Numbered) {t : Zoned}
    (pending : b.pending = a.pending ++ [⟨a.nextEntry, t, h⟩])
    (next : b.nextEntry = a.nextEntry + 1) : b.Numbered := by
  refine ⟨?_, ?_⟩
  · rw [pending, List.map_append, List.map_singleton, List.nodup_append]
    refine ⟨numbered.distinct, List.nodup_singleton _, fun id member id' member' => ?_⟩
    obtain ⟨e, pending, rfl⟩ := List.mem_map.mp member
    rw [List.mem_singleton.mp member']
    exact (numbered.given e pending).ne
  · intro e member
    rw [pending] at member
    rw [next]
    rcases List.mem_append.mp member with member | member
    · exact (numbered.given e member).trans (Nat.lt_succ_self _)
    · rw [List.mem_singleton.mp member]
      exact Nat.lt_succ_self _

theorem entriesOf_filter {p : Entry → Bool} (pending : b.pending = a.pending.filter p)
    (h : HandleId) : b.entriesOf h = (a.entriesOf h).filter p := by
  rw [entriesOf, pending, List.filter_comm, entriesOf]

theorem entriesOf_filter_eq {p : Entry → Bool} (pending : b.pending = a.pending.filter p)
    (others : ∀ e ∈ a.entriesOf h, p e = true) : b.entriesOf h = a.entriesOf h := by
  rw [entriesOf_filter pending]
  exact List.filter_eq_self.mpr others

theorem entriesOf_append {t : Zoned} (pending : b.pending = a.pending ++ [⟨a.nextEntry, t, h⟩])
    (h' : HandleId) :
    b.entriesOf h' = a.entriesOf h' ++ if h = h' then [⟨a.nextEntry, t, h⟩] else [] := by
  rw [entriesOf, pending, List.filter_append, entriesOf]
  by_cases same : h = h' <;> simp [same]

/-- An entry for one handle is none for another, and no other has its number. -/
theorem Numbered.ne_of_mem (numbered : a.Numbered) (member : e ∈ a.pending) (other : h ≠ e.handle)
    {e' : Entry} (member' : e' ∈ a.entriesOf h) : e'.id ≠ e.id := by
  intro same
  obtain ⟨pending, rfl⟩ := mem_entriesOf.mp member'
  rw [numbered.eq_of_id pending member same] at other
  exact other rfl

/-! Steps keep an agenda sound. -/

theorem Sound.cancels (sound : a.Sound firing) (cancels : a.Cancels h handle b) :
    b.Sound firing := by
  obtain ⟨found, armed, handles, pending, nextEntry, revocable, -, fates, -⟩ := cancels
  have kept := (sound.holds h).kept handle found
  refine ⟨sound.numbered.filter pending nextEntry, fun h' => ?_⟩
  by_cases same : h' = h
  · subst same
    refine holds_of_kept (handle?_set_self handles (lt_of_handle? found)) ?_
    rw [revocable, fates, entriesOf_filter pending]
    exact kept.cancel armed
  · refine (sound.holds h').congr revocable ?_ (entriesOf_filter_eq pending fun e member => ?_) rfl
      (fates h')
    · rw [handle?_set_ne handles same]
    · have other : handle.timer ≠ some e.id := by
        intro timer
        obtain ⟨own, ofOwn, id⟩ := kept.timer timer
        obtain ⟨pending, rfl⟩ := mem_entriesOf.mp ofOwn
        exact sound.numbered.ne_of_mem pending same member id.symm
      rw [decide_eq_false other, Bool.and_false, Bool.not_false]

theorem Sound.takes (sound : a.Sound firing) (takes : a.Takes e b)
    (handles : ∀ h ≠ e.handle, b.handle? h = a.handle? h)
    (count : ∀ h ≠ e.handle, firing'.count h = firing.count h)
    (fates : ∀ h ≠ e.handle, b.fates h = a.fates h) (found : b.handle? e.handle = some handle)
    (kept : handle.Kept a.revocable ((a.entriesOf e.handle).filter (fun e' => e'.id ≠ e.id))
      (firing'.count e.handle) (b.fates e.handle)) : b.Sound firing' := by
  obtain ⟨member, pending, nextEntry, revocable, -⟩ := takes
  refine ⟨sound.numbered.filter pending nextEntry, fun h => ?_⟩
  by_cases same : h = e.handle
  · subst same
    refine holds_of_kept found ?_
    rw [revocable, entriesOf_filter pending]
    exact kept
  · refine (sound.holds h).congr revocable ?_ (entriesOf_filter_eq pending fun e' member' => ?_)
      (count h same) (fates h same)
    · rw [handles h same]
    · exact decide_eq_true (sound.numbered.ne_of_mem member same member')

theorem Sound.serves (sound : a.Sound firing) {served : Option (Handle α)}
    (serves : a.Serves e b served) : b.Sound ((served.map fun _ => e.handle).toList ++ firing) := by
  have own (member : e ∈ a.pending) : e ∈ a.entriesOf e.handle := mem_entriesOf.mpr ⟨member, rfl⟩
  cases serves with
  | idles takes idle handles _ fates =>
    have same := handle?_of_handles handles
    cases found : a.handle? e.handle with
    | none =>
      have nothing := ((sound.holds e.handle).unknown found).1
      rw [List.eq_nil_iff_forall_not_mem] at nothing
      exact absurd (own takes.member) (nothing e)
    | some handle =>
      refine sound.takes takes (fun h _ => same h) (fun _ _ => rfl) (fun h _ => fates h)
        ((same _).trans found) ?_
      rw [fates]
      exact ((sound.holds e.handle).kept handle found).idle (idle handle found) _
  | @drops handle takes found armed handles _ fates =>
    refine sound.takes takes (fun h other => handle?_set_ne handles other) (fun _ _ => rfl)
      (fun h _ => fates h) (handle?_set_self handles (lt_of_handle? found)) ?_
    rw [fates]
    exact ((sound.holds e.handle).kept handle found).drop armed (own takes.member)
  | @fires handle clock takes found armed due _ handles journal =>
    have fates := fates_of_dispatch journal
    refine sound.takes takes (fun h other => handle?_set_ne handles other) (fun h other => ?_)
      (fun h other => ?_) (handle?_set_self handles (lt_of_handle? found)) ?_
    · exact List.count_cons_of_ne other.symm
    · rw [fates, if_neg other.symm, List.append_nil]
    · rw [fates, if_pos rfl]
      have kept := ((sound.holds e.handle).kept handle found).fire armed (own takes.member) due
      rw [← List.count_cons_self] at kept
      exact kept

/-- The end of the dispatch of a handle that has ended meanwhile. -/
theorem Sound.finishes (sound : a.Sound (h :: firing))
    (idle : ∀ handle, a.handle? h = some handle → handle.state ≠ .armed) : a.Sound firing := by
  refine ⟨sound.numbered, fun h' => ?_⟩
  by_cases same : h' = h
  · subst same
    refine ⟨fun handle found => ?_, fun missing => ?_⟩
    · have kept := (sound.holds h').kept handle found
      rw [List.count_cons_self] at kept
      exact kept.finish (idle handle found)
    · have nothing := ((sound.holds h').unknown missing).2.1
      rw [List.count_cons_self] at nothing
      cases nothing
  · exact (sound.holds h').congr rfl rfl rfl (List.count_cons_of_ne (Ne.symm same)).symm rfl

/-- Arming a handle, of which nothing is waiting and nothing runs, keeps an agenda sound. -/
theorem sound_of_arms {missed : Zoned → Bool} (numbered : a.Numbered)
    (others : ∀ h' ≠ h, a.Holds firing h') (inside : h < a.handles.length)
    (free : a.entriesOf h = []) (idle : firing.count h = 0)
    (accounted : handle.Accounted handle.sequence.run.1 (a.fates h)) (armed : handle.state = .armed)
    (coalesced : ∀ t, missed t = true → handle.coalesce = true)
    (arms : a.Arms h handle missed b) : b.Sound firing := by
  have skips {skipped : List Zoned} (passes : ∀ u ∈ skipped, missed u = true) (some : skipped ≠ []) :
      handle.coalesce = true := by
    obtain ⟨u, member⟩ := List.exists_mem_of_ne_nil skipped some
    exact coalesced u (passes u member)
  cases arms with
  | @waits skipped t sequence alike run passes handles pending nextEntry revocable _ fates =>
    refine ⟨numbered.append pending nextEntry, fun h' => ?_⟩
    have entries := entriesOf_append pending h'
    have fates := fates h'
    by_cases same : h' = h
    · subst same
      refine holds_of_kept (handle?_set_self handles inside) ?_
      rw [if_pos rfl] at entries fates
      rw [entries, fates, idle, free]
      rw [run] at accounted
      exact (accounted.passOver (skips passes)).wait (e := ⟨a.nextEntry, t, h'⟩) armed alike
    · rw [if_neg (Ne.symm same), List.append_nil] at entries fates
      refine (others h' same).congr revocable ?_ entries rfl fates
      rw [handle?_set_ne handles same]
  | @ends skipped sequence alike run nothing passes handles pending nextEntry revocable _ fates =>
    have entries (h' : HandleId) : b.entriesOf h' = a.entriesOf h' := by
      rw [entriesOf, pending, entriesOf]
    refine ⟨numbered.of_same pending nextEntry, fun h' => ?_⟩
    have fates := fates h'
    by_cases same : h' = h
    · subst same
      refine holds_of_kept (handle?_set_self handles inside) ?_
      rw [if_pos rfl] at fates
      rw [entries, fates, idle, free]
      rw [run, ← List.append_nil skipped] at accounted
      exact (accounted.passOver (skips passes)).exhaust alike nothing
    · rw [if_neg (Ne.symm same), List.append_nil] at fates
      refine (others h' same).congr revocable ?_ (entries h') rfl fates
      rw [handle?_set_ne handles same]

theorem Sound.rearms (sound : a.Sound (h :: firing)) (found : a.handle? h = some handle)
    (armed : handle.state = .armed)
    (arms : a.Arms h handle (fun t => handle.coalesce && t.before a.clock) b) :
    b.Sound firing := by
  have kept := (sound.holds h).kept handle found
  rw [List.count_cons_self] at kept
  obtain ⟨free, idle, accounted⟩ := kept.accounted armed
  refine sound_of_arms sound.numbered (fun h' other => ?_) (lt_of_handle? found) free idle accounted
    armed (fun t missed => (Bool.and_eq_true_iff.mp missed).1) arms
  exact (sound.holds h').congr rfl rfl rfl (List.count_cons_of_ne other.symm).symm rfl

theorem Sound.creates (sound : a.Sound firing) (creates : a.Creates handle b) :
    b.Sound firing := by
  obtain ⟨⟨rule, notBefore, sequence⟩, -, fired, armed, arms⟩ := creates
  have none : a.handle? a.handles.length = none := List.getElem?_eq_none le_rfl
  obtain ⟨free, idle, fates⟩ := (sound.holds a.handles.length).unknown none
  refine sound_of_arms (a := { a with handles := a.handles ++ [handle] })
    ⟨sound.numbered.distinct, sound.numbered.given⟩ (fun h' other => ?_) ?_ free idle ?_ armed
    (fun t missed => absurd missed Bool.false_ne_true) arms
  · exact (sound.holds h').congr rfl (congrArg _ (handle?_append_ne other)) rfl rfl rfl
  · show a.handles.length < (a.handles ++ [handle]).length
    rw [List.length_append]
    exact Nat.lt_succ_self _
  · have nothing : { a with handles := a.handles ++ [handle] }.fates a.handles.length = [] := fates
    rw [nothing]
    exact Handle.accounted_ofRule sequence fired

theorem Sound.moves (sound : a.Sound firing) (moves : a.Moves b) : b.Sound firing := by
  induction moves with
  | refl => exact sound
  | tail moves move ih =>
    cases move with
    | quiet quiet => exact ih.quiet quiet
    | cancels cancels => exact ih.cancels cancels
    | creates creates => exact ih.creates creates

theorem sound_start (clock : Zoned) (revocable : Bool) (sessions : List String)
    (schedulers : List (String × Config)) :
    (start clock revocable sessions schedulers : Agenda α).Sound [] := by
  have none (h : HandleId) :
      (start clock revocable sessions schedulers : Agenda α).handle? h = none := List.getElem?_nil
  refine ⟨⟨.nil, fun e member => by cases member⟩, fun h => ⟨fun handle found => ?_, fun _ => ?_⟩⟩
  · rw [none] at found
    cases found
  · exact ⟨rfl, rfl, rfl⟩

end Agenda

namespace Run

variable {r r' : Run α}

theorem sound_stepped (sound : r.agenda.Sound r.firing) (stepped : r.Stepped r')
    (calm : ¬r.Raises r') : r'.agenda.Sound r'.firing := by
  cases stepped with
  | moves moves firing =>
    rw [firing]
    exact sound.moves moves
  | serves serves quiet firing =>
    rw [firing]
    exact (sound.serves serves).quiet quiet
  | finishes firing idle quiet =>
    rw [firing] at sound
    exact (sound.finishes idle).quiet quiet
  | rearms firing quiet found armed arms quiet' =>
    rw [firing] at sound
    exact ((sound.quiet quiet).rearms found armed arms).quiet quiet'
  | raises raises => exact absurd raises calm

theorem sound_of_reachable (reachable : r.Reachable) : r.agenda.Sound r.firing := by
  induction reachable with
  | start clock revocable sessions schedulers =>
    exact Agenda.sound_start clock revocable sessions schedulers
  | @act r reachable free action ih =>
    have performs := performs r.agenda r.activities action
    have firing : (perform r.agenda r.activities action).settle.firing = r.firing :=
      performs.firing
    rw [firing]
    exact (ih.moves performs.moves).quiet (Agenda.quiet_release _)
  | step reachable step calm ih => exact sound_stepped ih (stepped step) calm

end Run

end Almanac
