import Almanac.Proofs.Schedule.Firing

set_option autoImplicit false

/-!
How the clock's advance goes for one place.

An advance fires what is due in the order of the due times. So the clock has not moved yet or is at
the due time of what fires, whatever else fires on the way. For a place that is watched the advance
comes to the rounds of its own share.
-/

namespace Almanac

variable {α : Type}

namespace Agenda

variable {a b : Agenda α} {ρ : Reckoning} {start goal due : Zoned} {e : Entry}

/-- Where the clock stands in an advance: it has not moved since the `start`, or it is no later than
the `goal` and all that is waiting. -/
structure Paced (ρ : Reckoning) (start goal : Zoned) (a : Agenda α) : Prop where
  reached : ρ.place start ≤ ρ.place a.clock
  moved : ρ.place start < ρ.place a.clock → ρ.place a.clock ≤ ρ.place goal ∧
    ∀ e ∈ a.pending, ρ.place a.clock ≤ ρ.place e.due

namespace Paced

theorem of_start (a : Agenda α) (goal : Zoned) : a.Paced ρ a.clock goal :=
  ⟨le_rfl, fun moved => absurd moved (lt_irrefl _)⟩

theorem congr (paced : a.Paced ρ start goal) (clock : b.clock = a.clock)
    (pending : ∀ e ∈ b.pending, e ∈ a.pending) : b.Paced ρ start goal := by
  obtain ⟨reached, moved⟩ := paced
  rw [← clock] at reached moved
  exact ⟨reached, fun away => ⟨(moved away).1, fun e member => (moved away).2 e (pending e member)⟩⟩

theorem taken (paced : a.Paced ρ start goal) (reckoned : a.Reckoned ρ) (hg : ρ.Shows goal)
    (first : a.dueBy? goal = some e) : ρ.Shows (a.taken e).clock ∧
      ρ.place (a.taken e).clock = max (ρ.place start) (ρ.place e.due) ∧
      (a.taken e).Paced ρ start goal := by
  have member := mem_of_dueBy? first
  have he := reckoned.due e member
  have within : ρ.place e.due ≤ ρ.place goal := by
    rw [← Reckoning.notAfter_iff he hg.admits]
    exact (List.mem_filter.mp (mem_of_earliest first)).2
  have least : ∀ e' ∈ a.pending, ρ.place e.due ≤ ρ.place e'.due ∨ ρ.place goal < ρ.place e'.due := by
    intro e' there
    have he' := reckoned.due e' there
    by_cases comes : e'.due.notAfter goal = true
    · have inside : e' ∈ a.pending.filter fun e => e.due.notAfter goal :=
        List.mem_filter.mpr ⟨there, comes⟩
      exact .inl (le_of_earliest (fun d known => reckoned.due d (List.mem_filter.mp known).1) first
        e' inside)
    · exact .inr (Int.not_le.mp ((Reckoning.notAfter_iff he' hg.admits).not.mp comes))
  have now : ρ.place (a.taken e).clock = max (ρ.place start) (ρ.place e.due) := by
    refine (Reckoning.place_later reckoned.clock.admits he).trans ?_
    have reached := paced.reached
    by_cases away : ρ.place start < ρ.place a.clock
    · have ahead := (paced.moved away).2 e member
      omega
    · omega
  refine ⟨reckoned.clock.later he hg within, now, ?_, ?_⟩
  · rw [now]
    exact le_max_left _ _
  · rw [now]
    refine fun away => ⟨by omega, fun e' there => ?_⟩
    have := least e' (mem_taken there)
    omega

theorem rearm (paced : a.Paced ρ start goal)
    (now : ρ.place a.clock = max (ρ.place start) (ρ.place due)) (hd : ρ.Admits due)
    (clock : b.clock = a.clock)
    (pending : ∀ e ∈ b.pending, e ∈ a.pending ∨ due.before e.due = true)
    (reckoned : b.Reckoned ρ) : b.Paced ρ start goal := by
  obtain ⟨reached, moved⟩ := paced
  rw [← clock] at reached moved now
  refine ⟨reached, fun away => ⟨(moved away).1, fun e member => ?_⟩⟩
  rcases pending e member with before | after
  · exact (moved away).2 e before
  · have later := (Reckoning.before_iff hd (reckoned.due e member)).mp after
    omega

/-- Where nothing is due any more the clock ends at the goal, unless it was later from the start. -/
theorem finish (paced : a.Paced ρ start goal) (reckoned : a.Reckoned ρ) (hs : ρ.Shows start)
    (hg : ρ.Shows goal) :
    ρ.reading (a.clock.later goal) = (ρ.reading start).later (ρ.reading goal) := by
  rw [← hs.reading_later hg]
  refine (reckoned.clock.later hg.admits hg le_rfl).reading_congr (hs.later hg.admits hg le_rfl) ?_
  rw [Reckoning.place_later reckoned.clock.admits hg.admits,
    Reckoning.place_later hs.admits hg.admits]
  have reached := paced.reached
  by_cases away : ρ.place start < ρ.place a.clock
  · have within := (paced.moved away).1
    omega
  · omega

end Paced

/-! A dispatch. -/

variable {σ : Setting} {ids : List HandleId} {s t : Share α} {h : HandleId} {x : Handle α}

/-- In an advance a handle fires that was `x` before, for the time `due`. -/
structure Fires (σ : Setting) (start goal : Zoned) (ids : List HandleId) (t : Share α) (h : HandleId)
    (x : Handle α) (due : Zoned) (a : Agenda α) : Prop where
  regular : a.Regular σ [h] ids (if h ∈ ids then t.fired (ids.idxOf h) (x.readBy σ.reckoning) due
    (σ.reckoning.reading ((σ.reckoning.reading start).later due)) else t)
  core : a.core? h = some { x with fired := x.fired + 1 }
  armed : x.state = .armed
  next : x.nextFire = some due
  own : h ∈ ids → t.Due (σ.reckoning.reading goal) (ids.idxOf h) (x.readBy σ.reckoning) due
  stands : σ.reckoning.place a.clock = max (σ.reckoning.place start) (σ.reckoning.place due)
  paced : a.Paced σ.reckoning start goal
  admits : σ.reckoning.Admits due

theorem Fires.idles (fires : a.Fires σ start goal ids t h x due)
    (idles : a.Idles σ.keys σ.nests b) : b.Fires σ start goal ids t h x due := by
  refine { fires with
    regular := fires.regular.idles idles
    core := (core?_quiet idles.quiet h).trans fires.core
    stands := (congrArg σ.reckoning.place idles.clock).trans fires.stands
    paced := fires.paced.congr idles.clock fun e member => ?_ }
  rw [← idles.quiet.pending]
  exact member

/-- The next entry either finds a handle that has ended, or one that fires. -/
theorem Regular.entry (regular : a.Regular σ [] ids t) (paced : a.Paced σ.reckoning start goal)
    (hs : σ.reckoning.Shows start) (hg : σ.reckoning.Shows goal) (first : a.dueBy? goal = some e) :
    ((a.taken e).fire e.handle = (a.taken e, none) ∧ (a.taken e).Regular σ [] ids t ∧
        (a.taken e).Paced σ.reckoning start goal) ∨
      ∃ b handle x, (a.taken e).fire e.handle = (b, some handle) ∧
        b.Fires σ start goal ids t e.handle x e.due := by
  have member := mem_of_dueBy? first
  have admits := regular.reckoned.due e member
  have due : e.due.notAfter goal = true := (List.mem_filter.mp (mem_of_earliest first)).2
  obtain ⟨shows, stands, paced'⟩ := paced.taken regular.reckoned hg first
  by_cases live : ∃ handle, a.handle? e.handle = some handle ∧ handle.state = .armed
  · obtain ⟨handle, found, armed⟩ := live
    obtain ⟨b, fired, regular', core, pending, clock⟩ := regular.fires member shows found armed
    have next := (regular.sound.waits_of_mem member found armed).2
    -- Whatever was fired on the way, the clock is read as it is where this is all that fires.
    have within : σ.reckoning.place e.due ≤ σ.reckoning.place goal :=
      (Reckoning.notAfter_iff admits hg.admits).mp due
    have told : σ.reckoning.reading (a.clock.later e.due) =
        σ.reckoning.reading ((σ.reckoning.reading start).later e.due) := by
      refine shows.reading_congr (hs.reading.later admits hg within) (stands.trans ?_)
      rw [Reckoning.place_later hs.reading.admits admits, hs.place_reading]
    rw [told] at regular'
    refine .inr ⟨b, _, handle.core, fired, regular', core, armed, next, fun inside => ?_,
      (congrArg σ.reckoning.place clock).trans stands,
      paced'.congr clock fun e' there => pending ▸ there, admits⟩
    refine ⟨regular.single, ?_, armed, next, ?_⟩
    · rw [regular.shown.found (List.getElem?_idxOf inside)]
      exact congrArg _ (core?_eq_some_iff.mpr ⟨handle, found, rfl⟩)
    · rw [Reckoning.notAfter_iff admits hg.reading.admits, hg.place_reading]
      exact within
  · obtain ⟨fired, regular'⟩ := regular.idle_entry member shows fun handle found armed =>
      live ⟨handle, found, armed⟩
    exact .inl ⟨fired, regular', paced'⟩

theorem Regular.settled (regular : a.Regular σ [] ids t) (hg : σ.reckoning.Shows goal)
    (none : a.dueBy? goal = none) : t.Settled (σ.reckoning.reading goal) := by
  intro i x u due
  obtain ⟨h, y, -, core, rfl⟩ := regular.exists_handle due.found
  obtain ⟨handle, found, rfl⟩ := core?_eq_some_iff.mp core
  obtain ⟨e, member, next⟩ := regular.sound.exists_entry found due.armed
  cases next.symm.trans due.next
  have admits := regular.reckoned.due e member
  have comes : e.due.notAfter goal = true := by
    rw [Reckoning.notAfter_iff admits hg.admits, ← hg.place_reading,
      ← Reckoning.notAfter_iff admits hg.reading.admits]
    exact due.due
  have inside : e ∈ a.pending.filter fun e => e.due.notAfter goal :=
    List.mem_filter.mpr ⟨member, comes⟩
  rw [eq_nil_of_earliest none] at inside
  cases inside

end Agenda

/-- Firings of a share in an advance from `start` up to `goal`, as both are told. -/
def Setting.Rounds (σ : Setting) (start goal : Zoned) : Share α → Share α → Prop :=
  Share.Rounds σ.reckoning (σ.reckoning.reading start) (σ.reckoning.reading goal)

namespace Run

open Agenda

variable {a b : Agenda α} {start goal : Zoned} {σ : Setting} {ids : List HandleId} {s t : Share α}
  {r r' : Run α}

/-- Where an advance has come to, which the place had entered with the share `s`: it is between
dispatches, in one, or at its end. -/
inductive Advances (σ : Setting) (start goal : Zoned) (ids : List HandleId) (s : Share α) (r : Run α) :
    Prop where
  | rests {t : Share α} {n : Nat} (activities : r.activities = [.advancing goal n])
      (fine : ∀ f, r.outcome ≠ some (.error f)) (rounds : σ.Rounds start goal s t)
      (regular : r.agenda.Regular σ [] ids t) (paced : r.agenda.Paced σ.reckoning start goal)
  | fires {t : Share α} {n : Nat} {h : HandleId} {session : String} {x : Handle α} {due : Zoned}
      {handling : List (Activity α)}
      (activities : r.activities = handling ++ [.firing h session, .advancing goal n])
      (quiet : ∀ y ∈ handling, y.Quiet σ.keys σ.nests) (rounds : σ.Rounds start goal s t)
      (fires : r.agenda.Fires σ start goal ids t h x due)
  | ends {t : Share α} (activities : r.activities = []) (rounds : σ.Rounds start goal s t)
      (settled : t.Settled (σ.reckoning.reading goal)) (regular : r.agenda.Regular σ [] ids t)
      (clock : σ.reckoning.reading r.agenda.clock =
        (σ.reckoning.reading start).later (σ.reckoning.reading goal))

/-- A handle of one of the places, that fires on the way as its schedule does for itself where the
place is watched, cannot be armed again. -/
def Stuck (σ : Setting) (start goal : Zoned) (ids : List HandleId) (s : Share α) : Prop :=
  ∃ (t : Share α) (h : HandleId) (x : Handle α) (due : Zoned), σ.Rounds start goal s t ∧
    (∃ q, σ.slots q ∧ (h ∈ ids ↔ q = σ.slot)) ∧
    (h ∈ ids → t.Due (σ.reckoning.reading goal) (ids.idxOf h) x due) ∧
    Share.rearmed? x ((σ.reckoning.reading start).later due) = none

theorem not_stuck (only : ∀ q, σ.slots q → q = σ.slot) (rounds : σ.Rounds start goal s t)
    (settled : t.Settled (σ.reckoning.reading goal)) : ¬Stuck σ start goal ids s := by
  rintro ⟨u, h, x, due, rounds', ⟨q, inside, own⟩, fires, none⟩
  exact rounds.sought settled rounds' (fires (own.mpr (only q inside))) none

theorem advances_stepAdvancing (hs : σ.reckoning.Shows start) (hg : σ.reckoning.Shows goal)
    (regular : a.Regular σ [] ids t) (paced : a.Paced σ.reckoning start goal)
    (rounds : σ.Rounds start goal s t) {outcome : Option (Outcome α)}
    (fine : ∀ f, outcome ≠ some (.error f)) (n : Nat) :
    Advances σ start goal ids s (stepAdvancing a [] goal n outcome).settle := by
  unfold stepAdvancing
  split
  · rename_i f
    exact absurd rfl (fine f)
  · split
    · rename_i none
      rw [clockAtLeast_later]
      have clock := paced.finish regular.reckoned hs hg
      have regular' := regular.setClock (regular.reckoned.clock.later hg.admits hg le_rfl)
      rw [settle_of_tame regular'.tame]
      exact .ends rfl rounds (regular.settled hg none) regular' clock
    · rename_i e first
      rw [clockAtLeast_taken]
      dsimp only
      rcases regular.entry paced hs hg first with ⟨fired, regular', paced'⟩ |
        ⟨b, handle, x, fired, fires⟩
      · rw [fired]
        dsimp only
        rw [settle_of_tame regular'.tame]
        exact .rests rfl (fun f same => by cases same) rounds regular' paced'
      · rw [fired]
        dsimp only
        obtain ⟨idles, handling, same, quiet⟩ := minds_dispatch fires.regular.tame
          [.firing e.handle handle.session, .advancing goal (n + 1)] handle.session handle.event
          handle.args
        rw [settle_of_tame idles.tame]
        exact .fires same quiet rounds (fires.idles idles)

/-- The end of a dispatch may note that it has failed. -/
theorem stepFiring_rearm (a : Agenda α) (below : List (Activity α)) (h : HandleId)
    (outcome : Option (Outcome α)) : ∃ b, (b = a ∨ ∃ message, b = a.log .error message) ∧
      stepFiring a below h outcome = match b.rearm h with
        | (a, .ok ()) => reply a below .nothing
        | (a, .error f) => fault a below f := by
  unfold stepFiring
  split
  · exact ⟨_, .inr ⟨_, rfl⟩, rfl⟩
  · exact ⟨a, .inl rfl, rfl⟩

theorem advances_stepFiring (hs : σ.reckoning.Shows start) (rounds : σ.Rounds start goal s t)
    {h : HandleId} {x : Handle α} {due : Zoned} (fires : a.Fires σ start goal ids t h x due) (n : Nat)
    (outcome : Option (Outcome α)) :
    Advances σ start goal ids s (stepFiring a [.advancing goal n] h outcome).settle ∨
      Stuck σ start goal ids s ∧
        ∃ f, (stepFiring a [.advancing goal n] h outcome).outcome = some (.error f) := by
  obtain ⟨b, noted, ended⟩ := stepFiring_rearm a [.advancing goal n] h outcome
  have idles : a.Idles σ.keys σ.nests b := by
    rcases noted with rfl | ⟨message, rfl⟩
    · exact .refl fires.regular.tame
    · exact .record fires.regular.tame (fun _ => rfl) rfl
  obtain ⟨q, inside, -, -, own⟩ := fires.regular.places.filed h _ fires.core
  have fires := fires.idles idles
  have stands : σ.reckoning.place b.clock =
      σ.reckoning.place ((σ.reckoning.reading start).later due) := by
    rw [fires.stands, Reckoning.place_later hs.reading.admits fires.admits, hs.place_reading]
  have rearms := fires.regular.rearms fires.core fires.armed fires.next
    (Reckoning.admits_later hs.reading.admits fires.admits) stands
  rw [ended]
  generalize b.rearm h = result at rearms ⊢
  obtain ⟨c, f | ⟨⟩⟩ := result
  · exact .inr ⟨⟨t, h, _, due, rounds, ⟨q, inside, own⟩, fires.own, rearms⟩, f, rfl⟩
  · obtain ⟨y, sought, regular, clock, pending⟩ := rearms
    left
    dsimp only
    rw [settle_of_tame regular.tame]
    refine .rests rfl (fun f same => by cases same) ?_ regular
      (fires.paced.rearm fires.stands fires.admits clock pending regular.reckoned)
    split
    · rename_i member
      exact rounds.tail (.mk (fires.own member) sought)
    · exact rounds

theorem Advances.step (hs : σ.reckoning.Shows start) (hg : σ.reckoning.Shows goal)
    (advances : Advances σ start goal ids s r) (step : r.step? = some r') :
    Advances σ start goal ids s r' ∨ Stuck σ start goal ids s ∧ r.Raises r' := by
  unfold step? at step
  cases advances with
  | rests activities fine rounds regular paced =>
    rw [activities] at step
    cases step
    exact .inl (advances_stepAdvancing hs hg regular paced rounds fine _)
  | @fires t n h session x due handling activities quiet rounds fires =>
    cases handling with
    | nil =>
      have activities : r.activities = [.firing h session, .advancing goal n] := activities
      rw [activities] at step
      cases step
      refine (advances_stepFiring hs rounds fires n r.outcome).imp_right fun stuck => ?_
      exact ⟨stuck.1, ⟨h, session, _, activities⟩, stuck.2⟩
    | cons y rest =>
      obtain ⟨quiet, others⟩ := List.forall_mem_cons.mp quiet
      cases quiet with
      | handling session' event call script =>
        rw [activities, List.cons_append] at step
        cases step
        obtain ⟨idles, handling, same, quiet⟩ := minds_stepHandling fires.regular.tame
          (rest ++ [.firing h session, .advancing goal n]) session' event script call r.outcome
        rw [← List.append_assoc] at same
        left
        rw [settle_of_tame idles.tame]
        exact .fires same (fun y member => (List.mem_append.mp member).elim (quiet y) (others y))
          rounds (fires.idles idles)
  | ends activities =>
    rw [activities] at step
    cases step

/-- An advance starts with nothing fired, or does nothing where its goal leaves the calendar. -/
theorem start_advance (regular : a.Regular σ [] ids s) (micros : Int)
    (holds : σ.reckoning.Holds (σ.reckoning.place a.clock + micros)) :
    (∃ goal, a.clock.add? micros = some goal ∧ σ.reckoning.Shows goal ∧
        Advances σ a.clock goal ids s (Run.start a (.advance micros))) ∨
      a.clock.add? micros = none ∧ Run.start a (.advance micros) = fault a [] .outOfRange := by
  rw [Run.start, perform]
  split
  · rename_i goal added
    left
    rw [settle_of_tame regular.tame]
    exact ⟨goal, added, (regular.reckoned.clock.add? holds added).1,
      .rests rfl (fun f same => by cases same) .refl regular (.of_start a goal)⟩
  · rename_i added
    right
    rw [settle_of_tame regular.tame]
    exact ⟨added, rfl⟩

end Run

end Almanac
