import Almanac.Proofs.Schedule.Cores
import Almanac.Proofs.Schedule.Readings
import Mathlib.Logic.Relation

set_option autoImplicit false

/-!
What becomes of the schedules of one place, for themselves.

A place is a session, a key of its heap and a name. The schedules that have been added there, one
after another, make up its share: at most one of them is armed, and adding and removing withdraw it.
When the clock advances, the armed one fires as long as it is due, each time at its due time or where
the clock started, whichever is later. None of this speaks of other schedules. What the clock shows
enters a share as a reading of it only.
-/

namespace Almanac

variable {α : Type} {ρ : Reckoning}

/-- A place for a schedule: a session, a key of its heap and a name. -/
structure Slot where
  session : String
  key : String
  name : String
  deriving DecidableEq

/-- The schedules that were added in one place, without the numbers of their registries and timer
entries, and their dispatches: which of them, when it was due, and what was read from the clock. -/
structure Share (α : Type) where
  schedules : List (Handle α)
  dispatches : List (Nat × Zoned × Zoned)

namespace Share

/-- The share once its armed schedule has been cancelled. -/
def withdrawn (s : Share α) : Share α := { s with schedules := s.schedules.map Handle.withdrawn }

/-- The share once a schedule has been added by a scheduler, when the clock is read as `clock`. -/
def added (s : Share α) (clock : Zoned) (config : Config) (session name event : String)
    (source : RuleSource) (args : List α) : Share α :=
  let now := clock.wholeSecond
  match source.rule now with
  | .error _ => s
  | .ok rule =>
    if s.schedules.any Handle.isArmed && !config.replaceExisting then s
    else
      match (Handle.fresh session name event rule args config.coalesce now).sought?
        (fun _ => false) with
      | none => s
      | some x => { s.withdrawn with schedules := s.withdrawn.schedules ++ [x] }

section Added

variable {s : Share α} {clock : Zoned} {config : Config} {session name event : String}
  {source : RuleSource} {args : List α} {rule : Rule}

theorem added_invalid {e : SpecError}
    (unread : source.rule clock.wholeSecond = .error e) :
    s.added clock config session name event source args = s := by
  simp only [added, unread]

/-- A schedule that is in the way stays where none may be replaced. -/
theorem added_taken (read : source.rule clock.wholeSecond = .ok rule)
    (taken : s.schedules.any Handle.isArmed = true) (strict : config.replaceExisting = false) :
    s.added clock config session name event source args = s := by
  simp [added, read, taken, strict]

theorem added_free (read : source.rule clock.wholeSecond = .ok rule)
    (free : s.schedules.any Handle.isArmed = true → config.replaceExisting = true) :
    s.added clock config session name event source args =
      match (Handle.fresh session name event rule args config.coalesce clock.wholeSecond).sought?
        (fun _ => false) with
      | none => s
      | some x => { s.withdrawn with schedules := s.withdrawn.schedules ++ [x] } := by
  have open' : ¬(s.schedules.any Handle.isArmed && !config.replaceExisting) = true := by
    simpa using free
  simp only [added, read, if_neg open']

end Added

/-- No two schedules are armed. -/
def Single (s : Share α) : Prop :=
  ∀ (i j : Nat) (x y : Handle α), s.schedules[i]? = some x → s.schedules[j]? = some y →
    x.state = .armed → y.state = .armed → i = j

/-- A schedule is due in an advance up to `goal`. -/
structure Due (goal : Zoned) (s : Share α) (i : Nat) (x : Handle α) (t : Zoned) : Prop where
  single : s.Single
  found : s.schedules[i]? = some x
  armed : x.state = .armed
  next : x.nextFire = some t
  due : t.notAfter goal = true

/-- The share while a schedule is being dispatched. -/
def fired (s : Share α) (i : Nat) (x : Handle α) (t clock : Zoned) : Share α where
  schedules := s.schedules.set i { x with fired := x.fired + 1 }
  dispatches := s.dispatches ++ [(i, t, clock)]

/-- What a schedule that has fired comes to when it is armed again. -/
def rearmed? (x : Handle α) (clock : Zoned) : Option (Handle α) :=
  ({ x with fired := x.fired + 1 } : Handle α).sought? (fun t => x.coalesce && t.before clock)

/-- One firing in an advance from `start` up to `goal`. -/
inductive Round (ρ : Reckoning) (start goal : Zoned) (s : Share α) : Share α → Prop where
  | mk {i : Nat} {x y : Handle α} {t : Zoned} (due : s.Due goal i x t)
      (sought : rearmed? x (start.later t) = some y) :
      Round ρ start goal s
        { s.fired i x t (ρ.reading (start.later t)) with schedules := s.schedules.set i y }

/-- Nothing is due any more. -/
def Settled (goal : Zoned) (s : Share α) : Prop := ∀ i x t, ¬s.Due goal i x t

variable {start goal : Zoned} {s t u : Share α} {i j : Nat} {x y : Handle α} {due due' : Zoned}

/-! Only one thing can happen. -/

theorem Due.unique (one : s.Due goal i x due) (two : s.Due goal j y due') :
    i = j ∧ x = y ∧ due = due' := by
  cases one.single i j x y one.found two.found one.armed two.armed
  cases one.found.symm.trans two.found
  cases one.next.symm.trans two.next
  exact ⟨rfl, rfl, rfl⟩

theorem round_rightUnique : Relator.RightUnique (Round ρ start goal : Share α → Share α → Prop) := by
  rintro s t u ⟨due, sought⟩ ⟨due', sought'⟩
  obtain ⟨rfl, rfl, rfl⟩ := due.unique due'
  cases sought.symm.trans sought'
  rfl

/-- Any number of firings. -/
def Rounds (ρ : Reckoning) (start goal : Zoned) : Share α → Share α → Prop :=
  Relation.ReflTransGen (Round ρ start goal)

theorem Rounds.of_settled (settled : s.Settled goal) (rounds : Rounds ρ start goal s t) : t = s := by
  rcases Relation.ReflTransGen.cases_head rounds with same | ⟨u, ⟨due, -⟩, -⟩
  · exact same.symm
  · exact absurd due (settled _ _ _)

/-- Whatever was fired before comes on the way to where nothing is due any more. -/
theorem Rounds.goes_on (rounds : Rounds ρ start goal s t) (settled : t.Settled goal)
    (rounds' : Rounds ρ start goal s u) : Rounds ρ start goal u t := by
  rcases Relation.ReflTransGen.total_of_right_unique round_rightUnique rounds rounds' with on | on
  · rw [Rounds.of_settled settled on]
    exact .refl
  · exact on

theorem Rounds.settled_unique (rounds : Rounds ρ start goal s t) (settled : t.Settled goal)
    (rounds' : Rounds ρ start goal s u) (settled' : u.Settled goal) : t = u :=
  Rounds.of_settled settled' (rounds.goes_on settled rounds')

/-- Where an advance comes to its end, a schedule that fires on the way is armed again. -/
theorem Rounds.sought (rounds : Rounds ρ start goal s t) (settled : t.Settled goal)
    (rounds' : Rounds ρ start goal s u) (due : u.Due goal i x due') :
    rearmed? x (start.later due') ≠ none := by
  rcases Relation.ReflTransGen.cases_head (rounds.goes_on settled rounds') with same | ⟨v, next, -⟩
  · rw [same] at due
    exact absurd due (settled i x due')
  · cases next with
    | mk due'' sought =>
      obtain ⟨rfl, rfl, rfl⟩ := due.unique due''
      rw [sought]
      simp

end Share

/-! Shares of an agenda. -/

/-- A dispatch: of which handle, when it was due, and what the clock showed. -/
def Happening.dispatch? : Happening α → Option (HandleId × Zoned × Zoned)
  | dispatched h due clock => some (h, due, clock)
  | logged .. | called .. | passedOver .. => none

namespace Agenda

variable {a b : Agenda α} {ids : List HandleId} {s : Share α} {h : HandleId}

/-- All dispatches so far. -/
def dispatches (a : Agenda α) : List (HandleId × Zoned × Zoned) :=
  a.journal.reverse.filterMap Happening.dispatch?

/-- The dispatches of some handles, each told by its place among them and by a reading of the
clock. -/
def dispatchesOf (ρ : Reckoning) (a : Agenda α) (ids : List HandleId) : List (Nat × Zoned × Zoned) :=
  (a.dispatches.filter fun d => d.1 ∈ ids).map fun d => (ids.idxOf d.1, d.2.1, ρ.reading d.2.2)

/-- What there is of a schedule, with its point of departure as it is told. -/
def coreBy? (ρ : Reckoning) (a : Agenda α) (h : HandleId) : Option (Handle α) :=
  (a.core? h).map (Handle.readBy ρ)

theorem coreBy?_oneZone {zone : Zone} (plain : zone.Plain) :
    a.coreBy? (.oneZone zone plain) = a.core? := by
  funext h
  cases found : a.core? h <;> simp [coreBy?, found]

theorem Tells.dispatches (tells : a.Tells b) : b.dispatches = a.dispatches := by
  obtain ⟨news, journal, none⟩ := tells
  have nothing : news.reverse.filterMap Happening.dispatch? = [] := by
    rw [List.filterMap_eq_nil_iff]
    intro x member
    have undispatched := none x (List.mem_reverse.mp member)
    cases x <;> first | rfl | cases undispatched
  rw [Agenda.dispatches, journal, List.reverse_append, List.filterMap_append, nothing,
    List.append_nil, Agenda.dispatches]

/-- No move dispatches a handle. -/
theorem Moves.tells (moves : a.Moves b) : a.Tells b := by
  induction moves with
  | refl => exact .same rfl
  | tail moves move ih =>
    cases move with
    | quiet quiet => exact ih.trans quiet.tells
    | cancels cancels => exact ih.trans cancels.tells
    | creates creates => exact ih.trans creates.arms.tells

/-- What the handles of a place come to, in the order in which they were added. -/
structure Shows (ρ : Reckoning) (a : Agenda α) (ids : List HandleId) (s : Share α) : Prop where
  schedules : ids.map (a.coreBy? ρ) = s.schedules.map some
  dispatches : a.dispatchesOf ρ ids = s.dispatches

namespace Shows

variable {i : Nat} {x : Handle α}

theorem congr (shown : a.Shows ρ ids s) (cores : ∀ h ∈ ids, b.core? h = a.core? h)
    (dispatches : b.dispatches = a.dispatches) : b.Shows ρ ids s := by
  refine ⟨(List.map_congr_left fun h inside => ?_).trans shown.schedules, ?_⟩
  · rw [coreBy?, cores h inside, coreBy?]
  · rw [dispatchesOf, dispatches, ← dispatchesOf, shown.dispatches]

theorem coreBy? (shown : a.Shows ρ ids s) (i : Nat) :
    (ids[i]?).bind (a.coreBy? ρ) = s.schedules[i]? := by
  have same := congrArg (fun l => (l[i]?).join) shown.schedules
  simp only [List.getElem?_map] at same
  cases found : ids[i]? <;> cases found' : s.schedules[i]? <;> simp_all

/-- A schedule stands where its handle does. -/
theorem found (shown : a.Shows ρ ids s) (there : ids[i]? = some h) :
    s.schedules[i]? = a.coreBy? ρ h := by
  rw [← shown.coreBy? i, there, Option.bind_some]

theorem withdraw (shown : a.Shows ρ ids s) {old : Option HandleId}
    (cores : ∀ h ∈ ids, b.core? h =
      if old = some h then (a.core? h).map Handle.withdrawn else a.core? h)
    (only : ∀ h ∈ ids, ∀ x, a.core? h = some x → x.state = .armed → old = some h)
    (dispatches : b.dispatches = a.dispatches) : b.Shows ρ ids s.withdrawn := by
  have each : ∀ h ∈ ids, b.core? h = (a.core? h).map Handle.withdrawn := by
    intro h member
    rw [cores h member]
    split
    · rfl
    · rename_i other
      cases found : a.core? h with
      | none => rfl
      | some x =>
        have ended : x.state ≠ .armed := fun armed => other (only h member x found armed)
        rw [Option.map_some, Handle.withdrawn_of_ended ended]
  have read : ∀ h ∈ ids, b.coreBy? ρ h = (a.coreBy? ρ h).map Handle.withdrawn := by
    intro h member
    rw [Agenda.coreBy?, each h member, Agenda.coreBy?, Option.map_map, Option.map_map]
    exact congrArg (Option.map · _) (funext fun x => Handle.withdrawn_readBy.symm)
  have mapped : ids.map (b.coreBy? ρ) =
      (ids.map (a.coreBy? ρ)).map (Option.map Handle.withdrawn) := by
    rw [List.map_map]
    exact List.map_congr_left read
  constructor
  · rw [mapped, shown.schedules, Share.withdrawn]
    simp
  · rw [dispatchesOf, dispatches, ← dispatchesOf, shown.dispatches]
    rfl

/-- A schedule may be added behind those that there are. -/
theorem append (shown : a.Shows ρ ids s) (unknown : ∀ d ∈ a.dispatches, d.1 ≠ h)
    (core : a.core? h = some x) :
    a.Shows ρ (ids ++ [h]) { s with schedules := s.schedules ++ [x.readBy ρ] } := by
  constructor
  · simp [shown.schedules, Agenda.coreBy?, core]
  · rw [← shown.dispatches, dispatchesOf, dispatchesOf]
    have same : a.dispatches.filter (fun d => d.1 ∈ ids ++ [h]) =
        a.dispatches.filter (fun d => d.1 ∈ ids) := by
      apply List.filter_congr
      intro d member
      simp [unknown d member]
    rw [same]
    apply List.map_congr_left
    intro d member
    have inside : d.1 ∈ ids := by simpa using (List.mem_filter.mp member).2
    rw [List.idxOf_append_of_mem inside]

theorem set (shown : a.Shows ρ ids s) (nodup : ids.Nodup) (there : ids[i]? = some h)
    (cores : ∀ h', b.core? h' = if h' = h then some x else a.core? h') :
    ids.map (b.coreBy? ρ) = (s.schedules.set i (x.readBy ρ)).map some := by
  obtain ⟨inside, rfl⟩ := List.getElem?_eq_some_iff.mp there
  rw [List.map_set, ← shown.schedules]
  apply List.ext_getElem (by simp)
  intro j left right
  rw [List.getElem_map, Agenda.coreBy?, cores, List.getElem_set, List.getElem_map]
  by_cases same : i = j
  · subst same
    simp
  · have within : j < ids.length := by simpa using left
    have other : ids[j] ≠ ids[i] := by
      intro equal
      exact same (nodup.getElem_inj_iff.mp equal).symm
    rw [if_neg other, if_neg same, Agenda.coreBy?]

/-- What the dispatch of a handle comes to for the share. -/
theorem fire (shown : a.Shows ρ ids s) (nodup : ids.Nodup) {due clock : Zoned}
    (cores : ∀ h', b.core? h' = if h' = h then some { x with fired := x.fired + 1 } else a.core? h')
    (dispatches : b.dispatches = a.dispatches ++ [(h, due, clock)]) :
    b.Shows ρ ids (if h ∈ ids then s.fired (ids.idxOf h) (x.readBy ρ) due (ρ.reading clock)
      else s) := by
  split
  · rename_i inside
    refine ⟨shown.set nodup (List.getElem?_idxOf inside) cores, ?_⟩
    rw [Share.fired, ← shown.dispatches]
    simp [dispatchesOf, dispatches, inside]
  · rename_i outside
    constructor
    · rw [← shown.schedules]
      apply List.map_congr_left
      intro h' inside
      rw [Agenda.coreBy?, cores, if_neg, Agenda.coreBy?]
      rintro rfl
      exact outside inside
    · rw [← shown.dispatches]
      simp [dispatchesOf, dispatches, outside]

/-- What arming the handle again comes to for it. -/
theorem rearm {due clock : Zoned} {x y : Handle α}
    (shown : a.Shows ρ ids (if h ∈ ids then s.fired (ids.idxOf h) x due clock else s))
    (nodup : ids.Nodup) (cores : ∀ h', b.core? h' = if h' = h then some y else a.core? h')
    (dispatches : b.dispatches = a.dispatches) :
    b.Shows ρ ids (if h ∈ ids then { s.fired (ids.idxOf h) x due clock with
      schedules := s.schedules.set (ids.idxOf h) (y.readBy ρ) } else s) := by
  split at shown
  · rename_i inside
    have set := shown.set nodup (List.getElem?_idxOf inside) cores
    rw [Share.fired, List.set_set] at set
    rw [if_pos inside]
    refine ⟨set, ?_⟩
    rw [dispatchesOf, dispatches, ← dispatchesOf, shown.dispatches]
  · rename_i outside
    rw [if_neg outside]
    refine shown.congr (fun h' inside => ?_) dispatches
    rw [cores, if_neg]
    rintro rfl
    exact outside inside

end Shows

end Agenda

end Almanac
