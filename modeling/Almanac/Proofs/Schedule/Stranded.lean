import Almanac.Proofs.Occurrence.InCalendar
import Almanac.Proofs.Schedule.Registered
import Almanac.Proofs.Schedule.Timed

set_option autoImplicit false

/-!
Schedules that are left behind.

A handle is armed again at the very end of its dispatch. Where its sequence runs off the calendar
there, nothing else is done: the handle stays armed for the instant that has been, without a timer
entry, and keeps its place in its registry. It never fires again, and only cancelling, removing or
replacing it, or the end of its session, gets rid of it. Where the sequence stays in the calendar
the handle waits for one more entry, or it is exhausted and leaves its registry.
-/

namespace Almanac

variable {α : Type}

namespace Agenda

variable {a b : Agenda α} {h : HandleId} {handle handle' : Handle α} {e : Entry}

/-! What holds of every handle. -/

def Each (P : Handle α → Prop) (a : Agenda α) : Prop :=
  ∀ h handle, a.handle? h = some handle → P handle

/-- What is kept of a handle by all that can happen to it. A handle is armed when it has been
created, or once it has been dispatched. -/
structure Lasting (P : Handle α → Prop) : Prop where
  files : ∀ {x y : Handle α}, y.unregistered = x.unregistered → P x → P y
  drops : ∀ {x : Handle α}, P x → P { x with state := .cancelled, nextFire := none, timer := none }
  fires : ∀ {x : Handle α}, P x → P { x with timer := none, fired := x.fired + 1 }
  arms : ∀ {a b : Agenda α} {h : HandleId} {x y : Handle α} {missed : Zoned → Bool},
    (P x ∨ ∃ rule notBefore, x.sequence = .ofRule rule (some notBefore)) → x.state = .armed →
    a.handle? h = some x → a.Arms h x missed b → b.handle? h = some y → P y
  fails : ∀ {x : Handle α} {sequence : Sequence} {passOver : Zoned → Bool},
    x.sequence.Alike sequence → x.sequence.RunsOff passOver → P x → P { x with sequence }

theorem Arms.handle?_ne {missed : Zoned → Bool} (arms : a.Arms h handle missed b) {h' : HandleId}
    (other : h' ≠ h) : b.handle? h' = a.handle? h' := by
  cases arms with
  | waits alike run passes handles => exact handle?_set_ne handles other
  | ends alike run nothing passes handles => exact handle?_set_ne handles other

section Each

variable {P : Handle α → Prop}

theorem Each.set (each : a.Each P) (found : a.handle? h = some handle)
    (handles : b.handles = a.handles.set h handle') (new : P handle') : b.Each P := by
  intro h' other known
  by_cases own : h' = h
  · subst own
    rw [handle?_set_self handles (lt_of_handle? found)] at known
    cases known
    exact new
  · rw [handle?_set_ne handles own] at known
    exact each h' other known

variable (lasting : Lasting P)
include lasting

theorem Each.quiet (each : a.Each P) (quiet : a.Quiet b) : b.Each P := by
  intro h handle known
  have kept := quiet.handle? h
  rw [known, Option.map_some] at kept
  obtain ⟨old, found, same⟩ := Option.map_eq_some_iff.mp kept.symm
  exact lasting.files same.symm (each h old found)

theorem Each.arms (each : a.Each P) {missed : Zoned → Bool} (found : a.handle? h = some handle)
    (armed : handle.state = .armed) (arms : a.Arms h handle missed b) : b.Each P := by
  intro h' other known
  by_cases own : h' = h
  · subst own
    exact lasting.arms (.inl (each h' handle found)) armed found arms known
  · rw [arms.handle?_ne own] at known
    exact each h' other known

theorem Each.creates (each : a.Each P) (creates : a.Creates handle b) : b.Each P := by
  intro h other known
  by_cases own : h = a.handles.length
  · subst own
    exact lasting.arms (.inr creates.sequence) creates.state List.getElem?_concat_length
      creates.arms known
  · rw [creates.arms.handle?_ne own, handle?_append_ne own] at known
    exact each h other known

theorem Each.moves (each : a.Each P) (moves : a.Moves b) : b.Each P := by
  induction moves with
  | refl => exact each
  | tail moves move ih =>
    cases move with
    | quiet quiet => exact ih.quiet lasting quiet
    | cancels cancels =>
      exact ih.set cancels.found cancels.handles (lasting.drops (ih _ _ cancels.found))
    | creates creates => exact ih.creates lasting creates

theorem Each.serves (each : a.Each P) {served : Option (Handle α)} (serves : a.Serves e b served) :
    b.Each P := by
  cases serves with
  | idles takes idle handles =>
    intro h handle known
    exact each h handle ((handle?_of_handles handles h).symm.trans known)
  | drops takes found armed handles =>
    exact each.set found handles (lasting.drops (each _ _ found))
  | fires takes found armed due lives handles =>
    exact each.set found handles (lasting.fires (each _ _ found))

end Each

/-- A schedule that is found is listed. -/
theorem mem_schedules_of_get? {config : Config} {session name : String}
    (stored : a.get? config session name = some h) : name ∈ a.schedules config session := by
  obtain ⟨id, r, held, named⟩ := get?_eq_some_iff.mp stored
  rw [schedules, held]
  exact Named.mem_names_of_mem (Named.mem_of_get? named)

/-! Where a handle stands. -/

/-- A handle is armed for the one timer entry that is outstanding for it. -/
def Waits (a : Agenda α) (h : HandleId) : Prop :=
  ∃ handle e, a.handle? h = some handle ∧ handle.state = .armed ∧ a.entriesOf h = [e] ∧
    handle.nextFire = some e.due ∧ handle.timer = some e.id

def Exhausted (a : Agenda α) (h : HandleId) : Prop :=
  ∃ handle, a.handle? h = some handle ∧ handle.state = .exhausted ∧ handle.nextFire = none ∧
    a.entriesOf h = []

/-- A handle that is exhausted is stored nowhere. -/
theorem Exhausted.not_files {past : HandleId → Prop} {id : RegistryId} {name : String}
    (exhausted : a.Exhausted h) (orderly : a.Orderly past) : ¬a.Files id name h := by
  intro files
  obtain ⟨handle, found, state, -⟩ := exhausted
  obtain ⟨s, -, -, state', labelled, live⟩ := orderly.filed id name h files
  rw [label?, found, Option.map_some, Option.some_inj] at labelled
  have same : state' = .exhausted := (congrArg Label.state labelled).symm.trans state
  rcases live with armed | ⟨cancelled, -⟩
  · cases same.symm.trans armed
  · cases same.symm.trans cancelled

end Agenda

namespace Run

open Agenda

variable {r r' : Run α} {deeds : List (Deed α)} {did : Option (Action α)} {h : HandleId}
  {handle : Handle α} {P : Handle α → Prop}

theorem each_stepped (lasting : Lasting P) (each : r.agenda.Each P) (stepped : r.Stepped r') :
    r'.agenda.Each P := by
  cases stepped with
  | moves moves => exact each.moves lasting moves
  | serves serves quiet => exact (each.serves lasting serves).quiet lasting quiet
  | finishes firing idle quiet => exact each.quiet lasting quiet
  | rearms firing quiet found armed arms quiet' =>
    exact ((each.quiet lasting quiet).arms lasting found armed arms).quiet lasting quiet'
  | @raises h handle b sequence raises firing quiet found armed quiet' faulted alike off =>
    have noted := each.quiet lasting quiet
    have handles : (b.setHandle h { handle with sequence }).handles =
      b.handles.set h { handle with sequence } := rfl
    have failed := noted.set found handles (lasting.fails alike off (noted h handle found))
    exact failed.quiet lasting quiet'

theorem History.each (lasting : Lasting P) (history : History deeds r) : r.agenda.Each P := by
  induction history with
  | start => exact fun h handle known => absurd known nofun
  | next history next ih => exact each_stepped lasting ih next.stepped

theorem History.later (history : History deeds r) (later : r.Later r') :
    ∃ deeds', History deeds' r' := by
  induction later with
  | refl => exact ⟨deeds, history⟩
  | tail later next ih =>
    obtain ⟨deeds', history'⟩ := ih
    exact ⟨_, history'.next next⟩

end Run

namespace Handle

/-- Whether arming a handle again fails at an instant. -/
def RunsOff (handle : Handle α) (clock : Zoned) : Prop :=
  handle.sequence.RunsOff fun t => handle.coalesce && t.before clock

/-! Two such properties. -/

/-- A handle tells an instant as long as it is armed. -/
def Aims (handle : Handle α) : Prop := handle.state = .armed ↔ handle.nextFire ≠ none

/-- The sequence of a handle comes to its end, if its rule stays in the calendar. -/
def Lasts (handle : Handle α) : Prop := handle.rule.Tells → handle.sequence.run.2 = .ended

theorem lasting_aims : Agenda.Lasting (Aims (α := α)) where
  files {x y} same aims := by
    have state : y.state = x.state := (congrArg Handle.state same :)
    have nextFire : y.nextFire = x.nextFire := (congrArg Handle.nextFire same :)
    rw [Aims, state, nextFire]
    exact aims
  drops _ := iff_of_false nofun (not_not_intro rfl)
  fires aims := aims
  arms _ armed found arms known := by
    cases arms with
    | waits alike run passes handles =>
      rw [Agenda.handle?_set_self handles (Agenda.lt_of_handle? found)] at known
      cases known
      exact iff_of_true armed nofun
    | ends alike run nothing passes handles =>
      rw [Agenda.handle?_set_self handles (Agenda.lt_of_handle? found)] at known
      cases known
      exact iff_of_false nofun (not_not_intro rfl)
  fails _ _ aims := aims

theorem rule_of_alike {handle : Handle α} {sequence : Sequence}
    (alike : handle.sequence.Alike sequence) : ({ handle with sequence } : Handle α).rule =
      handle.rule :=
  congrArg Plan.rule alike.plan

theorem lasting_lasts : Agenda.Lasting (Lasts (α := α)) where
  files {x y} same lasts := by
    have sequence : y.sequence = x.sequence := (congrArg Handle.sequence same :)
    rw [Lasts, rule, sequence]
    exact lasts
  drops lasts := lasts
  fires lasts := lasts
  arms {a b h x y missed} start armed found arms known := by
    intro tells
    have ends (tells : x.rule.Tells) : x.sequence.run.2 = .ended := by
      rcases start with lasts | ⟨rule, notBefore, fresh⟩
      · exact lasts tells
      · have same : x.rule = rule := congrArg (fun s => s.plan.rule) fresh
        rw [fresh]
        refine (Sequence.run_ofRule (same ▸ tells) notBefore).resolve_left fun off => ?_
        -- A handle is not armed where its sequence fails at once.
        refine arms.not_runsOff ⟨?_, ?_⟩
        · rw [fresh, off]
        · rw [fresh, off]
          exact List.forall_mem_nil _
    cases arms with
    | waits alike run passes handles =>
      rw [Agenda.handle?_set_self handles (Agenda.lt_of_handle? found)] at known
      cases known
      exact (congrArg Prod.snd run).symm.trans (ends (rule_of_alike alike ▸ tells))
    | ends alike run nothing passes handles =>
      rw [Agenda.handle?_set_self handles (Agenda.lt_of_handle? found)] at known
      cases known
      exact congrArg Prod.snd nothing
  fails alike off lasts tells := by
    rw [rule_of_alike alike] at tells
    cases off.1.symm.trans (lasts tells)

end Handle

namespace Run

open Agenda

variable {r r' r'' : Run α} {deeds : List (Deed α)} {did : Option (Action α)} {h : HandleId}
  {handle : Handle α}

/-! Handles that nothing waits for. -/

/-- No timer entry is outstanding for a handle, and its dispatch does not run. -/
structure Unattended (r : Run α) (h : HandleId) : Prop where
  known : ∃ handle, r.agenda.handle? h = some handle
  entries : r.agenda.entriesOf h = []
  outside : h ∉ r.firing

/-- A handle that is stranded tells an instant to fire at, and will not fire. -/
structure Stranded (r : Run α) (h : HandleId) : Prop extends r.Unattended h where
  armed : ∃ handle, r.agenda.handle? h = some handle ∧ handle.state = .armed ∧
    handle.nextFire ≠ none

/-- Nothing happens to an unattended handle in a step, and it stays unattended. -/
theorem Unattended.stepped (left : r.Unattended h) (stepped : r.Stepped r') :
    r.agenda.Silent h r'.agenda ∧ r'.Unattended h := by
  obtain ⟨⟨handle, known⟩, entries, outside⟩ := left
  rw [List.eq_nil_iff_forall_not_mem] at entries
  have elsewhere {e : Entry} (member : e ∈ r.agenda.pending) : h ≠ e.handle := by
    rintro rfl
    exact entries e (mem_entriesOf.mpr ⟨member, rfl⟩)
  obtain ⟨silent, firing⟩ := stepped.silent known (fun serves _ => elsewhere serves.member) <| by
    rintro b h' handle' firing - - - rfl
    exact outside (firing ▸ List.mem_cons_self)
  obtain ⟨handle', known', -⟩ := stepped.persists h handle known
  refine ⟨silent, ⟨handle', known'⟩, ?_, outside ∘ firing⟩
  rw [List.eq_nil_iff_forall_not_mem]
  intro e member
  obtain ⟨pending, whose⟩ := mem_entriesOf.mp member
  exact elsewhere (silent.entries e pending whose) whose.symm

theorem Unattended.later (left : r.Unattended h) (later : r.Later r') :
    r.agenda.Silent h r'.agenda ∧ r'.Unattended h := by
  induction later with
  | refl => exact ⟨.refl h _, left⟩
  | tail later next ih =>
    obtain ⟨silent, left⟩ := ih
    obtain ⟨silent', left'⟩ := left.stepped next.stepped
    exact ⟨silent.trans silent', left'⟩

/-- A stranded handle stays so until it ends. -/
theorem Stranded.later (stranded : r.Stranded h) (history : History deeds r) (later : r.Later r') :
    r.agenda.Silent h r'.agenda ∧ (r'.Stranded h ∨ r'.agenda.Ended h) := by
  obtain ⟨silent, left⟩ := stranded.toUnattended.later later
  obtain ⟨deeds', history'⟩ := history.later later
  obtain ⟨handle, found⟩ := left.known
  refine ⟨silent, ?_⟩
  by_cases armed : handle.state = .armed
  · have aims := history'.each Handle.lasting_aims h handle found
    exact .inl ⟨left, handle, found, armed, aims.mp armed⟩
  · exact .inr ⟨handle, found, armed⟩

/-! The end of a dispatch. -/

/-- No action is carried out where a dispatch ends. -/
theorem Next.idle_of_ended (next : r.Next did r') (ended : r.firing = h :: r'.firing) :
    did = none := by
  cases did with
  | none => rfl
  | some action =>
    obtain ⟨below, firing, rfl⟩ := next.performs
    have same : (perform r.agenda below action).settle.firing = r.firing :=
      (Run.performs r.agenda below action).firing.trans firing
    rw [ended] at same
    exact absurd same (List.cons_ne_self _ _).symm

/-- What becomes of a handle that is still armed when its dispatch ends. Nothing more is done with
one whose sequence runs off the calendar. -/
inductive Rearmed (r : Run α) (h : HandleId) (handle : Handle α) (r' : Run α) : Prop where
  | failed {handle' : Handle α} (off : handle.RunsOff r.agenda.clock)
      (answered : r'.outcome = some (.error .outOfRange))
      (found : r'.agenda.handle? h = some handle') (armed : handle'.state = .armed)
      (nextFire : handle'.nextFire = handle.nextFire) (entries : r'.agenda.entriesOf h = [])
  | waits (inside : ¬handle.RunsOff r.agenda.clock) (answered : r'.outcome = some (.ok .nothing))
      (waits : r'.agenda.Waits h)
  | exhausted (inside : ¬handle.RunsOff r.agenda.clock)
      (answered : r'.outcome = some (.ok .nothing)) (exhausted : r'.agenda.Exhausted h)

theorem rearmed (timed : r.agenda.Timed r.firing) (stepped : r.Stepped r')
    (ended : r.firing = h :: r'.firing) (found : r.agenda.handle? h = some handle)
    (armed : handle.state = .armed) : r.Rearmed h handle r' := by
  have nothing : r.agenda.entriesOf h = [] := (timed.idle h (ended ▸ List.mem_cons_self)).2
  have entries {a b : Agenda α} (quiet : a.Quiet b) : b.entriesOf h = a.entriesOf h := by
    rw [entriesOf, quiet.pending, entriesOf]
  obtain ⟨b, faulted, found, noted, rearming⟩ := stepped.rearming ended found armed
  obtain ⟨-, clock, -⟩ := same_of_faulted faulted
  have inside := lt_of_handle? found
  rw [← entries noted] at nothing
  cases rearming with
  | @arms c arms quiet journal answered =>
    have stays := arms.not_runsOff
    rw [clock] at stays
    cases arms with
    | @waits skipped t sequence alike run passes set pending =>
      obtain ⟨x, known, same⟩ := quiet.found (handle?_set_self set inside)
      have whose : c.entriesOf h = [⟨b.nextEntry, t, h⟩] := by
        rw [entriesOf_append pending, nothing, if_pos rfl, List.nil_append]
      refine .waits stays answered ⟨x, _, known, ?_, (entries quiet).trans whose, ?_, ?_⟩
      · exact (congrArg Handle.state same :).trans armed
      · exact (congrArg Handle.nextFire same :)
      · exact (congrArg Handle.timer same :)
    | ends alike run none passes set pending =>
      obtain ⟨x, known, same⟩ := quiet.found (handle?_set_self set inside)
      refine .exhausted stays answered ⟨x, known, ?_, ?_, ?_⟩
      · exact (congrArg Handle.state same :)
      · exact (congrArg Handle.nextFire same :)
      · rw [entries quiet, entriesOf, pending, ← entriesOf, nothing]
  | @fails sequence raises quiet off answered =>
    rw [clock] at off
    have set : (b.setHandle h { handle with sequence }).handles =
      b.handles.set h { handle with sequence } := rfl
    have kept : (b.setHandle h { handle with sequence }).entriesOf h = b.entriesOf h := rfl
    obtain ⟨x, known, same⟩ := quiet.found (handle?_set_self set inside)
    refine .failed off answered known ?_ ?_ ?_
    · exact (congrArg Handle.state same :).trans armed
    · exact (congrArg Handle.nextFire same :)
    · rw [entries quiet, kept, nothing]

/-- A stranded handle is still found under its name, and this is listed, as long as nothing changes
heaps or registries directly. -/
theorem Stranded.listed (stranded : r.Stranded h) (history : History deeds r)
    (tame : ∀ d ∈ deeds, d.action.meddles = false) {via session name event : String}
    {source : RuleSource} {args : List α}
    (added : adding via session name event source args h ∈ deeds)
    (lives : session ∈ r.agenda.names) : ∃ config, r.agenda.schedulers.lookup via = some config ∧
      r.agenda.get? config session name = some h ∧ name ∈ r.agenda.schedules config session := by
  obtain ⟨config, scheduler, filed⟩ := history.filed tame added
  obtain ⟨handle, found, armed, -⟩ := stranded.armed
  have stored := filed.stored (history.orderly tame) found armed lives
  exact ⟨config, scheduler, stored, mem_schedules_of_get? stored⟩

/-- At the end of its dispatch an armed handle is armed again, exhausted or stranded. Where its
sequence runs off the calendar the failure is told, and the handle stays armed for the instant that
has been, with no entry. Whatever comes later, nothing is dispatched for it and it stays so until it
ends, and its name is listed like any other. Where the sequence stays in the calendar the handle
waits for one entry, or is exhausted and stored nowhere. No sequence runs off whose rule starts
after the first year and needs no week at the edges of the calendar. -/
theorem rearmed_or_stranded (history : History deeds r) (next : r.Next did r')
    (ended : r.firing = h :: r'.firing) (found : r.agenda.handle? h = some handle)
    (armed : handle.state = .armed) :
    (handle.RunsOff r.agenda.clock →
      r'.outcome = some (.error .outOfRange) ∧ r'.Stranded h ∧
      (∃ handle', r'.agenda.handle? h = some handle' ∧ handle'.nextFire = handle.nextFire) ∧
      (∀ r'', r'.Later r'' →
        r'.agenda.Silent h r''.agenda ∧ (r''.Stranded h ∨ r''.agenda.Ended h)) ∧
      ((∀ d ∈ deeds, d.action.meddles = false) → ∀ via session name event source args,
        adding via session name event source args h ∈ deeds → session ∈ r'.agenda.names →
        ∃ config, r'.agenda.schedulers.lookup via = some config ∧
          r'.agenda.get? config session name = some h ∧
          name ∈ r'.agenda.schedules config session)) ∧
    (¬handle.RunsOff r.agenda.clock →
      r'.outcome = some (.ok .nothing) ∧
      (r'.agenda.Waits h ∨ r'.agenda.Exhausted h ∧
        ((∀ d ∈ deeds, d.action.meddles = false) → ∀ id name, ¬r'.agenda.Files id name h))) ∧
    (∀ (spec : Spec) (now : Stamp), spec.rule now = .ok handle.rule →
      2 ≤ handle.rule.start.wall.year → handle.rule.WeeksFit →
      ¬handle.RunsOff r.agenda.clock) := by
  have history' : History deeds r' := by
    cases next.idle_of_ended ended
    exact history.next next
  have rearmed := rearmed history.timed next.stepped ended found armed
  refine ⟨fun off => ?_, fun inside => ?_, fun spec now read low weeks off => ?_⟩
  · cases rearmed with
    | waits inside | exhausted inside => exact absurd off inside
    | @failed handle' _ answered found' armed' nextFire entries =>
      have outside : h ∉ r'.firing := (List.nodup_cons.mp (ended ▸ history.timed.once)).1
      have aims := history'.each Handle.lasting_aims h handle' found'
      have stranded : r'.Stranded h :=
        ⟨⟨⟨handle', found'⟩, entries, outside⟩, handle', found', armed', aims.mp armed'⟩
      exact ⟨answered, stranded, ⟨handle', found', nextFire⟩,
        fun r'' later => stranded.later history' later,
        fun tame via session name event source args added lives =>
          stranded.listed history' tame added lives⟩
  · cases rearmed with
    | failed off => exact absurd off inside
    | waits _ answered waits => exact ⟨answered, .inl waits⟩
    | exhausted _ answered exhausted =>
      exact ⟨answered, .inr
        ⟨exhausted, fun tame _ _ => exhausted.not_files (history'.orderly tame)⟩⟩
  · have tells : handle.rule.Tells :=
      ⟨Spec.rule_canonical read, low, Spec.yearly_of_weekNumbers read, weeks⟩
    cases off.1.symm.trans (history.each Handle.lasting_lasts h handle found tells)

end Run

/-! The fiftieth week of every year from 9997 on, in weeks from Tuesday on. The last days of 9998
belong to the first week of 9999, and how many weeks that year has cannot be told. -/

def fiftiethWeeks : Rule where
  freq := .yearly
  start := ⟨⟨315473356800000000, by decide⟩, .utc, false⟩
  interval := 1
  count := none
  finish := none
  endsBefore := none
  weekStart := .tuesday
  seconds := []
  minutes := []
  hours := []
  days := [⟨.monday, none⟩]
  monthDays := []
  yearDays := []
  weekNumbers := [50]
  months := []
  positions := []
  interval_pos := Nat.zero_lt_one

namespace fiftiethWeeks

def spec : Spec := .map [("freq", .frequency .yearly), ("byweekno", .int 50),
  ("byday", .weekday .monday), ("wkst", .weekday .tuesday), ("dtstart", .stamp fiftiethWeeks.start)]

theorem candidates_first :
    (Plan.ofRule fiftiethWeeks).candidates? 9997 = some [315473356800000000] := by
  decide +kernel

theorem candidates_second : (Plan.ofRule fiftiethWeeks).candidates? 9998 = none := by
  decide +kernel

/-- Its sequence where a period is next and some candidates are left. -/
def scanned (period : Nat) (queue : List Nat) (last : Option Zoned) (n : Nat) : Sequence :=
  { Sequence.ofRule fiftiethWeeks (some fiftiethWeeks.start) with
    scan := .opened period 9997 9997 queue, last, counted := n }

/-- A year that lies in the calendar is opened. -/
theorem step_opened {year : Nat} (low : 0 < year) (limit : year < Calendar.lastYear) :
    (Scan.opened year 9997 9997 []).step (.ofRule fiftiethWeeks) =
      Scan.openPeriod (.ofRule fiftiethWeeks) year 9997 year := by
  have coarse : ¬(Plan.ofRule fiftiethWeeks).isSubDaily = true := nofun
  have own : Calendar.yearOf (Calendar.daysBeforeYear year) = year :=
    Calendar.yearOf_daysBeforeYear low
  have near : ¬400 * fiftiethWeeks.interval <
      Calendar.yearOf (Calendar.daysBeforeYear year) - 9997 := by
    have last : Calendar.lastYear = 9999 := rfl
    have interval : fiftiethWeeks.interval = 1 := rfl
    omega
  refine (if_pos limit).trans ((if_neg near).trans ((if_neg coarse).trans ?_))
  exact congrArg (Scan.openPeriod _ year 9997) own

theorem seek_first {passOver : Zoned → Bool} (kept : passOver fiftiethWeeks.start = false) :
    (Sequence.ofRule fiftiethWeeks (some fiftiethWeeks.start)).seek passOver 0 =
      (.found fiftiethWeeks.start, 0, scanned 9998 [] (some fiftiethWeeks.start) 1) := by
  have first : (Sequence.ofRule fiftiethWeeks (some fiftiethWeeks.start)).step =
      .skip (scanned 9997 [] none 0) := rfl
  have opens : (Scan.opened 9997 9997 9997 []).step (.ofRule fiftiethWeeks) =
      .skip (.opened 9998 9997 9997 [315473356800000000]) := by
    rw [step_opened (by decide) (by decide), Scan.openPeriod, candidates_first]
    rfl
  have opens : (scanned 9997 [] none 0).step =
      .skip (scanned 9998 [315473356800000000] none 0) :=
    Sequence.step_of_scan_skip rfl rfl opens
  rw [Sequence.seek_skip first, Sequence.seek_skip opens]
  exact Sequence.seek_found rfl kept

/-- Its second year cannot be told. -/
theorem step_second : (scanned 9998 [] (some fiftiethWeeks.start) 1).step =
    .outOfRange { scanned 9998 [] (some fiftiethWeeks.start) 1 with scan := .finished } := by
  have opens : (Scan.opened 9998 9997 9997 []).step (.ofRule fiftiethWeeks) = .outOfRange := by
    rw [step_opened (by decide) (by decide), Scan.openPeriod, candidates_second]
  exact Sequence.step_of_scan_outOfRange rfl rfl opens

/-- Once the schedule has been added. -/
def stored : Agenda Nat :=
  .first fiftiethWeeks.start "week" "week" fiftiethWeeks
    (scanned 9998 [] (some fiftiethWeeks.start) 1) fiftiethWeeks.start

/-- The handle in its first dispatch. -/
def fired : Handle Nat :=
  { firstHandle "week" "week" (scanned 9998 [] (some fiftiethWeeks.start) 1) fiftiethWeeks.start
      (some 0) with
    timer := none, fired := 1 }

def dispatching : Agenda Nat :=
  { stored with
    pending := []
    handles := [fired]
    journal := .logged ⟨.warning, "Session " ++ Text.quoted "inbox" ++
        " has no handler for event " ++ Text.quoted "week"⟩ ::
      .dispatched 0 fiftiethWeeks.start fiftiethWeeks.start :: stored.journal }

def added : Deed Nat := Run.adding "main" "inbox" "week" "week" (.spec spec) [] 0

/-- The run inside the first dispatch. -/
def firing : Run Nat :=
  ⟨dispatching, [.firing 0 "inbox", .advancing fiftiethWeeks.start 1], some (.ok .nothing)⟩

theorem history_firing : Run.History [⟨.advance 0, none⟩, added] firing := by
  have started : Run.History [] (⟨.single fiftiethWeeks.start, [], none⟩ : Run Nat) :=
    .start _ _ _ _
  have next : (⟨.single fiftiethWeeks.start, [], none⟩ : Run Nat).Next
      (some (.add "main" "inbox" "week" "week" (.spec spec) []))
      ⟨stored, [], some (.ok (.handle (some 0)))⟩ :=
    Run.next_first fiftiethWeeks (by decide +kernel) rfl (seek_first rfl)
  have free : (⟨stored, [], some (.ok (.handle (some 0)))⟩ : Run Nat).Free := trivial
  exact ((started.next next).next (.act free (.advance 0))).next (.step rfl)

/-- The run after the first dispatch. -/
def failed : Run Nat :=
  ⟨{ dispatching with handles := [{ fired with
      sequence := { scanned 9998 [] (some fiftiethWeeks.start) 1 with scan := .finished } }] },
    [.advancing fiftiethWeeks.start 1], some (.error .outOfRange)⟩

theorem step_firing : firing.step? = some failed := by
  have rearm : dispatching.rearm 0 = (failed.agenda, .error .outOfRange) := by
    show Agenda.arm _ 0 fired true = _
    exact Agenda.arm_outOfRange (Sequence.seek_outOfRange step_second)
  have ends : Run.stepFiring dispatching [.advancing fiftiethWeeks.start 1] 0
      (some (.ok .nothing)) = failed := by
    unfold Run.stepFiring
    dsimp only
    rw [rearm]
    rfl
  exact congrArg (fun r : Run Nat => some r.settle) ends

/-- The second occurrence cannot be told. The schedule stays armed for the first one, and listed. -/
theorem stranded_failed : failed.Stranded 0 ∧ "week" ∈ failed.agenda.schedules {} "inbox" ∧
    ∀ r, failed.Later r → failed.agenda.Silent 0 r.agenda := by
  have found : firing.agenda.handle? 0 = some fired := rfl
  have off : fired.RunsOff firing.agenda.clock := by
    have run : fired.sequence.run = ([], .outOfRange) :=
      Sequence.run_outOfRange step_second
    rw [Handle.RunsOff, Sequence.RunsOff, run]
    exact ⟨rfl, List.forall_mem_nil _⟩
  have next : firing.Next none failed := .step step_firing
  obtain ⟨strands, -⟩ := Run.rearmed_or_stranded history_firing next rfl found rfl
  obtain ⟨-, stranded, -, later, listed⟩ := strands off
  have tame : ∀ d ∈ [⟨.advance 0, none⟩, added], (d : Deed Nat).action.meddles = false :=
    List.forall_mem_cons.mpr ⟨rfl, List.forall_mem_singleton.mpr rfl⟩
  have lives : "inbox" ∈ failed.agenda.names := List.mem_singleton.mpr rfl
  obtain ⟨config, scheduler, -, named⟩ := listed tame _ _ _ _ _ _
    (List.mem_cons_of_mem _ List.mem_cons_self) lives
  cases scheduler
  exact ⟨stranded, named, fun r after => (later r after).1⟩

end fiftiethWeeks

end Almanac
