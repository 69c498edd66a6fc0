import Almanac.Proofs.Rule.Validity
import Almanac.Proofs.Schedule.Cores
import Almanac.Proofs.Schedule.Housed
import Almanac.Proofs.Schedule.Timed

set_option autoImplicit false

/-!
Adding a schedule is all or nothing.

A specification that is refused, and a name that is taken where none may be replaced, leave an agenda
as it was. Otherwise there is a new handle, which is stored if it is armed; the one that had the name
has ended, with nothing outstanding if the timer can take entries back, and all else is as it was.
-/

namespace Almanac

variable {α : Type}

namespace Agenda

/-- The clock in whole seconds, at which schedules are added. -/
def now (a : Agenda α) : Zoned := { a.clock with wall := a.clock.wall.wholeSecond }

/-- What adding a schedule does when it tells its handle. -/
structure Installs (a : Agenda α) (config : Config) (session name : String) (b : Agenda α)
    (h : HandleId) : Prop where
  new : a.handle? h = none
  stored : ∃ handle, b.handle? h = some handle ∧ handle.name = name ∧ handle.session = session ∧
    (handle.state = .armed ∧ b.get? config session name = some h ∧ (∃ e, b.entriesOf h = [e] ∧
        handle.nextFire = some e.due ∧ handle.timer = some e.id) ∨
      handle.state = .exhausted ∧ b.get? config session name = none ∧ b.entriesOf h = [])
  replaced : ∀ old, a.get? config session name = some old →
    b.Ended old ∧ (a.revocable = true → b.entriesOf old = [])
  handles : ∀ h' ≠ h, a.get? config session name ≠ some h' → b.handle? h' = a.handle? h'
  pending : b.pending = a.pending.filter (fun e =>
    !(a.revocable && decide (a.get? config session name = some e.handle))) ++ b.entriesOf h
  entries : ∀ (config' : Config) (session' name' : String),
    ¬(session' = session ∧ config'.heapKey = config.heapKey ∧ name' = name) →
      b.get? config' session' name' = a.get? config' session' name'

variable {a b c d : Agenda α} {firing : List HandleId} {h h' : HandleId} {handle : Handle α}
  {id : RegistryId} {r r' : Named HandleId} {config : Config} {session name event : String}
  {source : RuleSource} {args : List α} {rule : Rule}

/-! Refusals. -/

theorem sought?_fresh_ne_none {coalesce : Bool} {notBefore : Stamp}
    (inside : (Sequence.ofRule rule (some notBefore)).next.1 ≠ .outOfRange) :
    (Handle.fresh session name event rule args coalesce notBefore).sought? (fun _ => false) ≠
      none := by
  intro beyond
  apply inside
  unfold Sequence.next
  unfold Handle.sought? at beyond
  dsimp only [Handle.fresh] at beyond
  generalize (Sequence.ofRule rule (some notBefore)).seek (fun _ => false) 0 = found at beyond ⊢
  obtain ⟨answer, passed, sequence⟩ := found
  cases answer with
  | found t => cases beyond
  | ended => cases beyond
  | outOfRange => rfl

/-- The first occurrence can be asked for. -/
def Answers (a : Agenda α) (source : RuleSource) : Prop :=
  ∀ rule, source.rule a.now = .ok rule →
    (Sequence.ofRule rule (some a.now)).next.1 ≠ .outOfRange

theorem not_makes_error (answers : a.Answers source) {fault : Fault} :
    ¬a.Makes config session name event source args rule b id r (c, .error fault) :=
  fun makes => sought?_fresh_ne_none (answers rule makes.read) makes.unsought

theorem obtained_of_taken (obtained : a.obtainRegistry session config.heapKey = (b, id, r))
    (taken : r.contains name = true) : b = a := by
  unfold obtainRegistry at obtained
  split at obtained
  · cases obtained
    rfl
  · cases obtained
    cases taken

/-! The handle that is made. -/

/-- Where adding has come to once its handle is made. -/
structure Made (a : Agenda α) (firing : List HandleId) (session key name : String) (id : RegistryId)
    (r : Named HandleId) (h : HandleId) (c : Agenda α) : Prop where
  obtains : Housed.Obtains a session key c id r
  timed : c.Timed firing
  revocable : c.revocable = a.revocable
  new : a.handle? h = none
  others : ∀ h' ≠ h, c.handle? h' = a.handle? h'
  pending : c.pending = a.pending ++ c.entriesOf h
  starts : ∃ handle, c.handle? h = some handle ∧ handle.name = name ∧ handle.session = session ∧
    (handle.state = .armed ∧ (∃ e, c.entriesOf h = [e] ∧ handle.nextFire = some e.due ∧
        handle.timer = some e.id) ∨
      handle.state = .exhausted ∧ c.entriesOf h = [])

theorem Creates.others (creates : a.Creates handle b) (other : h ≠ a.handles.length) :
    b.handle? h = a.handle? h := by
  cases creates.arms with
  | waits alike run passes handles | ends alike run nothing passes handles =>
    rw [handle?_set_ne handles other, handle?_append_ne other]

theorem Creates.revocable (creates : a.Creates handle b) : b.revocable = a.revocable := by
  cases creates.arms with
  | waits alike run passes handles pending nextEntry revocable => exact revocable
  | ends alike run nothing passes handles pending nextEntry revocable => exact revocable

/-- A handle that is created waits with one entry, or has ended and has none. -/
theorem Timed.starts (timed : a.Timed firing) (creates : a.Creates handle b) :
    b.pending = a.pending ++ b.entriesOf a.handles.length ∧
    ∃ handle', b.handle? a.handles.length = some handle' ∧ handle'.name = handle.name ∧
      handle'.session = handle.session ∧
      (handle'.state = .armed ∧ (∃ e, b.entriesOf a.handles.length = [e] ∧
          handle'.nextFire = some e.due ∧ handle'.timer = some e.id) ∨
        handle'.state = .exhausted ∧ b.entriesOf a.handles.length = []) := by
  have nothing := timed.entriesOf_missing (List.getElem?_eq_none le_rfl)
  have inside : a.handles.length < (a.handles ++ [handle]).length := by simp
  cases creates.arms with
  | @waits skipped t sequence alike run passes handles pending =>
    have entries : b.entriesOf a.handles.length = [⟨a.nextEntry, t, a.handles.length⟩] := by
      have appended := entriesOf_append (a := { a with handles := a.handles ++ [handle] }) pending
        a.handles.length
      rw [if_pos rfl] at appended
      rw [appended]
      exact congrArg (· ++ _) nothing
    rw [entries]
    exact ⟨pending, _, handle?_set_self handles inside, rfl, rfl,
      .inl ⟨creates.state, _, rfl, rfl, rfl⟩⟩
  | ends alike run nothing' passes handles pending =>
    have entries : b.entriesOf a.handles.length = [] := by
      rw [entriesOf, pending]
      exact nothing
    rw [entries, List.append_nil]
    exact ⟨pending, _, handle?_set_self handles inside, rfl, rfl, .inr ⟨rfl, rfl⟩⟩

theorem made_of_makes (housed : a.Housed) (timed : a.Timed firing) (lives : session ∈ a.names)
    (makes : a.Makes config session name event source args rule b id r (c, .ok h)) :
    a.Made firing session config.heapKey name id r h c := by
  have quiet := quiet_obtainRegistry (a := a) session config.heapKey
  have handles := handles_obtainRegistry a session config.heapKey
  rw [makes.obtained] at quiet handles
  have obtains := (housed.makes lives makes).1
  obtain ⟨rfl, handle, creates, rfl, rfl⟩ := makes.creates
  have timed := timed.quiet quiet
  obtain ⟨pending, starts⟩ := timed.starts creates
  rw [quiet.pending] at pending
  have same := handle?_of_handles handles
  refine ⟨obtains, timed.creates creates, creates.revocable.trans quiet.revocable, ?_,
    fun h other => (creates.others other).trans (same h), pending, starts⟩
  rw [← same]
  exact List.getElem?_eq_none le_rfl

/-! Making way. -/

/-- The name is made free for a new handle, by cancelling the one that has it. -/
structure MakesWay (a : Agenda α) (old : Option HandleId) (h : HandleId) (b : Agenda α) :
    Prop where
  pending : b.pending = a.pending.filter fun e => !(a.revocable && decide (old = some e.handle))
  others : ∀ h' ≠ h, old ≠ some h' → b.handle? h' = a.handle? h'
  own : (b.handle? h).map Handle.unregistered = (a.handle? h).map Handle.unregistered
  ended : ∀ h', old = some h' → b.Ended h'

theorem MakesWay.none (pending : b.pending = a.pending) (handles : b.handles = a.handles) :
    a.MakesWay none h b := by
  have same := handle?_of_handles handles
  refine ⟨?_, fun h' _ _ => same h', congrArg _ (same h), fun h' named => ?_⟩
  · rw [pending]
    exact (List.filter_eq_self.mpr fun e _ => by simp).symm
  · cases named

theorem makesWay_cancel (timed : a.Timed firing) {old : HandleId} (there : a.handle? old ≠ none)
    (other : old ≠ h) : a.MakesWay (some old) h (a.cancel old).1 := by
  refine ⟨?_, fun h' _ different => handle?_cancel_ne ?_,
    congrArg _ (handle?_cancel_ne other.symm), fun h' same => ?_⟩
  · rw [timed.pending_cancel]
    simp [eq_comm]
  · rintro rfl
    exact different rfl
  · cases same
    obtain ⟨handle, found⟩ := Option.ne_none_iff_exists'.mp there
    exact ended_cancel found

/-- The new handle may then learn of its registry, and something be noted. -/
theorem MakesWay.quiet {old : Option HandleId} (way : a.MakesWay old h b) (quiet : b.Quiet c)
    (others : ∀ h' ≠ h, c.handle? h' = b.handle? h') : a.MakesWay old h c := by
  refine ⟨quiet.pending.trans way.pending, fun h' other different => ?_,
    (quiet.handle? h).trans way.own, fun h' same => ?_⟩
  · rw [others h' other, way.others h' other different]
  · exact (way.ended h' same).persists (.quiet quiet)

theorem handle?_file_ne (a : Agenda α) (id : RegistryId) (other : h' ≠ h) :
    (a.file id h).handle? h' = a.handle? h' := by
  unfold file
  split
  · exact handle?_set_ne rfl other
  · rfl

theorem makesWay_putInRegistry (timed : a.Timed firing) (registry : a.registry? id = some r)
    (new : r.get? name ≠ some h) (known : ∀ old, r.get? name = some old → a.handle? old ≠ none) :
    a.MakesWay (r.get? name) h (a.putInRegistry id name h).1 ∧
      (a.putInRegistry id name h).1.holdings = (a.setRegistry id (r.put name h)).holdings := by
  obtain ⟨b, vacates, put⟩ := putInRegistry_spec registry name h
  have freed : a.MakesWay (r.get? name) h b ∧ b.holdings = a.holdings := by
    cases vacates with
    | free named =>
      rw [named]
      exact ⟨.none rfl rfl, rfl⟩
    | own named => exact absurd named new
    | @replaced old named other =>
      rw [named]
      exact ⟨(makesWay_cancel timed (known old named) other).quiet (quiet_log _ _) fun _ _ => rfl,
        holdings_cancel a old⟩
  obtain ⟨way, holdings⟩ := freed
  rw [put]
  refine ⟨way.quiet ((quiet_setRegistry _ _).trans (quiet_file id h)) fun h' other => ?_, ?_⟩
  · exact handle?_file_ne _ id other
  · rw [holdings_file, holdings_setRegistry holdings]

/-! What comes of it. -/

theorem Made.known (made : a.Made firing session config.heapKey name id r h c) (housed : a.Housed)
    (got : ∀ name, r.get? name = a.get? config session name) {old : HandleId}
    (named : r.get? name = some old) : old ≠ h ∧ c.handle? old ≠ none := by
  rw [got] at named
  have there := housed.exists_of_get? named
  have other : old ≠ h := by
    rintro rfl
    exact there made.new
  rw [made.others old other]
  exact ⟨other, there⟩

/-- The one that has the name is another handle, so no entry of the new one is taken back. -/
theorem Made.keeps (made : a.Made firing session config.heapKey name id r h c) (housed : a.Housed)
    (got : ∀ name, r.get? name = a.get? config session name) {e : Entry} (member : e ∈ c.entriesOf h) :
    (!(c.revocable && decide (r.get? name = some e.handle))) = true := by
  obtain ⟨-, rfl⟩ := mem_entriesOf.mp member
  rw [decide_eq_false fun named => (made.known housed got named).1 rfl, Bool.and_false,
    Bool.not_false]

theorem Made.get?_eq (made : a.Made firing session config.heapKey name id r h c)
    (holdings : d.holdings = (c.setRegistry id r').holdings) (config' : Config)
    (session' name' : String) : d.get? config' session' name' =
      if session' = session ∧ config'.heapKey = config.heapKey then r'.get? name'
      else a.get? config' session' name' := by
  obtain ⟨housed, shelf, registry, get?_eq⟩ := made.obtains
  rw [Housed.get?_of_holdings holdings, housed.get?_setRegistry shelf registry, get?_eq]

theorem Made.waits (made : a.Made firing session config.heapKey name id r h c)
    {old : Option HandleId} (way : c.MakesWay old h d) (found : c.handle? h = some handle)
    (entries : d.entriesOf h = c.entriesOf h) :
    ∃ handle', d.handle? h = some handle' ∧ handle'.name = name ∧ handle'.session = session ∧
      handle'.state = handle.state ∧
      (handle.state = .armed ∧ (∃ e, d.entriesOf h = [e] ∧ handle'.nextFire = some e.due ∧
          handle'.timer = some e.id) ∨
        handle.state = .exhausted ∧ d.entriesOf h = []) := by
  obtain ⟨handle', found', same⟩ := Option.map_eq_some_iff.mp
    (way.own.trans (congrArg (Option.map Handle.unregistered) found))
  obtain ⟨started, found'', named, whose, starts⟩ := made.starts
  cases found.symm.trans found''
  have next : handle'.nextFire = handle.nextFire := (congrArg Handle.nextFire same :)
  have timer : handle'.timer = handle.timer := (congrArg Handle.timer same :)
  refine ⟨handle', found', (congrArg Handle.name same :).trans named,
    (congrArg Handle.session same :).trans whose, (congrArg Handle.state same :), ?_⟩
  rw [entries, next, timer]
  exact starts

/-- Once the name has been made free for the new handle, and its registry holds the handle if that is
armed, the schedule is added. -/
theorem Made.installs (made : a.Made firing session config.heapKey name id r h c)
    (housed : a.Housed) (got : ∀ name, r.get? name = a.get? config session name)
    (way : c.MakesWay (r.get? name) h d)
    (holdings : d.holdings = (c.setRegistry id r').holdings) (found : c.handle? h = some handle)
    (stored : handle.state = .armed ∧ r' = r.put name h ∨
      handle.state = .exhausted ∧ r' = r.erase name) : a.Installs config session name d h := by
  have entries : d.entriesOf h = c.entriesOf h :=
    entriesOf_filter_eq way.pending fun _ => made.keeps housed got
  refine ⟨made.new, ?_, fun old named => ?_, fun h' different apart => ?_, ?_,
    fun config' session' name' elsewhere => ?_⟩
  · obtain ⟨handle', found', named, whose, state, starts⟩ := made.waits way found entries
    refine ⟨handle', found', named, whose, ?_⟩
    rw [state, made.get?_eq holdings, if_pos ⟨rfl, rfl⟩]
    rcases stored with ⟨armed, rfl⟩ | ⟨ended, rfl⟩
    · rw [armed] at starts ⊢
      rw [Named.get?_put, if_pos rfl]
      rcases starts with ⟨-, waits⟩ | ⟨ended, -⟩
      · exact .inl ⟨rfl, rfl, waits⟩
      · cases ended
    · rw [ended] at starts ⊢
      rw [Named.get?_erase, if_pos rfl]
      rcases starts with ⟨armed, -⟩ | ⟨-, nothing⟩
      · cases armed
      · exact .inr ⟨rfl, rfl, nothing⟩
  · rw [← got] at named
    refine ⟨way.ended old named, fun revokes => ?_⟩
    rw [entriesOf_filter way.pending, made.revocable, revokes, named, List.filter_eq_nil_iff]
    intro e member
    obtain ⟨-, rfl⟩ := mem_entriesOf.mp member
    simp
  · rw [← got] at apart
    rw [way.others h' different apart, made.others h' different]
  · rw [way.pending, made.pending, List.filter_append,
      List.filter_eq_self.mpr fun _ => made.keeps housed got, entries, made.revocable, got]
  · rw [made.get?_eq holdings]
    split
    · rename_i here
      have differs : name' ≠ name := fun same => elsewhere ⟨here.1, here.2, same⟩
      have before : r.get? name' = a.get? config' session' name' := by
        rw [got]
        simp only [get?, here.1, here.2]
      rcases stored with ⟨-, rfl⟩ | ⟨-, rfl⟩
      · rw [Named.get?_put, if_neg differs, before]
      · rw [Named.get?_erase, if_neg differs, before]
    · rfl

theorem Made.exhausted (made : a.Made firing session config.heapKey name id r h c)
    (past : (c.handle? h).any Handle.isArmed = false) :
    ∃ handle, c.handle? h = some handle ∧ handle.state = .exhausted := by
  obtain ⟨handle, found, -, -, ⟨armed, -⟩ | ⟨ended, -⟩⟩ := made.starts
  · rw [found, Option.any_some, Handle.isArmed_iff.mpr armed] at past
    cases past
  · exact ⟨handle, found, ended⟩

theorem installs_of_ok (housed : a.Housed) (timed : a.Timed firing) (lives : session ∈ a.names)
    (added : (a.addSchedule config session name event source args).2 = .ok h) :
    a.Installs config session name (a.addSchedule config session name event source args).1 h := by
  have spec := a.addSchedule_spec config session name event source args
  generalize a.addSchedule config session name event source args = result at added spec ⊢
  cases spec with
  | invalid | duplicate | fails => cases added
  | @stores rule b c id r h makes armed =>
    cases added
    have made := made_of_makes housed timed lives makes
    have got : ∀ name, r.get? name = a.get? config session name := get?_obtained makes.obtained
    obtain ⟨way, holdings⟩ := makesWay_putInRegistry made.timed made.obtains.registry
      (fun named => (made.known housed got named).1 rfl) fun old named =>
        (made.known housed got named).2
    obtain ⟨handle, found, -⟩ := made.starts
    rw [found, Option.any_some, Handle.isArmed_iff] at armed
    exact made.installs housed got
      (way.quiet (quiet_noteAdded _ _ _) fun _ _ => handle?_noteAdded _ _ _ _ _)
      ((holdings_noteAdded _ _ _ _).trans holdings) found (.inl ⟨armed, rfl⟩)
  | @drops rule b c d id r h makes past popped =>
    cases added
    have made := made_of_makes housed timed lives makes
    have got : ∀ name, r.get? name = a.get? config session name := get?_obtained makes.obtained
    obtain ⟨rfl, named⟩ := popped_eq popped made.obtains.registry
    obtain ⟨handle, found, ended⟩ := made.exhausted past
    refine made.installs housed got ?_ rfl found (.inr ⟨ended, rfl⟩)
    rw [named]
    exact .none rfl rfl
  | @ends rule b c d id r h old makes past popped =>
    cases added
    have made := made_of_makes housed timed lives makes
    have got : ∀ name, r.get? name = a.get? config session name := get?_obtained makes.obtained
    obtain ⟨rfl, named⟩ := popped_eq popped made.obtains.registry
    obtain ⟨handle, found, ended⟩ := made.exhausted past
    obtain ⟨other, there⟩ := made.known housed got named
    have erased := (quiet_log (a := c) .info ("Schedule " ++ Text.quoted name ++
      " has no future occurrence; not registered")).trans (quiet_setRegistry id (r.erase name))
    have cancelled := makesWay_cancel (made.timed.quiet erased) there other
    have way : c.MakesWay (some old) h _ :=
      ⟨cancelled.pending, cancelled.others, cancelled.own, cancelled.ended⟩
    refine made.installs housed got ?_ (holdings_cancel _ old) found (.inr ⟨ended, rfl⟩)
    rw [named]
    exact way.quiet (quiet_log _ _) fun _ _ => rfl

/-! All or nothing. -/

/-- What adding comes to where the first occurrence can be asked for: a refusal, which leaves everything
as it was, or a handle. -/
theorem refusals (answers : a.Answers source) (config : Config) (session name event : String)
    (args : List α) :
    (∀ e, source.rule a.now = .error e →
      (a.addSchedule config session name event source args).2 = .error e.fault) ∧
    ((a.addSchedule config session name event source args).2 = .error (.duplicate name) ↔
      (∃ rule, source.rule a.now = .ok rule) ∧ config.replaceExisting = false ∧
        a.get? config session name ≠ none) ∧
    ∀ fault, (a.addSchedule config session name event source args).2 = .error fault →
      (a.addSchedule config session name event source args).1 = a ∧
        ((∃ e, source.rule a.now = .error e ∧ fault = e.fault) ∨ fault = .duplicate name) := by
  have spec := a.addSchedule_spec config session name event source args
  generalize a.addSchedule config session name event source args = result at spec ⊢
  cases spec with
  | @invalid e unread =>
    have unread : source.rule a.now = .error e := unread
    rw [unread]
    refine ⟨fun e' same => ?_, by simp, fun fault same => ?_⟩
    · cases same
      rfl
    · cases same
      exact ⟨rfl, .inl ⟨e, rfl, rfl⟩⟩
  | @duplicate rule b id r read obtained taken strict =>
    have read : source.rule a.now = .ok rule := read
    have same := obtained_of_taken obtained taken
    rw [taken_iff obtained] at taken
    rw [read]
    refine ⟨fun e' same => (by cases same), by simp [strict, taken], fun fault told => ?_⟩
    cases told
    exact ⟨same, .inr rfl⟩
  | fails makes => exact absurd makes (not_makes_error answers)
  | stores makes | drops makes | ends makes =>
    have read : source.rule a.now = _ := makes.read
    have free := makes.free
    rw [taken_iff makes.obtained] at free
    rw [read]
    refine ⟨fun e' same => (by cases same), ?_, fun fault told => (by cases told)⟩
    simp only [reduceCtorEq, Except.ok.injEq, exists_eq', ne_eq, true_and, false_iff, not_and,
      Decidable.not_not]
    intro strict
    by_contra taken
    rw [free taken] at strict
    cases strict

/-- What a refused specification is told of: its error, or that the error cannot be told. -/
theorem refused_iff (answers : a.Answers source) (config : Config) (session name event : String)
    (args : List α) {fault : Fault} (other : fault ≠ .duplicate name) :
    (a.addSchedule config session name event source args).2 = .error fault ↔
      ∃ e, source.rule a.now = .error e ∧ e.fault = fault := by
  obtain ⟨refused, -, causes⟩ := refusals answers config session name event args
  constructor
  · intro told
    obtain ⟨-, ⟨e, unread, rfl⟩ | rfl⟩ := causes fault told
    · exact ⟨e, unread, rfl⟩
    · exact absurd rfl other
  · rintro ⟨e, unread, rfl⟩
    exact refused e unread

end Agenda

theorem RuleSource.exists_spec {source : RuleSource} {now : Stamp} {e : SpecError}
    (compiled : ∀ s earlier, source = .compiled s earlier → ∃ rule, s.rule earlier = .ok rule)
    (unread : source.rule now = .error e) : ∃ s, source = .spec s ∧ s.rule now = .error e := by
  cases source with
  | spec s => exact ⟨s, rfl, unread⟩
  | compiled s earlier =>
    obtain ⟨rule, read⟩ := compiled s earlier rfl
    cases read.symm.trans unread

namespace Run

open Agenda

variable {r : Run α} {deeds : List (Deed α)}

/-- Adding a schedule is all or nothing. In every run, where the first occurrence of the rule can be
asked for, it is refused exactly where the specification is, and is told of a duplicate exactly where
the name is taken and may not be replaced; both leave everything as it was. A refused specification
is told with its error wherever the complaint can be written, so for every rule text; a mapping whose
complaint has a number of more digits than are written is told of that instead. Otherwise there is a
new handle, which is stored under the name if it is armed, while nothing is stored there if it is
exhausted from the start; the one that had the name has ended and nothing is outstanding for it, and
every other handle, timer entry and stored schedule is as it was. -/
theorem adding_all_or_nothing (history : History deeds r) {session : String}
    (lives : session ∈ r.agenda.names) (config : Config) (name event : String)
    {source : RuleSource} (args : List α)
    (compiled : ∀ s earlier, source = .compiled s earlier → ∃ rule, s.rule earlier = .ok rule)
    (answers : r.agenda.Answers source) :
    let added := r.agenda.addSchedule config session name event source args
    (∀ e, added.2 = .error (.invalid e) ↔
      ∃ s, source = .spec s ∧ s.rule r.agenda.now = .error e ∧ e.hasText = true) ∧
    (added.2 = .error .tooManyDigits ↔
      ∃ s e, source = .spec s ∧ s.rule r.agenda.now = .error e ∧ e.hasText = false) ∧
    (∀ text, source = .spec (.text text) → added.2 ≠ .error .tooManyDigits) ∧
    (added.2 = .error (.duplicate name) ↔ (∃ rule, source.rule r.agenda.now = .ok rule) ∧
      config.replaceExisting = false ∧ r.agenda.get? config session name ≠ none) ∧
    (∀ fault, added.2 = .error fault → added.1 = r.agenda ∧
      ((∃ e, fault = .invalid e) ∨ fault = .tooManyDigits ∨ fault = .duplicate name)) ∧
    ∀ h, added.2 = .ok h → r.agenda.Installs config session name added.1 h := by
  dsimp only
  obtain ⟨-, duplicate, causes⟩ := refusals answers config session name event args
  have refused {fault : Fault} (other : fault ≠ .duplicate name) :=
    refused_iff answers config session name event args other
  refine ⟨fun e => ?_, ?_, ?_, duplicate, fun fault told => ?_, fun h added =>
    installs_of_ok history.housed history.timed lives added⟩
  · rw [refused (by simp)]
    constructor
    · rintro ⟨e', unread, told⟩
      obtain ⟨rfl, written⟩ := SpecError.fault_eq_invalid_iff.mp told
      obtain ⟨s, rfl, unread⟩ := RuleSource.exists_spec compiled unread
      exact ⟨s, rfl, unread, written⟩
    · rintro ⟨s, rfl, unread, written⟩
      exact ⟨e, unread, SpecError.fault_eq_invalid_iff.mpr ⟨rfl, written⟩⟩
  · rw [refused (by simp)]
    constructor
    · rintro ⟨e, unread, told⟩
      obtain ⟨s, rfl, unread⟩ := RuleSource.exists_spec compiled unread
      exact ⟨s, e, rfl, unread, SpecError.fault_eq_tooManyDigits_iff.mp told⟩
    · rintro ⟨s, e, rfl, unread, unwritten⟩
      exact ⟨e, unread, SpecError.fault_eq_tooManyDigits_iff.mpr unwritten⟩
  · rintro text rfl told
    obtain ⟨e, unread, untold⟩ := (refused (by simp)).mp told
    rw [SpecError.fault_eq_tooManyDigits_iff, Spec.hasText_of_text unread] at untold
    cases untold
  · obtain ⟨unchanged, ⟨e, -, rfl⟩ | rfl⟩ := causes fault told
    · refine ⟨unchanged, ?_⟩
      unfold SpecError.fault
      split
      · exact .inl ⟨e, rfl⟩
      · exact .inr (.inl rfl)
    · exact ⟨unchanged, .inr (.inr rfl)⟩

end Run

namespace twoHours

/-- A specification with a month that has more digits than are written. -/
def beyondDigits : Spec := .map [("freq", .text "daily"), ("bymonth", .int (10 ^ 5000))]

/-- Whatever the time, it is refused, and that cannot be told. -/
theorem beyondDigits_rule (now : Stamp) :
    ∃ e, beyondDigits.rule now = .error e ∧ e.hasText = false := by
  generalize large : (10 : Int) ^ 5000 = n
  have params : beyondDigits.params = .ok [(.freq, .text "daily"), (.month, .int n)] := by
    rw [beyondDigits, large]
    rfl
  have beyond : Part.month.range.holds n = false := by
    rw [← large]
    decide +kernel
  have month : (Value.int n).number .month = .error (.notInRange .month n) := by
    simp [Value.number, Value.integer, beyond, bind, Except.bind]
  have months : (Value.int n).numbers .month = .error (.notInRange .month n) := by
    change ([Value.int n].mapM _ >>= _) = _
    rw [List.mapM_cons, month]
    rfl
  have naturals : Params.naturals [(.freq, .text "daily"), (.month, .int n)] .month =
      .error (.notInRange .month n) := by
    change (((Value.int n).numbers .month).map some >>= fun ns => .ok (ns.getD [])) >>= _ = _
    rw [months]
    rfl
  refine ⟨.notInRange .month n, ?_, ?_⟩
  · rw [Spec.rule, params]
    change Params.naturals [(.freq, .text "daily"), (.month, .int n)] .month >>= (fun _ => _) = _
    rw [naturals]
    rfl
  · have power (l k : Nat) (more : l ≤ k) : 10 ^ l ≤ ((10 : Int) ^ k).natAbs := by
      rw [Int.natAbs_pow]
      exact Nat.pow_le_pow_right (Nat.succ_pos 9) more
    have long : 10 ^ Text.digitLimit ≤ n.natAbs := large ▸ power _ 5000 (by decide)
    rw [SpecError.hasText, Bool.eq_false_iff, Ne, Text.isWritable_iff]
    exact not_lt.mpr long

/-- Adding the schedule once more under its name ends the first one, and takes back its entry; what
cannot be told of a specification changes nothing. -/
theorem replaced_stored : (∃ h,
    (stored.addSchedule {} "inbox" "hour" "hour" (.spec spec) []).2 = .ok h ∧ h ≠ 0 ∧
      (stored.addSchedule {} "inbox" "hour" "hour" (.spec spec) []).1.Ended 0 ∧
      (stored.addSchedule {} "inbox" "hour" "hour" (.spec spec) []).1.entriesOf 0 = []) ∧
    stored.addSchedule {} "inbox" "hour" "hour" (.spec beyondDigits) [] =
      (stored, .error .tooManyDigits) := by
  have lives : "inbox" ∈ stored.names := List.mem_cons_self
  constructor
  · have read : (RuleSource.spec spec).rule stored.now = .ok twoHours := rfl
    have answers : stored.Answers (.spec spec) := by
      intro rule same
      cases read.symm.trans same
      have first : (Sequence.ofRule twoHours (some stored.now)).seek (fun _ => false) 0 = _ :=
        seek_first rfl
      rw [Sequence.next, first]
      intro beyond
      cases beyond
    have held : stored.get? {} "inbox" "hour" = some 0 := rfl
    obtain ⟨invalid, digits, short, duplicate, causes, installs⟩ := Run.adding_all_or_nothing
      history_stored lives {} "hour" "hour" [] (fun _ _ same => by cases same) answers
    cases outcome : (stored.addSchedule {} "inbox" "hour" "hour" (.spec spec) []).2 with
    | error fault =>
      obtain ⟨-, ⟨e, rfl⟩ | rfl | rfl⟩ := causes fault outcome
      · obtain ⟨s, same, unread, -⟩ := (invalid e).mp outcome
        cases same
        cases read.symm.trans unread
      · obtain ⟨s, e, same, unread, -⟩ := digits.mp outcome
        cases same
        cases read.symm.trans unread
      · obtain ⟨-, strict, -⟩ := duplicate.mp outcome
        cases strict
    | ok h =>
      have installs := installs h outcome
      obtain ⟨ended, revoked⟩ := installs.replaced 0 held
      refine ⟨h, rfl, ?_, ended, revoked rfl⟩
      rintro rfl
      cases installs.new
  · obtain ⟨e, unread, untold⟩ := beyondDigits_rule stored.now
    have answers : stored.Answers (.spec beyondDigits) := by
      intro rule same
      cases unread.symm.trans same
    obtain ⟨-, digits, -, -, causes, -⟩ := Run.adding_all_or_nothing history_stored lives {} "hour"
      "hour" [] (fun _ _ same => by cases same) answers
    have told := digits.mpr ⟨beyondDigits, e, rfl, unread, untold⟩
    exact Prod.ext (causes _ told).1 told

end twoHours

end Almanac
