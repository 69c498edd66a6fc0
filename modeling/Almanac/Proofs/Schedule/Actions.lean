import Almanac.Proofs.Schedule.Moves
import Almanac.Schedule.Run

set_option autoImplicit false

/-!
What carrying out an action comes to.

An action leaves the agenda as it is, also where it names a session, a scheduler or a handle that is
not there, or it comes to one operation, on a session, a handle or a registry that is. Whatever all
actions keep is shown for these, so that nothing else has to go through the actions.
-/

namespace Almanac

variable {α : Type}

namespace Run

variable {a : Agenda α} {below : List (Activity α)}

/-! What holds of a fault and of going on holds of the whole. -/

section Going

variable {P : Run α → Prop}

theorem withSession_of (unknown : ∀ f, P (fault a below f)) (session : String)
    {f : Session α → Run α} (each : ∀ s, a.session? session = some s → P (f s)) :
    P (withSession a below session f) := by
  unfold withSession
  split
  · rename_i s listed
    exact each s (Option.filter_eq_some_iff.mp listed).1
  · exact unknown _

theorem withScheduler_of (unknown : ∀ f, P (fault a below f)) (via session : String)
    {f : Config → Run α} (each : ∀ config, session ∈ a.names → P (f config)) :
    P (withScheduler a below via session f) := by
  refine withSession_of unknown session fun s found => ?_
  split
  · exact each _ (Agenda.mem_names_of_session? found)
  · exact unknown _

theorem withHandle_of (unknown : ∀ f, P (fault a below f)) (h : HandleId) {f : Handle α → Run α}
    (each : ∀ handle, a.handle? h = some handle → P (f handle)) :
    P (withHandle a below h f) := by
  unfold withHandle
  split
  · exact each _ ‹_›
  · exact unknown _

theorem withRegistry_of (unknown : ∀ f, P (fault a below f)) (session key : String)
    {f : Agenda α → RegistryId → Named HandleId → Run α}
    (each : ∀ b id r, session ∈ a.names → a.obtainRegistry session key = (b, id, r) → P (f b id r)) :
    P (withRegistry a below session key f) :=
  withSession_of unknown session fun _ found =>
    each _ _ _ (Agenda.mem_names_of_session? found) rfl

theorem judge_of (unknown : ∀ f, P (fault a below f)) (answered : ∀ r, P (reply a below r))
    (read : Except SpecError Rule) (f : Except SpecError Rule → Reply α) :
    P (judge a below read f) := by
  unfold judge
  split
  · exact answered _
  · split
    · exact answered _
    · exact unknown _

end Going

/-- What carrying out an action above the activities `below` comes to. -/
inductive Does (a : Agenda α) (below : List (Activity α)) : Action α → Run α → Prop where
  | answers {action : Action α} (outcome : Option (Outcome α)) :
      Does a below action ⟨a, below, outcome⟩
  | advances {micros : Int} (goal : Zoned) :
      Does a below (.advance micros) ⟨a, .advancing goal 0 :: below, none⟩
  | jumps {micros : Int} (clock : Zoned) :
      Does a below (.jump micros) (reply { a with clock } below .nothing)
  | dispatches (session event : String) (args : List α) :
      Does a below (.dispatch session event args) (dispatch a below session event args)
  | on {s : Session α} {session event : String} {script : Script α}
      (found : a.session? session = some s) : Does a below (.on session event script)
        (reply (a.setSession { s with handlers := putPair event ⟨script, 0⟩ s.handlers }) below
          .nothing)
  | drops {s : Session α} {session : String} (found : a.session? session = some s) :
      Does a below (.drop session) (reply (a.setSession { s with listed := false }) below .nothing)
  | setsHeap {s : Session α} {session : String} (key : String) (value : α)
      (found : a.session? session = some s) : Does a below (.setHeap session key value)
        (reply (a.setHeap session key (.plain value)) below .nothing)
  | adds {via session name event : String} {source : RuleSource} {args : List α}
      (lives : session ∈ a.names) (config : Config) :
      Does a below (.add via session name event source args)
        (result below (a.addSchedule config session name event source args))
  | creates {session name event : String} {source : RuleSource} {args : List α} {coalesce : Bool}
      {notBefore : Option Stamp} {h : HandleId} {handle : Handle α} {b : Agenda α}
      (creates : a.Creates handle b) :
      Does a below (.create session name event source args coalesce notBefore)
        (reply b below (.handle (some h)))
  | removes {via session name : String} (config : Config) : Does a below (.remove via session name)
      (reply (a.remove config session name).1 below (.truth (a.remove config session name).2))
  | removesAll {via session : String} (config : Config) : Does a below (.removeAll via session)
      (reply (a.removeAll config session).1 below (.count (a.removeAll config session).2))
  | cancels (h : HandleId) :
      Does a below (.cancel h) (reply (a.cancel h).1 below (.truth (a.cancel h).2))
  | findsRegistry {session key : String} {b : Agenda α} {id : RegistryId} {r : Named HandleId}
      {found : Bool} (lives : session ∈ a.names)
      (obtained : a.obtainRegistry session key = (b, id, r)) :
      Does a below (.findRegistry session key) (reply b below (.truth found))
  | putsInRegistry {session key : String} {b : Agenda α} {id : RegistryId} {r : Named HandleId}
      (name : String) {h : HandleId} (known : a.handle? h ≠ none) (lives : session ∈ a.names)
      (obtained : a.obtainRegistry session key = (b, id, r)) :
      Does a below (.putInRegistry session key name h)
        (reply (b.putInRegistry id name h).1 below (.handle (b.putInRegistry id name h).2))
  | discards {session key : String} {b : Agenda α} {id : RegistryId} {r : Named HandleId}
      (name : String) (h : HandleId) (lives : session ∈ a.names)
      (obtained : a.obtainRegistry session key = (b, id, r)) :
      Does a below (.discardFromRegistry session key name h)
        (reply (b.discard id name h).1 below (.truth (b.discard id name h).2))
  | getsFromRegistry {session key : String} {b : Agenda α} {id : RegistryId} {r : Named HandleId}
      (name : String) (lives : session ∈ a.names)
      (obtained : a.obtainRegistry session key = (b, id, r)) :
      Does a below (.getFromRegistry session key name) (reply b below (.handle (r.get? name)))
  | popsFromRegistry {session key : String} {b : Agenda α} {id : RegistryId} {r : Named HandleId}
      (name : String) (lives : session ∈ a.names)
      (obtained : a.obtainRegistry session key = (b, id, r)) :
      Does a below (.popFromRegistry session key name)
        (reply (b.popFromRegistry id name).1 below (.handle (b.popFromRegistry id name).2))
  | clearsRegistry {session key : String} {b : Agenda α} {id : RegistryId} {r : Named HandleId}
      (lives : session ∈ a.names) (obtained : a.obtainRegistry session key = (b, id, r)) :
      Does a below (.clearRegistry session key)
        (reply (b.clearRegistry id).1 below (.count (b.clearRegistry id).2))
  | viewsRegistry {session key : String} {b : Agenda α} {id : RegistryId} {r : Named HandleId}
      (asked : List String) (lives : session ∈ a.names)
      (obtained : a.obtainRegistry session key = (b, id, r)) :
      Does a below (.viewRegistry session key asked)
        (reply b below (.view ⟨r.names, asked.map r.contains⟩))

theorem perform_spec (a : Agenda α) (below : List (Activity α)) (action : Action α) :
    Does a below action (perform a below action) := by
  have unknown (f : Fault) : Does a below action (fault a below f) := .answers _
  cases action with
  | on session event script => exact withSession_of unknown session fun s found => .on found
  | add via session name event source args =>
    exact withScheduler_of unknown via session fun config lives => .adds lives config
  | create session name event source args coalesce notBefore =>
    refine withSession_of unknown session fun _ _ => ?_
    split
    · exact .answers _
    · rename_i rule _
      have spec := a.create_spec session name event rule args coalesce (notBefore.getD a.clock)
      generalize a.create session name event rule args coalesce (notBefore.getD a.clock) = made
        at spec ⊢
      obtain ⟨b, fault | h⟩ := made
      · obtain ⟨-, rfl⟩ := spec
        exact .answers _
      · obtain ⟨-, handle, creates, -⟩ := spec
        exact .creates creates
  | remove via session name =>
    exact withScheduler_of unknown via session fun config _ => .removes config
  | removeAll via session =>
    exact withScheduler_of unknown via session fun config _ => .removesAll config
  | get via session | schedules via session =>
    exact withScheduler_of unknown via session fun _ _ => .answers _
  | verify source =>
    rw [perform]
    split <;> exact .answers _
  | isValid source | tryVerify source =>
    rw [perform]
    exact judge_of unknown (fun _ => .answers _) _ _
  | fail => exact .answers _
  | advance micros =>
    rw [perform]
    split
    · exact .advances _
    · exact .answers _
  | jump micros =>
    rw [perform]
    split
    · exact .jumps _
    · exact .answers _
  | dispatch session event args =>
    exact withSession_of unknown session fun _ _ => .dispatches session event args
  | drop session => exact withSession_of unknown session fun _ found => .drops found
  | heap session | showSession session =>
    exact withSession_of unknown session fun _ _ => .answers _
  | setHeap session key value =>
    exact withSession_of unknown session fun _ found => .setsHeap key value found
  | describe h => exact withHandle_of unknown h fun _ _ => .answers _
  | cancel h => exact withHandle_of unknown h fun _ _ => .cancels h
  | findRegistry session key =>
    exact withRegistry_of unknown session key fun _ _ _ lives obtained =>
      .findsRegistry lives obtained
  | putInRegistry session key name h =>
    refine withHandle_of unknown h fun handle known => ?_
    refine withRegistry_of unknown session key fun _ _ _ lives obtained => ?_
    exact .putsInRegistry name (by simp [known]) lives obtained
  | discardFromRegistry session key name h =>
    exact withHandle_of unknown h fun _ _ => withRegistry_of unknown session key
      fun _ _ _ lives obtained => .discards name h lives obtained
  | getFromRegistry session key name =>
    exact withRegistry_of unknown session key fun _ _ _ lives obtained =>
      .getsFromRegistry name lives obtained
  | popFromRegistry session key name =>
    exact withRegistry_of unknown session key fun _ _ _ lives obtained =>
      .popsFromRegistry name lives obtained
  | clearRegistry session key =>
    exact withRegistry_of unknown session key fun _ _ _ lives obtained =>
      .clearsRegistry lives obtained
  | viewRegistry session key asked =>
    exact withRegistry_of unknown session key fun _ _ _ lives obtained =>
      .viewsRegistry asked lives obtained

end Run

end Almanac
