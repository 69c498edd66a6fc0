import Almanac.Rule.Frequency
import Almanac.Schedule.Log
import Almanac.Text.Quoted

set_option autoImplicit false

/-!
How a scheduler behaves, as given directly or by the environment.
-/

namespace Almanac

/-- The key under which sessions keep their schedules. -/
def defaultHeapKey : String := "__ICal__"

structure Config where
  /-- Adding a schedule under a name that is taken replaces the old one. -/
  replaceExisting : Bool := true
  /-- Occurrences that are past when a schedule is armed again are passed over. -/
  coalesce : Bool := true
  heapKey : String := defaultHeapKey
  deriving DecidableEq

namespace Config

def yesWords : List String := ["1", "true", "yes", "on"]

def noWords : List String := ["0", "false", "no", "off"]

/-- A switch of the environment. Words that mean neither yes nor no are logged and ignored. -/
def switch (env : Environment) (name : String) (default : Bool) : Bool × List LogRecord :=
  let word := Text.folded (env.get name)
  if yesWords.contains word then (true, [])
  else if noWords.contains word then (false, [])
  else if word.isEmpty then (default, [])
  else (default, [⟨.warning, "Ignoring " ++ name ++ "=" ++ Text.quoted word ++
    ": expected a boolean"⟩])

/-- The configuration that the environment gives, and what is logged about it. -/
def ofEnvironment (env : Environment) : Config × List LogRecord :=
  let (replaceExisting, replaceLog) := switch env "ICALSCHED_REPLACE_EXISTING" true
  let (coalesce, coalesceLog) := switch env "ICALSCHED_COALESCE" true
  let key := env.get "ICALSCHED_KEY_PREFIX"
  let heapKey := if key.isEmpty then defaultHeapKey else key
  ({ replaceExisting, coalesce, heapKey }, replaceLog ++ coalesceLog)

end Config

end Almanac
