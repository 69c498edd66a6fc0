import Almanac.Text.Lowercase

set_option autoImplicit false

/-!
Log records, and how much of them is shown.
-/

namespace Almanac

inductive LogLevel where
  | debug | info | warning | error
  deriving DecidableEq

namespace LogLevel

def all : List LogLevel := [debug, info, warning, error]

def name : LogLevel → String
  | debug => "DEBUG"
  | info => "INFO"
  | warning => "WARNING"
  | error => "ERROR"

/-- Upper case of the letters that the names of levels are written in: of the letters outside
ASCII, the dotless i alone has one of them as its capital. -/
def capital (c : Char) : Char := if c = 'ı' then 'I' else c.toUpper

def ofText? (s : String) : Option LogLevel :=
  let key := String.ofList (s.toList.map capital)
  all.find? (fun l => l.name = key)

end LogLevel

structure LogRecord where
  level : LogLevel
  message : String
  deriving DecidableEq

/-- Named settings given from outside. -/
abbrev Environment := List (String × String)

def Environment.get (env : Environment) (name : String) : String := (env.lookup name).getD ""

/-- Where log records go: the least level shown, once set, and the formats of the outputs. -/
structure LogSetup where
  level : Option LogLevel
  outputs : List String
  deriving DecidableEq

namespace LogSetup

def initial : LogSetup := ⟨none, []⟩

def defaultFormat : String := "[%(asctime)s] %(levelname)s - %(name)s - %(message)s"

/-- Sets the level and adds an output where there is none. A level named in the environment wins
over the debug switches, of which a forced one wins over the others. -/
def configure (setup : LogSetup) (env : Environment) (debug : Bool) (force : Option Bool) :
    LogSetup :=
  let word := String.ofList (Text.lower (env.get "ICALSCHED_DEBUG").toList)
  let debug := force.getD (["1", "true", "yes"].contains word || debug)
  let level := (LogLevel.ofText? (env.get "ICALSCHED_LOG_LEVEL")).getD
    (if debug then .debug else .info)
  ⟨some level, if setup.outputs.isEmpty then [defaultFormat] else setup.outputs⟩

end LogSetup

end Almanac
