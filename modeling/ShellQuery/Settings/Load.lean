import ShellQuery.CommandLine
import ShellQuery.Settings.File
/-!
# Where settings come from

A setting has its value from the arguments of the program, else from the environment, else from a
settings file, else by default. The settings are validated before the arguments are looked at and
once more after that, so a bad name in the file is a fault even if the arguments name a better one.
-/

namespace ShellQuery

/-- What a run finds around it: the environment, what stands at a path, and what stands at the path
of the default settings file. -/
structure Surroundings where
  environment : String → Option String
  entry : String → Settings.Entry
  defaultPath : String
  defaultEntry : Settings.Entry

namespace Settings

/-- A source of settings that overrides others: where it is found in the environment, and what it
changes. -/
structure Override where
  variableName : String
  set : String → Settings → Except Fault Settings

/-- The variables of the environment that override settings, in the order in which they do. -/
def overrides : List Override := [
  ⟨"MONGOQ_FORMAT", fun value s => (readFormat value).map ({ s with format := · })⟩,
  ⟨"MONGOQ_DATABASE", fun value s => .ok { s with database := value }⟩,
  ⟨"MONGOQ_READ_ONLY", fun value s =>
    (readBool "MONGOQ_READ_ONLY" value).map ({ s with readOnly := · })⟩,
  ⟨"MONGOQ_LOG_LEVEL", fun value s => (readLevel value).map ({ s with level := · })⟩]

/-- The settings after some overrides, and the fault that kept the rest of them from being looked
at. -/
def applyOverrides (environment : String → Option String) :
    List Override → Settings → Settings × Option Fault
  | [], s => (s, none)
  | o :: more, s =>
    match environment o.variableName with
    | none => applyOverrides environment more s
    | some value =>
      match o.set value s with
      | .ok s => applyOverrides environment more s
      | .error f => (s, some f)

/-- The settings after all overrides of an environment. -/
def withEnvironment (environment : String → Option String) (s : Settings) :
    Settings × Option Fault :=
  applyOverrides environment overrides s

/-- The settings in the file that is asked for, or in the default file if there is one. -/
def fromFiles (around : Surroundings) (path : Option String) : Except Fault Settings :=
  match path with
  | some path => ofEntry path (around.entry path)
  | none =>
    match around.defaultEntry with
    | .absent => .ok default
    | entry => ofEntry around.defaultPath entry

/-- The settings without regard to the arguments, apart from the file that they ask for. -/
def load (around : Surroundings) (path : Option String) : Except Fault Settings := do
  let s ← fromFiles around path
  match s.withEnvironment around.environment with
  | (_, some f) => throw f
  | (s, none) => do
    s.validate
    return s

/-- The level that the arguments ask for; of several the one that logs most. -/
def levelOf (o : CommandLine.Options) (fallback : LogLevel) : LogLevel :=
  if o.veryVerbose then .trace
  else if o.verbose then .debug
  else if o.quiet then .error
  else fallback

/-- The settings with what the arguments ask for. -/
def withOptions (o : CommandLine.Options) (s : Settings) : Except Fault Settings := do
  let format ←
    match o.format with
    | some word => readFormat word
    | none => pure s.format
  return { s with
    format := format
    database := o.database.getD s.database
    readOnly := o.readOnly || s.readOnly
    level := levelOf o s.level }

/-- The settings of a run. -/
def ofOptions (around : Surroundings) (o : CommandLine.Options) : Except Fault Settings := do
  let s ← load around o.configFile
  let s ← s.withOptions o
  s.validate
  return s

end Settings

end ShellQuery
