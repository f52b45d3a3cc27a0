import ShellQuery.Program
/-!
# The command line

Gathers the surroundings of a run, hands them to `Program.outcome`, and prints what comes back:
reports on standard output, a failure on standard error.
-/

namespace ShellQuery.CommandLine

/-- What stands at a path on disk. -/
def entryAt (path : String) : IO Settings.Entry := do
  try
    return .file (← IO.FS.readBinFile path)
  catch
    | .noFileOrDirectory .. => return .absent
    | .inappropriateType _ code _ => return if code = 21 then .directory else .absent
    | e => throw e

/-- All bytes of a stream. -/
partial def readAll (stream : IO.FS.Stream) (done : ByteArray) : IO ByteArray := do
  let more ← stream.read 65536
  if more.isEmpty then return done else readAll stream (done ++ more)

/-- What the run finds around it. Only the variables that override settings are looked up. -/
def surroundings (options : Option Options) : IO Surroundings := do
  let given ← Settings.overrides.mapM fun o => do
    return (o.variableName, ← IO.getEnv o.variableName)
  let home := (← IO.getEnv "HOME").getD "."
  let defaultPath := home ++ "/.mongoq/config.toml"
  let asked ←
    match options.bind Options.configFile with
    | some path => entryAt path
    | none => pure .absent
  return {
    environment := fun name => (given.find? (·.1 = name)).bind (·.2)
    entry := fun _ => asked
    defaultPath := defaultPath
    defaultEntry := ← entryAt defaultPath }

/-- The bytes of standard input, if the run reads any. -/
def inputOf (options : Option Options) : IO (List UInt8) := do
  match options with
  | some o =>
    if o.lines.isEmpty then return (← readAll (← IO.getStdin) .empty).toList else return []
  | none => return []

end ShellQuery.CommandLine

open ShellQuery in
def main (arguments : List String) : IO UInt32 := do
  let options := (CommandLine.read arguments).toOption
  let around ← CommandLine.surroundings options
  let outcome := Program.outcome around arguments (← CommandLine.inputOf options)
  IO.print outcome.output
  match outcome.failure with
  | some message => IO.eprintln message
  | none => pure ()
  return outcome.exitCode.toUInt32
