import ShellQuery.Session
import ShellQuery.Settings.Load
/-!
# The program

A run understands lines as queries and reports the verdict of a session on each of them, one report
after the other. The session goes on from line to line, so an accepted `use` counts for the lines
behind it. Lines come from the arguments, or from standard input if there are none; blank lines of
standard input are skipped, and the run ends at the first line that is not text.
-/

namespace ShellQuery

/-- The session a run starts with. -/
def Session.ofSettings (s : Settings) : Session := ⟨s.database, s.readOnly⟩

namespace Program

/-- The verdict on a line, and the session after it. -/
def answer (session : Session) (line : String) : Verdict × Session :=
  session.check (Query.ofLine line)

/-- A verdict as it is printed. -/
def record (format : OutputFormat) (v : Verdict) : String :=
  format.render v.toJson ++ "\n"

/-- The records of lines, one after the other. -/
def recordsFrom (format : OutputFormat) (session : Session) : List String → List String
  | [] => []
  | line :: more =>
    let (v, next) := answer session line
    record format v :: recordsFrom format next more

/-- Whether a line holds nothing but blanks. -/
def isBlankLine (line : String) : Bool :=
  (Text.trim line.toList).isEmpty

/-- A line without the carriage return at its end. -/
def withoutReturn (bytes : List UInt8) : List UInt8 :=
  if bytes.getLast? = some 13 then bytes.dropLast else bytes

/-- Cuts bytes into lines, each ended by a line feed, perhaps behind a carriage return. Bytes behind
the last line feed are a line too. -/
def splitLines (bytes : List UInt8) : List (List UInt8) :=
  let pieces := bytes.splitOn 10
  let last := pieces.getLast?.getD []
  pieces.dropLast.map withoutReturn ++ if last.isEmpty then [] else [last]

/-- The lines before the first one that is not text, and whether there is such a one. -/
def textLines : List (List UInt8) → List String × Option ReadFault
  | [] => ([], none)
  | bytes :: more =>
    match String.fromUTF8? (ByteArray.mk bytes.toArray) with
    | none => ([], some .notUtf8)
    | some line =>
      let (lines, fault) := textLines more
      (line :: lines, fault)

/-- What a run prints, and the fault that ended it. -/
structure Transcript where
  output : String
  fault : Option ReadFault
  deriving DecidableEq, Repr

/-- The run over the bytes of standard input. -/
def runInput (s : Settings) (input : List UInt8) : Transcript :=
  let (lines, fault) := textLines (splitLines input)
  let records := recordsFrom s.format (.ofSettings s) (lines.filter (!isBlankLine ·))
  ⟨String.join records, fault⟩

/-- The run over lines from the arguments. -/
def runLines (s : Settings) (lines : List String) : Transcript :=
  ⟨String.join (recordsFrom s.format (.ofSettings s) lines), none⟩

/-- The run that the arguments ask for. -/
def run (s : Settings) (lines : List String) (input : List UInt8) : Transcript :=
  if lines.isEmpty then runInput s input else runLines s lines

/-! ## The whole program -/

/-- What the program prints when it is asked for its version. -/
def versionText : String := "mongoq 0.1.0\n"

/-- How the program ends: its exit code, what it printed, and the message of its failure. -/
structure Outcome where
  exitCode : Nat
  output : String
  failure : Option String
  deriving DecidableEq, Repr

/-- The message of a failure as it is printed. -/
def failureText (message : String) : String :=
  "Error: " ++ message

/-- How the program ends if its arguments do not lead to a run. The texts for help and for faults in
the arguments are those of the library that reads arguments, and are left out. -/
def ofStop : CommandLine.Stop → Outcome
  | .displayHelp => ⟨0, "", none⟩
  | .displayVersion => ⟨0, versionText, none⟩
  | _ => ⟨2, "", none⟩

/-- The program from its arguments to its end. -/
def outcome (around : Surroundings) (arguments : List String) (input : List UInt8) : Outcome :=
  match CommandLine.read arguments with
  | .error stop => ofStop stop
  | .ok options =>
    match Settings.ofOptions around options with
    | .error f => ⟨1, "", some (failureText f.message)⟩
    | .ok settings =>
      let transcript := run settings options.lines input
      match transcript.fault with
      | some f => ⟨1, transcript.output, some (failureText f.message)⟩
      | none => ⟨0, transcript.output, none⟩

end Program

end ShellQuery
