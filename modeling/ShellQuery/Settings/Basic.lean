import ShellQuery.DatabaseName
import ShellQuery.Json.Printer
import ShellQuery.Text
/-!
# Settings

What can be set for a run: how reports are written, the session it starts with, and the log. Formats
and levels have one name each, and `read?` of either also takes other spellings: blanks around the
name, letters of either case, and a second name for one of them.
-/

namespace ShellQuery

/-- How a report is written. -/
inductive OutputFormat
  | json
  | jsonPretty
  deriving DecidableEq, Repr

namespace OutputFormat

/-- All formats. -/
def all : List OutputFormat := [json, jsonPretty]

/-- The name of a format. -/
def name : OutputFormat → String
  | json => "json"
  | jsonPretty => "json-pretty"

/-- The format with a name. -/
def ofName? (s : String) : Option OutputFormat :=
  all.find? (·.name = s)

/-- Whether reports take more than one line. -/
def isPretty : OutputFormat → Bool
  | json => false
  | jsonPretty => true

/-- A report in a format. -/
def render (format : OutputFormat) (report : Json) : String :=
  if format.isPretty then report.pretty else report.compact

end OutputFormat

/-- What is logged: messages of this level and of those before it. -/
inductive LogLevel
  | error
  | warn
  | info
  | debug
  | trace
  deriving DecidableEq, Repr

namespace LogLevel

/-- All levels. -/
def all : List LogLevel := [error, warn, info, debug, trace]

/-- The name of a level. -/
def name : LogLevel → String
  | error => "error"
  | warn => "warn"
  | info => "info"
  | debug => "debug"
  | trace => "trace"

/-- The level with a name. -/
def ofName? (s : String) : Option LogLevel :=
  all.find? (·.name = s)

end LogLevel

/-- The settings of a run. -/
structure Settings where
  format : OutputFormat
  database : String
  readOnly : Bool
  level : LogLevel
  timestamps : Bool
  deriving DecidableEq, Repr

/-- Why something on disk cannot be read as text. -/
inductive ReadFault
  | directory
  | notUtf8
  deriving DecidableEq, Repr

namespace ReadFault

/-- The area of a fault, as the beginning of its message. -/
def heading : String := "I/O error: "

/-- What is wrong. -/
def detail : ReadFault → String
  | directory => "Is a directory (os error 21)"
  | notUtf8 => "stream did not contain valid UTF-8"

/-- The message for a fault. -/
def message (f : ReadFault) : String :=
  heading ++ f.detail

end ReadFault

namespace Settings

/-- Why settings cannot be had. -/
inductive Fault
  | missingFile (path : String)
  | malformed
  | badValue (field value : String)
  | unreadable (fault : ReadFault)
  deriving DecidableEq, Repr

namespace Fault

/-- The area of a fault, as the beginning of its message. -/
def heading : Fault → String
  | unreadable _ => ReadFault.heading
  | _ => "Configuration error: "

/-- What is wrong. Of a document that cannot be read, the path and the words of the TOML reader
belong here too; they are left out. -/
def detail : Fault → String
  | missingFile path => "Config file not found: " ++ path
  | malformed => "Invalid config format:"
  | badValue field value => "Invalid value '" ++ value ++ "' for field '" ++ field ++ "'"
  | unreadable fault => fault.detail

/-- The message for a fault. -/
def message (f : Fault) : String :=
  f.heading ++ f.detail

end Fault

/-- The settings where nothing is set. -/
def default : Settings := ⟨.json, "test", false, .warn, false⟩

/-- A word in the form that names are compared in: trimmed, and in lower case. Only ASCII letters
have to be folded, since no capital beyond ASCII has a lower case that is spelled with letters of
the names. -/
def folded (s : String) : String :=
  String.ofList ((Text.trim s.toList).map Char.toLower)

/-- The value that a word names, for a field. Besides its name one of the values has another
word. -/
def readNamed {α : Type} (field : String) (ofName? : String → Option α) (other : String)
    (value : α) (s : String) : Except Fault α :=
  let word := folded s
  match if word = other then some value else ofName? word with
  | some a => .ok a
  | none => .error (.badValue field s)

/-- The format that a word names. -/
def readFormat (s : String) : Except Fault OutputFormat :=
  readNamed "display.format" OutputFormat.ofName? "pretty" .jsonPretty s

/-- The level that a word names. -/
def readLevel (s : String) : Except Fault LogLevel :=
  readNamed "logging.level" LogLevel.ofName? "warning" .warn s

/-- The truth value that a word names, for a field. -/
def readBool (field s : String) : Except Fault Bool :=
  let word := folded s
  if word ∈ ["1", "true", "yes", "on"] then .ok true
  else if word ∈ ["0", "false", "no", "off"] then .ok false
  else .error (.badValue field s)

/-- Whether the settings can be used: the database must have a name that a server accepts. -/
def validate (s : Settings) : Except Fault Unit :=
  if DatabaseName.isValid s.database then .ok ()
  else .error (.badValue "session.database" s.database)

/-- The settings as a report. -/
def toJson (s : Settings) : Json :=
  .object [
    ("display", .object [("format", .text s.format.name)]),
    ("session", .object [("database", .text s.database), ("read_only", .bool s.readOnly)]),
    ("logging", .object [("level", .text s.level.name), ("timestamps", .bool s.timestamps)])]

end Settings

end ShellQuery
