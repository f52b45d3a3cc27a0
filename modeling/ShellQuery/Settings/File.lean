import ShellQuery.Settings.Basic
import ShellQuery.Toml.Reader
/-!
# Settings files

A settings file is a TOML document with the sections `display`, `session` and `logging`. What a file
leaves out has its default, and what it holds beyond the known fields is ignored, except that its
numbers must be in range; but a known field must have a value of its type, and names must be spelled
exactly. A section may also be written as an array of its values in order, of which those beyond the
known fields are not looked at, and a name as a table with that one key and nothing in it.
-/

namespace ShellQuery.Settings

open Toml

/-- How the fields of a section are looked up: by key in a table, by place in an array. A date is a
section without fields; any other value is no section. -/
def section? : Toml.Value → Option (Nat → String → Option Toml.Value)
  | .table fields =>
    if fieldsInRange fields then some fun _ key => Fields.get? key fields else none
  | .array items => some fun place _ => items[place]?
  | .dateTime _ => some fun _ _ => none
  | _ => none

/-- The section with a name; one that is missing has no fields. -/
def sectionOf? (name : String) (fields : List (String × Toml.Value)) :
    Option (Nat → String → Option Toml.Value) :=
  match Fields.get? name fields with
  | some v => section? v
  | none => some fun _ _ => none

/-- The name that a value gives. -/
def name? : Toml.Value → Option String
  | .text s => some s
  | .table [(name, .table [])] => some name
  | .table [(name, .array [])] => some name
  | _ => none

/-- A text. -/
def text? : Toml.Value → Option String
  | .text s => some s
  | _ => none

/-- A truth value. -/
def bool? : Toml.Value → Option Bool
  | .bool b => some b
  | _ => none

/-- A field that may be left out, but must have a value of its type if it is there. -/
def field? {α : Type} (fallback : α) (read : Toml.Value → Option α) (value : Option Toml.Value) :
    Option α :=
  match value with
  | none => some fallback
  | some v => read v

/-- The names of the sections. -/
def sectionNames : List String := ["display", "session", "logging"]

/-- The settings in the fields of a document. -/
def ofFields? (fields : List (String × Toml.Value)) : Option Settings := do
  guard (fieldsInRange (fields.filter fun (name, _) => name ∉ sectionNames))
  let display ← sectionOf? "display" fields
  let format ← field? default.format (fun v => (name? v).bind OutputFormat.ofName?)
    (display 0 "format")
  let session ← sectionOf? "session" fields
  let database ← field? default.database text? (session 0 "database")
  let readOnly ← field? default.readOnly bool? (session 1 "read_only")
  let logging ← sectionOf? "logging" fields
  let level ← field? default.level (fun v => (name? v).bind LogLevel.ofName?) (logging 0 "level")
  let timestamps ← field? default.timestamps bool? (logging 1 "timestamps")
  return ⟨format, database, readOnly, level, timestamps⟩

/-- What stands at a path on disk. -/
inductive Entry
  | absent
  | directory
  | file (content : ByteArray)

/-- The settings in a file. The path is for the message only. -/
def ofEntry (path : String) (entry : Entry) : Except Fault Settings :=
  match entry with
  | .absent => .error (.missingFile path)
  | .directory => .error (.unreadable .directory)
  | .file content =>
    match String.fromUTF8? content with
    | none => .error (.unreadable .notUtf8)
    | some text =>
      match (Toml.read? text).bind ofFields? with
      | some settings => .ok settings
      | none => .error .malformed

end ShellQuery.Settings
