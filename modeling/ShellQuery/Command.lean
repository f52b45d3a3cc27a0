import ShellQuery.Text
import ShellQuery.Method
/-!
# Command lines

A line of the shell has one of three shapes: `show` and a target, `use` and a name, or a call
`db.path.method(arguments)`. `Command.ofLine?` takes a line apart by its outer shape alone; the
text of the arguments stays as it was written, whatever it holds, because the call's closing
parenthesis is the last character of the line and its opening one the first of its kind.
-/

namespace ShellQuery

open Text

/-- The shape of a command line. -/
inductive Scope
  | display
  | selection
  | call
  deriving DecidableEq, Repr

/-- A command line in its parts. `path` is the target of `show`, the name of `use`, or the segments
of a call before its method, the leading `db` included. -/
structure Command where
  scope : Scope
  path : List String
  method : String
  argumentText : String
  deriving DecidableEq, Repr

namespace Command

/-- The collection a call is made on: the segments after `db`, joined again by dots. -/
def collection (c : Command) : Option String :=
  match c.scope, c.path with
  | .call, _ :: segment :: more => some (".".intercalate (segment :: more))
  | _, _ => none

/-- A path segment is not empty and holds no blank, parenthesis or quote. -/
def isSegment (s : List Char) : Bool :=
  !s.isEmpty && s.all fun c =>
    !(isBlank c || c == '(' || c == ')' || c == '"' || c == '\'')

/-- What follows a leading keyword, trimmed. The keyword must be followed by a blank. -/
def afterKeyword? (word s : List Char) : Option (List Char) :=
  match word.isPrefixOf? s with
  | some (c :: r) => if isBlank c then some (trim (c :: r)) else none
  | _ => none

/-- The command `show target`. -/
def ofShow? (target : List Char) : Option Command :=
  let name := String.ofList target
  if name ∈ ["dbs", "databases"] then some ⟨.display, [name], Method.showDatabases, ""⟩
  else if name ∈ ["collections", "tables"] then some ⟨.display, [name], Method.showCollections, ""⟩
  else none

/-- The command `use name`; words after the name are ignored. -/
def ofUse? (rest : List Char) : Option Command :=
  (firstWord? rest).map fun name => ⟨.selection, [String.ofList name], Method.useDatabase, ""⟩

/-- The call `db.path.method(arguments)`. Blanks are allowed before the parenthesis only. -/
def ofCall? (s : List Char) : Option Command :=
  match s.dropWhile (· != '(') with
  | [] => none
  | _ :: inner =>
    if inner.getLast? = some ')' then
      let segments := (trimEnd (s.takeWhile (· != '('))).splitOn '.'
      let path := segments.dropLast.map String.ofList
      if path.head? = some "db" ∧ segments.all isSegment then
        some ⟨.call, path, String.ofList (segments.getLast?.getD []),
          String.ofList inner.dropLast⟩
      else none
    else none

/-- The part of a line that is looked at: without blanks at the ends, then without semicolons at
the end, then without blanks again. -/
def essence (line : List Char) : List Char :=
  trim (dropWhileEnd (· == ';') (trim line))

/-- A line in its parts, or nothing if it has none of the three shapes. -/
def ofLine? (line : String) : Option Command :=
  let s := essence line.toList
  match afterKeyword? "show".toList s with
  | some target => ofShow? target
  | none =>
    match afterKeyword? "use".toList s with
    | some rest => ofUse? rest
    | none => ofCall? s

end Command

end ShellQuery
