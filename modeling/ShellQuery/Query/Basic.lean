import ShellQuery.Command
import ShellQuery.ArgumentText
import ShellQuery.Value.ExtendedJson
/-!
# Queries

A query is a command line understood: what it does, on which collection, by which method, with
which arguments. `Query.ofLine` understands a line and never fails. A line of no known shape becomes
`Query.unrecognized`; a call of a method that no table lists is of unknown kind too, but keeps its
parts so that a report can name them.
-/

namespace ShellQuery

/-- A command line understood. -/
structure Query where
  kind : Kind
  collection : Option String
  method : Option String
  args : List Value

namespace Query

/-- The query of a line that has none of the known shapes. -/
def unrecognized : Query := ⟨.unknown, none, none, []⟩

/-- An admin command, which has no collection. -/
def admin (method : String) (args : List Value) : Query := ⟨.admin, none, some method, args⟩

/-- Whether a query may be carried out at all. -/
def isDispatchable (q : Query) : Bool :=
  q.kind != .unknown && q.method.isSome

/-- The method's name, which is empty if the line was not recognized. -/
def methodName (q : Query) : String :=
  q.method.getD ""

/-- What a command line in its parts asks for. -/
def ofCommand (c : Command) : Query :=
  match c.scope with
  | .display => admin c.method []
  | .selection => admin c.method [.text (c.path.headD "")]
  | .call =>
    ⟨.ofMethod c.collection.isSome c.method, c.collection, some c.method,
      ArgumentText.values c.argumentText⟩

/-- What a command line asks for. -/
def ofLine (line : String) : Query :=
  match Command.ofLine? line with
  | some c => ofCommand c
  | none => unrecognized

/-- The fields of a query in a report. -/
def reportFields (q : Query) : List (String × Json) :=
  [("type", .text q.kind.name), ("collection", .ofText? q.collection),
    ("method", .ofText? q.method), ("args", .array (q.args.map Value.toJson))]

/-- A query as a report. -/
def toJson (q : Query) : Json :=
  .object q.reportFields

end Query

end ShellQuery
