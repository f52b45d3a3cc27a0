import ShellQuery.DatabaseName
import ShellQuery.Query.Pipeline
/-!
# Sessions

A session is the database that is selected and whether writing is forbidden. `authorize` says
whether a query may run, `apply` moves the session on, and `check` does the same and reports the
verdict. Only an accepted `use` changes a session. The reasons to refuse are looked at in a fixed
order: a query that is not understood, then writing where it is forbidden, then a database name that
no server accepts.
-/

namespace ShellQuery

/-- Why a session refuses a query. -/
inductive Refusal
  | unsupported (method : Option String)
  | readOnly (method : String)
  | databaseName (name : String)
  deriving DecidableEq, Repr

namespace Refusal

/-- The area a refusal belongs to, as the beginning of its message. -/
def heading : Refusal → String
  | .databaseName _ => ""
  | _ => "Execution error: "

/-- What was refused. -/
def detail : Refusal → String
  | .unsupported (some method) => "Unsupported operation: method '" ++ method ++ "'"
  | .unsupported none => "Unsupported operation: unrecognized command"
  | .readOnly method => "Operation not allowed in read-only mode: " ++ method
  | .databaseName name => "Invalid command: Invalid database name: " ++ name

/-- The message for a refusal. -/
def message (r : Refusal) : String :=
  r.heading ++ r.detail

end Refusal

/-- The selected database, and whether writing is forbidden. -/
structure Session where
  database : String
  readOnly : Bool
  deriving DecidableEq, Repr

/-- What a session says to a query. The database is the one selected afterwards. -/
structure Verdict where
  query : Query
  database : String
  refusal : Option Refusal

namespace Query

/-- The database a query selects. -/
def selects? (q : Query) : Option String :=
  if q.kind = .admin ∧ q.methodName = Method.useDatabase then q.args.head?.bind Value.text?
  else none

/-- The full name of the collection a query is about, in a database. -/
def fullName? (q : Query) (database : String) : Option String :=
  q.collection.map fun collection => database ++ "." ++ collection

end Query

namespace Session

/-- Whether read-only mode forbids a query: all that is not known to be harmless. -/
def forbids (q : Query) : Bool :=
  !q.isReadOnlySafe || (q.isAggregation && !q.isReadOnlyAggregation)

/-- Why a session refuses a query, if it does. -/
def refusal? (s : Session) (q : Query) : Option Refusal :=
  if q.kind = .unknown then some (.unsupported q.method)
  else if s.readOnly && forbids q then some (.readOnly q.methodName)
  else
    match q.selects? with
    | some name => if DatabaseName.isValid name then none else some (.databaseName name)
    | none => none

/-- Whether a query may run. -/
def authorize (s : Session) (q : Query) : Except Refusal Unit :=
  match s.refusal? q with
  | some r => .error r
  | none => .ok ()

/-- The session after a query that it does not refuse. -/
def apply (s : Session) (q : Query) : Except Refusal Session :=
  match s.authorize q with
  | .error r => .error r
  | .ok () =>
    match q.selects? with
    | some name => .ok { s with database := name }
    | none => .ok s

/-- The verdict on a query, and the session after it; a refused query leaves the session alone. -/
def check (s : Session) (q : Query) : Verdict × Session :=
  match s.apply q with
  | .ok next => (⟨q, next.database, none⟩, next)
  | .error r => (⟨q, s.database, some r⟩, s)

/-- The full name of the collection a query is about, in this session. -/
def fullName? (s : Session) (q : Query) : Option String :=
  q.fullName? s.database

end Session

namespace Verdict

/-- Whether the query was allowed. -/
def allowed (v : Verdict) : Bool :=
  v.refusal.isNone

/-- For a pipeline, whether it has a writing stage. -/
def hasWriteStage (v : Verdict) : Option Bool :=
  if v.query.isAggregation then some v.query.isWritingAggregation else none

/-- A verdict as a report: the query first, then the session's view of it. -/
def toJson (v : Verdict) : Json :=
  .object <| v.query.reportFields ++
    [("database", .text v.database), ("namespace", .ofText? (v.query.fullName? v.database)),
      ("readonly_safe", .bool v.query.isReadOnlySafe)] ++
    (v.hasWriteStage.map fun writes => ("has_write_stage", Json.bool writes)).toList ++
    [("allowed", .bool v.allowed)] ++
    (v.refusal.map fun r => ("reason", Json.text r.message)).toList

end Verdict

end ShellQuery
