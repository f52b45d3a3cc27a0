import ShellQuery.Query.Basic
/-!
# Pipelines that write

The method `aggregate` reads a collection, unless its pipeline has a stage that writes. Two
questions are asked of an aggregation. `Query.isWritingAggregation` looks for a writing stage in
any argument; `Query.isReadOnlyAggregation` wants to see a pipeline of stage objects, none of which
writes. The second is not the negation of the first: arguments of any other form answer no to it,
so that what is not understood counts as writing.
-/

namespace ShellQuery

namespace Value

/-- Whether an object has a field that names a writing stage. -/
def isWriteStage (v : Value) : Bool :=
  Method.writeStages.any v.hasField

/-- Whether an argument, a pipeline or a stage of its own, has a writing stage. -/
def hasWriteStage (v : Value) : Bool :=
  match v.items? with
  | some stages => stages.any isWriteStage
  | none => v.isWriteStage

/-- Whether a value is a stage object that does not write. -/
def isReadStage (v : Value) : Bool :=
  v.fields?.isSome && !v.isWriteStage

end Value

namespace Query

/-- Whether a query runs a pipeline. -/
def isAggregation (q : Query) : Bool :=
  q.methodName == Method.aggregate

/-- Whether a query runs a pipeline with a writing stage in some argument. -/
def isWritingAggregation (q : Query) : Bool :=
  q.isAggregation && q.args.any Value.hasWriteStage

/-- Whether arguments are a pipeline that only reads: none at all, an array of reading stages before
options that hold no writing stage, or nothing but reading stages. -/
def readsOnly : List Value → Bool
  | [] => true
  | .array stages :: options => stages.all Value.isReadStage && !options.any Value.hasWriteStage
  | .object fields :: more => (Value.object fields :: more).all Value.isReadStage
  | _ :: _ => false

/-- Whether a query runs a pipeline that is known to only read. -/
def isReadOnlyAggregation (q : Query) : Bool :=
  q.isAggregation && readsOnly q.args

/-- Whether a query's method is safe in a read-only session; of pipelines only the method counts. -/
def isReadOnlySafe (q : Query) : Bool :=
  match q.kind with
  | .read => true
  | .admin => Method.harmlessAdministrators.contains q.methodName
  | .write => false
  | .unknown => false

end Query

end ShellQuery
