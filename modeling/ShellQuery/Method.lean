/-!
# Methods and what they do

Which shell methods read, which write and which administer. The tables list every method that is
known; `Kind.ofMethod` classifies by look-up in the tables of the scope at hand, and a
method in no table is `Kind.unknown`. The same name may stand in two scopes: `stats` reads a
collection and administers a database.
-/

namespace ShellQuery

/-- What a command does. -/
inductive Kind
  | read
  | write
  | admin
  | unknown
  deriving DecidableEq, Repr

/-- The name a kind has in reports. -/
def Kind.name : Kind → String
  | .read => "read"
  | .write => "write"
  | .admin => "admin"
  | .unknown => "unknown"

namespace Method

/-- The admin method of `show dbs` and `show databases`. -/
def showDatabases : String := "showDatabases"

/-- The admin method of `show collections` and `show tables`. -/
def showCollections : String := "showCollections"

/-- The admin method of `use`. -/
def useDatabase : String := "use"

/-- The collection method that runs a pipeline; whether it writes depends on its stages. -/
def aggregate : String := "aggregate"

/-- Collection methods that only read. -/
def readers : List String :=
  ["find", "findOne", aggregate, "countDocuments", "estimatedDocumentCount", "count", "distinct",
    "getIndexes", "stats"]

/-- Collection methods that change data or indexes. -/
def writers : List String :=
  ["insertOne", "insertMany", "updateOne", "updateMany", "replaceOne", "deleteOne", "deleteMany",
    "findOneAndUpdate", "findOneAndReplace", "findOneAndDelete", "bulkWrite", "createIndex",
    "createIndexes", "dropIndex", "dropIndexes", "drop", "renameCollection", "insert", "update",
    "remove", "findAndModify"]

/-- Methods called on the database itself. -/
def administrators : List String :=
  ["getName", "stats", "getCollectionNames", "dropDatabase"]

/-- Admin methods that change no data. -/
def harmlessAdministrators : List String :=
  [showDatabases, showCollections, useDatabase, "getName", "stats", "getCollectionNames"]

/-- Pipeline stages that write their input to a collection. -/
def writeStages : List String :=
  ["$out", "$merge"]

end Method

/-- The kind of a method called on a collection (`onCollection`) or on the database. -/
def Kind.ofMethod (onCollection : Bool) (method : String) : Kind :=
  if onCollection then
    if method ∈ Method.readers then .read
    else if method ∈ Method.writers then .write
    else .unknown
  else if method ∈ Method.administrators then .admin
  else .unknown

end ShellQuery
