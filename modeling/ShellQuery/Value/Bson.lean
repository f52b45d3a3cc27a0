import ShellQuery.Value.ExtendedJson
/-!
# Values as documents

`Bson` is what a store of documents takes: every typed value has a kind of its own there.
`Value.toBson` makes it of a value. The fields of a document have different keys, so of repeated
fields the last value counts, at the place of the first. `Bson.relaxed` writes it in relaxed
extended JSON.
-/

namespace ShellQuery

/-- What a store of documents takes. Integers have 64 signed bits, and doubles are finite. -/
inductive Bson
  | null
  | boolean (value : Bool)
  | int64 (value : Int)
  | double (value : Float)
  | string (value : String)
  | objectId (value : ObjectId)
  | dateTime (value : Instant)
  | array (items : List Bson)
  | document (fields : List (String × Bson))

/-- A number; an unsigned integer beyond 63 bits becomes a double. -/
def Bson.ofNumber (n : Json.Number) : Bson :=
  match Value.plainNumber n with
  | .int i => .int64 i
  | .float x => .double x

namespace Value

mutual

/-- A value as a store of documents takes it. -/
def toBson : Value → Bson
  | .null => .null
  | .bool b => .boolean b
  | .number n => .ofNumber n
  | .text s => .string s
  | .identifier id => .objectId id
  | .instant t => .dateTime t
  | .int64 n => .int64 n.toInt
  | .array items => .array (toBsonItems items)
  | .object fields => .document (Fields.merge (toBsonFields fields))

/-- `toBson` over the items of an array. -/
def toBsonItems : List Value → List Bson
  | [] => []
  | v :: more => v.toBson :: toBsonItems more

/-- `toBson` over the fields of an object, repeated ones included. -/
def toBsonFields : List (String × Value) → List (String × Bson)
  | [] => []
  | (key, v) :: more => (key, v.toBson) :: toBsonFields more

end

end Value

namespace Bson

mutual

/-- What is stored, in relaxed extended JSON. -/
def relaxed : Bson → Json
  | .null => .null
  | .boolean b => .bool b
  | .int64 i => .number (.int i)
  | .double x => .number (.float x)
  | .string s => .text s
  | .objectId id => .object [("$oid", .text id.hex)]
  | .dateTime t => Value.instantJson t
  | .array items => .array (relaxedItems items)
  | .document fields => .object (relaxedFields fields)

/-- `relaxed` over the items of an array. -/
def relaxedItems : List Bson → List Json
  | [] => []
  | v :: more => v.relaxed :: relaxedItems more

/-- `relaxed` over the fields of a document. -/
def relaxedFields : List (String × Bson) → List (String × Json)
  | [] => []
  | (key, v) :: more => (key, v.relaxed) :: relaxedFields more

end

end Bson

end ShellQuery
