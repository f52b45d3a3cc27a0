import ShellQuery.Json.Basic
import ShellQuery.Fields
import ShellQuery.ObjectId
import ShellQuery.Instant.Basic
/-!
# Typed values

The values a command is called with: those of JSON, and three that JSON writes as tagged objects
(object identifiers, instants and 64-bit integers). The fields of an object stand in the order in
which they were written.
-/

namespace ShellQuery

/-- A typed value. -/
inductive Value
  | null
  | bool (value : Bool)
  | number (value : Json.Number)
  | text (value : String)
  | identifier (value : ObjectId)
  | instant (value : Instant)
  | int64 (value : Int64)
  | array (items : List Value)
  | object (fields : List (String × Value))

namespace Value

/-- The string of a text. -/
def text? : Value → Option String
  | .text s => some s
  | _ => none

/-- The items of an array. -/
def items? : Value → Option (List Value)
  | .array items => some items
  | _ => none

/-- The fields of an object. -/
def fields? : Value → Option (List (String × Value))
  | .object fields => some fields
  | _ => none

/-- The value of an object's first field with a key. -/
def get? (v : Value) (key : String) : Option Value :=
  v.fields?.bind (Fields.get? key)

/-- Whether an object has a field with a key. -/
def hasField (v : Value) (key : String) : Bool :=
  (v.get? key).isSome

/-- The one text of a value that JSON can only write with a tag: 24 hexadecimal digits, an instant
with milliseconds, or decimal digits. -/
def canonical? : Value → Option String
  | .identifier id => some id.hex
  | .instant t => some (String.ofList t.canonical)
  | .int64 n => some (String.ofList (Decimal.ofInt n.toInt))
  | _ => none

end Value

end ShellQuery
