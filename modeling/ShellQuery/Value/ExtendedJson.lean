import ShellQuery.Value.Basic
/-!
# Values as extended JSON

`Value.toJson` writes a value in relaxed extended JSON. Identifiers and instants become tagged
objects, 64-bit integers plain numbers. An instant is written as a date if it lies between 1970 and
9999, and as a number of milliseconds otherwise. An unsigned integer beyond 63 bits becomes a
double, and of repeated fields the last value counts, at the place of the first.
-/

namespace ShellQuery.Value

/-- The JSON number a number is written as. -/
def plainNumber (n : Json.Number) : Json.Number :=
  match n with
  | .int i => if i < 0x8000000000000000 then n else .float (Float.ofInt i)
  | .float _ => n

/-- An instant as a tagged object. -/
def instantJson (t : Instant) : Json :=
  if 0 ≤ t.millis ∧ t.date.year ≤ 9999 then
    .object [("$date", .text (String.ofList t.relaxed))]
  else
    .object [("$date", .object [("$numberLong", .text (String.ofList (Decimal.ofInt t.millis)))])]

mutual

/-- A value in relaxed extended JSON. -/
def toJson : Value → Json
  | .null => .null
  | .bool b => .bool b
  | .number n => .number (plainNumber n)
  | .text s => .text s
  | .identifier id => .object [("$oid", .text id.hex)]
  | .instant t => instantJson t
  | .int64 n => .number (.int n.toInt)
  | .array items => .array (toJsonItems items)
  | .object fields => .object (Fields.merge (toJsonFields fields))

/-- The items of an array in relaxed extended JSON. -/
def toJsonItems : List Value → List Json
  | [] => []
  | v :: more => v.toJson :: toJsonItems more

/-- The fields of an object in relaxed extended JSON, repeated ones included. -/
def toJsonFields : List (String × Value) → List (String × Json)
  | [] => []
  | (key, v) :: more => (key, v.toJson) :: toJsonFields more

end

end ShellQuery.Value
