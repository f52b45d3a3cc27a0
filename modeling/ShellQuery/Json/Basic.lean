/-!
# JSON values

A number is an integer, kept exactly, or a double. The fields of an object stand in the order of the
text they come from.
-/

namespace ShellQuery

/-- A JSON number. Integers reach from the least signed to the greatest unsigned 64-bit integer;
any other number is a double. -/
inductive Json.Number
  | int (value : Int)
  | float (value : Float)

/-- A JSON value. -/
inductive Json
  | null
  | bool (value : Bool)
  | number (value : Json.Number)
  | text (value : String)
  | array (items : List Json)
  | object (fields : List (String × Json))

/-- A string, or null where there is none. -/
def Json.ofText? : Option String → Json
  | some s => .text s
  | none => .null

/-- The integer a number is, if it is one that fits into 64 signed bits. -/
def Json.Number.toInt64? : Json.Number → Option Int
  | .int n => if -0x8000000000000000 ≤ n ∧ n < 0x8000000000000000 then some n else none
  | .float _ => none

end ShellQuery
