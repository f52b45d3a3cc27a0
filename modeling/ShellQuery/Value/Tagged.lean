import ShellQuery.Value.Basic
import ShellQuery.Instant.Layout
import ShellQuery.Json.Printer
/-!
# Values from tagged JSON

`Value.ofJson` turns JSON into a typed value. An object whose only field is one of four tags stands
for the value its tag names; any other object stands for itself, also if a tag is among its fields.
The first fault in the order of the text is the one that is reported.
-/

namespace ShellQuery

/-- The keys that mark the only field of an object as a typed value. -/
inductive Tag
  | oid
  | date
  | numberLong
  | numberInt
  deriving DecidableEq, Repr

namespace Tag

/-- The key of a tag. -/
def key : Tag → String
  | .oid => "$oid"
  | .date => "$date"
  | .numberLong => "$numberLong"
  | .numberInt => "$numberInt"

/-- The tag with a key. -/
def ofKey? (key : String) : Option Tag :=
  [oid, date, numberLong, numberInt].find? (·.key = key)

end Tag

/-- Why the content of a tag makes no value. -/
inductive LiteralFault
  | noHexText
  | identifier (fault : ObjectId.Fault)
  | noDateText
  | noDate (text : String)
  | noInteger (value : Json)
  | outOfRange (millis : Int)

/-- The words for a fault. -/
def LiteralFault.wording : LiteralFault → String
  | .noHexText => "expected a hex string"
  | .identifier fault => fault.wording
  | .noDateText => "expected a date string"
  | .noDate text => "'" ++ text ++ "' is not an ISO-8601 date"
  | .noInteger value => value.compact ++ " is not a valid integer"
  | .outOfRange millis => String.ofList (Decimal.ofInt millis) ++ " is out of range"

/-- A fault in the content of a tag. -/
structure TagFault where
  tag : Tag
  fault : LiteralFault

namespace Value

/-- An integer from its text or from a JSON number, with 64 signed bits. -/
def integer64? : Json → Option Int
  | .text s => (Decimal.readInt? s.toList).bind fun n => Json.Number.toInt64? (.int n)
  | .number n => n.toInt64?
  | _ => none

/-- An integer from its text or from a JSON number, with 32 signed bits. -/
def integer32? (v : Json) : Option Int :=
  (integer64? v).bind fun n => if -0x80000000 ≤ n ∧ n < 0x80000000 then some n else none

/-- The identifier in the content of its tag. -/
def readIdentifier : Json → Except LiteralFault ObjectId
  | .text s => (ObjectId.read s).mapError .identifier
  | _ => .error .noHexText

/-- The milliseconds in the content of a date's tag: a date text, a number of milliseconds, or such
a number in an object of its own. -/
def readMillis (v : Json) : Except LiteralFault Int :=
  let integer (v : Json) : Except LiteralFault Int :=
    match integer64? v with
    | some n => .ok n
    | none => .error (.noInteger v)
  match v with
  | .text s =>
    match Instant.readMillis? s.toList with
    | some n => .ok n
    | none => .error (.noDate s)
  | .object [(key, inner)] => if key = Tag.numberLong.key then integer inner else .error .noDateText
  | v => integer v

/-- The instant in the content of its tag. -/
def readInstant (v : Json) : Except LiteralFault Instant :=
  match readMillis v with
  | .error f => .error f
  | .ok millis =>
    match Instant.ofMillis? millis with
    | some t => .ok t
    | none => .error (.outOfRange millis)

/-- The value a tag makes of its content. -/
def ofTagged (tag : Tag) (v : Json) : Except LiteralFault Value :=
  match tag with
  | .oid => (readIdentifier v).map .identifier
  | .date => (readInstant v).map .instant
  | .numberLong =>
    match integer64? v with
    | some n => .ok (.int64 (Int64.ofInt n))
    | none => .error (.noInteger v)
  | .numberInt =>
    match integer32? v with
    | some n => .ok (.number (.int n))
    | none => .error (.noInteger v)

/-- The tag and the content of an object that has one field only, if the field's key is a tag. -/
def tagged? : List (String × Json) → Option (Tag × Json)
  | [(key, inner)] => (Tag.ofKey? key).map fun tag => (tag, inner)
  | _ => none

mutual

/-- The value that JSON stands for. -/
def ofJson : Json → Except TagFault Value
  | .null => .ok .null
  | .bool b => .ok (.bool b)
  | .number n => .ok (.number n)
  | .text s => .ok (.text s)
  | .array items => (ofJsonItems items).map .array
  | .object fields =>
    match tagged? fields with
    | some (tag, inner) => (ofTagged tag inner).mapError (⟨tag, ·⟩)
    | none => (ofJsonFields fields).map .object

/-- The values that items stand for. -/
def ofJsonItems : List Json → Except TagFault (List Value)
  | [] => .ok []
  | v :: more =>
    match ofJson v with
    | .error f => .error f
    | .ok v =>
      match ofJsonItems more with
      | .error f => .error f
      | .ok vs => .ok (v :: vs)

/-- The values that fields stand for. -/
def ofJsonFields : List (String × Json) → Except TagFault (List (String × Value))
  | [] => .ok []
  | (key, v) :: more =>
    match ofJson v with
    | .error f => .error f
    | .ok v =>
      match ofJsonFields more with
      | .error f => .error f
      | .ok vs => .ok ((key, v) :: vs)

end

end Value

end ShellQuery
