import ShellQuery.Decimal
/-!
# Object identifiers

An object identifier is twelve bytes, written as 24 hexadecimal digits: lower case when written,
either case when read. `ObjectId.read` says which of three things is wrong with a text, and the
order matters: an odd number of bytes comes before a byte that is no digit, and this before a wrong
even length.
-/

namespace ShellQuery

/-- Twelve bytes. -/
structure ObjectId where
  bytes : List UInt8
  length_eq : bytes.length = 12

namespace ObjectId

/-- Why a text is no object identifier. -/
inductive Fault
  | length (text : String)
  | digit (text : String) (index : Nat) (byte : UInt8)
  deriving DecidableEq, Repr

/-- The words for a fault. The byte is shown as the character of the same number. -/
def Fault.wording : Fault → String
  | .length text =>
    "provided hex string representation must be exactly 12 bytes, instead got: \"" ++ text ++
      "\", length " ++ String.ofList (Decimal.ofNat text.utf8ByteSize)
  | .digit text index byte =>
    "invalid character '" ++ String.ofList [Char.ofNat byte.toNat] ++ "' was found at index " ++
      String.ofList (Decimal.ofNat index) ++ " in the provided hex string: \"" ++ text ++ "\""

/-- The value of a byte that is a hexadecimal digit of either case. -/
def nibble? (byte : UInt8) : Option UInt8 :=
  if '0'.toUInt8 ≤ byte ∧ byte ≤ '9'.toUInt8 then some (byte - '0'.toUInt8)
  else if 'a'.toUInt8 ≤ byte ∧ byte ≤ 'f'.toUInt8 then some (byte - 'a'.toUInt8 + 10)
  else if 'A'.toUInt8 ≤ byte ∧ byte ≤ 'F'.toUInt8 then some (byte - 'A'.toUInt8 + 10)
  else none

/-- The bytes that pairs of digits write; nothing if some byte is no digit. -/
def decode? : List UInt8 → Option (List UInt8)
  | high :: low :: more =>
    match nibble? high, nibble? low, decode? more with
    | some high, some low, some bytes => some ((high * 16 + low) :: bytes)
    | _, _, _ => none
  | _ => some []

/-- The first byte that is no hexadecimal digit, with its place. -/
def firstBad? (index : Nat) : List UInt8 → Option (Nat × UInt8)
  | [] => none
  | b :: more => if (nibble? b).isNone then some (index, b) else firstBad? (index + 1) more

/-- The identifier a text writes, or why it writes none. -/
def read (text : String) : Except Fault ObjectId :=
  let bytes := text.toUTF8.toList
  if bytes.length % 2 = 1 then .error (.length text)
  else
    match firstBad? 0 bytes with
    | some (index, byte) => .error (.digit text index byte)
    | none =>
      match decode? bytes with
      | some decoded => if h : decoded.length = 12 then .ok ⟨decoded, h⟩ else .error (.length text)
      | none => .error (.length text)

/-- The two digits of a byte. -/
def byteDigits (b : UInt8) : List Char :=
  [(b.toNat / 16).digitChar, (b.toNat % 16).digitChar]

/-- The 24 digits of an identifier. -/
def hex (id : ObjectId) : String :=
  String.ofList (id.bytes.flatMap byteDigits)

end ObjectId

end ShellQuery
