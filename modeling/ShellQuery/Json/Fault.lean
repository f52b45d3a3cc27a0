import ShellQuery.Text
import ShellQuery.Decimal
/-!
# Faults in JSON text

Why a text is not JSON, and where. A reader notes a fault as the text it had left to read and the
number of bytes of it that count as read; `Fault.locate` turns this into a line and a column of the
whole text. Lines count from one, and a column is the number of bytes behind the last line break.
-/

namespace ShellQuery.Json

open Text

/-- Why a text is not JSON. -/
inductive Cause
  | endInValue
  | endInList
  | endInObject
  | endInString
  | badWord
  | noValue
  | noColon
  | noCommaOrBracket
  | noCommaOrBrace
  | trailingComma
  | keyNotString
  | trailingCharacters
  | tooDeep
  | badNumber
  | numberOutOfRange
  | badEscape
  | loneSurrogate
  | brokenSurrogatePair
  | controlCharacter
  deriving DecidableEq, Repr

/-- The words for a cause. -/
def Cause.wording : Cause → String
  | .endInValue => "EOF while parsing a value"
  | .endInList => "EOF while parsing a list"
  | .endInObject => "EOF while parsing an object"
  | .endInString => "EOF while parsing a string"
  | .badWord => "expected ident"
  | .noValue => "expected value"
  | .noColon => "expected `:`"
  | .noCommaOrBracket => "expected `,` or `]`"
  | .noCommaOrBrace => "expected `,` or `\x7d`"
  | .trailingComma => "trailing comma"
  | .keyNotString => "key must be a string"
  | .trailingCharacters => "trailing characters"
  | .tooDeep => "recursion limit exceeded"
  | .badNumber => "invalid number"
  | .numberOutOfRange => "number out of range"
  | .badEscape => "invalid escape"
  | .loneSurrogate => "lone leading surrogate in hex escape"
  | .brokenSurrogatePair => "unexpected end of hex escape"
  | .controlCharacter => "control character (\\u0000-\\u001F) found while parsing a string"

/-- A fault at a place of a text: the text left to read there, and how many bytes of it count as
read. -/
structure Fault where
  cause : Cause
  rest : List Char
  read : Nat

/-- A fault with its line and column. -/
structure Problem where
  cause : Cause
  line : Nat
  column : Nat
  deriving DecidableEq, Repr

/-- The words for a problem. -/
def Problem.wording (p : Problem) : String :=
  p.cause.wording ++ " at line " ++ String.ofList (Decimal.ofNat p.line) ++ " column " ++
    String.ofList (Decimal.ofNat p.column)

/-- The line and column a number of bytes further on in a text; at most its end. -/
def advance : (bytes line column : Nat) → List Char → Nat × Nat
  | 0, line, column, _ => (line, column)
  | _ + 1, line, column, [] => (line, column)
  | bytes + 1, line, column, c :: r =>
    if c = '\n' then advance bytes (line + 1) 0 r
    else if bytes + 1 ≤ c.utf8Size then (line, column + (bytes + 1))
    else advance (bytes + 1 - c.utf8Size) line (column + c.utf8Size) r

/-- The place of a fault in the whole text, of which the fault's rest is the end. -/
def Fault.locate (text : List Char) (f : Fault) : Problem :=
  let (line, column) := advance (byteCount text - byteCount f.rest + f.read) 1 0 text
  ⟨f.cause, line, column⟩

end ShellQuery.Json
