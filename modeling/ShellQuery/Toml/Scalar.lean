import ShellQuery.Calendar
import ShellQuery.Decimal
import ShellQuery.Json.Quoted
import ShellQuery.Toml.Basic
/-!
# TOML words, numbers and dates

The values that are written without quotes or brackets. `readScalar?` takes all up to the next
blank, bracket, comma, equals sign, comment or line end, and gives its value or nothing if it is
malformed.

What kind of number a text is shows in its shape: a base mark, a point or exponent, or neither.
Whether it names a number that can be held, an integer of 128 bits or a finite double, is a question
of its own, which a malformed document never gets to and a number that nothing reads is never asked.
-/

namespace ShellQuery.Toml

open Calendar

/-! ## Numbers -/

/-- Whether each underscore of a text stands between digits, where `behindDigit` says whether there
is a digit in front of the text. -/
def isGroupedBehind (isDigit : Char → Bool) (behindDigit : Bool) : List Char → Bool
  | [] => true
  | '_' :: r =>
    behindDigit && (r.head?.map isDigit).getD false && isGroupedBehind isDigit false r
  | c :: r => isGroupedBehind isDigit (isDigit c) r

/-- Whether each underscore of a text stands between digits. -/
def isGrouped (isDigit : Char → Bool) (s : List Char) : Bool :=
  isGroupedBehind isDigit false s

/-- A text without its underscores. -/
def ungrouped (s : List Char) : List Char :=
  s.filter (· != '_')

/-- The number that digits of a base write. -/
def valueInBase (base : Nat) (digits : List Char) : Nat :=
  digits.foldl (fun n c => n * base + (Json.hexValue? c).getD 0) 0

/-- Whether a character is a digit of a base up to sixteen. -/
def isDigitOf (base : Nat) (c : Char) : Bool :=
  match Json.hexValue? c with
  | some n => n < base
  | none => false

/-- Whether digits of a base name an integer that 128 bits can hold, with a sign or without. Nothing
but digits may be among them, and no digits name no integer. -/
def integerInRange (base : Nat) (negative : Bool) (digits : List Char) : Bool :=
  !digits.isEmpty && digits.all (isDigitOf base) &&
    valueInBase base digits < if negative then Nat.pow 2 127 + 1 else Nat.pow 2 128

/-- For an integer in a base, behind its mark, whether it is in range. There may be no digits at
all. -/
def basedInRange? (base : Nat) (s : List Char) : Option Bool :=
  if s.all (fun c => isDigitOf base c || c == '_') && isGrouped (isDigitOf base) s then
    some (integerInRange base false (ungrouped s))
  else none

/-- The characters that make a number a float. -/
def isFloatMark (c : Char) : Bool :=
  c == '.' || c == 'e' || c == 'E'

/-- For a decimal integer, whether it is in range. Its first digits may be followed by underscores
and then by anything, if only there are hexadecimal digits around the underscores; with other
characters than decimal digits it is out of range. -/
def decimalInRange? (s : List Char) : Option Bool :=
  let (negative, r) := Decimal.Numeral.splitSign s
  let tail := r.dropWhile Char.isDigit
  let hasLeadingZero := r.head? == some '0' && r != ['0']
  if r.isEmpty || hasLeadingZero || tail.any isFloatMark || (tail.head?.getD '_') != '_' then none
  else if isGrouped (isDigitOf 16) s then some (integerInRange 10 negative (ungrouped r))
  else none

/-- Whether `digits * 10 ^ exponent` rounds to a double that is not infinite. -/
def fitsDouble (digits : Nat) (exponent : Int) : Bool :=
  let magnitude := (Decimal.ofNat digits).length + exponent
  digits = 0 || magnitude ≤ 308 ||
    (magnitude ≤ 310 &&
      digits * Nat.pow 10 exponent.toNat <
        (Nat.pow 2 1024 - Nat.pow 2 970) * Nat.pow 10 (-exponent).toNat)

/-- Whether a text consists of decimal digits and underscores, with at least one digit, and with no
superfluous zero at the front unless that is allowed. -/
def isDigitRun (zeros : Bool) (s : List Char) : Bool :=
  let count := s.countP Char.isDigit
  s.all (fun c => c.isDigit || c == '_') && 0 < count &&
    (zeros || count == 1 || s.head? != some '0')

/-- For a float, whether it is in range: digits with a fraction or an exponent, or infinity, or no
number. -/
def floatInRange? (s : List Char) : Option Bool :=
  let (_, r) := Decimal.Numeral.splitSign s
  if r = ['i', 'n', 'f'] ∨ r = ['n', 'a', 'n'] then some true
  else
    let isExponentMark (c : Char) : Bool := c == 'e' || c == 'E'
    let mantissa := r.takeWhile (!isExponentMark ·)
    let exponent := r.dropWhile (!isExponentMark ·)
    let whole := mantissa.takeWhile (· != '.')
    let fraction := mantissa.dropWhile (· != '.')
    let (negative, power) := Decimal.Numeral.splitSign exponent.tail
    if r.any isFloatMark && isGrouped Char.isDigit s && isDigitRun false whole &&
        (fraction.isEmpty || isDigitRun true fraction.tail) &&
        (exponent.isEmpty || isDigitRun true power) then
      let digits := ungrouped (whole ++ fraction.tail)
      let places := (ungrouped fraction.tail).length
      let power : Decimal.Numeral := ⟨negative, ungrouped power⟩
      some (fitsDouble (Decimal.value digits) (power.toInt - (places : Nat)))
    else none

/-- The value of a number. -/
def number? (s : List Char) : Option Value :=
  let inRange : Option Bool :=
    match s with
    | '0' :: 'x' :: r => basedInRange? 16 r
    | '0' :: 'o' :: r => basedInRange? 8 r
    | '0' :: 'b' :: r => basedInRange? 2 r
    | _ => (decimalInRange? s).or (floatInRange? s)
  inRange.map fun inRange => .number (String.ofList s) inRange

/-! ## Dates and times -/

/-- A number of exactly so many digits, and the text behind it. -/
def fixed? (width : Nat) (s : List Char) : Option (Nat × List Char) :=
  let digits := s.take width
  if digits.length = width ∧ digits.all Char.isDigit then some (Decimal.value digits, s.drop width)
  else none

/-- The text behind a character, if it stands at the front. -/
def after? (c : Char) : List Char → Option (List Char)
  | d :: r => if d = c then some r else none
  | [] => none

/-- The text behind a date. -/
def afterDate? (s : List Char) : Option (List Char) := do
  let (year, s) ← fixed? 4 s
  let (month, s) ← fixed? 2 (← after? '-' s)
  let (day, s) ← fixed? 2 (← after? '-' s)
  if (Date.mk year month day).isValid then some s else none

/-- The text behind the seconds of a time, which may be missing, and their fraction. -/
def afterSeconds? (s : List Char) : Option (List Char) :=
  match s with
  | ':' :: r => do
    let (second, r) ← fixed? 2 r
    if 60 < second then none
    else
      match r with
      | '.' :: fraction =>
        if (fraction.takeWhile Char.isDigit).isEmpty then none
        else some (fraction.dropWhile Char.isDigit)
      | _ => some r
  | _ => some s

/-- The text behind a time of day. -/
def afterTime? (s : List Char) : Option (List Char) := do
  let (hour, s) ← fixed? 2 s
  let (minute, s) ← fixed? 2 (← after? ':' s)
  if 23 < hour ∨ 59 < minute then none else afterSeconds? s

/-- Whether a text is an offset, or empty. -/
def isOffset (s : List Char) : Bool :=
  match s with
  | [] => true
  | [c] => c == 'Z' || c == 'z'
  | sign :: r =>
    (sign == '+' || sign == '-') &&
      ((do
        let (hour, r) ← fixed? 2 r
        let (minute, r) ← fixed? 2 (← after? ':' r)
        return hour ≤ 23 && minute ≤ 59 && r.isEmpty : Option Bool)).getD false

/-- Whether a text is a time of day with an optional offset. -/
def isTimeWithOffset (s : List Char) : Bool :=
  ((afterTime? s).map isOffset).getD false

/-- Whether a text is a date, a time, or both with an optional offset. -/
def isDateTime (s : List Char) : Bool :=
  afterTime? s = some [] ||
    match afterDate? s with
    | some [] => true
    | some (c :: r) => (c == 'T' || c == 't') && isTimeWithOffset r
    | none => false

/-! ## Scalars -/

/-- The characters that words, numbers and dates are made of: all that do not end one. -/
def isScalarChar (c : Char) : Bool :=
  !(c ∈ ['=', ',', '[', ']', '\x7b', '\x7d', '#', ' ', '\t', '\r', '\n'])

/-- The value of a word, number or date. -/
def scalar? (s : List Char) : Option Value :=
  if s = ['t', 'r', 'u', 'e'] then some (.bool true)
  else if s = ['f', 'a', 'l', 's', 'e'] then some (.bool false)
  else if isDateTime s then some (.dateTime (String.ofList s))
  else number? s

/-- A time behind a date and a space, which belongs to the date. -/
def timeBehindDate? (date r : List Char) : Option (List Char × List Char) :=
  match r with
  | ' ' :: t =>
    if afterDate? date = some [] ∧ (t.head?.map Char.isDigit).getD false then
      some (t.takeWhile isScalarChar, t.dropWhile isScalarChar)
    else none
  | _ => none

/-- A word, number or date at the front of a text, and the text behind it. -/
def readScalar? (s : List Char) : Option (Value × List Char) :=
  let word := s.takeWhile isScalarChar
  let rest := s.dropWhile isScalarChar
  match timeBehindDate? word rest with
  | some (time, rest) =>
    if isTimeWithOffset time then some (.dateTime (String.ofList (word ++ ' ' :: time)), rest)
    else none
  | none => (scalar? word).map fun v => (v, rest)

end ShellQuery.Toml
