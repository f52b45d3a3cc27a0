/-!
# Decimal numerals

Numerals as people write them: an optional sign and at least one ASCII digit. `Numeral.read?` takes
the longest numeral at the front of a text, `readInt?` wants the whole text to be one, and
`Decimal.ofInt` writes an integer with no superfluous sign or zero.
-/

namespace ShellQuery.Decimal

/-- The number a run of digits names. -/
def value (digits : List Char) : Nat :=
  Nat.ofDigitChars 10 digits 0

/-- The decimal digits of a natural number, without leading zeros. -/
def ofNat (n : Nat) : List Char :=
  Nat.toDigits 10 n

/-- The decimal digits of an integer, after a minus sign if it is negative. -/
def ofInt (n : Int) : List Char :=
  if n < 0 then '-' :: ofNat n.natAbs else ofNat n.natAbs

/-- Decimal digits, filled up with zeros at the front to a given width. -/
def padded (width : Nat) (n : Nat) : List Char :=
  let digits := ofNat n
  List.replicate (width - digits.length) '0' ++ digits

/-- A signed run of digits. The digits are kept as they were written, leading zeros included. -/
structure Numeral where
  negative : Bool
  digits : List Char

namespace Numeral

/-- The integer a numeral names. -/
def toInt (n : Numeral) : Int :=
  if n.negative then -(value n.digits : Int) else value n.digits

/-- A numeral as it is written, without a plus sign. -/
def spelling (n : Numeral) : List Char :=
  if n.negative then '-' :: n.digits else n.digits

/-- The sign at the front of a text, and what follows. A plus sign counts as none. -/
def splitSign : List Char → Bool × List Char
  | '-' :: r => (true, r)
  | '+' :: r => (false, r)
  | s => (false, s)

/-- The longest numeral at the front of a text, and the text behind it. -/
def read? (s : List Char) : Option (Numeral × List Char) :=
  let (negative, r) := splitSign s
  match r.takeWhile Char.isDigit with
  | [] => none
  | digits => some (⟨negative, digits⟩, r.dropWhile Char.isDigit)

end Numeral

/-- The integer a text names as a whole: an optional sign and digits, nothing else. -/
def readInt? (s : List Char) : Option Int :=
  match Numeral.read? s with
  | some (n, []) => some n.toInt
  | _ => none

end ShellQuery.Decimal
