import ShellQuery.Json.Basic
import ShellQuery.Decimal.Shortest
/-!
# Writing JSON

`Json.compact` writes a value without any blanks, `Json.pretty` with one item a line and two blanks
of indentation a level. Strings keep every character but quotes, backslashes and those below U+0020.
Doubles are written with the fewest digits that read back, in positional notation if the exponent
of the first digit is at least -5 and at most 15.
-/

namespace ShellQuery.Json

open Decimal

/-! ## Numbers -/

/-- When a double is written in positional notation. -/
structure FloatLayout where
  leastPositional : Int
  greatestPositional : Int

/-- Positional notation reaches from 0.00001 to sixteen digits before the point. -/
def floatLayout : FloatLayout := ⟨-5, 15⟩

/-- Digits with a decimal point; `leading` is the exponent of the first digit. At least one digit
stands on each side of the point. -/
def positional (digits : List Char) (leading : Int) : List Char :=
  if leading < 0 then
    '0' :: '.' :: List.replicate (leading.natAbs - 1) '0' ++ digits
  else
    let whole := leading.natAbs + 1
    let fraction := digits.drop whole
    digits.take whole ++ List.replicate (whole - digits.length) '0' ++
      '.' :: if fraction.isEmpty then ['0'] else fraction

/-- Digits with an exponent that always carries its sign. -/
def scientific (digits : List Char) (leading : Int) : List Char :=
  let mantissa :=
    match digits with
    | d :: e :: more => d :: '.' :: e :: more
    | single => single
  mantissa ++ 'e' :: (if leading < 0 then '-' else '+') :: ofNat leading.natAbs

/-- The text of a finite double. -/
def floatText (x : Float) : List Char :=
  let bits := x.toBits
  let sign := if 0x8000000000000000 ≤ bits.toNat then ['-'] else []
  let m := Magnitude.ofBits bits
  sign ++
    if m.significand = 0 then ['0', '.', '0']
    else
      let (digits, leading) := (shortest m).normal
      if floatLayout.leastPositional ≤ leading ∧ leading ≤ floatLayout.greatestPositional then
        positional digits leading
      else scientific digits leading

/-- The text of a number. -/
def Number.text : Number → List Char
  | .int n => ofInt n
  | .float x => floatText x

/-! ## Strings -/

/-- A character as it stands in a JSON string. -/
def escapeChar (c : Char) : List Char :=
  if c == '"' then ['\\', '"']
  else if c == '\\' then ['\\', '\\']
  else if c == '\x08' then ['\\', 'b']
  else if c == '\x0c' then ['\\', 'f']
  else if c == '\n' then ['\\', 'n']
  else if c == '\r' then ['\\', 'r']
  else if c == '\t' then ['\\', 't']
  else if c.toNat < 0x20 then
    '\\' :: 'u' :: '0' :: '0' :: (c.toNat / 16).digitChar :: [(c.toNat % 16).digitChar]
  else [c]

/-- A string in quotes. -/
def quote (s : String) : List Char :=
  '"' :: s.toList.flatMap escapeChar ++ ['"']

/-! ## Values -/

mutual

/-- A value without blanks. -/
def compactChars : Json → List Char
  | .null => ['n', 'u', 'l', 'l']
  | .bool true => ['t', 'r', 'u', 'e']
  | .bool false => ['f', 'a', 'l', 's', 'e']
  | .number n => n.text
  | .text s => quote s
  | .array items => '[' :: [','].intercalate (compactItems items) ++ [']']
  | .object fields => '{' :: [','].intercalate (compactFields fields) ++ ['}']

/-- The items of an array without blanks. -/
def compactItems : List Json → List (List Char)
  | [] => []
  | v :: more => compactChars v :: compactItems more

/-- The fields of an object without blanks. -/
def compactFields : List (String × Json) → List (List Char)
  | [] => []
  | (key, v) :: more => (quote key ++ ':' :: compactChars v) :: compactFields more

end

/-- A line break and the indentation of a level. -/
def lineBreak (level : Nat) : List Char :=
  '\n' :: List.replicate (2 * level) ' '

/-- Items between brackets, each on a line of its own one level further in. -/
def block (opening closing : Char) (level : Nat) (items : List (List Char)) : List Char :=
  if items.isEmpty then [opening, closing]
  else
    opening :: lineBreak (level + 1) ++ (',' :: lineBreak (level + 1)).intercalate items ++
      lineBreak level ++ [closing]

mutual

/-- A value at a level of indentation. -/
def prettyChars (level : Nat) : Json → List Char
  | .null => ['n', 'u', 'l', 'l']
  | .bool true => ['t', 'r', 'u', 'e']
  | .bool false => ['f', 'a', 'l', 's', 'e']
  | .number n => n.text
  | .text s => quote s
  | .array items => block '[' ']' level (prettyItems (level + 1) items)
  | .object fields => block '{' '}' level (prettyFields (level + 1) fields)

/-- The items of an array at a level of indentation. -/
def prettyItems (level : Nat) : List Json → List (List Char)
  | [] => []
  | v :: more => prettyChars level v :: prettyItems level more

/-- The fields of an object at a level of indentation. -/
def prettyFields (level : Nat) : List (String × Json) → List (List Char)
  | [] => []
  | (key, v) :: more => (quote key ++ ':' :: ' ' :: prettyChars level v) :: prettyFields level more

end

/-- A value on one line, without blanks. -/
def compact (v : Json) : String :=
  String.ofList (compactChars v)

/-- A value with one item a line. -/
def pretty (v : Json) : String :=
  String.ofList (prettyChars 0 v)

end ShellQuery.Json
