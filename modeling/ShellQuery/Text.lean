/-!
# Blanks, control characters and trimming

The two character classes the shell dialect is sensitive to, and the trimming built on the first.
Blank means the Unicode property White_Space everywhere in the library, except in strict JSON text,
which knows four blanks only (`ShellQuery.Json.isSpace`). Trimming works on lists of characters;
`Text.trimmed` is its form on strings.
-/

namespace ShellQuery.Text

/-- The Unicode property White_Space. -/
def isBlank (c : Char) : Bool :=
  let n := c.toNat
  (0x09 ≤ n && n ≤ 0x0D) || n == 0x20 || n == 0x85 || n == 0xA0 || n == 0x1680 ||
    (0x2000 ≤ n && n ≤ 0x200A) || n == 0x2028 || n == 0x2029 || n == 0x202F || n == 0x205F ||
    n == 0x3000

/-- The Unicode general category Cc: U+0000 to U+001F and U+007F to U+009F. -/
def isControl (c : Char) : Bool :=
  c.toNat < 0x20 || (0x7F ≤ c.toNat && c.toNat ≤ 0x9F)

/-- Drops the blanks at the front. -/
def trimStart (s : List Char) : List Char :=
  s.dropWhile isBlank

/-- Drops the characters of a class from the end. -/
def dropWhileEnd (p : Char → Bool) (s : List Char) : List Char :=
  (s.reverse.dropWhile p).reverse

/-- Drops the blanks at the end. -/
def trimEnd (s : List Char) : List Char :=
  dropWhileEnd isBlank s

/-- Drops the blanks at both ends. -/
def trim (s : List Char) : List Char :=
  trimEnd (trimStart s)

/-- A string without the blanks at its ends. -/
def trimmed (s : String) : String :=
  String.ofList (trim s.toList)

/-- The first maximal run of characters that are not blank, if there is one. -/
def firstWord? (s : List Char) : Option (List Char) :=
  match (trimStart s).takeWhile (!isBlank ·) with
  | [] => none
  | word => some word

/-- The bytes a text takes in UTF-8. -/
def byteCount (s : List Char) : Nat :=
  (String.ofList s).utf8ByteSize

/-! ## Small facts -/

/-- Dropping characters makes no text longer. -/
theorem length_dropWhile_le (p : Char → Bool) (s : List Char) :
    (s.dropWhile p).length ≤ s.length :=
  (List.dropWhile_sublist p).length_le

end ShellQuery.Text
