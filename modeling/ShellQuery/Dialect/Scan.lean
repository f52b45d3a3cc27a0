import ShellQuery.Dialect.Constructor
/-!
# From the shell dialect to strict JSON

The shell writes arguments in a relaxed JSON: strings in either quotes, bare keys, trailing commas
and constructor calls. One left-to-right pass turns such a text into strict JSON. The pass never
fails; what it cannot make sense of is copied, and a strict reader refuses it later.

The pass is a sequence of steps. A step looks at the mode it is in (outside of strings, or inside
one kind of string) and at the rest of the text, and says what it writes, how the bracket depth
changes, and with which mode and rest the next step goes on. Commas, keys and constructor calls
are seen outside of strings only. `steps` is the run over a text, `normalize` what it writes, and
`isBalanced` says whether every bracket and every string was closed.
-/

namespace ShellQuery.Dialect

open Text

/-- Where the pass stands: outside of strings, or in a string with double or single quotes. -/
inductive Mode
  | outside
  | doubleQuoted
  | singleQuoted
  deriving DecidableEq, Repr

/-- What a step does to the bracket depth. -/
inductive Nesting
  | opens
  | closes
  | keeps
  deriving DecidableEq, Repr

/-- One step: what it writes, its effect on the depth, and the mode and text it goes on with. -/
structure Step where
  written : List Char
  nesting : Nesting
  mode : Mode
  rest : List Char

/-! ## Keys and commas -/

/-- The characters a bare key starts with. -/
def isKeyStart (c : Char) : Bool :=
  c.isAlpha || c == '_' || c == '$'

/-- The characters a bare key goes on with. -/
def isKeyChar (c : Char) : Bool :=
  c.isAlphanum || c == '_' || c == '$'

/-- A bare key and its colon at the front of a text, as the key and the text behind the colon. -/
def bareKey? (s : List Char) : Option (List Char × List Char) :=
  match s with
  | [] => none
  | c :: _ =>
    if isKeyStart c then
      match trimStart (s.dropWhile isKeyChar) with
      | ':' :: r => some (s.takeWhile isKeyChar, r)
      | _ => none
    else none

/-- Skips blanks and quotes the bare key behind them, if there is one. -/
def quoteKey (s : List Char) : List Char × List Char :=
  let s := trimStart s
  match bareKey? s with
  | some (key, r) => ('"' :: key ++ ['"', ':'], r)
  | none => ([], s)

/-- Whether a text is at its end or before a closing bracket. -/
def atClose : List Char → Bool
  | [] => true
  | c :: _ => c == '}' || c == ']'

/-! ## Strings -/

/-- The four hexadecimal digits of a number below 65536, in lower case. -/
def hex4 (n : Nat) : List Char :=
  let digits := Nat.toDigits 16 n
  List.replicate (4 - digits.length) '0' ++ digits

/-- A character of a string's content: itself, or its escape if it is a control character. -/
def contentChar (c : Char) : List Char :=
  if c == '\t' then ['\\', 't']
  else if c == '\n' then ['\\', 'n']
  else if c == '\r' then ['\\', 'r']
  else if isControl c then '\\' :: 'u' :: hex4 c.toNat
  else [c]

/-- The character behind a backslash, with its backslash; a control character takes its own escape
instead. -/
def escapedChar (c : Char) : List Char :=
  if isControl c then contentChar c else ['\\', c]

/-! ## The pass -/

/-- A step outside of strings. -/
def outsideStep (c : Char) (s : List Char) : Step :=
  if c == '"' then ⟨['"'], .keeps, .doubleQuoted, s⟩
  else if c == '\'' then ⟨['"'], .keeps, .singleQuoted, s⟩
  else if c == '{' then ⟨'{' :: (quoteKey s).1, .opens, .outside, (quoteKey s).2⟩
  else if c == '[' then ⟨['['], .opens, .outside, s⟩
  else if c == '}' || c == ']' then ⟨[c], .closes, .outside, s⟩
  else if c == ',' then
    if atClose (trimStart s) then ⟨[], .keeps, .outside, trimStart s⟩
    else ⟨',' :: (quoteKey s).1, .keeps, .outside, (quoteKey s).2⟩
  else
    match constructor? (c :: s) with
    | some (literal, r) => ⟨literal.spelling, .keeps, .outside, r⟩
    | none => ⟨[c], .keeps, .outside, s⟩

/-- A step in a string with double quotes. -/
def doubleQuotedStep (c : Char) (s : List Char) : Step :=
  if c == '\\' then
    match s with
    | [] => ⟨['\\'], .keeps, .doubleQuoted, []⟩
    | e :: r => ⟨escapedChar e, .keeps, .doubleQuoted, r⟩
  else if c == '"' then ⟨['"'], .keeps, .outside, s⟩
  else ⟨contentChar c, .keeps, .doubleQuoted, s⟩

/-- A step in a string with single quotes, which becomes one with double quotes. -/
def singleQuotedStep (c : Char) (s : List Char) : Step :=
  if c == '\\' then
    match s with
    | [] => ⟨['\\'], .keeps, .singleQuoted, []⟩
    | e :: r =>
      ⟨if e == '\'' then ['\''] else escapedChar e, .keeps, .singleQuoted, r⟩
  else if c == '\'' then ⟨['"'], .keeps, .outside, s⟩
  else if c == '"' then ⟨['\\', '"'], .keeps, .singleQuoted, s⟩
  else ⟨contentChar c, .keeps, .singleQuoted, s⟩

/-- The step at a character, with the text behind it in sight. -/
def step (mode : Mode) (c : Char) (s : List Char) : Step :=
  match mode with
  | .outside => outsideStep c s
  | .doubleQuoted => doubleQuotedStep c s
  | .singleQuoted => singleQuotedStep c s

/-! ## What a step leaves -/

/-- What a step can leave of the text behind its character: all of it, what stands behind an escape,
behind blanks, behind a key, or behind a constructor call. -/
inductive Remainder (c : Char) (s : List Char) : List Char → Prop
  | all : Remainder c s s
  | escape {e : Char} {r : List Char} : s = e :: r → Remainder c s r
  | trimmed : Remainder c s (trimStart s)
  | key : Remainder c s (quoteKey s).2
  | call {l : Literal} {r : List Char} : constructor? (c :: s) = some (l, r) → Remainder c s r

section
variable {key s r : List Char}

/-- A bare key takes at least its colon. -/
theorem bareKey?_length (h : bareKey? s = some (key, r)) : r.length < s.length := by
  cases s with
  | nil => cases h
  | cons c t =>
    have hkey := length_dropWhile_le isKeyChar (c :: t)
    have hblanks := length_dropWhile_le isBlank ((c :: t).dropWhile isKeyChar)
    simp only [bareKey?, Option.ite_none_right_eq_some] at h
    obtain ⟨-, h⟩ := h
    split at h
    case h_1 u hcolon =>
      cases h
      rw [trimStart] at hcolon
      rw [hcolon] at hblanks
      exact Nat.le_trans hblanks hkey
    case h_2 => cases h

/-- Looking for a key makes no text longer. -/
theorem quoteKey_length_le (s : List Char) : (quoteKey s).2.length ≤ s.length := by
  have hblanks : (trimStart s).length ≤ s.length := length_dropWhile_le isBlank s
  fun_cases quoteKey s with
  | case1 _ key r hkey => exact Nat.le_trans (Nat.le_of_lt (bareKey?_length hkey)) hblanks
  | case2 => exact hblanks

/-- All that a step outside of strings can leave. -/
theorem outsideStep_remainder (c : Char) (s : List Char) :
    Remainder c s (outsideStep c s).rest := by
  -- A brace, a comma that is dropped, one that is not, and a call; all else leaves what is there.
  fun_cases outsideStep c s with
  | case3 => exact .key
  | case6 => exact .trimmed
  | case7 => exact .key
  | case8 _ _ _ _ _ _ l r hcall => exact .call hcall
  | _ => exact .all

/-- All that a step in a string with double quotes can leave. -/
theorem doubleQuotedStep_remainder (c : Char) (s : List Char) :
    Remainder c s (doubleQuotedStep c s).rest := by
  fun_cases doubleQuotedStep c s with
  | case2 => exact .escape rfl
  | _ => exact .all

/-- All that a step in a string with single quotes can leave. -/
theorem singleQuotedStep_remainder (c : Char) (s : List Char) :
    Remainder c s (singleQuotedStep c s).rest := by
  fun_cases singleQuotedStep c s with
  | case2 => exact .escape rfl
  | _ => exact .all

/-- All that a step can leave. -/
theorem step_remainder (mode : Mode) (c : Char) (s : List Char) :
    Remainder c s (step mode c s).rest := by
  cases mode with
  | outside => exact outsideStep_remainder c s
  | doubleQuoted => exact doubleQuotedStep_remainder c s
  | singleQuoted => exact singleQuotedStep_remainder c s

/-- Every step reads the character it looks at. -/
theorem step_rest_length_le (mode : Mode) (c : Char) (s : List Char) :
    (step mode c s).rest.length ≤ s.length := by
  generalize hr : (step mode c s).rest = r
  cases hr ▸ step_remainder mode c s with
  | all => exact Nat.le_refl _
  | escape hs => exact hs ▸ Nat.le_succ _
  | trimmed => exact length_dropWhile_le isBlank s
  | key => exact quoteKey_length_le s
  | call h => exact Nat.le_of_lt_succ (constructor?_length h)

end

/-- The steps of the pass over a text, from a given mode on. -/
def steps (mode : Mode) (s : List Char) : List Step :=
  match s with
  | [] => []
  | c :: r => step mode c r :: steps (step mode c r).mode (step mode c r).rest
termination_by s.length
decreasing_by exact Nat.lt_succ_of_le (step_rest_length_le mode c r)

/-- Whether a run ends outside of strings at depth zero, having never gone below it. -/
def endsBalanced (mode : Mode) (depth : Nat) : List Step → Bool
  | [] => mode == .outside && depth == 0
  | s :: more =>
    match s.nesting, depth with
    | .opens, d => endsBalanced s.mode (d + 1) more
    | .closes, 0 => false
    | .closes, d + 1 => endsBalanced s.mode d more
    | .keeps, d => endsBalanced s.mode d more

/-- The strict JSON a text of the dialect stands for. -/
def normalize (s : List Char) : List Char :=
  (steps .outside s).flatMap Step.written

/-- Whether a text closes every bracket and string it opens, and no bracket it did not open. -/
def isBalanced (s : List Char) : Bool :=
  endsBalanced .outside 0 (steps .outside s)

end ShellQuery.Dialect
