import ShellQuery.Json.Quoted
/-!
# TOML strings

Strings in double quotes undo escapes, strings in single quotes do not; three quotes open a string
that may run over several lines. Control characters other than the tab are not allowed, and a
carriage return only before a line feed in a string of several lines.
-/

namespace ShellQuery.Toml

/-- The blanks inside a line. -/
def isTabOrSpace (c : Char) : Bool :=
  c == ' ' || c == '\t'

/-- The characters a string or a comment may hold as they are. -/
def isAllowed (c : Char) : Bool :=
  c == '\t' || (0x20 ≤ c.toNat && c.toNat != 0x7F)

/-- A line feed, perhaps behind a carriage return, at the front of a text. -/
def lineFeed? : List Char → Option (List Char)
  | '\n' :: r => some r
  | '\r' :: '\n' :: r => some r
  | _ => none

/-- The character with the number that hexadecimal digits write, unless it is a surrogate or too
large. -/
def hexChar? (digits : List Char) : Option Char :=
  match digits.mapM Json.hexValue? with
  | none => none
  | some values =>
    let n := values.foldl (fun n d => n * 16 + d) 0
    if h : n.isValidChar then some (Char.ofNatAux n h) else none

/-- The number of hexadecimal digits an escape letter asks for. -/
def hexWidth? : Char → Option Nat
  | 'x' => some 2
  | 'u' => some 4
  | 'U' => some 8
  | _ => none

/-- The character an escape letter stands for. -/
def unescape? : Char → Option Char
  | 'b' => some '\x08'
  | 't' => some '\t'
  | 'n' => some '\n'
  | 'f' => some '\x0c'
  | 'r' => some '\r'
  | 'e' => some '\x1b'
  | '"' => some '"'
  | '\\' => some '\\'
  | _ => none

/-- An escape, behind its backslash, and the text behind it. -/
def readEscape? : List Char → Option (Char × List Char)
  | [] => none
  | c :: r =>
    match hexWidth? c with
    | some width =>
      if (r.take width).length = width then
        (hexChar? (r.take width)).map fun d => (d, r.drop width)
      else none
    | none => (unescape? c).map fun d => (d, r)

/-- An escape takes at least the character behind its backslash. -/
theorem readEscape?_length {s r : List Char} {c : Char} (h : readEscape? s = some (c, r)) :
    r.length < s.length := by
  unfold readEscape? at h
  split at h
  · simp at h
  · simp only [List.length_cons]
    split at h
    · split at h
      · obtain ⟨d, _, h⟩ := Option.map_eq_some_iff.1 h
        simp only [Prod.mk.injEq] at h
        rw [← h.2, List.length_drop]
        omega
      · simp at h
    · obtain ⟨d, _, h⟩ := Option.map_eq_some_iff.1 h
      simp only [Prod.mk.injEq] at h
      rw [← h.2]; omega

/-- The content of a string in double quotes, behind the opening one, and the text behind the
closing one. -/
def readBasic? (s : List Char) : Option (List Char × List Char) :=
  match s with
  | [] => none
  | c :: r =>
    if c = '"' then some ([], r)
    else if c = '\\' then
      match _ : readEscape? r with
      | some (d, r') => (readBasic? r').map fun (content, rest) => (d :: content, rest)
      | none => none
    else if isAllowed c then (readBasic? r).map fun (content, rest) => (c :: content, rest)
    else none
termination_by s.length
decreasing_by
  · exact Nat.lt_succ_of_lt (readEscape?_length (by assumption))
  · exact Nat.lt_succ_self _

/-- The content of a string in single quotes, behind the opening one, and the text behind the
closing one. -/
def readLiteral? : List Char → Option (List Char × List Char)
  | [] => none
  | c :: r =>
    if c = '\'' then some ([], r)
    else if isAllowed c then (readLiteral? r).map fun (content, rest) => (c :: content, rest)
    else none

/-- The quotes at the front of a text. -/
def quoteRun (quote : Char) (s : List Char) : Nat :=
  (s.takeWhile (· == quote)).length

/-- The end of a string of several lines, at a run of quotes: three close it, and up to two before
them belong to it. -/
def closing? (quote : Char) (s : List Char) : Option (List Char × List Char) :=
  let run := quoteRun quote s
  if 3 ≤ run ∧ run ≤ 5 then some (List.replicate (run - 3) quote, s.drop run) else none

/-- Drops the line feed right behind the opening quotes. -/
def afterOpening (s : List Char) : List Char :=
  (lineFeed? s).getD s

/-- Whether a text starts with a line feed, perhaps behind blanks. -/
def startsWithLineEnd (s : List Char) : Bool :=
  (lineFeed? (s.dropWhile isTabOrSpace)).isSome

/-- Drops the blanks and line feeds at the front of a text. -/
def dropBlankLines : List Char → List Char
  | [] => []
  | c :: r =>
    if isTabOrSpace c || c == '\n' || (c == '\r' && r.head? == some '\n') then dropBlankLines r
    else c :: r

/-- Dropping blank lines makes no text longer. -/
theorem dropBlankLines_length_le (s : List Char) : (dropBlankLines s).length ≤ s.length := by
  induction s with
  | nil => exact Nat.le_refl _
  | cons c r ih =>
    simp only [dropBlankLines]
    split
    · exact Nat.le_succ_of_le ih
    · exact Nat.le_refl _

/-- The content of a string of several lines in double quotes. A backslash at the end of a line
drops the line feed and all blanks and line feeds behind it. -/
def readBasicLines? (s : List Char) : Option (List Char × List Char) :=
  match s with
  | [] => none
  | c :: r =>
    if c = '"' ∧ 3 ≤ quoteRun '"' s then closing? '"' s
    else if c = '\\' then
      if startsWithLineEnd r then readBasicLines? (dropBlankLines r)
      else
        match _ : readEscape? r with
        | some (d, r') => (readBasicLines? r').map fun (content, rest) => (d :: content, rest)
        | none => none
    else if isAllowed c || (lineFeed? s).isSome then
      (readBasicLines? r).map fun (content, rest) => (c :: content, rest)
    else none
termination_by s.length
decreasing_by
  · exact Nat.lt_succ_of_le (dropBlankLines_length_le _)
  · exact Nat.lt_succ_of_lt (readEscape?_length (by assumption))
  · exact Nat.lt_succ_self _

/-- The content of a string of several lines in single quotes. -/
def readLiteralLines? (s : List Char) : Option (List Char × List Char) :=
  match s with
  | [] => none
  | c :: r =>
    if c = '\'' ∧ 3 ≤ quoteRun '\'' s then closing? '\'' s
    else if isAllowed c || (lineFeed? s).isSome then
      (readLiteralLines? r).map fun (content, rest) => (c :: content, rest)
    else none

/-- A string of one line, from its opening quote on. -/
def readLine? : List Char → Option (List Char × List Char)
  | '"' :: r => readBasic? r
  | '\'' :: r => readLiteral? r
  | _ => none

/-- A string of any of the four kinds, from its opening quotes on. -/
def readString? : List Char → Option (List Char × List Char)
  | '"' :: '"' :: '"' :: r => readBasicLines? (afterOpening r)
  | '\'' :: '\'' :: '\'' :: r => readLiteralLines? (afterOpening r)
  | s => readLine? s

end ShellQuery.Toml
