import ShellQuery.Toml.Quoted
import ShellQuery.Toml.Scalar
/-!
# Reading TOML documents

`Toml.read?` reads a document of version 1.1. It goes over the text line by line, a line being a
table header, a key with its value, or nothing; only values reach over line ends. Inside arrays and
inline tables blanks, line ends and comments may stand wherever blanks may, except inside a key.
What is wrong with a malformed document is not told. Arrays and inline tables are read by one reader
for each depth, the depth being limited, and so is the number of parts of a key.
-/

namespace ShellQuery.Toml

/-! ## Blanks, comments and line ends -/

/-- Drops the blanks at the front. -/
def skipBlanks (s : List Char) : List Char :=
  s.dropWhile isTabOrSpace

/-- Drops blanks, line ends and comments; nothing if there is a control character among them. -/
def skipLines? (inComment : Bool) : List Char → Option (List Char)
  | [] => some []
  | c :: r =>
    if c = '\n' then skipLines? false r
    else if c = '\r' then if r.head? = some '\n' then skipLines? false r else none
    else if inComment then if isAllowed c then skipLines? true r else none
    else if isTabOrSpace c then skipLines? false r
    else if c = '#' then skipLines? true r
    else some (c :: r)

/-- The text behind the end of a line, on which nothing but blanks and a comment may be left. -/
def endLine? (inComment : Bool) : List Char → Option (List Char)
  | [] => some []
  | c :: r =>
    if c = '\n' then some r
    else if c = '\r' then if r.head? = some '\n' then some r.tail else none
    else if inComment then if isAllowed c then endLine? true r else none
    else if isTabOrSpace c then endLine? false r
    else if c = '#' then endLine? true r
    else none

/-! ## Keys -/

/-- The characters of a bare key. -/
def isBareChar (c : Char) : Bool :=
  c.isAlphanum || c == '_' || c == '-'

/-- One part of a key, bare or quoted on one line. -/
def readKeyPart? (s : List Char) : Option (String × List Char) :=
  match s with
  | '"' :: '"' :: '"' :: _ => none
  | '\'' :: '\'' :: '\'' :: _ => none
  | _ =>
    match s.takeWhile isBareChar with
    | [] => (readLine? s).map fun (content, r) => (String.ofList content, r)
    | bare => some (String.ofList bare, s.dropWhile isBareChar)

/-- The greatest depth of arrays and inline tables, and the greatest number of parts of a key. -/
def maxDepth : Nat := 80

/-- The parts of a key, with dots and perhaps blanks between them. The last part comes separately.
-/
def readKeyParts? (s : List Char) : Option ((List String × String) × List Char) :=
  match readKeyPart? (skipBlanks s) with
  | none => none
  | some (part, r) =>
    match skipBlanks r with
    | '.' :: r' =>
      if r'.length < s.length then
        (readKeyParts? r').map fun ((path, key), rest) => ((part :: path, key), rest)
      else none
    | r' => some (([], part), r')
termination_by s.length

/-- A key below a path of keys. -/
def readKey? (s : List Char) : Option ((List String × String) × List Char) :=
  match readKeyParts? s with
  | some ((path, key), r) => if path.length < maxDepth then some ((path, key), r) else none
  | none => none

/-- A key and its equals sign, with what `skip` drops on both sides of the sign. -/
def readKeyMark? (skip : List Char → Option (List Char)) (s : List Char) :
    Option ((List String × String) × List Char) :=
  match readKey? s with
  | none => none
  | some (key, r) =>
    match skip r with
    | some ('=' :: r) => (skip r).map fun r => (key, r)
    | _ => none

/-! ## Values -/

/-- A way to read a value off the front of a text. -/
abbrev ValueReader := List Char → Option (Value × List Char)

/-- The items of an array up to its closing bracket. A comma may follow the last of them. -/
def readItems? (item : ValueReader) (s : List Char) : Option (List Value × List Char) :=
  match skipLines? false s with
  | none => none
  | some (']' :: r) => some ([], r)
  | some t =>
    match item t with
    | none => none
    | some (v, r) =>
      match skipLines? false r with
      | some (']' :: r) => some ([v], r)
      | some (',' :: r) =>
        if r.length < s.length then (readItems? item r).map fun (vs, rest) => (v :: vs, rest)
        else none
      | _ => none
termination_by s.length

/-- The fields of an inline table up to its closing brace. A comma may follow the last of them. -/
def readFields? (item : ValueReader) (entries : Entries) (s : List Char) :
    Option (Entries × List Char) :=
  match skipLines? false s with
  | none => none
  | some ('}' :: r) => some (entries, r)
  | some t =>
    match readKeyMark? (skipLines? false) t with
    | none => none
    | some ((path, key), r) =>
      match item r with
      | none => none
      | some (v, r) =>
        match Entries.define key v path entries with
        | none => none
        | some entries =>
          match skipLines? false r with
          | some ('}' :: r) => some (entries, r)
          | some (',' :: r) => if r.length < s.length then readFields? item entries r else none
          | _ => none
termination_by s.length

/-- A value with at most so many arrays and inline tables inside each other. -/
def readValue? : (depth : Nat) → ValueReader
  | _, [] => none
  | depth, c :: r =>
    if c = '"' ∨ c = '\'' then
      (readString? (c :: r)).map fun (content, rest) => (.text (String.ofList content), rest)
    else if c = '[' then
      match depth with
      | 0 => none
      | depth + 1 => (readItems? (readValue? depth) r).map fun (vs, rest) => (.array vs, rest)
    else if c = '{' then
      match depth with
      | 0 => none
      | depth + 1 =>
        (readFields? (readValue? depth) [] r).map fun (entries, rest) =>
          (.table (entriesToFields entries), rest)
    else readScalar? (c :: r)

/-! ## Documents -/

/-- A document that has been read so far: its tables, and the path of the one that is open. -/
structure Draft where
  root : Entries
  path : List String

/-- A header with single brackets, behind the first of them. -/
def readHeader? (draft : Draft) (s : List Char) : Option (Draft × List Char) :=
  match readKey? s with
  | some ((path, key), ']' :: r) =>
    match Entries.modify (Entries.openTable key) path draft.root, endLine? false r with
    | some root, some rest => some (⟨root, path ++ [key]⟩, rest)
    | _, _ => none
  | _ => none

/-- A header with double brackets, behind the second of them. -/
def readElementHeader? (draft : Draft) (s : List Char) : Option (Draft × List Char) :=
  match readKey? s with
  | some ((path, key), ']' :: ']' :: r) =>
    match Entries.modify (Entries.openElement key) path draft.root, endLine? false r with
    | some root, some rest => some (⟨root, path ++ [key]⟩, rest)
    | _, _ => none
  | _ => none

/-- A key with its value. -/
def readField? (draft : Draft) (s : List Char) : Option (Draft × List Char) :=
  match readKeyMark? (fun s => some (skipBlanks s)) s with
  | none => none
  | some ((path, key), r) =>
    match readValue? maxDepth r with
    | none => none
    | some (v, r) =>
      match Entries.modify (Entries.define key v path) draft.path draft.root, endLine? false r with
      | some root, some rest => some (⟨root, draft.path⟩, rest)
      | _, _ => none

/-- A line that is not blank. -/
def readLineOf? (draft : Draft) : List Char → Option (Draft × List Char)
  | '[' :: '[' :: r => readElementHeader? draft r
  | '[' :: r => readHeader? draft r
  | s => readField? draft s

/-- The lines of a document. -/
def readLines? (draft : Draft) (s : List Char) : Option Draft :=
  match skipLines? false s with
  | none => none
  | some [] => some draft
  | some t =>
    match readLineOf? draft t with
    | none => none
    | some (draft, r) => if r.length < s.length then readLines? draft r else none
termination_by s.length

/-- The fields of a document. A byte order mark at its front is skipped. -/
def read? (text : String) : Option (List (String × Value)) :=
  let s :=
    match text.toList with
    | '\ufeff' :: r => r
    | s => s
  (readLines? ⟨[], []⟩ s).map fun draft => entriesToFields draft.root

end ShellQuery.Toml
