import ShellQuery.Fields
/-!
# TOML values and tables

A document is a table of values. While it is read, each table remembers how it came about, because
that decides what may still be added to it: a table that only stands on the way to another may get a
header of its own, one that dotted keys made may get more dotted keys, and nothing may be added to
an inline value. `Node` is a document in the making, `Entries.define`, `Entries.openTable` and
`Entries.openElement` are the three ways to extend it, and each answers nothing where TOML forbids
the extension.
-/

namespace ShellQuery.Toml

/-- A TOML value. Numbers and dates keep the text they were written as; a number may be out of
range, which matters only to those who read it. -/
inductive Value
  | text (value : String)
  | bool (value : Bool)
  | number (spelling : String) (inRange : Bool)
  | dateTime (spelling : String)
  | array (items : List Value)
  | table (fields : List (String × Value))

mutual

/-- Whether all numbers in a value are in range. -/
def Value.isInRange : Value → Bool
  | .number _ inRange => inRange
  | .array items => itemsInRange items
  | .table fields => fieldsInRange fields
  | _ => true

/-- Whether all numbers in the items of an array are in range. -/
def itemsInRange : List Value → Bool
  | [] => true
  | v :: more => v.isInRange && itemsInRange more

/-- Whether all numbers in the fields of a table are in range. -/
def fieldsInRange : List (String × Value) → Bool
  | [] => true
  | (_, v) :: more => v.isInRange && fieldsInRange more

end

/-- How a table came about: on the way to another table, by a header of its own, or by a dotted
key. -/
inductive Origin
  | implied
  | headed
  | dotted
  deriving DecidableEq, Repr

/-- A document in the making: a finished value, a table, or the tables of repeated double-bracket
headers, the last of them first. -/
inductive Node
  | leaf (value : Value)
  | table (origin : Origin) (entries : List (String × Node))
  | elements (last : List (String × Node)) (before : List (List (String × Node)))

/-- The entries of a table in the making. -/
abbrev Entries := List (String × Node)

namespace Entries

/-- Sets `key` below the dotted keys `path`. -/
def define (key : String) (value : Value) : (path : List String) → Entries → Option Entries
  | [], entries =>
    match Fields.get? key entries with
    | some _ => none
    | none => some (entries ++ [(key, .leaf value)])
  | k :: path, entries =>
    match Fields.get? k entries with
    | none => (define key value path []).map fun below => entries ++ [(k, .table .dotted below)]
    | some (.table origin below) =>
      if origin = .headed ∨ (path = [] ∧ origin ≠ .dotted) then none
      else (define key value path below).map fun below => Fields.put k (.table origin below) entries
    | some (.elements last before) =>
      if path = [] then none
      else
        (define key value path last).map fun last => Fields.put k (.elements last before) entries
    | some (.leaf _) => none

/-- Changes the table at a path, where tables that are missing are made on the way. -/
def modify (change : Entries → Option Entries) : (path : List String) → Entries → Option Entries
  | [], entries => change entries
  | k :: path, entries =>
    match Fields.get? k entries with
    | none => (modify change path []).map fun below => entries ++ [(k, .table .implied below)]
    | some (.table origin below) =>
      (modify change path below).map fun below => Fields.put k (.table origin below) entries
    | some (.elements last before) =>
      (modify change path last).map fun last => Fields.put k (.elements last before) entries
    | some (.leaf _) => none

/-- Opens a table for its header. Only a table that is new or was implied may get one. -/
def openTable (key : String) (entries : Entries) : Option Entries :=
  match Fields.get? key entries with
  | none => some (entries ++ [(key, .table .headed [])])
  | some (.table .implied below) => some (Fields.put key (.table .headed below) entries)
  | some _ => none

/-- Opens one more table of an array for its double-bracket header. -/
def openElement (key : String) (entries : Entries) : Option Entries :=
  match Fields.get? key entries with
  | none => some (entries ++ [(key, .elements [] [])])
  | some (.elements last before) => some (Fields.put key (.elements [] (last :: before)) entries)
  | some _ => none

end Entries

mutual

/-- The value a node has become. -/
def Node.toValue : Node → Value
  | .leaf v => v
  | .table _ entries => .table (entriesToFields entries)
  | .elements last before =>
    .array ((.table (entriesToFields last) :: elementsToValues before).reverse)

/-- The fields that entries have become. -/
def entriesToFields : List (String × Node) → List (String × Value)
  | [] => []
  | (key, node) :: more => (key, node.toValue) :: entriesToFields more

/-- The tables that the elements of an array have become. -/
def elementsToValues : List (List (String × Node)) → List Value
  | [] => []
  | entries :: more => .table (entriesToFields entries) :: elementsToValues more

end

end ShellQuery.Toml
