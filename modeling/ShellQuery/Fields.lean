/-!
# Ordered fields

Objects keep their fields in a list of pairs. `put` sets a field: a new key goes to the end, a known
one keeps its place and takes the new value. `merge` puts a list of pairs one after the other, so of
a repeated key the last value stands at the place of the first.
-/

namespace ShellQuery.Fields

variable {α : Type}

/-- Sets a field, at its place if there is one and at the end otherwise. -/
def put (key : String) (value : α) : List (String × α) → List (String × α)
  | [] => [(key, value)]
  | (k, v) :: more => if k = key then (key, value) :: more else (k, v) :: put key value more

/-- The fields that a list of pairs sets, one after the other. -/
def merge (pairs : List (String × α)) : List (String × α) :=
  pairs.foldl (fun fields (key, value) => put key value fields) []

/-- The value of the first field with a key. -/
def get? (key : String) : List (String × α) → Option α
  | [] => none
  | (k, v) :: more => if k = key then some v else get? key more

end ShellQuery.Fields
