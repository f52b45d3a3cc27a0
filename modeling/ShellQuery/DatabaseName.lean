/-!
# Database names

The names a server accepts for a database: at least one byte, at most 64, and none of the
characters that would clash with paths and namespaces. In particular a valid name holds no dot.
-/

namespace ShellQuery.DatabaseName

/-- The length limit, in bytes. -/
def maxBytes : Nat := 64

/-- The characters no database name holds. -/
def forbidden : List Char :=
  ['/', '\\', '.', ' ', '"', '$', '*', '<', '>', ':', '|', '?', '\x00']

/-- Whether a server accepts the name. -/
def isValid (name : String) : Bool :=
  name != "" && name.utf8ByteSize ≤ maxBytes && name.toList.all (!forbidden.contains ·)

end ShellQuery.DatabaseName
