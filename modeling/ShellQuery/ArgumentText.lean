import ShellQuery.Dialect.Scan
import ShellQuery.Json.Reader
import ShellQuery.Value.Tagged
/-!
# The arguments of a call

The text between the parentheses of a call is a list of values in the shell dialect.
`ArgumentText.read` reads it, by way of strict JSON, or says what is wrong with it.
`ArgumentText.values` never fails: a text that cannot be read counts as one argument, the trimmed
text itself, which is not mistaken for a value because no command takes it for one.
-/

namespace ShellQuery.ArgumentText

/-- Why a text is no list of arguments. -/
inductive Fault
  | unbalanced (text : String)
  | notJson (problem : Json.Problem)
  | literal (fault : TagFault)

/-- The message for a fault. -/
def Fault.message : Fault → String
  | .unbalanced text =>
    "Invalid arguments: unbalanced brackets or quotes in '" ++ text ++ "'"
  | .notJson problem => "Invalid arguments: " ++ problem.wording
  | .literal ⟨tag, fault⟩ => "Invalid " ++ tag.key ++ " literal: " ++ fault.wording

/-- The values of an array; there is one around every list of arguments. -/
def itemsOf : Json → List Json
  | .array items => items
  | v => [v]

/-- The arguments a text lists. -/
def read (text : String) : Except Fault (List Value) :=
  let s := text.toList
  if (Text.trim s).isEmpty then .ok []
  else if !Dialect.isBalanced s then .error (.unbalanced (Text.trimmed text))
  else
    match Json.read ('[' :: Dialect.normalize s ++ [']']) with
    | .error problem => .error (.notJson problem)
    | .ok v => (Value.ofJsonItems (itemsOf v)).mapError .literal

/-- The arguments a text lists, or the trimmed text if it cannot be read. -/
def values (text : String) : List Value :=
  match read text with
  | .ok vs => vs
  | .error _ => [.text (Text.trimmed text)]

end ShellQuery.ArgumentText
