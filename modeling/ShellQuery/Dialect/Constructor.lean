import ShellQuery.Text
import ShellQuery.Decimal
/-!
# Constructor calls

The shell writes typed values as calls: `ObjectId("…")`, `new Date('…')`, `NumberLong(42)`.
`constructor?` recognises such a call at the front of a text and returns the literal it denotes
with the text behind it. The grammar is

    [new blank+] Name ( blank* argument blank* )

where the argument of an identifier or an instant is a quoted run without quotes, backslashes and
control characters, and the argument of a number is a numeral, bare or in matching quotes. No name
is the beginning of another followed by a parenthesis, so at most one row of the table applies.
`Literal.spelling` is the strict JSON that stands for a literal.
-/

namespace ShellQuery.Dialect

open Text Decimal

/-- What a constructor call denotes. Only the range of `int32` is checked here: the text of the
others is judged when the value is made. -/
inductive Literal
  | identifier (text : List Char)
  | instant (text : List Char)
  | int64 (numeral : Numeral)
  | int32 (value : Int)

/-- A one-field object that marks its text with a tag, in strict JSON. -/
def tagged (tag : String) (text : List Char) : List Char :=
  '{' :: '"' :: tag.toList ++ '"' :: ':' :: '"' :: text ++ ['"', '}']

/-- The strict JSON that stands for a literal. -/
def Literal.spelling : Literal → List Char
  | .identifier text => tagged "$oid" text
  | .instant text => tagged "$date" text
  | .int64 numeral => tagged "$numberLong" numeral.spelling
  | .int32 value => ofInt value

/-- Single and double quotes. -/
def isQuote (c : Char) : Bool :=
  c == '"' || c == '\''

/-- The characters a quoted argument is made of: those that need no escape in strict JSON and do
not end the argument. -/
def isPlain (c : Char) : Bool :=
  !(isQuote c || c == '\\' || isControl c)

/-- A quoted argument and the text behind it. -/
def quoted? : List Char → Option (List Char × List Char)
  | [] => none
  | q :: s =>
    match s.dropWhile isPlain with
    | c :: r => if isQuote q ∧ c = q then some (s.takeWhile isPlain, r) else none
    | [] => none

/-- A numeral, bare or in matching quotes, and the text behind it. -/
def integer? : List Char → Option (Numeral × List Char)
  | [] => none
  | q :: s =>
    if isQuote q then
      match Numeral.read? s with
      | some (n, c :: r) => if c = q then some (n, r) else none
      | _ => none
    else Numeral.read? (q :: s)

/-- Whether an integer fits into 32 bits. -/
def fitsInt32 (n : Int) : Bool :=
  -0x80000000 ≤ n && n < 0x80000000

/-- The four forms of constructors. -/
inductive Form
  | identifier
  | instant
  | int64
  | int32

/-- The argument of a constructor, as the literal it makes, and the text behind it. -/
def Form.argument? (form : Form) (s : List Char) : Option (Literal × List Char) :=
  match form with
  | .identifier => (quoted? s).map fun (text, r) => (.identifier text, r)
  | .instant => (quoted? s).map fun (text, r) => (.instant text, r)
  | .int64 => (integer? s).map fun (n, r) => (.int64 n, r)
  | .int32 =>
    (integer? s).bind fun (n, r) => if fitsInt32 n.toInt then some (.int32 n.toInt, r) else none

/-- The constructors by name. -/
def constructors : List (String × Form) :=
  [("ObjectId", .identifier), ("ObjectID", .identifier), ("ISODate", .instant),
    ("Date", .instant), ("NumberLong", .int64), ("NumberInt", .int32)]

/-- Drops the word `new` and the blanks behind it; without a blank the word is no keyword. -/
def afterNew (s : List Char) : List Char :=
  match "new".toList.isPrefixOf? s with
  | some (c :: r) => if isBlank c then trimStart r else s
  | _ => s

/-- The call of one constructor, from its name to its closing parenthesis. -/
def call? (name : String) (form : Form) (s : List Char) : Option (Literal × List Char) :=
  match name.toList.isPrefixOf? s with
  | some ('(' :: r) =>
    match form.argument? (trimStart r) with
    | some (literal, r) =>
      match trimStart r with
      | ')' :: r => some (literal, r)
      | _ => none
    | none => none
  | _ => none

/-- The constructor call at the front of a text, as the literal it denotes, and the text behind
it. -/
def constructor? (s : List Char) : Option (Literal × List Char) :=
  constructors.findSome? fun (name, form) => call? name form (afterNew s)

/-! ## What is read gets shorter -/

/-- A text is as long as its prefix and what stands behind that. -/
theorem length_of_isPrefixOf? {w s r : List Char} (h : w.isPrefixOf? s = some r) :
    s.length = w.length + r.length := by
  induction w generalizing s with
  | nil =>
    have hr : s = r := Option.some.inj h
    simp [hr]
  | cons c w ih =>
    cases s with
    | nil => cases h
    | cons d s =>
      have hstep : (if c == d then w.isPrefixOf? s else none) = some r := h
      split at hstep
      · have hlength := ih hstep
        simp only [List.length_cons]
        omega
      · cases hstep

/-- Looking behind a `new` makes no text longer. -/
theorem afterNew_length_le (s : List Char) : (afterNew s).length ≤ s.length := by
  unfold afterNew
  split
  · rename_i c r h
    have := length_of_isPrefixOf? h
    split
    · have := length_dropWhile_le isBlank r
      simp [trimStart] at *
      omega
    · exact Nat.le_refl _
  · exact Nat.le_refl _

/-- Reading a numeral makes no text longer. -/
theorem numeral_read?_length {s r : List Char} {n : Numeral} (h : Numeral.read? s = some (n, r)) :
    r.length ≤ s.length := by
  have hsign : (Numeral.splitSign s).2.length ≤ s.length := by
    unfold Numeral.splitSign; split <;> simp
  unfold Numeral.read? at h
  simp only at h
  split at h
  · simp at h
  · simp only [Option.some.injEq, Prod.mk.injEq] at h
    rw [← h.2]
    exact Nat.le_trans (length_dropWhile_le _ _) hsign

/-- Reading a quoted argument makes no text longer. -/
theorem quoted?_length {s t r : List Char} (h : quoted? s = some (t, r)) : r.length ≤ s.length := by
  unfold quoted? at h
  split at h
  · simp at h
  · rename_i q s
    split at h
    · rename_i c r' hr
      split at h
      · have := length_dropWhile_le isPlain s
        simp_all
        omega
      · simp at h
    · simp at h

/-- An integer argument is a numeral between two of the same quotes, or a bare one. -/
theorem integer?_cases {s r : List Char} {n : Numeral} (h : integer? s = some (n, r)) :
    (∃ q t, s = q :: t ∧ isQuote q = true ∧ Numeral.read? t = some (n, q :: r)) ∨
      Numeral.read? s = some (n, r) := by
  revert h
  fun_cases integer? s with
  | case2 t _ q _ hread hquote =>
    rintro ⟨⟩
    exact .inl ⟨q, t, rfl, hquote, hread⟩
  | case5 => exact .inr
  | _ => exact nofun

/-- Reading an integer argument makes no text longer. -/
theorem integer?_length {s r : List Char} {n : Numeral} (h : integer? s = some (n, r)) :
    r.length ≤ s.length := by
  obtain ⟨q, t, rfl, -, hread⟩ | hread := integer?_cases h
  · exact Nat.le_succ_of_le (Nat.le_of_succ_le (numeral_read?_length hread))
  · exact numeral_read?_length hread

/-- Reading an argument of any form makes no text longer. -/
theorem argument?_length {form : Form} {s r : List Char} {l : Literal}
    (h : form.argument? s = some (l, r)) : r.length ≤ s.length := by
  cases form <;>
    simp only [Form.argument?, Option.map_eq_some_iff, Option.bind_eq_some_iff] at h
  case int32 =>
    obtain ⟨p, hp, h⟩ := h
    split at h
    · simp only [Option.some.injEq, Prod.mk.injEq] at h
      exact h.2 ▸ integer?_length hp
    · simp at h
  case int64 =>
    obtain ⟨p, hp, h⟩ := h
    simp only [Prod.mk.injEq] at h
    exact h.2 ▸ integer?_length hp
  all_goals
    obtain ⟨p, hp, h⟩ := h
    simp only [Prod.mk.injEq] at h
    exact h.2 ▸ quoted?_length hp

/-- A call takes at least the characters of its name. -/
theorem call?_length {name : String} {form : Form} {s r : List Char} {l : Literal}
    (h : call? name form s = some (l, r)) : r.length < s.length := by
  unfold call? at h
  split at h
  · rename_i r₁ hname
    split at h
    · rename_i l' r₂ harg
      split at h
      · rename_i r₃ hclose
        have h₁ := length_of_isPrefixOf? hname
        have h₂ := length_dropWhile_le isBlank r₁
        have h₃ := argument?_length harg
        have h₄ := length_dropWhile_le isBlank r₂
        simp_all [trimStart]
        omega
      · simp at h
    · simp at h
  · simp at h

/-- A recognised call is not empty. -/
theorem constructor?_length {s r : List Char} {l : Literal} (h : constructor? s = some (l, r)) :
    r.length < s.length := by
  unfold constructor? at h
  obtain ⟨_, _, h⟩ := List.exists_of_findSome?_eq_some h
  exact Nat.lt_of_lt_of_le (call?_length h) (afterNew_length_le s)

end ShellQuery.Dialect
