import ShellQuery.Json.Fault
/-!
# Reading the content of JSON strings

`readString` reads the content of a string up to its closing quote and undoes its escapes. A
character beyond U+FFFF may be escaped as a pair of surrogates; a surrogate alone is refused, as are
raw characters below U+0020.
-/

namespace ShellQuery.Json

open Text

/-- The value of a hexadecimal digit of either case. -/
def hexValue? (c : Char) : Option Nat :=
  if c.isDigit then some (c.toNat - '0'.toNat)
  else if 'a' ≤ c ∧ c ≤ 'f' then some (c.toNat - 'a'.toNat + 10)
  else if 'A' ≤ c ∧ c ≤ 'F' then some (c.toNat - 'A'.toNat + 10)
  else none

/-- Four hexadecimal digits. Four bytes are read in any case, if there are as many. -/
def readHex4 (s : List Char) : Except Fault (Nat × List Char) :=
  let refused : Except Fault (Nat × List Char) :=
    if byteCount s < 4 then .error ⟨.endInString, [], 0⟩ else .error ⟨.badEscape, s, 4⟩
  match s with
  | a :: b :: c :: d :: r =>
    match hexValue? a, hexValue? b, hexValue? c, hexValue? d with
    | some a, some b, some c, some d => .ok (((a * 16 + b) * 16 + c) * 16 + d, r)
    | _, _, _, _ => refused
  | _ => refused

/-- A surrogate that opens a pair. -/
def isLeadingSurrogate (n : Nat) : Bool :=
  0xD800 ≤ n && n ≤ 0xDBFF

/-- A surrogate that closes a pair. -/
def isTrailingSurrogate (n : Nat) : Bool :=
  0xDC00 ≤ n && n ≤ 0xDFFF

/-- The character a pair of surrogates stands for. -/
def ofSurrogates (leading trailing : Nat) : Char :=
  Char.ofNat (0x10000 + (leading - 0xD800) * 0x400 + (trailing - 0xDC00))

/-- The second half of a surrogate pair, from its backslash on. -/
def readTrailing (leading : Nat) (s : List Char) : Except Fault (Char × List Char) :=
  match s with
  | '\\' :: 'u' :: r =>
    match readHex4 r with
    | .error f => .error f
    | .ok (n, r) =>
      if isTrailingSurrogate n then .ok (ofSurrogates leading n, r)
      else .error ⟨.loneSurrogate, r, 0⟩
  | '\\' :: c :: r => .error ⟨.brokenSurrogatePair, c :: r, 1⟩
  | ['\\'] => .error ⟨.endInString, [], 0⟩
  | c :: r => .error ⟨.brokenSurrogatePair, c :: r, 1⟩
  | [] => .error ⟨.endInString, [], 0⟩

/-- The numbered escape, behind its `u`. -/
def readUnicode (s : List Char) : Except Fault (Char × List Char) :=
  match readHex4 s with
  | .error f => .error f
  | .ok (n, r) =>
    if isTrailingSurrogate n then .error ⟨.loneSurrogate, r, 0⟩
    else if isLeadingSurrogate n then readTrailing n r
    else .ok (Char.ofNat n, r)

/-- The character an escape letter stands for. -/
def unescape? : Char → Option Char
  | '"' => some '"'
  | '\\' => some '\\'
  | '/' => some '/'
  | 'b' => some '\x08'
  | 'f' => some '\x0c'
  | 'n' => some '\n'
  | 'r' => some '\r'
  | 't' => some '\t'
  | _ => none

/-- An escape, behind its backslash. -/
def readEscape (s : List Char) : Except Fault (Char × List Char) :=
  match s with
  | [] => .error ⟨.endInString, [], 0⟩
  | c :: r =>
    if c = 'u' then readUnicode r
    else
      match unescape? c with
      | some d => .ok (d, r)
      | none => .error ⟨.badEscape, c :: r, 1⟩

/-- Four digits are taken off the front. -/
theorem readHex4_length {s r : List Char} {n : Nat} (h : readHex4 s = .ok (n, r)) :
    r.length < s.length := by
  unfold readHex4 at h
  simp only at h
  split at h
  · split at h
    · simp only [Except.ok.injEq, Prod.mk.injEq] at h
      simp only [List.length_cons, ← h.2]; omega
    · split at h <;> simp at h
  · split at h <;> simp at h

/-- The second half of a pair is taken off the front. -/
theorem readTrailing_length {n : Nat} {s r : List Char} {c : Char}
    (h : readTrailing n s = .ok (c, r)) : r.length < s.length := by
  revert h
  fun_cases readTrailing n s with
  | case2 t _ _ hdigits _ =>
    simp only [Except.ok.injEq, Prod.mk.injEq, List.length_cons]
    rintro ⟨-, rfl⟩
    have := readHex4_length hdigits
    omega
  | _ => exact nofun

/-- A character written by its number is taken off the front, with the second half of a pair. -/
theorem readUnicode_length {s r : List Char} {c : Char} (h : readUnicode s = .ok (c, r)) :
    r.length < s.length := by
  revert h
  fun_cases readUnicode s with
  | case3 n t hdigits _ _ =>
    exact fun h => Nat.lt_trans (readTrailing_length h) (readHex4_length hdigits)
  | case4 n t hdigits _ _ =>
    rintro ⟨⟩
    exact readHex4_length hdigits
  | _ => exact nofun

/-- An escape takes at least the character behind its backslash. -/
theorem readEscape_length {s r : List Char} {c : Char} (h : readEscape s = .ok (c, r)) :
    r.length < s.length := by
  revert h
  fun_cases readEscape s with
  | case2 t => exact fun h => Nat.lt_succ_of_lt (readUnicode_length h)
  | case3 d t _ _ =>
    rintro ⟨⟩
    exact Nat.lt_succ_self _
  | _ => exact nofun

/-- The content of a string, behind its opening quote, and the text behind its closing one. -/
def readString (s : List Char) : Except Fault (List Char × List Char) :=
  match s with
  | [] => .error ⟨.endInString, [], 0⟩
  | c :: r =>
    if c = '"' then .ok ([], r)
    else if c = '\\' then
      match _ : readEscape r with
      | .error f => .error f
      | .ok (d, r') =>
        match readString r' with
        | .error f => .error f
        | .ok (content, rest) => .ok (d :: content, rest)
    else if c.toNat < 0x20 then .error ⟨.controlCharacter, c :: r, 1⟩
    else
      match readString r with
      | .error f => .error f
      | .ok (content, rest) => .ok (c :: content, rest)
termination_by s.length
decreasing_by
  · exact Nat.lt_succ_of_lt (readEscape_length (by assumption))
  · exact Nat.lt_succ_self _

/-- A string takes at least its closing quote. -/
theorem readString_length {s r t : List Char} (h : readString s = .ok (t, r)) :
    r.length < s.length := by
  fun_induction readString s generalizing t with
  | case1 => simp at h
  | case2 r' => simp_all
  | case3 => simp at h
  | case4 => simp at h
  | case5 s d r' he content rest hs _ ih =>
    simp only [Except.ok.injEq, Prod.mk.injEq] at h
    have h₁ := readEscape_length he
    have h₂ := ih (h.2 ▸ hs)
    simp only [List.length_cons]; omega
  | case6 => simp at h
  | case7 => simp at h
  | case8 c r' _ _ _ content rest hs ih =>
    simp only [Except.ok.injEq, Prod.mk.injEq] at h
    have := ih (h.2 ▸ hs)
    simp only [List.length_cons]; omega

end ShellQuery.Json
