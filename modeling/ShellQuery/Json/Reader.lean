import ShellQuery.Fields
import ShellQuery.Json.Numeral
import ShellQuery.Json.Quoted
/-!
# Reading JSON

`Json.read` reads one strict JSON value. It descends into brackets to a fixed depth; the reader of
the items one level down is a parameter of the reader of a value, so the descent is a recursion on
the depth that is left. A `Reader` carries the proof that it takes at least one character, which
ends the loops over the items of an array and the members of an object. Of repeated keys of an
object the last value counts, at the place of the first.
-/

namespace ShellQuery.Json

open Text

/-- The blanks of JSON: space, line feed, tab and carriage return. -/
def isSpace (c : Char) : Bool :=
  c == ' ' || c == '\n' || c == '\t' || c == '\r'

/-- Drops the JSON blanks at the front. -/
def skipSpace (s : List Char) : List Char :=
  s.dropWhile isSpace

/-- A reader takes a value off the front of a text and leaves a shorter one. -/
structure Reader (α : Type) where
  read : List Char → Except Fault (α × List Char)
  shorter : ∀ {s r a}, read s = .ok (a, r) → r.length < s.length

/-- The remaining letters of a word. -/
def readWord : (word : List Char) → List Char → Except Fault (List Char)
  | [], s => .ok s
  | _ :: _, [] => .error ⟨.endInValue, [], 0⟩
  | w :: ws, c :: r => if c = w then readWord ws r else .error ⟨.badWord, c :: r, 1⟩

/-- Skipping blanks makes no text longer. -/
theorem skipSpace_length_le (s : List Char) : (skipSpace s).length ≤ s.length :=
  length_dropWhile_le isSpace s

/-- What stands behind the first visible character is shorter than the text. -/
theorem skipSpace_tail_length {s r : List Char} {c : Char} (h : skipSpace s = c :: r) :
    r.length < s.length := by
  have := skipSpace_length_le s
  rw [h] at this
  exact this

/-! ## Arrays -/

/-- The items of an array behind one of them, up to the closing bracket. -/
def readMoreItems (item : Reader Json) (s : List Char) : Except Fault (List Json × List Char) :=
  match _ : skipSpace s with
  | [] => .error ⟨.endInList, [], 0⟩
  | c :: r =>
    if c = ']' then .ok ([], r)
    else if c = ',' then
      match skipSpace r with
      | [] => .error ⟨.endInValue, [], 0⟩
      | d :: t =>
        if d = ']' then .error ⟨.trailingComma, d :: t, 1⟩
        else
          match _ : item.read r with
          | .error f => .error f
          | .ok (v, r') =>
            match readMoreItems item r' with
            | .error f => .error f
            | .ok (vs, rest) => .ok (v :: vs, rest)
    else .error ⟨.noCommaOrBracket, c :: r, 1⟩
termination_by s.length
decreasing_by
  exact Nat.lt_trans (item.shorter (by assumption)) (skipSpace_tail_length (by assumption))

/-- The items of an array, behind its opening bracket. -/
def readItems (item : Reader Json) (s : List Char) : Except Fault (List Json × List Char) :=
  match skipSpace s with
  | [] => .error ⟨.endInList, [], 0⟩
  | c :: r =>
    if c = ']' then .ok ([], r)
    else
      match item.read s with
      | .error f => .error f
      | .ok (v, r') =>
        match readMoreItems item r' with
        | .error f => .error f
        | .ok (vs, rest) => .ok (v :: vs, rest)

/-! ## Objects -/

/-- A member of an object, behind the opening quote of its key. -/
def readMember (item : Reader Json) (s : List Char) :
    Except Fault ((String × Json) × List Char) :=
  match readString s with
  | .error f => .error f
  | .ok (key, r) =>
    match skipSpace r with
    | [] => .error ⟨.endInObject, [], 0⟩
    | c :: r =>
      if c = ':' then
        match item.read r with
        | .error f => .error f
        | .ok (v, rest) => .ok ((String.ofList key, v), rest)
      else .error ⟨.noColon, c :: r, 1⟩

/-- A member that is read is a key, a colon and a value. -/
theorem readMember_parts {item : Reader Json} {s r : List Char} {m : String × Json}
    (h : readMember item s = .ok (m, r)) :
    ∃ key t u v, readString s = .ok (key, t) ∧ skipSpace t = ':' :: u ∧
      item.read u = .ok (v, r) ∧ m = (String.ofList key, v) := by
  revert h
  fun_cases readMember item s with
  | case4 key t hkey u v rest hv hcolon =>
    rintro ⟨⟩
    exact ⟨key, t, u, v, hkey, hcolon, hv, rfl⟩
  | _ => exact nofun

/-- A member takes characters off the front. -/
theorem readMember_length {item : Reader Json} {s r : List Char} {m : String × Json}
    (h : readMember item s = .ok (m, r)) : r.length < s.length := by
  obtain ⟨key, t, u, v, hkey, hcolon, hv, -⟩ := readMember_parts h
  have h₁ := readString_length hkey
  have h₂ := skipSpace_tail_length hcolon
  have h₃ := item.shorter hv
  omega

/-- The members of an object behind one of them, up to the closing brace. -/
def readMoreMembers (item : Reader Json) (s : List Char) :
    Except Fault (List (String × Json) × List Char) :=
  match _ : skipSpace s with
  | [] => .error ⟨.endInObject, [], 0⟩
  | c :: r =>
    if c = '}' then .ok ([], r)
    else if c = ',' then
      match _ : skipSpace r with
      | [] => .error ⟨.endInValue, [], 0⟩
      | d :: t =>
        if d = '"' then
          match _ : readMember item t with
          | .error f => .error f
          | .ok (m, r') =>
            match readMoreMembers item r' with
            | .error f => .error f
            | .ok (ms, rest) => .ok (m :: ms, rest)
        else if d = '}' then .error ⟨.trailingComma, d :: t, 1⟩
        else .error ⟨.keyNotString, d :: t, 1⟩
    else .error ⟨.noCommaOrBrace, c :: r, 1⟩
termination_by s.length
decreasing_by
  exact Nat.lt_trans (readMember_length (by assumption))
    (Nat.lt_trans (skipSpace_tail_length (by assumption)) (skipSpace_tail_length (by assumption)))

/-- The members of an object, behind its opening brace. -/
def readMembers (item : Reader Json) (s : List Char) :
    Except Fault (List (String × Json) × List Char) :=
  match skipSpace s with
  | [] => .error ⟨.endInObject, [], 0⟩
  | c :: r =>
    if c = '}' then .ok ([], r)
    else if c = '"' then
      match readMember item r with
      | .error f => .error f
      | .ok (m, r') =>
        match readMoreMembers item r' with
        | .error f => .error f
        | .ok (ms, rest) => .ok (m :: ms, rest)
    else .error ⟨.keyNotString, c :: r, 1⟩

/-! ## Values -/

/-- A value of which the first character is known. Without a reader of items there may be no
brackets. -/
def readFrom (inner : Option (Reader Json)) (c : Char) (r : List Char) :
    Except Fault (Json × List Char) :=
  let word (letters : String) (v : Json) : Except Fault (Json × List Char) :=
    (readWord letters.toList r).map fun rest => (v, rest)
  if c = 'n' then word "ull" .null
  else if c = 't' then word "rue" (.bool true)
  else if c = 'f' then word "alse" (.bool false)
  else if c = '-' then (readNumber true r).map fun (n, rest) => (.number n, rest)
  else if c.isDigit then (readNumber false (c :: r)).map fun (n, rest) => (.number n, rest)
  else if c = '"' then (readString r).map fun (t, rest) => (.text (String.ofList t), rest)
  else if c = '[' then
    match inner with
    | none => .error ⟨.tooDeep, c :: r, 1⟩
    | some item => (readItems item r).map fun (vs, rest) => (.array vs, rest)
  else if c = '{' then
    match inner with
    | none => .error ⟨.tooDeep, c :: r, 1⟩
    | some item => (readMembers item r).map fun (ms, rest) => (.object (Fields.merge ms), rest)
  else .error ⟨.noValue, c :: r, 1⟩

/-- A value behind blanks. -/
def readWith (inner : Option (Reader Json)) (s : List Char) : Except Fault (Json × List Char) :=
  match skipSpace s with
  | [] => .error ⟨.endInValue, [], 0⟩
  | c :: r => readFrom inner c r

/-! ## What is read gets shorter -/

section
variable {item : Reader Json} {inner : Option (Reader Json)} {c : Char} {s r : List Char}
  {v : Json} {vs : List Json} {ms : List (String × Json)}

/-- The items of an array: none, or one and those behind it. -/
inductive ItemsRead (item : Reader Json) (s : List Char) : List Json → List Char → Prop
  | none {r : List Char} : skipSpace s = ']' :: r → ItemsRead item s [] r
  | some {v : Json} {vs : List Json} {t r : List Char} : item.read s = .ok (v, t) →
      readMoreItems item t = .ok (vs, r) → ItemsRead item s (v :: vs) r

/-- The members of an object: none, or one and those behind it. -/
inductive MembersRead (item : Reader Json) (s : List Char) :
    List (String × Json) → List Char → Prop
  | none {r : List Char} : skipSpace s = '}' :: r → MembersRead item s [] r
  | some {m : String × Json} {ms : List (String × Json)} {t u r : List Char} :
      skipSpace s = '"' :: t → readMember item t = .ok (m, u) →
      readMoreMembers item u = .ok (ms, r) → MembersRead item s (m :: ms) r

/-- A value behind the character that opens it. -/
inductive ValueRead (inner : Option (Reader Json)) (s : List Char) :
    Char → Json → List Char → Prop
  | null {r : List Char} : readWord "ull".toList s = .ok r → ValueRead inner s 'n' .null r
  | true {r : List Char} : readWord "rue".toList s = .ok r → ValueRead inner s 't' (.bool true) r
  | false {r : List Char} : readWord "alse".toList s = .ok r →
      ValueRead inner s 'f' (.bool false) r
  | negative {n : Number} {r : List Char} : readNumber true s = .ok (n, r) →
      ValueRead inner s '-' (.number n) r
  | positive {c : Char} {n : Number} {r : List Char} : readNumber false (c :: s) = .ok (n, r) →
      ValueRead inner s c (.number n) r
  | text {t r : List Char} : readString s = .ok (t, r) →
      ValueRead inner s '"' (.text (String.ofList t)) r
  | array {item : Reader Json} {vs : List Json} {r : List Char} : inner = some item →
      readItems item s = .ok (vs, r) → ValueRead inner s '[' (.array vs) r
  | object {item : Reader Json} {ms : List (String × Json)} {r : List Char} : inner = some item →
      readMembers item s = .ok (ms, r) → ValueRead inner s '{' (.object (Fields.merge ms)) r

/-- A word takes no character back. -/
theorem readWord_length {w : List Char} (h : readWord w s = .ok r) : r.length ≤ s.length := by
  induction w generalizing s with
  | nil => simp_all [readWord]
  | cons c w ih =>
    cases s with
    | nil => simp [readWord] at h
    | cons d s =>
      simp only [readWord] at h
      split at h
      · exact Nat.le_succ_of_le (ih h)
      · simp at h

/-- The items behind one of them take at least the closing bracket. -/
theorem readMoreItems_length (h : readMoreItems item s = .ok (vs, r)) :
    r.length < s.length := by
  fun_induction readMoreItems item s generalizing vs with
  | case2 s r' hs =>
    simp only [Except.ok.injEq, Prod.mk.injEq] at h
    exact h.2 ▸ skipSpace_tail_length hs
  | case7 s r' d t _ _ v r'' hi vs' rest hr hs _ ih =>
    simp only [Except.ok.injEq, Prod.mk.injEq] at h
    have h₁ := skipSpace_tail_length hs
    have h₂ := item.shorter hi
    have h₃ := ih (h.2 ▸ hr)
    omega
  | _ => simp at h

/-- All that the items of an array can be. -/
theorem readItems_cases (h : readItems item s = .ok (vs, r)) : ItemsRead item s vs r := by
  revert h
  fun_cases readItems item s with
  | case2 t hclose =>
    rintro ⟨⟩
    exact .none hclose
  | case5 d u hd hne v t hv ws rest hmore =>
    rintro ⟨⟩
    exact .some hv hmore
  | _ => exact nofun

/-- The items of an array take at least the closing bracket. -/
theorem readItems_length (h : readItems item s = .ok (vs, r)) : r.length < s.length := by
  cases readItems_cases h with
  | none hclose => exact skipSpace_tail_length hclose
  | some hv hmore => exact Nat.lt_trans (readMoreItems_length hmore) (item.shorter hv)

/-- The members behind one of them take at least the closing brace. -/
theorem readMoreMembers_length (h : readMoreMembers item s = .ok (ms, r)) :
    r.length < s.length := by
  fun_induction readMoreMembers item s generalizing ms with
  | case2 s r' hs =>
    simp only [Except.ok.injEq, Prod.mk.injEq] at h
    exact h.2 ▸ skipSpace_tail_length hs
  | case6 s r' t m r'' hm ms' rest hr hs _ hd ih =>
    simp only [Except.ok.injEq, Prod.mk.injEq] at h
    have h₁ := skipSpace_tail_length hs
    have h₂ := skipSpace_tail_length hd
    have h₃ := readMember_length hm
    have h₄ := ih (h.2 ▸ hr)
    omega
  | _ => simp at h

/-- All that the members of an object can be. -/
theorem readMembers_cases (h : readMembers item s = .ok (ms, r)) : MembersRead item s ms r := by
  revert h
  fun_cases readMembers item s with
  | case2 t hclose =>
    rintro ⟨⟩
    exact .none hclose
  | case5 t m u hm ns rest hmore hquote =>
    rintro ⟨⟩
    exact .some hquote hm hmore
  | _ => exact nofun

/-- The members of an object take at least the closing brace. -/
theorem readMembers_length (h : readMembers item s = .ok (ms, r)) : r.length < s.length := by
  cases readMembers_cases h with
  | none hclose => exact skipSpace_tail_length hclose
  | some hquote hm hmore =>
    have h₁ := skipSpace_tail_length hquote
    have h₂ := readMember_length hm
    have h₃ := readMoreMembers_length hmore
    omega

/-- A mapped result comes from one that there was before. -/
theorem map_eq_ok {ε α β : Type} {f : α → β} {x : Except ε α} {b : β} (h : x.map f = .ok b) :
    ∃ a, x = .ok a ∧ f a = b := by
  cases x with
  | error e => simp [Except.map] at h
  | ok a => exact ⟨a, rfl, by simpa [Except.map] using h⟩

/-- All that a value can be, by the character that opens it. -/
theorem readFrom_cases (h : readFrom inner c s = .ok (v, r)) : ValueRead inner s c v r := by
  simp only [readFrom] at h
  split at h
  case isTrue hc =>
    obtain ⟨t, hword, ⟨⟩⟩ := map_eq_ok h
    exact hc ▸ .null hword
  split at h
  case isTrue hc =>
    obtain ⟨t, hword, ⟨⟩⟩ := map_eq_ok h
    exact hc ▸ .true hword
  split at h
  case isTrue hc =>
    obtain ⟨t, hword, ⟨⟩⟩ := map_eq_ok h
    exact hc ▸ .false hword
  split at h
  case isTrue hc =>
    obtain ⟨⟨n, t⟩, hn, ⟨⟩⟩ := map_eq_ok h
    exact hc ▸ .negative hn
  split at h
  case isTrue =>
    obtain ⟨⟨n, t⟩, hn, ⟨⟩⟩ := map_eq_ok h
    exact .positive hn
  split at h
  case isTrue hc =>
    obtain ⟨⟨u, t⟩, hu, ⟨⟩⟩ := map_eq_ok h
    exact hc ▸ .text hu
  split at h
  case isTrue hc =>
    cases inner with
    | none => cases h
    | some item =>
      obtain ⟨⟨vs, t⟩, hvs, ⟨⟩⟩ := map_eq_ok h
      exact hc ▸ .array rfl hvs
  split at h
  case isTrue hc =>
    cases inner with
    | none => cases h
    | some item =>
      obtain ⟨⟨ms, t⟩, hms, ⟨⟩⟩ := map_eq_ok h
      exact hc ▸ .object rfl hms
  cases h

/-- A value takes at least its first character. -/
theorem readFrom_length (h : readFrom inner c s = .ok (v, r)) : r.length ≤ s.length := by
  cases readFrom_cases h with
  | null hword | true hword | false hword => exact readWord_length hword
  | negative hn => exact Nat.le_of_lt (readNumber_length hn)
  | positive hn => exact Nat.le_of_lt_succ (readNumber_length hn)
  | text ht => exact Nat.le_of_lt (readString_length ht)
  | array _ hvs => exact Nat.le_of_lt (readItems_length hvs)
  | object _ hms => exact Nat.le_of_lt (readMembers_length hms)

/-- A value and the blanks in front of it take at least one character. -/
theorem readWith_length (h : readWith inner s = .ok (v, r)) : r.length < s.length := by
  unfold readWith at h
  split at h
  · cases h
  · rename_i hs
    exact Nat.lt_of_le_of_lt (readFrom_length h) (skipSpace_tail_length hs)

end

/-- The reader of values with at most so many brackets inside each other. -/
def valueReader : (depth : Nat) → Reader Json
  | 0 => ⟨readWith none, readWith_length⟩
  | depth + 1 => ⟨readWith (some (valueReader depth)), readWith_length⟩

/-- The greatest depth of brackets. -/
def maxDepth : Nat := 127

/-- The value a text holds, with nothing but blanks around it. -/
def read? (s : List Char) : Except Fault Json :=
  match (valueReader maxDepth).read s with
  | .error f => .error f
  | .ok (v, r) =>
    match skipSpace r with
    | [] => .ok v
    | c :: r => .error ⟨.trailingCharacters, c :: r, 1⟩

/-- The value a text holds, or what is wrong with the text and where. -/
def read (s : List Char) : Except Problem Json :=
  (read? s).mapError (Fault.locate s)

end ShellQuery.Json
