import ShellQuery.Json.Basic
import ShellQuery.Json.Fault
/-!
# Reading JSON numbers

Integers up to 64 bits are exact. A double is not the one nearest to its text: the leading digits
are gathered as long as they fit into 64 unsigned bits, the rest of them only count for the
exponent, and the gathered number is then multiplied with, or divided by, a power of ten in double
arithmetic (`scale?`). So the last bits depend on how a number is written, and every step here is
part of what a number means.
-/

namespace ShellQuery.Json

/-- The greatest unsigned integer of 64 bits. -/
def maxUInt64 : Nat := 0xFFFFFFFFFFFFFFFF

/-- The greatest exponent that is kept as a number. -/
def maxExponent : Nat := 0x7FFFFFFF

/-- The value of a decimal digit. -/
def digitValue (c : Char) : Nat :=
  c.toNat - '0'.toNat

/-- Reads on a number digit by digit while it does not exceed a limit; stops before the first
character that is no digit or would exceed it. -/
def gather (limit : Nat) : (value : Nat) → List Char → Nat × List Char
  | value, [] => (value, [])
  | value, c :: r =>
    if c.isDigit ∧ value * 10 + digitValue c ≤ limit then gather limit (value * 10 + digitValue c) r
    else (value, c :: r)

/-- Whether a digit stands at the front of a text. -/
def startsWithDigit : List Char → Bool
  | c :: _ => c.isDigit
  | [] => false

/-- A power of ten as a double. -/
def powerOfTen (exponent : Nat) : Float :=
  Float.ofScientific 1 false exponent

/-- Divides by a power of ten, in portions that a double can hold. -/
def divideByPower (x : Float) (exponent : Nat) : Float :=
  if exponent ≤ 308 then x / powerOfTen exponent
  else if x == 0.0 then x
  else divideByPower (x / powerOfTen 308) (exponent - 308)
termination_by exponent

/-- A double from gathered digits and an exponent, or nothing if it is too large. -/
def scale? (significand : Nat) (exponent : Int) : Option Float :=
  let x := Float.ofNat significand
  if exponent < 0 then some (divideByPower x exponent.natAbs)
  else if exponent ≤ 308 then
    let y := x * powerOfTen exponent.natAbs
    if y.isInf then none else some y
  else if x == 0.0 then some x
  else none

/-- A double with a sign. -/
def signed (negative : Bool) (x : Float) : Float :=
  if negative then -x else x

/-- A number without fraction and exponent: an integer if it fits into 64 bits and is not a negative
zero. -/
def Number.ofDigits (negative : Bool) (value : Nat) : Number :=
  if negative then
    if value = 0 ∨ 0x8000000000000000 < value then .float (-Float.ofNat value)
    else .int (-(value : Int))
  else .int value

/-- A double, read up to here. -/
def readScaled (negative : Bool) (significand : Nat) (exponent : Int) (s : List Char) :
    Except Fault (Number × List Char) :=
  match scale? significand exponent with
  | some x => .ok (.float (signed negative x), s)
  | none => .error ⟨.numberOutOfRange, s, 0⟩

/-- The written exponent, behind its `e`. One that is too long is out of range if it is positive and
the number is not zero, and makes a zero otherwise. -/
def readExponent (negative : Bool) (significand : Nat) (exponent : Int) (s : List Char) :
    Except Fault (Number × List Char) :=
  let (down, digits) := Decimal.Numeral.splitSign s
  match digits with
  | [] => .error ⟨.endInValue, [], 0⟩
  | c :: r =>
    if !c.isDigit then .error ⟨.badNumber, c :: r, 1⟩
    else
      let (written, r) := gather maxExponent (digitValue c) r
      if startsWithDigit r then
        if significand ≠ 0 ∧ !down then .error ⟨.numberOutOfRange, r, 1⟩
        else .ok (.float (signed negative 0.0), r.dropWhile Char.isDigit)
      else
        readScaled negative significand (if down then exponent - written else exponent + written) r

/-- The exponent, if there is one. -/
def readTail (negative : Bool) (significand : Nat) (exponent : Int) (s : List Char) :
    Except Fault (Number × List Char) :=
  match s with
  | c :: r =>
    if c = 'e' ∨ c = 'E' then readExponent negative significand exponent r
    else readScaled negative significand exponent s
  | [] => readScaled negative significand exponent s

/-- The fraction, behind its point. Digits that no longer fit are skipped. -/
def readFraction (negative : Bool) (significand : Nat) (exponent : Int) (s : List Char) :
    Except Fault (Number × List Char) :=
  if startsWithDigit s then
    let (significand, r) := gather maxUInt64 significand s
    let used : Nat := s.length - r.length
    readTail negative significand (exponent - used) (r.dropWhile Char.isDigit)
  else if s.isEmpty then .error ⟨.endInValue, [], 0⟩
  else .error ⟨.badNumber, s, 1⟩

/-- A number, behind its minus sign. -/
def readNumber (negative : Bool) (s : List Char) : Except Fault (Number × List Char) :=
  match s with
  | [] => .error ⟨.endInValue, [], 0⟩
  | c :: r =>
    if !c.isDigit then .error ⟨.badNumber, s, 1⟩
    else if c = '0' ∧ startsWithDigit r then .error ⟨.badNumber, r, 1⟩
    else
      let (value, r) := gather maxUInt64 (digitValue c) r
      let dropped := (r.takeWhile Char.isDigit).length
      match r.dropWhile Char.isDigit with
      | '.' :: r => readFraction negative value dropped r
      | r =>
        if dropped = 0 ∧ r.head? ≠ some 'e' ∧ r.head? ≠ some 'E' then
          .ok (.ofDigits negative value, r)
        else readTail negative value dropped r

/-! ## What is read gets shorter -/

open Text

/-- Gathering digits makes no text longer. -/
theorem gather_length_le (limit value : Nat) (s : List Char) :
    (gather limit value s).2.length ≤ s.length := by
  induction s generalizing value with
  | nil => simp [gather]
  | cons c r ih =>
    simp only [gather]
    split
    · exact Nat.le_succ_of_le (ih _)
    · exact Nat.le_refl _

/-- Skipping the digits that did not fit makes no text longer either. -/
theorem dropWhile_gather_length_le (limit value : Nat) (s : List Char) :
    ((gather limit value s).2.dropWhile Char.isDigit).length ≤ s.length :=
  Nat.le_trans (length_dropWhile_le _ _) (gather_length_le limit value s)

/-- A sign may be taken off. -/
theorem splitSign_length_le (s : List Char) :
    (Decimal.Numeral.splitSign s).2.length ≤ s.length := by
  unfold Decimal.Numeral.splitSign; split <;> simp

section
variable {negative : Bool} {m : Nat} {e : Int} {s r : List Char} {n : Number}

/-- Putting the parts of a number together takes nothing. -/
theorem readScaled_rest (h : readScaled negative m e s = .ok (n, r)) : r = s := by
  unfold readScaled at h
  split at h <;> simp_all

/-- An exponent may take a sign and takes at least one digit. -/
theorem readExponent_length (h : readExponent negative m e s = .ok (n, r)) :
    r.length ≤ s.length := by
  revert h
  have hsign := splitSign_length_le s
  fun_cases readExponent negative m e s with
  | case4 down c t _ value u hgather _ _ hsplit =>
    rintro ⟨⟩
    have hdigits := dropWhile_gather_length_le maxExponent (digitValue c) t
    rw [hgather] at hdigits
    rw [hsplit] at hsign
    exact Nat.le_trans hdigits (Nat.le_of_succ_le hsign)
  | case5 down c t _ value u hgather _ hsplit =>
    intro h
    have hdigits := gather_length_le maxExponent (digitValue c) t
    rw [hgather] at hdigits
    rw [hsplit] at hsign
    rw [readScaled_rest h]
    exact Nat.le_trans hdigits (Nat.le_of_succ_le hsign)
  | _ => exact nofun

/-- The end of a number takes its exponent, if there is one. -/
theorem readTail_length (h : readTail negative m e s = .ok (n, r)) : r.length ≤ s.length := by
  unfold readTail at h
  split at h
  · split at h
    · exact Nat.le_succ_of_le (readExponent_length h)
    · exact Nat.le_of_eq (congrArg List.length (readScaled_rest h))
  · exact Nat.le_of_eq (congrArg List.length (readScaled_rest h))

/-- A fraction takes its digits. -/
theorem readFraction_length (h : readFraction negative m e s = .ok (n, r)) :
    r.length ≤ s.length := by
  unfold readFraction at h
  split at h
  · exact Nat.le_trans (readTail_length h) (dropWhile_gather_length_le maxUInt64 m s)
  · split at h <;> simp at h

/-- A number takes at least one digit. -/
theorem readNumber_length (h : readNumber negative s = .ok (n, r)) : r.length < s.length := by
  revert h
  fun_cases readNumber negative s with
  | case4 c t _ _ value u hgather _ v hpoint =>
    intro h
    have hdigits := dropWhile_gather_length_le maxUInt64 (digitValue c) t
    rw [hgather, hpoint] at hdigits
    exact Nat.lt_succ_of_le (Nat.le_trans (readFraction_length h) (Nat.le_of_succ_le hdigits))
  | case5 c t _ _ value u hgather _ _ _ =>
    rintro ⟨⟩
    have hdigits := dropWhile_gather_length_le maxUInt64 (digitValue c) t
    rw [hgather] at hdigits
    exact Nat.lt_succ_of_le hdigits
  | case6 c t _ _ value u hgather _ _ _ =>
    intro h
    have hdigits := dropWhile_gather_length_le maxUInt64 (digitValue c) t
    rw [hgather] at hdigits
    exact Nat.lt_succ_of_le (Nat.le_trans (readTail_length h) hdigits)
  | _ => exact nofun

end

end ShellQuery.Json
