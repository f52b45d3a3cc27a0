import ShellQuery.Decimal
/-!
# The shortest decimal that reads back

A double stands for every real number nearer to it than to its neighbours. `shortest` gives the
decimal with the fewest digits among those numbers, of two the nearer, and of two equally near the
even one. Everything is exact: a double is an integer times a power of two, and a decimal with a
given number of digits lies on a grid of step `10 ^ k`, so it is enough to look at the two points of
the grid around the double, first on the grid of one digit and then on finer ones.
-/

namespace ShellQuery.Decimal

/-- The magnitude of a double that is neither zero nor infinite: `significand * 2 ^ exponent`.
`isPower` marks the doubles whose lower neighbour is only half as far as the upper one. -/
structure Magnitude where
  significand : Nat
  exponent : Int
  isPower : Bool

/-- The magnitude that the bits of a double encode. -/
def Magnitude.ofBits (bits : UInt64) : Magnitude :=
  let fraction : Nat := bits.toNat % 0x10000000000000
  let field : Nat := bits.toNat / 0x10000000000000 % 0x800
  if field = 0 then ⟨fraction, -1074, false⟩
  else ⟨fraction + 0x10000000000000, (field : Int) - 1075, fraction == 0 && 1 < field⟩

/-- A decimal: `digits * 10 ^ exponent`. -/
structure Scientific where
  digits : Nat
  exponent : Int

/-- The exponent of the leading decimal digit of a positive fraction. -/
def leadingExponent (numerator denominator : Nat) : Int :=
  if denominator ≤ numerator then (ofNat (numerator / denominator)).length - 1
  else -((ofNat ((numerator - 1 + denominator) / numerator - 1)).length : Int)

/-- The nearest of the two points around a magnitude on the grid of step `10 ^ grid` that reads back
as it, if one does. Lengths are compared in units in which all of them are integers. -/
def onGrid? (m : Magnitude) (grid : Int) : Option Scientific :=
  let shift := m.exponent - 2
  let measure (quarters : Nat) : Nat :=
    quarters * Nat.pow 2 shift.toNat * Nat.pow 10 (-grid).toNat
  let unit : Nat := Nat.pow 10 grid.toNat * Nat.pow 2 (-shift).toNat
  let value := measure (4 * m.significand)
  let low := measure (4 * m.significand - if m.isPower then 1 else 2)
  let high := measure (4 * m.significand + 2)
  let readsBack (k : Nat) : Bool :=
    if m.significand % 2 = 0 then low ≤ k * unit && k * unit ≤ high
    else low < k * unit && k * unit < high
  let below := value / unit
  let above := below + 1
  let toBelow := value - below * unit
  let toAbove := above * unit - value
  match readsBack below, readsBack above with
  | true, true =>
    if toBelow < toAbove then some ⟨below, grid⟩
    else if toAbove < toBelow then some ⟨above, grid⟩
    else some ⟨if below % 2 = 0 then below else above, grid⟩
  | true, false => some ⟨below, grid⟩
  | false, true => some ⟨above, grid⟩
  | false, false => none

/-- The shortest decimal that reads back as a magnitude. Seventeen digits always do. -/
def shortest (m : Magnitude) : Scientific :=
  let leading :=
    leadingExponent (m.significand * Nat.pow 2 m.exponent.toNat) (Nat.pow 2 (-m.exponent).toNat)
  ((List.range 17).findSome? fun (finer : Nat) => onGrid? m (leading - (finer : Int))).getD ⟨0, 0⟩

/-- The digits of a decimal without zeros at the end, and the exponent of the first of them. -/
def Scientific.normal (s : Scientific) : List Char × Int :=
  let digits := ofNat s.digits
  let trimmed := (digits.reverse.dropWhile (· == '0')).reverse
  (trimmed, s.exponent + digits.length - 1)

end ShellQuery.Decimal
