/-!
# The proleptic Gregorian calendar

Dates and their day numbers, counted from 1970-01-01. `Date.dayNumber` adds up the days of the years
and months before a date, and `Date.ofDayNumber` finds the date back by taking cycles of 400, 100,
4 and 1 years off. Both work in every year, zero and negative ones included.
-/

namespace ShellQuery.Calendar

/-- Every fourth year is a leap year, but of the full centuries only every fourth. -/
def isLeapYear (year : Int) : Bool :=
  year % 4 == 0 && (year % 100 != 0 || year % 400 == 0)

/-- The lengths of the months of a year. -/
def monthLengths (leap : Bool) : List Nat :=
  [31, if leap then 29 else 28, 31, 30, 31, 30, 31, 31, 30, 31, 30, 31]

/-- A year, a month and a day of the month, the latter two counted from one. -/
structure Date where
  year : Int
  month : Nat
  day : Nat
  deriving DecidableEq, Repr

/-- Whether the calendar has a date. -/
def Date.isValid (d : Date) : Bool :=
  1 ≤ d.month && d.month ≤ 12 && 1 ≤ d.day &&
    d.day ≤ (monthLengths (isLeapYear d.year)).getD (d.month - 1) 0

/-- The days from 0001-01-01 to the first day of a year. -/
def daysBeforeYear (year : Int) : Int :=
  let past := year - 1
  365 * past + past / 4 - past / 100 + past / 400

/-- The days of a year before the first day of a month. -/
def daysBeforeMonth (leap : Bool) (month : Nat) : Nat :=
  ((monthLengths leap).take (month - 1)).foldr (· + ·) 0

/-- The days from 0001-01-01 to 1970-01-01. -/
def epoch : Int := 719162

/-- The days from 1970-01-01 to a date. -/
def Date.dayNumber (d : Date) : Int :=
  daysBeforeYear d.year + daysBeforeMonth (isLeapYear d.year) d.month + d.day - 1 - epoch

/-- The month and day of the month of a day counted from the first of the month `month`, of which,
and of the months after it, the lengths are given. -/
def monthAndDay (month day : Nat) : List Nat → Nat × Nat
  | [] => (month, day + 1)
  | length :: more =>
    if day < length then (month, day + 1) else monthAndDay (month + 1) (day - length) more

/-- The date a number of days after 1970-01-01. -/
def Date.ofDayNumber (n : Int) : Date :=
  let days := n + epoch
  let inCycle := (days % 146097).toNat
  let century := min (inCycle / 36524) 3
  let inCentury := inCycle - century * 36524
  let inQuad := inCentury % 1461
  let single := min (inQuad / 365) 3
  let year := 400 * (days / 146097) + (100 * century + 4 * (inCentury / 1461) + single : Nat) + 1
  let (month, day) := monthAndDay 1 (inQuad - single * 365) (monthLengths (isLeapYear year))
  ⟨year, month, day⟩

end ShellQuery.Calendar
