import ShellQuery.Calendar
import ShellQuery.Decimal
/-!
# Points in time

An instant is a number of milliseconds since 1970-01-01T00:00:00Z, within the years -262143 to
262142. `Instant.canonical` writes it with a fraction of exactly three digits; `Instant.relaxed`
drops the zeros at the end of the fraction.
-/

namespace ShellQuery

open Calendar

namespace Instant

/-- The milliseconds of a day. -/
def millisPerDay : Int := 86400000

/-- The first millisecond of the year -262143. -/
def firstMillis : Int := (Date.mk (-262143) 1 1).dayNumber * millisPerDay

/-- The last millisecond of the year 262142. -/
def lastMillis : Int := (Date.mk 262143 1 1).dayNumber * millisPerDay - 1

end Instant

/-- A point in time, in milliseconds since 1970-01-01T00:00:00Z. -/
structure Instant where
  millis : Int
  firstMillis_le : Instant.firstMillis ≤ millis
  le_lastMillis : millis ≤ Instant.lastMillis

namespace Instant

/-- The instant at a number of milliseconds, unless it is out of range. -/
def ofMillis? (millis : Int) : Option Instant :=
  if h : firstMillis ≤ millis ∧ millis ≤ lastMillis then some ⟨millis, h.1, h.2⟩ else none

/-- The date of an instant. -/
def date (t : Instant) : Date :=
  .ofDayNumber (t.millis / millisPerDay)

/-- The milliseconds since midnight. -/
def timeOfDay (t : Instant) : Nat :=
  (t.millis % millisPerDay).toNat

/-- A year with at least four digits; one that needs more, or is negative, carries its sign. -/
def yearText (year : Int) : List Char :=
  if year < 0 then '-' :: Decimal.padded 4 year.natAbs
  else if 9999 < year then '+' :: Decimal.padded 4 year.natAbs
  else Decimal.padded 4 year.natAbs

/-- Date and time up to the second. -/
def toSecond (t : Instant) : List Char :=
  let d := t.date
  let seconds := t.timeOfDay / 1000
  yearText d.year ++ '-' :: Decimal.padded 2 d.month ++ '-' :: Decimal.padded 2 d.day ++
    'T' :: Decimal.padded 2 (seconds / 3600) ++ ':' :: Decimal.padded 2 (seconds / 60 % 60) ++
    ':' :: Decimal.padded 2 (seconds % 60)

/-- Date and time with three digits of the second's fraction. -/
def canonical (t : Instant) : List Char :=
  toSecond t ++ '.' :: Decimal.padded 3 (t.timeOfDay % 1000) ++ ['Z']

/-- Date and time with as many digits of the second's fraction as are needed. -/
def relaxed (t : Instant) : List Char :=
  let fraction := ((Decimal.padded 3 (t.timeOfDay % 1000)).reverse.dropWhile (· == '0')).reverse
  toSecond t ++ (if fraction.isEmpty then [] else '.' :: fraction) ++ ['Z']

end Instant

end ShellQuery
