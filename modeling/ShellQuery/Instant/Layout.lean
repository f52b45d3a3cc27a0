import ShellQuery.Text
import ShellQuery.Instant.Basic
/-!
# Reading dates

A date may be written in several layouts, which are tried one after the other; the first that fits
the whole text, and names a date and time that exist, counts. A layout is a list of items, and each
item takes its part off the front of the text and notes what it read (`Item.read?`). What has been
noted is a clock reading, which `Reading.millis?` turns into milliseconds. A missing part of the
time is zero, and a missing offset is that of UTC.
-/

namespace ShellQuery.Instant

open Text Calendar

/-- A clock reading: a date, a time of day, and the offset of the clock from UTC in seconds. -/
structure Reading where
  year : Int
  month : Nat
  day : Nat
  hour : Nat
  minute : Nat
  second : Nat
  millisecond : Nat
  offset : Int
  deriving DecidableEq, Repr

/-- What is known before anything is read. -/
def Reading.blank : Reading := ⟨0, 0, 0, 0, 0, 0, 0, 0⟩

/-- A part of a clock reading that is written as a number. -/
inductive Part
  | year
  | month
  | day
  | hour
  | minute
  | second
  deriving DecidableEq, Repr

/-- The greatest number of digits a part takes. -/
def Part.width : Part → Nat
  | .year => 4
  | _ => 2

/-- Notes a part. Only a year can be negative. -/
def Reading.note (reading : Reading) (part : Part) (value : Int) : Reading :=
  match part with
  | .year => { reading with year := value }
  | .month => { reading with month := value.toNat }
  | .day => { reading with day := value.toNat }
  | .hour => { reading with hour := value.toNat }
  | .minute => { reading with minute := value.toNat }
  | .second => { reading with second := value.toNat }

/-- An item of a layout. -/
inductive Item
  /-- A part with all its digits. -/
  | full (part : Part)
  /-- A part with at least one digit, behind optional blanks; a year with a sign may be longer. -/
  | short (part : Part)
  /-- One of some characters. -/
  | mark (accepted : List Char)
  /-- Any blanks. -/
  | blanks
  /-- A point and digits, or nothing. -/
  | fraction
  /-- An offset with a colon between hours and minutes. -/
  | fullOffset
  /-- An offset behind optional blanks, with any colons and blanks, or none, before the minutes,
  which may be missing. -/
  | shortOffset

/-- A layout is a list of items. -/
abbrev Layout := List Item

/-- The digits at the front of a text, but no more than a given number. -/
def digitsUpTo (width : Nat) (s : List Char) : List Char × List Char :=
  let digits := (s.take width).takeWhile Char.isDigit
  (digits, s.drop digits.length)

/-- A number with at least one digit and at most `width`; with a sign, a year of any length. -/
def readShort? (part : Part) (s : List Char) : Option (Int × List Char) :=
  let unsigned : Option (Int × List Char) :=
    match digitsUpTo part.width s with
    | ([], _) => none
    | (digits, r) => some (Decimal.value digits, r)
  match part, s with
  | .year, c :: _ =>
    if c = '-' ∨ c = '+' then (Decimal.Numeral.read? s).map fun (n, r) => (n.toInt, r) else unsigned
  | _, _ => unsigned

/-- The milliseconds that the digits of a fraction name; digits beyond the third are dropped. -/
def fractionMillis (digits : List Char) : Nat :=
  Decimal.value ((digits ++ ['0', '0', '0']).take 3)

/-- A fraction of a second, with its point. -/
def readFraction? : List Char → Option (Nat × List Char)
  | '.' :: s =>
    match s.takeWhile Char.isDigit with
    | [] => none
    | digits => some (fractionMillis digits, s.dropWhile Char.isDigit)
  | s => some (0, s)

/-- Minutes of an offset: two digits below sixty. -/
def readMinutes? : List Char → Option (Nat × List Char)
  | a :: b :: r =>
    if a.isDigit ∧ b.isDigit ∧ Decimal.value [a, b] < 60 then some (Decimal.value [a, b], r)
    else none
  | _ => none

/-- Hours and minutes of an offset, in seconds. -/
def readHours? (full : Bool) : List Char → Option (Nat × List Char)
  | a :: b :: r =>
    if a.isDigit ∧ b.isDigit then
      let hours := Decimal.value [a, b] * 3600
      let minutes (s : List Char) := (readMinutes? s).map fun (m, r) => (hours + m * 60, r)
      if full then
        match r with
        | ':' :: r => minutes r
        | _ => none
      else
        match r.dropWhile fun c => c == ':' || isBlank c with
        | [] => some (hours, [])
        | r => minutes r
    else none
  | _ => none

/-- An offset: the letter Z, or a sign (a hyphen or U+2212 for minus) with hours and minutes. -/
def readOffset? (full : Bool) : List Char → Option (Int × List Char)
  | [] => none
  | c :: r =>
    if c = 'Z' ∨ c = 'z' then some (0, r)
    else if c = '+' then (readHours? full r).map fun (n, r) => ((n : Int), r)
    else if c = '-' ∨ c = '\u2212' then (readHours? full r).map fun (n, r) => (-(n : Int), r)
    else none

/-- What an item notes of a text, and the text behind it. -/
def Item.read? (item : Item) (reading : Reading) (s : List Char) :
    Option (Reading × List Char) :=
  match item with
  | .full part =>
    let (digits, r) := digitsUpTo part.width s
    if digits.length = part.width then some (reading.note part (Decimal.value digits), r) else none
  | .short part => (readShort? part (trimStart s)).map fun (n, r) => (reading.note part n, r)
  | .mark accepted =>
    match s with
    | c :: r => if accepted.contains c then some (reading, r) else none
    | [] => none
  | .blanks => some (reading, trimStart s)
  | .fraction => (readFraction? s).map fun (n, r) => ({ reading with millisecond := n }, r)
  | .fullOffset => (readOffset? true s).map fun (n, r) => ({ reading with offset := n }, r)
  | .shortOffset =>
    (readOffset? false (trimStart s)).map fun (n, r) => ({ reading with offset := n }, r)

/-- What a layout notes of a text, if it fits the whole of it. -/
def Layout.read? (reading : Reading) : Layout → List Char → Option Reading
  | [], [] => some reading
  | [], _ :: _ => none
  | item :: more, s =>
    match item.read? reading s with
    | some (reading, r) => Layout.read? reading more r
    | none => none

/-! ## The layouts -/

/-- The date and time of RFC 3339. -/
def rfc3339 : Layout :=
  [.full .year, .mark ['-'], .full .month, .mark ['-'], .full .day, .mark ['T', 't', ' '],
    .full .hour, .mark [':'], .full .minute, .mark [':'], .full .second, .fraction, .fullOffset]

/-- A date. -/
def shortDate : Layout :=
  [.short .year, .mark ['-'], .short .month, .mark ['-'], .short .day]

/-- Hours and minutes. -/
def shortTime : Layout :=
  [.short .hour, .mark [':'], .short .minute]

/-- Seconds with their fraction. -/
def shortSecond : Layout :=
  [.mark [':'], .short .second, .fraction]

/-- All layouts, in the order in which they are tried. -/
def layouts : List Layout :=
  [rfc3339,
    shortDate ++ .mark ['T'] :: shortTime ++ shortSecond ++ [.shortOffset],
    shortDate ++ .mark ['T'] :: shortTime ++ [.shortOffset],
    shortDate ++ .mark ['T'] :: shortTime ++ shortSecond,
    shortDate ++ .blanks :: shortTime ++ shortSecond,
    shortDate ++ .mark ['T'] :: shortTime,
    shortDate]

/-! ## From readings to instants -/

/-- The seconds of a clock reading since 1970-01-01T00:00:00Z, a leap second counting as the one
before it. -/
def Reading.seconds (r : Reading) : Int :=
  (Date.mk r.year r.month r.day).dayNumber * 86400 +
    (r.hour * 3600 + r.minute * 60 + min r.second 59 : Nat) - r.offset

/-- Whether a clock can show a reading: the date exists, the time is below 24 hours with at most one
leap second, and the offset is below 24 hours. -/
def Reading.isValid (r : Reading) : Bool :=
  (Date.mk r.year r.month r.day).isValid && -262143 ≤ r.year && r.year ≤ 262142 &&
    r.hour ≤ 23 && r.minute ≤ 59 && r.second ≤ 60 && r.offset.natAbs < 86400

/-- The milliseconds of a clock reading since 1970-01-01T00:00:00Z. Apart from the leap second,
which is added last, the instant must be in range. -/
def Reading.millis? (r : Reading) : Option Int :=
  if r.isValid ∧ firstMillis ≤ r.seconds * 1000 ∧ r.seconds * 1000 ≤ lastMillis then
    some (r.seconds * 1000 + r.millisecond + if r.second = 60 then 1000 else 0)
  else none

/-- The milliseconds that a text names in one of the layouts. -/
def readMillis? (s : List Char) : Option Int :=
  layouts.findSome? fun layout => (Layout.read? .blank layout s).bind Reading.millis?

end ShellQuery.Instant
