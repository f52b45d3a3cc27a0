import ShellQuery.Instant.Layout
import ShellQuery.Proofs.Calendar
import ShellQuery.Proofs.Decimal
/-!
# Instants are read from their texts

The canonical text of an instant names the instant, in any year (`readMillis?_canonical`,
`ofMillis?_millis`), and so does the text without the zeros at the end of the fraction
(`readMillis?_relaxed`). A year of four digits puts the text into the layout of RFC 3339
(`read?_rfc3339`); a year with a sign does not fit there, but into the second layout
(`read?_shortDate`). What both note is what a clock shows at the instant (`millis?_clock`), however
the fraction of the second is written.
-/

namespace ShellQuery.Instant

open Text Calendar Decimal

section
variable {item : Item} {more : Layout} {reading reading' : Reading} {p : Part} {c : Char}
  {s r : List Char} {n w : Nat}

/-! ## Items -/

/-- An item that can be read leaves the others of its layout to what stands behind it. -/
theorem Layout.read?_cons (h : item.read? reading s = some (reading', r)) :
    Layout.read? reading (item :: more) s = Layout.read? reading' more r := by
  rw [Layout.read?, h]

/-- Digits are taken up to the width. -/
theorem digitsUpTo_append (hs : ∀ c ∈ s, c.isDigit = true) (r : List Char) :
    digitsUpTo s.length (s ++ r) = (s, r) := by
  have htake : s.takeWhile Char.isDigit = s := by
    rw [List.takeWhile_eq_self_iff]
    exact hs
  simp [digitsUpTo, htake]

/-- A number is read up to its width, whatever stands behind it. -/
theorem digitsUpTo_padded (hw : 0 < w) (h : n < 10 ^ w) (r : List Char) :
    digitsUpTo w (padded w n ++ r) = (padded w n, r) := by
  have hdigits := digitsUpTo_append (fun _ => isDigit_of_mem_padded (k := w) (n := n)) r
  rwa [length_padded hw h] at hdigits

/-- Every part of a date has a width. -/
theorem Part.width_pos (part : Part) : 0 < part.width := by
  cases part <;> decide

/-- A padded number begins with a digit. -/
theorem exists_padded_eq_cons (w n : Nat) : ∃ c u, padded w n = c :: u ∧ c.isDigit = true := by
  cases h : padded w n with
  | nil => exact absurd h (padded_ne_nil w n)
  | cons c u =>
    refine ⟨c, u, rfl, isDigit_of_mem_padded (k := w) (n := n) ?_⟩
    rw [h]
    exact List.mem_cons_self

/-- A number of the full width is read as the value of its part. -/
theorem read?_full (h : n < 10 ^ w) (hw : p.width = w) (r : List Char) :
    (Item.full p).read? reading (padded w n ++ r) = some (reading.note p n, r) := by
  subst hw
  simp only [Item.read?, digitsUpTo_padded p.width_pos h, length_padded p.width_pos h, if_true,
    value_padded]

/-- A part takes its digits, also where a sign might stand. -/
theorem readShort?_padded (h : n < 10 ^ p.width) (r : List Char) :
    readShort? p (padded p.width n ++ r) = some ((n : Int), r) := by
  obtain ⟨c, u, hcut, hc⟩ := exists_padded_eq_cons p.width n
  have hdigits := digitsUpTo_padded p.width_pos h r
  have hvalue : value (c :: u) = n := by
    rw [← hcut]
    exact value_padded _ _
  have hsign : ¬(c = '-' ∨ c = '+') := by
    rintro (rfl | rfl) <;> cases hc
  rw [hcut, List.cons_append] at hdigits ⊢
  cases p <;> simp only [readShort?, hdigits, hvalue, hsign, if_false]

/-- A part with all its digits is also read where fewer would do. -/
theorem read?_short (h : n < 10 ^ w) (hw : p.width = w) (r : List Char) :
    (Item.short p).read? reading (padded w n ++ r) = some (reading.note p n, r) := by
  subst hw
  obtain ⟨c, u, hcut, hc⟩ := exists_padded_eq_cons p.width n
  have htrim : trimStart (padded p.width n ++ r) = padded p.width n ++ r := by
    refine dropWhile_of_stops ?_
    simpa [hcut] using isBlank_of_isDigit hc
  simp only [Item.read?, htrim, readShort?_padded h, Option.map_some]

/-- A mark is one of the characters that are accepted for it. -/
theorem read?_mark {accepted : List Char} (h : accepted.contains c = true) (r : List Char) :
    (Item.mark accepted).read? reading (c :: r) = some (reading, r) := by
  simp only [Item.read?, h, if_true]

/-- Three digits behind the point are milliseconds. -/
theorem fractionMillis_padded (h : n < 10 ^ 3) : fractionMillis (padded 3 n) = n := by
  have hlen := length_padded (by decide : 0 < 3) h
  have htake : (padded 3 n ++ ['0', '0', '0']).take 3 = padded 3 n := by
    rw [List.take_append_of_le_length (by omega), List.take_of_length_le (by omega)]
  rw [fractionMillis, htake, value_padded]

/-- What a fraction is written as, in front of the letter for UTC. -/
def Fraction (s : List Char) (n : Nat) : Prop :=
  readFraction? (s ++ ['Z']) = some (n, ['Z'])

/-- A point and any digits are a fraction. -/
theorem fraction_of_digits (hs : ∀ c ∈ s, c.isDigit = true) (hne : s ≠ []) :
    Fraction ('.' :: s) (fractionMillis s) := by
  have hstop : Stops Char.isDigit ['Z'] := by simp
  simp only [Fraction, List.cons_append, readFraction?, takeWhile_append_stops hs hstop,
    dropWhile_append_stops hs hstop]

/-- A point and three digits are the fraction of so many milliseconds. -/
theorem fraction_padded (h : n < 10 ^ 3) : Fraction ('.' :: padded 3 n) n := by
  have hfraction := fraction_of_digits (fun _ => isDigit_of_mem_padded (k := 3)) (padded_ne_nil 3 n)
  rwa [fractionMillis_padded h] at hfraction

/-- Zeros that a fraction lacks at its end are filled in. -/
theorem fractionMillis_dropWhileEnd (h : n < 10 ^ 3) :
    fractionMillis (dropWhileEnd (· == '0') (padded 3 n)) = n := by
  have hlen := length_padded (by decide : 0 < 3) h
  obtain ⟨k, hcut⟩ := exists_eq_dropWhileEnd_append '0' (padded 3 n)
  have hk : k + (3 - k) = 3 := by
    rw [hcut, List.length_append, List.length_replicate] at hlen
    omega
  have hfill : ['0', '0', '0'] = List.replicate k '0' ++ List.replicate (3 - k) '0' := by
    rw [List.replicate_append_replicate, hk]
    rfl
  rw [fractionMillis, hfill, ← List.append_assoc, ← hcut, List.take_left' hlen, value_padded]

/-- Three digits without the zeros at their end are a fraction, without a point if none is left. -/
theorem fraction_dropWhileEnd (h : n < 10 ^ 3) {digits : List Char}
    (hcut : digits = dropWhileEnd (· == '0') (padded 3 n)) :
    Fraction (if digits.isEmpty then [] else '.' :: digits) n := by
  have hmillis := fractionMillis_dropWhileEnd h
  rw [← hcut] at hmillis
  split
  · rename_i hempty
    rw [List.isEmpty_iff.1 hempty] at hmillis
    rw [← hmillis]
    rfl
  · rename_i hne
    obtain ⟨k, hpadded⟩ := exists_eq_dropWhileEnd_append '0' (padded 3 n)
    have hdigits : ∀ c ∈ digits, c.isDigit = true := by
      intro c hc
      refine isDigit_of_mem_padded (k := 3) (n := n) ?_
      rw [hpadded, ← hcut]
      exact List.mem_append_left _ hc
    have hfraction := fraction_of_digits hdigits (mt List.isEmpty_iff.2 hne)
    rwa [hmillis] at hfraction

/-- A fraction is read up to the mark for the zone. -/
theorem Fraction.read? (h : Fraction s n) :
    Item.fraction.read? reading (s ++ ['Z']) = some ({ reading with millisecond := n }, ['Z']) := by
  rw [Fraction] at h
  simp only [Item.read?, h, Option.map_some]

/-- A year that carries a sign may have any number of digits. -/
theorem read?_short_year {m : Numeral} (hs : NumeralText (c :: s) m) (hc : c = '-' ∨ c = '+')
    (hr : Stops Char.isDigit r) :
    (Item.short .year).read? reading (c :: (s ++ r)) = some (reading.note .year m.toInt, r) := by
  have htrim : trimStart (c :: (s ++ r)) = c :: (s ++ r) := by
    refine dropWhile_of_stops ?_
    rcases hc with rfl | rfl <;> simp [isBlank]
  have hnumeral : Numeral.read? (c :: (s ++ r)) = some (m, r) := hs.read? hr
  simp only [Item.read?, htrim, readShort?, if_pos hc, hnumeral, Option.map_some]

end

/-! ## Layouts -/

/-- The readings that a canonical text can show: every part but the year has the digits it is
written with, and the clock is that of UTC. -/
structure Reading.Fits (x : Reading) : Prop where
  month : x.month < 10 ^ 2
  day : x.day < 10 ^ 2
  hour : x.hour < 10 ^ 2
  minute : x.minute < 10 ^ 2
  second : x.second < 10 ^ 2
  millisecond : x.millisecond < 10 ^ 3
  offset : x.offset = 0

/-- What stands behind the year, when the fraction of the second is written in a certain way. -/
def Reading.behindYear (x : Reading) (fraction : List Char) : List Char :=
  '-' :: (padded 2 x.month ++ '-' :: (padded 2 x.day ++ 'T' :: (padded 2 x.hour ++ ':' ::
    (padded 2 x.minute ++ ':' :: (padded 2 x.second ++ (fraction ++ ['Z']))))))

section
variable {x : Reading} {c : Char} {s fraction : List Char}

/-- The layout of RFC 3339 fits a year of four digits. -/
theorem read?_rfc3339 {n : Nat} (hn : n < 10 ^ 4) (hyear : x.year = n) (hx : x.Fits)
    (hfraction : Fraction fraction x.millisecond) :
    Layout.read? .blank rfc3339 (padded 4 n ++ x.behindYear fraction) = some x := by
  rw [rfc3339, Reading.behindYear, Layout.read?_cons (read?_full (p := .year) hn rfl _),
    Layout.read?_cons (read?_mark rfl _),
    Layout.read?_cons (read?_full (p := .month) hx.month rfl _),
    Layout.read?_cons (read?_mark rfl _), Layout.read?_cons (read?_full (p := .day) hx.day rfl _),
    Layout.read?_cons (read?_mark rfl _), Layout.read?_cons (read?_full (p := .hour) hx.hour rfl _),
    Layout.read?_cons (read?_mark rfl _),
    Layout.read?_cons (read?_full (p := .minute) hx.minute rfl _),
    Layout.read?_cons (read?_mark rfl _),
    Layout.read?_cons (read?_full (p := .second) hx.second rfl _),
    Layout.read?_cons hfraction.read?, ← hyear]
  exact congrArg (fun o => some { x with offset := o }) hx.offset.symm

/-- The second layout fits a year with a sign. -/
theorem read?_shortDate {m : Numeral} (hm : NumeralText (c :: s) m) (hc : c = '-' ∨ c = '+')
    (hyear : m.toInt = x.year) (hx : x.Fits) (hfraction : Fraction fraction x.millisecond) :
    Layout.read? .blank (shortDate ++ .mark ['T'] :: shortTime ++ shortSecond ++ [.shortOffset])
      (c :: (s ++ x.behindYear fraction)) = some x := by
  simp only [shortDate, shortTime, shortSecond, List.cons_append, List.nil_append,
    Reading.behindYear]
  rw [Layout.read?_cons (read?_short_year hm hc (by simp)), Layout.read?_cons (read?_mark rfl _),
    Layout.read?_cons (read?_short (p := .month) hx.month rfl _),
    Layout.read?_cons (read?_mark rfl _), Layout.read?_cons (read?_short (p := .day) hx.day rfl _),
    Layout.read?_cons (read?_mark rfl _),
    Layout.read?_cons (read?_short (p := .hour) hx.hour rfl _),
    Layout.read?_cons (read?_mark rfl _),
    Layout.read?_cons (read?_short (p := .minute) hx.minute rfl _),
    Layout.read?_cons (read?_mark rfl _),
    Layout.read?_cons (read?_short (p := .second) hx.second rfl _),
    Layout.read?_cons hfraction.read?, hyear]
  exact congrArg (fun o => some { x with offset := o }) hx.offset.symm

/-- The layout of RFC 3339 fits no text that begins with a sign. -/
theorem read?_rfc3339_of_sign (hc : c = '-' ∨ c = '+') :
    Layout.read? .blank rfc3339 (c :: s) = none := by
  rcases hc with rfl | rfl <;> rfl

end

/-! ## Times of day -/

/-- The reading at a date and a number of milliseconds since midnight. -/
def Reading.ofTime (d : Date) (time : Nat) : Reading :=
  ⟨d.year, d.month, d.day, time / 1000 / 3600, time / 1000 / 60 % 60, time / 1000 % 60,
    time % 1000, 0⟩

/-- A date of the calendar has two digits for its month and for its day. -/
theorem lt_of_isValid {d : Date} (h : d.isValid = true) : d.month < 10 ^ 2 ∧ d.day < 10 ^ 2 := by
  have hlengths : ∀ leap i, (monthLengths leap).getD i 0 ≤ 31 := by
    intro leap i
    by_cases hi : i < 12
    · revert i
      cases leap <;> decide
    · have hlen : (monthLengths leap).length ≤ i := Nat.not_lt.1 hi
      simp [hlen]
  simp only [Date.isValid, Bool.and_eq_true, decide_eq_true_eq] at h
  have hday := hlengths (isLeapYear d.year) (d.month - 1)
  omega

section
variable {d : Date} {time : Nat}

/-- The parts of a date and a time of day have as many digits as their widths. -/
theorem fits_ofTime (hd : d.isValid = true) (htime : time < 86400000) :
    (Reading.ofTime d time).Fits := by
  obtain ⟨hmonth, hday⟩ := lt_of_isValid hd
  have hhour : time / 1000 / 3600 < 10 ^ 2 := by omega
  have hminute : time / 1000 / 60 % 60 < 10 ^ 2 := by omega
  have hsecond : time / 1000 % 60 < 10 ^ 2 := by omega
  exact ⟨hmonth, hday, hhour, hminute, hsecond, Nat.mod_lt _ (by decide), rfl⟩

/-- A valid date in the range of years and a time of day make a valid reading. -/
theorem isValid_ofTime (hd : d.isValid = true) (hyear : -262143 ≤ d.year ∧ d.year ≤ 262142)
    (htime : time < 86400000) : (Reading.ofTime d time).isValid = true := by
  have hhour : time / 1000 / 3600 ≤ 23 := by omega
  have hminute : time / 1000 / 60 % 60 ≤ 59 := by omega
  have hsecond : time / 1000 % 60 ≤ 60 := by omega
  simp [Reading.isValid, Reading.ofTime, hd, hyear, hhour, hminute, hsecond]

/-- A date and a time of day stand for the milliseconds up to the date and of the day. -/
theorem seconds_ofTime (d : Date) (time : Nat) :
    (Reading.ofTime d time).seconds * 1000 + (Reading.ofTime d time).millisecond =
      d.dayNumber * 86400000 + time := by
  have hday : (Date.mk d.year d.month d.day).dayNumber = d.dayNumber := rfl
  simp only [Reading.seconds, Reading.ofTime, hday]
  omega

/-- An instant is written part by part. -/
theorem text_ofTime (d : Date) (time : Nat) (fraction : List Char) :
    yearText d.year ++ '-' :: padded 2 d.month ++ '-' :: padded 2 d.day ++
      'T' :: padded 2 (time / 1000 / 3600) ++ ':' :: padded 2 (time / 1000 / 60 % 60) ++
      ':' :: padded 2 (time / 1000 % 60) ++ fraction ++ ['Z'] =
      yearText (Reading.ofTime d time).year ++ (Reading.ofTime d time).behindYear fraction := by
  simp [Reading.behindYear, Reading.ofTime]

end

/-! ## Years -/

/-- A year of four digits is written as such; any other carries a sign. -/
theorem yearText_cases (y : Int) :
    (∃ n : Nat, y = n ∧ n < 10 ^ 4 ∧ yearText y = padded 4 n) ∨
      ∃ c s m, (c = '-' ∨ c = '+') ∧ yearText y = c :: s ∧ NumeralText (c :: s) m ∧
        m.toInt = y := by
  have hdigits : ∀ c ∈ padded 4 y.natAbs, c.isDigit = true := fun _ => isDigit_of_mem_padded
  have hne := padded_ne_nil 4 y.natAbs
  unfold yearText
  split
  · refine .inr ⟨_, _, _, .inl rfl, rfl, .minus hne hdigits, ?_⟩
    rw [Numeral.toInt, if_pos rfl, value_padded]
    omega
  split
  · refine .inr ⟨_, _, _, .inr rfl, rfl, .plus hne hdigits, ?_⟩
    rw [Numeral.toInt, if_neg Bool.false_ne_true, value_padded]
    omega
  · exact .inl ⟨y.natAbs, by omega, by omega, rfl⟩

/-- The years of all instants are in range. -/
theorem year_date (t : Instant) : -262143 ≤ t.date.year ∧ t.date.year ≤ 262142 := by
  have hfirst := t.firstMillis_le
  have hlast := t.le_lastMillis
  rw [firstMillis, millisPerDay] at hfirst
  rw [lastMillis, millisPerDay] at hlast
  rw [date, millisPerDay]
  refine ⟨le_year_of_dayNumber_le ?_, Int.le_of_lt_add_one (year_lt_of_lt_dayNumber ?_)⟩
  · generalize (Date.mk (-262143) 1 1).dayNumber = first at *
    omega
  · show _ < (Date.mk 262143 1 1).dayNumber
    generalize (Date.mk 262143 1 1).dayNumber = next at *
    omega

/-! ## Instants -/

/-- What a clock that shows UTC reads at an instant. -/
def clock (t : Instant) : Reading :=
  .ofTime t.date t.timeOfDay

/-- A day has 86400000 milliseconds. -/
theorem timeOfDay_lt (t : Instant) : t.timeOfDay < 86400000 := by
  rw [timeOfDay, millisPerDay]
  omega

/-- Every instant is on a valid date. -/
theorem isValid_date (t : Instant) : t.date.isValid = true :=
  isValid_ofDayNumber _

/-- The parts of an instant have as many digits as their widths. -/
theorem fits_clock (t : Instant) : t.clock.Fits :=
  fits_ofTime (isValid_date t) (timeOfDay_lt t)

/-- The parts of an instant are a valid reading. -/
theorem isValid_clock (t : Instant) : t.clock.isValid = true :=
  isValid_ofTime (isValid_date t) (year_date t) (timeOfDay_lt t)

/-- The parts of an instant stand for its milliseconds. -/
theorem seconds_clock (t : Instant) :
    t.clock.seconds * 1000 + t.clock.millisecond = t.millis := by
  have hday : t.date.dayNumber = t.millis / 86400000 := dayNumber_ofDayNumber _
  have htime : (t.timeOfDay : Int) = t.millis % 86400000 :=
    Int.toNat_of_nonneg (Int.emod_nonneg _ (by decide))
  rw [clock, seconds_ofTime, hday, htime]
  omega

/-- An instant is written with its year in front and all other parts behind it. -/
theorem toSecond_append (t : Instant) (fraction : List Char) :
    t.toSecond ++ fraction ++ ['Z'] = yearText t.clock.year ++ t.clock.behindYear fraction :=
  text_ofTime t.date t.timeOfDay fraction

/-- The clock reading of an instant is that of the instant. -/
theorem millis?_clock (t : Instant) : t.clock.millis? = some t.millis := by
  have hseconds := seconds_clock t
  have hms := (fits_clock t).millisecond
  have hleap : t.clock.second ≠ 60 := Nat.ne_of_lt (Nat.mod_lt _ (by decide))
  have hfirst := t.firstMillis_le
  have hlast := t.le_lastMillis
  have hstart : firstMillis ≤ t.clock.seconds * 1000 := by
    rw [firstMillis, millisPerDay] at *
    omega
  rw [Reading.millis?, if_pos ⟨isValid_clock t, hstart, by omega⟩, if_neg hleap]
  congr 1
  omega

/-- Every instant is within the range of instants. -/
theorem ofMillis?_millis (t : Instant) : ofMillis? t.millis = some t := by
  rw [ofMillis?, dif_pos ⟨t.firstMillis_le, t.le_lastMillis⟩]

/-- An instant is read from its date and time, however the fraction of the second is written. -/
theorem readMillis?_of_fraction {t : Instant} {fraction : List Char}
    (h : Fraction fraction t.clock.millisecond) :
    readMillis? (t.toSecond ++ fraction ++ ['Z']) = some t.millis := by
  rw [toSecond_append]
  rcases yearText_cases t.clock.year with ⟨n, hyear, hn, htext⟩ | ⟨c, s, m, hc, htext, hm, hyear⟩
  · rw [htext, readMillis?, layouts, List.findSome?_cons, read?_rfc3339 hn hyear (fits_clock t) h,
      Option.bind_some, millis?_clock]
  · rw [htext, List.cons_append, readMillis?, layouts, List.findSome?_cons,
      read?_rfc3339_of_sign hc, Option.bind_none, List.findSome?_cons,
      read?_shortDate hm hc hyear (fits_clock t) h, Option.bind_some, millis?_clock]

/-- **The canonical text of an instant names this instant.** -/
theorem readMillis?_canonical (t : Instant) : readMillis? t.canonical = some t.millis :=
  readMillis?_of_fraction (fraction_padded (fits_clock t).millisecond)

/-- **The text of an instant without zeros at its end names this instant.** -/
theorem readMillis?_relaxed (t : Instant) : readMillis? t.relaxed = some t.millis :=
  readMillis?_of_fraction (fraction_dropWhileEnd (fits_clock t).millisecond rfl)

/-- A canonical text is made of digits and the marks between them. -/
theorem mem_canonical {t : Instant} {c : Char} (h : c ∈ t.canonical) :
    c.isDigit = true ∨ c ∈ ['-', '+', 'T', ':', '.', 'Z'] := by
  have hpadded : ∀ {w n : Nat}, c ∈ padded w n → c.isDigit = true := isDigit_of_mem_padded
  rw [canonical, toSecond_append] at h
  rcases yearText_cases t.clock.year with ⟨n, hyear, hn, htext⟩ | ⟨d, s, m, hd, htext, hm, hyear⟩
  · simp only [htext, Reading.behindYear, List.mem_append, List.mem_cons] at h ⊢
    grind
  · simp only [htext, Reading.behindYear, List.mem_append, List.mem_cons] at h ⊢
    cases hm <;> grind

end ShellQuery.Instant
