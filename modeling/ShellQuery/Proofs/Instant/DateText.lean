import ShellQuery.Proofs.Instant
/-!
# The layouts agree

A date may be written with or without a time, with or without an offset, and the layouts are tried
one after the other. `DateText` says what each way of writing shows on a clock, and
`readMillis?_dateText` that this reading is the one that counts, whichever layout fits the text
first: a layout that fits shows the same, and one of them fits. What the reading names is then a
matter of the calendar alone (`Reading.millis?_eq`).
-/

namespace ShellQuery.Instant

open Text Calendar Decimal

/-! ## Dates as they are written -/

/-- A year, a month and a day with all their digits. -/
inductive DayText : List Char → Date → Prop
  | mk {y mo d : Nat} : y < 10 ^ 4 → mo < 10 ^ 2 → d < 10 ^ 2 →
      DayText (padded 4 y ++ '-' :: (padded 2 mo ++ '-' :: padded 2 d)) ⟨y, mo, d⟩

/-- Hours and minutes with all their digits. -/
inductive MinuteText : List Char → Nat → Nat → Prop
  | mk {h mi : Nat} : h < 10 ^ 2 → mi < 10 ^ 2 →
      MinuteText (padded 2 h ++ ':' :: padded 2 mi) h mi

/-- The fraction of a second and its milliseconds, rounded down. -/
inductive FractionText : List Char → Nat → Prop
  | none : FractionText [] 0
  | digits {ds : List Char} : ds ≠ [] → (∀ c ∈ ds, c.isDigit = true) →
      FractionText ('.' :: ds) (value ds * 1000 / 10 ^ ds.length)

/-- The seconds of an offset with a sign. -/
def offsetSeconds (sign : Char) (h mi : Nat) : Int :=
  if sign = '-' then -(h * 3600 + mi * 60) else h * 3600 + mi * 60

/-- An offset of less than 24 hours, and its seconds. -/
inductive OffsetText : List Char → Int → Prop
  | utc : OffsetText ['Z'] 0
  | colon {c : Char} {h mi : Nat} : c = '+' ∨ c = '-' → h < 24 → mi < 60 →
      OffsetText (c :: (padded 2 h ++ ':' :: padded 2 mi)) (offsetSeconds c h mi)
  | plain {c : Char} {h mi : Nat} : c = '+' ∨ c = '-' → h < 24 → mi < 60 →
      OffsetText (c :: (padded 2 h ++ padded 2 mi)) (offsetSeconds c h mi)
  | hours {c : Char} {h : Nat} : c = '+' ∨ c = '-' → h < 24 →
      OffsetText (c :: padded 2 h) (offsetSeconds c h 0)

/-- An offset, or nothing for that of UTC. -/
inductive ZoneText : List Char → Int → Prop
  | none : ZoneText [] 0
  | offset {s : List Char} {o : Int} : OffsetText s o → ZoneText s o

/-- A date, alone or with a time, and what it shows on a clock. -/
inductive DateText : List Char → Reading → Prop
  | day {s : List Char} {d : Date} : DayText s d →
      DateText s ⟨d.year, d.month, d.day, 0, 0, 0, 0, 0⟩
  | minute {s t z : List Char} {d : Date} {h mi : Nat} {o : Int} : DayText s d →
      MinuteText t h mi → ZoneText z o →
      DateText (s ++ 'T' :: (t ++ z)) ⟨d.year, d.month, d.day, h, mi, 0, 0, o⟩
  | second {s t f z : List Char} {d : Date} {h mi sec ms : Nat} {o : Int} : DayText s d →
      MinuteText t h mi → sec < 10 ^ 2 → FractionText f ms → ZoneText z o →
      DateText (s ++ 'T' :: (t ++ ':' :: (padded 2 sec ++ (f ++ z))))
        ⟨d.year, d.month, d.day, h, mi, sec, ms, o⟩
  | spaced {s t f : List Char} {d : Date} {h mi sec ms : Nat} : DayText s d →
      MinuteText t h mi → sec < 10 ^ 2 → FractionText f ms →
      DateText (s ++ ' ' :: (t ++ ':' :: (padded 2 sec ++ f)))
        ⟨d.year, d.month, d.day, h, mi, sec, ms, 0⟩

section
variable {s t f z r : List Char} {d : Date} {h mi sec ms w n : Nat} {o : Int} {x : Reading}
  {l : Layout}

/-! ## Fractions and offsets -/

/-- The value of digits in two parts. -/
theorem value_append (s r : List Char) : value (s ++ r) = value s * 10 ^ r.length + value r := by
  rw [value, value, value, Nat.ofDigitChars_append, Nat.ofDigitChars_eq_ofDigitChars_zero,
    Nat.mul_comm]

/-- Digits at the end count only for what is below their power of ten. -/
theorem value_take (hs : ∀ c ∈ s, c.isDigit = true) (n : Nat) :
    value (s.take n) = value s / 10 ^ (s.drop n).length := by
  have hlow : value (s.drop n) < 10 ^ (s.drop n).length :=
    value_lt fun c hc => hs c (List.mem_of_mem_drop hc)
  have hcut := value_append (s.take n) (s.drop n)
  rw [List.take_append_drop] at hcut
  rw [hcut, Nat.add_comm, Nat.add_mul_div_right _ _ (Nat.pow_pos (by decide)),
    Nat.div_eq_of_lt hlow, Nat.zero_add]

/-- The milliseconds of a fraction are its value in thousandths, rounded down. -/
theorem fractionMillis_eq (hs : ∀ c ∈ s, c.isDigit = true) :
    fractionMillis s = value s * 1000 / 10 ^ s.length := by
  have hfilled : ∀ c ∈ s ++ ['0', '0', '0'], c.isDigit = true := by
    rw [List.forall_mem_append]
    exact ⟨hs, List.all_eq_true.1 rfl⟩
  have hdropped : ((s ++ ['0', '0', '0']).drop 3).length = s.length := by simp
  have hzero : value ['0', '0', '0'] = 0 := rfl
  have hzeros : value (s ++ ['0', '0', '0']) = value s * 1000 := by
    rw [value_append, hzero, Nat.add_zero]
    rfl
  rw [fractionMillis, value_take hfilled, hdropped, hzeros]

/-- The text that a fraction stops at. -/
def StopsFraction (r : List Char) : Prop :=
  Stops (fun c => c.isDigit || c == '.') r

/-- A fraction is read up to what stops it. -/
theorem FractionText.readFraction? (hf : FractionText f ms) (hr : StopsFraction r) :
    Instant.readFraction? (f ++ r) = some (ms, r) := by
  cases hf with
  | none =>
    cases r with
    | nil => rfl
    | cons c r =>
      have hc : c ≠ '.' := by
        rintro rfl
        cases stops_cons.1 hr
      unfold Instant.readFraction?
      split
      · rename_i heq
        exact absurd (List.cons.inj heq).1 hc
      · rfl
  | digits hne hds =>
    have hstop : Stops Char.isDigit r := hr.mono fun c hc => by simp [hc]
    obtain ⟨c, u, rfl⟩ := List.exists_cons_of_ne_nil hne
    rw [List.cons_append, Instant.readFraction?, takeWhile_append_stops hds hstop,
      dropWhile_append_stops hds hstop, ← fractionMillis_eq hds]

/-- The item for a fraction reads it up to what stops it, and notes its milliseconds. -/
theorem FractionText.read? (hf : FractionText f ms) (hr : StopsFraction r) :
    Item.fraction.read? x (f ++ r) = some ({ x with millisecond := ms }, r) := by
  rw [Item.read?, hf.readFraction? hr]
  rfl

/-- A number below a hundred is padded to two digits, which have it as their value. -/
theorem exists_padded_two (hn : n < 10 ^ 2) : ∃ a b, padded 2 n = [a, b] ∧ a.isDigit = true ∧
    b.isDigit = true ∧ value [a, b] = n := by
  obtain ⟨a, b, hcut⟩ := List.length_eq_two.1 (length_padded (by decide : 0 < 2) hn)
  have hdigit : ∀ c ∈ [a, b], c.isDigit = true := hcut ▸ fun _ => isDigit_of_mem_padded
  exact ⟨a, b, hcut, hdigit a (by simp), hdigit b (by simp), hcut ▸ value_padded 2 n⟩

/-- The minutes of an offset are two digits below 60. -/
theorem readMinutes?_padded (hmi : mi < 60) (r : List Char) :
    readMinutes? (padded 2 mi ++ r) = some (mi, r) := by
  obtain ⟨a, b, hcut, ha, hb, hvalue⟩ := exists_padded_two (n := mi) (by omega)
  rw [hcut]
  simp [readMinutes?, ha, hb, hvalue, hmi]

/-- Colons and blanks are passed over in front of a digit. -/
theorem dropWhile_padded (n : Nat) (r : List Char) :
    (padded w n ++ r).dropWhile (fun c => c == ':' || isBlank c) = padded w n ++ r := by
  obtain ⟨c, u, hcut, hc⟩ := exists_padded_eq_cons w n
  rw [hcut]
  refine dropWhile_of_stops (stops_cons.2 ?_)
  have hcolon : c ≠ ':' := by
    rintro rfl
    cases hc
  simp [hcolon, isBlank_of_isDigit hc]

/-- An offset may have hours only. -/
theorem readHours?_hours (hh : h < 24) : readHours? false (padded 2 h) = some (h * 3600, []) := by
  obtain ⟨a, b, hcut, ha, hb, hvalue⟩ := exists_padded_two (n := h) (by omega)
  rw [hcut]
  simp [readHours?, ha, hb, hvalue]

/-- Minutes may stand behind a colon or not. -/
theorem readHours?_minutes (hh : h < 24) (hmi : mi < 60) (ht : t = [] ∨ t = [':']) :
    readHours? false (padded 2 h ++ (t ++ padded 2 mi)) = some (h * 3600 + mi * 60, []) := by
  obtain ⟨a, b, hcut, ha, hb, hvalue⟩ := exists_padded_two (n := h) (by omega)
  obtain ⟨c, u, hcons, -⟩ := exists_padded_eq_cons 2 mi
  have hminutes := readMinutes?_padded hmi []
  have hdrop : (t ++ padded 2 mi).dropWhile (fun c => c == ':' || isBlank c) = padded 2 mi := by
    have hstop := dropWhile_padded (w := 2) mi []
    rw [List.append_nil] at hstop
    rcases ht with rfl | rfl
    · exact hstop
    · rw [List.singleton_append, List.dropWhile_cons_of_pos (by simp), hstop]
  rw [List.append_nil, hcons] at hminutes
  rw [hcons] at hdrop
  rw [hcut, hcons]
  simp [readHours?, ha, hb, hvalue, hdrop, hminutes]

/-- With a colon asked for, the offset is read if it has one. -/
theorem readHours?_full (hh : h < 24) (hmi : mi < 60) :
    readHours? true (padded 2 h ++ ':' :: padded 2 mi) = some (h * 3600 + mi * 60, []) := by
  obtain ⟨a, b, hcut, ha, hb, hvalue⟩ := exists_padded_two (n := h) (by omega)
  have hminutes := readMinutes?_padded hmi []
  rw [List.append_nil] at hminutes
  rw [hcut]
  simp [readHours?, ha, hb, hvalue, hminutes]

/-- With a colon asked for, an offset without one is not read. -/
theorem readHours?_full_eq_none (hh : h < 24) (hr : r.head? ≠ some ':') :
    readHours? true (padded 2 h ++ r) = none := by
  obtain ⟨a, b, hcut, ha, hb, hvalue⟩ := exists_padded_two (n := h) (by omega)
  rw [hcut]
  simp only [readHours?, List.cons_append, List.nil_append, ha, hb, and_self, if_true]
  split
  · exact absurd rfl hr
  · rfl

/-- The sign of an offset counts for its hours and minutes. -/
theorem readOffset?_sign {c : Char} {full : Bool} (hc : c = '+' ∨ c = '-')
    (hr : readHours? full r = some (h * 3600 + mi * 60, [])) :
    readOffset? full (c :: r) = some (offsetSeconds c h mi, []) := by
  rcases hc with rfl | rfl <;> simp [readOffset?, hr, offsetSeconds]

/-- What is not read behind a sign is not read with it. -/
theorem readOffset?_eq_none {c : Char} {full : Bool} (hc : c = '+' ∨ c = '-')
    (hr : readHours? full r = none) : readOffset? full (c :: r) = none := by
  rcases hc with rfl | rfl <;> simp [readOffset?, hr]

/-- Every offset is read where no colon is asked for. -/
theorem OffsetText.readShort (hz : OffsetText z o) : readOffset? false z = some (o, []) := by
  cases hz with
  | utc => rfl
  | colon hc hh hmi => exact readOffset?_sign hc (readHours?_minutes (t := [':']) hh hmi (.inr rfl))
  | plain hc hh hmi => exact readOffset?_sign hc (readHours?_minutes (t := []) hh hmi (.inl rfl))
  | @hours _ h hc hh =>
    have hhours : readHours? false (padded 2 h) = some (h * 3600 + 0 * 60, []) := by
      rw [Nat.zero_mul, Nat.add_zero, readHours?_hours hh]
    exact readOffset?_sign hc hhours

/-- Where one is asked for, an offset is read as its seconds or not at all. -/
theorem OffsetText.readFull (hz : OffsetText z o) :
    readOffset? true z = none ∨ readOffset? true z = some (o, []) := by
  cases hz with
  | utc => exact .inr rfl
  | colon hc hh hmi => exact .inr (readOffset?_sign hc (readHours?_full hh hmi))
  | @plain _ _ mi hc hh hmi =>
    obtain ⟨c, u, hcut, hdigit⟩ := exists_padded_eq_cons 2 mi
    refine .inl (readOffset?_eq_none hc (readHours?_full_eq_none hh ?_))
    rw [hcut]
    rintro ⟨rfl⟩
    cases hdigit
  | @hours _ h hc hh =>
    have hnone := readHours?_full_eq_none (r := []) hh (by simp)
    rw [List.append_nil] at hnone
    exact .inl (readOffset?_eq_none hc hnone)

/-- An offset begins with a letter or a sign. -/
theorem OffsetText.eq_cons (hz : OffsetText z o) :
    ∃ c u, z = c :: u ∧ (c = 'Z' ∨ c = '+' ∨ c = '-') := by
  cases hz with
  | utc => exact ⟨_, _, rfl, .inl rfl⟩
  | colon hc | plain hc | hours hc => exact ⟨_, _, rfl, .inr hc⟩

/-! ## Layouts piece by piece -/

/-- A piece of a layout takes a text off the front, and notes something. -/
def Layout.Takes (l : Layout) (s : List Char) (note : Reading → Reading) : Prop :=
  ∀ x more r, Layout.read? x (l ++ more) (s ++ r) = Layout.read? (note x) more r

/-- A date as RFC 3339 has it. -/
def fullDate : Layout :=
  [.full .year, .mark ['-'], .full .month, .mark ['-'], .full .day]

/-- Hours and minutes as RFC 3339 has them. -/
def fullTime : Layout :=
  [.full .hour, .mark [':'], .full .minute]

/-- Notes a date. -/
def Reading.onDay (x : Reading) (d : Date) : Reading :=
  { x with year := d.year, month := d.month, day := d.day }

/-- Notes hours and minutes. -/
def Reading.atMinute (x : Reading) (h mi : Nat) : Reading :=
  { x with hour := h, minute := mi }

/-- A date is read with two digits for its parts, and where fewer would do. -/
theorem DayText.takes (hs : DayText s d) :
    fullDate.Takes s (·.onDay d) ∧ shortDate.Takes s (·.onDay d) := by
  obtain ⟨hy, hmo, hd⟩ := hs
  refine ⟨fun x more r => ?_, fun x more r => ?_⟩
  · simp only [fullDate, List.cons_append, List.nil_append, List.append_assoc]
    rw [Layout.read?_cons (read?_full (p := .year) hy rfl _), Layout.read?_cons (read?_mark rfl _),
      Layout.read?_cons (read?_full (p := .month) hmo rfl _), Layout.read?_cons (read?_mark rfl _),
      Layout.read?_cons (read?_full (p := .day) hd rfl _)]
    rfl
  · simp only [shortDate, List.cons_append, List.nil_append, List.append_assoc]
    rw [Layout.read?_cons (read?_short (p := .year) hy rfl _), Layout.read?_cons (read?_mark rfl _),
      Layout.read?_cons (read?_short (p := .month) hmo rfl _), Layout.read?_cons (read?_mark rfl _),
      Layout.read?_cons (read?_short (p := .day) hd rfl _)]
    rfl

/-- A time without seconds is read with two digits for its parts, and where fewer would do. -/
theorem MinuteText.takes (ht : MinuteText t h mi) :
    fullTime.Takes t (·.atMinute h mi) ∧ shortTime.Takes t (·.atMinute h mi) := by
  obtain ⟨hh, hmi⟩ := ht
  refine ⟨fun x more r => ?_, fun x more r => ?_⟩
  · simp only [fullTime, List.cons_append, List.nil_append, List.append_assoc]
    rw [Layout.read?_cons (read?_full (p := .hour) hh rfl _), Layout.read?_cons (read?_mark rfl _),
      Layout.read?_cons (read?_full (p := .minute) hmi rfl _)]
    rfl
  · simp only [shortTime, List.cons_append, List.nil_append, List.append_assoc]
    rw [Layout.read?_cons (read?_short (p := .hour) hh rfl _), Layout.read?_cons (read?_mark rfl _),
      Layout.read?_cons (read?_short (p := .minute) hmi rfl _)]
    rfl

/-- Notes seconds and their fraction. -/
def Reading.atSecond (x : Reading) (sec ms : Nat) : Reading :=
  { x with second := sec, millisecond := ms }

/-- Seconds and their fraction are read where two digits are asked for. -/
theorem read?_fullSecond (hsec : sec < 10 ^ 2) (hf : FractionText f ms) (hr : StopsFraction r) :
    Layout.read? x (.mark [':'] :: .full .second :: .fraction :: l)
      (':' :: (padded 2 sec ++ (f ++ r))) = Layout.read? (x.atSecond sec ms) l r := by
  rw [Layout.read?_cons (read?_mark rfl _),
    Layout.read?_cons (read?_full (p := .second) hsec rfl _), Layout.read?_cons (hf.read? hr)]
  rfl

/-- Seconds and their fraction are also read where fewer than two digits would do. -/
theorem read?_shortSecond (hsec : sec < 10 ^ 2) (hf : FractionText f ms) (hr : StopsFraction r) :
    Layout.read? x (shortSecond ++ l) (':' :: (padded 2 sec ++ (f ++ r))) =
      Layout.read? (x.atSecond sec ms) l r := by
  rw [shortSecond, List.cons_append, List.cons_append, List.cons_append, List.nil_append,
    Layout.read?_cons (read?_mark rfl _),
    Layout.read?_cons (read?_short (p := .second) hsec rfl _), Layout.read?_cons (hf.read? hr)]
  rfl

/-! ## All layouts -/

/-- What each of the layouts makes of a text. -/
def outcomes (s : List Char) : List (Option Reading) :=
  layouts.map fun layout => Layout.read? .blank layout s

/-- In which order the layouts are tried does not matter if those that fit show the same. -/
theorem readMillis?_of_outcomes (hone : some x ∈ outcomes s)
    (hall : ∀ y ∈ outcomes s, y = none ∨ y = some x) : readMillis? s = x.millis? := by
  obtain ⟨l, hl, hread⟩ := List.mem_map.1 hone
  cases hmillis : readMillis? s with
  | none =>
    have hnone := List.findSome?_eq_none_iff.1 hmillis l hl
    rw [hread, Option.bind_some] at hnone
    exact hnone.symm
  | some n =>
    obtain ⟨k, hk, hsome⟩ := List.exists_of_findSome?_eq_some hmillis
    obtain ⟨y, hy, hn⟩ := Option.bind_eq_some_iff.1 hsome
    rcases hall _ (List.mem_map.2 ⟨k, hk, rfl⟩) with hnone | hsame
    · rw [hy] at hnone
      cases hnone
    · rw [hy] at hsame
      cases hsame
      exact hn.symm

/-- Behind the date the layouts differ. -/
theorem DayText.outcomes (hs : DayText s d) (r : List Char) : Instant.outcomes (s ++ r) =
    [.mark ['T', 't', ' '] :: fullTime ++ [.mark [':'], .full .second, .fraction, .fullOffset],
      .mark ['T'] :: shortTime ++ shortSecond ++ [.shortOffset],
      .mark ['T'] :: shortTime ++ [.shortOffset],
      .mark ['T'] :: shortTime ++ shortSecond,
      .blanks :: shortTime ++ shortSecond,
      .mark ['T'] :: shortTime, []].map fun l => Layout.read? (Reading.blank.onDay d) l r := by
  obtain ⟨hfull, hshort⟩ := hs.takes
  have hrfc : rfc3339 = fullDate ++ (.mark ['T', 't', ' '] :: fullTime ++
      [.mark [':'], .full .second, .fraction, .fullOffset]) := rfl
  have hday := hshort .blank [] r
  rw [List.append_nil] at hday
  simp only [Instant.outcomes, layouts, hrfc, List.append_assoc, List.map_cons, List.map_nil,
    hfull .blank, hshort .blank, hday]

/-! ## Each way of writing -/

/-- The zone is no part of a fraction. -/
theorem ZoneText.stopsFraction (hz : ZoneText z o) : StopsFraction z := by
  cases hz with
  | none => exact stops_nil
  | offset hz =>
    obtain ⟨c, u, rfl, hc⟩ := hz.eq_cons
    exact stops_cons.2 (by rcases hc with rfl | rfl | rfl <;> rfl)

/-- No colon and no blank stands in front of an offset. -/
theorem OffsetText.trimStart (hz : OffsetText z o) : Text.trimStart z = z := by
  obtain ⟨c, u, rfl, hc⟩ := hz.eq_cons
  refine dropWhile_of_stops (stops_cons.2 ?_)
  rcases hc with rfl | rfl | rfl <;> rfl

/-- The zone does not begin with a colon, so no seconds are found in it. -/
theorem read?_colon_of_zone (hz : ZoneText z o) :
    Layout.read? x (.mark [':'] :: l) z = none := by
  cases hz with
  | none => rfl
  | offset hz =>
    obtain ⟨c, u, rfl, hc⟩ := hz.eq_cons
    rcases hc with rfl | rfl | rfl <;> rfl

/-- The offset is noted where no colon is asked for. -/
theorem read?_shortOffset (hz : OffsetText z o) :
    Layout.read? x [.shortOffset] z = some { x with offset := o } := by
  have hitem : Item.shortOffset.read? x z = some ({ x with offset := o }, []) := by
    rw [Item.read?, hz.trimStart, hz.readShort]
    rfl
  rw [Layout.read?_cons hitem, Layout.read?]

/-- Where one is asked for, the offset is noted or the layout does not fit. -/
theorem read?_fullOffset (hz : OffsetText z o) : Layout.read? x [.fullOffset] z = none ∨
    Layout.read? x [.fullOffset] z = some { x with offset := o } := by
  rcases hz.readFull with hnone | hsome
  · exact .inl (by simp [Layout.read?, Item.read?, hnone])
  · exact .inr (by simp [Layout.read?, Item.read?, hsome])

/-- What comes of a zone: with a layout that ends in front of it, and with one that has an offset at
its end, of either kind. One of them fits. -/
theorem outcomes_of_zone (hx : x.offset = 0) (hz : ZoneText z o) :
    (Layout.read? x [] z = some { x with offset := o } ∧ Layout.read? x [.shortOffset] z = none ∧
        Layout.read? x [.fullOffset] z = none) ∨
      Layout.read? x [] z = none ∧ Layout.read? x [.shortOffset] z = some { x with offset := o } ∧
        (Layout.read? x [.fullOffset] z = none ∨
          Layout.read? x [.fullOffset] z = some { x with offset := o }) := by
  cases hz with
  | none =>
    refine .inl ⟨?_, rfl, rfl⟩
    rw [Layout.read?, ← hx]
  | offset hz =>
    refine .inr ⟨?_, read?_shortOffset hz, read?_fullOffset hz⟩
    obtain ⟨c, u, rfl, -⟩ := hz.eq_cons
    rfl

/-- With the letter between date and time the fifth and the last layout do not fit. -/
theorem DayText.outcomes_letter (hs : DayText s d) (ht : MinuteText t h mi) (r : List Char) :
    Instant.outcomes (s ++ 'T' :: (t ++ r)) =
      [Layout.read? ((Reading.blank.onDay d).atMinute h mi)
          [.mark [':'], .full .second, .fraction, .fullOffset] r,
        Layout.read? ((Reading.blank.onDay d).atMinute h mi) (shortSecond ++ [.shortOffset]) r,
        Layout.read? ((Reading.blank.onDay d).atMinute h mi) [.shortOffset] r,
        Layout.read? ((Reading.blank.onDay d).atMinute h mi) shortSecond r, none,
        Layout.read? ((Reading.blank.onDay d).atMinute h mi) [] r, none] := by
  obtain ⟨hfull, hshort⟩ := ht.takes
  have hletter : ∀ more r, Layout.read? (Reading.blank.onDay d) (.mark ['T', 't', ' '] :: more)
      ('T' :: r) = Layout.read? (Reading.blank.onDay d) more r :=
    fun _ _ => Layout.read?_cons (read?_mark rfl _)
  have hletter' : ∀ more r, Layout.read? (Reading.blank.onDay d) (.mark ['T'] :: more)
      ('T' :: r) = Layout.read? (Reading.blank.onDay d) more r :=
    fun _ _ => Layout.read?_cons (read?_mark rfl _)
  have hminute := hshort (Reading.blank.onDay d) [] r
  rw [List.append_nil] at hminute
  rw [hs.outcomes]
  simp only [List.map_cons, List.map_nil, List.cons_append, List.append_assoc, hletter, hletter',
    hfull (Reading.blank.onDay d), hshort (Reading.blank.onDay d), hminute]
  rfl

/-- With a blank between date and time only the first and the fifth layout go on. -/
theorem DayText.outcomes_blank (hs : DayText s d) (ht : MinuteText t h mi) (r : List Char) :
    Instant.outcomes (s ++ ' ' :: (t ++ r)) =
      [Layout.read? ((Reading.blank.onDay d).atMinute h mi)
          [.mark [':'], .full .second, .fraction, .fullOffset] r, none, none, none,
        Layout.read? ((Reading.blank.onDay d).atMinute h mi) shortSecond r, none, none] := by
  obtain ⟨hfull, hshort⟩ := ht.takes
  have hblank : Layout.read? (Reading.blank.onDay d) (.mark ['T', 't', ' '] :: fullTime ++
      [.mark [':'], .full .second, .fraction, .fullOffset]) (' ' :: (t ++ r)) =
        Layout.read? ((Reading.blank.onDay d).atMinute h mi)
          [.mark [':'], .full .second, .fraction, .fullOffset] r := by
    rw [List.cons_append, Layout.read?_cons (read?_mark rfl _), hfull]
  have hblanks : Layout.read? (Reading.blank.onDay d) (.blanks :: shortTime ++ shortSecond)
      (' ' :: (t ++ r)) =
        Layout.read? ((Reading.blank.onDay d).atMinute h mi) shortSecond r := by
    have htrim : Text.trimStart (' ' :: (t ++ r)) = t ++ r := by
      obtain ⟨hh, -⟩ := ht
      obtain ⟨c, u, hcut, hc⟩ := exists_padded_eq_cons 2 h
      have hstop : Stops isBlank (padded 2 h ++ ':' :: padded 2 mi ++ r) := by
        simpa [hcut] using isBlank_of_isDigit hc
      exact dropWhile_append_stops (s := [' ']) (by simp [isBlank]) hstop
    have hitem : Item.blanks.read? (Reading.blank.onDay d) (' ' :: (t ++ r)) =
        some (Reading.blank.onDay d, t ++ r) := by
      rw [Item.read?, htrim]
    rw [List.cons_append, Layout.read?_cons hitem, hshort]
  rw [hs.outcomes]
  simp only [List.map_cons, List.map_nil, hblank, hblanks]
  rfl

/-- **The layouts agree.** One of them fits, and any other that does shows the same. -/
theorem DateText.outcomes (hs : DateText s x) :
    some x ∈ Instant.outcomes s ∧ ∀ y ∈ Instant.outcomes s, y = none ∨ y = some x := by
  cases hs with
  | @day _ d hd =>
    have hlist : Instant.outcomes s =
        [none, none, none, none, none, none, some (Reading.blank.onDay d)] := by
      have hday := hd.outcomes []
      rw [List.append_nil] at hday
      exact hday
    rw [hlist]
    simp [Reading.onDay, Reading.blank]
  | @minute s t z d h mi o hd ht hz =>
    have hcolon := fun l => read?_colon_of_zone (l := l)
      (x := (Reading.blank.onDay d).atMinute h mi) hz
    rw [hd.outcomes_letter ht, hcolon, shortSecond, List.cons_append, hcolon, hcolon]
    rcases outcomes_of_zone (x := (Reading.blank.onDay d).atMinute h mi) rfl hz with
      ⟨hnone, hshort, -⟩ | ⟨hnone, hshort, -⟩
    · rw [hnone, hshort]
      simp [Reading.onDay, Reading.atMinute, Reading.blank]
    · rw [hnone, hshort]
      simp [Reading.onDay, Reading.atMinute, Reading.blank]
  | @second s t f z d h mi sec ms o hd ht hsec hf hz =>
    have hstop := hz.stopsFraction
    have hnone : ∀ x r, Layout.read? x [.shortOffset] (':' :: r) = none := fun _ _ => rfl
    have hend : ∀ x c r, Layout.read? x [] (c :: r) = none := fun _ _ _ => rfl
    have hsecond := fun x l => read?_shortSecond (x := x) (l := l) hsec hf hstop
    have hlast := hsecond ((Reading.blank.onDay d).atMinute h mi) []
    rw [List.append_nil] at hlast
    rw [hd.outcomes_letter ht, read?_fullSecond hsec hf hstop, hsecond, hlast, hnone, hend]
    rcases outcomes_of_zone
      (x := ((Reading.blank.onDay d).atMinute h mi).atSecond sec ms) rfl hz with
      ⟨hempty, hshort, hfull⟩ | ⟨hempty, hshort, hfull | hfull⟩
    all_goals
      rw [hempty, hshort, hfull]
      simp [Reading.onDay, Reading.atMinute, Reading.atSecond, Reading.blank]
  | @spaced s t f d h mi sec ms hd ht hsec hf =>
    have hfull := read?_fullSecond (x := (Reading.blank.onDay d).atMinute h mi)
      (l := [.fullOffset]) hsec hf stops_nil
    have hshort := read?_shortSecond (x := (Reading.blank.onDay d).atMinute h mi) (l := [])
      hsec hf stops_nil
    have hoffset : ∀ x, Layout.read? x [.fullOffset] [] = none := fun _ => rfl
    simp only [List.append_nil] at hfull hshort
    rw [hd.outcomes_blank ht, hfull, hshort, hoffset, Layout.read?]
    simp [Reading.onDay, Reading.atMinute, Reading.atSecond, Reading.blank]

/-- **What a text shows on a clock is what counts.** -/
theorem readMillis?_dateText (hs : DateText s x) : readMillis? s = x.millis? :=
  readMillis?_of_outcomes hs.outcomes.1 hs.outcomes.2

end

/-! ## The calendar -/

/-- The calendar has the date, and the day has the time; a minute may have a leap second. -/
def Reading.Exists (x : Reading) : Prop :=
  (Date.mk x.year x.month x.day).isValid = true ∧ x.hour < 24 ∧ x.minute < 60 ∧ x.second ≤ 60

instance (x : Reading) : Decidable x.Exists :=
  inferInstanceAs (Decidable (_ ∧ _ ∧ _ ∧ _))

/-- The milliseconds since 1970-01-01T00:00:00Z: those of the days, and those since midnight, as far
as they are not the offset. -/
def Reading.utcMillis (x : Reading) : Int :=
  (Date.mk x.year x.month x.day).dayNumber * 86400000 +
    ((x.hour * 3600 + x.minute * 60 + x.second : Nat) * 1000 + x.millisecond) - x.offset * 1000

section
variable {s f z : List Char} {ms : Nat} {o : Int} {x : Reading}

/-- A fraction is less than a second. -/
theorem FractionText.lt (hf : FractionText f ms) : ms < 1000 := by
  cases hf with
  | none => decide
  | @digits ds _ hds =>
    have hvalue := value_lt hds
    rw [Nat.div_lt_iff_lt_mul (Nat.pow_pos (by decide))]
    omega

/-- An offset is less than a day. -/
theorem ZoneText.natAbs_lt (hz : ZoneText z o) : o.natAbs < 86400 := by
  have hsigned : ∀ c h mi, h < 24 → mi < 60 → (offsetSeconds c h mi).natAbs < 86400 := by
    intro c h mi hh hmi
    unfold offsetSeconds
    split <;> omega
  cases hz with
  | none => decide
  | offset hz =>
    cases hz with
    | utc => decide
    | colon _ hh hmi | plain _ hh hmi => exact hsigned _ _ _ hh hmi
    | hours _ hh => exact hsigned _ _ _ hh (by decide)

/-- A date text has a year of four digits. -/
theorem DayText.year {d : Date} (hs : DayText s d) : 0 ≤ d.year ∧ d.year ≤ 9999 := by
  obtain ⟨hy, -, -⟩ := hs
  exact ⟨Int.natCast_nonneg _, Int.ofNat_le.2 (Nat.le_of_lt_succ hy)⟩

/-- A year has four digits, a fraction is less than a second, and an offset less than a day. -/
theorem DateText.bounds (hs : DateText s x) : (0 ≤ x.year ∧ x.year ≤ 9999) ∧
    x.millisecond < 1000 ∧ x.offset.natAbs < 86400 := by
  cases hs with
  | day hd => exact ⟨hd.year, Nat.zero_lt_succ _, Nat.zero_lt_succ _⟩
  | minute hd _ hz => exact ⟨hd.year, Nat.zero_lt_succ _, hz.natAbs_lt⟩
  | second hd _ _ hf hz => exact ⟨hd.year, hf.lt, hz.natAbs_lt⟩
  | spaced hd _ _ hf => exact ⟨hd.year, hf.lt, Nat.zero_lt_succ _⟩

/-- Within these years a reading is valid if its date and its time exist. -/
theorem isValid_iff_exists (hyear : 0 ≤ x.year ∧ x.year ≤ 9999) (ho : x.offset.natAbs < 86400) :
    x.isValid = true ↔ x.Exists := by
  have hrange : -262143 ≤ x.year ∧ x.year ≤ 262142 := by omega
  simp only [Reading.isValid, Reading.Exists, Bool.and_eq_true, decide_eq_true_eq, hrange, ho,
    and_true, and_assoc, Nat.lt_succ_iff]

/-- All dates of four digits for the year are in range, whatever the offset. -/
theorem seconds_bounds (hyear : 0 ≤ x.year ∧ x.year ≤ 9999) (ho : x.offset.natAbs < 86400)
    (hx : x.Exists) :
    firstMillis ≤ x.seconds * 1000 - 86400000 ∧ x.seconds * 1000 + 86400000 ≤ lastMillis := by
  obtain ⟨hdate, hh, hmi, hsec⟩ := hx
  obtain ⟨hfirst, hlast⟩ := dayNumber_bounds hdate
  have hstart := daysBeforeYear_mono hyear.1
  have hend : daysBeforeYear (x.year + 1) ≤ daysBeforeYear 10000 :=
    daysBeforeYear_mono (by omega)
  have hzero : daysBeforeYear 0 = -366 := by decide
  have hmax : daysBeforeYear 10000 = 3652059 := by decide
  have hmin : firstMillis ≤ -3000000 * 86400000 := by decide
  have hbig : 3000000 * 86400000 ≤ lastMillis := by decide
  rw [dayNumber_newYear] at hfirst hlast
  simp only [Reading.seconds, epoch] at *
  omega

/-- **The calendar decides.** A text with a date and a time that exist names their milliseconds, and
any other names nothing. -/
theorem millis?_eq (hyear : 0 ≤ x.year ∧ x.year ≤ 9999) (ho : x.offset.natAbs < 86400) :
    x.millis? = if x.Exists then some x.utcMillis else none := by
  rw [Reading.millis?]
  by_cases hx : x.Exists
  · obtain ⟨hmin, hmax⟩ := seconds_bounds hyear ho hx
    rw [if_pos ⟨(isValid_iff_exists hyear ho).2 hx, by omega, by omega⟩, if_pos hx]
    have hsec := hx.2.2.2
    simp only [Reading.seconds, Reading.utcMillis, Option.some.injEq]
    split <;> omega
  · rw [if_neg (fun h => hx ((isValid_iff_exists hyear ho).1 h.1)), if_neg hx]

/-- The milliseconds of a date and a time that exist are those of an instant. -/
theorem exists_instant (hs : DateText s x) (hx : x.Exists) :
    ∃ t : Instant, t.millis = x.utcMillis := by
  obtain ⟨hyear, hms, ho⟩ := hs.bounds
  obtain ⟨hmin, hmax⟩ := seconds_bounds hyear ho hx
  have hsec := hx.2.2.2
  have hmillis : x.seconds * 1000 ≤ x.utcMillis ∧ x.utcMillis ≤ x.seconds * 1000 + 86400000 := by
    simp only [Reading.seconds, Reading.utcMillis]
    omega
  exact ⟨⟨x.utcMillis, by omega, by omega⟩, rfl⟩

end

end ShellQuery.Instant
