import ShellQuery.Json.Numeral
import ShellQuery.Proofs.Decimal
/-!
# Numbers as tokens

A number of strict JSON is read up to the first character that cannot go on with it, and what is
read does not depend on what stands behind that character. `ReadsAs f t n` says this of a reader
`f`: it takes the text `t` for the number `n` in front of every text that ends a number.
`readNumber_token` cuts a text that was read successfully into such a token and the rest, one lemma
for each part of a number; `readNumber_ofNat` is the token of a natural number of 64 bits.
-/

namespace ShellQuery.Json

open Text

/-- The characters numbers are made of. -/
def isNumeric (c : Char) : Bool :=
  c.isDigit || c == '.' || c == 'e' || c == 'E' || c == '+' || c == '-'

/-- A reader takes a text of numeric characters for a number, whatever text that ends a number
stands behind it. -/
def ReadsAs (f : List Char → Except Fault (Number × List Char)) (t : List Char) (n : Number) :
    Prop :=
  (∀ c ∈ t, isNumeric c = true) ∧ ∀ r, Stops isNumeric r → f (t ++ r) = .ok (n, r)

section
variable {negative : Bool} {m : Nat} {e : Int} {s r : List Char} {n : Number}

/-- Digits are numeric. -/
theorem isNumeric_of_isDigit {c : Char} (h : c.isDigit = true) : isNumeric c = true := by
  simp [isNumeric, h]

/-- An integer is written in numeric characters. -/
theorem isNumeric_of_mem_ofInt {i : Int} {c : Char} (h : c ∈ Decimal.ofInt i) :
    isNumeric c = true := by
  have hdigit : ∀ {d}, d ∈ Decimal.ofNat i.natAbs → isNumeric d = true :=
    fun hd => isNumeric_of_isDigit (Decimal.isDigit_of_mem_ofNat hd)
  unfold Decimal.ofInt at h
  split_ifs at h
  · rcases List.mem_cons.1 h with rfl | h
    exacts [rfl, hdigit h]
  · exact hdigit h

/-- What ends a number ends a run of digits. -/
theorem stops_isDigit (h : Stops isNumeric r) : Stops Char.isDigit r :=
  h.mono fun _ => isNumeric_of_isDigit

/-- A text that does not start with a digit ends a run of them. -/
theorem startsWithDigit_eq_false : startsWithDigit r = false ↔ Stops Char.isDigit r := by
  cases r <;> simp [startsWithDigit]

/-! ## Runs of digits -/

/-- Digits are gathered up to a place where there is no digit or the next one is too many; behind
the gathered ones, any text with no digit, or with the same next character, makes no difference. -/
theorem gather_token (limit value : Nat) (s : List Char) :
    ∃ t, s = t ++ (gather limit value s).2 ∧ (∀ c ∈ t, c.isDigit = true) ∧
      ∀ r, (Stops Char.isDigit r ∨ r.head? = (gather limit value s).2.head?) →
        gather limit value (t ++ r) = ((gather limit value s).1, r) := by
  induction s generalizing value with
  | nil =>
    refine ⟨[], rfl, by simp, fun r hr => ?_⟩
    cases r with
    | nil => rfl
    | cons c r => simp_all [gather]
  | cons c s ih =>
    by_cases hc : c.isDigit ∧ value * 10 + digitValue c ≤ limit
    · obtain ⟨t, hs, ht, hr⟩ := ih (value * 10 + digitValue c)
      have hstep : gather limit value (c :: s) = gather limit (value * 10 + digitValue c) s := by
        simp only [gather, if_pos hc]
      rw [hstep]
      refine ⟨c :: t, congrArg (c :: ·) hs, ?_, fun r h => ?_⟩
      · rintro d (_ | ⟨_, hd⟩)
        exacts [hc.1, ht d hd]
      · simp only [List.cons_append, gather, if_pos hc, hr r h]
    · have hstop : gather limit value (c :: s) = (value, c :: s) := by
        simp only [gather, if_neg hc]
      rw [hstop]
      refine ⟨[], rfl, by simp, fun r h => ?_⟩
      cases r with
      | nil => simp [gather]
      | cons d r =>
        rcases h with h | h
        · rw [stops_cons] at h
          simp [gather, h]
        · rw [List.head?_cons, List.head?_cons, Option.some.injEq] at h
          subst h
          simp only [List.nil_append, gather, if_neg hc]

/-- A run of digits as a whole: those that are gathered and those that are too many. -/
theorem digits_token (limit value : Nat) (s : List Char) :
    ∃ t, s = t ++ (gather limit value s).2.dropWhile Char.isDigit ∧
      (∀ c ∈ t, c.isDigit = true) ∧
      ∀ r, Stops Char.isDigit r → gather limit value (t ++ r) =
        ((gather limit value s).1, (gather limit value s).2.takeWhile Char.isDigit ++ r) := by
  obtain ⟨t, hs, ht, hgather⟩ := gather_token limit value s
  generalize hg : gather limit value s = g at hs hgather ⊢
  obtain ⟨v, u⟩ := g
  dsimp only at hs hgather ⊢
  refine ⟨t ++ u.takeWhile Char.isDigit, ?_, ?_, fun r hr => ?_⟩
  · rw [List.append_assoc, List.takeWhile_append_dropWhile, ← hs]
  · intro c hc
    rcases List.mem_append.1 hc with hc | hc
    · exact ht c hc
    · exact List.mem_takeWhile_imp hc
  · rw [List.append_assoc]
    apply hgather
    cases u with
    | nil => exact .inl (by simpa using hr)
    | cons c u =>
      by_cases hc : c.isDigit = true
      · exact .inr (by simp [hc])
      · exact .inl (by simpa [hc] using hr)

/-- Whether a text starts with a digit is up to the run of digits at its front. -/
theorem startsWithDigit_append (s : List Char) (hr : Stops Char.isDigit r) :
    startsWithDigit (s.takeWhile Char.isDigit ++ r) = startsWithDigit s := by
  cases s with
  | nil => simpa [startsWithDigit] using startsWithDigit_eq_false.2 hr
  | cons c s =>
    by_cases hc : c.isDigit = true
    · simp [startsWithDigit, hc]
    · simpa [startsWithDigit, hc] using startsWithDigit_eq_false.2 hr

/-! ## The parts of a number -/

/-- The parts of a number make the same number whatever stands behind it. -/
theorem readScaled_eq_ok (h : readScaled negative m e s = .ok (n, r)) :
    s = r ∧ ∀ r', readScaled negative m e r' = .ok (n, r') := by
  unfold readScaled at h ⊢
  split at h
  · simp only [Except.ok.injEq, Prod.mk.injEq] at h
    simp_all
  · cases h

/-- The sign of an exponent is one character or none. -/
theorem splitSign_token (s : List Char) :
    ∃ t, s = t ++ (Decimal.Numeral.splitSign s).2 ∧ (∀ c ∈ t, isNumeric c = true) ∧
      ∀ c r, c.isDigit = true → (Decimal.Numeral.splitSign s).2.head? = some c →
        Decimal.Numeral.splitSign (t ++ c :: r) = ((Decimal.Numeral.splitSign s).1, c :: r) := by
  unfold Decimal.Numeral.splitSign
  split
  · exact ⟨['-'], rfl, by simp [isNumeric], fun _ _ _ _ => rfl⟩
  · exact ⟨['+'], rfl, by simp [isNumeric], fun _ _ _ _ => rfl⟩
  · refine ⟨[], rfl, by simp, fun c r hc _ => ?_⟩
    split <;> simp_all

/-- What the digits of an exponent make of a number, if they write `written` up to a `rest`: a zero
where more digits follow, unless the number is to be large, and else the number that they scale. -/
inductive ExponentRead (negative : Bool) (m : Nat) (e : Int) (down : Bool) (written : Nat)
    (rest : List Char) : Number → List Char → Prop
  | vanishing : startsWithDigit rest = true → ¬(m ≠ 0 ∧ !down) →
      ExponentRead negative m e down written rest (.float (signed negative 0.0))
        (rest.dropWhile Char.isDigit)
  | scaled {n : Number} {r : List Char} : startsWithDigit rest = false →
      readScaled negative m (if down then e - written else e + written) rest = .ok (n, r) →
      ExponentRead negative m e down written rest n r

/-- What is read as an exponent is a sign or none, a digit, and what the digits make. -/
theorem readExponent_eq_ok (h : readExponent negative m e s = .ok (n, r)) :
    ∃ down c u, Decimal.Numeral.splitSign s = (down, c :: u) ∧ c.isDigit = true ∧
      ExponentRead negative m e down (gather maxExponent (digitValue c) u).1
        (gather maxExponent (digitValue c) u).2 n r := by
  revert h
  fun_cases readExponent negative m e s with
  | case4 down c u hc value rest hgather hmore hrange hsign =>
    rintro ⟨⟩
    refine ⟨down, c, u, hsign, by simpa using hc, ?_⟩
    rw [hgather]
    exact .vanishing hmore hrange
  | case5 down c u hc value rest hgather hmore hsign =>
    intro h
    refine ⟨down, c, u, hsign, by simpa using hc, ?_⟩
    rw [hgather]
    exact .scaled (by simpa using hmore) h
  | _ => rintro ⟨⟩

/-- What a sign or none, a digit and the digits behind it make is read as an exponent. -/
theorem ExponentRead.readExponent {down : Bool} {c : Char} {u : List Char}
    (h : ExponentRead negative m e down (gather maxExponent (digitValue c) u).1
      (gather maxExponent (digitValue c) u).2 n r)
    (hsign : Decimal.Numeral.splitSign s = (down, c :: u)) (hc : c.isDigit = true) :
    Json.readExponent negative m e s = .ok (n, r) := by
  simp only [Json.readExponent, hsign, hc, Bool.not_true, Bool.false_eq_true, if_false]
  cases h with
  | vanishing hmore hrange => rw [if_pos hmore, if_neg hrange]
  | scaled hmore hread => rw [if_neg (Bool.eq_false_iff.1 hmore), hread]

/-- The digits of an exponent are taken, and make the same number whatever stands behind them. -/
theorem ExponentRead.behind {down : Bool} {written : Nat}
    (h : ExponentRead negative m e down written s n r) :
    r = s.dropWhile Char.isDigit ∧ ∀ r', Stops Char.isDigit r' →
      ExponentRead negative m e down written (s.takeWhile Char.isDigit ++ r') n r' := by
  cases h with
  | vanishing hmore hrange =>
    refine ⟨rfl, fun r' hr' => ?_⟩
    have hzero := @ExponentRead.vanishing negative m e down written _
      ((startsWithDigit_append s hr').trans hmore) hrange
    rwa [dropWhile_append_stops (fun _ hx => List.mem_takeWhile_imp hx) hr'] at hzero
  | scaled hmore hread =>
    have hstop := startsWithDigit_eq_false.1 hmore
    obtain ⟨rfl, hany⟩ := readScaled_eq_ok hread
    refine ⟨(dropWhile_of_stops hstop).symm, fun r' hr' => ?_⟩
    rw [takeWhile_of_stops hstop, List.nil_append]
    exact .scaled (startsWithDigit_eq_false.2 hr') (hany r')

/-- What is read as an exponent is read so in front of all that ends a number. -/
theorem readExponent_token (h : readExponent negative m e s = .ok (n, r)) :
    ∃ t, s = t ++ r ∧ ReadsAs (readExponent negative m e) t n := by
  obtain ⟨down, c, u, hu, hc, hread⟩ := readExponent_eq_ok h
  obtain ⟨sign, hs, hsign, hsplit⟩ := splitSign_token s
  obtain ⟨ds, hds, hdigits, hgather⟩ := digits_token maxExponent (digitValue c) u
  obtain ⟨rfl, hbehind⟩ := hread.behind
  rw [hu] at hs hsplit
  refine ⟨sign ++ c :: ds, ?_, fun d hd => ?_, fun r' hr' => ?_⟩
  · rw [List.append_assoc, List.cons_append, ← hds, ← hs]
  · rcases List.mem_append.1 hd with hd | hd
    · exact hsign d hd
    · rcases List.mem_cons.1 hd with rfl | hd
      · exact isNumeric_of_isDigit hc
      · exact isNumeric_of_isDigit (hdigits d hd)
  · have hread' := hbehind r' (stops_isDigit hr')
    have hsign' : Decimal.Numeral.splitSign (sign ++ c :: ds ++ r') = (down, c :: (ds ++ r')) := by
      rw [List.append_assoc, List.cons_append]
      exact hsplit c _ hc rfl
    refine ExponentRead.readExponent ?_ hsign' hc
    rw [hgather r' (stops_isDigit hr')]
    exact hread'

/-- What is read as the end of a number is read so in front of all that ends one. -/
theorem readTail_token (h : readTail negative m e s = .ok (n, r)) :
    ∃ t, s = t ++ r ∧ ReadsAs (readTail negative m e) t n ∧
      (t = [] → s.head? ≠ some 'e' ∧ s.head? ≠ some 'E') := by
  -- Without an exponent the token is empty: the text behind it is not looked at.
  have hnone : ∀ x, readScaled negative m e s = .ok (n, x) → s = x ∧
      ReadsAs (readTail negative m e) [] n := by
    intro x hx
    obtain ⟨rfl, hscaled⟩ := readScaled_eq_ok hx
    refine ⟨rfl, by simp, fun r' hr' => ?_⟩
    cases r' with
    | nil => exact hscaled []
    | cons d r' =>
      rw [stops_cons] at hr'
      have hd : ¬(d = 'e' ∨ d = 'E') := by
        rintro (rfl | rfl) <;> simp [isNumeric] at hr'
      simp only [List.nil_append, readTail, if_neg hd, hscaled]
  unfold readTail at h
  split at h
  · rename_i c u
    split at h
    · rename_i hc
      obtain ⟨t, rfl, ht, hread⟩ := readExponent_token h
      refine ⟨c :: t, rfl, ⟨?_, fun r' hr' => ?_⟩, by simp⟩
      · rintro d (_ | ⟨_, hd⟩)
        · rcases hc with rfl | rfl <;> rfl
        · exact ht d hd
      · simp only [List.cons_append, readTail, if_pos hc, hread r' hr']
    · rename_i hc
      obtain ⟨hs, hread⟩ := hnone r h
      exact ⟨[], hs, hread, fun _ => by simpa using hc⟩
  · obtain ⟨hs, hread⟩ := hnone r h
    exact ⟨[], hs, hread, by simp⟩

/-- What is read as a fraction is read so in front of all that ends a number. -/
theorem readFraction_token (h : readFraction negative m e s = .ok (n, r)) :
    ∃ t, s = t ++ r ∧ ReadsAs (readFraction negative m e) t n := by
  unfold readFraction at h
  split at h
  · rename_i hstart
    obtain ⟨ds, hds, hdigits, hgather⟩ := digits_token maxUInt64 m s
    obtain ⟨t, ht, ⟨hnumeric, hread⟩, -⟩ := readTail_token h
    have hstop : Stops Char.isDigit (t ++ r) := ht ▸ stops_dropWhile _ _
    rw [ht] at hds
    refine ⟨ds ++ t, by rw [List.append_assoc, ← hds], ?_, fun r' hr' => ?_⟩
    · intro c hc
      rcases List.mem_append.1 hc with hc | hc
      · exact isNumeric_of_isDigit (hdigits c hc)
      · exact hnumeric c hc
    · have hstop' : Stops Char.isDigit (t ++ r') := hstop.append (stops_isDigit hr')
      have hused : (ds ++ (t ++ r')).length -
          ((gather maxUInt64 m s).2.takeWhile Char.isDigit ++ (t ++ r')).length =
            s.length - (gather maxUInt64 m s).2.length := by
        have hlen := congrArg List.length
          (List.takeWhile_append_dropWhile (p := Char.isDigit) (l := (gather maxUInt64 m s).2))
        have hslen := congrArg List.length hds
        rw [ht] at hlen
        simp only [List.length_append] at hlen hslen ⊢
        omega
      have hstart' : startsWithDigit (ds ++ (t ++ r')) = true := by
        cases ds with
        | nil =>
          rw [hds, List.nil_append, startsWithDigit_eq_false.2 hstop] at hstart
          cases hstart
        | cons c ds => exact hdigits c List.mem_cons_self
      unfold readFraction
      simp only [List.append_assoc, if_pos hstart', hgather _ hstop', hused,
        dropWhile_append_stops (fun _ hx => List.mem_takeWhile_imp hx) hstop', hread r' hr']
  · split at h <;> cases h

/-- What stands behind the digits before the point, `dropped` of which were too many. -/
def readBehind (negative : Bool) (value dropped : Nat) (s : List Char) :
    Except Fault (Number × List Char) :=
  match s with
  | '.' :: r => readFraction negative value dropped r
  | r =>
    if dropped = 0 ∧ r.head? ≠ some 'e' ∧ r.head? ≠ some 'E' then
      .ok (.ofDigits negative value, r)
    else readTail negative value dropped r

/-- A number is its digits, as many as fit, and what stands behind all of them. -/
theorem readNumber_cons {c : Char} {u : List Char} (hc : c.isDigit = true)
    (hzero : ¬(c = '0' ∧ startsWithDigit u = true)) :
    readNumber negative (c :: u) =
      readBehind negative (gather maxUInt64 (digitValue c) u).1
        ((gather maxUInt64 (digitValue c) u).2.takeWhile Char.isDigit).length
        ((gather maxUInt64 (digitValue c) u).2.dropWhile Char.isDigit) := by
  simp only [readNumber, hc, Bool.not_true, Bool.false_eq_true, if_false, if_neg hzero]
  rfl

/-- Without a point, the end of a number is its exponent or nothing. -/
theorem readBehind_of_ne {value dropped : Nat} (h : s.head? ≠ some '.') :
    readBehind negative value dropped s =
      if dropped = 0 ∧ s.head? ≠ some 'e' ∧ s.head? ≠ some 'E' then
        .ok (.ofDigits negative value, s)
      else readTail negative value dropped s := by
  unfold readBehind
  split
  · simp at h
  · rfl

/-- What is read behind the digits is read so in front of all that ends a number. -/
theorem readBehind_token {value dropped : Nat}
    (h : readBehind negative value dropped s = .ok (n, r)) :
    ∃ t, s = t ++ r ∧ ReadsAs (readBehind negative value dropped) t n := by
  by_cases hpoint : s.head? = some '.'
  · obtain ⟨u, rfl⟩ : ∃ u, s = '.' :: u := by
      cases s with
      | nil => cases hpoint
      | cons c u => exact ⟨u, by simpa using hpoint⟩
    obtain ⟨t, rfl, hnumeric, hread⟩ := readFraction_token h
    refine ⟨'.' :: t, rfl, ?_, hread⟩
    rintro d (_ | ⟨_, hd⟩)
    exacts [rfl, hnumeric d hd]
  · rw [readBehind_of_ne hpoint] at h
    split at h
    · rename_i hint
      simp only [Except.ok.injEq, Prod.mk.injEq] at h
      obtain ⟨rfl, rfl⟩ := h
      refine ⟨[], rfl, by simp, fun r' hr' => ?_⟩
      rw [List.nil_append, readBehind_of_ne (hr'.head?_ne rfl),
        if_pos ⟨hint.1, hr'.head?_ne rfl, hr'.head?_ne rfl⟩]
    · rename_i hint
      obtain ⟨t, hs, ⟨hnumeric, hread⟩, hne⟩ := readTail_token h
      refine ⟨t, hs, hnumeric, fun r' hr' => ?_⟩
      cases t with
      | nil =>
        have hdropped : ¬(dropped = 0 ∧ r'.head? ≠ some 'e' ∧ r'.head? ≠ some 'E') :=
          fun hc => hint ⟨hc.1, hne rfl⟩
        rw [List.nil_append, readBehind_of_ne (hr'.head?_ne rfl), if_neg hdropped]
        exact hread r' hr'
      | cons c t =>
        subst hs
        rw [readBehind_of_ne (by simpa using hpoint), if_neg (by simpa using hint)]
        exact hread r' hr'

/-- What is read as a number is a token: the number does not depend on the text behind it. -/
theorem readNumber_token (h : readNumber negative s = .ok (n, r)) :
    ∃ t, s = t ++ r ∧ startsWithDigit t = true ∧ ReadsAs (readNumber negative) t n := by
  cases s with
  | nil => cases h
  | cons c u =>
    have hc : c.isDigit = true := by
      cases hc : c.isDigit with
      | true => rfl
      | false => simp [readNumber, hc] at h
    have hzero : ¬(c = '0' ∧ startsWithDigit u = true) := by
      intro hzero
      simp [readNumber, hzero] at h
    rw [readNumber_cons hc hzero] at h
    obtain ⟨ds, hds, hdigits, hgather⟩ := digits_token maxUInt64 (digitValue c) u
    obtain ⟨t, ht, hnumeric, hread⟩ := readBehind_token h
    have hstop : Stops Char.isDigit (t ++ r) := ht ▸ stops_dropWhile _ _
    rw [ht] at hds
    refine ⟨c :: ds ++ t, by rw [hds]; simp, hc, ?_, fun r' hr' => ?_⟩
    · intro d hd
      rcases List.mem_append.1 hd with hd | hd
      · rcases List.mem_cons.1 hd with rfl | hd
        · exact isNumeric_of_isDigit hc
        · exact isNumeric_of_isDigit (hdigits d hd)
      · exact hnumeric d hd
    · have hstop' : Stops Char.isDigit (t ++ r') := hstop.append (stops_isDigit hr')
      have hzero' : ¬(c = '0' ∧ startsWithDigit (ds ++ (t ++ r')) = true) := by
        cases ds with
        | nil => simp [startsWithDigit_eq_false.2 hstop']
        | cons d ds => simpa [hds, startsWithDigit] using hzero
      simp only [List.append_assoc, List.cons_append]
      rw [readNumber_cons hc hzero', hgather _ hstop']
      simp only [takeWhile_append_stops (fun _ hx => List.mem_takeWhile_imp hx) hstop',
        dropWhile_append_stops (fun _ hx => List.mem_takeWhile_imp hx) hstop', hread r' hr']

/-! ## Natural numbers -/

/-- Digits are gathered whole if the number they add up to is within the limit. -/
theorem gather_digits {limit value : Nat} (hs : ∀ c ∈ s, c.isDigit = true)
    (hr : Stops Char.isDigit r) (hle : Nat.ofDigitChars 10 s value ≤ limit) :
    gather limit value (s ++ r) = (Nat.ofDigitChars 10 s value, r) := by
  induction s generalizing value with
  | nil =>
    cases r with
    | nil => rfl
    | cons c r =>
      rw [stops_cons] at hr
      simp [gather, hr]
  | cons c s ih =>
    have hc := hs c List.mem_cons_self
    have hnext : 10 * value + (c.toNat - '0'.toNat) = value * 10 + digitValue c := by
      rw [digitValue, Nat.mul_comm]
    rw [Nat.ofDigitChars_cons, hnext] at hle ⊢
    have hfits : value * 10 + digitValue c ≤ limit := by
      rw [Nat.ofDigitChars_eq_ofDigitChars_zero] at hle
      have hpos : 0 < 10 ^ s.length := Nat.pow_pos (by decide)
      have hmul := Nat.le_mul_of_pos_left (value * 10 + digitValue c) hpos
      omega
    rw [List.cons_append, gather, if_pos ⟨hc, hfits⟩]
    exact ih (fun d hd => hs d (List.mem_cons_of_mem _ hd)) hle

/-- The digits of a natural number of 64 bits are read as this number. -/
theorem readNumber_ofNat {value : Nat} (h : value ≤ maxUInt64) :
    ReadsAs (readNumber negative) (Decimal.ofNat value) (.ofDigits negative value) := by
  have hdigits : ∀ c ∈ Decimal.ofNat value, c.isDigit = true :=
    fun _ => Decimal.isDigit_of_mem_ofNat
  refine ⟨fun c hc => isNumeric_of_isDigit (hdigits c hc), fun r hr => ?_⟩
  have hstop := stops_isDigit hr
  cases hof : Decimal.ofNat value with
  | nil => exact absurd hof (Decimal.ofNat_ne_nil value)
  | cons c s =>
    rw [hof] at hdigits
    have hc := hdigits c List.mem_cons_self
    have hs : ∀ d ∈ s, d.isDigit = true := fun d hd => hdigits d (List.mem_cons_of_mem _ hd)
    have hzero : ¬(c = '0' ∧ startsWithDigit (s ++ r) = true) := by
      rintro ⟨rfl, hstart⟩
      rw [Decimal.eq_nil_of_ofNat_eq_cons hof, List.nil_append,
        startsWithDigit_eq_false.2 hstop] at hstart
      cases hstart
    have hvalue : Nat.ofDigitChars 10 s (digitValue c) = value := by
      have hall := Decimal.value_ofNat value
      rw [hof, Decimal.value, Nat.ofDigitChars_cons] at hall
      simpa [digitValue] using hall
    have hgather : gather maxUInt64 (digitValue c) (s ++ r) = (value, r) := by
      rw [gather_digits hs hstop (hvalue.symm ▸ h), hvalue]
    rw [List.cons_append, readNumber_cons hc hzero, hgather]
    dsimp only
    rw [takeWhile_of_stops hstop, dropWhile_of_stops hstop, readBehind_of_ne (hr.head?_ne rfl)]
    exact if_pos ⟨rfl, hr.head?_ne rfl, hr.head?_ne rfl⟩

end

end ShellQuery.Json
