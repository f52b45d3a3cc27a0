import ShellQuery.Decimal
import ShellQuery.Proofs.Text
/-!
# What is written is read

The digits of a number name the number, also when they are filled up with zeros at the front, and
the text of an integer is read as this integer (`readInt?_ofInt`).
-/

namespace ShellQuery.Decimal

open Text

/-- The text of a numeral: an optional sign and digits. -/
inductive NumeralText : List Char → Numeral → Prop
  | minus {ds : List Char} : ds ≠ [] → (∀ c ∈ ds, c.isDigit = true) →
      NumeralText ('-' :: ds) ⟨true, ds⟩
  | plus {ds : List Char} : ds ≠ [] → (∀ c ∈ ds, c.isDigit = true) →
      NumeralText ('+' :: ds) ⟨false, ds⟩
  | bare {ds : List Char} : ds ≠ [] → (∀ c ∈ ds, c.isDigit = true) → NumeralText ds ⟨false, ds⟩

section
variable {n k : Nat} {c : Char} {s r : List Char}

/-- A number is written in digits. -/
theorem isDigit_of_mem_ofNat (h : c ∈ ofNat n) : c.isDigit = true :=
  Nat.isDigit_of_mem_toDigits (by decide) (by decide) h

/-- A number is written with at least one digit. -/
theorem ofNat_ne_nil (n : Nat) : ofNat n ≠ [] :=
  Nat.toDigits_ne_nil

@[simp] theorem value_ofNat (n : Nat) : value (ofNat n) = n :=
  Nat.ofDigitChars_ten_toDigits

/-- A number has at most `k` digits if it is below the `k`th power of ten. -/
theorem length_ofNat_le (hk : 0 < k) : (ofNat n).length ≤ k ↔ n < 10 ^ k :=
  Nat.length_toDigits_le_iff (by decide) hk

/-- The number that `n` digits name is below the `n`th power of ten. -/
theorem value_lt (hs : ∀ c ∈ s, c.isDigit = true) : value s < 10 ^ s.length := by
  induction s with
  | nil => decide
  | cons c s ih =>
    have hc := isDigit_iff.1 (hs c List.mem_cons_self)
    have hv := ih fun d hd => hs d (List.mem_cons_of_mem _ hd)
    have hzero : '0'.toNat = 48 := rfl
    rw [value, Nat.ofDigitChars_cons, Nat.ofDigitChars_eq_ofDigitChars_zero, List.length_cons,
      Nat.pow_succ]
    rw [value] at hv
    have hmul : 10 ^ s.length * (10 * 0 + (c.toNat - '0'.toNat)) ≤ 10 ^ s.length * 9 :=
      Nat.mul_le_mul_left _ (by omega)
    omega

/-- A number begins with a zero only if it is zero. -/
theorem eq_nil_of_ofNat_eq_cons (h : ofNat n = '0' :: s) : s = [] := by
  have hs : ∀ c ∈ s, c.isDigit = true :=
    fun c hc => isDigit_of_mem_ofNat (by rw [h]; exact List.mem_cons_of_mem _ hc)
  have hvalue : n = value s := by
    rw [← value_ofNat n, h, value, Nat.ofDigitChars_cons]
    rfl
  rcases Nat.eq_zero_or_pos s.length with hlen | hlen
  · exact List.length_eq_zero_iff.1 hlen
  · have hle := (length_ofNat_le hlen).2 (hvalue ▸ value_lt hs)
    rw [h, List.length_cons] at hle
    omega

/-! ## Padding -/

/-- Zeros in front of a number are digits too. -/
theorem isDigit_of_mem_padded (h : c ∈ padded k n) : c.isDigit = true := by
  rcases List.mem_append.1 h with h | h
  · rw [(List.mem_replicate.1 h).2]
    rfl
  · exact isDigit_of_mem_ofNat h

/-- A padded number is not empty, whatever its width. -/
theorem padded_ne_nil (k n : Nat) : padded k n ≠ [] :=
  List.append_ne_nil_of_right_ne_nil _ (ofNat_ne_nil n)

@[simp] theorem value_padded (k n : Nat) : value (padded k n) = n := by
  have hzeros : Nat.ofDigitChars 10 (List.replicate (k - (ofNat n).length) '0') 0 = 0 := by
    rw [Nat.ofDigitChars_replicate_zero, Nat.mul_zero]
  rw [padded, value, Nat.ofDigitChars_append, hzeros]
  exact value_ofNat n

/-- A number that fits is padded to the width. -/
theorem length_padded (hk : 0 < k) (h : n < 10 ^ k) : (padded k n).length = k := by
  have hlen := (length_ofNat_le hk).2 h
  rw [padded, List.length_append, List.length_replicate]
  omega

/-! ## Integers -/

/-- The numeral that an integer is written as. -/
def numeralOf (i : Int) : Numeral :=
  ⟨decide (i < 0), ofNat i.natAbs⟩

/-- The numeral of an integer stands for it. -/
theorem toInt_numeralOf (i : Int) : (numeralOf i).toInt = i := by
  simp only [numeralOf, Numeral.toInt, value_ofNat, decide_eq_true_eq]
  split <;> omega

/-! ## Numerals in front of a text -/

/-- A numeral is read up to the first character that is no digit. -/
theorem NumeralText.read? {n : Numeral} (h : NumeralText s n) (hr : Stops Char.isDigit r) :
    Numeral.read? (s ++ r) = some (n, r) := by
  have hrun : ∀ {u ds : List Char} {b : Bool}, Numeral.splitSign u = (b, ds ++ r) → ds ≠ [] →
      (∀ c ∈ ds, c.isDigit = true) → Numeral.read? u = some (⟨b, ds⟩, r) := by
    intro u ds b hsign hne hds
    simp only [Numeral.read?, hsign, takeWhile_append_stops hds hr, dropWhile_append_stops hds hr]
  cases h with
  | minus hne hds => exact hrun rfl hne hds
  | plus hne hds => exact hrun rfl hne hds
  | bare hne hds =>
    have hsign : Numeral.splitSign (s ++ r) = (false, s ++ r) := by
      cases s with
      | nil => exact absurd rfl hne
      | cons c s =>
        have hc := hds c List.mem_cons_self
        unfold Numeral.splitSign
        split <;> simp_all
    exact hrun hsign hne hds

/-- The sign of a numeral, if it has one. -/
theorem splitSign_cases (s : List Char) :
    (∃ u, s = '-' :: u ∧ Numeral.splitSign s = (true, u)) ∨
      (∃ u, s = '+' :: u ∧ Numeral.splitSign s = (false, u)) ∨
        Numeral.splitSign s = (false, s) := by
  unfold Numeral.splitSign
  split
  · exact .inl ⟨_, rfl, rfl⟩
  · exact .inr (.inl ⟨_, rfl, rfl⟩)
  · exact .inr (.inr rfl)

/-- What is read as a numeral is its text, up to the rest. -/
theorem exists_numeralText {n : Numeral} (h : Numeral.read? s = some (n, r)) :
    ∃ u, s = u ++ r ∧ NumeralText u n := by
  -- Behind its sign a numeral is the run of digits.
  have hrun : ∀ {b : Bool} {u : List Char}, Numeral.splitSign s = (b, u) →
      u = n.digits ++ r ∧ n.negative = b ∧ n.digits ≠ [] ∧ ∀ c ∈ n.digits, c.isDigit = true := by
    intro b u hu
    simp only [Numeral.read?, hu] at h
    split at h
    · cases h
    · rename_i ds hne
      simp only [Option.some.injEq, Prod.mk.injEq] at h
      obtain ⟨rfl, rfl⟩ := h
      exact ⟨List.takeWhile_append_dropWhile.symm, rfl, fun h => hne h,
        fun _ => List.mem_takeWhile_imp⟩
  obtain ⟨negative, digits⟩ := n
  rcases splitSign_cases s with ⟨u, rfl, hu⟩ | ⟨u, rfl, hu⟩ | hu
  · obtain ⟨rfl, rfl, hne, hds⟩ := hrun hu
    exact ⟨'-' :: digits, rfl, .minus hne hds⟩
  · obtain ⟨rfl, rfl, hne, hds⟩ := hrun hu
    exact ⟨'+' :: digits, rfl, .plus hne hds⟩
  · obtain ⟨hs, rfl, hne, hds⟩ := hrun hu
    exact ⟨digits, hs, .bare hne hds⟩

/-- An integer is written as the text of its numeral. -/
theorem numeralText_ofInt (i : Int) : NumeralText (ofInt i) (numeralOf i) := by
  have hdigits : ∀ c ∈ ofNat i.natAbs, c.isDigit = true := fun _ => isDigit_of_mem_ofNat
  by_cases hi : i < 0
  · rw [ofInt, if_pos hi, numeralOf, decide_eq_true hi]
    exact .minus (ofNat_ne_nil _) hdigits
  · rw [ofInt, if_neg hi, numeralOf, decide_eq_false hi]
    exact .bare (ofNat_ne_nil _) hdigits

/-- A numeral without a plus sign is a numeral. -/
theorem NumeralText.spelling {n : Numeral} (h : NumeralText s n) : NumeralText n.spelling n := by
  cases h with
  | minus hne hds => exact .minus hne hds
  | plus hne hds => exact .bare hne hds
  | bare hne hds => exact .bare hne hds

/-- The text of a numeral is read as its integer. -/
theorem NumeralText.readInt? {n : Numeral} (h : NumeralText s n) : readInt? s = some n.toInt := by
  have hread := h.read? (r := []) stops_nil
  rw [List.append_nil] at hread
  rw [Decimal.readInt?, hread]

/-- An integer is read from the texts of its numerals only. -/
theorem readInt?_eq_some_iff {i : Int} :
    readInt? s = some i ↔ ∃ n, NumeralText s n ∧ n.toInt = i := by
  refine ⟨fun h => ?_, ?_⟩
  · unfold Decimal.readInt? at h
    split at h
    · rename_i n hn
      obtain ⟨u, rfl, hu⟩ := exists_numeralText hn
      rw [List.append_nil]
      exact ⟨n, hu, Option.some.inj h⟩
    · cases h
  · rintro ⟨n, hn, rfl⟩
    exact hn.readInt?

/-- An integer is written with at least one character. -/
theorem ofInt_ne_nil (i : Int) : ofInt i ≠ [] := by
  unfold ofInt
  split_ifs
  · exact List.cons_ne_nil _ _
  · exact ofNat_ne_nil _

/-- The text of an integer is read as this integer. -/
theorem readInt?_ofInt (i : Int) : readInt? (ofInt i) = some i := by
  rw [(numeralText_ofInt i).readInt?, toInt_numeralOf]

end

end ShellQuery.Decimal
