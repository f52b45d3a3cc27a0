import ShellQuery.Proofs.Dialect.Run
import ShellQuery.Proofs.Json.Content
/-!
# Strings in the pass

Inside of a string the pass looks at one character, or at a backslash and the character behind it,
and at nothing else. Whatever a string holds, it becomes one token of strict JSON with the same
content. `Passes.content` says it of strings that are strict JSON already, `Passes.quotation` of
`quotation q t`, the text `t` in quotes of either kind with only the backslash and the enclosing
quote escaped: it becomes `strictString t`, in which no trace of `q` is left.
-/

namespace ShellQuery.Dialect

open Text Json

/-- A character inside of quotes: the backslash and the enclosing quote take a backslash. -/
def quotedChar (q c : Char) : List Char :=
  if c = '\\' ∨ c = q then ['\\', c] else [c]

/-- A text in quotes, every other character as it is. -/
def quotation (q : Char) (t : List Char) : List Char :=
  q :: (t.flatMap (quotedChar q) ++ [q])

/-- A character in a string that the pass has written. -/
def strictChar (c : Char) : List Char :=
  if c = '"' ∨ c = '\\' then ['\\', c] else contentChar c

/-- A string that the pass has written. -/
def strictString (t : List Char) : List Char :=
  '"' :: (t.flatMap strictChar ++ ['"'])

section
variable {c q : Char} {s t r : List Char}

/-! ## Characters -/

/-- A quote begins no bare key. -/
theorem isKeyStart_of_isQuote (h : isQuote c = true) : isKeyStart c = false := by
  rcases isQuote_iff.1 h with rfl | rfl <;> rfl

/-- What a key can begin with, it can go on with. -/
theorem isKeyChar_of_isKeyStart (h : isKeyStart c = true) : isKeyChar c = true := by
  simp only [isKeyStart, Bool.or_eq_true] at h
  simp only [isKeyChar, Char.isAlphanum, Bool.or_eq_true]
  tauto

/-- The characters of keys are printing ones of ASCII, and neither quotes nor backslashes. -/
theorem range_of_isKeyChar (h : isKeyChar c = true) :
    0x23 ≤ c.toNat ∧ c.toNat ≤ 0x7E ∧ c.toNat ≠ 0x27 ∧ c.toNat ≠ 0x5C := by
  simp only [isKeyChar, Char.isAlphanum, Bool.or_eq_true, beq_iff_eq, isDigit_iff, isAlpha_iff] at h
  rcases h with ((h | h) | rfl) | rfl
  · omega
  · omega
  · decide
  · decide

/-- The characters of keys are plain. -/
theorem isPlain_of_isKeyChar (h : isKeyChar c = true) : isPlain c = true := by
  obtain ⟨hmin, hmax, hquote, hbackslash⟩ := range_of_isKeyChar h
  have hne : c ≠ '"' ∧ c ≠ '\'' ∧ c ≠ '\\' := by
    refine ⟨?_, ?_, ?_⟩
    · rintro rfl
      exact absurd hmin (by decide)
    · rintro rfl
      exact hquote rfl
    · rintro rfl
      exact hbackslash rfl
  simp [isPlain, isQuote, isControl, hne]
  omega

/-- Plain characters mean themselves. -/
theorem content_plain (h : ∀ c ∈ t, isPlain c = true) : Content t t := by
  induction t with
  | nil => exact .nil
  | cons c t ih =>
    have hc := h c List.mem_cons_self
    simp only [isPlain, isQuote, isControl, Bool.not_eq_true', Bool.or_eq_false_iff,
      beq_eq_false_iff_ne, decide_eq_false_iff_not] at hc
    obtain ⟨⟨⟨hquote, -⟩, hbackslash⟩, hcontrol, -⟩ := hc
    exact .plain hquote hbackslash (Nat.not_lt.1 hcontrol)
      (ih fun d hd => h d (List.mem_cons_of_mem _ hd))

/-- The characters of keys mean themselves within quotes. -/
theorem content_key (h : ∀ c ∈ t, isKeyChar c = true) : Content t t :=
  content_plain fun c hc => isPlain_of_isKeyChar (h c hc)

/-- The numbers of the control characters are written in four digits. -/
theorem toOption_readHex4_hex4 :
    ∀ n < 160, (readHex4 (hex4 n)).toOption = some (n, []) := by
  decide +kernel

/-- The number of a control character is written in four digits. -/
theorem hex4_hex4 {n : Nat} (h : n < 160) : Hex4 (hex4 n) n := by
  have hread := toOption_readHex4_hex4 n h
  cases hok : readHex4 (hex4 n) with
  | error f =>
    rw [hok] at hread
    cases hread
  | ok x =>
    rw [hok] at hread
    cases hread
    obtain ⟨u, hu, hhex⟩ := readHex4_eq_ok hok
    rw [hu, List.append_nil]
    exact hhex

/-- A character that is no quote and no backslash is written as content that means it. -/
theorem content_contentChar (hq : c ≠ '"') (hb : c ≠ '\\') : Content (contentChar c) [c] := by
  unfold contentChar
  split
  · rename_i hc
    rw [beq_iff_eq.1 hc]
    exact .escape (e := ['t']) (.letter rfl) .nil
  split
  · rename_i hc
    rw [beq_iff_eq.1 hc]
    exact .escape (e := ['n']) (.letter rfl) .nil
  split
  · rename_i hc
    rw [beq_iff_eq.1 hc]
    exact .escape (e := ['r']) (.letter rfl) .nil
  split
  · rename_i hc
    have hlt : c.toNat < 160 := by
      simp only [isControl, Bool.or_eq_true, Bool.and_eq_true, decide_eq_true_eq] at hc
      omega
    have hesc : Escape ('u' :: hex4 c.toNat) (Char.ofNat c.toNat) := by
      refine .unicode (hex4_hex4 hlt) ?_ ?_ <;>
        simp only [isLeadingSurrogate, isTrailingSurrogate, Bool.and_eq_false_iff,
          decide_eq_false_iff_not] <;>
        omega
    rw [Char.ofNat_toNat] at hesc
    simpa using Content.escape hesc .nil
  · rename_i hc
    refine .plain hq hb ?_ .nil
    simp only [isControl, Bool.or_eq_true, Bool.and_eq_true, decide_eq_true_eq] at hc
    omega

/-- What is no control character is written as it is. -/
theorem contentChar_of_not_isControl (h : isControl c = false) : contentChar c = [c] := by
  have hne : ∀ d, isControl d = true → (c == d) = false := by
    intro d hd
    rw [beq_eq_false_iff_ne]
    rintro rfl
    rw [h] at hd
    cases hd
  simp [contentChar, hne '\t' rfl, hne '\n' rfl, hne '\r' rfl, h]

/-- With a backslash it keeps the backslash. -/
theorem escapedChar_of_not_isControl (h : isControl c = false) : escapedChar c = ['\\', c] := by
  simp [escapedChar, h]

/-! ## Quotes -/

/-- The mode inside of quotes. -/
def quotedMode (q : Char) : Mode :=
  if q = '"' then .doubleQuoted else .singleQuoted

/-- A quote outside of strings opens one. -/
theorem Passes.quote (hq : isQuote q = true) : Passes .outside [q] ['"'] (quotedMode q) r := by
  rcases isQuote_iff.1 hq with rfl | rfl <;> exact .single rfl

/-- The quote that opened a string closes it. -/
theorem Passes.closeQuote (hq : isQuote q = true) :
    Passes (quotedMode q) [q] ['"'] .outside r := by
  rcases isQuote_iff.1 hq with rfl | rfl <;> exact .single rfl

/-- What stands between quotes of either kind is written between double ones. -/
theorem Passes.inQuotes {out : List Char} (hq : isQuote q = true)
    (h : ∀ r, Passes (quotedMode q) s out (quotedMode q) r) :
    Passes .outside (q :: (s ++ [q])) ('"' :: (out ++ ['"'])) .outside r :=
  (Passes.quote hq).append ((h ([q] ++ r)).append (.closeQuote hq))

/-! ## Strings of strict JSON -/

/-- A character of a string with double quotes is written as content. -/
theorem Passes.doubleQuoted_char (hq : c ≠ '"') (hb : c ≠ '\\') :
    Passes .doubleQuoted [c] (contentChar c) .doubleQuoted r :=
  .single (by simp [Dialect.step, doubleQuotedStep, hq, hb])

/-- An escape in a string with double quotes is copied, unless it hides a control character. -/
theorem Passes.doubleQuoted_escape :
    Passes .doubleQuoted ['\\', c] (escapedChar c) .doubleQuoted r := by
  have hstep : Dialect.step .doubleQuoted '\\' ([c] ++ r) =
      ⟨escapedChar c, .keeps, .doubleQuoted, [] ++ r⟩ := by
    simp [Dialect.step, doubleQuotedStep]
  have h := Passes.step hstep Passes.nil
  rwa [List.append_nil] at h

/-- No hexadecimal digit is a control character. -/
theorem isControl_of_hexValue {n : Nat} (h : hexValue? c = some n) : isControl c = false := by
  unfold hexValue? at h
  simp only [isControl, Bool.or_eq_false_iff, Bool.and_eq_false_iff, decide_eq_false_iff_not]
  have ha : 'a'.toNat = 97 := rfl
  have hf : 'f'.toNat = 102 := rfl
  have hA : 'A'.toNat = 65 := rfl
  have hF : 'F'.toNat = 70 := rfl
  split at h
  · rename_i hc
    rw [isDigit_iff] at hc
    omega
  split at h
  · rename_i hc
    simp only [Char.le_def, UInt32.le_iff_toNat_le] at hc
    simp only [Char.toNat] at *
    omega
  split at h
  · rename_i hc
    simp only [Char.le_def, UInt32.le_iff_toNat_le] at hc
    simp only [Char.toNat] at *
    omega
  · cases h

/-- Four digits are copied. -/
theorem Passes.hex4 {n : Nat} (h : Hex4 s n) : Passes .doubleQuoted s s .doubleQuoted r := by
  have digit : ∀ {c i} {u v : List Char}, hexValue? c = some i →
      Passes .doubleQuoted u v .doubleQuoted r →
      Passes .doubleQuoted (c :: u) (c :: v) .doubleQuoted r := by
    intro c i u v hc hu
    have hcontrol := isControl_of_hexValue hc
    have hchar : Passes .doubleQuoted [c] (contentChar c) .doubleQuoted (u ++ r) := by
      refine .doubleQuoted_char ?_ ?_ <;>
        · rintro rfl
          cases hc
    rw [contentChar_of_not_isControl hcontrol] at hchar
    exact hchar.append hu
  cases h with
  | mk ha hb hc hd => exact digit ha (digit hb (digit hc (digit hd .nil)))

/-- No escape letter is a control character. -/
theorem isControl_of_unescape? {d : Char} (h : unescape? c = some d) : isControl c = false := by
  unfold unescape? at h
  split at h <;> first | rfl | cases h

/-- An escape is copied. -/
theorem Passes.escape {d : Char} (h : Escape s d) :
    Passes .doubleQuoted ('\\' :: s) ('\\' :: s) .doubleQuoted r := by
  have letter : ∀ {e : Char} {r : List Char}, isControl e = false →
      Passes .doubleQuoted ['\\', e] ['\\', e] .doubleQuoted r := by
    intro e r he
    have hpass := Passes.doubleQuoted_escape (c := e) (r := r)
    rwa [escapedChar_of_not_isControl he] at hpass
  cases h with
  | letter hc => exact letter (isControl_of_unescape? hc)
  | unicode hh => exact (letter rfl).append (.hex4 hh)
  | pair hh _ hh' => exact ((letter rfl).append (.hex4 hh)).append ((letter rfl).append (.hex4 hh'))

/-- The content of a strict string stays one, and keeps what it means. -/
theorem Passes.content (h : Content s t) :
    ∃ s', Content s' t ∧ ∀ r, Passes .doubleQuoted s s' .doubleQuoted r := by
  induction h with
  | nil => exact ⟨[], .nil, fun _ => .nil⟩
  | @plain c s t hq hb _ _ ih =>
    obtain ⟨s', hs', hpass⟩ := ih
    exact ⟨contentChar c ++ s', (content_contentChar hq hb).append hs',
      fun r => (Passes.doubleQuoted_char hq hb).append (hpass r)⟩
  | @escape e s t d he _ ih =>
    obtain ⟨s', hs', hpass⟩ := ih
    exact ⟨'\\' :: (e ++ s'), .escape he hs', fun r => (Passes.escape he).append (hpass r)⟩

/-- A strict string stays one, and keeps what it means. -/
theorem Passes.string (h : Content s t) : ∃ s', Content s' t ∧
    ∀ r, Passes .outside ('"' :: (s ++ ['"'])) ('"' :: (s' ++ ['"'])) .outside r := by
  obtain ⟨s', hs', hpass⟩ := Passes.content h
  exact ⟨s', hs', fun _ => .inQuotes rfl hpass⟩

/-! ## Texts in quotes -/

/-- What is written for a character of a string reads as this character. -/
theorem content_strictChar (c : Char) : Content (strictChar c) [c] := by
  unfold strictChar
  split
  · rename_i hc
    refine .escape (e := [c]) (.letter ?_) .nil
    rcases hc with rfl | rfl <;> rfl
  · rename_i hc
    exact content_contentChar (fun h => hc (.inl h)) (fun h => hc (.inr h))

/-- The pass's strings mean what they were made of. -/
theorem content_strictChars (t : List Char) : Content (t.flatMap strictChar) t := by
  induction t with
  | nil => exact .nil
  | cons c t ih => exact (content_strictChar c).append ih

/-- A quoted character is written as it is written in strict strings. -/
theorem Passes.quotedChar (hq : isQuote q = true) :
    Passes (quotedMode q) (quotedChar q c) (strictChar c) (quotedMode q) r := by
  rw [isQuote_iff] at hq
  by_cases hb : c = '\\'
  · subst hb
    have hpass : Passes (quotedMode q) ['\\', '\\'] ['\\', '\\'] (quotedMode q) r := by
      rcases hq with rfl | rfl
      · exact .step (u := []) (w := ['\\', '\\']) rfl .nil
      · exact .step (u := []) (w := ['\\', '\\']) rfl .nil
    simpa [Dialect.quotedChar, strictChar] using hpass
  rcases hq with rfl | rfl
  · by_cases hc : c = '"'
    · subst hc
      exact .step (u := []) (w := ['\\', '"']) rfl .nil
    · simpa [quotedMode, Dialect.quotedChar, strictChar, hb, hc] using
        Passes.doubleQuoted_char hc hb
  · by_cases hc : c = '\''
    · subst hc
      exact .step (u := []) (w := ['\'']) rfl .nil
    · have hstep : Dialect.step .singleQuoted c r = ⟨strictChar c, .keeps, .singleQuoted, r⟩ := by
        by_cases hd : c = '"'
        · subst hd
          rfl
        · simp [Dialect.step, singleQuotedStep, strictChar, hb, hc, hd]
      simpa [quotedMode, Dialect.quotedChar, hb, hc] using Passes.single hstep

/-- The characters of a quoted text are written as they are written in strict strings. -/
theorem Passes.quotedChars (hq : isQuote q = true) :
    Passes (quotedMode q) (t.flatMap (Dialect.quotedChar q)) (t.flatMap strictChar)
      (quotedMode q) r := by
  induction t with
  | nil => exact .nil
  | cons c t ih => exact (Passes.quotedChar hq).append ih

/-- A text in quotes of either kind becomes the strict string with this content. -/
theorem Passes.quotation (hq : isQuote q = true) :
    Passes .outside (Dialect.quotation q t) (strictString t) .outside r :=
  .inQuotes hq fun _ => .quotedChars hq

end

end ShellQuery.Dialect
