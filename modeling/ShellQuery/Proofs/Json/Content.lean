import ShellQuery.Json.Quoted
import ShellQuery.Proofs.Text
/-!
# The content of strings

`Content s t` is the grammar of what may stand between the quotes of a JSON string: `s` is the text
as it is written and `t` the characters it denotes. `readString_eq_ok` says that the reader accepts
exactly this grammar, up to the first quote that no escape has taken.
-/

namespace ShellQuery.Json

/-- Four hexadecimal digits and the number they write. -/
inductive Hex4 : List Char → Nat → Prop
  | mk {a b c d : Char} {i j k l : Nat} : hexValue? a = some i → hexValue? b = some j →
      hexValue? c = some k → hexValue? d = some l →
      Hex4 [a, b, c, d] (((i * 16 + j) * 16 + k) * 16 + l)

/-- An escape behind its backslash, and the character it denotes. -/
inductive Escape : List Char → Char → Prop
  | letter {c d : Char} : unescape? c = some d → Escape [c] d
  | unicode {h : List Char} {n : Nat} : Hex4 h n → isLeadingSurrogate n = false →
      isTrailingSurrogate n = false → Escape ('u' :: h) (Char.ofNat n)
  | pair {h h' : List Char} {m n : Nat} : Hex4 h m → isLeadingSurrogate m = true → Hex4 h' n →
      isTrailingSurrogate n = true → Escape ('u' :: (h ++ '\\' :: 'u' :: h')) (ofSurrogates m n)

/-- The content of a string, as it is written and as it is meant. -/
inductive Content : List Char → List Char → Prop
  | nil : Content [] []
  | plain {c : Char} {s t : List Char} : c ≠ '"' → c ≠ '\\' → 0x20 ≤ c.toNat → Content s t →
      Content (c :: s) (c :: t)
  | escape {e s t : List Char} {d : Char} : Escape e d → Content s t →
      Content ('\\' :: (e ++ s)) (d :: t)

section
variable {s r t : List Char} {c d : Char} {n : Nat}

/-! ## Escapes -/

/-- Four digits are read as their number, whatever stands behind them. -/
theorem readHex4_append (h : Hex4 s n) (r : List Char) : readHex4 (s ++ r) = .ok (n, r) := by
  obtain ⟨ha, hb, hc, hd⟩ := h
  simp [readHex4, ha, hb, hc, hd]

/-- What is read as a number is four digits that write it. -/
theorem readHex4_eq_ok (h : readHex4 s = .ok (n, r)) : ∃ u, s = u ++ r ∧ Hex4 u n := by
  unfold readHex4 at h
  simp only at h
  split at h
  · rename_i a b c d u
    split at h
    · rename_i ha hb hc hd
      simp only [Except.ok.injEq, Prod.mk.injEq] at h
      obtain ⟨rfl, rfl⟩ := h
      exact ⟨[a, b, c, d], rfl, .mk ha hb hc hd⟩
    · split at h <;> cases h
  · split at h <;> cases h

/-- The two kinds of surrogates are apart. -/
theorem isTrailingSurrogate_of_leading (h : isLeadingSurrogate n = true) :
    isTrailingSurrogate n = false := by
  simp only [isLeadingSurrogate, isTrailingSurrogate, Bool.and_eq_true, decide_eq_true_eq,
    Bool.and_eq_false_iff, decide_eq_false_iff_not] at h ⊢
  omega

/-- An escape is read as its character, whatever stands behind it. -/
theorem readEscape_append {e : List Char} (h : Escape e d) (r : List Char) :
    readEscape (e ++ r) = .ok (d, r) := by
  cases h with
  | @letter c _ hc =>
    have hu : c ≠ 'u' := by
      rintro rfl
      cases hc
    simp [readEscape, hu, hc]
  | unicode hh hl ht =>
    simp [readEscape, readUnicode, readHex4_append hh, hl, ht]
  | @pair h h' m n hh hl hh' ht =>
    have hrest : h ++ '\\' :: 'u' :: h' ++ r = h ++ '\\' :: 'u' :: (h' ++ r) := by simp
    rw [List.cons_append, hrest]
    simp [readEscape, readUnicode, readHex4_append hh, isTrailingSurrogate_of_leading hl, hl,
      readTrailing, readHex4_append hh', ht]

/-- What is read as the second half of a pair is the number of a trailing surrogate. -/
theorem readTrailing_eq_ok {m : Nat} (h : readTrailing m s = .ok (d, r)) :
    ∃ u n, s = '\\' :: 'u' :: (u ++ r) ∧ Hex4 u n ∧ isTrailingSurrogate n = true ∧
      d = ofSurrogates m n := by
  revert h
  fun_cases readTrailing m s with
  | case2 _ n _ hdigits htrailing =>
    simp only [Except.ok.injEq, Prod.mk.injEq]
    rintro ⟨hd, rfl⟩
    obtain ⟨u, rfl, hu⟩ := readHex4_eq_ok hdigits
    exact ⟨u, n, rfl, hu, htrailing, hd.symm⟩
  | _ => rintro ⟨⟩

/-- What is read as a character by its number is an escape of it. -/
theorem readUnicode_eq_ok (h : readUnicode s = .ok (d, r)) :
    ∃ e, s = e ++ r ∧ Escape ('u' :: e) d := by
  revert h
  fun_cases readUnicode s with
  | case3 m _ hdigits _ hleading =>
    intro h
    obtain ⟨u, rfl, hu⟩ := readHex4_eq_ok hdigits
    obtain ⟨v, n, rfl, hv, htrailing, hd⟩ := readTrailing_eq_ok h
    rw [hd]
    exact ⟨u ++ '\\' :: 'u' :: v, by simp, .pair hu hleading hv htrailing⟩
  | case4 n _ hdigits htrailing hleading =>
    rintro ⟨⟩
    obtain ⟨u, rfl, hu⟩ := readHex4_eq_ok hdigits
    exact ⟨u, rfl, .unicode hu (by simpa using hleading) (by simpa using htrailing)⟩
  | _ => rintro ⟨⟩

/-- What is read as a character is an escape of it. -/
theorem readEscape_eq_ok (h : readEscape s = .ok (d, r)) : ∃ e, s = e ++ r ∧ Escape e d := by
  revert h
  fun_cases readEscape s with
  | case2 =>
    intro h
    obtain ⟨e, rfl, he⟩ := readUnicode_eq_ok h
    exact ⟨'u' :: e, rfl, he⟩
  | case3 c _ _ _ hletter =>
    rintro ⟨⟩
    exact ⟨[c], rfl, .letter hletter⟩
  | _ => rintro ⟨⟩

/-! ## Contents -/

/-- Two contents one after the other are the content of both texts. -/
theorem Content.append (hs : Content s t) {s' t' : List Char} (hs' : Content s' t') :
    Content (s ++ s') (t ++ t') := by
  induction hs with
  | nil => exact hs'
  | plain hq hb hc _ ih => exact .plain hq hb hc ih
  | escape he _ ih =>
    rw [List.cons_append, List.append_assoc]
    exact .escape he ih

/-- The reader takes a content for what it means, up to the closing quote. -/
theorem readString_append (h : Content s t) (r : List Char) :
    readString (s ++ '"' :: r) = .ok (t, r) := by
  induction h with
  | nil => simp [readString]
  | plain hq hb hc _ ih =>
    rw [List.cons_append, readString]
    simp [hq, hb, ih, Nat.not_lt.2 hc]
  | @escape e s t d he _ ih =>
    rw [List.cons_append, List.append_assoc, readString]
    have hread := readEscape_append he (s ++ '"' :: r)
    simp only [show ¬('\\' = '"') by decide, if_false, if_true]
    split
    · rename_i f hf
      rw [hread] at hf
      cases hf
    · rename_i d' r' hd
      rw [hread] at hd
      simp only [Except.ok.injEq, Prod.mk.injEq] at hd
      obtain ⟨rfl, rfl⟩ := hd
      rw [ih]

/-- What the reader takes for a string is a content and a closing quote. -/
theorem readString_eq_ok (h : readString s = .ok (t, r)) :
    ∃ u, s = u ++ '"' :: r ∧ Content u t := by
  fun_induction readString s generalizing t with
  | case1 => cases h
  | case2 r' =>
    simp only [Except.ok.injEq, Prod.mk.injEq] at h
    obtain ⟨rfl, rfl⟩ := h
    exact ⟨[], rfl, .nil⟩
  | case3 => cases h
  | case4 => cases h
  | case5 s d r' he content rest hs _ ih =>
    simp only [Except.ok.injEq, Prod.mk.injEq] at h
    obtain ⟨rfl, rfl⟩ := h
    obtain ⟨e, rfl, hesc⟩ := readEscape_eq_ok he
    obtain ⟨u, rfl, hu⟩ := ih hs
    exact ⟨'\\' :: (e ++ u), by simp, .escape hesc hu⟩
  | case6 => cases h
  | case7 => cases h
  | case8 c r' hq hb hc content rest hs ih =>
    simp only [Except.ok.injEq, Prod.mk.injEq] at h
    obtain ⟨rfl, rfl⟩ := h
    obtain ⟨u, rfl, hu⟩ := ih hs
    exact ⟨c :: u, rfl, .plain hq hb (Nat.not_lt.1 hc) hu⟩

end

end ShellQuery.Json
