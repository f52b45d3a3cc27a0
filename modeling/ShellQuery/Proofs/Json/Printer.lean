import ShellQuery.Json.Printer
import ShellQuery.Proofs.Json.Nesting
/-!
# Compact texts

What `Json.compact` writes stands on one line (`newline_not_mem_compactChars`), whatever the value
holds: line breaks in strings are escaped, and numbers have none. If all its numbers are integers,
the text is also strict JSON for the value it was made of, as deep as the value
(`core_compactChars`). Doubles are left out, because the nearest double to the digits of a double is
not what the reader makes of them.
-/

namespace ShellQuery.Json

open Text Decimal

/-! ## Texts of lists -/

/-- Items are printed one by one. -/
theorem compactItems_eq_map (items : List Json) : compactItems items = items.map compactChars := by
  induction items with
  | nil => rfl
  | cons v more ih => rw [compactItems, ih, List.map_cons]

/-- A field as it is written. -/
def compactMember (m : String × Json) : List Char :=
  quote m.1 ++ ':' :: m.2.compactChars

/-- The fields of an object are written one by one. -/
theorem compactFields_eq_map (fields : List (String × Json)) :
    compactFields fields = fields.map compactMember := by
  induction fields with
  | nil => rfl
  | cons m more ih => rw [compactFields, ih, List.map_cons, compactMember]

/-! ## On one line -/

section
variable {c : Char} {s : List Char} {d : Nat}

/-- Numeric characters hold no line feed. -/
theorem newline_not_mem_of_isNumeric (h : ∀ c ∈ s, isNumeric c = true) : '\n' ∉ s := by
  intro hmem
  exact absurd (h _ hmem) (by decide)

/-- The digits of a normal form are digits. -/
theorem isDigit_of_mem_normal {x : Scientific} (h : c ∈ x.normal.1) : c.isDigit = true := by
  have hsub : x.normal.1 ⊆ ofNat x.digits := by
    intro e he
    rw [Scientific.normal] at he
    exact List.mem_reverse.1 ((List.dropWhile_sublist _).mem (List.mem_reverse.1 he))
  exact isDigit_of_mem_ofNat (hsub h)

/-- Digits with a point in their place are numeric. -/
theorem isNumeric_of_mem_positional {leading : Int} (hs : ∀ c ∈ s, c.isDigit = true)
    (h : c ∈ positional s leading) : isNumeric c = true := by
  have hdigit : c ∈ s → isNumeric c = true := fun hc => isNumeric_of_isDigit (hs c hc)
  have hzero : ∀ {n : Nat}, c ∈ List.replicate n '0' → isNumeric c = true := by
    intro n hc
    rw [(List.mem_replicate.1 hc).2]
    rfl
  rw [positional] at h
  split at h
  · simp only [List.mem_append, List.mem_cons] at h
    rcases h with (rfl | rfl | h) | h
    · rfl
    · rfl
    · exact hzero h
    · exact hdigit h
  · simp only [List.mem_append, List.mem_cons] at h
    rcases h with (h | h) | rfl | h
    · exact hdigit (List.mem_of_mem_take h)
    · exact hzero h
    · rfl
    · split at h
      · rw [List.mem_singleton.1 h]
        rfl
      · exact hdigit (List.mem_of_mem_drop h)

/-- Digits with an exponent are numeric. -/
theorem isNumeric_of_mem_scientific {leading : Int} (hs : ∀ c ∈ s, c.isDigit = true)
    (h : c ∈ scientific s leading) : isNumeric c = true := by
  have hdigit : c ∈ s → isNumeric c = true := fun hc => isNumeric_of_isDigit (hs c hc)
  unfold scientific at h
  rcases List.mem_append.1 h with h | h
  · split at h
    · simp only [List.mem_cons] at h
      rcases h with rfl | rfl | h
      · exact hdigit List.mem_cons_self
      · rfl
      · exact hdigit (by simpa using .inr h)
    · exact hdigit h
  · simp only [List.mem_cons] at h
    rcases h with rfl | rfl | h
    · rfl
    · split <;> rfl
    · exact isNumeric_of_isDigit (isDigit_of_mem_ofNat h)

/-- A double is written in numeric characters. -/
theorem isNumeric_of_mem_floatText {x : Float} (h : c ∈ floatText x) : isNumeric c = true := by
  unfold floatText at h
  rcases List.mem_append.1 h with h | h
  · split at h
    · rw [List.mem_singleton.1 h]
      rfl
    · cases h
  split at h
  · simp only [List.mem_cons, List.not_mem_nil, or_false] at h
    rcases h with rfl | rfl | rfl <;> rfl
  split at h
  rename_i digits leading hnormal
  have hdigits : ∀ c ∈ digits, c.isDigit = true := by
    intro d hd
    refine isDigit_of_mem_normal (x := shortest (.ofBits x.toBits)) ?_
    rwa [hnormal]
  split at h
  · exact isNumeric_of_mem_positional hdigits h
  · exact isNumeric_of_mem_scientific hdigits h

/-- No number is printed with a line feed. -/
theorem newline_not_mem_text (n : Number) : '\n' ∉ n.text := by
  cases n with
  | int i => exact newline_not_mem_of_isNumeric fun _ => isNumeric_of_mem_ofInt
  | float x => exact newline_not_mem_of_isNumeric fun _ => isNumeric_of_mem_floatText

/-- No character is printed as a line feed, not even a line feed. -/
theorem newline_not_mem_escapeChar (c : Char) : '\n' ∉ escapeChar c := by
  unfold escapeChar
  split_ifs with _ _ _ _ hnewline
  · decide
  · decide
  · decide
  · decide
  · decide
  · decide
  · decide
  · simp
  · rw [List.mem_singleton]
    rintro rfl
    exact hnewline rfl

/-- No string is printed with a line feed. -/
theorem newline_not_mem_quote (s : String) : '\n' ∉ quote s := by
  rw [quote, List.mem_append, List.mem_cons, List.mem_flatMap, not_or, not_or]
  refine ⟨⟨by decide, ?_⟩, by decide⟩
  rintro ⟨c, -, hc⟩
  exact newline_not_mem_escapeChar c hc

/-- What stands in a list of texts with separators stands in a separator or in one of the texts. -/
theorem mem_intercalate {α : Type} {x : α} {sep : List α} {texts : List (List α)}
    (h : x ∈ sep.intercalate texts) : x ∈ sep ∨ ∃ t ∈ texts, x ∈ t := by
  induction texts with
  | nil => cases h
  | cons t more ih =>
    cases more with
    | nil =>
      rw [List.intercalate_singleton] at h
      exact .inr ⟨t, List.mem_cons_self, h⟩
    | cons u more =>
      rw [List.intercalate_cons_cons, List.mem_append, List.mem_append] at h
      rcases h with (h | h) | h
      · exact .inr ⟨t, List.mem_cons_self, h⟩
      · exact .inl h
      · exact (ih h).imp_right fun ⟨t, ht, hx⟩ => ⟨t, List.mem_cons_of_mem _ ht, hx⟩

/-- Brackets and commas add no line break. -/
theorem newline_not_mem_enclosed {opening closing : Char} {texts : List (List Char)}
    (ho : opening ≠ '\n') (hc : closing ≠ '\n') (h : ∀ t ∈ texts, '\n' ∉ t) :
    '\n' ∉ opening :: [','].intercalate texts ++ [closing] := by
  rw [List.mem_append, List.mem_cons, not_or, not_or, List.mem_singleton]
  refine ⟨⟨ho.symm, fun hmem => ?_⟩, hc.symm⟩
  rcases mem_intercalate hmem with hcomma | ⟨t, ht, hmem⟩
  · cases List.mem_singleton.1 hcomma
  · exact h t ht hmem

/-- **A compact text is one line.** -/
theorem newline_not_mem_compactChars (v : Json) : '\n' ∉ v.compactChars := by
  induction v using induct with
  | null => decide
  | bool b => cases b <;> decide
  | number n => exact newline_not_mem_text n
  | text s => exact newline_not_mem_quote s
  | array items ih =>
    rw [compactChars, compactItems_eq_map]
    exact newline_not_mem_enclosed (by decide) (by decide) (List.forall_mem_map.2 ih)
  | object fields ih =>
    rw [compactChars, compactFields_eq_map]
    refine newline_not_mem_enclosed (by decide) (by decide) (List.forall_mem_map.2 fun m hm => ?_)
    rw [compactMember, List.mem_append, List.mem_cons, not_or, not_or]
    exact ⟨newline_not_mem_quote m.1, by decide, ih m hm⟩

/-! ## In the grammar -/

/-- Every number in a tree is an integer of 64 bits. -/
def Integral (v : Json) : Prop :=
  ∀ n, Part (.number n) v → ∃ i, n = .int i ∧ -2 ^ 63 ≤ i ∧ i < 2 ^ 64

/-- An array is integral if its items are. -/
theorem integral_array {items : List Json} (h : ∀ v ∈ items, v.Integral) :
    Integral (.array items) := by
  rintro n (_ | ⟨hv, hpart⟩)
  exact h _ hv n hpart

/-- An object is integral if its values are. -/
theorem integral_object {fields : List (String × Json)} (h : ∀ m ∈ fields, m.2.Integral) :
    Integral (.object fields) := by
  rintro n (_ | _ | ⟨hm, hpart⟩)
  exact h _ hm n hpart

/-- The digit for a number has the number as its value. -/
theorem hexValue?_digitChar : ∀ d < 16, hexValue? d.digitChar = some d := by
  decide

/-- What is printed for a character reads as this character. -/
theorem content_escapeChar (c : Char) : Content (escapeChar c) [c] := by
  have letter : ∀ {d e : Char}, unescape? e = some d → (c == d) = true →
      Content ['\\', e] [c] := by
    intro d e he hc
    rw [beq_iff_eq.1 hc]
    exact .escape (e := [e]) (.letter he) .nil
  unfold escapeChar
  split_ifs with hquote hbackslash hb hf hn hr ht hcontrol
  · exact letter rfl hquote
  · exact letter rfl hbackslash
  · exact letter rfl hb
  · exact letter rfl hf
  · exact letter rfl hn
  · exact letter rfl hr
  · exact letter rfl ht
  · have hhex : Hex4 ['0', '0', (c.toNat / 16).digitChar, (c.toNat % 16).digitChar]
        (((0 * 16 + 0) * 16 + c.toNat / 16) * 16 + c.toNat % 16) :=
      .mk rfl rfl (hexValue?_digitChar _ (by omega)) (hexValue?_digitChar _ (by omega))
    have hnumber : ((0 * 16 + 0) * 16 + c.toNat / 16) * 16 + c.toNat % 16 = c.toNat := by omega
    rw [hnumber] at hhex
    have hescape := Escape.unicode hhex
      (by simp only [isLeadingSurrogate, Bool.and_eq_false_iff, decide_eq_false_iff_not]; omega)
      (by simp only [isTrailingSurrogate, Bool.and_eq_false_iff, decide_eq_false_iff_not]; omega)
    rw [Char.ofNat_toNat] at hescape
    exact .escape hescape .nil
  · exact .plain (by simpa using hquote) (by simpa using hbackslash) (Nat.not_lt.1 hcontrol) .nil

/-- What is printed for a text reads as this text. -/
theorem content_escapeChars (t : List Char) : Content (t.flatMap escapeChar) t := by
  induction t with
  | nil => exact .nil
  | cons c t ih => exact (content_escapeChar c).append ih

/-- A printed string is a scalar. -/
theorem scalar_quote (s : String) : Scalar (quote s) (.text s) := by
  have h := Scalar.text (content_escapeChars s.toList)
  rwa [String.ofList_toList] at h

/-- Texts of items with commas between them list the items. -/
theorem listed_intercalate {α : Type} {item : List Char → α → Prop} {f : α → List Char}
    {xs : List α} (hne : xs ≠ []) (h : ∀ x ∈ xs, item (f x) x) :
    Listed item ([','].intercalate (xs.map f)) xs := by
  induction xs with
  | nil => exact absurd rfl hne
  | cons x more ih =>
    have hx := h x List.mem_cons_self
    cases more with
    | nil =>
      rw [List.map_singleton, List.intercalate_singleton]
      exact .last hx
    | cons y more =>
      have hmore := ih (List.cons_ne_nil y more) fun z hz => h z (List.mem_cons_of_mem _ hz)
      have hlisted := Listed.more hx hmore
      rwa [List.map_cons, List.map_cons, List.intercalate_cons_cons, List.append_assoc,
        List.singleton_append]

/-- No blanks are needed around a value. -/
theorem padded_self {α : Type} {core : List Char → α → Prop} {x : α} (h : core s x) :
    Padded core s x := by
  have hpadded := Padded.mk (a := []) (b := []) spaces_nil h spaces_nil
  rwa [List.append_nil, List.nil_append] at hpadded

/-- A printed member is one if its value is printed as one. -/
theorem member_compactMember {core : Language} {m : String × Json}
    (h : core m.2.compactChars m.2) : Member core (compactMember m) m := by
  have hmember := Member.mk (a := []) (b := []) spaces_nil (content_escapeChars m.1.toList)
    spaces_nil (padded_self h)
  rw [String.ofList_toList] at hmember
  simpa [compactMember, quote] using hmember

/-- **A compact text is strict JSON for the value it was made of**, if its numbers are integers. -/
theorem core_compactChars {v : Json} (h : v.Integral) (hd : v.nesting ≤ d) :
    Core d v.compactChars v := by
  have scalar : ∀ {d s v}, Scalar s v → Core d s v :=
    fun hs => Core.mono (Nat.zero_le _) (d := 0) hs
  induction v using induct generalizing d with
  | null => exact scalar .null
  | bool b =>
    cases b with
    | true => exact scalar .true
    | false => exact scalar .false
  | number n =>
    obtain ⟨i, rfl, hmin, hmax⟩ := h n .self
    exact scalar (.number (signed_ofInt hmin hmax))
  | text s => exact scalar (scalar_quote s)
  | array items ih =>
    rw [nesting] at hd
    rw [compactChars, compactItems_eq_map]
    cases d with
    | zero => exact absurd hd (Nat.not_succ_le_zero _)
    | succ d =>
      have hitems := nestingItems_le.1 (Nat.le_of_succ_le_succ hd)
      by_cases hne : items = []
      · subst hne
        exact Nested.emptyArray (s := []) spaces_nil
      · exact Nested.array (listed_intercalate hne fun v hv =>
          padded_self (ih v hv (fun n hn => h n (.item hv hn)) (hitems v hv)))
  | object fields ih =>
    rw [nesting] at hd
    rw [compactChars, compactFields_eq_map]
    cases d with
    | zero => exact absurd hd (Nat.not_succ_le_zero _)
    | succ d =>
      have hfields := nestingFields_le.1 (Nat.le_of_succ_le_succ hd)
      by_cases hne : fields = []
      · subst hne
        exact Nested.emptyObject (s := []) spaces_nil
      · exact Nested.object (listed_intercalate hne fun m hm =>
          member_compactMember (ih m hm (fun n hn => h n (.field hm hn)) (hfields m hm)))

end

end ShellQuery.Json
