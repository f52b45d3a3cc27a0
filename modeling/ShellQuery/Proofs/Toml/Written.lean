import ShellQuery.Proofs.Json.Printer
import ShellQuery.Toml.Reader
/-!
# A document for every text

In double quotes each character may be written by its number, so a document can give any text for a
field, whatever characters it holds. `assigned` is such a document, a key of two parts with its
value, and `read?_assigned` says what is read of it.
-/

namespace ShellQuery.Toml

open Text

/-- A number in hexadecimal digits, with zeros in front. -/
def hexDigits : (width n : Nat) → List Char
  | 0, _ => []
  | width + 1, n => hexDigits width (n / 16) ++ [Nat.digitChar (n % 16)]

/-- Characters that are written by their numbers. -/
def escaped (s : List Char) : List Char :=
  s.flatMap fun c => '\\' :: 'U' :: hexDigits 8 c.toNat

/-- A document with one table, which has one field with a text. -/
def assigned (table key : List Char) (s : String) : String :=
  String.ofList (table ++ '.' :: key ++ '=' :: '"' :: escaped s.toList ++ ['"'])

variable {s r table key : List Char} {c : Char}

/-! ## Strings -/

/-- The hexadecimal digits are as many as the width asks for. -/
theorem length_hexDigits (width n : Nat) : (hexDigits width n).length = width := by
  induction width generalizing n with
  | zero => rfl
  | succ width ih => rw [hexDigits, List.length_append, ih, List.length_singleton]

/-- Digits are read as the number they write, up to what has no room in them. -/
theorem mapM_hexDigits (width n : Nat) :
    ∃ values, (hexDigits width n).mapM Json.hexValue? = some values ∧
      values.foldl (fun n d => n * 16 + d) 0 = n % 16 ^ width := by
  induction width generalizing n with
  | zero => exact ⟨[], rfl, by rw [Nat.pow_zero, Nat.mod_one]; rfl⟩
  | succ width ih =>
    obtain ⟨values, hvalues, hfold⟩ := ih (n / 16)
    have hlast := Json.hexValue?_digitChar (n % 16) (Nat.mod_lt _ (by decide))
    refine ⟨values ++ [n % 16], ?_, ?_⟩
    · simp [hexDigits, List.mapM_append, hvalues, hlast]
    · rw [List.foldl_append, hfold, Nat.pow_succ, Nat.mul_comm (16 ^ width) 16, Nat.mod_mul]
      simp only [List.foldl_cons, List.foldl_nil]
      omega

/-- The eight digits of a character are read as it. -/
theorem hexChar?_hexDigits (c : Char) : hexChar? (hexDigits 8 c.toNat) = some c := by
  obtain ⟨values, hvalues, hfold⟩ := mapM_hexDigits 8 c.toNat
  have hvalid : c.toNat.isValidChar := c.valid
  have hlt : c.toNat < 16 ^ 8 := by
    rcases hvalid with h | h
    · omega
    · omega
  rw [Nat.mod_eq_of_lt hlt] at hfold
  have hchar : ∀ n, n = c.toNat →
      (if h : n.isValidChar then some (Char.ofNatAux n h) else none) = some c := by
    rintro _ rfl
    exact (dif_pos hvalid).trans (congrArg some (Char.ext rfl))
  rw [hexChar?, hvalues]
  exact hchar _ hfold

/-- An escape with the eight digits of a character is read as it, whatever stands behind. -/
theorem readEscape?_hexDigits (c : Char) (r : List Char) :
    readEscape? ('U' :: hexDigits 8 c.toNat ++ r) = some (c, r) := by
  have hlength := length_hexDigits 8 c.toNat
  have htake : (hexDigits 8 c.toNat ++ r).take 8 = hexDigits 8 c.toNat := List.take_left' hlength
  have hdrop : (hexDigits 8 c.toNat ++ r).drop 8 = r := List.drop_left' hlength
  have hwidth : hexWidth? 'U' = some 8 := rfl
  simp only [readEscape?, List.cons_append, hwidth, htake, hdrop, hlength, if_true,
    hexChar?_hexDigits, Option.map_some]

/-- A closing quote ends a string. -/
theorem readBasic?_quote (r : List Char) : readBasic? ('"' :: r) = some ([], r) := by
  rw [readBasic?]
  rfl

/-- An escape gives one character, and the string goes on behind it. -/
theorem readBasic?_escape {t : List Char} (h : readEscape? t = some (c, r)) :
    readBasic? ('\\' :: t) = (readBasic? r).map fun (content, rest) => (c :: content, rest) := by
  rw [readBasic?, if_neg (by decide), if_pos rfl]
  split
  · rename_i d r' h'
    rw [h] at h'
    cases h'
    rfl
  · rename_i h'
    rw [h] at h'
    cases h'

/-- Characters that are written by their numbers are read as they are, up to the quote. -/
theorem readBasic?_escaped (s r : List Char) :
    readBasic? (escaped s ++ '"' :: r) = some (s, r) := by
  induction s with
  | nil => exact readBasic?_quote r
  | cons c s ih =>
    have hcut : escaped (c :: s) ++ '"' :: r =
        '\\' :: ('U' :: hexDigits 8 c.toNat ++ (escaped s ++ '"' :: r)) := by
      simp [escaped]
    rw [hcut, readBasic?_escape (readEscape?_hexDigits c _), ih]
    rfl

/-- A text in escapes is no string of several lines, since only the empty one begins with two
quotes. -/
theorem readString?_escaped (s : List Char) :
    readString? ('"' :: escaped s ++ ['"']) = some (s, []) := by
  have hline : readString? ('"' :: escaped s ++ ['"']) = readBasic? (escaped s ++ ['"']) := by
    cases s with
    | nil => rfl
    | cons c s => rfl
  rw [hline, readBasic?_escaped]

/-- A string of such escapes is read as the text. -/
theorem readValue?_escaped (depth : Nat) (s : List Char) :
    readValue? depth ('"' :: escaped s ++ ['"']) = some (.text (String.ofList s), []) := by
  have hstring := readString?_escaped s
  rw [List.cons_append] at hstring ⊢
  rw [readValue?.eq_def]
  simp only [true_or, if_true, hstring, Option.map_some]

/-! ## Keys -/

/-- The characters of a bare key are none of those that mean something else at its place. -/
theorem ne_of_isBareChar {d : Char} (h : isBareChar c = true) (hd : isBareChar d = false) :
    c ≠ d := by
  rintro rfl
  rw [h] at hd
  cases hd

/-- A bare key is read up to what stops it. -/
theorem readKeyPart?_bare (hkey : ∀ c ∈ key, isBareChar c = true) (hne : key ≠ [])
    (hr : Stops isBareChar r) : readKeyPart? (key ++ r) = some (String.ofList key, r) := by
  have htake := takeWhile_append_stops hkey hr
  have hdrop := dropWhile_append_stops hkey hr
  obtain ⟨c, t, rfl⟩ := List.exists_cons_of_ne_nil hne
  have hc := hkey c List.mem_cons_self
  rw [readKeyPart?, htake, hdrop]
  · rintro x hx
    exact ne_of_isBareChar hc (by decide) (List.cons.inj hx).1
  · rintro x hx
    exact ne_of_isBareChar hc (by decide) (List.cons.inj hx).1

/-- No character of a bare key is a tab or a space. -/
theorem isTabOrSpace_of_isBareChar (h : isBareChar c = true) : isTabOrSpace c = false := by
  rw [isTabOrSpace, Bool.or_eq_false_iff, beq_eq_false_iff_ne, beq_eq_false_iff_ne]
  exact ⟨ne_of_isBareChar h (by decide), ne_of_isBareChar h (by decide)⟩

/-- There is nothing to skip in front of a bare key. -/
theorem skipBlanks_bare (hkey : ∀ c ∈ key, isBareChar c = true) (hne : key ≠ []) (r : List Char) :
    skipBlanks (key ++ r) = key ++ r := by
  obtain ⟨c, t, rfl⟩ := List.exists_cons_of_ne_nil hne
  refine dropWhile_of_stops ?_
  rw [List.cons_append, stops_cons]
  exact isTabOrSpace_of_isBareChar (hkey c List.mem_cons_self)

/-- A key of two parts, up to its equals sign. -/
theorem readKey?_dotted (htable : ∀ c ∈ table, isBareChar c = true) (htable' : table ≠ [])
    (hkey : ∀ c ∈ key, isBareChar c = true) (hkey' : key ≠ []) (r : List Char) :
    readKey? (table ++ '.' :: (key ++ '=' :: r)) =
      some (([String.ofList table], String.ofList key), '=' :: r) := by
  have hdot : Stops isBareChar ('.' :: (key ++ '=' :: r)) := by
    rw [stops_cons]
    decide
  have hmark : Stops isBareChar ('=' :: r) := by
    rw [stops_cons]
    decide
  have hlast : readKeyParts? (key ++ '=' :: r) = some (([], String.ofList key), '=' :: r) := by
    rw [readKeyParts?, skipBlanks_bare hkey hkey', readKeyPart?_bare hkey hkey' hmark]
    rfl
  have hfirst : readKeyParts? (table ++ '.' :: (key ++ '=' :: r)) =
      some (([String.ofList table], String.ofList key), '=' :: r) := by
    rw [readKeyParts?, skipBlanks_bare htable htable', readKeyPart?_bare htable htable' hdot]
    have hskip : skipBlanks ('.' :: (key ++ '=' :: r)) = '.' :: (key ++ '=' :: r) := rfl
    simp only [hskip, hlast, Option.map_some]
    rw [if_pos (by simp; omega)]
  rw [readKey?, hfirst]
  rfl

/-! ## Documents -/

/-- The one line of the document. -/
theorem readField?_assigned (htable : ∀ c ∈ table, isBareChar c = true) (htable' : table ≠ [])
    (hkey : ∀ c ∈ key, isBareChar c = true) (hkey' : key ≠ []) (s : List Char) :
    readField? ⟨[], []⟩ (table ++ '.' :: (key ++ '=' :: ('"' :: escaped s ++ ['"']))) =
      some (⟨[(String.ofList table, .table .dotted
        [(String.ofList key, .leaf (.text (String.ofList s)))])], []⟩, []) := by
  have hmark : readKeyMark? (fun s => some (skipBlanks s))
      (table ++ '.' :: (key ++ '=' :: ('"' :: escaped s ++ ['"']))) =
      some (([String.ofList table], String.ofList key), '"' :: escaped s ++ ['"']) := by
    rw [readKeyMark?, readKey?_dotted htable htable' hkey hkey']
    rfl
  rw [readField?, hmark]
  simp only [readValue?_escaped]
  rfl

/-- A line that begins with a bare key is a field. -/
theorem readLines?_bare {draft next : Draft} (hkey : ∀ c ∈ key, isBareChar c = true)
    (hne : key ≠ []) (h : readField? draft (key ++ r) = some (next, [])) :
    readLines? draft (key ++ r) = some next := by
  obtain ⟨c, t, rfl⟩ := List.exists_cons_of_ne_nil hne
  have hc {d : Char} := @ne_of_isBareChar c d (hkey c List.mem_cons_self)
  rw [List.cons_append] at h ⊢
  have hskip : skipLines? false (c :: (t ++ r)) = some (c :: (t ++ r)) := by
    rw [skipLines?, if_neg (hc (by decide)), if_neg (hc (by decide)), if_neg Bool.false_ne_true,
      isTabOrSpace_of_isBareChar (hkey c List.mem_cons_self), if_neg Bool.false_ne_true,
      if_neg (hc (by decide))]
  have hline : readLineOf? draft (c :: (t ++ r)) = readField? draft (c :: (t ++ r)) := by
    rw [readLineOf?]
    · rintro x hx
      exact hc (by decide) (List.cons.inj hx).1
    · rintro x hx
      exact hc (by decide) (List.cons.inj hx).1
  have hend : readLines? next [] = some next := by
    rw [readLines?]
    rfl
  rw [readLines?, hskip]
  simp only [hline, h, hend, List.length_nil, List.length_cons, Nat.zero_lt_succ, if_true]

/-- **Any text can be given for a field.** -/
theorem read?_assigned (table key : List Char) (htable : table.all isBareChar = true)
    (htable' : table ≠ []) (hkey : key.all isBareChar = true) (hkey' : key ≠ []) (s : String) :
    read? (assigned table key s) =
      some [(String.ofList table, .table [(String.ofList key, .text s)])] := by
  have htable := List.all_eq_true.1 htable
  have hkey := List.all_eq_true.1 hkey
  have hlist : (assigned table key s).toList =
      table ++ '.' :: (key ++ '=' :: ('"' :: escaped s.toList ++ ['"'])) := by
    rw [assigned, String.toList_ofList]
    simp
  have hlines := readLines?_bare htable htable'
    (readField?_assigned htable htable' hkey hkey' s.toList)
  obtain ⟨c, t, rfl⟩ := List.exists_cons_of_ne_nil htable'
  have hmark : c ≠ '\ufeff' := ne_of_isBareChar (htable c List.mem_cons_self) (by decide)
  simp only [List.cons_append] at hlist hlines
  rw [read?, hlist]
  split
  · rename_i r hr
    exact absurd (List.cons.inj hr).1 hmark
  · rw [hlines]
    simp [entriesToFields, Node.toValue]

end ShellQuery.Toml
