import ShellQuery.Proofs.Json.Lexing
/-!
# Escapes in strict JSON

Behind a backslash in a string of strict JSON stands the letter of an escape. `WellEscaped z s z'`
says it of a text that leads from one zone to another. Such texts can be put one behind the other
(`WellEscaped.append`), and lists of values are such texts (`escaping_items`). So a text with any
other character behind a backslash in a string is no strict JSON (`WellEscaped.letter_of_escaped`).
-/

namespace ShellQuery.Json

open Text

/-- The letters that may stand behind a backslash. -/
def isEscapeLetter (c : Char) : Bool :=
  c == 'u' || (unescape? c).isSome

/-- A text that leads from one zone to another, with the letter of an escape behind each backslash
that escapes a character. -/
inductive WellEscaped : Zone → List Char → Zone → Prop
  | nil {z : Zone} : WellEscaped z [] z
  | cons {z z₁ z' : Zone} {c : Char} {s : List Char} : z ≠ .escaped → z.next c = z₁ →
      WellEscaped z₁ s z' → WellEscaped z (c :: s) z'
  | letter {z' : Zone} {c : Char} {s : List Char} : isEscapeLetter c = true →
      WellEscaped .quoted s z' → WellEscaped .escaped (c :: s) z'

/-- The texts of a language begin and end outside of strings, and their escapes have letters. -/
def Escaping {α : Type} (lang : List Char → α → Prop) : Prop :=
  ∀ s x, lang s x → WellEscaped .outside s .outside

section
variable {α : Type} {z z' z'' : Zone} {core : Language} {s t p r : List Char} {c : Char}

/-- The escapes of two texts one after the other are those of each. -/
theorem WellEscaped.append (hs : WellEscaped z s z') (ht : WellEscaped z' t z'') :
    WellEscaped z (s ++ t) z'' := by
  induction hs with
  | nil => exact ht
  | cons hz hnext _ ih => exact .cons hz hnext (ih ht)
  | letter hc _ ih => exact .letter hc (ih ht)

/-- **Only letters are escaped.** -/
theorem WellEscaped.letter_of_escaped (h : WellEscaped z (p ++ c :: r) z')
    (hp : z.after p = .escaped) : isEscapeLetter c = true := by
  induction p generalizing z with
  | nil =>
    cases h with
    | cons hz => exact absurd hp hz
    | letter hc => exact hc
  | cons d p ih =>
    rw [Zone.after_cons] at hp
    cases h with
    | cons _ hnext h => exact ih h (hnext ▸ hp)
    | letter _ h => exact ih h hp

/-- A text without quotes stays outside of strings. -/
theorem wellEscaped_of_not_mem (h : '"' ∉ s) : WellEscaped .outside s .outside := by
  induction s with
  | nil => exact .nil
  | cons c s ih =>
    rw [List.mem_cons, not_or] at h
    exact .cons (by decide) (if_neg (Ne.symm h.1)) (ih h.2)

/-! ## Strings -/

/-- Four digits hold no escape. -/
theorem wellEscaped_hex4 {n : Nat} (h : Hex4 s n) : WellEscaped .quoted s .quoted := by
  have hdigit : ∀ {c n s}, hexValue? c = some n → WellEscaped .quoted s .quoted →
      WellEscaped .quoted (c :: s) .quoted := by
    intro c n s hc hs
    refine .cons (by decide) ?_ hs
    rw [Zone.next, if_neg, if_neg] <;>
      · rintro rfl
        cases hc
  cases h with
  | mk ha hb hc hd => exact hdigit ha (hdigit hb (hdigit hc (hdigit hd .nil)))

/-- All escapes in the content of a string have letters. -/
theorem wellEscaped_content (h : Content s t) : WellEscaped .quoted s .quoted := by
  have hunicode : ∀ {h n s}, Hex4 h n → WellEscaped .quoted s .quoted →
      WellEscaped .quoted ('\\' :: 'u' :: (h ++ s)) .quoted := fun hh hs =>
    .cons (by decide) rfl (.letter rfl ((wellEscaped_hex4 hh).append hs))
  induction h with
  | nil => exact .nil
  | plain hq hb _ _ ih => exact .cons (by decide) (by simp [Zone.next, hq, hb]) ih
  | escape he _ ih =>
    cases he with
    | letter hc => exact .cons (by decide) rfl (.letter (by simp [isEscapeLetter, hc]) ih)
    | unicode hh => exact hunicode hh ih
    | pair hh _ hh' =>
      rw [List.cons_append, List.append_assoc]
      exact hunicode hh (hunicode hh' ih)

/-- All escapes of a string have letters, and it begins and ends outside of strings. -/
theorem wellEscaped_string (h : Content s t) :
    WellEscaped .outside ('"' :: (s ++ ['"'])) .outside :=
  .cons (by decide) rfl ((wellEscaped_content h).append (.cons (by decide) rfl .nil))

/-! ## Values -/

/-- Blanks hold no escape. -/
theorem wellEscaped_spaces (h : Spaces s) : WellEscaped .outside s .outside := by
  refine wellEscaped_of_not_mem fun hmem => ?_
  cases h _ hmem

/-- A value without brackets holds the escapes of a string or none. -/
theorem escaping_scalar : Escaping Scalar := by
  intro s v h
  cases h with
  | null | true | false => exact wellEscaped_of_not_mem (by decide)
  | number h =>
    refine wellEscaped_of_not_mem fun hmem => ?_
    cases h.isNumeric _ hmem
  | text h => exact wellEscaped_string h

/-- Blanks around a value add no escape. -/
theorem Escaping.padded {core : List Char → α → Prop} (h : Escaping core) :
    Escaping (Padded core) := by
  rintro _ v ⟨ha, hv, hb⟩
  exact (wellEscaped_spaces ha).append ((h _ _ hv).append (wellEscaped_spaces hb))

/-- Commas between items add no escape. -/
theorem Escaping.listed {item : List Char → α → Prop} (h : Escaping item) :
    Escaping (Listed item) := by
  intro s xs hs
  induction hs with
  | last hx => exact h _ _ hx
  | more hx _ ih => exact (h _ _ hx).append (.cons (by decide) rfl ih)

/-- The escapes of a member are those of its key and of its value. -/
theorem Escaping.member (h : Escaping core) : Escaping (Member core) := by
  rintro _ m ⟨ha, hk, hb, hv⟩
  rename_i a k b s t v
  have hcut : a ++ '"' :: (k ++ '"' :: (b ++ ':' :: s)) =
      a ++ ('"' :: (k ++ ['"']) ++ (b ++ ':' :: s)) := by simp
  rw [hcut]
  refine (wellEscaped_spaces ha).append ((wellEscaped_string hk).append ?_)
  exact (wellEscaped_spaces hb).append (.cons (by decide) rfl (h.padded _ _ hv))

/-- Brackets around a text without open strings. -/
theorem WellEscaped.enclosed {o d : Char} (h : WellEscaped .outside s .outside) (ho : o ≠ '"')
    (hd : d ≠ '"') : WellEscaped .outside (o :: (s ++ [d])) .outside :=
  .cons (by decide) (if_neg ho) (h.append (.cons (by decide) (if_neg hd) .nil))

/-- Brackets add no escape. -/
theorem Escaping.nested (h : Escaping core) : Escaping (Nested core) := by
  intro s v hs
  cases hs with
  | scalar hv => exact escaping_scalar _ _ hv
  | emptyArray hs | emptyObject hs => exact (wellEscaped_spaces hs).enclosed (by decide) (by decide)
  | array hvs => exact (h.padded.listed _ _ hvs).enclosed (by decide) (by decide)
  | object hms => exact (h.member.listed _ _ hms).enclosed (by decide) (by decide)

/-- In strict JSON of any depth all escapes have letters. -/
theorem escaping_core : ∀ depth, Escaping (Core depth)
  | 0 => escaping_scalar
  | depth + 1 => (escaping_core depth).nested

/-- In a list of values in strict JSON all escapes have letters. -/
theorem escaping_items (depth : Nat) : Escaping (Items (Core depth)) :=
  (escaping_core depth).padded.listed

end

end ShellQuery.Json
