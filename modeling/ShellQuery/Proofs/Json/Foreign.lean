import ShellQuery.Proofs.Json.Lexing
/-!
# What strict JSON has outside of strings

Outside of its strings strict JSON has blanks, brackets, commas, colons, quotes, the characters of
numbers and the letters of three words, and nothing else: any other character is foreign to it
(`isForeign`). `Free` says of a text that it has no character of a class outside of strings, and
`free_items` that lists of values have no foreign one.
-/

namespace ShellQuery.Json

open Text

/-- A text that has no character of a class outside of its strings. -/
def Free (f : Char → Bool) (s : List Char) : Prop :=
  ∀ p c r, s = p ++ c :: r → Zone.outside.after p = .outside → f c = false

/-- The letters of `null`, `true` and `false`. -/
def isWordLetter (c : Char) : Bool :=
  ['n', 'u', 'l', 't', 'r', 'e', 'f', 'a', 's'].contains c

/-- Brackets, commas, colons and quotes. -/
def isPunctuation (c : Char) : Bool :=
  ['[', ']', '{', '}', ',', ':', '"'].contains c

/-- The characters that strict JSON does not know outside of strings. -/
def isForeign (c : Char) : Bool :=
  !(isSpace c || isNumeric c || isWordLetter c || isPunctuation c)

/-- No text of a language has a foreign character outside of strings. -/
def Unmixed {α : Type} (lang : List Char → α → Prop) : Prop :=
  ∀ s x, lang s x → Free isForeign s

section
variable {α : Type} {f : Char → Bool} {lang : List Char → α → Prop} {core : Language}
  {s t r : List Char} {c : Char}

/-! ## Texts without a class of characters -/

/-- A text that holds no character of a class has none outside of its strings. -/
theorem free_of_forall (h : ∀ c ∈ s, f c = false) : Free f s := by
  rintro p c r rfl -
  exact h c (by simp)

/-- A text none of whose characters is of a class has none of them outside of strings. -/
theorem free_of_all (h : (s.all fun c => !f c) = true) : Free f s :=
  free_of_forall fun c hc => by simpa using List.all_eq_true.1 h c hc

/-- One character that is not of the class. -/
theorem free_singleton (h : f c = false) : Free f [c] :=
  free_of_forall (List.forall_mem_singleton.2 h)

/-- Two texts are free of a class if each is, and the first leaves no string open. -/
theorem Free.append (hs : Free f s) (hzone : Zone.outside.after s = .outside) (ht : Free f t) :
    Free f (s ++ t) := by
  intro p c r h hp
  rcases cut_append h with ⟨x, hx, -⟩ | ⟨p', rfl, hp'⟩
  · exact hs p c x hx hp
  · rw [Zone.after_append, hzone] at hp
    exact ht p' c r hp' hp

/-- What stands in a string does not matter. -/
theorem free_string (hf : f '"' = false) (h : Content s t) : Free f ('"' :: (s ++ ['"'])) := by
  intro p c r hcut hp
  cases p with
  | nil => rwa [← (List.cons.inj hcut).1]
  | cons d p =>
    obtain ⟨rfl, htail⟩ := List.cons.inj hcut
    rcases cut_append htail with ⟨x, rfl, -⟩ | ⟨p', rfl, hp'⟩
    · exact absurd hp ((inside_content h).1 p (c :: x) rfl)
    · cases p' with
      | nil => rwa [← (List.cons.inj hp').1]
      | cons e p' => simp at hp'

/-- A character of the class at a place outside of strings cannot be there. -/
theorem Free.not_mem_at (h : Free f (s ++ c :: r)) (hs : Zone.outside.after s = .outside)
    (hc : f c = true) : False := by
  rw [h s c r rfl hs] at hc
  cases hc

/-- A string ends outside of strings. -/
theorem Zone.after_string (h : Content s t) :
    Zone.outside.after ('"' :: (s ++ ['"'])) = .outside := by
  rw [Zone.after_cons, Zone.after_append]
  show (Zone.quoted.after s).after ['"'] = .outside
  rw [(inside_content h).2]
  rfl

/-! ## Strict JSON -/

/-- Blanks are not foreign. -/
theorem free_spaces (h : Spaces s) : Free isForeign s :=
  free_of_forall fun c hc => by simp [isForeign, h c hc]

/-- Nothing in a value without brackets is foreign. -/
theorem unmixed_scalar : Unmixed Scalar := by
  intro s v h
  cases h with
  | null | true | false => exact free_of_all rfl
  | number h => exact free_of_forall fun c hc => by simp [isForeign, h.isNumeric c hc]
  | text h => exact free_string rfl h

/-- Blanks around a value add nothing foreign. -/
theorem Unmixed.padded (h : Unmixed lang) (hf : Followed lang) : Unmixed (Padded lang) := by
  rintro _ x ⟨ha, hx, hb⟩
  exact (free_spaces ha).append (Zone.after_spaces ha)
    ((h _ _ hx).append (hf.zone hx) (free_spaces hb))

/-- Commas between items add nothing foreign. -/
theorem Unmixed.listed (h : Unmixed lang) (hf : Followed lang) : Unmixed (Listed lang) := by
  intro s xs hs
  induction hs with
  | last hx => exact h _ _ hx
  | @more s t x xs hx hxs ih =>
    have hcomma : Free isForeign (',' :: t) := (free_singleton (c := ',') rfl).append rfl ih
    exact (h _ _ hx).append (hf.zone hx) hcomma

/-- A key and a colon add nothing foreign to a value. -/
theorem Unmixed.member (h : Unmixed core) (hf : Followed core) : Unmixed (Member core) := by
  rintro _ m ⟨ha, hk, hb, hv⟩
  rename_i a k b s t v
  have hcut : a ++ '"' :: (k ++ '"' :: (b ++ ':' :: s)) =
      a ++ ('"' :: (k ++ ['"']) ++ (b ++ ([':'] ++ s))) := by simp
  have hvalue : Free isForeign ([':'] ++ s) :=
    (free_singleton rfl).append rfl (h.padded hf _ _ hv)
  rw [hcut]
  exact (free_spaces ha).append (Zone.after_spaces ha)
    ((free_string rfl hk).append (Zone.after_string hk)
      ((free_spaces hb).append (Zone.after_spaces hb) hvalue))

/-- Brackets around a text add no foreign character. -/
theorem Free.enclosed {o d : Char} (h : Free isForeign s) (hs : Zone.outside.after s = .outside)
    (ho : isForeign o = false) (hquote : o ≠ '"') (hd : isForeign d = false) :
    Free isForeign (o :: (s ++ [d])) := by
  have hopen : Zone.outside.after [o] = .outside := if_neg hquote
  exact (free_singleton ho).append hopen (h.append hs (free_singleton hd))

/-- Brackets add nothing foreign to what stands between them. -/
theorem Unmixed.nested (h : Unmixed core) (hf : Followed core) : Unmixed (Nested core) := by
  intro s v hs
  cases hs with
  | scalar hv => exact unmixed_scalar _ _ hv
  | emptyArray hs | emptyObject hs =>
    exact (free_spaces hs).enclosed (Zone.after_spaces hs) rfl (by decide) rfl
  | array hvs =>
    exact ((h.padded hf).listed hf.padded _ _ hvs).enclosed (hf.padded.listed.zone hvs) rfl
      (by decide) rfl
  | object hms =>
    exact ((h.member hf).listed hf.member _ _ hms).enclosed (hf.member.listed.zone hms) rfl
      (by decide) rfl

/-- Strict JSON of any depth holds nothing foreign outside of strings. -/
theorem unmixed_core : ∀ depth, Unmixed (Core depth)
  | 0 => unmixed_scalar
  | depth + 1 => (unmixed_core depth).nested (followed_core depth)

/-- **Strict JSON has nothing foreign outside of strings.** -/
theorem free_items {depth : Nat} {vs : List Json} (h : Items (Core depth) s vs) :
    Free isForeign s :=
  ((unmixed_core depth).padded (followed_core depth)).listed (followed_core depth).padded s vs h

end

end ShellQuery.Json
