import ShellQuery.Proofs.Json.Grammar
/-!
# Places in strict JSON

A `Zone` says where a place in a text is: outside of strings, in a string, or in a string behind a
backslash. `Zone.after` follows it through any text. A `Scan` adds to the zone the brackets that are
open and whether an item must come next, which is so behind a comma and a colon; it fails at a
bracket that does not close the last open one, at a closing bracket where an item must come, and at
blanks that JSON does not know. `followed_core` says that a scan goes through the text of a value
and comes back to the brackets it started with.
-/

namespace ShellQuery.Json

open Text

/-- Where a place in a text is. -/
inductive Zone
  | outside
  | quoted
  | escaped
  deriving DecidableEq

/-- The zone behind one more character. -/
def Zone.next : Zone → Char → Zone
  | .outside, c => if c = '"' then .quoted else .outside
  | .quoted, c => if c = '"' then .outside else if c = '\\' then .escaped else .quoted
  | .escaped, _ => .quoted

/-- The zone behind a text. -/
def Zone.after (z : Zone) (s : List Char) : Zone :=
  s.foldl Zone.next z

/-- A text that does not leave the string it stands in. -/
def Inside (s : List Char) : Prop :=
  (∀ p r, s = p ++ r → Zone.quoted.after p ≠ .outside) ∧ Zone.quoted.after s = .quoted

/-- A zone, the brackets that are open, and whether an item must come. -/
structure Scan where
  zone : Zone
  opened : List Char
  wants : Bool

/-- Two brackets of one kind. -/
def matching (o c : Char) : Bool :=
  (o == '[' && c == ']') || (o == '{' && c == '}')

/-- The scan behind one more character. -/
def Scan.next (x : Scan) (c : Char) : Option Scan :=
  match x.zone with
  | .outside =>
    if isSpace c then some x
    else if c = '[' ∨ c = '{' then some ⟨.outside, c :: x.opened, false⟩
    else if c = ']' ∨ c = '}' then
      match x.opened with
      | [] => none
      | o :: more => if matching o c && !x.wants then some ⟨.outside, more, false⟩ else none
    else if c = ',' ∨ c = ':' then some ⟨.outside, x.opened, true⟩
    else if isBlank c then none
    else some ⟨Zone.outside.next c, x.opened, false⟩
  | z => some ⟨z.next c, x.opened, x.wants⟩

/-- The scan behind a text. -/
def Scan.follow (x : Scan) (s : List Char) : Option Scan :=
  s.foldlM Scan.next x

section
variable {z : Zone} {x y : Scan} {s t r a b : List Char} {c : Char} {σ : List Char} {w : Bool}
  {core : Language} {v : Json}

/-! ## Zones -/

@[simp] theorem Zone.after_nil : z.after [] = z :=
  rfl

@[simp] theorem Zone.after_cons : z.after (c :: s) = (z.next c).after s :=
  rfl

@[simp] theorem Zone.after_append : z.after (s ++ t) = (z.after s).after t :=
  List.foldl_append

/-- Without a quote, a text outside of strings opens none. -/
theorem Zone.after_outside (h : '"' ∉ s) : Zone.outside.after s = .outside := by
  induction s with
  | nil => rfl
  | cons c s ih =>
    rw [List.mem_cons, not_or] at h
    rw [Zone.after_cons, Zone.next, if_neg (Ne.symm h.1), ih h.2]

/-- Blanks open no string. -/
theorem Zone.after_spaces (h : Spaces s) : Zone.outside.after s = .outside := by
  refine Zone.after_outside fun hmem => ?_
  cases h _ hmem

/-- The empty text leaves no string. -/
theorem inside_nil : Inside [] := by
  refine ⟨fun p r h => ?_, rfl⟩
  rw [(List.append_eq_nil_iff.1 h.symm).1]
  decide

/-- Two texts that do not leave a string do not leave it one after the other. -/
theorem Inside.append (hs : Inside s) (ht : Inside t) : Inside (s ++ t) := by
  refine ⟨fun p r h => ?_, by rw [Zone.after_append, hs.2, ht.2]⟩
  rcases List.append_eq_append_iff.1 h with ⟨u, rfl, hu⟩ | ⟨u, hu, -⟩
  · rw [Zone.after_append, hs.2]
    exact ht.1 u r hu
  · exact hs.1 p u hu

/-- A character that is neither a quote nor a backslash does not leave a string. -/
theorem inside_plain (hq : c ≠ '"') (hb : c ≠ '\\') : Inside [c] := by
  have hnext : Zone.quoted.next c = .quoted := by simp [Zone.next, hq, hb]
  refine ⟨fun p r h => ?_, hnext⟩
  cases p with
  | nil => decide
  | cons d p =>
    simp only [List.cons_append, List.cons.injEq, List.nil_eq, List.append_eq_nil_iff] at h
    obtain ⟨rfl, rfl, -⟩ := h
    rw [Zone.after_cons, hnext]
    decide

/-- An escape does not, whatever its character. -/
theorem inside_escape (c : Char) : Inside ['\\', c] := by
  refine ⟨fun p r h => ?_, rfl⟩
  match p with
  | [] => decide
  | [d] =>
    rw [← (List.cons.inj h).1]
    decide
  | d :: e :: p =>
    simp only [List.cons_append, List.cons.injEq, List.nil_eq, List.append_eq_nil_iff] at h
    obtain ⟨rfl, rfl, rfl, -⟩ := h
    exact (by decide : Zone.quoted ≠ .outside)

/-- Four digits leave no string. -/
theorem inside_hex4 {n : Nat} (h : Hex4 s n) : Inside s := by
  have hdigit : ∀ {c n}, hexValue? c = some n → Inside [c] := by
    intro c n hc
    refine inside_plain ?_ ?_ <;>
      · rintro rfl
        cases hc
  cases h with
  | mk ha hb hc hd =>
    exact (hdigit ha).append ((hdigit hb).append ((hdigit hc).append (hdigit hd)))

/-- The content of a string does not leave the string. -/
theorem inside_content (h : Content s t) : Inside s := by
  induction h with
  | nil => exact inside_nil
  | plain hq hb _ _ ih => exact (inside_plain hq hb).append ih
  | escape he _ ih =>
    rw [← List.cons_append]
    refine Inside.append ?_ ih
    cases he with
    | letter => exact inside_escape _
    | unicode hh => exact (inside_escape 'u').append (inside_hex4 hh)
    | pair hh _ hh' =>
      exact ((inside_escape 'u').append (inside_hex4 hh)).append
        ((inside_escape 'u').append (inside_hex4 hh'))

/-! ## Scans -/

@[simp] theorem Scan.follow_nil : x.follow [] = some x :=
  rfl

@[simp] theorem Scan.follow_cons : x.follow (c :: s) = (x.next c).bind fun y => y.follow s :=
  rfl

@[simp] theorem Scan.follow_append : x.follow (s ++ t) = (x.follow s).bind fun y => y.follow t :=
  List.foldlM_append

/-- In a string a scan sees nothing but its end. -/
theorem Scan.next_string (hz : z ≠ .outside) (c : Char) :
    (⟨z, σ, w⟩ : Scan).next c = some ⟨z.next c, σ, w⟩ := by
  cases z with
  | outside => exact absurd rfl hz
  | quoted | escaped => rfl

/-- Inside of a string nothing is opened or closed. -/
theorem Scan.follow_string (h : ∀ p r, s = p ++ r → z.after p ≠ .outside) :
    (⟨z, σ, w⟩ : Scan).follow s = some ⟨z.after s, σ, w⟩ := by
  induction s generalizing z with
  | nil => rfl
  | cons c s ih =>
    have hz : z ≠ .outside := h [] (c :: s) rfl
    rw [Scan.follow_cons, Scan.next_string hz, Option.bind_some, Zone.after_cons]
    exact ih fun p r hs => h (c :: p) r (by rw [hs, List.cons_append])

/-- A scan sees no blanks outside of strings. -/
theorem Scan.next_space (h : isSpace c = true) :
    (⟨.outside, σ, w⟩ : Scan).next c = some ⟨.outside, σ, w⟩ := by
  simp [Scan.next, h]

/-- The scan goes through blanks unchanged outside of strings. -/
theorem Scan.follow_spaces (h : Spaces s) :
    (⟨.outside, σ, w⟩ : Scan).follow s = some ⟨.outside, σ, w⟩ := by
  induction s with
  | nil => rfl
  | cons c s ih =>
    rw [spaces_cons] at h
    rw [Scan.follow_cons, Scan.next_space h.1, Option.bind_some, ih h.2]

/-- A scan keeps the zone. -/
theorem Scan.zone_next (h : x.next c = some y) : y.zone = x.zone.next c := by
  obtain ⟨z, σ, w⟩ := x
  cases z with
  | outside =>
    by_cases hc : c = '"'
    · subst hc
      cases h
      rfl
    · have hnext : Zone.outside.next c = .outside := if_neg hc
      simp only [Scan.next, hnext] at h
      rw [hnext]
      split_ifs at h
      · cases h
        rfl
      · cases h
        rfl
      · split at h
        · cases h
        · split_ifs at h
          cases h
          rfl
      · cases h
        rfl
      · cases h
        rfl
  | quoted | escaped =>
    cases h
    rfl

/-- A scan knows the zone. -/
theorem Scan.zone_follow (h : x.follow s = some y) : y.zone = x.zone.after s := by
  induction s generalizing x with
  | nil =>
    cases h
    rfl
  | cons c s ih =>
    rw [Scan.follow_cons, Option.bind_eq_some_iff] at h
    obtain ⟨x', hx, h⟩ := h
    rw [ih h, Scan.zone_next hx, Zone.after_cons]

/-! ## Scans of strict JSON -/

/-- A scan goes through the texts of a language, behind each of which no item must come. -/
def Followed {α : Type} (core : List Char → α → Prop) : Prop :=
  ∀ s x, core s x → ∀ σ w, (⟨.outside, σ, w⟩ : Scan).follow s = some ⟨.outside, σ, false⟩

/-- Behind a text that a scan goes through, no string is open. -/
theorem Followed.zone {α : Type} {core : List Char → α → Prop} {x : α} (h : Followed core)
    (hs : core s x) : Zone.outside.after s = .outside :=
  (Scan.zone_follow (h s x hs [] false)).symm

/-- A scan goes through a string, behind which no item must come. -/
theorem followed_string (h : Content s t) :
    (⟨.outside, σ, w⟩ : Scan).follow ('"' :: (s ++ ['"'])) = some ⟨.outside, σ, false⟩ := by
  obtain ⟨hinside, hend⟩ := inside_content h
  rw [Scan.follow_cons]
  show (Scan.follow ⟨.quoted, σ, false⟩ (s ++ ['"'])) = _
  rw [Scan.follow_append, Scan.follow_string hinside, hend]
  rfl

/-- No numeric character is a blank. -/
theorem isBlank_of_isNumeric (h : isNumeric c = true) : isBlank c = false := by
  simp only [isNumeric, Bool.or_eq_true, beq_iff_eq] at h
  rcases h with ((((h | rfl) | rfl) | rfl) | rfl) | rfl
  · exact isBlank_of_isDigit h
  all_goals rfl

/-- A numeric character is part of an item. -/
theorem Scan.next_numeric (h : isNumeric c = true) :
    (⟨.outside, σ, w⟩ : Scan).next c = some ⟨.outside, σ, false⟩ := by
  have hne : ∀ d, isNumeric d = false → c ≠ d := by
    rintro d hd rfl
    rw [h] at hd
    cases hd
  simp [Scan.next, Zone.next, isSpace_of_isNumeric h, isBlank_of_isNumeric h, hne '[' rfl,
    hne '{' rfl, hne ']' rfl, hne '}' rfl, hne ',' rfl, hne ':' rfl, hne '"' rfl]

/-- The characters of a number are part of one item. -/
theorem Scan.follow_numeric (hne : s ≠ []) (h : ∀ c ∈ s, isNumeric c = true) :
    (⟨.outside, σ, w⟩ : Scan).follow s = some ⟨.outside, σ, false⟩ := by
  induction s generalizing w with
  | nil => exact absurd rfl hne
  | cons c s ih =>
    rw [List.forall_mem_cons] at h
    rw [Scan.follow_cons, Scan.next_numeric h.1, Option.bind_some]
    cases s with
    | nil => rfl
    | cons d s => exact ih (by simp) h.2

/-- A number is written in numeric characters. -/
theorem Signed.isNumeric {n : Number} (h : Signed s n) : ∀ c ∈ s, isNumeric c = true := by
  cases h with
  | negative _ h => exact List.forall_mem_cons.2 ⟨rfl, h.1⟩
  | positive _ h => exact h.1

/-- A number is written with at least one character. -/
theorem Signed.ne_nil {n : Number} (h : Signed s n) : s ≠ [] := by
  cases h with
  | negative => simp
  | positive hd =>
    rintro rfl
    cases hd

/-- A scan goes through words, numbers and strings. -/
theorem followed_scalar : Followed Scalar := by
  intro s v h σ w
  cases h with
  | null | true | false => rfl
  | number h => exact Scan.follow_numeric h.ne_nil h.isNumeric
  | text h => exact followed_string h

/-- A scan goes through a value with blanks around it. -/
theorem Followed.padded {α : Type} {core : List Char → α → Prop} (h : Followed core) :
    Followed (Padded core) := by
  rintro _ v ⟨ha, hv, hb⟩ σ w
  rw [Scan.follow_append, Scan.follow_spaces ha, Option.bind_some, Scan.follow_append, h _ _ hv,
    Option.bind_some, Scan.follow_spaces hb]

/-- A scan goes through items with commas between them. -/
theorem Followed.listed {α : Type} {item : List Char → α → Prop} (h : Followed item) :
    Followed (Listed item) := by
  intro s xs hs
  induction hs with
  | last hx => exact h _ _ hx
  | more hx _ ih =>
    intro σ w
    rw [Scan.follow_append, h _ _ hx, Option.bind_some, Scan.follow_cons]
    exact ih σ true

/-- A scan goes through a key, a colon and a value. -/
theorem Followed.member (h : Followed core) : Followed (Member core) := by
  rintro _ m ⟨ha, hk, hb, hv⟩ σ w
  rename_i a k b s t v
  have hcut : a ++ '"' :: (k ++ '"' :: (b ++ ':' :: s)) =
      a ++ ('"' :: (k ++ ['"']) ++ (b ++ ':' :: s)) := by simp
  rw [hcut, Scan.follow_append, Scan.follow_spaces ha, Option.bind_some, Scan.follow_append,
    followed_string hk, Option.bind_some, Scan.follow_append, Scan.follow_spaces hb,
    Option.bind_some, Scan.follow_cons]
  exact h.padded _ _ hv σ true

/-- Brackets of one kind around a text that a scan goes through. -/
theorem Scan.follow_enclosed {o d : Char} (hmatch : matching o d = true)
    (h : (⟨.outside, o :: σ, false⟩ : Scan).follow s = some ⟨.outside, o :: σ, false⟩) :
    (⟨.outside, σ, w⟩ : Scan).follow (o :: (s ++ [d])) = some ⟨.outside, σ, false⟩ := by
  have hbracket : (o = '[' ∧ d = ']') ∨ (o = '{' ∧ d = '}') := by simpa [matching] using hmatch
  rcases hbracket with ⟨rfl, rfl⟩ | ⟨rfl, rfl⟩
  · show Scan.follow ⟨.outside, '[' :: σ, false⟩ (s ++ [']']) = _
    rw [Scan.follow_append, h]
    rfl
  · show Scan.follow ⟨.outside, '{' :: σ, false⟩ (s ++ ['}']) = _
    rw [Scan.follow_append, h]
    rfl

/-- A scan goes through brackets, and has as many of them open behind as in front. -/
theorem Followed.nested (h : Followed core) : Followed (Nested core) := by
  intro s v hs σ w
  cases hs with
  | scalar hv => exact followed_scalar _ _ hv σ w
  | emptyArray hs | emptyObject hs => exact Scan.follow_enclosed rfl (Scan.follow_spaces hs)
  | array hvs => exact Scan.follow_enclosed rfl (h.padded.listed _ _ hvs _ _)
  | object hms => exact Scan.follow_enclosed rfl (h.member.listed _ _ hms _ _)

/-- **A scan goes through a value.** -/
theorem followed_core : ∀ depth, Followed (Core depth)
  | 0 => followed_scalar
  | depth + 1 => (followed_core depth).nested

end

end ShellQuery.Json
