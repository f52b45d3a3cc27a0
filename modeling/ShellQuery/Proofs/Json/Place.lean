import ShellQuery.Proofs.Json.Hole
/-!
# Places of numbers

A digit or a minus sign that stands outside of the strings of strict JSON belongs to a number, and
this number goes on, to both sides, as long as there are numeric characters. `Place` says of the two
texts around a number that any other number might stand between them, and would then stand at the
same place of the tree. `holdsNumbers_items` finds the number and its place in a list of values.
-/

namespace ShellQuery.Json

open Text

/-- The characters that numbers begin with. -/
def opensNumber (c : Char) : Bool :=
  c.isDigit || c == '-'

section
variable {α β : Type}

/-- A place for numbers between two texts: with any number there, the whole belongs to a language,
and what it writes holds the number. -/
structure Place (lang : List Char → α → Prop) (holds : Number → α → Prop) (a b : List Char)
    (f : Number → α) : Prop where
  fills : ∀ t n, Signed t n → lang (a ++ (t ++ b)) (f n)
  holds : ∀ n, holds n (f n)
  before : Stops isNumeric a.reverse
  behind : Stops isNumeric b

/-- The number at a cut of a text: its front stands before the cut, the other part behind it. -/
def NumberAt (lang : List Char → α → Prop) (holds : Number → α → Prop) (p r : List Char) (x : α) :
    Prop :=
  ∃ a u v b n f, p = a ++ u ∧ r = v ++ b ∧ Signed (u ++ v) n ∧ x = f n ∧ Place lang holds a b f

/-- There is a number wherever outside of strings stands what begins a number. -/
def HoldsNumbers (lang : List Char → α → Prop) (holds : Number → α → Prop) : Prop :=
  ∀ s x, lang s x → ∀ p c r, s = p ++ c :: r → opensNumber c = true →
    Zone.outside.after p = .outside → NumberAt lang holds p (c :: r) x

end

section
variable {α : Type} {lang : List Char → α → Prop} {context : (Json → α) → Prop}
  {holds : Number → α → Prop} {s : List Char} {c : Char} {v : Json} {depth : Nat}

/-- What begins a number begins a value other than a string. -/
theorem isOpening_of_opensNumber (h : opensNumber c = true) : isOpening c = true := by
  simp only [opensNumber, Bool.or_eq_true, beq_iff_eq] at h
  rcases h with h | rfl
  · have hquote : c ≠ '"' := by
      rintro rfl
      cases h
    simp [isOpening, opensValue, h, hquote]
  · rfl

/-- What begins like a number is one. -/
theorem exists_number (h : Core depth (c :: s) v) (hc : opensNumber c = true) :
    ∃ n, Signed (c :: s) n ∧ v = .number n := by
  have hscalar : ∀ {t}, Scalar t v → t = c :: s → ∃ n, Signed t n ∧ v = .number n := by
    intro t hv ht
    cases hv with
    | number hn => exact ⟨_, hn, rfl⟩
    | null | true | false | text =>
      rw [← (List.cons.inj ht).1] at hc
      cases hc
  cases depth with
  | zero => exact hscalar h rfl
  | succ depth =>
    generalize ht : c :: s = t at h
    cases h with
    | scalar hv => exact hscalar hv ht.symm
    | emptyArray | array | emptyObject | object =>
      rw [(List.cons.inj ht).1] at hc
      cases hc

/-- Among the values of a text are its numbers. -/
theorem HoldsValues.numbers (h : HoldsValues lang context)
    (hholds : ∀ f, context f → ∀ n, holds n (f (.number n))) : HoldsNumbers lang holds := by
  intro s x hs p c r hcut hc hp
  obtain ⟨d, a, u, v, b, w, f, rfl, hr, hne, hw, hfront, rfl, hf, hfills, hbefore, hbehind⟩ :=
    h s x hs p c r hcut (isOpening_of_opensNumber hc) hp
  obtain ⟨n, hn, rfl⟩ : ∃ n, Signed (u ++ v) n ∧ w = .number n := by
    rcases hfront with rfl | hnumber
    · obtain ⟨e, v, rfl⟩ := List.exists_cons_of_ne_nil hne
      rw [List.cons_append] at hr
      obtain ⟨rfl, -⟩ := List.cons.inj hr
      exact exists_number hw hc
    · exact hnumber
  refine ⟨a, u, v, b, n, fun n => f (.number n), rfl, hr, hn, rfl, fun t m ht => ?_, hholds f hf,
    hbefore, hbehind⟩
  exact hfills t _ (Core.mono (Nat.zero_le d) (.number ht))

/-! ## Places in strict JSON -/

/-- A number stands in a tree. -/
def InTree (n : Number) (v : Json) : Prop :=
  Part (.number n) v

/-- Something holds a number that stands in one element of a list. -/
def InList (holds : Number → α → Prop) (n : Number) (xs : List α) : Prop :=
  ∃ x ∈ xs, holds n x

/-- What stands at a place of a tree is part of the tree. -/
theorem Context.part {f : Json → Json} (h : Context f) (v : Json) : Part v (f v) := by
  induction h with
  | hole => exact .self
  | item before after _ ih => exact .item (by simp) ih
  | @field f before after key _ ih => exact .field (m := (key, f v)) (by simp) ih

/-- **Numbers have their places.** What begins a number outside of the strings of a list belongs to
a number of one of its trees. -/
theorem holdsNumbers_items (depth : Nat) :
    HoldsNumbers (Items (Core depth)) (InList InTree) := by
  refine (holdsValues_items depth).numbers ?_
  rintro _ ⟨before, after, hf⟩ n
  exact ⟨_, by simp, Context.part hf (.number n)⟩

end

end ShellQuery.Json
