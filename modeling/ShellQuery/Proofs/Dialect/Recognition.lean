import ShellQuery.Proofs.TaggedText
/-!
# What the recognizer finds

The recognizer of calls goes through a table of constructors, and the first row that applies wins.
In fact no two rows apply to one text (`row_unique`), so the order of the table does not matter, and
a text begins with at most one call (`Call.unique`). What is found is pasted into strict JSON as it
stands; it is one value there, the tree of the literal (`Call.read_spelling`).
`constructor?_recognizes` puts this together with the grammar of calls.
-/

namespace ShellQuery.Dialect

open Text Json Decimal

/-- The value that the strict JSON of a literal writes. -/
def Literal.tree : Literal → Json
  | .identifier t => .object [(Tag.oid.key, .text (String.ofList t))]
  | .instant t => .object [(Tag.date.key, .text (String.ofList t))]
  | .int64 n => .object [(Tag.numberLong.key, .text (String.ofList n.spelling))]
  | .int32 i => .number (.int i)

section
variable {name name' : String} {form form' : Form} {s u u' r r' : List Char} {l l' : Literal}

/-! ## Rows of the table -/

/-- A text in which a call of a name is found begins with the name and a parenthesis. -/
theorem exists_append_of_call? (h : call? name form s = some (l, r)) :
    ∃ x, s = name.toList ++ '(' :: x := by
  unfold call? at h
  split at h
  · rename_i x hx
    exact ⟨x, (List.isPrefixOf?_eq_some_iff_append_eq.1 hx).symm⟩
  · cases h

/-- No two rows of the table apply to one text. -/
theorem row_unique (hrow : (name, form) ∈ constructors) (hrow' : (name', form') ∈ constructors)
    (h : call? name form s = some (l, r)) (h' : call? name' form' s = some (l', r')) :
    (name, form) = (name', form') := by
  obtain ⟨x, rfl⟩ := exists_append_of_call? h
  by_cases hne : name' = name
  · exact List.inj_on_of_nodup_map nodup_constructors hrow hrow' hne.symm
  · rw [call?_of_ne hne (paren_not_mem_constructors _ hrow) (paren_not_mem_constructors _ hrow')]
      at h'
    cases h'

/-- The order of the table does not matter. -/
theorem findSome?_perm {rows : List (String × Form)} (hrows : rows.Perm constructors)
    (s : List Char) :
    (rows.findSome? fun (name, form) => call? name form (afterNew s)) = constructor? s := by
  cases hfound : constructor? s with
  | none =>
    refine List.findSome?_eq_none_iff.2 fun row hrow => ?_
    exact List.findSome?_eq_none_iff.1 hfound row (hrows.mem_iff.1 hrow)
  | some found =>
    obtain ⟨⟨name, form⟩, hrow, h⟩ := List.exists_of_findSome?_eq_some hfound
    -- In any order the row that was found comes up, and no other row applies before it.
    refine findSome?_eq_some_of_agree (hrows.mem_iff.2 hrow) h ?_
    intro ⟨name', form'⟩ hrow'
    cases h' : call? name' form' (afterNew s) with
    | none => exact .inl h'
    | some found' =>
      have heq := row_unique hrow (hrows.mem_iff.1 hrow') h h'
      cases heq
      exact .inr h

/-! ## Calls at the front of a text -/

/-- A text begins with at most one call. -/
theorem Call.unique (h : Call u l) (h' : Call u' l') (hs : u <+: s) (hs' : u' <+: s) :
    u = u' ∧ l = l' := by
  obtain ⟨r, rfl⟩ := hs
  obtain ⟨r', hr'⟩ := hs'
  have hfound := constructor?_append h' r'
  rw [hr', constructor?_append h r, Option.some.injEq, Prod.mk.injEq] at hfound
  obtain ⟨rfl, rfl⟩ := hfound
  exact ⟨(List.append_cancel_right hr').symm, rfl⟩

/-! ## What is written for a call -/

/-- What is written for the literal of an argument is the text of its tree. -/
theorem Argument.core_spelling (h : Argument form s l) : Core 1 l.spelling l.tree := by
  cases h with
  | identifier _ ht => exact core_tagged .oid (content_plain ht)
  | instant _ ht => exact core_tagged .date (content_plain ht)
  | int64 h =>
    obtain ⟨_, hn⟩ := h.exists_numeralText
    exact core_tagged .numberLong (content_numeral hn.spelling)
  | int32 _ hfits =>
    simp only [fitsInt32, Bool.and_eq_true, decide_eq_true_eq] at hfits
    exact Nested.scalar (.number (signed_ofInt (by omega) (by omega)))

/-- The tree of a literal has no key to merge. -/
theorem Literal.merged_tree (l : Literal) : l.tree.merged = l.tree := by
  cases l with
  | identifier t => exact merged_tagged .oid t
  | instant t => exact merged_tagged .date t
  | int64 n => exact merged_tagged .numberLong n.spelling
  | int32 => rfl

/-- What is written for a call is read as the tree of its literal. -/
theorem Call.read_spelling (h : Call u l) : Json.read l.spelling = .ok l.tree := by
  obtain ⟨form, s, harg⟩ := h.exists_argument
  have hcore : Core maxDepth l.spelling l.tree := harg.core_spelling.mono (by decide)
  have hwritten : Padded (Core maxDepth) l.spelling l.tree := by
    simpa using Padded.mk (a := []) (b := []) spaces_nil hcore spaces_nil
  exact read_eq_ok_iff.2 ⟨_, hwritten, l.merged_tree⟩

/-! ## Main result -/

/-- **The recognizer accepts exactly the grammar of calls.** It finds something in a text exactly if
the text begins with a call. At most one row of the table applies, so any order of the rows gives
the same. What is found is the literal of the only call at the front, all of the text behind this
call is left, and none of it has an influence. What is written for the literal is one value of
strict JSON, the tree of the literal. -/
theorem constructor?_recognizes (s : List Char) :
    ((∃ found, constructor? s = some found) ↔ ∃ u l, u <+: s ∧ Call u l) ∧
      (∀ row ∈ constructors, ∀ row' ∈ constructors, ∀ found found',
        call? row.1 row.2 (afterNew s) = some found →
        call? row'.1 row'.2 (afterNew s) = some found' → row = row') ∧
      (∀ rows : List (String × Form), rows.Perm constructors →
        (rows.findSome? fun (name, form) => call? name form (afterNew s)) = constructor? s) ∧
      ∀ l r, constructor? s = some (l, r) →
        ∃ u, Call u l ∧ s = u ++ r ∧ 1 ≤ u.length ∧ u.length ≤ s.length ∧
          (∀ u' l', u' <+: s → Call u' l' → u' = u ∧ l' = l) ∧
          (∀ r', constructor? (u ++ r') = some (l, r')) ∧
          Json.read l.spelling = .ok l.tree := by
  refine ⟨⟨?_, ?_⟩, ?_, fun rows hrows => findSome?_perm hrows s, ?_⟩
  · intro ⟨⟨l, r⟩, h⟩
    obtain ⟨u, hu, hcall⟩ := constructor?_eq_some_iff.1 h
    exact ⟨u, l, ⟨r, hu.symm⟩, hcall⟩
  · intro ⟨u, l, ⟨r, hr⟩, hcall⟩
    exact ⟨(l, r), hr ▸ constructor?_append hcall r⟩
  · intro row hrow row' hrow' found found' h h'
    exact row_unique hrow hrow' h h'
  · intro l r h
    obtain ⟨u, rfl, hcall⟩ := constructor?_eq_some_iff.1 h
    have hlength := constructor?_length h
    rw [List.length_append] at hlength
    refine ⟨u, hcall, rfl, by omega, by simp, ?_, constructor?_append hcall, hcall.read_spelling⟩
    intro u' l' hu' hcall'
    exact hcall'.unique hcall hu' ⟨r, rfl⟩

/-- The word `new`, blanks, a sign, superfluous zeros, and a bracket behind the call. -/
theorem constructor?_recognizes_new :
    constructor? "new\u2003NumberLong( '+007'\t)]".toList =
        some (.int64 ⟨false, ['0', '0', '7']⟩, [']']) ∧
      (∃ u, Call u (.int64 ⟨false, ['0', '0', '7']⟩) ∧
        "new\u2003NumberLong( '+007'\t)]".toList = u ++ [']'] ∧ u.length = 24) ∧
      Json.read "\x7b\"$numberLong\":\"007\"\x7d".toList =
        .ok (.object [("$numberLong", .text "007")]) := by
  have hfound : constructor? "new\u2003NumberLong( '+007'\t)]".toList =
      some (.int64 ⟨false, ['0', '0', '7']⟩, [']']) := rfl
  obtain ⟨-, -, -, hlast⟩ := constructor?_recognizes "new\u2003NumberLong( '+007'\t)]".toList
  obtain ⟨u, hcall, hu, -, -, -, -, hread⟩ := hlast _ _ hfound
  have hlength : 25 = (u ++ [']']).length := congrArg List.length hu
  rw [List.length_append, List.length_singleton] at hlength
  exact ⟨hfound, ⟨u, hcall, hu, by omega⟩, hread⟩

end

end ShellQuery.Dialect
