import ShellQuery.Proofs.Dialect.Trace
/-!
# The ends of what is written

Outside of strings the pass writes a numeric character only where it copies one, or where it writes
the integer that a call denotes. So what is written begins or ends with a numeric character only if
the text begins or ends with one, or with such a call (`beginsNumeric_of_normalize`,
`endsNumeric_of_run`). And what is written begins with a blank only if the text does
(`stops_normalize`).
-/

namespace ShellQuery.Dialect

open Text Decimal Json

/-- A text begins with a numeric character or a call that denotes an integer of 32 bits. -/
def BeginsNumeric (s : List Char) : Prop :=
  (∃ c r, s = c :: r ∧ isNumeric c = true) ∨ ∃ u n r, s = u ++ r ∧ Call u (.int32 n)

/-- A text ends with a numeric character or a call that denotes an integer of 32 bits. -/
def EndsNumeric (s : List Char) : Prop :=
  (∃ p c, s = p ++ [c] ∧ isNumeric c = true) ∨ ∃ p u n, s = p ++ u ∧ Call u (.int32 n)

section
variable {m m' : Mode} {c : Char} {s t p w u r : List Char} {l : Literal} {S : List Step}

/-- A run that has taken a step has taken a last one. -/
theorem Run.exists_last (h : Run m s S m' r) :
    (S = [] ∧ m = m' ∧ s = r) ∨ ∃ T m₁ c t, Run m s T m₁ (c :: t) ∧ S = T ++ [Dialect.step m₁ c t] ∧
      (Dialect.step m₁ c t).mode = m' ∧ (Dialect.step m₁ c t).rest = r := by
  induction h with
  | done => exact .inl ⟨rfl, rfl, rfl⟩
  | @step m _ c s r S hrun ih =>
    rcases ih with ⟨rfl, hmode, hrest⟩ | ⟨T, m₁, d, t, hT, rfl, hlast⟩
    · exact .inr ⟨[], m, c, s, .done, rfl, hmode, hrest⟩
    · exact .inr ⟨_, m₁, d, t, .step hT, by simp, hlast⟩

/-- What a run comes to is an end of the text. -/
theorem Run.exists_append (h : Run m s S m' r) : ∃ p, s = p ++ r := by
  induction h with
  | done => exact ⟨[], rfl⟩
  | @step m _ c s r S _ ih =>
    obtain ⟨x, hs⟩ := exists_step_rest m c s
    obtain ⟨p, hp⟩ := ih
    refine ⟨c :: (x ++ p), ?_⟩
    conv_lhs => rw [hs, hp]
    simp

/-- What a literal is written as, if it is no integer of 32 bits, stands in braces. -/
theorem spelling_cases (l : Literal) :
    (∃ n, l = .int32 n) ∨ ∃ x, l.spelling = '{' :: (x ++ ['}']) := by
  have htagged : ∀ tag text, ∃ x, tagged tag text = '{' :: (x ++ ['}']) := by
    intro tag text
    exact ⟨'"' :: (tag.toList ++ '"' :: ':' :: '"' :: (text ++ ['"'])), by simp [tagged]⟩
  cases l with
  | identifier text => exact .inr (htagged _ _)
  | instant text => exact .inr (htagged _ _)
  | int64 n => exact .inr (htagged _ _)
  | int32 n => exact .inl ⟨n, rfl⟩

/-- A text with no numeric character at its ends. -/
def NotNumericAround (s : List Char) : Prop :=
  ∃ c x d y, s = c :: x ∧ s = y ++ [d] ∧ isNumeric c = false ∧ isNumeric d = false

/-- What a step writes with a key has no numeric character at its ends. -/
theorem notNumericAround_quoteKey (hc : isNumeric c = false) (s : List Char) :
    NotNumericAround (c :: (quoteKey s).1) := by
  rcases quoteKey_cases s with ⟨a, -, -, h⟩ | ⟨u, key, -, -, h⟩ <;> rw [h]
  · exact ⟨c, [], c, [], rfl, rfl, hc, hc⟩
  · exact ⟨c, _, ':', c :: '"' :: (key ++ ['"']), rfl, by simp, hc, rfl⟩

/-- What a step outside of strings writes has no numeric character at its ends, unless the step
copies a character, or writes an integer for a call, or drops a comma. -/
theorem outsideStep_numeric (c : Char) (s : List Char) :
    ((outsideStep c s).written = [c] ∧ (outsideStep c s).rest = s) ∨
      (∃ u n, c :: s = u ++ (outsideStep c s).rest ∧ Call u (.int32 n)) ∨
      NotNumericAround (outsideStep c s).written ∨
      ∃ r, outsideStep c s = ⟨[], .keeps, .outside, r⟩ ∧ atClose r = true := by
  have hstep := outsideStep_cases c s
  generalize outsideStep c s = x at hstep ⊢
  cases hstep with
  | quote => exact .inr (.inr (.inl ⟨'"', [], '"', [], rfl, rfl, rfl, rfl⟩))
  | brace | comma => exact .inr (.inr (.inl (notNumericAround_quoteKey rfl s)))
  | bracket | close | copied => exact .inl ⟨rfl, rfl⟩
  | dropped hclose => exact .inr (.inr (.inr ⟨_, rfl, hclose⟩))
  | @call _ u _ l hu hcall =>
    rcases spelling_cases l with ⟨n, rfl⟩ | ⟨x, hx⟩
    · exact .inr (.inl ⟨u, n, hu, hcall⟩)
    · refine .inr (.inr (.inl ?_))
      rw [hx]
      exact ⟨'{', _, '}', '{' :: x, rfl, by simp, rfl, rfl⟩

/-- What is written begins with a numeric character only if the text does or a call is written
there. -/
theorem beginsNumeric_of_normalize (hc : isNumeric c = true) (h : normalize s = c :: t) :
    BeginsNumeric s := by
  cases s with
  | nil =>
    rw [normalize_nil] at h
    cases h
  | cons d s =>
    rw [normalize_cons] at h
    rcases outsideStep_numeric d s with ⟨hwritten, -⟩ | ⟨u, n, hu, hcall⟩ |
      ⟨e, x, -, -, hwritten, -, he, -⟩ | ⟨r, hstep, hclose⟩
    · rw [hwritten] at h
      obtain ⟨rfl, -⟩ := List.cons.inj h
      exact .inl ⟨d, s, rfl, hc⟩
    · exact .inr ⟨u, n, _, hu, hcall⟩
    · rw [hwritten] at h
      obtain ⟨rfl, -⟩ := List.cons.inj h
      rw [he] at hc
      cases hc
    · -- Behind a dropped comma a closing bracket or nothing is written.
      rw [hstep] at h
      cases r with
      | nil =>
        rw [steps_nil] at h
        cases h
      | cons e r =>
        have hcopy : normalize (e :: r) = c :: t := h
        rw [normalize_close hclose] at hcopy
        obtain ⟨rfl, -⟩ := List.cons.inj hcopy
        simp only [atClose, Bool.or_eq_true, beq_iff_eq] at hclose
        rcases hclose with rfl | rfl <;> cases hc

/-- What is written outside of strings ends with a numeric character only if what was read does or a
call was written there. -/
theorem endsNumeric_of_run (hrun : Run .outside (p ++ r) S .outside r) (hr : atClose r = false)
    (hc : isNumeric c = true) (h : S.flatMap Step.written = w ++ [c]) : EndsNumeric p := by
  rcases hrun.exists_last with ⟨rfl, -, -⟩ | ⟨T, m, d, t, hT, rfl, hmode, hrest⟩
  · simp at h
  obtain ⟨q, hq⟩ := hT.exists_append
  rw [List.flatMap_append, List.flatMap_singleton] at h
  have hlast : ∀ {x e}, (step m d t).written = x ++ [e] → e = c := by
    intro x e hwritten
    rw [hwritten, ← List.append_assoc] at h
    simpa using congrArg List.getLast? h
  by_cases hm : m = .outside
  · subst hm
    rcases outsideStep_numeric d t with ⟨hwritten, ht⟩ | ⟨u, n, hu, hcall⟩ |
      ⟨-, -, e, x, -, hwritten, -, he⟩ | ⟨r', hstep, hclose⟩
    · obtain rfl : d = c := hlast (x := []) hwritten
      obtain rfl : t = r := ht.symm.trans hrest
      refine .inl ⟨q, d, (List.append_left_inj t).1 ?_, hc⟩
      rw [hq, List.append_assoc, List.singleton_append]
    · have hu' : d :: t = u ++ r := by rw [hu, ← hrest]; rfl
      refine .inr ⟨q, u, n, (List.append_left_inj r).1 ?_, hcall⟩
      rw [hq, hu', List.append_assoc]
    · obtain rfl : e = c := hlast hwritten
      rw [he] at hc
      cases hc
    · have hr' : (outsideStep d t).rest = r := hrest
      rw [hstep] at hr'
      rw [← hr', hclose] at hr
      cases hr
  · obtain ⟨-, hwritten, -⟩ := step_leaves_string hm hmode
    obtain rfl : '"' = c := hlast (x := []) hwritten
    cases hc

/-! ## Visible characters -/

/-- A step at a visible character outside of strings writes one first, or drops a comma. -/
theorem outsideStep_visible (hc : isBlank c = false) (s : List Char) :
    (∃ d x, (outsideStep c s).written = d :: x ∧ isBlank d = false) ∨
      c = ',' ∧ atClose (trimStart s) = true := by
  have hstep := outsideStep_cases c s
  generalize outsideStep c s = x at hstep ⊢
  cases hstep with
  | quote | brace | bracket | comma => exact .inl ⟨_, _, rfl, rfl⟩
  | close | copied => exact .inl ⟨_, _, rfl, hc⟩
  | dropped hclose => exact .inr ⟨rfl, hclose⟩
  | @call _ _ _ l =>
    refine .inl ?_
    rcases spelling_cases l with ⟨n, rfl⟩ | ⟨x, hx⟩
    · cases hof : ofInt n with
      | nil => exact absurd hof (ofInt_ne_nil n)
      | cons d x =>
        have hnumeric : isNumeric d = true := isNumeric_of_mem_ofInt (hof ▸ List.mem_cons_self)
        exact ⟨d, x, hof, isBlank_of_isNumeric hnumeric⟩
    · exact ⟨_, _, hx, rfl⟩

/-- In front of a closing bracket the output is too. -/
theorem atClose_normalize (h : atClose r = true) : atClose (normalize r) = true := by
  cases r with
  | nil => rwa [normalize_nil]
  | cons d r =>
    rw [normalize_close h]
    exact h

/-- What is written begins with a blank only if the text does. -/
theorem stops_normalize (h : Stops isBlank s) : Stops isBlank (normalize s) := by
  cases s with
  | nil =>
    rw [normalize_nil]
    exact stops_nil
  | cons c s =>
    rcases outsideStep_visible (stops_cons.1 h) s with ⟨d, x, hwritten, hd⟩ | ⟨rfl, hclose⟩
    · rw [normalize_cons, hwritten]
      exact stops_cons.2 hd
    · obtain ⟨b, hs, hb, -⟩ := exists_blanks_trimStart s
      have hdropped := (Passes.droppedComma hb hclose).normalize_append.1
      rw [List.cons_append, ← hs, List.nil_append] at hdropped
      rw [hdropped]
      exact (ends_of_atClose (atClose_normalize hclose)).stops (by decide)

end

end ShellQuery.Dialect
