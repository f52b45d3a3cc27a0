import ShellQuery.Proofs.Dialect.LookAhead
/-!
# What a string holds stays inside of it

`normalize_quotation` is a statement about two runs. Over two texts that differ only in one quoted
text, reached outside of strings by both, the pass writes the same before and behind the string that
the quoted text becomes, and it is balanced over both or neither. The texts around may be malformed.

Up to the quoted text both runs take the same steps (`Run.alike`), because no look-ahead reads past
an opening quote without swallowing it: a quote is neither blank, nor part of a key, nor a colon,
nor a bracket (`quoteKey_append`, `atClose_append`), and a call that ends before the quote does not
depend on what stands behind it (`constructor?_append`). `step_alike` says so of one step, in front
of any two texts into which no look-ahead reads.
-/

namespace ShellQuery.Dialect

open Text Json

/-- The pass comes, outside of strings, to the place between two parts of a text. -/
def Reaches (p r : List Char) : Prop :=
  ∃ S, Run .outside (p ++ r) S .outside r

/-- Two steps that look the same from outside: they differ at most in the text they leave. -/
def Step.Alike (a b : Step) : Prop :=
  a.written = b.written ∧ a.nesting = b.nesting ∧ a.mode = b.mode

/-- A call at the front of a text, if there is one, ends in front of the part `t`. -/
def CallBefore (s t : List Char) : Prop :=
  ∀ l x, constructor? (s ++ t) = some (l, x) → t.length ≤ x.length

/-- A text that begins with a quote. -/
def OpensString (t : List Char) : Prop :=
  ∃ c ∈ t.head?, isQuote c = true

section
variable {p r t t₁ t₂ : List Char} {c q : Char} {m : Mode} {S S₁ S₂ : List Step}

/-! ## Look-ahead up to a quote -/

/-- A quote stops every run that it is not part of. -/
theorem OpensString.stops (h : OpensString t) {f : Char → Bool}
    (hf : ∀ c, isQuote c = true → f c = false) : Stops f t := by
  obtain ⟨d, hd, hquote⟩ := h
  intro c hc
  rw [Option.mem_def] at hc hd
  rw [hc, Option.some.injEq] at hd
  exact hf c (hd ▸ hquote)

/-- What begins with a quote does so with more text behind it. -/
theorem OpensString.append (h : OpensString t) (r : List Char) : OpensString (t ++ r) := by
  obtain ⟨d, hd, hquote⟩ := h
  cases t with
  | nil => cases hd
  | cons c t => exact ⟨d, hd, hquote⟩

/-- A quotation begins with its quote. -/
theorem opensString_quotation (hq : isQuote q = true) (s : List Char) :
    OpensString (quotation q s) :=
  ⟨q, rfl, hq⟩

/-- No search goes into a text that begins with a quote. -/
theorem OpensString.unsearched (h : OpensString t) : Unsearched t :=
  unsearched_of_stops (h.stops fun _ hq => by rcases isQuote_iff.1 hq with rfl | rfl <;> rfl)

/-- Whether a closing bracket comes next does not depend on which string stands behind. -/
theorem atClose_append (h₁ : OpensString t₁) (h₂ : OpensString t₂) (s : List Char) :
    atClose (s ++ t₁) = atClose (s ++ t₂) := by
  have hclose : ∀ {t}, OpensString t → atClose t = false := by
    rintro t ⟨c, hc, hquote⟩
    cases t with
    | nil => cases hc
    | cons d t =>
      cases hc
      rcases isQuote_iff.1 hquote with rfl | rfl <;> rfl
  cases s with
  | nil => simp [hclose h₁, hclose h₂]
  | cons => rfl

/-- What is left behind a call that ends before a part of the text ends with this part. -/
theorem constructor?_reaches {l : Literal} {s u : List Char}
    (h : constructor? (s ++ t) = some (l, u)) (hlen : t.length ≤ u.length) :
    ∃ v w, s = v ++ w ∧ u = w ++ t ∧ Call v l := by
  obtain ⟨v, hv, hcall⟩ := constructor?_eq_some_iff.1 h
  rcases List.append_eq_append_iff.1 hv with ⟨w, rfl, ht⟩ | ⟨w, rfl, rfl⟩
  · have hw : w = [] := by
      have := congrArg List.length ht
      rw [List.length_append] at this
      exact List.length_eq_zero_iff.1 (by omega)
    subst hw
    exact ⟨s, [], by simp, by simpa using ht.symm, by simpa using hcall⟩
  · exact ⟨v, w, rfl, rfl, hcall⟩

/-! ## Steps in front of two texts -/

/-- A step that ends in front of a part has taken no call beyond it. -/
theorem callBefore_of_step (hlen : t.length ≤ (step m c (p ++ t)).rest.length)
    (hm : m = .outside) : CallBefore (c :: p) t := by
  subst hm
  intro l x hfound
  obtain ⟨u, hu, hcall⟩ := constructor?_eq_some_iff.1 hfound
  have hstep : step .outside c (p ++ t) = ⟨l.spelling, .keeps, .outside, x⟩ :=
    (OutsideStep.call hu hcall).eq
  rwa [hstep] at hlen

/-- A call in front of one text is the same call in front of another. -/
theorem outsideStep_call_alike (hc : isMark c = false) (hcall₁ : CallBefore (c :: p) t₁)
    (hcall₂ : CallBefore (c :: p) t₂) :
    ∃ w u, outsideStep c (p ++ t₁) = ⟨w, .keeps, .outside, u ++ t₁⟩ ∧
      outsideStep c (p ++ t₂) = ⟨w, .keeps, .outside, u ++ t₂⟩ := by
  have hcall : ∀ {t : List Char} {l : Literal} {x : List Char} (r : List Char),
      CallBefore (c :: p) t → constructor? (c :: p ++ t) = some (l, x) →
      ∃ w u, outsideStep c (p ++ t) = ⟨w, .keeps, .outside, u ++ t⟩ ∧
        outsideStep c (p ++ r) = ⟨w, .keeps, .outside, u ++ r⟩ := by
    intro t l x r hbefore hfound
    obtain ⟨v, w, hp, -, hcall⟩ := constructor?_reaches hfound (hbefore l x hfound)
    have hstep : ∀ r, outsideStep c (p ++ r) = ⟨l.spelling, .keeps, .outside, w ++ r⟩ := by
      intro r
      refine (OutsideStep.call ?_ hcall).eq
      rw [← List.cons_append, hp, List.append_assoc]
    exact ⟨l.spelling, w, hstep t, hstep r⟩
  cases hfound₁ : constructor? (c :: p ++ t₁) with
  | some found => exact hcall t₂ hcall₁ hfound₁
  | none =>
    cases hfound₂ : constructor? (c :: p ++ t₂) with
    | some found =>
      obtain ⟨w, u, h₂, h₁⟩ := hcall t₁ hcall₂ hfound₂
      exact ⟨w, u, h₁, h₂⟩
    | none => exact ⟨[c], p, outsideStep_copy hc hfound₁, outsideStep_copy hc hfound₂⟩

/-- A comma in front of one text is dropped if it is in front of another. -/
theorem outsideStep_comma_alike (h₁ : Unsearched t₁) (h₂ : Unsearched t₂)
    (hclose : atClose (trimStart p ++ t₁) = atClose (trimStart p ++ t₂)) :
    ∃ w u, outsideStep ',' (p ++ t₁) = ⟨w, .keeps, .outside, u ++ t₁⟩ ∧
      outsideStep ',' (p ++ t₂) = ⟨w, .keeps, .outside, u ++ t₂⟩ := by
  have htrim₁ := trimStart_append_of_stops h₁.visible p
  have htrim₂ := trimStart_append_of_stops h₂.visible p
  cases hc : atClose (trimStart p ++ t₂) with
  | true =>
    rw [hc] at hclose
    refine ⟨[], trimStart p, ?_, ?_⟩
    · simp [outsideStep, htrim₁, hclose]
    · simp [outsideStep, htrim₂, hc]
  | false =>
    rw [hc] at hclose
    refine ⟨',' :: (quoteKey p).1, (quoteKey p).2, ?_, ?_⟩
    · simp [outsideStep, htrim₁, hclose, quoteKey_append h₁]
    · simp [outsideStep, htrim₂, hc, quoteKey_append h₂]

/-- A step in front of either of two texts that does not read into it looks the same. -/
theorem step_alike (h₁ : Unsearched t₁) (h₂ : Unsearched t₂)
    (hclose : m = .outside → c = ',' → atClose (trimStart p ++ t₁) = atClose (trimStart p ++ t₂))
    (hcall₁ : m = .outside → CallBefore (c :: p) t₁)
    (hcall₂ : m = .outside → CallBefore (c :: p) t₂)
    (hescape : m ≠ .outside → c = '\\' → p ≠ []) :
    ∃ w n m' u, step m c (p ++ t₁) = ⟨w, n, m', u ++ t₁⟩ ∧
      step m c (p ++ t₂) = ⟨w, n, m', u ++ t₂⟩ := by
  by_cases hm : m = .outside
  · subst hm
    by_cases hcomma : c = ','
    · subst hcomma
      obtain ⟨w, u, hstep₁, hstep₂⟩ := outsideStep_comma_alike h₁ h₂ (hclose rfl rfl)
      exact ⟨w, .keeps, .outside, u, hstep₁, hstep₂⟩
    cases hmark : isMark c with
    | true =>
      have hopens : opensCall c = false := by
        simp only [isMark, Bool.or_eq_true, beq_iff_eq] at hmark
        rcases hmark with (((((rfl | rfl) | rfl) | rfl) | rfl) | rfl) | rfl <;> rfl
      have hstep : ∀ {t}, Unsearched t →
          step .outside c (p ++ t) = (step .outside c p).before t :=
        fun h => step_before h (fun _ _ => constructor?_eq_none hopens)
          (fun _ hc => absurd hc hcomma) (absurd rfl)
      exact ⟨_, _, _, _, hstep h₁, hstep h₂⟩
    | false =>
      obtain ⟨w, u, hstep₁, hstep₂⟩ := outsideStep_call_alike hmark (hcall₁ rfl) (hcall₂ rfl)
      exact ⟨w, .keeps, .outside, u, hstep₁, hstep₂⟩
  · have hstep : ∀ {t}, Unsearched t → step m c (p ++ t) = (step m c p).before t :=
      fun h => step_before h (fun h _ => absurd h hm) (fun h _ => absurd h hm) hescape
    exact ⟨_, _, _, _, hstep h₁, hstep h₂⟩

/-! ## Two runs -/

/-- A run that has not come to its end begins with a step. -/
theorem Run.exists_step {m' : Mode} {s : List Char} (h : Run m (c :: s) S m' r)
    (hlen : r.length ≤ s.length) :
    ∃ T, S = Dialect.step m c s :: T ∧
      Run (Dialect.step m c s).mode (Dialect.step m c s).rest T m' r := by
  cases h with
  | done => exact absurd hlen (by simp)
  | step h => exact ⟨_, rfl, h⟩

/-- A run that takes no characters has no steps. -/
theorem Run.eq_nil {m' : Mode} {s : List Char} (h : Run m s S m' r)
    (hlen : s.length ≤ r.length) : S = [] := by
  cases h with
  | done => rfl
  | @step _ _ c s _ _ h =>
    have hle := h.length_le
    have hstep := step_rest_length_le m c s
    rw [List.length_cons] at hlen
    omega

/-- A backslash at the end of a text leaves the pass in the string. -/
theorem not_run_of_escape (hm : m ≠ .outside) :
    ¬Run (step m '\\' []).mode (step m '\\' []).rest S .outside r := by
  have hstep : step m '\\' [] = ⟨['\\'], .keeps, m, []⟩ := by
    cases m
    exacts [absurd rfl hm, rfl, rfl]
  rw [hstep]
  intro h
  cases h
  exact hm rfl

/-- A backslash in a string takes the character behind it. -/
theorem Run.ne_nil_of_escape {s : List Char}
    (h : Run (Dialect.step m c (s ++ t)).mode (Dialect.step m c (s ++ t)).rest S .outside t)
    (hm : m ≠ .outside) (hc : c = '\\') : s ≠ [] := by
  subst hc
  rintro rfl
  cases t with
  | nil => exact not_run_of_escape hm h
  | cons d t =>
    have hle := h.length_le
    cases m with
    | outside => exact hm rfl
    | doubleQuoted | singleQuoted => exact absurd hle (Nat.not_succ_le_self t.length)

/-- Up to a quoted text that both reach, two runs look the same. -/
theorem Run.alike (h₁ : OpensString t₁) (h₂ : OpensString t₂)
    (hrun₁ : Run m (p ++ t₁) S₁ .outside t₁) (hrun₂ : Run m (p ++ t₂) S₂ .outside t₂) :
    List.Forall₂ Step.Alike S₁ S₂ := by
  induction hn : p.length using Nat.strong_induction_on generalizing m p S₁ S₂ with
  | _ n ih =>
    cases p with
    | nil =>
      rw [hrun₁.eq_nil (Nat.le_refl _), hrun₂.eq_nil (Nat.le_refl _)]
      exact .nil
    | cons c p =>
      rw [List.cons_append] at hrun₁ hrun₂
      obtain ⟨T₁, rfl, hT₁⟩ := hrun₁.exists_step (by simp)
      obtain ⟨T₂, rfl, hT₂⟩ := hrun₂.exists_step (by simp)
      obtain ⟨w, n', m', u, hstep₁, hstep₂⟩ := step_alike h₁.unsearched h₂.unsearched
        (fun _ _ => atClose_append h₁ h₂ _) (callBefore_of_step hT₁.length_le)
        (callBefore_of_step hT₂.length_le) hT₁.ne_nil_of_escape
      have hu : u.length < n := by
        have hle := step_rest_length_le m c (p ++ t₁)
        rw [hstep₁] at hle
        simp only [List.length_append, List.length_cons] at hle hn
        omega
      rw [hstep₁] at hT₁ ⊢
      rw [hstep₂] at hT₂ ⊢
      exact .cons ⟨rfl, rfl, rfl⟩ (ih _ hu hT₁ hT₂ rfl)

/-- Steps that look the same write the same. -/
theorem written_alike (h : List.Forall₂ Step.Alike S₁ S₂) :
    S₁.flatMap Step.written = S₂.flatMap Step.written := by
  induction h with
  | nil => rfl
  | cons h _ ih => rw [List.flatMap_cons, List.flatMap_cons, h.1, ih]

/-- Alike steps lead from a depth to the same depth. -/
theorem Run.endsBalanced_alike {m' : Mode} {s : List Char} {T₁ T₂ : List Step}
    (hrun : Run m s S₁ m' r) (h : List.Forall₂ Step.Alike S₁ S₂)
    (hmore : ∀ depth, endsBalanced m' depth T₁ = endsBalanced m' depth T₂) (depth : Nat) :
    endsBalanced m depth (S₁ ++ T₁) = endsBalanced m depth (S₂ ++ T₂) := by
  induction hrun generalizing S₂ depth with
  | done =>
    cases h
    exact hmore depth
  | @step m _ c s _ _ _ ih =>
    cases h with
    | @cons _ b _ _ hb h =>
      obtain ⟨-, hnesting, hmode⟩ := hb
      simp only [List.cons_append, endsBalanced, ← hnesting, ← hmode]
      cases (Dialect.step m c s).nesting with
      | opens => exact ih h hmore _
      | closes =>
        cases depth with
        | zero => rfl
        | succ depth => exact ih h hmore _
      | keeps => exact ih h hmore _

/-! ## Main result -/

/-- **A string does not leak.** Let two texts differ in one quoted text only, and let the pass reach
it outside of strings in both. Then what the pass writes differs only in the string the quoted text
becomes, which is read as exactly the content, and the texts are balanced both or neither. -/
theorem normalize_quotation {q₁ q₂ : Char} {s₁ s₂ : List Char} (hq₁ : isQuote q₁ = true)
    (hq₂ : isQuote q₂ = true) (h₁ : Reaches p (quotation q₁ s₁ ++ r))
    (h₂ : Reaches p (quotation q₂ s₂ ++ r)) :
    ∃ A B j₁ j₂,
      normalize (p ++ quotation q₁ s₁ ++ r) = A ++ '"' :: (j₁ ++ '"' :: B) ∧
      normalize (p ++ quotation q₂ s₂ ++ r) = A ++ '"' :: (j₂ ++ '"' :: B) ∧
      (∀ x, readString (j₁ ++ '"' :: x) = .ok (s₁, x)) ∧
      (∀ x, readString (j₂ ++ '"' :: x) = .ok (s₂, x)) ∧
      isBalanced (p ++ quotation q₁ s₁ ++ r) = isBalanced (p ++ quotation q₂ s₂ ++ r) := by
  obtain ⟨S₁, hS₁⟩ := h₁
  obtain ⟨S₂, hS₂⟩ := h₂
  obtain ⟨T₁, hT₁, hwritten₁, hlevel₁⟩ := Passes.quotation (t := s₁) (r := r) hq₁
  obtain ⟨T₂, hT₂, hwritten₂, hlevel₂⟩ := Passes.quotation (t := s₂) (r := r) hq₂
  have halike := hS₁.alike ((opensString_quotation hq₁ s₁).append r)
    ((opensString_quotation hq₂ s₂).append r) hS₂
  have hsteps₁ := (hS₁.trans hT₁).steps_eq
  have hsteps₂ := (hS₂.trans hT₂).steps_eq
  have hmore : ∀ depth, endsBalanced .outside depth (T₁ ++ steps .outside r) =
      endsBalanced .outside depth (T₂ ++ steps .outside r) := by
    intro depth
    rw [hlevel₁, hlevel₂]
  refine ⟨S₁.flatMap Step.written, normalize r, s₁.flatMap strictChar, s₂.flatMap strictChar,
    ?_, ?_, readString_append (content_strictChars s₁), readString_append (content_strictChars s₂),
    ?_⟩
  · rw [List.append_assoc, normalize, hsteps₁, List.flatMap_append, List.flatMap_append, hwritten₁]
    simp [strictString, normalize]
  · rw [List.append_assoc, normalize, hsteps₂, List.flatMap_append, List.flatMap_append, hwritten₂,
      written_alike halike]
    simp [strictString, normalize]
  · rw [List.append_assoc, List.append_assoc, isBalanced, isBalanced, hsteps₁, hsteps₂,
      List.append_assoc, List.append_assoc]
    exact hS₁.endsBalanced_alike halike hmore 0

/-- Behind a bare key, in quotes of either kind. -/
theorem normalize_quotation_member :
    Reaches ['{', 'a', ':', ' '] (quotation '\'' ['"', '}', ','] ++ [',', '}']) ∧
      Reaches ['{', 'a', ':', ' '] (quotation '"' ['b', ':', '\''] ++ [',', '}']) ∧
      ∃ A B j₁ j₂,
        normalize (['{', 'a', ':', ' '] ++ quotation '\'' ['"', '}', ','] ++ [',', '}']) =
          A ++ '"' :: (j₁ ++ '"' :: B) ∧
        normalize (['{', 'a', ':', ' '] ++ quotation '"' ['b', ':', '\''] ++ [',', '}']) =
          A ++ '"' :: (j₂ ++ '"' :: B) ∧
        (∀ x, readString (j₁ ++ '"' :: x) = .ok (['"', '}', ','], x)) ∧
        (∀ x, readString (j₂ ++ '"' :: x) = .ok (['b', ':', '\''], x)) ∧
        isBalanced (['{', 'a', ':', ' '] ++ quotation '\'' ['"', '}', ','] ++ [',', '}']) =
          isBalanced (['{', 'a', ':', ' '] ++ quotation '"' ['b', ':', '\''] ++ [',', '}']) := by
  have h₁ : Reaches ['{', 'a', ':', ' '] (quotation '\'' ['"', '}', ','] ++ [',', '}']) :=
    ⟨_, .step (.step .done)⟩
  have h₂ : Reaches ['{', 'a', ':', ' '] (quotation '"' ['b', ':', '\''] ++ [',', '}']) :=
    ⟨_, .step (.step .done)⟩
  exact ⟨h₁, h₂, normalize_quotation rfl rfl h₁ h₂⟩

end

end ShellQuery.Dialect
