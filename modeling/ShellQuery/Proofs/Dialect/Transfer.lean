import ShellQuery.Proofs.Dialect.Immunity
import ShellQuery.Proofs.Dialect.Translation
/-!
# One end of a text in place of another

`Run.transfer` says when a run that comes, outside of strings, to the end `t₁` of a text is the same
run over the text with the end `t₂`. No key may be searched for in either end (`Unsearched`), behind
a comma with nothing but blanks both or neither have to close, and no call may begin in front of
`t₂`, where the run passes, and go on in it.

A call that would go on in another end has opened a string in front of it, unless its parenthesis
comes first (`Call.cut`). But no run comes out of that string at its end (`not_run_into_call`). So
an end that begins neither with a quote nor with what stands in calls is safe (`callBefore_of_run`).
-/

namespace ShellQuery.Dialect

open Text Decimal Json

/-- The characters of calls outside of quotes, up to the closing parenthesis. -/
def isCallChar (c : Char) : Bool :=
  isKeyChar c || isBlank c || c == '(' || c == '+' || c == '-'

section
variable {m m' m'' : Mode} {c q : Char} {s t t₁ t₂ u r p : List Char} {l : Literal}
  {S T S₁ : List Step}

/-! ## Calls that are not finished -/

/-- The characters of keys may stand in a call. -/
theorem isCallChar_of_isKeyChar (h : isKeyChar c = true) : isCallChar c = true := by
  simp [isCallChar, h]

/-- Blanks may stand in a call. -/
theorem isCallChar_of_isBlank (h : isBlank c = true) : isCallChar c = true := by
  simp [isCallChar, h]

/-- Digits may stand in a call. -/
theorem isCallChar_of_isDigit (h : c.isDigit = true) : isCallChar c = true := by
  simp [isCallChar, isKeyChar, Char.isAlphanum, h]

/-- No quote may stand in a call. -/
theorem isCallChar_of_isQuote (h : isQuote q = true) : isCallChar q = false := by
  rcases isQuote_iff.1 h with rfl | rfl <;> rfl

/-- No character that may stand in a call is a mark. -/
theorem isMark_of_isCallChar (h : isCallChar c = true) : isMark c = false := by
  cases hc : isMark c with
  | false => rfl
  | true =>
    simp only [isMark, Bool.or_eq_true, beq_iff_eq] at hc
    rcases hc with (((((rfl | rfl) | rfl) | rfl) | rfl) | rfl) | rfl <;> cases h

/-- A numeral holds only characters that may stand in a call. -/
theorem isCallChar_of_numeralText {n : Numeral} (h : NumeralText s n) :
    ∀ c ∈ s, isCallChar c = true := by
  cases h with
  | minus _ hds | plus _ hds =>
    exact List.forall_mem_cons.2 ⟨rfl, fun c hc => isCallChar_of_isDigit (hds c hc)⟩
  | bare _ hds => exact fun c hc => isCallChar_of_isDigit (hds c hc)

/-- A numeral is plain. -/
theorem isPlain_of_numeralText {n : Numeral} (h : NumeralText s n) : ∀ c ∈ s, isPlain c = true := by
  have hdigit : ∀ {c : Char}, c.isDigit = true → isPlain c = true := fun hc =>
    isPlain_of_isKeyChar (by simp [isKeyChar, Char.isAlphanum, hc])
  cases h with
  | minus _ hds | plus _ hds => exact List.forall_mem_cons.2 ⟨rfl, fun c hc => hdigit (hds c hc)⟩
  | bare _ hds => exact fun c hc => hdigit (hds c hc)

/-- An argument stands in quotes, of either kind, or is a number. -/
theorem Argument.bare_or_quoted {form : Form} (h : Argument form s l) :
    (∀ c ∈ s, isCallChar c = true) ∨ ∃ q t, s = q :: (t ++ [q]) ∧ isQuote q = true ∧
      (∀ c ∈ t, isPlain c = true) ∧
      ∀ q', isQuote q' = true → Argument form (q' :: (t ++ [q'])) l := by
  have hinteger : ∀ {u n}, IntegerText u n → (∀ c ∈ u, isCallChar c = true) ∨
      ∃ q t, u = q :: (t ++ [q]) ∧ isQuote q = true ∧ (∀ c ∈ t, isPlain c = true) ∧
        ∀ q', isQuote q' = true → IntegerText (q' :: (t ++ [q'])) n := by
    rintro u n (hn | ⟨hq, hn⟩)
    · exact .inl (isCallChar_of_numeralText hn)
    · exact .inr ⟨_, _, rfl, hq, isPlain_of_numeralText hn, fun _ hq' => .quoted hq' hn⟩
  cases h with
  | identifier hq ht => exact .inr ⟨_, _, rfl, hq, ht, fun _ hq' => .identifier hq' ht⟩
  | instant hq ht => exact .inr ⟨_, _, rfl, hq, ht, fun _ hq' => .instant hq' ht⟩
  | int64 h =>
    refine (hinteger h).imp_right ?_
    rintro ⟨q, t, hs, hq, ht, hrequote⟩
    exact ⟨q, t, hs, hq, ht, fun q' hq' => .int64 (hrequote q' hq')⟩
  | int32 h hfits =>
    refine (hinteger h).imp_right ?_
    rintro ⟨q, t, hs, hq, ht, hrequote⟩
    exact ⟨q, t, hs, hq, ht, fun q' hq' => .int32 (hrequote q' hq') hfits⟩

/-- The parts of a call that has its argument in quotes: a text up to these, the quotes with plain
characters between them, and blanks up to the parenthesis. Quotes of the other kind would do. -/
structure QuotedCall (u : List Char) (l : Literal) (p : List Char) (q : Char) (t b : List Char) :
    Prop where
  eq : u = p ++ q :: (t ++ q :: (b ++ [')']))
  quote : isQuote q = true
  plain : ∀ c ∈ t, isPlain c = true
  blanks : Blanks b
  requote : ∀ q', isQuote q' = true → Call (p ++ q' :: (t ++ q' :: (b ++ [')']))) l

/-- A call outside of its quotes. -/
theorem Call.bare_or_quoted (h : Call u l) : ∃ p, (∀ c ∈ p, isCallChar c = true) ∧
    (u = p ++ [')'] ∨ ∃ q t b, QuotedCall u l p q t b) := by
  have hnamed : ∀ {u l}, NamedCall Argument u l → ∃ p, (∀ c ∈ p, isCallChar c = true) ∧
      (u = p ++ [')'] ∨ ∃ q t b, u = p ++ q :: (t ++ q :: (b ++ [')'])) ∧ isQuote q = true ∧
        (∀ c ∈ t, isPlain c = true) ∧ Blanks b ∧
        ∀ q', isQuote q' = true → NamedCall Argument (p ++ q' :: (t ++ q' :: (b ++ [')']))) l) := by
    rintro _ l ⟨hname, ha, harg, hb⟩
    rename_i name form a arg b
    have hfront : ∀ c ∈ name.toList ++ '(' :: a, isCallChar c = true := by
      rw [List.forall_mem_append, List.forall_mem_cons]
      exact ⟨fun c hc => isCallChar_of_isKeyChar (isKeyChar_of_mem_constructors _ hname c hc), rfl,
        fun c hc => isCallChar_of_isBlank (ha c hc)⟩
    rcases harg.bare_or_quoted with hbare | ⟨q, t, rfl, hq, ht, hrequote⟩
    · refine ⟨name.toList ++ '(' :: a ++ (arg ++ b), ?_, .inl (by simp)⟩
      rw [List.forall_mem_append]
      exact ⟨hfront, List.forall_mem_append.2
        ⟨hbare, fun c hc => isCallChar_of_isBlank (hb c hc)⟩⟩
    · refine ⟨name.toList ++ '(' :: a, hfront, .inr ⟨q, t, b, by simp, hq, ht, hb, ?_⟩⟩
      intro q' hq'
      have hcall : NamedCall Argument _ l := .mk hname ha (hrequote q' hq') hb
      simpa using hcall
  cases h with
  | plain h =>
    obtain ⟨p, hp, hu⟩ := hnamed h
    refine ⟨p, hp, hu.imp_right ?_⟩
    rintro ⟨q, t, b, rfl, hq, ht, hb, hrequote⟩
    exact ⟨q, t, b, rfl, hq, ht, hb, fun q' hq' => .plain (hrequote q' hq')⟩
  | @new a u _ ha hne h =>
    obtain ⟨p, hp, hu⟩ := hnamed h
    refine ⟨'n' :: 'e' :: 'w' :: (a ++ p), ?_, ?_⟩
    · simp only [List.forall_mem_cons, List.forall_mem_append]
      exact ⟨rfl, rfl, rfl, fun c hc => isCallChar_of_isBlank (ha c hc), hp⟩
    · rcases hu with rfl | ⟨q, t, b, rfl, hq, ht, hb, hrequote⟩
      · exact .inl (by simp)
      · refine .inr ⟨q, t, b, by simp, hq, ht, hb, fun q' hq' => ?_⟩
        have hcall : Call _ l := .new ha hne (hrequote q' hq')
        simpa using hcall

/-- A call ends with its parenthesis. -/
theorem Call.exists_concat (h : Call u l) : ∃ c v, u = c :: (v ++ [')']) := by
  have hend : ∃ v, u = v ++ [')'] := by
    obtain ⟨q, -, rfl | ⟨q', t, b, rfl, -⟩⟩ := h.bare_or_quoted
    · exact ⟨q, rfl⟩
    · exact ⟨q ++ q' :: (t ++ q' :: b), by simp⟩
  obtain ⟨v, rfl⟩ := hend
  obtain ⟨c, x, hx, hc⟩ := h.eq_cons
  cases v with
  | nil =>
    obtain ⟨rfl, -⟩ := List.cons.inj hx
    cases hc
  | cons d v => exact ⟨d, v, rfl⟩

/-- No call has come to its end while its string is open. -/
theorem constructor?_eq_none_of_open (hp : ∀ c ∈ p, isCallChar c = true) (hq : isQuote q = true)
    (ht : ∀ c ∈ t, isPlain c = true) : constructor? (p ++ q :: t) = none := by
  refine Option.eq_none_iff_forall_ne_some.2 ?_
  rintro ⟨l, r⟩ hfound
  obtain ⟨u, hu, hcall⟩ := constructor?_eq_some_iff.1 hfound
  obtain ⟨p', hp', hshape⟩ := hcall.bare_or_quoted
  -- Behind their first parts the two texts go on with a quote, and with what ends the call.
  have hcut := congrArg (List.dropWhile isCallChar) hu
  have hstop : ∀ {d x}, isCallChar d = false → Stops isCallChar (d :: x) := fun h => stops_cons.2 h
  rw [dropWhile_append_stops hp (hstop (isCallChar_of_isQuote hq))] at hcut
  rcases hshape with rfl | ⟨q', t', b, rfl, hq', -, -⟩
  · rw [List.append_assoc, List.singleton_append, dropWhile_append_stops hp' (hstop rfl),
      List.cons.injEq] at hcut
    rw [hcut.1] at hq
    cases hq
  · rw [List.append_assoc, List.cons_append,
      dropWhile_append_stops hp' (hstop (isCallChar_of_isQuote hq')), List.cons.injEq] at hcut
    obtain ⟨rfl, rfl⟩ := hcut
    have hmem := ht q (by simp)
    rw [isPlain_of_isQuote hq] at hmem
    cases hmem

/-- A character that could not stand in a call outside of its string opens the string, or the string
is open in front of it. -/
theorem Call.cut (h : Call (s ++ c :: r) l) (hc : isCallChar c = false) (hne : c ≠ ')') :
    (isQuote c = true ∧ ∃ t b, (∀ d ∈ t, isPlain d = true) ∧ r = t ++ c :: (b ++ [')']) ∧
      ∀ q, isQuote q = true → Call (s ++ q :: (t ++ q :: (b ++ [')']))) l) ∨
    ∃ p q t, s = p ++ q :: t ∧ (∀ d ∈ p, isCallChar d = true) ∧ isQuote q = true ∧
      ∀ d ∈ t, isPlain d = true := by
  obtain ⟨p, hp, hshape⟩ := h.bare_or_quoted
  have hnot : ∀ {x : List Char}, c ∈ x → ¬∀ d ∈ x, isCallChar d = true := by
    intro x hmem hall
    rw [hall c hmem] at hc
    cases hc
  have hfront : ∀ {x}, p ≠ s ++ c :: x := by
    rintro x rfl
    exact hnot (by simp) hp
  rcases hshape with hu | ⟨q, t, b, hu, hq, ht, hb, hrequote⟩
  · rcases cut_append hu.symm with ⟨x, hx, -⟩ | ⟨z, -, hz⟩
    · exact absurd hx hfront
    · have hmem : c ∈ [')'] := hz ▸ by simp
      exact absurd (List.mem_singleton.1 hmem) hne
  rcases cut_append hu.symm with ⟨x, hx, -⟩ | ⟨z, rfl, hz⟩
  · exact absurd hx hfront
  cases z with
  | nil =>
    obtain ⟨rfl, rfl⟩ := List.cons.inj hz
    exact .inl ⟨hq, t, b, ht, rfl, by rwa [List.append_nil]⟩
  | cons d z =>
    obtain ⟨rfl, htail⟩ := List.cons.inj hz
    right
    rcases cut_append htail with ⟨x, rfl, -⟩ | ⟨w, rfl, hw⟩
    · exact ⟨p, q, z, rfl, hp, hq, fun d hd => ht d (List.mem_append_left _ hd)⟩
    · cases w with
      | nil => exact ⟨p, q, t, by rw [List.append_nil], hp, hq, ht⟩
      | cons e w =>
        -- Behind the quotes only blanks and the parenthesis stand.
        obtain ⟨-, hend⟩ := List.cons.inj hw
        have hmem : c ∈ b ++ [')'] := hend ▸ by simp
        rcases List.mem_append.1 hmem with hmem | hmem
        · exact absurd (fun d hd => isCallChar_of_isBlank (hb d hd)) (hnot hmem)
        · exact absurd (List.mem_singleton.1 hmem) hne

/-- Plain characters need no backslash inside of quotes. -/
theorem flatMap_quotedChar_of_isPlain (hq : isQuote q = true) (ht : ∀ c ∈ t, isPlain c = true) :
    t.flatMap (quotedChar q) = t := by
  have hchar : ∀ c ∈ t, quotedChar q c = [c] := by
    intro c hc
    have hplain := ht c hc
    refine if_neg ?_
    rintro (rfl | rfl)
    · cases hplain
    · rw [isPlain_of_isQuote hq] at hplain
      cases hplain
  rw [List.flatMap_congr hchar, List.flatMap_singleton']

/-! ## Runs up to the string of a call -/

/-- The mode at a place of a text is the same in every run. -/
theorem Run.mode_eq (h : Run m s S m' r) (h' : Run m s T m'' r) : m' = m'' := by
  induction h generalizing T with
  | @done m =>
    cases h' with
    | done => rfl
    | @step _ _ c s _ _ h' =>
      have hle := h'.length_le
      have hstep := step_rest_length_le m c s
      rw [List.length_cons] at hle
      omega
  | @step m _ c s r _ h ih =>
    have hle := h.length_le
    have hstep := step_rest_length_le m c s
    obtain ⟨T, -, hT⟩ := h'.exists_step (by omega)
    exact ih hT

/-- No run that comes out of strings behind plain characters has gone into a call's string there. -/
theorem not_run_into_call (hp : ∀ c ∈ p, isCallChar c = true) (hq : isQuote q = true)
    (ht : ∀ c ∈ t, isPlain c = true) : ¬Run .outside (p ++ q :: (t ++ r)) S .outside r := by
  intro h
  induction p generalizing S with
  | nil =>
    have hquoted := Passes.quotedChars (t := t) (r := r) hq
    rw [flatMap_quotedChar_of_isPlain hq ht] at hquoted
    obtain ⟨T, hT, -⟩ := (Passes.quote hq).append hquoted
    have hmode : Mode.outside = quotedMode q := h.mode_eq hT
    rcases isQuote_iff.1 hq with rfl | rfl <;> cases hmode
  | cons c p ih =>
    have hassoc : p ++ q :: (t ++ r) = p ++ q :: t ++ r := by simp
    rw [List.cons_append] at h
    obtain ⟨T, -, hT⟩ := h.exists_step (by simp; omega)
    have hopen := constructor?_eq_none_of_open hp hq ht
    have hnone : constructor? (c :: (p ++ q :: (t ++ r))) = none := by
      refine Option.eq_none_iff_forall_ne_some.2 ?_
      rintro ⟨l, x⟩ hfound
      rw [hassoc] at hT hfound
      obtain ⟨v, w, hv, -, hcall⟩ :=
        constructor?_reaches (s := c :: (p ++ q :: t)) hfound
          (callBefore_of_step hT.length_le rfl l x hfound)
      rw [List.cons_append, hv, constructor?_append hcall] at hopen
      cases hopen
    rw [List.forall_mem_cons] at hp
    have hcopy : step .outside c (p ++ q :: (t ++ r)) = _ :=
      outsideStep_copy (isMark_of_isCallChar hp.1) hnone
    rw [hcopy] at hT
    exact ih hp.2 hT

/-- Where a run comes to its end outside of strings, no call goes on in what stands in no call. -/
theorem callBefore_of_run (hc : isCallChar c = false) (hne : c ≠ ')') (hquote : isQuote c = false)
    (hrun : Run .outside (s ++ t) S .outside t) (r : List Char) : CallBefore s (c :: r) := by
  intro l x hfound
  obtain ⟨u, hu, hcall⟩ := constructor?_eq_some_iff.1 hfound
  rcases List.append_eq_append_iff.1 hu with ⟨y, rfl, hy⟩ | ⟨y, -, rfl⟩
  · cases y with
    | nil => exact (congrArg List.length hy).le
    | cons d y =>
      obtain ⟨rfl, -⟩ := List.cons.inj hy
      rcases hcall.cut hc hne with ⟨hopen, -⟩ | ⟨p, q, w, rfl, hp, hq, hw⟩
      · rw [hopen] at hquote
        cases hquote
      rw [List.append_assoc, List.cons_append] at hrun
      exact absurd hrun (not_run_into_call hp hq hw)
  · simp

/-- No call that the run comes through goes beyond a comma. -/
theorem callBefore_comma (r : List Char) (hrun : Run .outside (s ++ t) S .outside t) :
    CallBefore s (',' :: r) :=
  callBefore_of_run rfl (by decide) rfl hrun r

/-! ## Commas at the end -/

/-- Behind every comma of a text something else than blanks stands. -/
def NoFinalComma (s : List Char) : Prop :=
  ∀ a b, s = a ++ ',' :: b → ¬Blanks b

/-- Without a last comma a text has no part at its end with one. -/
theorem NoFinalComma.of_append (h : NoFinalComma (u ++ s)) : NoFinalComma s := by
  rintro a b rfl
  exact h (u ++ a) b (by simp)

/-- A text whose last visible character is no comma has no part at its end with one. -/
theorem noFinalComma_of_trimEnd (h : (trimEnd s).getLast? ≠ some ',') : NoFinalComma s := by
  rintro a b rfl hb
  have htrim : trimEnd (a ++ ',' :: b) = a ++ [','] := by
    have hdrop : (b.reverse ++ ',' :: a.reverse).dropWhile isBlank = ',' :: a.reverse :=
      dropWhile_append_stops (fun c hc => hb c (List.mem_reverse.1 hc)) (stops_cons.2 rfl)
    rw [trimEnd, dropWhileEnd, List.reverse_append, List.reverse_cons, List.append_assoc,
      List.singleton_append, hdrop, List.reverse_cons, List.reverse_reverse]
  rw [htrim] at h
  simp at h

/-! ## The same run -/

/-- What decides about a comma behind which only blanks stand. -/
theorem atClose_trimStart_append (hclose : NoFinalComma (',' :: p) ∨ atClose t₁ = atClose t₂) :
    atClose (trimStart p ++ t₁) = atClose (trimStart p ++ t₂) := by
  rcases hclose with hcomma | hclose
  · have hblanks := hcomma [] p rfl
    rw [atClose_append_of_not_blanks hblanks, atClose_append_of_not_blanks hblanks]
  · cases trimStart p with
    | nil => exact hclose
    | cons => rfl

/-- **A run does not depend on the end that it comes to.** The steps over a text with the end `t₁`
look the same as those over the text with the end `t₂`. -/
theorem Run.transfer (h₁ : Unsearched t₁) (h₂ : Unsearched t₂)
    (hclose : NoFinalComma p ∨ atClose t₁ = atClose t₂)
    (hcall : ∀ {q c s S S'}, p = q ++ c :: s → Run m (p ++ t₁) S .outside (c :: s ++ t₁) →
      Run .outside (c :: s ++ t₁) S' .outside t₁ → CallBefore (c :: s) t₂)
    (hrun : Run m (p ++ t₁) S₁ .outside t₁) :
    ∃ S₂, Run m (p ++ t₂) S₂ .outside t₂ ∧ List.Forall₂ Step.Alike S₁ S₂ := by
  induction hn : p.length using Nat.strong_induction_on generalizing m p S₁ with
  | _ n ih =>
    cases p with
    | nil =>
      obtain rfl := hrun.eq_nil (Nat.le_refl _)
      cases hrun
      exact ⟨[], .done, .nil⟩
    | cons c p =>
      rw [List.cons_append] at hrun
      have hbefore : m = .outside → CallBefore (c :: p) t₂ := by
        rintro rfl
        exact hcall (q := []) rfl .done hrun
      obtain ⟨T₁, rfl, hT₁⟩ := hrun.exists_step (by simp)
      obtain ⟨w, n', m', u, hstep₁, hstep₂⟩ := step_alike h₁ h₂
        (fun _ hc => atClose_trimStart_append (hc ▸ hclose)) (callBefore_of_step hT₁.length_le)
        hbefore hT₁.ne_nil_of_escape
      obtain ⟨v, hv⟩ := exists_step_rest m c (p ++ t₁)
      rw [hstep₁] at hT₁ hv
      rw [← List.append_assoc, List.append_left_inj] at hv
      have hmore : NoFinalComma u ∨ atClose t₁ = atClose t₂ := by
        refine hclose.imp_left fun hcomma => NoFinalComma.of_append (u := c :: v) ?_
        rwa [List.cons_append, ← hv]
      have hu : u.length < n := by
        rw [← hn, hv, List.length_cons, List.length_append]
        omega
      have hcall' : ∀ {q d s S S'}, u = q ++ d :: s →
          Run m' (u ++ t₁) S .outside (d :: s ++ t₁) →
          Run .outside (d :: s ++ t₁) S' .outside t₁ → CallBefore (d :: s) t₂ := by
        rintro q d s S S' rfl hbefore hbehind
        have hfirst : Run m (c :: (p ++ t₁)) (_ :: S) .outside (d :: s ++ t₁) :=
          .step (by rw [hstep₁]; exact hbefore)
        exact hcall (q := c :: (v ++ q)) (by rw [hv]; simp) hfirst hbehind
      obtain ⟨T₂, hT₂, halike⟩ := ih _ hu hmore hcall' hT₁ rfl
      have hrun₂ : Run m (c :: (p ++ t₂)) _ .outside t₂ := .step (by rw [hstep₂]; exact hT₂)
      refine ⟨_, hrun₂, .cons ?_ halike⟩
      rw [hstep₁, hstep₂]
      exact ⟨rfl, rfl, rfl⟩

/-- **One part of a text in place of another.** What the pass writes for the text around does not
change, and neither does the balance. -/
theorem Reaches.replace {out₁ out₂ : List Char} (u₁ u₂ : List Char) (hreach : Reaches p (u₁ ++ r))
    (h₁ : Unsearched (u₁ ++ r)) (h₂ : Unsearched (u₂ ++ r))
    (hclose : NoFinalComma p ∨ atClose (u₁ ++ r) = atClose (u₂ ++ r))
    (hcall : ∀ {q c s S S'}, p = q ++ c :: s →
      Run .outside (p ++ (u₁ ++ r)) S .outside (c :: s ++ (u₁ ++ r)) →
      Run .outside (c :: s ++ (u₁ ++ r)) S' .outside (u₁ ++ r) → CallBefore (c :: s) (u₂ ++ r))
    (hpass₁ : Passes .outside u₁ out₁ .outside r) (hpass₂ : Passes .outside u₂ out₂ .outside r) :
    ∃ A, normalize (p ++ (u₁ ++ r)) = A ++ (out₁ ++ normalize r) ∧
      normalize (p ++ (u₂ ++ r)) = A ++ (out₂ ++ normalize r) ∧
      isBalanced (p ++ (u₁ ++ r)) = isBalanced (p ++ (u₂ ++ r)) := by
  obtain ⟨S₁, hS₁⟩ := hreach
  obtain ⟨S₂, hS₂, halike⟩ := hS₁.transfer h₁ h₂ hclose hcall
  obtain ⟨T₁, hT₁, hwritten₁, hlevel₁⟩ := hpass₁
  obtain ⟨T₂, hT₂, hwritten₂, hlevel₂⟩ := hpass₂
  have hmore : ∀ depth, endsBalanced .outside depth (T₁ ++ steps .outside r) =
      endsBalanced .outside depth (T₂ ++ steps .outside r) := by
    intro depth
    rw [hlevel₁, hlevel₂]
  refine ⟨S₁.flatMap Step.written, ?_, ?_, ?_⟩
  · rw [(hS₁.trans hT₁).normalize_eq, List.flatMap_append, hwritten₁, List.append_assoc]
  · rw [(hS₂.trans hT₂).normalize_eq, List.flatMap_append, hwritten₂, List.append_assoc,
      written_alike halike]
  · rw [isBalanced, isBalanced, (hS₁.trans hT₁).steps_eq, (hS₂.trans hT₂).steps_eq,
      List.append_assoc, List.append_assoc]
    exact hS₁.endsBalanced_alike halike hmore 0

end

end ShellQuery.Dialect
