import ShellQuery.Proofs.Dialect.Neighbours
/-!
# What may be put into a text

A comma in front of a closing bracket or the end of a text is superfluous: `normalize_trailingComma`
says that one more changes neither what the pass writes nor the balance, wherever the pass comes to
such a place outside of strings, unless a comma stands there already. The text may be malformed.

Blanks at the end of a text do not change the balance (`isBalanced_append_blanks`). They are copied
(`normalize_append_blanks`), but behind a comma at the end they are skipped with it
(`normalize_comma_blanks`).
-/

namespace ShellQuery.Dialect

open Text

section
variable {m m' : Mode} {c : Char} {s t b p r u : List Char} {S : List Step} {depth : Nat}

/-! ## Superfluous commas -/

/-- **A trailing comma changes nothing.** Let the pass come, outside of strings, to a closing
bracket or the end of a text. With a comma and any blanks put there it writes what it writes without
them, and the text is balanced if it is without them, unless the last visible character in front is
a comma. -/
theorem normalize_trailingComma (hreach : Reaches p r) (hr : atClose r = true)
    (hlast : (trimEnd p).getLast? ≠ some ',') (hb : Blanks b) :
    normalize (p ++ ',' :: (b ++ r)) = normalize (p ++ r) ∧
      isBalanced (p ++ ',' :: (b ++ r)) = isBalanced (p ++ r) := by
  have hend : Unsearched r := unsearched_of_stops ((ends_of_atClose hr).stops ⟨rfl, rfl, rfl⟩)
  have hcomma : Unsearched (',' :: (b ++ r)) := unsearched_of_stops (stops_cons.2 rfl)
  obtain ⟨A, hwithout, hwith, hbalanced⟩ := hreach.replace [] (',' :: b) hend hcomma
    (.inl (noFinalComma_of_trimEnd hlast)) (fun _ _ h => callBefore_comma (b ++ r) h) .nil
    (.droppedComma hb hr)
  exact ⟨hwith.trans hwithout.symm, hbalanced.symm⟩

/-- Behind an item, in a list that nothing opens. -/
theorem normalize_trailingComma_item :
    Reaches ['n', 'u', 'l', 'l', ' '] [']', '\''] ∧ atClose [']', '\''] = true ∧
      (trimEnd ['n', 'u', 'l', 'l', ' ']).getLast? ≠ some ',' ∧ Blanks ['\u00a0'] ∧
      normalize (['n', 'u', 'l', 'l', ' '] ++ ',' :: (['\u00a0'] ++ [']', '\''])) =
        normalize (['n', 'u', 'l', 'l', ' '] ++ [']', '\'']) ∧
      isBalanced (['n', 'u', 'l', 'l', ' '] ++ ',' :: (['\u00a0'] ++ [']', '\''])) =
        isBalanced (['n', 'u', 'l', 'l', ' '] ++ [']', '\'']) := by
  have hreach : Reaches ['n', 'u', 'l', 'l', ' '] [']', '\''] :=
    ⟨_, .step (.step (.step (.step (.step .done))))⟩
  have hlast : (trimEnd ['n', 'u', 'l', 'l', ' ']).getLast? ≠ some ',' := by decide
  have hblank : Blanks ['\u00a0'] := by simp [isBlank]
  exact ⟨hreach, rfl, hlast, hblank, normalize_trailingComma hreach rfl hlast hblank⟩

/-! ## Steps in front of blanks at the end -/

/-- Nothing is left of blanks. -/
theorem trimStart_of_blanks (hs : Blanks s) : trimStart s = [] :=
  List.dropWhile_eq_nil_iff.2 hs

/-- No key is found in blanks. -/
theorem quoteKey_of_blanks (hs : Blanks s) : quoteKey s = ([], []) := by
  simp [quoteKey, trimStart_of_blanks hs, bareKey?]

/-- Blanks behind a text without a call do not make one. -/
theorem constructor?_append_blanks (hb : Blanks b) (h : constructor? s = none) :
    constructor? (s ++ b) = none := by
  refine Option.eq_none_iff_forall_ne_some.2 ?_
  rintro ⟨l, x⟩ hfound
  obtain ⟨u, hu, hcall⟩ := constructor?_eq_some_iff.1 hfound
  rcases List.append_eq_append_iff.1 hu with ⟨y, rfl, rfl⟩ | ⟨y, rfl, -⟩
  · -- The call's parenthesis is no blank, so it stands in front of them.
    obtain ⟨c, v, hv⟩ := hcall.exists_concat
    obtain rfl : y = [] := eq_nil_of_append_eq_concat (u := c :: v) hv rfl
      fun d hd => hb d (List.mem_append_left _ hd)
    rw [List.append_nil] at hcall
    have hfront := constructor?_append hcall []
    rw [List.append_nil, h] at hfront
    cases hfront
  · rw [constructor?_append hcall] at h
    cases h

/-- In front of blanks at the end a step is what it is at the end, behind a brace, a comma or a
backslash there apart. -/
theorem step_before_blanks (hb : Blanks b)
    (hlead : m = .outside → c = '{' ∨ c = ',' → ¬Blanks s)
    (hescape : m ≠ .outside → c = '\\' → s ≠ []) :
    step m c (s ++ b) = (step m c s).before b := by
  have hkey : b.dropWhile isKeyChar = b := by
    cases b with
    | nil => rfl
    | cons d b => exact dropWhile_of_stops (stops_cons.2 (isKeyChar_of_isBlank (hb d (by simp))))
  have hcolon : Stops (· == ':') (trimStart b) := by
    rw [trimStart_of_blanks hb]
    exact stops_nil
  refine step_before_of_sight (fun hm hc => ?_) (fun _ => constructor?_append_blanks hb)
    (fun hm hc => hlead hm (.inr hc)) hescape
  have htrim := trimStart_append_of_not_blanks (hlead hm hc) b
  exact ⟨htrim, quoteKey_append_of_trimStart htrim (by rwa [hkey]) hcolon⟩

/-- Behind a brace or a comma at the end blanks are skipped. -/
theorem outsideStep_append_blanks (hc : c = '{' ∨ c = ',') (hs : Blanks s) (hb : Blanks b) :
    outsideStep c (s ++ b) = outsideStep c s ∧ (outsideStep c s).rest = [] := by
  have hmore : Blanks (s ++ b) := List.forall_mem_append.2 ⟨hs, hb⟩
  rcases hc with rfl | rfl
  · simp [outsideStep, quoteKey_of_blanks hs, quoteKey_of_blanks hmore]
  · simp [outsideStep, trimStart_of_blanks hs, trimStart_of_blanks hmore, atClose]

/-! ## Runs over blanks at the end -/

/-- A blank changes neither the mode nor the depth. -/
theorem step_blank (hc : isBlank c = true) (m : Mode) (s : List Char) :
    ∃ w, step m c s = ⟨w, .keeps, m, s⟩ := by
  have hcopied := isCopied_of_isBlank hc
  by_cases hm : m = .outside
  · subst hm
    simp only [isCopied, Bool.and_eq_true, Bool.not_eq_eq_eq_not, Bool.not_true] at hcopied
    exact ⟨[c], outsideStep_copy hcopied.1 (constructor?_eq_none hcopied.2)⟩
  · have hne : ∀ d, isBlank d = false → c ≠ d := by
      rintro d hd rfl
      rw [hc] at hd
      cases hd
    have hcontent : StringStep m c s _ :=
      .content (hne '\\' rfl) (hne '"' rfl) fun _ => hne '\'' rfl
    exact ⟨_, hcontent.eq hm⟩

/-- Blanks have no effect on whether a run is balanced. -/
theorem endsBalanced_blanks (hb : Blanks b) :
    endsBalanced m depth (steps m b) = endsBalanced m depth [] := by
  induction b with
  | nil => rw [steps_nil]
  | cons c b ih =>
    rw [blanks_cons] at hb
    obtain ⟨w, hstep⟩ := step_blank hb.1 m b
    rw [steps_cons, hstep]
    exact ih hb.2

/-- A text that ends in a string, behind a backslash and blanks, is not balanced. -/
theorem endsBalanced_escape_blanks (hm : m ≠ .outside) (hb : Blanks b) :
    endsBalanced m depth
      (step m '\\' b :: steps (step m '\\' b).mode (step m '\\' b).rest) = false := by
  have hopen : ∀ {w b}, Blanks b →
      endsBalanced m depth (⟨w, .keeps, m, b⟩ :: steps m b) = false := by
    intro w b hb
    show endsBalanced m depth (steps m b) = false
    rw [endsBalanced_blanks hb]
    simp [endsBalanced, hm]
  cases b with
  | nil =>
    have hcut : step m '\\' [] = _ := StringStep.eq hm .cut
    rw [hcut]
    exact hopen blanks_nil
  | cons e b =>
    rw [blanks_cons] at hb
    have hescaped : StringStep m '\\' (e :: b) _ := .escaped <| by
      rintro - rfl
      cases hb.1
    rw [hescaped.eq hm]
    exact hopen hb.2

/-- First steps of the same nesting, with rests that agree, leave the balance the same. -/
theorem endsBalanced_cons_congr {x y : Step} {T : List Step} (hnesting : x.nesting = y.nesting)
    (h : ∀ d, endsBalanced x.mode d S = endsBalanced y.mode d T) :
    endsBalanced m depth (x :: S) = endsBalanced m' depth (y :: T) := by
  simp only [endsBalanced, hnesting]
  cases y.nesting with
  | opens => exact h _
  | closes =>
    cases depth with
    | zero => rfl
    | succ depth => exact h _
  | keeps => exact h _

/-- Blanks at the end do not change how a text ends, and if it ends balanced and with no comma they
are copied. -/
theorem steps_append_blanks (hb : Blanks b) (m : Mode) (depth : Nat) (s : List Char) :
    endsBalanced m depth (steps m (s ++ b)) = endsBalanced m depth (steps m s) ∧
      (endsBalanced m depth (steps m s) = true → NoFinalComma s →
        (steps m (s ++ b)).flatMap Step.written = (steps m s).flatMap Step.written ++ b) := by
  induction hn : s.length using Nat.strong_induction_on generalizing m depth s with
  | _ n ih =>
    cases s with
    | nil =>
      rw [List.nil_append, steps_nil]
      refine ⟨endsBalanced_blanks hb, fun h _ => ?_⟩
      obtain ⟨rfl, -⟩ := endsBalanced_nil h
      exact (Passes.blanks hb).normalize.1
    | cons c s =>
      rw [List.cons_append, steps_cons, steps_cons m c s]
      by_cases hlead : m = .outside ∧ (c = '{' ∨ c = ',') ∧ Blanks s
      · -- The step reads the blanks, too.
        obtain ⟨rfl, hc, hs⟩ := hlead
        obtain ⟨hsame, hrest⟩ := outsideStep_append_blanks hc hs hb
        have hstep : step .outside c (s ++ b) = step .outside c s := hsame
        rw [hstep]
        refine ⟨rfl, fun hbalanced hcomma => ?_⟩
        rcases hc with rfl | rfl
        · have hend : (step .outside '{' s).rest = [] := hrest
          rw [hend, steps_nil] at hbalanced
          simp [step, outsideStep, endsBalanced] at hbalanced
        · exact absurd hs (hcomma [] s rfl)
      by_cases hescape : m ≠ .outside ∧ c = '\\' ∧ s = []
      · -- The backslash takes a blank, and the pass stays in the string.
        obtain ⟨hm, rfl, rfl⟩ := hescape
        rw [List.nil_append, endsBalanced_escape_blanks hm hb,
          endsBalanced_escape_blanks hm blanks_nil]
        exact ⟨rfl, fun h => absurd h Bool.false_ne_true⟩
      · have hstep : step m c (s ++ b) = (step m c s).before b := by
          refine step_before_blanks hb (fun hm hc hs => hlead ⟨hm, hc, hs⟩) fun hm hc hs => ?_
          exact hescape ⟨hm, hc, hs⟩
        have hlt : (step m c s).rest.length < n := by
          have hle := step_rest_length_le m c s
          rw [← hn, List.length_cons]
          omega
        have hmore := fun d => ih _ hlt (step m c s).mode d (step m c s).rest rfl
        rw [hstep]
        refine ⟨endsBalanced_cons_congr rfl fun d => (hmore d).1, fun hbalanced hcomma => ?_⟩
        obtain ⟨d, hd⟩ := endsBalanced_tail hbalanced
        obtain ⟨w, hw⟩ := exists_step_rest m c s
        have hcomma' : NoFinalComma (step m c s).rest := by
          refine NoFinalComma.of_append (u := c :: w) ?_
          rwa [List.cons_append, ← hw]
        rw [List.flatMap_cons, List.flatMap_cons, List.append_assoc]
        exact congrArg _ ((hmore d).2 hd hcomma')

/-- Blanks at the end leave the balance of a text. -/
theorem isBalanced_append_blanks (hb : Blanks b) (s : List Char) :
    isBalanced (s ++ b) = isBalanced s :=
  (steps_append_blanks hb .outside 0 s).1

/-- Blanks at the end of a balanced text are copied, if no comma stands in front of them. -/
theorem normalize_append_blanks (hb : Blanks b) (hbalanced : isBalanced s = true)
    (hcomma : NoFinalComma s) : normalize (s ++ b) = normalize s ++ b :=
  (steps_append_blanks hb .outside 0 s).2 hbalanced hcomma

/-! ## Commas at the end -/

/-- Behind its first character a step outside of strings reads nothing but blanks, or the last
character that it reads is no comma. -/
theorem exists_outsideStep_read (c : Char) (s : List Char) :
    ∃ x, s = x ++ (outsideStep c s).rest ∧ (Blanks x ∨ ∃ y d, x = y ++ [d] ∧ d ≠ ',') := by
  have hkey : ∃ x, s = x ++ (quoteKey s).2 ∧ (Blanks x ∨ ∃ y d, x = y ++ [d] ∧ d ≠ ',') := by
    rcases quoteKey_cases s with ⟨a, hs, ha, -⟩ | ⟨u, key, hs, -⟩
    · exact ⟨a, hs, .inl ha⟩
    · refine ⟨u ++ [':'], ?_, .inr ⟨u, ':', rfl, by decide⟩⟩
      rw [List.append_assoc]
      exact hs
  have hstep := outsideStep_cases c s
  generalize outsideStep c s = x at hstep ⊢
  cases hstep with
  | quote | bracket | close | copied => exact ⟨[], rfl, .inl blanks_nil⟩
  | brace | comma => exact hkey
  | dropped =>
    obtain ⟨a, hs, ha, -⟩ := exists_blanks_trimStart s
    exact ⟨a, hs, .inl ha⟩
  | call hu hcall =>
    obtain ⟨d, v, rfl⟩ := hcall.exists_concat
    exact ⟨v ++ [')'], (List.cons.inj hu).2, .inr ⟨v, ')', rfl, by decide⟩⟩

/-- The pass that comes out of strings behind a comma has come to the comma outside of strings. -/
theorem reaches_of_final_comma (hrun : Run .outside (p ++ [',']) S .outside []) :
    Reaches p [','] := by
  rcases hrun.exists_last with ⟨-, -, hnil⟩ | ⟨T, m, c, t, hT, -, hmode, hrest⟩
  · simp at hnil
  obtain ⟨q, hq⟩ := hT.exists_append
  have hlast : m = .outside ∧ t = [] := by
    by_cases hm : m = .outside
    · subst hm
      refine ⟨rfl, ?_⟩
      obtain ⟨x, ht, hx⟩ := exists_outsideStep_read c t
      have hnil : (outsideStep c t).rest = [] := hrest
      rw [hnil, List.append_nil] at ht
      subst ht
      rw [List.append_cons q] at hq
      rcases hx with hblanks | ⟨z, e, rfl, hne⟩
      · exact eq_nil_of_append_eq_concat hq.symm rfl hblanks
      · rw [← List.append_assoc, List.append_singleton_inj] at hq
        exact absurd hq.2.symm hne
    · obtain ⟨hquote, -, hsame⟩ := step_leaves_string hm hmode
      obtain rfl : t = [] := hsame.symm.trans hrest
      obtain ⟨-, rfl⟩ := List.append_singleton_inj.1 hq
      cases hquote
  obtain ⟨rfl, rfl⟩ := hlast
  obtain ⟨-, rfl⟩ := List.append_singleton_inj.1 hq
  exact ⟨T, hT⟩

/-- Behind a comma at the end of a text blanks are skipped. -/
theorem normalize_comma_blanks (hb : Blanks b) (hbalanced : isBalanced (p ++ [',']) = true) :
    normalize (p ++ ',' :: b) = normalize (p ++ [',']) := by
  obtain ⟨m', hrun⟩ := exists_run .outside (p ++ [','])
  obtain rfl : m' = .outside := hrun.mode_of_endsBalanced hbalanced
  have hstop : ∀ b, Unsearched (',' :: b) := fun b => unsearched_of_stops (stops_cons.2 rfl)
  obtain ⟨A, hcomma, hblanks, -⟩ := (reaches_of_final_comma hrun).replace (r := []) [','] (',' :: b)
    (hstop _) (hstop _) (.inr rfl) (fun _ _ h => callBefore_comma _ h)
    (.droppedComma blanks_nil rfl) (.droppedComma hb rfl)
  rw [List.append_nil] at hcomma hblanks
  rw [hblanks, hcomma]

end

end ShellQuery.Dialect
