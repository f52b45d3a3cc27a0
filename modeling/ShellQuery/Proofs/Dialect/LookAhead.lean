import ShellQuery.Proofs.Dialect.Quotation
/-!
# What the pass sees ahead

A step outside of strings may look at any part of the text behind it: over blanks and a bare key to
its colon, over blanks to a closing bracket, over a whole call. The first two of these see nothing
of a text that begins with no blank, and with no word in front of a colon (`Unsearched`). So what is
seen in front of such a text does not depend on it (`bareKey?_append`, `quoteKey_append`).

`OutsideStep` and `StringStep` say all that a step can do, outside of strings and in them, and
when. In each case it leaves an end of the text it looked at (`exists_step_rest`), and it is the
same step with more text behind if what it sees ahead is the same (`step_before_of_sight`). So it is
with a text in which no key is searched for, unless a call goes on there, or a comma or a backslash
stands at the end (`step_before`).
-/

namespace ShellQuery.Dialect

open Text

/-- The characters that the search for a bare key goes over. -/
def isSearched (c : Char) : Bool :=
  isBlank c || isKeyChar c || c == ':'

/-- A text in which no bare key is searched for: it begins with no blank, and no colon stands behind
the word, or the part of one, that it may begin with. -/
structure Unsearched (t : List Char) : Prop where
  visible : Stops isBlank t
  colon : Stops (· == ':') (trimStart (t.dropWhile isKeyChar))

/-- A step with more text behind what it looked at. -/
def Step.before (t : List Char) (x : Step) : Step :=
  { x with rest := x.rest ++ t }

/-- What a step outside of strings can do in front of a text. -/
inductive OutsideStep (s : List Char) : Char → Step → Prop
  | quote {q : Char} : isQuote q = true → OutsideStep s q ⟨['"'], .keeps, quotedMode q, s⟩
  | brace : OutsideStep s '{' ⟨'{' :: (quoteKey s).1, .opens, .outside, (quoteKey s).2⟩
  | bracket : OutsideStep s '[' ⟨['['], .opens, .outside, s⟩
  | close {c : Char} : atClose (c :: s) = true → OutsideStep s c ⟨[c], .closes, .outside, s⟩
  | comma : atClose (trimStart s) = false →
      OutsideStep s ',' ⟨',' :: (quoteKey s).1, .keeps, .outside, (quoteKey s).2⟩
  | dropped : atClose (trimStart s) = true → OutsideStep s ',' ⟨[], .keeps, .outside, trimStart s⟩
  | call {c : Char} {u r : List Char} {l : Literal} : c :: s = u ++ r → Call u l →
      OutsideStep s c ⟨l.spelling, .keeps, .outside, r⟩
  | copied {c : Char} : isMark c = false → constructor? (c :: s) = none →
      OutsideStep s c ⟨[c], .keeps, .outside, s⟩

/-- What a step in a string of a mode can do. The text ends behind a backslash that is `cut`. -/
inductive StringStep (m : Mode) : Char → List Char → Step → Prop
  | close {q : Char} {s : List Char} : isQuote q = true → m = quotedMode q →
      StringStep m q s ⟨['"'], .keeps, .outside, s⟩
  | cut : StringStep m '\\' [] ⟨['\\'], .keeps, m, []⟩
  | escaped {e : Char} {s : List Char} : (m = .singleQuoted → e ≠ '\'') →
      StringStep m '\\' (e :: s) ⟨escapedChar e, .keeps, m, s⟩
  | escapedQuote {s : List Char} : m = .singleQuoted →
      StringStep m '\\' ('\'' :: s) ⟨['\''], .keeps, m, s⟩
  | innerQuote {s : List Char} : m = .singleQuoted →
      StringStep m '"' s ⟨['\\', '"'], .keeps, m, s⟩
  | content {c : Char} {s : List Char} : c ≠ '\\' → c ≠ '"' → (m = .singleQuoted → c ≠ '\'') →
      StringStep m c s ⟨contentChar c, .keeps, m, s⟩

section
variable {m : Mode} {c : Char} {s t r : List Char}

@[simp] theorem Step.before_written (t : List Char) (x : Step) : (x.before t).written = x.written :=
  rfl

@[simp] theorem Step.before_nesting (t : List Char) (x : Step) : (x.before t).nesting = x.nesting :=
  rfl

@[simp] theorem Step.before_mode (t : List Char) (x : Step) : (x.before t).mode = x.mode :=
  rfl

@[simp] theorem Step.before_rest (t : List Char) (x : Step) : (x.before t).rest = x.rest ++ t :=
  rfl

/-- No run of characters goes past a text that stops it. -/
theorem dropWhile_append_of_stops {f : Char → Bool} (hr : Stops f r) (s : List Char) :
    (s ++ r).dropWhile f = s.dropWhile f ++ r := by
  induction s with
  | nil => exact dropWhile_of_stops hr
  | cons c s ih =>
    by_cases hc : f c = true
    · simp [hc, ih]
    · simp [hc]

/-- A run of characters that comes to its end in a text does not depend on what stands behind. -/
theorem dropWhile_takeWhile_append {f : Char → Bool} (hs : ¬∀ c ∈ s, f c = true) (r : List Char) :
    (s ++ r).dropWhile f = s.dropWhile f ++ r ∧ (s ++ r).takeWhile f = s.takeWhile f := by
  induction s with
  | nil => exact absurd nofun hs
  | cons c s ih =>
    by_cases hc : f c = true
    · have hmore : ¬∀ d ∈ s, f d = true := fun h => hs (List.forall_mem_cons.2 ⟨hc, h⟩)
      simpa [hc] using ih hmore
    · simp [hc]

/-- The blanks at the front are the same in front of a text that begins with something visible. -/
theorem trimStart_append_of_stops (h : Stops isBlank t) (s : List Char) :
    trimStart (s ++ t) = trimStart s ++ t :=
  dropWhile_append_of_stops h s

/-- What begins with no character of a search stops each part of it. -/
theorem unsearched_of_stops (h : Stops isSearched t) : Unsearched t := by
  have hblank : Stops isBlank t := h.mono fun _ hc => by simp [isSearched, hc]
  have hkey : Stops isKeyChar t := h.mono fun _ hc => by simp [isSearched, hc]
  refine ⟨hblank, ?_⟩
  rw [dropWhile_of_stops hkey, trimStart, dropWhile_of_stops hblank]
  exact h.mono fun _ hc => by simp [isSearched, beq_iff_eq.1 hc]

/-- No colon comes first in a text in which no key is searched for. -/
theorem Unsearched.not_colon (h : Unsearched t) : Stops (· == ':') (trimStart t) := by
  rw [trimStart, dropWhile_of_stops h.visible]
  intro c hc
  cases hcolon : c == ':' with
  | false => exact hcolon
  | true =>
    -- A colon would be the first thing behind no word at all.
    obtain rfl := beq_iff_eq.1 hcolon
    obtain ⟨u, rfl⟩ : ∃ u, t = ':' :: u := ⟨_, List.eq_cons_of_mem_head? hc⟩
    have hstop : Stops (· == ':') (':' :: u) := h.colon
    cases stops_cons.1 hstop

/-- Blanks in front of a text are trimmed as a whole. -/
theorem trimStart_append_of_blanks (hs : Blanks s) (t : List Char) :
    trimStart (s ++ t) = trimStart t :=
  List.dropWhile_append_of_pos hs

/-- The blanks in front of something visible do not depend on what stands behind. -/
theorem trimStart_append_of_not_blanks (h : ¬Blanks s) (t : List Char) :
    trimStart (s ++ t) = trimStart s ++ t := by
  have hne : (s.dropWhile isBlank).isEmpty = false := by
    rw [List.isEmpty_eq_false_iff, ne_eq, List.dropWhile_eq_nil_iff]
    exact h
  rw [trimStart, List.dropWhile_append, hne]
  rfl

/-- No key is found in front of a text that shows no colon. -/
theorem bareKey?_eq_none (h : Stops (· == ':') (trimStart (s.dropWhile isKeyChar))) :
    bareKey? s = none := by
  unfold bareKey?
  split
  · rfl
  · split
    · split
      · rename_i hcolon
        rw [hcolon] at h
        cases stops_cons.1 h
      · rfl
    · rfl

/-- A bare key does not go on in a text that shows no colon, neither at its front nor behind the
word that it may begin with. -/
theorem bareKey?_append (hword : Stops (· == ':') (trimStart (t.dropWhile isKeyChar)))
    (hcolon : Stops (· == ':') (trimStart t)) (s : List Char) :
    bareKey? (s ++ t) = (bareKey? s).map fun (key, r) => (key, r ++ t) := by
  by_cases hkeys : ∀ d ∈ s, isKeyChar d = true
  · have hend : trimStart (s.dropWhile isKeyChar) = [] := by
      rw [List.dropWhile_eq_nil_iff.2 hkeys]
      rfl
    rw [bareKey?_eq_none (by rwa [List.dropWhile_append_of_pos hkeys]),
      bareKey?_eq_none (by rw [hend]; exact stops_nil)]
    rfl
  cases s with
  | nil => exact absurd nofun hkeys
  | cons c s =>
    by_cases hc : isKeyStart c = true
    · obtain ⟨hdrop, htake⟩ := dropWhile_takeWhile_append hkeys t
      simp only [bareKey?, List.cons_append, hc, if_true]
      rw [← List.cons_append, hdrop, htake]
      obtain ⟨a, hy, ha, -⟩ := exists_blanks_trimStart ((c :: s).dropWhile isKeyChar)
      generalize (c :: s).dropWhile isKeyChar = y at hy ⊢
      cases htrim : trimStart y with
      | nil =>
        rw [htrim, List.append_nil] at hy
        rw [hy, trimStart_append_of_blanks ha]
        cases hbehind : trimStart t with
        | nil => rfl
        | cons e u =>
          rw [hbehind, stops_cons, beq_eq_false_iff_ne] at hcolon
          simp [hcolon]
      | cons e u =>
        have hvisible : ¬Blanks y := by
          intro hblanks
          rw [trimStart, List.dropWhile_eq_nil_iff.2 hblanks] at htrim
          cases htrim
        rw [trimStart_append_of_not_blanks hvisible, htrim]
        by_cases he : e = ':'
        · subst he
          rfl
        · simp [he]
    · simp [bareKey?, hc]

/-- The key at the front is the same in front of a text that shows no colon. -/
theorem quoteKey_append_of_trimStart (htrim : trimStart (s ++ t) = trimStart s ++ t)
    (hword : Stops (· == ':') (trimStart (t.dropWhile isKeyChar)))
    (hcolon : Stops (· == ':') (trimStart t)) :
    quoteKey (s ++ t) = ((quoteKey s).1, (quoteKey s).2 ++ t) := by
  simp only [quoteKey, htrim, bareKey?_append hword hcolon]
  cases bareKey? (trimStart s) <;> rfl

/-- The key at the front is the same in front of a text in which none is searched for. -/
theorem quoteKey_append (h : Unsearched t) (s : List Char) :
    quoteKey (s ++ t) = ((quoteKey s).1, (quoteKey s).2 ++ t) :=
  quoteKey_append_of_trimStart (trimStart_append_of_stops h.visible s) h.colon h.not_colon

/-- A text that holds something else than blanks is before a closing bracket or not, whatever
follows it. -/
theorem atClose_append_of_not_blanks (h : ¬Blanks s) (t : List Char) :
    atClose (trimStart s ++ t) = atClose (trimStart s) := by
  obtain ⟨a, hs, ha, -⟩ := exists_blanks_trimStart s
  cases htrim : trimStart s with
  | nil =>
    rw [htrim, List.append_nil] at hs
    exact absurd (hs ▸ ha) h
  | cons => rfl

/-! ## What a step leaves -/

/-- A bare key is a word, and only blanks stand between it and its colon. -/
theorem bareKey?_eq_some {key : List Char} (h : bareKey? s = some (key, r)) :
    ∃ c w b, key = c :: w ∧ isKeyStart c = true ∧ (∀ d ∈ w, isKeyChar d = true) ∧ Blanks b ∧
      s = c :: (w ++ (b ++ ':' :: r)) := by
  unfold bareKey? at h
  split at h
  · cases h
  · rename_i c s
    split at h
    · rename_i hc
      split at h
      · rename_i x hx
        simp only [Option.some.injEq, Prod.mk.injEq] at h
        obtain ⟨rfl, rfl⟩ := h
        have hkey := isKeyChar_of_isKeyStart hc
        rw [List.dropWhile_cons_of_pos hkey] at hx
        rw [List.takeWhile_cons_of_pos hkey]
        obtain ⟨b, hb, hblanks, -⟩ := exists_blanks_trimStart (s.dropWhile isKeyChar)
        rw [hx] at hb
        refine ⟨c, _, b, rfl, hc, fun _ => List.mem_takeWhile_imp, hblanks, ?_⟩
        rw [← hb, List.takeWhile_append_dropWhile]
      · cases h
    · cases h

/-- The search for a bare key skips blanks, or goes on to the colon of a key that it quotes. -/
theorem quoteKey_cases (s : List Char) :
    (∃ a, s = a ++ (quoteKey s).2 ∧ Blanks a ∧ (quoteKey s).1 = []) ∨
      ∃ u key, s = u ++ ':' :: (quoteKey s).2 ∧ (∀ c ∈ key, isKeyChar c = true) ∧
        (quoteKey s).1 = '"' :: (key ++ ['"', ':']) := by
  obtain ⟨a, hs, ha, -⟩ := exists_blanks_trimStart s
  cases hkey : bareKey? (trimStart s) with
  | none =>
    have hquote : quoteKey s = ([], trimStart s) := by simp [quoteKey, hkey]
    rw [hquote]
    exact .inl ⟨a, hs, ha, rfl⟩
  | some found =>
    obtain ⟨key, r⟩ := found
    have hquote : quoteKey s = ('"' :: key ++ ['"', ':'], r) := by simp [quoteKey, hkey]
    obtain ⟨c, w, b, rfl, hc, hw, -, hcut⟩ := bareKey?_eq_some hkey
    rw [hquote]
    refine .inr ⟨a ++ (c :: w ++ b), c :: w, ?_, ?_, rfl⟩
    · conv_lhs => rw [hs, hcut]
      simp
    · exact List.forall_mem_cons.2 ⟨isKeyChar_of_isKeyStart hc, hw⟩

/-! ## What a step does -/

/-- All that a step outside of strings can do. -/
theorem outsideStep_cases (c : Char) (s : List Char) : OutsideStep s c (outsideStep c s) := by
  cases hmark : isMark c with
  | true =>
    simp only [isMark, Bool.or_eq_true, beq_iff_eq] at hmark
    rcases hmark with (((((rfl | rfl) | rfl) | rfl) | rfl) | rfl) | rfl
    · exact .quote rfl
    · exact .quote rfl
    · exact .brace
    · exact .bracket
    · exact .close rfl
    · exact .close rfl
    · cases hclose : atClose (trimStart s) with
      | true => simpa [outsideStep, hclose] using OutsideStep.dropped hclose
      | false => simpa [outsideStep, hclose] using OutsideStep.comma hclose
  | false =>
    cases hcall : constructor? (c :: s) with
    | none =>
      rw [outsideStep_copy hmark hcall]
      exact .copied hmark hcall
    | some found =>
      obtain ⟨l, r⟩ := found
      obtain ⟨u, hu, hl⟩ := constructor?_eq_some_iff.1 hcall
      obtain ⟨d, v, rfl, hd⟩ := hl.eq_cons
      obtain ⟨rfl, -⟩ := List.cons.inj hu
      rw [outsideStep_call hd hcall]
      exact .call hu hl

/-- What a step outside of strings can do is what it does. -/
theorem OutsideStep.eq {x : Step} (h : OutsideStep s c x) : outsideStep c s = x := by
  cases h with
  | quote hq => rcases isQuote_iff.1 hq with rfl | rfl <;> rfl
  | brace | bracket => rfl
  | close hclose =>
    simp only [atClose, Bool.or_eq_true, beq_iff_eq] at hclose
    rcases hclose with rfl | rfl <;> rfl
  | comma hclose | dropped hclose => simp [outsideStep, hclose]
  | call hu hl =>
    obtain ⟨d, v, rfl, hd⟩ := hl.eq_cons
    obtain ⟨rfl, -⟩ := List.cons.inj hu
    exact outsideStep_call hd (constructor?_eq_some_iff.2 ⟨_, hu, hl⟩)
  | copied hmark hcall => exact outsideStep_copy hmark hcall

/-- All that a step in a string can do. -/
theorem step_cases_of_string (hm : m ≠ .outside) (c : Char) (s : List Char) :
    StringStep m c s (step m c s) := by
  cases m with
  | outside => exact absurd rfl hm
  | doubleQuoted =>
    by_cases hb : c = '\\'
    · subst hb
      cases s with
      | nil => exact .cut
      | cons e s => exact .escaped nofun
    by_cases hq : c = '"'
    · subst hq
      exact .close rfl rfl
    · have hcontent : StringStep .doubleQuoted c s _ := .content hb hq nofun
      simpa [step, doubleQuotedStep, hb, hq] using hcontent
  | singleQuoted =>
    by_cases hb : c = '\\'
    · subst hb
      cases s with
      | nil => exact .cut
      | cons e s =>
        by_cases he : e = '\''
        · subst he
          exact .escapedQuote rfl
        · have hescaped : StringStep .singleQuoted '\\' (e :: s) _ := .escaped fun _ => he
          simpa [step, singleQuotedStep, he] using hescaped
    by_cases hs : c = '\''
    · subst hs
      exact .close rfl rfl
    by_cases hq : c = '"'
    · subst hq
      exact .innerQuote rfl
    · have hcontent : StringStep .singleQuoted c s _ := .content hb hq fun _ => hs
      simpa [step, singleQuotedStep, hb, hs, hq] using hcontent

/-- What a step in a string can do is what it does. -/
theorem StringStep.eq {x : Step} (hm : m ≠ .outside) (h : StringStep m c s x) :
    step m c s = x := by
  cases h with
  | close hq hmode =>
    subst hmode
    rcases isQuote_iff.1 hq with rfl | rfl <;> rfl
  | cut =>
    cases m
    exacts [absurd rfl hm, rfl, rfl]
  | escaped he =>
    cases m with
    | outside => exact absurd rfl hm
    | doubleQuoted => rfl
    | singleQuoted => simp [step, singleQuotedStep, he rfl]
  | escapedQuote hmode | innerQuote hmode =>
    subst hmode
    rfl
  | content hb hq hs =>
    cases m with
    | outside => exact absurd rfl hm
    | doubleQuoted => simp [step, doubleQuotedStep, hb, hq]
    | singleQuoted => simp [step, singleQuotedStep, hb, hq, hs rfl]

/-- A step with more text behind, if what it sees ahead of it is the same. -/
theorem step_before_of_sight
    (hkey : m = .outside → c = '{' ∨ c = ',' → trimStart (s ++ t) = trimStart s ++ t ∧
      quoteKey (s ++ t) = ((quoteKey s).1, (quoteKey s).2 ++ t))
    (hcall : m = .outside → constructor? (c :: s) = none → constructor? (c :: (s ++ t)) = none)
    (hcomma : m = .outside → c = ',' → ¬Blanks s) (hescape : m ≠ .outside → c = '\\' → s ≠ []) :
    step m c (s ++ t) = (step m c s).before t := by
  by_cases hm : m = .outside
  · subst hm
    have hstep := outsideStep_cases c s
    refine OutsideStep.eq ?_
    show OutsideStep (s ++ t) c ((outsideStep c s).before t)
    generalize outsideStep c s = x at hstep ⊢
    cases hstep with
    | quote hq => exact .quote hq
    | brace =>
      have hbrace := OutsideStep.brace (s := s ++ t)
      rwa [(hkey rfl (.inl rfl)).2] at hbrace
    | bracket => exact .bracket
    | close hclose => exact .close hclose
    | comma hclose =>
      obtain ⟨htrim, hquote⟩ := hkey rfl (.inr rfl)
      rw [← atClose_append_of_not_blanks (hcomma rfl rfl) t, ← htrim] at hclose
      have hkept := OutsideStep.comma hclose
      rwa [hquote] at hkept
    | dropped hclose =>
      obtain ⟨htrim, -⟩ := hkey rfl (.inr rfl)
      rw [← atClose_append_of_not_blanks (hcomma rfl rfl) t, ← htrim] at hclose
      have hdropped := OutsideStep.dropped hclose
      rwa [htrim] at hdropped
    | call hu hl => exact .call (by rw [← List.cons_append, hu, List.append_assoc]) hl
    | copied hmark hnone => exact .copied hmark (hcall rfl hnone)
  · have hstep := step_cases_of_string hm c s
    refine StringStep.eq hm ?_
    generalize step m c s = x at hstep ⊢
    cases hstep with
    | close hq hmode => exact .close hq hmode
    | cut => exact absurd rfl (hescape hm rfl)
    | escaped he => exact .escaped he
    | escapedQuote hmode => exact .escapedQuote hmode
    | innerQuote hmode => exact .innerQuote hmode
    | content hb hq hs => exact .content hb hq hs

/-- What a step sees ahead of it does not change, calls, commas and backslashes at the end apart. -/
theorem step_before (ht : Unsearched t)
    (hcall : m = .outside → constructor? (c :: s) = none → constructor? (c :: (s ++ t)) = none)
    (hcomma : m = .outside → c = ',' → ¬Blanks s) (hescape : m ≠ .outside → c = '\\' → s ≠ []) :
    step m c (s ++ t) = (step m c s).before t :=
  step_before_of_sight
    (fun _ _ => ⟨trimStart_append_of_stops ht.visible s, quoteKey_append ht s⟩) hcall hcomma hescape

/-- What a step outside of strings leaves is the end of what it had. -/
theorem exists_outsideStep_rest (c : Char) (s : List Char) :
    ∃ w, s = w ++ (outsideStep c s).rest := by
  have hkey : ∃ w, s = w ++ (quoteKey s).2 := by
    rcases quoteKey_cases s with ⟨a, hs, -⟩ | ⟨u, key, hs, -⟩
    · exact ⟨a, hs⟩
    · refine ⟨u ++ [':'], ?_⟩
      rw [List.append_assoc]
      exact hs
  have hstep := outsideStep_cases c s
  generalize outsideStep c s = x at hstep ⊢
  cases hstep with
  | quote | bracket | close | copied => exact ⟨[], rfl⟩
  | brace | comma => exact hkey
  | dropped =>
    obtain ⟨a, hs, -, -⟩ := exists_blanks_trimStart s
    exact ⟨a, hs⟩
  | call hu hcall =>
    obtain ⟨d, v, rfl, -⟩ := hcall.eq_cons
    exact ⟨v, (List.cons.inj hu).2⟩

/-- A step leaves an end of the text it looked at. -/
theorem exists_step_rest (m : Mode) (c : Char) (s : List Char) :
    ∃ w, s = w ++ (step m c s).rest := by
  by_cases hm : m = .outside
  · subst hm
    exact exists_outsideStep_rest c s
  have hstep := step_cases_of_string hm c s
  generalize step m c s = x at hstep ⊢
  cases hstep with
  | close | cut | innerQuote | content => exact ⟨[], rfl⟩
  | @escaped e => exact ⟨[e], rfl⟩
  | escapedQuote => exact ⟨['\''], rfl⟩

end

end ShellQuery.Dialect
