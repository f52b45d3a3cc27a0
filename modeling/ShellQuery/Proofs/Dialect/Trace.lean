import ShellQuery.Proofs.Dialect.Continuation
import ShellQuery.Proofs.Json.Lexing
/-!
# What was read and what is written

Two things are known of what the pass has written when it comes to a place outside of strings. The
end of what is written is outside of the strings of strict JSON, too (`zone_step`): a string
is opened and closed in what is written when it is in what is read. And the last visible character
that was read, if it is an opening bracket, a comma or a colon, is the last visible character that
is written (`Echoes`). This does not hold behind a comma that was dropped, but there the pass is
before a closing bracket or at the end. `Run.traced` carries both through a run.
-/

namespace ShellQuery.Dialect

open Text Decimal Json

/-- The zone that what is written is in. -/
def Mode.zone : Mode → Zone
  | .outside => .outside
  | .doubleQuoted => .quoted
  | .singleQuoted => .quoted

/-- The characters behind which an item or a key may come. -/
def isLead (c : Char) : Bool :=
  c == '[' || c == '{' || c == ',' || c == ':'

/-- What is written copies the blanks that were read, or it ends as what was read does if the last
visible character is one behind which an item may come. -/
def Echoes (p w : List Char) : Prop :=
  (Blanks p ∧ w = p) ∨ ∃ p' c a, p = p' ++ c :: a ∧ isBlank c = false ∧ Blanks a ∧
    (isLead c = true → ∃ w' a', w = w' ++ c :: a' ∧ Blanks a' ∧ Zone.outside.after w' = .outside)

section
variable {m m' : Mode} {c : Char} {s t p w u r : List Char} {l : Literal} {S : List Step}

/-! ## Zones -/

/-- The content of a string does not leave it. -/
theorem zone_content (h : Content s t) : Zone.quoted.after s = .quoted :=
  (inside_content h).2

/-- Plain characters do not leave a string. -/
theorem zone_plain (h : ∀ c ∈ s, isPlain c = true) : Zone.quoted.after s = .quoted :=
  zone_content (content_plain h)

/-- A character that is written as content does not leave the string. -/
theorem zone_contentChar (hq : c ≠ '"') (hb : c ≠ '\\') :
    Zone.quoted.after (contentChar c) = .quoted :=
  zone_content (content_contentChar hq hb)

/-- An escape that is written does not leave the string on the way either. -/
theorem inside_escapedChar (c : Char) : Inside (escapedChar c) := by
  unfold escapedChar
  split
  · rename_i hc
    refine inside_content (content_contentChar ?_ ?_) <;>
      · rintro rfl
        cases hc
  · exact inside_escape c

/-- Behind an escape that is written within a string the zone is still the string. -/
theorem zone_escapedChar (c : Char) : Zone.quoted.after (escapedChar c) = .quoted :=
  (inside_escapedChar c).2

/-- A string in quotes, from its opening quote to its closing one. -/
theorem zone_quoted (h : Zone.quoted.after s = .quoted) (t : List Char) :
    Zone.outside.after ('"' :: (s ++ '"' :: t)) = Zone.outside.after t := by
  rw [Zone.after_cons, Zone.after_append]
  show (Zone.quoted.after s).after ('"' :: t) = _
  rw [h]
  rfl

/-- A quoted key with its colon ends outside of strings. -/
theorem zone_quoteKey (s : List Char) : Zone.outside.after (quoteKey s).1 = .outside := by
  rcases quoteKey_cases s with ⟨a, -, -, h⟩ | ⟨u, key, -, hkey, h⟩
  · rw [h]
    rfl
  · rw [h]
    exact zone_quoted (zone_content (content_key hkey)) [':']

/-- A tag object ends outside of strings. -/
theorem zone_tagged {tag : String} {text : List Char}
    (htag : Zone.quoted.after tag.toList = .quoted) (htext : Zone.quoted.after text = .quoted) :
    Zone.outside.after (tagged tag text) = .outside := by
  have hcut : tagged tag text =
      '{' :: ('"' :: (tag.toList ++ '"' :: (':' :: ('"' :: (text ++ '"' :: ['}']))))) := by
    simp [tagged]
  rw [hcut, Zone.after_cons]
  show Zone.outside.after _ = _
  rw [zone_quoted htag, Zone.after_cons]
  exact zone_quoted htext ['}']

/-- The spelling of a call ends outside of strings. -/
theorem zone_spelling (h : Call u l) : Zone.outside.after l.spelling = .outside := by
  obtain ⟨form, s, harg⟩ := h.exists_argument
  cases harg with
  | identifier _ ht | instant _ ht => exact zone_tagged rfl (zone_plain ht)
  | int64 hn =>
    obtain ⟨_, hn⟩ := hn.exists_numeralText
    exact zone_tagged rfl (zone_plain (isPlain_of_numeralText hn.spelling))
  | int32 =>
    refine Zone.after_outside fun hmem => ?_
    cases isPlain_of_numeralText (numeralText_ofInt _) _ hmem

/-- In a string of either kind a strict string is written. -/
theorem zone_of_string (hm : m ≠ .outside) : m.zone = .quoted := by
  cases m
  exacts [absurd rfl hm, rfl, rfl]

/-- Behind a quote of either kind a strict string is written. -/
theorem zone_quotedMode (q : Char) : (quotedMode q).zone = .quoted := by
  unfold quotedMode
  split_ifs <;> rfl

/-- What a step outside of strings writes ends in the zone of the mode it leads to. -/
theorem zone_outsideStep (c : Char) (s : List Char) :
    Zone.outside.after (outsideStep c s).written = (outsideStep c s).mode.zone := by
  have hcons : ∀ {d : Char} {x : List Char}, d ≠ '"' → Zone.outside.after x = .outside →
      Zone.outside.after (d :: x) = .outside := by
    intro d x hd hx
    rw [Zone.after_cons, Zone.next, if_neg hd, hx]
  have hkey := zone_quoteKey s
  have hstep := outsideStep_cases c s
  generalize outsideStep c s = x at hstep ⊢
  cases hstep with
  | quote => exact (zone_quotedMode c).symm
  | brace | comma => exact hcons (by decide) hkey
  | bracket | dropped => rfl
  | close hclose =>
    refine hcons ?_ rfl
    rintro rfl
    cases hclose
  | call _ hcall => exact zone_spelling hcall
  | copied hmark =>
    refine hcons ?_ rfl
    rintro rfl
    cases hmark

/-- What a step writes leads to the zone of the mode that the step leads to, a backslash at the end
of a string apart. -/
theorem zone_step (hescape : m ≠ .outside → c = '\\' → s ≠ []) :
    m.zone.after (step m c s).written = (step m c s).mode.zone := by
  by_cases hm : m = .outside
  · subst hm
    exact zone_outsideStep c s
  have hzone := zone_of_string hm
  have hstep := step_cases_of_string hm c s
  generalize step m c s = x at hstep ⊢
  cases hstep with
  | cut => exact absurd rfl (hescape hm rfl)
  | @escaped e =>
    rw [hzone]
    exact zone_escapedChar e
  | close | escapedQuote | innerQuote =>
    rw [hzone]
    rfl
  | content hb hq =>
    rw [hzone]
    exact zone_contentChar hq hb

/-- Behind a step the zone is that of the mode, or a backslash in a string ends the text. -/
theorem zone_or_cut (m : Mode) (c : Char) (s : List Char) :
    m.zone.after (step m c s).written = (step m c s).mode.zone ∨
      m ≠ .outside ∧ s = [] ∧ step m c s = ⟨['\\'], .keeps, m, []⟩ := by
  by_cases hcut : m ≠ .outside ∧ c = '\\' ∧ s = []
  · obtain ⟨hm, rfl, rfl⟩ := hcut
    exact .inr ⟨hm, rfl, StringStep.cut.eq hm⟩
  · exact .inl (zone_step fun hm hc hs => hcut ⟨hm, hc, hs⟩)

/-! ## The last visible character -/

/-- A visible character that leads to nothing. -/
theorem echoes_of_not_isLead (hc : isBlank c = false) (hlead : isLead c = false)
    (p w : List Char) : Echoes (p ++ [c]) w := by
  refine .inr ⟨p, c, [], rfl, hc, blanks_nil, fun h => ?_⟩
  rw [hlead] at h
  cases h

/-- A character that is read and written, and blanks that are read. -/
theorem echoes_of_copy (hc : isBlank c = false) (ha : Blanks t)
    (hzone : Zone.outside.after w = .outside) (p : List Char) :
    Echoes (p ++ c :: t) (w ++ [c]) :=
  .inr ⟨p, c, t, rfl, hc, ha, fun _ => ⟨w, [], rfl, blanks_nil, hzone⟩⟩

/-- A blank that is copied keeps the echo. -/
theorem Echoes.blank (h : Echoes p w) (hc : isBlank c = true) : Echoes (p ++ [c]) (w ++ [c]) := by
  have hmore : ∀ {a}, Blanks a → Blanks (a ++ [c]) := by
    intro a ha d hd
    rcases List.mem_append.1 hd with hd | hd
    · exact ha d hd
    · rw [List.mem_singleton.1 hd]
      exact hc
  rcases h with ⟨hp, rfl⟩ | ⟨p', d, a, rfl, hd, ha, h⟩
  · exact .inl ⟨hmore hp, rfl⟩
  · refine .inr ⟨p', d, a ++ [c], by simp, hd, hmore ha, fun hlead => ?_⟩
    obtain ⟨w', a', rfl, ha', hzone⟩ := h hlead
    exact ⟨w', a' ++ [c], by simp, hmore ha', hzone⟩

/-- Behind a character that is copied, a bare key may be looked for. -/
theorem echoes_quoteKey (hc : isBlank c = false) (hquote : c ≠ '"')
    (hzone : Zone.outside.after w = .outside) (p s : List Char) :
    ∃ x, s = x ++ (quoteKey s).2 ∧ Echoes (p ++ c :: x) (w ++ c :: (quoteKey s).1) := by
  have hcons : Zone.outside.after (w ++ [c]) = .outside := by
    rw [Zone.after_append, hzone, Zone.after_cons, Zone.next, if_neg hquote]
    rfl
  rcases quoteKey_cases s with ⟨a, hs, ha, hkey⟩ | ⟨u, key, hs, hkey, hwritten⟩
  · refine ⟨a, hs, ?_⟩
    rw [hkey]
    exact echoes_of_copy hc ha hzone p
  · refine ⟨u ++ [':'], by rwa [List.append_assoc], ?_⟩
    have hstring : Zone.outside.after (w ++ [c] ++ '"' :: (key ++ ['"'])) = .outside := by
      rw [Zone.after_append, hcons]
      exact zone_quoted (zone_content (content_key hkey)) []
    have hcopy := echoes_of_copy (c := ':') rfl blanks_nil hstring (p ++ c :: u)
    rw [hwritten]
    simpa using hcopy

/-- A step outside of strings goes on with what is echoed, or it leads to a closing bracket. -/
theorem echoes_outsideStep (h : Echoes p w ∨ atClose (c :: s) = true)
    (hzone : Zone.outside.after w = .outside) (hmode : (outsideStep c s).mode = .outside) :
    ∃ x, s = x ++ (outsideStep c s).rest ∧
      (Echoes (p ++ c :: x) (w ++ (outsideStep c s).written) ∨
        atClose (outsideStep c s).rest = true) := by
  have hstep := outsideStep_cases c s
  generalize outsideStep c s = x at hstep hmode ⊢
  cases hstep with
  | quote =>
    have hquoted : (quotedMode c).zone = .outside := congrArg Mode.zone hmode
    rw [zone_quotedMode] at hquoted
    cases hquoted
  | brace =>
    obtain ⟨x, hs, hx⟩ := echoes_quoteKey (c := '{') rfl (by decide) hzone p s
    exact ⟨x, hs, .inl hx⟩
  | bracket => exact ⟨[], rfl, .inl (echoes_of_copy rfl blanks_nil hzone p)⟩
  | close hclose =>
    simp only [atClose, Bool.or_eq_true, beq_iff_eq] at hclose
    refine ⟨[], rfl, .inl (echoes_of_not_isLead ?_ ?_ _ _)⟩ <;> rcases hclose with rfl | rfl <;> rfl
  | comma =>
    obtain ⟨x, hs, hx⟩ := echoes_quoteKey (c := ',') rfl (by decide) hzone p s
    exact ⟨x, hs, .inl hx⟩
  | dropped hclose =>
    obtain ⟨a, hs, -, -⟩ := exists_blanks_trimStart s
    exact ⟨a, hs, .inr hclose⟩
  | @call _ _ _ l hu hl =>
    obtain ⟨d, v, rfl⟩ := hl.exists_concat
    obtain ⟨rfl, rfl⟩ := List.cons.inj hu
    refine ⟨v ++ [')'], rfl, .inl ?_⟩
    have hend := echoes_of_not_isLead (c := ')') rfl rfl (p ++ c :: v) (w ++ l.spelling)
    simpa using hend
  | copied hmark =>
    refine ⟨[], rfl, .inl ?_⟩
    cases hc : isBlank c with
    | false => exact echoes_of_copy hc blanks_nil hzone p
    | true =>
      refine (h.resolve_right fun hclose => ?_).blank hc
      simp only [atClose, Bool.or_eq_true, beq_iff_eq] at hclose
      rcases hclose with rfl | rfl <;> cases hmark

/-! ## Runs -/

/-- A step that leaves a string reads the closing quote and writes one. -/
theorem step_leaves_string (hm : m ≠ .outside) (hmode : (step m c s).mode = .outside) :
    isQuote c = true ∧ (step m c s).written = ['"'] ∧ (step m c s).rest = s := by
  have hstep := step_cases_of_string hm c s
  generalize step m c s = x at hstep hmode ⊢
  cases hstep with
  | close hq => exact ⟨hq, rfl, rfl⟩
  | cut | escaped | escapedQuote | innerQuote | content => exact absurd hmode hm

/-- What is known when the pass comes to a place: the zone of what is written is that of the mode,
and outside of strings what was read is echoed, or the pass is before a closing bracket. -/
def Traced (m : Mode) (p w s : List Char) : Prop :=
  Zone.outside.after w = m.zone ∧ (m = .outside → Echoes p w ∨ atClose s = true)

/-- What is known is known behind the next step. -/
theorem Traced.step (h : Traced m p w (c :: s)) (hescape : m ≠ .outside → c = '\\' → s ≠ []) :
    ∃ x, s = x ++ (step m c s).rest ∧
      Traced (step m c s).mode (p ++ c :: x) (w ++ (step m c s).written) (step m c s).rest := by
  obtain ⟨hzone, hecho⟩ := h
  have hnext : Zone.outside.after (w ++ (Dialect.step m c s).written) =
      (Dialect.step m c s).mode.zone := by
    rw [Zone.after_append, hzone, zone_step hescape]
  by_cases hmode : (Dialect.step m c s).mode = .outside
  · by_cases hm : m = .outside
    · subst hm
      obtain ⟨x, hs, hx⟩ := echoes_outsideStep (hecho rfl) hzone hmode
      exact ⟨x, hs, hnext, fun _ => hx⟩
    · obtain ⟨hquote, -, hrest⟩ := step_leaves_string hm hmode
      refine ⟨[], hrest.symm, hnext, fun _ => .inl (echoes_of_not_isLead ?_ ?_ _ _)⟩
      · exact isBlank_of_isQuote hquote
      · rcases isQuote_iff.1 hquote with rfl | rfl <;> rfl
  · obtain ⟨x, hs⟩ := exists_step_rest m c s
    exact ⟨x, hs, hnext, fun h => absurd h hmode⟩

/-- **What is known is known behind a run** that ends outside of strings. -/
theorem Run.traced (h : Run m s S m' r) (hm' : m' = .outside) (hstart : Traced m p w s) :
    ∃ x, s = x ++ r ∧ Traced m' (p ++ x) (w ++ S.flatMap Step.written) r := by
  induction h generalizing p w with
  | done => exact ⟨[], rfl, by simpa using hstart⟩
  | @step m _ c s r S hrun ih =>
    have hescape : m ≠ .outside → c = '\\' → s ≠ [] := by
      rintro hm rfl rfl
      exact not_run_of_escape hm (hm' ▸ hrun)
    obtain ⟨x, hs, hnext⟩ := hstart.step hescape
    obtain ⟨y, hrest, hend⟩ := ih hm' hnext
    refine ⟨c :: (x ++ y), ?_, ?_⟩
    · conv_lhs => rw [hs, hrest]
      simp
    · simpa using hend

/-- What is known when the pass comes, outside of strings, to the place between two parts of a
text. -/
theorem Run.traced_start (h : Run .outside (p ++ r) S .outside r) :
    Zone.outside.after (S.flatMap Step.written) = .outside ∧
      (Echoes p (S.flatMap Step.written) ∨ atClose r = true) := by
  obtain ⟨x, hx, hzone, hecho⟩ := h.traced (p := []) (w := []) rfl
    ⟨rfl, fun _ => .inl (.inl ⟨blanks_nil, rfl⟩)⟩
  obtain rfl := List.append_cancel_right hx
  rw [List.nil_append] at hzone hecho
  exact ⟨hzone, hecho rfl⟩

end

end ShellQuery.Dialect
