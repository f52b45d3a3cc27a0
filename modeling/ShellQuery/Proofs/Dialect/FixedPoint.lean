import ShellQuery.Proofs.Dialect.Neighbours
/-!
# Fixed points of the pass

What the pass writes is in a normal form, `Tight`: outside of strings no blank stands behind an
opening brace or a comma, and strings hold no control characters (`tight_normalize`). Strict JSON
has no single quotes around its strings, no bare keys, no calls and no superfluous commas, so that
the pass copies a text of it exactly if it is in this form (`normalize_eq_self_iff`). From the two,
the pass changes nothing in what it has written, if that is strict JSON (`normalize_normalize`).
Other texts it may change again (`exists_normalize_ne`).

`tight_normalize` holds of all texts. It goes by the zone of what is written, step by step; the
step at an opening brace or a comma has skipped the blanks, and the next one writes none at first
(`stops_normalize`). That strict JSON is copied goes by its grammar (`copied_core`); behind a comma
or an opening brace the pass looks ahead, and `Entered` says what is found there.
-/

namespace ShellQuery.Dialect

open Text Decimal Json

/-- What the normal form asks of a character: behind an opening brace or a comma stands no blank,
and a string holds no control characters. -/
def Permitted : Zone → Char → List Char → Prop
  | .outside, c, s => c = '{' ∨ c = ',' → Stops isBlank s
  | .quoted, c, _ => isControl c = false
  | .escaped, c, _ => isControl c = false

/-- The normal form, from a zone on. -/
def Tight : Zone → List Char → Prop
  | _, [] => True
  | z, c :: s => Permitted z c s ∧ Tight (z.next c) s

/-- The pass copies the texts of a language that are in the normal form. -/
def Copied {α : Type} (core : List Char → α → Prop) : Prop :=
  ∀ s x, core s x → Tight .outside s → ∀ r, Passes .outside s s .outside r

/-- Behind a comma or an opening brace the pass copies the texts of a language that are in the
normal form and begin with no blank. -/
def Entered {α : Type} (core : List Char → α → Prop) : Prop :=
  ∀ s x, core s x → Tight .outside s → Stops isBlank s → Enters s s

section
variable {strict core : Language} {m : Mode} {z : Zone} {c : Char} {s t k a b r : List Char}
  {l : Literal} {v : Json} {depth : Nat}

/-! ## The normal form -/

@[simp] theorem tight_nil : Tight z [] :=
  trivial

@[simp] theorem tight_cons : Tight z (c :: s) ↔ Permitted z c s ∧ Tight (z.next c) s :=
  Iff.rfl

/-- In a string only control characters are not permitted. -/
theorem permitted_of_string (hz : z ≠ .outside) : Permitted z c s ↔ isControl c = false := by
  cases z
  exacts [absurd rfl hz, Iff.rfl, Iff.rfl]

/-- What is permitted in front of a text is permitted in front of a part of it. -/
theorem Permitted.of_append (h : Permitted z c (s ++ t)) : Permitted z c s := by
  cases z with
  | outside => exact fun hc => (h hc).of_append
  | quoted | escaped => exact h

/-- Both parts of a text in the normal form are in it. -/
theorem Tight.split (h : Tight z (s ++ t)) : Tight z s ∧ Tight (z.after s) t := by
  induction s generalizing z with
  | nil => exact ⟨trivial, h⟩
  | cons c s ih =>
    obtain ⟨hs, ht⟩ := ih h.2
    exact ⟨⟨h.1.of_append, hs⟩, ht⟩

/-- Outside of strings, a character that nothing is asked of. -/
theorem tight_free (hc : c ≠ '"' ∧ c ≠ '{' ∧ c ≠ ',') :
    Tight .outside (c :: s) ↔ Tight .outside s := by
  simp [Permitted, Zone.next, hc]

/-- Behind a brace or a comma no blank follows in a tight text. -/
theorem tight_lead (hc : c = '{' ∨ c = ',') :
    Tight .outside (c :: s) ↔ Stops isBlank s ∧ Tight .outside s := by
  rcases hc with rfl | rfl <;> simp [Permitted, Zone.next]

/-- Within strings the normal form asks for no control characters, and for nothing else. -/
theorem tight_inside (h : ∀ p r, s = p ++ r → z.after p ≠ .outside) :
    Tight z (s ++ t) ↔ (∀ c ∈ s, isControl c = false) ∧ Tight (z.after s) t := by
  induction s generalizing z with
  | nil => simp
  | cons c s ih =>
    have hz : z ≠ .outside := h [] (c :: s) rfl
    have hinside : ∀ p r, s = p ++ r → (z.next c).after p ≠ .outside :=
      fun p r hs => h (c :: p) r (by rw [hs, List.cons_append])
    rw [List.cons_append, tight_cons, permitted_of_string hz, ih hinside, List.forall_mem_cons,
      Zone.after_cons, and_assoc]

/-- Nothing but control characters is refused in a string. -/
theorem tight_content (h : Inside s) :
    Tight .quoted (s ++ t) ↔ (∀ c ∈ s, isControl c = false) ∧ Tight .quoted t := by
  rw [tight_inside h.1, h.2]

/-- A string, from its opening quote to its closing one. -/
theorem tight_string (h : Inside k) :
    Tight .outside ('"' :: (k ++ '"' :: t)) ↔
      (∀ c ∈ k, isControl c = false) ∧ Tight .outside t := by
  have hopen : Tight .outside ('"' :: (k ++ '"' :: t)) ↔ Tight .quoted (k ++ '"' :: t) := by
    simp [Permitted, Zone.next]
  have hclose : Tight .quoted ('"' :: t) ↔ Tight .outside t := by
    simp [Permitted, Zone.next, isControl]
  rw [hopen, tight_content h, hclose]

/-! ## What a step writes -/

/-- A plain character is no control character. -/
theorem isControl_of_isPlain (h : isPlain c = true) : isControl c = false := by
  simp only [isPlain, Bool.not_eq_true', Bool.or_eq_false_iff] at h
  exact h.2

/-- A hexadecimal digit is no control character. -/
theorem isControl_of_hex4 {n : Nat} (h : Hex4 s n) : ∀ c ∈ s, isControl c = false := by
  cases h with
  | mk ha hb hc hd => simp [isControl_of_hexValue, *]

/-- A control character is written as an escape, in which none is left. -/
theorem isControl_of_mem_contentChar : ∀ d ∈ contentChar c, isControl d = false := by
  cases hc : isControl c with
  | false => simp [contentChar_of_not_isControl hc, hc]
  | true =>
    have hlt : c.toNat < 160 := by
      simp only [isControl, Bool.or_eq_true, Bool.and_eq_true, decide_eq_true_eq] at hc
      omega
    unfold contentChar
    split
    · simp [isControl]
    split
    · simp [isControl]
    split
    · simp [isControl]
    rw [List.forall_mem_cons, List.forall_mem_cons]
    exact ⟨rfl, rfl, isControl_of_hex4 (hex4_hex4 hlt)⟩

/-- No character of an escape that is written is a control character. -/
theorem isControl_of_mem_escapedChar : ∀ d ∈ escapedChar c, isControl d = false := by
  cases hc : isControl c with
  | false =>
    rw [escapedChar_of_not_isControl hc, List.forall_mem_cons, List.forall_mem_singleton]
    exact ⟨rfl, hc⟩
  | true =>
    rw [escapedChar, if_pos hc]
    exact isControl_of_mem_contentChar

/-- Where no key is quoted, no blanks are left either. -/
theorem stops_quoteKey (h : (quoteKey s).1 = []) : Stops isBlank (quoteKey s).2 := by
  simp only [quoteKey] at h ⊢
  split at h
  · cases h
  · exact stops_dropWhile isBlank s

/-- Behind a brace or a comma the blanks are skipped, or a key is written. -/
theorem tight_quoteKey (hc : c = '{' ∨ c = ',') (ht : Tight .outside t)
    (hstops : Stops isBlank (quoteKey s).2 → Stops isBlank t) :
    Tight .outside (c :: (quoteKey s).1 ++ t) := by
  rw [List.cons_append, tight_lead hc]
  rcases quoteKey_cases s with ⟨a, -, -, h⟩ | ⟨u, key, -, hkey, h⟩
  · have hblank := hstops (stops_quoteKey h)
    rw [h]
    exact ⟨hblank, ht⟩
  · have hcut : '"' :: (key ++ ['"', ':']) ++ t = '"' :: (key ++ '"' :: ':' :: t) := by simp
    rw [h, hcut, tight_string (inside_content (content_key hkey)), tight_free (by decide)]
    exact ⟨stops_cons.2 rfl,
      fun d hd => isControl_of_isPlain (isPlain_of_isKeyChar (hkey d hd)), ht⟩

/-- A tag object of plain characters is in the normal form. -/
theorem tight_tagged {tag : String} {text : List Char}
    (htag : ∀ c ∈ tag.toList, isPlain c = true) (htext : ∀ c ∈ text, isPlain c = true)
    (ht : Tight .outside t) : Tight .outside (tagged tag text ++ t) := by
  have hcut : tagged tag text ++ t =
      '{' :: '"' :: (tag.toList ++ '"' :: ':' :: '"' :: (text ++ '"' :: '}' :: t)) := by
    simp [tagged]
  rw [hcut, tight_lead (.inl rfl), tight_string (inside_content (content_plain htag)),
    tight_free (by decide), tight_string (inside_content (content_plain htext)),
    tight_free (by decide)]
  exact ⟨stops_cons.2 rfl, fun d hd => isControl_of_isPlain (htag d hd),
    fun d hd => isControl_of_isPlain (htext d hd), ht⟩

/-- A call is written as one object with plain texts in it, or as an integer. -/
theorem tight_spelling (h : Call s l) (ht : Tight .outside t) :
    Tight .outside (l.spelling ++ t) := by
  have hnumeral : ∀ {u : List Char}, (∀ c ∈ u, isNumeric c = true) → Tight .outside (u ++ t) := by
    intro u hu
    induction u with
    | nil => exact ht
    | cons c u ih =>
      rw [List.forall_mem_cons] at hu
      refine (tight_free ?_).2 (ih hu.2)
      refine ⟨?_, ?_, ?_⟩ <;>
        · rintro rfl
          cases hu.1
  obtain ⟨form, u, harg⟩ := h.exists_argument
  cases harg with
  | identifier _ hu | instant _ hu => exact tight_tagged (List.all_eq_true.1 rfl) hu ht
  | int64 hn =>
    obtain ⟨_, hn⟩ := hn.exists_numeralText
    exact tight_tagged (List.all_eq_true.1 rfl) (isPlain_of_numeralText hn.spelling) ht
  | int32 => exact hnumeral fun _ => isNumeric_of_mem_ofInt

/-- What a step outside of strings writes is in the normal form, if what follows is and begins with
no blank where the text goes on with none. -/
theorem tight_outsideStep (c : Char) (s : List Char)
    (ht : Tight (outsideStep c s).mode.zone t)
    (hstops : (outsideStep c s).mode = .outside →
      Stops isBlank (outsideStep c s).rest → Stops isBlank t) :
    Tight .outside ((outsideStep c s).written ++ t) := by
  have hstep := outsideStep_cases c s
  generalize outsideStep c s = x at ht hstops hstep ⊢
  cases hstep with
  | quote =>
    rw [zone_quotedMode] at ht
    exact ⟨nofun, ht⟩
  | brace => exact tight_quoteKey (.inl rfl) ht (hstops rfl)
  | comma => exact tight_quoteKey (.inr rfl) ht (hstops rfl)
  | bracket => exact (tight_free (by decide)).2 ht
  | close hclose =>
    simp only [atClose, Bool.or_eq_true, beq_iff_eq] at hclose
    refine (tight_free ?_).2 ht
    rcases hclose with rfl | rfl <;> decide
  | dropped => exact ht
  | call _ hcall => exact tight_spelling hcall ht
  | copied hmark =>
    refine (tight_free ?_).2 ht
    refine ⟨?_, ?_, ?_⟩ <;>
      · rintro rfl
        cases hmark

/-- What a step in a string writes is in the normal form. A backslash may end the text. -/
theorem tight_stringStep (hm : m ≠ .outside) (c : Char) (s : List Char)
    (ht : Tight (step m c s).mode.zone t) (hend : (step m c s).rest = [] → t = []) :
    Tight m.zone ((step m c s).written ++ t) := by
  have hzone := zone_of_string hm
  have hstep := step_cases_of_string hm c s
  generalize step m c s = x at ht hend hstep ⊢
  rw [hzone]
  cases hstep with
  | close => exact ⟨rfl, ht⟩
  | cut =>
    rw [hend rfl]
    exact ⟨rfl, trivial⟩
  | escaped =>
    rw [hzone] at ht
    exact (tight_content (inside_escapedChar _)).2 ⟨isControl_of_mem_escapedChar, ht⟩
  | escapedQuote =>
    rw [hzone] at ht
    exact ⟨rfl, ht⟩
  | innerQuote =>
    rw [hzone] at ht
    exact (tight_content (inside_escape '"')).2 ⟨by simp [isControl], ht⟩
  | content hb hq =>
    rw [hzone] at ht
    exact (tight_content (inside_content (content_contentChar hq hb))).2
      ⟨isControl_of_mem_contentChar, ht⟩

/-- **What the pass writes is in the normal form**, from each mode on. -/
theorem tight_steps (m : Mode) (s : List Char) :
    Tight m.zone ((steps m s).flatMap Step.written) := by
  induction hn : s.length using Nat.strong_induction_on generalizing m s with
  | _ n ih =>
    cases s with
    | nil =>
      rw [steps_nil]
      exact trivial
    | cons c s =>
      have hlt : (step m c s).rest.length < n := by
        have := step_rest_length_le m c s
        rw [List.length_cons] at hn
        omega
      have ht := ih _ hlt (step m c s).mode (step m c s).rest rfl
      rw [steps_cons, List.flatMap_cons]
      by_cases hm : m = .outside
      · subst hm
        refine tight_outsideStep c s ht fun hmode hstops => ?_
        have hnormalize := stops_normalize hstops
        rw [normalize, ← hmode] at hnormalize
        exact hnormalize
      · refine tight_stringStep hm c s ht fun hrest => ?_
        rw [hrest, steps_nil]
        rfl

/-- **What the pass writes is in the normal form.** -/
theorem tight_normalize (s : List Char) : Tight .outside (normalize s) :=
  tight_steps .outside s

/-! ## Strict JSON in the normal form is copied -/

/-- The pass keeps strict JSON, which belongs to the dialect. -/
theorem Core.kept (depth : Nat) : Kept (Core depth) (Core depth) where
  opens _ _ h := (Loose.kept depth).opens _ _ (Loose.of_core h)
  noKey h := (Loose.kept depth).noKey (Loose.of_core h)
  passes h := (Loose.kept depth).passes (Loose.of_core h)

/-- The content of a strict string is copied if it holds no control characters. -/
theorem Passes.content_self (h : Content s k) (hs : ∀ c ∈ s, isControl c = false) :
    Passes .doubleQuoted s s .doubleQuoted r := by
  induction h with
  | nil => exact .nil
  | @plain c s k hq hb _ _ ih =>
    rw [List.forall_mem_cons] at hs
    have hchar : Passes .doubleQuoted [c] (contentChar c) .doubleQuoted (s ++ r) :=
      .doubleQuoted_char hq hb
    rw [contentChar_of_not_isControl hs.1] at hchar
    exact hchar.append (ih hs.2)
  | @escape e s k d he _ ih =>
    rw [List.forall_mem_cons, List.forall_mem_append] at hs
    exact (Passes.escape he).append (ih hs.2.2)

/-- A strict string is copied with its quotes if it holds no control characters. -/
theorem Passes.string_self (h : Content k t) (hk : ∀ c ∈ k, isControl c = false) :
    Passes .outside ('"' :: (k ++ ['"'])) ('"' :: (k ++ ['"'])) .outside r :=
  .inQuotes rfl fun _ => .content_self h hk

/-- Words, numbers and strings in the normal form are copied. -/
theorem copied_scalar : Copied Scalar := by
  intro s v h ht r
  rcases copied_or_string h with hpass | ⟨k, t, rfl, -, hk⟩
  · exact hpass r
  · exact .string_self hk ((tight_string (inside_content hk)).1 ht).1

/-- Behind blanks the normal form goes on. -/
theorem Tight.of_spaces (ha : Spaces a) (h : Tight .outside (a ++ s)) : Tight .outside s := by
  have hs := h.split.2
  rwa [Zone.after_spaces ha] at hs

/-- Both sides of a comma between two items are in the normal form, and no blank is behind it. -/
theorem Tight.comma (hs : Zone.outside.after s = .outside) (h : Tight .outside (s ++ ',' :: t)) :
    Tight .outside s ∧ Stops isBlank t ∧ Tight .outside t := by
  obtain ⟨hleft, hright⟩ := h.split
  rw [hs, tight_lead (.inr rfl)] at hright
  exact ⟨hleft, hright⟩

/-- Blanks around a value are copied with it. -/
theorem Copied.padded (h : Copied core) : Copied (Padded core) := by
  rintro _ v ⟨ha, hv, hb⟩ ht r
  have hs := (ht.of_spaces ha).split.1
  exact (Passes.spaces ha).append ((h _ _ hv hs _).append (.spaces hb))

/-- No blanks stand in front of a text that begins with none. -/
theorem eq_nil_of_stops (ha : Spaces a) (h : Stops isBlank (a ++ s)) : a = [] := by
  cases a with
  | nil => rfl
  | cons c a =>
    have hc : isBlank c = false := stops_cons.1 h
    rw [isBlank_of_isSpace (ha c List.mem_cons_self)] at hc
    cases hc

/-- A value is copied behind a comma or an opening brace. -/
theorem Copied.entered (h : Copied core) (hkept : Kept strict core) : Entered (Padded core) := by
  rintro _ v hs ht hstops
  cases hs with
  | @mk a s b v ha hv hb =>
    obtain rfl := eq_nil_of_stops ha hstops
    refine ⟨[], s ++ b, s ++ b, rfl, fun r hr => ?_⟩
    obtain ⟨hclose, hkey⟩ := hkept.sight spaces_nil hv hb hr
    exact ⟨hclose, hkey, h.padded _ _ (.mk spaces_nil hv hb) ht r⟩

/-- A member is copied behind a comma or an opening brace, as its key is quoted already. -/
theorem Copied.enteredMember (h : Copied core) : Entered (Member core) := by
  rintro _ m hs ht hstops
  cases hs with
  | @mk a k b s t v ha hk hb hv =>
    obtain rfl := eq_nil_of_stops ha hstops
    obtain ⟨hcontrol, hmore⟩ := (tight_string (inside_content hk)).1 ht
    have hs : Tight .outside s := (tight_free (by decide)).1 (hmore.of_spaces hb)
    have hmember := Enters.quotedMember (q := '"') spaces_nil rfl
      (fun _ => .string_self hk hcontrol) hb (h.padded _ _ hv hs)
    simpa using hmember

/-- Items with commas between them are copied behind a comma or an opening bracket. -/
theorem Entered.listed {α : Type} {item : List Char → α → Prop} (h : Entered item)
    (hfollowed : Followed item) : Entered (Listed item) := by
  intro s xs hs
  induction hs with
  | last hx => exact h _ _ hx
  | more hx _ ih =>
    intro ht hstops
    obtain ⟨hleft, hblank, hright⟩ := ht.comma (hfollowed.zone hx)
    exact (h _ _ hx hleft hstops.of_append).more (ih hright hblank)

/-- The items of an array, from behind its opening bracket on or as a whole text. -/
theorem Copied.items (h : Copied core) (hkept : Kept strict core) (hfollowed : Followed core)
    {vs : List Json} (hs : Items core s vs) (ht : Tight .outside s) (hr : atClose r = true) :
    Passes .outside s s .outside r := by
  cases hs with
  | last hv => exact h.padded _ _ hv ht r
  | more hv hvs =>
    obtain ⟨hleft, hblank, hright⟩ := ht.comma (hfollowed.padded.zone hv)
    have henter := (h.entered hkept).listed hfollowed.padded _ _ hvs hright hblank
    exact (h.padded _ _ hv hleft _).append (henter.comma (ends_of_atClose hr))

/-- Brackets are copied with all that stands between them. -/
theorem Copied.nested (h : Copied core) (hkept : Kept strict core) (hfollowed : Followed core) :
    Copied (Nested core) := by
  intro s v hs ht r
  cases hs with
  | scalar hv => exact copied_scalar _ _ hv ht r
  | emptyArray hs => exact .array fun _ _ => .spaces hs
  | array hvs =>
    have hinner := ((tight_free (by decide)).1 ht).split.1
    exact .array fun _ hr => h.items hkept hfollowed hvs hinner hr
  | emptyObject hs =>
    obtain ⟨hstops, -⟩ := (tight_lead (.inl rfl)).1 ht
    obtain rfl := eq_nil_of_stops hs hstops
    exact .emptyObject spaces_nil
  | object hms =>
    obtain ⟨hstops, hinner⟩ := (tight_lead (.inl rfl)).1 ht
    have henter := h.enteredMember.listed hfollowed.member _ _ hms hinner.split.1
      hstops.of_append
    have hobject := henter.object (r := r) .none
    rwa [List.append_nil] at hobject

/-- Strict JSON of any depth in the normal form is copied. -/
theorem copied_core : ∀ depth, Copied (Core depth)
  | 0 => copied_scalar
  | depth + 1 => (copied_core depth).nested (Core.kept depth) (followed_core depth)

/-- **Strict JSON is copied exactly if it is in the normal form.** -/
theorem normalize_eq_self_iff (h : Written depth ('[' :: (s ++ [']'])) v) :
    normalize s = s ↔ Tight .outside s := by
  refine ⟨fun hs => hs ▸ tight_normalize s, fun ht => ?_⟩
  rcases written_array_iff.1 (Padded.mono (fun _ _ => Core.succ) h) with ⟨hs, -⟩ | ⟨vs, hvs, -⟩
  · exact (Passes.spaces hs).normalize.1
  · have hpass : Passes .outside s s .outside [] :=
      (copied_core depth).items (Core.kept depth) (followed_core depth) hvs ht rfl
    exact hpass.normalize.1

/-! ## Main result -/

/-- **The pass changes nothing in what it has written**, if that is strict JSON between two square
brackets, at any depth of brackets. -/
theorem normalize_normalize (h : Written depth ('[' :: (normalize s ++ [']'])) v) :
    normalize (normalize s) = normalize s :=
  (normalize_eq_self_iff h).2 (tight_normalize s)

/-- A blank, a bare key, single quotes around a double one and two superfluous commas: the first
pass rewrites them all. -/
theorem normalize_normalize_object :
    normalize ['{', ' ', 'a', ':', '\'', '"', '\'', ',', '}', ','] =
        ['{', '"', 'a', '"', ':', '"', '\\', '"', '"', '}'] ∧
      Written 2 ['[', '{', '"', 'a', '"', ':', '"', '\\', '"', '"', '}', ']']
        (.array [.object [("a", .text "\"")]]) ∧
      normalize ['{', '"', 'a', '"', ':', '"', '\\', '"', '"', '}'] =
        ['{', '"', 'a', '"', ':', '"', '\\', '"', '"', '}'] := by
  have hmember : LooseMember (Loose 0) [' ', 'a', ':', '\'', '"', '\''] ("a", .text "\"") :=
    .mk (a := [' ']) (b := []) (by simp [isSpace]) (LooseKey.bare (t := []) rfl (by simp))
      spaces_nil (.of_core (LooseAtom.text (t := ['"']) rfl))
  have hobject : Padded (Loose 1) ['{', ' ', 'a', ':', '\'', '"', '\'', ',', '}']
      (.object [("a", .text "\"")]) :=
    .of_core (LooseNested.object (.mk (.last hmember) (.comma spaces_nil)))
  have hitems := (Loose.normalize_items (.mk (.last hobject) (.comma spaces_nil))).1
  have hwritten := written_array_iff.2 (.inr ⟨_, hitems, rfl⟩)
  have hrun : Run .outside ['{', ' ', 'a', ':', '\'', '"', '\'', ',', '}', ','] _ .outside [] :=
    .step (.step (.step (.step (.step (.step (.step .done))))))
  have hfirst : normalize ['{', ' ', 'a', ':', '\'', '"', '\'', ',', '}', ','] =
      ['{', '"', 'a', '"', ':', '"', '\\', '"', '"', '}'] := by
    rw [hrun.normalize_eq, normalize_nil]
    rfl
  have hagain := normalize_normalize hwritten
  simp only [List.cons_append, List.nil_append, hfirst] at hwritten hagain
  exact ⟨hfirst, hwritten, hagain⟩

/-- What is no strict JSON may change again: of two commas the last one is dropped, and then the
first one is the last. -/
theorem exists_normalize_ne : ∃ s, normalize (normalize s) ≠ normalize s := by
  have hone : Run .outside [','] _ .outside [] := .step .done
  have htwo : Run .outside [',', ','] _ .outside [] := .step (.step .done)
  refine ⟨[',', ','], ?_⟩
  have hfirst : normalize [',', ','] = [','] := by
    rw [htwo.normalize_eq, normalize_nil]
    rfl
  have hlast : normalize [','] = [] := by
    rw [hone.normalize_eq, normalize_nil]
    rfl
  rw [hfirst, hlast]
  exact nofun

end

end ShellQuery.Dialect
