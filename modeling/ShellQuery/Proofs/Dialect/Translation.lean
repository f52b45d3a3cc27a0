import ShellQuery.Proofs.Dialect.Grammar
/-!
# The pass translates the dialect

`Loose.passes` is the main statement: the pass rewrites the text of a value in the dialect to strict
JSON for the same tree, whatever stands behind it. Where the pass looks ahead, the grammar says what
it sees. Behind a comma or an opening brace it looks for a bare key: an item of an array is not
taken for one (`Kept.noKey`), since no colon follows it, and a member begins with its key. Behind a
comma it also looks for a closing bracket, and finds one only if the comma is superfluous. `Enters`
says what such a look-ahead leads to.
-/

namespace ShellQuery.Dialect

open Text Json

/-- What stands behind an item: a comma, a closing bracket, or nothing. -/
def Ends (r : List Char) : Prop :=
  ∀ c ∈ r.head?, c = ',' ∨ c = ']' ∨ c = '}'

/-- Behind a comma or an opening brace the pass makes `out` of the item `s`: it finds no closing
bracket, skips blanks and rewrites a bare key at once, and goes on with the rest of the item. -/
def Enters (s out : List Char) : Prop :=
  ∃ w u more, out = w ++ more ∧ ∀ r, Ends r →
    atClose (trimStart (s ++ r)) = false ∧ quoteKey (s ++ r) = (w, u ++ r) ∧
      Passes .outside u more .outside r

/-- The pass translates a language to a strict one. -/
structure Kept (strict core : Language) : Prop where
  opens : ∀ s v, core s v → ∃ c r, s = c :: r ∧ isBlank c = false ∧ c ≠ '}' ∧ c ≠ ']'
  noKey : ∀ {s b r v}, core s v → Spaces b → Ends r → bareKey? (s ++ (b ++ r)) = none
  passes : ∀ {s v}, core s v → ∃ out, strict out v ∧ ∀ r, Passes .outside s out .outside r

section
variable {strict core : Language} {a b r s t out : List Char} {c : Char} {v : Json}

/-! ## Blanks and ends -/

/-- The blanks of JSON are blanks. -/
theorem isBlank_of_isSpace (h : isSpace c = true) : isBlank c = true := by
  rcases isSpace_iff.1 h with ((rfl | rfl) | rfl) | rfl <;> rfl

/-- Blanks are copied. -/
theorem isCopied_of_isBlank (h : isBlank c = true) : isCopied c = true := by
  cases hcopied : isCopied c with
  | true => rfl
  | false =>
    simp only [isCopied, isMark, opensCall, Bool.and_eq_false_iff, Bool.not_eq_eq_eq_not,
      Bool.not_false, Bool.or_eq_true, beq_iff_eq] at hcopied
    rcases hcopied with
      ((((((rfl | rfl) | rfl) | rfl) | rfl) | rfl) | rfl) | (((rfl | rfl) | rfl) | rfl) | rfl <;>
      cases h

/-- No key holds a blank. -/
theorem isKeyChar_of_isBlank (h : isBlank c = true) : isKeyChar c = false := by
  cases hc : isKeyChar c with
  | false => rfl
  | true =>
    obtain ⟨hmin, hmax, -⟩ := range_of_isKeyChar hc
    rw [isBlank_of_ascii (by omega) hmax] at h
    cases h

/-- No key begins with a blank. -/
theorem isBlank_of_isKeyStart (h : isKeyStart c = true) : isBlank c = false := by
  cases hc : isBlank c with
  | false => rfl
  | true =>
    have hkey := isKeyChar_of_isBlank hc
    rw [isKeyChar_of_isKeyStart h] at hkey
    cases hkey

/-- Blanks of JSON only are blanks. -/
theorem blanks_of_spaces (h : Spaces s) : Blanks s :=
  fun c hc => isBlank_of_isSpace (h c hc)

/-- Blanks outside of strings are copied. -/
theorem Passes.blanks (h : Blanks s) : Passes .outside s s .outside r :=
  .copy fun c hc => isCopied_of_isBlank (h c hc)

/-- The white space of strict JSON is copied outside of strings. -/
theorem Passes.spaces (h : Spaces s) : Passes .outside s s .outside r :=
  .blanks (blanks_of_spaces h)

/-- An item ends in front of a comma or a closing bracket. -/
theorem ends_cons : Ends (c :: r) ↔ c = ',' ∨ c = ']' ∨ c = '}' := by
  simp [Ends]

/-- An item ends where a closing bracket is next. -/
theorem ends_of_atClose (h : atClose r = true) : Ends r := by
  cases r with
  | nil => simp [Ends]
  | cons c r =>
    simp only [atClose, Bool.or_eq_true, beq_iff_eq] at h
    rw [ends_cons]
    rcases h with rfl | rfl <;> simp

/-- What stands behind an item stops every run without commas and closing brackets. -/
theorem Ends.stops {p : Char → Bool} (h : Ends r)
    (hp : p ',' = false ∧ p ']' = false ∧ p '}' = false) : Stops p r := by
  intro c hc
  rcases h c hc with rfl | rfl | rfl
  exacts [hp.1, hp.2.1, hp.2.2]

/-! ## Bare keys -/

/-- No key is found where none can begin. -/
theorem bareKey?_of_not_isKeyStart (h : isKeyStart c = false) : bareKey? (c :: s) = none := by
  simp [bareKey?, h]

/-- A word is no key if something else than a colon stands behind it. -/
theorem bareKey?_word {w : List Char} (hw : ∀ c ∈ w, isKeyChar c = true) (hb : Blanks b)
    (hstop : Stops isKeyChar (b ++ r)) (hr : Stops (fun c => isBlank c || c == ':') r) :
    bareKey? (w ++ (b ++ r)) = none := by
  have hrun : (w ++ (b ++ r)).dropWhile isKeyChar = b ++ r := dropWhile_append_stops hw hstop
  have htrim : trimStart (b ++ r) = r :=
    trimStart_append hb (hr.mono fun c hc => by simp [hc])
  unfold bareKey?
  split
  · rfl
  · split
    · rw [hrun, htrim]
      split
      · simp at hr
      · rfl
    · rfl

/-- A word, blanks and a colon are a key. -/
theorem bareKey?_key {w : List Char} (hc : isKeyStart c = true)
    (hw : ∀ d ∈ w, isKeyChar d = true) (hb : Blanks b) :
    bareKey? (c :: (w ++ (b ++ ':' :: r))) = some (c :: w, r) := by
  have hkey : ∀ d ∈ c :: w, isKeyChar d = true := by
    rintro d (_ | ⟨_, hd⟩)
    exacts [isKeyChar_of_isKeyStart hc, hw d hd]
  have hstop : Stops isKeyChar (b ++ ':' :: r) := by
    cases b with
    | nil => exact stops_cons.2 (by decide)
    | cons d b => simpa using isKeyChar_of_isBlank (hb d List.mem_cons_self)
  have hrun : (c :: (w ++ (b ++ ':' :: r))).dropWhile isKeyChar = b ++ ':' :: r :=
    dropWhile_append_stops (s := c :: w) hkey hstop
  have htake : (c :: (w ++ (b ++ ':' :: r))).takeWhile isKeyChar = c :: w :=
    takeWhile_append_stops (s := c :: w) hkey hstop
  have htrim : trimStart (b ++ ':' :: r) = ':' :: r := trimStart_append hb (by simp [isBlank])
  simp only [bareKey?, hc, if_true, hrun, htake, htrim]

/-- Blanks are skipped where no key stands behind them. -/
theorem quoteKey_of_noKey (ha : Blanks a) (hs : Stops isBlank s) (hkey : bareKey? s = none) :
    quoteKey (a ++ s) = ([], s) := by
  simp only [quoteKey, trimStart_append ha hs, hkey]

/-! ## Lists -/

/-- An item behind a comma is written behind a comma. -/
theorem Enters.comma (h : Enters s out) (hr : Ends r) :
    Passes .outside (',' :: s) (',' :: out) .outside r := by
  obtain ⟨w, u, more, rfl, h⟩ := h
  obtain ⟨hclose, hkey, hpass⟩ := h r hr
  refine .step (w := ',' :: w) ?_ hpass
  simp [Dialect.step, outsideStep, hclose, hkey]

/-- Two items with a comma between them are written like one item. -/
theorem Enters.more {out' : List Char} (h : Enters s out) (ht : Enters t out') :
    Enters (s ++ ',' :: t) (out ++ ',' :: out') := by
  obtain ⟨w, u, more, rfl, h⟩ := h
  refine ⟨w, u ++ ',' :: t, more ++ ',' :: out', by simp, fun r hr => ?_⟩
  obtain ⟨hclose, hkey, hpass⟩ := h (',' :: (t ++ r)) (ends_cons.2 (.inl rfl))
  have hassoc : s ++ ',' :: t ++ r = s ++ ',' :: (t ++ r) := by simp
  have hassoc' : u ++ ',' :: t ++ r = u ++ ',' :: (t ++ r) := by simp
  rw [hassoc, hassoc']
  exact ⟨hclose, hkey, hpass.append (ht.comma hr)⟩

/-- A list is entered at its first item. -/
theorem Enters.listed {α : Type} {item item' : List Char → α → Prop} {xs : List α}
    (hs : Listed item s xs) (h : ∀ s x, item s x → ∃ out, item' out x ∧ Enters s out) :
    ∃ out, Listed item' out xs ∧ Enters s out := by
  induction hs with
  | last hx =>
    obtain ⟨out, hout, henter⟩ := h _ _ hx
    exact ⟨out, .last hout, henter⟩
  | more hx _ ih =>
    obtain ⟨out, hout, henter⟩ := h _ _ hx
    obtain ⟨out', hout', henter'⟩ := ih
    exact ⟨out ++ ',' :: out', .more hout hout', henter.more henter'⟩

/-- A comma and blanks before a closing bracket vanish. -/
theorem Passes.droppedComma (hb : Blanks b) (hr : atClose r = true) :
    Passes .outside (',' :: b) [] .outside r := by
  have hstop : Stops isBlank r := (ends_of_atClose hr).stops ⟨rfl, rfl, rfl⟩
  refine .step (u := []) (w := []) ?_ .nil
  simp [Dialect.step, outsideStep, trimStart_append hb hstop, hr]

/-- Nothing is written for what may stand behind the last item. -/
theorem Trail.passes {tail : List Char} (h : Trail tail) (hr : atClose r = true) :
    Passes .outside tail [] .outside r := by
  cases h with
  | none => exact .nil
  | comma ha => exact .droppedComma (blanks_of_spaces ha) hr

/-- An item may end in front of a trail. -/
theorem Trail.ends {tail : List Char} (h : Trail tail) (hr : atClose r = true) :
    Ends (tail ++ r) := by
  cases h with
  | none => exact ends_of_atClose hr
  | comma => exact ends_cons.2 (.inl rfl)

/-! ## Items -/

/-- Blanks around a value are kept around it. -/
theorem Kept.padded (h : Kept strict core) (hs : Padded core s v) :
    ∃ out, Padded strict out v ∧ ∀ r, Passes .outside s out .outside r := by
  cases hs with
  | @mk a s b v ha hv hb =>
    obtain ⟨out, hout, hpass⟩ := h.passes hv
    exact ⟨a ++ (out ++ b), .mk ha hout hb,
      fun r => (Passes.spaces ha).append ((hpass _).append (.spaces hb))⟩

/-- Behind a comma or an opening brace blanks are skipped in front of a value, and neither a closing
bracket nor a bare key is found. -/
theorem Kept.sight (h : Kept strict core) (ha : Spaces a) (hv : core s v) (hb : Spaces b)
    (hr : Ends r) : atClose (trimStart (a ++ (s ++ b) ++ r)) = false ∧
      quoteKey (a ++ (s ++ b) ++ r) = ([], s ++ b ++ r) := by
  obtain ⟨c, u, rfl, hc, hbrace, hbracket⟩ := h.opens _ _ hv
  have hstop : Stops isBlank (c :: u ++ (b ++ r)) := by simpa using hc
  have hassoc : a ++ (c :: u ++ b) ++ r = a ++ (c :: u ++ (b ++ r)) := by simp
  rw [hassoc, List.append_assoc (c :: u)]
  refine ⟨?_, quoteKey_of_noKey (blanks_of_spaces ha) hstop (h.noKey hv hb hr)⟩
  rw [trimStart_append (blanks_of_spaces ha) hstop]
  simp [atClose, hbrace, hbracket]

/-- A value is translated behind a comma or an opening brace too. -/
theorem Kept.enters (h : Kept strict core) (hs : Padded core s v) :
    ∃ out, Padded strict out v ∧ Enters s out := by
  cases hs with
  | @mk a s b v ha hv hb =>
    obtain ⟨out, hout, hpass⟩ := h.passes hv
    refine ⟨out ++ b, .mk (a := []) spaces_nil hout hb, [], s ++ b, out ++ b, rfl, fun r hr => ?_⟩
    obtain ⟨hclose, hkey⟩ := h.sight ha hv hb hr
    exact ⟨hclose, hkey, (hpass _).append (.spaces hb)⟩

/-- The items of an array, from behind its opening bracket on or as a whole text. -/
theorem Kept.items (h : Kept strict core) {vs : List Json} (hs : Trailed (Padded core) s vs) :
    ∃ out, Items strict out vs ∧
      ∀ r, atClose r = true → Passes .outside s out .outside r := by
  cases hs with
  | @mk s tail vs hs htail =>
  cases hs with
  | last hv =>
    obtain ⟨out, hout, hpass⟩ := h.padded hv
    refine ⟨out, .last hout, fun r hr => ?_⟩
    have happend := (hpass _).append (htail.passes hr)
    rwa [List.append_nil] at happend
  | more hv hvs =>
    obtain ⟨out, hout, hpass⟩ := h.padded hv
    obtain ⟨out', hout', henter⟩ := Enters.listed hvs fun _ _ => h.enters
    refine ⟨out ++ ',' :: out', .more hout hout', fun r hr => ?_⟩
    have happend := ((hpass _).append (henter.comma (htail.ends hr))).append (htail.passes hr)
    rwa [List.append_nil] at happend

/-! ## Members -/

/-- A key in quotes of either kind is no bare key, and becomes a strict one. -/
theorem LooseKey.quoted_or_bare {k : List Char} (h : LooseKey k t) :
    (∃ q u k', k = q :: u ∧ isQuote q = true ∧ Content k' t ∧
      ∀ r, Passes .outside k ('"' :: (k' ++ ['"'])) .outside r) ∨
    ∃ c u, k = c :: u ∧ t = c :: u ∧ isKeyStart c = true ∧ ∀ d ∈ u, isKeyChar d = true := by
  cases h with
  | strict hk =>
    obtain ⟨k', hk', hpass⟩ := Passes.string hk
    exact .inl ⟨'"', _, k', rfl, rfl, hk', hpass⟩
  | quoted hq =>
    exact .inl ⟨_, _, _, rfl, hq, content_strictChars t, fun r => Passes.quotation hq⟩
  | bare hc hu => exact .inr ⟨_, _, rfl, rfl, hc, hu⟩

/-- A member that begins with a key in quotes. -/
theorem Enters.quotedMember {q : Char} {u k : List Char} (ha : Spaces a) (hq : isQuote q = true)
    (hkey : ∀ r, Passes .outside (q :: u) ('"' :: (k ++ ['"'])) .outside r) (hb : Spaces b)
    (hpass : ∀ r, Passes .outside s out .outside r) :
    Enters (a ++ (q :: u ++ (b ++ ':' :: s))) ('"' :: (k ++ '"' :: (b ++ ':' :: out))) := by
  refine ⟨[], q :: u ++ (b ++ ':' :: s), _, rfl, fun r hr => ?_⟩
  have hstop : Stops isBlank (q :: u ++ (b ++ ':' :: s) ++ r) := by
    simpa using isBlank_of_isQuote hq
  have hcolon : Passes .outside (b ++ ':' :: s) (b ++ ':' :: out) .outside r :=
    (Passes.spaces hb).append ((Passes.copy (s := [':']) (by simp [isCopied, isMark,
      opensCall])).append (hpass r))
  rw [List.append_assoc a]
  refine ⟨?_, quoteKey_of_noKey (blanks_of_spaces ha) hstop (bareKey?_of_not_isKeyStart
    (isKeyStart_of_isQuote hq)), ?_⟩
  · rw [trimStart_append (blanks_of_spaces ha) hstop]
    rcases isQuote_iff.1 hq with rfl | rfl <;> rfl
  · have happend := (hkey (b ++ ':' :: s ++ r)).append hcolon
    simpa using happend

/-- A member of an object is translated to a strict one, with its key as a string. -/
theorem Kept.member (h : Kept strict core) {m : String × Json} (hs : LooseMember core s m) :
    ∃ out, Member strict out m ∧ Enters s out := by
  cases hs with
  | @mk a k b s t v ha hk hb hv =>
  obtain ⟨out, hout, hpass⟩ := h.padded hv
  rcases hk.quoted_or_bare with ⟨q, u, k', rfl, hq, hk', hkey⟩ | ⟨c, u, rfl, rfl, hc, hu⟩
  · exact ⟨'"' :: (k' ++ '"' :: (b ++ ':' :: out)), .mk (a := []) spaces_nil hk' hb hout,
      .quotedMember ha hq hkey hb hpass⟩
  · have hword : ∀ d ∈ c :: u, isKeyChar d = true := by
      rintro d (_ | ⟨_, hd⟩)
      exacts [isKeyChar_of_isKeyStart hc, hu d hd]
    refine ⟨'"' :: (c :: u ++ '"' :: ':' :: out),
      .mk (a := []) (b := []) spaces_nil (content_key hword) spaces_nil hout,
      '"' :: (c :: u) ++ ['"', ':'], s, out, by simp, fun r hr => ?_⟩
    have hassoc : a ++ (c :: u ++ (b ++ ':' :: s)) ++ r =
        a ++ c :: (u ++ (b ++ ':' :: (s ++ r))) := by simp
    have htrim : trimStart (a ++ c :: (u ++ (b ++ ':' :: (s ++ r)))) =
        c :: (u ++ (b ++ ':' :: (s ++ r))) :=
      trimStart_append (blanks_of_spaces ha) (by simpa using isBlank_of_isKeyStart hc)
    rw [hassoc]
    refine ⟨?_, ?_, hpass r⟩
    · rw [htrim, atClose]
      cases hclose : c == '}' || c == ']' with
      | false => rfl
      | true =>
        simp only [Bool.or_eq_true, beq_iff_eq] at hclose
        rcases hclose with rfl | rfl <;> cases hc
    · simp only [quoteKey, htrim, bareKey?_key hc hu (blanks_of_spaces hb)]

/-! ## Values -/

/-- Numeric characters are copied. -/
theorem isCopied_of_isNumeric (h : isNumeric c = true) : isCopied c = true := by
  simp only [isNumeric, Bool.or_eq_true, beq_iff_eq] at h
  rcases h with ((((h | rfl) | rfl) | rfl) | rfl) | rfl
  · have hne : ∀ d : Char, d.isDigit = false → (c == d) = false := by
      intro d hd
      rw [beq_eq_false_iff_ne]
      rintro rfl
      rw [h] at hd
      cases hd
    simp [isCopied, isMark, opensCall, hne]
  all_goals rfl

/-- A value that holds no other ones is copied, or it is a string. -/
theorem copied_or_string (h : Scalar s v) :
    (∀ r, Passes .outside s s .outside r) ∨
      ∃ u t, s = '"' :: (u ++ ['"']) ∧ v = .text (String.ofList t) ∧ Content u t := by
  cases h with
  | null =>
    refine .inl fun r => ?_
    have hn : Passes .outside ['n'] ['n'] .outside (['u', 'l', 'l'] ++ r) :=
      .single (outsideStep_copy rfl (constructor?_n (by decide)))
    exact hn.append (.copy (List.all_eq_true.1 rfl))
  | true | false => exact .inl fun r => .copy (List.all_eq_true.1 rfl)
  | number h =>
    refine .inl fun r => .copy fun c hc => isCopied_of_isNumeric ?_
    cases h with
    | negative _ hs =>
      rcases List.mem_cons.1 hc with rfl | hc
      exacts [rfl, hs.1 c hc]
    | positive _ hs => exact hs.1 c hc
  | text h => exact .inr ⟨_, _, rfl, rfl, h⟩

/-- A scalar is translated to a scalar of the same value. -/
theorem Passes.scalar (h : Scalar s v) :
    ∃ out, Scalar out v ∧ ∀ r, Passes .outside s out .outside r := by
  rcases copied_or_string h with hpass | ⟨u, t, rfl, rfl, hu⟩
  · exact ⟨s, h, hpass⟩
  · obtain ⟨out, hout, hpass⟩ := Passes.string hu
    exact ⟨_, .text hout, hpass⟩

/-- No value is a key: no colon follows the words, and anything else begins with no letter. -/
theorem bareKey?_scalar (h : Scalar s v) (hb : Spaces b) (hr : Ends r) :
    bareKey? (s ++ (b ++ r)) = none := by
  have hstop : Stops isKeyChar (b ++ r) := by
    cases b with
    | nil => exact hr.stops (by decide)
    | cons c b => simpa using isKeyChar_of_isBlank (isBlank_of_isSpace (hb c List.mem_cons_self))
  have hcolon : Stops (fun c => isBlank c || c == ':') r := hr.stops (by decide)
  cases h with
  | null | true | false =>
    exact bareKey?_word (List.all_eq_true.1 rfl) (blanks_of_spaces hb) hstop hcolon
  | number h =>
    cases h with
    | negative => exact bareKey?_of_not_isKeyStart rfl
    | positive hd =>
      obtain ⟨c, u, rfl, hc⟩ := startsWithDigit_eq_true hd
      refine bareKey?_of_not_isKeyStart ?_
      rw [isDigit_iff] at hc
      cases hstart : isKeyStart c with
      | false => rfl
      | true =>
        simp only [isKeyStart, Bool.or_eq_true, beq_iff_eq, isAlpha_iff] at hstart
        rcases hstart with (hstart | rfl) | rfl
        · omega
        · exact absurd hc (by decide)
        · exact absurd hc (by decide)
  | text => exact bareKey?_of_not_isKeyStart rfl

/-- The names of constructors could be keys. -/
theorem isKeyChar_of_mem_constructors :
    ∀ row ∈ constructors, ∀ c ∈ row.1.toList, isKeyChar c = true := by
  have hall : constructors.all (fun row => row.1.toList.all isKeyChar) = true := rfl
  intro row hrow
  exact List.all_eq_true.1 (List.all_eq_true.1 hall row hrow)

/-- A call is no key: a parenthesis follows its name, and a name the word `new`. -/
theorem bareKey?_call {l : Literal} (h : Call s l) (r : List Char) : bareKey? (s ++ r) = none := by
  cases h with
  | plain h =>
    cases h with
    | @mk name form a arg b l hname ha harg hb =>
    have hcut : name.toList ++ '(' :: (a ++ (arg ++ (b ++ [')']))) ++ r =
        name.toList ++ ([] ++ '(' :: (a ++ (arg ++ (b ++ [')'])) ++ r)) := by simp
    rw [hcut]
    exact bareKey?_word (isKeyChar_of_mem_constructors _ hname) blanks_nil
      (stops_cons.2 rfl) (stops_cons.2 rfl)
  | @new a u l ha hne h =>
    obtain ⟨c, w, rfl, hc, -⟩ := h.eq_cons
    have hcut : 'n' :: 'e' :: 'w' :: (a ++ c :: w) ++ r =
        ['n', 'e', 'w'] ++ (a ++ (c :: w ++ r)) := by simp
    rw [hcut]
    refine bareKey?_word (List.all_eq_true.1 rfl) ha ?_ ?_
    · cases a with
      | nil => exact absurd rfl hne
      | cons d a => simpa using isKeyChar_of_isBlank (ha d List.mem_cons_self)
    · have hcolon : c ≠ ':' := by
        rintro rfl
        cases hc
      simpa [isBlank_of_opensCall hc] using hcolon

/-- What opens a value is no blank and no closing bracket. -/
theorem apart_of_opensValue (h : opensValue c = true) :
    isBlank c = false ∧ c ≠ '}' ∧ c ≠ ']' := by
  simp only [opensValue, Bool.or_eq_true, beq_iff_eq] at h
  rcases h with ((((((rfl | rfl) | rfl) | rfl) | rfl) | rfl) | rfl) | h
  iterate 7 exact ⟨rfl, by simp⟩
  · refine ⟨isBlank_of_isDigit h, ?_, ?_⟩ <;>
      · rintro rfl
        cases h

/-- Values without brackets are translated. -/
theorem Kept.atom (hscalar : ∀ s v, Scalar s v → strict s v) : Kept strict (LooseAtom strict) where
  opens s v h := by
    cases h with
    | scalar h =>
      obtain ⟨c, u, rfl, hc⟩ := opens_scalar _ _ h
      exact ⟨c, u, rfl, apart_of_opensValue hc⟩
    | @text q t hq =>
      refine ⟨q, _, rfl, isBlank_of_isQuote hq, ?_, ?_⟩ <;>
        · rintro rfl
          cases hq
    | call h =>
      obtain ⟨c, u, rfl, hc⟩ := h.eq_cons
      refine ⟨c, u, rfl, isBlank_of_opensCall hc, ?_, ?_⟩ <;>
        · rintro rfl
          cases hc
  noKey h hb hr := by
    cases h with
    | scalar h => exact bareKey?_scalar h hb hr
    | @text q t hq =>
      rcases isQuote_iff.1 hq with rfl | rfl <;> exact bareKey?_of_not_isKeyStart rfl
    | call h => exact bareKey?_call h _
  passes h := by
    cases h with
    | scalar h =>
      obtain ⟨out, hout, hpass⟩ := Passes.scalar h
      exact ⟨out, hscalar _ _ hout, hpass⟩
    | text hq =>
      exact ⟨_, hscalar _ _ (.text (content_strictChars _)), fun r => Passes.quotation hq⟩
    | call h hl => exact ⟨_, hl, fun r => Passes.call h⟩

/-- Square brackets are copied around their items. -/
theorem Passes.array (h : ∀ r, atClose r = true → Passes .outside s out .outside r) :
    Passes .outside ('[' :: (s ++ [']'])) ('[' :: (out ++ [']'])) .outside r :=
  .enclosed (w := ['[']) rfl (h _ rfl) (.inr rfl)

/-- A brace, the first key of which is looked for at once. -/
theorem Enters.object (h : Enters s out) {tail : List Char} (htail : Trail tail) :
    Passes .outside ('{' :: (s ++ tail ++ ['}'])) ('{' :: (out ++ ['}'])) .outside r := by
  obtain ⟨w, u, more, rfl, h⟩ := h
  obtain ⟨-, hkey, hpass⟩ := h (tail ++ '}' :: r) (htail.ends rfl)
  have hstep : Dialect.step .outside '{' (s ++ tail ++ '}' :: r) =
      ⟨'{' :: w, .opens, .outside, u ++ tail ++ '}' :: r⟩ := by
    simp [Dialect.step, outsideStep, hkey]
  have hinner : Passes .outside (u ++ tail) more .outside ('}' :: r) := by
    have happend := hpass.append (htail.passes rfl)
    rwa [List.append_nil] at happend
  have hobject := Passes.enclosed hstep hinner (.inl rfl)
  simpa using hobject

/-- The blanks of an object without members are dropped. -/
theorem Passes.emptyObject (hs : Spaces s) :
    Passes .outside ('{' :: (s ++ ['}'])) ['{', '}'] .outside r := by
  have hkey : quoteKey (s ++ '}' :: r) = ([], '}' :: r) :=
    quoteKey_of_noKey (blanks_of_spaces hs) (by simp [isBlank]) (bareKey?_of_not_isKeyStart rfl)
  have hstep : Dialect.step .outside '{' (s ++ '}' :: r) = ⟨['{'], .opens, .outside, '}' :: r⟩ := by
    simp [Dialect.step, outsideStep, hkey]
  exact .enclosed (u := []) hstep .nil (.inl rfl)

/-- Brackets are translated if the values inside of them are. -/
theorem Kept.nested (h : Kept strict core) :
    Kept (Nested strict) (LooseNested (Nested strict) core) where
  opens s v hs := by
    cases hs with
    | atom hs => exact (Kept.atom fun _ _ => .scalar).opens s v hs
    | emptyArray | array => exact ⟨'[', _, rfl, by decide⟩
    | emptyObject | object => exact ⟨'{', _, rfl, by decide⟩
  noKey hs hb hr := by
    cases hs with
    | atom hs => exact (Kept.atom fun _ _ => .scalar).noKey hs hb hr
    | emptyArray | array | emptyObject | object => exact bareKey?_of_not_isKeyStart rfl
  passes hs := by
    cases hs with
    | atom hs => exact (Kept.atom fun _ _ => .scalar).passes hs
    | emptyArray hs => exact ⟨_, .emptyArray hs, fun r => .array fun r _ => .spaces hs⟩
    | array hs =>
      obtain ⟨out, hout, hpass⟩ := h.items hs
      exact ⟨_, .array hout, fun r => .array hpass⟩
    | emptyObject hs => exact ⟨_, .emptyObject spaces_nil, fun r => .emptyObject hs⟩
    | object hs =>
      cases hs with
      | mk hs htail =>
        obtain ⟨out, hout, henter⟩ := Enters.listed hs fun _ _ => h.member
        exact ⟨_, .object hout, fun r => henter.object htail⟩

/-- **The pass translates the dialect to strict JSON of the same depth.** -/
theorem Loose.kept : ∀ depth, Kept (Core depth) (Loose depth)
  | 0 => .atom fun _ _ hs => hs
  | depth + 1 => (Loose.kept depth).nested

/-- **The pass translates the dialect.** The text of a value becomes strict JSON for the same tree,
whatever stands behind it. -/
theorem Loose.passes {depth : Nat} (h : Loose depth s v) :
    ∃ out, Core depth out v ∧ ∀ r, Passes .outside s out .outside r :=
  (Loose.kept depth).passes h

/-- **The pass translates lists.** A list of values that is a whole text becomes a strict one of the
same trees, and is balanced. -/
theorem Loose.normalize_items {depth : Nat} {vs : List Json}
    (h : Trailed (Padded (Loose depth)) s vs) :
    Items (Core depth) (normalize s) vs ∧ isBalanced s = true := by
  obtain ⟨out, hout, hpass⟩ := (Loose.kept depth).items h
  obtain ⟨hnormalize, hbalanced⟩ := (hpass [] rfl).normalize
  rw [hnormalize]
  exact ⟨hout, hbalanced⟩

end

end ShellQuery.Dialect
