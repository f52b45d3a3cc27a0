import ShellQuery.Dialect.Constructor
import ShellQuery.Proofs.Decimal
/-!
# The grammar of constructor calls

`Call u l` is the grammar that the recognizer of calls is meant to accept: `u` is the text of a
call, from its name or the word `new` to its closing parenthesis, and `l` the literal it denotes.
`constructor?_eq_some_iff` says that the recognizer finds a call exactly where the text begins with
one, and leaves what stands behind it. So what follows a call has no influence on it.
-/

namespace ShellQuery.Dialect

open Text Decimal

/-- Nothing but blanks. -/
def Blanks (s : List Char) : Prop :=
  ∀ c ∈ s, isBlank c = true

/-- A numeral, bare or in matching quotes. -/
inductive IntegerText : List Char → Numeral → Prop
  | bare {s : List Char} {n : Numeral} : NumeralText s n → IntegerText s n
  | quoted {q : Char} {s : List Char} {n : Numeral} : isQuote q = true → NumeralText s n →
      IntegerText (q :: (s ++ [q])) n

/-- The argument of a call, and the literal the call denotes. -/
inductive Argument : Form → List Char → Literal → Prop
  | identifier {q : Char} {t : List Char} : isQuote q = true → (∀ c ∈ t, isPlain c = true) →
      Argument .identifier (q :: (t ++ [q])) (.identifier t)
  | instant {q : Char} {t : List Char} : isQuote q = true → (∀ c ∈ t, isPlain c = true) →
      Argument .instant (q :: (t ++ [q])) (.instant t)
  | int64 {s : List Char} {n : Numeral} : IntegerText s n → Argument .int64 s (.int64 n)
  | int32 {s : List Char} {n : Numeral} : IntegerText s n → fitsInt32 n.toInt = true →
      Argument .int32 s (.int32 n.toInt)

section
variable {α : Type} (argument : Form → List Char → α → Prop)

/-- A call from its name on, with the arguments of a relation. -/
inductive NamedCall : List Char → α → Prop
  | mk {name : String} {form : Form} {a arg b : List Char} {x : α} :
      (name, form) ∈ constructors → Blanks a → argument form arg x → Blanks b →
      NamedCall (name.toList ++ '(' :: (a ++ (arg ++ (b ++ [')'])))) x

/-- A call, with or without the word `new` and blanks in front of its name. -/
inductive CallOf : List Char → α → Prop
  | plain {u : List Char} {x : α} : NamedCall argument u x → CallOf u x
  | new {a u : List Char} {x : α} : Blanks a → a ≠ [] → NamedCall argument u x →
      CallOf ('n' :: 'e' :: 'w' :: (a ++ u)) x

end

/-- A call and the literal it denotes. -/
abbrev Call : List Char → Literal → Prop :=
  CallOf Argument

section
variable {α : Type} {argument : Form → List Char → α → Prop} {x : α} {s t r u : List Char}
  {l : Literal} {n : Numeral} {q : Char}

/-! ## Blanks -/

@[simp] theorem blanks_nil : Blanks [] := by
  simp [Blanks]

@[simp] theorem blanks_cons {c : Char} : Blanks (c :: s) ↔ isBlank c = true ∧ Blanks s := by
  simp [Blanks]

/-- Blanks are trimmed up to something visible. -/
theorem trimStart_append (hs : Blanks s) (hr : Stops isBlank r) : trimStart (s ++ r) = r :=
  dropWhile_append_stops hs hr

/-- A text is its blanks at the front and what trimming leaves. -/
theorem exists_blanks_trimStart (s : List Char) :
    ∃ a, s = a ++ trimStart s ∧ Blanks a ∧ Stops isBlank (trimStart s) :=
  ⟨s.takeWhile isBlank, List.takeWhile_append_dropWhile.symm, fun _ => List.mem_takeWhile_imp,
    stops_dropWhile _ _⟩

/-- The two quotes. -/
theorem isQuote_iff : isQuote q = true ↔ q = '"' ∨ q = '\'' := by
  simp [isQuote]

/-- A quote is no blank. -/
theorem isBlank_of_isQuote (h : isQuote q = true) : isBlank q = false := by
  rcases isQuote_iff.1 h with rfl | rfl <;> rfl

/-- A quote is no digit. -/
theorem isDigit_of_isQuote (h : isQuote q = true) : q.isDigit = false := by
  rcases isQuote_iff.1 h with rfl | rfl <;> rfl

/-- A quote does not stand in an argument as it is. -/
theorem isPlain_of_isQuote (h : isQuote q = true) : isPlain q = false := by
  simp [isPlain, h]

/-! ## Arguments -/

/-- The text of an integer argument holds a numeral for it. -/
theorem IntegerText.exists_numeralText (h : IntegerText s n) : ∃ u, NumeralText u n := by
  cases h with
  | bare h => exact ⟨_, h⟩
  | quoted _ h => exact ⟨_, h⟩

/-- A quoted run is read up to its closing quote. -/
theorem quoted?_append (hq : isQuote q = true) (ht : ∀ c ∈ t, isPlain c = true) (r : List Char) :
    quoted? (q :: (t ++ [q]) ++ r) = some (t, r) := by
  have hstop : Stops isPlain (q :: r) := by simpa using isPlain_of_isQuote hq
  have hcut : t ++ [q] ++ r = t ++ q :: r := by simp
  rw [List.cons_append, hcut]
  simp [quoted?, dropWhile_append_stops ht hstop, takeWhile_append_stops ht hstop, hq]

/-- What is read as quoted is plain characters between two quotes of a kind. -/
theorem quoted?_eq_some (h : quoted? s = some (t, r)) :
    ∃ q, s = q :: (t ++ [q]) ++ r ∧ isQuote q = true ∧ ∀ c ∈ t, isPlain c = true := by
  unfold quoted? at h
  split at h
  · cases h
  · rename_i q u
    split at h
    · rename_i c x hx
      split at h
      · rename_i hc
        obtain ⟨hq, rfl⟩ := hc
        simp only [Option.some.injEq, Prod.mk.injEq] at h
        obtain ⟨rfl, rfl⟩ := h
        refine ⟨c, ?_, hq, fun _ => List.mem_takeWhile_imp⟩
        have hcut := List.takeWhile_append_dropWhile (p := isPlain) (l := u)
        rw [hx] at hcut
        conv_lhs => rw [← hcut]
        simp
      · cases h
    · cases h

/-- An integer is read up to the first character that is no digit. -/
theorem IntegerText.integer? (h : IntegerText s n) (hr : Stops Char.isDigit r) :
    integer? (s ++ r) = some (n, r) := by
  cases h with
  | bare h =>
    have hread := h.read? hr
    cases s with
    | nil => cases h with | bare hne => exact absurd rfl hne
    | cons c s =>
      have hc : isQuote c = false := by
        cases h with
        | minus | plus => rfl
        | bare _ hds =>
          have hc := hds c List.mem_cons_self
          cases hq : isQuote c with
          | false => rfl
          | true => simp [isDigit_of_isQuote hq] at hc
      simpa [integer?, hc] using hread
  | @quoted q s n hq h =>
    have hread := h.read? (r := q :: r) (by simpa using isDigit_of_isQuote hq)
    simp [integer?, hq, hread]

/-- What is read as an integer argument is the text of one. -/
theorem exists_integerText (h : integer? s = some (n, r)) :
    ∃ u, s = u ++ r ∧ IntegerText u n := by
  obtain ⟨q, t, rfl, hq, hread⟩ | hread := integer?_cases h
  · obtain ⟨u, rfl, hu⟩ := exists_numeralText hread
    exact ⟨q :: (u ++ [q]), by simp, .quoted hq hu⟩
  · obtain ⟨u, hu, hn⟩ := exists_numeralText hread
    exact ⟨u, hu, .bare hn⟩

/-- An argument is read as what it denotes, in front of anything that is no digit. -/
theorem Argument.argument? {form : Form} (h : Argument form s l) (hr : Stops Char.isDigit r) :
    form.argument? (s ++ r) = some (l, r) := by
  cases h with
  | identifier hq ht => simp only [Form.argument?, quoted?_append hq ht, Option.map_some]
  | instant hq ht => simp only [Form.argument?, quoted?_append hq ht, Option.map_some]
  | int64 h => simp [Form.argument?, h.integer? hr]
  | int32 h hfits => simp [Form.argument?, h.integer? hr, hfits]

/-- What is read as an argument of a form is one. -/
theorem exists_argument {form : Form} (h : form.argument? s = some (l, r)) :
    ∃ u, s = u ++ r ∧ Argument form u l := by
  cases form with
  | identifier =>
    simp only [Form.argument?, Option.map_eq_some_iff, Prod.mk.injEq, Prod.exists] at h
    obtain ⟨t, x, h, rfl, rfl⟩ := h
    obtain ⟨q, rfl, hq, ht⟩ := quoted?_eq_some h
    exact ⟨_, rfl, .identifier hq ht⟩
  | instant =>
    simp only [Form.argument?, Option.map_eq_some_iff, Prod.mk.injEq, Prod.exists] at h
    obtain ⟨t, x, h, rfl, rfl⟩ := h
    obtain ⟨q, rfl, hq, ht⟩ := quoted?_eq_some h
    exact ⟨_, rfl, .instant hq ht⟩
  | int64 =>
    simp only [Form.argument?, Option.map_eq_some_iff, Prod.mk.injEq, Prod.exists] at h
    obtain ⟨n, x, h, rfl, rfl⟩ := h
    obtain ⟨u, rfl, hu⟩ := exists_integerText h
    exact ⟨u, rfl, .int64 hu⟩
  | int32 =>
    simp only [Form.argument?, Option.bind_eq_some_iff, Prod.exists] at h
    obtain ⟨n, x, h, hfits⟩ := h
    split at hfits
    · rename_i hn
      simp only [Option.some.injEq, Prod.mk.injEq] at hfits
      obtain ⟨rfl, rfl⟩ := hfits
      obtain ⟨u, rfl, hu⟩ := exists_integerText h
      exact ⟨u, rfl, .int32 hu hn⟩
    · cases hfits

/-- A numeral begins with a quote, a sign or a digit. -/
theorem IntegerText.stops_isBlank (h : IntegerText s n) (r : List Char) :
    Stops isBlank (s ++ r) := by
  have hdigits : ∀ {ds : List Char}, ds ≠ [] → (∀ c ∈ ds, c.isDigit = true) →
      Stops isBlank (ds ++ r) := by
    intro ds hne hds
    cases ds with
    | nil => exact absurd rfl hne
    | cons d ds => simpa using isBlank_of_isDigit (hds d List.mem_cons_self)
  cases h with
  | bare h =>
    cases h with
    | minus | plus => simp [isBlank]
    | bare hne hds => exact hdigits hne hds
  | quoted hq => simpa using isBlank_of_isQuote hq

/-- An argument begins with no blank. -/
theorem Argument.stops_isBlank {form : Form} (h : Argument form s l) (r : List Char) :
    Stops isBlank (s ++ r) := by
  cases h with
  | identifier hq | instant hq => simpa using isBlank_of_isQuote hq
  | int64 h => exact h.stops_isBlank r
  | int32 h => exact h.stops_isBlank r

/-! ## Calls -/

/-- No digit follows the argument of a call. -/
theorem stops_isDigit_of_blanks {b : List Char} (hb : Blanks b) (r : List Char) :
    Stops Char.isDigit (b ++ ')' :: r) := by
  cases b with
  | nil => simp
  | cons c b =>
    cases hc : c.isDigit with
    | false => simpa using hc
    | true => simp [isBlank_of_isDigit hc, blanks_cons] at hb

/-- A call is found in the row of its name. -/
theorem call?_append {name : String} {form : Form} {a arg b : List Char} (ha : Blanks a)
    (harg : Argument form arg l) (hb : Blanks b) (r : List Char) :
    call? name form (name.toList ++ '(' :: (a ++ (arg ++ (b ++ [')']))) ++ r) = some (l, r) := by
  have hclose : Stops isBlank (')' :: r) := by simp [isBlank]
  have hcut : name.toList ++ '(' :: (a ++ (arg ++ (b ++ [')']))) ++ r =
      name.toList ++ '(' :: (a ++ (arg ++ (b ++ ')' :: r))) := by simp
  rw [hcut, call?, List.isPrefixOf?_eq_some_iff_append_eq.2 rfl]
  simp only [trimStart_append ha (harg.stops_isBlank _),
    harg.argument? (stops_isDigit_of_blanks hb r), trimStart_append hb hclose]

/-- What is read as a call of a listed name is one. -/
theorem exists_namedCall {name : String} {form : Form} (hname : (name, form) ∈ constructors)
    (h : call? name form s = some (l, r)) : ∃ u, s = u ++ r ∧ NamedCall Argument u l := by
  unfold call? at h
  split at h
  · rename_i x hx
    have hs := (List.isPrefixOf?_eq_some_iff_append_eq.1 hx).symm
    obtain ⟨a, hxa, ha, -⟩ := exists_blanks_trimStart x
    split at h
    · rename_i l' y harg
      obtain ⟨arg, hxarg, harg⟩ := exists_argument harg
      obtain ⟨b, hyb, hb, -⟩ := exists_blanks_trimStart y
      split at h
      · rename_i z hz
        simp only [Option.some.injEq, Prod.mk.injEq] at h
        obtain ⟨rfl, rfl⟩ := h
        refine ⟨_, ?_, .mk hname ha harg hb⟩
        rw [hz] at hyb
        rw [hs, hxa, hxarg, hyb]
        simp
      · cases h
    · cases h
  · cases h

/-- A name is the run of characters before the first parenthesis, so no other row applies. -/
theorem call?_of_ne {name other : String} {form : Form} (hne : other ≠ name)
    (hname : '(' ∉ name.toList) (hother : '(' ∉ other.toList) (t : List Char) :
    call? other form (name.toList ++ '(' :: t) = none := by
  unfold call?
  split
  · rename_i x hx
    have heq := congrArg (List.takeWhile (· != '('))
      (List.isPrefixOf?_eq_some_iff_append_eq.1 hx).symm
    have hrun : ∀ w : String, '(' ∉ w.toList → ∀ y,
        (w.toList ++ '(' :: y).takeWhile (· != '(') = w.toList := by
      intro w hw y
      refine takeWhile_append_stops (fun c hc => ?_) (by simp)
      simpa using fun h : c = '(' => hw (h ▸ hc)
    rw [hrun name hname, hrun other hother] at heq
    exact absurd (String.toList_inj.1 heq).symm hne
  · rfl

/-- A search of which all finds agree finds what any element gives. -/
theorem findSome?_eq_some_of_agree {α β : Type} {f : α → Option β} {x : β} {rows : List α} {r : α}
    (hmem : r ∈ rows) (hrow : f r = some x)
    (hall : ∀ row ∈ rows, f row = none ∨ f row = some x) : rows.findSome? f = some x := by
  cases hfind : rows.findSome? f with
  | none =>
    rw [List.findSome?_eq_none_iff.1 hfind r hmem] at hrow
    cases hrow
  | some y =>
    obtain ⟨row', hmem', hrow'⟩ := List.exists_of_findSome?_eq_some hfind
    rcases hall row' hmem' with h | h
    · rw [h] at hrow'
      cases hrow'
    · exact hrow'.symm.trans h

/-- No name is listed twice. -/
theorem nodup_constructors : (constructors.map Prod.fst).Nodup := by
  decide

/-- The characters that calls begin with. -/
def opensCall (c : Char) : Bool :=
  c == 'n' || c == 'O' || c == 'I' || c == 'D' || c == 'N'

/-- Every listed name begins with a letter that opens a call, and not with an n. -/
theorem opensCall_of_mem_constructors :
    ∀ row ∈ constructors, row.1.toList.head?.any (fun c => opensCall c && c != 'n') = true := by
  decide

/-- What opens a call is no blank. -/
theorem isBlank_of_opensCall {c : Char} (h : opensCall c = true) : isBlank c = false := by
  simp only [opensCall, Bool.or_eq_true, beq_iff_eq] at h
  rcases h with (((rfl | rfl) | rfl) | rfl) | rfl <;> rfl

/-- No listed name holds a parenthesis. -/
theorem paren_not_mem_constructors : ∀ row ∈ constructors, '(' ∉ row.1.toList := by
  decide

/-- The names differ and hold no parenthesis, so only the row of a name applies to it. -/
theorem findSome?_call? {name : String} {form : Form} (hname : (name, form) ∈ constructors)
    (t : List Char) :
    (constructors.findSome? fun (name', form') => call? name' form' (name.toList ++ '(' :: t)) =
      call? name form (name.toList ++ '(' :: t) := by
  have hrows : ∀ row ∈ constructors, call? row.1 row.2 (name.toList ++ '(' :: t) = none ∨
      call? row.1 row.2 (name.toList ++ '(' :: t) = call? name form (name.toList ++ '(' :: t) := by
    rintro ⟨name', form'⟩ hname'
    by_cases hne : name' = name
    · have hrow := List.inj_on_of_nodup_map nodup_constructors hname' hname hne
      cases hrow
      exact .inr rfl
    · exact .inl (call?_of_ne hne (paren_not_mem_constructors _ hname)
        (paren_not_mem_constructors _ hname') t)
  cases hcall : call? name form (name.toList ++ '(' :: t) with
  | none =>
    refine List.findSome?_eq_none_iff.2 fun row hmem => ?_
    rcases hrows row hmem with h | h
    · exact h
    · exact h.trans hcall
  | some found =>
    exact findSome?_eq_some_of_agree (r := (name, form)) hname hcall fun row hmem =>
      hcall ▸ hrows row hmem

/-- No constructor's name begins like the word `new`. -/
theorem NamedCall.eq_cons (h : NamedCall argument u x) :
    ∃ c v, u = c :: v ∧ opensCall c = true ∧ c ≠ 'n' := by
  cases h with
  | @mk name form a arg b x hname ha harg hb =>
  have hopens := opensCall_of_mem_constructors _ hname
  revert hopens
  cases name.toList with
  | nil => exact fun hopens => absurd hopens (by simp)
  | cons c v =>
    intro hopens
    simp only [List.head?_cons, Option.any_some, Bool.and_eq_true, bne_iff_ne] at hopens
    exact ⟨c, _, rfl, hopens⟩

/-- A text that does not begin with an n has no `new` in front. -/
theorem afterNew_of_head_ne (h : s.head? ≠ some 'n') : afterNew s = s := by
  have hnew : "new".toList.isPrefixOf? s = none := by
    refine Option.eq_none_iff_forall_ne_some.2 fun r hr => h ?_
    rw [← List.isPrefixOf?_eq_some_iff_append_eq.1 hr]
    rfl
  rw [afterNew, hnew]

/-- A `new` is passed over with the blanks behind it. -/
theorem afterNew_new {a : List Char} (ha : Blanks a) (hne : a ≠ []) (hr : Stops isBlank r) :
    afterNew ('n' :: 'e' :: 'w' :: (a ++ r)) = r := by
  have hnew : "new".toList.isPrefixOf? ('n' :: 'e' :: 'w' :: (a ++ r)) = some (a ++ r) :=
    List.isPrefixOf?_eq_some_iff_append_eq.2 rfl
  cases a with
  | nil => exact absurd rfl hne
  | cons c a =>
    rw [blanks_cons] at ha
    rw [List.cons_append] at hnew
    rw [afterNew, List.cons_append, hnew]
    simp only [ha.1, if_true]
    exact trimStart_append ha.2 hr

/-- Nothing is passed over, or a `new` and blanks. -/
theorem afterNew_cases (s : List Char) :
    afterNew s = s ∨ ∃ a, s = 'n' :: 'e' :: 'w' :: (a ++ afterNew s) ∧ Blanks a ∧ a ≠ [] := by
  unfold afterNew
  split
  · rename_i c x hx
    split
    · rename_i hc
      obtain ⟨a, hxa, ha, -⟩ := exists_blanks_trimStart x
      refine .inr ⟨c :: a, ?_, by simp [hc, ha], by simp⟩
      rw [← List.isPrefixOf?_eq_some_iff_append_eq.1 hx, List.cons_append, ← hxa]
      rfl
    · exact .inl rfl
  · exact .inl rfl

/-- A call denotes what its argument does. -/
theorem CallOf.exists_argument (h : CallOf argument u x) : ∃ form s, argument form s x := by
  cases h with
  | plain h =>
    obtain ⟨-, -, harg, -⟩ := h
    exact ⟨_, _, harg⟩
  | new _ _ h =>
    obtain ⟨-, -, harg, -⟩ := h
    exact ⟨_, _, harg⟩

/-- Behind the word `new` a call goes on with its name. -/
theorem CallOf.exists_afterNew (h : CallOf argument u x) (r : List Char) :
    ∃ v, afterNew (u ++ r) = v ++ r ∧ NamedCall argument v x := by
  cases h with
  | plain h =>
    obtain ⟨c, v, rfl, -, hc⟩ := h.eq_cons
    exact ⟨c :: v, afterNew_of_head_ne (by simpa using hc), h⟩
  | @new a v _ ha hne h =>
    obtain ⟨c, w, rfl, hopens, -⟩ := h.eq_cons
    have hstop : Stops isBlank (c :: w ++ r) := by simpa using isBlank_of_opensCall hopens
    have hcut : 'n' :: 'e' :: 'w' :: (a ++ (c :: w)) ++ r =
        'n' :: 'e' :: 'w' :: (a ++ (c :: w ++ r)) := by simp
    exact ⟨c :: w, by rw [hcut, afterNew_new ha hne hstop], h⟩

/-- Which call the recognizer finds depends on the argument behind its name only. -/
theorem CallOf.constructor?_eq (h : CallOf argument u x) (r : List Char) :
    ∃ name form a arg b, Blanks a ∧ argument form arg x ∧ Blanks b ∧
      constructor? (u ++ r) =
        call? name form (name.toList ++ '(' :: (a ++ (arg ++ (b ++ [')']))) ++ r) := by
  obtain ⟨v, hv, hcall⟩ := h.exists_afterNew r
  cases hcall with
  | @mk name form a arg b x hname ha harg hb =>
  refine ⟨name, form, a, arg, b, ha, harg, hb, ?_⟩
  rw [constructor?, hv, List.append_assoc, List.cons_append]
  exact findSome?_call? hname _

/-- **The recognizer accepts the grammar of calls.** It finds a call exactly where the text begins
with one, and leaves the text behind it. -/
theorem constructor?_eq_some_iff : constructor? s = some (l, r) ↔ ∃ u, s = u ++ r ∧ Call u l := by
  refine ⟨?_, ?_⟩
  · intro h
    obtain ⟨⟨name, form⟩, hname, h⟩ := List.exists_of_findSome?_eq_some h
    obtain ⟨u, hu, hcall⟩ := exists_namedCall hname h
    rcases afterNew_cases s with hs | ⟨a, hs, ha, hne⟩
    · exact ⟨u, hs ▸ hu, .plain hcall⟩
    · refine ⟨'n' :: 'e' :: 'w' :: (a ++ u), ?_, .new ha hne hcall⟩
      rw [hs, hu]
      simp
  · rintro ⟨u, rfl, h⟩
    obtain ⟨name, form, a, arg, b, ha, harg, hb, hcall⟩ := h.constructor?_eq r
    exact hcall.trans (call?_append ha harg hb r)

/-- No call is found for a number that does not fit. -/
theorem call?_eq_none_of_not_fits {name : String} {a arg b : List Char} (ha : Blanks a)
    (harg : IntegerText arg n) (hfits : fitsInt32 n.toInt = false) (hb : Blanks b)
    (r : List Char) :
    call? name .int32 (name.toList ++ '(' :: (a ++ (arg ++ (b ++ [')']))) ++ r) = none := by
  have hargument : Form.argument? .int32 (arg ++ (b ++ ')' :: r)) = none := by
    rw [Form.argument?, harg.integer? (stops_isDigit_of_blanks hb r), Option.bind_some]
    simp [hfits]
  have hcut : name.toList ++ '(' :: (a ++ (arg ++ (b ++ [')']))) ++ r =
      name.toList ++ '(' :: (a ++ (arg ++ (b ++ ')' :: r))) := by simp
  rw [hcut, call?, List.isPrefixOf?_eq_some_iff_append_eq.2 rfl]
  simp only [trimStart_append ha (harg.stops_isBlank _), hargument]

/-- What follows a call has no influence on it. -/
theorem constructor?_append (h : Call u l) (r : List Char) : constructor? (u ++ r) = some (l, r) :=
  constructor?_eq_some_iff.2 ⟨u, rfl, h⟩

/-- A call begins with a character that opens calls. -/
theorem CallOf.eq_cons (h : CallOf argument u x) : ∃ c v, u = c :: v ∧ opensCall c = true := by
  cases h with
  | plain h =>
    obtain ⟨c, v, rfl, hc, -⟩ := h.eq_cons
    exact ⟨c, v, rfl, hc⟩
  | new => exact ⟨'n', _, rfl, rfl⟩

/-- No call is found at a character that opens none. -/
theorem constructor?_eq_none {c : Char} (h : opensCall c = false) :
    constructor? (c :: s) = none := by
  cases hfound : constructor? (c :: s) with
  | none => rfl
  | some found =>
    obtain ⟨u, hu, hcall⟩ := constructor?_eq_some_iff.1 hfound
    obtain ⟨d, v, rfl, hd⟩ := hcall.eq_cons
    simp only [List.cons_append, List.cons.injEq] at hu
    rw [← hu.1, h] at hd
    cases hd

/-- An `n` that no `e` follows is no call either. -/
theorem constructor?_n {c : Char} (h : c ≠ 'e') : constructor? ('n' :: c :: s) = none := by
  cases hfound : constructor? ('n' :: c :: s) with
  | none => rfl
  | some found =>
    obtain ⟨u, hu, hcall⟩ := constructor?_eq_some_iff.1 hfound
    cases hcall with
    | plain hcall =>
      obtain ⟨d, v, rfl, -, hd⟩ := hcall.eq_cons
      simp only [List.cons_append, List.cons.injEq] at hu
      exact absurd hu.1.symm hd
    | new =>
      simp only [List.cons_append, List.cons.injEq] at hu
      exact absurd hu.2.1 h

end

end ShellQuery.Dialect
