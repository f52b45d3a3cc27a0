import ShellQuery.Proofs.Json.Foreign
import ShellQuery.Value.Basic
/-!
# Places of values

A function is a context if it puts what it is given at one place, with always the same trees around
that place. Where a value begins in strict JSON, outside of strings, the text around it is the text
of a context (`holdsValues_items`): other values fill the same place (`Hole`), in the text as in the
tree. Numbers are what may also begin further in front.
-/

namespace ShellQuery

/-! ## Contexts -/

section
variable {α β : Type}

/-- A place in a tree of arrays and objects, as the function that fills it. -/
inductive ContextOf (array : List α → α) (object : List (String × α) → α) : (α → α) → Prop
  | hole : ContextOf array object fun v => v
  | item {f : α → α} (before after : List α) : ContextOf array object f →
      ContextOf array object fun v => array (before ++ f v :: after)
  | field {f : α → α} (before after : List (String × α)) (key : String) :
      ContextOf array object f →
      ContextOf array object fun v => object (before ++ (key, f v) :: after)

/-- A place in one element of a list. -/
inductive ListContext (context : (α → β) → Prop) : (α → List β) → Prop
  | mk {f : α → β} (before after : List β) : context f →
      ListContext context fun v => before ++ f v :: after

/-- A place in the value of a field. -/
inductive FieldContext (context : (α → β) → Prop) : (α → String × β) → Prop
  | mk {f : α → β} (key : String) : context f → FieldContext context fun v => (key, f v)

/-- A place in a tree. -/
abbrev Json.Context : (Json → Json) → Prop :=
  ContextOf Json.array Json.object

/-- A place in a value. -/
abbrev Value.Context : (Value → Value) → Prop :=
  ContextOf Value.array Value.object

end

namespace Json

open Text

/-- The characters that begin values other than strings. -/
def isOpening (c : Char) : Bool :=
  opensValue c && c != '"'

section
variable {α β : Type}

/-- A place between two texts: with any value of a language there, the whole belongs to another
language, and the tree of the value stands at one place of the whole tree. -/
structure Hole (lang : List Char → α → Prop) (context : (Json → α) → Prop) (core : Language)
    (a b : List Char) (f : Json → α) : Prop where
  context : context f
  fills : ∀ t v, core t v → lang (a ++ (t ++ b)) (f v)
  before : Stops isNumeric a.reverse
  behind : Stops isNumeric b

/-- A value begins at a cut of a text, or a number goes over the cut. -/
def ValueAt (lang : List Char → α → Prop) (context : (Json → α) → Prop) (p r : List Char) (x : α) :
    Prop :=
  ∃ d a u v b w f, p = a ++ u ∧ r = v ++ b ∧ v ≠ [] ∧ Core d (u ++ v) w ∧
    (u = [] ∨ ∃ n, Signed (u ++ v) n ∧ w = .number n) ∧ x = f w ∧ Hole lang context (Core d) a b f

/-- There is a value wherever outside of strings stands what begins one. -/
def HoldsValues (lang : List Char → α → Prop) (context : (Json → α) → Prop) : Prop :=
  ∀ s x, lang s x → ∀ p c r, s = p ++ c :: r → isOpening c = true →
    Zone.outside.after p = .outside → ValueAt lang context p (c :: r) x

end

section
variable {α β : Type} {lang : List Char → α → Prop} {lang' : List Char → β → Prop}
  {context : (Json → α) → Prop} {context' : (Json → β) → Prop} {g : α → β} {x : α}
  {s t u v p r : List Char} {c : Char} {depth : Nat}

/-! ## Texts in which no value begins -/

/-- No value begins with a blank. -/
theorem isOpening_of_isSpace (h : isSpace c = true) : isOpening c = false := by
  rcases isSpace_iff.1 h with ((rfl | rfl) | rfl) | rfl <;> rfl

/-- No value begins within blanks. -/
theorem unopened_spaces (h : Spaces s) : Free isOpening s :=
  free_of_forall fun c hc => isOpening_of_isSpace (h c hc)

/-- A last character that is not of a run stops the run from behind. -/
theorem stops_reverse_concat {f : Char → Bool} (h : f c = false) (s : List Char) :
    Stops f (s ++ [c]).reverse := by
  rw [List.reverse_append]
  exact stops_cons.2 h

/-- Blanks stop a number from behind. -/
theorem stops_reverse_of_spaces (h : Spaces s) : Stops isNumeric s.reverse := by
  have hspaces : Spaces s.reverse := fun c hc => h c (List.mem_reverse.1 hc)
  simpa using stops_isNumeric_append hspaces stops_nil

/-- Blanks end a number. -/
theorem stops_of_spaces (h : Spaces s) : Stops isNumeric s := by
  simpa using stops_isNumeric_append h stops_nil

/-! ## Places in longer texts -/

/-- The whole text is the place. -/
theorem valueAt_self {w : Json} (h : Core depth s w) (hne : s ≠ []) :
    ValueAt (Core depth) Context [] s w := by
  refine ⟨depth, [], [], s, [], w, fun v => v, rfl, (List.append_nil s).symm, hne, h, .inl rfl, rfl,
    .hole, fun t v ht => ?_, stops_nil, stops_nil⟩
  rwa [List.nil_append, List.append_nil]

/-- A value at a cut is there too with more text around, of which no numeric character touches it.
-/
theorem ValueAt.extend (h : ValueAt lang context p r x) (hu : Stops isNumeric u.reverse)
    (hv : Stops isNumeric v) (hlang : ∀ s x, lang s x → lang' (u ++ (s ++ v)) (g x))
    (hcontext : ∀ f, context f → context' fun w => g (f w)) :
    ValueAt lang' context' (u ++ p) (r ++ v) (g x) := by
  obtain ⟨d, a, y, z, b, w, f, rfl, rfl, hne, hw, hfront, rfl, hf, hfills, hbefore, hbehind⟩ := h
  refine ⟨d, u ++ a, y, z, b ++ v, w, fun w => g (f w), by simp, by simp, hne, hw, hfront, rfl,
    hcontext f hf, ?_, ?_, ?_⟩
  · intro t w ht
    have hwhole := hlang _ _ (hfills t w ht)
    simpa using hwhole
  · rw [List.reverse_append]
    exact Stops.append (s := []) (by rwa [List.append_nil]) hu
  · exact Stops.append (s := []) (by rwa [List.append_nil]) hv

/-- No value comes with what stands behind a text if none begins there. -/
theorem HoldsValues.extend (h : HoldsValues lang context) (hs : lang s x)
    (hzone : Zone.outside.after s = .outside) (hu : Stops isNumeric u.reverse)
    (hv : Free isOpening v) (hvstop : Stops isNumeric v)
    (hlang : ∀ s x, lang s x → lang' (u ++ (s ++ v)) (g x))
    (hcontext : ∀ f, context f → context' fun w => g (f w)) (hcut : s ++ v = p ++ c :: r)
    (hc : isOpening c = true) (hp : Zone.outside.after p = .outside) :
    ValueAt lang' context' (u ++ p) (c :: r) (g x) := by
  rcases cut_append hcut with ⟨r', rfl, rfl⟩ | ⟨q, rfl, hv'⟩
  · exact (h _ _ hs p c r' rfl hc hp).extend hu hvstop hlang hcontext
  · rw [Zone.after_append, hzone] at hp
    rw [hv q c r hv' hp] at hc
    cases hc

/-- No value comes with what stands around a text if none begins there. -/
theorem HoldsValues.wrap (h : HoldsValues lang context) (hs : lang s x)
    (hzone : Zone.outside.after s = .outside) (hu : Free isOpening u)
    (huzone : Zone.outside.after u = .outside) (hustop : Stops isNumeric u.reverse)
    (hv : Free isOpening v) (hvstop : Stops isNumeric v)
    (hlang : ∀ s x, lang s x → lang' (u ++ (s ++ v)) (g x))
    (hcontext : ∀ f, context f → context' fun w => g (f w)) (hcut : u ++ (s ++ v) = p ++ c :: r)
    (hc : isOpening c = true) (hp : Zone.outside.after p = .outside) :
    ValueAt lang' context' p (c :: r) (g x) := by
  rcases cut_append hcut with ⟨x, hx, -⟩ | ⟨p', rfl, hcut'⟩
  · rw [hu p c x hx hp] at hc
    cases hc
  rw [Zone.after_append, huzone] at hp
  exact h.extend hs hzone hustop hv hvstop hlang hcontext hcut' hc hp

/-! ## Places in strict JSON -/

/-- In a value without brackets there is no other. -/
theorem holdsValues_scalar : HoldsValues (Core 0) Context := by
  intro s w h p c r hcut hc hp
  -- Only the first letter of a word is one that values begin with.
  have hword : ∀ {d t}, s = d :: t → (t.all fun e => !isOpening e) = true →
      ValueAt (Core 0) Context p (c :: r) w := by
    intro d t hs ht
    cases p with
    | nil =>
      have hself := valueAt_self h (hs ▸ List.cons_ne_nil d t)
      rwa [hcut] at hself
    | cons e p =>
      rw [hs, List.cons_append, List.cons.injEq] at hcut
      have hletter := List.all_eq_true.1 ht c (by rw [hcut.2]; simp)
      rw [hc] at hletter
      cases hletter
  cases h with
  | null | true | false => exact hword rfl rfl
  | @number _ n h =>
    refine ⟨0, [], p, c :: r, [], .number n, fun v => v, rfl, (List.append_nil _).symm,
      List.cons_ne_nil c r, hcut ▸ .number h, .inr ⟨n, hcut ▸ h, rfl⟩, rfl, .hole, fun t v ht => ?_,
      stops_nil, stops_nil⟩
    rwa [List.nil_append, List.append_nil]
  | text h =>
    rw [free_string (f := isOpening) rfl h p c r hcut hp] at hc
    cases hc

/-- With blanks around a value, there are those inside of it. -/
theorem HoldsValues.padded (h : HoldsValues lang context) (hf : Followed lang) :
    HoldsValues (Padded lang) context := by
  rintro _ x ⟨ha, hx, hb⟩ p c r hcut hc hp
  exact h.wrap (g := fun x => x) hx (hf.zone hx) (unopened_spaces ha) (Zone.after_spaces ha)
    (stops_reverse_of_spaces ha) (unopened_spaces hb) (stops_of_spaces hb)
    (fun s x hs => .mk ha hs hb) (fun _ hf => hf) hcut hc hp

/-- In a list there are those of its items. -/
theorem HoldsValues.listed (h : HoldsValues lang context) (hf : Followed lang) :
    HoldsValues (Listed lang) (ListContext context) := by
  intro s xs hs
  induction hs with
  | @last s x hx =>
    intro p c r hcut hc hp
    have hone : ValueAt (Listed lang) (ListContext context) ([] ++ p) (c :: r ++ []) [x] :=
      (h s x hx p c r hcut hc hp).extend (g := fun x => [x]) stops_nil stops_nil
        (fun s x hs => by simpa using Listed.last hs) (fun f hf => .mk [] [] hf)
    simpa using hone
  | @more s t x xs hx hxs ih =>
    intro p c r hcut hc hp
    rcases cut_append hcut with ⟨y, rfl, rfl⟩ | ⟨p', rfl, hp'⟩
    · exact (h _ x hx p c y rfl hc hp).extend (u := []) (v := ',' :: t) (g := fun x => x :: xs)
        stops_nil (stops_cons.2 rfl) (fun s x hs => .more hs hxs) (fun f hf => .mk [] xs hf)
    · cases p' with
      | nil =>
        rw [← (List.cons.inj hp').1] at hc
        cases hc
      | cons d p' =>
        obtain ⟨rfl, ht⟩ := List.cons.inj hp'
        rw [Zone.after_append, hf.zone hx] at hp
        have hmore : ValueAt (Listed lang) (ListContext context) (s ++ [','] ++ p') (c :: r ++ [])
            (x :: xs) :=
          (ih p' c r ht hc hp).extend (g := fun xs => x :: xs) (stops_reverse_concat rfl s)
            stops_nil (fun t xs hxs => by simpa using Listed.more hx hxs) <| by
              rintro _ ⟨before, after, hf⟩
              exact .mk (x :: before) after hf
        simpa using hmore

/-- In a member there are those of its value, since its key is a string. -/
theorem HoldsValues.member {core : Language} (h : HoldsValues core Context) (hf : Followed core) :
    HoldsValues (Member core) (FieldContext Context) := by
  rintro _ m ⟨ha, hk, hb, hv⟩ p c r hcut hc hp
  rename_i a k b s t v
  have hcolon : Free isOpening (b ++ [':']) :=
    (unopened_spaces hb).append (Zone.after_spaces hb) (free_singleton rfl)
  have hkey := Zone.after_string hk
  have hfront : Free isOpening (a ++ ('"' :: (k ++ ['"']) ++ (b ++ [':']))) :=
    (unopened_spaces ha).append (Zone.after_spaces ha)
      ((free_string rfl hk).append hkey hcolon)
  have hzone : Zone.outside.after (a ++ ('"' :: (k ++ ['"']) ++ (b ++ [':']))) = .outside := by
    rw [Zone.after_append, Zone.after_spaces ha, Zone.after_append, hkey, Zone.after_append,
      Zone.after_spaces hb]
    rfl
  refine (h.padded hf).wrap (v := []) (g := fun v => (String.ofList t, v)) hv (hf.padded.zone hv)
    hfront hzone ?_ (free_of_forall (by simp)) stops_nil ?_ (fun f hf => .mk _ hf) ?_ hc hp
  · have hend : a ++ ('"' :: (k ++ ['"']) ++ (b ++ [':'])) =
        a ++ ('"' :: (k ++ ['"']) ++ b) ++ [':'] := by simp
    rw [hend]
    exact stops_reverse_concat rfl _
  · intro s v hv
    have hmember : Member core _ (String.ofList t, v) := .mk ha hk hb hv
    simpa using hmember
  · simpa using hcut

/-- In brackets there are those between them, and the one that the bracket begins. -/
theorem HoldsValues.nested (h : HoldsValues (Core depth) Context) :
    HoldsValues (Core (depth + 1)) Context := by
  intro s w hs p c r hcut hc hp
  have hf := followed_core depth
  cases p with
  | nil =>
    subst hcut
    exact valueAt_self hs (List.cons_ne_nil c r)
  | cons o p =>
  have hempty : ∀ {o' d s}, Spaces s → isOpening d = false →
      o' :: (s ++ [d]) ≠ o :: p ++ c :: r := by
    intro o' d s hs hd hcut
    have hmem : c ∈ s ++ [d] := (List.cons.inj hcut).2 ▸ by simp
    rcases List.mem_append.1 hmem with hmem | hmem
    · rw [isOpening_of_isSpace (hs c hmem)] at hc
      cases hc
    · rw [List.mem_singleton.1 hmem, hd] at hc
      cases hc
  have hinner : ∀ {o'}, o' ≠ '"' → o' = o → Zone.outside.after p = .outside := by
    rintro o' hquote rfl
    rwa [Zone.after_cons, Zone.next, if_neg hquote] at hp
  cases hs with
  | scalar hv =>
    have hscalar : ValueAt (Core (depth + 1)) Context ([] ++ o :: p) (c :: r ++ []) w := by
      refine (holdsValues_scalar _ _ hv _ c r hcut hc hp).extend (g := fun v => v) stops_nil
        stops_nil (fun s v hs => ?_) (fun f hf => hf)
      rw [List.nil_append, List.append_nil]
      exact Core.mono (Nat.zero_le _) hs
    simpa using hscalar
  | emptyArray hs => exact absurd hcut (hempty hs rfl)
  | emptyObject hs => exact absurd hcut (hempty hs rfl)
  | array hvs =>
    obtain ⟨ho, htail⟩ := List.cons.inj hcut
    have hfills : ∀ s vs, Items (Core depth) s vs →
        Core (depth + 1) ([o] ++ (s ++ [']'])) (.array vs) :=
      fun s vs hvs => ho ▸ Nested.array hvs
    refine ((h.padded hf).listed hf.padded).extend hvs (hf.padded.listed.zone hvs)
      (stops_cons.2 (ho ▸ rfl)) (free_singleton rfl) (stops_cons.2 rfl) hfills ?_ htail hc
      (hinner (by decide) ho)
    rintro _ ⟨before, after, hf⟩
    exact .item before after hf
  | object hms =>
    obtain ⟨ho, htail⟩ := List.cons.inj hcut
    have hfills : ∀ s ms, Members (Core depth) s ms →
        Core (depth + 1) ([o] ++ (s ++ ['}'])) (.object ms) :=
      fun s ms hms => ho ▸ Nested.object hms
    refine ((h.member hf).listed hf.member).extend hms (hf.member.listed.zone hms)
      (stops_cons.2 (ho ▸ rfl)) (free_singleton rfl) (stops_cons.2 rfl) hfills ?_ htail hc
      (hinner (by decide) ho)
    rintro _ ⟨before, after, ⟨key, hf⟩⟩
    exact .field before after key hf

/-- In strict JSON of any depth there is a value wherever something outside of strings begins one.
-/
theorem holdsValues_core : ∀ depth, HoldsValues (Core depth) Context
  | 0 => holdsValues_scalar
  | depth + 1 => (holdsValues_core depth).nested

/-- **Values have their places.** -/
theorem holdsValues_items (depth : Nat) :
    HoldsValues (Items (Core depth)) (ListContext Context) :=
  ((holdsValues_core depth).padded (followed_core depth)).listed (followed_core depth).padded

/-! ## Empty objects -/

/-- Behind an opening brace the members of an object begin with a blank or a quote. -/
theorem head_of_members {core : Language} {ms : List (String × Json)} (h : Members core s ms) :
    ∃ c ∈ s.head?, isSpace c = true ∨ c = '"' := by
  have hmember : ∀ {s r m}, Member core s m → ∃ c ∈ (s ++ r).head?, isSpace c = true ∨ c = '"' := by
    rintro _ r m ⟨ha, -, -, -⟩
    rename_i a _ _ _ _ _
    cases a with
    | nil => exact ⟨'"', rfl, .inr rfl⟩
    | cons d a => exact ⟨d, rfl, .inl (ha d List.mem_cons_self)⟩
  cases h with
  | last hm => simpa using hmember (r := []) hm
  | more hm => exact hmember hm

/-- A value that begins with an empty object is the empty object. -/
theorem eq_of_core_braces {w : Json} (h : Core depth s w) (hne : s ≠ [])
    (hcut : s ++ t = '{' :: '}' :: r) : 1 ≤ depth ∧ t = r ∧ w = .object [] := by
  obtain ⟨c, s, rfl⟩ := List.exists_cons_of_ne_nil hne
  obtain ⟨rfl, htail⟩ := List.cons.inj hcut
  generalize hs : '{' :: s = x at h
  have hscalar : ¬Scalar x w := by
    rintro (_ | _ | _ | hn | _)
    · cases hs
    · cases hs
    · cases hs
    · have hbrace := hn.isNumeric '{' (hs ▸ List.mem_cons_self)
      cases hbrace
    · cases hs
  cases depth with
  | zero => exact absurd h hscalar
  | succ depth =>
    cases h with
    | scalar h => exact absurd h hscalar
    | emptyArray | array => cases hs
    | @emptyObject y hy =>
      obtain ⟨-, rfl⟩ := List.cons.inj hs
      cases y with
      | nil => exact ⟨Nat.succ_pos depth, (List.cons.inj htail).2, rfl⟩
      | cons d y =>
        obtain ⟨rfl, -⟩ := List.cons.inj htail
        have hspace := hy '}' List.mem_cons_self
        cases hspace
    | @object y ms hms =>
      obtain ⟨-, rfl⟩ := List.cons.inj hs
      obtain ⟨d, hd, hspace⟩ := head_of_members hms
      obtain ⟨y, rfl⟩ := List.head?_eq_some_iff.1 hd
      obtain ⟨rfl, -⟩ := List.cons.inj htail
      rcases hspace with hspace | hspace <;> cases hspace

/-- **Where an empty object stands, any flat value can stand**, at the same place of the trees. -/
theorem exists_hole_of_braces {trees : List Json}
    (h : Items (Core depth) (p ++ '{' :: '}' :: r) trees) (hp : Zone.outside.after p = .outside) :
    ∃ f, ListContext Context f ∧ trees = f (.object []) ∧
      ∀ t v, Core 1 t v → Items (Core depth) (p ++ (t ++ r)) (f v) := by
  obtain ⟨d, a, u, v, b, w, f, rfl, hv, hne, hw, hfront, rfl, hhole⟩ :=
    holdsValues_items depth _ _ h p '{' ('}' :: r) rfl rfl hp
  obtain rfl : u = [] := by
    refine hfront.resolve_right ?_
    rintro ⟨n, hn, -⟩
    have hmem : '{' ∈ v := by
      obtain ⟨c, v, rfl⟩ := List.exists_cons_of_ne_nil hne
      rw [(List.cons.inj hv).1]
      exact List.mem_cons_self
    have hbrace := hn.isNumeric '{' (List.mem_append_right u hmem)
    cases hbrace
  obtain ⟨hd, rfl, rfl⟩ := eq_of_core_braces hw hne hv.symm
  refine ⟨f, hhole.context, rfl, fun t v ht => ?_⟩
  rw [List.append_nil]
  exact hhole.fills t v (Core.mono hd ht)

end

end Json

end ShellQuery
