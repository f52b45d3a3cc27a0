import ShellQuery.Json.Reader
import ShellQuery.Proofs.Json.Content
import ShellQuery.Proofs.Json.Numeral
/-!
# The grammar of JSON

What the reader accepts, said without the reader. `Core d` relates the text of a value, without
blanks around it, to the tree it writes, with at most `d` brackets inside each other; `Written d`
allows blanks around. The tree keeps repeated keys, each with its own value; `merged` is what the
reader makes of it. Like the reader, the grammar descends by recursion on the depth: the language of
the values one level down (`core`) is a parameter of everything between two brackets.
-/

namespace ShellQuery.Json

open Text

/-! ## Trees and their parts -/

/-- Induction over trees. -/
@[elab_as_elim]
theorem induct {P : Json → Prop} (null : P .null) (bool : ∀ b, P (.bool b))
    (number : ∀ n, P (.number n)) (text : ∀ s, P (.text s))
    (array : ∀ items, (∀ v ∈ items, P v) → P (.array items))
    (object : ∀ fields, (∀ m ∈ fields, P m.2) → P (.object fields)) (v : Json) : P v :=
  @Json.rec P (fun items => ∀ v ∈ items, P v) (fun fields => ∀ m ∈ fields, P m.2) (fun m => P m.2)
    null bool number text array object nofun
    (fun _ _ hv hmore => List.forall_mem_cons.2 ⟨hv, hmore⟩) nofun
    (fun _ _ hm hmore => List.forall_mem_cons.2 ⟨hm, hmore⟩) (fun _ _ hv => hv) v

/-- `Part w v` says that `w` is `v` or stands anywhere inside of it. -/
inductive Part (w : Json) : Json → Prop
  | self : Part w w
  | item {v : Json} {items : List Json} : v ∈ items → Part w v → Part w (.array items)
  | field {m : String × Json} {fields : List (String × Json)} : m ∈ fields → Part w m.2 →
      Part w (.object fields)

/-! ## Trees with repeated keys -/

mutual

/-- What is left of a tree when of repeated keys the last value counts, at the first one's place. -/
def merged : Json → Json
  | .null => .null
  | .bool b => .bool b
  | .number n => .number n
  | .text s => .text s
  | .array items => .array (mergedItems items)
  | .object fields => .object (Fields.merge (mergedFields fields))

/-- `merged` over the items of an array. -/
def mergedItems : List Json → List Json
  | [] => []
  | v :: more => v.merged :: mergedItems more

/-- `merged` over the fields of an object. -/
def mergedFields : List (String × Json) → List (String × Json)
  | [] => []
  | (key, v) :: more => (key, v.merged) :: mergedFields more

end

/-- `mergedItems` in the natural per-element form. -/
theorem mergedItems_eq_map (items : List Json) : mergedItems items = items.map merged := by
  induction items with
  | nil => rfl
  | cons v more ih => rw [mergedItems, ih, List.map_cons]

/-- What `merged` makes of one field. -/
def mergedMember (m : String × Json) : String × Json :=
  (m.1, m.2.merged)

/-- `mergedFields` in the natural per-element form. -/
theorem mergedFields_eq_map (fields : List (String × Json)) :
    mergedFields fields = fields.map mergedMember := by
  induction fields with
  | nil => rfl
  | cons field more ih => rw [mergedFields, ih, List.map_cons, mergedMember]

/-! ## The grammar -/

/-- Texts, and the trees they write. -/
abbrev Language := List Char → Json → Prop

/-- Nothing but blanks of JSON. -/
def Spaces (s : List Char) : Prop :=
  ∀ c ∈ s, isSpace c = true

/-- A number with its sign. -/
inductive Signed : List Char → Number → Prop
  | negative {s : List Char} {n : Number} : startsWithDigit s = true →
      ReadsAs (readNumber true) s n → Signed ('-' :: s) n
  | positive {s : List Char} {n : Number} : startsWithDigit s = true →
      ReadsAs (readNumber false) s n → Signed s n

/-- A value that holds no other ones. -/
inductive Scalar : Language
  | null : Scalar ['n', 'u', 'l', 'l'] .null
  | true : Scalar ['t', 'r', 'u', 'e'] (.bool true)
  | false : Scalar ['f', 'a', 'l', 's', 'e'] (.bool false)
  | number {s : List Char} {n : Number} : Signed s n → Scalar s (.number n)
  | text {s t : List Char} : Content s t → Scalar ('"' :: (s ++ ['"'])) (.text (String.ofList t))

/-- One item or more, with commas between them. -/
inductive Listed {α : Type} (item : List Char → α → Prop) : List Char → List α → Prop
  | last {s : List Char} {x : α} : item s x → Listed item s [x]
  | more {s r : List Char} {x : α} {xs : List α} : item s x → Listed item r xs →
      Listed item (s ++ ',' :: r) (x :: xs)

/-- A text with blanks around it. -/
inductive Padded {α : Type} (core : List Char → α → Prop) : List Char → α → Prop
  | mk {a s b : List Char} {x : α} : Spaces a → core s x → Spaces b →
      Padded core (a ++ (s ++ b)) x

section
variable (core : Language)

/-- A key, a colon and a value. -/
inductive Member : List Char → String × Json → Prop
  | mk {a k b s t : List Char} {v : Json} : Spaces a → Content k t → Spaces b → Padded core s v →
      Member (a ++ '"' :: (k ++ '"' :: (b ++ ':' :: s))) (String.ofList t, v)

/-- The items between two square brackets. -/
abbrev Items : List Char → List Json → Prop :=
  Listed (Padded core)

/-- The members between two braces. -/
abbrev Members : List Char → List (String × Json) → Prop :=
  Listed (Member core)

/-- A value, the values inside of which belong to the language one level down. -/
inductive Nested : Language
  | scalar {s : List Char} {v : Json} : Scalar s v → Nested s v
  | emptyArray {s : List Char} : Spaces s → Nested ('[' :: (s ++ [']'])) (.array [])
  | array {s : List Char} {vs : List Json} : Items core s vs →
      Nested ('[' :: (s ++ [']'])) (.array vs)
  | emptyObject {s : List Char} : Spaces s → Nested ('{' :: (s ++ ['}'])) (.object [])
  | object {s : List Char} {ms : List (String × Json)} : Members core s ms →
      Nested ('{' :: (s ++ ['}'])) (.object ms)

end

/-- A value with at most so many brackets inside each other. -/
def Core : (depth : Nat) → Language
  | 0 => Scalar
  | depth + 1 => Nested (Core depth)

/-- A value with blanks around it and at most so many brackets inside each other. -/
def Written (depth : Nat) : Language :=
  Padded (Core depth)

/-! ## Blanks -/

section
variable {s r : List Char} {c : Char}

@[simp] theorem spaces_nil : Spaces [] := by
  simp [Spaces]

@[simp] theorem spaces_cons : Spaces (c :: s) ↔ isSpace c = true ∧ Spaces s := by
  simp [Spaces]

/-- The four blanks of JSON. -/
theorem isSpace_iff : isSpace c = true ↔ ((c = ' ' ∨ c = '\n') ∨ c = '\t') ∨ c = '\r' := by
  simp [isSpace]

/-- What is taken as blanks is blanks. -/
theorem spaces_takeWhile (s : List Char) : Spaces (s.takeWhile isSpace) :=
  fun _ => List.mem_takeWhile_imp

/-- A text is its blanks at the front and the text behind them. -/
theorem takeWhile_append_skipSpace (s : List Char) : s.takeWhile isSpace ++ skipSpace s = s :=
  List.takeWhile_append_dropWhile

/-- Skipping drops the blanks in front of anything else. -/
theorem skipSpace_append (hs : Spaces s) (hr : Stops isSpace r) : skipSpace (s ++ r) = r :=
  dropWhile_append_stops hs hr

/-- Nothing is left of blanks. -/
theorem skipSpace_of_spaces (hs : Spaces s) : skipSpace s = [] := by
  simpa using skipSpace_append (r := []) hs stops_nil

/-- No blank goes on with a number. -/
theorem isNumeric_of_isSpace (h : isSpace c = true) : isNumeric c = false := by
  rcases isSpace_iff.1 h with ((rfl | rfl) | rfl) | rfl <;> rfl

/-- No numeric character is a blank. -/
theorem isSpace_of_isNumeric (h : isNumeric c = true) : isSpace c = false := by
  cases hc : isSpace c with
  | false => rfl
  | true =>
    rw [isNumeric_of_isSpace hc] at h
    cases h

/-- Blanks end a number, and so does what stands behind them. -/
theorem stops_isNumeric_append (hs : Spaces s) (hr : Stops isNumeric r) :
    Stops isNumeric (s ++ r) := by
  cases s with
  | nil => exact hr
  | cons c s => simpa using isNumeric_of_isSpace (hs c List.mem_cons_self)

end

/-! ## How values begin -/

/-- The characters that values begin with. -/
def opensValue (c : Char) : Bool :=
  c == 'n' || c == 't' || c == 'f' || c == '"' || c == '[' || c == '{' || c == '-' || c.isDigit

/-- A value begins with a character that nothing else begins with. -/
def Opens (core : Language) : Prop :=
  ∀ s v, core s v → ∃ c r, s = c :: r ∧ opensValue c = true

/-- A digit begins a value. -/
theorem opensValue_of_isDigit {c : Char} (h : c.isDigit = true) : opensValue c = true := by
  simp [opensValue, h]

/-- No value begins with a blank. -/
theorem isSpace_of_opensValue {c : Char} (h : opensValue c = true) : isSpace c = false := by
  cases hc : isSpace c with
  | false => rfl
  | true =>
    rcases isSpace_iff.1 hc with ((rfl | rfl) | rfl) | rfl <;> cases h

/-- A text that starts with a digit has one in front. -/
theorem startsWithDigit_eq_true {s : List Char} (h : startsWithDigit s = true) :
    ∃ c r, s = c :: r ∧ c.isDigit = true := by
  cases s with
  | nil => cases h
  | cons c r => exact ⟨c, r, rfl, h⟩

/-- Words, numbers and strings begin as values do. -/
theorem opens_scalar : Opens Scalar := by
  intro s v h
  cases h with
  | null => exact ⟨'n', _, rfl, rfl⟩
  | true => exact ⟨'t', _, rfl, rfl⟩
  | false => exact ⟨'f', _, rfl, rfl⟩
  | number h =>
    cases h with
    | negative => exact ⟨'-', _, rfl, rfl⟩
    | positive hd =>
      obtain ⟨c, r, rfl, hc⟩ := startsWithDigit_eq_true hd
      exact ⟨c, r, rfl, opensValue_of_isDigit hc⟩
  | text => exact ⟨'"', _, rfl, rfl⟩

/-- A value with brackets begins as values do. -/
theorem opens_nested (core : Language) : Opens (Nested core) := by
  intro s v h
  cases h with
  | scalar h => exact opens_scalar s v h
  | emptyArray | array => exact ⟨'[', _, rfl, rfl⟩
  | emptyObject | object => exact ⟨'{', _, rfl, rfl⟩

/-- A value of any depth begins as values do. -/
theorem opens_core : ∀ depth, Opens (Core depth)
  | 0 => opens_scalar
  | depth + 1 => opens_nested (Core depth)

/-- A list of values in strict JSON begins with a blank or with what opens a value. -/
theorem head_of_items {depth : Nat} {s : List Char} {trees : List Json}
    (h : Items (Core depth) s trees) : ∃ c ∈ s.head?, isSpace c = true ∨ opensValue c = true := by
  have hpadded : ∀ {s r : List Char} {w : Json}, Padded (Core depth) s w →
      ∃ c ∈ (s ++ r).head?, isSpace c = true ∨ opensValue c = true := by
    rintro _ r w ⟨ha, hw, -⟩
    rename_i a s b
    obtain ⟨c, u, rfl, hc⟩ := opens_core depth s w hw
    cases a with
    | nil => exact ⟨c, rfl, .inr hc⟩
    | cons d a => exact ⟨d, rfl, .inl (ha d List.mem_cons_self)⟩
  cases h with
  | last hw => simpa using hpadded (r := []) hw
  | more hw => exact hpadded hw

/-- An integer of 64 bits is written in decimal. -/
theorem signed_ofInt {i : Int} (hmin : -2 ^ 63 ≤ i) (hmax : i < 2 ^ 64) :
    Signed (Decimal.ofInt i) (.int i) := by
  have hdigits : startsWithDigit (Decimal.ofNat i.natAbs) = true := by
    cases hof : Decimal.ofNat i.natAbs with
    | nil => exact absurd hof (Decimal.ofNat_ne_nil _)
    | cons c s => exact Decimal.isDigit_of_mem_ofNat (hof ▸ List.mem_cons_self)
  have hbound : i.natAbs ≤ maxUInt64 := by
    rw [maxUInt64]
    omega
  by_cases hi : i < 0
  · have hread : ReadsAs (readNumber true) _ _ := readNumber_ofNat hbound
    have hint : Number.ofDigits true i.natAbs = .int i := by
      have hzero : ¬(i.natAbs = 0 ∨ 0x8000000000000000 < i.natAbs) := by omega
      rw [Number.ofDigits, if_pos rfl, if_neg hzero]
      congr 1
      omega
    rw [Decimal.ofInt, if_pos hi]
    exact .negative hdigits (hint ▸ hread)
  · have hread : ReadsAs (readNumber false) _ _ := readNumber_ofNat hbound
    have hint : Number.ofDigits false i.natAbs = .int i := by
      rw [Number.ofDigits, if_neg Bool.false_ne_true]
      congr 1
      omega
    rw [Decimal.ofInt, if_neg hi]
    exact .positive hdigits (hint ▸ hread)

/-! ## More depth admits more values -/

section
variable {core core' : Language} {s : List Char}

/-- More items make for more lists of them. -/
theorem Listed.mono {α : Type} {item item' : List Char → α → Prop}
    (h : ∀ s x, item s x → item' s x) {xs : List α} (hs : Listed item s xs) :
    Listed item' s xs := by
  induction hs with
  | last hx => exact .last (h _ _ hx)
  | more hx _ ih => exact .more (h _ _ hx) ih

/-- Two lists with a comma between them are a list of all items. -/
theorem Listed.append {α : Type} {item : List Char → α → Prop} {r : List Char} {xs ys : List α}
    (hs : Listed item s xs) (hr : Listed item r ys) : Listed item (s ++ ',' :: r) (xs ++ ys) := by
  induction hs with
  | last hx => exact .more hx hr
  | more hx _ ih =>
    rw [List.append_assoc, List.cons_append, List.cons_append]
    exact .more hx ih

/-- A character that every item has stands in the whole. -/
theorem Listed.exists_mem {α : Type} {item : List Char → α → Prop} {p : Char → Prop}
    (h : ∀ s x, item s x → ∃ c ∈ s, p c) {xs : List α} (hs : Listed item s xs) : ∃ c ∈ s, p c := by
  cases hs with
  | last hx => exact h _ _ hx
  | more hx _ =>
    obtain ⟨c, hmem, hc⟩ := h _ _ hx
    exact ⟨c, List.mem_append_left _ hmem, hc⟩

/-- More values make for more values with blanks around them. -/
theorem Padded.mono {α : Type} {core core' : List Char → α → Prop}
    (h : ∀ s x, core s x → core' s x) {x : α} (hs : Padded core s x) : Padded core' s x := by
  obtain ⟨ha, hx, hb⟩ := hs
  exact ⟨ha, h _ _ hx, hb⟩

/-- No blanks need to stand around a text. -/
theorem Padded.of_core {α : Type} {core : List Char → α → Prop} {x : α} (h : core s x) :
    Padded core s x := by
  simpa using Padded.mk (a := []) (b := []) spaces_nil h spaces_nil

/-- More values make for more members. -/
theorem Member.mono (h : ∀ s v, core s v → core' s v) {m : String × Json} (hs : Member core s m) :
    Member core' s m := by
  obtain ⟨ha, hk, hb, hv⟩ := hs
  exact ⟨ha, hk, hb, hv.mono h⟩

/-- More values inside make for more values. -/
theorem Nested.mono (h : ∀ s v, core s v → core' s v) {v : Json} (hs : Nested core s v) :
    Nested core' s v := by
  cases hs with
  | scalar hv => exact .scalar hv
  | emptyArray hb => exact .emptyArray hb
  | array hv => exact .array (hv.mono fun _ _ => Padded.mono h)
  | emptyObject hb => exact .emptyObject hb
  | object hv => exact .object (hv.mono fun _ _ => Member.mono h)

/-- One more level is allowed. -/
theorem Core.succ : ∀ {depth : Nat} {s : List Char} {v : Json}, Core depth s v →
    Core (depth + 1) s v
  | 0, _, _, h => .scalar h
  | _ + 1, _, _, h => Nested.mono (fun _ _ => Core.succ) h

/-- What is no deeper than one depth is no deeper than a greater one. -/
theorem Core.mono {d e : Nat} (hde : d ≤ e) {v : Json} (h : Core d s v) : Core e s v := by
  induction hde with
  | refl => exact h
  | step _ ih => exact ih.succ

/-! ## Brackets -/

/-- No blanks stand outside of the brackets of a text that begins and ends with one. -/
theorem written_array_iff {depth : Nat} {v : Json} :
    Written (depth + 1) ('[' :: (s ++ [']'])) v ↔
      (Spaces s ∧ v = .array []) ∨ ∃ vs, Items (Core depth) s vs ∧ v = .array vs := by
  refine ⟨?_, ?_⟩
  · intro h
    generalize ht : '[' :: (s ++ [']']) = t at h
    cases h with
    | @mk a u b v ha hv hb =>
    have hanil : a = [] := by
      cases a with
      | nil => rfl
      | cons c a =>
        simp only [List.cons_append, List.cons.injEq] at ht
        have hc := ha c List.mem_cons_self
        rw [← ht.1] at hc
        cases hc
    have hbnil : b = [] := by
      rcases List.eq_nil_or_concat b with rfl | ⟨b, c, rfl⟩
      · rfl
      · have hlast := congrArg List.getLast? ht
        have hc := hb c (by simp)
        simp only [List.concat_eq_append, ← List.append_assoc, List.getLast?_append,
          ← List.cons_append, List.getLast?_singleton, Option.some_or, Option.some.injEq] at hlast
        rw [← hlast] at hc
        cases hc
    subst hanil hbnil
    rw [List.nil_append, List.append_nil] at ht
    have hinner : ∀ x, '[' :: (s ++ [']']) = '[' :: (x ++ [']']) → s = x := by
      intro x hx
      simpa using hx
    cases hv with
    | scalar hv =>
      subst ht
      cases hv with
      | number hv =>
        cases hv with
        | positive hd => cases hd
    | @emptyArray x hx =>
      cases hinner x ht
      exact .inl ⟨hx, rfl⟩
    | @array x vs hx =>
      cases hinner x ht
      exact .inr ⟨vs, hx, rfl⟩
    | emptyObject | object => cases ht
  · have hpad : Nested (Core depth) ('[' :: (s ++ [']'])) v →
        Written (depth + 1) ('[' :: (s ++ [']'])) v := by
      intro hv
      have hw : Written (depth + 1) ([] ++ ('[' :: (s ++ [']']) ++ [])) v :=
        .mk spaces_nil hv spaces_nil
      rwa [List.nil_append, List.append_nil] at hw
    rintro (⟨hs, rfl⟩ | ⟨vs, hs, rfl⟩)
    · exact hpad (.emptyArray hs)
    · exact hpad (.array hs)

end

end ShellQuery.Json
