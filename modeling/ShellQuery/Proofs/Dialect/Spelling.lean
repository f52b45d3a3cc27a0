import ShellQuery.Proofs.Dialect.Grammar
import ShellQuery.Proofs.Value.StandsFor
/-!
# Spellings of values

`Spelled depth s v` relates a text of the dialect to the typed value that whoever wrote it had in
mind, without a word about trees: strings stand in quotes of either kind, keys also bare,
identifiers, instants and integers in calls of any form, blanks wherever the dialect has them, and
commas behind last items. Whatever the choices are, the text writes a tree that stands for the
value, and the tree goes as deep as the value (`Spelled.hasTree`).
-/

namespace ShellQuery.Dialect

open Text Json Decimal

/-! ## The grammar -/

/-- The argument of a call for a value. The digits of an identifier may be of either case, and a
numeral may have a sign and begin with zeros. -/
inductive SpelledArgument : Form → List Char → Value → Prop
  | identifier {q : Char} {t : List Char} {id : ObjectId} : isQuote q = true →
      t.map Char.toLower = id.hex.toList →
      SpelledArgument .identifier (q :: (t ++ [q])) (.identifier id)
  | instant {q : Char} {t : Instant} : isQuote q = true →
      SpelledArgument .instant (q :: (t.canonical ++ [q])) (.instant t)
  | int64 {s : List Char} {n : Numeral} {i : Int64} : IntegerText s n → n.toInt = i.toInt →
      SpelledArgument .int64 s (.int64 i)
  | int32 {s : List Char} {n : Numeral} : IntegerText s n → -2 ^ 31 ≤ n.toInt → n.toInt < 2 ^ 31 →
      SpelledArgument .int32 s (.number (.int n.toInt))

/-- The spellings of a value that is not written with brackets. -/
inductive SpelledAtom : List Char → Value → Prop
  | null : SpelledAtom ['n', 'u', 'l', 'l'] .null
  | true : SpelledAtom ['t', 'r', 'u', 'e'] (.bool true)
  | false : SpelledAtom ['f', 'a', 'l', 's', 'e'] (.bool false)
  | integer {i : Int} : -2 ^ 63 ≤ i → i < 2 ^ 64 → SpelledAtom (ofInt i) (.number (.int i))
  | text {q : Char} {t : List Char} : isQuote q = true →
      SpelledAtom (quotation q t) (.text (String.ofList t))
  | strictText {s t : List Char} : Content s t →
      SpelledAtom ('"' :: (s ++ ['"'])) (.text (String.ofList t))
  | call {s : List Char} {v : Value} : CallOf SpelledArgument s v → SpelledAtom s v

section
variable (core : List Char → Value → Prop)

/-- The spellings of a value, with those of the values inside of it given. The keys of an object
differ, and it is not one that would be taken for a tagged value. -/
inductive SpelledNested : List Char → Value → Prop
  | atom {s : List Char} {v : Value} : SpelledAtom s v → SpelledNested s v
  | emptyArray {s : List Char} : Spaces s → SpelledNested ('[' :: (s ++ [']'])) (.array [])
  | array {s : List Char} {vs : List Value} : Trailed (Padded core) s vs →
      SpelledNested ('[' :: (s ++ [']'])) (.array vs)
  | emptyObject {s : List Char} : Spaces s → SpelledNested ('{' :: (s ++ ['}'])) (.object [])
  | object {s : List Char} {fields : List (String × Value)} :
      Trailed (LooseMember core) s fields → (Fields.keys fields).Nodup → Value.Untagged fields →
      SpelledNested ('{' :: (s ++ ['}'])) (.object fields)

end

/-- The spellings of a value in at most so many brackets. -/
def Spelled : (depth : Nat) → List Char → Value → Prop
  | 0 => SpelledAtom
  | depth + 1 => SpelledNested (Spelled depth)

/-- The spellings of a list of values: blanks if it is empty, or the values with commas between
them. -/
inductive SpelledList (depth : Nat) : List Char → List Value → Prop
  | empty {s : List Char} : Spaces s → SpelledList depth s []
  | items {s : List Char} {vs : List Value} : Trailed (Padded (Spelled depth)) s vs →
      SpelledList depth s vs

section
variable {s t : List Char} {v : Value} {n : Numeral}

/-! ## Calls -/

/-- Letters and digits are plain. -/
theorem isPlain_of_isAlphanum {c : Char} (h : c.isAlphanum = true) : isPlain c = true :=
  isPlain_of_isKeyChar (by simp [isKeyChar, h])

/-- Digits are plain. -/
theorem isPlain_of_isDigit {c : Char} (h : c.isDigit = true) : isPlain c = true :=
  isPlain_of_isAlphanum (by rw [Char.isAlphanum, h, Bool.or_true])

/-- The characters of a canonical date are plain. -/
theorem isPlain_of_mem_canonical {t : Instant} {c : Char} (h : c ∈ t.canonical) :
    isPlain c = true := by
  rcases Instant.mem_canonical h with h | h
  · exact isPlain_of_isDigit h
  · have hmarks : ['-', '+', 'T', ':', '.', 'Z'].all isPlain = true := rfl
    exact List.all_eq_true.1 hmarks c h

/-- A numeral in quotes is a string of its characters. -/
theorem content_numeral (h : NumeralText s n) : Content s s := by
  have hplain : ∀ {ds : List Char}, (∀ c ∈ ds, c.isDigit = true) → ∀ c ∈ ds, isPlain c = true :=
    fun hds c hc => isPlain_of_isDigit (hds c hc)
  cases h with
  | minus _ hds | plus _ hds => exact content_plain (List.forall_mem_cons.2 ⟨rfl, hplain hds⟩)
  | bare _ hds => exact content_plain (hplain hds)

/-- A text below a tag in strict JSON. -/
theorem core_tagged (tag : Tag) (h : Content t t) :
    Core 1 (tagged tag.key t) (.object [(tag.key, .text (String.ofList t))]) := by
  have hkey : Content tag.key.toList tag.key.toList := by
    cases tag <;> exact content_plain (List.all_eq_true.1 rfl)
  have htext : Padded Scalar ('"' :: (t ++ ['"'])) (.text (String.ofList t)) := by
    simpa using Padded.mk (a := []) (b := []) spaces_nil (Scalar.text h) spaces_nil
  have hmember := Member.mk (a := []) (b := []) spaces_nil hkey spaces_nil htext
  rw [String.ofList_toList] at hmember
  show Nested Scalar _ _
  simpa [tagged] using Nested.object (.last hmember)

/-- The strict JSON for a literal stands for a value. -/
def LiteralStandsFor (l : Literal) (v : Value) : Prop :=
  ∃ w, Core v.nesting l.spelling w ∧ Value.StandsFor w v

/-- The argument for a value denotes a literal that stands for the value. -/
theorem SpelledArgument.exists_literal {form : Form} (h : SpelledArgument form s v) :
    ∃ l, Argument form s l ∧ LiteralStandsFor l v := by
  cases h with
  | identifier hq hid =>
    have hplain := fun c hc => isPlain_of_isAlphanum (ObjectId.isAlphanum_of_lower hid c hc)
    exact ⟨_, .identifier hq hplain, _, core_tagged .oid (content_plain hplain), .identifier hid⟩
  | @instant q t hq =>
    have hplain : ∀ c ∈ t.canonical, isPlain c = true := fun _ => isPlain_of_mem_canonical
    exact ⟨_, .instant hq hplain, _, core_tagged .date (content_plain hplain), .instant t⟩
  | int64 hn hi =>
    obtain ⟨x, hx⟩ := hn.exists_numeralText
    have hread := hx.spelling.readInt?
    rw [hi] at hread
    exact ⟨_, .int64 hn, _, core_tagged .numberLong (content_numeral hx.spelling), .int64 hread⟩
  | @int32 s n hn hmin hmax =>
    have hfits : fitsInt32 n.toInt = true := by
      simp only [fitsInt32, Bool.and_eq_true, decide_eq_true_eq]
      omega
    have hsigned : Signed (ofInt n.toInt) (.int n.toInt) := signed_ofInt (by omega) (by omega)
    exact ⟨_, .int32 hn hfits, _, Scalar.number hsigned, rfl, rfl, rfl⟩

/-- Calls with arguments that each relate to one in another relation do so themselves. -/
theorem CallOf.exists_of_argument {α β : Type} {argument : Form → List Char → α → Prop}
    {argument' : Form → List Char → β → Prop} {R : β → α → Prop} {x : α}
    (h : ∀ form s x, argument form s x → ∃ y, argument' form s y ∧ R y x)
    (hs : CallOf argument s x) : ∃ y, CallOf argument' s y ∧ R y x := by
  have hnamed : ∀ {u : List Char}, NamedCall argument u x →
      ∃ y, NamedCall argument' u y ∧ R y x := by
    rintro _ ⟨hname, ha, harg, hb⟩
    obtain ⟨y, hy, hr⟩ := h _ _ _ harg
    exact ⟨y, .mk hname ha hy hb, hr⟩
  cases hs with
  | plain hu =>
    obtain ⟨y, hy, hr⟩ := hnamed hu
    exact ⟨y, .plain hy, hr⟩
  | new ha hne hu =>
    obtain ⟨y, hy, hr⟩ := hnamed hu
    exact ⟨y, .new ha hne hy, hr⟩

/-! ## From spellings to trees -/

/-- A text writes a tree that stands for a value and goes as deep as it. -/
def HasTree (s : List Char) (v : Value) : Prop :=
  ∃ w, Loose v.nesting s w ∧ Value.StandsFor w v

/-- A value without brackets has a tree, however it is spelled. -/
theorem SpelledAtom.hasTree (h : SpelledAtom s v) : HasTree s v := by
  cases h with
  | null => exact ⟨_, .atom (.scalar .null), rfl, rfl, rfl⟩
  | true => exact ⟨_, .atom (.scalar .true), rfl, rfl, rfl⟩
  | false => exact ⟨_, .atom (.scalar .false), rfl, rfl, rfl⟩
  | integer hmin hmax =>
    exact ⟨_, .atom (.scalar (.number (signed_ofInt hmin hmax))), rfl, rfl, rfl⟩
  | text hq => exact ⟨_, .atom (.text hq), rfl, rfl, rfl⟩
  | strictText h => exact ⟨_, .atom (.scalar (.text h)), rfl, rfl, rfl⟩
  | call hcall =>
    have hliteral : ∀ form s v, SpelledArgument form s v →
        ∃ l, Argument form s l ∧ LiteralStandsFor l v := fun _ _ _ => SpelledArgument.exists_literal
    obtain ⟨l, hl, w, hw, hstands⟩ := hcall.exists_of_argument hliteral
    exact ⟨w, .atom (.call hl hw), hstands⟩

/-- Items that each relate to something in another language do so as a list. -/
theorem Listed.exists_forall₂ {α β : Type} {item : List Char → α → Prop}
    {item' : List Char → β → Prop} {R : β → α → Prop} {xs : List α}
    (h : ∀ s, ∀ x ∈ xs, item s x → ∃ y, item' s y ∧ R y x) (hs : Listed item s xs) :
    ∃ ys, Listed item' s ys ∧ List.Forall₂ R ys xs := by
  induction hs with
  | last hx =>
    obtain ⟨y, hy, hr⟩ := h _ _ List.mem_cons_self hx
    exact ⟨[y], .last hy, .cons hr .nil⟩
  | more hx _ ih =>
    obtain ⟨y, hy, hr⟩ := h _ _ List.mem_cons_self hx
    obtain ⟨ys, hys, hrs⟩ := ih fun s x hmem => h s x (List.mem_cons_of_mem _ hmem)
    exact ⟨y :: ys, .more hy hys, .cons hr hrs⟩

/-- If each item has one that is related to it, so has a list of them, item by item. -/
theorem Trailed.exists_forall₂ {α β : Type} {item : List Char → α → Prop}
    {item' : List Char → β → Prop} {R : β → α → Prop} {xs : List α}
    (h : ∀ s, ∀ x ∈ xs, item s x → ∃ y, item' s y ∧ R y x) (hs : Trailed item s xs) :
    ∃ ys, Trailed item' s ys ∧ List.Forall₂ R ys xs := by
  obtain ⟨hlisted, htail⟩ := hs
  obtain ⟨ys, hys, hrs⟩ := Listed.exists_forall₂ h hlisted
  exact ⟨ys, ⟨hys, htail⟩, hrs⟩

section
variable {spelled : List Char → Value → Prop} (h : ∀ s v, spelled s v → HasTree s v)
include h

/-- Values with commas between them write trees as deep as the deepest of them. -/
theorem exists_items {vs : List Value} (hs : Trailed (Padded spelled) s vs) :
    ∃ ws, Trailed (Padded (Loose (Value.nestingItems vs))) s ws ∧
      List.Forall₂ Value.StandsFor ws vs := by
  refine hs.exists_forall₂ ?_
  rintro _ v hmem ⟨ha, hv, hb⟩
  obtain ⟨w, hw, hstands⟩ := h _ v hv
  exact ⟨w, ⟨ha, hw.mono (Value.nesting_le_of_mem hmem), hb⟩, hstands⟩

/-- If each value below a key has a tree, so have the members. -/
theorem exists_members {fields : List (String × Value)}
    (hs : Trailed (LooseMember spelled) s fields) :
    ∃ ms, Trailed (LooseMember (Loose (Value.nestingFields fields))) s ms ∧
      List.Forall₂ Value.FieldStandsFor ms fields := by
  refine hs.exists_forall₂ ?_
  rintro _ m hmem hm
  obtain ⟨ha, hk, hb, ha', hv, hb'⟩ := hm
  obtain ⟨w, hw, hstands⟩ := h _ _ hv
  have hdeep := hw.mono (Value.nesting_le_of_mem_fields hmem)
  exact ⟨(_, w), ⟨ha, hk, hb, ha', hdeep, hb'⟩, rfl, hstands⟩

/-- A value has a tree if the values inside of it have. -/
theorem SpelledNested.hasTree (hs : SpelledNested spelled s v) : HasTree s v := by
  cases hs with
  | atom hv => exact hv.hasTree
  | emptyArray hb => exact ⟨_, .emptyArray hb, .array .nil⟩
  | array hvs =>
    obtain ⟨ws, hws, hstands⟩ := exists_items h hvs
    exact ⟨_, .array hws, .array hstands⟩
  | emptyObject hb =>
    exact ⟨_, .emptyObject hb, .object .nil List.nodup_nil fun _ hkey => nomatch hkey⟩
  | object hfields hnodup htag =>
    obtain ⟨ms, hms, hstands⟩ := exists_members h hfields
    exact ⟨_, .object hms, .object hstands hnodup htag⟩

end

/-- **However a value is spelled, the text writes a tree that stands for the value.** -/
theorem Spelled.hasTree : ∀ {depth : Nat} {s : List Char} {v : Value}, Spelled depth s v →
    HasTree s v
  | 0, _, _, h => SpelledAtom.hasTree h
  | _ + 1, _, _, h => SpelledNested.hasTree (fun _ _ => Spelled.hasTree) h

end

end ShellQuery.Dialect
