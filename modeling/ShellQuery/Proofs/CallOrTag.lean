import ShellQuery.Proofs.Slot
import ShellQuery.Proofs.TaggedText
/-!
# Calls in place of tagged objects

A call and an object with a text below a tag are two ways to write a value of its own kind.
`TagCall` relates a call to the tag and the text of such an object. Of what the pass writes for the
call, which is a number or such an object in turn, a value is made exactly if the text denotes it
(`TagCall.cases`). So the two may stand for each other at every place for a value
(`read_call_or_tag`). They part in one point: the pass looks at the size of an integer of 32 bits
even where a later field overwrites the value (`read_overwritten_int32`).
-/

namespace ShellQuery

open Text Decimal Dialect Json

namespace Dialect

/-- A text, bare or in quotes of either kind. -/
inductive MaybeQuoted (t : List Char) : List Char → Prop
  | bare : MaybeQuoted t t
  | quoted {q : Char} : isQuote q = true → MaybeQuoted t (q :: (t ++ [q]))

/-- The argument of a call, and the tag and the text of the object that denotes the same. The size
of numbers is not limited. -/
inductive TagArgument : Form → List Char → Tag × List Char → Prop
  | identifier {q : Char} {t : List Char} : isQuote q = true → (∀ c ∈ t, isPlain c = true) →
      TagArgument .identifier (q :: (t ++ [q])) (.oid, t)
  | instant {q : Char} {t : List Char} : isQuote q = true → (∀ c ∈ t, isPlain c = true) →
      TagArgument .instant (q :: (t ++ [q])) (.date, t)
  | int64 {s t : List Char} {n : Numeral} : NumeralText t n → MaybeQuoted t s →
      TagArgument .int64 s (.numberLong, t)
  | int32 {s t : List Char} {n : Numeral} : NumeralText t n → MaybeQuoted t s →
      TagArgument .int32 s (.numberInt, t)

/-- A call, and the tag and the text of the object that denotes the same. -/
abbrev TagCall : List Char → Tag × List Char → Prop :=
  CallOf TagArgument

section
variable {r s t u : List Char} {tag : Tag} {n : Numeral}

/-! ## What calls are written as -/

/-- A tree of which the value is made that a text denotes below a tag, if it denotes any. -/
structure MadeOf (w : Json) (tag : Tag) (t : List Char) : Prop where
  merged : w.merged = w
  ofJson_eq_ok_iff : ∀ v, Value.ofJson w = .ok v ↔ Denotes tag t v

/-- A text for an integer of 32 bits that denotes none, since it does not fit. -/
def Oversized (tag : Tag) (t : List Char) : Prop :=
  tag = .numberInt ∧ ∀ v, ¬Denotes tag t v

/-- The tag object for a text is made of the tag and the text. -/
theorem madeOf_tagged (tag : Tag) (t : List Char) :
    MadeOf (.object [(tag.key, .text (String.ofList t))]) tag t where
  merged := merged_tagged tag t
  ofJson_eq_ok_iff v := by
    rw [ofJson_tagged, ArgumentText.mapError_eq_ok, ofTagged_eq_ok_iff]

/-- A numeral with or without quotes is the text of its integer. -/
theorem MaybeQuoted.integerText (h : MaybeQuoted t s) (hn : NumeralText t n) : IntegerText s n := by
  cases h with
  | bare => exact .bare hn
  | quoted hq => exact .quoted hq hn

/-- What fits into 32 bits, by its bounds. -/
theorem fitsInt32_iff {i : Int} : fitsInt32 i = true ↔ -2 ^ 31 ≤ i ∧ i < 2 ^ 31 := by
  simp [fitsInt32]

/-- A call is written as a tree for what its text denotes. Only one for an integer of 32 bits that
does not fit is not recognized. -/
theorem TagCall.cases (h : TagCall u (tag, t)) (r : List Char) :
    (¬Oversized tag t ∧ ∃ l w, Call u l ∧ Core 1 l.spelling w ∧ MadeOf w tag t) ∨
      Oversized tag t ∧ constructor? (u ++ r) = none := by
  obtain ⟨name, form, a, arg, b, ha, harg, hb, hcall⟩ := h.constructor?_eq r
  have hfound : ∀ {l}, Argument form arg l → Call u l := by
    intro l hl
    obtain ⟨u', hu, hcall'⟩ := constructor?_eq_some_iff.1 (hcall.trans (call?_append ha hl hb r))
    exact List.append_cancel_right hu ▸ hcall'
  cases harg with
  | identifier hq ht =>
    exact .inl ⟨nofun, _, _, hfound (.identifier hq ht), core_tagged .oid (content_plain ht),
      madeOf_tagged .oid t⟩
  | instant hq ht =>
    exact .inl ⟨nofun, _, _, hfound (.instant hq ht), core_tagged .date (content_plain ht),
      madeOf_tagged .date t⟩
  | @int64 _ _ n hn hs =>
    have hmade : MadeOf (.object [(Tag.numberLong.key, .text (String.ofList n.spelling))])
        .numberLong t := by
      refine ⟨merged_tagged .numberLong n.spelling, fun v => ?_⟩
      rw [(madeOf_tagged .numberLong n.spelling).ofJson_eq_ok_iff,
        denotes_numberLong_iff hn.spelling, denotes_numberLong_iff hn]
    exact .inl ⟨nofun, _, _, hfound (.int64 (hs.integerText hn)),
      core_tagged .numberLong (content_numeral hn.spelling), hmade⟩
  | @int32 _ _ n hn hs =>
    cases hfits : fitsInt32 n.toInt with
    | true =>
      have hrange := fitsInt32_iff.1 hfits
      have hdenotes : Denotes .numberInt t (.number (.int n.toInt)) :=
        .numberInt hn hrange.1 hrange.2
      have hnumber : Core 1 (ofInt n.toInt) (.number (.int n.toInt)) :=
        Nested.scalar (.number (signed_ofInt (by omega) (by omega)))
      refine .inl ⟨fun h => h.2 _ hdenotes, _, _, hfound (.int32 (hs.integerText hn) hfits),
        hnumber, rfl, fun v => ?_⟩
      rw [denotes_numberInt_iff hn, Value.ofJson, Except.ok.injEq, eq_comm]
      exact (and_iff_right hrange).symm
    | false =>
      refine .inr ⟨⟨rfl, fun v hv => ?_⟩, ?_⟩
      · rw [denotes_numberInt_iff hn, ← fitsInt32_iff, hfits] at hv
        cases hv.1
      · exact hcall.trans (call?_eq_none_of_not_fits ha (hs.integerText hn) hfits hb r)

/-- A tag object is written as one member, whatever stands behind it. -/
theorem writes_taggedObject (h : TaggedObject tag t s) (r : List Char) :
    Writes s r (.object [(tag.key, .text (String.ofList t))]) := by
  refine Replacing.writes ?_ h.loose
  obtain ⟨-⟩ := h
  exact replacing_bracket (.inl rfl) _ r

end

end Dialect

namespace ArgumentText

/-- **Calls and tagged objects denote the same.** Let a call and an object below a tag have the same
text, and let each stand at a place for a value, between two texts with which arguments are read.
Unless a later field with the same key overwrites the value, the same is read with both: what the
text denotes, at one place of always the same values, or nothing if the text denotes nothing. A text
denotes an identifier exactly if it is one of 24 hexadecimal digits. If the value is overwritten,
what is read does not depend on the text, but with a call for an integer of 32 bits that does not
fit nothing is read. -/
theorem read_call_or_tag {p r : List Char} {ws : List Value} (h : Slot p r ws) :
    (∀ t, (∃ v, Denotes .oid t v) ↔ t.length = 24 ∧ ∀ c ∈ t, c.isHexDigit = true) ∧
    (¬OverwrittenAt p r →
      ∃ fill, ListContext Value.Context fill ∧ ws = fill (.object []) ∧
        ∀ u o tag t, TagCall u (tag, t) → TaggedObject tag t o → ∀ vs,
          (ArgumentText.read (String.ofList (p ++ (u ++ r))) = .ok vs ↔
            ∃ v, Denotes tag t v ∧ vs = fill v) ∧
          (ArgumentText.read (String.ofList (p ++ (o ++ r))) = .ok vs ↔
            ∃ v, Denotes tag t v ∧ vs = fill v)) ∧
    (OverwrittenAt p r → ∀ u o tag t, TagCall u (tag, t) → TaggedObject tag t o →
      ArgumentText.read (String.ofList (p ++ (o ++ r))) = .ok ws ∧
      (¬Oversized tag t → ArgumentText.read (String.ofList (p ++ (u ++ r))) = .ok ws) ∧
      (Oversized tag t → ∀ vs, ArgumentText.read (String.ofList (p ++ (u ++ r))) ≠ .ok vs)) := by
  refine ⟨fun t => ?_, fun hcounts => ?_, fun hlost u o tag t hu ho => ?_⟩
  · rw [← ObjectId.exists_lower_iff]
    refine ⟨?_, ?_⟩
    · rintro ⟨_, ⟨hid⟩⟩
      exact ⟨_, hid⟩
    · rintro ⟨id, hid⟩
      exact ⟨_, .oid hid⟩
  · obtain ⟨fill, hfill, hws, hread⟩ := h.exists_fill hcounts
    refine ⟨fill, hfill, hws, fun u o tag t hu ho vs => ⟨?_, ?_⟩⟩
    · rcases hu.cases r with ⟨-, l, w, hcall, hw, hmade⟩ | ⟨⟨-, hnone⟩, hcall⟩
      · rw [hread u w (writes_call hcall hw r), hmade.merged]
        simp only [hmade.ofJson_eq_ok_iff]
      · refine ⟨fun hvs => absurd hvs (h.read_ne hu hcall vs), ?_⟩
        rintro ⟨v, hv, -⟩
        exact absurd hv (hnone v)
    · have hmade := madeOf_tagged tag t
      rw [hread o _ (writes_taggedObject ho r), hmade.merged]
      simp only [hmade.ofJson_eq_ok_iff]
  · refine ⟨h.read_of_overwritten hlost (writes_taggedObject ho r), fun hfits => ?_,
      fun hover vs => ?_⟩
    · rcases hu.cases r with ⟨-, l, w, hcall, hw, -⟩ | ⟨hover, -⟩
      · exact h.read_of_overwritten hlost (writes_call hcall hw r)
      · exact absurd hover hfits
    · rcases hu.cases r with ⟨hfits, -⟩ | ⟨-, hcall⟩
      · exact absurd hover hfits
      · exact h.read_ne hu hcall vs

/-- The greatest integer of 64 bits with a sign and a zero in front, and the next one. -/
theorem read_call_or_tag_array :
    Slot ['['] [']'] [.array [.object []]] ∧ ¬OverwrittenAt ['['] [']'] ∧
      ∃ fill, ListContext Value.Context fill ∧ [.array [.object []]] = fill (.object []) ∧
        (∀ vs, read "[NumberLong('+09223372036854775807')]" = .ok vs ↔
          vs = fill (.int64 9223372036854775807)) ∧
        ∀ vs, read "[\x7b$numberLong: '9223372036854775808'\x7d]" ≠ .ok vs := by
  obtain ⟨hslot, hcounts⟩ := slot_brackets
  obtain ⟨-, hlive, -⟩ := read_call_or_tag hslot
  obtain ⟨fill, hfill, hws, hread⟩ := hlive hcounts
  have hrow : ("NumberLong", Form.int64) ∈ constructors := by simp [constructors]
  have hgreatest : NumeralText "+09223372036854775807".toList
      ⟨false, "09223372036854775807".toList⟩ := .plus (by decide) (List.all_eq_true.1 rfl)
  have hnext : NumeralText "9223372036854775808".toList ⟨false, "9223372036854775808".toList⟩ :=
    .bare (by decide) (List.all_eq_true.1 rfl)
  have hcall : TagCall "NumberLong('+09223372036854775807')".toList
      (.numberLong, "+09223372036854775807".toList) :=
    .plain (.mk (a := []) (b := []) hrow blanks_nil
      (TagArgument.int64 hgreatest (.quoted (q := '\'') rfl)) blanks_nil)
  have hnextCall : TagCall "NumberLong(9223372036854775808)".toList
      (.numberLong, "9223372036854775808".toList) :=
    .plain (.mk (a := []) (b := []) hrow blanks_nil (TagArgument.int64 hnext .bare) blanks_nil)
  have htagged : TaggedObject .numberLong "9223372036854775808".toList
      "\x7b$numberLong: '9223372036854775808'\x7d".toList := .quoted (q := '\'') rfl
  refine ⟨hslot, hcounts, fill, hfill, hws, fun vs => ?_, fun vs => ?_⟩
  · have htext : "[NumberLong('+09223372036854775807')]" =
        String.ofList (['['] ++ ("NumberLong('+09223372036854775807')".toList ++ [']'])) := by
      decide
    rw [htext, (hread _ _ _ _ hcall (.quoted (q := '"') rfl) vs).1]
    have hvalue : Numeral.toInt ⟨false, "09223372036854775807".toList⟩ = 9223372036854775807 := by
      decide
    simp only [denotes_numberLong_iff hgreatest, hvalue]
    refine ⟨?_, ?_⟩
    · rintro ⟨v, ⟨-, rfl⟩, rfl⟩
      rfl
    · rintro rfl
      exact ⟨_, ⟨by decide, rfl⟩, rfl⟩
  · have htext : "[\x7b$numberLong: '9223372036854775808'\x7d]" = String.ofList
        (['['] ++ ("\x7b$numberLong: '9223372036854775808'\x7d".toList ++ [']'])) := by decide
    rw [htext, ne_eq, (hread _ _ _ _ hnextCall htagged vs).2]
    rintro ⟨v, hv, -⟩
    exact absurd ((denotes_numberLong_iff hnext).1 hv).1 (by decide)

/-- **A call for an integer that does not fit is refused where a tagged object is overwritten.** -/
theorem read_overwritten_int32 :
    Slot ['{', 'a', ':'] [',', 'a', ':', '1', '}'] [.object [("a", .number (.int 1))]] ∧
      TagCall "NumberInt(2147483648)".toList (.numberInt, "2147483648".toList) ∧
      TaggedObject .numberInt "2147483648".toList "\x7b$numberInt: '2147483648'\x7d".toList ∧
      read "\x7ba:\x7b$numberInt: '2147483648'\x7d,a:1\x7d" =
        .ok [.object [("a", .number (.int 1))]] ∧
      ∀ vs, read "\x7ba:NumberInt(2147483648),a:1\x7d" ≠ .ok vs := by
  have hread : ∀ {u w}, Loose 1 u w →
      read (String.ofList (['{', 'a', ':'] ++ (u ++ [',', 'a', ':', '1', '}']))) =
        .ok [.object [("a", .number (.int 1))]] := by
    intro u w hu
    have hkey : LooseKey ['a'] ['a'] := .bare (t := []) rfl nofun
    have hone : Loose 1 ['1'] (.number (.int 1)) :=
      .atom (.scalar (.number (signed_ofInt (i := 1) (by decide) (by decide))))
    have hmembers : Trailed (LooseMember (Loose 1))
        ('a' :: ':' :: u ++ ',' :: 'a' :: ':' :: ['1'] ++ [])
        [("a", w), ("a", .number (.int 1))] :=
      .mk (.more (.of_core hkey hu) (.last (.of_core hkey hone))) .none
    have hobject : Loose 2 (['{', 'a', ':'] ++ (u ++ [',', 'a', ':', '1', '}']))
        (.object [("a", w), ("a", .number (.int 1))]) := by
      have hnested : Loose 2 _ _ := LooseNested.object hmembers
      simpa using hnested
    rw [read_value (by rwa [String.toList_ofList]) (by decide)]
    rfl
  have hslot : Slot ['{', 'a', ':'] [',', 'a', ':', '1', '}']
      [.object [("a", .number (.int 1))]] :=
    ⟨⟨_, .step .done⟩, hread (LooseNested.emptyObject (s := []) spaces_nil)⟩
  have hrow : ("NumberInt", Form.int32) ∈ constructors := by simp [constructors]
  have hnumeral : NumeralText "2147483648".toList ⟨false, "2147483648".toList⟩ :=
    .bare (by decide) (List.all_eq_true.1 rfl)
  have hcall : TagCall "NumberInt(2147483648)".toList (.numberInt, "2147483648".toList) :=
    .plain (.mk (a := []) (b := []) hrow blanks_nil (TagArgument.int32 hnumeral .bare) blanks_nil)
  have htagged : TaggedObject .numberInt "2147483648".toList
      "\x7b$numberInt: '2147483648'\x7d".toList := TaggedObject.quoted (q := '\'') rfl
  have htaggedText : "\x7ba:\x7b$numberInt: '2147483648'\x7d,a:1\x7d" =
      String.ofList (['{', 'a', ':'] ++
        ("\x7b$numberInt: '2147483648'\x7d".toList ++ [',', 'a', ':', '1', '}'])) := by decide
  have hcallText : "\x7ba:NumberInt(2147483648),a:1\x7d" =
      String.ofList (['{', 'a', ':'] ++
        ("NumberInt(2147483648)".toList ++ [',', 'a', ':', '1', '}'])) := by decide
  have hnone : constructor? ("NumberInt(2147483648)".toList ++ [',', 'a', ':', '1', '}']) = none :=
    rfl
  refine ⟨hslot, hcall, htagged, ?_, ?_⟩
  · rw [htaggedText, hread htagged.loose]
  · rw [hcallText]
    exact hslot.read_ne hcall hnone

end ArgumentText

end ShellQuery
