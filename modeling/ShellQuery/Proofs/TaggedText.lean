import ShellQuery.Proofs.ArgumentText
import ShellQuery.Proofs.Dialect.Spelling
/-!
# Texts below tags

An object with a text below a tag is a value of its own kind. `TaggedObject` relates such an object,
in any spelling of the dialect, to the text; `read_taggedObject` says that the value is then made of
the text alone. `Denotes` says without the reader which value this is, if there is one
(`ofTagged_eq_ok_iff`).
-/

namespace ShellQuery

open Text Decimal Dialect Json

/-- The spellings of an object that has nothing but a text below a tag. -/
inductive TaggedObject (tag : Tag) (t : List Char) : List Char → Prop
  | mk {s : List Char} :
      Trailed (LooseMember (Loose 0)) s [(tag.key, .text (String.ofList t))] →
      TaggedObject tag t ('{' :: (s ++ ['}']))

/-- The values that texts denote below tags: the identifier with these digits, in either case, the
instant of a date, and the integers of numerals, if 64 or 32 signed bits hold them. -/
inductive Denotes : Tag → List Char → Value → Prop
  | oid {t : List Char} {id : ObjectId} : t.map Char.toLower = id.hex.toList →
      Denotes .oid t (.identifier id)
  | date {t : List Char} {i : Instant} : Value.readInstant (.text (String.ofList t)) = .ok i →
      Denotes .date t (.instant i)
  | numberLong {t : List Char} {n : Numeral} : NumeralText t n → -2 ^ 63 ≤ n.toInt →
      n.toInt < 2 ^ 63 → Denotes .numberLong t (.int64 (Int64.ofInt n.toInt))
  | numberInt {t : List Char} {n : Numeral} : NumeralText t n → -2 ^ 31 ≤ n.toInt →
      n.toInt < 2 ^ 31 → Denotes .numberInt t (.number (.int n.toInt))

section
variable {tag : Tag} {t s : List Char} {i : Int} {v : Value}

/-! ## Spellings -/

/-- A tag object is an object of the dialect with one member. -/
theorem TaggedObject.loose (h : TaggedObject tag t s) :
    Loose 1 s (.object [(tag.key, .text (String.ofList t))]) := by
  obtain ⟨hs⟩ := h
  exact LooseNested.object hs

/-- One plain key and the text in quotes of either kind. -/
theorem TaggedObject.quoted {q : Char} (hq : isQuote q = true) :
    TaggedObject tag t
      ('{' :: (tag.key.toList ++ ':' :: ' ' :: (quotation q t) ++ ['}'])) := by
  have hkey : LooseKey tag.key.toList tag.key.toList := by
    cases tag <;> exact .bare rfl (List.all_eq_true.1 rfl)
  have hloose : Loose 0 (quotation q t) (.text (String.ofList t)) := .atom (.text hq)
  have htext : Padded (Loose 0) (' ' :: quotation q t) (.text (String.ofList t)) := by
    simpa using Padded.mk (a := [' ']) (b := []) (by simp [isSpace]) hloose spaces_nil
  have hmember := LooseMember.mk (a := []) (b := []) spaces_nil hkey spaces_nil htext
  rw [String.ofList_toList] at hmember
  simpa using TaggedObject.mk (.mk (.last hmember) .none)

/-! ## Values -/

/-- The key of a tag leads back to it. -/
theorem ofKey?_key (tag : Tag) : Tag.ofKey? tag.key = some tag := by
  cases tag <;> rfl

/-- A tag object has no key to merge. -/
theorem merged_tagged (tag : Tag) (t : List Char) :
    merged (.object [(tag.key, .text (String.ofList t))]) =
      .object [(tag.key, .text (String.ofList t))] := by
  cases tag <;> rfl

/-- What an object with a text below a tag stands for is made of the text. -/
theorem ofJson_tagged (tag : Tag) (v : Json) : Value.ofJson (.object [(tag.key, v)]) =
    (Value.ofTagged tag v).mapError (⟨tag, ·⟩) := by
  rw [Value.ofJson, Value.tagged?, ofKey?_key]
  rfl

/-- However an object with a text below a tag is spelled, the value or the fault comes from the text
and the tag. -/
theorem ArgumentText.read_taggedObject {text : String} (h : TaggedObject tag t text.toList) :
    read text = ((Value.ofTagged tag (.text (String.ofList t))).map ([·])).mapError
      fun f => .literal ⟨tag, f⟩ := by
  rw [read_value h.loose (by decide), merged_tagged, Value.ofJsonItems, ofJson_tagged]
  cases Value.ofTagged tag (.text (String.ofList t)) <;> rfl

/-! ## What texts denote -/

/-- A text is a 64-bit integer if it is a numeral of one. -/
theorem integer64?_text_eq_some_iff : Value.integer64? (.text (String.ofList t)) = some i ↔
    ∃ n, NumeralText t n ∧ n.toInt = i ∧ -2 ^ 63 ≤ i ∧ i < 2 ^ 63 := by
  rw [Value.integer64?, String.toList_ofList, Option.bind_eq_some_iff]
  simp only [readInt?_eq_some_iff, Number.toInt64?, Option.ite_none_right_eq_some,
    Option.some.injEq]
  refine ⟨?_, ?_⟩
  · rintro ⟨_, ⟨n, hn, rfl⟩, ⟨hmin, hmax⟩, rfl⟩
    exact ⟨n, hn, rfl, hmin, hmax⟩
  · rintro ⟨n, hn, rfl, hmin, hmax⟩
    exact ⟨_, ⟨n, hn, rfl⟩, ⟨hmin, hmax⟩, rfl⟩

/-- A text makes the value that it denotes below its tag, and no other text makes any. -/
theorem ofTagged_eq_ok_iff :
    Value.ofTagged tag (.text (String.ofList t)) = .ok v ↔ Denotes tag t v := by
  refine ⟨fun h => ?_, fun h => ?_⟩
  · cases tag with
    | oid =>
      obtain ⟨id, hid, rfl⟩ := map_eq_ok h
      exact .oid (ObjectId.read_eq_ok_iff.1 (ArgumentText.mapError_eq_ok.1 hid))
    | date =>
      obtain ⟨i, hi, rfl⟩ := map_eq_ok h
      exact .date hi
    | numberLong =>
      rw [Value.ofTagged] at h
      split at h
      · rename_i i hi
        obtain ⟨n, hn, rfl, hmin, hmax⟩ := integer64?_text_eq_some_iff.1 hi
        cases h
        exact .numberLong hn hmin hmax
      · cases h
    | numberInt =>
      rw [Value.ofTagged] at h
      split at h
      · rename_i i hi
        obtain ⟨j, hj, hfits⟩ := Option.bind_eq_some_iff.1 hi
        obtain ⟨n, hn, rfl, -⟩ := integer64?_text_eq_some_iff.1 hj
        obtain ⟨⟨hmin, hmax⟩, hi⟩ := Option.ite_none_right_eq_some.1 hfits
        cases hi
        cases h
        exact .numberInt hn hmin hmax
      · cases h
  · cases h with
    | oid h => rw [Value.ofTagged, Value.readIdentifier, ObjectId.read_eq_ok_iff.2 h]; rfl
    | date h => rw [Value.ofTagged, h]; rfl
    | numberLong hn hmin hmax =>
      rw [Value.ofTagged, integer64?_text_eq_some_iff.2 ⟨_, hn, rfl, hmin, hmax⟩]
    | @numberInt t n hn hmin hmax =>
      have hinteger : Value.integer64? (.text (String.ofList t)) = some n.toInt :=
        integer64?_text_eq_some_iff.2 ⟨n, hn, rfl, by omega, by omega⟩
      rw [Value.ofTagged, Value.integer32?, hinteger, Option.bind_some, if_pos ⟨hmin, hmax⟩]

/-- A text stands for one integer at most. -/
theorem toInt_unique {m n : Numeral} (hm : NumeralText t m) (hn : NumeralText t n) :
    m.toInt = n.toInt :=
  Option.some.inj (hm.readInt?.symm.trans hn.readInt?)

/-- What a numeral denotes depends on its integer only. -/
theorem denotes_numberLong_iff {n : Numeral} (h : NumeralText t n) : Denotes .numberLong t v ↔
    (-2 ^ 63 ≤ n.toInt ∧ n.toInt < 2 ^ 63) ∧ v = .int64 (Int64.ofInt n.toInt) := by
  refine ⟨?_, ?_⟩
  · rintro (_ | _ | ⟨hm, hmin, hmax⟩)
    rw [← toInt_unique hm h]
    exact ⟨⟨hmin, hmax⟩, rfl⟩
  · rintro ⟨⟨hmin, hmax⟩, rfl⟩
    exact .numberLong h hmin hmax

/-- A numeral denotes a 32-bit integer if it fits. -/
theorem denotes_numberInt_iff {n : Numeral} (h : NumeralText t n) : Denotes .numberInt t v ↔
    (-2 ^ 31 ≤ n.toInt ∧ n.toInt < 2 ^ 31) ∧ v = .number (.int n.toInt) := by
  refine ⟨?_, ?_⟩
  · rintro (_ | _ | _ | ⟨hm, hmin, hmax⟩)
    rw [← toInt_unique hm h]
    exact ⟨⟨hmin, hmax⟩, rfl⟩
  · rintro ⟨⟨hmin, hmax⟩, rfl⟩
    exact .numberInt h hmin hmax

end

end ShellQuery
