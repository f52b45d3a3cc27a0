import ShellQuery.Proofs.Instant
import ShellQuery.Proofs.Json.Nesting
import ShellQuery.Proofs.ObjectId
import ShellQuery.Proofs.Value.Tagged
/-!
# Trees that stand for values

`StandsFor v w` relates a tree without repeated keys to the typed value that is made of it, with as
many brackets inside each other. A tagged value counts one level, its tag's. The relation goes
through arrays (`StandsFor.array`) and through objects that are not tagged (`StandsFor.object`), and
each text of an identifier, an instant or a 64-bit integer is a tree for it below its tag.
-/

namespace ShellQuery.Value

open Json Decimal

mutual

/-- The most brackets inside each other, when a tagged value is an object. -/
def nesting : Value → Nat
  | .null => 0
  | .bool _ => 0
  | .number _ => 0
  | .text _ => 0
  | .identifier _ => 1
  | .instant _ => 1
  | .int64 _ => 1
  | .array items => nestingItems items + 1
  | .object fields => nestingFields fields + 1

/-- `nesting` over the items of an array. -/
def nestingItems : List Value → Nat
  | [] => 0
  | v :: more => max v.nesting (nestingItems more)

/-- `nesting` over the fields of an object. -/
def nestingFields : List (String × Value) → Nat
  | [] => 0
  | (_, v) :: more => max v.nesting (nestingFields more)

end

/-- A tree without repeated keys, the value that it stands for, and the depth of both. -/
structure StandsFor (v : Json) (w : Value) : Prop where
  merged : v.merged = v
  ofJson : ofJson v = .ok w
  nesting : v.nesting = w.nesting

/-- The field of a tree stands for the field of a value with the same key. -/
def FieldStandsFor (field : String × Json) (g : String × Value) : Prop :=
  field.1 = g.1 ∧ StandsFor field.2 g.2

section
variable {items : List Json} {vs : List Value} {fields : List (String × Json)}
  {gs : List (String × Value)} {v : Value}

/-- No item is deeper than all items. -/
theorem nesting_le_of_mem (h : v ∈ vs) : v.nesting ≤ nestingItems vs := by
  induction vs with
  | nil => cases h
  | cons w more ih =>
    rw [nestingItems]
    rcases List.mem_cons.1 h with rfl | h
    · exact Nat.le_max_left _ _
    · exact Nat.le_trans (ih h) (Nat.le_max_right _ _)

/-- Keys make no difference. -/
theorem nestingFields_eq (gs : List (String × Value)) :
    nestingFields gs = nestingItems (gs.map Prod.snd) := by
  induction gs with
  | nil => rfl
  | cons g more ih => rw [nestingFields, ih, List.map_cons, nestingItems]

/-- No value is deeper than all fields. -/
theorem nesting_le_of_mem_fields {g : String × Value} (h : g ∈ gs) :
    g.2.nesting ≤ nestingFields gs := by
  rw [nestingFields_eq]
  exact nesting_le_of_mem (List.mem_map_of_mem h)

/-! ## Arrays and objects -/

/-- Trees that stand for values have no key to merge. -/
theorem map_merged_of_forall₂ (h : List.Forall₂ StandsFor items vs) : items.map merged = items := by
  induction h with
  | nil => rfl
  | cons hv _ ih => rw [List.map_cons, ih, hv.merged]

/-- Trees are as deep as the values that they stand for. -/
theorem nestingItems_of_forall₂ (h : List.Forall₂ StandsFor items vs) :
    Json.nestingItems items = nestingItems vs := by
  induction h with
  | nil => rfl
  | cons hv _ ih => rw [Json.nestingItems, nestingItems, ih, hv.nesting]

/-- Trees become the values that they stand for. -/
theorem ofJsonItems_of_forall₂ (h : List.Forall₂ StandsFor items vs) : ofJsonItems items = .ok vs :=
  ofJsonItems_eq_ok_iff.2 (h.imp fun _ _ => StandsFor.ofJson)

/-- An array of trees stands for the array of the values. -/
theorem StandsFor.array (h : List.Forall₂ StandsFor items vs) :
    StandsFor (.array items) (.array vs) where
  merged := by rw [Json.merged, mergedItems_eq_map, map_merged_of_forall₂ h]
  ofJson := by rw [Value.ofJson, ofJsonItems_of_forall₂ h, Except.map]
  nesting := by rw [Json.nesting, Value.nesting, nestingItems_of_forall₂ h]

/-- Members that stand for fields have no key to merge. -/
theorem mergedFields_of_forall₂ (h : List.Forall₂ FieldStandsFor fields gs) :
    mergedFields fields = fields := by
  induction h with
  | nil => rfl
  | cons hfield _ ih => rw [mergedFields, ih, hfield.2.merged]

/-- Members are as deep as the fields that they stand for. -/
theorem nestingFields_of_forall₂ (h : List.Forall₂ FieldStandsFor fields gs) :
    Json.nestingFields fields = nestingFields gs := by
  rw [Json.nestingFields_eq, nestingFields_eq]
  refine nestingItems_of_forall₂ ?_
  rw [List.forall₂_map_left_iff, List.forall₂_map_right_iff]
  exact h.imp fun _ _ => And.right

/-- Members become the fields that they stand for. -/
theorem ofJsonFields_of_forall₂ (h : List.Forall₂ FieldStandsFor fields gs) :
    ofJsonFields fields = .ok gs :=
  ofJsonFields_eq_ok_iff.2 (h.imp fun _ _ hfield => ⟨hfield.1, hfield.2.ofJson⟩)

/-- Neither a repeated key nor a tag makes an object something else than its fields. -/
theorem StandsFor.object (h : List.Forall₂ FieldStandsFor fields gs)
    (hnodup : (Fields.keys gs).Nodup) (htag : Untagged gs) :
    StandsFor (.object fields) (.object gs) where
  merged := by
    rw [keys_ofJsonFields (ofJsonFields_of_forall₂ h)] at hnodup
    rw [Json.merged, mergedFields_of_forall₂ h, Fields.merge_of_nodup hnodup]
  ofJson := by
    have hfields := ofJsonFields_of_forall₂ h
    have huntagged : Untagged fields := fun key hkey =>
      htag key ((keys_ofJsonFields hfields).trans hkey)
    rw [Value.ofJson, huntagged.tagged?, hfields]
    rfl
  nesting := by rw [Json.nesting, Value.nesting, nestingFields_of_forall₂ h]

/-! ## Tagged values -/

/-- What a tag makes of a text, the object with this tag and text stands for. -/
theorem StandsFor.tagged {tag : Tag} {s : String} (h : ofTagged tag (.text s) = .ok v)
    (hnesting : v.nesting = 1) : StandsFor (.object [(tag.key, .text s)]) v where
  merged := rfl
  ofJson := by
    have htag : tagged? [(tag.key, Json.text s)] = some (tag, .text s) := by
      cases tag <;> rfl
    rw [Value.ofJson, htag]
    simp only [h, Except.mapError]
  nesting := by
    rw [hnesting]
    rfl

/-- The tag object of a hexadecimal text, in either case, stands for its identifier. -/
theorem StandsFor.identifier {id : ObjectId} {t : List Char}
    (h : t.map Char.toLower = id.hex.toList) :
    StandsFor (.object [(Tag.oid.key, .text (String.ofList t))]) (.identifier id) := by
  refine .tagged ?_ rfl
  rw [ofTagged, readIdentifier, ObjectId.read_of_lower h, Except.mapError, Except.map]

/-- A text of an instant is read as it. -/
theorem readInstant_text {t : Instant} {s : List Char} (h : Instant.readMillis? s = some t.millis) :
    readInstant (.text (String.ofList s)) = .ok t := by
  simp only [readInstant, readMillis, String.toList_ofList, h, Instant.ofMillis?_millis]

/-- The tag object of the canonical text stands for its instant. -/
theorem StandsFor.instant (t : Instant) :
    StandsFor (.object [(Tag.date.key, .text (String.ofList t.canonical))]) (.instant t) := by
  refine .tagged ?_ rfl
  rw [ofTagged, readInstant_text (Instant.readMillis?_canonical t), Except.map]

/-- The text of an integer of 64 signed bits is read as this integer. -/
theorem integer64?_ofList {i : Int} {s : List Char} (h : readInt? s = some i) (hmin : -2 ^ 63 ≤ i)
    (hmax : i < 2 ^ 63) : integer64? (.text (String.ofList s)) = some i := by
  rw [integer64?, String.toList_ofList, h, Option.bind_some, Number.toInt64?,
    if_pos ⟨by omega, by omega⟩]

/-- The tag object of a numeral stands for its 64-bit integer. -/
theorem StandsFor.int64 {i : Int64} {s : List Char} (h : readInt? s = some i.toInt) :
    StandsFor (.object [(Tag.numberLong.key, .text (String.ofList s))]) (.int64 i) := by
  have hinteger := integer64?_ofList h i.le_toInt i.toInt_lt
  refine .tagged ?_ rfl
  simp only [ofTagged, hinteger, Int64.ofInt_toInt]

end

end ShellQuery.Value
