import ShellQuery.Proofs.Value.ExtendedJson
import ShellQuery.Value.Bson
/-!
# Every field is kept

`Resolves v w` says, without the reader's maps, what becomes of a tree as it is written: its items
stay one by one, its keys stand where they come up first, each with the value that it has last, and
one field with the key of a tag is the tagged value. `read_keeps_fields` says that arguments that
were read are related in this way to the trees that the text lists, and that none of their fields is
lost any more: they are found by their keys, and stored or written in extended JSON one by one.
-/

namespace ShellQuery

open Json

/-! ## Documents -/

namespace Value

/-- `toBsonItems` in the natural per-element form. -/
theorem toBsonItems_eq_map (items : List Value) : toBsonItems items = items.map toBson := by
  induction items with
  | nil => rfl
  | cons v more ih => rw [toBsonItems, ih, List.map_cons]

/-- `toBsonFields` in the natural per-element form. -/
theorem toBsonFields_eq_map (fields : List (String × Value)) :
    toBsonFields fields = fields.map fun g => (g.1, g.2.toBson) := by
  induction fields with
  | nil => rfl
  | cons g more ih => rw [toBsonFields, ih, List.map_cons]

end Value

namespace Bson

/-- `relaxedItems` in the natural per-element form. -/
theorem relaxedItems_eq_map (items : List Bson) : relaxedItems items = items.map relaxed := by
  induction items with
  | nil => rfl
  | cons v more ih => rw [relaxedItems, ih, List.map_cons]

/-- `relaxedFields` in the natural per-element form. -/
theorem relaxedFields_eq_map (fields : List (String × Bson)) :
    relaxedFields fields = fields.map fun g => (g.1, g.2.relaxed) := by
  induction fields with
  | nil => rfl
  | cons g more ih => rw [relaxedFields, ih, List.map_cons]

end Bson

namespace Value

/-- A value in extended JSON is what is stored of it in extended JSON. -/
theorem relaxed_toBson (v : Value) : v.toBson.relaxed = v.toJson := by
  induction v using Value.induct with
  | null | bool | text | identifier | instant | int64 => rfl
  | number n =>
    rw [toBson, toJson, Bson.ofNumber]
    cases plainNumber n <;> rfl
  | array items ih =>
    have hitems : (items.map toBson).map Bson.relaxed = items.map toJson := by
      rw [List.map_map]
      exact List.map_congr_left ih
    rw [toBson, toJson, Bson.relaxed, toBsonItems_eq_map, toJsonItems_eq_map,
      Bson.relaxedItems_eq_map, hitems]
  | object fields ih =>
    have hfields : (fields.map fun g => (g.1, g.2.toBson)).map (fun g => (g.1, g.2.relaxed)) =
        fields.map fun g => (g.1, g.2.toJson) := by
      rw [List.map_map]
      exact List.map_congr_left fun g hg => Prod.ext rfl (ih g hg)
    rw [toBson, toJson, Bson.relaxed, toBsonFields_eq_map, toJsonFields_eq_map,
      Bson.relaxedFields_eq_map, ← Fields.merge_map, hfields]

/-- Fields with different keys are stored one by one. -/
theorem toBson_object {fields : List (String × Value)} (h : (Fields.keys fields).Nodup) :
    toBson (.object fields) = .document (fields.map fun g => (g.1, g.2.toBson)) := by
  rw [toBson, toBsonFields_eq_map, Fields.merge_of_nodup (by rwa [Fields.keys_map])]

/-- Fields with different keys are written in extended JSON one by one. -/
theorem toJson_object {fields : List (String × Value)} (h : (Fields.keys fields).Nodup) :
    toJson (.object fields) = .object (fields.map fun g => (g.1, g.2.toJson)) := by
  rw [toJson, toJsonFields_eq_map, Fields.merge_of_nodup (by rwa [Fields.keys_map])]

/-! ## What becomes of a tree -/

/-- What becomes of a tree in which keys may be repeated. The first field with a key in the reversed
fields is the last one in the order of the text. -/
inductive Resolves : Json → Value → Prop
  | null : Resolves .null .null
  | bool {b : Bool} : Resolves (.bool b) (.bool b)
  | number {n : Json.Number} : Resolves (.number n) (.number n)
  | text {s : String} : Resolves (.text s) (.text s)
  | array {items : List Json} {vs : List Value} : List.Forall₂ Resolves items vs →
      Resolves (.array items) (.array vs)
  | tagged {fields : List (String × Json)} {tag : Tag} {v : Json} {w : Value} :
      (Fields.keys fields).eraseDups = [tag.key] →
      Fields.get? tag.key fields.reverse = some v → ofTagged tag v.merged = .ok w →
      Resolves (.object fields) w
  | object {fields : List (String × Json)} {gs : List (String × Value)} : Untagged gs →
      Fields.keys gs = (Fields.keys fields).eraseDups →
      (∀ key v w, Fields.get? key fields.reverse = some v → Fields.get? key gs = some w →
        Resolves v w) →
      Resolves (.object fields) (.object gs)

section
variable {key : String} {v : Json} {w : Value} {fields : List (String × Json)}
  {gs : List (String × Value)}

/-- Merging the values of fields leaves their keys. -/
theorem keys_mergedFields (fields : List (String × Json)) :
    Fields.keys (mergedFields fields) = Fields.keys fields := by
  rw [mergedFields_eq_map]
  exact Fields.keys_map merged fields

/-- A merged field has the value that stands last, with its own fields merged. -/
theorem get?_merge_mergedFields (key : String) (fields : List (String × Json)) :
    Fields.get? key (Fields.merge (mergedFields fields)) =
      (Fields.get? key fields.reverse).map merged := by
  rw [Fields.get?_merge, mergedFields_eq_map, ← List.map_reverse]
  exact Fields.get?_map merged key fields.reverse

/-- The value of a field is what the field with the same key stands for. -/
theorem ofJson_of_get? (h : ofJsonFields fields = .ok gs) (hv : Fields.get? key fields = some v)
    (hw : Fields.get? key gs = some w) : ofJson v = .ok w := by
  have hfields := ofJsonFields_eq_ok_iff.1 h
  clear h
  induction hfields with
  | nil => cases hv
  | cons hfield _ ih =>
    rw [Fields.get?] at hv hw
    rw [← hfield.1] at hw
    split at hv
    · rename_i hkey
      rw [if_pos hkey] at hw
      cases hv
      cases hw
      exact hfield.2
    · rename_i hkey
      rw [if_neg hkey] at hw
      exact ih hv hw

/-- **What a merged tree stands for is what becomes of the tree.** -/
theorem resolves_of_ofJson (h : ofJson v.merged = .ok w) : Resolves v w := by
  induction v using Json.induct generalizing w with
  | null | bool | number | text =>
    cases h
    constructor
  | array items ih =>
    rw [merged, mergedItems_eq_map, ofJson] at h
    obtain ⟨ws, hws, h⟩ := map_eq_ok h
    cases h
    rw [ofJsonItems_eq_ok_iff, List.forall₂_map_left_iff] at hws
    refine .array ?_
    rw [List.forall₂_iff_get] at hws ⊢
    exact ⟨hws.1, fun i hi hi' => ih _ (List.get_mem _ _) (hws.2 i hi hi')⟩
  | object fields ih =>
    have hkeys : Fields.keys (Fields.merge (mergedFields fields)) =
        (Fields.keys fields).eraseDups := by
      rw [Fields.keys_merge, keys_mergedFields]
    have hmem : ∀ {key v}, Fields.get? key fields.reverse = some v → (key, v) ∈ fields :=
      fun hv => List.mem_reverse.1 (Fields.mem_of_get? hv)
    rw [merged, ofJson] at h
    cases htagged : tagged? (Fields.merge (mergedFields fields)) with
    | some tagged =>
      obtain ⟨tag, inner⟩ := tagged
      rw [htagged] at h
      have hmerge := tagged?_eq_some htagged
      have hlast := get?_merge_mergedFields tag.key fields
      rw [hmerge, Fields.get?, if_pos rfl] at hlast
      obtain ⟨v, hv, rfl⟩ := Option.map_eq_some_iff.1 hlast.symm
      rw [hmerge] at hkeys
      exact .tagged hkeys.symm hv (ArgumentText.mapError_eq_ok.1 h)
    | none =>
      rw [htagged] at h
      obtain ⟨gs, hgs, h⟩ := map_eq_ok h
      cases h
      have hsame := keys_ofJsonFields hgs
      refine .object (fun key hkey => ?_) (hsame.trans hkeys) fun key v w hv hw => ?_
      · exact untagged_of_tagged? htagged key (hsame ▸ hkey)
      · have hmerged := get?_merge_mergedFields key fields
        rw [hv, Option.map_some] at hmerged
        exact ih (key, v) (hmem hv) (ofJson_of_get? hgs hmerged hw)

end

end Value

/-! ## Arguments -/

namespace ArgumentText

open Text Dialect Value

/-- **Every field is kept.** Arguments that were read are what becomes, one by one, of the trees
that the strict form of the text lists: items stay in their order, and keys stand in the order in
which they come up first, with the values they have last. At every depth the keys of an object
differ, none is the key of a tag and alone, each field is found by its key, and the object is stored
and written in extended JSON with as many fields, in the same order. -/
theorem read_keeps_fields {text : String} {ws : List Value} (h : read text = .ok ws) :
    (∃ trees, (Blanks (normalize text.toList) ∧ trees = [] ∨
        Items (Core (maxDepth - 1)) (normalize text.toList) trees) ∧
      List.Forall₂ Resolves trees ws) ∧
    ∀ w ∈ ws, ∀ fields, Value.Part (.object fields) w →
      (Fields.keys fields).Nodup ∧ Untagged fields ∧
        (∀ g ∈ fields, Value.get? (.object fields) g.1 = some g.2) ∧
        Value.toBson (.object fields) = .document (fields.map fun g => (g.1, g.2.toBson)) ∧
        Value.toJson (.object fields) = .object (fields.map fun g => (g.1, g.2.toJson)) := by
  refine ⟨?_, fun w hw fields hpart => ?_⟩
  · obtain ⟨trees, htrees, hvalues⟩ := exists_trees_of_read h
    rw [ofJsonItems_eq_ok_iff, List.forall₂_map_left_iff] at hvalues
    exact ⟨trees, htrees, hvalues.imp fun _ _ => resolves_of_ofJson⟩
  · obtain ⟨hkeys, htag⟩ := sound_of_read h w hw fields hpart
    exact ⟨hkeys, htag, fun g hg => Fields.get?_of_mem hkeys hg, toBson_object hkeys,
      toJson_object hkeys⟩

/-- Of a key that is repeated the last value stands at the first one's place. -/
theorem read_keeps_fields_repeated :
    read "\x7b\"a\":null,\"b\":[\x7b\"$numberLong\":\"5\"\x7d],\"a\":\"x\"\x7d" =
        .ok [.object [("a", .text "x"), ("b", .array [.int64 5])]] ∧
      (∃ trees, Items (Core (maxDepth - 1)) (normalize
          "\x7b\"a\":null,\"b\":[\x7b\"$numberLong\":\"5\"\x7d],\"a\":\"x\"\x7d".toList) trees ∧
        List.Forall₂ Resolves trees
          [.object [("a", .text "x"), ("b", .array [.int64 5])]]) ∧
      Value.toBson (.object [("a", .text "x"), ("b", .array [.int64 5])]) =
        .document [("a", .string "x"), ("b", .array [.int64 5])] := by
  have hno : ∀ v : Json, (∀ n, v ≠ .number n) → (∀ items, v ≠ .array items) →
      (∀ fields, v ≠ .object fields) → v.Integral := by
    rintro v hnumber harray hobject n (_ | _ | _)
    exacts [absurd rfl (hnumber n), absurd rfl (harray _), absurd rfl (hobject _)]
  have htag : Json.Integral (.object [("$numberLong", .text "5")]) :=
    integral_object (List.forall_mem_singleton.2 (hno _ nofun nofun nofun))
  have htrees : ∀ v ∈ [Json.object [("a", .null), ("b", .array [.object [("$numberLong",
      .text "5")]]), ("a", .text "x")]], v.Integral :=
    List.forall_mem_singleton.2 (integral_object (List.forall_mem_cons.2
      ⟨hno _ nofun nofun nofun, List.forall_mem_cons.2
        ⟨integral_array (List.forall_mem_singleton.2 htag),
          List.forall_mem_singleton.2 (hno _ nofun nofun nofun)⟩⟩))
  have hlisting : listing [.object [("a", .null), ("b", .array [.object [("$numberLong",
      .text "5")]]), ("a", .text "x")]] =
        "\x7b\"a\":null,\"b\":[\x7b\"$numberLong\":\"5\"\x7d],\"a\":\"x\"\x7d" := rfl
  have hread : read "\x7b\"a\":null,\"b\":[\x7b\"$numberLong\":\"5\"\x7d],\"a\":\"x\"\x7d" =
      .ok [.object [("a", .text "x"), ("b", .array [.int64 5])]] := by
    rw [← hlisting, read_listing htrees (by decide)]
    rfl
  obtain ⟨⟨trees, hlisted, hresolves⟩, hkept⟩ := read_keeps_fields hread
  obtain ⟨-, -, -, hbson, -⟩ := hkept _ List.mem_cons_self _ .self
  refine ⟨hread, ⟨trees, ?_, hresolves⟩, hbson⟩
  rcases hlisted with ⟨-, rfl⟩ | hlisted
  · cases hresolves
  · exact hlisted

end ArgumentText

end ShellQuery
