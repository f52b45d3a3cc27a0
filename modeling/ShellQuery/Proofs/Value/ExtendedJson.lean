import ShellQuery.Proofs.Json.Printer
import ShellQuery.Proofs.Value.Sound
import ShellQuery.Proofs.Value.StandsFor
import ShellQuery.Value.ExtendedJson
/-!
# Extended JSON is read back

Values that were read are written in extended JSON in a way that the reader of arguments takes: tags
of identifiers and of dates, and no other object that looks like one, because values that were read
hold none (`sound_of_read`). So a tree in extended JSON stands for the value it was made of, apart
from 64-bit integers, which it has as plain numbers (`ofJson_toJson`), and its compact text, with
commas between one argument and the next, is read as that value (`read_toJson_iff`). The text needs
no translation, since it is strict JSON.
-/

namespace ShellQuery.Value

open Json Decimal

/-! ## Plain numbers -/

mutual

/-- A value with plain numbers in place of its 64-bit integers. -/
def plain : Value → Value
  | .null => .null
  | .bool b => .bool b
  | .number n => .number n
  | .text s => .text s
  | .identifier id => .identifier id
  | .instant t => .instant t
  | .int64 n => .number (.int n.toInt)
  | .array items => .array (plainItems items)
  | .object fields => .object (plainFields fields)

/-- `plain` over the items of an array. -/
def plainItems : List Value → List Value
  | [] => []
  | v :: more => v.plain :: plainItems more

/-- `plain` over the fields of an object. -/
def plainFields : List (String × Value) → List (String × Value)
  | [] => []
  | (key, v) :: more => (key, v.plain) :: plainFields more

end

/-- `plainItems` in the natural per-element form. -/
theorem plainItems_eq_map (items : List Value) : plainItems items = items.map plain := by
  induction items with
  | nil => rfl
  | cons v more ih => rw [plainItems, ih, List.map_cons]

/-- `plainFields` in the natural per-element form. -/
theorem plainFields_eq_map (fields : List (String × Value)) :
    plainFields fields = fields.map fun g => (g.1, g.2.plain) := by
  induction fields with
  | nil => rfl
  | cons g more ih => rw [plainFields, ih, List.map_cons]

/-! ## Trees in extended JSON -/

/-- `toJsonItems` in the natural per-element form. -/
theorem toJsonItems_eq_map (items : List Value) : toJsonItems items = items.map toJson := by
  induction items with
  | nil => rfl
  | cons v more ih => rw [toJsonItems, ih, List.map_cons]

/-- `toJsonFields` in the natural per-element form. -/
theorem toJsonFields_eq_map (fields : List (String × Value)) :
    toJsonFields fields = fields.map fun g => (g.1, g.2.toJson) := by
  induction fields with
  | nil => rfl
  | cons g more ih => rw [toJsonFields, ih, List.map_cons]

/-- Every number in a value is an integer of 64 signed bits. -/
def Integral (v : Value) : Prop :=
  ∀ n, Part (.number n) v → ∃ i, n = .int i ∧ -2 ^ 63 ≤ i ∧ i < 2 ^ 63

/-- An integer below the bound is a number as it is. -/
theorem plainNumber_int {i : Int} (h : i < 2 ^ 63) : plainNumber (.int i) = .int i := by
  rw [plainNumber, if_pos (by omega)]

/-- An instant is written as an object with one field, which holds a text or such an object. -/
theorem instantJson_cases (t : Instant) :
    instantJson t = .object [("$date", .text (String.ofList t.relaxed))] ∨
      instantJson t = .object [("$date",
        .object [("$numberLong", .text (String.ofList (ofInt t.millis)))])] := by
  unfold instantJson
  split
  · exact .inl rfl
  · exact .inr rfl

/-- No key is repeated in extended JSON. -/
theorem distinctKeys_toJson (v : Value) : v.toJson.DistinctKeys := by
  have hone : ∀ {key : String} {w : Json}, w.DistinctKeys → DistinctKeys (.object [(key, w)]) :=
    fun hw => distinctKeys_object (by simp) (List.forall_mem_singleton.2 hw)
  have htext : ∀ s, DistinctKeys (.text s) := by
    rintro s fields ⟨⟩
  induction v using Value.induct with
  | null | bool | number | text | int64 => rintro fields ⟨⟩
  | identifier id => exact hone (htext _)
  | instant t =>
    rw [toJson]
    rcases instantJson_cases t with h | h <;> rw [h]
    · exact hone (htext _)
    · exact hone (hone (htext _))
  | array items ih =>
    rw [toJson, toJsonItems_eq_map]
    exact distinctKeys_array (List.forall_mem_map.2 ih)
  | object fields ih =>
    rw [toJson, toJsonFields_eq_map]
    refine distinctKeys_object (Fields.nodup_keys_merge _) fun m hm => ?_
    obtain ⟨g, hmem, rfl⟩ := List.mem_map.1 (Fields.mem_of_mem_merge hm)
    exact ih g hmem

/-- The numbers in extended JSON are integers if those of the value are. -/
theorem integral_toJson {v : Value} (h : v.Integral) : v.toJson.Integral := by
  have htext : ∀ s, Json.Integral (.text s) := by
    rintro s n ⟨⟩
  have hone : ∀ {key : String} {w : Json}, w.Integral → Json.Integral (.object [(key, w)]) :=
    fun hw => integral_object (List.forall_mem_singleton.2 hw)
  induction v using Value.induct with
  | null | bool | text => rintro n ⟨⟩
  | number n =>
    obtain ⟨i, rfl, hmin, hmax⟩ := h n .self
    rintro m hm
    rw [toJson, plainNumber_int hmax] at hm
    cases hm
    exact ⟨i, rfl, hmin, by omega⟩
  | int64 n =>
    rintro m ⟨⟩
    have hmin := n.le_toInt
    have hmax := n.toInt_lt
    exact ⟨n.toInt, rfl, hmin, by omega⟩
  | identifier id => exact hone (htext _)
  | instant t =>
    rw [toJson]
    rcases instantJson_cases t with h | h <;> rw [h]
    · exact hone (htext _)
    · exact hone (hone (htext _))
  | array items ih =>
    rw [toJson, toJsonItems_eq_map]
    exact integral_array (List.forall_mem_map.2 fun v hv => ih v hv fun n hn => h n (.item hv hn))
  | object fields ih =>
    rw [toJson, toJsonFields_eq_map]
    refine integral_object fun m hm => ?_
    obtain ⟨g, hmem, rfl⟩ := List.mem_map.1 (Fields.mem_of_mem_merge hm)
    exact ih g hmem fun n hn => h n (.field hmem hn)

/-! ## Values from extended JSON -/

/-- The milliseconds of an instant are in the range of 64 bits. -/
theorem readInstant_millis (t : Instant) :
    readInstant (.object [(Tag.numberLong.key, .text (String.ofList (ofInt t.millis)))]) =
      .ok t := by
  have hmin : -2 ^ 63 ≤ t.millis := Int.le_trans (by decide) t.firstMillis_le
  have hmax : t.millis < 2 ^ 63 := Int.lt_of_le_of_lt t.le_lastMillis (by decide)
  have hinteger := integer64?_ofList (readInt?_ofInt t.millis) hmin hmax
  simp only [readInstant, readMillis, hinteger, Instant.ofMillis?_millis, if_true]

/-- An instant is read in either form in which it is written. -/
theorem ofJson_instantJson (t : Instant) : ofJson (instantJson t) = .ok (.instant t) := by
  have hdate : ∀ {v : Json}, readInstant v = .ok t →
      ofJson (.object [(Tag.date.key, v)]) = .ok (.instant t) := by
    intro v hv
    have htag : tagged? [(Tag.date.key, v)] = some (.date, v) := rfl
    simp only [ofJson, htag, ofTagged, hv, Except.map, Except.mapError]
  rcases instantJson_cases t with h | h <;> rw [h]
  · exact hdate (readInstant_text (Instant.readMillis?_relaxed t))
  · exact hdate (readInstant_millis t)

/-- **What a value is written as in extended JSON stands for it**, with plain numbers. -/
theorem ofJson_toJson {v : Value} (hsound : v.Sound) (h : v.Integral) :
    ofJson v.toJson = .ok v.plain := by
  induction v using Value.induct with
  | null | bool | text | int64 => rfl
  | number n =>
    obtain ⟨i, rfl, -, hmax⟩ := h n .self
    rw [toJson, plainNumber_int hmax, ofJson, plain]
  | identifier id =>
    have hid := (StandsFor.identifier (ObjectId.map_toLower_hex id)).ofJson
    rwa [String.ofList_toList] at hid
  | instant t => exact ofJson_instantJson t
  | array items ih =>
    have hitems : ofJsonItems (items.map toJson) = .ok (items.map plain) :=
      ofJsonItems_map fun v hv => ih v hv (fun fields hpart => hsound fields (.item hv hpart))
        fun n hn => h n (.item hv hn)
    rw [toJson, plain, ofJson, toJsonItems_eq_map, plainItems_eq_map, hitems, Except.map]
  | object fields ih =>
    obtain ⟨hnodup, htag⟩ := hsound fields .self
    have hkeys : Fields.keys (fields.map fun g => (g.1, g.2.toJson)) = Fields.keys fields :=
      Fields.keys_map toJson fields
    have huntagged : Untagged (fields.map fun g => (g.1, g.2.toJson)) := fun key hkey =>
      htag key (hkeys.symm.trans hkey)
    have hfields : ofJsonFields (fields.map fun g => (g.1, g.2.toJson)) =
        .ok (fields.map fun g => (g.1, g.2.plain)) := by
      rw [ofJsonFields_eq_ok_iff, List.forall₂_map_left_iff, List.forall₂_map_right_iff,
        List.forall₂_same]
      exact fun g hg => ⟨rfl, ih g hg (fun fields hpart => hsound fields (.field hg hpart))
        fun n hn => h n (.field hg hn)⟩
    rw [toJson, plain, ofJson, toJsonFields_eq_map, plainFields_eq_map,
      Fields.merge_of_nodup (hkeys ▸ hnodup), huntagged.tagged?, hfields]
    rfl

end ShellQuery.Value

namespace ShellQuery.ArgumentText

open Text Dialect Json

section
variable {text : String} {trees : List Json} {vs ws : List Value}

/-! ## Compact texts as arguments -/

/-- The compact texts of trees with commas between them. -/
def listing (trees : List Json) : String :=
  ",".intercalate (trees.map compact)

/-- A list of trees is printed with commas between them. -/
theorem toList_listing (trees : List Json) :
    (listing trees).toList = [','].intercalate (trees.map compactChars) := by
  have htexts : (trees.map compact).map String.toList = trees.map compactChars := by
    rw [List.map_map]
    exact List.map_congr_left fun _ _ => String.toList_ofList
  rw [listing, String.toList_intercalate, htexts]
  rfl

/-- Compact texts list their trees, at the depth of these. -/
theorem items_listing (hne : trees ≠ []) (hi : ∀ v ∈ trees, v.Integral) :
    Items (Core (nestingItems trees)) (listing trees).toList trees := by
  have hdepth := nestingItems_le.1 (Nat.le_refl (nestingItems trees))
  rw [toList_listing]
  exact listed_intercalate hne fun v hv => padded_self (core_compactChars (hi v hv) (hdepth v hv))

/-- Compact texts are read as the values that their trees stand for. -/
theorem read_listing (hi : ∀ v ∈ trees, v.Integral) (hd : nestingItems trees < maxDepth) :
    read (listing trees) = (Value.ofJsonItems (trees.map merged)).mapError .literal := by
  by_cases hne : trees = []
  · subst hne
    rfl
  · exact read_items (trailed_of_items (items_listing hne hi)) hd

/-- Of compact texts nothing is read if they go deeper than the reader descends. -/
theorem nestingItems_lt_of_read_listing (hi : ∀ v ∈ trees, v.Integral)
    (h : read (listing trees) = .ok ws) : nestingItems (trees.map merged) < maxDepth := by
  by_cases hne : trees = []
  · subst hne
    decide
  · have htrailed := trailed_of_items (items_listing hne hi)
    obtain ⟨w, hw, -⟩ := exists_json_of_read h (trim_ne_nil_of_trailed htrailed)
    exact nestingItems_lt_of_read (Loose.normalize_items htrailed).1 hw

/-! ## Extended JSON as arguments -/

/-- The trees of values have no key to merge. -/
theorem map_merged_toJson (vs : List Value) :
    (vs.map Value.toJson).map merged = vs.map Value.toJson := by
  rw [List.map_map]
  exact List.map_congr_left fun v _ => merged_of_distinctKeys (Value.distinctKeys_toJson v)

/-- **Extended JSON can be read back.** If the numbers of arguments that were read are integers of
64 signed bits, then what is read of their compact extended JSON is the same arguments, with plain
numbers in place of 64-bit integers, and it is read exactly if it is no deeper than the reader
descends. -/
theorem read_toJson_iff (h : read text = .ok vs) (hi : ∀ v ∈ vs, v.Integral) :
    read (listing (vs.map Value.toJson)) = .ok ws ↔
      ws = vs.map Value.plain ∧ nestingItems (vs.map Value.toJson) < maxDepth := by
  have hintegral : ∀ v ∈ vs.map Value.toJson, v.Integral :=
    List.forall_mem_map.2 fun v hv => Value.integral_toJson (hi v hv)
  have hvalues : Value.ofJsonItems (vs.map Value.toJson) = .ok (vs.map Value.plain) :=
    Value.ofJsonItems_map fun v hv => Value.ofJson_toJson (Value.sound_of_read h v hv) (hi v hv)
  have hread : nestingItems (vs.map Value.toJson) < maxDepth →
      read (listing (vs.map Value.toJson)) = .ok (vs.map Value.plain) := by
    intro hd
    rw [read_listing hintegral hd, map_merged_toJson, hvalues, Except.mapError]
  refine ⟨?_, ?_⟩
  · intro hws
    have hd := nestingItems_lt_of_read_listing hintegral hws
    rw [map_merged_toJson] at hd
    rw [hread hd] at hws
    cases hws
    exact ⟨rfl, hd⟩
  · rintro ⟨rfl, hd⟩
    exact hread hd

/-- The day before 1970 keeps its tag, and a 64-bit integer loses it. -/
theorem read_toJson_iff_date :
    read "\x7b\"$date\":-86400000\x7d,\x7b\"$numberLong\":\"5\"\x7d" =
        .ok [.instant ⟨-86400000, by decide, by decide⟩, .int64 5] ∧
      read "\x7b\"$date\":\x7b\"$numberLong\":\"-86400000\"\x7d\x7d,5" =
        .ok [.instant ⟨-86400000, by decide, by decide⟩, .number (.int 5)] := by
  have hnumber : Json.Integral (.number (.int (-86400000))) := by
    rintro n ⟨⟩
    exact ⟨_, rfl, by decide, by decide⟩
  have htext : Json.Integral (.text "5") := by
    rintro n ⟨⟩
  have htrees : ∀ v ∈ [Json.object [("$date", .number (.int (-86400000)))],
      .object [("$numberLong", .text "5")]], v.Integral :=
    List.forall_mem_cons.2 ⟨integral_object (List.forall_mem_singleton.2 hnumber),
      List.forall_mem_singleton.2 (integral_object (List.forall_mem_singleton.2 htext))⟩
  have hlisting : listing [.object [("$date", .number (.int (-86400000)))],
      .object [("$numberLong", .text "5")]] =
        "\x7b\"$date\":-86400000\x7d,\x7b\"$numberLong\":\"5\"\x7d" := rfl
  have hread : read "\x7b\"$date\":-86400000\x7d,\x7b\"$numberLong\":\"5\"\x7d" =
      .ok [.instant ⟨-86400000, by decide, by decide⟩, .int64 5] := by
    rw [← hlisting, read_listing htrees (by decide)]
    rfl
  have hdate : Value.Integral (.instant ⟨-86400000, by decide, by decide⟩) := by
    rintro n ⟨⟩
  have hlong : Value.Integral (.int64 5) := by
    rintro n ⟨⟩
  have hvalues := List.forall_mem_cons.2 ⟨hdate, List.forall_mem_singleton.2 hlong⟩
  exact ⟨hread, (read_toJson_iff hread hvalues).2 ⟨rfl, by decide⟩⟩

end

end ShellQuery.ArgumentText
