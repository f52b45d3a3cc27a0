import ShellQuery.Proofs.ArgumentText
import ShellQuery.Proofs.Value.Tagged
/-!
# What values look like that were read

The keys of an object that was read from a text differ, and no such object has a tag for its only
key, since it would have become the tagged value: `Sound` says this at every depth. The keys differ
already in what the reader of strict JSON returns (`distinctKeys_merged`), and making values of it
keeps the keys and leaves no tagged object behind (`sound_ofJson`). So every argument that was read
is sound (`sound_of_read`).
-/

namespace ShellQuery

/-! ## Trees -/

namespace Json

/-- The keys of every object in a tree differ. -/
def DistinctKeys (v : Json) : Prop :=
  ∀ fields, Part (.object fields) v → (Fields.keys fields).Nodup

variable {items : List Json} {fields : List (String × Json)}

/-- An array repeats no key if its items do not. -/
theorem distinctKeys_array (h : ∀ v ∈ items, v.DistinctKeys) : DistinctKeys (.array items) := by
  rintro fields (_ | ⟨hv, hpart⟩)
  exact h _ hv fields hpart

/-- An object repeats no key if neither it nor its values do. -/
theorem distinctKeys_object (hkeys : (Fields.keys fields).Nodup)
    (h : ∀ m ∈ fields, m.2.DistinctKeys) : DistinctKeys (.object fields) := by
  rintro gs (_ | _ | ⟨hm, hpart⟩)
  · exact hkeys
  · exact h _ hm gs hpart

/-- Merging leaves no key repeated. -/
theorem distinctKeys_merged (v : Json) : v.merged.DistinctKeys := by
  induction v using induct with
  | null | bool | number | text => rintro fields ⟨⟩
  | array items ih =>
    rw [merged, mergedItems_eq_map]
    exact distinctKeys_array (List.forall_mem_map.2 ih)
  | object fields ih =>
    rw [merged, mergedFields_eq_map]
    refine distinctKeys_object (Fields.nodup_keys_merge _) fun m hm => ?_
    obtain ⟨m, hmem, rfl⟩ := List.mem_map.1 (Fields.mem_of_mem_merge hm)
    exact ih m hmem

/-- Merging changes nothing where no key is repeated. -/
theorem merged_of_distinctKeys {v : Json} (h : v.DistinctKeys) : v.merged = v := by
  induction v using induct with
  | null | bool | number | text => rfl
  | array items ih =>
    have hitems : ∀ v ∈ items, v.merged = v := fun v hv =>
      ih v hv fun fields hpart => h fields (.item hv hpart)
    rw [merged, mergedItems_eq_map, List.map_congr_left hitems, List.map_id']
  | object fields ih =>
    have hfields : ∀ m ∈ fields, mergedMember m = m := fun m hm =>
      Prod.ext rfl (ih m hm fun fields hpart => h fields (.field hm hpart))
    rw [merged, mergedFields_eq_map, List.map_congr_left hfields, List.map_id',
      Fields.merge_of_nodup (h fields .self)]

end Json

/-! ## Values -/

namespace Value

/-- Induction over values. -/
@[elab_as_elim]
theorem induct {P : Value → Prop} (null : P .null) (bool : ∀ b, P (.bool b))
    (number : ∀ n, P (.number n)) (text : ∀ s, P (.text s)) (identifier : ∀ id, P (.identifier id))
    (instant : ∀ t, P (.instant t)) (int64 : ∀ i, P (.int64 i))
    (array : ∀ items, (∀ v ∈ items, P v) → P (.array items))
    (object : ∀ fields, (∀ g ∈ fields, P g.2) → P (.object fields)) (v : Value) : P v :=
  @Value.rec P (fun items => ∀ v ∈ items, P v) (fun fields => ∀ g ∈ fields, P g.2)
    (fun g => P g.2) null bool number text identifier instant int64 array object nofun
    (fun _ _ hv hmore => List.forall_mem_cons.2 ⟨hv, hmore⟩) nofun
    (fun _ _ hg hmore => List.forall_mem_cons.2 ⟨hg, hmore⟩) (fun _ _ hv => hv) v

/-- `Part w v` says that `w` is `v` or stands anywhere inside of it. -/
inductive Part (w : Value) : Value → Prop
  | self : Part w w
  | item {v : Value} {items : List Value} : v ∈ items → Part w v → Part w (.array items)
  | field {g : String × Value} {fields : List (String × Value)} : g ∈ fields → Part w g.2 →
      Part w (.object fields)

/-- The keys of every object in a value differ, and none would be taken for a tagged value. -/
def Sound (v : Value) : Prop :=
  ∀ fields, Part (.object fields) v → (Fields.keys fields).Nodup ∧ Untagged fields

variable {items : List Value} {fields : List (String × Value)} {v : Json} {w : Value}

/-- An array is sound if its items are. -/
theorem sound_array (h : ∀ v ∈ items, v.Sound) : Sound (.array items) := by
  rintro fields (_ | ⟨hv, hpart⟩)
  exact h _ hv fields hpart

/-- An object is sound if it repeats no key, is no tag object, and its values are sound. -/
theorem sound_object (hkeys : (Fields.keys fields).Nodup) (htag : Untagged fields)
    (h : ∀ g ∈ fields, g.2.Sound) : Sound (.object fields) := by
  rintro gs (_ | _ | ⟨hg, hpart⟩)
  · exact ⟨hkeys, htag⟩
  · exact h _ hg gs hpart

/-- What a tag makes of its content holds no object. -/
theorem sound_ofTagged {tag : Tag} (h : ofTagged tag v = .ok w) : w.Sound := by
  cases tag with
  | oid | date =>
    obtain ⟨x, -, h⟩ := Json.map_eq_ok h
    cases h
    rintro fields ⟨⟩
  | numberLong | numberInt =>
    simp only [ofTagged] at h
    split at h
    · cases h
      rintro fields ⟨⟩
    · cases h

/-- **Values that are made of trees without repeated keys are sound.** -/
theorem sound_ofJson (hv : v.DistinctKeys) (h : ofJson v = .ok w) : w.Sound := by
  induction v using Json.induct generalizing w with
  | null | bool | number | text =>
    cases h
    rintro fields ⟨⟩
  | array items ih =>
    rw [ofJson] at h
    obtain ⟨vs, hvs, h⟩ := Json.map_eq_ok h
    cases h
    refine sound_array fun w hw => ?_
    obtain ⟨v, hmem, hvw⟩ := exists_of_mem_forall₂ (ofJsonItems_eq_ok_iff.1 hvs) hw
    exact ih v hmem (fun fields hpart => hv fields (.item hmem hpart)) hvw
  | object fields ih =>
    rw [ofJson] at h
    cases htagged : tagged? fields with
    | some tagged =>
      rw [htagged] at h
      exact sound_ofTagged (ArgumentText.mapError_eq_ok.1 h)
    | none =>
      rw [htagged] at h
      obtain ⟨gs, hgs, h⟩ := Json.map_eq_ok h
      cases h
      have hkeys := keys_ofJsonFields hgs
      refine sound_object (hkeys ▸ hv fields .self) (fun key hkey => ?_) fun g hg => ?_
      · exact untagged_of_tagged? htagged key (hkeys ▸ hkey)
      · obtain ⟨m, hmem, -, hm⟩ := exists_of_mem_forall₂ (ofJsonFields_eq_ok_iff.1 hgs) hg
        exact ih m hmem (fun fields hpart => hv fields (.field hmem hpart)) hm

/-- **Arguments that were read are sound.** -/
theorem sound_of_read {text : String} {ws : List Value} (h : ArgumentText.read text = .ok ws) :
    ∀ w ∈ ws, w.Sound := by
  by_cases htrim : Text.trim text.toList = []
  · rw [ArgumentText.read_blank (Text.trim_eq_nil_iff.1 htrim)] at h
    cases h
    exact fun _ => nofun
  · obtain ⟨v, hv, hws⟩ := ArgumentText.exists_json_of_read h htrim
    rcases Json.read_array_eq_ok_iff.1 hv with ⟨-, rfl⟩ | ⟨vs, -, rfl⟩
    · cases hws
      exact fun _ => nofun
    · intro w hw
      obtain ⟨v, hmem, hvw⟩ := exists_of_mem_forall₂ (ofJsonItems_eq_ok_iff.1 hws) hw
      obtain ⟨v, -, rfl⟩ := List.mem_map.1 hmem
      exact sound_ofJson (Json.distinctKeys_merged v) hvw

end Value

end ShellQuery
