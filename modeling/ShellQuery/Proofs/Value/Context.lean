import ShellQuery.Proofs.ArgumentText
import ShellQuery.Proofs.Json.Hole
/-!
# Values at a place

When a tree is merged, what stands at one place is kept at one place, or nothing is left of it: the
latter where a key comes up again (`Json.Context.merged`, `Json.Overwritten.merged`). When a value
is made of a tree, what is made of the one place stands at one place of it, and nothing around
depends on it (`Value.Fills`, `Value.exists_context_of_ofJson`). Only below a tag this would be
different, but no tag takes an object, or anything with an object in it (`Value.ofTagged_context`).
-/

namespace ShellQuery

open Json

/-! ## Merging -/

namespace Json

/-- A place in the value of a field the key of which comes up again behind it, in the same
object. -/
inductive Overwritten : (Json → Json) → Prop
  | again {f : Json → Json} (before after : List (String × Json)) {key : String} : Context f →
      key ∈ Fields.keys after → Overwritten fun v => .object (before ++ (key, f v) :: after)
  | item {f : Json → Json} (before after : List Json) : Overwritten f →
      Overwritten fun v => .array (before ++ f v :: after)
  | field {f : Json → Json} (before after : List (String × Json)) (key : String) : Overwritten f →
      Overwritten fun v => .object (before ++ (key, f v) :: after)

section
variable {f : Json → Json} {g : Json → List Json}

/-- The items of an array are merged one by one. -/
theorem merged_array (items : List Json) : merged (.array items) = .array (items.map merged) := by
  rw [merged, mergedItems_eq_map]

/-- The values of an object are merged one by one, and then its keys. -/
theorem merged_object (fields : List (String × Json)) :
    merged (.object fields) = .object (Fields.merge (fields.map mergedMember)) := by
  rw [merged, mergedFields_eq_map]

/-- Merging the values leaves the keys. -/
theorem keys_map_mergedMember (fields : List (String × Json)) :
    Fields.keys (fields.map mergedMember) = Fields.keys fields :=
  Fields.keys_map merged fields

/-- Merging leaves nothing of what stands at an overwritten place. -/
theorem Overwritten.merged (h : Overwritten f) : ∃ w, ∀ v, (f v).merged = w := by
  induction h with
  | @again f before after key _ hkey =>
    simp only [merged_object, List.map_append, List.map_cons, mergedMember]
    rcases Fields.merge_at (before.map mergedMember) (after.map mergedMember) key with
      ⟨-, fields, hfields⟩ | ⟨hnew, -⟩
    · exact ⟨.object fields, fun v => by rw [← hfields (f v).merged]⟩
    · rw [keys_map_mergedMember] at hnew
      exact absurd hkey hnew
  | item before after _ ih =>
    obtain ⟨w, hw⟩ := ih
    simp only [merged_array, List.map_append, List.map_cons, hw]
    exact ⟨_, fun _ => rfl⟩
  | field before after key _ ih =>
    obtain ⟨w, hw⟩ := ih
    simp only [merged_object, List.map_append, List.map_cons, mergedMember, hw]
    exact ⟨_, fun _ => rfl⟩

/-- At any other place merging keeps it, at one place. -/
theorem Context.merged (h : Context f) : Overwritten f ∨
    ∃ g, Context g ∧ ∀ v, (f v).merged = g v.merged := by
  induction h with
  | hole => exact .inr ⟨_, .hole, fun _ => rfl⟩
  | item before after _ ih =>
    rcases ih with hlost | ⟨g, hg, hkeep⟩
    · exact .inl (.item before after hlost)
    · simp only [merged_array, List.map_append, List.map_cons, hkeep]
      exact .inr ⟨_, .item _ _ hg, fun _ => rfl⟩
  | @field f before after key hf ih =>
    rcases ih with hlost | ⟨g, hg, hkeep⟩
    · exact .inl (.field before after key hlost)
    simp only [merged_object, List.map_append, List.map_cons, mergedMember, hkeep]
    rcases Fields.merge_at (before.map mergedMember) (after.map mergedMember) key with
      ⟨hmem, -⟩ | ⟨-, before', after', -, hplace⟩
    · rw [keys_map_mergedMember] at hmem
      exact .inl (.again before after hf hmem)
    · exact .inr ⟨_, .field before' after' key hg, fun v => by rw [← hplace]⟩

/-- What is merged does not depend on a value that is overwritten. -/
theorem map_merged_overwritten (h : ListContext Overwritten g) :
    ∃ trees, ∀ v, (g v).map merged = trees := by
  obtain ⟨before, after, hf⟩ := h
  obtain ⟨w, hw⟩ := hf.merged
  simp only [List.map_append, List.map_cons, hw]
  exact ⟨_, fun _ => rfl⟩

/-- A place in trees is overwritten when they are merged, or is a place in what they become. -/
theorem map_merged_context (h : ListContext Context g) : ListContext Overwritten g ∨
    ∃ g', ListContext Context g' ∧ ∀ v, (g v).map merged = g' v.merged := by
  obtain ⟨before, after, hf⟩ := h
  rcases hf.merged with hlost | ⟨f', hf', hkeep⟩
  · exact .inl (.mk before after hlost)
  · simp only [List.map_append, List.map_cons, hkeep]
    exact .inr ⟨_, .mk _ _ hf', fun _ => rfl⟩

end

end Json

/-! ## Making values -/

namespace Value

/-- Whatever is made of a part stands at one place of what is made of the whole, and the whole makes
nothing if the part makes nothing. -/
def Fills {ε α β : Type} (part : Json → Except ε α) (whole : Json → Except ε β)
    (g : α → β) : Prop :=
  ∀ v y, whole v = .ok y ↔ ∃ x, part v = .ok x ∧ y = g x

section
variable {ε α β γ : Type} {part : Json → Except ε α} {middle : Json → Except ε β}
  {whole : Json → Except ε γ} {g : α → β} {k : β → γ}

/-- A value at a place of a part is at a place of the whole. -/
theorem Fills.trans (h : Fills part middle g) (hk : Fills middle whole k) :
    Fills part whole fun x => k (g x) := by
  intro v z
  rw [hk v z]
  refine ⟨?_, ?_⟩
  · rintro ⟨y, hy, rfl⟩
    obtain ⟨x, hx, rfl⟩ := (h v y).1 hy
    exact ⟨x, hx, rfl⟩
  · rintro ⟨x, hx, rfl⟩
    exact ⟨g x, (h v _).2 ⟨x, hx, rfl⟩, rfl⟩

/-- A result that is mapped holds the value at the place the map brings it to. -/
theorem Fills.map (h : Fills part middle g) (k : β → γ) :
    Fills part (fun v => (middle v).map k) fun x => k (g x) := by
  refine h.trans fun v z => ⟨fun hz => ?_, ?_⟩
  · obtain ⟨y, hy, rfl⟩ := map_eq_ok hz
    exact ⟨y, hy, rfl⟩
  · rintro ⟨y, hy, rfl⟩
    rw [hy, Except.map]

/-- A relation between elements, at one place of lists that it relates. -/
theorem forall₂_at {R : α → β → Prop} (hunique : Relator.RightUnique R) {xs ys : List α} {x : α}
    {zs : List β} (h : List.Forall₂ R (xs ++ x :: ys) zs) :
    ∃ before after, ∀ x zs,
      List.Forall₂ R (xs ++ x :: ys) zs ↔ ∃ z, R x z ∧ zs = before ++ z :: after := by
  induction xs generalizing zs with
  | nil =>
    obtain ⟨-, after, -, hafter, -⟩ := List.forall₂_cons_left_iff.1 h
    refine ⟨[], after, fun x zs => ?_⟩
    rw [List.nil_append, List.forall₂_cons_left_iff]
    refine ⟨?_, ?_⟩
    · rintro ⟨z, zs, hz, hzs, rfl⟩
      rw [hunique.forall₂ hzs hafter]
      exact ⟨z, hz, rfl⟩
    · rintro ⟨z, hz, rfl⟩
      exact ⟨z, after, hz, hafter, rfl⟩
  | cons y xs ih =>
    obtain ⟨z₀, zs₀, hz₀, hzs₀, -⟩ := List.forall₂_cons_left_iff.1 h
    obtain ⟨before, after, hplace⟩ := ih hzs₀
    refine ⟨z₀ :: before, after, fun x zs => ?_⟩
    rw [List.cons_append, List.forall₂_cons_left_iff]
    refine ⟨?_, ?_⟩
    · rintro ⟨z', zs, hz', hzs, rfl⟩
      obtain ⟨z, hz, rfl⟩ := (hplace x zs).1 hzs
      rw [hunique hz' hz₀]
      exact ⟨z, hz, rfl⟩
    · rintro ⟨z, hz, rfl⟩
      exact ⟨z₀, _, hz₀, (hplace x _).2 ⟨z, hz, rfl⟩, rfl⟩

end

section
variable {f : Json → Json} {g : Json → List Json} {w : Value} {ws : List Value}

/-- One item among those that values are made of. -/
theorem ofJsonItems_at {before after : List Json} {v : Json}
    (h : ofJsonItems (before ++ v :: after) = .ok ws) : ∃ before' after',
      Fills ofJson (fun v => ofJsonItems (before ++ v :: after))
        fun x => before' ++ x :: after' := by
  simp only [Fills, ofJsonItems_eq_ok_iff] at h ⊢
  refine forall₂_at (fun v x y hx hy => ?_) h
  exact Except.ok.inj (hx.symm.trans hy)

/-- One field among those that values are made of. -/
theorem ofJsonFields_at {before after : List (String × Json)} {key : String} {v : Json}
    {gs : List (String × Value)} (h : ofJsonFields (before ++ (key, v) :: after) = .ok gs) :
    ∃ before' after', Fills ofJson (fun v => ofJsonFields (before ++ (key, v) :: after))
      fun x => before' ++ (key, x) :: after' := by
  simp only [Fills, ofJsonFields_eq_ok_iff] at h ⊢
  have hunique : Relator.RightUnique FieldOf := by
    rintro m ⟨k, x⟩ ⟨k', y⟩ ⟨hk, hx⟩ ⟨hk', hy⟩
    exact Prod.ext (hk.symm.trans hk') (Except.ok.inj (hx.symm.trans hy))
  obtain ⟨before', after', hplace⟩ := forall₂_at hunique h
  refine ⟨before', after', fun v gs => (hplace (key, v) gs).trans ⟨?_, ?_⟩⟩
  · rintro ⟨⟨k, x⟩, ⟨hk, hx⟩, rfl⟩
    obtain rfl : key = k := hk
    exact ⟨x, hx, rfl⟩
  · rintro ⟨x, hx, rfl⟩
    exact ⟨(key, x), ⟨rfl, hx⟩, rfl⟩

/-- A tree with an object in it is no integer. -/
theorem integer64?_context (h : Json.Context f) : integer64? (f (.object [])) = none := by
  cases h <;> rfl

/-- The only field of what has an object in it is no integer. -/
theorem integer64?_field_context (h : Json.Context f) {key : String} {v : Json}
    (hv : f (.object []) = .object [(key, v)]) : integer64? v = none := by
  cases h with
  | hole | item => cases hv
  | @field f before after key hf =>
    have hfields := Json.object.inj hv
    rw [List.append_eq_singleton_iff] at hfields
    rcases hfields with ⟨rfl, hfield⟩ | ⟨-, hfield⟩
    · cases hfield
      exact integer64?_context hf
    · cases hfield

/-- A tree with an object in it is no date. -/
theorem readMillis_context (h : Json.Context f) (n : Int) :
    readMillis (f (.object [])) ≠ .ok n := by
  intro hread
  unfold readMillis at hread
  split at hread
  · rename_i s hs
    cases h <;> cases hs
  · rename_i key v hv
    simp only [integer64?_field_context h hv] at hread
    split at hread <;> cases hread
  · simp only [integer64?_context h] at hread
    cases hread

/-- No tag takes an object, or anything with an object in it, for its content. -/
theorem ofTagged_context (h : Json.Context f) (tag : Tag) (w : Value) :
    ofTagged tag (f (.object [])) ≠ .ok w := by
  intro hw
  cases tag with
  | oid =>
    obtain ⟨id, hid, -⟩ := map_eq_ok hw
    cases h <;> cases hid
  | date =>
    obtain ⟨t, ht, -⟩ := map_eq_ok hw
    unfold readInstant at ht
    split at ht
    · cases ht
    · rename_i n hn
      exact readMillis_context h n hn
  | numberLong =>
    rw [ofTagged, integer64?_context h] at hw
    cases hw
  | numberInt =>
    rw [ofTagged, integer32?, integer64?_context h] at hw
    cases hw

/-- **Values around a place do not depend on it.** -/
theorem exists_context_of_ofJson (h : Json.Context f) (hw : ofJson (f (.object [])) = .ok w) :
    ∃ g, Context g ∧ Fills ofJson (fun v => ofJson (f v)) g := by
  induction h generalizing w with
  | hole => exact ⟨_, .hole, fun v w => by simp⟩
  | @item f before after hf ih =>
    rw [ofJson] at hw
    obtain ⟨ws, hws, -⟩ := map_eq_ok hw
    obtain ⟨before', after', hplace⟩ := ofJsonItems_at hws
    obtain ⟨x, hx, -⟩ := (hplace _ _).1 hws
    obtain ⟨g, hg, hinner⟩ := ih hx
    have harray : Fills (fun v => ofJson (f v)) (fun v => ofJson (.array (before ++ f v :: after)))
        fun x => .array (before' ++ x :: after') := by
      intro v
      simp only [ofJson]
      exact hplace.map array (f v)
    exact ⟨_, .item before' after' hg, hinner.trans harray⟩
  | @field f before after key hf ih =>
    rw [ofJson] at hw
    cases htagged : tagged? (before ++ (key, f (.object [])) :: after) with
    | some tagged =>
      obtain ⟨tag, inner⟩ := tagged
      rw [htagged] at hw
      obtain rfl : f (.object []) = inner := by
        have hone := List.append_eq_singleton_iff.1 (tagged?_eq_some htagged)
        rcases hone with ⟨-, hfield⟩ | ⟨-, hfield⟩
        · exact congrArg Prod.snd (List.cons.inj hfield).1
        · cases hfield
      exact absurd (ArgumentText.mapError_eq_ok.1 hw) (ofTagged_context hf tag w)
    | none =>
    -- The keys are the same with any value, so there is no tag with any.
    have huntagged : ∀ v, tagged? (before ++ (key, f v) :: after) = none := by
      refine fun v => Untagged.tagged? fun k hk => untagged_of_tagged? htagged k ?_
      rw [← hk, Fields.keys_append, Fields.keys_append, Fields.keys_cons, Fields.keys_cons]
    rw [htagged] at hw
    obtain ⟨gs, hgs, -⟩ := map_eq_ok hw
    obtain ⟨before', after', hplace⟩ := ofJsonFields_at hgs
    obtain ⟨x, hx, -⟩ := (hplace _ _).1 hgs
    obtain ⟨g, hg, hinner⟩ := ih hx
    have hobject : Fills (fun v => ofJson (f v))
        (fun v => ofJson (.object (before ++ (key, f v) :: after)))
        fun x => .object (before' ++ (key, x) :: after') := by
      intro v
      simp only [ofJson, huntagged]
      exact hplace.map object (f v)
    exact ⟨_, .field before' after' key hg, hinner.trans hobject⟩

/-- If trees with an empty object in a place have values, the place is one in the values. -/
theorem exists_context_of_ofJsonItems (h : ListContext Json.Context g)
    (hws : ofJsonItems (g (.object [])) = .ok ws) :
    ∃ g', ListContext Context g' ∧ Fills ofJson (fun v => ofJsonItems (g v)) g' := by
  obtain @⟨f, before, after, hf⟩ := h
  obtain ⟨before', after', hplace⟩ := ofJsonItems_at hws
  obtain ⟨x, hx, -⟩ := (hplace _ _).1 hws
  obtain ⟨f', hf', hinner⟩ := exists_context_of_ofJson hf hx
  have hitems : Fills (fun v => ofJson (f v)) (fun v => ofJsonItems (before ++ f v :: after))
      fun x => before' ++ x :: after' := fun v => hplace (f v)
  exact ⟨_, .mk before' after' hf', hinner.trans hitems⟩

/-- **What stands at a place of trees counts at one place of the values**, if it is not
overwritten. -/
theorem ofJsonItems_merged_context (h : ListContext Json.Context g)
    (hws : ofJsonItems ((g (.object [])).map merged) = .ok ws) :
    ListContext Overwritten g ∨ ∃ g', ListContext Context g' ∧
      Fills (fun v => ofJson v.merged) (fun v => ofJsonItems ((g v).map merged)) g' := by
  rcases map_merged_context h with hlost | ⟨g', hg', hkeep⟩
  · exact .inl hlost
  · simp only [hkeep] at hws ⊢
    obtain ⟨g'', hg'', hvalues⟩ := exists_context_of_ofJsonItems hg' hws
    exact .inr ⟨g'', hg'', fun v => hvalues v.merged⟩

end

end Value

end ShellQuery
