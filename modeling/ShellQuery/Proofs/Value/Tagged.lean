import ShellQuery.Value.Tagged
import ShellQuery.Proofs.Fields
/-!
# Values from tagged JSON, item by item

`Value.ofJson` goes through items and fields from left to right and fails with the first that fails.
So what it makes of a list is what it makes of each of them (`ofJsonItems_eq_ok_iff`,
`ofJsonFields_eq_ok_iff`). In particular the keys of an object stay what they are.
-/

namespace ShellQuery.Value

section
variable {items : List Json} {vs : List Value} {fields : List (String × Json)}
  {gs : List (String × Value)} {key : String}

/-- The value that a field stands for has the same key. -/
def FieldOf (field : String × Json) (g : String × Value) : Prop :=
  field.1 = g.1 ∧ ofJson field.2 = .ok g.2

/-- Items become values one by one. -/
theorem ofJsonItems_eq_ok_iff :
    ofJsonItems items = .ok vs ↔ List.Forall₂ (fun v w => ofJson v = .ok w) items vs := by
  induction items generalizing vs with
  | nil =>
    rw [ofJsonItems, List.forall₂_nil_left_iff, Except.ok.injEq, eq_comm]
  | cons v more ih =>
    rw [ofJsonItems, List.forall₂_cons_left_iff]
    refine ⟨?_, ?_⟩
    · intro h
      split at h
      · cases h
      · rename_i w hw
        split at h
        · cases h
        · rename_i ws hws
          cases h
          exact ⟨w, ws, hw, ih.1 hws, rfl⟩
    · rintro ⟨w, ws, hw, hws, rfl⟩
      simp only [hw, ih.2 hws]

/-- If each item stands for its own value, then the items stand for the values. -/
theorem ofJsonItems_map {α : Type} {xs : List α} {f : α → Json} {g : α → Value}
    (h : ∀ x ∈ xs, ofJson (f x) = .ok (g x)) : ofJsonItems (xs.map f) = .ok (xs.map g) := by
  rw [ofJsonItems_eq_ok_iff, List.forall₂_map_left_iff, List.forall₂_map_right_iff,
    List.forall₂_same]
  exact h

/-- What stands in a list that is related to another one is related to something in that one. -/
theorem exists_of_mem_forall₂ {α β : Type} {R : α → β → Prop} {xs : List α} {ys : List β} {y : β}
    (h : List.Forall₂ R xs ys) (hy : y ∈ ys) : ∃ x ∈ xs, R x y := by
  induction h with
  | nil => cases hy
  | cons hr _ ih =>
    rcases List.mem_cons.1 hy with rfl | hy
    · exact ⟨_, List.mem_cons_self, hr⟩
    · obtain ⟨x, hx, hr⟩ := ih hy
      exact ⟨x, List.mem_cons_of_mem _ hx, hr⟩

/-- An item stands for one of the values. -/
theorem exists_of_mem_ofJsonItems (h : ofJsonItems items = .ok vs) {v : Json} (hv : v ∈ items) :
    ∃ w ∈ vs, ofJson v = .ok w :=
  exists_of_mem_forall₂ (ofJsonItems_eq_ok_iff.1 h).flip hv

/-- Members become fields one by one. -/
theorem ofJsonFields_eq_ok_iff :
    ofJsonFields fields = .ok gs ↔ List.Forall₂ FieldOf fields gs := by
  induction fields generalizing gs with
  | nil =>
    rw [ofJsonFields, List.forall₂_nil_left_iff, Except.ok.injEq, eq_comm]
  | cons field more ih =>
    obtain ⟨key, v⟩ := field
    rw [ofJsonFields, List.forall₂_cons_left_iff]
    refine ⟨?_, ?_⟩
    · intro h
      split at h
      · cases h
      · rename_i w hw
        split at h
        · cases h
        · rename_i ws hws
          cases h
          exact ⟨(key, w), ws, ⟨rfl, hw⟩, ih.1 hws, rfl⟩
    · rintro ⟨⟨key', w⟩, ws, ⟨hkey, hw⟩, hws, rfl⟩
      cases hkey
      simp only [hw, ih.2 hws]

/-- The keys of the fields stay what they are. -/
theorem keys_ofJsonFields (h : ofJsonFields fields = .ok gs) :
    Fields.keys gs = Fields.keys fields := by
  rw [ofJsonFields_eq_ok_iff] at h
  induction h with
  | nil => rfl
  | cons hfield _ ih => rw [Fields.keys_cons, Fields.keys_cons, ih, hfield.1]

/-- Fields that are not just one with the key of a tag. -/
def Untagged {α : Type} (fields : List (String × α)) : Prop :=
  ∀ key, Fields.keys fields = [key] → Tag.ofKey? key = none

/-- Untagged fields are not taken for a tagged value. -/
theorem Untagged.tagged? (h : Untagged fields) : tagged? fields = none := by
  unfold Value.tagged?
  split
  · rename_i key v
    rw [h key rfl]
    rfl
  · rfl

/-- An object that is not taken for a tagged value is untagged. -/
theorem untagged_of_tagged? {ms : List (String × Json)} (h : tagged? ms = none) :
    Untagged ms := by
  intro key hkey
  match ms, hkey with
  | [m], hkey =>
    cases hkey
    simpa [tagged?] using h

/-- A key that is a tag's is the key of this tag. -/
theorem key_of_ofKey? {tag : Tag} (h : Tag.ofKey? key = some tag) : key = tag.key := by
  have hkey := List.find?_some h
  simpa [eq_comm] using hkey

/-- A tag object has one member, below the key of its tag. -/
theorem tagged?_eq_some {tag : Tag} {v : Json} (h : tagged? fields = some (tag, v)) :
    fields = [(tag.key, v)] := by
  unfold tagged? at h
  split at h
  · obtain ⟨tag', htag, heq⟩ := Option.map_eq_some_iff.1 h
    cases heq
    rw [key_of_ofKey? htag]
  · cases h

/-- A key that is no tag keeps an object from being tagged. -/
theorem untagged_of_mem (hkey : Tag.ofKey? key = none) (hmem : key ∈ Fields.keys fields) :
    Untagged fields := by
  intro k hk
  rw [hk, List.mem_singleton] at hmem
  rw [← hmem, hkey]

/-- An object with a key that is no tag stands for an object with the same keys. -/
theorem ofJson_object_eq_ok {v : Value} (hkey : Tag.ofKey? key = none)
    (hmem : key ∈ Fields.keys fields) (h : ofJson (.object fields) = .ok v) :
    ∃ gs, v = .object gs ∧ Fields.keys gs = Fields.keys fields := by
  rw [ofJson, (untagged_of_mem hkey hmem).tagged?] at h
  cases hfields : ofJsonFields fields with
  | error f =>
    rw [hfields] at h
    cases h
  | ok gs =>
    rw [hfields] at h
    cases h
    exact ⟨gs, rfl, keys_ofJsonFields hfields⟩

end

end ShellQuery.Value
