import Mathlib.Data.List.Induction
import Mathlib.Data.List.Nodup
import Mathlib.Tactic.Common
import ShellQuery.Fields
/-!
# Fields by their keys

Merging neither loses nor invents a key (`mem_keys_merge`), nor does it invent a field
(`mem_of_mem_merge`). It leaves no key repeated (`nodup_keys_merge`), and it changes nothing where
none is (`merge_of_nodup`). Each key stands where it comes up first (`keys_merge`), with the value
it has last (`get?_merge`). So of a value in the pairs either nothing is left, or it stands at one
place (`merge_at`).
-/

namespace ShellQuery.Fields

variable {α : Type}

/-- The keys of fields, in their order. -/
def keys (fields : List (String × α)) : List String :=
  fields.map Prod.fst

section
variable {key k : String} {value : α} {fields pairs : List (String × α)}

@[simp] theorem keys_nil : keys ([] : List (String × α)) = [] :=
  rfl

@[simp] theorem keys_cons {field : String × α} : keys (field :: fields) = field.1 :: keys fields :=
  rfl

@[simp] theorem keys_append : keys (fields ++ pairs) = keys fields ++ keys pairs :=
  List.map_append

/-- Putting a field adds its key and no other. -/
theorem mem_keys_put : k ∈ keys (put key value fields) ↔ k = key ∨ k ∈ keys fields := by
  induction fields with
  | nil => simp [put]
  | cons field more ih =>
    rw [put]
    split
    · rename_i hkey
      subst hkey
      simp
    · simp only [keys_cons, List.mem_cons, ih]
      tauto

/-- A field is the one that was put, or it was there before. -/
theorem mem_of_mem_put {field : String × α} (h : field ∈ put key value fields) :
    field = (key, value) ∨ field ∈ fields := by
  induction fields with
  | nil => exact .inl (List.mem_singleton.1 h)
  | cons other more ih =>
    rw [put] at h
    split at h
    · rcases List.mem_cons.1 h with h | h
      · exact .inl h
      · exact .inr (List.mem_cons_of_mem _ h)
    · rcases List.mem_cons.1 h with h | h
      · exact .inr (h ▸ List.mem_cons_self)
      · exact (ih h).imp_right (List.mem_cons_of_mem _)

/-- A new key goes to the end. -/
theorem put_of_not_mem (h : key ∉ keys fields) :
    put key value fields = fields ++ [(key, value)] := by
  induction fields with
  | nil => rfl
  | cons field more ih =>
    simp only [keys_cons, List.mem_cons, not_or] at h
    rw [put, if_neg (Ne.symm h.1), ih h.2, List.cons_append]

/-- Putting pairs one after the other adds exactly their keys. -/
theorem mem_keys_foldl : k ∈ keys (pairs.foldl (fun fields (key, value) => put key value fields)
    fields) ↔ k ∈ keys fields ∨ k ∈ keys pairs := by
  induction pairs generalizing fields with
  | nil => simp
  | cons pair more ih =>
    rw [List.foldl_cons, ih, mem_keys_put, keys_cons, List.mem_cons]
    tauto

/-- Merging neither loses nor invents a key. -/
theorem mem_keys_merge : k ∈ keys (merge pairs) ↔ k ∈ keys pairs := by
  rw [merge, mem_keys_foldl]
  simp

/-- A field comes from the pairs that are put, or it was there before. -/
theorem mem_of_mem_foldl {field : String × α}
    (h : field ∈ pairs.foldl (fun fields (key, value) => put key value fields) fields) :
    field ∈ fields ∨ field ∈ pairs := by
  induction pairs generalizing fields with
  | nil => exact .inl h
  | cons pair more ih =>
    rw [List.foldl_cons] at h
    rcases ih h with h | h
    · rcases mem_of_mem_put h with rfl | h
      · exact .inr List.mem_cons_self
      · exact .inl h
    · exact .inr (List.mem_cons_of_mem _ h)

/-- Merged fields are among the pairs. -/
theorem mem_of_mem_merge {field : String × α} (h : field ∈ merge pairs) : field ∈ pairs :=
  (mem_of_mem_foldl h).resolve_left List.not_mem_nil

/-- Putting a field repeats no key. -/
theorem nodup_keys_put (h : (keys fields).Nodup) : (keys (put key value fields)).Nodup := by
  induction fields with
  | nil => simp [put]
  | cons field more ih =>
    rw [keys_cons, List.nodup_cons] at h
    rw [put]
    split
    · rename_i hkey
      subst hkey
      exact List.nodup_cons.2 h
    · rename_i hkey
      refine List.nodup_cons.2 ⟨fun hmem => ?_, ih h.2⟩
      exact (mem_keys_put.1 hmem).elim hkey h.1

/-- Putting pairs one after the other repeats no key. -/
theorem nodup_keys_foldl (h : (keys fields).Nodup) :
    (keys (pairs.foldl (fun fields (key, value) => put key value fields) fields)).Nodup := by
  induction pairs generalizing fields with
  | nil => exact h
  | cons pair more ih => exact ih (nodup_keys_put h)

/-- Merged fields have different keys. -/
theorem nodup_keys_merge (pairs : List (String × α)) : (keys (merge pairs)).Nodup :=
  nodup_keys_foldl List.nodup_nil

/-- Pairs with new keys, all different, go to the end in their order. -/
theorem foldl_put_of_nodup (h : (keys (fields ++ pairs)).Nodup) :
    pairs.foldl (fun fields (key, value) => put key value fields) fields = fields ++ pairs := by
  induction pairs generalizing fields with
  | nil => simp
  | cons pair more ih =>
    obtain ⟨key, value⟩ := pair
    have hnew : key ∉ keys fields := by
      rw [keys_append, List.nodup_append] at h
      exact fun hmem => h.2.2 _ hmem _ (by simp) rfl
    have hsplit : fields ++ (key, value) :: more = fields ++ [(key, value)] ++ more := by simp
    rw [hsplit] at h ⊢
    rw [List.foldl_cons]
    show List.foldl _ (put key value fields) more = _
    rw [put_of_not_mem hnew]
    exact ih h

/-- Fields without repeated keys are merged already. -/
theorem merge_of_nodup (h : (keys pairs).Nodup) : merge pairs = pairs := by
  have hfold := foldl_put_of_nodup (by rwa [List.nil_append] : (keys ([] ++ pairs)).Nodup)
  rwa [List.nil_append] at hfold

/-- A key is found if it is one of the keys. -/
theorem isSome_get? : (get? key fields).isSome = true ↔ key ∈ keys fields := by
  induction fields with
  | nil => simp [get?]
  | cons field more ih =>
    rw [get?]
    split
    · rename_i hkey
      subst hkey
      simp
    · rename_i hkey
      rw [ih, keys_cons, List.mem_cons]
      exact ⟨.inr, fun h => h.resolve_left (Ne.symm hkey)⟩

/-! ## Order and values -/

/-- A known key keeps its place. -/
theorem keys_put_of_mem (h : key ∈ keys fields) : keys (put key value fields) = keys fields := by
  induction fields with
  | nil => cases h
  | cons field more ih =>
    rw [put]
    split
    · rename_i hkey
      rw [keys_cons, keys_cons, hkey]
    · rename_i hkey
      rw [keys_cons, keys_cons, ih (List.mem_of_ne_of_mem (Ne.symm hkey) h)]

/-- The last of several pairs is put into what the others make. -/
theorem merge_concat (pairs : List (String × α)) (key : String) (value : α) :
    merge (pairs ++ [(key, value)]) = put key value (merge pairs) := by
  rw [merge, List.foldl_append]
  rfl

/-- Merged fields stand in the order in which their keys come up first. -/
theorem keys_merge (pairs : List (String × α)) : keys (merge pairs) = (keys pairs).eraseDups := by
  induction pairs using List.reverseRecOn with
  | nil => rfl
  | append_singleton pairs pair ih =>
    obtain ⟨key, value⟩ := pair
    rw [merge_concat, keys_append, List.eraseDups_append]
    by_cases hkey : key ∈ keys pairs
    · rw [keys_put_of_mem (mem_keys_merge.2 hkey), ih]
      simp [List.removeAll, hkey]
    · rw [put_of_not_mem (mt mem_keys_merge.1 hkey), keys_append, ih]
      simp [List.removeAll, hkey, List.eraseDups_cons]

/-- A field that is put is found below its key, and the others as before. -/
theorem get?_put :
    get? k (put key value fields) = if key = k then some value else get? k fields := by
  induction fields with
  | nil => rfl
  | cons field more ih =>
    rw [put]
    split
    · rename_i hkey
      subst hkey
      simp only [get?]
      split <;> rfl
    · rename_i hkey
      simp only [get?, ih]
      split
      · rename_i hk
        rw [if_neg fun h => hkey (hk.trans h.symm)]
      · rfl

/-- A merged field has the value that stands last in the pairs. -/
theorem get?_merge (k : String) (pairs : List (String × α)) :
    get? k (merge pairs) = get? k pairs.reverse := by
  induction pairs using List.reverseRecOn with
  | nil => rfl
  | append_singleton pairs pair ih =>
    rw [merge_concat, get?_put, ih, List.reverse_concat]
    rfl

/-- What is found below a key is one of the fields. -/
theorem mem_of_get? (h : get? k fields = some value) : (k, value) ∈ fields := by
  induction fields with
  | nil => cases h
  | cons field more ih =>
    rw [get?] at h
    split at h
    · rename_i hkey
      cases h
      subst hkey
      exact List.mem_cons_self
    · exact List.mem_cons_of_mem _ (ih h)

/-- Where no key is repeated, each field is found by its key. -/
theorem get?_of_mem (hnodup : (keys fields).Nodup) (h : (k, value) ∈ fields) :
    get? k fields = some value := by
  induction fields with
  | nil => cases h
  | cons field more ih =>
    rw [keys_cons, List.nodup_cons] at hnodup
    rw [get?]
    rcases List.mem_cons.1 h with rfl | h
    · exact if_pos rfl
    · have hne : field.1 ≠ k := by
        rintro rfl
        exact hnodup.1 (List.mem_map.2 ⟨_, h, rfl⟩)
      rw [if_neg hne, ih hnodup.2 h]

/-! ## One value among others -/

/-- A value is put at a place that does not depend on it. -/
theorem exists_put (key : String) (fields : List (String × α)) :
    ∃ before after, key ∉ keys before ∧
      ∀ value, put key value fields = before ++ (key, value) :: after := by
  induction fields with
  | nil => exact ⟨[], [], List.not_mem_nil, fun _ => rfl⟩
  | cons field more ih =>
    obtain ⟨k, v⟩ := field
    by_cases hkey : k = key
    · exact ⟨[], more, List.not_mem_nil, fun _ => if_pos hkey⟩
    · obtain ⟨before, after, hnew, hput⟩ := ih
      refine ⟨(k, v) :: before, after, ?_, fun value => ?_⟩
      · exact List.not_mem_cons_of_ne_of_not_mem (Ne.symm hkey) hnew
      · rw [put, if_neg hkey, hput, List.cons_append]

/-- Putting another key leaves a value at its place. -/
theorem exists_put_of_ne (hne : k ≠ key) (other : α) {before : List (String × α)}
    (hnew : key ∉ keys before) (after : List (String × α)) :
    ∃ before' after', key ∉ keys before' ∧ ∀ value,
      put k other (before ++ (key, value) :: after) = before' ++ (key, value) :: after' := by
  induction before with
  | nil => exact ⟨[], put k other after, hnew, fun _ => if_neg (Ne.symm hne)⟩
  | cons field more ih =>
    obtain ⟨k', v⟩ := field
    replace hnew := List.ne_and_not_mem_of_not_mem_cons hnew
    by_cases hkey : k' = k
    · refine ⟨(k, other) :: more, after, ?_, fun value => ?_⟩
      · exact List.not_mem_cons_of_ne_of_not_mem (Ne.symm hne) hnew.2
      · rw [List.cons_append, put, if_pos hkey, List.cons_append]
    · obtain ⟨before', after', hnew', hput⟩ := ih hnew.2
      refine ⟨(k', v) :: before', after', ?_, fun value => ?_⟩
      · exact List.not_mem_cons_of_ne_of_not_mem hnew.1 hnew'
      · rw [List.cons_append, put, if_neg hkey, hput, List.cons_append]

/-- Putting the same key again leaves nothing of the value that was there. -/
theorem put_at {before : List (String × α)} (hnew : key ∉ keys before) (other value : α)
    (after : List (String × α)) :
    put key other (before ++ (key, value) :: after) = before ++ (key, other) :: after := by
  induction before with
  | nil => exact if_pos rfl
  | cons field more ih =>
    replace hnew := List.ne_and_not_mem_of_not_mem_cons hnew
    rw [List.cons_append, put, if_neg (Ne.symm hnew.1), ih hnew.2, List.cons_append]

/-- Of the value of one field merging keeps nothing, if its key comes up again, or it keeps the
value at one place. -/
theorem merge_at (before after : List (String × α)) (key : String) :
    (key ∈ keys after ∧ ∃ fields, ∀ value, merge (before ++ (key, value) :: after) = fields) ∨
      key ∉ keys after ∧ ∃ before' after', key ∉ keys before' ∧ ∀ value,
        merge (before ++ (key, value) :: after) = before' ++ (key, value) :: after' := by
  induction after using List.reverseRecOn with
  | nil =>
    obtain ⟨before', after', hnew, hput⟩ := exists_put key (merge before)
    exact .inr ⟨List.not_mem_nil, before', after', hnew,
      fun value => (merge_concat before key value).trans (hput value)⟩
  | append_singleton after field ih =>
    obtain ⟨k, other⟩ := field
    have hmerge : ∀ value, merge (before ++ (key, value) :: (after ++ [(k, other)])) =
        put k other (merge (before ++ (key, value) :: after)) := by
      intro value
      rw [← List.cons_append, ← List.append_assoc, merge_concat]
    simp only [hmerge, keys_append, List.mem_append]
    rcases ih with ⟨hmem, fields, hfields⟩ | ⟨hmem, before', after', hnew, hplace⟩
    · exact .inl ⟨.inl hmem, put k other fields, fun value => by rw [hfields]⟩
    by_cases hkey : k = key
    · subst hkey
      refine .inl ⟨.inr List.mem_cons_self, before' ++ (k, other) :: after', fun value => ?_⟩
      rw [hplace, put_at hnew]
    · obtain ⟨before, after, hnew, hput⟩ := exists_put_of_ne hkey other hnew after'
      refine .inr ⟨?_, before, after, hnew, fun value => by rw [hplace, hput]⟩
      rintro (h | h)
      · exact hmem h
      · exact hkey (List.mem_singleton.1 h).symm

/-! ## Values of another type -/

section
variable {β : Type} (f : α → β)

/-- Changing all values leaves the keys. -/
theorem keys_map (fields : List (String × α)) :
    keys (fields.map fun m => (m.1, f m.2)) = keys fields := by
  simp [keys]

/-- A changed value is found where the value was. -/
theorem get?_map (k : String) (fields : List (String × α)) :
    get? k (fields.map fun m => (m.1, f m.2)) = (get? k fields).map f := by
  induction fields with
  | nil => rfl
  | cons field more ih =>
    simp only [List.map_cons, get?, ih]
    split <;> rfl

/-- Putting a value and changing all values can change places. -/
theorem put_map (key : String) (value : α) (fields : List (String × α)) :
    put key (f value) (fields.map fun m => (m.1, f m.2)) =
      (put key value fields).map fun m => (m.1, f m.2) := by
  induction fields with
  | nil => rfl
  | cons field more ih =>
    simp only [List.map_cons, put, ih]
    split <;> rfl

/-- Merging looks at keys only. -/
theorem merge_map (pairs : List (String × α)) :
    merge (pairs.map fun m => (m.1, f m.2)) = (merge pairs).map fun m => (m.1, f m.2) := by
  induction pairs using List.reverseRecOn with
  | nil => rfl
  | append_singleton pairs pair ih =>
    obtain ⟨key, value⟩ := pair
    rw [List.map_append, List.map_singleton, merge_concat, merge_concat, ih, put_map]

end

end

end ShellQuery.Fields
