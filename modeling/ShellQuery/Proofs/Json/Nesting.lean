import ShellQuery.Proofs.Fields
import ShellQuery.Proofs.Json.Reading
/-!
# How deep a text goes

`nesting` counts the brackets inside each other. What a text writes fits into the depth at which the
grammar allows it (`Core.nesting_le`), and a text writes the same values at each depth that allows
it (`map_merged_unique`). So the values of a text that the reader takes are nested no deeper than
the reader descends, whatever depth they were written at (`nestingItems_lt_of_read`).
-/

namespace ShellQuery.Json

mutual

/-- The most brackets inside each other. -/
def nesting : Json → Nat
  | .null => 0
  | .bool _ => 0
  | .number _ => 0
  | .text _ => 0
  | .array items => nestingItems items + 1
  | .object fields => nestingFields fields + 1

/-- `nesting` over the items of an array. -/
def nestingItems : List Json → Nat
  | [] => 0
  | v :: more => max v.nesting (nestingItems more)

/-- `nesting` over the fields of an object. -/
def nestingFields : List (String × Json) → Nat
  | [] => 0
  | (_, v) :: more => max v.nesting (nestingFields more)

end

section
variable {core : Language} {items vs vs' : List Json} {fields : List (String × Json)} {n d e : Nat}
  {s : List Char} {v w : Json}

/-- The depth of items is the greatest of their depths. -/
theorem nestingItems_le : nestingItems items ≤ n ↔ ∀ v ∈ items, v.nesting ≤ n := by
  induction items with
  | nil => simp [nestingItems]
  | cons v more ih => rw [nestingItems, Nat.max_le, ih, List.forall_mem_cons]

/-- Keys make no difference. -/
theorem nestingFields_eq (fields : List (String × Json)) :
    nestingFields fields = nestingItems (fields.map Prod.snd) := by
  induction fields with
  | nil => rfl
  | cons m more ih => rw [nestingFields, ih, List.map_cons, nestingItems]

/-- The depth of fields is the greatest of the depths of their values. -/
theorem nestingFields_le : nestingFields fields ≤ n ↔ ∀ m ∈ fields, m.2.nesting ≤ n := by
  rw [nestingFields_eq, nestingItems_le, List.forall_mem_map]

/-! ## In the grammar -/

/-- What all items of a kind have in common holds of those in a list. -/
theorem Listed.forall {α : Type} {item : List Char → α → Prop} {P : α → Prop} {xs : List α}
    (h : ∀ s x, item s x → P x) (hs : Listed item s xs) : ∀ x ∈ xs, P x := by
  induction hs with
  | last hx => exact List.forall_mem_singleton.2 (h _ _ hx)
  | more hx _ ih => exact List.forall_mem_cons.2 ⟨h _ _ hx, ih⟩

/-- A scalar has no brackets. -/
theorem nesting_of_scalar (h : Scalar s v) : v.merged.nesting = 0 := by
  cases h <;> rfl

/-- Brackets go one level deeper than what stands between them. -/
theorem Nested.nesting_le (h : ∀ s v, core s v → v.merged.nesting ≤ n) (hs : Nested core s v) :
    v.merged.nesting ≤ n + 1 := by
  cases hs with
  | scalar hv =>
    rw [nesting_of_scalar hv]
    exact Nat.zero_le _
  | emptyArray | emptyObject => exact Nat.succ_le_succ (Nat.zero_le _)
  | @array s vs hvs =>
    rw [merged, mergedItems_eq_map, nesting, Nat.add_le_add_iff_right, nestingItems_le,
      List.forall_mem_map]
    refine hvs.forall ?_
    rintro _ _ ⟨-, hv, -⟩
    exact h _ _ hv
  | @object s ms hms =>
    rw [merged, mergedFields_eq_map, nesting, Nat.add_le_add_iff_right, nestingFields_le]
    intro m hm
    obtain ⟨m, hmem, rfl⟩ := List.mem_map.1 (Fields.mem_of_mem_merge hm)
    refine hms.forall (P := fun m => m.2.merged.nesting ≤ n) ?_ m hmem
    rintro _ _ ⟨-, -, -, -, hv, -⟩
    exact h _ _ hv

/-- What is written fits into the depth at which it may be written. -/
theorem Core.nesting_le : ∀ {depth : Nat} {s : List Char} {v : Json}, Core depth s v →
    v.merged.nesting ≤ depth
  | 0, _, _, h => Nat.le_of_eq (nesting_of_scalar h)
  | _ + 1, _, _, h => Nested.nesting_le (fun _ _ => Core.nesting_le) h

/-- A text writes the same values at each depth that allows it. -/
theorem map_merged_unique (h : Items (Core d) s vs) (h' : Items (Core e) s vs') :
    vs.map merged = vs'.map merged := by
  have hitems : ∀ {k vs}, k ≤ max d e → Items (Core k) s vs →
      readItems (valueReader (max d e)) (s ++ [']']) = .ok (vs.map merged, []) :=
    fun hk hvs => (reads_valueReader _).readItems_items
      (hvs.mono fun _ _ => .mono fun _ _ => Core.mono hk) []
  have heq := (hitems (Nat.le_max_left d e) h).symm.trans (hitems (Nat.le_max_right d e) h')
  simpa using heq

/-- Nothing but blanks lists no value. -/
theorem not_spaces_of_items (h : Items (Core d) s vs) : ¬Spaces s := by
  obtain ⟨c, hmem, hc⟩ : ∃ c ∈ s, isSpace c = false := by
    refine h.exists_mem ?_
    rintro _ _ ⟨-, hv, -⟩
    obtain ⟨c, r, rfl, hc⟩ := opens_core d _ _ hv
    exact ⟨c, by simp, isSpace_of_opensValue hc⟩
  intro hs
  rw [hs c hmem] at hc
  cases hc

/-- The reader takes no list of values that goes deeper than it descends. -/
theorem nestingItems_lt_of_read (hs : Items (Core d) s vs)
    (h : read ('[' :: (s ++ [']'])) = .ok w) : nestingItems (vs.map merged) < maxDepth := by
  rcases read_array_eq_ok_iff.1 h with ⟨hspaces, -⟩ | ⟨vs', hs', -⟩
  · exact absurd hspaces (not_spaces_of_items hs)
  · rw [map_merged_unique hs hs']
    refine Nat.lt_of_le_pred (by decide) ?_
    rw [nestingItems_le, List.forall_mem_map]
    refine hs'.forall ?_
    rintro _ _ ⟨-, hv, -⟩
    exact Core.nesting_le hv

end

end ShellQuery.Json
