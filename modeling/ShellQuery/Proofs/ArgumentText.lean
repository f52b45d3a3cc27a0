import ShellQuery.ArgumentText
import ShellQuery.Proofs.Dialect.Continuation
import ShellQuery.Proofs.Json.Foreign
import ShellQuery.Proofs.Value.Tagged
/-!
# Reading argument texts

`read_items` says what a list of values in the dialect is read as, by way of the pass and the
reader; `read_eq_ok` says what the values are that were read from any text. Two texts that were
read list with a comma between them the arguments of both (`read_append_comma`). The dialect is a
conservative extension of JSON: `read_of_strict` says that a list of strict JSON values keeps what
it means, at any depth of brackets, and is read as if no pass had gone over it.
-/

namespace ShellQuery.ArgumentText

open Text Dialect Json

section
variable {s : List Char} {vs : List Json} {ws : List Value} {depth : Nat}

/-- Another error makes no difference to a result. -/
theorem mapError_eq_ok {ε ε' α : Type} {f : ε → ε'} {x : Except ε α} {a : α} :
    x.mapError f = .ok a ↔ x = .ok a := by
  cases x <;> simp [Except.mapError]

/-- A list of values is not blank. -/
theorem trim_ne_nil_of_trailed (h : Trailed (Padded (Loose depth)) s vs) : trim s ≠ [] := by
  obtain ⟨c, hmem, hc⟩ : ∃ c ∈ s, isBlank c = false := by
    obtain ⟨hlisted, -⟩ := h
    obtain ⟨c, hmem, hc⟩ := hlisted.exists_mem (p := fun c => isBlank c = false) <| by
      rintro _ _ ⟨-, hv, -⟩
      obtain ⟨c, u, rfl, hc, -⟩ := (Loose.kept depth).opens _ _ hv
      exact ⟨c, by simp, hc⟩
    exact ⟨c, List.mem_append_left _ hmem, hc⟩
  rw [Ne, trim_eq_nil_iff]
  intro hall
  rw [hall c hmem] at hc
  cases hc

/-- Items in strict JSON are a list of the dialect that ends without a comma. -/
theorem trailed_of_items (h : Items (Core depth) s vs) : Trailed (Padded (Loose depth)) s vs :=
  .of_listed (fun _ _ => .mono fun _ _ => Loose.of_core) h

/-- Blanks are copied. -/
theorem normalize_blanks (h : Blanks s) : normalize s = s ∧ isBalanced s = true :=
  (Passes.blanks h).normalize

/-- A balanced text the strict form of which lists trees is read as what these stand for. -/
theorem read_of_items {text : String} (hbalanced : isBalanced text.toList = true)
    (h : Items (Core depth) (normalize text.toList) vs) (hdepth : depth < maxDepth) :
    read text = (Value.ofJsonItems (vs.map merged)).mapError .literal := by
  have hjson : Json.read ('[' :: (normalize text.toList ++ [']'])) = .ok (.array (vs.map merged)) :=
    read_array_eq_ok_iff.2 (.inr ⟨vs, h.mono fun _ _ => .mono fun _ _ =>
      Core.mono (Nat.le_sub_one_of_lt hdepth), rfl⟩)
  have htrim : trim text.toList ≠ [] := by
    intro hnil
    rw [(normalize_blanks (trim_eq_nil_iff.1 hnil)).1] at h
    exact trim_ne_nil_of_trailed (trailed_of_items h) hnil
  simp [read, htrim, hbalanced, hjson, itemsOf]

/-- A list of values in the dialect is read as the values its trees stand for. -/
theorem read_items {text : String} (h : Trailed (Padded (Loose depth)) text.toList vs)
    (hdepth : depth < maxDepth) :
    read text = (Value.ofJsonItems (vs.map merged)).mapError .literal :=
  have ⟨hitems, hbalanced⟩ := Loose.normalize_items h
  read_of_items hbalanced hitems hdepth

/-- One value in the dialect is read as what its tree stands for. -/
theorem read_value {text : String} {v : Json} (h : Loose depth text.toList v)
    (hdepth : depth < maxDepth) :
    read text = (Value.ofJsonItems [v.merged]).mapError .literal := by
  have hlist : Trailed (Padded (Loose depth)) (text.toList ++ []) [v] :=
    .mk (.last (.of_core h)) .none
  rw [List.append_nil] at hlist
  exact read_items hlist hdepth

/-- A blank text lists nothing. -/
theorem read_blank {text : String} (h : Blanks text.toList) : read text = .ok [] := by
  simp [read, trim_eq_nil_iff.2 h]

/-- What was read from a text that is not blank was made of what strict JSON is read as. -/
theorem exists_json_of_read {text : String} (h : read text = .ok ws)
    (htrim : trim text.toList ≠ []) :
    ∃ w, Json.read ('[' :: (normalize text.toList ++ [']'])) = .ok w ∧
      Value.ofJsonItems (itemsOf w) = .ok ws := by
  rw [ne_eq, ← List.isEmpty_iff] at htrim
  unfold read at h
  simp only [if_neg htrim] at h
  split at h
  · cases h
  · split at h
    · cases h
    · rename_i w hw
      exact ⟨w, hw, mapError_eq_ok.1 h⟩

/-- The strict form of a text that was read has nothing foreign outside of strings. -/
theorem free_of_read {text : String} (h : read text = .ok ws) (htrim : trim text.toList ≠ []) :
    Free isForeign (normalize text.toList) := by
  obtain ⟨w, hw, -⟩ := exists_json_of_read h htrim
  rcases read_array_eq_ok_iff.1 hw with ⟨hspaces, -⟩ | ⟨vs, hitems, -⟩
  · exact free_spaces hspaces
  · exact free_items hitems

/-- A list of which anything is read closes what it opens. -/
theorem isBalanced_of_read {text : String} (h : read text = .ok ws) :
    isBalanced text.toList = true := by
  by_cases htrim : trim text.toList = []
  · exact (normalize_blanks (trim_eq_nil_iff.1 htrim)).2
  · rw [← List.isEmpty_iff] at htrim
    unfold read at h
    simp only [if_neg htrim] at h
    split at h
    · cases h
    · rename_i hbalanced
      simpa using hbalanced

/-- What is read from a text that is not blank depends on its balance and its strict form only. -/
theorem read_eq_ok_iff_json {text : String} (htrim : trim text.toList ≠ []) : read text = .ok ws ↔
    isBalanced text.toList = true ∧
      ∃ w, Json.read ('[' :: (normalize text.toList ++ [']'])) = .ok w ∧
        Value.ofJsonItems (itemsOf w) = .ok ws := by
  refine ⟨fun h => ⟨isBalanced_of_read h, exists_json_of_read h htrim⟩, ?_⟩
  rintro ⟨hbalanced, w, hw, hvalues⟩
  simp [read, htrim, hbalanced, hw, hvalues, Except.mapError]

/-- The strict form of a text that was read lists trees, and the arguments are what these stand for
when of repeated keys the last value counts. Where it lists none, it is blank. -/
theorem exists_trees_of_read {text : String} (h : read text = .ok ws) :
    ∃ vs, (Blanks (normalize text.toList) ∧ vs = [] ∨
        Items (Core (maxDepth - 1)) (normalize text.toList) vs) ∧
      Value.ofJsonItems (vs.map merged) = .ok ws := by
  by_cases htrim : trim text.toList = []
  · have hblanks := trim_eq_nil_iff.1 htrim
    rw [read_blank hblanks] at h
    cases h
    rw [(normalize_blanks hblanks).1]
    exact ⟨[], .inl ⟨hblanks, rfl⟩, rfl⟩
  · obtain ⟨w, hw, hvalues⟩ := exists_json_of_read h htrim
    rcases read_array_eq_ok_iff.1 hw with ⟨hspaces, rfl⟩ | ⟨vs, hs, rfl⟩
    · exact ⟨[], .inl ⟨blanks_of_spaces hspaces, rfl⟩, hvalues⟩
    · exact ⟨vs, .inr hs, hvalues⟩

/-- Values that were read are those that the trees of the strict form stand for. -/
theorem read_eq_ok {text : String} (h : read text = .ok ws)
    (hs : Items (Core (maxDepth - 1)) (normalize text.toList) vs) :
    Value.ofJsonItems (vs.map merged) = .ok ws := by
  rw [read_of_items (isBalanced_of_read h) hs (by decide)] at h
  exact mapError_eq_ok.1 h

/-- The strict form of a text of which a value was read lists trees. -/
theorem exists_items_of_read {text : String} (h : read text = .ok ws) (hne : ws ≠ []) :
    ∃ vs, Items (Core (maxDepth - 1)) (normalize text.toList) vs ∧
      Value.ofJsonItems (vs.map merged) = .ok ws := by
  obtain ⟨vs, ⟨-, rfl⟩ | hitems, hvalues⟩ := exists_trees_of_read h
  · cases hvalues
    exact absurd rfl hne
  · exact ⟨vs, hitems, hvalues⟩

/-! ## Lists one behind the other -/

/-- **Argument lists concatenate.** Two texts of which arguments were read, with a comma between
them, are read as the arguments of the one and then those of the other, unless a comma stands at the
end of the first. -/
theorem read_append_comma {a b : String} {va vb : List Value} (ha : read a = .ok va)
    (hb : read b = .ok vb) (hane : va ≠ []) (hbne : vb ≠ [])
    (hcomma : (trimEnd a.toList).getLast? ≠ some ',') : read (a ++ "," ++ b) = .ok (va ++ vb) := by
  obtain ⟨xs, hxs, hva⟩ := exists_items_of_read ha hane
  obtain ⟨ys, hys, hvb⟩ := exists_items_of_read hb hbne
  obtain ⟨out, hout, hpass⟩ := passes_comma (isBalanced_of_read hb) hys
  have hfront := passes_before (isBalanced_of_read ha) (noFinalComma_of_trimEnd hcomma)
    (b.toList ++ [])
  have htext : (a ++ "," ++ b).toList = a.toList ++ ',' :: b.toList := by simp
  obtain ⟨hnormalize, hbalanced⟩ := (hfront.append hpass).normalize
  rw [← htext] at hnormalize hbalanced
  have hvalues : Value.ofJsonItems ((xs ++ ys).map merged) = .ok (va ++ vb) := by
    rw [Value.ofJsonItems_eq_ok_iff] at hva hvb ⊢
    rw [List.map_append]
    exact List.rel_append hva hvb
  rw [read_of_items hbalanced (hnormalize ▸ hxs.append hout) (by decide), hvalues]
  rfl

/-- A bare key and a comma before a brace on the one side, single quotes on the other. -/
theorem read_append_comma_object :
    read "\x7ba: null,\x7d " = .ok [.object [("a", .null)]] ∧ read "'b'," = .ok [.text "b"] ∧
      (trimEnd "\x7ba: null,\x7d ".toList).getLast? ≠ some ',' ∧
      read ("\x7ba: null,\x7d " ++ "," ++ "'b',") = .ok [.object [("a", .null)], .text "b"] := by
  have hnull : Padded (Loose 0) [' ', 'n', 'u', 'l', 'l'] .null :=
    .mk (a := [' ']) (b := []) (by simp [isSpace]) (LooseAtom.scalar .null) spaces_nil
  have hmember : LooseMember (Loose 0) ['a', ':', ' ', 'n', 'u', 'l', 'l'] ("a", .null) :=
    .mk (a := []) (b := []) spaces_nil (LooseKey.bare (t := []) rfl (by simp)) spaces_nil hnull
  have hobject : Padded (Loose 1) "\x7ba: null,\x7d ".toList (.object [("a", .null)]) :=
    .mk (a := []) (b := [' ']) spaces_nil
      (LooseNested.object (.mk (.last hmember) (.comma spaces_nil))) (by simp [isSpace])
  have htext : Padded (Loose 0) ['\'', 'b', '\''] (.text "b") :=
    .mk (a := []) (b := []) spaces_nil (LooseAtom.text (t := ['b']) rfl) spaces_nil
  have ha : read "\x7ba: null,\x7d " = .ok [.object [("a", .null)]] := by
    rw [read_items (.mk (.last hobject) .none) (by decide)]
    rfl
  have hb : read "'b'," = .ok [.text "b"] := by
    rw [read_items (.mk (.last htext) (.comma spaces_nil)) (by decide)]
    rfl
  have hcomma : (trimEnd "\x7ba: null,\x7d ".toList).getLast? ≠ some ',' := by decide
  exact ⟨ha, hb, hcomma, read_append_comma ha hb (by simp) (by simp) hcomma⟩

/-! ## Strict JSON -/

/-- **The dialect is a conservative extension of JSON.** If a text is strict JSON between two square
brackets, then so is what the pass makes of it, with the same values and the same order of keys, and
the text is balanced; so it is read as what the strict values stand for. The pass keeps the meaning
of texts that are nested deeper than the reader descends, too. -/
theorem read_of_strict (text : String) :
    (∀ w, Json.read ('[' :: text.toList ++ [']']) = .ok w →
      Json.read ('[' :: normalize text.toList ++ [']']) = .ok w ∧
        isBalanced text.toList = true ∧
        read text = (Value.ofJsonItems (itemsOf w)).mapError .literal) ∧
      ∀ depth v, Written depth ('[' :: text.toList ++ [']']) v →
        Written depth ('[' :: normalize text.toList ++ [']']) v ∧
          isBalanced text.toList = true := by
  refine ⟨?_, ?_⟩
  · intro w h
    rcases read_array_eq_ok_iff.1 h with ⟨hs, rfl⟩ | ⟨vs, hs, rfl⟩
    · obtain ⟨hnormalize, hbalanced⟩ := normalize_blanks (blanks_of_spaces hs)
      rw [hnormalize]
      exact ⟨h, hbalanced, read_blank (blanks_of_spaces hs)⟩
    · have htrailed := trailed_of_items hs
      obtain ⟨hitems, hbalanced⟩ := Loose.normalize_items htrailed
      exact ⟨read_array_eq_ok_iff.2 (.inr ⟨vs, hitems, rfl⟩), hbalanced,
        read_items htrailed (by decide)⟩
  · intro depth v h
    cases depth with
    | zero =>
      -- Nothing in brackets is written without them.
      have hone := written_array_iff.1 (Padded.mono (fun _ _ => Core.succ) h)
      generalize '[' :: text.toList ++ [']'] = t at h
      obtain ⟨-, hscalar, -⟩ := h
      rcases hone with ⟨-, rfl⟩ | ⟨vs, -, rfl⟩ <;> cases hscalar
    | succ depth =>
      rcases written_array_iff.1 h with ⟨hs, rfl⟩ | ⟨vs, hs, rfl⟩
      · obtain ⟨hnormalize, hbalanced⟩ := normalize_blanks (blanks_of_spaces hs)
        rw [hnormalize]
        exact ⟨h, hbalanced⟩
      · obtain ⟨hitems, hbalanced⟩ := Loose.normalize_items (trailed_of_items hs)
        exact ⟨written_array_iff.2 (.inr ⟨vs, hitems, rfl⟩), hbalanced⟩

/-- Two items, one of them a string with an escape. -/
theorem read_of_strict_escape :
    Json.read ('[' :: "null, \"\\u0041\"".toList ++ [']']) = .ok (.array [.null, .text "A"]) ∧
      isBalanced "null, \"\\u0041\"".toList = true ∧
      read "null, \"\\u0041\"" = .ok [.null, .text "A"] := by
  have hnull : Padded (Core (maxDepth - 1)) ['n', 'u', 'l', 'l'] .null :=
    .mk (a := []) (b := []) spaces_nil (Nested.scalar .null) spaces_nil
  have hhex : Hex4 ['0', '0', '4', '1'] 65 :=
    .mk (i := 0) (j := 0) (k := 4) (l := 1) rfl rfl rfl rfl
  have hescape : Escape ['u', '0', '0', '4', '1'] 'A' := .unicode hhex rfl rfl
  have htext : Padded (Core (maxDepth - 1)) [' ', '"', '\\', 'u', '0', '0', '4', '1', '"']
      (.text "A") :=
    .mk (a := [' ']) (b := []) (by simp [isSpace]) (Nested.scalar (.text (.escape hescape .nil)))
      spaces_nil
  have hjson : Json.read ('[' :: "null, \"\\u0041\"".toList ++ [']']) =
      .ok (.array [.null, .text "A"]) :=
    read_array_eq_ok_iff.2 (.inr ⟨_, .more hnull (.last htext), rfl⟩)
  obtain ⟨-, hbalanced, hread⟩ := (read_of_strict "null, \"\\u0041\"").1 _ hjson
  exact ⟨hjson, hbalanced, hread⟩

end

end ShellQuery.ArgumentText
