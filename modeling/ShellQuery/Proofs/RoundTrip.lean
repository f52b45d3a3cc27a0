import ShellQuery.Proofs.ArgumentText
import ShellQuery.Proofs.Dialect.Spelling
/-!
# What is spelled is read

`read_spelled_iff` is the round trip of the dialect: however a list of values is spelled, it is read
as these values, unless they go deeper than the reader of strict JSON descends, and then it is not
read at all. One level of that depth is taken by the brackets that are put around the list.
-/

namespace ShellQuery.ArgumentText

open Text Dialect Json

section
variable {depth : Nat} {text : String} {vs ws : List Value}

/-- A list of values that is no deeper than the reader descends is read, however it is spelled. -/
theorem read_of_nesting_lt (h : SpelledList depth text.toList vs)
    (hnesting : Value.nestingItems vs < maxDepth) : read text = .ok vs := by
  cases h with
  | empty hs => exact read_blank (blanks_of_spaces hs)
  | items hs =>
    obtain ⟨trees, htrees, hstands⟩ := exists_items (fun _ _ => Spelled.hasTree) hs
    rw [read_items htrees hnesting, Value.map_merged_of_forall₂ hstands,
      Value.ofJsonItems_of_forall₂ hstands]
    rfl

/-- A list of values of which anything is read is no deeper than the reader descends. -/
theorem nesting_lt_of_read (h : SpelledList depth text.toList vs) (hread : read text = .ok ws) :
    Value.nestingItems vs < maxDepth := by
  cases h with
  | empty => decide
  | items hs =>
    obtain ⟨trees, htrees, hstands⟩ := exists_items (fun _ _ => Spelled.hasTree) hs
    obtain ⟨w, hw, -⟩ := exists_json_of_read hread (trim_ne_nil_of_trailed htrees)
    have hlt := nestingItems_lt_of_read (Loose.normalize_items htrees).1 hw
    rwa [Value.map_merged_of_forall₂ hstands, Value.nestingItems_of_forall₂ hstands] at hlt

/-- **The dialect round trip.** However a list of values is spelled, what is read is this list, and
it is read exactly if it is no deeper than the reader descends. -/
theorem read_spelled_iff (h : SpelledList depth text.toList vs) :
    read text = .ok ws ↔ ws = vs ∧ Value.nestingItems vs < maxDepth := by
  refine ⟨?_, ?_⟩
  · intro hread
    have hnesting := nesting_lt_of_read h hread
    rw [read_of_nesting_lt h hnesting] at hread
    cases hread
    exact ⟨rfl, hnesting⟩
  · rintro ⟨rfl, hnesting⟩
    exact read_of_nesting_lt h hnesting

end

/-- An object with a trailing comma and a constructor call behind `new`, in one list of arguments.
-/
theorem read_spelled_iff_call :
    SpelledList 1 "\x7ba: 'x',\x7d, new NumberLong(\"5\" )\t,".toList
        [.object [("a", .text "x")], .int64 5] ∧
      read "\x7ba: 'x',\x7d, new NumberLong(\"5\" )\t," =
        .ok [.object [("a", .text "x")], .int64 5] := by
  have htext : Padded (Spelled 0) [' ', '\'', 'x', '\''] (.text "x") :=
    .mk (a := [' ']) (b := []) (by simp [isSpace]) (SpelledAtom.text (t := ['x']) rfl) spaces_nil
  have hmember : LooseMember (Spelled 0) ['a', ':', ' ', '\'', 'x', '\''] ("a", .text "x") :=
    .mk (a := []) (b := []) spaces_nil (LooseKey.bare (t := []) rfl (by simp)) spaces_nil htext
  have huntagged : Value.Untagged [("a", Value.text "x")] := by
    intro key hkey
    cases hkey
    rfl
  have hobject : Padded (Spelled 1) ['{', 'a', ':', ' ', '\'', 'x', '\'', ',', '}']
      (.object [("a", .text "x")]) :=
    .mk (a := []) (b := []) spaces_nil
      (SpelledNested.object (.mk (.last hmember) (.comma spaces_nil)) (by simp) huntagged)
      spaces_nil
  have hargument : SpelledArgument .int64 ['"', '5', '"'] (.int64 5) :=
    .int64 (.quoted (s := ['5']) rfl (.bare (by simp) (by simp))) (by decide)
  have hcall : CallOf SpelledArgument "new NumberLong(\"5\" )".toList (.int64 5) :=
    .new (a := [' ']) (by simp [isBlank]) (by simp)
      (.mk (a := []) (b := [' '])
        (by simp [constructors] : ("NumberLong", Form.int64) ∈ constructors) blanks_nil hargument
        (by simp [isBlank]))
  have hlong : Padded (Spelled 1) " new NumberLong(\"5\" )\t".toList (.int64 5) :=
    .mk (a := [' ']) (b := ['\t']) (by simp [isSpace]) (SpelledNested.atom (.call hcall))
      (by simp [isSpace])
  have hlist : SpelledList 1 "\x7ba: 'x',\x7d, new NumberLong(\"5\" )\t,".toList
      [.object [("a", .text "x")], .int64 5] :=
    .items (.mk (.more hobject (.last hlong)) (.comma spaces_nil))
  exact ⟨hlist, (read_spelled_iff hlist).2 ⟨rfl, by decide⟩⟩

/-! ## Deep values -/

/-- An empty array inside of so many other arrays. -/
def arrays : Nat → Value
  | 0 => .array []
  | n + 1 => .array [arrays n]

/-- The text of nested arrays without blanks. -/
def arraysText : Nat → List Char
  | 0 => ['[', ']']
  | n + 1 => '[' :: (arraysText n ++ [']'])

/-- An empty array inside of `n` other arrays has `n + 1` levels. -/
theorem nesting_arrays (n : Nat) : (arrays n).nesting = n + 1 := by
  induction n with
  | zero => rfl
  | succ n ih => simp [arrays, Value.nesting, Value.nestingItems, ih]

/-- A spelled value alone is a list of one. -/
theorem trailed_of_spelled {depth : Nat} {s : List Char} {v : Value} (h : Spelled depth s v) :
    Trailed (Padded (Spelled depth)) s [v] := by
  have hpadded := Padded.mk (a := []) (b := []) spaces_nil h spaces_nil
  simpa using Trailed.mk (.last hpadded) .none

/-- The text without blanks spells them. -/
theorem spelled_arrays (n : Nat) : Spelled (n + 1) (arraysText n) (arrays n) := by
  induction n with
  | zero => exact .emptyArray (s := []) spaces_nil
  | succ n ih => exact .array (trailed_of_spelled ih)

/-- A name is no call if blanks stand between it and its parenthesis. -/
theorem read_blank_call_ne (ws : List Value) : read "NumberInt (1)" ≠ .ok ws := by
  have hnormalize : normalize "NumberInt (1)".toList = "NumberInt (1)".toList := by cbv
  intro hread
  obtain ⟨w, hw, -⟩ := exists_json_of_read hread (by decide)
  rw [hnormalize] at hw
  rcases read_array_eq_ok_iff.1 hw with ⟨hspaces, -⟩ | ⟨trees, htrees, -⟩
  · exact absurd (hspaces 'N' (by decide)) (by decide)
  · obtain ⟨c, hc, hopens⟩ := head_of_items htrees
    cases hc
    exact absurd hopens (by decide)

/-- The brackets around the list leave too few levels for arrays in 127 brackets, and no blanks may
stand behind the name in a call. -/
theorem read_arrays_ne :
    SpelledList 127 (String.ofList (arraysText 126)).toList [arrays 126] ∧
      read (String.ofList (arraysText 126)) ≠ .ok [arrays 126] ∧
      read "NumberInt (1)" ≠ .ok [.number (.int 1)] := by
  have hlist : SpelledList 127 (String.ofList (arraysText 126)).toList [arrays 126] := by
    rw [String.toList_ofList]
    exact .items (trailed_of_spelled (spelled_arrays 126))
  refine ⟨hlist, fun hread => ?_, read_blank_call_ne _⟩
  have hlt := nesting_lt_of_read hlist hread
  rw [Value.nestingItems, nesting_arrays] at hlt
  exact absurd hlt (by decide)

end ShellQuery.ArgumentText
