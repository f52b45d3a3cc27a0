import ShellQuery.Proofs.Dialect.Insertion
import ShellQuery.Proofs.DroppedComma
import ShellQuery.Proofs.Json.Place
/-!
# Blanks around argument texts

A text is trimmed to see if it lists anything, and when it cannot be read, but what is read is the
text with its blanks. `read_trimmed` says when the blanks at its ends do not matter: if they are
those that JSON skips, or stand behind a comma at the end, which is dropped with them. Any other
blank is copied to the strict form and refused there (`values_no_break_space` is such a text).
-/

namespace ShellQuery

open Text Dialect Json

namespace Json

section
variable {α : Type} {item : List Char → α → Prop} {core : Language} {s b a : List Char} {x : α}
  {xs : List α} {depth : Nat}

/-! ## How values end -/

/-- A value ends with something else than a blank. -/
def Closes (core : Language) : Prop :=
  ∀ s v, core s v → ∃ r c, s = r ++ [c] ∧ isSpace c = false

/-- A word, a number and a string end with something visible. -/
theorem closes_scalar : Closes Scalar := by
  intro s v h
  cases h with
  | null => exact ⟨['n', 'u', 'l'], 'l', rfl, rfl⟩
  | true => exact ⟨['t', 'r', 'u'], 'e', rfl, rfl⟩
  | false => exact ⟨['f', 'a', 'l', 's'], 'e', rfl, rfl⟩
  | number h =>
    rcases s.eq_nil_or_concat' with rfl | ⟨r, c, rfl⟩
    · exact absurd rfl h.ne_nil
    · exact ⟨r, c, rfl, isSpace_of_isNumeric (h.isNumeric c (by simp))⟩
  | @text k => exact ⟨'"' :: k, '"', rfl, rfl⟩

/-- A value with brackets ends with something visible, whatever stands between them. -/
theorem closes_nested (core : Language) : Closes (Nested core) := by
  intro s v h
  cases h with
  | scalar h => exact closes_scalar s v h
  | @emptyArray k | @array k => exact ⟨'[' :: k, ']', rfl, rfl⟩
  | @emptyObject k | @object k => exact ⟨'{' :: k, '}', rfl, rfl⟩

/-- A value of any depth ends with something visible. -/
theorem closes_core : ∀ depth, Closes (Core depth)
  | 0 => closes_scalar
  | depth + 1 => closes_nested (Core depth)

/-! ## Blanks around lists -/

/-- Blanks behind blanks are blanks. -/
theorem Spaces.append (ha : Spaces a) (hb : Spaces b) : Spaces (a ++ b) :=
  List.forall_mem_append.2 ⟨ha, hb⟩

/-- Blanks behind an item are none of its value. -/
theorem Padded.of_append_spaces (hcore : Closes core) {v : Json} (hb : Spaces b)
    (h : Padded core (s ++ b) v) : Padded core s v := by
  generalize ht : s ++ b = t at h
  obtain ⟨hx, hu, hy⟩ := h
  rename_i x u y
  obtain ⟨r, c, rfl, hc⟩ := hcore u v hu
  rw [← List.append_assoc] at ht
  rcases List.append_eq_append_iff.1 ht with ⟨z, hz, hbz⟩ | ⟨z, rfl, rfl⟩
  · rw [← List.append_assoc] at hz
    obtain rfl : z = [] := eq_nil_of_append_eq_concat hz.symm hc
      fun d hd => hb d (by rw [hbz]; exact List.mem_append_left _ hd)
    rw [List.append_nil] at hz
    have hpadded : Padded core (x ++ (r ++ [c] ++ [])) v := .mk hx hu spaces_nil
    rwa [List.append_nil, ← List.append_assoc, hz] at hpadded
  · rw [List.append_assoc]
    exact .mk hx hu fun c hc => hy c (List.mem_append_left _ hc)

/-- An item may have more blanks behind it. -/
theorem Padded.append_spaces {v : Json} (hb : Spaces b) (h : Padded core s v) :
    Padded core (s ++ b) v := by
  obtain ⟨hx, hu, hy⟩ := h
  rw [List.append_assoc, List.append_assoc]
  exact .mk hx hu (hy.append hb)

/-- An item may have more blanks in front. -/
theorem Padded.spaces_append {v : Json} (ha : Spaces a) (h : Padded core s v) :
    Padded core (a ++ s) v := by
  obtain ⟨hx, hu, hy⟩ := h
  rw [← List.append_assoc]
  exact .mk (ha.append hx) hu hy

/-- A list of items may have more blanks in front. -/
theorem Listed.spaces_append {vs : List Json} (ha : Spaces a) (h : Items core s vs) :
    Items core (a ++ s) vs := by
  cases h with
  | last hv => exact .last (hv.spaces_append ha)
  | more hv hvs =>
    rw [← List.append_assoc]
    exact .more (hv.spaces_append ha) hvs

/-- Blanks at the ends of a list belong to its items. -/
theorem items_spaces_iff {vs : List Json} (ha : Spaces a) (hb : Spaces b) :
    Items (Core depth) (a ++ (s ++ b)) vs ↔ Items (Core depth) s vs := by
  have hend : ∀ {s vs}, Items (Core depth) (s ++ b) vs ↔ Items (Core depth) s vs := by
    intro s vs
    refine ⟨fun h => ?_, fun h => ?_⟩
    · generalize ht : s ++ b = t at h
      induction h generalizing s with
      | last hv => exact .last (.of_append_spaces (closes_core depth) hb (ht ▸ hv))
      | @more u r v vs hv _ ih =>
        rcases cut_append ht with ⟨y, rfl, rfl⟩ | ⟨p, -, rfl⟩
        · exact .more hv (ih rfl)
        · cases hb ',' (by simp)
    · induction h with
      | last hv => exact .last (hv.append_spaces hb)
      | more hv _ ih =>
        rw [List.append_assoc, List.cons_append]
        exact .more hv ih
  exact ⟨fun h => hend.1 (items_of_blanks (blanks_of_spaces ha) h),
    fun h => (hend.2 h).spaces_append ha⟩

end

end Json

namespace Dialect

section
variable {a b s : List Char}

/-- A text is what trimming leaves, with blanks around it. -/
theorem exists_trim (s : List Char) : ∃ a b, s = a ++ (trim s ++ b) ∧ Blanks a ∧ Blanks b := by
  obtain ⟨a, hs, ha, -⟩ := exists_blanks_trimStart s
  obtain ⟨b, hb, hblanks⟩ := exists_dropWhileEnd_append isBlank (trimStart s)
  exact ⟨a, b, hs.trans (congrArg _ hb), ha, hblanks⟩

/-- Blanks around a text leave its balance. -/
theorem isBalanced_padded (ha : Blanks a) (hb : Blanks b) (s : List Char) :
    isBalanced (a ++ (s ++ b)) = isBalanced s :=
  (Passes.blanks ha).normalize_append.2.trans (isBalanced_append_blanks hb s)

/-- Blanks around a balanced text are copied, but for those behind a comma at the end. -/
theorem normalize_padded (ha : Blanks a) (hb : Blanks b) (hs : trimEnd s = s)
    (hbalanced : isBalanced s = true) :
    ∃ b', normalize (a ++ (s ++ b)) = a ++ (normalize s ++ b') ∧ Blanks b' ∧
      (Spaces b' ↔ Spaces b ∨ s.getLast? = some ',') := by
  rw [(Passes.blanks ha).normalize_append.1]
  by_cases hcomma : s.getLast? = some ','
  · obtain ⟨p, rfl⟩ := List.getLast?_eq_some_iff.1 hcomma
    refine ⟨[], ?_, blanks_nil, iff_of_true spaces_nil (.inr hcomma)⟩
    rw [List.append_assoc, List.singleton_append, normalize_comma_blanks hb hbalanced,
      List.append_nil]
  · refine ⟨b, ?_, hb, (or_iff_left hcomma).symm⟩
    rw [normalize_append_blanks hb hbalanced (noFinalComma_of_trimEnd (by rwa [hs]))]

/-- A scan through what is written for a balanced text comes out of its strings. -/
theorem zone_normalize (hbalanced : isBalanced s = true) :
    Zone.outside.after (normalize s) = .outside := by
  obtain ⟨m', hrun⟩ := exists_run .outside s
  obtain rfl : m' = .outside := hrun.mode_of_endsBalanced hbalanced
  rw [← List.append_nil s] at hrun
  have hzone := hrun.traced_start.1
  rwa [List.append_nil] at hzone

end

end Dialect

namespace ArgumentText

section
variable {text : String} {a b s : List Char} {ws : List Value}

/-- Blanks around arguments that are skipped when these are read: those of JSON, and any behind a
comma at the end. -/
def Skipped (a s b : List Char) : Prop :=
  Spaces a ∧ (Spaces b ∨ s.getLast? = some ',')

/-- A trimmed text holds the trimmed characters. -/
theorem toList_trimmed (text : String) : (trimmed text).toList = trim text.toList :=
  String.toList_ofList

/-- A trimmed text is not trimmed any further. -/
theorem trimmed_trimmed (text : String) : trimmed (trimmed text) = trimmed text := by
  rw [trimmed, toList_trimmed, trim_trim, trimmed]

/-- What is read from a text with blanks around it that are skipped. -/
theorem read_padded_iff (htext : text.toList = a ++ (trim text.toList ++ b)) (ha : Blanks a)
    (hb : Blanks b) (hskip : trim text.toList = [] ∨ Skipped a (trim text.toList) b) :
    read text = .ok ws ↔ read (trimmed text) = .ok ws := by
  by_cases htrim : trim text.toList = []
  · have hblank := trim_eq_nil_iff.1 htrim
    have hnone : Blanks (trimmed text).toList := by
      rw [toList_trimmed, htrim]
      exact blanks_nil
    rw [read_blank hblank, read_blank hnone]
  · obtain ⟨hfront, hend⟩ := hskip.resolve_left htrim
    have hbalanced := isBalanced_padded ha hb (trim text.toList)
    rw [← htext] at hbalanced
    rw [read_eq_ok_iff_json htrim, read_eq_ok_iff_json (by rwa [toList_trimmed, trim_trim]),
      toList_trimmed, hbalanced]
    refine and_congr_right fun hclosed => ?_
    obtain ⟨b', hnormalize, -, hspaces⟩ :=
      normalize_padded ha hb (trimEnd_trim text.toList) hclosed
    rw [← htext] at hnormalize
    have hb' : Spaces b' := hspaces.2 hend
    refine exists_congr fun w => and_congr_left fun _ => ?_
    rw [hnormalize, read_array_eq_ok_iff, read_array_eq_ok_iff]
    refine or_congr (and_congr_left fun _ => ?_) (exists_congr fun vs => ?_)
    · exact ⟨fun h c hc => h c (by simp [hc]), fun h => hfront.append (h.append hb')⟩
    · rw [items_spaces_iff hfront hb']

/-- A text with other blanks around it cannot be read. -/
theorem not_read_of_not_skipped (htext : text.toList = a ++ (trim text.toList ++ b)) (ha : Blanks a)
    (hb : Blanks b) (htrim : trim text.toList ≠ []) (hskip : ¬Skipped a (trim text.toList) b) :
    read text ≠ .ok ws := by
  intro h
  have hclosed := isBalanced_of_read h
  rw [htext, isBalanced_padded ha hb] at hclosed
  obtain ⟨b', hnormalize, hblanks, hspaces⟩ :=
    normalize_padded ha hb (trimEnd_trim text.toList) hclosed
  rw [← htext] at hnormalize
  have hfollow := follow_of_read h htrim
  rw [hnormalize] at hfollow
  obtain ⟨hfront, hmore⟩ := Scan.follow_blanks ha hfollow
  rw [Scan.follow_append, Option.bind_eq_some_iff] at hmore
  obtain ⟨⟨z, σ, v⟩, hx, hmore⟩ := hmore
  obtain rfl : z = .outside := (Scan.zone_follow hx).trans (zone_normalize hclosed)
  exact hskip ⟨hfront, hspaces.1 (Scan.spaces_of_follow hblanks hmore)⟩

/-- Arguments that cannot be read become one text, as they stand. -/
theorem values_of_error {fault : Fault} (h : read text = .error fault) :
    values text = [.text (trimmed text)] := by
  rw [values, h]

/-- A text stands for the same arguments as the trimmed one if the same is read from both. -/
theorem values_trimmed (h : ∀ ws, read text = .ok ws ↔ read (trimmed text) = .ok ws) :
    values text = values (trimmed text) := by
  cases htext : read text with
  | ok ws => rw [values, values, htext, (h ws).1 htext]
  | error fault =>
    cases htrimmed : read (trimmed text) with
    | ok ws =>
      rw [(h ws).2 htrimmed] at htext
      cases htext
    | error fault' => rw [values_of_error htext, values_of_error htrimmed, trimmed_trimmed]

/-- **Blanks around arguments.** A text lists what it lists without the blanks at its ends, if these
are skipped. With other blanks a text that is not blank cannot be read, and counts as one argument
whatever it lists without them. -/
theorem read_trimmed (text : String) :
    ∃ a b, text.toList = a ++ (trim text.toList ++ b) ∧ Blanks a ∧ Blanks b ∧
      (trim text.toList = [] ∨ Skipped a (trim text.toList) b →
        (∀ ws, read text = .ok ws ↔ read (trimmed text) = .ok ws) ∧
          values text = values (trimmed text)) ∧
      (trim text.toList ≠ [] → ¬Skipped a (trim text.toList) b →
        (∀ ws, read text ≠ .ok ws) ∧ values text = [.text (trimmed text)]) := by
  obtain ⟨a, b, htext, ha, hb⟩ := exists_trim text.toList
  refine ⟨a, b, htext, ha, hb, fun hskip => ?_, fun htrim hskip => ?_⟩
  · have hread : ∀ ws, read text = .ok ws ↔ read (trimmed text) = .ok ws := fun _ =>
      read_padded_iff htext ha hb hskip
    exact ⟨hread, values_trimmed hread⟩
  · have hread : ∀ ws, read text ≠ .ok ws := fun _ =>
      not_read_of_not_skipped htext ha hb htrim hskip
    refine ⟨hread, ?_⟩
    cases h : read text with
    | ok ws => exact absurd h (hread ws)
    | error fault => exact values_of_error h

/-- A no-break space in front is no blank of JSON: with it the text is one argument, without it
`null` is read. -/
theorem values_no_break_space : values "\u00a0null" = [.text "null"] ∧
    values (trimmed "\u00a0null") = [.null] ∧
    values "\u00a0null" ≠ values (trimmed "\u00a0null") := by
  have htrimmed : trimmed "\u00a0null" = "null" := by decide
  have hnull : Padded (Loose 0) "null".toList .null :=
    .mk (a := []) (b := []) spaces_nil (LooseAtom.scalar .null) spaces_nil
  have hread : read "null" = .ok [.null] := by
    rw [read_items (.mk (.last hnull) .none) (by decide)]
    rfl
  have hfault : ∀ ws, read "\u00a0null" ≠ .ok ws := by
    intro ws
    have htext : "\u00a0null".toList = ['\u00a0'] ++ (trim "\u00a0null".toList ++ []) := by decide
    refine not_read_of_not_skipped htext ?_ blanks_nil (by decide) ?_
    · simp [isBlank]
    · rintro ⟨hspaces, -⟩
      simp [isSpace] at hspaces
  have hwith : values "\u00a0null" = [.text "null"] := by
    cases h : read "\u00a0null" with
    | ok ws => exact absurd h (hfault ws)
    | error fault => rw [values_of_error h, htrimmed]
  have hwithout : values (trimmed "\u00a0null") = [.null] := by
    rw [htrimmed, values, hread]
  refine ⟨hwith, hwithout, ?_⟩
  rw [hwith, hwithout]
  intro h
  cases h

end

end ArgumentText

end ShellQuery
