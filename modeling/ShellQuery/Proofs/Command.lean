import ShellQuery.Command
import ShellQuery.Proofs.Text
/-!
# Command lines and their segments

A line that begins and ends with something visible is looked at as it is (`essence_visible`), and no
segment of a path holds a blank or a parenthesis, so the first parenthesis of a call stands behind
its path (`not_paren_of_path`).
-/

namespace ShellQuery.Command

open Text

section
variable {s t : List Char} {c d : Char}

/-- A text that begins and ends with something visible is not trimmed. -/
theorem trim_visible (hc : isBlank c = false) (hd : isBlank d = false) :
    trim (c :: (s ++ [d])) = c :: (s ++ [d]) := by
  have hstart : trimStart (c :: (s ++ [d])) = c :: s ++ [d] := by simp [trimStart, hc]
  rw [trim, hstart, trimEnd, dropWhileEnd_concat hd, List.cons_append]

/-- Nothing is cut off a text that begins and ends with something visible. -/
theorem essence_visible (hc : isBlank c = false) (hd : isBlank d = false) (hne : d ≠ ';') :
    essence (c :: (s ++ [d])) = c :: (s ++ [d]) := by
  have hend : dropWhileEnd (· == ';') (c :: s ++ [d]) = c :: s ++ [d] :=
    dropWhileEnd_concat (by simpa using hne)
  rw [List.cons_append] at hend
  rw [essence, trim_visible hc hd, hend, trim_visible hc hd]

/-! ## Segments -/

/-- A segment holds no blank. -/
theorem isBlank_of_isSegment (h : isSegment s = true) : ∀ c ∈ s, isBlank c = false := by
  intro c hc
  simp only [isSegment, Bool.and_eq_true, List.all_eq_true] at h
  have hall := h.2 c hc
  cases hb : isBlank c with
  | false => rfl
  | true => simp [hb] at hall

/-- A segment holds no opening parenthesis. -/
theorem not_paren_of_isSegment (h : isSegment s = true) : '(' ∉ s := by
  intro hc
  simp only [isSegment, Bool.and_eq_true, List.all_eq_true] at h
  have hall := h.2 _ hc
  simp at hall

/-- A segment at the end is not trimmed. -/
theorem trimEnd_append_segment (h : isSegment t = true) : trimEnd (s ++ t) = s ++ t := by
  rcases List.eq_nil_or_concat t with rfl | ⟨u, c, rfl⟩
  · cases h
  · have hc : isBlank c = false := isBlank_of_isSegment h c (by simp)
    rw [trimEnd, List.concat_eq_append, ← List.append_assoc, dropWhileEnd_concat hc]

/-- A character separates an empty part from the others, or stands in front of the first part. -/
theorem splitOn_cons_cases (d c : Char) (s : List Char) :
    (c = d ∧ (c :: s).splitOn d = [] :: s.splitOn d) ∨
      (c ≠ d ∧ ∃ u more, s.splitOn d = u :: more ∧ (c :: s).splitOn d = (c :: u) :: more) := by
  rw [List.splitOn_cons_eq_if_modifyHead]
  by_cases h : c = d
  · exact .inl ⟨h, if_pos (beq_iff_eq.2 h)⟩
  · obtain ⟨u, more, hsplit⟩ := List.exists_cons_of_ne_nil (List.splitOn_ne_nil d s)
    refine .inr ⟨h, u, more, hsplit, ?_⟩
    rw [if_neg (by simpa using h), hsplit, List.modifyHead_cons]

/-- What is split is made of the parts and the separator. -/
theorem mem_splitOn (hc : c ∈ s) : c = d ∨ ∃ t ∈ s.splitOn d, c ∈ t := by
  induction s with
  | nil => cases hc
  | cons e s ih =>
    obtain ⟨rfl, hsplit⟩ | ⟨-, u, more, hrest, hsplit⟩ := splitOn_cons_cases d e s
    · rw [hsplit]
      rcases List.mem_cons.1 hc with rfl | hc
      · exact .inl rfl
      · exact (ih hc).imp_right fun ⟨t, ht, hct⟩ => ⟨t, List.mem_cons_of_mem _ ht, hct⟩
    · rw [hrest] at ih
      rw [hsplit]
      rcases List.mem_cons.1 hc with rfl | hc
      · exact .inr ⟨c :: u, List.mem_cons_self, List.mem_cons_self⟩
      · refine (ih hc).imp_right fun ⟨t, ht, hct⟩ => ?_
        rcases List.mem_cons.1 ht with rfl | ht
        · exact ⟨e :: t, List.mem_cons_self, List.mem_cons_of_mem _ hct⟩
        · exact ⟨t, List.mem_cons_of_mem _ ht, hct⟩

/-- A path of segments holds no parenthesis. -/
theorem not_paren_of_path (h : (s.splitOn '.').all isSegment = true) : '(' ∉ s := by
  intro hmem
  rcases mem_splitOn (d := '.') hmem with hdot | ⟨t, ht, hparen⟩
  · cases hdot
  · exact not_paren_of_isSegment (List.all_eq_true.1 h t ht) hparen

end

end ShellQuery.Command
