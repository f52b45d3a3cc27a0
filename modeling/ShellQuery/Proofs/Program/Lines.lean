import Mathlib.Data.List.Basic
import Mathlib.Tactic.Common
import ShellQuery.Program
/-!
# Lines of input

`Lines` says without an algorithm what the lines of a text in bytes are, and `splitLines` finds just
these (`lines_iff`). A run takes the lines up to the first that is not UTF-8. `Feeds` names these
lines and the rest, which every input has (`exists_feeds`), and they are what the run works on
(`Feeds.textLines`).
-/

namespace ShellQuery.Program

variable {bytes l r : List UInt8} {ls rest : List (List UInt8)} {input : List UInt8}
  {line : String} {lines : List String}

/-! ## Lines -/

/-- The lines of a text in bytes. Each ends with a line feed, which may have a carriage return in
front of it that is no part of the line; what stands behind the last line feed is a line if it is
not empty. -/
inductive Lines : List UInt8 → List (List UInt8) → Prop
  | none : Lines [] []
  | unended {l : List UInt8} : l ≠ [] → 10 ∉ l → Lines l [l]
  | lf {l r : List UInt8} {ls : List (List UInt8)} : 10 ∉ l → l.getLast? ≠ some 13 → Lines r ls →
      Lines (l ++ 10 :: r) (l :: ls)
  | crlf {l r : List UInt8} {ls : List (List UInt8)} : 10 ∉ l → Lines r ls →
      Lines (l ++ 13 :: 10 :: r) (l :: ls)

/-- Bytes without a line feed are one line. -/
theorem splitLines_of_not_mem (hne : l ≠ []) (h : 10 ∉ l) : splitLines l = [l] := by
  simp [splitLines, List.splitOn_eq_singleton h, hne]

/-- The first line feed ends the first line. -/
theorem splitLines_append (h : 10 ∉ l) (r : List UInt8) :
    splitLines (l ++ 10 :: r) = withoutReturn l :: splitLines r := by
  obtain ⟨pieces, last, hpieces⟩ : ∃ pieces last, r.splitOn 10 = pieces ++ [last] := by
    rcases List.eq_nil_or_concat (r.splitOn 10) with hnil | ⟨pieces, last, hconcat⟩
    · exact absurd hnil (List.splitOn_ne_nil _ _)
    · exact ⟨pieces, last, by rw [hconcat, List.concat_eq_append]⟩
  simp only [splitLines, List.splitOn_append_cons_self_of_not_mem h, hpieces, ← List.cons_append,
    List.dropLast_concat, List.getLast?_concat, Option.getD_some, List.map_cons]

/-- One carriage return is dropped. -/
theorem withoutReturn_concat (l : List UInt8) : withoutReturn (l ++ [13]) = l := by
  rw [withoutReturn, if_pos List.getLast?_concat, List.dropLast_concat]

/-- Bytes are cut into the lines that they are made of. -/
theorem splitLines_eq_of_lines (h : Lines bytes ls) : splitLines bytes = ls := by
  induction h with
  | none => rfl
  | unended hne hl => exact splitLines_of_not_mem hne hl
  | @lf l r ls hl hreturn _ ih => rw [splitLines_append hl, ih, withoutReturn, if_neg hreturn]
  | @crlf l r ls hl _ ih =>
    have hline : 10 ∉ l ++ [13] := by simpa using hl
    have hcut : l ++ 13 :: 10 :: r = l ++ [13] ++ 10 :: r := by simp
    rw [hcut, splitLines_append hline, ih, withoutReturn_concat]

/-- Bytes are cut at their first line feed, so what is left is shorter. -/
theorem lines_splitLines (bytes : List UInt8) : Lines bytes (splitLines bytes) := by
  induction hlength : bytes.length using Nat.strongRecOn generalizing bytes with
  | ind length ih =>
    subst hlength
    by_cases hmem : 10 ∈ bytes
    · obtain ⟨l, r, rfl, hl⟩ := List.eq_append_cons_of_mem hmem
      have hr : Lines r (splitLines r) := ih r.length (by simp; omega) r rfl
      rw [splitLines_append hl]
      by_cases hreturn : l.getLast? = some 13
      · obtain ⟨l, rfl⟩ : ∃ m, l = m ++ [13] := by
          rcases List.eq_nil_or_concat l with rfl | ⟨m, b, rfl⟩
          · cases hreturn
          · simp only [List.concat_eq_append, List.getLast?_concat, Option.some.injEq] at hreturn
            exact ⟨m, by rw [hreturn, List.concat_eq_append]⟩
        rw [withoutReturn_concat, List.append_assoc]
        exact .crlf (fun hmem => hl (List.mem_append_left _ hmem)) hr
      · rw [withoutReturn, if_neg hreturn]
        exact .lf hl hreturn hr
    · by_cases hne : bytes = []
      · subst hne
        exact .none
      · rw [splitLines_of_not_mem hne hmem]
        exact .unended hne hmem

/-- **Bytes have exactly one list of lines**, the one that they are cut into. -/
theorem lines_iff : Lines bytes ls ↔ splitLines bytes = ls :=
  ⟨splitLines_eq_of_lines, fun h => h ▸ lines_splitLines bytes⟩

/-! ## Lines of text -/

/-- A text in UTF-8. -/
def utf8 (line : String) : List UInt8 :=
  line.toUTF8.data.toList

/-- Bytes are read as a text exactly if they encode it. -/
theorem fromUTF8?_eq_some_iff :
    String.fromUTF8? (ByteArray.mk bytes.toArray) = some line ↔ utf8 line = bytes := by
  have hbytes : (ByteArray.mk bytes.toArray) = line.toUTF8 ↔ utf8 line = bytes := by
    rw [utf8, ByteArray.ext_iff, ← Array.toList_inj, List.toList_toArray, eq_comm]
  rw [← hbytes]
  unfold String.fromUTF8?
  refine ⟨fun h => ?_, fun h => ?_⟩
  · split at h
    · cases h
      rfl
    · cases h
  · have hvalid : (ByteArray.mk bytes.toArray).IsValidUTF8 := h ▸ line.isValidUTF8
    rw [dif_pos hvalid]
    exact congrArg some (String.toByteArray_inj.1 h)

/-- The lines of an input up to the first that is not UTF-8, and what comes behind them. -/
structure Feeds (input : List UInt8) (lines : List String) (rest : List (List UInt8)) : Prop where
  cut : Lines input (lines.map utf8 ++ rest)
  stops : ∀ bytes ∈ rest.head?, ∀ line, utf8 line ≠ bytes

/-- The fault of a run that leaves lines behind. -/
def faultOf (rest : List (List UInt8)) : Option ReadFault :=
  if rest.isEmpty then none else some .notUtf8

/-- Lines of text are read up to the first that is none. -/
theorem textLines_append (h : ∀ bytes ∈ rest.head?, ∀ line, utf8 line ≠ bytes) :
    textLines (lines.map utf8 ++ rest) = (lines, faultOf rest) := by
  induction lines with
  | nil =>
    cases rest with
    | nil => rfl
    | cons bytes more =>
      have hnone : String.fromUTF8? (ByteArray.mk bytes.toArray) = none := by
        rw [Option.eq_none_iff_forall_not_mem]
        exact fun line hline => h bytes rfl line (fromUTF8?_eq_some_iff.1 hline)
      simp only [List.map_nil, List.nil_append, textLines, hnone]
      rfl
  | cons line more ih =>
    have hline := fromUTF8?_eq_some_iff.2 (rfl : utf8 line = utf8 line)
    simp only [List.map_cons, List.cons_append, textLines, hline, ih]

/-- The lines of an input are read up to the first that is no text. -/
theorem Feeds.textLines (h : Feeds input lines rest) :
    textLines (splitLines input) = (lines, faultOf rest) := by
  rw [lines_iff.1 h.cut, textLines_append h.stops]

/-- Every input has lines up to the first that is not UTF-8. -/
theorem exists_feeds (input : List UInt8) : ∃ lines rest, Feeds input lines rest := by
  have hcut : ∀ ls : List (List UInt8), ∃ (lines : List String) (rest : List (List UInt8)),
      ls = lines.map utf8 ++ rest ∧ ∀ bytes ∈ rest.head?, ∀ line, utf8 line ≠ bytes := by
    intro ls
    induction ls with
    | nil => exact ⟨[], [], rfl, nofun⟩
    | cons bytes more ih =>
      by_cases htext : ∃ line, utf8 line = bytes
      · obtain ⟨line, rfl⟩ := htext
        obtain ⟨lines, rest, rfl, hstops⟩ := ih
        exact ⟨line :: lines, rest, rfl, hstops⟩
      · refine ⟨[], bytes :: more, rfl, ?_⟩
        rintro _ ⟨⟩ line hline
        exact htext ⟨line, hline⟩
  obtain ⟨lines, rest, hlines, hstops⟩ := hcut (splitLines input)
  exact ⟨lines, rest, hlines ▸ lines_splitLines input, hstops⟩

end ShellQuery.Program
