import ShellQuery.Proofs.Program.Transcript
/-!
# Lines as arguments and lines as input

Lines that are given as arguments and lines that are typed, each ended by a line feed or by a
carriage return and a line feed, lead to the same run (`run_typed`). What is read of a typed line is
the line, or the line without a carriage return at its end (`Typed.exists_textLines`). That makes no
difference: a run looks at a line without the blanks at its ends (`answer_congr`), and a carriage
return is one of them.
-/

namespace ShellQuery.Program

open Text

/-- Lines as they are typed, one behind the other. -/
inductive Typed : List String → List UInt8 → Prop
  | nil : Typed [] []
  | cons {line ending : String} {more : List String} {bytes : List UInt8} :
      ending ∈ ["\n", "\r\n"] → Typed more bytes →
      Typed (line :: more) (utf8 (line ++ ending) ++ bytes)

/-- Lines that differ in the blanks at their ends at most. -/
def SameTrimmed (a b : String) : Prop :=
  trim a.toList = trim b.toList

variable {s : Settings} {session : Session} {format : OutputFormat} {a b line : String}
  {as bs lines : List String} {input bytes : List UInt8} {c : Char} {x : UInt8}

/-! ## Bytes of a line -/

/-- A text is encoded character by character. -/
theorem utf8_eq_flatMap (line : String) :
    utf8 line = line.toList.flatMap String.utf8EncodeChar := by
  have hencoded : line.toUTF8 = line.toList.utf8Encode := by
    rw [String.toUTF8, ← String.toByteArray_ofList, String.ofList_toList]
  rw [utf8, hencoded, List.utf8Encode, List.toList_data_toByteArray]

/-- Two texts one after the other are encoded one after the other. -/
theorem utf8_append (a b : String) : utf8 (a ++ b) = utf8 a ++ utf8 b := by
  simp only [utf8_eq_flatMap, String.toList_append, List.flatMap_append]

/-- A byte of a character is the character itself, or lies beyond ASCII. -/
theorem eq_or_le_of_mem_utf8EncodeChar (h : x ∈ String.utf8EncodeChar c) :
    x.toNat = c.toNat ∨ 128 ≤ x.toNat := by
  have hbyte : ∀ n, n < 256 → (UInt8.ofNat n).toNat = n := fun n hn => UInt8.toNat_ofNat_of_lt' hn
  rw [String.utf8EncodeChar] at h
  split_ifs at h
  · rw [List.mem_singleton] at h
    exact .inl (by rw [h, hbyte _ (by omega)]; rfl)
  all_goals
    right
    simp only [List.mem_cons, List.not_mem_nil, or_false] at h
  · rcases h with rfl | rfl <;> rw [hbyte _ (by omega)] <;> omega
  · rcases h with rfl | rfl | rfl <;> rw [hbyte _ (by omega)] <;> omega
  · rcases h with rfl | rfl | rfl | rfl <;> rw [hbyte _ (by omega)] <;> omega

/-- A byte below 128 encodes its own character only. -/
theorem eq_of_mem_utf8EncodeChar (hx : x.toNat < 128) (h : x ∈ String.utf8EncodeChar c) :
    c = Char.ofNat x.toNat := by
  rw [(eq_or_le_of_mem_utf8EncodeChar h).resolve_right (Nat.not_le.2 hx), Char.ofNat_toNat]

/-- A line without a line feed is encoded without one. -/
theorem not_mem_utf8 (h : '\n' ∉ line.toList) : 10 ∉ utf8 line := by
  rw [utf8_eq_flatMap, List.mem_flatMap]
  rintro ⟨c, hc, hmem⟩
  rw [eq_of_mem_utf8EncodeChar (by decide) hmem] at hc
  exact h hc

/-- A line whose last byte is a carriage return ends with one. -/
theorem exists_append_return (h : (utf8 line).getLast? = some 13) : ∃ l, line = l ++ "\r" := by
  rw [utf8_eq_flatMap] at h
  rcases line.toList.eq_nil_or_concat' with hnil | ⟨l, c, hline⟩
  · rw [hnil] at h
    cases h
  · rw [hline, List.flatMap_append, List.flatMap_singleton,
      List.getLast?_append_of_ne_nil _ String.utf8EncodeChar_ne_nil] at h
    have hc : c = '\r' := eq_of_mem_utf8EncodeChar (by decide) (List.mem_of_getLast? h)
    exact ⟨String.ofList l, by rw [← String.toList_inj, hline, hc]; simp⟩

/-! ## Lines that are read -/

/-- A carriage return at the end is trimmed. -/
theorem sameTrimmed_append_return (line : String) : SameTrimmed (line ++ "\r") line := by
  rw [SameTrimmed, String.toList_append]
  exact trim_padded (a := []) nofun (List.forall_mem_singleton.2 rfl) line.toList

/-- Of a line and its ending all is read but, perhaps, a carriage return at the end of the line. -/
theorem exists_splitLines {ending : String} (hline : '\n' ∉ line.toList)
    (hending : ending ∈ ["\n", "\r\n"]) (bytes : List UInt8) :
    ∃ a, SameTrimmed line a ∧
      splitLines (utf8 (line ++ ending) ++ bytes) = utf8 a :: splitLines bytes := by
  have hbytes := not_mem_utf8 hline
  have hreturn : 10 ∉ utf8 line ++ [13] := by simpa using hbytes
  rw [List.mem_pair] at hending
  rcases hending with rfl | rfl
  · have hcut : utf8 (line ++ "\n") ++ bytes = utf8 line ++ 10 :: bytes := by
      rw [utf8_append, List.append_assoc]
      rfl
    rw [hcut, splitLines_append hbytes]
    -- A carriage return of the line itself is taken for a part of its ending.
    by_cases hlast : (utf8 line).getLast? = some 13
    · obtain ⟨a, rfl⟩ := exists_append_return hlast
      refine ⟨a, sameTrimmed_append_return a, ?_⟩
      have hutf8 : utf8 (a ++ "\r") = utf8 a ++ [13] := utf8_append a "\r"
      rw [hutf8, withoutReturn_concat]
    · exact ⟨line, rfl, by rw [withoutReturn, if_neg hlast]⟩
  · have hcut : utf8 (line ++ "\r\n") ++ bytes = utf8 line ++ [13] ++ 10 :: bytes := by
      rw [utf8_append, List.append_assoc, List.append_assoc]
      rfl
    exact ⟨line, rfl, by rw [hcut, splitLines_append hreturn, withoutReturn_concat]⟩

/-- Typed lines are read as lines that differ from them in blanks at their ends at most. -/
theorem Typed.exists_textLines (h : Typed lines input)
    (hlines : ∀ line ∈ lines, '\n' ∉ line.toList) :
    ∃ read, List.Forall₂ SameTrimmed lines read ∧ textLines (splitLines input) = (read, none) := by
  induction h with
  | nil => exact ⟨[], .nil, rfl⟩
  | @cons line ending more bytes hending _ ih =>
    rw [List.forall_mem_cons] at hlines
    obtain ⟨a, ha, hsplit⟩ := exists_splitLines hlines.1 hending bytes
    obtain ⟨read, hread, htext⟩ := ih hlines.2
    have htextLine := fromUTF8?_eq_some_iff.2 (rfl : utf8 a = utf8 a)
    refine ⟨a :: read, .cons ha hread, ?_⟩
    simp only [hsplit, textLines, htextLine, htext]

/-! ## Blanks at the ends of a line -/

/-- Whether a line is blank depends on what is left when it is trimmed. -/
theorem isBlankLine_congr (h : SameTrimmed a b) : isBlankLine a = isBlankLine b := by
  rw [isBlankLine, isBlankLine, h]

/-- The blanks at the ends of a line have no part in what it asks for. -/
theorem answer_congr (h : SameTrimmed a b) (session : Session) :
    answer session a = answer session b := by
  have hcommand : Command.ofLine? a = Command.ofLine? b := by
    rw [Command.ofLine?, Command.ofLine?, Command.essence, h, ← Command.essence]
  rw [answer, answer, Query.ofLine, Query.ofLine, hcommand]

/-- Lines with the same answers have the same records, in whatever session they begin. -/
theorem recordsFrom_congr (h : List.Forall₂ SameTrimmed as bs) (session : Session) :
    recordsFrom format session as = recordsFrom format session bs := by
  induction h generalizing session with
  | nil => rfl
  | cons hline _ ih => rw [recordsFrom_cons, recordsFrom_cons, answer_congr hline, ih]

/-- Lines that are trimmed like lines that are not blank are all kept. -/
theorem filter_of_sameTrimmed (h : List.Forall₂ SameTrimmed as bs)
    (has : ∀ line ∈ as, isBlankLine line = false) : bs.filter (!isBlankLine ·) = bs := by
  rw [List.filter_eq_self]
  induction h with
  | nil => exact nofun
  | cons hline _ ih =>
    rw [List.forall_mem_cons] at has
    exact List.forall_mem_cons.2 ⟨by rw [← isBlankLine_congr hline, has.1]; rfl, ih has.2⟩

/-! ## Main result -/

/-- **Arguments and input are read alike.** Lines that are not blank and hold no line feed lead to
the same output and to the same end, whether they are given as arguments, with whatever input, or
typed with a line ending each. -/
theorem run_typed (s : Settings) (unread : List UInt8) (hne : lines ≠ [])
    (hlines : ∀ line ∈ lines, isBlankLine line = false ∧ '\n' ∉ line.toList)
    (h : Typed lines input) : run s lines unread = run s [] input := by
  obtain ⟨read, hsame, htext⟩ := h.exists_textLines fun line hline => (hlines line hline).2
  have hfilter := filter_of_sameTrimmed hsame fun line hline => (hlines line hline).1
  have harguments : run s lines unread = runLines s lines :=
    if_neg (by rwa [List.isEmpty_iff])
  have hinput : run s [] input = runInput s input := rfl
  rw [harguments, hinput, runLines, runInput, htext]
  show _ = Transcript.mk (String.join (recordsFrom s.format (.ofSettings s)
    (read.filter (!isBlankLine ·)))) none
  rw [hfilter, recordsFrom_congr hsame]

/-- A line that ends with a carriage return before its line feed, and one that is indented and ended
by both. -/
theorem run_typed_use :
    Typed ["use shop\r", "  show dbs"] (utf8 "use shop\r\n  show dbs\r\n") ∧
      run .default ["use shop\r", "  show dbs"] [] =
        run .default [] (utf8 "use shop\r\n  show dbs\r\n") := by
  have hfeed : "\n" ∈ ["\n", "\r\n"] := by decide
  have hboth : "\r\n" ∈ ["\n", "\r\n"] := by decide
  have htyped : Typed ["use shop\r", "  show dbs"] (utf8 "use shop\r\n  show dbs\r\n") :=
    .cons hfeed (.cons hboth .nil)
  exact ⟨htyped, run_typed .default [] (by decide) (by decide) htyped⟩

end ShellQuery.Program
