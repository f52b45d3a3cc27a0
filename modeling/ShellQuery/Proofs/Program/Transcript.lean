import ShellQuery.Proofs.Json.Printer
import ShellQuery.Proofs.Program.Lines
import ShellQuery.Proofs.Session.Run
/-!
# What a run prints

A run prints one record for each line that is not blank. What a line leaves behind is the database
that it selects (`answer_next`), and whether it selects one does not depend on the session
(`selection?_eq_some_iff`). So the record of a line depends on the line and on the last database
that was selected before it (`recordsFrom_filter`), and lines that select nothing have no influence
on each other (`recordsFrom_append_filter`). `runInput_reports` says it of the output for all bytes
of an input.
-/

namespace ShellQuery.Program

variable {s : Settings} {session : Session} {format : OutputFormat} {line name : String}
  {lines : List String} {input : List UInt8} {rest : List (List UInt8)}

/-! ## Lines and sessions -/

/-- The database that a line selects: a `use` is accepted in any session if the name is valid. -/
def selection? (line : String) : Option String :=
  (Query.ofLine line).selects?.filter DatabaseName.isValid

/-- The session behind some lines: the last database that one of them selects is selected. -/
def sessionAfter (session : Session) (lines : List String) : Session :=
  { session with database := (lines.filterMap selection?).getLast?.getD session.database }

/-- A line selects a database if it is a `use` with this name that is allowed, in one session or in
another. -/
theorem selection?_eq_some_iff (session : Session) :
    selection? line = some name ↔
      (session.check (Query.ofLine line)).1.allowed = true ∧
        (Query.ofLine line).selects? = some name := by
  rw [selection?, ← Session.selection?_check session, Session.selection?_check_eq_some_iff]

/-- **What a line leaves behind** is the database it selects, or nothing. -/
theorem answer_next (session : Session) (line : String) :
    (answer session line).2 =
      { session with database := (selection? line).getD session.database } := by
  rw [selection?, ← Session.selection?_check session, answer]
  generalize Query.ofLine line = q
  exact Session.call_next session (.check q)

/-- Without lines the session is the same. -/
theorem sessionAfter_nil (session : Session) : sessionAfter session [] = session :=
  rfl

/-- The session after a line and others is the one after the others, from where the line leads. -/
theorem sessionAfter_cons (session : Session) (line : String) (more : List String) :
    sessionAfter session (line :: more) = sessionAfter (answer session line).2 more := by
  rw [answer_next]
  cases h : selection? line with
  | none => simp [sessionAfter, h]
  | some name => simp [sessionAfter, h, List.getLast?_cons]

/-- The session after lines in two parts is the one after the second part, from where the first
leads. -/
theorem sessionAfter_append (session : Session) (before lines : List String) :
    sessionAfter session (before ++ lines) = sessionAfter (sessionAfter session before) lines := by
  induction before generalizing session with
  | nil => rfl
  | cons line more ih => rw [List.cons_append, sessionAfter_cons, ih, sessionAfter_cons]

/-- Lines that select no database leave the session. -/
theorem sessionAfter_of_selection_none (h : ∀ line ∈ lines, selection? line = none) :
    sessionAfter session lines = session := by
  rw [sessionAfter, List.filterMap_eq_nil_iff.2 h]
  rfl

/-- A blank line is no `use`. -/
theorem selection?_of_isBlankLine (h : isBlankLine line = true) : selection? line = none := by
  have htrim : Text.trim line.toList = [] := List.isEmpty_iff.1 h
  have hline : Query.ofLine line = .unrecognized := by
    rw [Query.ofLine, Command.ofLine?, Command.essence, htrim]
    rfl
  rw [selection?, hline]
  rfl

/-- A blank line leaves the session. -/
theorem answer_of_isBlankLine (h : isBlankLine line = true) :
    (answer session line).2 = session := by
  rw [answer_next, selection?_of_isBlankLine h]
  rfl

/-- Blank lines need not be looked at for the session behind the lines. -/
theorem sessionAfter_filter (session : Session) (lines : List String) :
    sessionAfter session (lines.filter (!isBlankLine ·)) = sessionAfter session lines := by
  induction lines generalizing session with
  | nil => rfl
  | cons line more ih =>
    cases h : isBlankLine line with
    | true =>
      rw [List.filter_cons_of_neg (by simp [h]), ih, sessionAfter_cons, answer_of_isBlankLine h]
    | false => rw [List.filter_cons_of_pos (by simp [h]), sessionAfter_cons, ih, sessionAfter_cons]

/-! ## Records -/

/-- The first record is the one of the first line, and the others go on from where it leads. -/
theorem recordsFrom_cons (session : Session) (line : String) (more : List String) :
    recordsFrom format session (line :: more) =
      record format (answer session line).1 ::
        recordsFrom format (answer session line).2 more := by
  rw [recordsFrom]

/-- Records of lines in two parts are those of each, the second from where the first leads. -/
theorem recordsFrom_append (session : Session) (before lines : List String) :
    recordsFrom format session (before ++ lines) =
      recordsFrom format session before ++
        recordsFrom format (sessionAfter session before) lines := by
  induction before generalizing session with
  | nil => rfl
  | cons line more ih =>
    rw [List.cons_append, recordsFrom_cons, recordsFrom_cons, ih, sessionAfter_cons,
      List.cons_append]

/-- Lines that select nothing have no influence on each other. -/
theorem recordsFrom_of_selection_none (h : ∀ line ∈ lines, selection? line = none) :
    recordsFrom format session lines =
      lines.map fun line => record format (answer session line).1 := by
  induction lines with
  | nil => rfl
  | cons line more ih =>
    have hnext : (answer session line).2 = session := by
      rw [answer_next, h line List.mem_cons_self]
      rfl
    rw [recordsFrom_cons, List.map_cons, hnext, ih fun other hother =>
      h other (List.mem_cons_of_mem _ hother)]

/-- Each record is that of its line, in the session that the lines in front of it lead to. The
induction is on the lines that are left, with those in front of them given. -/
theorem recordsFrom_filter (format : OutputFormat) (session : Session)
    (before lines : List String) :
    recordsFrom format (sessionAfter session before) (lines.filter (!isBlankLine ·)) =
      ((lines.zipIdx before.length).filter (!isBlankLine ·.1)).map fun p =>
        record format (answer (sessionAfter session ((before ++ lines).take p.2)) p.1).1 := by
  induction lines generalizing before with
  | nil => rfl
  | cons line more ih =>
    have hmore := ih (before ++ [line])
    rw [sessionAfter_append, sessionAfter_cons, sessionAfter_nil, List.length_append,
      List.length_singleton, List.append_assoc, List.singleton_append] at hmore
    rw [List.zipIdx_cons]
    cases h : isBlankLine line with
    | true =>
      rw [answer_of_isBlankLine h] at hmore
      rw [List.filter_cons_of_neg (by simp [h]), List.filter_cons_of_neg (by simp [h]), hmore]
    | false =>
      rw [List.filter_cons_of_pos (by simp [h]), List.filter_cons_of_pos (by simp [h]),
        recordsFrom_cons, hmore, List.map_cons, List.take_left]

/-! ## The output -/

/-- The report on a line behind other ones. -/
def report (s : Settings) (before : List String) (line : String) : Json :=
  ((sessionAfter (.ofSettings s) before).check (Query.ofLine line)).1.toJson

/-- The reports on the lines of a run that are not blank. -/
def reports (s : Settings) (lines : List String) : List Json :=
  (lines.zipIdx.filter (!isBlankLine ·.1)).map fun (line, i) => report s (lines.take i) line

/-- A report as one line of output. -/
def outputLine (report : Json) : String :=
  report.compact ++ "\n"

/-- A compact report is one line. -/
theorem newline_not_mem_compact (v : Json) : '\n' ∉ v.compact.toList := by
  rw [Json.compact, String.toList_ofList]
  exact Json.newline_not_mem_compactChars v

/-- The record of a line is its verdict on a line of output. -/
theorem record_answer (session : Session) (line : String) :
    record .json (answer session line).1 =
      outputLine (session.check (Query.ofLine line)).1.toJson :=
  rfl

/-- A run over an input prints the records of its lines that are not blank, up to the first that is
no text. -/
theorem runInput_of_feeds (hs : s.format = .json) (h : Feeds input lines rest) :
    runInput s input =
      ⟨String.join (recordsFrom .json (.ofSettings s) (lines.filter (!isBlankLine ·))),
        faultOf rest⟩ := by
  rw [runInput, h.textLines, hs]

/-- The records of a run are the reports on its lines. -/
theorem recordsFrom_eq_reports (s : Settings) (lines : List String) :
    recordsFrom .json (.ofSettings s) (lines.filter (!isBlankLine ·)) =
      (reports s lines).map outputLine := by
  have hrecords := recordsFrom_filter .json (.ofSettings s) [] lines
  rw [sessionAfter_nil, List.length_nil, List.nil_append] at hrecords
  rw [hrecords, reports, List.map_map]
  exact List.map_congr_left fun p _ => record_answer _ _

/-- Lines that select nothing leave the records in front of them and behind them alone. -/
theorem recordsFrom_append_filter (session : Session) (before middle behind : List String)
    (h : ∀ line ∈ middle, selection? line = none) :
    recordsFrom format session ((before ++ middle ++ behind).filter (!isBlankLine ·)) =
      recordsFrom format session (before.filter (!isBlankLine ·)) ++
        (middle.filter (!isBlankLine ·)).map
            (fun line => record format (answer (sessionAfter session before) line).1) ++
          recordsFrom format (sessionAfter session before) (behind.filter (!isBlankLine ·)) := by
  have hfilter : ∀ line ∈ middle.filter (!isBlankLine ·), selection? line = none :=
    fun line hline => h line (List.mem_filter.1 hline).1
  rw [List.filter_append, List.filter_append, recordsFrom_append, recordsFrom_append,
    sessionAfter_append, sessionAfter_filter, recordsFrom_of_selection_none hfilter,
    sessionAfter_of_selection_none hfilter]

/-- **The line loop.** Of the lines of an input up to the first that is not UTF-8, each that is not
blank has one line of output: the report on it, in the session with the last database that a line
in front of it selects. There is a fault exactly if a line is not UTF-8. Whether a line selects a
database does not depend on the session, so lines that select none add their own reports, in their
order, and have no influence on any other. -/
theorem runInput_reports (hs : s.format = .json) :
    (∀ input, ∃ lines rest, Feeds input lines rest) ∧
      (∀ input lines rest, Feeds input lines rest →
        runInput s input = ⟨String.join ((reports s lines).map outputLine), faultOf rest⟩ ∧
          ∀ r ∈ reports s lines, '\n' ∉ r.compact.toList) ∧
      (∀ (session : Session) (line name : String), selection? line = some name ↔
        (session.check (Query.ofLine line)).1.allowed = true ∧
          (Query.ofLine line).selects? = some name) ∧
      ∀ before behind, ∃ front back, ∀ middle, (∀ line ∈ middle, selection? line = none) →
        ∀ input rest, Feeds input (before ++ middle ++ behind) rest →
          (runInput s input).output =
            front ++ String.join ((middle.filter (!isBlankLine ·)).map fun line =>
              outputLine (report s before line)) ++ back := by
  refine ⟨exists_feeds, ?_, fun session _ _ => selection?_eq_some_iff session, ?_⟩
  · intro input lines rest h
    rw [runInput_of_feeds hs h, recordsFrom_eq_reports]
    exact ⟨rfl, fun r _ => newline_not_mem_compact r⟩
  · intro before behind
    refine ⟨String.join (recordsFrom .json (.ofSettings s) (before.filter (!isBlankLine ·))),
      String.join (recordsFrom .json (sessionAfter (.ofSettings s) before)
        (behind.filter (!isBlankLine ·))), ?_⟩
    intro middle hmiddle input rest h
    rw [runInput_of_feeds hs h, recordsFrom_append_filter _ _ _ _ hmiddle, String.join_append,
      String.join_append]
    rfl

/-- A `use`, a blank line, and a byte that is no text. -/
theorem runInput_reports_use :
    Feeds (utf8 "use a" ++ 13 :: 10 :: ([] ++ 10 :: [255])) ["use a", ""] [[255]] ∧
      runInput ⟨.json, "test", false, .warn, false⟩
          (utf8 "use a" ++ 13 :: 10 :: ([] ++ 10 :: [255])) =
        ⟨outputLine (.object [("type", .text "admin"), ("collection", .null),
          ("method", .text "use"), ("args", .array [.text "a"]), ("database", .text "a"),
          ("namespace", .null), ("readonly_safe", .bool true), ("allowed", .bool true)]),
          some .notUtf8⟩ := by
  have hbytes : String.fromUTF8? (ByteArray.mk #[255]) = none := by decide
  have hfeeds : Feeds (utf8 "use a" ++ 13 :: 10 :: ([] ++ 10 :: [255])) ["use a", ""] [[255]] := by
    refine ⟨.crlf (by decide) (.lf (by decide) (by decide) (.unended (by decide) (by decide))), ?_⟩
    rintro _ ⟨⟩ line hline
    have hsome := fromUTF8?_eq_some_iff.2 hline
    rw [hbytes] at hsome
    cases hsome
  have hreports : reports ⟨.json, "test", false, .warn, false⟩ ["use a", ""] =
      [.object [("type", .text "admin"), ("collection", .null), ("method", .text "use"),
        ("args", .array [.text "a"]), ("database", .text "a"), ("namespace", .null),
        ("readonly_safe", .bool true), ("allowed", .bool true)]] := rfl
  obtain ⟨-, hrun, -⟩ := runInput_reports (s := ⟨.json, "test", false, .warn, false⟩) rfl
  have houtput := (hrun _ _ _ hfeeds).1
  rw [hreports, List.map_singleton, String.join_cons, String.join_nil, String.append_empty]
    at houtput
  exact ⟨hfeeds, houtput⟩

end ShellQuery.Program
