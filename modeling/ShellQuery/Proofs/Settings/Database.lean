import Mathlib
import ShellQuery.Proofs.Settings.File
import ShellQuery.Proofs.Settings.Load
/-!
# A name for the database that is overridden

The database has its name from the arguments, else from the environment, else from the settings
file. Two runs that differ in one of these names, and in nothing else, are compared here:

* what is read from the two files, or after that from the two environments, is the same up to that
  name (`FileRenamed.fromFiles`, `outcome_withEnvironment_named`);
* the environment's name takes the place of the file's before anything looks at it
  (`unchecked_of_environment`), so the file's is then of no account at all;
* the name that is left is checked before the arguments take its place, so one that no database can
  have is a fault even if the arguments give another (`ofOptions_of_invalid`), and apart from that
  check it leaves no trace (`ofOptions_of_valid`).
-/

namespace ShellQuery

/-- What stands where a run looks for its settings file. -/
def Surroundings.settingsEntry (around : Surroundings) (path : Option String) : Settings.Entry :=
  match path with
  | some path => around.entry path
  | none => around.defaultEntry

namespace Settings

open Toml

/-- Settings with another name for the database. -/
def named (name : String) (s : Settings) : Settings :=
  { s with database := name }

/-- Two sections that differ in the name of the database: in a table it stands below its key, in an
array it comes first. -/
inductive SectionRenamed (old new : String) : Toml.Value → Toml.Value → Prop
  | table {fields : List (String × Toml.Value)} :
      Fields.get? "database" fields = some (.text old) →
      SectionRenamed old new (.table fields) (.table (Fields.put "database" (.text new) fields))
  | array {items : List Toml.Value} :
      SectionRenamed old new (.array (.text old :: items)) (.array (.text new :: items))

/-- Two documents that differ in the name of the database. -/
inductive DocumentRenamed (old new : String) :
    List (String × Toml.Value) → List (String × Toml.Value) → Prop
  | mk {fields : List (String × Toml.Value)} {v v' : Toml.Value} :
      Fields.get? "session" fields = some v → SectionRenamed old new v v' →
      DocumentRenamed old new fields (Fields.put "session" v' fields)

/-- Two files that differ in the name of the database. -/
inductive FileRenamed (old new : String) : Entry → Entry → Prop
  | mk {text text' : String} {fields fields' : List (String × Toml.Value)} :
      Toml.read? text = some fields → Toml.read? text' = some fields' →
      DocumentRenamed old new fields fields' →
      FileRenamed old new (.file text.toUTF8) (.file text'.toUTF8)

/-- Two runs that differ in the name that the settings file gives. -/
structure RenamedInFile (old new : String) (path : Option String) (around around' : Surroundings) :
    Prop where
  environment : around'.environment = around.environment
  file : FileRenamed old new (around.settingsEntry path) (around'.settingsEntry path)

/-- Two runs that differ in the name that the environment gives. -/
structure RenamedInEnvironment (old new : String) (path : Option String)
    (around around' : Surroundings) : Prop where
  files : fromFiles around' path = fromFiles around path
  old_name : around.environment "MONGOQ_DATABASE" = some old
  new_name : around'.environment "MONGOQ_DATABASE" = some new
  others : ∀ variableName, variableName ≠ "MONGOQ_DATABASE" →
    around'.environment variableName = around.environment variableName

/-- Two runs that differ in the name that stands before the arguments are looked at. -/
inductive RenamedBeforeArguments (old new : String) (path : Option String)
    (around around' : Surroundings) : Prop
  | inFile : RenamedInFile old new path around around' →
      around.environment "MONGOQ_DATABASE" = none →
      RenamedBeforeArguments old new path around around'
  | inEnvironment : RenamedInEnvironment old new path around around' →
      RenamedBeforeArguments old new path around around'

section
variable {old new name key path' : String} {path : Option String} {s : Settings}
  {fields fields' : List (String × Toml.Value)} {v v' : Toml.Value} {entry entry' : Entry}
  {environment altered : String → Option String} {around around' : Surroundings}
  {o : CommandLine.Options} {read : Except Fault Settings}

@[simp] theorem database_named (name : String) (s : Settings) : (s.named name).database = name :=
  rfl

/-! ## Settings files -/

/-- Another field leaves a section as it is. -/
theorem sectionOf?_put (hkey : key ≠ name) (v : Toml.Value) :
    sectionOf? name (Fields.put key v fields) = sectionOf? name fields := by
  rw [sectionOf?, sectionOf?, Fields.get?_put, if_neg hkey]

/-- A renamed section is one as the other is, with the same fields but for the name. -/
theorem SectionRenamed.section? (h : SectionRenamed old new v v') :
    (section? v = none ∧ section? v' = none) ∨
      ∃ f f', section? v = some f ∧ section? v' = some f' ∧ f 0 "database" = some (.text old) ∧
        f' 0 "database" = some (.text new) ∧ f' 1 "read_only" = f 1 "read_only" := by
  cases h with
  | @table fields h =>
    rw [Settings.section?, Settings.section?, fieldsInRange_put h]
    split
    · refine .inr ⟨_, _, rfl, rfl, h, ?_, ?_⟩
      · rw [Fields.get?_put, if_pos rfl]
      · rw [Fields.get?_put, if_neg (by decide)]
    · exact .inl ⟨rfl, rfl⟩
  | array => exact .inr ⟨_, _, rfl, rfl, rfl, rfl, rfl⟩

/-- Renamed documents are read alike, up to the name. -/
theorem DocumentRenamed.ofFields? (h : DocumentRenamed old new fields fields') :
    ∃ read : Option Settings, Settings.ofFields? fields = read.map (named old) ∧
      Settings.ofFields? fields' = read.map (named new) := by
  cases h with
  | @mk v v' hget hsection =>
    have hold : sectionOf? "session" fields = Settings.section? v := by
      rw [sectionOf?, hget]
    have hnew : sectionOf? "session" (Fields.put "session" v' fields) = Settings.section? v' := by
      rw [sectionOf?, Fields.get?_put, if_pos rfl]
    rw [Settings.ofFields?, Settings.ofFields?, filter_put (by decide), hold, hnew,
      sectionOf?_put (by decide), sectionOf?_put (by decide)]
    rcases hsection.section? with ⟨hv, hv'⟩ | ⟨f, f', hv, hv', hname, hname', hreadOnly⟩
    · refine ⟨none, ?_, ?_⟩
      · simp [hv]
      · simp [hv']
    · -- What the first document is read as serves for both: the name in it is put over.
      refine ⟨Settings.ofFields? fields, ?_, ?_⟩
      · rw [Settings.ofFields?, hold]
        simp [hv, hname, field?, text?, Option.map_bind, named, Function.comp_def]
      · rw [Settings.ofFields?, hold]
        simp [hv, hv', hname, hname', hreadOnly, field?, text?, Option.map_bind, named,
          Function.comp_def]

/-- Renamed files are read alike, up to the name. -/
theorem FileRenamed.ofEntry (h : FileRenamed old new entry entry') (path path' : String) :
    ∃ read : Except Fault Settings, Settings.ofEntry path entry = read.map (named old) ∧
      Settings.ofEntry path' entry' = read.map (named new) := by
  cases h with
  | mk hfields hfields' hdocument =>
    obtain ⟨read, hread, hread'⟩ := hdocument.ofFields?
    rw [ofEntry_toUTF8, ofEntry_toUTF8, hfields, hfields', Option.bind_some, Option.bind_some,
      hread, hread']
    cases read with
    | none => exact ⟨.error .malformed, rfl, rfl⟩
    | some s => exact ⟨.ok s, rfl, rfl⟩

/-- A file that is there is read, whether it was asked for or is the default one. -/
theorem exists_fromFiles_eq {content : ByteArray}
    (h : around.settingsEntry path = .file content) :
    ∃ path', fromFiles around path = ofEntry path' (around.settingsEntry path) := by
  cases path with
  | some path => exact ⟨path, rfl⟩
  | none =>
    have hentry : around.defaultEntry = .file content := h
    exact ⟨around.defaultPath, by rw [fromFiles, Surroundings.settingsEntry, hentry]⟩

/-- A run that finds renamed files reads them alike, up to the name. -/
theorem FileRenamed.fromFiles
    (h : FileRenamed old new (around.settingsEntry path) (around'.settingsEntry path)) :
    ∃ read : Except Fault Settings, Settings.fromFiles around path = read.map (named old) ∧
      Settings.fromFiles around' path = read.map (named new) := by
  have hfiles : (∃ content, around.settingsEntry path = .file content) ∧
      ∃ content, around'.settingsEntry path = .file content := by
    generalize around.settingsEntry path = entry, around'.settingsEntry path = entry' at h
    cases h with
    | mk => exact ⟨⟨_, rfl⟩, _, rfl⟩
  obtain ⟨⟨_, hentry⟩, _, hentry'⟩ := hfiles
  obtain ⟨path₁, hpath⟩ := exists_fromFiles_eq hentry
  obtain ⟨path₂, hpath'⟩ := exists_fromFiles_eq hentry'
  rw [hpath, hpath']
  exact h.ofEntry path₁ path₂

/-! ## The environment -/

/-- Neither the name there was nor the one in the environment has any effect on how the environment
is read, but on the name that is left. -/
theorem outcome_withEnvironment_named
    (h : ∀ variableName, variableName ≠ "MONGOQ_DATABASE" →
      altered variableName = environment variableName) (name : String) (s : Settings) :
    outcome ((s.named name).withEnvironment altered) =
      (outcome (s.withEnvironment environment)).map
        (named ((altered "MONGOQ_DATABASE").getD name)) := by
  have hformat := fromVariable_congr (h "MONGOQ_FORMAT" (by decide)) readFormat s.format
  have hreadOnly := fromVariable_congr (h "MONGOQ_READ_ONLY" (by decide))
    (readBool "MONGOQ_READ_ONLY") s.readOnly
  have hlevel := fromVariable_congr (h "MONGOQ_LOG_LEVEL" (by decide)) readLevel s.level
  rw [outcome_withEnvironment, outcome_withEnvironment]
  simp only [named, hformat, hreadOnly, hlevel]
  cases fromVariable environment "MONGOQ_FORMAT" readFormat s.format with
  | error f => rfl
  | ok format =>
    cases fromVariable environment "MONGOQ_READ_ONLY" (readBool "MONGOQ_READ_ONLY") s.readOnly with
    | error f => rfl
    | ok readOnly =>
      cases fromVariable environment "MONGOQ_LOG_LEVEL" readLevel s.level with
      | error f => rfl
      | ok level => rfl

/-- What the files say, with a name in it, and the environment after that: if it has a name of its
own, the one in the files is lost. -/
theorem unchecked_of_fromFiles (h : fromFiles around path = read.map (named name)) :
    unchecked around path =
      (read.bind fun s => outcome (s.withEnvironment around.environment)).map
        (named ((around.environment "MONGOQ_DATABASE").getD name)) := by
  rw [unchecked, h]
  cases read with
  | error f => rfl
  | ok s => exact outcome_withEnvironment_named (fun _ _ => rfl) name s

/-- A name in the environment takes the place of whatever name there would be without it. -/
theorem unchecked_of_environment (hfiles : fromFiles around' path = fromFiles around path)
    (h : ∀ variableName, variableName ≠ "MONGOQ_DATABASE" →
      around'.environment variableName = around.environment variableName)
    (hname : around'.environment "MONGOQ_DATABASE" = some name) :
    unchecked around' path = (unchecked around path).map (named name) := by
  rw [unchecked, unchecked, hfiles]
  cases fromFiles around path with
  | error f => rfl
  | ok s =>
    have hnamed := outcome_withEnvironment_named h s.database s
    rw [hname] at hnamed
    exact hnamed

/-- A name in the file leaves no trace if the environment has one. -/
theorem RenamedInFile.unchecked_eq (h : RenamedInFile old new path around around')
    (hname : around.environment "MONGOQ_DATABASE" = some name) :
    unchecked around' path = unchecked around path := by
  obtain ⟨read, hread, hread'⟩ := h.file.fromFiles
  rw [unchecked_of_fromFiles hread, unchecked_of_fromFiles hread', h.environment, hname]
  rfl

/-- Before the arguments are put in, such runs have the same settings, up to the name. -/
theorem RenamedBeforeArguments.unchecked (h : RenamedBeforeArguments old new path around around') :
    ∃ read : Except Fault Settings, Settings.unchecked around path = read.map (named old) ∧
      Settings.unchecked around' path = read.map (named new) := by
  cases h with
  | inFile h hname =>
    obtain ⟨read, hread, hread'⟩ := h.file.fromFiles
    rw [unchecked_of_fromFiles hread, unchecked_of_fromFiles hread', h.environment, hname]
    exact ⟨_, rfl, rfl⟩
  | inEnvironment h =>
    exact ⟨_, unchecked_of_environment rfl (fun _ _ => rfl) h.old_name,
      unchecked_of_environment h.files h.others h.new_name⟩

/-! ## The arguments -/

/-- Only the name decides whether settings can be used. -/
theorem validated_named (name : String) (s : Settings) :
    validated (s.named name) =
      if DatabaseName.isValid name then .ok (s.named name)
      else .error (.badValue "session.database" name) := by
  rw [validated, validate, database_named]
  split
  · rfl
  · rfl

/-- A name in the arguments takes the place of the one there was. -/
theorem withOptions_named (h : o.database = some name) (other : String) (s : Settings) :
    (s.named other).withOptions o = s.withOptions o := by
  rw [withOptions, withOptions, h]
  rfl

/-- A name that no database can have is a fault, whatever the arguments say. -/
theorem ofOptions_of_invalid (h : unchecked around o.configFile = read.map (named name))
    (hname : DatabaseName.isValid name = false) (s : Settings) : ofOptions around o ≠ .ok s := by
  rw [ofOptions_eq, h]
  cases read with
  | error f => exact nofun
  | ok r =>
    show (validated (r.named name)).bind _ ≠ _
    rw [validated_named, hname]
    exact nofun

/-- A name that a database can have is passed over if the arguments give another. -/
theorem ofOptions_of_valid (h : unchecked around o.configFile = read.map (named name))
    (hname : DatabaseName.isValid name = true) {given : String} (ho : o.database = some given) :
    ofOptions around o = read.bind fun s => (s.withOptions o).bind validated := by
  rw [ofOptions_eq, h]
  cases read with
  | error f => rfl
  | ok r =>
    show (validated (r.named name)).bind (fun s => (s.withOptions o).bind validated) = _
    rw [validated_named, if_pos hname]
    show ((r.named name).withOptions o).bind validated = (r.withOptions o).bind validated
    rw [withOptions_named ho]

end

/-- A name for the database that is overridden has no effect on the settings of a run but this: the
one that stands before the arguments are looked at must be a name that a database can have. So
nothing depends on a name in the file if the environment gives one; and if the arguments give one,
nothing depends on which of the names that a database can have stood there before. -/
theorem ofOptions_overridden_database (old new : String) (around around' : Surroundings)
    (o : CommandLine.Options) :
    (RenamedInFile old new o.configFile around around' →
      (around.environment "MONGOQ_DATABASE").isSome = true →
      ofOptions around' o = ofOptions around o) ∧
    (RenamedBeforeArguments old new o.configFile around around' → o.database.isSome = true →
      (DatabaseName.isValid new = DatabaseName.isValid old →
        ∀ s, ofOptions around' o = .ok s ↔ ofOptions around o = .ok s) ∧
      (DatabaseName.isValid new = false → ∀ s, ofOptions around' o ≠ .ok s)) := by
  refine ⟨fun h hsome => ?_, fun h hsome => ?_⟩
  · obtain ⟨name, hname⟩ := Option.isSome_iff_exists.1 hsome
    rw [ofOptions_eq, ofOptions_eq, h.unchecked_eq hname]
  · obtain ⟨given, hgiven⟩ := Option.isSome_iff_exists.1 hsome
    obtain ⟨read, hread, hread'⟩ := h.unchecked
    refine ⟨fun hsame s => ?_, ofOptions_of_invalid hread'⟩
    by_cases hnew : DatabaseName.isValid new = true
    · rw [ofOptions_of_valid hread' hnew hgiven,
        ofOptions_of_valid hread (hsame.symm.trans hnew) hgiven]
    · rw [Bool.not_eq_true] at hnew
      exact iff_of_false (ofOptions_of_invalid hread' hnew s)
        (ofOptions_of_invalid hread (hsame.symm.trans hnew) s)

/-- A run that finds a settings file at the default path, and a name in the environment. -/
def finding (entry : Entry) (database : Option String) : Surroundings where
  environment variableName := if variableName = "MONGOQ_DATABASE" then database else none
  entry _ := .absent
  defaultPath := "config.toml"
  defaultEntry := entry

/-- Two such runs with two names in the environment differ in nothing else. -/
theorem renamedInEnvironment_finding (entry : Entry) (old new : String) :
    RenamedInEnvironment old new none (finding entry (some old)) (finding entry (some new)) where
  files := rfl
  old_name := rfl
  new_name := rfl
  others _ h := (if_neg h).trans (if_neg h).symm

/-- A name in a file with another in the environment, one in a file with another in the arguments,
and one in the environment with another in the arguments. -/
theorem ofOptions_overridden_database_shop :
    ofOptions (finding (.file "session.database = 'b'".toUTF8) (some "c")) .none =
        ofOptions (finding (.file "session.database = 'a'".toUTF8) (some "c")) .none ∧
      (∀ s, ofOptions (finding (.file "session.database = 'b'".toUTF8) none)
          { CommandLine.Options.none with database := some "shop" } = .ok s ↔
        ofOptions (finding (.file "session.database = 'a'".toUTF8) none)
          { CommandLine.Options.none with database := some "shop" } = .ok s) ∧
      ∀ s, ofOptions (finding .absent (some "a.b"))
          { CommandLine.Options.none with database := some "shop" } ≠ .ok s := by
  have hfile : FileRenamed "a" "b" (.file "session.database = 'a'".toUTF8)
      (.file "session.database = 'b'".toUTF8) := by
    have hread : Toml.read? "session.database = 'a'" =
        some [("session", .table [("database", .text "a")])] := by cbv
    have hread' : Toml.read? "session.database = 'b'" =
        some [("session", .table [("database", .text "b")])] := by cbv
    exact .mk hread hread' (.mk rfl (.table rfl))
  have hrenamed (database : Option String) : RenamedInFile "a" "b" none
      (finding (.file "session.database = 'a'".toUTF8) database)
      (finding (.file "session.database = 'b'".toUTF8) database) :=
    ⟨rfl, hfile⟩
  refine ⟨?_, ?_, ?_⟩
  · exact (ofOptions_overridden_database "a" "b" _ _ _).1 (hrenamed (some "c")) rfl
  · exact ((ofOptions_overridden_database "a" "b" _ _ _).2 (.inFile (hrenamed none) rfl) rfl).1 rfl
  · exact ((ofOptions_overridden_database "a" "a.b" _ _ _).2
      (.inEnvironment (renamedInEnvironment_finding .absent "a" "a.b")) rfl).2 rfl

/-- With `--database shop` a run starts if the environment says `a`, but not if it says `a.b`. -/
theorem overridden_database_not_passed_over :
    RenamedInEnvironment "a" "a.b" none (finding .absent (some "a"))
        (finding .absent (some "a.b")) ∧
      ofOptions (finding .absent (some "a"))
          { CommandLine.Options.none with database := some "shop" } =
        .ok (default.named "shop") ∧
      ofOptions (finding .absent (some "a.b"))
          { CommandLine.Options.none with database := some "shop" } =
        .error (.badValue "session.database" "a.b") :=
  ⟨renamedInEnvironment_finding .absent "a" "a.b", rfl, rfl⟩

end Settings

end ShellQuery
