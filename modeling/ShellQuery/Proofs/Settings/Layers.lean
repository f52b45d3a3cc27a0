import ShellQuery.Program
import ShellQuery.Proofs.Settings.Names
/-!
# Layers of settings

Each source of settings gives some of the values and leaves the others alone: it is a `Layer`. What
the layers hold is said of each source apart (`FilesSay`, `EnvironmentSays`, `ArgumentsSay`), and
`layered` puts them over each other, with the defaults below. `ofOptions_eq_ok_iff` says that a run
has just these settings, if all of its sources can be read and the name of the database is valid,
both before the arguments are looked at and after that.
-/

namespace ShellQuery.Settings

open Toml

/-! ## Layers -/

/-- What a source says about the settings. -/
structure Layer where
  format : Option OutputFormat
  database : Option String
  readOnly : Option Bool
  level : Option LogLevel
  timestamps : Option Bool

/-- A source that says nothing. -/
def Layer.none : Layer := ⟨.none, .none, .none, .none, .none⟩

/-- The settings where all that a layer says is set. -/
def Layer.over (l : Layer) (s : Settings) : Settings where
  format := l.format.getD s.format
  database := l.database.getD s.database
  readOnly := l.readOnly.getD s.readOnly
  level := l.level.getD s.level
  timestamps := l.timestamps.getD s.timestamps

/-- The settings with each value from the first layer that has one, by default where none has. -/
def layered (layers : List Layer) : Settings where
  format := (layers.findSome? Layer.format).getD default.format
  database := (layers.findSome? Layer.database).getD default.database
  readOnly := (layers.findSome? Layer.readOnly).getD default.readOnly
  level := (layers.findSome? Layer.level).getD default.level
  timestamps := (layers.findSome? Layer.timestamps).getD default.timestamps

/-! ## What the sources say -/

/-- A name in a file: a text, or a table with nothing below it. -/
inductive IsName : Toml.Value → String → Prop
  | text {name : String} : IsName (.text name) name
  | table {name : String} : IsName (.table [(name, .table [])]) name
  | array {name : String} : IsName (.table [(name, .array [])]) name

/-- What a document says. -/
structure DocumentSays (fields : List (String × Toml.Value)) (l : Layer) : Prop where
  isReadable : IsReadable fields
  format : Option.Rel (fun v f => IsName v f.name) (valueAt? "display" 0 "format" fields) l.format
  database : Option.Rel (fun v name => v = .text name) (valueAt? "session" 0 "database" fields)
    l.database
  readOnly : Option.Rel (fun v b => v = .bool b) (valueAt? "session" 1 "read_only" fields)
    l.readOnly
  level : Option.Rel (fun v level => IsName v level.name) (valueAt? "logging" 0 "level" fields)
    l.level
  timestamps : Option.Rel (fun v b => v = .bool b) (valueAt? "logging" 1 "timestamps" fields)
    l.timestamps

/-- What the settings file says: the one that is asked for, or else the default one if it is there.
-/
inductive FilesSay (around : Surroundings) : Option String → Layer → Prop
  | asked {path text : String} {fields : List (String × Toml.Value)} {l : Layer} :
      around.entry path = .file text.toUTF8 → Toml.read? text = some fields →
      DocumentSays fields l → FilesSay around (some path) l
  | byDefault {text : String} {fields : List (String × Toml.Value)} {l : Layer} :
      around.defaultEntry = .file text.toUTF8 → Toml.read? text = some fields →
      DocumentSays fields l → FilesSay around .none l
  | absent : around.defaultEntry = .absent → FilesSay around .none .none

/-- The words for a truth value in the environment. -/
def boolWords : Bool → List String
  | true => ["1", "true", "yes", "on"]
  | false => ["0", "false", "no", "off"]

/-- What the environment says. -/
structure EnvironmentSays (environment : String → Option String) (l : Layer) : Prop where
  format : Option.Rel (fun s f => SpellsOne (Named.format.words f) s) (environment "MONGOQ_FORMAT")
    l.format
  database : l.database = environment "MONGOQ_DATABASE"
  readOnly : Option.Rel (fun s b => SpellsOne (boolWords b) s) (environment "MONGOQ_READ_ONLY")
    l.readOnly
  level : Option.Rel (fun s level => SpellsOne (Named.level.words level) s)
    (environment "MONGOQ_LOG_LEVEL") l.level
  timestamps : l.timestamps = .none

/-- What the arguments say. Writing can be forbidden by them, but not allowed, and of the switches
for the level the one that logs most counts. -/
structure ArgumentsSay (o : CommandLine.Options) (l : Layer) : Prop where
  format : Option.Rel (fun s f => SpellsOne (Named.format.words f) s) o.format l.format
  database : l.database = o.database
  readOnly : l.readOnly = if o.readOnly then some true else .none
  level : l.level = if o.veryVerbose then some .trace else if o.verbose then some .debug
    else if o.quiet then some .error else .none
  timestamps : l.timestamps = .none

/-! ## Each source in turn -/

section
variable {α β γ : Type} {s t : Settings} {l : Layer} {layers : List Layer}

/-- The first layer is over all others. -/
theorem layered_cons (l : Layer) (layers : List Layer) :
    layered (l :: layers) = l.over (layered layers) := by
  have hfirst : ∀ {β : Type} (get : Layer → Option β) (fallback : β),
      ((l :: layers).findSome? get).getD fallback =
        (get l).getD ((layers.findSome? get).getD fallback) := by
    intro β get fallback
    rw [List.findSome?_cons]
    cases get l with
    | none => rfl
    | some b => rfl
  rw [layered, Layer.over, layered, hfirst, hfirst, hfirst, hfirst, hfirst]

/-- Settings can be used if the database can have its name, and are left as they are. -/
theorem validated_eq_ok_iff :
    validated s = .ok t ↔ DatabaseName.isValid s.database = true ∧ s = t := by
  rw [validated, validate]
  split
  · rename_i h
    exact ⟨fun hs => ⟨h, Except.ok.inj hs⟩, fun hs => congrArg _ hs.2⟩
  · rename_i h
    exact ⟨nofun, fun hs => absurd hs.1 h⟩

/-- What may be given is read as what it means, and is the fallback where it is not given. -/
theorem exists_rel_iff {P : β → Prop} {means : α → β → Prop} {given : Option α} {fallback : β}
    (hnone : given = none → ∀ b, P b ↔ fallback = b)
    (hsome : ∀ a, given = some a → ∀ b, P b ↔ means a b) (b : β) :
    P b ↔ ∃ said, Option.Rel means given said ∧ said.getD fallback = b := by
  cases given with
  | none =>
    rw [hnone rfl]
    refine ⟨fun h => ⟨none, .none, h⟩, ?_⟩
    rintro ⟨_, ⟨⟩, h⟩
    exact h
  | some a =>
    rw [hsome a rfl]
    refine ⟨fun h => ⟨some b, .some h, rfl⟩, ?_⟩
    rintro ⟨_, ⟨h⟩, rfl⟩
    exact h

/-! ### Files -/

/-- A field of a file is read as what its value means, or is left to the fallback. -/
theorem field?_eq_some_iff {read : Toml.Value → Option β} {means : Toml.Value → β → Prop}
    (hread : ∀ v b, read v = some b ↔ means v b) {fallback b : β} {value : Option Toml.Value} :
    field? fallback read value = some b ↔
      ∃ said, Option.Rel means value said ∧ said.getD fallback = b := by
  refine exists_rel_iff (P := fun b => field? fallback read value = some b) ?_ ?_ b
  · rintro rfl b
    exact Option.some_inj
  · rintro v rfl b
    exact hread v b

/-- The reader of names knows the three ways to give one. -/
theorem name?_eq_some_iff {v : Toml.Value} {name : String} :
    name? v = some name ↔ IsName v name := by
  refine ⟨fun h => ?_, ?_⟩
  · unfold name? at h
    split at h
    · cases h
      exact .text
    · cases h
      exact .table
    · cases h
      exact .array
    · cases h
  · rintro (_ | _ | _) <;> rfl

/-- A value is read as what has the name that it gives. -/
theorem named?_eq_some_iff {ofName? : String → Option β} {nameOf : β → String}
    (hname : ∀ name b, ofName? name = some b ↔ name = nameOf b) (v : Toml.Value) (b : β) :
    named? ofName? v = some b ↔ IsName v (nameOf b) := by
  rw [named?, Option.bind_eq_some_iff]
  refine ⟨?_, fun h => ⟨nameOf b, name?_eq_some_iff.2 h, (hname _ b).2 rfl⟩⟩
  rintro ⟨name, hv, hb⟩
  rw [← (hname name b).1 hb]
  exact name?_eq_some_iff.1 hv

/-- Only a text is read as a text. -/
theorem text?_eq_some_iff (v : Toml.Value) (name : String) :
    text? v = some name ↔ v = .text name := by
  cases v <;> simp [text?]

/-- Only a truth value is read as one. -/
theorem bool?_eq_some_iff (v : Toml.Value) (b : Bool) : bool? v = some b ↔ v = .bool b := by
  cases v <;> simp [bool?]

/-- A document is read as the layer that it says, over the defaults. -/
theorem ofFields?_eq_some_iff_exists_layer {fields : List (String × Toml.Value)} :
    ofFields? fields = some s ↔ ∃ l, DocumentSays fields l ∧ l.over default = s := by
  rw [ofFields?_eq_some_iff,
    field?_eq_some_iff (named?_eq_some_iff lawful_format.ofName?_eq_some_iff),
    field?_eq_some_iff text?_eq_some_iff, field?_eq_some_iff bool?_eq_some_iff,
    field?_eq_some_iff (named?_eq_some_iff lawful_level.ofName?_eq_some_iff),
    field?_eq_some_iff bool?_eq_some_iff]
  refine ⟨?_, ?_⟩
  · rintro ⟨hreadable, ⟨format, hformat, hf⟩, ⟨database, hdatabase, hd⟩,
      ⟨readOnly, hreadOnly, hr⟩, ⟨level, hlevel, hl⟩, timestamps, htimestamps, ht⟩
    refine ⟨⟨format, database, readOnly, level, timestamps⟩,
      ⟨hreadable, hformat, hdatabase, hreadOnly, hlevel, htimestamps⟩, ?_⟩
    rw [Layer.over, hf, hd, hr, hl, ht]
  · rintro ⟨l, h, rfl⟩
    exact ⟨h.isReadable, ⟨_, h.format, rfl⟩, ⟨_, h.database, rfl⟩, ⟨_, h.readOnly, rfl⟩,
      ⟨_, h.level, rfl⟩, _, h.timestamps, rfl⟩

/-- A file is read if it holds a document, and the settings are what the document says. -/
theorem ofEntry_eq_ok_iff_exists_layer {path : String} {entry : Entry} :
    ofEntry path entry = .ok s ↔ ∃ text fields l, entry = .file text.toUTF8 ∧
      Toml.read? text = some fields ∧ DocumentSays fields l ∧ l.over default = s := by
  refine ⟨fun h => ?_, ?_⟩
  · obtain ⟨text, rfl⟩ : ∃ text : String, entry = .file text.toUTF8 := by
      cases entry with
      | absent | directory => cases h
      | file content =>
        by_cases hcontent : content.IsValidUTF8
        · exact ⟨⟨content, hcontent⟩, rfl⟩
        · have hnone : String.fromUTF8? content = none := dif_neg hcontent
          simp only [ofEntry, hnone] at h
          cases h
    cases hread : Toml.read? text with
    | none =>
      rw [ofEntry_toUTF8, hread] at h
      cases h
    | some fields =>
      obtain ⟨l, hl⟩ := ofFields?_eq_some_iff_exists_layer.1 ((ofEntry_eq_ok_iff hread).1 h)
      exact ⟨text, fields, l, rfl, hread, hl⟩
  · rintro ⟨text, fields, l, rfl, hread, hl⟩
    exact (ofEntry_eq_ok_iff hread).2 (ofFields?_eq_some_iff_exists_layer.2 ⟨l, hl⟩)

/-- The files are read as the layer that they say, over the defaults. -/
theorem fromFiles_eq_ok_iff {around : Surroundings} {path : Option String} :
    fromFiles around path = .ok s ↔ ∃ l, FilesSay around path l ∧ l.over default = s := by
  cases path with
  | some path =>
    rw [fromFiles, ofEntry_eq_ok_iff_exists_layer]
    refine ⟨?_, ?_⟩
    · rintro ⟨text, fields, l, hentry, hread, hl, hs⟩
      exact ⟨l, .asked hentry hread hl, hs⟩
    · rintro ⟨l, hsay, hs⟩
      cases hsay with
      | asked hentry hread hl => exact ⟨_, _, l, hentry, hread, hl, hs⟩
  | none =>
    by_cases habsent : around.defaultEntry = .absent
    · have hdefault : fromFiles around none = .ok default := by rw [fromFiles, habsent]
      rw [hdefault]
      refine ⟨fun h => ⟨.none, .absent habsent, Except.ok.inj h⟩, ?_⟩
      rintro ⟨l, hsay, rfl⟩
      cases hsay with
      | byDefault hentry _ _ =>
        rw [habsent] at hentry
        cases hentry
      | absent _ => rfl
    · have hfile : fromFiles around none = ofEntry around.defaultPath around.defaultEntry := by
        rw [fromFiles]
        split
        · rename_i h
          exact absurd h habsent
        · rfl
      rw [hfile, ofEntry_eq_ok_iff_exists_layer]
      refine ⟨?_, ?_⟩
      · rintro ⟨text, fields, l, hentry, hread, hl, hs⟩
        exact ⟨l, .byDefault hentry hread hl, hs⟩
      · rintro ⟨l, hsay, hs⟩
        cases hsay with
        | byDefault hentry hread hl => exact ⟨_, _, l, hentry, hread, hl, hs⟩
        | absent h => exact absurd h habsent

/-! ### The environment and the arguments -/

/-- A word is read as a truth value if it spells one of the words for it. -/
theorem readBool_eq_ok_iff (field word : String) (b : Bool) :
    readBool field word = .ok b ↔ SpellsOne (boolWords b) word := by
  have hread : readBool field word = if folded word ∈ boolWords true then .ok true
      else if folded word ∈ boolWords false then .ok false else .error (.badValue field word) := rfl
  have hapart : ∀ w ∈ boolWords true, w ∉ boolWords false := by decide
  rw [← folded_mem_iff (by cases b <;> decide), hread]
  by_cases htrue : folded word ∈ boolWords true
  · rw [if_pos htrue]
    cases b with
    | true => exact ⟨fun _ => htrue, fun _ => rfl⟩
    | false => exact ⟨nofun, fun h => absurd h (hapart _ htrue)⟩
  · rw [if_neg htrue]
    by_cases hfalse : folded word ∈ boolWords false
    · rw [if_pos hfalse]
      cases b with
      | true => exact ⟨nofun, fun h => absurd h htrue⟩
      | false => exact ⟨fun _ => hfalse, fun _ => rfl⟩
    · rw [if_neg hfalse]
      cases b with
      | true => exact ⟨nofun, fun h => absurd h htrue⟩
      | false => exact ⟨nofun, fun h => absurd h hfalse⟩

/-- A variable is read as what its text means, or is left to the fallback. -/
theorem fromVariable_eq_ok_iff {environment : String → Option String} {variableName : String}
    {read : String → Except Fault β} {means : String → β → Prop}
    (hread : ∀ word b, read word = .ok b ↔ means word b) {fallback b : β} :
    fromVariable environment variableName read fallback = .ok b ↔
      ∃ said, Option.Rel means (environment variableName) said ∧ said.getD fallback = b := by
  refine exists_rel_iff (P := fun b => fromVariable environment variableName read fallback = .ok b)
    (fun hnone b => ?_) (fun word hword b => ?_) b
  · rw [fromVariable, hnone, Except.ok.injEq]
  · rw [fromVariable, hword]
    exact hread word b

/-- The environment is read as the layer that it says, over the settings there were. -/
theorem outcome_withEnvironment_eq_ok_iff_exists_layer {environment : String → Option String} :
    outcome (withEnvironment environment s) = .ok t ↔
      ∃ l, EnvironmentSays environment l ∧ l.over s = t := by
  rw [outcome_withEnvironment_eq_ok_iff, fromVariable_eq_ok_iff lawful_format.read_eq_ok_iff_spells,
    fromVariable_eq_ok_iff (readBool_eq_ok_iff "MONGOQ_READ_ONLY"),
    fromVariable_eq_ok_iff lawful_level.read_eq_ok_iff_spells]
  refine ⟨?_, ?_⟩
  · rintro ⟨⟨format, hformat, hf⟩, hd, ⟨readOnly, hreadOnly, hr⟩, ⟨level, hlevel, hl⟩, ht⟩
    refine ⟨⟨format, environment "MONGOQ_DATABASE", readOnly, level, none⟩,
      ⟨hformat, rfl, hreadOnly, hlevel, rfl⟩, ?_⟩
    rw [Layer.over, hf, hd, hr, hl, ht]
    rfl
  · rintro ⟨l, h, rfl⟩
    refine ⟨⟨_, h.format, rfl⟩, ?_, ⟨_, h.readOnly, rfl⟩, ⟨_, h.level, rfl⟩, ?_⟩
    · rw [Layer.over, h.database]
    · rw [Layer.over, h.timestamps]
      rfl

/-- Of the switches for the level, the one that logs most counts. -/
theorem levelOf_eq (o : CommandLine.Options) (fallback : LogLevel) :
    levelOf o fallback = Option.getD (if o.veryVerbose then some .trace
      else if o.verbose then some .debug else if o.quiet then some .error else .none) fallback := by
  rw [levelOf]
  split_ifs <;> rfl

/-- The arguments are read as the layer that they say, over the settings there were. -/
theorem withOptions_eq_ok_iff {o : CommandLine.Options} :
    withOptions o s = .ok t ↔ ∃ l, ArgumentsSay o l ∧ l.over s = t := by
  have hread : withOptions o s =
      (fromVariable (fun _ => o.format) "" readFormat s.format).bind fun format =>
        .ok ⟨format, o.database.getD s.database, o.readOnly || s.readOnly, levelOf o s.level,
          s.timestamps⟩ := by
    rw [withOptions, fromVariable]
    cases o.format <;> rfl
  have hreadOnly : (o.readOnly || s.readOnly) =
      (if o.readOnly then some true else none).getD s.readOnly := by
    cases o.readOnly <;> rfl
  rw [hread, hreadOnly, levelOf_eq]
  simp only [bind_eq_ok_iff, fromVariable_eq_ok_iff lawful_format.read_eq_ok_iff_spells,
    Except.ok.injEq]
  refine ⟨?_, ?_⟩
  · rintro ⟨_, ⟨format, hformat, rfl⟩, rfl⟩
    exact ⟨⟨format, _, _, _, none⟩, ⟨hformat, rfl, rfl, rfl, rfl⟩, rfl⟩
  · rintro ⟨l, h, rfl⟩
    refine ⟨_, ⟨_, h.format, rfl⟩, ?_⟩
    rw [Layer.over, h.database, h.readOnly, h.level, h.timestamps]
    rfl

end

/-! ## Main result -/

/-- **Settings in layers.** A run has the settings that its sources say, the arguments first, then
the environment, the file and the defaults. It has settings just if the sources can be read, and a
database can have the name that is left: before the arguments are put in, and after that, so that
the session of the run starts with a valid name. -/
theorem ofOptions_eq_ok_iff (around : Surroundings) (o : CommandLine.Options) (s : Settings) :
    ofOptions around o = .ok s ↔ ∃ file environment arguments,
      FilesSay around o.configFile file ∧ EnvironmentSays around.environment environment ∧
        ArgumentsSay o arguments ∧ s = layered [arguments, environment, file] ∧
          DatabaseName.isValid (layered [environment, file]).database = true ∧
            DatabaseName.isValid (Session.ofSettings s).database = true := by
  have hnone : layered [] = default := rfl
  rw [ofOptions_eq, unchecked]
  simp only [bind_eq_ok_iff, fromFiles_eq_ok_iff, outcome_withEnvironment_eq_ok_iff_exists_layer,
    validated_eq_ok_iff, withOptions_eq_ok_iff, layered_cons, hnone]
  refine ⟨?_, ?_⟩
  -- `hvalid` is about the settings without the arguments, `hvalid'` about those of the run.
  · rintro ⟨_, ⟨_, ⟨file, hfile, rfl⟩, environment, henvironment, rfl⟩, _, ⟨hvalid, rfl⟩, _,
      ⟨arguments, harguments, rfl⟩, hvalid', rfl⟩
    exact ⟨file, environment, arguments, hfile, henvironment, harguments, rfl, hvalid, hvalid'⟩
  · rintro ⟨file, environment, arguments, hfile, henvironment, harguments, rfl, hvalid, hvalid'⟩
    exact ⟨_, ⟨_, ⟨file, hfile, rfl⟩, environment, henvironment, rfl⟩, _, ⟨hvalid, rfl⟩, _,
      ⟨arguments, harguments, rfl⟩, hvalid', rfl⟩

end ShellQuery.Settings
