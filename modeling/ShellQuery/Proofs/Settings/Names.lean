import Mathlib
import ShellQuery.Proofs.OuterBlanks
import ShellQuery.Proofs.Settings.File
import ShellQuery.Proofs.Settings.Load
import ShellQuery.Proofs.Toml.Written
/-!
# Names in files and in the environment

The format of the output and the level of the log have values with names, and both can be set in a
settings file and in the environment. A file gives the name itself. The environment gives a word
that spells it (`Spells`), in letters of either case and with blanks around it, and for two of the
values there is a second word.

`Named` is such a setting, and `Named.Lawful` says how the program comes by it: which entry of the
places in a file and which of the overrides is its own, and that no other entry has to do with it.
`Named.Lawful.readAs` draws the conclusions for every text: which value it is taken for by either
source, that it is refused otherwise, and that the two agree unless the text spells a name without
being it.
-/

namespace ShellQuery

open Text Dialect

/-! ## Spellings -/

/-- A text that is a word in letters of either case, with blanks around it. -/
def Spells (s word : String) : Prop :=
  ∃ a w b, s.toList = a ++ (w ++ b) ∧ Blanks a ∧ Blanks b ∧ w.map Char.toLower = word.toList

/-- A text that spells one of some words. -/
def SpellsOne (words : List String) (s : String) : Prop :=
  ∃ word ∈ words, Spells s word

/-- No blank has another lower case. -/
theorem toLower_of_isBlank {c : Char} (h : isBlank c = true) : c.toLower = c := by
  refine dif_neg fun hupper => ?_
  have hbounds : 65 ≤ c.toNat ∧ c.toNat ≤ 90 := hupper
  rw [isBlank_of_ascii (by omega) (by omega)] at h
  cases h

namespace Settings

variable {α : Type} {s word : String}

/-- Folding leaves a word without blanks of just the texts that spell it. -/
theorem folded_eq_iff (hword : word.toList.any isBlank = false) :
    folded s = word ↔ Spells s word := by
  rw [folded, ← String.toList_inj, String.toList_ofList]
  refine ⟨fun h => ?_, ?_⟩
  · obtain ⟨a, b, hs, ha, hb⟩ := exists_trim s.toList
    exact ⟨a, trim s.toList, b, hs, ha, hb, h⟩
  · rintro ⟨a, w, b, hs, ha, hb, hw⟩
    -- A blank in `w` is its own lower case, so it would be one in the word.
    have hvisible : ∀ c ∈ w, isBlank c = false := by
      intro c hc
      by_contra hblank
      rw [Bool.not_eq_false] at hblank
      have hmem : c ∈ word.toList := by
        rw [← hw, ← toLower_of_isBlank hblank]
        exact List.mem_map_of_mem hc
      exact List.any_eq_false.1 hword c hmem hblank
    rw [hs, trim_padded ha hb, trim_of_visible hvisible, hw]

/-- Folding leaves one of some words of just the texts that spell one of them. -/
theorem folded_mem_iff {words : List String}
    (hwords : ∀ word ∈ words, word.toList.any isBlank = false) :
    folded s ∈ words ↔ SpellsOne words s := by
  refine ⟨fun hmem => ⟨_, hmem, (folded_eq_iff (hwords _ hmem)).1 rfl⟩, ?_⟩
  rintro ⟨word, hmem, hspells⟩
  rw [(folded_eq_iff (hwords word hmem)).2 hspells]
  exact hmem

/-! ## Settings with named values -/

/-- A setting that has names for its values: its place in a file, its variable in the environment,
the names, the other words for a value that the environment knows, and how the value is set. -/
structure Named (α : Type) where
  sectionName : String
  key : String
  variableName : String
  name : α → String
  others : α → List String
  put : Settings → α → Settings

namespace Named

/-- The format of the output. -/
def format : Named OutputFormat where
  sectionName := "display"
  key := "format"
  variableName := "MONGOQ_FORMAT"
  name := OutputFormat.name
  others f := if f = .jsonPretty then ["pretty"] else []
  put s f := { s with format := f }

/-- The level of the log. -/
def level : Named LogLevel where
  sectionName := "logging"
  key := "level"
  variableName := "MONGOQ_LOG_LEVEL"
  name := LogLevel.name
  others l := if l = .warn then ["warning"] else []
  put s l := { s with level := l }

/-- The words for a value in the environment. -/
def words (n : Named α) (a : α) : List String :=
  n.name a :: n.others a

/-- A document that gives a text for a setting. -/
structure Gives (n : Named α) (s : String) (fields values : List (String × Toml.Value)) :
    Prop where
  values_eq : Fields.get? n.sectionName fields = some (.table values)
  text_eq : Fields.get? n.key values = some (.text s)

/-- A text in a file is taken for a value: whatever the file says besides, if it is accepted with
some text in this place, then it is accepted with this one, and the setting has the value. -/
def FileTakes (n : Named α) (s : String) (a : α) : Prop :=
  ∀ text fields values, Toml.read? text = some fields → n.Gives s fields values →
    ∀ other rest path, ofFields? (withText n.sectionName n.key other values fields) = some rest →
      ofEntry path (.file text.toUTF8) = .ok (n.put rest a)

/-- No file with a text in this place is accepted. -/
def FileRefuses (n : Named α) (s : String) : Prop :=
  ∀ text fields values, Toml.read? text = some fields → n.Gives s fields values →
    ∀ path, ofEntry path (.file text.toUTF8) = .error .malformed

/-- An environment with one variable less. -/
def without (variableName : String) (environment : String → Option String) :
    String → Option String :=
  fun v => if v = variableName then none else environment v

/-- A text in the environment is taken for a value: whatever the settings were and whatever the
environment says besides, it is as if the value had been set before. -/
def EnvironmentTakes (n : Named α) (s : String) (a : α) : Prop :=
  ∀ environment t, environment n.variableName = some s →
    outcome (withEnvironment environment t) =
      outcome (withEnvironment (without n.variableName environment) (n.put t a))

/-- No environment with a text for the variable is accepted. -/
def EnvironmentRefuses (n : Named α) (s : String) : Prop :=
  ∀ environment t, environment n.variableName = some s →
    ∀ r, outcome (withEnvironment environment t) ≠ .ok r

/-- The place of a setting in a file. -/
def fileField (n : Named α) (get : Settings → α) (ofName? : String → Option α) : FileField :=
  ⟨n.sectionName, 0, n.key, fun v s => field? (get default) (named? ofName?) v = some (get s)⟩

/-- The override of a setting. -/
def override (n : Named α) (read : String → Except Fault α) : Override :=
  ⟨n.variableName, fun value s => (read value).map (n.put s)⟩

/-- How the program comes by a setting: `get` is the value that settings have for it, `ofName?`
reads a name in a file, and `read` a word in the environment. -/
structure Lawful (n : Named α) (get : Settings → α) (ofName? : String → Option α)
    (read : String → Except Fault α) : Prop where
  get_put : ∀ s a, get (n.put s a) = a
  visible : ∀ a, ∀ word ∈ n.words a, word.toList.any isBlank = false
  lower : ∀ a, (n.name a).toList.map Char.toLower = (n.name a).toList
  ofName?_eq_some_iff : ∀ s a, ofName? s = some a ↔ s = n.name a
  read_eq_ok_iff : ∀ s a, read s = .ok a ↔ folded s ∈ n.words a
  fileField_mem : n.fileField get ofName? ∈ fileFields
  holds_put : ∀ f ∈ fileFields, f.key ≠ n.key → ∀ v s a, f.Holds v (n.put s a) ↔ f.Holds v s
  override_mem : n.override read ∈ overrides
  set_put : ∀ o ∈ overrides, o.variableName ≠ n.variableName →
    ∀ value s a, o.set value (n.put s a) = (o.set value s).map (n.put · a)

/-- What a text is taken for. Only the names themselves are taken in a file. In the environment all
words are, however they are spelled. So the two agree on a text unless it spells a word for a value
and is no name. -/
structure ReadAs (n : Named α) (s : String) : Prop where
  fileTakes_iff : ∀ a, n.FileTakes s a ↔ s = n.name a
  fileRefuses_iff : n.FileRefuses s ↔ ∀ a, s ≠ n.name a
  environmentTakes_iff : ∀ a, n.EnvironmentTakes s a ↔ SpellsOne (n.words a) s
  environmentRefuses_iff : n.EnvironmentRefuses s ↔ ∀ a, ¬SpellsOne (n.words a) s
  environmentTakes_of_fileTakes : ∀ a, n.FileTakes s a → n.EnvironmentTakes s a
  agree_iff : (∀ a, n.EnvironmentTakes s a ↔ n.FileTakes s a) ↔
    (∃ a, s = n.name a) ∨ n.EnvironmentRefuses s

/-! ### What follows from the laws -/

section
variable {n : Named α} {a b : α} {get : Settings → α} {ofName? : String → Option α}
  {read : String → Except Fault α} {fields values : List (String × Toml.Value)} {r rest : Settings}

/-- The document that says nothing else. -/
theorem gives_only (n : Named α) (s : String) :
    n.Gives s [(n.sectionName, .table [(n.key, .text s)])] [(n.key, .text s)] :=
  ⟨if_pos rfl, if_pos rfl⟩

/-- Where the text is found that a document gives. -/
theorem Gives.valueAt? (h : n.Gives s fields values) :
    valueAt? n.sectionName 0 n.key fields = some (.text s) :=
  (valueAt?_table h.values_eq 0).trans h.text_eq

/-- Another text makes a document that says nothing else into another such one. -/
theorem withText_only (n : Named α) (s other : String) :
    withText n.sectionName n.key other [(n.key, .text s)]
        [(n.sectionName, .table [(n.key, .text s)])] =
      [(n.sectionName, .table [(n.key, .text other)])] := by
  simp [withText, Fields.put]

/-- The places of a file have different keys. -/
theorem eq_of_key_eq {f g : FileField} (hf : f ∈ fileFields) (hg : g ∈ fileFields)
    (h : f.key = g.key) : f = g :=
  List.inj_on_of_nodup_map (f := FileField.key) (by decide) hf hg h

/-! ### Files -/

/-- A place is in one of the sections, and both have names that need no quotes. -/
theorem bare_of_mem {f : FileField} (hf : f ∈ fileFields) :
    f.sectionName ∈ sectionNames ∧ (f.sectionName.toList.all Toml.isBareChar = true ∧
      f.sectionName.toList ≠ []) ∧ f.key.toList.all Toml.isBareChar = true ∧ f.key.toList ≠ [] := by
  simp only [fileFields, List.mem_cons, List.not_mem_nil, or_false] at hf
  rcases hf with rfl | rfl | rfl | rfl | rfl <;> decide

/-- Each text is given by some file, which says nothing else. -/
theorem Lawful.exists_read? (h : n.Lawful get ofName? read) (s : String) :
    ∃ text, Toml.read? text = some [(n.sectionName, .table [(n.key, .text s)])] := by
  obtain ⟨-, ⟨hsection, hsection'⟩, hkey, hkey'⟩ := bare_of_mem h.fileField_mem
  have hread := Toml.read?_assigned _ _ hsection hsection' hkey hkey' s
  rw [String.ofList_toList, String.ofList_toList] at hread
  exact ⟨_, hread⟩

/-- A document that gives a text for a setting is read just if all else in it is, and the text is
the name of the value. -/
theorem Lawful.ofFields?_iff (h : n.Lawful get ofName? read) (hgives : n.Gives s fields values) :
    ofFields? fields = some r ↔ IsReadable fields ∧ s = n.name (get r) ∧
      ∀ f ∈ fileFields, f.key ≠ n.key →
        f.Holds (Settings.valueAt? f.sectionName f.place f.key fields) r := by
  have hown : (n.fileField get ofName?).Holds
      (Settings.valueAt? n.sectionName 0 n.key fields) r ↔ s = n.name (get r) := by
    rw [hgives.valueAt?]
    exact h.ofName?_eq_some_iff s (get r)
  rw [ofFields?_eq_some_iff_holds, ← hown]
  refine and_congr_right fun _ =>
    ⟨fun hall => ⟨hall _ h.fileField_mem, fun f hf _ => hall f hf⟩, ?_⟩
  rintro ⟨hname, hothers⟩ f hf
  by_cases hkey : f.key = n.key
  · rw [eq_of_key_eq hf h.fileField_mem hkey]
    exact hname
  · exact hothers f hf hkey

/-- A name in the place of a text that is accepted is accepted too, for its value. -/
theorem Lawful.ofFields?_name (h : n.Lawful get ofName? read)
    (hgives : n.Gives (n.name a) fields values) {other : String}
    (hrest : ofFields? (withText n.sectionName n.key other values fields) = some rest) :
    ofFields? fields = some (n.put rest a) := by
  obtain ⟨hreadable, hall⟩ := ofFields?_eq_some_iff_holds.1 hrest
  refine (h.ofFields?_iff hgives).2 ⟨?_, by rw [h.get_put], fun f hf hkey => ?_⟩
  · exact (isReadable_withText (bare_of_mem h.fileField_mem).1 hgives.values_eq hgives.text_eq).1
      hreadable
  · rw [h.holds_put f hf hkey,
      ← valueAt?_withText_of_ne (.inr (Ne.symm hkey)) hgives.values_eq f.place]
    exact hall f hf

/-- A name alone is accepted, and leaves the defaults for all else. -/
theorem Lawful.ofFields?_only (h : n.Lawful get ofName? read) (a : α) :
    ofFields? [(n.sectionName, .table [(n.key, .text (n.name a))])] = some (n.put default a) := by
  have hsection : n.sectionName ∈ sectionNames := (bare_of_mem h.fileField_mem).1
  refine (h.ofFields?_iff (n.gives_only _)).2 ⟨⟨?_, ?_⟩, by rw [h.get_put], fun f hf hkey => ?_⟩
  · rw [List.filter_cons_of_neg (by simpa using hsection)]
    rfl
  · intro name _ v hv
    rw [Fields.get?] at hv
    split at hv
    · cases hv
      exact .table rfl
    · cases hv
  · rw [h.holds_put f hf hkey]
    have hnone : Settings.valueAt? f.sectionName f.place f.key
        [(n.sectionName, .table [(n.key, .text (n.name a))])] = none := by
      rw [Settings.valueAt?, Fields.get?]
      split
      · exact if_neg (Ne.symm hkey)
      · rfl
    rw [hnone]
    exact holds_none_default hf

/-- A text is taken for a value by files just if it is the name of the value. -/
theorem Lawful.fileTakes_iff (h : n.Lawful get ofName? read) (s : String) (a : α) :
    n.FileTakes s a ↔ s = n.name a := by
  refine ⟨fun htakes => ?_, ?_⟩
  -- The document that gives this text and nothing else decides it.
  · obtain ⟨text, htext⟩ := h.exists_read? s
    have hgives := n.gives_only s
    have hrest : ofFields? (withText n.sectionName n.key (n.name a) [(n.key, .text s)]
        [(n.sectionName, .table [(n.key, .text s)])]) = some (n.put default a) := by
      rw [withText_only, h.ofFields?_only]
    have hread := (ofEntry_eq_ok_iff htext).1 (htakes text _ _ htext hgives _ _ "" hrest)
    obtain ⟨-, hname, -⟩ := (h.ofFields?_iff hgives).1 hread
    rwa [h.get_put] at hname
  · rintro rfl text fields values htext hgives other rest path hrest
    exact (ofEntry_eq_ok_iff htext).2 (h.ofFields?_name hgives hrest)

/-- A text is refused by files just if it is no name. -/
theorem Lawful.fileRefuses_iff (h : n.Lawful get ofName? read) (s : String) :
    n.FileRefuses s ↔ ∀ a, s ≠ n.name a := by
  refine ⟨?_, fun hnone text fields values htext hgives path => ?_⟩
  · rintro hrefuses a rfl
    obtain ⟨text, htext⟩ := h.exists_read? (n.name a)
    have hnone := hrefuses text _ _ htext (n.gives_only _) ""
    rw [ofEntry_eq_malformed_iff htext, h.ofFields?_only] at hnone
    cases hnone
  · rw [ofEntry_eq_malformed_iff htext, Option.eq_none_iff_forall_ne_some]
    intro r hr
    exact hnone (get r) ((h.ofFields?_iff hgives).1 hr).2.1

/-! ### The environment -/

/-- An environment with one variable says nothing without it. -/
theorem EnvironmentTakes.outcome_eq (h : n.EnvironmentTakes s a) (t : Settings) :
    outcome (withEnvironment (fun v => if v = n.variableName then some s else none) t) =
      .ok (n.put t a) := by
  have hwithout : without n.variableName (fun v => if v = n.variableName then some s else none) =
      fun _ => none := by
    funext v
    by_cases hv : v = n.variableName
    · exact if_pos hv
    · exact (if_neg hv).trans (if_neg hv)
  rw [h _ t (if_pos rfl), hwithout]
  rfl

/-- What is taken for a value is not refused. -/
theorem EnvironmentTakes.not_refuses (h : n.EnvironmentTakes s a) : ¬n.EnvironmentRefuses s :=
  fun hrefuses => hrefuses _ default (if_pos rfl) _ (h.outcome_eq default)

/-- A word for a value is taken for it: it might as well have been set before. -/
theorem Lawful.environmentTakes (h : n.Lawful get ofName? read) (hword : folded s ∈ n.words a) :
    n.EnvironmentTakes s a := by
  intro environment t hs
  have hread : read s = .ok a := (h.read_eq_ok_iff s a).2 hword
  refine outcome_applyOverrides_of_set (n.override read) (n.put · a) h.override_mem (by decide) hs
    (if_pos rfl) (fun name hname => if_neg hname) (fun t => ?_) ?_ t
  · show (read s).map (n.put t) = _
    rw [hread]
    rfl
  · exact fun o ho hname value t => h.set_put o ho hname value t a

/-- A text that is no word for any value is refused. -/
theorem Lawful.environmentRefuses (h : n.Lawful get ofName? read)
    (hnone : ∀ a, folded s ∉ n.words a) : n.EnvironmentRefuses s := by
  intro environment t hs r hr
  obtain ⟨t₁, t₂, hset⟩ := exists_set_eq_ok hr h.override_mem hs
  obtain ⟨a, ha, -⟩ := Json.map_eq_ok hset
  exact hnone a ((h.read_eq_ok_iff s a).1 ha)

/-- A text is read as a value just if it spells a word for it. -/
theorem Lawful.read_eq_ok_iff_spells (h : n.Lawful get ofName? read) (s : String) (a : α) :
    read s = .ok a ↔ SpellsOne (n.words a) s :=
  (h.read_eq_ok_iff s a).trans (folded_mem_iff (h.visible a))

/-- A text is taken for one value at most. -/
theorem Lawful.eq_of_environmentTakes (h : n.Lawful get ofName? read)
    (ha : n.EnvironmentTakes s a) (hb : n.EnvironmentTakes s b) : a = b := by
  have hput : n.put default a = n.put default b :=
    Except.ok.inj ((ha.outcome_eq default).symm.trans (hb.outcome_eq default))
  rw [← h.get_put default a, hput, h.get_put]

/-- A text is taken for a value in the environment just if it spells a word for it. -/
theorem Lawful.environmentTakes_iff (h : n.Lawful get ofName? read) (s : String) (a : α) :
    n.EnvironmentTakes s a ↔ SpellsOne (n.words a) s := by
  rw [← folded_mem_iff (h.visible a)]
  refine ⟨fun htakes => ?_, h.environmentTakes⟩
  obtain ⟨b, hb⟩ : ∃ b, folded s ∈ n.words b := by
    by_contra hnone
    exact htakes.not_refuses (h.environmentRefuses (not_exists.1 hnone))
  rwa [h.eq_of_environmentTakes htakes (h.environmentTakes hb)]

/-- A text is refused in the environment just if it spells no word. -/
theorem Lawful.environmentRefuses_iff (h : n.Lawful get ofName? read) (s : String) :
    n.EnvironmentRefuses s ↔ ∀ a, ¬SpellsOne (n.words a) s := by
  refine ⟨fun hrefuses a hspells => ?_, fun hnone => ?_⟩
  · exact ((h.environmentTakes_iff s a).2 hspells).not_refuses hrefuses
  · exact h.environmentRefuses fun a hmem => hnone a ((folded_mem_iff (h.visible a)).1 hmem)

/-- Every name spells itself. -/
theorem Lawful.spells_name (h : n.Lawful get ofName? read) (a : α) :
    Spells (n.name a) (n.name a) :=
  ⟨[], (n.name a).toList, [], by simp, nofun, nofun, h.lower a⟩

/-- The environment takes each name for its value. -/
theorem Lawful.environmentTakes_name (h : n.Lawful get ofName? read) (a : α) :
    n.EnvironmentTakes (n.name a) a :=
  (h.environmentTakes_iff _ a).2 ⟨n.name a, List.mem_cons_self, h.spells_name a⟩

/-- The two sources agree on names and on what neither takes, and on nothing else. -/
theorem Lawful.agree_iff (h : n.Lawful get ofName? read) (s : String) :
    (∀ a, n.EnvironmentTakes s a ↔ n.FileTakes s a) ↔
      (∃ a, s = n.name a) ∨ n.EnvironmentRefuses s := by
  simp only [h.fileTakes_iff]
  refine ⟨fun hagree => ?_, ?_⟩
  · by_contra hnone
    obtain ⟨hname, hrefuses⟩ := not_or.1 hnone
    exact hrefuses ((h.environmentRefuses_iff s).2 fun a hspells =>
      hname ⟨a, (hagree a).1 ((h.environmentTakes_iff s a).2 hspells)⟩)
  · rintro (⟨a, rfl⟩ | hrefuses) b
    · refine ⟨fun htakes => ?_, fun hsame => hsame ▸ h.environmentTakes_name b⟩
      rw [h.eq_of_environmentTakes (h.environmentTakes_name a) htakes]
    · refine ⟨fun htakes => absurd hrefuses htakes.not_refuses, ?_⟩
      rintro rfl
      exact absurd hrefuses (h.environmentTakes_name b).not_refuses

/-- **What a text is taken for**, by files and in the environment. -/
theorem Lawful.readAs (h : n.Lawful get ofName? read) (s : String) : n.ReadAs s where
  fileTakes_iff := h.fileTakes_iff s
  fileRefuses_iff := h.fileRefuses_iff s
  environmentTakes_iff := h.environmentTakes_iff s
  environmentRefuses_iff := h.environmentRefuses_iff s
  environmentTakes_of_fileTakes a htakes := by
    rw [(h.fileTakes_iff s a).1 htakes]
    exact h.environmentTakes_name a
  agree_iff := h.agree_iff s

end

end Named

/-! ## The readers of the two settings -/

/-- The value with a name is the one that has it, if all values are looked at and no two of them
have the same name. -/
theorem find?_name_eq_some_iff {name : α → String} {all : List α} {a : α} (hall : ∀ a, a ∈ all)
    (hnodup : (all.map name).Nodup) :
    all.find? (fun a => decide (name a = s)) = some a ↔ s = name a := by
  have hname {b : α} (h : all.find? (fun a => decide (name a = s)) = some b) : name b = s :=
    of_decide_eq_true (List.find?_some h :)
  refine ⟨fun h => (hname h).symm, ?_⟩
  rintro rfl
  have hsome : (all.find? fun b => decide (name b = name a)).isSome = true :=
    List.find?_isSome.2 ⟨a, hall a, decide_eq_true_iff.2 rfl⟩
  obtain ⟨b, hb⟩ := Option.isSome_iff_exists.1 hsome
  rw [hb, List.inj_on_of_nodup_map hnodup (hall b) (hall a) (hname hb)]

/-- A word is read as a value just if it is the name of the value, or the other word and the value
is the one that it is for. -/
theorem readNamed_eq_ok_iff [DecidableEq α] {n : Named α} {ofName? : String → Option α}
    {field other : String} {a b : α} (hname : ∀ word b, ofName? word = some b ↔ word = n.name b)
    (hothers : ∀ b, n.others b = if b = a then [other] else []) (hnew : ∀ b, other ≠ n.name b) :
    readNamed field ofName? other a s = .ok b ↔ folded s ∈ n.words b := by
  have hread : readNamed field ofName? other a s = .ok b ↔
      (if folded s = other then some a else ofName? (folded s)) = some b := by
    rw [readNamed]
    cases (if folded s = other then some a else ofName? (folded s)) with
    | none => exact ⟨nofun, nofun⟩
    | some c => rw [Except.ok.injEq, Option.some.injEq]
  rw [hread, Named.words, List.mem_cons, hothers]
  by_cases hword : folded s = other
  · rw [if_pos hword, hword, Option.some.injEq]
    by_cases hb : b = a
    · simp [hb]
    · simp [hb, hnew b, Ne.symm hb]
  · rw [if_neg hword, hname]
    refine (or_iff_left fun hmem => ?_).symm
    split at hmem
    · exact hword (List.mem_singleton.1 hmem)
    · cases hmem

/-- The format is a lawful setting. -/
theorem lawful_format : Named.format.Lawful Settings.format OutputFormat.ofName? readFormat :=
  have hname (s : String) (f : OutputFormat) : OutputFormat.ofName? s = some f ↔ s = f.name :=
    find?_name_eq_some_iff (fun f => by cases f <;> decide) (by decide)
  { get_put := fun _ _ => rfl
    visible := fun f => by cases f <;> decide
    lower := fun f => by cases f <;> decide
    ofName?_eq_some_iff := hname
    read_eq_ok_iff := fun _ _ =>
      readNamed_eq_ok_iff hname (fun _ => rfl) fun f => by cases f <;> decide
    fileField_mem := .head _
    holds_put := by simp [fileFields, Named.format]
    override_mem := .head _
    set_put := by simp [overrides, Named.format, map_map, Function.comp_def] }

/-- The level is a lawful setting. -/
theorem lawful_level : Named.level.Lawful Settings.level LogLevel.ofName? readLevel :=
  have hname (s : String) (l : LogLevel) : LogLevel.ofName? s = some l ↔ s = l.name :=
    find?_name_eq_some_iff (fun l => by cases l <;> decide) (by decide)
  { get_put := fun _ _ => rfl
    visible := fun l => by cases l <;> decide
    lower := fun l => by cases l <;> decide
    ofName?_eq_some_iff := hname
    read_eq_ok_iff := fun _ _ =>
      readNamed_eq_ok_iff hname (fun _ => rfl) fun l => by cases l <;> decide
    fileField_mem := .tail _ (.tail _ (.tail _ (.head _)))
    holds_put := by simp [fileFields, Named.level]
    override_mem := .tail _ (.tail _ (.tail _ (.head _)))
    set_put := by simp [overrides, Named.level, map_map, Function.comp_def] }

/-! ## Main result -/

/-- **Where files and the environment agree on names.** For the format and for the level, each text
is taken for a value by files exactly if it is the name of the value, and in the environment exactly
if it spells one of its words; other texts are refused. So what a file takes the environment takes
for the same value, and the two agree on a text unless it spells a word without being a name. -/
theorem named_readAs (s : String) : Named.format.ReadAs s ∧ Named.level.ReadAs s :=
  ⟨lawful_format.readAs s, lawful_level.readAs s⟩

/-- The environment takes `pretty` for a format, and a file does not. -/
theorem pretty_not_in_file :
    outcome (withEnvironment (fun v => if v = "MONGOQ_FORMAT" then some "pretty" else none)
        default) = .ok { default with format := .jsonPretty } ∧
      ofEntry "config.toml" (.file "display.format = 'pretty'".toUTF8) = .error .malformed := by
  have hread : Toml.read? "display.format = 'pretty'" =
      some [("display", .table [("format", .text "pretty")])] := by cbv
  refine ⟨by decide, ?_⟩
  rw [ofEntry_toUTF8, hread]
  rfl

end Settings

end ShellQuery
