import Mathlib.Data.Option.Basic
import ShellQuery.Proofs.Fields
import ShellQuery.Settings.File
/-!
# Settings files, field by field

What a document has for a field of a section is said by cases on the document (`valueAt?`): it
stands below its key in a table, at its place in an array, and nowhere in a date or where the
section is missing. `sectionOf?_eq_some_iff` ties the reader's look-up to it.

`ofFields?_eq_some_iff` says what the fields of a document are read as: each setting has its value
from one place of the document, or its default where there is nothing. `fileFields` lists these
places. Another text in the place of a text (`withText`) leaves all other places as they are, and no
number out of range.
-/

namespace ShellQuery.Settings

open Toml

/-! ## The places of a document -/

/-- What may stand for a section: a table with no number out of range, an array or a date. -/
inductive IsSection : Toml.Value → Prop
  | table {values : List (String × Toml.Value)} : fieldsInRange values = true →
      IsSection (.table values)
  | array {items : List Toml.Value} : IsSection (.array items)
  | dateTime {spelling : String} : IsSection (.dateTime spelling)

/-- The value that a section has for a field: below its key in a table, at its place in an array. -/
def fieldAt? (place : Nat) (key : String) : Toml.Value → Option Toml.Value
  | .table values => Fields.get? key values
  | .array items => items[place]?
  | _ => none

/-- The value that a document has for a field of a section, if the section is there and has one. -/
def valueAt? (sectionName : String) (place : Nat) (key : String)
    (fields : List (String × Toml.Value)) : Option Toml.Value :=
  (Fields.get? sectionName fields).bind (fieldAt? place key)

/-- A document in which each section that is there may be one, and with no number out of range
beside them. -/
structure IsReadable (fields : List (String × Toml.Value)) : Prop where
  inRange : fieldsInRange (fields.filter fun (name, _) => name ∉ sectionNames) = true
  sections : ∀ name ∈ sectionNames, ∀ v, Fields.get? name fields = some v → IsSection v

/-- The name in a value, as what it is the name of. -/
def named? {α : Type} (ofName? : String → Option α) (v : Toml.Value) : Option α :=
  (name? v).bind ofName?

/-- A place of a document where a setting is looked up, and the settings that a value there leads
to. -/
structure FileField where
  sectionName : String
  place : Nat
  key : String
  Holds : Option Toml.Value → Settings → Prop

/-- The places of all settings. -/
def fileFields : List FileField := [
  ⟨"display", 0, "format", fun v s =>
    field? default.format (named? OutputFormat.ofName?) v = some s.format⟩,
  ⟨"session", 0, "database", fun v s => field? default.database text? v = some s.database⟩,
  ⟨"session", 1, "read_only", fun v s => field? default.readOnly bool? v = some s.readOnly⟩,
  ⟨"logging", 0, "level", fun v s =>
    field? default.level (named? LogLevel.ofName?) v = some s.level⟩,
  ⟨"logging", 1, "timestamps", fun v s =>
    field? default.timestamps bool? v = some s.timestamps⟩]

/-- The fields of a document with another text for a field in one of its tables. -/
def withText (sectionName key new : String) (values fields : List (String × Toml.Value)) :
    List (String × Toml.Value) :=
  Fields.put sectionName (.table (Fields.put key (.text new) values)) fields

section
variable {name key k old new sectionName : String} {fields values : List (String × Toml.Value)}
  {s : Settings} {v : Toml.Value} {look : Nat → String → Option Toml.Value}

/-- The reader's look-up in a section is the one by cases. -/
theorem section?_eq_some_iff : section? v = some look ↔
    IsSection v ∧ look = fun place key => fieldAt? place key v := by
  cases v with
  | table values =>
    rw [section?]
    split
    case isTrue hrange =>
      rw [Option.some_inj, eq_comm]
      exact (and_iff_right (.table hrange)).symm
    case isFalse hrange =>
      refine ⟨nofun, ?_⟩
      rintro ⟨⟨h⟩, -⟩
      exact absurd h hrange
  | array items =>
    rw [section?, Option.some_inj, eq_comm]
    exact (and_iff_right .array).symm
  | dateTime spelling =>
    rw [section?, Option.some_inj, eq_comm]
    exact (and_iff_right .dateTime).symm
  | text | bool | number => exact ⟨nofun, fun h => nomatch h.1⟩

/-- The reader's look-up in a section of a document is the one by cases. -/
theorem sectionOf?_eq_some_iff :
    sectionOf? name fields = some look ↔ (∀ v, Fields.get? name fields = some v → IsSection v) ∧
      look = fun place key => valueAt? name place key fields := by
  unfold sectionOf? valueAt?
  cases Fields.get? name fields with
  | none =>
    rw [Option.some_inj, eq_comm]
    exact (and_iff_right nofun).symm
  | some v => simp only [section?_eq_some_iff, Option.some.injEq, forall_eq', Option.bind_some]

/-- **What a document is read as**, field by field. -/
theorem ofFields?_eq_some_iff :
    ofFields? fields = some s ↔ IsReadable fields ∧
      field? default.format (named? OutputFormat.ofName?) (valueAt? "display" 0 "format" fields) =
        some s.format ∧
      field? default.database text? (valueAt? "session" 0 "database" fields) = some s.database ∧
      field? default.readOnly bool? (valueAt? "session" 1 "read_only" fields) = some s.readOnly ∧
      field? default.level (named? LogLevel.ofName?) (valueAt? "logging" 0 "level" fields) =
        some s.level ∧
      field? default.timestamps bool? (valueAt? "logging" 1 "timestamps" fields) =
        some s.timestamps := by
  simp only [ofFields?, Option.bind_eq_bind, Option.bind_eq_some_iff, Option.pure_def,
    Option.some.injEq, sectionOf?_eq_some_iff]
  refine ⟨?_, ?_⟩
  · rintro ⟨_, hrange, _, ⟨hdisplay, rfl⟩, format, hformat, _, ⟨hsession, rfl⟩, database, hdatabase,
      readOnly, hreadOnly, _, ⟨hlogging, rfl⟩, level, hlevel, timestamps, htimestamps, rfl⟩
    refine ⟨⟨?_, ?_⟩, hformat, hdatabase, hreadOnly, hlevel, htimestamps⟩
    · by_contra hfalse
      rw [guard, if_neg hfalse] at hrange
      cases hrange
    · simpa only [sectionNames, List.forall_mem_cons, List.not_mem_nil, false_imp_iff, forall_const,
        and_true] using ⟨hdisplay, hsession, hlogging⟩
  · rintro ⟨⟨hrange, hsections⟩, hformat, hdatabase, hreadOnly, hlevel, htimestamps⟩
    exact ⟨(), if_pos hrange, _, ⟨hsections "display" (by decide), rfl⟩, s.format, hformat,
      _, ⟨hsections "session" (by decide), rfl⟩, s.database, hdatabase, s.readOnly, hreadOnly,
      _, ⟨hsections "logging" (by decide), rfl⟩, s.level, hlevel, s.timestamps, htimestamps, rfl⟩

/-- **What a document is read as**, as one condition on all places of the table. -/
theorem ofFields?_eq_some_iff_holds :
    ofFields? fields = some s ↔ IsReadable fields ∧ ∀ f ∈ fileFields,
      f.Holds (valueAt? f.sectionName f.place f.key fields) s := by
  rw [ofFields?_eq_some_iff]
  simp only [fileFields, List.forall_mem_cons, List.not_mem_nil, false_imp_iff, implies_true,
    and_true]

/-- Where a document has nothing, the default is right. -/
theorem holds_none_default {f : FileField} (h : f ∈ fileFields) : f.Holds none default := by
  simp only [fileFields, List.mem_cons, List.not_mem_nil, or_false] at h
  rcases h with rfl | rfl | rfl | rfl | rfl <;> rfl

/-! ## Another text at one place -/

/-- Whether the numbers are in range does not depend on a text. -/
theorem fieldsInRange_put (h : Fields.get? key fields = some (.text old)) :
    fieldsInRange (Fields.put key (.text new) fields) = fieldsInRange fields := by
  induction fields with
  | nil => cases h
  | cons field more ih =>
    obtain ⟨k, w⟩ := field
    rw [Fields.get?] at h
    rw [Fields.put]
    split at h
    · rename_i hk
      cases h
      rw [if_pos hk]
      rfl
    · rename_i hk
      rw [if_neg hk, fieldsInRange, ih h, fieldsInRange]

/-- What is asked of the fields beyond the sections does not depend on a section. -/
theorem filter_put (hkey : key ∈ sectionNames) (v : Toml.Value) :
    (Fields.put key v fields).filter (fun (name, _) => name ∉ sectionNames) =
      fields.filter fun (name, _) => name ∉ sectionNames := by
  induction fields with
  | nil => simp [Fields.put, hkey]
  | cons field more ih =>
    obtain ⟨k, w⟩ := field
    rw [Fields.put]
    split
    · rename_i hk
      subst hk
      rw [List.filter_cons_of_neg (by simpa using hkey),
        List.filter_cons_of_neg (by simpa using hkey)]
    · rw [List.filter_cons, List.filter_cons, ih]

/-- A table is a section if its numbers are in range. -/
theorem isSection_table_iff : IsSection (.table values) ↔ fieldsInRange values = true :=
  ⟨fun | .table h => h, .table⟩

/-- Another text makes no document readable, and none unreadable. -/
theorem isReadable_withText (hname : sectionName ∈ sectionNames)
    (hsection : Fields.get? sectionName fields = some (.table values))
    (hkey : Fields.get? key values = some (.text old)) :
    IsReadable (withText sectionName key new values fields) ↔ IsReadable fields := by
  have hrange := @filter_put sectionName fields hname (.table (Fields.put key (.text new) values))
  have hsections (name : String) :
      (∀ v, Fields.get? name (withText sectionName key new values fields) = some v → IsSection v) ↔
        ∀ v, Fields.get? name fields = some v → IsSection v := by
    rw [withText, Fields.get?_put]
    split
    case isTrue hsame =>
      simp only [← hsame, hsection, Option.some.injEq, forall_eq', isSection_table_iff,
        fieldsInRange_put hkey]
    case isFalse => rfl
  refine ⟨fun h => ⟨?_, fun name hmem => ?_⟩, fun h => ⟨?_, fun name hmem => ?_⟩⟩
  · rw [← hrange]
    exact h.inRange
  · exact (hsections name).1 (h.sections name hmem)
  · rw [withText, hrange]
    exact h.inRange
  · exact (hsections name).2 (h.sections name hmem)

/-- A field of a table stands below its key. -/
theorem valueAt?_table (hsection : Fields.get? sectionName fields = some (.table values))
    (place : Nat) : valueAt? sectionName place key fields = Fields.get? key values := by
  rw [valueAt?, hsection]
  rfl

/-- Another text at one place leaves the others as they are. -/
theorem valueAt?_withText_of_ne (hne : sectionName ≠ name ∨ key ≠ k)
    (hsection : Fields.get? sectionName fields = some (.table values)) (place : Nat) :
    valueAt? name place k (withText sectionName key new values fields) =
      valueAt? name place k fields := by
  by_cases hname : sectionName = name
  · subst hname
    have hnew : Fields.get? sectionName (withText sectionName key new values fields) =
        some (.table (Fields.put key (.text new) values)) := by
      rw [withText, Fields.get?_put, if_pos rfl]
    rw [valueAt?_table hnew, valueAt?_table hsection, Fields.get?_put,
      if_neg (hne.resolve_left fun h => h rfl)]
  · rw [valueAt?, valueAt?, withText, Fields.get?_put, if_neg hname]

/-! ## Files -/

/-- A file that holds text is read as the document in it. -/
theorem ofEntry_toUTF8 (path text : String) :
    ofEntry path (.file text.toUTF8) =
      ((Toml.read? text).bind ofFields?).elim (.error .malformed) .ok := by
  have htext : String.fromUTF8? text.toUTF8 = some text := dif_pos text.isValidUTF8
  simp only [ofEntry, htext]
  cases (Toml.read? text).bind ofFields? with
  | none => rfl
  | some s => rfl

/-- A file that holds a document is read just if its fields are. -/
theorem ofEntry_eq_ok_iff {path text : String} (h : Toml.read? text = some fields) :
    ofEntry path (.file text.toUTF8) = .ok s ↔ ofFields? fields = some s := by
  rw [ofEntry_toUTF8, h, Option.bind_some]
  cases ofFields? fields with
  | none => exact ⟨nofun, nofun⟩
  | some t => exact ⟨fun h => by cases h; rfl, fun h => by cases h; rfl⟩

/-- A file that holds a document is malformed just if its fields cannot be read. -/
theorem ofEntry_eq_malformed_iff {path text : String} (h : Toml.read? text = some fields) :
    ofEntry path (.file text.toUTF8) = .error .malformed ↔ ofFields? fields = none := by
  rw [ofEntry_toUTF8, h, Option.bind_some]
  cases ofFields? fields with
  | none => exact ⟨fun _ => rfl, fun _ => rfl⟩
  | some t => exact ⟨nofun, nofun⟩

end

end ShellQuery.Settings
