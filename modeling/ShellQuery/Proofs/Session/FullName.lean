import ShellQuery.Proofs.Session.Run
import ShellQuery.Proofs.Text
/-!
# Full names of collections

A full name is a database, a dot and a collection. A collection may hold dots of its own, so what
tells the two parts apart is that no database does: a session that starts with a valid name never
selects one with a dot (`dot_not_mem_run`). The first dot of a full name is then the one between its
parts, and both can be read from it (`fullName?_run_eq_some_iff`), whatever the session and the
query. `fullName?_run_unique` compares two of them.
-/

namespace ShellQuery

open Text

namespace DatabaseName

variable {name : String}

/-- No forbidden character stands in a valid name. -/
theorem not_mem_of_isValid (h : isValid name = true) {c : Char} (hc : c ∈ forbidden) :
    c ∉ name.toList := by
  intro hmem
  simp only [isValid, Bool.and_eq_true, List.all_eq_true] at h
  simpa [hc] using h.2 c hmem

end DatabaseName

/-- The part of a full name in front of its first dot. -/
def databasePart (name : String) : String :=
  String.ofList (name.toList.takeWhile (· != '.'))

/-- The part of a full name behind its first dot, if there is one. -/
def collectionPart? (name : String) : Option String :=
  match name.toList.dropWhile (· != '.') with
  | [] => none
  | _ :: collection => some (String.ofList collection)

section
variable {database collection name : String}

/-! ## The parts of a full name -/

/-- The first dot of a full name stands between its parts if the database holds none. -/
theorem parts_append (h : '.' ∉ database.toList) (collection : String) :
    databasePart (database ++ "." ++ collection) = database ∧
      collectionPart? (database ++ "." ++ collection) = some collection := by
  have hlist : (database ++ "." ++ collection).toList =
      database.toList ++ '.' :: collection.toList := by simp
  have hdatabase : ∀ c ∈ database.toList, (c != '.') = true := by
    intro c hc
    rw [bne_iff_ne]
    rintro rfl
    exact h hc
  have hdot : Stops (· != '.') ('.' :: collection.toList) := by simp
  refine ⟨?_, ?_⟩
  · rw [databasePart, hlist, takeWhile_append_stops hdatabase hdot, String.ofList_toList]
  · rw [collectionPart?, hlist, dropWhile_append_stops hdatabase hdot]
    exact congrArg some String.ofList_toList

/-- A text with a dot is its two parts and the dot. -/
theorem append_parts (h : collectionPart? name = some collection) :
    databasePart name ++ "." ++ collection = name := by
  have hcut : name.toList.takeWhile (· != '.') ++ name.toList.dropWhile (· != '.') =
      name.toList := List.takeWhile_append_dropWhile
  unfold collectionPart? at h
  split at h
  · cases h
  · rename_i c rest hdrop
    cases h
    have hdot : c = '.' := by
      have hstop := stops_dropWhile (· != '.') name.toList
      rw [hdrop] at hstop
      simpa using hstop
    rw [hdrop, hdot] at hcut
    rw [← String.toList_inj, ← hcut]
    simp [databasePart]

end

/-! ## Sessions -/

namespace Session

variable {s t : Session}

/-- No run selects a database with a dot in its name. -/
theorem dot_not_mem_run (hs : DatabaseName.isValid s.database = true) (calls : List Call) :
    '.' ∉ (s.run calls).database.toList :=
  DatabaseName.not_mem_of_isValid (isValid_run hs calls) (by decide)

/-- **A full name says what it is made of**: the selected database and the collection of the query
are the parts of it. -/
theorem fullName?_run_eq_some_iff (hs : DatabaseName.isValid s.database = true)
    (calls : List Call) (q : Query) (name : String) :
    (s.run calls).fullName? q = some name ↔
      q.collection.isSome = true ∧ q.collection = collectionPart? name ∧
        (s.run calls).database = databasePart name := by
  have hdot := dot_not_mem_run hs calls
  rw [fullName?, Query.fullName?, Option.map_eq_some_iff]
  refine ⟨?_, ?_⟩
  · rintro ⟨collection, hcollection, rfl⟩
    obtain ⟨hdatabase, hrest⟩ := parts_append hdot collection
    exact ⟨by rw [hcollection]; rfl, by rw [hcollection, hrest], hdatabase.symm⟩
  · rintro ⟨hsome, hcollection, hdatabase⟩
    obtain ⟨collection, hq⟩ := Option.isSome_iff_exists.1 hsome
    exact ⟨collection, hq, by rw [hdatabase, append_parts (hcollection ▸ hq)]⟩

/-- **Full names are unambiguous.** Take two sessions that started with valid names, after any
calls, and two queries. Where the first pair has a full name, the second has the same one exactly if
the same database is selected and the queries are about the same collection. -/
theorem fullName?_run_unique (hs : DatabaseName.isValid s.database = true)
    (ht : DatabaseName.isValid t.database = true) (before after : List Call) (q r : Query)
    (name : String) (hname : (s.run before).fullName? q = some name) :
    (t.run after).fullName? r = some name ↔
      (s.run before).database = (t.run after).database ∧ q.collection = r.collection := by
  obtain ⟨hsome, hcollection, hdatabase⟩ := (fullName?_run_eq_some_iff hs before q name).1 hname
  rw [fullName?_run_eq_some_iff ht after r name, hdatabase, hcollection]
  refine ⟨?_, ?_⟩
  · rintro ⟨-, hr, hother⟩
    exact ⟨hother.symm, hr.symm⟩
  · rintro ⟨hother, hr⟩
    exact ⟨by rw [← hr, ← hcollection, hsome], hr.symm, hother.symm⟩

/-- The full name of the collection `system.profile` of `shop` is that of no collection `profile`: a
session that is told to use `shop.system` stays where it is. -/
theorem fullName?_run_unique_profile :
    DatabaseName.isValid "test" = true ∧ DatabaseName.isValid "shop" = true ∧
      (run ⟨"test", true⟩ [.check (.admin Method.useDatabase [.text "shop"])]).fullName?
          ⟨.read, some "system.profile", some "find", []⟩ = some "shop.system.profile" ∧
      (run ⟨"shop", false⟩ [.apply (.admin Method.useDatabase [.text "shop.system"])]).fullName?
          ⟨.read, some "profile", some "find", []⟩ ≠ some "shop.system.profile" := by
  have hs : DatabaseName.isValid "test" = true := by decide
  have ht : DatabaseName.isValid "shop" = true := by decide
  have hname : (run ⟨"test", true⟩ [.check (.admin Method.useDatabase [.text "shop"])]).fullName?
      ⟨.read, some "system.profile", some "find", []⟩ = some "shop.system.profile" := by decide
  refine ⟨hs, ht, hname, fun hsame => ?_⟩
  have hparts := (fullName?_run_unique (s := ⟨"test", true⟩) (t := ⟨"shop", false⟩) hs ht _ _ _
    ⟨.read, some "profile", some "find", []⟩ _ hname).1 hsame
  exact absurd hparts.2 (by decide)

end Session

end ShellQuery
