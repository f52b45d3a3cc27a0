import ShellQuery.Proofs.Session.Run
/-!
# The queries that lines become

`Query.WellFormed` lists the forms that a query of each kind can have. A query that is understood
from a line always has one of them, whatever the line holds (`ofLine_wellFormed`): the parts of a
call are names, a method stands in the table of its kind and scope or in none, and only `show` and
`use` lead to their own methods, so a call on the database that is named like them is unknown. Of
queries made by hand this need not be true, but no session allows one of unknown kind.
-/

namespace ShellQuery

open Text Command

/-- The name of a collection: names with dots between them, none of them empty. -/
structure IsCollectionName (s : String) : Prop where
  ne_empty : s ≠ ""
  chars : ∀ c ∈ s.toList, isBlank c = false ∧ c ≠ '(' ∧ c ≠ ')' ∧ c ≠ '"' ∧ c ≠ '\''
  segments : ∀ segment ∈ s.toList.splitOn '.', segment ≠ []

/-- A word: a text that is not empty and holds no blank. -/
structure IsWord (s : String) : Prop where
  ne_empty : s ≠ ""
  chars : ∀ c ∈ s.toList, isBlank c = false

/-- The forms of queries, by what they do. -/
inductive Query.WellFormed : Query → Prop
  | read {coll method : String} {args : List Value} : IsCollectionName coll →
      method ∈ Method.readers → WellFormed ⟨.read, some coll, some method, args⟩
  | write {coll method : String} {args : List Value} : IsCollectionName coll →
      method ∈ Method.writers → WellFormed ⟨.write, some coll, some method, args⟩
  | showDatabases : WellFormed (admin Method.showDatabases [])
  | showCollections : WellFormed (admin Method.showCollections [])
  | use {name : String} : IsWord name → WellFormed (admin Method.useDatabase [.text name])
  | administer {method : String} {args : List Value} : method ∈ Method.administrators →
      WellFormed (admin method args)
  | unrecognized : WellFormed unrecognized
  | unlistedOnCollection {coll method : String} {args : List Value} : IsCollectionName coll →
      method ∉ Method.readers → method ∉ Method.writers →
      WellFormed ⟨.unknown, some coll, some method, args⟩
  | unlistedOnDatabase {method : String} {args : List Value} : method ∉ Method.administrators →
      WellFormed ⟨.unknown, none, some method, args⟩

section
variable {line : String} {c : Command} {names : List String} {s w : List Char} {q : Query}

/-! ## Names and words -/

/-- Names with dots between them name a collection. -/
theorem isCollectionName_intercalate (hne : names ≠ []) (h : ∀ name ∈ names, IsName name) :
    IsCollectionName (".".intercalate names) := by
  have hsplit := splitOn_names hne h
  have hsegments : ∀ segment ∈ (".".intercalate names).toList.splitOn '.',
      ∃ name, IsName name ∧ name.toList = segment := by
    intro segment hsegment
    rw [hsplit] at hsegment
    obtain ⟨name, hname, rfl⟩ := List.mem_map.1 hsegment
    exact ⟨name, h name hname, rfl⟩
  refine ⟨fun hempty => ?_, fun c hc => ?_, fun segment hsegment hnil => ?_⟩
  · obtain ⟨name, hname, htext⟩ := hsegments [] (by simp [hempty])
    exact hname.ne_empty (String.toList_eq_nil_iff.1 htext)
  · rcases mem_splitOn (d := '.') hc with rfl | ⟨segment, hsegment, hmem⟩
    · decide
    · obtain ⟨name, hname, rfl⟩ := hsegments segment hsegment
      exact (hname.chars c hmem).2
  · obtain ⟨name, hname, htext⟩ := hsegments segment hsegment
    exact hname.ne_empty (String.toList_eq_nil_iff.1 (htext.trans hnil))

/-- The first word of a text is a word. -/
theorem isWord_of_firstWord? (h : firstWord? s = some w) : IsWord (String.ofList w) := by
  have htake : (trimStart s).takeWhile (!isBlank ·) = w ∧ w ≠ [] := by
    unfold firstWord? at h
    split at h
    · cases h
    · rename_i hne
      cases h
      exact ⟨rfl, hne⟩
  refine ⟨fun hempty => htake.2 (by simpa using hempty), fun c hc => ?_⟩
  rw [String.toList_ofList, ← htake.1] at hc
  simpa using List.mem_takeWhile_imp hc

/-! ## Commands -/

/-- The forms of commands, for a line that is looked at as `s`. -/
inductive Command.Shape (s : List Char) : Command → Prop
  | showDatabases {target : String} : Shape s ⟨.display, [target], Method.showDatabases, ""⟩
  | showCollections {target : String} : Shape s ⟨.display, [target], Method.showCollections, ""⟩
  | use {name : String} : IsWord name → Shape s ⟨.selection, [name], Method.useDatabase, ""⟩
  | call {path : List String} {method text : String} {blanks : List Char} :
      CallText s path method blanks text → Shape s ⟨.call, path, method, text⟩

/-- A `show` leads to one of its two methods. -/
theorem shape_of_ofShow? (h : ofShow? w = some c) : c.Shape s := by
  unfold ofShow? at h
  simp only at h
  split at h
  · cases h
    exact .showDatabases
  · split at h
    · cases h
      exact .showCollections
    · cases h

/-- A call is taken apart into the parts of a call. -/
theorem shape_of_ofCall? (h : ofCall? s = some c) : c.Shape s := by
  obtain ⟨scope, path, method, text⟩ := c
  obtain rfl : scope = .call := scope_of_ofCall? h
  obtain ⟨blanks, hcall⟩ := callText_of_ofCall? h
  exact .call hcall

/-- Every command of a line has one of the forms. -/
theorem shape_of_ofLine? (h : ofLine? line = some c) : c.Shape (essence line.toList) := by
  unfold ofLine? at h
  simp only at h
  split at h
  · exact shape_of_ofShow? h
  · split at h
    · obtain ⟨w, hw, rfl⟩ := Option.map_eq_some_iff.1 h
      exact .use (isWord_of_firstWord? hw)
    · exact shape_of_ofCall? h

/-! ## Queries -/

namespace Query

/-- A call on a collection is of the kind of the table that lists the method. -/
theorem wellFormed_onCollection {coll : String} (h : IsCollectionName coll) (method : String)
    (args : List Value) :
    WellFormed ⟨.ofMethod true method, some coll, some method, args⟩ := by
  rw [Kind.ofMethod, if_pos rfl]
  split
  · rename_i hreads
    exact .read h hreads
  · rename_i hreads
    split
    · rename_i hwrites
      exact .write h hwrites
    · rename_i hwrites
      exact .unlistedOnCollection h hreads hwrites

/-- A call on the database administers if the method is listed, and is unknown otherwise. -/
theorem wellFormed_onDatabase (method : String) (args : List Value) :
    WellFormed ⟨.ofMethod false method, none, some method, args⟩ := by
  rw [Kind.ofMethod, if_neg Bool.false_ne_true]
  split
  · rename_i hlisted
    exact .administer hlisted
  · rename_i hlisted
    exact .unlistedOnDatabase hlisted

/-- A command of one of the forms becomes a query of one of the forms. -/
theorem wellFormed_ofCommand (h : c.Shape s) : (ofCommand c).WellFormed := by
  cases h with
  | showDatabases => exact .showDatabases
  | showCollections => exact .showCollections
  | use hname => exact .use hname
  | @call path method text blanks hcall =>
    obtain ⟨more, rfl⟩ := List.head?_eq_some_iff.1 hcall.root
    have hcollection := collection_path more method text
    simp only [ofCommand, hcollection]
    split
    · exact wellFormed_onDatabase method _
    · rename_i hne
      have hnames : ∀ name ∈ more, IsName name :=
        fun name hname => hcall.path name (List.mem_cons_of_mem _ hname)
      exact wellFormed_onCollection (isCollectionName_intercalate hne hnames) method _

/-- Every line becomes a query of one of the forms. -/
theorem wellFormed_ofLine (line : String) : (ofLine line).WellFormed := by
  rw [ofLine]
  cases h : ofLine? line with
  | none => exact .unrecognized
  | some c => exact wellFormed_ofCommand (shape_of_ofLine? h)

/-- Of a query of one of the forms only the kind says whether it may be carried out. -/
theorem WellFormed.isDispatchable_iff (h : q.WellFormed) :
    q.isDispatchable = true ↔ q.kind ≠ .unknown := by
  cases h with
  | read | write | showDatabases | showCollections | use | administer =>
    exact iff_of_true rfl nofun
  | unrecognized | unlistedOnCollection | unlistedOnDatabase =>
    exact iff_of_false nofun fun h => h rfl

/-- Only a line that is no command becomes the query without parts. -/
theorem ofLine_eq_unrecognized_iff (line : String) :
    ofLine line = unrecognized ↔ ofLine? line = none := by
  rw [ofLine]
  cases h : ofLine? line with
  | none => exact iff_of_true rfl rfl
  | some c =>
    refine iff_of_false (fun hquery => ?_) (Option.some_ne_none c)
    have hmethod := congrArg Query.method hquery
    cases shape_of_ofLine? h <;> cases hmethod

end Query

/-- No session allows a query of unknown kind. -/
theorem Session.authorize_of_unknown {s : Session} (h : q.kind = .unknown) :
    s.authorize q = .error (.unsupported q.method) :=
  authorize_eq_error_iff.2 (if_pos h)

/-! ## Main result -/

/-- **Every line becomes a query of one of the forms.** It is the one without parts exactly if the
line is no command. It may be carried out exactly if its kind is known, and a query of unknown kind,
from a line or not, is allowed by no session. -/
theorem Query.ofLine_wellFormed (line : String) :
    (ofLine line).WellFormed ∧ (ofLine line = unrecognized ↔ ofLine? line = none) ∧
      ((ofLine line).isDispatchable = true ↔ (ofLine line).kind ≠ .unknown) ∧
      ∀ (s : Session) (q : Query), q.kind = .unknown →
        s.authorize q = .error (.unsupported q.method) :=
  ⟨wellFormed_ofLine line, ofLine_eq_unrecognized_iff line,
    (wellFormed_ofLine line).isDispatchable_iff, fun _ _ => Session.authorize_of_unknown⟩

/-- A line that reads, one that writes, and a call on the database that is named like the admin
command `use`. -/
theorem Query.ofLine_wellFormed_use :
    ((ofLine "db.c.find()").kind = .read ∧ (ofLine "db.c.find()").WellFormed ∧
        (ofLine "db.c.find()").isDispatchable = true) ∧
      ((ofLine "db.c.insertOne(\x7b\x7d)").kind = .write ∧
        (ofLine "db.c.insertOne(\x7b\x7d)").WellFormed ∧
        (ofLine "db.c.insertOne(\x7b\x7d)").isDispatchable = true) ∧
      (ofLine "db.use('shop')").kind = .unknown ∧
        (ofLine "db.use('shop')").isDispatchable = false ∧
        Session.authorize ⟨"test", false⟩ (ofLine "db.use('shop')") =
          .error (.unsupported (some "use")) := by
  have hread : (ofLine "db.c.find()").kind = .read := rfl
  have hwrite : (ofLine "db.c.insertOne(\x7b\x7d)").kind = .write := rfl
  have hunknown : (ofLine "db.use('shop')").kind = .unknown := rfl
  obtain ⟨hfind, -, hfound, -⟩ := ofLine_wellFormed "db.c.find()"
  obtain ⟨hinsert, -, hinserted, -⟩ := ofLine_wellFormed "db.c.insertOne(\x7b\x7d)"
  obtain ⟨-, -, hdispatch, hrefused⟩ := ofLine_wellFormed "db.use('shop')"
  exact ⟨⟨hread, hfind, hfound.2 (hread ▸ nofun)⟩, ⟨hwrite, hinsert, hinserted.2 (hwrite ▸ nofun)⟩,
    hunknown, Bool.eq_false_iff.2 fun h => hdispatch.1 h hunknown, hrefused _ _ hunknown⟩

end

end ShellQuery
