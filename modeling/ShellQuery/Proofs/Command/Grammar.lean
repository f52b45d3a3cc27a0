import ShellQuery.Proofs.Command
import ShellQuery.Query.Basic
/-!
# The grammar of calls

`CallText` says how a call is written: names with dots between them, the first one `db` and the last
one the method, then blanks, and any text between parentheses. A line is taken for a call exactly if
what is looked at of it is written so, and its parts are the written ones
(`ofLine?_eq_call_iff`). The first parenthesis cuts the names off, because no name holds one, and
the last character of the line ends the text, whatever else stands in it.
-/

namespace ShellQuery.Command

open Text

/-- What a path is made of: a text that is not empty, without dots, blanks, parentheses and
quotes. -/
structure IsName (s : String) : Prop where
  ne_empty : s ≠ ""
  chars : ∀ c ∈ s.toList, c ≠ '.' ∧ isBlank c = false ∧ c ≠ '(' ∧ c ≠ ')' ∧ c ≠ '"' ∧ c ≠ '\''

/-- How a call is written, with the blanks in front of its first parenthesis. -/
structure CallText (s : List Char) (path : List String) (method : String) (blanks : List Char)
    (text : String) : Prop where
  eq : s = (".".intercalate path).toList ++ '.' ::
    (method.toList ++ (blanks ++ '(' :: (text.toList ++ [')'])))
  root : path.head? = some "db"
  path : ∀ name ∈ path, IsName name
  method : IsName method
  blanks : ∀ c ∈ blanks, isBlank c = true

section
variable {s : List Char} {c d : Char} {path : List String} {method text : String}
  {blanks blanks' : List Char}

/-! ## Names -/

/-- Names are the segments without dots. -/
theorem isName_iff {name : String} :
    IsName name ↔ isSegment name.toList = true ∧ '.' ∉ name.toList := by
  have hchar : ∀ c, (!(isBlank c || c == '(' || c == ')' || c == '"' || c == '\'')) = true ↔
      isBlank c = false ∧ c ≠ '(' ∧ c ≠ ')' ∧ c ≠ '"' ∧ c ≠ '\'' := by
    intro c
    simp [and_assoc]
  simp only [isSegment, Bool.and_eq_true, List.all_eq_true, hchar, Bool.not_eq_eq_eq_not,
    Bool.not_true, List.isEmpty_eq_false_iff, ne_eq, String.toList_eq_nil_iff]
  constructor
  · rintro ⟨hne, hchars⟩
    exact ⟨⟨hne, fun c hc => (hchars c hc).2⟩, fun hdot => (hchars _ hdot).1 rfl⟩
  · rintro ⟨⟨hne, hchars⟩, hdot⟩
    exact ⟨hne, fun c hc => ⟨fun heq => hdot (heq ▸ hc), hchars c hc⟩⟩

/-- No part of what is split holds the separator. -/
theorem not_mem_of_mem_splitOn {t : List Char} (h : t ∈ s.splitOn d) : d ∉ t := by
  induction s generalizing t with
  | nil =>
    obtain rfl : t = [] := by simpa using h
    exact List.not_mem_nil
  | cons c s ih =>
    obtain ⟨-, hsplit⟩ | ⟨hne, u, more, hrest, hsplit⟩ := splitOn_cons_cases d c s
    · rw [hsplit] at h
      rcases List.mem_cons.1 h with rfl | h
      · exact List.not_mem_nil
      · exact ih h
    · rw [hrest] at ih
      rw [hsplit] at h
      rcases List.mem_cons.1 h with rfl | h
      · exact List.not_mem_cons_of_ne_of_not_mem hne.symm (ih List.mem_cons_self)
      · exact ih (List.mem_cons_of_mem _ h)

/-- Names joined by dots are split again at the dots. -/
theorem splitOn_names {names : List String} (hne : names ≠ []) (h : ∀ name ∈ names, IsName name) :
    (".".intercalate names).toList.splitOn '.' = names.map String.toList := by
  rw [String.toList_intercalate]
  refine List.splitOn_intercalate '.' ?_ (by simpa using hne)
  intro t ht
  obtain ⟨name, hname, rfl⟩ := List.mem_map.1 ht
  exact (isName_iff.1 (h name hname)).2

/-- The method stands behind the names of the path, with a dot in front. -/
theorem toList_names (hne : path ≠ []) (method : String) :
    (".".intercalate (path ++ [method])).toList =
      (".".intercalate path).toList ++ '.' :: method.toList := by
  rw [String.intercalate_append_of_ne_nil hne (by simp), String.intercalate_singleton]
  simp

/-! ## Calls -/

/-- The path of a call has at least its root. -/
theorem CallText.path_ne_nil (h : CallText s path method blanks text) : path ≠ [] := by
  intro hnil
  have hroot := h.root
  rw [hnil] at hroot
  cases hroot

/-- The path and the method of a call are names. -/
theorem CallText.names (h : CallText s path method blanks text) :
    ∀ name ∈ path ++ [method], IsName name := by
  rw [List.forall_mem_append, List.forall_mem_singleton]
  exact ⟨h.path, h.method⟩

/-- In front of its blanks and parentheses a call holds the names with dots between them. -/
theorem CallText.eq_names (h : CallText s path method blanks text) :
    s = (".".intercalate (path ++ [method])).toList ++
      (blanks ++ '(' :: (text.toList ++ [')'])) := by
  rw [toList_names h.path_ne_nil, h.eq]
  simp

/-- A call is cut at its first parenthesis, and what stands before it at the dots. -/
theorem CallText.ofCall? (h : CallText s path method blanks text) :
    ofCall? s = some ⟨.call, path, method, text⟩ := by
  have hsegments := splitOn_names (by simp) h.names
  have hpath : ((".".intercalate (path ++ [method])).toList.splitOn '.').all isSegment = true := by
    rw [hsegments, List.all_eq_true]
    intro t ht
    obtain ⟨name, hname, rfl⟩ := List.mem_map.1 ht
    exact (isName_iff.1 (h.names name hname)).1
  have hparen : ∀ c ∈ (".".intercalate (path ++ [method])).toList ++ blanks, (c != '(') = true := by
    intro c hc
    rw [bne_iff_ne]
    rintro rfl
    rcases List.mem_append.1 hc with hc | hc
    · exact not_paren_of_path hpath hc
    · cases h.blanks _ hc
  have hstop : Stops (· != '(') ('(' :: (text.toList ++ [')'])) := by simp
  have htrim : trimEnd ((".".intercalate (path ++ [method])).toList ++ blanks) =
      (".".intercalate (path ++ [method])).toList := by
    rw [trimEnd, dropWhileEnd_append h.blanks, toList_names h.path_ne_nil, List.append_cons]
    exact trimEnd_append_segment (isName_iff.1 h.method).1
  rw [h.eq_names, ← List.append_assoc, Command.ofCall?, dropWhile_append_stops hparen hstop,
    takeWhile_append_stops hparen hstop, htrim]
  have hlist : (path ++ [method]).map String.toList =
      path.map String.toList ++ [method.toList] := by simp
  rw [hlist] at hsegments
  rw [hsegments] at hpath
  simp only [hsegments, List.getLast?_concat, if_true, List.dropLast_concat, List.map_map,
    Function.comp_def, String.ofList_toList, List.map_id_fun', id, Option.getD_some]
  exact if_pos ⟨h.root, hpath⟩

/-- What is taken for a call is written as one. -/
theorem callText_of_ofCall? (h : Command.ofCall? s = some ⟨.call, path, method, text⟩) :
    ∃ blanks, CallText s path method blanks text := by
  unfold Command.ofCall? at h
  split at h
  · cases h
  rename_i o inner hinner
  split at h
  case isFalse => cases h
  rename_i hlast
  simp only at h
  split at h
  case isFalse => cases h
  rename_i hpath
  obtain ⟨t, rfl⟩ := List.getLast?_eq_some_iff.1 hlast
  obtain rfl : o = '(' := by
    have hstop := stops_dropWhile (· != '(') s
    rw [hinner, stops_cons] at hstop
    simpa using hstop
  obtain ⟨b, hfront, hb⟩ := exists_dropWhileEnd_append isBlank (s.takeWhile (· != '('))
  have hcut := List.takeWhile_append_dropWhile (p := (· != '(')) (l := s)
  rw [hinner, hfront] at hcut
  rw [← trimEnd] at hcut
  generalize trimEnd (s.takeWhile (· != '(')) = front at h hpath hcut
  have hnames : ∀ t ∈ front.splitOn '.', IsName (String.ofList t) := by
    intro t ht
    rw [isName_iff, String.toList_ofList]
    exact ⟨List.all_eq_true.1 hpath.2 t ht, not_mem_of_mem_splitOn ht⟩
  have hjoin : ['.'].intercalate (front.splitOn '.') = front := List.intercalate_splitOn '.'
  rcases List.eq_nil_or_concat (front.splitOn '.') with hnil | ⟨init, last, hsplit⟩
  · exact absurd hnil (List.splitOn_ne_nil _ _)
  rw [hsplit, List.concat_eq_append] at h hpath hnames hjoin
  simp only [List.dropLast_concat, List.getLast?_concat, Option.getD_some, Option.some.injEq,
    Command.mk.injEq, true_and] at h hpath
  obtain ⟨rfl, rfl, rfl⟩ := h
  rw [List.forall_mem_append, List.forall_mem_singleton] at hnames
  have hne : init.map String.ofList ≠ [] := by
    intro hnil
    rw [hnil] at hpath
    cases hpath.1
  have hwritten : front =
      (".".intercalate (init.map String.ofList)).toList ++ '.' :: (String.ofList last).toList := by
    rw [← toList_names hne, String.toList_intercalate, ← hjoin]
    simp [Function.comp_def]
  refine ⟨b, ?_, hpath.1, ?_, hnames.2, hb⟩
  · rw [← hcut, hwritten]
    simp
  · intro name hname
    obtain ⟨t, ht, rfl⟩ := List.mem_map.1 hname
    exact hnames.1 t ht

/-- A call is written in one way: it says what its parts are. -/
theorem CallText.unique {path' : List String} {method' text' : String}
    (h : CallText s path method blanks text) (h' : CallText s path' method' blanks' text') :
    path = path' ∧ method = method' ∧ blanks = blanks' ∧ text = text' := by
  have hparts := h.ofCall?.symm.trans h'.ofCall?
  simp only [Option.some.injEq, Command.mk.injEq, true_and] at hparts
  obtain ⟨rfl, rfl, rfl⟩ := hparts
  have heq := h.eq_names.symm.trans h'.eq_names
  exact ⟨rfl, rfl, by simpa using heq, rfl⟩

/-! ## Lines -/

/-- No keyword begins as the root of a path does. -/
theorem CallText.afterKeyword? (h : CallText s path method blanks text) {c : Char}
    {word : List Char} (hc : c ≠ 'd') : Command.afterKeyword? (c :: word) s = none := by
  obtain ⟨more, rfl⟩ := List.head?_eq_some_iff.1 h.root
  have hfirst : s.head? = some 'd' := by
    rw [h.eq_names, List.cons_append, String.intercalate_cons_of_ne_nil (by simp)]
    simp
  obtain ⟨r, rfl⟩ := List.head?_eq_some_iff.1 hfirst
  have hword : (c :: word).isPrefixOf? ('d' :: r) = none := if_neg (by simpa using hc)
  rw [Command.afterKeyword?, hword]

/-- A `show` is no call. -/
theorem scope_of_ofShow? {c : Command} {w : List Char} (h : ofShow? w = some c) : c.scope = .display := by
  revert h
  fun_cases ofShow? w with
  | case3 => exact nofun
  | _ =>
    rintro ⟨⟩
    rfl

/-- What is taken for a call is one. -/
theorem scope_of_ofCall? {c : Command} (h : Command.ofCall? s = some c) : c.scope = .call := by
  revert h
  fun_cases Command.ofCall? s with
  | case2 =>
    rintro ⟨⟩
    rfl
  | _ => exact nofun

/-- The call of a line is taken from what is looked at as a whole. -/
theorem ofCall?_of_ofLine? {c : Command} {line : String} (h : ofLine? line = some c)
    (hscope : c.scope = .call) : Command.ofCall? (essence line.toList) = some c := by
  revert h
  fun_cases ofLine? line with
  | case1 =>
    intro h
    rw [scope_of_ofShow? h] at hscope
    cases hscope
  | case2 =>
    intro h
    obtain ⟨name, -, rfl⟩ := Option.map_eq_some_iff.1 h
    cases hscope
  | case3 => exact id

/-- What a command of a call is made of is what stands in the line. -/
theorem ofLine?_eq_some_iff {line : String} :
    ofLine? line = some ⟨.call, path, method, text⟩ ↔
      ∃ blanks, CallText (essence line.toList) path method blanks text := by
  constructor
  · exact fun h => callText_of_ofCall? (ofCall?_of_ofLine? h rfl)
  · rintro ⟨blanks, h⟩
    have hshow : Command.afterKeyword? "show".toList (essence line.toList) = none :=
      h.afterKeyword? (by decide)
    have huse : Command.afterKeyword? "use".toList (essence line.toList) = none :=
      h.afterKeyword? (by decide)
    rw [ofLine?, hshow, huse]
    exact h.ofCall?

/-- The collection of a call is the rest of its path, joined again. -/
theorem collection_path (more : List String) (method text : String) :
    collection ⟨.call, "db" :: more, method, text⟩ =
      if more = [] then none else some (".".intercalate more) := by
  cases more <;> rfl

/-- A call on a collection is taken apart into its parts, whatever stands between the
parentheses. -/
theorem ofLine?_call {coll method : String} (hcoll : (coll.toList.splitOn '.').all isSegment = true)
    (hmethod : isSegment method.toList = true) (hdot : '.' ∉ method.toList) (text : String) :
    ∃ c, ofLine? ("db." ++ coll ++ "." ++ method ++ "(" ++ text ++ ")") = some c ∧
      c.scope = .call ∧ c.collection = some coll ∧ c.method = method ∧ c.argumentText = text := by
  have hne : (coll.toList.splitOn '.').map String.ofList ≠ [] := by
    simp [List.splitOn_ne_nil]
  have hjoin : ".".intercalate ((coll.toList.splitOn '.').map String.ofList) = coll := by
    rw [← String.toList_inj, String.toList_intercalate, List.map_map]
    simp [Function.comp_def, List.intercalate_splitOn]
  have hessence : essence ("db." ++ coll ++ "." ++ method ++ "(" ++ text ++ ")").toList =
      'd' :: ('b' :: '.' :: (coll.toList ++ '.' :: method.toList ++ '(' :: text.toList) ++
        [')']) := by
    rw [← essence_visible (by decide) (by decide) (by decide)]
    simp
  have hcall : CallText (essence ("db." ++ coll ++ "." ++ method ++ "(" ++ text ++ ")").toList)
      ("db" :: (coll.toList.splitOn '.').map String.ofList) method [] text := by
    refine ⟨?_, rfl, ?_, isName_iff.2 ⟨hmethod, hdot⟩, List.forall_mem_nil _⟩
    · rw [hessence, String.intercalate_cons_of_ne_nil hne, hjoin]
      simp
    · rw [List.forall_mem_cons]
      refine ⟨isName_iff.2 (by decide), ?_⟩
      intro name hname
      obtain ⟨t, ht, rfl⟩ := List.mem_map.1 hname
      rw [isName_iff, String.toList_ofList]
      exact ⟨List.all_eq_true.1 hcoll t ht, not_mem_of_mem_splitOn ht⟩
  refine ⟨_, ofLine?_eq_some_iff.2 ⟨[], hcall⟩, rfl, ?_, rfl, rfl⟩
  rw [collection_path, if_neg hne, hjoin]

/-- What is asked for by a line that is a call. -/
theorem ofLine_of_callText {line : String}
    (h : CallText (essence line.toList) path method blanks text) :
    Query.ofLine line = ⟨.ofMethod (collection ⟨.call, path, method, text⟩).isSome method,
      collection ⟨.call, path, method, text⟩, some method, ArgumentText.values text⟩ := by
  rw [Query.ofLine, ofLine?_eq_some_iff.2 ⟨blanks, h⟩]
  rfl

/-- **Lines that are calls.** A line is taken for a call of a method on a path with a text if and
only if, without what is trimmed, it is written as this call. It is written so with no other parts.
Its collection is the rest of the path behind `db`, with dots between the names, if there is one.
The query has this collection and the method, the kind that the tables give to them, and the
arguments that the text lists. -/
theorem ofLine?_eq_call_iff (line : String) :
    (∀ path method text, ofLine? line = some ⟨.call, path, method, text⟩ ↔
      ∃ blanks, CallText (essence line.toList) path method blanks text) ∧
    ∀ path method blanks text, CallText (essence line.toList) path method blanks text →
      (∀ path' method' blanks' text',
        CallText (essence line.toList) path' method' blanks' text' →
          path = path' ∧ method = method' ∧ blanks = blanks' ∧ text = text') ∧
      ∃ more coll, path = "db" :: more ∧
        coll = (if more = [] then none else some (".".intercalate more)) ∧
        collection ⟨.call, path, method, text⟩ = coll ∧
        Query.ofLine line =
          ⟨.ofMethod coll.isSome method, coll, some method, ArgumentText.values text⟩ := by
  refine ⟨fun path method text => ofLine?_eq_some_iff, ?_⟩
  intro path method blanks text h
  refine ⟨fun path' method' blanks' text' => h.unique, ?_⟩
  obtain ⟨more, rfl⟩ := List.head?_eq_some_iff.1 h.root
  have hcoll := collection_path more method text
  refine ⟨more, _, rfl, rfl, hcoll, ?_⟩
  rw [ofLine_of_callText h, ← hcoll]

/-- With a path of three names, a blank in front of the parenthesis, and parentheses in the text. -/
theorem ofLine?_eq_call_iff_profile :
    CallText (essence " db.system.profile.find\t('(a)', )) ;".toList) ["db", "system", "profile"]
        "find" ['\t'] "'(a)', )" ∧
      ofLine? " db.system.profile.find\t('(a)', )) ;" =
        some ⟨.call, ["db", "system", "profile"], "find", "'(a)', )"⟩ ∧
      Query.ofLine " db.system.profile.find\t('(a)', )) ;" =
        ⟨.read, some "system.profile", some "find", ArgumentText.values "'(a)', )"⟩ := by
  have hpath : ∀ name ∈ ["db", "system", "profile"], IsName name := by
    intro name hmem
    simp only [List.mem_cons, List.not_mem_nil, or_false] at hmem
    rcases hmem with rfl | rfl | rfl <;> exact isName_iff.2 (by decide)
  have hcall : CallText (essence " db.system.profile.find\t('(a)', )) ;".toList)
      ["db", "system", "profile"] "find" ['\t'] "'(a)', )" :=
    ⟨by decide, rfl, hpath, isName_iff.2 (by decide), by simp [isBlank]⟩
  obtain ⟨hiff, hparts⟩ := ofLine?_eq_call_iff " db.system.profile.find\t('(a)', )) ;"
  obtain ⟨-, more, coll, hmore, rfl, -, hquery⟩ := hparts _ _ _ _ hcall
  obtain ⟨-, rfl⟩ := List.cons.inj hmore
  exact ⟨hcall, (hiff _ _ _).2 ⟨_, hcall⟩, hquery⟩

end

end ShellQuery.Command
