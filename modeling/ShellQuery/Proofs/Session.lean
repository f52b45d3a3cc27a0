import ShellQuery.Session
import ShellQuery.Proofs.ArgumentText
import ShellQuery.Proofs.Command.Grammar
import ShellQuery.Proofs.Value.Tagged
/-!
# Read-only sessions

`check_readOnly` goes from the text of a line to the verdict on it, in both directions. What a
read-only session allows reads a collection or administers without changing data, and the pipelines
among it were read from their text and hold no writing stage. Conversely, a writing stage cannot be
hidden by how it is written: as soon as the strict form of an argument text has a key that names
one, repeated or not and in whatever argument, the aggregation is refused
(`hasWriteStage_of_stageOf`).
-/

namespace ShellQuery

open Dialect

/-- An argument read as one stage, or one of the stages it lists. -/
def Json.StageOf (v stage : Json) : Prop :=
  stage = v ∨ ∃ items, v = .array items ∧ stage ∈ items

/-- An object with a key that names a writing stage. -/
def Json.Writes (v : Json) : Prop :=
  ∃ fields, v = .object fields ∧ ∃ key ∈ Method.writeStages, key ∈ Fields.keys fields

/-- An argument read as one stage, or one of the stages it lists. -/
def Value.StageOf (v stage : Value) : Prop :=
  stage = v ∨ ∃ items, v = .array items ∧ stage ∈ items

/-- An object with a key that names a writing stage. -/
def Value.Writes (v : Value) : Prop :=
  ∃ fields, v = .object fields ∧ ∃ key ∈ Method.writeStages, key ∈ Fields.keys fields

section
variable {v stage : Value} {args : List Value}

/-! ## Stages -/

/-- A stage writes if it is an object with one of the two keys. -/
theorem Value.isWriteStage_iff : v.isWriteStage = true ↔ v.Writes := by
  rw [isWriteStage, List.any_eq_true]
  refine ⟨?_, ?_⟩
  · rintro ⟨key, hkey, hfield⟩
    cases v with
    | object fields => exact ⟨fields, rfl, key, hkey, Fields.isSome_get?.1 hfield⟩
    | _ => cases hfield
  · rintro ⟨fields, rfl, key, hkey, hmem⟩
    exact ⟨key, hkey, Fields.isSome_get?.2 hmem⟩

/-- An argument has a writing stage if it is one, or an array of stages with one in it. -/
theorem Value.hasWriteStage_iff :
    v.hasWriteStage = true ↔ ∃ stage, v.StageOf stage ∧ stage.Writes := by
  refine ⟨?_, ?_⟩
  · intro h
    cases v with
    | array items =>
      obtain ⟨stage, hmem, hstage⟩ := List.any_eq_true.1 h
      exact ⟨stage, .inr ⟨items, rfl, hmem⟩, isWriteStage_iff.1 hstage⟩
    | _ => exact ⟨_, .inl rfl, isWriteStage_iff.1 h⟩
  · rintro ⟨stage, rfl | ⟨items, rfl, hmem⟩, hwrites⟩
    · obtain ⟨fields, rfl, h⟩ := hwrites
      exact isWriteStage_iff.2 ⟨fields, rfl, h⟩
    · exact List.any_eq_true.2 ⟨stage, hmem, isWriteStage_iff.2 hwrites⟩

/-- A stage that reads does not write. -/
theorem Value.not_isWriteStage_of_isReadStage (h : v.isReadStage = true) :
    v.isWriteStage = false := by
  simp only [isReadStage, Bool.and_eq_true] at h
  simpa using h.2

/-- A stage object that reads has no writing stage in it. -/
theorem Value.not_hasWriteStage_of_isReadStage (h : v.isReadStage = true) :
    v.hasWriteStage = false := by
  cases v with
  | object fields => exact not_isWriteStage_of_isReadStage h
  | _ => cases h

/-- Arguments that are a pipeline that only reads hold no writing stage anywhere. -/
theorem Query.not_hasWriteStage_of_readsOnly (h : readsOnly args = true) (hv : v ∈ args) :
    v.hasWriteStage = false := by
  unfold readsOnly at h
  split at h
  · cases hv
  · rename_i stages options
    rw [Bool.and_eq_true, List.all_eq_true, Bool.not_eq_true', List.any_eq_false] at h
    rcases List.mem_cons.1 hv with rfl | hv
    · refine List.any_eq_false.2 fun stage hstage => ?_
      rw [Value.not_isWriteStage_of_isReadStage (h.1 stage hstage)]
      exact Bool.false_ne_true
    · simpa using h.2 v hv
  · exact Value.not_hasWriteStage_of_isReadStage (List.all_eq_true.1 h v hv)
  · cases h

/-- A text that could not be read is no pipeline that only reads. -/
theorem ArgumentText.read_of_readsOnly {text : String}
    (h : Query.readsOnly (ArgumentText.values text) = true) :
    ArgumentText.read text = .ok (ArgumentText.values text) := by
  unfold ArgumentText.values at h ⊢
  split
  · rename_i hread
    exact hread
  · rename_i hread
    rw [hread] at h
    cases h

/-! ## From trees to stages -/

/-- The names of writing stages are not the keys of tags. -/
theorem ofKey?_of_mem_writeStages : ∀ key ∈ Method.writeStages, Tag.ofKey? key = none := by
  decide

/-- A key survives merging and the making of values. -/
theorem Value.writes_of_ofJson {tree : Json} (htree : tree.Writes)
    (h : ofJson tree.merged = .ok v) : v.Writes := by
  obtain ⟨fields, rfl, key, hkey, hmem⟩ := htree
  have hmem' : key ∈ Fields.keys (Fields.merge (Json.mergedFields fields)) := by
    rw [Fields.mem_keys_merge, Json.mergedFields_eq_map, Fields.keys, List.map_map]
    exact hmem
  rw [Json.merged] at h
  obtain ⟨gs, rfl, hkeys⟩ := ofJson_object_eq_ok (ofKey?_of_mem_writeStages key hkey) hmem' h
  exact ⟨gs, rfl, key, hkey, hkeys ▸ hmem'⟩

/-- **No way of writing hides a writing stage.** -/
theorem Value.hasWriteStage_of_stageOf {tree stage : Json} (hstage : tree.StageOf stage)
    (hwrites : stage.Writes) (h : ofJson tree.merged = .ok v) : v.hasWriteStage = true := by
  rcases hstage with rfl | ⟨items, rfl, hmem⟩
  · exact hasWriteStage_iff.2 ⟨v, .inl rfl, writes_of_ofJson hwrites h⟩
  · rw [Json.merged, Json.mergedItems_eq_map, ofJson] at h
    cases hitems : ofJsonItems (items.map Json.merged) with
    | error f =>
      rw [hitems] at h
      cases h
    | ok vs =>
      rw [hitems] at h
      cases h
      obtain ⟨w, hw, hread⟩ := exists_of_mem_ofJsonItems hitems (List.mem_map_of_mem hmem)
      exact hasWriteStage_iff.2 ⟨w, .inr ⟨vs, rfl, hw⟩, writes_of_ofJson hwrites hread⟩

/-! ## What is safe -/

/-- A call reads just if its method does and it is on a collection. -/
theorem Kind.ofMethod_eq_read_iff {onCollection : Bool} {method : String} :
    Kind.ofMethod onCollection method = .read ↔ onCollection = true ∧ method ∈ Method.readers := by
  unfold Kind.ofMethod
  split_ifs <;> simp_all

/-- A call administers just if its method does and it is on no collection. -/
theorem Kind.ofMethod_eq_admin_iff {onCollection : Bool} {method : String} :
    Kind.ofMethod onCollection method = .admin ↔
      onCollection = false ∧ method ∈ Method.administrators := by
  unfold Kind.ofMethod
  split_ifs <;> simp_all

/-- What is safe reads, or is a harmless admin command. -/
theorem Query.isReadOnlySafe_iff {q : Query} : q.isReadOnlySafe = true ↔
    q.kind = .read ∨ q.kind = .admin ∧ q.methodName ∈ Method.harmlessAdministrators := by
  unfold isReadOnlySafe
  cases q.kind <;> simp

/-! ## Verdicts -/

namespace Session

variable {s : Session} {q : Query} {line : String}

/-- A refused query has the refusal in its verdict and leaves the session as it is. -/
theorem check_of_refusal {r : Refusal} (h : s.refusal? q = some r) :
    s.check q = (⟨q, s.database, some r⟩, s) := by
  simp [check, apply, authorize, h]

/-- Where the verdict allows a query there is no refusal. -/
theorem refusal?_of_allowed (h : (s.check q).1.allowed = true) : s.refusal? q = none := by
  cases hr : s.refusal? q with
  | none => rfl
  | some r =>
    rw [check_of_refusal hr] at h
    cases h

/-- What a read-only session allows is safe, and a reading pipeline if it is one. -/
theorem safe_of_allowed (hs : s.readOnly = true) (h : (s.check q).1.allowed = true) :
    q.isReadOnlySafe = true ∧
      (q.methodName = Method.aggregate → Query.readsOnly q.args = true) := by
  have hnone := refusal?_of_allowed h
  unfold refusal? at hnone
  split at hnone
  · cases hnone
  · split at hnone
    · cases hnone
    · rename_i hforbids
      simp only [hs, Bool.true_and, forbids, Bool.or_eq_true, Bool.not_eq_eq_eq_not, Bool.not_true,
        Bool.and_eq_true, not_or, not_and, Bool.not_eq_false] at hforbids
      refine ⟨hforbids.1, fun hmethod => ?_⟩
      have hpipeline := hforbids.2 (by simp [Query.isAggregation, hmethod])
      simp only [Query.isReadOnlyAggregation, Bool.and_eq_true] at hpipeline
      exact hpipeline.2

/-- A method that reads a collection is none that writes, nor does it drop the database. -/
theorem not_mem_writers_of_mem_readers :
    ∀ method ∈ Method.readers, method ∉ Method.writers ∧ method ≠ "dropDatabase" := by
  decide

/-- A harmless admin method is none that writes, drops the database or runs a pipeline. -/
theorem not_mem_writers_of_harmless :
    ∀ method ∈ Method.harmlessAdministrators,
      method ∉ Method.writers ∧ method ≠ "dropDatabase" ∧ method ≠ Method.aggregate := by
  decide

/-- What is safe in a command: a reading call on a collection, the arguments of which are those of
its text, or a harmless admin command. -/
theorem ofCommand_of_safe {c : Command} (hsafe : (Query.ofCommand c).isReadOnlySafe = true) :
    ((Query.ofCommand c).kind = .read ∧ (Query.ofCommand c).methodName ∈ Method.readers ∧
      (∃ coll, (Query.ofCommand c).collection = some coll) ∧
      (Query.ofCommand c).args = ArgumentText.values c.argumentText) ∨
      ((Query.ofCommand c).kind = .admin ∧ (Query.ofCommand c).collection = none ∧
        (Query.ofCommand c).methodName ∈ Method.harmlessAdministrators) := by
  unfold Query.ofCommand at hsafe ⊢
  cases hscope : c.scope with
  | display | selection =>
    rw [hscope] at hsafe
    exact .inr ⟨rfl, rfl, List.contains_iff_mem.1 hsafe⟩
  | call =>
    rw [hscope] at hsafe
    rcases Query.isReadOnlySafe_iff.1 hsafe with hread | ⟨hadmin, hharmless⟩
    · obtain ⟨hcoll, hmethod⟩ := Kind.ofMethod_eq_read_iff.1 hread
      exact .inl ⟨hread, hmethod, Option.isSome_iff_exists.1 hcoll, rfl⟩
    · obtain ⟨hcoll, -⟩ := Kind.ofMethod_eq_admin_iff.1 hadmin
      exact .inr ⟨hadmin, Option.not_isSome_iff_eq_none.1 (Bool.eq_false_iff.1 hcoll), hharmless⟩

/-- What is safe in a line: a reading call on a collection, the arguments of which are those of its
text, or a harmless admin command. -/
theorem ofLine_of_safe (hsafe : (Query.ofLine line).isReadOnlySafe = true) :
    ((Query.ofLine line).kind = .read ∧ (Query.ofLine line).methodName ∈ Method.readers ∧
      (∃ coll, (Query.ofLine line).collection = some coll) ∧
      ∃ c, Command.ofLine? line = some c ∧
        (Query.ofLine line).args = ArgumentText.values c.argumentText) ∨
      ((Query.ofLine line).kind = .admin ∧ (Query.ofLine line).collection = none ∧
        (Query.ofLine line).methodName ∈ Method.harmlessAdministrators) := by
  unfold Query.ofLine at hsafe ⊢
  cases hc : Command.ofLine? line with
  | none =>
    rw [hc] at hsafe
    cases hsafe
  | some c =>
    rw [hc] at hsafe
    rcases ofCommand_of_safe hsafe with ⟨hread, hmethod, hcoll, hargs⟩ | hadmin
    · exact .inl ⟨hread, hmethod, hcoll, c, rfl, hargs⟩
    · exact .inr hadmin

/-- A line that calls `aggregate` on a collection, with arguments that can be read. -/
theorem ofLine_aggregate {coll text : String} {ws : List Value}
    (hcoll : (coll.toList.splitOn '.').all Command.isSegment = true)
    (hread : ArgumentText.read text = .ok ws) :
    Query.ofLine ("db." ++ coll ++ ".aggregate(" ++ text ++ ")") =
      ⟨.read, some coll, some Method.aggregate, ws⟩ := by
  obtain ⟨c, hline, hscope, hcollection, hmethod, htext⟩ :=
    @Command.ofLine?_call _ Method.aggregate hcoll (by decide) (by decide) text
  have hshape : "db." ++ coll ++ ".aggregate(" ++ text ++ ")" =
      "db." ++ coll ++ "." ++ Method.aggregate ++ "(" ++ text ++ ")" := by
    simp [← String.toList_inj, Method.aggregate]
  rw [hshape, Query.ofLine, hline]
  simp only [Query.ofCommand, hscope, hcollection, hmethod, htext, ArgumentText.values, hread]
  rfl

/-- An aggregation is refused unless its arguments are known to only read. -/
theorem refusal?_of_not_readsOnly (hs : s.readOnly = true) {coll : Option String}
    {ws : List Value} (hws : Query.readsOnly ws = false) :
    s.refusal? ⟨.read, coll, some Method.aggregate, ws⟩ = some (.readOnly Method.aggregate) := by
  simp [refusal?, hs, forbids, Query.isReadOnlyAggregation, Query.isAggregation, Query.methodName,
    hws]

/-- A read-only session refuses a pipeline with a writing stage in any argument. -/
theorem refusal?_of_writes (hs : s.readOnly = true) {coll : Option String} {ws : List Value}
    {w : Value} (hmem : w ∈ ws) (hw : w.hasWriteStage = true) :
    s.refusal? ⟨.read, coll, some Method.aggregate, ws⟩ = some (.readOnly Method.aggregate) := by
  refine refusal?_of_not_readsOnly hs ?_
  cases h : Query.readsOnly ws with
  | false => rfl
  | true =>
    rw [Query.not_hasWriteStage_of_readsOnly h hmem] at hw
    cases hw

/-! ## Main result -/

/-- **A read-only session does not write.** An allowed line reads a collection or is a harmless
admin command; if it is an aggregation, then its arguments were read from its text, and none of
their stages has a key that names a writing stage. An aggregation the arguments of which can be
read, but have such a key in the strict form of their text, is refused, and the session stays as it
is. -/
theorem check_readOnly (hs : s.readOnly = true) :
    (∀ line, (s.check (.ofLine line)).1.allowed = true →
      (((Query.ofLine line).kind = .read ∧ (∃ coll, (Query.ofLine line).collection = some coll) ∧
          (Query.ofLine line).methodName ∈ Method.readers) ∨
        ((Query.ofLine line).kind = .admin ∧ (Query.ofLine line).collection = none ∧
          (Query.ofLine line).methodName ∈ Method.harmlessAdministrators)) ∧
      (Query.ofLine line).methodName ∉ Method.writers ∧
      (Query.ofLine line).methodName ≠ "dropDatabase" ∧
      ((Query.ofLine line).methodName = Method.aggregate →
        ∃ c, Command.ofLine? line = some c ∧
          ArgumentText.read c.argumentText = .ok (Query.ofLine line).args ∧
          ∀ v ∈ (Query.ofLine line).args, ∀ stage, v.StageOf stage → ¬stage.Writes)) ∧
    ∀ coll text ws trees, (coll.toList.splitOn '.').all Command.isSegment = true →
      ArgumentText.read text = .ok ws →
      Json.Items (Json.Core (Json.maxDepth - 1)) (normalize text.toList) trees →
      (∃ v ∈ trees, ∃ stage, v.StageOf stage ∧ stage.Writes) →
      s.check (.ofLine ("db." ++ coll ++ ".aggregate(" ++ text ++ ")")) =
        (⟨.ofLine ("db." ++ coll ++ ".aggregate(" ++ text ++ ")"), s.database,
          some (.readOnly Method.aggregate)⟩, s) := by
  refine ⟨?_, ?_⟩
  · intro line h
    obtain ⟨hsafe, hpipeline⟩ := safe_of_allowed hs h
    rcases ofLine_of_safe hsafe with
      ⟨hread, hmethod, hcoll, c, hc, hargs⟩ | ⟨hadmin, hcoll, hmethod⟩
    · obtain ⟨hwriters, hdrop⟩ := not_mem_writers_of_mem_readers _ hmethod
      refine ⟨.inl ⟨hread, hcoll, hmethod⟩, hwriters, hdrop, fun haggregate => ?_⟩
      have hreads := hpipeline haggregate
      rw [hargs] at hreads ⊢
      refine ⟨c, hc, ArgumentText.read_of_readsOnly hreads, fun v hv stage hstage hwrites => ?_⟩
      have hnone := Query.not_hasWriteStage_of_readsOnly hreads hv
      rw [Value.hasWriteStage_iff.2 ⟨stage, hstage, hwrites⟩] at hnone
      cases hnone
    · obtain ⟨hwriters, hdrop, haggregate⟩ := not_mem_writers_of_harmless _ hmethod
      exact ⟨.inr ⟨hadmin, hcoll, hmethod⟩, hwriters, hdrop, fun h => absurd h haggregate⟩
  · rintro coll text ws trees hcoll hread hitems ⟨v, hv, stage, hstage, hwrites⟩
    have hvalues := ArgumentText.read_eq_ok hread hitems
    obtain ⟨w, hmem, hw⟩ := Value.exists_of_mem_ofJsonItems hvalues (List.mem_map_of_mem hv)
    have hwrite := Value.hasWriteStage_of_stageOf hstage hwrites hw
    rw [ofLine_aggregate hcoll hread]
    exact check_of_refusal (refusal?_of_writes hs hmem hwrite)

/-- A list of databases is allowed, a stage that writes is not. -/
theorem check_readOnly_out :
    (Query.ofLine "show dbs").methodName ∉ Method.writers ∧
      (Session.check ⟨"test", true⟩ (.ofLine "db.c.aggregate(\x7b$out: null\x7d)")).1.refusal =
        some (.readOnly Method.aggregate) := by
  have hsafe := @check_readOnly ⟨"test", true⟩ rfl
  have hnull : Loose 0 ['n', 'u', 'l', 'l'] .null := .scalar .null
  have hmember : LooseMember (Loose 0) ['$', 'o', 'u', 't', ':', ' ', 'n', 'u', 'l', 'l']
      ("$out", .null) :=
    .mk (a := []) (b := []) Json.spaces_nil
      (.bare (c := '$') (t := ['o', 'u', 't']) rfl (List.all_eq_true.1 rfl)) Json.spaces_nil
      (.mk (a := [' ']) (b := []) (by simp [Json.isSpace]) hnull Json.spaces_nil)
  have hobject : Loose 1 ['{', '$', 'o', 'u', 't', ':', ' ', 'n', 'u', 'l', 'l', '}']
      (.object [("$out", .null)]) :=
    LooseNested.object (.mk (.last hmember) .none)
  have hpadded : Json.Padded (Loose 1) "\x7b$out: null\x7d".toList (.object [("$out", .null)]) :=
    .mk (a := []) (b := []) Json.spaces_nil hobject Json.spaces_nil
  have hitems : Trailed (Json.Padded (Loose 1)) "\x7b$out: null\x7d".toList
      [.object [("$out", .null)]] :=
    .mk (.last hpadded) .none
  have hread : ArgumentText.read "\x7b$out: null\x7d" = .ok [.object [("$out", .null)]] :=
    ArgumentText.read_items hitems (by decide)
  have htree : Json.Items (Json.Core (Json.maxDepth - 1)) (normalize "\x7b$out: null\x7d".toList)
      [.object [("$out", .null)]] :=
    (Loose.normalize_items hitems).1.mono fun _ _ => .mono fun _ _ => Json.Core.mono (by decide)
  have hrefused := hsafe.2 "c" _ _ _ rfl hread htree
    ⟨_, List.mem_cons_self, _, .inl rfl, _, rfl, "$out", by decide, by decide⟩
  exact ⟨(hsafe.1 "show dbs" rfl).2.1, congrArg (fun r => r.1.refusal) hrefused⟩

end Session

end

end ShellQuery
