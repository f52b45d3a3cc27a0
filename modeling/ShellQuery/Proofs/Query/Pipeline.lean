import ShellQuery.Proofs.Session
/-!
# Pipelines that are known to only read

Of an aggregation two questions are asked, and they look at the arguments in different ways.
`PipelineForm` is the form in which arguments can be told to be a pipeline. Arguments only read
exactly if they are of this form and hold no writing stage (`readsOnly_iff`), so the two questions
never have the answer yes at once, and for arguments of the form exactly one of them has. What is
left of arguments of the form, when some are dropped at the end or some stages are removed, is of
the form too. `isReadOnlyAggregation_consistent` gathers this, and what a read-only session makes of
it.
-/

namespace ShellQuery

namespace Value

variable {v : Value} {stages kept : List Value}

/-- An object, whatever its fields are. -/
def IsObject (v : Value) : Prop :=
  ∃ fields, v = .object fields

/-! ## Stages -/

/-- A stage that reads is an object without a writing stage. -/
theorem isReadStage_iff : v.isReadStage = true ↔ v.IsObject ∧ v.hasWriteStage = false := by
  cases v with
  | object fields =>
    have hreads : (object fields).isReadStage = !(object fields).isWriteStage := rfl
    have hwrites : (object fields).hasWriteStage = (object fields).isWriteStage := rfl
    rw [hreads, hwrites, Bool.not_eq_true']
    exact (and_iff_right ⟨fields, rfl⟩).symm
  | _ => exact ⟨nofun, fun ⟨⟨_, h⟩, _⟩ => nomatch h⟩

/-- A pipeline writes if one of its stages does. -/
theorem hasWriteStage_array_eq_false_iff :
    (array stages).hasWriteStage = false ↔ ∀ v ∈ stages, v.isWriteStage = false := by
  rw [hasWriteStage, items?, List.any_eq_false]
  simp only [Bool.not_eq_true]

/-- Among objects the stages that read are those without a writing stage. -/
theorem all_isReadStage_iff (h : ∀ v ∈ stages, v.IsObject) :
    stages.all isReadStage = true ↔ ∀ v ∈ stages, v.isWriteStage = false := by
  rw [List.all_eq_true]
  refine forall₂_congr fun v hv => ?_
  obtain ⟨fields, rfl⟩ := h v hv
  rw [isReadStage_iff]
  exact and_iff_right ⟨fields, rfl⟩

end Value

namespace Query

variable {q : Query} {args kept stages options : List Value}

/-! ## Arguments in the form of a pipeline -/

/-- Arguments in the form of a pipeline: an array of objects before any options, or objects alone,
perhaps none of them. -/
inductive PipelineForm : List Value → Prop
  | listed {stages options : List Value} : (∀ v ∈ stages, v.IsObject) →
      PipelineForm (.array stages :: options)
  | spread {args : List Value} : (∀ v ∈ args, v.IsObject) → PipelineForm args

/-- Arguments that begin with an array are of the form if the array holds objects only. -/
theorem pipelineForm_array_iff :
    PipelineForm (.array stages :: options) ↔ ∀ v ∈ stages, v.IsObject := by
  refine ⟨fun h => ?_, .listed⟩
  cases h with
  | listed h => exact h
  | spread h =>
    obtain ⟨fields, hfields⟩ := h _ List.mem_cons_self
    cases hfields

/-- What stands at the front of arguments of the form is of the form. -/
theorem PipelineForm.of_isPrefix (h : PipelineForm args) (hkept : kept <+: args) :
    PipelineForm kept := by
  cases h with
  | @listed stages options h =>
    cases kept with
    | nil => exact .spread nofun
    | cons v more =>
      obtain ⟨rfl, -⟩ := List.cons_prefix_cons.1 hkept
      exact .listed h
  | spread h => exact .spread fun v hv => h v (hkept.subset hv)

/-- A pipeline from which stages are removed is of the form. -/
theorem PipelineForm.of_sublist (h : PipelineForm (.array stages :: options))
    (hkept : kept.Sublist stages) : PipelineForm (.array kept :: options) :=
  .listed fun v hv => pipelineForm_array_iff.1 h v (hkept.subset hv)

/-! ## Arguments that only read -/

/-- **Arguments only read** exactly if they are of the form and hold no writing stage. -/
theorem readsOnly_iff :
    readsOnly args = true ↔ PipelineForm args ∧ ∀ v ∈ args, v.hasWriteStage = false := by
  refine ⟨fun h => ⟨?_, fun v => not_hasWriteStage_of_readsOnly h⟩, ?_⟩
  · unfold readsOnly at h
    split at h
    · exact .spread nofun
    · rw [Bool.and_eq_true, List.all_eq_true] at h
      exact .listed fun v hv => (Value.isReadStage_iff.1 (h.1 v hv)).1
    · exact .spread fun v hv => (Value.isReadStage_iff.1 (List.all_eq_true.1 h v hv)).1
    · cases h
  · intro ⟨hform, hwrites⟩
    cases hform with
    | @listed stages options hstages =>
      rw [readsOnly, Bool.and_eq_true, Bool.not_eq_true', List.any_eq_false]
      rw [List.forall_mem_cons, Value.hasWriteStage_array_eq_false_iff] at hwrites
      refine ⟨(Value.all_isReadStage_iff hstages).2 hwrites.1, fun v hv => ?_⟩
      rw [hwrites.2 v hv]
      exact Bool.false_ne_true
    | spread hargs =>
      have hread : args.all Value.isReadStage = true :=
        List.all_eq_true.2 fun v hv => Value.isReadStage_iff.2 ⟨hargs v hv, hwrites v hv⟩
      cases args with
      | nil => rfl
      | cons v more =>
        obtain ⟨fields, rfl⟩ := hargs v List.mem_cons_self
        exact hread

/-- Arguments only read without some of them at the end. -/
theorem readsOnly_of_isPrefix (h : readsOnly args = true) (hkept : kept <+: args) :
    readsOnly kept = true := by
  obtain ⟨hform, hwrites⟩ := readsOnly_iff.1 h
  exact readsOnly_iff.2 ⟨hform.of_isPrefix hkept, fun v hv => hwrites v (hkept.subset hv)⟩

/-- A pipeline only reads without some of its stages. -/
theorem readsOnly_of_sublist (h : readsOnly (.array stages :: options) = true)
    (hkept : kept.Sublist stages) : readsOnly (.array kept :: options) = true := by
  obtain ⟨hform, hwrites⟩ := readsOnly_iff.1 h
  rw [List.forall_mem_cons, Value.hasWriteStage_array_eq_false_iff] at hwrites
  refine readsOnly_iff.2 ⟨hform.of_sublist hkept, ?_⟩
  rw [List.forall_mem_cons, Value.hasWriteStage_array_eq_false_iff]
  exact ⟨fun v hv => hwrites.1 v (hkept.subset hv), hwrites.2⟩

/-! ## The two questions -/

/-- Of an aggregation only the arguments are asked whether they only read. -/
theorem isReadOnlyAggregation_eq (h : q.methodName = Method.aggregate) :
    q.isReadOnlyAggregation = readsOnly q.args := by
  simp [isReadOnlyAggregation, isAggregation, h]

/-- An aggregation does not write if none of its arguments does. -/
theorem isWritingAggregation_eq_false_iff (h : q.methodName = Method.aggregate) :
    q.isWritingAggregation = false ↔ ∀ v ∈ q.args, v.hasWriteStage = false := by
  simp [isWritingAggregation, isAggregation, h]

/-- An aggregation is known to only read exactly if its arguments are of the form and it does not
write. -/
theorem isReadOnlyAggregation_iff (h : q.methodName = Method.aggregate) :
    q.isReadOnlyAggregation = true ↔ PipelineForm q.args ∧ q.isWritingAggregation = false := by
  rw [isReadOnlyAggregation_eq h, readsOnly_iff, isWritingAggregation_eq_false_iff h]

end Query

/-! ## Verdicts -/

/-- What the report of a verdict says about writing. -/
theorem Verdict.exists_fields (v : Verdict) :
    ∃ fields, v.toJson = .object fields ∧
      Fields.get? "readonly_safe" fields = some (.bool v.query.isReadOnlySafe) ∧
      Fields.get? "has_write_stage" fields = v.hasWriteStage.map .bool := by
  refine ⟨_, rfl, rfl, ?_⟩
  cases v.hasWriteStage with
  | some writes => rfl
  | none => cases v.refusal <;> rfl

/-- A verdict is about the query that was checked. -/
theorem Session.query_check (s : Session) (q : Query) : (s.check q).1.query = q := by
  rw [check]
  cases s.apply q <;> rfl

/-- What a read-only session allows is safe by its method, and is no pipeline that writes. -/
theorem Session.hasWriteStage_of_allowed {s : Session} {q : Query} (hs : s.readOnly = true)
    (h : (s.check q).1.allowed = true) :
    q.isReadOnlySafe = true ∧ (s.check q).1.hasWriteStage ≠ some true := by
  obtain ⟨hsafe, hreads⟩ := safe_of_allowed hs h
  refine ⟨hsafe, fun hwrites => ?_⟩
  rw [Verdict.hasWriteStage, query_check, Option.ite_none_right_eq_some, Option.some.injEq]
    at hwrites
  obtain ⟨haggregation, hwrites⟩ := hwrites
  have hmethod : q.methodName = Method.aggregate := beq_iff_eq.1 haggregation
  have hreadOnly := (Query.isReadOnlyAggregation_eq hmethod).trans (hreads hmethod)
  rw [((Query.isReadOnlyAggregation_iff hmethod).1 hreadOnly).2] at hwrites
  cases hwrites

/-! ## Main result -/

namespace Query

/-- **The two questions about an aggregation agree, and in doubt it writes.** They never both have
the answer yes, exactly one of them has if the arguments are in the form of a pipeline, and what is
of any other form is not known to only read. An aggregation that is known to only read stays so when
arguments at the end are dropped or stages of its pipeline removed. So whatever a read-only session
allows, its verdict calls safe and does not call a pipeline that writes. -/
theorem isReadOnlyAggregation_consistent (q : Query) :
    (q.methodName = Method.aggregate →
      ¬(q.isReadOnlyAggregation = true ∧ q.isWritingAggregation = true) ∧
        (PipelineForm q.args →
          (q.isReadOnlyAggregation = true ↔ ¬q.isWritingAggregation = true)) ∧
        (¬PipelineForm q.args → q.isReadOnlyAggregation = false) ∧
        (q.isReadOnlyAggregation = true →
          (∀ kept, kept <+: q.args → isReadOnlyAggregation { q with args := kept } = true) ∧
            ∀ stages options kept, q.args = .array stages :: options → kept.Sublist stages →
              isReadOnlyAggregation { q with args := .array kept :: options } = true)) ∧
      ∀ s : Session, s.readOnly = true → (s.check q).1.allowed = true →
        q.isReadOnlySafe = true ∧ (s.check q).1.hasWriteStage ≠ some true ∧
          ∃ fields, (s.check q).1.toJson = .object fields ∧
            Fields.get? "readonly_safe" fields = some (.bool true) ∧
            Fields.get? "has_write_stage" fields ≠ some (.bool true) := by
  refine ⟨fun hmethod => ?_, fun s hs hallowed => ?_⟩
  · have hiff := isReadOnlyAggregation_iff hmethod
    refine ⟨fun ⟨hreads, hwrites⟩ => ?_, fun hform => ?_, fun hform => ?_, fun hreads => ?_⟩
    · rw [(hiff.1 hreads).2] at hwrites
      cases hwrites
    · rw [hiff, Bool.not_eq_true]
      exact and_iff_right hform
    · exact Bool.eq_false_iff.2 fun hreads => hform (hiff.1 hreads).1
    · rw [isReadOnlyAggregation_eq hmethod] at hreads
      refine ⟨fun kept hkept => ?_, fun stages options kept hargs hkept => ?_⟩
      · rw [isReadOnlyAggregation_eq (q := { q with args := kept }) hmethod]
        exact readsOnly_of_isPrefix hreads hkept
      · rw [isReadOnlyAggregation_eq (q := { q with args := .array kept :: options }) hmethod]
        rw [hargs] at hreads
        exact readsOnly_of_sublist hreads hkept
  · obtain ⟨hsafe, hwrites⟩ := Session.hasWriteStage_of_allowed hs hallowed
    obtain ⟨fields, hfields, hsafeField, hwriteField⟩ := (s.check q).1.exists_fields
    rw [Session.query_check, hsafe] at hsafeField
    refine ⟨hsafe, hwrites, fields, hfields, hsafeField, fun hwritten => hwrites ?_⟩
    rw [hwriteField] at hwritten
    obtain ⟨b, hb, hbool⟩ := Option.map_eq_some_iff.1 hwritten
    cases hbool
    exact hb

/-- A pipeline of two stages before an option is allowed, and still of the kind that reads without
its option and without its first stage. One with a stage that writes is of the other kind. -/
theorem isReadOnlyAggregation_consistent_match :
    (isReadOnlyAggregation ⟨.read, some "c", some "aggregate",
        [.array [.object [("$match", .object [])], .object [("$limit", .null)]],
          .object [("allowDiskUse", .bool true)]]⟩ = true ∧
      isReadOnlyAggregation ⟨.read, some "c", some "aggregate",
        [.array [.object [("$match", .object [])], .object [("$limit", .null)]]]⟩ = true ∧
      isReadOnlyAggregation ⟨.read, some "c", some "aggregate",
        [.array [.object [("$limit", .null)]], .object [("allowDiskUse", .bool true)]]⟩ = true ∧
      (Session.check ⟨"test", true⟩ ⟨.read, some "c", some "aggregate",
        [.array [.object [("$match", .object [])], .object [("$limit", .null)]],
          .object [("allowDiskUse", .bool true)]]⟩).1.hasWriteStage ≠ some true) ∧
      isWritingAggregation ⟨.read, some "c", some "aggregate",
        [.array [.object [("$match", .object [])], .object [("$out", .text "d")]]]⟩ = true ∧
      isReadOnlyAggregation ⟨.read, some "c", some "aggregate",
        [.array [.object [("$match", .object [])], .object [("$out", .text "d")]]]⟩ = false ∧
      (Session.check ⟨"test", true⟩ ⟨.read, some "c", some "aggregate",
        [.array [.object [("$match", .object [])], .object [("$out", .text "d")]]]⟩).1.allowed =
          false := by
  refine ⟨?_, ?_⟩
  · have hreads : isReadOnlyAggregation ⟨.read, some "c", some "aggregate",
        [.array [.object [("$match", .object [])], .object [("$limit", .null)]],
          .object [("allowDiskUse", .bool true)]]⟩ = true := by decide
    obtain ⟨hquestions, hverdict⟩ := isReadOnlyAggregation_consistent ⟨.read, some "c",
      some "aggregate", [.array [.object [("$match", .object [])], .object [("$limit", .null)]],
        .object [("allowDiskUse", .bool true)]]⟩
    obtain ⟨-, -, -, hkept⟩ := hquestions rfl
    obtain ⟨hdropped, hremoved⟩ := hkept hreads
    exact ⟨hreads, hdropped _ ⟨_, rfl⟩, hremoved _ _ _ rfl (.cons _ (.refl _)),
      (hverdict ⟨"test", true⟩ rfl rfl).2.1⟩
  · have hwrites : isWritingAggregation ⟨.read, some "c", some "aggregate",
        [.array [.object [("$match", .object [])], .object [("$out", .text "d")]]]⟩ = true := by
      decide
    obtain ⟨hquestions, hverdict⟩ := isReadOnlyAggregation_consistent ⟨.read, some "c",
      some "aggregate", [.array [.object [("$match", .object [])], .object [("$out", .text "d")]]]⟩
    exact ⟨hwrites, Bool.eq_false_iff.2 fun hreads => (hquestions rfl).1 ⟨hreads, hwrites⟩,
      Bool.eq_false_iff.2 fun hallowed => (hverdict ⟨"test", true⟩ rfl hallowed).2.1 rfl⟩

end Query

end ShellQuery
