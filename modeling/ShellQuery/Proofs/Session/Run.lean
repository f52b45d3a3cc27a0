import ShellQuery.Proofs.Session
/-!
# Runs of calls

A session is called in four ways, and a run is one call after the other, refused ones included.
`call_next` says all that a call can do to a session, and `database_run` what that adds up to over a
run: the database is the one that the last accepted `use` names. `run_follows_uses` gathers what
holds after every run. Whether a `use` is accepted is a matter of its name alone
(`refusal?_of_selects`), so a session accepts it whatever its mode is.
-/

namespace ShellQuery

variable {s : Session} {q : Query} {name : String} {r : Refusal}

/-! ## Queries that select a database -/

/-- The text in a value, if it is one. -/
theorem Value.text?_eq_some_iff {v : Value} : v.text? = some name ↔ v = .text name := by
  cases v <;> simp [text?]

/-- Only an admin `use` with a text as its first argument selects a database. -/
theorem Query.selects?_eq_some_iff :
    q.selects? = some name ↔
      q.kind = .admin ∧ q.methodName = Method.useDatabase ∧ q.args.head? = some (.text name) := by
  rw [selects?]
  split
  · rename_i h
    rw [Option.bind_eq_some_iff]
    simp only [Value.text?_eq_some_iff, exists_eq_right, h, true_and]
  · rename_i h
    exact ⟨nofun, fun ⟨hkind, hmethod, _⟩ => absurd ⟨hkind, hmethod⟩ h⟩

namespace Session

/-- Read-only mode does not forbid to select a database. -/
theorem forbids_of_selects (h : q.selects? = some name) : forbids q = false := by
  obtain ⟨hkind, hmethod, -⟩ := Query.selects?_eq_some_iff.1 h
  have hharmless : Method.harmlessAdministrators.contains Method.useDatabase = true := by decide
  have haggregate : (Method.useDatabase == Method.aggregate) = false := by decide
  simp only [forbids, Query.isReadOnlySafe, hkind, hmethod, hharmless, Query.isAggregation,
    haggregate, Bool.not_true, Bool.false_and, Bool.or_self]

/-- A query that selects a database is judged by the name, whatever the session. -/
theorem refusal?_of_selects (h : q.selects? = some name) :
    s.refusal? q = if DatabaseName.isValid name then none else some (.databaseName name) := by
  have hkind : q.kind ≠ .unknown := by
    rw [(Query.selects?_eq_some_iff.1 h).1]
    decide
  simp only [refusal?, if_neg hkind, forbids_of_selects h, Bool.and_false, Bool.false_eq_true,
    if_false, h]

/-! ## One verdict in three answers -/

/-- The session that a query leads to where it is not refused. -/
def after (s : Session) (q : Query) : Session :=
  { s with database := q.selects?.getD s.database }

/-- A query is refused for the first reason there is. -/
theorem authorize_eq_error_iff : s.authorize q = .error r ↔ s.refusal? q = some r := by
  rw [authorize]
  cases s.refusal? q <;> simp

/-- A query may run if there is no reason to refuse it. -/
theorem authorize_eq_ok_iff : s.authorize q = .ok () ↔ s.refusal? q = none := by
  rw [authorize]
  cases s.refusal? q <;> simp

/-- Applying a refused query is an error. -/
theorem apply_of_refusal (h : s.refusal? q = some r) : s.apply q = .error r := by
  rw [apply, authorize_eq_error_iff.2 h]

/-- Applying a query that is not refused leads to the session after it. -/
theorem apply_of_accepted (h : s.refusal? q = none) : s.apply q = .ok (s.after q) := by
  rw [apply, authorize_eq_ok_iff.2 h, after]
  cases q.selects? <;> rfl

/-- The verdict on a query that is not refused names the database selected after it. -/
theorem check_of_accepted (h : s.refusal? q = none) :
    s.check q = (⟨q, (s.after q).database, none⟩, s.after q) := by
  rw [check, apply_of_accepted h]

/-- Asking, applying and checking come to the same verdict. A refusal is the same error each time
and stands as a text at the end of the report; an accepted query leads to the same session. -/
structure Agrees (s : Session) (q : Query) : Prop where
  apply_iff : s.authorize q = .ok () ↔ ∃ next, s.apply q = .ok next
  check_iff : s.authorize q = .ok () ↔ (s.check q).1.allowed = true
  refused : ∀ r, s.authorize q = .error r → s.apply q = .error r ∧
    ∃ fields, (s.check q).1.toJson = .object (fields ++ [("reason", .text r.message)])
  accepted : ∀ next, s.apply q = .ok next → (s.check q).2 = next

/-- The three ways to put a query to a session agree. -/
theorem agrees (s : Session) (q : Query) : s.Agrees q := by
  cases h : s.refusal? q with
  | none =>
    have hok := authorize_eq_ok_iff.2 h
    have happly := apply_of_accepted h
    have hcheck := check_of_accepted h
    refine ⟨⟨fun _ => ⟨_, happly⟩, fun _ => hok⟩, ⟨fun _ => by rw [hcheck]; rfl, fun _ => hok⟩, ?_,
      ?_⟩
    · intro r hr
      rw [hok] at hr
      cases hr
    · intro next hnext
      rw [happly] at hnext
      cases hnext
      rw [hcheck]
  | some r =>
    have herror := authorize_eq_error_iff.2 h
    have happly := apply_of_refusal h
    have hcheck := check_of_refusal h
    refine ⟨?_, ?_, ?_, ?_⟩
    · rw [herror, happly]
      exact ⟨nofun, nofun⟩
    · rw [herror, hcheck]
      exact ⟨nofun, nofun⟩
    · intro r' hr'
      rw [herror] at hr'
      cases hr'
      rw [hcheck]
      exact ⟨happly, _, rfl⟩
    · intro next hnext
      rw [happly] at hnext
      cases hnext

/-! ## Calls -/

/-- A call on a session. -/
inductive Call
  | authorize (q : Query)
  | apply (q : Query)
  | check (q : Query)
  | fullName (q : Query)

/-- What a call answers. -/
inductive Answer
  | decision (result : Except Refusal Unit)
  | verdict (v : Verdict)
  | name (name : Option String)

/-- The refusal in an answer. -/
def Answer.refusal? : Answer → Option Refusal
  | .decision (.error r) => some r
  | .decision (.ok ()) => none
  | .verdict v => v.refusal
  | .name _ => none

/-- What a call answers, and the session after it. -/
def call (s : Session) : Call → Answer × Session
  | .authorize q => (.decision (s.authorize q), s)
  | .apply q =>
    match s.apply q with
    | .ok next => (.decision (.ok ()), next)
    | .error r => (.decision (.error r), s)
  | .check q => (.verdict (s.check q).1, (s.check q).2)
  | .fullName q => (.name (s.fullName? q), s)

/-- The session after a run of calls. -/
def run (s : Session) (calls : List Call) : Session :=
  calls.foldl (fun s c => (s.call c).2) s

/-- The database that a call is about to select: the one its `use` names, if the call moves the
session on. -/
def Call.selects? : Call → Option String
  | .apply q => q.selects?
  | .check q => q.selects?
  | .authorize _ => none
  | .fullName _ => none

/-- The database that a call selects, if it is accepted. -/
def selection? (s : Session) (c : Call) : Option String :=
  if (s.call c).1.refusal?.isNone then c.selects? else none

/-- The databases that the calls of a run select, in their order. -/
def selections (s : Session) : List Call → List String
  | [] => []
  | c :: more => (s.selection? c).toList ++ selections (s.call c).2 more

variable {c : Call}

/-- **What a call does to a session**: it selects a database, or nothing happens. -/
theorem call_next (s : Session) (c : Call) :
    (s.call c).2 = { s with database := (s.selection? c).getD s.database } := by
  cases c with
  | authorize q | fullName q => simp [selection?, call, Call.selects?]
  | apply q =>
    cases h : s.refusal? q with
    | none =>
      simp [selection?, call, apply_of_accepted h, Answer.refusal?, Call.selects?, after]
    | some r => simp [selection?, call, apply_of_refusal h, Answer.refusal?]
  | check q =>
    cases h : s.refusal? q with
    | none =>
      simp [selection?, call, check_of_accepted h, Answer.refusal?, Call.selects?, after]
    | some r => simp [selection?, call, check_of_refusal h, Answer.refusal?]

/-- A refused call leaves the session as it is. -/
theorem call_of_refusal (h : (s.call c).1.refusal? = some r) : (s.call c).2 = s := by
  rw [call_next, selection?, h]
  rfl

/-- A call that would select a database is refused for the name alone. -/
theorem refusal?_call (h : c.selects? = some name) :
    (s.call c).1.refusal? =
      if DatabaseName.isValid name then none else some (.databaseName name) := by
  cases c with
  | authorize q | fullName q => cases h
  | apply q =>
    rw [← refusal?_of_selects (s := s) h]
    cases hr : s.refusal? q with
    | none => simp [call, apply_of_accepted hr, Answer.refusal?]
    | some r => simp [call, apply_of_refusal hr, Answer.refusal?]
  | check q =>
    rw [← refusal?_of_selects (s := s) h]
    cases hr : s.refusal? q with
    | none => simp [call, check_of_accepted hr, Answer.refusal?]
    | some r => simp [call, check_of_refusal hr, Answer.refusal?]

/-- A database that is selected has a valid name. -/
theorem isValid_of_selection (h : s.selection? c = some name) :
    DatabaseName.isValid name = true := by
  rw [selection?] at h
  split at h
  · rename_i haccepted
    by_contra hinvalid
    rw [refusal?_call h, if_neg hinvalid] at haccepted
    cases haccepted
  · cases h

/-- A check selects the database that its query selects if the name is valid. -/
theorem selection?_check (s : Session) (q : Query) :
    s.selection? (.check q) = q.selects?.filter DatabaseName.isValid := by
  rw [selection?]
  cases h : q.selects? with
  | none => simp [Call.selects?, h]
  | some name =>
    rw [refusal?_call (c := .check q) h, Option.filter_some]
    cases DatabaseName.isValid name <;> simp [Call.selects?, h]

/-- A check selects a database if its query does and is allowed. -/
theorem selection?_check_eq_some_iff :
    s.selection? (.check q) = some name ↔
      (s.check q).1.allowed = true ∧ q.selects? = some name := by
  rw [selection?, Option.ite_none_right_eq_some]
  exact Iff.rfl

/-! ## Runs -/

/-- A run is its first call and the run of the others from there. -/
theorem run_cons (s : Session) (c : Call) (more : List Call) :
    s.run (c :: more) = (s.call c).2.run more :=
  rfl

/-- No run changes whether writing is forbidden. -/
theorem readOnly_run (s : Session) (calls : List Call) : (s.run calls).readOnly = s.readOnly := by
  induction calls generalizing s with
  | nil => rfl
  | cons c more ih => rw [run_cons, ih, call_next]

/-- The database after a run is the last one that was selected. -/
theorem database_run (s : Session) (calls : List Call) :
    (s.run calls).database = (s.selections calls).getLast?.getD s.database := by
  induction calls generalizing s with
  | nil => rfl
  | cons c more ih =>
    rw [run_cons, ih, selections, List.getLast?_append]
    cases (selections (s.call c).2 more).getLast? with
    | some name => rfl
    | none =>
      rw [call_next]
      cases s.selection? c <;> rfl

/-- A run that starts with a valid name never leaves one behind that is not. -/
theorem isValid_run (hs : DatabaseName.isValid s.database = true) (calls : List Call) :
    DatabaseName.isValid (s.run calls).database = true := by
  induction calls generalizing s with
  | nil => exact hs
  | cons c more ih =>
    rw [run_cons]
    refine ih ?_
    rw [call_next]
    cases h : s.selection? c with
    | none => exact hs
    | some name => exact isValid_of_selection h

/-- **What holds after every run.** The mode never changes, and the database keeps a valid name:
that of the last accepted `use`, or else the first one. In the session that is reached a refused
call changes nothing, and the three ways to judge a query agree. -/
theorem run_follows_uses (hs : DatabaseName.isValid s.database = true) (calls : List Call) :
    (s.run calls).readOnly = s.readOnly ∧
      DatabaseName.isValid (s.run calls).database = true ∧
      (s.run calls).database = (s.selections calls).getLast?.getD s.database ∧
      (∀ c r, ((s.run calls).call c).1.refusal? = some r →
        ((s.run calls).call c).2 = s.run calls) ∧
      ∀ q, (s.run calls).Agrees q :=
  ⟨readOnly_run s calls, isValid_run hs calls, database_run s calls, fun _ _ => call_of_refusal,
    agrees _⟩

/-- A name that no server accepts is not selected, and the name before it stays. -/
theorem run_follows_uses_refused :
    DatabaseName.isValid "test" = true ∧
      (run ⟨"test", true⟩ [.check (.admin Method.useDatabase [.text "shop"]),
        .apply (.admin Method.useDatabase [.text "a.b"]),
        .authorize (.admin Method.useDatabase [.text "other"])]).database = "shop" := by
  have hvalid : DatabaseName.isValid "test" = true := by decide
  obtain ⟨-, -, hdatabase, -⟩ := run_follows_uses (s := ⟨"test", true⟩) hvalid
    [.check (.admin Method.useDatabase [.text "shop"]),
      .apply (.admin Method.useDatabase [.text "a.b"]),
      .authorize (.admin Method.useDatabase [.text "other"])]
  exact ⟨hvalid, hdatabase.trans (by decide)⟩

end Session

end ShellQuery
