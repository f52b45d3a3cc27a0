import ShellQuery.Proofs.Session.Run
/-!
# Read-only mode only restricts

The same queries are checked by a read-only session and by one that may write, both with the same
database at first. `refusal?_readOnly` says how far the two can part on one query: not at all, or
the read-only one refuses with its own reason what the other allows, and then the query selects no
database. So the databases stay equal, and `checks_restrict` carries this through the whole run.
-/

namespace ShellQuery

/-- A verdict refuses more than another one and differs in nothing else: what it refuses beyond the
other's refusals, it refuses because the method is not for reading. -/
structure Verdict.Restricts (v w : Verdict) : Prop where
  query : v.query = w.query
  database : v.database = w.database
  fullName : v.query.fullName? v.database = w.query.fullName? w.database
  isReadOnlySafe : v.query.isReadOnlySafe = w.query.isReadOnlySafe
  hasWriteStage : v.hasWriteStage = w.hasWriteStage
  allowed : v.allowed = true → w.allowed = true
  refused : ∀ r, w.refusal = some r → v.refusal = some r
  readOnly : ∀ r, v.refusal = some r → w.refusal = none → r = .readOnly v.query.methodName

namespace Session

variable {database : String} {q : Query}

/-- The verdicts on queries that are checked one after the other, each with the session after it. -/
def checks (s : Session) : List Query → List (Verdict × Session)
  | [] => []
  | q :: more => s.check q :: checks (s.check q).2 more

/-! ## One query -/

/-- Read-only mode adds one reason to refuse, and only for queries that select no database. -/
theorem refusal?_readOnly (database : String) (q : Query) :
    refusal? ⟨database, true⟩ q = refusal? ⟨database, false⟩ q ∨
      q.selects? = none ∧ refusal? ⟨database, false⟩ q = none ∧
        refusal? ⟨database, true⟩ q = some (.readOnly q.methodName) := by
  cases hselects : q.selects? with
  | some name =>
    left
    rw [refusal?_of_selects hselects, refusal?_of_selects hselects]
  | none =>
    by_cases hkind : q.kind = .unknown
    · left
      rw [refusal?, refusal?, if_pos hkind, if_pos hkind]
    · cases hforbids : forbids q with
      | false =>
        left
        simp only [refusal?, hforbids, Bool.and_false]
      | true =>
        right
        simp [refusal?, hkind, hforbids, hselects]

/-- Verdicts with the same query and the same database differ in their refusals only. -/
theorem restricts_of_refusals {r r' : Option Refusal}
    (hrefused : ∀ x, r' = some x → r = some x)
    (hreadOnly : ∀ x, r = some x → r' = none → x = .readOnly q.methodName) :
    Verdict.Restricts ⟨q, database, r⟩ ⟨q, database, r'⟩ where
  query := rfl
  database := rfl
  fullName := rfl
  isReadOnlySafe := rfl
  hasWriteStage := rfl
  allowed h := by
    cases r' with
    | none => rfl
    | some x =>
      rw [hrefused x rfl] at h
      cases h
  refused := hrefused
  readOnly := hreadOnly

/-- One query is answered with a restricted verdict, and the databases stay equal. -/
theorem check_restricts (database : String) (q : Query) :
    (check ⟨database, true⟩ q).1.Restricts (check ⟨database, false⟩ q).1 ∧
      ∃ next, (check ⟨database, true⟩ q).2 = ⟨next, true⟩ ∧
        (check ⟨database, false⟩ q).2 = ⟨next, false⟩ := by
  rcases refusal?_readOnly database q with hsame | ⟨hselects, hallowed, hrefused⟩
  · cases h : refusal? ⟨database, false⟩ q with
    | none =>
      rw [check_of_accepted h, check_of_accepted (hsame.trans h)]
      exact ⟨restricts_of_refusals nofun nofun, _, rfl, rfl⟩
    | some r =>
      rw [check_of_refusal h, check_of_refusal (hsame.trans h)]
      exact ⟨restricts_of_refusals (fun _ => id) nofun, _, rfl, rfl⟩
  · have hstays : after ⟨database, false⟩ q = ⟨database, false⟩ := by rw [after, hselects]; rfl
    rw [check_of_accepted hallowed, check_of_refusal hrefused, hstays]
    refine ⟨restricts_of_refusals nofun ?_, _, rfl, rfl⟩
    rintro x hx -
    cases hx
    rfl

/-! ## Main result -/

/-- **Read-only mode only restricts.** Whatever queries are checked in lock step, on a read-only
session and on one that may write: after each of them both have the same database, and the verdict
of the first restricts that of the second. -/
theorem checks_restrict (database : String) (queries : List Query) :
    List.Forall₂ (fun x y => x.1.Restricts y.1 ∧ x.2.database = y.2.database)
      (checks ⟨database, true⟩ queries) (checks ⟨database, false⟩ queries) := by
  induction queries generalizing database with
  | nil => exact .nil
  | cons q more ih =>
    obtain ⟨hrestricts, next, hreads, hwrites⟩ := check_restricts database q
    refine .cons ⟨hrestricts, by rw [hreads, hwrites]⟩ ?_
    rw [hreads, hwrites]
    exact ih next

end Session

end ShellQuery
