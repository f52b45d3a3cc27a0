import ShellQuery.Proofs.Dialect.Insertion
import ShellQuery.Proofs.Dialect.Words
import ShellQuery.Proofs.OuterBlanks
import ShellQuery.Proofs.Session
/-!
# Calls one behind the other

The text of a call goes up to the last parenthesis of the line. If more calls are chained to the
first one, then the text holds the parenthesis that closes the first call, and what follows it.
Whatever that is, no arguments are read from such a text (`values_chained`): the pass comes to this
parenthesis outside of strings (`reaches_paren`), because all that it goes into in front of it was
closed there, and outside of strings no parenthesis belongs to strict JSON.
-/

namespace ShellQuery

open Text Dialect Json

namespace Dialect

variable {s b : List Char}

/-- Behind a comma and blanks a parenthesis is an item for the pass, which keeps the comma. -/
theorem reaches_paren_of_comma {p : List Char} (hb : Blanks b)
    (hbalanced : isBalanced (p ++ ',' :: b) = true) (r : List Char) :
    Reaches (p ++ ',' :: b) (')' :: r) := by
  rw [List.append_cons, isBalanced_append_blanks hb] at hbalanced
  obtain ⟨m', hrun⟩ := exists_run .outside (p ++ [','])
  obtain rfl : m' = .outside := hrun.mode_of_endsBalanced hbalanced
  obtain ⟨S, hS⟩ := reaches_of_final_comma hrun
  have hcomma : ∀ b, Unsearched (',' :: b) := fun b => unsearched_of_stops (stops_cons.2 rfl)
  obtain ⟨T, hT, -⟩ := hS.transfer (hcomma []) (hcomma (b ++ ')' :: r)) (.inr rfl)
    fun _ _ h => callBefore_comma _ h
  have htrim : trimStart (b ++ ')' :: r) = ')' :: r := trimStart_append hb (stops_cons.2 rfl)
  have hstep : step .outside ',' (b ++ ')' :: r) = ⟨[','], .keeps, .outside, ')' :: r⟩ := by
    have hkey : bareKey? (')' :: r) = none := rfl
    simp [step, outsideStep, quoteKey, htrim, hkey, atClose]
  have hitem : Run .outside (',' :: (b ++ ')' :: r)) _ .outside (')' :: r) :=
    .step (by rw [hstep]; exact .done)
  have htext : p ++ ',' :: b ++ ')' :: r = p ++ ',' :: (b ++ ')' :: r) := by simp
  exact ⟨_, htext ▸ hT.trans hitem⟩

/-- Behind a text with nothing foreign in its strict form, the pass comes to a parenthesis outside
of strings. -/
theorem reaches_paren_of_free (hbalanced : isBalanced s = true)
    (hfree : Free isForeign (normalize s)) (r : List Char) : Reaches s (')' :: r) := by
  by_cases hcomma : (trimEnd s).getLast? = some ','
  · obtain ⟨p, hp⟩ := List.getLast?_eq_some_iff.1 hcomma
    obtain ⟨b, hs, hb⟩ := exists_dropWhileEnd_append isBlank s
    rw [← trimEnd, hp, List.append_assoc, List.singleton_append] at hs
    rw [hs] at hbalanced ⊢
    exact reaches_paren_of_comma hb hbalanced r
  · obtain ⟨m', hrun⟩ := exists_run .outside s
    obtain rfl : m' = .outside := hrun.mode_of_endsBalanced hbalanced
    rw [← List.append_nil s] at hrun hfree
    have hend : Unsearched [] := unsearched_of_stops stops_nil
    have hparen : Unsearched (')' :: r) := unsearched_of_stops (stops_cons.2 rfl)
    obtain ⟨T, hT, -⟩ := hrun.transfer hend hparen (.inl (noFinalComma_of_trimEnd hcomma)) <| by
      intro q c t S S' hs hbefore hbehind
      rw [hs, List.append_assoc] at hbefore hfree
      refine callBefore_of_free hfree hbefore hbehind fun d hd => ?_
      obtain rfl : ')' = d := by simpa using hd
      exact ⟨by decide, by decide⟩
    exact ⟨T, hT⟩

end Dialect

namespace ArgumentText

variable {a : String} {ws : List Value}

/-- The pass comes to a parenthesis behind a text that was read. -/
theorem reaches_paren (ha : read a = .ok ws) (r : List Char) : Reaches a.toList (')' :: r) := by
  by_cases htrim : trim a.toList = []
  · obtain ⟨S, hS, -⟩ := Passes.blanks (r := ')' :: r) (trim_eq_nil_iff.1 htrim)
    exact ⟨S, hS⟩
  · exact reaches_paren_of_free (isBalanced_of_read ha) (free_of_read ha htrim) r

/-- No arguments are read from a text with a parenthesis behind one that was read. -/
theorem read_paren_ne (ha : read a = .ok ws) (b : String) (vs : List Value) :
    read (a ++ ")" ++ b) ≠ .ok vs := by
  intro h
  obtain ⟨S, hS⟩ := reaches_paren ha b.toList
  have hparen : normalize (')' :: b.toList) = ')' :: normalize b.toList :=
    normalize_copy rfl (constructor?_eq_none rfl)
  have htext : (a ++ ")" ++ b).toList = a.toList ++ ')' :: b.toList := by simp
  have htrim : trim (a ++ ")" ++ b).toList ≠ [] := by
    intro hnil
    have hblank := trim_eq_nil_iff.1 hnil ')' (by simp)
    cases hblank
  have hfree := free_of_read h htrim
  rw [htext, hS.normalize_eq, hparen] at hfree
  exact hfree.not_mem_at hS.traced_start.1 rfl

/-- Arguments with a closing parenthesis between two parts are kept as one text. -/
theorem values_paren (ha : read a = .ok ws) (b : String) :
    values (a ++ ")" ++ b) = [.text (trimmed (a ++ ")" ++ b))] := by
  cases h : read (a ++ ")" ++ b) with
  | ok vs => exact absurd h (read_paren_ne ha b vs)
  | error fault => exact values_of_error h

/-- **A chained call is not taken for its first call.** Let arguments be read from a text, and let
it stand in front of a parenthesis and any other text. Then no arguments are read from the whole,
which counts as one argument itself. So it is in a line that is a call with this text, whatever its
path and its method are; and if the line calls `aggregate` on a collection, it is refused in every
read-only session, which stays as it is. -/
theorem values_chained (ha : read a = .ok ws) (b : String) :
    (∃ fault, read (a ++ ")" ++ b) = .error fault) ∧
      values (a ++ ")" ++ b) = [.text (trimmed (a ++ ")" ++ b))] ∧
      ∀ line path method blanks,
        Command.CallText (Command.essence line.toList) path method blanks (a ++ ")" ++ b) →
        (Query.ofLine line).args = [.text (trimmed (a ++ ")" ++ b))] ∧
          ∀ name more, path = "db" :: name :: more → method = Method.aggregate →
            ∀ s : Session, s.readOnly = true → s.check (.ofLine line) =
              (⟨.ofLine line, s.database, some (.readOnly Method.aggregate)⟩, s) := by
  have hvalues := values_paren ha b
  refine ⟨?_, hvalues, fun line path method blanks hline => ?_⟩
  · cases h : read (a ++ ")" ++ b) with
    | ok vs => exact absurd h (read_paren_ne ha b vs)
    | error fault => exact ⟨fault, rfl⟩
  have hquery := Command.ofLine_of_callText hline
  rw [hvalues] at hquery
  refine ⟨by rw [hquery], ?_⟩
  rintro name more rfl rfl s hs
  have hreads : Query.readsOnly [.text (trimmed (a ++ ")" ++ b))] = false := rfl
  refine Session.check_of_refusal ?_
  rw [hquery]
  exact Session.refusal?_of_not_readsOnly hs hreads

/-- A pipeline that writes nothing, with a call behind it that brings a quoted parenthesis. -/
theorem values_chained_aggregate :
    read "[]" = .ok [.array []] ∧
      Command.CallText (Command.essence "db.c.aggregate([]).map(')')".toList) ["db", "c"]
        Method.aggregate [] ("[]" ++ ")" ++ ".map(')'") ∧
      (Query.ofLine "db.c.aggregate([]).map(')')").args = [.text "[]).map(')'"] ∧
      (Session.check ⟨"test", true⟩ (.ofLine "db.c.aggregate([]).map(')')")).1.refusal =
        some (.readOnly Method.aggregate) := by
  have hempty : Loose 1 "[]".toList (.array []) := LooseNested.emptyArray (s := []) spaces_nil
  have hread : read "[]" = .ok [.array []] := by
    rw [read_value hempty (by decide)]
    rfl
  have hpath : ∀ name ∈ ["db", "c"], Command.IsName name := by
    intro name hmem
    simp only [List.mem_cons, List.not_mem_nil, or_false] at hmem
    rcases hmem with rfl | rfl <;> exact Command.isName_iff.2 (by decide)
  have hcall : Command.CallText (Command.essence "db.c.aggregate([]).map(')')".toList) ["db", "c"]
      Method.aggregate [] ("[]" ++ ")" ++ ".map(')'") :=
    ⟨by decide, rfl, hpath, Command.isName_iff.2 (by decide), List.forall_mem_nil _⟩
  obtain ⟨-, -, hlines⟩ := values_chained hread ".map(')'"
  obtain ⟨hargs, hrefused⟩ := hlines _ _ _ _ hcall
  refine ⟨hread, hcall, hargs.trans rfl, ?_⟩
  exact congrArg (fun r => r.1.refusal) (hrefused "c" [] rfl rfl ⟨"test", true⟩ rfl)

end ArgumentText

end ShellQuery
