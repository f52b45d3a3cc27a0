import ShellQuery.Proofs.Dialect.Transfer
import ShellQuery.Proofs.Json.Nesting
/-!
# Texts that go on

`passes_before` says when a text means the same in front of a comma and more text: if it is
balanced, and if each of its commas is followed by something else than blanks. The run to the end of
the text is one to the comma, too (`Run.transfer`), because a balanced text ends outside of strings.

Behind a comma, a list of values is passed over as at the front of a text: blanks are skipped, and
no closing bracket and no bare key is found (`passes_comma`).
-/

namespace ShellQuery.Dialect

open Text Decimal Json

section
variable {m m' : Mode} {s r : List Char} {S : List Step} {depth : Nat}

/-! ## More text behind -/

/-- The empty run is balanced outside of strings and at depth zero only. -/
theorem endsBalanced_nil (h : endsBalanced m depth [] = true) : m = .outside ∧ depth = 0 := by
  simpa [endsBalanced] using h

/-- What is left of a balanced run behind a step is balanced, from some depth. -/
theorem endsBalanced_tail {x : Step} (h : endsBalanced m depth (x :: S) = true) :
    ∃ d, endsBalanced x.mode d S = true := by
  unfold endsBalanced at h
  split at h
  · exact ⟨_, h⟩
  · cases h
  · exact ⟨_, h⟩
  · exact ⟨_, h⟩

/-- A balanced run ends outside of strings. -/
theorem Run.mode_of_endsBalanced (hrun : Run m s S m' r)
    (h : endsBalanced m depth S = true) : m' = .outside := by
  induction hrun generalizing depth with
  | done => exact (endsBalanced_nil h).1
  | step _ ih =>
    obtain ⟨d, hd⟩ := endsBalanced_tail h
    exact ih hd

/-- Behind a balanced run the depth is what it was in front of it. -/
theorem endsBalanced_append (h : endsBalanced m depth S = true) (k : Nat) (more : List Step) :
    endsBalanced m (depth + k) (S ++ more) = endsBalanced .outside k more := by
  induction S generalizing m depth with
  | nil =>
    obtain ⟨rfl, rfl⟩ := endsBalanced_nil h
    rw [Nat.zero_add]
    rfl
  | cons x S ih =>
    simp only [endsBalanced, List.cons_append] at h ⊢
    cases hx : x.nesting with
    | opens =>
      rw [hx] at h
      rw [← ih h]
      simp only [Nat.add_right_comm]
    | closes =>
      cases depth with
      | zero => simp [hx] at h
      | succ depth =>
        rw [hx] at h
        rw [← ih h]
        simp only [Nat.add_right_comm]
    | keeps =>
      rw [hx] at h
      exact ih h

/-- **A text means the same in front of a comma.** Over a balanced text with no comma at its end,
the pass writes in front of a comma what it writes over the text alone. -/
theorem passes_before (hbalanced : isBalanced s = true) (hcomma : NoFinalComma s) (r : List Char) :
    Passes .outside s (normalize s) .outside (',' :: r) := by
  obtain ⟨m', hrun⟩ := exists_run .outside s
  obtain rfl : m' = .outside := hrun.mode_of_endsBalanced hbalanced
  rw [← List.append_nil s] at hrun
  obtain ⟨S, hS, halike⟩ := hrun.transfer (unsearched_of_stops stops_nil)
    (unsearched_of_stops (stops_cons.2 rfl)) (.inl hcomma) fun _ _ h => callBefore_comma r h
  rw [List.append_nil] at halike hrun
  refine ⟨S, hS, (written_alike halike).symm, fun depth more => ?_⟩
  have hlevel := endsBalanced_append hbalanced depth more
  rw [Nat.zero_add] at hlevel
  rw [← hlevel, hrun.endsBalanced_alike halike (fun _ => rfl)]

/-- The pass over a balanced text ends outside of strings. -/
theorem passes_of_isBalanced (hbalanced : isBalanced s = true) :
    Passes .outside s (normalize s) .outside [] := by
  obtain ⟨m', hrun⟩ := exists_run .outside s
  obtain ⟨rfl⟩ : m' = .outside := hrun.mode_of_endsBalanced hbalanced
  refine ⟨_, by rwa [List.append_nil], rfl, fun depth more => ?_⟩
  have hlevel := endsBalanced_append hbalanced depth more
  rwa [Nat.zero_add] at hlevel

/-! ## Lists behind a comma -/

/-- A word in front of a colon is copied. -/
theorem Passes.word {w b : List Char} (hw : ∀ c ∈ w, isKeyChar c = true) (hb : Blanks b) :
    Passes .outside w w .outside (b ++ ':' :: r) := by
  induction w with
  | nil => exact .nil
  | cons c w ih =>
    rw [List.forall_mem_cons] at hw
    have hmark := isMark_of_isCallChar (isCallChar_of_isKeyChar hw.1)
    refine .step (w := [c]) (outsideStep_copy hmark ?_) (ih hw.2)
    cases hc : isKeyStart c with
    | false =>
      refine constructor?_eq_none ?_
      cases hopens : opensCall c with
      | false => rfl
      | true =>
        simp only [opensCall, Bool.or_eq_true, beq_iff_eq] at hopens
        rcases hopens with (((rfl | rfl) | rfl) | rfl) | rfl <;> cases hc
    | true =>
      -- No call is a key, and with its colon the word is one.
      refine Option.eq_none_iff_forall_ne_some.2 ?_
      rintro ⟨l, x⟩ hfound
      obtain ⟨u, hu, hcall⟩ := constructor?_eq_some_iff.1 hfound
      have hkey := bareKey?_key (r := r) hc hw.2 hb
      rw [hu, bareKey?_call hcall] at hkey
      cases hkey

/-- A bare key that the pass does not look for is copied. -/
theorem bareKey?_normalize {key : List Char} (h : bareKey? s = some (key, r)) :
    bareKey? (normalize s) = some (key, normalize r) := by
  obtain ⟨c, w, b, rfl, hc, hw, hb, rfl⟩ := bareKey?_eq_some h
  have hword : Passes .outside (c :: w) (c :: w) .outside (b ++ ':' :: r) :=
    .word (List.forall_mem_cons.2 ⟨isKeyChar_of_isKeyStart hc, hw⟩) hb
  have hcolon : Passes .outside [':'] [':'] .outside r :=
    .copy (by simp [isCopied, isMark, opensCall])
  have hbehind : normalize (b ++ ':' :: r) = b ++ ':' :: normalize r := by
    simpa using ((Passes.blanks hb).append hcolon).normalize_append.1
  rw [← List.cons_append, hword.normalize_append.1, hbehind]
  exact bareKey?_key hc hw hb

/-- A list of strict values begins with no bare key. -/
theorem bareKey?_of_items {vs : List Json} (h : Items (Core depth) s vs) :
    bareKey? (trimStart s) = none := by
  have hitem : ∀ {u r : List Char} {v : Json}, Padded (Core depth) u v → Ends r →
      bareKey? (trimStart (u ++ r)) = none := by
    rintro _ r v ⟨ha, hv, hb⟩ hr
    rename_i a u b
    obtain ⟨c, x, rfl, hc⟩ := opens_core depth u v hv
    have htrim : trimStart (a ++ (c :: x ++ b) ++ r) = c :: x ++ (b ++ r) := by
      rw [List.append_assoc, List.append_assoc]
      exact trimStart_append (blanks_of_spaces ha) (stops_cons.2 (apart_of_opensValue hc).1)
    rw [htrim]
    exact (Loose.kept depth).noKey (Loose.of_core hv) hb hr
  cases h with
  | last hv =>
    have hnone := hitem (r := []) hv (by simp [Ends])
    rwa [List.append_nil] at hnone
  | more hv _ => exact hitem hv (ends_cons.2 (.inl rfl))

/-- Blanks in front of a list belong to its first item. -/
theorem items_of_blanks {a : List Char} {vs : List Json} (ha : Blanks a)
    (h : Items (Core depth) (a ++ s) vs) : Items (Core depth) s vs := by
  have hitem : ∀ {u r : List Char} {v : Json}, Padded (Core depth) u v → a ++ s = u ++ r →
      ∃ u', s = u' ++ r ∧ Padded (Core depth) u' v := by
    rintro _ r v ⟨hx, hv, hb⟩ hcut
    rename_i x u b
    rw [List.append_assoc] at hcut
    rcases List.append_eq_append_iff.1 hcut with ⟨y, rfl, hy⟩ | ⟨y, rfl, hy⟩
    · refine ⟨y ++ (u ++ b), by rw [hy, ← List.append_assoc], .mk ?_ hv hb⟩
      exact fun c hc => hx c (List.mem_append_right _ hc)
    · obtain ⟨c, w, rfl, hc⟩ := opens_core depth u v hv
      cases y with
      | nil => exact ⟨c :: w ++ b, hy.symm, .mk (a := []) spaces_nil hv hb⟩
      | cons d y =>
        obtain ⟨rfl, -⟩ := List.cons.inj hy
        have hblank := ha c (by simp)
        rw [(apart_of_opensValue hc).1] at hblank
        cases hblank
  generalize hcut : a ++ s = t at h
  cases h with
  | last hv =>
    obtain ⟨u, rfl, hu⟩ := hitem (r := []) hv (by rw [hcut, List.append_nil])
    rw [List.append_nil]
    exact .last hu
  | more hv hvs =>
    obtain ⟨u, rfl, hu⟩ := hitem hv hcut
    exact .more hu hvs

/-- **Behind a comma a list is passed over as at the front of a text.** -/
theorem passes_comma {vs : List Json} (hbalanced : isBalanced s = true)
    (hitems : Items (Core depth) (normalize s) vs) :
    ∃ out, Items (Core depth) out vs ∧ Passes .outside (',' :: s) (',' :: out) .outside [] := by
  obtain ⟨a, hs, ha, hstop⟩ := exists_blanks_trimStart s
  obtain ⟨hnormalize, hbalanced'⟩ := (Passes.blanks (r := trimStart s) ha).normalize_append
  rw [← hs] at hnormalize hbalanced'
  rw [hnormalize] at hitems
  rw [hbalanced'] at hbalanced
  have hlist := items_of_blanks ha hitems
  have hclose : atClose (trimStart s) = false := by
    cases htrim : trimStart s with
    | nil =>
      rw [htrim, normalize_nil] at hlist
      exact absurd spaces_nil (not_spaces_of_items hlist)
    | cons c u =>
      cases hc : atClose (c :: u) with
      | false => rfl
      | true =>
        -- A closing bracket closes nothing here.
        simp only [atClose, Bool.or_eq_true, beq_iff_eq] at hc
        rw [htrim, isBalanced, steps_cons] at hbalanced
        rcases hc with rfl | rfl <;> simp [step, outsideStep, endsBalanced] at hbalanced
  have hkey : bareKey? (trimStart s) = none := by
    refine Option.eq_none_iff_forall_ne_some.2 ?_
    rintro ⟨key, r⟩ hfound
    have hcopy := bareKey?_normalize hfound
    obtain ⟨c, w, b, -, hc, -, -, hcut⟩ := bareKey?_eq_some hcopy
    have hnone := bareKey?_of_items hlist
    rw [trimStart, dropWhile_of_stops (by rw [hcut]; exact stops_cons.2 (isBlank_of_isKeyStart hc)),
      hcopy] at hnone
    cases hnone
  refine ⟨normalize (trimStart s), hlist, .step (w := [',']) ?_ (passes_of_isBalanced hbalanced)⟩
  simp [step, outsideStep, hclose, quoteKey, hkey]

end

end ShellQuery.Dialect
