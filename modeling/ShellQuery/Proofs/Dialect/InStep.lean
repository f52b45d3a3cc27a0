import ShellQuery.Proofs.Dialect.Recognition
import ShellQuery.Proofs.Dialect.Trace
import ShellQuery.Proofs.Json.Level
/-!
# The pass in step with strict JSON

The pass counts brackets and strings in the text that it reads. `run_in_step` says that it counts
those of the text that it writes: at each step a reader of strict JSON who follows what was written
so far is in a string exactly when the pass is, and at the level that is the depth of the pass. So
the pass ends balanced exactly if what it has written is balanced (`isBalanced_iff`), and no text
that becomes strict JSON is refused for its balance.

`moves_step` says it of one step: from the zone of its mode, what it writes moves the level as the
step moves the depth, and comes to no other level on the way. A backslash at the end of a text is
the one step behind which the zone is not that of the mode; but it is the last one (`zone_or_cut`).

The depth is an integer here. `Gauge` is the depth in 32 bits with a flag for the times it was below
zero; it says the same of each text that has less than `2 ^ 31` characters (`Gauge.toInt_after`,
`Run.endsBalanced_iff_gauge`).
-/

namespace ShellQuery.Dialect

open Text Json

/-- How far a step moves the depth. -/
def Nesting.change : Nesting → Int
  | .opens => 1
  | .closes => -1
  | .keeps => 0

/-- The depth behind some steps, below zero where more brackets were closed than opened. -/
def depthAfter : List Step → Int
  | [] => 0
  | x :: S => x.nesting.change + depthAfter S

/-- From a zone on, a text moves the level by `k`, and comes to no other level on the way. -/
def Moves (z : Zone) (k : Int) (w : List Char) : Prop :=
  z.level w = k ∧ ∀ n, z.NonnegFrom n w ↔ 0 ≤ n ∧ 0 ≤ n + k

/-- The depth as it is kept in 32 bits, and whether it was below zero behind a closing bracket. -/
structure Gauge where
  depth : Int32
  underflow : Bool

/-- The gauge in front of a text. -/
def Gauge.start : Gauge :=
  ⟨0, false⟩

/-- The gauge behind one more step. -/
def Gauge.next (g : Gauge) (x : Step) : Gauge :=
  match x.nesting with
  | .opens => { g with depth := g.depth + 1 }
  | .closes => ⟨g.depth - 1, g.underflow || decide (g.depth - 1 < 0)⟩
  | .keeps => g

/-- The gauge behind some steps. -/
def Gauge.after (g : Gauge) (S : List Step) : Gauge :=
  S.foldl Gauge.next g

section
variable {m m' : Mode} {z z' : Zone} {c : Char} {s u w r : List Char} {l : Literal}
  {S : List Step} {x : Step} {g : Gauge} {b b' : Bool} {n : Nat}

/-! ## What is written for a step -/

/-- The empty text moves no level. -/
theorem moves_nil : Moves z 0 [] := by
  simp [Moves]

/-- A character in front of a text that keeps the level. -/
theorem Moves.cons (h : Moves (z.next c) 0 w) : Moves z (z.rise c) (c :: w) := by
  obtain ⟨hlevel, hnonneg⟩ := h
  refine ⟨by simp [hlevel], fun n => ?_⟩
  simp [hnonneg]

/-- A scan that has the same brackets open in the end has kept the level. -/
theorem moves_of_follow (h : (⟨z, [], b⟩ : Scan).follow w = some ⟨z', [], b'⟩) : Moves z 0 w := by
  refine ⟨by simpa using Scan.level_follow h, fun n => ?_⟩
  have hnonneg : z.NonnegFrom 0 w := Scan.nonnegFrom_of_follow h
  exact ⟨fun h => ⟨h.nonneg, by simpa using h.nonneg⟩, fun h => hnonneg.mono h.1⟩

/-- Nothing in a string is a bracket. -/
theorem moves_inside (h : Inside w) : Moves .quoted 0 w :=
  moves_of_follow (b := false) (Scan.follow_string h.1)

/-- A quoted key with its colon moves no level. -/
theorem moves_quoteKey (s : List Char) : Moves .outside 0 (quoteKey s).1 := by
  rcases quoteKey_cases s with ⟨a, -, -, h⟩ | ⟨u, key, -, hkey, h⟩
  · rw [h]
    exact moves_nil
  · have hcut : '"' :: (key ++ ['"', ':']) = '"' :: (key ++ ['"']) ++ [':'] := by simp
    have hfollow : (⟨.outside, [], false⟩ : Scan).follow ('"' :: (key ++ ['"']) ++ [':']) =
        some ⟨.outside, [], true⟩ := by
      rw [Scan.follow_append, followed_string (content_key hkey)]
      rfl
    rw [h, hcut]
    exact moves_of_follow hfollow

/-- The spelling of a call moves no level: the braces of a tag object are closed again. -/
theorem moves_spelling (h : Call u l) : Moves .outside 0 l.spelling := by
  obtain ⟨form, s, harg⟩ := h.exists_argument
  exact moves_of_follow (followed_core 1 _ _ harg.core_spelling [] false)

/-- What a step outside of strings writes moves the level as the step moves the depth. -/
theorem moves_outsideStep (c : Char) (s : List Char) :
    Moves .outside (outsideStep c s).nesting.change (outsideStep c s).written := by
  have hkey := moves_quoteKey s
  have hstep := outsideStep_cases c s
  generalize outsideStep c s = x at hstep ⊢
  cases hstep with
  | quote => exact Moves.cons (z := .outside) (c := '"') moves_nil
  | brace => exact Moves.cons (z := .outside) (c := '{') hkey
  | comma => exact Moves.cons (z := .outside) (c := ',') hkey
  | bracket => exact Moves.cons (z := .outside) (c := '[') moves_nil
  | dropped => exact moves_nil
  | close hclose =>
    simp only [atClose, Bool.or_eq_true, beq_iff_eq] at hclose
    rcases hclose with rfl | rfl
    · exact Moves.cons (z := .outside) (c := '}') moves_nil
    · exact Moves.cons (z := .outside) (c := ']') moves_nil
  | call _ hcall => exact moves_spelling hcall
  | copied hmark =>
    have hrise : Zone.outside.rise c = 0 := by
      simp only [isMark, Bool.or_eq_false_iff, beq_eq_false_iff_ne] at hmark
      simp [Zone.rise, hmark]
    have hmoves : Moves .outside (Zone.outside.rise c) [c] := .cons moves_nil
    rwa [hrise] at hmoves

/-- **A step moves the level as it moves the depth.** -/
theorem moves_step (m : Mode) (c : Char) (s : List Char) :
    Moves m.zone (step m c s).nesting.change (step m c s).written := by
  by_cases hm : m = .outside
  · subst hm
    exact moves_outsideStep c s
  have hzone := zone_of_string hm
  have hstep := step_cases_of_string hm c s
  generalize step m c s = x at hstep ⊢
  rw [hzone]
  cases hstep with
  | close | cut | escapedQuote => exact Moves.cons (z := .quoted) moves_nil
  | escaped => exact moves_inside (inside_escapedChar _)
  | innerQuote => exact moves_inside (inside_escape '"')
  | content hb hq => exact moves_inside (inside_content (content_contentChar hq hb))

/-! ## Runs -/

@[simp] theorem depthAfter_nil : depthAfter [] = 0 :=
  rfl

@[simp] theorem depthAfter_cons : depthAfter (x :: S) = x.nesting.change + depthAfter S :=
  rfl

/-- **At each place of a run** a reader of what was written is outside of strings exactly if the
pass is, and the level is the depth. -/
theorem Run.inStep (h : Run m s S m' r) :
    (m.zone.after (S.flatMap Step.written) = .outside ↔ m' = .outside) ∧
      m.zone.level (S.flatMap Step.written) = depthAfter S := by
  induction h with
  | @done m => cases m <;> simp [Mode.zone]
  | @step m m' c s r S hrun ih =>
    have hlevel := (moves_step m c s).1
    rcases zone_or_cut m c s with hzone | ⟨hm, rfl, hstep⟩
    · rw [List.flatMap_cons, Zone.after_append, Zone.level_append, hzone, hlevel, depthAfter_cons]
      exact ⟨ih.1, by rw [ih.2]⟩
    · rw [hstep] at hrun ⊢
      cases hrun
      cases m with
      | outside => exact absurd rfl hm
      | doubleQuoted | singleQuoted => simp [Mode.zone, Zone.next, Zone.rise, Nesting.change]

/-- A run goes on at the depth behind its first step, if that is not below zero. -/
theorem endsBalanced_cons : endsBalanced m n (x :: S) = true ↔
    ∃ k : Nat, (n : Int) + x.nesting.change = k ∧ endsBalanced x.mode k S = true := by
  have hat : ∀ (i : Int) (j : Nat), (n : Int) + i = j →
      (endsBalanced x.mode j S = true ↔
        ∃ k : Nat, (n : Int) + i = k ∧ endsBalanced x.mode k S = true) := by
    intro i j hj
    refine ⟨fun h => ⟨j, hj, h⟩, ?_⟩
    rintro ⟨k, hk, h⟩
    obtain rfl : j = k := by omega
    exact h
  simp only [endsBalanced]
  cases x.nesting with
  | opens => exact hat 1 (n + 1) rfl
  | closes =>
    cases n with
    | zero => simp [Nesting.change]
    | succ n => exact hat (-1) n (by omega)
  | keeps => exact hat 0 n (by omega)

/-- A run ends balanced if it ends outside of strings and at depth zero, and what it writes comes to
no level below zero. -/
theorem Run.endsBalanced_iff (h : Run m s S m' r) (n : Nat) :
    endsBalanced m n S = true ↔
      m' = .outside ∧ n + depthAfter S = 0 ∧ m.zone.NonnegFrom n (S.flatMap Step.written) := by
  by_cases hm' : m' = .outside
  · induction h generalizing n with
    | done => simp [endsBalanced, hm']
    | @step m m' c s r S hrun ih =>
      have hzone : m.zone.after (Dialect.step m c s).written = (Dialect.step m c s).mode.zone := by
        refine (zone_or_cut m c s).resolve_right ?_
        rintro ⟨hm, rfl, hstep⟩
        rw [hstep] at hrun
        cases hrun
        exact hm hm'
      obtain ⟨hlevel, hnonneg⟩ := moves_step m c s
      rw [endsBalanced_cons, List.flatMap_cons, nonnegFrom_append, hzone, hlevel, hnonneg,
        depthAfter_cons, ← add_assoc]
      refine ⟨?_, ?_⟩
      · rintro ⟨k, hk, h⟩
        obtain ⟨-, hdepth, hbehind⟩ := (ih k hm').1 h
        rw [hk]
        exact ⟨hm', hdepth, ⟨Int.natCast_nonneg n, Int.natCast_nonneg k⟩, hbehind⟩
      · rintro ⟨-, hdepth, ⟨-, hk⟩, hbehind⟩
        obtain ⟨k, hk⟩ := Int.eq_ofNat_of_zero_le hk
        rw [hk] at hdepth hbehind
        exact ⟨k, hk, (ih k hm').2 ⟨hm', hdepth, hbehind⟩⟩
  · have hopen : ¬endsBalanced m n S = true := fun hends => hm' (h.mode_of_endsBalanced hends)
    simp [hm', hopen]

/-- **A text is balanced exactly if what is written for it is.** -/
theorem isBalanced_iff : isBalanced s = true ↔ Balanced (normalize s) := by
  obtain ⟨m', hrun⟩ := exists_run .outside s
  obtain ⟨hzone, hlevel⟩ := hrun.inStep
  have hends := hrun.endsBalanced_iff 0
  rw [Int.natCast_zero, zero_add, ← hzone, ← hlevel] at hends
  rw [isBalanced, hends]
  refine ⟨?_, fun h => ⟨h.zone, h.level, h.nonneg⟩⟩
  rintro ⟨hafter, hlevel, hnonneg⟩
  exact ⟨hafter, hlevel, hnonneg⟩

/-! ## The depth in 32 bits -/

/-- The gauge behind a step and others. -/
theorem Gauge.after_cons : g.after (x :: S) = (g.next x).after S :=
  rfl

/-- Once below zero, the gauge remembers it. -/
theorem Gauge.underflow_after (h : g.underflow = true) : (g.after S).underflow = true := by
  induction S generalizing g with
  | nil => exact h
  | cons x S ih =>
    refine ih ?_
    unfold Gauge.next
    split <;> simp [h]

/-- No step is taken without a character. -/
theorem Run.length_steps_le (h : Run m s S m' r) : S.length ≤ s.length := by
  induction h with
  | done => exact Nat.zero_le _
  | @step m _ c s _ _ _ ih =>
    have := step_rest_length_le m c s
    rw [List.length_cons, List.length_cons]
    omega

/-- A step moves the depth by one at most. -/
theorem natAbs_change_le (k : Nesting) : k.change.natAbs ≤ 1 := by
  cases k <;> decide

/-- Away from the ends of the range the gauge counts like an integer. -/
theorem Gauge.toInt_next (hmin : -2 ^ 31 < g.depth.toInt) (hmax : g.depth.toInt < 2 ^ 31 - 1) :
    (g.next x).depth.toInt = g.depth.toInt + x.nesting.change := by
  unfold Gauge.next
  cases x.nesting with
  | opens =>
    show (g.depth + 1).toInt = _
    rw [Int32.toInt_add]
    exact Int.bmod_eq_of_le (by simp; omega) (by simp; omega)
  | closes =>
    show (g.depth - 1).toInt = _
    rw [Int32.toInt_sub]
    exact Int.bmod_eq_of_le (by simp; omega) (by simp; omega)
  | keeps => simp [Nesting.change]

/-- While the steps are few enough for 32 bits, the gauge holds the depth. -/
theorem Gauge.toInt_after (hlen : g.depth.toInt.natAbs + S.length < 2 ^ 31) :
    (g.after S).depth.toInt = g.depth.toInt + depthAfter S := by
  induction S generalizing g with
  | nil => simp [Gauge.after]
  | cons x S ih =>
    have hchange := natAbs_change_le x.nesting
    rw [List.length_cons] at hlen
    have hnext : (g.next x).depth.toInt = g.depth.toInt + x.nesting.change :=
      Gauge.toInt_next (by omega) (by omega)
    rw [Gauge.after_cons, ih (by omega), hnext, depthAfter_cons, add_assoc]

/-- From a depth that is not below zero, the flag is raised at a step that goes below. -/
theorem Gauge.underflow_next (hmin : 0 ≤ g.depth.toInt) (hmax : g.depth.toInt < 2 ^ 31 - 1) :
    (g.next x).underflow = (g.underflow || decide (g.depth.toInt + x.nesting.change < 0)) := by
  have hnext := Gauge.toInt_next (x := x) (by omega) hmax
  unfold Gauge.next at hnext ⊢
  cases hx : x.nesting with
  | opens | keeps =>
    have hchange : ¬g.depth.toInt + x.nesting.change < 0 := by
      rw [hx, Nesting.change]
      omega
    simp [← hx, hchange]
  | closes =>
    simp only [hx] at hnext
    simp [Int32.lt_iff_toInt_lt, hnext]

/-- **The gauge tells whether a run ends balanced.** -/
theorem Run.endsBalanced_iff_gauge (h : Run m s S m' r) (hn : g.depth.toInt = n)
    (hu : g.underflow = false) (hlen : n + S.length < 2 ^ 31) :
    endsBalanced m n S = true ↔
      m' = .outside ∧ (g.after S).depth = 0 ∧ (g.after S).underflow = false := by
  induction h generalizing g n with
  | done =>
    have hzero : g.depth = 0 ↔ n = 0 := by
      rw [← Int32.toInt_inj, hn]
      exact Int.natCast_eq_zero
    simp [endsBalanced, Gauge.after, hzero, hu]
  | @step m m' c s r S hrun ih =>
    have hchange := natAbs_change_le (Dialect.step m c s).nesting
    rw [List.length_cons] at hlen
    have hnext : (g.next (Dialect.step m c s)).depth.toInt = _ :=
      Gauge.toInt_next (by omega) (by omega)
    have hflag : (g.next (Dialect.step m c s)).underflow = _ :=
      Gauge.underflow_next (by omega) (by omega)
    rw [hn] at hnext hflag
    rw [endsBalanced_cons, Gauge.after_cons]
    by_cases hbelow : (n : Int) + (Dialect.step m c s).nesting.change < 0
    · have hraised := Gauge.underflow_after (S := S) (hflag.trans (by simp [hbelow]))
      have hnone : ∀ k : Nat, (n : Int) + (Dialect.step m c s).nesting.change ≠ k := by omega
      simp [hraised, hnone]
    · obtain ⟨k, hk⟩ := Int.eq_ofNat_of_zero_le (Int.not_lt.1 hbelow)
      rw [← ih (hnext.trans hk) (hflag.trans (by simp [hu, hbelow])) (by omega), hk]
      refine ⟨?_, fun h => ⟨k, rfl, h⟩⟩
      rintro ⟨j, hj, h⟩
      obtain rfl : k = j := by omega
      exact h

/-! ## Main result -/

/-- **The pass stays in step with a reader of strict JSON.** For a text of less than `2 ^ 31`
characters, and at each place of the run over it, who reads what was written so far is in a string
exactly if the pass is, and has seen outside of strings as many more opening brackets than closing
ones as the depth says. With this depth and its flag the text is balanced exactly if the pass ends
outside of strings, at depth zero and with no flag. It is balanced exactly if what is written is,
and whenever what is written is strict JSON of any depth between two square brackets. -/
theorem run_in_step (hlen : s.length < 2 ^ 31) :
    (∀ S m r, Run .outside s S m r →
      (Zone.outside.after (S.flatMap Step.written) ≠ .outside ↔ m ≠ .outside) ∧
        Zone.outside.level (S.flatMap Step.written) = (Gauge.start.after S).depth.toInt) ∧
      (∀ S m, Run .outside s S m [] → (isBalanced s = true ↔ m = .outside ∧
        (Gauge.start.after S).depth = 0 ∧ (Gauge.start.after S).underflow = false)) ∧
      (isBalanced s = true ↔ Balanced (normalize s)) ∧
      ∀ depth v, Written depth ('[' :: (normalize s ++ [']'])) v → isBalanced s = true := by
  refine ⟨fun S m r hrun => ?_, fun S m hrun => ?_, isBalanced_iff, fun depth v h => ?_⟩
  · have hsteps := hrun.length_steps_le
    obtain ⟨hzone, hlevel⟩ := hrun.inStep
    have hdepth : (Gauge.start.after S).depth.toInt = 0 + depthAfter S :=
      Gauge.toInt_after (g := .start) (by simp [Gauge.start]; omega)
    rw [hdepth, zero_add]
    exact ⟨not_congr hzone, hlevel⟩
  · have hsteps := hrun.length_steps_le
    have hends := hrun.endsBalanced_iff_gauge (g := .start) (n := 0) rfl rfl (by omega)
    rw [isBalanced, hrun.steps_eq, steps_nil, List.append_nil]
    exact hends
  · exact isBalanced_iff.2 (balanced_of_written h)

/-- A backslash ends the text, in a string behind two open brackets. -/
theorem run_in_step_open_string :
    ['[', '{', 'a', ':', ' ', '\'', '"', ']', '\\'].length < 2 ^ 31 ∧
      ∃ S, Run .outside ['[', '{', 'a', ':', ' ', '\'', '"', ']', '\\'] S .singleQuoted [] ∧
        Zone.outside.after (S.flatMap Step.written) ≠ .outside ∧
        Zone.outside.level (S.flatMap Step.written) = (Gauge.start.after S).depth.toInt ∧
        (Gauge.start.after S).depth = 2 ∧
        isBalanced ['[', '{', 'a', ':', ' ', '\'', '"', ']', '\\'] ≠ true := by
  have hrun : Run .outside ['[', '{', 'a', ':', ' ', '\'', '"', ']', '\\'] _ .singleQuoted [] :=
    .step (.step (.step (.step (.step (.step (.step .done))))))
  have hlen : ['[', '{', 'a', ':', ' ', '\'', '"', ']', '\\'].length < 2 ^ 31 := by decide
  obtain ⟨hplace, hend, -, -⟩ := run_in_step hlen
  obtain ⟨hzone, hlevel⟩ := hplace _ _ _ hrun
  refine ⟨hlen, _, hrun, hzone.2 nofun, hlevel, rfl, fun h => ?_⟩
  cases ((hend _ _ hrun).1 h).1

end

end ShellQuery.Dialect
