import ShellQuery.Dialect.Scan
import ShellQuery.Proofs.Dialect.Constructor
/-!
# Runs of the pass

`Run m s S m' r` is the pass as a relation: from mode `m` in front of `s`, the steps `S` lead to
mode `m'` in front of `r`. A step may look at the text behind the part it rewrites, so a part of a
text is judged with what follows it in place: `Passes m s out m' r` says that, in front of `r`, the
pass rewrites `s` to `out` and closes every bracket it opens on the way. Such judgments compose
(`Passes.append`, `Passes.enclosed`), and `Passes.normalize` reads off what they say of a whole
text.
-/

namespace ShellQuery.Dialect

open Text

/-- The steps of the pass from one mode and text to another. -/
inductive Run : Mode → List Char → List Step → Mode → List Char → Prop
  | done {m : Mode} {s : List Char} : Run m s [] m s
  | step {m m' : Mode} {c : Char} {s r : List Char} {S : List Step} :
      Run (step m c s).mode (step m c s).rest S m' r → Run m (c :: s) (step m c s :: S) m' r

/-- In front of `r`, the pass rewrites `s` to `out` and goes on in mode `m'`; brackets that are
opened on the way are closed again, and no other ones. -/
def Passes (m : Mode) (s out : List Char) (m' : Mode) (r : List Char) : Prop :=
  ∃ S, Run m (s ++ r) S m' r ∧ S.flatMap Step.written = out ∧
    ∀ depth more, endsBalanced m depth (S ++ more) = endsBalanced m' depth more

section
variable {m m' m'' : Mode} {s u t out out' r : List Char} {c : Char} {S T : List Step}

/-! ## Runs -/

/-- There is no step at the end of the text. -/
theorem steps_nil (m : Mode) : steps m [] = [] := by
  rw [steps]

/-- The steps over a text are its first step and the steps over what that leaves. -/
theorem steps_cons (m : Mode) (c : Char) (s : List Char) :
    steps m (c :: s) = step m c s :: steps (step m c s).mode (step m c s).rest := by
  rw [steps]

/-- The steps over a text are those of a run and the steps from where it ends. -/
theorem Run.steps_eq (h : Run m s S m' r) : steps m s = S ++ steps m' r := by
  induction h with
  | done => rfl
  | step _ ih => rw [steps_cons, ih, List.cons_append]

/-- Runs one after the other are a run. -/
theorem Run.trans (h : Run m s S m' r) (h' : Run m' r T m'' t) : Run m s (S ++ T) m'' t := by
  induction h with
  | done => exact h'
  | step _ ih => exact .step (ih h')

/-- A run never goes back. -/
theorem Run.length_le (h : Run m s S m' r) : r.length ≤ s.length := by
  induction h with
  | done => exact Nat.le_refl _
  | @step m _ c s _ _ _ ih =>
    have := step_rest_length_le m c s
    rw [List.length_cons]
    omega

/-- Every text is run through to its end. -/
theorem exists_run (m : Mode) (s : List Char) : ∃ m', Run m s (steps m s) m' [] := by
  induction hn : s.length using Nat.strong_induction_on generalizing m s with
  | _ n ih =>
    cases s with
    | nil => exact ⟨m, by rw [steps_nil]; exact .done⟩
    | cons c s =>
      have hlt : (step m c s).rest.length < n := by
        have := step_rest_length_le m c s
        rw [List.length_cons] at hn
        omega
      obtain ⟨m', h⟩ := ih _ hlt (step m c s).mode (step m c s).rest rfl
      exact ⟨m', by rw [steps_cons]; exact .step h⟩

/-- Nothing is written for the empty text. -/
theorem normalize_nil : normalize [] = [] := by
  rw [normalize, steps_nil]
  rfl

/-- The first step is outside of strings, and the others follow from where it ends. -/
theorem normalize_cons (c : Char) (s : List Char) : normalize (c :: s) =
    (outsideStep c s).written ++
      (steps (outsideStep c s).mode (outsideStep c s).rest).flatMap Step.written := by
  rw [normalize, steps_cons, List.flatMap_cons]
  rfl

/-- A closing bracket is copied. -/
theorem normalize_close (hc : atClose (c :: s) = true) : normalize (c :: s) = c :: normalize s := by
  simp only [atClose, Bool.or_eq_true, beq_iff_eq] at hc
  rw [normalize_cons]
  rcases hc with rfl | rfl <;> rfl

/-- What is written is what the first steps write, and what is written for the rest. -/
theorem Run.normalize_eq (h : Run .outside s S .outside r) :
    normalize s = S.flatMap Step.written ++ normalize r := by
  rw [normalize, h.steps_eq, List.flatMap_append, normalize]

/-! ## Judgments on parts of a text -/

/-- Over no text the pass writes nothing. -/
theorem Passes.nil : Passes m [] [] m r :=
  ⟨[], .done, rfl, fun _ _ => rfl⟩

/-- The pass over two parts writes what it writes for each. -/
theorem Passes.append (h : Passes m s out m' (t ++ r)) (h' : Passes m' t out' m'' r) :
    Passes m (s ++ t) (out ++ out') m'' r := by
  obtain ⟨S, hS, rfl, hlevel⟩ := h
  obtain ⟨T, hT, rfl, hlevel'⟩ := h'
  refine ⟨S ++ T, ?_, List.flatMap_append, fun depth more => ?_⟩
  · rw [List.append_assoc]
    exact hS.trans hT
  · rw [List.append_assoc, hlevel, hlevel']

/-- A step and what follows it. The step may skip blanks, so `u` is what it leaves of `s`. -/
theorem Passes.step {w : List Char} (hstep : step m c (s ++ r) = ⟨w, .keeps, m', u ++ r⟩)
    (h : Passes m' u out m'' r) : Passes m (c :: s) (w ++ out) m'' r := by
  obtain ⟨S, hS, rfl, hlevel⟩ := h
  refine ⟨Dialect.step m c (s ++ r) :: S, ?_, ?_, fun depth more => ?_⟩
  · rw [List.cons_append]
    exact .step (by rw [hstep]; exact hS)
  · rw [List.flatMap_cons, hstep]
  · rw [List.cons_append, hstep]
    exact hlevel depth more

/-- A step that reads one character. -/
theorem Passes.single {w : List Char} (hstep : Dialect.step m c r = ⟨w, .keeps, m', r⟩) :
    Passes m [c] w m' r := by
  have h := Passes.step (s := []) (u := []) hstep (Passes.nil (r := r))
  rwa [List.append_nil] at h

/-- Brackets around a text. The step at the opening one may skip blanks and quote a key. -/
theorem Passes.enclosed {w : List Char} {d : Char}
    (hopen : Dialect.step .outside c (s ++ d :: r) = ⟨w, .opens, .outside, u ++ d :: r⟩)
    (h : Passes .outside u out .outside (d :: r)) (hd : d = '}' ∨ d = ']') :
    Passes .outside (c :: (s ++ [d])) (w ++ (out ++ [d])) .outside r := by
  obtain ⟨S, hS, rfl, hlevel⟩ := h
  have hclose : Dialect.step .outside d r = ⟨[d], .closes, .outside, r⟩ := by
    rcases hd with rfl | rfl <;> rfl
  have hlast : Run .outside (d :: r) [Dialect.step .outside d r] .outside r := by
    have hdone : Run (Dialect.step .outside d r).mode (Dialect.step .outside d r).rest []
        .outside r := by
      rw [hclose]
      exact .done
    exact .step hdone
  have hcut : c :: (s ++ [d]) ++ r = c :: (s ++ d :: r) := by simp
  refine ⟨Dialect.step .outside c (s ++ d :: r) :: (S ++ [Dialect.step .outside d r]), ?_, ?_,
    fun depth more => ?_⟩
  · rw [hcut]
    exact .step (by rw [hopen]; exact hS.trans hlast)
  · rw [List.flatMap_cons, List.flatMap_append, List.flatMap_singleton, hopen, hclose]
  · rw [List.cons_append, List.append_assoc, hopen]
    show endsBalanced .outside (depth + 1) (S ++ ([Dialect.step .outside d r] ++ more)) = _
    rw [hlevel, hclose]
    rfl

/-- What a judgment on a whole text says. -/
theorem Passes.normalize (h : Passes .outside s out .outside []) :
    Dialect.normalize s = out ∧ isBalanced s = true := by
  obtain ⟨S, hS, rfl, hlevel⟩ := h
  rw [List.append_nil] at hS
  refine ⟨?_, ?_⟩
  · rw [hS.normalize_eq, normalize_nil, List.append_nil]
  · have hend := hlevel 0 []
    rw [isBalanced, hS.steps_eq, steps_nil, hend]
    rfl

/-- What a judgment on the front of a text says. -/
theorem Passes.normalize_append (h : Passes .outside s out .outside r) :
    Dialect.normalize (s ++ r) = out ++ Dialect.normalize r ∧
      isBalanced (s ++ r) = isBalanced r := by
  obtain ⟨S, hS, rfl, hlevel⟩ := h
  refine ⟨hS.normalize_eq, ?_⟩
  rw [isBalanced, hS.steps_eq, hlevel, isBalanced]

/-! ## Steps outside of strings -/

/-- The characters the pass does not copy outside of strings. -/
def isMark (c : Char) : Bool :=
  c == '"' || c == '\'' || c == '{' || c == '[' || c == '}' || c == ']' || c == ','

/-- What is no mark and begins no call is copied. -/
theorem outsideStep_copy (hc : isMark c = false) (hcall : constructor? (c :: s) = none) :
    outsideStep c s = ⟨[c], .keeps, .outside, s⟩ := by
  simp only [isMark, Bool.or_eq_false_iff] at hc
  obtain ⟨⟨⟨⟨⟨⟨h₁, h₂⟩, h₃⟩, h₄⟩, h₅⟩, h₆⟩, h₇⟩ := hc
  simp [outsideStep, h₁, h₂, h₃, h₄, h₅, h₆, h₇, hcall]

/-- A recognized call is replaced by what it denotes. -/
theorem outsideStep_call {l : Literal} (hc : opensCall c = true)
    (hcall : constructor? (c :: s) = some (l, r)) :
    outsideStep c s = ⟨l.spelling, .keeps, .outside, r⟩ := by
  simp only [opensCall, Bool.or_eq_true, beq_iff_eq] at hc
  rcases hc with (((rfl | rfl) | rfl) | rfl) | rfl <;> simp [outsideStep, hcall]

/-- A constructor call is replaced by its spelling. -/
theorem Passes.call {l : Literal} (h : Call s l) : Passes .outside s l.spelling .outside r := by
  obtain ⟨c, v, rfl, hc⟩ := h.eq_cons
  have hcall : constructor? (c :: (v ++ r)) = some (l, r) := constructor?_append h r
  have hpass := Passes.step (m := .outside) (s := v) (u := []) (outsideStep_call hc hcall)
    (Passes.nil (r := r))
  rwa [List.append_nil] at hpass

/-- Characters that are copied whatever stands behind them. -/
def isCopied (c : Char) : Bool :=
  !isMark c && !opensCall c

/-- Characters that mean nothing to the pass are copied. -/
theorem Passes.copy (hs : ∀ c ∈ s, isCopied c = true) : Passes .outside s s .outside r := by
  induction s with
  | nil => exact .nil
  | cons c s ih =>
    have hc := hs c List.mem_cons_self
    simp only [isCopied, Bool.and_eq_true, Bool.not_eq_eq_eq_not, Bool.not_true] at hc
    exact .step (w := [c]) (outsideStep_copy hc.1 (constructor?_eq_none hc.2))
      (ih fun d hd => hs d (List.mem_cons_of_mem _ hd))

end

end ShellQuery.Dialect
