import ShellQuery.Proofs.Json.Lexing
/-!
# The level of brackets

`Zone.level` counts the brackets that a text opens outside of its strings, less those that it closes
there. A text is `Balanced` if it leaves no string open, comes to no level below zero and ends at
level zero. Which bracket closes which does not matter for this. A scan goes further and knows the
brackets that are open, so their number is the level (`Scan.level_follow`), and what a scan goes
through is balanced; strict JSON is (`balanced_of_written`).
-/

namespace ShellQuery.Json

/-- What one more character does to the level. -/
def Zone.rise : Zone → Char → Int
  | .outside, c => if c = '[' ∨ c = '{' then 1 else if c = ']' ∨ c = '}' then -1 else 0
  | .quoted, _ => 0
  | .escaped, _ => 0

/-- The brackets that a text opens outside of strings, less those that it closes there. -/
def Zone.level (z : Zone) : List Char → Int
  | [] => 0
  | c :: s => z.rise c + (z.next c).level s

/-- From level `n` on, a text comes to no level below zero. -/
def Zone.NonnegFrom (z : Zone) (n : Int) (s : List Char) : Prop :=
  ∀ p, p <+: s → 0 ≤ n + z.level p

/-- A text that leaves no string open, closes outside of strings as many brackets as it opens there,
and closes none before one was opened. -/
structure Balanced (s : List Char) : Prop where
  zone : Zone.outside.after s = .outside
  level : Zone.outside.level s = 0
  nonneg : Zone.outside.NonnegFrom 0 s

section
variable {z : Zone} {x y : Scan} {s t : List Char} {c : Char} {n : Int} {w : Bool} {v : Json}
  {depth : Nat}

/-! ## Levels -/

@[simp] theorem Zone.level_nil : z.level [] = 0 :=
  rfl

@[simp] theorem Zone.level_cons : z.level (c :: s) = z.rise c + (z.next c).level s :=
  rfl

@[simp] theorem Zone.level_append : z.level (s ++ t) = z.level s + (z.after s).level t := by
  induction s generalizing z with
  | nil => simp
  | cons c s ih => simp [ih, add_assoc]

@[simp] theorem nonnegFrom_nil : z.NonnegFrom n [] ↔ 0 ≤ n := by
  simp [Zone.NonnegFrom]

@[simp] theorem nonnegFrom_cons :
    z.NonnegFrom n (c :: s) ↔ 0 ≤ n ∧ (z.next c).NonnegFrom (n + z.rise c) s := by
  simp only [Zone.NonnegFrom, List.prefix_cons_iff]
  refine ⟨fun h => ⟨by simpa using h [] (.inl rfl), fun p hp => ?_⟩, ?_⟩
  · simpa [add_assoc] using h (c :: p) (.inr ⟨p, rfl, hp⟩)
  · rintro ⟨hn, h⟩ p (rfl | ⟨q, rfl, hq⟩)
    · simpa using hn
    · simpa [add_assoc] using h q hq

/-- A text that comes to no level below zero does not begin at one. -/
theorem Zone.NonnegFrom.nonneg (h : z.NonnegFrom n s) : 0 ≤ n := by
  simpa using h [] List.nil_prefix

/-- Two texts come to no level below zero if the first does not, nor the second from there. -/
theorem nonnegFrom_append :
    z.NonnegFrom n (s ++ t) ↔ z.NonnegFrom n s ∧ (z.after s).NonnegFrom (n + z.level s) t := by
  induction s generalizing z n with
  | nil => simpa using fun h : z.NonnegFrom n t => h.nonneg
  | cons c s ih => simp [ih, and_assoc, add_assoc]

/-- From a higher level on, it comes to none either. -/
theorem Zone.NonnegFrom.mono {k : Int} (h : z.NonnegFrom n s) (hk : n ≤ k) :
    z.NonnegFrom k s := by
  intro p hp
  have := h p hp
  omega

/-! ## Scans -/

/-- A scan that is one bracket deeper is one level higher. -/
theorem Scan.rise_next (h : x.next c = some y) :
    x.zone.rise c = (y.opened.length : Int) - x.opened.length := by
  obtain ⟨z, σ, w⟩ := x
  cases z with
  | outside =>
    have hspace : isSpace c = true → Zone.outside.rise c = 0 := by
      intro hc
      rcases isSpace_iff.1 hc with ((rfl | rfl) | rfl) | rfl <;> rfl
    have hcomma : c = ',' ∨ c = ':' → Zone.outside.rise c = 0 := by
      rintro (rfl | rfl) <;> rfl
    simp only [Scan.next] at h
    split_ifs at h with hs ho hc hd hb
    · cases h
      simp [hspace hs]
    · cases h
      simp only [Zone.rise, if_pos ho, List.length_cons]
      omega
    · cases σ with
      | nil => cases h
      | cons o σ =>
        simp only [Option.ite_none_right_eq_some, Option.some.injEq] at h
        obtain ⟨-, rfl⟩ := h
        simp only [Zone.rise, if_neg ho, if_pos hc, List.length_cons]
        omega
    · cases h
      simp [hcomma hd]
    · cases h
      simp [Zone.rise, ho, hc]
  | quoted | escaped =>
    cases h
    simp [Zone.rise]

/-- The level is the number of brackets that a scan has open. -/
theorem Scan.level_follow (h : x.follow s = some y) :
    x.zone.level s = (y.opened.length : Int) - x.opened.length := by
  induction s generalizing x with
  | nil =>
    cases h
    simp
  | cons c s ih =>
    rw [Scan.follow_cons, Option.bind_eq_some_iff] at h
    obtain ⟨x', hx, h⟩ := h
    rw [Zone.level_cons, ← Scan.zone_next hx, ih h, Scan.rise_next hx]
    omega

/-- No scan has less than no bracket open. -/
theorem Scan.nonnegFrom_of_follow (h : x.follow s = some y) :
    x.zone.NonnegFrom x.opened.length s := by
  rintro p ⟨t, rfl⟩
  rw [Scan.follow_append, Option.bind_eq_some_iff] at h
  obtain ⟨x', hp, -⟩ := h
  rw [Scan.level_follow hp]
  omega

/-- What a scan goes through is balanced. -/
theorem balanced_of_follow (h : (⟨.outside, [], w⟩ : Scan).follow s = some y)
    (hzone : y.zone = .outside) (hopened : y.opened = []) : Balanced s where
  zone := (Scan.zone_follow h).symm.trans hzone
  level := by simpa [hopened] using Scan.level_follow h
  nonneg := Scan.nonnegFrom_of_follow h

/-! ## Strict JSON -/

/-- **Strict JSON is balanced between its brackets.** -/
theorem balanced_of_written (h : Written depth ('[' :: (s ++ [']'])) v) : Balanced s := by
  rcases written_array_iff.1 (Padded.mono (fun _ _ => Core.succ) h) with ⟨hs, -⟩ | ⟨vs, hs, -⟩
  · exact balanced_of_follow (Scan.follow_spaces (w := false) hs) rfl rfl
  · exact balanced_of_follow ((followed_core depth).padded.listed s vs hs [] false) rfl rfl

end

end ShellQuery.Json
