import ShellQuery.Proofs.Dialect.Trace
import ShellQuery.Proofs.Json.Foreign
/-!
# The names of calls are foreign to strict JSON

A call that the pass recognizes leaves nothing of its name, and one that it does not recognize is
copied from its first letter on. The capital letters and the word `new` that calls begin with are
foreign to strict JSON. So where what is written has nothing foreign, each call that begins has come
to its end, whatever other text stood there (`callBefore_of_free`).
-/

namespace ShellQuery.Dialect

open Text Json

section
variable {α : Type} {argument : Form → List Char → α → Prop} {x : α} {c : Char}
  {p s t u r t₁ t₂ : List Char} {S T : List Step}

/-- A character that is copied is written in front of what is written for the rest. -/
theorem normalize_copy (hc : isMark c = false) (hcall : constructor? (c :: s) = none) :
    normalize (c :: s) = c :: normalize s := by
  rw [normalize_cons, outsideStep_copy hc hcall]
  rfl

/-- A call begins with a foreign letter, or with a word that has one. -/
theorem CallOf.isForeign_or_new (h : CallOf argument u x) :
    ∃ c v, u = c :: v ∧ opensCall c = true ∧
      (isForeign c = true ∨ c = 'n' ∧ ∃ w, v = 'e' :: 'w' :: w) := by
  cases h with
  | plain h =>
    obtain ⟨c, v, rfl, hopens, hn⟩ := h.eq_cons
    refine ⟨c, v, rfl, hopens, .inl ?_⟩
    simp only [opensCall, Bool.or_eq_true, beq_iff_eq] at hopens
    rcases hopens with (((rfl | rfl) | rfl) | rfl) | rfl
    · exact absurd rfl hn
    all_goals rfl
  | new => exact ⟨'n', _, rfl, rfl, .inr ⟨rfl, _, rfl⟩⟩

/-- No text in front of which a call has begun, but not come to its end, is written with nothing
foreign. -/
theorem not_free_of_call (hcall : CallOf argument (c :: (s ++ t)) x)
    (hopen : constructor? (c :: (s ++ r)) = none)
    (ht : ∀ d ∈ t.head?, d ≠ 'e' ∧ d ≠ 'w') (hp : Zone.outside.after p = .outside) :
    ¬Free isForeign (p ++ normalize (c :: (s ++ r))) := by
  intro hfree
  have hcopy : ∀ {d s}, isMark d = false → opensCall d = false →
      normalize (d :: s) = d :: normalize s := fun hmark hopens =>
    normalize_copy hmark (constructor?_eq_none hopens)
  obtain ⟨d, v, hu, hopens, hforeign⟩ := hcall.isForeign_or_new
  obtain ⟨rfl, rfl⟩ := List.cons.inj hu
  have hmark : isMark c = false := by
    simp only [opensCall, Bool.or_eq_true, beq_iff_eq] at hopens
    rcases hopens with (((rfl | rfl) | rfl) | rfl) | rfl <;> rfl
  rw [normalize_copy hmark hopen] at hfree
  rcases hforeign with hforeign | ⟨rfl, x, hx⟩
  · exact hfree.not_mem_at hp hforeign
  -- The word stands in front of the place, or it goes on behind.
  rcases s with _ | ⟨d, _ | ⟨e, s⟩⟩
  · obtain rfl : t = 'e' :: 'w' :: x := hx
    exact (ht 'e' rfl).1 rfl
  · obtain ⟨-, rfl⟩ := List.cons.inj hx
    exact (ht 'w' rfl).2 rfl
  · simp only [List.cons_append, List.cons.injEq] at hx
    obtain ⟨rfl, rfl, -⟩ := hx
    rw [List.cons_append, List.cons_append, hcopy rfl rfl, hcopy rfl rfl, List.append_cons,
      List.append_cons] at hfree
    refine hfree.not_mem_at (c := 'w') ?_ rfl
    rw [Zone.after_append, Zone.after_append, hp]
    rfl

/-- Where a run passes, a call that begins in front of another end does not go on in that, if what
is written has nothing foreign. -/
theorem callBefore_of_free (hfree : Free isForeign (normalize (p ++ (c :: s ++ t₁))))
    (hbefore : Run .outside (p ++ (c :: s ++ t₁)) S .outside (c :: s ++ t₁))
    (hbehind : Run .outside (c :: s ++ t₁) T .outside t₁)
    (ht : ∀ d ∈ t₂.head?, d ≠ 'e' ∧ d ≠ 'w') : CallBefore (c :: s) t₂ := by
  intro l x hfound
  cases hfound₁ : constructor? (c :: s ++ t₁) with
  | some found =>
    obtain ⟨l₁, x₁⟩ := found
    rw [List.cons_append] at hbehind
    obtain ⟨U, -, hU⟩ := hbehind.exists_step (by simp)
    obtain ⟨v, w, hv, -, hcall⟩ := constructor?_reaches (s := c :: s) hfound₁
      (callBefore_of_step hU.length_le rfl l₁ x₁ hfound₁)
    rw [hv, List.append_assoc, constructor?_append hcall] at hfound
    cases hfound
    simp
  | none =>
    obtain ⟨u, hu, hcall⟩ := constructor?_eq_some_iff.1 hfound
    rcases List.append_eq_append_iff.1 hu with ⟨y, rfl, rfl⟩ | ⟨y, -, rfl⟩
    · cases y with
      | nil => simp
      | cons d y =>
        rw [hbefore.normalize_eq] at hfree
        exact absurd hfree (not_free_of_call hcall hfound₁ (by simpa using ht)
          hbefore.traced_start.1)
    · simp

end

end ShellQuery.Dialect
