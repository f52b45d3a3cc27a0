import Mathlib.Algebra.Group.Int.Defs
import Mathlib.Algebra.Group.Nat.Defs
import Mathlib.Data.List.Nodup
import Mathlib.Data.List.TakeWhile
import Mathlib.Tactic.Common
import ShellQuery.Text
/-!
# Runs of a class of characters

A reader of a run (`takeWhile`, `dropWhile`) stops where the text no longer belongs to the class.
`Stops p r` says that a text stops a run of `p`: it is at its end or begins with a character outside
of the class. The lemmas here cut a text at such a place.
-/

namespace ShellQuery.Text

/-- A text that does not begin with a character of a class. -/
def Stops (p : Char → Bool) (r : List Char) : Prop :=
  ∀ c ∈ r.head?, p c = false

section
variable {p q : Char → Bool} {s r : List Char} {c : Char}

@[simp] theorem stops_nil : Stops p [] := by
  simp [Stops]

@[simp] theorem stops_cons : Stops p (c :: r) ↔ p c = false := by
  simp [Stops]

/-- What stops a class stops each smaller one. -/
theorem Stops.mono (h : Stops p r) (hqp : ∀ c, q c = true → p c = true) : Stops q r := by
  intro c hc
  have hp := h c hc
  cases hq : q c with
  | false => rfl
  | true => exact absurd (hqp c hq) (by simp [hp])

/-- A text that stops a run does not begin with a character of the run. -/
theorem Stops.head?_ne (h : Stops p r) (hc : p c = true) : r.head? ≠ some c := by
  intro hr
  simp [h c hr] at hc

/-- Whether a text stops a class is up to its first character. -/
theorem Stops.append {t : List Char} (h : Stops p (t ++ s)) (hr : Stops p r) :
    Stops p (t ++ r) := by
  cases t with
  | nil => exact hr
  | cons c t => simpa using h

/-- What stands in front of a text that stops a run stops it too. -/
theorem Stops.of_append {t : List Char} (h : Stops p (t ++ s)) : Stops p t := by
  have ht := h.append stops_nil
  rwa [List.append_nil] at ht

/-- What is left behind a run stops the run. -/
theorem stops_dropWhile (p : Char → Bool) (s : List Char) : Stops p (s.dropWhile p) := by
  intro c hc
  have h := List.head?_dropWhile_not p s
  rw [Option.mem_def.1 hc] at h
  exact h

/-- Nothing is dropped off a text that stops the run. -/
theorem dropWhile_of_stops (h : Stops p r) : r.dropWhile p = r := by
  cases r with
  | nil => rfl
  | cons c r => simp_all

/-- Nothing is taken off a text that stops the run. -/
theorem takeWhile_of_stops (h : Stops p r) : r.takeWhile p = [] := by
  cases r with
  | nil => rfl
  | cons c r => simp_all

/-- A run and a text that stops it are what the run is cut into. -/
theorem takeWhile_append_stops (hs : ∀ c ∈ s, p c = true) (hr : Stops p r) :
    (s ++ r).takeWhile p = s := by
  rw [List.takeWhile_append_of_pos hs, takeWhile_of_stops hr, List.append_nil]

/-- A run in front of what stops it is dropped as a whole. -/
theorem dropWhile_append_stops (hs : ∀ c ∈ s, p c = true) (hr : Stops p r) :
    (s ++ r).dropWhile p = r := by
  rw [List.dropWhile_append_of_pos hs, dropWhile_of_stops hr]

/-! ## Places -/

/-- A place in two texts is a place in the first or in the second. -/
theorem cut_append {u v p : List Char} (h : u ++ v = p ++ c :: r) :
    (∃ x, u = p ++ c :: x ∧ r = x ++ v) ∨ ∃ p', p = u ++ p' ∧ v = p' ++ c :: r := by
  rcases List.append_eq_append_iff.1 h with ⟨p', hp, hv⟩ | ⟨x, hu, hx⟩
  · exact .inr ⟨p', hp, hv⟩
  · cases x with
    | nil => exact .inr ⟨[], by rw [hu, List.append_nil, List.append_nil], hx.symm⟩
    | cons d x =>
      obtain ⟨rfl, rfl⟩ := List.cons.inj hx
      exact .inl ⟨x, hu, rfl⟩

/-- The second of two texts is empty or ends as they do together. -/
theorem eq_nil_or_concat_of_append {t u : List Char} (h : s ++ t = u ++ [c]) :
    t = [] ∨ ∃ v, t = v ++ [c] := by
  rcases t.eq_nil_or_concat' with rfl | ⟨v, d, rfl⟩
  · exact .inl rfl
  · rw [← List.append_assoc, List.append_singleton_inj] at h
    exact .inr ⟨v, by rw [h.2]⟩

/-- No run of a class ends a text whose last character is outside of the class. -/
theorem eq_nil_of_append_eq_concat {t u : List Char} (h : s ++ t = u ++ [c]) (hc : p c = false)
    (ht : ∀ d ∈ t, p d = true) : t = [] := by
  obtain hnil | ⟨v, rfl⟩ := eq_nil_or_concat_of_append h
  · exact hnil
  · rw [ht c (by simp)] at hc
    cases hc

/-! ## Trimming -/

/-- Trimming leaves nothing exactly of the texts that are all blank. -/
theorem trim_eq_nil_iff : trim s = [] ↔ ∀ c ∈ s, isBlank c = true := by
  have hend : trim s = [] ↔ s.dropWhile isBlank = [] := by
    rw [← dropWhile_of_stops (stops_dropWhile isBlank s), List.dropWhile_eq_nil_iff]
    simp [trim, trimEnd, dropWhileEnd, trimStart]
  rw [hend, List.dropWhile_eq_nil_iff]

/-- A text is what is left and what is dropped from its end. -/
theorem exists_dropWhileEnd_append (p : Char → Bool) (s : List Char) :
    ∃ b, s = dropWhileEnd p s ++ b ∧ ∀ c ∈ b, p c = true := by
  refine ⟨(s.reverse.takeWhile p).reverse, ?_, fun c hc => ?_⟩
  · rw [dropWhileEnd, ← List.reverse_append, List.takeWhile_append_dropWhile, List.reverse_reverse]
  · exact List.mem_takeWhile_imp (List.mem_reverse.1 hc)

/-- What is dropped from the end of a text is the same character again and again. -/
theorem exists_eq_dropWhileEnd_append (c : Char) (s : List Char) :
    ∃ k, s = dropWhileEnd (· == c) s ++ List.replicate k c := by
  obtain ⟨b, hs, hb⟩ := exists_dropWhileEnd_append (· == c) s
  refine ⟨b.length, ?_⟩
  rwa [← List.eq_replicate_length.2 fun d hd => by simpa using hb d hd]

/-- Nothing is left if all characters are of the run. -/
theorem dropWhileEnd_eq_nil_iff : dropWhileEnd p s = [] ↔ ∀ c ∈ s, p c = true := by
  simp [dropWhileEnd]

/-- A last character that is not of the run keeps the text. -/
theorem dropWhileEnd_concat (h : p c = false) : dropWhileEnd p (s ++ [c]) = s ++ [c] := by
  simp [dropWhileEnd, h]

/-- Characters of the run at the end have no effect. -/
theorem dropWhileEnd_append (hr : ∀ c ∈ r, p c = true) :
    dropWhileEnd p (s ++ r) = dropWhileEnd p s := by
  rw [dropWhileEnd, List.reverse_append,
    List.dropWhile_append_of_pos fun c hc => hr c (List.mem_reverse.1 hc), dropWhileEnd]

/-- The run at the end is within the last part, if anything of that is left. -/
theorem dropWhileEnd_append_of_ne_nil (hr : dropWhileEnd p r ≠ []) :
    dropWhileEnd p (s ++ r) = s ++ dropWhileEnd p r := by
  have hne : (r.reverse.dropWhile p).isEmpty = false := by
    simpa [dropWhileEnd, List.isEmpty_eq_false_iff] using hr
  rw [dropWhileEnd, List.reverse_append, List.dropWhile_append, hne]
  simp [dropWhileEnd]

/-- Dropping once is enough. -/
theorem dropWhileEnd_dropWhileEnd (p : Char → Bool) (s : List Char) :
    dropWhileEnd p (dropWhileEnd p s) = dropWhileEnd p s := by
  have hstop := dropWhile_of_stops (stops_dropWhile p s.reverse)
  rw [dropWhileEnd, dropWhileEnd, List.reverse_reverse, hstop]

/-- At which end dropping begins does not matter. -/
theorem dropWhile_dropWhileEnd (p q : Char → Bool) (s : List Char) :
    (dropWhileEnd p s).dropWhile q = dropWhileEnd p (s.dropWhile q) := by
  have hcut : s.takeWhile q ++ s.dropWhile q = s := List.takeWhile_append_dropWhile
  have hfront : ∀ c ∈ s.takeWhile q, q c = true := fun _ => List.mem_takeWhile_imp
  have hstop := stops_dropWhile q s
  generalize s.takeWhile q = a at hcut hfront
  generalize s.dropWhile q = r at hcut hstop ⊢
  subst hcut
  by_cases hr : dropWhileEnd p r = []
  · obtain ⟨b, ha, -⟩ := exists_dropWhileEnd_append p a
    rw [dropWhileEnd_append (dropWhileEnd_eq_nil_iff.1 hr), hr, List.dropWhile_eq_nil_iff]
    exact fun c hc => hfront c (ha ▸ List.mem_append_left b hc)
  · obtain ⟨b, hb, -⟩ := exists_dropWhileEnd_append p r
    rw [dropWhileEnd_append_of_ne_nil hr]
    refine dropWhile_append_stops hfront ?_
    cases hd : dropWhileEnd p r with
    | nil => exact absurd hd hr
    | cons d t =>
      rw [hb, hd] at hstop
      simpa using hstop

/-- The two ends can be trimmed in either order. -/
theorem trim_eq_trimStart (s : List Char) : trim s = trimStart (trimEnd s) :=
  (dropWhile_dropWhileEnd isBlank isBlank s).symm

/-- A trimmed text has no blanks at its end. -/
theorem trimEnd_trim (s : List Char) : trimEnd (trim s) = trim s :=
  dropWhileEnd_dropWhileEnd isBlank (trimStart s)

/-- Trimming once is enough. -/
theorem trim_trim (s : List Char) : trim (trim s) = trim s := by
  have hstart : trimStart (trimStart s) = trimStart s :=
    dropWhile_of_stops (stops_dropWhile isBlank s)
  rw [trim_eq_trimStart, trimEnd_trim, trim, trimEnd, trimStart, dropWhile_dropWhileEnd,
    ← trimStart, hstart]

/-- Blanks around a text have no part in what trimming leaves. -/
theorem trim_padded {a b : List Char} (ha : ∀ c ∈ a, isBlank c = true)
    (hb : ∀ c ∈ b, isBlank c = true) (s : List Char) : trim (a ++ (s ++ b)) = trim s := by
  rw [← List.append_assoc, trim_eq_trimStart, trimEnd, dropWhileEnd_append hb, ← trimEnd,
    ← trim_eq_trimStart, trim, trimStart, List.dropWhile_append_of_pos ha, ← trimStart, ← trim]

/-- A text without blanks is left as it is. -/
theorem trim_of_visible (h : ∀ c ∈ s, isBlank c = false) : trim s = s := by
  have hstart : trimStart s = s := dropWhile_of_stops fun c hc => h c (List.mem_of_mem_head? hc)
  have hend : s.reverse.dropWhile isBlank = s.reverse :=
    dropWhile_of_stops fun c hc => h c (List.mem_reverse.1 (List.mem_of_mem_head? hc))
  rw [trim, hstart, trimEnd, dropWhileEnd, hend, List.reverse_reverse]

/-- Behind something visible trimming drops nothing. -/
theorem trim_concat (hc : isBlank c = false) (s : List Char) :
    trim (s ++ [c]) = trimStart s ++ [c] := by
  rw [trim_eq_trimStart, trimEnd, dropWhileEnd_concat hc, trimStart, List.dropWhile_append]
  split
  · rename_i hnil
    rw [trimStart, List.isEmpty_iff.1 hnil]
    simp [hc]
  · rfl

/-! ## Classes by code points -/

/-- Digits, by their numbers. -/
theorem isDigit_iff : c.isDigit = true ↔ 48 ≤ c.toNat ∧ c.toNat ≤ 57 := by
  simp [Char.isDigit, UInt32.le_iff_toNat_le]

/-- Letters, by their numbers. -/
theorem isAlpha_iff :
    c.isAlpha = true ↔ (65 ≤ c.toNat ∧ c.toNat ≤ 90) ∨ (97 ≤ c.toNat ∧ c.toNat ≤ 122) := by
  show (decide ('A'.val ≤ c.val ∧ c.val ≤ 'Z'.val) ||
    (decide ('a'.val ≤ c.val) && decide (c.val ≤ 'z'.val))) = true ↔ _
  simp only [Bool.or_eq_true, Bool.and_eq_true, decide_eq_true_eq, UInt32.le_iff_toNat_le]
  exact Iff.rfl

/-- No blank is a printing character of ASCII. -/
theorem isBlank_of_ascii (h : 0x21 ≤ c.toNat) (h' : c.toNat ≤ 0x7E) : isBlank c = false := by
  cases hc : isBlank c with
  | false => rfl
  | true =>
    simp only [isBlank, Bool.or_eq_true, Bool.and_eq_true, decide_eq_true_eq, beq_iff_eq] at hc
    omega

/-- No digit is a blank. -/
theorem isBlank_of_isDigit (h : c.isDigit = true) : isBlank c = false := by
  rw [isDigit_iff] at h
  exact isBlank_of_ascii (by omega) (by omega)

end

end ShellQuery.Text
