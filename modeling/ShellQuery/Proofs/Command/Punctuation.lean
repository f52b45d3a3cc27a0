import ShellQuery.Proofs.Command
import ShellQuery.Query.Basic
/-!
# Punctuation around a line

Blanks around a command line and semicolons behind it mean nothing, as long as no blanks stand
between the semicolons (`ofLine?_append_punctuation`). The semicolons at the end are dropped once:
where blanks part the last ones from others, these others are left (`stem_append_of_not_joined`).
Such a line is no call and shows nothing, and a `use` takes them for a part of the name
(`ofLine?_use_semicolon`).

`EndsJoined` says when one more semicolon changes nothing, and `stem_append` carries it from one
character of the punctuation to the next.
-/

namespace ShellQuery.Command

open Text

/-- Blanks and semicolons, in any order. -/
def IsPunctuation (t : List Char) : Prop :=
  ∀ c ∈ t, isBlank c = true ∨ c = ';'

/-- A text that does not end with a semicolon and blanks behind it. -/
def EndsJoined (s : List Char) : Prop :=
  ∀ x y, s = x ++ ';' :: y → (∀ c ∈ y, isBlank c = true) → y = []

/-- Behind `s`, no blanks part a semicolon of `t` from the semicolon before it. -/
def Joined (s t : List Char) : Prop :=
  ∀ z u, t = z ++ ';' :: u → EndsJoined (s ++ z)

/-- The part of a line that is looked at, with the blanks at its front. -/
def stem (s : List Char) : List Char :=
  trimEnd (dropWhileEnd (· == ';') (trimEnd s))

section
variable {s t b : List Char} {c : Char}

/-- The essence of a text is its stem without the blanks in front. -/
theorem essence_eq (s : List Char) : essence s = trimStart (stem s) := by
  have htrim : ∀ x, trim (trimStart x) = trimStart (trimEnd x) := by
    intro x
    have hstart : trimStart (trimStart x) = trimStart x := dropWhile_of_stops (stops_dropWhile _ _)
    rw [trim, hstart, ← trim_eq_trimStart, trim]
  rw [essence, trim_eq_trimStart s, trimStart, ← dropWhile_dropWhileEnd]
  exact htrim _

/-! ## Semicolons that are dropped -/

/-- A visible character at the end parts nothing. -/
theorem endsJoined_concat (hc : isBlank c = false) (s : List Char) : EndsJoined (s ++ [c]) := by
  intro x y hcut hy
  rw [List.append_cons x] at hcut
  exact eq_nil_of_append_eq_concat hcut.symm hc hy

/-- The empty text is joined to any other. -/
theorem joined_nil : Joined s [] := by
  intro z u h
  simp at h

/-- A text is joined if its first character is, and the others behind that. -/
theorem joined_cons : Joined s (c :: t) ↔ (c = ';' → EndsJoined s) ∧ Joined (s ++ [c]) t := by
  refine ⟨fun h => ⟨?_, ?_⟩, ?_⟩
  · rintro rfl
    simpa using h [] t rfl
  · rintro z u rfl
    simpa using h (c :: z) u rfl
  · rintro ⟨hhead, htail⟩ z u hcut
    cases z with
    | nil =>
      obtain ⟨rfl, -⟩ := List.cons.inj hcut
      simpa using hhead rfl
    | cons d z =>
      obtain ⟨rfl, rfl⟩ := List.cons.inj hcut
      simpa using htail z u rfl

/-- No semicolons are dropped where blanks follow them. -/
theorem dropWhileEnd_semicolon_blanks (hb : ∀ c ∈ b, isBlank c = true) (hne : b ≠ []) :
    dropWhileEnd (· == ';') (s ++ b) = s ++ b := by
  obtain ⟨b, c, rfl⟩ := b.eq_nil_or_concat'.resolve_left hne
  have hc : (c == ';') = false := by
    rw [beq_eq_false_iff_ne]
    rintro rfl
    cases hb ';' (by simp)
  rw [← List.append_assoc]
  exact dropWhileEnd_concat hc

/-- A text ends without blanks, or without semicolons in front of the blanks. -/
theorem EndsJoined.trimEnd_eq_or (h : EndsJoined s) : trimEnd s = s ∨
    dropWhileEnd (· == ';') s = s ∧ dropWhileEnd (· == ';') (trimEnd s) = trimEnd s := by
  obtain ⟨b, hb, hblank⟩ := exists_dropWhileEnd_append isBlank s
  by_cases hne : b = []
  · rw [hne, List.append_nil] at hb
    exact .inl hb.symm
  refine .inr ⟨?_, ?_⟩
  · rw [hb]
    exact dropWhileEnd_semicolon_blanks hblank hne
  · rw [trimEnd]
    rcases (dropWhileEnd isBlank s).eq_nil_or_concat' with hnil | ⟨x, c, hx⟩
    · rw [hnil]
      rfl
    · rw [hx] at hb ⊢
      refine dropWhileEnd_concat ?_
      rw [beq_eq_false_iff_ne]
      rintro rfl
      exact hne (h x b (by simpa using hb) hblank)

/-- A blank at the end is not part of the stem. -/
theorem stem_concat_blank (hc : isBlank c = true) : stem (s ++ [c]) = stem s := by
  have hdrop : trimEnd (s ++ [c]) = trimEnd s := dropWhileEnd_append (by simpa using hc)
  rw [stem, hdrop, stem]

/-- A semicolon at the end is dropped, together with the semicolons right before it. -/
theorem stem_concat_semicolon (hs : EndsJoined s) : stem (s ++ [';']) = stem s := by
  have hend : trimEnd (s ++ [';']) = s ++ [';'] := dropWhileEnd_concat rfl
  have hdrop : dropWhileEnd (· == ';') (s ++ [';']) = dropWhileEnd (· == ';') s :=
    dropWhileEnd_append (by simp)
  rw [stem, stem, hend, hdrop]
  rcases hs.trimEnd_eq_or with htrim | ⟨hkept, htrim⟩
  · rw [htrim]
  · rw [hkept, htrim]
    exact (dropWhileEnd_dropWhileEnd isBlank s).symm

/-- Punctuation that is joined is dropped. -/
theorem stem_append (ht : IsPunctuation t) (h : Joined s t) : stem (s ++ t) = stem s := by
  induction t generalizing s with
  | nil => rw [List.append_nil]
  | cons c t ih =>
    obtain ⟨hc, hmore⟩ := List.forall_mem_cons.1 ht
    obtain ⟨hhead, htail⟩ := joined_cons.1 h
    rw [List.append_cons, ih hmore htail]
    rcases hc with hc | rfl
    · exact stem_concat_blank hc
    · exact stem_concat_semicolon (hhead rfl)

/-! ## Semicolons that are left -/

/-- Only the last semicolon is dropped, and the blanks that part it from the one before. -/
theorem stem_concat_of_not_endsJoined (h : ¬EndsJoined s) :
    ∃ x, stem (s ++ [';']) = x ++ [';'] := by
  simp only [EndsJoined, not_forall] at h
  obtain ⟨x, y, rfl, hy, hne⟩ := h
  have hend : trimEnd (x ++ ';' :: y ++ [';']) = x ++ ';' :: y ++ [';'] := dropWhileEnd_concat rfl
  have hdrop : dropWhileEnd (· == ';') (x ++ ';' :: y ++ [';']) = x ++ ';' :: y := by
    rw [dropWhileEnd_append (by simp), List.append_cons]
    exact dropWhileEnd_semicolon_blanks hy hne
  refine ⟨x, ?_⟩
  rw [stem, hend, hdrop, List.append_cons, trimEnd, dropWhileEnd_append hy]
  exact dropWhileEnd_concat rfl

/-- Of punctuation that is not joined a semicolon is left at the end. -/
theorem stem_append_of_not_joined (ht : IsPunctuation t) (h : ¬Joined s t) :
    ∃ x, stem (s ++ t) = x ++ [';'] := by
  induction t generalizing s with
  | nil => exact absurd joined_nil h
  | cons c t ih =>
    obtain ⟨-, hmore⟩ := List.forall_mem_cons.1 ht
    rw [List.append_cons]
    by_cases htail : Joined (s ++ [c]) t
    · -- No later semicolon is parted from the one before it, so this one is.
      rw [joined_cons, not_and_or, Classical.not_imp] at h
      obtain ⟨rfl, hend⟩ := h.resolve_right (not_not_intro htail)
      rw [stem_append hmore htail]
      exact stem_concat_of_not_endsJoined hend
    · exact ih hmore htail

/-- Nothing that ends in a semicolon can be shown. -/
theorem ofShow?_semicolon (s : List Char) : ofShow? (s ++ [';']) = none := by
  have hlast : (String.ofList (s ++ [';'])).toList.getLast? = some ';' := by simp
  unfold ofShow?
  generalize String.ofList (s ++ [';']) = name at hlast
  have hne : ∀ target : String, target.toList.getLast? ≠ some ';' → name ≠ target := by
    rintro _ htarget rfl
    exact htarget hlast
  simp [hne "dbs" (by decide), hne "databases" (by decide), hne "collections" (by decide),
    hne "tables" (by decide)]

/-- No call ends in a semicolon. -/
theorem ofCall?_semicolon (s : List Char) : ofCall? (s ++ [';']) = none := by
  unfold ofCall?
  rw [List.dropWhile_append]
  cases s.dropWhile (· != '(') with
  | nil => rfl
  | cons c inner => simp

/-- Behind a keyword the semicolon at the end is left. -/
theorem afterKeyword?_semicolon {word rest : List Char}
    (h : afterKeyword? word (s ++ [';']) = some rest) : ∃ r, rest = r ++ [';'] := by
  unfold afterKeyword? at h
  split at h
  · rename_i c r hr
    split at h
    · have hcut := List.isPrefixOf?_eq_some_iff_append_eq.1 hr
      obtain ⟨y, hy⟩ := (eq_nil_or_concat_of_append hcut).resolve_left (by simp)
      rw [hy, trim_concat rfl] at h
      exact ⟨_, (Option.some.inj h).symm⟩
    · cases h
  · cases h

/-- With a semicolon left at its end, a line is no call and shows nothing. -/
theorem scope_of_semicolon {line : String} {k : Command} (hline : essence line.toList = s ++ [';'])
    (h : ofLine? line = some k) : k.scope = .selection := by
  unfold ofLine? at h
  rw [hline] at h
  simp only at h
  split at h
  · rename_i target htarget
    obtain ⟨r, rfl⟩ := afterKeyword?_semicolon htarget
    rw [ofShow?_semicolon] at h
    cases h
  split at h
  · obtain ⟨name, -, rfl⟩ := Option.map_eq_some_iff.1 h
    rfl
  · rw [ofCall?_semicolon] at h
    cases h

/-! ## Main result -/

/-- **Punctuation means nothing where it is joined.** Blanks in front of a line, and blanks and
semicolons behind it, change neither the parts that a line is taken apart into nor the query, if no
blanks part a semicolon of them from the semicolon before it. Otherwise no call is recognized and
nothing that shows: the line has no known shape, or it is a `use`. -/
theorem ofLine?_append_punctuation {w s t : String} (hw : ∀ c ∈ w.toList, isBlank c = true)
    (ht : IsPunctuation t.toList) :
    (Joined s.toList t.toList →
      ofLine? (w ++ s ++ t) = ofLine? s ∧ Query.ofLine (w ++ s ++ t) = Query.ofLine s) ∧
    (¬Joined s.toList t.toList →
      ∀ k, ofLine? (w ++ s ++ t) = some k → k.scope = .selection) := by
  have hessence : essence (w ++ s ++ t).toList = trimStart (stem (s.toList ++ t.toList)) := by
    have hfront : trim (w.toList ++ (s.toList ++ t.toList)) = trim (s.toList ++ t.toList) := by
      rw [trim, trimStart, List.dropWhile_append_of_pos hw]
      rfl
    rw [String.toList_append, String.toList_append, List.append_assoc, essence, hfront, ← essence,
      essence_eq]
  refine ⟨fun h => ?_, fun h k => ?_⟩
  · have hline : ofLine? (w ++ s ++ t) = ofLine? s := by
      rw [ofLine?, ofLine?, hessence, stem_append ht h, essence_eq]
    exact ⟨hline, by rw [Query.ofLine, Query.ofLine, hline]⟩
  · obtain ⟨x, hx⟩ := stem_append_of_not_joined ht h
    have hend : trimStart (x ++ [';']) = trimStart x ++ [';'] := by
      rw [← trim_concat rfl, trim_eq_trimStart, trimEnd, dropWhileEnd_concat rfl]
    rw [hx, hend] at hessence
    exact scope_of_semicolon hessence

/-- Semicolons behind each other and blanks around them; and two that are parted. -/
theorem ofLine?_append_punctuation_show :
    (Joined "show dbs".toList ";; ".toList ∧
      ofLine? (" " ++ "show dbs" ++ ";; ") = ofLine? "show dbs" ∧
      Query.ofLine (" " ++ "show dbs" ++ ";; ") = Query.ofLine "show dbs") ∧
    ¬Joined "show dbs".toList "; ;".toList ∧
      ∀ k, ofLine? (" " ++ "show dbs" ++ "; ;") = some k → k.scope = .selection := by
  have hblank : ∀ c ∈ " ".toList, isBlank c = true := by simp [isBlank]
  have hdouble : IsPunctuation ";; ".toList := by simp [IsPunctuation, isBlank]
  have hparted : IsPunctuation "; ;".toList := by simp [IsPunctuation, isBlank]
  have hjoined : Joined "show dbs".toList ";; ".toList :=
    joined_cons.2 ⟨fun _ => endsJoined_concat (s := "show db".toList) rfl,
      joined_cons.2 ⟨fun _ => endsJoined_concat (s := "show dbs".toList) rfl,
        joined_cons.2 ⟨fun h => absurd h (by decide), joined_nil⟩⟩⟩
  have hnot : ¬Joined "show dbs".toList "; ;".toList := by
    intro h
    cases h [';', ' '] [] rfl "show dbs".toList [' '] rfl (by simp [isBlank])
  exact ⟨⟨hjoined, (ofLine?_append_punctuation hblank hdouble).1 hjoined⟩, hnot,
    (ofLine?_append_punctuation hblank hparted).2 hnot⟩

/-- **A semicolon is taken for a part of a name**, because of a blank and a semicolon behind it. -/
theorem ofLine?_use_semicolon :
    IsPunctuation "; ;".toList ∧ ofLine? "use a" = some ⟨.selection, ["a"], "use", ""⟩ ∧
      ofLine? ("" ++ "use a" ++ "; ;") = some ⟨.selection, ["a;"], "use", ""⟩ := by
  refine ⟨by simp [IsPunctuation, isBlank], ?_, ?_⟩ <;> decide +kernel

end

end ShellQuery.Command
