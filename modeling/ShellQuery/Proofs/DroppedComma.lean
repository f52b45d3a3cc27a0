import ShellQuery.Proofs.ArgumentText
import ShellQuery.Proofs.Dialect.Immunity
import ShellQuery.Proofs.Dialect.Neighbours
/-!
# Commas that are dropped

The pass drops a comma before a closing bracket or the end of the text, and does not look at what
stands in front of the comma. `read_dropped_comma` says what that is in a text of which arguments
were read: the comma follows the end of an item, or it is the only visible character of the text, or
the only one between two brackets of one kind. `read_lone_comma` shows that the last two occur.

What stands in front of the comma is known from what is written there (`Run.traced_start`), and a
scan of the strict form (`followed_core`) comes through it only in these cases.
-/

namespace ShellQuery

open Text Decimal Dialect Json

namespace Json

section
variable {σ a s : List Char} {w : Bool} {x : Scan} {c : Char}

/-- A scan comes through no other blanks than those of JSON. -/
theorem Scan.spaces_of_follow (hs : Blanks s)
    (h : (⟨.outside, σ, w⟩ : Scan).follow s = some x) : Spaces s := by
  induction s with
  | nil => exact spaces_nil
  | cons c s ih =>
    rw [blanks_cons] at hs
    cases hspace : isSpace c with
    | true =>
      rw [Scan.follow_cons, Scan.next_space hspace, Option.bind_some] at h
      exact spaces_cons.2 ⟨hspace, ih hs.2 h⟩
    | false =>
      have hne : ∀ d, isBlank d = false → c ≠ d := by
        rintro d hd rfl
        rw [hs.1] at hd
        cases hd
      have hnone : (⟨.outside, σ, w⟩ : Scan).next c = none := by
        simp [Scan.next, hspace, hs.1, hne '[' rfl, hne '{' rfl, hne ']' rfl, hne '}' rfl,
          hne ',' rfl, hne ':' rfl]
      rw [Scan.follow_cons, hnone] at h
      cases h

/-- A closing bracket closes the last one that is open, when no item must come. -/
theorem Scan.next_close (hc : atClose (c :: s) = true)
    (h : (⟨.outside, σ, w⟩ : Scan).next c = some x) :
    w = false ∧ ∃ o τ, σ = o :: τ ∧ matching o c = true := by
  simp only [atClose, Bool.or_eq_true, beq_iff_eq] at hc
  cases σ with
  | nil => rcases hc with rfl | rfl <;> cases h
  | cons o τ =>
    have hstep : (⟨.outside, o :: τ, w⟩ : Scan).next c =
        if matching o c && !w then some ⟨.outside, τ, false⟩ else none := by
      rcases hc with rfl | rfl <;> rfl
    rw [hstep] at h
    split_ifs at h with hmatch
    rw [Bool.and_eq_true, Bool.not_eq_true'] at hmatch
    exact ⟨hmatch.2, o, τ, rfl, hmatch.1⟩

/-- A bracket is opened, or an item must come. -/
theorem Scan.next_lead (hc : isLead c = true) :
    (⟨.outside, σ, w⟩ : Scan).next c = some ⟨.outside, c :: σ, false⟩ ∨
      (⟨.outside, σ, w⟩ : Scan).next c = some ⟨.outside, σ, true⟩ := by
  simp only [isLead, Bool.or_eq_true, beq_iff_eq] at hc
  rcases hc with ((rfl | rfl) | rfl) | rfl
  exacts [.inl rfl, .inl rfl, .inr rfl, .inr rfl]

/-- Blanks outside of strings are passed over, and can only be those of JSON. -/
theorem Scan.follow_blanks (ha : Blanks a)
    (h : (⟨.outside, σ, w⟩ : Scan).follow (a ++ s) = some x) :
    Spaces a ∧ (⟨.outside, σ, w⟩ : Scan).follow s = some x := by
  rw [Scan.follow_append, Option.bind_eq_some_iff] at h
  obtain ⟨y, hy, h⟩ := h
  have hspaces := Scan.spaces_of_follow ha hy
  rw [Scan.follow_spaces hspaces, Option.some.injEq] at hy
  subst hy
  exact ⟨hspaces, h⟩

/-- In front of a closing bracket a bracket of its kind is open, and at the end none is. -/
theorem Scan.follow_close (hs : atClose s = true)
    (h : (⟨.outside, σ, w⟩ : Scan).follow s = some ⟨.outside, [], false⟩) :
    w = false ∧
      ((s = [] ∧ σ = []) ∨ ∃ d r o τ, s = d :: r ∧ σ = o :: τ ∧ matching o d = true) := by
  cases s with
  | nil =>
    cases h
    exact ⟨rfl, .inl ⟨rfl, rfl⟩⟩
  | cons d r =>
    rw [Scan.follow_cons, Option.bind_eq_some_iff] at h
    obtain ⟨y, hy, -⟩ := h
    obtain ⟨hw, o, τ, hopened, hmatch⟩ := Scan.next_close hs hy
    exact ⟨hw, .inr ⟨d, r, o, τ, rfl, hopened, hmatch⟩⟩

/-- Behind a bracket that is opened, and blanks, the bracket is closed if any is, and behind a comma
or a colon none is. -/
theorem Scan.follow_lead (hc : isLead c = true) (ha : Blanks a) (hs : atClose s = true)
    (h : (⟨.outside, σ, w⟩ : Scan).follow (c :: (a ++ s)) = some ⟨.outside, [], false⟩) :
    Spaces a ∧ ∃ d r, s = d :: r ∧ matching c d = true := by
  rw [Scan.follow_cons] at h
  rcases Scan.next_lead hc with hnext | hnext <;> rw [hnext, Option.bind_some] at h <;>
    obtain ⟨hspaces, hend⟩ := Scan.follow_blanks ha h
  · obtain ⟨-, ⟨-, hopened⟩ | ⟨d, r, o, τ, rfl, hopened, hmatch⟩⟩ := Scan.follow_close hs hend
    · cases hopened
    · cases hopened
      exact ⟨hspaces, d, r, rfl, hmatch⟩
  · cases (Scan.follow_close hs hend).1

end

end Json

namespace Dialect

section
variable {c : Char} {s r : List Char}

/-- What is written is blank only for a blank text, or for one comma with blanks around it. -/
theorem blanks_of_normalize (h : Spaces (normalize s)) :
    Blanks s ∨ ∃ a b, s = a ++ ',' :: b ∧ Spaces a ∧ Blanks b := by
  obtain ⟨a, hs, ha, hstop⟩ := exists_blanks_trimStart s
  have hnormalize := (Passes.blanks (r := trimStart s) ha).normalize_append.1
  rw [← hs] at hnormalize
  rw [hnormalize] at h
  cases htail : trimStart s with
  | nil =>
    rw [htail, List.append_nil] at hs
    exact .inl (hs ▸ ha)
  | cons c t =>
    rw [htail, stops_cons] at hstop
    rw [htail] at h hs
    have hblank : ∀ d x, normalize (c :: t) = d :: x → isBlank d = true := by
      intro d x hd
      exact isBlank_of_isSpace (h d (by rw [hd]; simp))
    rcases outsideStep_visible hstop t with ⟨d, x, hwritten, hd⟩ | ⟨rfl, hclose⟩
    · rw [hblank d _ (by rw [normalize_cons, hwritten]; rfl)] at hd
      cases hd
    · -- The comma is dropped, and nothing else that is visible follows.
      obtain ⟨b, ht, hb, -⟩ := exists_blanks_trimStart t
      have hdropped := (Passes.droppedComma hb hclose).normalize_append.1
      rw [List.cons_append, ← ht, List.nil_append] at hdropped
      cases hrest : trimStart t with
      | nil =>
        rw [hrest, List.append_nil] at ht
        exact .inr ⟨a, t, hs, fun c hc => h c (List.mem_append_left _ hc), ht ▸ hb⟩
      | cons e u =>
        rw [hrest] at hdropped hclose
        have hend := hblank e _ (hdropped.trans (normalize_close hclose))
        simp only [atClose, Bool.or_eq_true, beq_iff_eq] at hclose
        rcases hclose with rfl | rfl <;> cases hend

end

end Dialect

namespace ArgumentText

section
variable {text : String} {p b r : List Char} {ws : List Value}

/-- A scan goes through the strict form of a text that was read and is not blank. -/
theorem follow_of_read (h : read text = .ok ws) (htrim : trim text.toList ≠ []) :
    (⟨.outside, [], false⟩ : Scan).follow (normalize text.toList) =
      some ⟨.outside, [], false⟩ := by
  obtain ⟨w, hw, -⟩ := exists_json_of_read h htrim
  rcases read_array_eq_ok_iff.1 hw with ⟨hspaces, -⟩ | ⟨vs, hvs, -⟩
  · exact Scan.follow_spaces hspaces
  · exact (followed_core _).padded.listed _ _ hvs _ _

/-- What is read as no arguments: a blank text, or one comma with blanks around it. In front of the
comma these are blanks of JSON. -/
theorem read_eq_ok_nil_iff : read text = .ok [] ↔
    Blanks text.toList ∨ ∃ a b, text.toList = a ++ ',' :: b ∧ Spaces a ∧ Blanks b := by
  refine ⟨fun h => ?_, ?_⟩
  · by_cases htrim : trim text.toList = []
    · exact .inl (trim_eq_nil_iff.1 htrim)
    obtain ⟨w, hw, hvalues⟩ := exists_json_of_read h htrim
    refine blanks_of_normalize ?_
    rcases read_array_eq_ok_iff.1 hw with ⟨hspaces, -⟩ | ⟨vs, hvs, rfl⟩
    · exact hspaces
    · rw [itemsOf, Value.ofJsonItems_eq_ok_iff, List.forall₂_nil_right_iff] at hvalues
      generalize normalize text.toList = s at hvs
      cases hvs <;> cases hvalues
  · rintro (hblanks | ⟨a, b, htext, ha, hb⟩)
    · exact read_blank hblanks
    · have hcomma := Passes.droppedComma (r := []) hb rfl
      obtain ⟨hnormalize, hbalanced⟩ :=
        ((Passes.spaces ha (r := ',' :: b ++ [])).append hcomma).normalize
      rw [List.append_nil, ← htext] at hnormalize
      rw [← htext] at hbalanced
      have hjson : Json.read ('[' :: (a ++ [']'])) = .ok (.array []) :=
        read_array_eq_ok_iff.2 (.inl ⟨ha, rfl⟩)
      have htrim : trim text.toList ≠ [] := by
        rw [Ne, trim_eq_nil_iff]
        intro hall
        cases hall ',' (by rw [htext]; simp)
      simp [read, htrim, hbalanced, hnormalize, hjson, itemsOf, Value.ofJsonItems, Except.mapError]

/-- In front of a dropped comma of a text that was read an item ends; or there is nothing but the
comma in the text, or between two brackets of one kind. -/
theorem comma_cases_of_read (h : read text = .ok ws) (htext : text.toList = p ++ ',' :: (b ++ r))
    (hreach : Reaches p (',' :: (b ++ r))) (hb : Blanks b) (hr : atClose r = true) :
    (Blanks p ∧ r = [] ∧ ws = []) ∨
      (∃ q o a d r', p = q ++ o :: a ∧ Blanks a ∧ r = d :: r' ∧ matching o d = true ∧
        ∃ x y, normalize text.toList = x ++ o :: (y ++ d :: normalize r') ∧ Spaces y) ∨
      ∃ q c a, p = q ++ c :: a ∧ isBlank c = false ∧ Blanks a ∧ isLead c = false := by
  obtain ⟨S, hS⟩ := hreach
  obtain ⟨hzone, hecho⟩ := hS.traced_start
  have hnormalize : normalize text.toList = S.flatMap Step.written ++ normalize r := by
    have hdropped := (Passes.droppedComma hb hr).normalize_append.1
    rw [List.cons_append, List.nil_append] at hdropped
    rw [htext, hS.normalize_eq, hdropped]
  have htrim : trim text.toList ≠ [] := by
    rw [Ne, trim_eq_nil_iff]
    intro hall
    cases hall ',' (by rw [htext]; simp)
  have hfollow := follow_of_read h htrim
  rw [hnormalize] at hfollow ⊢
  rcases hecho.resolve_right Bool.false_ne_true with
    ⟨hblanks, hcopy⟩ | ⟨q, c, a, rfl, hc, ha, hlead⟩
  · -- No bracket is open behind blanks.
    left
    rw [hcopy] at hfollow
    obtain ⟨hspaces, hend⟩ := Scan.follow_blanks hblanks hfollow
    obtain ⟨-, ⟨hnil, -⟩ | ⟨_, _, _, _, _, hopened, _⟩⟩ :=
      Scan.follow_close (atClose_normalize hr) hend
    · cases r with
      | nil =>
        rw [List.append_nil] at htext
        have hnone : read text = .ok [] := read_eq_ok_nil_iff.2 (.inr ⟨p, b, htext, hspaces, hb⟩)
        rw [h, Except.ok.injEq] at hnone
        exact ⟨hblanks, rfl, hnone⟩
      | cons d r' =>
        rw [normalize_close hr] at hnil
        cases hnil
    · cases hopened
  · right
    cases hisLead : isLead c with
    | false => exact .inr ⟨q, c, a, rfl, hc, ha, hisLead⟩
    | true =>
      left
      obtain ⟨w, a', hwritten, ha', hw⟩ := hlead hisLead
      rw [hwritten] at hfollow ⊢
      rw [List.append_assoc, List.cons_append, Scan.follow_append,
        Option.bind_eq_some_iff] at hfollow
      obtain ⟨⟨z, σ, v⟩, hx, hfollow⟩ := hfollow
      obtain rfl : z = .outside := (Scan.zone_follow hx).trans hw
      obtain ⟨hspaces, d, x, hx, hmatch⟩ :=
        Scan.follow_lead hisLead ha' (atClose_normalize hr) hfollow
      cases r with
      | nil =>
        rw [normalize_nil] at hx
        cases hx
      | cons e r' =>
        rw [normalize_close hr] at hx ⊢
        obtain ⟨rfl, -⟩ := List.cons.inj hx
        exact ⟨q, c, a, e, r', rfl, ha, rfl, hmatch, w, a', by simp, hspaces⟩

end

/-- **Which commas are dropped.** Arguments are read as none exactly if the text is blank or has one
comma and blanks. Where the pass drops a comma of a text that was read, an item ends in front of the
comma: the last visible character there is no opening bracket, no comma and no colon. Otherwise the
comma is the only visible character of the text, or the only one between two brackets of one kind,
and the text is read as no arguments, or the brackets as empty ones. -/
theorem read_dropped_comma (text : String) :
    (read text = .ok [] ↔
      Blanks text.toList ∨ ∃ a b, text.toList = a ++ ',' :: b ∧ Spaces a ∧ Blanks b) ∧
    ∀ ws p b r, read text = .ok ws → text.toList = p ++ ',' :: (b ++ r) →
      Reaches p (',' :: (b ++ r)) → Blanks b → atClose r = true →
        (Blanks p ∧ r = [] ∧ ws = []) ∨
          (∃ q o a d r', p = q ++ o :: a ∧ Blanks a ∧ r = d :: r' ∧ matching o d = true ∧
            ∃ x y, normalize text.toList = x ++ o :: (y ++ d :: normalize r') ∧ Spaces y) ∨
          ∃ q c a, p = q ++ c :: a ∧ isBlank c = false ∧ Blanks a ∧ isLead c = false :=
  ⟨read_eq_ok_nil_iff, fun _ _ _ _ h htext hreach hb hr =>
    comma_cases_of_read h htext hreach hb hr⟩

/-- A comma is dropped behind an item and a blank. -/
theorem read_dropped_comma_item :
    read "[null ,]" = .ok [.array [.null]] ∧
      Reaches ['[', 'n', 'u', 'l', 'l', ' '] [',', ']'] ∧
      ((Blanks ['[', 'n', 'u', 'l', 'l', ' '] ∧ [']'] = [] ∧ [Value.array [.null]] = []) ∨
        (∃ q o a d r', ['[', 'n', 'u', 'l', 'l', ' '] = q ++ o :: a ∧ Blanks a ∧ [']'] = d :: r' ∧
          matching o d = true ∧
          ∃ x y, normalize "[null ,]".toList = x ++ o :: (y ++ d :: normalize r') ∧ Spaces y) ∨
        ∃ q c a, ['[', 'n', 'u', 'l', 'l', ' '] = q ++ c :: a ∧ isBlank c = false ∧ Blanks a ∧
          isLead c = false) := by
  have hnull : Padded (Loose 0) ['n', 'u', 'l', 'l', ' '] .null :=
    .mk (a := []) (b := [' ']) spaces_nil (LooseAtom.scalar .null) (by simp [isSpace])
  have harray : Padded (Loose 1) "[null ,]".toList (.array [.null]) :=
    .mk (a := []) (b := []) spaces_nil (LooseNested.array (.mk (.last hnull) (.comma spaces_nil)))
      spaces_nil
  have hread : read "[null ,]" = .ok [.array [.null]] := by
    rw [read_items (.mk (.last harray) .none) (by decide)]
    rfl
  have hreach : Reaches ['[', 'n', 'u', 'l', 'l', ' '] [',', ']'] :=
    ⟨_, .step (.step (.step (.step (.step (.step .done)))))⟩
  exact ⟨hread, hreach, (read_dropped_comma "[null ,]").2 _ ['[', 'n', 'u', 'l', 'l', ' '] []
    [']'] hread rfl hreach blanks_nil rfl⟩

/-- **A lone comma is dropped, too**, as the only character of a text and behind a brace. -/
theorem read_lone_comma :
    Reaches [] [','] ∧ read "," = .ok [] ∧ ¬Blanks ",".toList ∧
      Reaches ['{'] [',', '}'] ∧ read "\x7b,\x7d" = .ok [.object []] := by
  have hnone : read "," = .ok [] :=
    read_eq_ok_nil_iff.2 (.inr ⟨[], [], rfl, spaces_nil, blanks_nil⟩)
  have hopen : step .outside '{' [',', '}'] = ⟨['{'], .opens, .outside, [',', '}']⟩ := rfl
  have hcomma : Passes .outside [','] [] .outside ['}'] := .droppedComma blanks_nil rfl
  obtain ⟨hnormalize, hbalanced⟩ :=
    (Passes.enclosed (s := [',']) (r := []) hopen hcomma (.inl rfl)).normalize
  have hitems : Items (Core 1) (normalize "\x7b,\x7d".toList) [.object []] := by
    have hobject : Core 1 ['{', '}'] (.object []) := Nested.emptyObject spaces_nil
    have hlist := Listed.last (Padded.mk (a := []) (b := []) spaces_nil hobject spaces_nil)
    exact hnormalize ▸ hlist
  have hclosed : isBalanced "\x7b,\x7d".toList = true := hbalanced
  refine ⟨⟨[], .done⟩, hnone, by simp [isBlank], ⟨_, .step .done⟩, ?_⟩
  rw [read_of_items hclosed hitems (by decide)]
  rfl

end ArgumentText

end ShellQuery
