import ShellQuery.Proofs.DroppedComma
import ShellQuery.Proofs.Json.Escapes
/-!
# Quotes of either kind

A string may be written in quotes of either kind. `read_quote_style` says what becomes of a text
when the quotes around one of its strings are changed, where every quote in the string stands behind
a backslash: the same is read from both, unless a single quote stands behind a backslash. Such a
backslash is undone between single quotes. Between double quotes it is copied, and as the single
quote is no letter of an escape the text cannot be read (`read_escaped_single_quote`).

Up to the string the runs over both texts look the same (`Run.transfer`). A call that goes on in the
string with quotes of the one kind holds all of it, so it is one with the other quotes, too, and the
pass does not come to the string (`callBefore_inQuotes`).
-/

namespace ShellQuery

open Text Dialect Json

namespace Dialect

/-- What stands between two quotes if every quote in it stands behind a backslash, and the
characters that stand behind backslashes. -/
inductive Body : List Char → List Char → Prop
  | nil : Body [] []
  | char {c : Char} {b es : List Char} : isQuote c = false → c ≠ '\\' → Body b es → Body (c :: b) es
  | escape {e : Char} {b es : List Char} : Body b es → Body ('\\' :: e :: b) (e :: es)

/-- A text between two quotes, as it is. -/
def inQuotes (q : Char) (b : List Char) : List Char :=
  q :: (b ++ [q])

section
variable {m : Mode} {q q₁ q₂ : Char} {b es p r s t x : List Char} {S : List Step}

/-! ## What is written for a string -/

/-- A quote leads into a string. -/
theorem quotedMode_ne_outside (hq : isQuote q = true) : quotedMode q ≠ .outside := by
  rcases isQuote_iff.1 hq with rfl | rfl <;> decide

/-- A character that is no quote and no backslash is written the same in quotes of either kind. -/
theorem Passes.char {c : Char} (hm : m ≠ .outside) (hc : isQuote c = false) (hb : c ≠ '\\') :
    Passes m [c] (contentChar c) m r := by
  have hne : ∀ q, isQuote q = true → c ≠ q := by
    rintro q hq rfl
    rw [hc] at hq
    cases hq
  have hcontent : StringStep m c r _ := .content hb (hne '"' rfl) fun _ => hne '\'' rfl
  exact .single (hcontent.eq hm)

/-- An escaped character is written the same, unless it is a single quote between single quotes. -/
theorem Passes.escapedChar {e : Char} (hm : m ≠ .outside) (he : m = .singleQuoted → e ≠ '\'') :
    Passes m ['\\', e] (Dialect.escapedChar e) m r := by
  have hescaped : StringStep m '\\' ([e] ++ r) _ := .escaped he
  have hpass := Passes.step (s := [e]) (u := []) (hescaped.eq hm) (Passes.nil (r := r))
  rwa [List.append_nil] at hpass

/-- What is written for a string does not depend on the quotes, unless a single quote stands behind
a backslash. Between double quotes this backslash is written, too. -/
theorem Body.passes (h : Body b es) : ∃ out,
    (∀ m r, m ≠ .outside → (m = .singleQuoted → '\'' ∉ es) → Passes m b out m r) ∧
      ('\'' ∈ es → ∃ w w', out = w ++ '\\' :: '\'' :: w' ∧ Zone.quoted.after w = .quoted) := by
  induction h with
  | nil => exact ⟨[], fun _ _ _ _ => .nil, nofun⟩
  | @char c b es hc hb _ ih =>
    obtain ⟨out, hpass, hescape⟩ := ih
    refine ⟨contentChar c ++ out, fun m r hm hes => ?_, fun hmem => ?_⟩
    · exact (Passes.char hm hc hb).append (hpass m r hm hes)
    · obtain ⟨w, w', rfl, hw⟩ := hescape hmem
      refine ⟨contentChar c ++ w, w', by simp, ?_⟩
      have hquote : c ≠ '"' := by
        rintro rfl
        cases hc
      rw [Zone.after_append, zone_contentChar hquote hb, hw]
  | @escape e b es _ ih =>
    obtain ⟨out, hpass, hescape⟩ := ih
    refine ⟨Dialect.escapedChar e ++ out, fun m r hm hes => ?_, fun hmem => ?_⟩
    · refine (Passes.escapedChar (m := m) hm fun hsingle he => ?_).append
        (hpass m r hm fun hsingle hmem => hes hsingle (List.mem_cons_of_mem _ hmem))
      exact hes hsingle (he ▸ List.mem_cons_self)
    · by_cases he : e = '\''
      · subst he
        exact ⟨[], out, rfl, rfl⟩
      · obtain ⟨w, w', rfl, hw⟩ := hescape ((List.mem_cons.1 hmem).resolve_left (Ne.symm he))
        refine ⟨Dialect.escapedChar e ++ w, w', by simp, ?_⟩
        rw [Zone.after_append, zone_escapedChar, hw]

/-! ## Runs up to a string -/

/-- In front of a quote a string of plain characters ends where one of any others does. -/
theorem Body.eq_of_plain (h : Body b es) (hq₁ : isQuote q₁ = true) (hq₂ : isQuote q₂ = true)
    (ht : ∀ c ∈ t, isPlain c = true) (hcut : b ++ q₁ :: r = t ++ q₂ :: x) : b = t := by
  have hplain : ∀ {c s}, (∀ d ∈ c :: s, isPlain d = true) → isPlain c = true :=
    fun h => h _ List.mem_cons_self
  induction h generalizing t with
  | nil =>
    cases t with
    | nil => rfl
    | cons d t =>
      obtain ⟨rfl, -⟩ := List.cons.inj hcut
      have hd := hplain ht
      rw [isPlain_of_isQuote hq₁] at hd
      cases hd
  | char hc _ _ ih =>
    cases t with
    | nil =>
      obtain ⟨rfl, -⟩ := List.cons.inj hcut
      rw [hc] at hq₂
      cases hq₂
    | cons d t =>
      obtain ⟨rfl, htail⟩ := List.cons.inj hcut
      rw [ih (fun c hc => ht c (List.mem_cons_of_mem _ hc)) htail]
  | escape =>
    cases t with
    | nil =>
      obtain ⟨rfl, -⟩ := List.cons.inj hcut
      cases hq₂
    | cons d t =>
      obtain ⟨rfl, -⟩ := List.cons.inj hcut
      cases hplain ht

/-- Where a run comes to a string outside of strings, no call goes on in it with other quotes. -/
theorem callBefore_inQuotes (hbody : Body b es) (hq₁ : isQuote q₁ = true) (hq₂ : isQuote q₂ = true)
    (hrun : Run .outside (s ++ (inQuotes q₁ b ++ r)) S .outside (inQuotes q₁ b ++ r)) :
    CallBefore s (inQuotes q₂ b ++ r) := by
  intro l x hfound
  obtain ⟨u, hu, hcall⟩ := constructor?_eq_some_iff.1 hfound
  rcases List.append_eq_append_iff.1 hu with ⟨y, rfl, hy⟩ | ⟨y, -, rfl⟩
  swap
  · simp
  cases y with
  | nil => exact (congrArg List.length hy).le
  | cons d y =>
    obtain ⟨rfl, htail⟩ := List.cons.inj hy
    have hparen : q₂ ≠ ')' := by
      rintro rfl
      cases hq₂
    rcases hcall.cut (isCallChar_of_isQuote hq₂) hparen with
      ⟨-, t, a, ht, rfl, hrequote⟩ | ⟨p, q, t, rfl, hp, hq, ht⟩
    · -- The string is all that stands in the quotes of the call, so the first run would skip it.
      have hcut : b ++ q₂ :: r = t ++ q₂ :: (a ++ [')'] ++ x) := by simpa using htail
      obtain rfl := hbody.eq_of_plain hq₂ hq₂ ht hcut
      obtain ⟨-, hr⟩ := List.cons.inj (List.append_cancel_left hcut)
      have hcall₁ := hrequote q₁ hq₁
      have htext : s ++ (inQuotes q₁ b ++ r) = s ++ q₁ :: (b ++ q₁ :: (a ++ [')'])) ++ x := by
        rw [hr]
        simp [inQuotes]
      cases s with
      | nil =>
        obtain ⟨c, v, hv, hc⟩ := hcall₁.eq_cons
        obtain ⟨rfl, -⟩ := List.cons.inj hv
        rcases isQuote_iff.1 hq₁ with rfl | rfl <;> cases hc
      | cons c s =>
        rw [List.cons_append] at hrun
        obtain ⟨T, -, hT⟩ := hrun.exists_step (by simp)
        have hfound₁ : constructor? (c :: s ++ (inQuotes q₁ b ++ r)) = some (l, x) :=
          htext ▸ constructor?_append hcall₁ x
        have hle := callBefore_of_step hT.length_le rfl l x hfound₁
        rw [hr] at hle
        simp [inQuotes] at hle
        omega
    · rw [List.append_assoc, List.cons_append] at hrun
      exact absurd hrun (not_run_into_call hp hq ht)

/-- A text in quotes begins a string. -/
theorem opensString_inQuotes (hq : isQuote q = true) (b r : List Char) :
    OpensString (inQuotes q b ++ r) :=
  ⟨q, rfl, hq⟩

/-- The pass comes to a string whatever quotes it has. -/
theorem Reaches.requote (hreach : Reaches p (inQuotes q₁ b ++ r)) (hbody : Body b es)
    (hq₁ : isQuote q₁ = true) (hq₂ : isQuote q₂ = true) : Reaches p (inQuotes q₂ b ++ r) := by
  obtain ⟨S, hS⟩ := hreach
  have h₁ := opensString_inQuotes hq₁ b r
  have h₂ := opensString_inQuotes hq₂ b r
  obtain ⟨T, hT, -⟩ := hS.transfer h₁.unsearched h₂.unsearched (.inr (atClose_append h₁ h₂ []))
    fun _ _ h => callBefore_inQuotes hbody hq₁ hq₂ h
  exact ⟨T, hT⟩

/-- A string without a single quote behind a backslash is written the same in quotes of either
kind, and so is the text around it. -/
theorem normalize_requote (hreach : Reaches p (inQuotes q₁ b ++ r)) (hbody : Body b es)
    (hes : '\'' ∉ es) (hq₁ : isQuote q₁ = true) (hq₂ : isQuote q₂ = true) :
    normalize (p ++ (inQuotes q₁ b ++ r)) = normalize (p ++ (inQuotes q₂ b ++ r)) ∧
      isBalanced (p ++ (inQuotes q₁ b ++ r)) = isBalanced (p ++ (inQuotes q₂ b ++ r)) := by
  obtain ⟨out, hpass, -⟩ := hbody.passes
  have hliteral : ∀ {q}, isQuote q = true →
      Passes .outside (inQuotes q b) ('"' :: (out ++ ['"'])) .outside r := fun hq =>
    .inQuotes hq fun r => hpass _ r (quotedMode_ne_outside hq) fun _ => hes
  have h₁ := opensString_inQuotes hq₁ b r
  have h₂ := opensString_inQuotes hq₂ b r
  obtain ⟨A, hwritten₁, hwritten₂, hbalanced⟩ := hreach.replace _ _ h₁.unsearched h₂.unsearched
    (.inr (atClose_append h₁ h₂ [])) (fun _ _ h => callBefore_inQuotes hbody hq₁ hq₂ h)
    (hliteral hq₁) (hliteral hq₂)
  exact ⟨hwritten₁.trans hwritten₂.symm, hbalanced⟩

end

end Dialect

namespace ArgumentText

section
variable {q q₁ q₂ : Char} {b es p r : List Char} {ws : List Value}

/-- A text with quotes in it is not blank. -/
theorem trim_inQuotes_ne_nil (hq : isQuote q = true) (p b r : List Char) :
    trim (p ++ (inQuotes q b ++ r)) ≠ [] := by
  intro h
  have hblank := trim_eq_nil_iff.1 h q (by simp [inQuotes])
  rw [isBlank_of_isQuote hq] at hblank
  cases hblank

/-- A string without a single quote behind a backslash is read the same in quotes of either kind. -/
theorem read_requote_iff (hreach : Reaches p (inQuotes q₁ b ++ r)) (hbody : Body b es)
    (hes : '\'' ∉ es) (hq₁ : isQuote q₁ = true) (hq₂ : isQuote q₂ = true) :
    read (String.ofList (p ++ (inQuotes q₁ b ++ r))) = .ok ws ↔
      read (String.ofList (p ++ (inQuotes q₂ b ++ r))) = .ok ws := by
  obtain ⟨hnormalize, hbalanced⟩ := normalize_requote hreach hbody hes hq₁ hq₂
  rw [read_eq_ok_iff_json, read_eq_ok_iff_json] <;> rw [String.toList_ofList]
  · rw [String.toList_ofList, hnormalize, hbalanced]
  · exact trim_inQuotes_ne_nil hq₂ p b r
  · exact trim_inQuotes_ne_nil hq₁ p b r

/-- A text with a single quote behind a backslash in a string with double quotes cannot be read. -/
theorem not_read_of_escaped_quote (hreach : Reaches p (inQuotes '"' b ++ r)) (hbody : Body b es)
    (hes : '\'' ∈ es) : read (String.ofList (p ++ (inQuotes '"' b ++ r))) ≠ .ok ws := by
  intro h
  obtain ⟨S, hS⟩ := hreach
  obtain ⟨hzone, -⟩ := hS.traced_start
  obtain ⟨out, hpass, hescape⟩ := hbody.passes
  obtain ⟨w, w', rfl, hw⟩ := hescape hes
  have hliteral : Passes .outside (inQuotes '"' b) _ .outside r :=
    .inQuotes rfl fun r => hpass .doubleQuoted r (by decide) nofun
  obtain ⟨vs, hitems, -⟩ := exists_trees_of_read h
  rw [String.toList_ofList, hS.normalize_eq, hliteral.normalize_append.1] at hitems
  rcases hitems with ⟨hblanks, -⟩ | hitems
  · have hquote := hblanks '"' (by simp)
    cases hquote
  · -- What is written up to the backslash leads into the string.
    generalize S.flatMap Step.written = A at hitems hzone
    have hcut : A ++ ('"' :: (w ++ '\\' :: '\'' :: w' ++ ['"']) ++ normalize r) =
        A ++ '"' :: (w ++ ['\\']) ++ '\'' :: (w' ++ '"' :: normalize r) := by simp
    rw [hcut] at hitems
    have hplace : Zone.outside.after (A ++ '"' :: (w ++ ['\\'])) = .escaped := by
      rw [Zone.after_append, hzone, Zone.after_cons, Zone.after_append]
      show (Zone.quoted.after w).after ['\\'] = .escaped
      rw [hw]
      rfl
    have hletter := (escaping_items _ _ _ hitems).letter_of_escaped hplace
    cases hletter

/-- **Quotes of either kind.** Let the pass come, outside of strings, to a string in which every
quote stands behind a backslash. If no single quote does, the same is read from the text with the
string in double quotes and in single quotes. If one does, the text with double quotes cannot be
read. -/
theorem read_quote_style (hq : isQuote q = true) (hbody : Body b es)
    (hreach : Reaches p (inQuotes q b ++ r)) :
    ('\'' ∉ es → ∀ ws, read (String.ofList (p ++ (inQuotes '"' b ++ r))) = .ok ws ↔
      read (String.ofList (p ++ (inQuotes '\'' b ++ r))) = .ok ws) ∧
    ('\'' ∈ es → ∀ ws, read (String.ofList (p ++ (inQuotes '"' b ++ r))) ≠ .ok ws) := by
  have hdouble : Reaches p (inQuotes '"' b ++ r) := hreach.requote hbody hq rfl
  exact ⟨fun hes ws => read_requote_iff hdouble hbody hes rfl rfl,
    fun hes ws => not_read_of_escaped_quote hdouble hbody hes⟩

/-- With a double quote behind a backslash, in an array. -/
theorem read_quote_style_array :
    isQuote '\'' = true ∧ Body ['a', '\\', '"'] ['"'] ∧
      Reaches ['['] (inQuotes '\'' ['a', '\\', '"'] ++ [']']) ∧
      ('\'' ∉ ['"'] → ∀ ws,
        read (String.ofList (['['] ++ (inQuotes '"' ['a', '\\', '"'] ++ [']']))) = .ok ws ↔
          read (String.ofList (['['] ++ (inQuotes '\'' ['a', '\\', '"'] ++ [']']))) = .ok ws) ∧
      ('\'' ∈ ['"'] → ∀ ws,
        read (String.ofList (['['] ++ (inQuotes '"' ['a', '\\', '"'] ++ [']']))) ≠ .ok ws) := by
  have hbody : Body ['a', '\\', '"'] ['"'] := .char rfl (by decide) (.escape .nil)
  have hreach : Reaches ['['] (inQuotes '\'' ['a', '\\', '"'] ++ [']']) := ⟨_, .step .done⟩
  exact ⟨rfl, hbody, hreach, read_quote_style rfl hbody hreach⟩

/-- **A single quote behind a backslash is read between single quotes only.** -/
theorem read_escaped_single_quote :
    read "'it\\'s'" = .ok [.text "it's"] ∧ ∀ ws, read "\"it\\'s\"" ≠ .ok ws := by
  have hsingle : Padded (Loose 0) "'it\\'s'".toList (.text "it's") :=
    .mk (a := []) (b := []) spaces_nil (LooseAtom.text (t := ['i', 't', '\'', 's']) rfl) spaces_nil
  have hbody : Body ['i', 't', '\\', '\'', 's'] ['\''] :=
    .char rfl (by decide) (.char rfl (by decide) (.escape (.char rfl (by decide) .nil)))
  have hdouble : Reaches [] (inQuotes '"' ['i', 't', '\\', '\'', 's'] ++ []) := ⟨[], .done⟩
  have htext : "\"it\\'s\"" =
      String.ofList ([] ++ (inQuotes '"' ['i', 't', '\\', '\'', 's'] ++ [])) := by decide
  refine ⟨?_, fun ws => ?_⟩
  · rw [read_items (.mk (.last hsingle) .none) (by decide)]
    rfl
  · rw [htext]
    exact not_read_of_escaped_quote hdouble hbody (by simp)

end

end ArgumentText

end ShellQuery
