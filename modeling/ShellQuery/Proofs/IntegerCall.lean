import ShellQuery.Proofs.ArgumentText
import ShellQuery.Proofs.Dialect.Immunity
import ShellQuery.Proofs.Dialect.Neighbours
import ShellQuery.Proofs.Json.Place
/-!
# Integers written for calls

A call for an integer of 32 bits is replaced by bare digits, and these become part of whatever
number they stand in. `read_int32_call` says which number this is: the digits and the numeric
characters that are written next to them on both sides, and no other. It has its place in the trees
of the list. If neither a numeric character nor another such call stands next to the call, the
number is the integer that the call denotes; `read_int32_calls_joined` is a text where it is not.
-/

namespace ShellQuery

open Text Decimal Dialect Json

namespace Json

section
variable {s : List Char} {m n : Number}

/-- A text writes one number. -/
theorem Signed.unique (h : Signed s m) (h' : Signed s n) : m = n := by
  have hreads : ∀ {f : List Char → Except Fault (Number × List Char)} {t : List Char},
      ReadsAs f t m → ReadsAs f t n → m = n := by
    intro f t hm hn
    have heq := (hm.2 [] stops_nil).symm.trans (hn.2 [] stops_nil)
    simpa using heq
  cases h with
  | negative _ hm =>
    cases h' with
    | negative _ hn => exact hreads hm hn
    | positive hd => cases hd
  | positive hd hm =>
    cases h' with
    | negative => cases hd
    | positive _ hn => exact hreads hm hn

/-- An integer begins as numbers do. -/
theorem ofInt_eq_cons (i : Int) : ∃ c s, ofInt i = c :: s ∧ opensNumber c = true := by
  by_cases hi : i < 0
  · exact ⟨'-', ofNat i.natAbs, if_pos hi, rfl⟩
  · rw [ofInt, if_neg hi]
    cases hof : ofNat i.natAbs with
    | nil => exact absurd hof (ofNat_ne_nil _)
    | cons c s =>
      have hc : c.isDigit = true := isDigit_of_mem_ofNat (hof ▸ List.mem_cons_self)
      exact ⟨c, s, rfl, by simp [opensNumber, hc]⟩

end

end Json

namespace Dialect

section
variable {u r p : List Char} {i : Int} {l : Literal}

/-- An integer in 32 bits comes from a numeral that fits. -/
theorem fitsInt32_of_call (h : Call u (.int32 i)) : fitsInt32 i = true := by
  obtain ⟨form, s, harg⟩ := h.exists_argument
  cases harg with
  | int32 _ hfits => exact hfits

/-- No call begins with a closing bracket. -/
theorem atClose_call (h : Call u l) (r : List Char) : atClose (u ++ r) = false := by
  obtain ⟨c, v, rfl, hc⟩ := h.eq_cons
  simp only [opensCall, Bool.or_eq_true, beq_iff_eq] at hc
  rcases hc with (((rfl | rfl) | rfl) | rfl) | rfl <;> rfl

end

end Dialect

namespace ArgumentText

/-- **An integer written for a call becomes part of one number.** The number is written by the
integer and the numeric characters next to it, and it has its place in the trees of the list. These
characters come from numeric characters, or from other such calls, that stand next to the call in
the text. Where there are none, the number is the integer. -/
theorem read_int32_call {text : String} {p u r : List Char} {S : List Step} {ws : List Value}
    {i : Int} (h : read text = .ok ws) (htext : text.toList = p ++ (u ++ r))
    (hrun : Run .outside (p ++ (u ++ r)) S .outside (u ++ r)) (hcall : Call u (.int32 i)) :
    ∃ a x y b n f, S.flatMap Step.written = a ++ x ∧ normalize r = y ++ b ∧
      normalize text.toList = a ++ (x ++ (ofInt i ++ y) ++ b) ∧
      Place (Items (Core (maxDepth - 1))) (InList InTree) a b f ∧ Signed (x ++ (ofInt i ++ y)) n ∧
      Value.ofJsonItems ((f n).map merged) = .ok ws ∧
      (x ≠ [] → EndsNumeric p) ∧ (y ≠ [] → BeginsNumeric r) ∧
      (x = [] → y = [] → n = .int i) := by
  obtain ⟨c, s, hof, hopens⟩ := ofInt_eq_cons i
  have hnumeric : ∀ d ∈ c :: s, isNumeric d = true := hof ▸ fun _ => isNumeric_of_mem_ofInt
  have hnormalize : normalize text.toList =
      S.flatMap Step.written ++ c :: (s ++ normalize r) := by
    have hbehind : normalize (u ++ r) = c :: s ++ normalize r :=
      hof ▸ (Passes.call hcall).normalize_append.1
    rw [htext, hrun.normalize_eq, hbehind, List.cons_append]
  obtain ⟨trees, ⟨hblanks, -⟩ | hitems, hvalues⟩ := exists_trees_of_read h
  · -- A digit or a minus sign is no blank.
    have hblank := hblanks c (by rw [hnormalize]; simp)
    rw [isBlank_of_isNumeric (hnumeric c List.mem_cons_self)] at hblank
    cases hblank
  obtain ⟨a, x, v, b, n, f, hbefore, hv, hsigned, rfl, hplace⟩ :=
    holdsNumbers_items _ _ _ hitems _ c _ hnormalize hopens hrun.traced_start.1
  -- The number does not end inside of the integer.
  obtain ⟨y, rfl, hbehind⟩ : ∃ y, v = c :: s ++ y ∧ normalize r = y ++ b := by
    rw [← List.cons_append] at hv
    rcases List.append_eq_append_iff.1 hv with ⟨y, hy, hr⟩ | ⟨z, hz, hb⟩
    · exact ⟨y, hy, hr⟩
    · cases z with
      | nil => exact ⟨[], by simpa using hz.symm, by simpa using hb.symm⟩
      | cons d z =>
        have hstop := hplace.behind
        rw [hb, List.cons_append, stops_cons, hnumeric d (by rw [hz]; simp)] at hstop
        cases hstop
  have hchars := hsigned.isNumeric
  refine ⟨a, x, y, b, n, f, hbefore, hbehind, ?_, hplace, hof ▸ hsigned, hvalues, ?_, ?_, ?_⟩
  · rw [hnormalize, hbefore, hbehind, hof]
    simp
  · intro hne
    obtain ⟨x, d, rfl⟩ := (List.eq_nil_or_concat x).resolve_left hne
    rw [List.concat_eq_append] at hbefore hchars
    exact endsNumeric_of_run hrun (atClose_call hcall r) (hchars d (by simp))
      (by rw [hbefore, List.append_assoc])
  · intro hne
    cases y with
    | nil => exact absurd rfl hne
    | cons d y => exact beginsNumeric_of_normalize (hchars d (by simp)) hbehind
  · rintro rfl rfl
    have hfits := fitsInt32_of_call hcall
    simp only [fitsInt32, Bool.and_eq_true, decide_eq_true_eq] at hfits
    rw [List.nil_append, List.append_nil, ← hof] at hsigned
    exact hsigned.unique (signed_ofInt (by omega) (by omega))

/-- A numeral that fits, without quotes, is a call of `NumberInt`. -/
theorem call_numberInt {s : List Char} {n : Numeral} (h : NumeralText s n)
    (hfits : fitsInt32 n.toInt = true) :
    Call ("NumberInt(".toList ++ (s ++ [')'])) (.int32 n.toInt) := by
  have hrow : ("NumberInt", Form.int32) ∈ constructors := by simp [constructors]
  exact .plain (.mk (a := []) (b := []) hrow blanks_nil (.int32 (.bare h) hfits) blanks_nil)

/-- A call between brackets is read as its number. -/
theorem read_int32_call_item :
    read "[NumberInt(-7)]" = .ok [.array [.number (.int (-7))]] ∧
      Call "NumberInt(-7)".toList (.int32 (-7)) ∧
      ∃ S, Run .outside "[NumberInt(-7)]".toList S .outside "NumberInt(-7)]".toList ∧
        ∃ a x y b n f, S.flatMap Step.written = a ++ x ∧ normalize [']'] = y ++ b ∧
          normalize "[NumberInt(-7)]".toList = a ++ (x ++ (['-', '7'] ++ y) ++ b) ∧
          Place (Items (Core (maxDepth - 1))) (InList InTree) a b f ∧
          Signed (x ++ (['-', '7'] ++ y)) n ∧
          Value.ofJsonItems ((f n).map merged) = .ok [.array [.number (.int (-7))]] ∧
          (x ≠ [] → EndsNumeric ['[']) ∧ (y ≠ [] → BeginsNumeric [']']) ∧
          (x = [] → y = [] → n = .int (-7)) := by
  have hnumeral : NumeralText ['-', '7'] ⟨true, ['7']⟩ := .minus (by simp) (by simp)
  have hcall : Call "NumberInt(-7)".toList (.int32 (-7)) := call_numberInt hnumeral rfl
  have hnumber : Core 0 (Literal.int32 (-7)).spelling (.number (.int (-7))) :=
    .number (signed_ofInt (by decide) (by decide))
  have hitem : Padded (Loose 0) "NumberInt(-7)".toList (.number (.int (-7))) :=
    .mk (a := []) (b := []) spaces_nil (LooseAtom.call hcall hnumber) spaces_nil
  have harray : Padded (Loose 1) "[NumberInt(-7)]".toList (.array [.number (.int (-7))]) :=
    .mk (a := []) (b := []) spaces_nil (LooseNested.array (.mk (.last hitem) .none)) spaces_nil
  have hread : read "[NumberInt(-7)]" = .ok [.array [.number (.int (-7))]] := by
    rw [read_items (.mk (.last harray) .none) (by decide)]
    rfl
  have hrun : Run .outside "[NumberInt(-7)]".toList _ .outside "NumberInt(-7)]".toList :=
    .step .done
  exact ⟨hread, hcall, _, hrun, read_int32_call (p := ['[']) (r := [']']) hread rfl hrun hcall⟩

/-- **Two calls become one number.** Both are recognized, and their integers are written one behind
the other with nothing between them. -/
theorem read_int32_calls_joined :
    Call "NumberInt(1)".toList (.int32 1) ∧ Call "NumberInt(2)".toList (.int32 2) ∧
      Reaches [] "NumberInt(1)NumberInt(2)".toList ∧
      Reaches "NumberInt(1)".toList "NumberInt(2)".toList ∧
      normalize "NumberInt(1)NumberInt(2)".toList = ofInt 12 ∧
      read "NumberInt(1)NumberInt(2)" = .ok [.number (.int 12)] := by
  have hdigit : ∀ d i, d.isDigit = true → Numeral.toInt ⟨false, [d]⟩ = i → fitsInt32 i = true →
      Call ("NumberInt(".toList ++ [d, ')']) (.int32 i) := by
    rintro d i hd rfl hfits
    have hnumeral : NumeralText [d] ⟨false, [d]⟩ := .bare (by simp) (by simpa using hd)
    exact call_numberInt hnumeral hfits
  have hone : Call "NumberInt(1)".toList (.int32 1) := hdigit '1' 1 rfl (by decide) rfl
  have htwo : Call "NumberInt(2)".toList (.int32 2) := hdigit '2' 2 rfl (by decide) rfl
  obtain ⟨S, hS, -⟩ := Passes.call (r := "NumberInt(2)".toList) hone
  have htext : "NumberInt(1)NumberInt(2)".toList =
      "NumberInt(1)".toList ++ "NumberInt(2)".toList := rfl
  have hdigits : ofInt 12 = ofInt 1 ++ ofInt 2 := by decide
  have hsecond := Passes.call (r := []) htwo
  rw [← List.append_nil "NumberInt(2)".toList] at hsecond
  obtain ⟨hnormalize, hbalanced⟩ := ((Passes.call hone).append hsecond).normalize
  rw [List.append_nil, ← htext] at hnormalize hbalanced
  replace hnormalize : normalize "NumberInt(1)NumberInt(2)".toList = ofInt 12 :=
    hnormalize.trans hdigits.symm
  have hitems : Items (Core 0) (normalize "NumberInt(1)NumberInt(2)".toList)
      [.number (.int 12)] := by
    rw [hnormalize]
    have hnumber : Core 0 (ofInt 12) (.number (.int 12)) :=
      .number (signed_ofInt (by decide) (by decide))
    simpa using Listed.last (Padded.mk (a := []) (b := []) spaces_nil hnumber spaces_nil)
  refine ⟨hone, htwo, ⟨[], .done⟩, ⟨S, hS⟩, hnormalize, ?_⟩
  rw [read_of_items hbalanced hitems (by decide)]
  rfl

end ArgumentText

end ShellQuery
