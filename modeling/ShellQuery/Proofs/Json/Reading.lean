import ShellQuery.Proofs.Json.Grammar
/-!
# The reader accepts the grammar

`read_eq_ok_iff` is the main statement: the reader takes a text for a value exactly if the grammar
relates the text to a tree that merges to this value. `Reads item core` says it of a reader of
items and the language one level down. It passes from the items to arrays and objects of them and
from there to values one level up (`Reads.succ`), so it holds of every depth by recursion.
-/

namespace ShellQuery.Json

open Text

/-- A reader and a language agree: the reader takes each text of the language for its tree, with
repeated keys merged, and takes nothing else. -/
structure Reads (item : Reader Json) (core : Language) : Prop where
  opens : Opens core
  complete : ∀ {a s r : List Char} {v : Json}, Spaces a → core s v → Stops isNumeric r →
    item.read (a ++ (s ++ r)) = .ok (v.merged, r)
  sound : ∀ {s r : List Char} {w : Json}, item.read s = .ok (w, r) →
    ∃ a t v, s = a ++ (t ++ r) ∧ Spaces a ∧ core t v ∧ v.merged = w

section
variable {item : Reader Json} {core : Language} {a b s t r : List Char} {v w : Json}

/-- What opens a value stops a run of blanks. -/
theorem Opens.stops (h : Opens core) (hs : core s v) (r : List Char) : Stops isSpace (s ++ r) := by
  obtain ⟨c, u, rfl, hc⟩ := h s v hs
  simpa using isSpace_of_opensValue hc

/-- What skipping leaves stands behind blanks. -/
theorem skipSpace_eq_cons {c : Char} (h : skipSpace s = c :: r) :
    ∃ a, s = a ++ c :: r ∧ Spaces a :=
  ⟨s.takeWhile isSpace, by rw [← h, takeWhile_append_skipSpace], spaces_takeWhile s⟩

/-! ## Arrays -/

/-- A closing bracket ends the items. -/
theorem readMoreItems_close (hb : Spaces b) (r : List Char) :
    readMoreItems item (b ++ ']' :: r) = .ok ([], r) := by
  rw [readMoreItems]
  have hskip : skipSpace (b ++ ']' :: r) = ']' :: r := skipSpace_append hb (by simp [isSpace])
  split
  · simp_all
  · rename_i c u hu
    rw [hskip] at hu
    cases hu
    simp

/-- A comma and an item, and then the items behind it. -/
theorem readMoreItems_comma {vs : List Json} {d : Char} {u r' : List Char} (hb : Spaces b)
    (hd : skipSpace r = d :: u) (hne : d ≠ ']') (hv : item.read r = .ok (v, r'))
    (hvs : readMoreItems item r' = .ok (vs, t)) :
    readMoreItems item (b ++ ',' :: r) = .ok (v :: vs, t) := by
  have hskip : skipSpace (b ++ ',' :: r) = ',' :: r := skipSpace_append hb (by simp [isSpace])
  rw [readMoreItems]
  split
  · simp_all
  · rename_i c w hw
    rw [hskip] at hw
    cases hw
    simp only [show ¬(',' = ']') by decide, if_false, if_true, hd, if_neg hne]
    split
    · simp_all
    · rename_i v' x hx
      rw [hv] at hx
      cases hx
      rw [hvs]

/-- A comma, an item and what follows it. -/
theorem Reads.readMoreItems_padded {l : List Json} (h : Reads item core) (hb : Spaces b)
    (hs : Padded core s v) (hr : Stops isNumeric r) :
    ∃ b', Spaces b' ∧ (readMoreItems item (b' ++ r) = .ok (l, t) →
      readMoreItems item (b ++ ',' :: (s ++ r)) = .ok (v.merged :: l, t)) := by
  cases hs with
  | @mk a s b' v ha hv hb' =>
  refine ⟨b', hb', fun hvs => ?_⟩
  obtain ⟨c, u, hcu, hc⟩ := h.opens _ _ hv
  have hassoc : a ++ (s ++ b') ++ r = a ++ (s ++ (b' ++ r)) := by simp
  have hskip : skipSpace (a ++ (s ++ b') ++ r) = c :: (u ++ (b' ++ r)) := by
    rw [hassoc, skipSpace_append ha (h.opens.stops hv _), hcu, List.cons_append]
  refine readMoreItems_comma hb hskip ?_ ?_ hvs
  · rintro rfl
    cases hc
  · rw [hassoc]
    exact h.complete ha hv (stops_isNumeric_append hb' hr)

/-- Items behind a comma are read as their trees. -/
theorem Reads.readMoreItems_items {vs : List Json} (h : Reads item core) (hs : Items core s vs)
    (hb : Spaces b) (r : List Char) :
    readMoreItems item (b ++ ',' :: (s ++ ']' :: r)) = .ok (vs.map merged, r) := by
  induction hs generalizing b with
  | last hv =>
    obtain ⟨b', hb', hmore⟩ := h.readMoreItems_padded (l := []) (t := r) (r := ']' :: r) hb hv
      (by simp [isNumeric])
    exact hmore (readMoreItems_close hb' r)
  | @more s u v vs hv _ ih =>
    obtain ⟨b', hb', hmore⟩ := h.readMoreItems_padded (l := vs.map merged) (t := r)
      (r := ',' :: (u ++ ']' :: r)) hb hv (by simp [isNumeric])
    rw [List.append_assoc, List.cons_append]
    exact hmore (ih hb')

/-- What is taken for the items behind one of them is blanks, or a comma and items of the language.
-/
theorem Reads.readMoreItems_eq_ok {ws : List Json} (h : Reads item core)
    (hs : readMoreItems item s = .ok (ws, r)) :
    (∃ b, s = b ++ ']' :: r ∧ Spaces b ∧ ws = []) ∨
      ∃ b t vs, s = b ++ ',' :: (t ++ ']' :: r) ∧ Spaces b ∧ Items core t vs ∧
        vs.map merged = ws := by
  fun_induction readMoreItems item s generalizing ws with
  | case2 s u hu =>
    simp only [Except.ok.injEq, Prod.mk.injEq] at hs
    obtain ⟨rfl, rfl⟩ := hs
    obtain ⟨b, rfl, hb⟩ := skipSpace_eq_cons hu
    exact .inl ⟨b, rfl, hb, rfl⟩
  | case7 s u d x _ _ w r' hw ws' rest hws hsu _ ih =>
    simp only [Except.ok.injEq, Prod.mk.injEq] at hs
    obtain ⟨rfl, rfl⟩ := hs
    obtain ⟨b, rfl, hb⟩ := skipSpace_eq_cons hsu
    obtain ⟨a, t, v, rfl, ha, hv, rfl⟩ := h.sound hw
    refine .inr ?_
    rcases ih hws with ⟨b', rfl, hb', rfl⟩ | ⟨b', t', vs, rfl, hb', hvs, rfl⟩
    · exact ⟨b, a ++ (t ++ b'), [v], by simp, hb, .last ⟨ha, hv, hb'⟩, rfl⟩
    · exact ⟨b, a ++ (t ++ b') ++ ',' :: t', v :: vs, by simp, hb, .more ⟨ha, hv, hb'⟩ hvs, rfl⟩
  | _ => cases hs

/-- Between two brackets there may be blanks only. -/
theorem readItems_empty (hb : Spaces b) (r : List Char) :
    readItems item (b ++ ']' :: r) = .ok ([], r) := by
  have hskip : skipSpace (b ++ ']' :: r) = ']' :: r := skipSpace_append hb (by simp [isSpace])
  simp [readItems, hskip]

/-- The first item and what follows it. -/
theorem Reads.readItems_padded {l : List Json} (h : Reads item core) (hs : Padded core s v)
    (hr : Stops isNumeric r) :
    ∃ b, Spaces b ∧ (readMoreItems item (b ++ r) = .ok (l, t) →
      readItems item (s ++ r) = .ok (v.merged :: l, t)) := by
  cases hs with
  | @mk a s b v ha hv hb =>
  refine ⟨b, hb, fun hvs => ?_⟩
  obtain ⟨c, u, hcu, hc⟩ := h.opens _ _ hv
  have hne : c ≠ ']' := by
    rintro rfl
    cases hc
  have hassoc : a ++ (s ++ b) ++ r = a ++ (s ++ (b ++ r)) := by simp
  have hskip : skipSpace (a ++ (s ++ (b ++ r))) = c :: (u ++ (b ++ r)) := by
    rw [skipSpace_append ha (h.opens.stops hv _), hcu, List.cons_append]
  rw [hassoc]
  simp only [readItems, hskip, if_neg hne, h.complete ha hv (stops_isNumeric_append hb hr), hvs]

/-- Items are read as their trees. -/
theorem Reads.readItems_items {vs : List Json} (h : Reads item core) (hs : Items core s vs)
    (r : List Char) : readItems item (s ++ ']' :: r) = .ok (vs.map merged, r) := by
  cases hs with
  | last hv =>
    obtain ⟨b, hb, hmore⟩ := h.readItems_padded (l := []) (t := r) (r := ']' :: r) hv
      (by simp [isNumeric])
    exact hmore (readMoreItems_close hb r)
  | @more s u v vs hv hvs =>
    obtain ⟨b, hb, hmore⟩ := h.readItems_padded (l := vs.map merged) (t := r)
      (r := ',' :: (u ++ ']' :: r)) hv (by simp [isNumeric])
    rw [List.append_assoc, List.cons_append]
    exact hmore (h.readMoreItems_items hvs hb r)

/-- What is taken for the items of an array is blanks, or items of the language. -/
theorem Reads.readItems_eq_ok {ws : List Json} (h : Reads item core)
    (hs : readItems item s = .ok (ws, r)) :
    (∃ b, s = b ++ ']' :: r ∧ Spaces b ∧ ws = []) ∨
      ∃ t vs, s = t ++ ']' :: r ∧ Items core t vs ∧ vs.map merged = ws := by
  cases readItems_cases hs with
  | none hclose =>
    obtain ⟨b, rfl, hb⟩ := skipSpace_eq_cons hclose
    exact .inl ⟨b, rfl, hb, rfl⟩
  | some hw hws =>
    obtain ⟨a, t, v, rfl, ha, hv, rfl⟩ := h.sound hw
    refine .inr ?_
    rcases h.readMoreItems_eq_ok hws with ⟨b, rfl, hb, rfl⟩ | ⟨b, t', vs, rfl, hb, hvs, rfl⟩
    · exact ⟨a ++ (t ++ b), [v], by simp, .last ⟨ha, hv, hb⟩, rfl⟩
    · exact ⟨a ++ (t ++ b) ++ ',' :: t', v :: vs, by simp, .more ⟨ha, hv, hb⟩ hvs, rfl⟩

/-! ## Objects -/

/-- A member behind its opening quote, up to the blanks behind its value. -/
theorem Reads.readMember_member {m : String × Json} (h : Reads item core) (hs : Member core s m)
    (hr : Stops isNumeric r) :
    ∃ a u b, s = a ++ '"' :: u ∧ Spaces a ∧ Spaces b ∧
      readMember item (u ++ r) = .ok (mergedMember m, b ++ r) := by
  cases hs with
  | @mk a k b s key v ha hk hb hpad =>
  cases hpad with
  | @mk c s d v hc hv hd =>
  refine ⟨a, _, d, rfl, ha, hd, ?_⟩
  have hassoc : k ++ '"' :: (b ++ ':' :: (c ++ (s ++ d))) ++ r =
      k ++ '"' :: (b ++ ':' :: (c ++ (s ++ (d ++ r)))) := by simp
  have hskip : skipSpace (b ++ ':' :: (c ++ (s ++ (d ++ r)))) = ':' :: (c ++ (s ++ (d ++ r))) :=
    skipSpace_append hb (by simp [isSpace])
  rw [hassoc]
  simp only [readMember, readString_append hk, hskip, if_true,
    h.complete hc hv (stops_isNumeric_append hd hr), mergedMember]

/-- What is taken for a member is one, with any blanks around it. -/
theorem Reads.readMember_eq_ok {m : String × Json} (h : Reads item core)
    (hs : readMember item s = .ok (m, r)) :
    ∃ t m', s = t ++ r ∧ (∀ a b, Spaces a → Spaces b → Member core (a ++ '"' :: (t ++ b)) m') ∧
      mergedMember m' = m := by
  obtain ⟨key, u, x, w, hkey, hcolon, hw, rfl⟩ := readMember_parts hs
  obtain ⟨k, rfl, hk⟩ := readString_eq_ok hkey
  obtain ⟨b, rfl, hb⟩ := skipSpace_eq_cons hcolon
  obtain ⟨a, t, v, rfl, ha, hv, rfl⟩ := h.sound hw
  refine ⟨k ++ '"' :: (b ++ ':' :: (a ++ t)), (String.ofList key, v), by simp, ?_, rfl⟩
  intro a' b' ha' hb'
  have hmember := Member.mk ha' hk hb (Padded.mk ha hv hb')
  simpa using hmember

/-- A closing brace ends the members. -/
theorem readMoreMembers_close (hb : Spaces b) (r : List Char) :
    readMoreMembers item (b ++ '}' :: r) = .ok ([], r) := by
  have hskip : skipSpace (b ++ '}' :: r) = '}' :: r := skipSpace_append hb (by simp [isSpace])
  rw [readMoreMembers]
  split
  · simp_all
  · rename_i c u hu
    rw [hskip] at hu
    cases hu
    simp

/-- A comma and a member, and then the members behind it. -/
theorem readMoreMembers_comma {ms : List (String × Json)} {m : String × Json} {u r' : List Char}
    (hb : Spaces b) (hd : skipSpace r = '"' :: u) (hm : readMember item u = .ok (m, r'))
    (hms : readMoreMembers item r' = .ok (ms, t)) :
    readMoreMembers item (b ++ ',' :: r) = .ok (m :: ms, t) := by
  have hskip : skipSpace (b ++ ',' :: r) = ',' :: r := skipSpace_append hb (by simp [isSpace])
  rw [readMoreMembers]
  split
  · simp_all
  · rename_i c w hw
    rw [hskip] at hw
    cases hw
    simp only [show ¬(',' = '}') by decide, if_false, if_true]
    split
    · simp_all
    · rename_i d x hx
      rw [hd] at hx
      cases hx
      simp only [if_true]
      split
      · simp_all
      · rename_i m' y hy
        rw [hm] at hy
        cases hy
        rw [hms]

/-- Members behind a comma are read with their trees. -/
theorem Reads.readMoreMembers_members {ms : List (String × Json)} (h : Reads item core)
    (hs : Members core s ms) (hb : Spaces b) (r : List Char) :
    readMoreMembers item (b ++ ',' :: (s ++ '}' :: r)) = .ok (ms.map mergedMember, r) := by
  induction hs generalizing b with
  | last hm =>
    obtain ⟨a, u, b', rfl, ha, hb', hread⟩ := h.readMember_member (r := '}' :: r) hm
      (by simp [isNumeric])
    refine readMoreMembers_comma (u := u ++ '}' :: r) hb ?_ hread (readMoreMembers_close hb' r)
    rw [List.append_assoc, skipSpace_append ha (by simp [isSpace]), List.cons_append]
  | @more s x m ms hm _ ih =>
    obtain ⟨a, u, b', rfl, ha, hb', hread⟩ := h.readMember_member (r := ',' :: (x ++ '}' :: r)) hm
      (by simp [isNumeric])
    rw [List.append_assoc, List.cons_append]
    refine readMoreMembers_comma (u := u ++ ',' :: (x ++ '}' :: r)) hb ?_ hread (ih hb')
    rw [List.append_assoc, skipSpace_append ha (by simp [isSpace]), List.cons_append]

/-- What is taken for the members behind one of them is blanks, or a comma and members of the
language. -/
theorem Reads.readMoreMembers_eq_ok {ns : List (String × Json)} (h : Reads item core)
    (hs : readMoreMembers item s = .ok (ns, r)) :
    (∃ b, s = b ++ '}' :: r ∧ Spaces b ∧ ns = []) ∨
      ∃ b t ms, s = b ++ ',' :: (t ++ '}' :: r) ∧ Spaces b ∧ Members core t ms ∧
        ms.map mergedMember = ns := by
  fun_induction readMoreMembers item s generalizing ns with
  | case2 s u hu =>
    simp only [Except.ok.injEq, Prod.mk.injEq] at hs
    obtain ⟨rfl, rfl⟩ := hs
    obtain ⟨b, rfl, hb⟩ := skipSpace_eq_cons hu
    exact .inl ⟨b, rfl, hb, rfl⟩
  | case6 s u x n r' hn ns' rest hns hsu _ hux ih =>
    simp only [Except.ok.injEq, Prod.mk.injEq] at hs
    obtain ⟨rfl, rfl⟩ := hs
    obtain ⟨b, rfl, hb⟩ := skipSpace_eq_cons hsu
    obtain ⟨a, rfl, ha⟩ := skipSpace_eq_cons hux
    obtain ⟨t, m, rfl, hm, rfl⟩ := h.readMember_eq_ok hn
    refine .inr ?_
    rcases ih hns with ⟨b', rfl, hb', rfl⟩ | ⟨b', t', ms, rfl, hb', hms, rfl⟩
    · exact ⟨b, a ++ '"' :: (t ++ b'), [m], by simp, hb, .last (hm a b' ha hb'), rfl⟩
    · exact ⟨b, a ++ '"' :: (t ++ b') ++ ',' :: t', m :: ms, by simp, hb,
        .more (hm a b' ha hb') hms, rfl⟩
  | _ => cases hs

/-- Between two braces there may be blanks only. -/
theorem readMembers_empty (hb : Spaces b) (r : List Char) :
    readMembers item (b ++ '}' :: r) = .ok ([], r) := by
  have hskip : skipSpace (b ++ '}' :: r) = '}' :: r := skipSpace_append hb (by simp [isSpace])
  simp [readMembers, hskip]

/-- Members are read with their trees. -/
theorem Reads.readMembers_members {ms : List (String × Json)} (h : Reads item core)
    (hs : Members core s ms) (r : List Char) :
    readMembers item (s ++ '}' :: r) = .ok (ms.map mergedMember, r) := by
  cases hs with
  | last hm =>
    obtain ⟨a, u, b, rfl, ha, hb, hread⟩ := h.readMember_member (r := '}' :: r) hm
      (by simp [isNumeric])
    have hskip : skipSpace (a ++ '"' :: u ++ '}' :: r) = '"' :: (u ++ '}' :: r) := by
      rw [List.append_assoc, skipSpace_append ha (by simp [isSpace]), List.cons_append]
    simp only [readMembers, hskip, show ¬('"' = '}') by decide, if_false, if_true, hread,
      readMoreMembers_close hb, List.map_cons, List.map_nil]
  | @more s x m ms hm hms =>
    obtain ⟨a, u, b, rfl, ha, hb, hread⟩ := h.readMember_member (r := ',' :: (x ++ '}' :: r)) hm
      (by simp [isNumeric])
    have hskip : skipSpace (a ++ '"' :: u ++ ',' :: x ++ '}' :: r) =
        '"' :: (u ++ ',' :: (x ++ '}' :: r)) := by
      rw [List.append_assoc, List.append_assoc, skipSpace_append ha (by simp [isSpace])]
      simp
    simp only [readMembers, hskip, show ¬('"' = '}') by decide, if_false, if_true, hread,
      h.readMoreMembers_members hms hb r, List.map_cons]

/-- What is taken for the members of an object is blanks, or members of the language. -/
theorem Reads.readMembers_eq_ok {ns : List (String × Json)} (h : Reads item core)
    (hs : readMembers item s = .ok (ns, r)) :
    (∃ b, s = b ++ '}' :: r ∧ Spaces b ∧ ns = []) ∨
      ∃ t ms, s = t ++ '}' :: r ∧ Members core t ms ∧ ms.map mergedMember = ns := by
  cases readMembers_cases hs with
  | none hclose =>
    obtain ⟨b, rfl, hb⟩ := skipSpace_eq_cons hclose
    exact .inl ⟨b, rfl, hb, rfl⟩
  | some hquote hn hns =>
    obtain ⟨a, rfl, ha⟩ := skipSpace_eq_cons hquote
    obtain ⟨t, m, rfl, hm, rfl⟩ := h.readMember_eq_ok hn
    refine .inr ?_
    rcases h.readMoreMembers_eq_ok hns with ⟨b, rfl, hb, rfl⟩ | ⟨b, t', ms, rfl, hb, hms, rfl⟩
    · exact ⟨a ++ '"' :: (t ++ b), [m], by simp, .last (hm a b ha hb), rfl⟩
    · exact ⟨a ++ '"' :: (t ++ b) ++ ',' :: t', m :: ms, by simp, .more (hm a b ha hb) hms, rfl⟩

/-! ## Values -/

/-- A word is read, whatever stands behind it. -/
theorem readWord_append (w r : List Char) : readWord w (w ++ r) = .ok r := by
  induction w with
  | nil => rfl
  | cons c w ih => simp [readWord, ih]

/-- What is taken for a word is the word. -/
theorem readWord_eq_ok {w : List Char} (h : readWord w s = .ok r) : s = w ++ r := by
  induction w generalizing s with
  | nil => simpa [readWord] using h
  | cons c w ih =>
    cases s with
    | nil => cases h
    | cons d s =>
      simp only [readWord] at h
      split at h
      · rename_i hd
        rw [ih h, hd, List.cons_append]
      · cases h

/-- A scalar is read as its tree from its first character on. -/
theorem readFrom_scalar {inner : Option (Reader Json)} (h : Scalar s v) (hr : Stops isNumeric r) :
    ∃ c u, s ++ r = c :: u ∧ isSpace c = false ∧ readFrom inner c u = .ok (v.merged, r) := by
  cases h with
  | null =>
    refine ⟨'n', ['u', 'l', 'l'] ++ r, rfl, rfl, ?_⟩
    show (readWord ['u', 'l', 'l'] (['u', 'l', 'l'] ++ r)).map _ = _
    rw [readWord_append]
    rfl
  | true =>
    refine ⟨'t', ['r', 'u', 'e'] ++ r, rfl, rfl, ?_⟩
    show (readWord ['r', 'u', 'e'] (['r', 'u', 'e'] ++ r)).map _ = _
    rw [readWord_append]
    rfl
  | false =>
    refine ⟨'f', ['a', 'l', 's', 'e'] ++ r, rfl, rfl, ?_⟩
    show (readWord ['a', 'l', 's', 'e'] (['a', 'l', 's', 'e'] ++ r)).map _ = _
    rw [readWord_append]
    rfl
  | number h =>
    cases h with
    | negative _ hread =>
      exact ⟨'-', _, rfl, rfl, by simp [readFrom, hread.2 r hr, Except.map, merged]⟩
    | positive hd hread =>
      obtain ⟨c, u, rfl, hc⟩ := startsWithDigit_eq_true hd
      have hn := hread.2 r hr
      rw [List.cons_append] at hn
      refine ⟨c, _, rfl, isSpace_of_opensValue (opensValue_of_isDigit hc), ?_⟩
      have hne : ∀ d : Char, d.isDigit = false → c ≠ d := by
        rintro d hd rfl
        simp [hc] at hd
      simp [readFrom, hne 'n' rfl, hne 't' rfl, hne 'f' rfl, hne '-' rfl, hc, hn, Except.map,
        merged]
  | text h =>
    refine ⟨'"', _, rfl, rfl, ?_⟩
    simp [readFrom, readString_append h, Except.map, merged]

/-- A value with brackets is read from its first character on, if the items are read. -/
theorem Reads.readFrom_nested (h : Reads item core) (hs : Nested core s v)
    (hr : Stops isNumeric r) :
    ∃ c u, s ++ r = c :: u ∧ isSpace c = false ∧
      readFrom (some item) c u = .ok (v.merged, r) := by
  cases hs with
  | scalar hs => exact readFrom_scalar hs hr
  | emptyArray hb =>
    refine ⟨'[', _, rfl, rfl, ?_⟩
    simp [readFrom, readItems_empty hb, Except.map, merged, mergedItems]
  | array hs =>
    refine ⟨'[', _, rfl, rfl, ?_⟩
    simp [readFrom, h.readItems_items hs, Except.map, merged, mergedItems_eq_map]
  | emptyObject hb =>
    refine ⟨'{', _, rfl, rfl, ?_⟩
    simp [readFrom, readMembers_empty hb, Except.map, merged, mergedFields, Fields.merge]
  | object hs =>
    refine ⟨'{', _, rfl, rfl, ?_⟩
    simp [readFrom, h.readMembers_members hs, Except.map, merged, mergedFields_eq_map]

/-- What the reader takes for a value is a scalar, or, where it may descend, brackets and what is
between them. -/
theorem readFrom_eq_ok {inner : Option (Reader Json)} {c : Char}
    (h : readFrom inner c s = .ok (w, r)) :
    (∃ t v, c :: s = t ++ r ∧ Scalar t v ∧ v.merged = w) ∨
      ∃ item, inner = some item ∧
        ((∃ vs, c = '[' ∧ readItems item s = .ok (vs, r) ∧ w = .array vs) ∨
          ∃ ms, c = '{' ∧ readMembers item s = .ok (ms, r) ∧ w = .object (Fields.merge ms)) := by
  cases readFrom_cases h with
  | null hword => exact .inl ⟨_, _, by rw [readWord_eq_ok hword]; rfl, .null, rfl⟩
  | true hword => exact .inl ⟨_, _, by rw [readWord_eq_ok hword]; rfl, .true, rfl⟩
  | false hword => exact .inl ⟨_, _, by rw [readWord_eq_ok hword]; rfl, .false, rfl⟩
  | negative hn =>
    obtain ⟨t, rfl, hstart, hread⟩ := readNumber_token hn
    exact .inl ⟨'-' :: t, _, rfl, .number (.negative hstart hread), rfl⟩
  | positive hn =>
    obtain ⟨t, ht, hstart, hread⟩ := readNumber_token hn
    exact .inl ⟨t, _, ht, .number (.positive hstart hread), rfl⟩
  | text ht =>
    obtain ⟨u, rfl, hu⟩ := readString_eq_ok ht
    exact .inl ⟨'"' :: (u ++ ['"']), _, by simp, .text hu, rfl⟩
  | @array item vs _ hitem hvs => exact .inr ⟨item, hitem, .inl ⟨vs, rfl, hvs, rfl⟩⟩
  | @object item ms _ hitem hms => exact .inr ⟨item, hitem, .inr ⟨ms, rfl, hms, rfl⟩⟩

/-- A value behind blanks is what is read from its first character on. -/
theorem readWith_append {inner : Option (Reader Json)} {c : Char} {u : List Char} (ha : Spaces a)
    (hs : s = c :: u) (hc : isSpace c = false) :
    readWith inner (a ++ s) = readFrom inner c u := by
  subst hs
  have hskip : skipSpace (a ++ c :: u) = c :: u := skipSpace_append ha (by simpa using hc)
  simp only [readWith, hskip]

/-- What is taken for a value is one behind blanks. -/
theorem readWith_eq_ok {inner : Option (Reader Json)} (h : readWith inner s = .ok (w, r)) :
    ∃ a c u, s = a ++ c :: u ∧ Spaces a ∧ readFrom inner c u = .ok (w, r) := by
  unfold readWith at h
  split at h
  · cases h
  · rename_i c u hu
    obtain ⟨a, rfl, ha⟩ := skipSpace_eq_cons hu
    exact ⟨a, c, u, rfl, ha, h⟩

end

/-- A value without brackets is read as its tree. -/
theorem reads_scalar : Reads ⟨readWith none, readWith_length⟩ Scalar where
  opens := opens_scalar
  complete ha hv hr := by
    obtain ⟨c, u, hcu, hc, hread⟩ := readFrom_scalar hv hr
    exact (readWith_append ha hcu hc).trans hread
  sound h := by
    obtain ⟨a, c, u, rfl, ha, h⟩ := readWith_eq_ok h
    rcases readFrom_eq_ok h with ⟨t, v, ht, hv, rfl⟩ | ⟨item, hitem, _⟩
    · exact ⟨a, t, v, by rw [ht], ha, hv, rfl⟩
    · cases hitem

/-- If the items are read as their trees, so is a value one level above them. -/
theorem Reads.succ {item : Reader Json} {core : Language} (hi : Reads item core) :
    Reads ⟨readWith (some item), readWith_length⟩ (Nested core) where
  opens := opens_nested core
  complete ha hv hr := by
    obtain ⟨c, u, hcu, hc, hread⟩ := hi.readFrom_nested hv hr
    exact (readWith_append ha hcu hc).trans hread
  sound h := by
    obtain ⟨a, c, u, rfl, ha, h⟩ := readWith_eq_ok h
    rcases readFrom_eq_ok h with ⟨t, v, ht, hv, rfl⟩ | ⟨_, hitem, hnested⟩
    · exact ⟨a, t, v, by rw [ht], ha, .scalar hv, rfl⟩
    · cases hitem
      rcases hnested with ⟨ws, rfl, hws, rfl⟩ | ⟨ns, rfl, hns, rfl⟩
      · rcases hi.readItems_eq_ok hws with ⟨b, rfl, hb, rfl⟩ | ⟨t, vs, rfl, hvs, rfl⟩
        · exact ⟨a, '[' :: (b ++ [']']), .array [], by simp, ha, .emptyArray hb, rfl⟩
        · refine ⟨a, '[' :: (t ++ [']']), .array vs, by simp, ha, .array hvs, ?_⟩
          rw [merged, mergedItems_eq_map]
      · rcases hi.readMembers_eq_ok hns with ⟨b, rfl, hb, rfl⟩ | ⟨t, ms, rfl, hms, rfl⟩
        · exact ⟨a, '{' :: (b ++ ['}']), .object [], by simp, ha, .emptyObject hb, rfl⟩
        · refine ⟨a, '{' :: (t ++ ['}']), .object ms, by simp, ha, .object hms, ?_⟩
          rw [merged, mergedFields_eq_map]

/-- A value of each depth is read as its tree. -/
theorem reads_valueReader : ∀ depth, Reads (valueReader depth) (Core depth)
  | 0 => reads_scalar
  | depth + 1 => (reads_valueReader depth).succ

/-! ## Whole texts -/

/-- **Reading is the grammar.** A text is read as a value exactly if it is written, with blanks
around it and no deeper than the reader descends, by a tree that merges to this value. -/
theorem read_eq_ok_iff {s : List Char} {w : Json} :
    read s = .ok w ↔ ∃ v, Written maxDepth s v ∧ v.merged = w := by
  have hreads := reads_valueReader maxDepth
  refine ⟨?_, ?_⟩
  · intro h
    have h : read? s = .ok w := by
      unfold read at h
      cases hr : read? s with
      | error f => simp [hr, Except.mapError] at h
      | ok v => simpa [hr, Except.mapError] using h
    unfold read? at h
    split at h
    · cases h
    · rename_i w' r hw
      split at h
      · rename_i hskip
        cases h
        obtain ⟨a, t, v, rfl, ha, hv, rfl⟩ := hreads.sound hw
        have hb : Spaces r := by
          have hr := takeWhile_append_skipSpace r
          rw [hskip, List.append_nil] at hr
          exact hr ▸ spaces_takeWhile r
        exact ⟨v, .mk ha hv hb, rfl⟩
      · cases h
  · rintro ⟨v, h, rfl⟩
    cases h with
    | @mk a s b v ha hv hb =>
    have hread : read? (a ++ (s ++ b)) = .ok v.merged := by
      have hstop : Stops isNumeric b := by
        simpa using stops_isNumeric_append (r := []) hb stops_nil
      simp only [read?, hreads.complete ha hv hstop, skipSpace_of_spaces hb]
    rw [read, hread]
    rfl

/-- The values between two square brackets: none, or the merged ones of the items. -/
theorem read_array_eq_ok_iff {s : List Char} {w : Json} :
    read ('[' :: (s ++ [']'])) = .ok w ↔
      (Spaces s ∧ w = .array []) ∨
        ∃ vs, Items (Core (maxDepth - 1)) s vs ∧ w = .array (vs.map merged) := by
  rw [read_eq_ok_iff]
  refine ⟨?_, ?_⟩
  · rintro ⟨v, h, rfl⟩
    rcases written_array_iff.1 h with ⟨hs, rfl⟩ | ⟨vs, hs, rfl⟩
    · exact .inl ⟨hs, by rw [merged, mergedItems]⟩
    · exact .inr ⟨vs, hs, by rw [merged, mergedItems_eq_map]⟩
  · rintro (⟨hs, rfl⟩ | ⟨vs, hs, rfl⟩)
    · exact ⟨.array [], written_array_iff.2 (.inl ⟨hs, rfl⟩), by rw [merged, mergedItems]⟩
    · exact ⟨.array vs, written_array_iff.2 (.inr ⟨vs, hs, rfl⟩),
        by rw [merged, mergedItems_eq_map]⟩

end ShellQuery.Json
