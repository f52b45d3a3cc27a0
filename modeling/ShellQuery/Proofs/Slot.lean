import ShellQuery.Proofs.Dialect.Words
import ShellQuery.Proofs.Value.Context
/-!
# Values at places of a text

A `Slot` is a place between two texts where a value may stand. Whatever value is written there, if
only it can be told apart from what stands in front of it (`Replacing`) and has no brackets inside
of each other (`Writes`), the trees of the strict form differ at one place only
(`Slot.exists_context`). So the value counts at one place of what is read (`Slot.exists_fill`), or
it is overwritten by a later field with the same key and makes no difference
(`Slot.read_of_overwritten`). A call that is not recognized is read nowhere (`Slot.read_ne`).
-/

namespace ShellQuery

open Text Dialect Json

namespace Dialect

section
variable {α : Type} {argument : Form → List Char → α → Prop} {x : α} {p q r s t u : List Char}
  {c : Char} {l : Literal} {w : Json} {S S' : List Step}

/-! ## What may stand in place of an object -/

/-- A text for which the pass does not look at what stands in front of it. -/
structure Replacing (u r : List Char) : Prop where
  unsearched : Unsearched (u ++ r)
  head : ∃ c v, u = c :: v ∧ (c = '{' ∨ c = '[' ∨ opensCall c = true)

/-- A text that begins with a bracket can take the place of a value. -/
theorem replacing_bracket (hc : c = '{' ∨ c = '[') (s r : List Char) : Replacing (c :: s) r := by
  refine ⟨unsearched_of_stops (stops_cons.2 ?_), c, s, rfl, hc.imp_right .inl⟩
  rcases hc with rfl | rfl <;> rfl

/-- A constructor call can take the place of a value. -/
theorem CallOf.replacing (h : CallOf argument u x) (r : List Char) : Replacing u r := by
  obtain ⟨c, v, rfl, hc⟩ := h.eq_cons
  refine ⟨⟨stops_cons.2 (isBlank_of_opensCall hc), ?_⟩, c, v, rfl, .inr (.inr hc)⟩
  generalize c :: v = u at h
  cases h with
  | plain h =>
    cases h with
    | @mk name form a arg b x hname ha harg hb =>
    have hcut : name.toList ++ '(' :: (a ++ (arg ++ (b ++ [')']))) ++ r =
        name.toList ++ '(' :: (a ++ (arg ++ (b ++ [')'])) ++ r) := by simp
    rw [hcut, dropWhile_append_stops (isKeyChar_of_mem_constructors _ hname) (stops_cons.2 rfl)]
    exact stops_cons.2 rfl
  | @new a v _ ha hne h =>
    obtain ⟨d, w, rfl, hd, -⟩ := h.eq_cons
    have hcut : 'n' :: 'e' :: 'w' :: (a ++ d :: w) ++ r =
        ['n', 'e', 'w'] ++ (a ++ (d :: w ++ r)) := by simp
    have hkey : Stops isKeyChar (a ++ (d :: w ++ r)) := by
      obtain ⟨e, a, rfl⟩ := List.exists_cons_of_ne_nil hne
      exact stops_cons.2 (isKeyChar_of_isBlank (ha e List.mem_cons_self))
    have hblank : Stops isBlank (d :: w ++ r) := stops_cons.2 (isBlank_of_opensCall hd)
    rw [hcut, dropWhile_append_stops (List.all_eq_true.1 rfl) hkey, trimStart_append ha hblank]
    refine stops_cons.2 ?_
    simp only [opensCall, Bool.or_eq_true, beq_iff_eq] at hd
    rcases hd with (((rfl | rfl) | rfl) | rfl) | rfl <;> rfl

/-- What takes the place of a value is no closing bracket. -/
theorem Replacing.atClose (h : Replacing u r) : Dialect.atClose (u ++ r) = false := by
  obtain ⟨-, c, v, rfl, hc⟩ := h
  simp only [opensCall, Bool.or_eq_true, beq_iff_eq] at hc
  rcases hc with rfl | rfl | (((rfl | rfl) | rfl) | rfl) | rfl <;> rfl

/-- Where strict JSON is written for a text, no call in it goes on in what is put in place of its
end. -/
theorem Replacing.callBefore (h : Replacing u r) (hfree : Free isForeign (normalize (p ++ t)))
    (hp : p = q ++ c :: s) (hbefore : Run .outside (p ++ t) S .outside (c :: s ++ t))
    (hbehind : Run .outside (c :: s ++ t) S' .outside t) : CallBefore (c :: s) (u ++ r) := by
  subst hp
  rw [List.append_assoc] at hfree hbefore
  refine callBefore_of_free hfree hbefore hbehind ?_
  obtain ⟨-, d, v, rfl, hd⟩ := h
  intro e he
  obtain rfl : d = e := by simpa using he
  simp only [opensCall, Bool.or_eq_true, beq_iff_eq] at hd
  rcases hd with rfl | rfl | (((rfl | rfl) | rfl) | rfl) | rfl <;> decide

/-- A text that is written as a tree without brackets inside of each other. -/
structure Writes (u r : List Char) (w : Json) : Prop extends Replacing u r where
  passes : ∃ out, Core 1 out w ∧ Passes .outside u out .outside r

/-- A value of the dialect is written for its tree. -/
theorem Replacing.writes (hu : Replacing u r) (h : Loose 1 u w) : Writes u r w := by
  obtain ⟨out, hout, hpass⟩ := h.passes
  exact ⟨hu, out, hout, hpass r⟩

/-- An empty array is written as it is. -/
theorem writes_emptyArray (r : List Char) : Writes ['[', ']'] r (.array []) :=
  (replacing_bracket (.inr rfl) _ r).writes (LooseNested.emptyArray (s := []) spaces_nil)

/-- An empty object is written as it is. -/
theorem writes_emptyObject (r : List Char) : Writes ['{', '}'] r (.object []) :=
  (replacing_bracket (.inl rfl) _ r).writes (LooseNested.emptyObject (s := []) spaces_nil)

/-- A call is written as the tree of its spelling. -/
theorem writes_call (h : Call u l) (hw : Core 1 l.spelling w) (r : List Char) : Writes u r w where
  toReplacing := h.replacing r
  passes := ⟨l.spelling, hw, .call h⟩

/-- The pass comes to whatever is put in place of an empty object. -/
theorem Reaches.of_replacing (h : Reaches p (['{', '}'] ++ r))
    (hfree : Free isForeign (normalize (p ++ (['{', '}'] ++ r)))) (hu : Replacing u r) :
    Reaches p (u ++ r) := by
  obtain ⟨S, hS⟩ := h
  have hbraces : Replacing ['{', '}'] r := replacing_bracket (.inl rfl) _ r
  obtain ⟨T, hT, -⟩ := hS.transfer hbraces.unsearched hu.unsearched
    (.inr (hbraces.atClose.trans hu.atClose.symm)) (hu.callBefore hfree)
  exact ⟨T, hT⟩

end

end Dialect

namespace ArgumentText

/-- A place for a value between two texts: the pass comes to it outside of strings, and with an
empty object there arguments are read. So they are with an object wherever a value may stand, only
not for the content of a tag. -/
structure Slot (p r : List Char) (ws : List Value) : Prop where
  reaches : Reaches p (['{', '}'] ++ r)
  read : read (String.ofList (p ++ (['{', '}'] ++ r))) = .ok ws

/-- Whatever is written at a place stands in a field the key of which comes up again. -/
def OverwrittenAt (p r : List Char) : Prop :=
  ∃ f, ListContext Overwritten f ∧
    ∀ u w, Writes u r w → Items (Core (maxDepth - 1)) (normalize (p ++ (u ++ r))) (f w)

section
variable {α : Type} {argument : Form → List Char → α → Prop} {x : α} {p r s u : List Char}
  {c : Char} {w : Json} {trees : List Json} {vs ws : List Value}

/-! ## What is written at a place -/

/-- A text with something visible in it is not blank. -/
theorem trim_ne_nil_of_mem (hmem : c ∈ s) (hc : isBlank c = false) : trim s ≠ [] := by
  intro h
  rw [trim_eq_nil_iff.1 h c hmem] at hc
  cases hc

/-- What is read from a balanced text is made of the trees of its strict form. -/
theorem read_eq_ok_iff_items (hbalanced : isBalanced s = true)
    (h : Items (Core (maxDepth - 1)) (normalize s) trees) :
    read (String.ofList s) = .ok vs ↔ Value.ofJsonItems (trees.map merged) = .ok vs := by
  rw [read_of_items (by rwa [String.toList_ofList]) (by rwa [String.toList_ofList]) (by decide),
    mapError_eq_ok]

/-- With an empty object in the place, nothing foreign to JSON is written outside of strings. -/
theorem Slot.free (h : Slot p r ws) : Free isForeign (normalize (p ++ (['{', '}'] ++ r))) := by
  have hfree := free_of_read h.read
  rw [String.toList_ofList] at hfree
  exact hfree (trim_ne_nil_of_mem (c := '{') (by simp) rfl)

/-- The texts that are written for values at a place differ at one place of their trees. -/
theorem Slot.exists_context (h : Slot p r ws) : ∃ f, ListContext Json.Context f ∧
    ∀ u w, Writes u r w → isBalanced (p ++ (u ++ r)) = true ∧
      Items (Core (maxDepth - 1)) (normalize (p ++ (u ++ r))) (f w) := by
  obtain ⟨S, hS⟩ := h.reaches
  have hempty : Passes .outside ['{', '}'] ['{', '}'] .outside r :=
    .emptyObject (s := []) spaces_nil
  have hwritten := hS.normalize_eq
  rw [hempty.normalize_append.1] at hwritten
  obtain ⟨trees, htrees, -⟩ := exists_trees_of_read h.read
  rw [String.toList_ofList, hwritten] at htrees
  rcases htrees with ⟨hblanks, -⟩ | hitems
  · have hbrace := hblanks '{' (by simp)
    cases hbrace
  obtain ⟨f, hf, -, hfills⟩ := exists_hole_of_braces hitems hS.traced_start.1
  refine ⟨f, hf, fun u w hu => ?_⟩
  obtain ⟨hreplacing, out, hout, hpass⟩ := hu
  have hbraces : Replacing ['{', '}'] r := replacing_bracket (.inl rfl) _ r
  obtain ⟨A, hprobe, hnormalize, hbalanced⟩ := h.reaches.replace ['{', '}'] u hbraces.unsearched
    hreplacing.unsearched (.inr (hbraces.atClose.trans hreplacing.atClose.symm))
    (hreplacing.callBefore h.free) hempty hpass
  obtain rfl := List.append_cancel_right (hprobe.symm.trans hwritten)
  have hread := isBalanced_of_read h.read
  rw [String.toList_ofList] at hread
  exact ⟨hbalanced ▸ hread, hnormalize ▸ hfills out w hout⟩

/-! ## What is read -/

/-- No arguments are read if a call stands at a place that is not recognized. -/
theorem Slot.read_ne (h : Slot p r ws) (hcall : CallOf argument u x)
    (hnone : constructor? (u ++ r) = none) (vs : List Value) :
    ArgumentText.read (String.ofList (p ++ (u ++ r))) ≠ .ok vs := by
  intro hread
  obtain ⟨S, hS⟩ := h.reaches.of_replacing h.free (hcall.replacing r)
  obtain ⟨c, v, rfl, hc⟩ := hcall.eq_cons
  have hfree := free_of_read hread
  rw [String.toList_ofList, hS.normalize_eq] at hfree
  rw [← List.append_nil v] at hcall
  exact not_free_of_call hcall hnone nofun hS.traced_start.1
    (hfree (trim_ne_nil_of_mem (c := c) (by simp) (isBlank_of_opensCall hc)))

/-- At an overwritten place it makes no difference what stands there. -/
theorem Slot.read_of_overwritten (h : Slot p r ws) (hlost : OverwrittenAt p r)
    (hu : Writes u r w) : ArgumentText.read (String.ofList (p ++ (u ++ r))) = .ok ws := by
  obtain ⟨f, hf, hitems⟩ := hlost
  obtain ⟨_, -, hplace⟩ := h.exists_context
  obtain ⟨trees, htrees⟩ := map_merged_overwritten hf
  have hempty := writes_emptyObject r
  have hws := (read_eq_ok_iff_items (hplace _ _ hempty).1 (hitems _ _ hempty)).1 h.read
  rw [htrees] at hws
  rw [read_eq_ok_iff_items (hplace u w hu).1 (hitems u w hu), htrees, hws]

/-- **A value counts at one place of what is read**, if it is not overwritten. -/
theorem Slot.exists_fill (h : Slot p r ws) (hcounts : ¬OverwrittenAt p r) :
    ∃ fill, ListContext Value.Context fill ∧ ws = fill (.object []) ∧ ∀ u w, Writes u r w →
      ∀ vs, ArgumentText.read (String.ofList (p ++ (u ++ r))) = .ok vs ↔
        ∃ v, Value.ofJson w.merged = .ok v ∧ vs = fill v := by
  obtain ⟨f, hf, hplace⟩ := h.exists_context
  have hread : ∀ u w, Writes u r w → ∀ vs,
      ArgumentText.read (String.ofList (p ++ (u ++ r))) = .ok vs ↔
        Value.ofJsonItems ((f w).map merged) = .ok vs := fun u w hu vs =>
    read_eq_ok_iff_items (hplace u w hu).1 (hplace u w hu).2
  have hws := (hread _ _ (writes_emptyObject r) ws).1 h.read
  rcases Value.ofJsonItems_merged_context hf hws with hlost | ⟨fill, hfill, hvalues⟩
  · exact absurd ⟨f, hlost, fun u w hu => (hplace u w hu).2⟩ hcounts
  · obtain ⟨v, hv, rfl⟩ := (hvalues _ _).1 hws
    cases hv
    exact ⟨fill, hfill, rfl, fun u w hu vs => (hread u w hu vs).trans (hvalues w vs)⟩

/-- A value between square brackets counts. -/
theorem slot_brackets : Slot ['['] [']'] [.array [.object []]] ∧ ¬OverwrittenAt ['['] [']'] := by
  have hread : ∀ {u w}, Loose 1 u w → read (String.ofList (['['] ++ (u ++ [']']))) =
      (Value.ofJsonItems [merged (.array [w])]).mapError .literal := by
    intro u w hu
    have hinner : Trailed (Padded (Loose 1)) (u ++ []) [w] := .mk (.last (.of_core hu)) .none
    rw [List.append_nil] at hinner
    have harray : Loose 2 (['['] ++ (u ++ [']'])) (.array [w]) := LooseNested.array hinner
    exact read_value (by rwa [String.toList_ofList]) (by decide)
  have hslot : Slot ['['] [']'] [.array [.object []]] :=
    ⟨⟨_, .step .done⟩, hread (LooseNested.emptyObject (s := []) spaces_nil)⟩
  have hempty : Loose 1 ['[', ']'] (.array []) := LooseNested.emptyArray (s := []) spaces_nil
  refine ⟨hslot, fun hlost => ?_⟩
  have hsame := hslot.read_of_overwritten hlost (writes_emptyArray [']'])
  rw [hread hempty] at hsame
  cases hsame

end

end ArgumentText

end ShellQuery
