import ShellQuery.Proofs.Json.Grammar
import ShellQuery.Proofs.Dialect.Quotation
/-!
# The grammar of the dialect

`Loose depth` relates the text of a value in the dialect to the tree it writes, as `Json.Core` does
for strict JSON. It goes beyond strict JSON in four places: strings stand in quotes of either kind
and need next to no escapes, keys may be bare, a comma may stand behind the last item, and a call
stands for what its spelling is in strict JSON. `Loose.of_core` says that strict JSON belongs to the
dialect.
-/

namespace ShellQuery.Dialect

open Text Json

/-- A key: a strict string, a text in quotes of either kind, or a bare word. -/
inductive LooseKey : List Char → List Char → Prop
  | strict {s t : List Char} : Content s t → LooseKey ('"' :: (s ++ ['"'])) t
  | quoted {q : Char} {t : List Char} : isQuote q = true → LooseKey (quotation q t) t
  | bare {c : Char} {t : List Char} : isKeyStart c = true → (∀ d ∈ t, isKeyChar d = true) →
      LooseKey (c :: t) (c :: t)

/-- What may stand behind the last item: nothing, or a comma and blanks. -/
inductive Trail : List Char → Prop
  | none : Trail []
  | comma {a : List Char} : Spaces a → Trail (',' :: a)

/-- One item or more, with commas between them and perhaps one behind them. -/
inductive Trailed {α : Type} (item : List Char → α → Prop) : List Char → List α → Prop
  | mk {s tail : List Char} {xs : List α} : Listed item s xs → Trail tail →
      Trailed item (s ++ tail) xs

/-- A key, a colon and a value. -/
inductive LooseMember {α : Type} (core : List Char → α → Prop) : List Char → String × α → Prop
  | mk {a k b s t : List Char} {x : α} : Spaces a → LooseKey k t → Spaces b → Padded core s x →
      LooseMember core (a ++ (k ++ (b ++ ':' :: s))) (String.ofList t, x)

section
variable (strict core : Language)

/-- A value that is not written with brackets. A call is worth what its spelling is in the strict
language. -/
inductive LooseAtom : Language
  | scalar {s : List Char} {v : Json} : Scalar s v → LooseAtom s v
  | text {q : Char} {t : List Char} : isQuote q = true →
      LooseAtom (quotation q t) (.text (String.ofList t))
  | call {s : List Char} {l : Literal} {v : Json} : Call s l → strict l.spelling v → LooseAtom s v

/-- A value, the values inside of which belong to the language one level down. -/
inductive LooseNested : Language
  | atom {s : List Char} {v : Json} : LooseAtom strict s v → LooseNested s v
  | emptyArray {s : List Char} : Spaces s → LooseNested ('[' :: (s ++ [']'])) (.array [])
  | array {s : List Char} {vs : List Json} : Trailed (Padded core) s vs →
      LooseNested ('[' :: (s ++ [']'])) (.array vs)
  | emptyObject {s : List Char} : Spaces s → LooseNested ('{' :: (s ++ ['}'])) (.object [])
  | object {s : List Char} {ms : List (String × Json)} : Trailed (LooseMember core) s ms →
      LooseNested ('{' :: (s ++ ['}'])) (.object ms)

end

/-- A value of the dialect with at most so many brackets inside each other, those that calls are
replaced by included. -/
def Loose : (depth : Nat) → Language
  | 0 => LooseAtom (Core 0)
  | depth + 1 => LooseNested (Core (depth + 1)) (Loose depth)

section
variable {strict strict' core core' : Language} {s : List Char} {w : Json} {depth : Nat}

/-! ## More depth admits more values -/

/-- More strict values make for more values without brackets. -/
theorem LooseAtom.mono (h : ∀ s w, strict s w → strict' s w) (hs : LooseAtom strict s w) :
    LooseAtom strict' s w := by
  cases hs with
  | scalar hw => exact .scalar hw
  | text hq => exact .text hq
  | call hcall hw => exact .call hcall (h _ _ hw)

/-- More values make for more members. -/
theorem LooseMember.mono {α : Type} {core core' : List Char → α → Prop} {m : String × α}
    (h : ∀ s x, core s x → core' s x) (hm : LooseMember core s m) : LooseMember core' s m := by
  obtain ⟨ha, hk, hb, hx⟩ := hm
  exact ⟨ha, hk, hb, hx.mono h⟩

/-- More items make for more lists of them. -/
theorem Trailed.mono {α : Type} {item item' : List Char → α → Prop} {xs : List α}
    (h : ∀ s x, item s x → item' s x) (hs : Trailed item s xs) : Trailed item' s xs := by
  obtain ⟨hlisted, htail⟩ := hs
  exact ⟨hlisted.mono h, htail⟩

/-- More values inside make for more values. -/
theorem LooseNested.mono (hstrict : ∀ s w, strict s w → strict' s w)
    (h : ∀ s w, core s w → core' s w) (hs : LooseNested strict core s w) :
    LooseNested strict' core' s w := by
  cases hs with
  | atom hw => exact .atom (hw.mono hstrict)
  | emptyArray hb => exact .emptyArray hb
  | array hws => exact .array (hws.mono fun _ _ => .mono h)
  | emptyObject hb => exact .emptyObject hb
  | object hms => exact .object (hms.mono fun _ _ => .mono h)

/-- One more level is allowed. -/
theorem Loose.succ : ∀ {depth : Nat} {s : List Char} {w : Json}, Loose depth s w →
    Loose (depth + 1) s w
  | 0, _, _, h => .atom (h.mono fun _ _ => Core.succ)
  | _ + 1, _, _, h => LooseNested.mono (fun _ _ => Core.succ) (fun _ _ => Loose.succ) h

/-- What is no deeper than one depth is no deeper than a greater one. -/
theorem Loose.mono {d e : Nat} (hde : d ≤ e) (h : Loose d s w) : Loose e s w := by
  induction hde with
  | refl => exact h
  | step _ ih => exact ih.succ

/-- A value without brackets is one of any depth. -/
theorem Loose.atom (h : LooseAtom (Core depth) s w) : Loose depth s w := by
  cases depth with
  | zero => exact h
  | succ depth => exact .atom h

/-- A member with no blanks around its key and its value. -/
theorem LooseMember.of_core {α : Type} {core : List Char → α → Prop} {k s t : List Char} {x : α}
    (hk : LooseKey k t) (hx : core s x) : LooseMember core (k ++ ':' :: s) (String.ofList t, x) :=
  .mk (a := []) (b := []) spaces_nil hk spaces_nil (.of_core hx)

end

/-! ## Strict JSON belongs to the dialect -/

section
variable {strict core core' : Language} {s : List Char}

/-- A strict member is one of the dialect. -/
theorem LooseMember.of_member (h : ∀ s v, core s v → core' s v) {m : String × Json}
    (hm : Member core s m) : LooseMember core' s m := by
  cases hm with
  | @mk a k b s t v ha hk hb hv =>
    have hmember := LooseMember.mk ha (.strict hk) hb (hv.mono h)
    simpa using hmember

/-- A list without a comma at its end is one that may have one. -/
theorem Trailed.of_listed {α : Type} {item item' : List Char → α → Prop} {xs : List α}
    (h : ∀ s x, item s x → item' s x) (hs : Listed item s xs) : Trailed item' s xs := by
  have htrailed := Trailed.mk (hs.mono h) .none
  rwa [List.append_nil] at htrailed

/-- A strict value is one of the dialect. -/
theorem LooseNested.of_nested (h : ∀ s v, core s v → core' s v) {v : Json}
    (hs : Nested core s v) : LooseNested strict core' s v := by
  cases hs with
  | scalar hv => exact .atom (.scalar hv)
  | emptyArray hb => exact .emptyArray hb
  | array hv => exact .array (.of_listed (fun _ _ => Padded.mono h) hv)
  | emptyObject hb => exact .emptyObject hb
  | object hv => exact .object (.of_listed (fun _ _ => .of_member h) hv)

/-- Strict JSON belongs to the dialect and means there what it means. -/
theorem Loose.of_core : ∀ {depth : Nat} {s : List Char} {v : Json},
    Core depth s v → Loose depth s v
  | 0, _, _, h => .scalar h
  | _ + 1, _, _, h => .of_nested (fun _ _ => Loose.of_core) h

end

end ShellQuery.Dialect
