import Mathlib.Tactic.Common
import ShellQuery.ObjectId
/-!
# The digits of an identifier

An identifier is read from its digits, in either case, and from no other text (`read_eq_ok_iff`).
Reading goes by bytes, so the digits are looked at as the single bytes they are in UTF-8 first.
-/

namespace ShellQuery.ObjectId

section
variable {b : UInt8} {bytes : List UInt8} {s : List Char}

/-! ## Texts as bytes -/

/-- Bytes are gathered from the front, onto what there is in reverse. -/
theorem toList_loop (bs : ByteArray) (i : Nat) (r : List UInt8) :
    ByteArray.toList.loop bs i r = r.reverse ++ bs.data.toList.drop i := by
  induction hn : bs.size - i using Nat.strongRecOn generalizing i r with
  | _ n ih =>
    rw [ByteArray.toList.loop]
    split
    · rename_i hi
      have hget : bs.data.toList.drop i = bs.get! i :: bs.data.toList.drop (i + 1) := by
        have hlen : i < bs.data.toList.length := hi
        rw [List.drop_eq_getElem_cons hlen]
        congr 1
        exact (getElem!_pos bs.data i hi).symm
      rw [ih _ (by omega) (i + 1) _ rfl, hget]
      simp
    · rename_i hi
      have hend : bs.data.toList.drop i = [] := by
        rw [List.drop_eq_nil_iff]
        exact Nat.le_of_not_lt hi
      rw [hend, List.append_nil]

/-- The bytes of an array are those of its data. -/
theorem toList_byteArray (bs : ByteArray) : bs.toList = bs.data.toList :=
  toList_loop bs 0 []

/-- A character below 128 is one byte. -/
theorem utf8EncodeChar_of_ascii {c : Char} (h : c.toNat < 128) :
    String.utf8EncodeChar c = [c.toUInt8] := by
  refine String.utf8EncodeChar_eq_singleton ?_
  have hval : c.val ≤ 0x7f := by
    rw [UInt32.le_iff_toNat_le]
    exact Nat.le_of_lt_succ h
  exact if_pos hval

/-- A text of ASCII is one byte for each character. -/
theorem toUTF8_ascii (h : ∀ c ∈ s, c.toNat < 128) :
    (String.ofList s).toUTF8.toList = s.map Char.toUInt8 := by
  have hbytes : s.flatMap String.utf8EncodeChar = s.map Char.toUInt8 := by
    induction s with
    | nil => rfl
    | cons c s ih =>
      rw [List.flatMap_cons, utf8EncodeChar_of_ascii (h c List.mem_cons_self),
        ih fun d hd => h d (List.mem_cons_of_mem _ hd)]
      rfl
  rw [toList_byteArray, String.toUTF8, String.toByteArray_ofList, List.utf8Encode,
    List.toList_data_toByteArray, hbytes]

/-! ## Digits -/

/-- Hexadecimal digits are below 128. -/
theorem digitChar_lt : ∀ n < 16, (Nat.digitChar n).toNat < 128 := by
  decide

/-- A character below 128 whose lower case is a digit has its value, and is a letter or a digit. -/
theorem nibble?_of_lt : ∀ n < 16, ∀ k < 128, (Char.ofNat k).toLower = Nat.digitChar n →
    nibble? (Char.ofNat k).toUInt8 = some (UInt8.ofNat n) ∧
      (Char.ofNat k).isAlphanum = true := by
  decide +kernel

/-- No character from 128 on has a lower case that is a digit. -/
theorem toNat_lt_of_toLower {c : Char} {n : Nat} (hn : n < 16) (h : c.toLower = Nat.digitChar n) :
    c.toNat < 128 := by
  by_contra hc
  have hupper : ¬('A'.val ≤ c.val ∧ c.val ≤ 'Z'.val) := fun hupper =>
    hc (Nat.lt_of_le_of_lt (UInt32.le_iff_toNat_le.1 hupper.2) (by decide))
  have hsame : c.toLower = c := dif_neg hupper
  have hlower := digitChar_lt n hn
  rw [← h, hsame] at hlower
  exact hc hlower

/-- A digit in upper case is a digit, too. -/
theorem nibble?_of_toLower {c : Char} {n : Nat} (hn : n < 16) (h : c.toLower = Nat.digitChar n) :
    nibble? c.toUInt8 = some (UInt8.ofNat n) ∧ c.isAlphanum = true := by
  have hnibble := nibble?_of_lt n hn c.toNat (toNat_lt_of_toLower hn h)
  rw [Char.ofNat_toNat] at hnibble
  exact hnibble h

/-- A byte is written in hexadecimal digits. -/
theorem mem_byteDigits {c : Char} (h : c ∈ byteDigits b) : ∃ n < 16, c = Nat.digitChar n := by
  have hb : b.toNat < 256 := b.toNat_lt
  simp only [byteDigits, List.mem_cons, List.not_mem_nil, or_false] at h
  rcases h with rfl | rfl
  · exact ⟨b.toNat / 16, by omega, rfl⟩
  · exact ⟨b.toNat % 16, by omega, rfl⟩

/-- A byte is put together from its two digits. -/
theorem ofNat_div_mod (b : UInt8) :
    UInt8.ofNat (b.toNat / 16) * 16 + UInt8.ofNat (b.toNat % 16) = b := by
  have hb : b.toNat < 256 := b.toNat_lt
  rw [← UInt8.toNat_inj]
  simp only [UInt8.toNat_add, UInt8.toNat_mul, UInt8.toNat_ofNat', UInt8.toNat_ofNat]
  omega

/-- Digits of either case are decoded as the bytes they are written for. -/
theorem decode?_of_lower (h : s.map Char.toLower = bytes.flatMap byteDigits) :
    decode? (s.map Char.toUInt8) = some bytes := by
  induction bytes generalizing s with
  | nil =>
    rw [List.flatMap_nil, List.map_eq_nil_iff] at h
    rw [h]
    rfl
  | cons b bytes ih =>
    have hb : b.toNat < 256 := b.toNat_lt
    rw [List.flatMap_cons, byteDigits, List.cons_append, List.cons_append, List.nil_append] at h
    obtain ⟨c, r, rfl, hc, hr⟩ := List.map_eq_cons_iff.1 h
    obtain ⟨d, t, rfl, hd, ht⟩ := List.map_eq_cons_iff.1 hr
    rw [List.map_cons, List.map_cons, decode?, (nibble?_of_toLower (by omega) hc).1,
      (nibble?_of_toLower (by omega) hd).1, ih ht]
    simp only [ofNat_div_mod]

/-- Where all bytes are digits, none of them is bad. -/
theorem firstBad?_eq_none {index : Nat} (h : ∀ b ∈ bytes, (nibble? b).isSome = true) :
    firstBad? index bytes = none := by
  induction bytes generalizing index with
  | nil => rfl
  | cons b bytes ih =>
    have hb := h b List.mem_cons_self
    rw [firstBad?, if_neg (by simp [Option.isSome_iff_ne_none.1 hb])]
    exact ih fun d hd => h d (List.mem_cons_of_mem _ hd)

/-- Each byte takes two digits. -/
theorem length_digits (bytes : List UInt8) :
    (bytes.flatMap byteDigits).length = 2 * bytes.length := by
  induction bytes with
  | nil => rfl
  | cons b bytes ih =>
    rw [List.flatMap_cons, List.length_append, ih, List.length_cons]
    simp only [byteDigits, List.length_cons, List.length_nil]
    omega

/-- A character whose lower case is in an object id is a digit in lower case. -/
theorem exists_digit_of_lower {id : ObjectId} (h : s.map Char.toLower = id.hex.toList) {c : Char}
    (hc : c ∈ s) : ∃ n < 16, c.toLower = Nat.digitChar n := by
  rw [hex, String.toList_ofList] at h
  have hlower : c.toLower ∈ id.bytes.flatMap byteDigits := h ▸ List.mem_map_of_mem hc
  obtain ⟨b, -, hb⟩ := List.mem_flatMap.1 hlower
  exact mem_byteDigits hb

/-- A text that is an identifier in either case holds letters and digits only. -/
theorem isAlphanum_of_lower {id : ObjectId} (h : s.map Char.toLower = id.hex.toList) :
    ∀ c ∈ s, c.isAlphanum = true := by
  intro c hc
  obtain ⟨n, hn, hcn⟩ := exists_digit_of_lower h hc
  exact (nibble?_of_toLower hn hcn).2

/-- **An identifier is read from its digits**, whatever their case. -/
theorem read_of_lower {id : ObjectId} (h : s.map Char.toLower = id.hex.toList) :
    read (String.ofList s) = .ok id := by
  have hascii : ∀ c ∈ s, c.toNat < 128 := by
    intro c hc
    obtain ⟨n, hn, hcn⟩ := exists_digit_of_lower h hc
    exact toNat_lt_of_toLower hn hcn
  have hnibbles : ∀ c ∈ s, (nibble? c.toUInt8).isSome = true := by
    intro c hc
    obtain ⟨n, hn, hcn⟩ := exists_digit_of_lower h hc
    rw [(nibble?_of_toLower hn hcn).1, Option.isSome_some]
  have hgood : firstBad? 0 (s.map Char.toUInt8) = none :=
    firstBad?_eq_none (List.forall_mem_map.2 hnibbles)
  rw [hex, String.toList_ofList] at h
  have hlength : (s.map Char.toUInt8).length = 24 := by
    have hlen := congrArg List.length h
    rw [List.length_map, length_digits, id.length_eq] at hlen
    rw [List.length_map, hlen]
  simp only [read, toUTF8_ascii hascii, hlength, hgood, decode?_of_lower h]
  rw [if_neg (by decide), dif_pos id.length_eq]

/-- Digits are in lower case. -/
theorem toLower_digitChar : ∀ n < 16, (Nat.digitChar n).toLower = Nat.digitChar n := by
  decide

/-- The digits of an identifier are in lower case already. -/
theorem map_toLower_hex (id : ObjectId) : id.hex.toList.map Char.toLower = id.hex.toList := by
  have hdigits : ∀ c ∈ id.hex.toList, c.toLower = c := by
    intro c hc
    rw [hex, String.toList_ofList] at hc
    obtain ⟨b, -, hb⟩ := List.mem_flatMap.1 hc
    obtain ⟨n, hn, rfl⟩ := mem_byteDigits hb
    exact toLower_digitChar n hn
  rw [List.map_congr_left hdigits, List.map_id']

/-! ## What is no identifier -/

/-- No byte of another character than those of ASCII is a digit. -/
theorem exists_nibble?_eq_none {c : Char} (h : ¬c.toNat < 128) :
    ∃ b ∈ String.utf8EncodeChar c, nibble? b = none := by
  have hnone : ∀ n, n % 64 + 128 < 256 ∧ nibble? (UInt8.ofNat (n % 64 + 128)) = none := by
    intro n
    have hall : ∀ k < 64, nibble? (UInt8.ofNat (k + 128)) = none := by decide +kernel
    exact ⟨by omega, hall _ (Nat.mod_lt _ (by decide))⟩
  refine ⟨UInt8.ofNat (c.val.toNat % 64 + 128), ?_, (hnone _).2⟩
  have hval : ¬c.val.toNat ≤ 127 := fun hle => h (Nat.lt_succ_of_le hle)
  rw [String.utf8EncodeChar]
  simp only [if_neg hval]
  split_ifs <;> simp

/-- Where no byte is bad, all are digits. -/
theorem nibble?_of_firstBad? {index : Nat} (h : firstBad? index bytes = none) :
    ∀ b ∈ bytes, (nibble? b).isSome = true := by
  induction bytes generalizing index with
  | nil => exact nofun
  | cons b bytes ih =>
    rw [firstBad?] at h
    split at h
    · cases h
    · rename_i hb
      exact List.forall_mem_cons.2 ⟨by simpa [Option.isSome_iff_ne_none] using hb, ih h⟩

/-- A text all bytes of which are digits is of ASCII. -/
theorem ascii_of_nibbles (h : ∀ b ∈ (String.ofList s).toUTF8.toList, (nibble? b).isSome = true) :
    ∀ c ∈ s, c.toNat < 128 := by
  intro c hc
  by_contra hascii
  obtain ⟨b, hb, hnone⟩ := exists_nibble?_eq_none hascii
  have hmem : b ∈ (String.ofList s).toUTF8.toList := by
    rw [toList_byteArray, String.toUTF8, String.toByteArray_ofList, List.utf8Encode,
      List.toList_data_toByteArray]
    exact List.mem_flatMap.2 ⟨c, hc, hb⟩
  have hsome := h b hmem
  rw [hnone] at hsome
  cases hsome

/-- A character below 128 with a value has the digit for it as its lower case. -/
theorem toLower_of_lt : ∀ k < 128, (nibble? (Char.ofNat k).toUInt8).all (fun n =>
    (Char.ofNat k).toLower == Nat.digitChar n.toNat && decide (n.toNat < 16)) = true := by
  decide +kernel

/-- The digit that a character is, in lower case. -/
theorem toLower_of_nibble? {c : Char} {n : UInt8} (hc : c.toNat < 128)
    (h : nibble? c.toUInt8 = some n) : c.toLower = Nat.digitChar n.toNat ∧ n.toNat < 16 := by
  have hall := toLower_of_lt c.toNat hc
  rw [Char.ofNat_toNat, h] at hall
  simpa using hall

/-- What was decoded has the digits that were read, in lower case. -/
theorem lower_of_decode? (hascii : ∀ c ∈ s, c.toNat < 128) (heven : s.length % 2 = 0)
    (h : decode? (s.map Char.toUInt8) = some bytes) :
    s.map Char.toLower = bytes.flatMap byteDigits := by
  induction bytes generalizing s with
  | nil =>
    match s with
    | [] => rfl
    | [_] => cases heven
    | c :: d :: s =>
      rw [List.map_cons, List.map_cons, decode?] at h
      split at h <;> cases h
  | cons b bytes ih =>
    match s with
    | [] => cases h
    | [_] => cases heven
    | c :: d :: s =>
      rw [List.map_cons, List.map_cons, decode?] at h
      split at h
      · rename_i m n rest hm hn hrest
        simp only [Option.some.injEq, List.cons.injEq] at h
        obtain ⟨rfl, rfl⟩ := h
        simp only [List.forall_mem_cons] at hascii
        obtain ⟨hcm, hmlt⟩ := toLower_of_nibble? hascii.1 hm
        obtain ⟨hdn, hnlt⟩ := toLower_of_nibble? hascii.2.1 hn
        have hbyte : (m * 16 + n).toNat = m.toNat * 16 + n.toNat := by
          simp only [UInt8.toNat_add, UInt8.toNat_mul, UInt8.reduceToNat]
          omega
        have hhigh : (m.toNat * 16 + n.toNat) / 16 = m.toNat := by omega
        have hlow : (m.toNat * 16 + n.toNat) % 16 = n.toNat := by omega
        rw [List.length_cons, List.length_cons] at heven
        rw [List.map_cons, List.map_cons, ih hascii.2.2 (by omega) hrest, hcm, hdn,
          List.flatMap_cons, byteDigits, hbyte, hhigh, hlow]
        rfl
      · cases h

/-- **An identifier is read from its digits only**, whatever their case. -/
theorem read_eq_ok_iff {id : ObjectId} :
    read (String.ofList s) = .ok id ↔ s.map Char.toLower = id.hex.toList := by
  refine ⟨fun h => ?_, read_of_lower⟩
  unfold read at h
  simp only at h
  split at h
  · cases h
  split at h
  · cases h
  rename_i heven _ hgood
  have hascii := ascii_of_nibbles (nibble?_of_firstBad? hgood)
  rw [toUTF8_ascii hascii, List.length_map] at heven
  rw [toUTF8_ascii hascii] at h
  split at h
  · rename_i decoded hdecoded
    split at h
    · cases h
      rw [hex, String.toList_ofList]
      exact lower_of_decode? hascii (by omega) hdecoded
    · cases h
  · cases h

/-! ## Which texts are identifiers -/

/-- Below 128 the characters with a value are the hexadecimal digits. -/
theorem isHexDigit_of_lt :
    ∀ k < 128, (Char.ofNat k).isHexDigit = (nibble? (Char.ofNat k).toUInt8).isSome := by
  decide +kernel

/-- A hexadecimal digit is below 128. -/
theorem toNat_lt_of_isHexDigit {c : Char} (h : c.isHexDigit = true) : c.toNat < 128 := by
  have hle : c.val ≤ 'f'.val := by
    simp only [Char.isHexDigit, Char.isDigit, Bool.or_eq_true, Bool.and_eq_true,
      decide_eq_true_eq] at h
    rcases h with (⟨-, h⟩ | ⟨-, h⟩) | ⟨-, h⟩
    · exact UInt32.le_trans h (by decide)
    · exact h
    · exact UInt32.le_trans h (by decide)
  exact Nat.lt_of_le_of_lt (UInt32.le_iff_toNat_le.1 hle) (by decide)

/-- A hexadecimal digit has a value. -/
theorem isSome_nibble?_of_isHexDigit {c : Char} (h : c.isHexDigit = true) :
    (nibble? c.toUInt8).isSome = true := by
  have hdigit := isHexDigit_of_lt c.toNat (toNat_lt_of_isHexDigit h)
  rw [Char.ofNat_toNat, h] at hdigit
  exact hdigit.symm

/-- Digits come in pairs, and each pair is a byte. -/
theorem exists_decode? : ∀ {bytes : List UInt8}, (∀ b ∈ bytes, (nibble? b).isSome = true) →
    ∃ decoded, decode? bytes = some decoded ∧ decoded.length = bytes.length / 2
  | [], _ => ⟨[], rfl, rfl⟩
  | [_], _ => ⟨[], rfl, by simp⟩
  | a :: b :: bytes, h => by
    simp only [List.forall_mem_cons] at h
    obtain ⟨m, hm⟩ := Option.isSome_iff_exists.1 h.1
    obtain ⟨n, hn⟩ := Option.isSome_iff_exists.1 h.2.1
    obtain ⟨decoded, hdecoded, hlength⟩ := exists_decode? h.2.2
    refine ⟨(m * 16 + n) :: decoded, ?_, ?_⟩
    · rw [decode?, hm, hn, hdecoded]
    · simp only [List.length_cons, hlength]
      omega

/-- The texts of identifiers are those of 24 hexadecimal digits. -/
theorem exists_lower_iff : (∃ id : ObjectId, s.map Char.toLower = id.hex.toList) ↔
    s.length = 24 ∧ ∀ c ∈ s, c.isHexDigit = true := by
  refine ⟨?_, ?_⟩
  · rintro ⟨id, h⟩
    refine ⟨?_, fun c hc => ?_⟩
    · have hlength := congrArg List.length h
      rwa [hex, String.toList_ofList, List.length_map, length_digits, id.length_eq] at hlength
    · obtain ⟨n, hn, hcn⟩ := exists_digit_of_lower h hc
      have hdigit := isHexDigit_of_lt c.toNat (toNat_lt_of_toLower hn hcn)
      rwa [Char.ofNat_toNat, (nibble?_of_toLower hn hcn).1, Option.isSome_some] at hdigit
  · rintro ⟨hlength, hdigits⟩
    have hascii : ∀ c ∈ s, c.toNat < 128 := fun c hc => toNat_lt_of_isHexDigit (hdigits c hc)
    have hnibbles : ∀ b ∈ s.map Char.toUInt8, (nibble? b).isSome = true :=
      List.forall_mem_map.2 fun c hc => isSome_nibble?_of_isHexDigit (hdigits c hc)
    obtain ⟨decoded, hdecoded, hhalf⟩ := exists_decode? hnibbles
    rw [List.length_map, hlength] at hhalf
    refine ⟨⟨decoded, hhalf⟩, ?_⟩
    rw [hex, String.toList_ofList]
    exact lower_of_decode? hascii (by omega) hdecoded

end

end ShellQuery.ObjectId
