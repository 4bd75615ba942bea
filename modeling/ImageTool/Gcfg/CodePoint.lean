import Mathlib.Data.Nat.Bitwise

/-!
# Code points

The hex digits and the code points of the configuration files, and their encoding as UTF-8.
-/

namespace ImageTool.Gcfg

/-- `gcfg_xdigit`.  A `char` above 127 is none of the digits, signed or not. -/
def xdigit (c : UInt8) : Int :=
  if 65 ≤ c ∧ c ≤ 70 then (c.toNat : Int) - 65 + 0x0A
  else if 97 ≤ c ∧ c ≤ 102 then (c.toNat : Int) - 97 + 0x0A
  else if 48 ≤ c ∧ c ≤ 57 then (c.toNat : Int) - 48
  else -1

/-- `gcfg_is_valid_cp`. -/
def isValidCp (cp : UInt32) : Bool :=
  if cp > 0x10FFFF then false
  else if (cp ≥ 0xD800 ∧ cp ≤ 0xDBFF) ∨ (cp ≥ 0xDC00 ∧ cp ≤ 0xDFFF) then false
  else if cp ≥ 0xFDD0 ∧ cp ≤ 0xFDEF then false
  else if cp &&& 0x0000FFFE = 0xFFFE then false
  else true

/-- `(uint8_t)(mark | ((cp >> shift) & mask))`. -/
def utf8Byte (mark : UInt32) (cp : UInt32) (shift : UInt32) (mask : UInt32) : UInt8 :=
  (mark ||| ((cp >>> shift) &&& mask)).toUInt8

/-- `encode_utf8`: the bytes it stores, as many as it returns. -/
def encodeUtf8 (cp : UInt32) : List UInt8 :=
  if cp ≥ 0x00010000 then
    [utf8Byte 0xF0 cp 18 0x07, utf8Byte 0x80 cp 12 0x3F, utf8Byte 0x80 cp 6 0x3F,
      utf8Byte 0x80 cp 0 0x3F]
  else if cp ≥ 0x00000800 then
    [utf8Byte 0xE0 cp 12 0x0F, utf8Byte 0x80 cp 6 0x3F, utf8Byte 0x80 cp 0 0x3F]
  else if cp ≥ 0x00000080 then [utf8Byte 0xC0 cp 6 0x1F, utf8Byte 0x80 cp 0 0x3F]
  else [cp.toUInt8]

/-! ## Hex digits -/

/-- A hex digit. -/
def IsHex (c : UInt8) : Prop := 0 ≤ xdigit c

instance (c : UInt8) : Decidable (IsHex c) := inferInstanceAs (Decidable (0 ≤ xdigit c))

/-- The number a run of hex digits stands for. -/
def hexValue (digits : List UInt8) : Nat :=
  digits.foldl (fun v c => 16 * v + (xdigit c).toNat) 0

@[simp] theorem hexValue_nil : hexValue [] = 0 := rfl

theorem hexValue_concat (digits : List UInt8) (c : UInt8) :
    hexValue (digits ++ [c]) = 16 * hexValue digits + (xdigit c).toNat := by
  unfold hexValue
  rw [List.foldl_append]
  rfl

theorem xdigit_eq (c : UInt8) : xdigit c =
    if 65 ≤ c.toNat ∧ c.toNat ≤ 70 then (c.toNat : Int) - 65 + 10
    else if 97 ≤ c.toNat ∧ c.toNat ≤ 102 then (c.toNat : Int) - 97 + 10
    else if 48 ≤ c.toNat ∧ c.toNat ≤ 57 then (c.toNat : Int) - 48 else -1 := by
  unfold xdigit
  simp only [UInt8.le_iff_toNat_le]
  rfl

theorem xdigit_lt (c : UInt8) : xdigit c < 16 := by
  rw [xdigit_eq]
  grind

theorem isHex_iff (c : UInt8) : IsHex c ↔
    65 ≤ c.toNat ∧ c.toNat ≤ 70 ∨ 97 ≤ c.toNat ∧ c.toNat ≤ 102 ∨ 48 ≤ c.toNat ∧ c.toNat ≤ 57 := by
  rw [IsHex, xdigit_eq]
  grind

/-! ## Valid code points -/

/-- The code points that may be named: no surrogates and no non-characters. -/
def ValidCodePoint (n : Nat) : Prop :=
  n ≤ 0x10FFFF ∧ ¬ (0xD800 ≤ n ∧ n ≤ 0xDFFF) ∧ ¬ (0xFDD0 ≤ n ∧ n ≤ 0xFDEF) ∧
    n % 0x10000 < 0xFFFE

instance (n : Nat) : Decidable (ValidCodePoint n) := inferInstanceAs (Decidable (_ ∧ _))

theorem and_nonCharacter (n : Nat) : n &&& 0xFFFE = 2 * (n / 2 % 2 ^ 15) := by
  rw [← Nat.and_two_pow_sub_one_eq_mod]
  apply Nat.eq_of_testBit_eq
  intro i
  cases i with
  | zero => simp
  | succ i =>
      rw [Nat.testBit_and, Nat.testBit_succ, Nat.testBit_succ, Nat.testBit_succ,
        Nat.mul_div_cancel_left _ Nat.zero_lt_two, Nat.testBit_and]

theorem isValidCp_iff (cp : UInt32) : isValidCp cp = true ↔ ValidCodePoint cp.toNat := by
  have hmask : cp &&& 0xFFFE = 0xFFFE ↔ cp.toNat % 0x10000 ≥ 0xFFFE := by
    rw [← UInt32.toNat_inj, UInt32.toNat_and]
    change cp.toNat &&& 0xFFFE = 0xFFFE ↔ _
    rw [and_nonCharacter]
    omega
  unfold isValidCp ValidCodePoint
  simp only [hmask, gt_iff_lt, ge_iff_le, UInt32.lt_iff_toNat_lt, UInt32.le_iff_toNat_le,
    UInt32.reduceToNat]
  grind

/-! ## The encoding -/

/-- UTF-8. -/
def utf8 (n : Nat) : List UInt8 := String.utf8EncodeChar (Char.ofNat n)

theorem toNat_utf8Byte (cp shift : UInt32) {mark mask : UInt32} {i : Nat}
    (hmask : mask.toNat = 2 ^ i - 1) (hmark : 2 ^ i ∣ mark.toNat) (hsum : mark.toNat + 2 ^ i ≤ 256)
    (hshift : shift < 32) :
    (utf8Byte mark cp shift mask).toNat =
      cp.toNat / 2 ^ shift.toNat % 2 ^ i + mark.toNat := by
  have hlt : cp.toNat / 2 ^ shift.toNat % 2 ^ i < 2 ^ i := Nat.mod_lt _ (Nat.two_pow_pos i)
  obtain ⟨k, hk⟩ := hmark
  have hor : mark.toNat ||| cp.toNat / 2 ^ shift.toNat % 2 ^ i =
      mark.toNat + cp.toNat / 2 ^ shift.toNat % 2 ^ i := by
    rw [hk]
    exact (Nat.two_pow_add_eq_or_of_lt hlt k).symm
  have hshift' : shift.toNat < 32 := UInt32.lt_iff_toNat_lt.1 hshift
  unfold utf8Byte
  rw [UInt32.toNat_toUInt8, UInt32.toNat_or, UInt32.toNat_and, UInt32.toNat_shiftRight, hmask,
    Nat.and_two_pow_sub_one_eq_mod, Nat.shiftRight_eq_div_pow, Nat.mod_eq_of_lt hshift', hor]
  omega

theorem utf8Byte_eq (cp shift : UInt32) {mark mask : UInt32} {i : Nat}
    (hmask : mask.toNat = 2 ^ i - 1) (hmark : 2 ^ i ∣ mark.toNat) (hsum : mark.toNat + 2 ^ i ≤ 256)
    (hshift : shift < 32) :
    utf8Byte mark cp shift mask =
      UInt8.ofNat (cp.toNat / 2 ^ shift.toNat % 2 ^ i + mark.toNat) := by
  rw [← toNat_utf8Byte cp shift hmask hmark hsum hshift, UInt8.ofNat_toNat]

theorem toNat_charOfNat {n : Nat} (h : ValidCodePoint n) : (Char.ofNat n).val.toNat = n := by
  have hvalid : n.isValidChar := by
    unfold ValidCodePoint at h
    unfold Nat.isValidChar
    omega
  unfold Char.ofNat
  rw [dif_pos hvalid]
  rfl

/-- The code points that may be named are encoded as UTF-8. -/
theorem encodeUtf8_eq {cp : UInt32} (h : ValidCodePoint cp.toNat) :
    encodeUtf8 cp = utf8 cp.toNat := by
  have hchar := toNat_charOfNat h
  have hmark := fun shift hshift =>
    @utf8Byte_eq cp shift 0x80 0x3F 6 rfl (by decide) (by decide) hshift
  unfold encodeUtf8 utf8 String.utf8EncodeChar
  simp only [hchar, ge_iff_le, UInt32.le_iff_toNat_le, UInt32.reduceToNat]
  by_cases h1 : cp.toNat ≤ 0x7F
  · rw [if_neg (by omega), if_neg (by omega), if_neg (by omega), if_pos h1]
    rfl
  by_cases h2 : cp.toNat ≤ 0x7FF
  · rw [if_neg (by omega), if_neg (by omega), if_pos (by omega), if_neg h1, if_pos h2,
      hmark 0 (by decide), utf8Byte_eq (i := 5) cp 6 rfl (by decide) (by decide) (by decide)]
    simp
  by_cases h3 : cp.toNat ≤ 0xFFFF
  · rw [if_neg (by omega), if_pos (by omega), if_neg h1, if_neg h2, if_pos h3,
      hmark 0 (by decide), hmark 6 (by decide),
      utf8Byte_eq (i := 4) cp 12 rfl (by decide) (by decide) (by decide)]
    simp
  · rw [if_pos (by omega), if_neg h1, if_neg h2, if_neg h3, hmark 0 (by decide),
      hmark 6 (by decide), hmark 12 (by decide),
      utf8Byte_eq (i := 3) cp 18 rfl (by decide) (by decide) (by decide)]
    simp

/-! ## Lengths -/

theorem length_encodeUtf8 (cp : UInt32) : (encodeUtf8 cp).length =
    if 0x10000 ≤ cp.toNat then 4 else if 0x800 ≤ cp.toNat then 3
      else if 0x80 ≤ cp.toNat then 2 else 1 := by
  unfold encodeUtf8
  simp only [ge_iff_le, UInt32.le_iff_toNat_le, UInt32.reduceToNat]
  grind

/-- An encoding of more than one byte ends with a byte that is no character of its own. -/
theorem getLast_encodeUtf8 {cp : UInt32} {front : List UInt8} {c : UInt8}
    (h : encodeUtf8 cp = front ++ [c]) (hfront : front ≠ []) : 0x80 ≤ c.toNat := by
  have hlast : ∀ list : List UInt8, list = front ++ [c] → list.getLast? = some c := by
    intro list hlist
    rw [hlist, List.getLast?_concat]
  have hmark := @toNat_utf8Byte cp 0 0x80 0x3F 6 rfl (by decide) (by decide) (by decide)
  have hlast' : utf8Byte 0x80 cp 0 0x3F = c → 0x80 ≤ c.toNat := by
    intro heq
    rw [← heq, hmark]
    exact Nat.le_add_left ..
  unfold encodeUtf8 at h
  split at h
  · exact hlast' (by simpa using hlast _ h)
  split at h
  · exact hlast' (by simpa using hlast _ h)
  split at h
  · exact hlast' (by simpa using hlast _ h)
  · have hlength := congrArg List.length h
    rw [List.length_append, List.length_singleton, List.length_singleton] at hlength
    exact absurd (List.length_eq_zero_iff.1 (by omega)) hfront

end ImageTool.Gcfg
