import ImageTool.Lib.Numeral
import ImageTool.Lib.Word
import ImageTool.Fstream.GetLine
import Mathlib.Data.FinEnum

/-!
# Numbers of a tar header

The fields of a header hold octal digits or, with the highest bit set, a number in base 256; a
PAX header holds decimal digits.  Each reader has its own check for numbers that do not fit.
-/

namespace ImageTool.Tar

open ImageTool.Lib ImageTool.Fstream

/-! ## The readers -/

/-- The loop of `read_octal` over the digits. -/
def octalLoop : List UInt8 → Nat → Option Nat
  | [], result => some result
  | c :: str, result =>
      if 48 ≤ c ∧ c ≤ 55 then
        if result > 0x1FFFFFFFFFFFFFFF then none
        else octalLoop str (u64 (result <<< 3) ||| digitValue c)
      else some result

/-- `read_octal`. -/
def readOctal (field : List UInt8) : Option Nat := octalLoop (field.dropWhile isSpace) 0

/-- The loop of `read_binary`. -/
def binaryLoop : Bool → List UInt8 → Nat → Option Nat
  | _, [], result => some result
  | first, c :: str, result =>
      let x := if first ∧ c ≠ 0xFF then c.toNat &&& 0x7F else c.toNat
      let result := if first then (if c = 0xFF then 0xFFFFFFFFFFFFFFFF else 0) else result
      if first ∧ c ≠ 0xFF ∧ str.length > 7 ∧ x ≠ 0 then none
      else
        let ov := (result >>> 56) &&& 0xFF
        if ov ≠ 0 ∧ ov ≠ 0xFF then none else binaryLoop false str (u64 (result <<< 8) ||| x)

/-- `read_binary`. -/
def readBinary (field : List UInt8) : Option Nat := binaryLoop true field 0

/-- `read_number`. -/
def readNumber (field : List UInt8) : Option Nat :=
  if field.headD 0 &&& 0x80 ≠ 0 then readBinary field else readOctal field

/-- `pax_read_decimal`, which stops at the end of the string. -/
def decimalLoop : List UInt8 → Nat → Option Nat
  | [], result => some result
  | c :: str, result =>
      if 48 ≤ c ∧ c ≤ 57 then
        if result > 0xFFFFFFFFFFFFFFFF / 10 then none
        else decimalLoop str (u64 (u64 (result * 10) + digitValue c))
      else some result

/-- `pax_read_decimal`. -/
def paxReadDecimal (str : List UInt8) : Option Nat := decimalLoop str 0

/-! ## Numbers of 64 bits -/

theorem octalLoop_lt {str : List UInt8} {result n : Nat} (hresult : result < 2 ^ 64)
    (h : octalLoop str result = some n) : n < 2 ^ 64 := by
  induction str generalizing result with
  | nil =>
      cases h
      exact hresult
  | cons c str ih =>
      unfold octalLoop at h
      split at h
      · rename_i hdigit
        split at h
        · cases h
        · have hc : digitValue c < 2 ^ 64 := by
            have hlt := c.toNat_lt
            unfold digitValue
            omega
          exact ih (Nat.or_lt_two_pow (u64_lt _) hc) h
      · cases h
        exact hresult

theorem readOctal_lt {field : List UInt8} {n : Nat} (h : readOctal field = some n) : n < 2 ^ 64 :=
  octalLoop_lt (by decide) h

theorem binaryLoop_lt {first : Bool} {str : List UInt8} {result n : Nat} (hresult : result < 2 ^ 64)
    (h : binaryLoop first str result = some n) : n < 2 ^ 64 := by
  induction str generalizing first result with
  | nil =>
      cases h
      exact hresult
  | cons c str ih =>
      have hc : (if first = true ∧ c ≠ 0xFF then c.toNat &&& 0x7F else c.toNat) < 2 ^ 64 := by
        have hlt := c.toNat_lt
        have hand : c.toNat &&& 0x7F ≤ c.toNat := Nat.and_le_left
        split <;> omega
      unfold binaryLoop at h
      dsimp only at h
      generalize (if first = true ∧ c ≠ 0xFF then c.toNat &&& 0x7F else c.toNat) = x at hc h
      generalize (if first then (if c = 0xFF then 0xFFFFFFFFFFFFFFFF else 0) else result) = sum at h
      split at h
      · cases h
      · split at h
        · cases h
        · exact ih (Nat.or_lt_two_pow (u64_lt _) hc) h

/-- A field that is read holds a number of 64 bits. -/
theorem readNumber_lt {field : List UInt8} {n : Nat} (h : readNumber field = some n) :
    n < 2 ^ 64 := by
  unfold readNumber at h
  split at h
  · exact binaryLoop_lt (by decide) h
  · exact readOctal_lt h

theorem decimalLoop_lt {str : List UInt8} {result n : Nat} (hresult : result < 2 ^ 64)
    (h : decimalLoop str result = some n) : n < 2 ^ 64 := by
  induction str generalizing result with
  | nil =>
      cases h
      exact hresult
  | cons c str ih =>
      unfold decimalLoop at h
      split at h
      · split at h
        · cases h
        · exact ih (u64_lt _) h
      · cases h
        exact hresult

theorem paxReadDecimal_lt {str : List UInt8} {n : Nat} (h : paxReadDecimal str = some n) :
    n < 2 ^ 64 := decimalLoop_lt (by decide) h
/-! ## The numbers in text -/

/-- A number that fits, or an error. -/
def exact (n : Nat) : Option Nat := if n < 2 ^ 64 then some n else none

/-- The octal number of a field. -/
def octalValue (field : List UInt8) : Nat :=
  digitsValue 8 ((field.dropWhile isSpace).takeWhile (isDigitOf 8))

/-- The digits at the start of a string. -/
def decimalRun (str : List UInt8) : List UInt8 := str.takeWhile (isDigitOf 10)

theorem isDigitOf_eight (c : UInt8) : isDigitOf 8 c = decide (48 ≤ c ∧ c ≤ 55) := by
  simp only [isDigitOf, UInt8.le_iff_toNat_le, Bool.decide_and]
  rw [Bool.eq_iff_iff]
  simp
  omega

theorem isDigitOf_ten (c : UInt8) : isDigitOf 10 c = decide (48 ≤ c ∧ c ≤ 57) := by
  simp only [isDigitOf, UInt8.le_iff_toNat_le, Bool.decide_and]
  rw [Bool.eq_iff_iff]
  simp
  omega

/-- The check before a digit is shifted in fails exactly for a number that does not fit. -/
theorem octalLoop_eq (str : List UInt8) (result : Nat) :
    octalLoop str result = boundedValue 8 (2 ^ 64) (str.takeWhile (isDigitOf 8)) result := by
  induction str generalizing result with
  | nil => rfl
  | cons c str ih =>
      rw [octalLoop, List.takeWhile_cons, isDigitOf_eight]
      by_cases hdigit : 48 ≤ c ∧ c ≤ 55
      · have hc : digitValue c < 2 ^ 3 := by
          have hle : c.toNat ≤ 55 := UInt8.le_iff_toNat_le.1 hdigit.2
          unfold digitValue
          omega
        simp only [hdigit, and_self, decide_true, if_true, boundedValue]
        by_cases hbig : result > 0x1FFFFFFFFFFFFFFF
        · rw [if_pos hbig, if_neg (by omega)]
        · have hshift : u64 (result <<< 3) ||| digitValue c = result * 8 + digitValue c := by
            rw [u64_of_lt (by rw [Nat.shiftLeft_eq]; omega),
              Nat.shiftLeft_eq, Nat.mul_comm, ← Nat.two_pow_add_eq_or_of_lt hc]
          rw [if_neg hbig, if_pos (by omega), hshift, ih]
      · simp [hdigit, boundedValue]

/-- `read_octal` is exact or fails. -/
theorem readOctal_eq (field : List UInt8) : readOctal field = exact (octalValue field) := by
  rw [readOctal, octalLoop_eq, boundedValue_eq (by decide) (by decide)]
  rfl

/-! ## Decimal numbers -/

/-- Before one of the digits the number, behind `r` and kept in 64 bits, is above the bound of
the check. -/
def CaughtFrom (r : Nat) (run : List UInt8) : Prop :=
  ∃ n < run.length, digitsValueFrom 10 r (run.take n) % 2 ^ 64 > (2 ^ 64 - 1) / 10

/-- The check fails for one of the digits of a run. -/
def Caught (run : List UInt8) : Prop :=
  ∃ n < run.length, digitsValue 10 (run.take n) % 2 ^ 64 > (2 ^ 64 - 1) / 10

theorem caughtFrom_cons {r : Nat} {c : UInt8} {run : List UInt8} :
    CaughtFrom r (c :: run) ↔
      r % 2 ^ 64 > (2 ^ 64 - 1) / 10 ∨ CaughtFrom (r * 10 + digitValue c) run := by
  constructor
  · rintro ⟨n, hn, hbig⟩
    cases n with
    | zero => exact .inl hbig
    | succ n => exact .inr ⟨n, by simpa using hn, by simpa [digitsValueFrom_cons] using hbig⟩
  · rintro (hbig | ⟨n, hn, hbig⟩)
    · exact ⟨0, by simp, hbig⟩
    · exact ⟨n + 1, by simpa using hn, by simpa [digitsValueFrom_cons] using hbig⟩

/-- The loop keeps the number in 64 bits and fails for the first digit that is caught. -/
theorem decimalLoop_spec (str : List UInt8) (r : Nat) :
    (CaughtFrom r (decimalRun str) → decimalLoop str (r % 2 ^ 64) = none) ∧
      (¬ CaughtFrom r (decimalRun str) →
        decimalLoop str (r % 2 ^ 64) = some (digitsValueFrom 10 r (decimalRun str) % 2 ^ 64)) := by
  unfold decimalRun
  induction str generalizing r with
  | nil => simp [CaughtFrom, decimalLoop]
  | cons c str ih =>
      rw [decimalLoop, List.takeWhile_cons, isDigitOf_ten]
      by_cases hdigit : 48 ≤ c ∧ c ≤ 57
      · simp only [hdigit, and_self, decide_true, if_true]
        rw [caughtFrom_cons, digitsValueFrom_cons]
        by_cases hbig : r % 2 ^ 64 > 0xFFFFFFFFFFFFFFFF / 10
        · rw [if_pos hbig]
          exact ⟨fun _ => rfl, fun h => absurd (.inl hbig) h⟩
        · have hstep : u64 (u64 (r % 2 ^ 64 * 10) + digitValue c) =
              (r * 10 + digitValue c) % 2 ^ 64 := by
            unfold u64
            omega
          obtain ⟨hcaught, hpassed⟩ := ih (r * 10 + digitValue c)
          rw [if_neg hbig, hstep]
          exact ⟨fun h => hcaught (h.resolve_left hbig), fun h => hpassed fun h' => h (.inr h')⟩
      · simp [hdigit, CaughtFrom]

/-- A run that is caught has a number that does not fit. -/
theorem Caught.le {run : List UInt8} (h : Caught run) : 2 ^ 64 ≤ digitsValue 10 run := by
  obtain ⟨n, hn, hbig⟩ := h
  have hmod := Nat.mod_le (digitsValue 10 (run.take n)) (2 ^ 64)
  have hrest : 10 ≤ 10 ^ (run.drop n).length := by
    rw [List.length_drop]
    exact Nat.le_self_pow (by omega) 10
  have hmul : digitsValue 10 (run.take n) * 10 ≤
      digitsValue 10 (run.take n) * 10 ^ (run.drop n).length := Nat.mul_le_mul_left _ hrest
  rw [← List.take_append_drop n run, digitsValue_append]
  omega

/-- `pax_read_decimal` is exact or fails if and only if the number fits or one of its digits is
caught. -/
theorem paxReadDecimal_eq_iff (str : List UInt8) :
    paxReadDecimal str = exact (digitsValue 10 (decimalRun str)) ↔
      digitsValue 10 (decimalRun str) < 2 ^ 64 ∨ Caught (decimalRun str) := by
  obtain ⟨hcaught, hpassed⟩ := decimalLoop_spec str 0
  unfold paxReadDecimal exact
  by_cases hc : Caught (decimalRun str)
  · have hle := hc.le
    rw [if_neg (by omega)]
    exact ⟨fun _ => .inr hc, fun _ => hcaught hc⟩
  · rw [show decimalLoop str 0 = some (digitsValue 10 (decimalRun str) % 2 ^ 64) from hpassed hc]
    by_cases hfits : digitsValue 10 (decimalRun str) < 2 ^ 64
    · rw [if_pos hfits, Nat.mod_eq_of_lt hfits]
      exact ⟨fun _ => .inl hfits, fun _ => rfl⟩
    · rw [if_neg hfits]
      exact ⟨nofun, fun h => (h.elim hfits hc).elim⟩

/-! ## Base 256 -/

/-- The number of a field: negative, in two's complement over the whole field, if the first byte
is 0xFF, else without the marker bit. -/
def binaryValue (field : List UInt8) : Int :=
  match field with
  | [] => 0
  | c :: rest =>
      if c = 0xFF then (ofBigEndian field : Int) - 256 ^ field.length
      else ((c.toNat &&& 0x7F) * 256 ^ rest.length + ofBigEndian rest : Nat)

/-- A number that fits into 64 bits, in two's complement, or an error. -/
def exactBinary (field : List UInt8) : Option Nat :=
  if -2 ^ 63 ≤ binaryValue field ∧ binaryValue field < 2 ^ 64 then
    some (binaryValue field % 2 ^ 64).toNat
  else none

/-- The bytes between the first and the last eight. -/
def highBytes (field : List UInt8) : List UInt8 := field.tail.take (field.tail.length - 8)

/-- The last eight bytes behind the first. -/
def lowBytes (field : List UInt8) : List UInt8 := field.tail.drop (field.tail.length - 8)

/-- The bytes in front of the last eight repeat the sign of these. -/
def SignExtended : List UInt8 → Prop
  | [] => True
  | c :: rest =>
      if c = 0xFF then
        (∀ b ∈ highBytes (c :: rest), b = 0xFF) ∧ ∃ b ∈ (lowBytes (c :: rest)).head?, 0x80 ≤ b
      else c.toNat &&& 0x7F = 0 ∧ ∀ b ∈ highBytes (c :: rest), b = 0

/-- Eight bytes, shifted by one, where the first one is 0 or 0xFF. -/
theorem binaryLoop_cons {w : List UInt8} (hw : w.length = 7) (b x : UInt8) (str : List UInt8) :
    binaryLoop false (x :: str) (ofBigEndian (b :: w)) =
      if b = 0 ∨ b = 0xFF then binaryLoop false str (ofBigEndian (w ++ [x])) else none := by
  have hlt := ofBigEndian_lt w
  rw [hw] at hlt
  have hb := b.toNat_lt
  have hx := x.toNat_lt
  have hvalue := ofBigEndian_cons b w
  rw [hw] at hvalue
  have hov : (ofBigEndian (b :: w) >>> 56) &&& 0xFF = b.toNat := by
    rw [show 0xFF = 2 ^ 8 - 1 from rfl, Nat.and_two_pow_sub_one_eq_mod,
      Nat.shiftRight_eq_div_pow, hvalue]
    omega
  have hshift : u64 (ofBigEndian (b :: w) <<< 8) ||| x.toNat = ofBigEndian (w ++ [x]) := by
    have hrest : u64 (ofBigEndian (b :: w) <<< 8) = 2 ^ 8 * ofBigEndian w := by
      rw [Nat.shiftLeft_eq, hvalue]
      unfold u64
      omega
    rw [hrest, ← Nat.two_pow_add_eq_or_of_lt (show x.toNat < 2 ^ 8 from hx), ofBigEndian_append]
    simp
    omega
  have hbyte : (b = 0 ∨ b = 0xFF) ↔ ¬ (b.toNat ≠ 0 ∧ b.toNat ≠ 0xFF) := by
    rw [← UInt8.toNat_inj, ← UInt8.toNat_inj]
    simp
    omega
  simp only [binaryLoop, Bool.false_eq_true, false_and, if_false, hov, hshift]
  by_cases hok : b = 0 ∨ b = 0xFF
  · rw [if_pos hok, if_neg (hbyte.1 hok)]
  · rw [if_neg hok, if_pos (by rwa [hbyte, not_not] at hok)]

/-- Behind eight bytes the loop fails for a byte other than 0 and 0xFF that is shifted out, and
keeps the last eight. -/
theorem binaryLoop_eq (str w : List UInt8) (hw : w.length = 8) :
    binaryLoop false str (ofBigEndian w) =
      if ∀ b ∈ (w ++ str).take str.length, b = 0 ∨ b = 0xFF then
        some (ofBigEndian ((w ++ str).drop str.length))
      else none := by
  induction str generalizing w with
  | nil => simp [binaryLoop]
  | cons x str ih =>
      obtain ⟨b, w, rfl⟩ := List.exists_cons_of_length_eq_add_one hw
      have hw' : w.length = 7 := by simpa using hw
      have hnext := ih (w ++ [x]) (by simp [hw'])
      rw [List.append_assoc, List.singleton_append] at hnext
      rw [binaryLoop_cons hw', hnext]
      by_cases hb : b = 0 ∨ b = 0xFF <;> simp [hb]

/-- The first byte of a field says what the loop goes on with. -/
theorem readBinary_cons (c : UInt8) (rest : List UInt8) :
    readBinary (c :: rest) =
      if c = 0xFF then binaryLoop false rest (ofBigEndian (List.replicate 8 0xFF))
      else if rest.length > 7 ∧ c.toNat &&& 0x7F ≠ 0 then none
      else binaryLoop false rest
        (ofBigEndian (List.replicate 7 0 ++ [UInt8.ofNat (c.toNat &&& 0x7F)])) := by
  have hones : u64 (0xFFFFFFFFFFFFFFFF <<< 8) ||| 0xFF = ofBigEndian (List.replicate 8 0xFF) := by
    decide
  have hzeros : ofBigEndian (List.replicate 7 0 ++ [UInt8.ofNat (c.toNat &&& 0x7F)]) =
      c.toNat &&& 0x7F := by
    have hlt : c.toNat &&& 0x7F < 256 := Nat.lt_of_le_of_lt Nat.and_le_right (by decide)
    have hzero : ofBigEndian (List.replicate 7 0) = 0 := by decide
    rw [ofBigEndian_append, hzero, ofBigEndian_singleton, UInt8.toNat_ofNat']
    omega
  rw [hzeros, readBinary, binaryLoop]
  by_cases hc : c = 0xFF
  · subst hc
    have hfirst : (0xFF : UInt8).toNat = 0xFF := rfl
    simp only [ne_eq, not_true_eq_false, and_false, false_and, if_false, if_true, hfirst, hones]
    rfl
  · simp [hc, u64]

section Field

variable (c : UInt8) {rest : List UInt8}

/-- A first byte 0xFF stands for the negative number above the rest. -/
theorem binaryValue_negative (rest : List UInt8) :
    binaryValue (0xFF :: rest) = (ofBigEndian rest : Int) - (256 ^ rest.length : Nat) := by
  have hfirst : (0xFF : UInt8).toNat = 255 := rfl
  simp only [binaryValue, if_true, ofBigEndian_cons, List.length_cons, hfirst]
  push_cast
  ring

/-- Up to eight bytes every number fits. -/
theorem readBinary_short (h : rest.length < 8) :
    readBinary (c :: rest) = exactBinary (c :: rest) := by
  have hpow : 256 ^ rest.length * 256 ≤ 2 ^ 64 := by
    rw [← Nat.pow_succ]
    exact Nat.pow_le_pow_right (by decide) (show rest.length + 1 ≤ 8 by omega)
  have hlt := ofBigEndian_lt rest
  rw [readBinary_cons]
  by_cases hc : c = 0xFF
  · have hones := (@ofBigEndian_eq_max_iff (List.replicate (8 - rest.length) 0xFF)).2 (by simp)
    have hsplit : 256 ^ (8 - rest.length) * 256 ^ rest.length = 2 ^ 64 := by
      rw [← Nat.pow_add, Nat.sub_add_cancel h.le]
      rfl
    have hread : ofBigEndian (List.replicate (8 - rest.length) 0xFF ++ rest) =
        2 ^ 64 - 256 ^ rest.length + ofBigEndian rest := by
      rw [ofBigEndian_append, hones, List.length_replicate, Nat.sub_mul, hsplit, Nat.one_mul]
    rw [if_pos hc, binaryLoop_eq _ _ (by simp), List.take_append_of_le_length (by simp; omega),
      List.drop_append_of_le_length (by simp; omega), List.drop_replicate, List.take_replicate,
      hread,
      exactBinary, hc, binaryValue_negative]
    generalize 256 ^ rest.length = p at *
    rw [if_pos (by simp), if_pos (by omega)]
    congr 1
    omega
  · have hx : c.toNat &&& 0x7F < 128 := Nat.lt_succ_of_le Nat.and_le_right
    have hzeros := (@ofBigEndian_eq_zero_iff (List.replicate (7 - rest.length) 0)).2 (by simp)
    have hread : ofBigEndian (List.replicate (7 - rest.length) 0 ++
        [UInt8.ofNat (c.toNat &&& 0x7F)] ++ rest) =
          (c.toNat &&& 0x7F) * 256 ^ rest.length + ofBigEndian rest := by
      rw [ofBigEndian_append, ofBigEndian_append, hzeros, ofBigEndian_singleton, UInt8.toNat_ofNat',
        Nat.mod_eq_of_lt (by omega), Nat.zero_mul, Nat.zero_add]
    have hbound : (c.toNat &&& 0x7F) * 256 ^ rest.length ≤ 127 * 256 ^ rest.length :=
      Nat.mul_le_mul_right _ (by omega)
    rw [if_neg hc, if_neg (by omega), binaryLoop_eq _ _ (by simp),
      List.take_append_of_le_length (by simp; omega),
      List.take_append_of_le_length (by simp; omega),
      List.drop_append_of_le_length (by simp; omega),
      List.drop_append_of_le_length (by simp; omega),
      List.drop_replicate, List.take_replicate, hread, exactBinary]
    simp only [binaryValue, hc, if_false]
    generalize (c.toNat &&& 0x7F) * 256 ^ rest.length = y at *
    generalize 256 ^ rest.length = p at *
    rw [if_pos (by simp), if_pos (by omega)]
    congr 1
    omega

/-- From nine bytes on the loop fails for a number without a sign, and for a byte between the
first and the last eight other than 0 and 0xFF. -/
theorem readBinary_long (h : 8 ≤ rest.length) :
    readBinary (c :: rest) =
      if c ≠ 0xFF ∧ c.toNat &&& 0x7F ≠ 0 then none
      else if ∀ b ∈ highBytes (c :: rest), b = 0 ∨ b = 0xFF then
        some (ofBigEndian (lowBytes (c :: rest)))
      else none := by
  have hloop : ∀ w : List UInt8, w.length = 8 → (∀ b ∈ w, b = 0 ∨ b = 0xFF) →
      binaryLoop false rest (ofBigEndian w) =
        if ∀ b ∈ highBytes (c :: rest), b = 0 ∨ b = 0xFF then
          some (ofBigEndian (lowBytes (c :: rest)))
        else none := by
    intro w hw hbytes
    rw [binaryLoop_eq _ _ hw, List.take_append, List.drop_append, hw,
      List.take_of_length_le (by omega), List.drop_of_length_le (by omega)]
    have hfirst : (∀ b ∈ w ++ rest.take (rest.length - 8), b = 0 ∨ b = 0xFF) ↔
        ∀ b ∈ highBytes (c :: rest), b = 0 ∨ b = 0xFF := by
      rw [List.forall_mem_append]
      exact and_iff_right hbytes
    simp only [hfirst]
    rfl
  rw [readBinary_cons]
  by_cases hc : c = 0xFF
  · rw [if_pos hc, hloop _ (by simp) (by simp)]
    simp only [hc, ne_eq, not_true_eq_false, false_and, if_false]
  · by_cases hx : c.toNat &&& 0x7F = 0
    · rw [if_neg hc, if_neg (by simp [hx]), hx, if_neg (by simp)]
      exact hloop _ (by simp) (by simp)
    · rw [if_neg hc, if_pos ⟨by omega, hx⟩, if_pos ⟨hc, hx⟩]

/-- The highest bit of eight bytes is the one of the first byte. -/
theorem le_ofBigEndian_iff {low : List UInt8} (h : low.length = 8) :
    2 ^ 63 ≤ ofBigEndian low ↔ ∃ b ∈ low.head?, 0x80 ≤ b := by
  obtain ⟨b, bs, rfl⟩ := List.exists_cons_of_length_eq_add_one h
  have hlt := ofBigEndian_lt bs
  have hbs : bs.length = 7 := by simpa using h
  have hb : (0x80 : UInt8) ≤ b ↔ 128 ≤ b.toNat := UInt8.le_iff_toNat_le
  rw [hbs] at hlt
  simp [ofBigEndian_cons, hbs, hb]
  omega

theorem toNat_emod_two_pow {v k : Int} {low : Nat} (h : v = low + k * 2 ^ 64)
    (hlow : low < 2 ^ 64) : (v % 2 ^ 64).toNat = low := by
  rw [h, Int.add_mul_emod_self_right, Int.emod_eq_of_lt (Int.natCast_nonneg low) (by omega),
    Int.toNat_natCast]

/-- The number is the one of the last eight bytes if the bytes in front repeat its sign, and else
does not fit. -/
theorem exactBinary_long (h : 8 ≤ rest.length) :
    (SignExtended (c :: rest) →
        exactBinary (c :: rest) = some (ofBigEndian (lowBytes (c :: rest)))) ∧
      (¬ SignExtended (c :: rest) → exactBinary (c :: rest) = none) := by
  have hhigh : (highBytes (c :: rest)).length = rest.length - 8 := by simp [highBytes]
  have hlow : (lowBytes (c :: rest)).length = 8 := by
    simp [lowBytes]
    omega
  have hrest : ofBigEndian rest =
      ofBigEndian (highBytes (c :: rest)) * 2 ^ 64 + ofBigEndian (lowBytes (c :: rest)) := by
    have hsplit : rest = highBytes (c :: rest) ++ lowBytes (c :: rest) := by
      simp [highBytes, lowBytes]
    conv_lhs => rw [hsplit, ofBigEndian_append, hlow]
    rfl
  have hpow : 256 ^ rest.length = 256 ^ (rest.length - 8) * 2 ^ 64 := by
    rw [show (2 : Nat) ^ 64 = 256 ^ 8 by decide, ← Nat.pow_add, Nat.sub_add_cancel h]
  have hhighlt := ofBigEndian_lt (highBytes (c :: rest))
  have hlowlt : ofBigEndian (lowBytes (c :: rest)) < 2 ^ 64 := by
    have hlt := ofBigEndian_lt (lowBytes (c :: rest))
    rwa [hlow] at hlt
  have hpos : 0 < 256 ^ (rest.length - 8) := Nat.pow_pos (by decide)
  rw [hhigh] at hhighlt
  simp only [SignExtended]
  rw [← le_ofBigEndian_iff hlow, ← ofBigEndian_eq_max_iff, ← ofBigEndian_eq_zero_iff, hhigh,
    exactBinary]
  by_cases hc : c = 0xFF
  · subst hc
    rw [binaryValue_negative, hrest, hpow, if_pos rfl]
    generalize ofBigEndian (lowBytes (0xFF :: rest)) = low at *
    generalize ofBigEndian (highBytes (0xFF :: rest)) = high at *
    generalize 256 ^ (rest.length - 8) = p at *
    constructor
    · rintro ⟨hmax, hsign⟩
      have hmod : (low : Int) - 2 ^ 64 = low + (-1) * 2 ^ 64 := by ring
      have hneg : ((high * 2 ^ 64 + low : Nat) : Int) - (p * 2 ^ 64 : Nat) = low - 2 ^ 64 := by
        omega
      rw [hneg, if_pos (by omega), toNat_emod_two_pow hmod hlowlt]
    · intro hsign
      rw [if_neg (by omega)]
  · simp only [binaryValue, hc, if_false]
    rw [hrest, hpow]
    generalize ofBigEndian (lowBytes (c :: rest)) = low at *
    generalize ofBigEndian (highBytes (c :: rest)) = high at *
    generalize 256 ^ (rest.length - 8) = p at *
    constructor
    · rintro ⟨hx, hzero⟩
      have hmod : (low : Int) = low + 0 * 2 ^ 64 := by ring
      rw [hx, hzero, Nat.zero_mul, Nat.zero_mul, Nat.zero_add, Nat.zero_add, if_pos (by omega),
        toNat_emod_two_pow hmod hlowlt]
    · intro hsign
      have hbig : 2 ^ 64 ≤ (c.toNat &&& 0x7F) * (p * 2 ^ 64) + (high * 2 ^ 64 + low) := by
        by_cases hx : c.toNat &&& 0x7F = 0
        · have hhigh : high ≠ 0 := fun h0 => hsign ⟨hx, h0⟩
          omega
        · have hmul := Nat.mul_le_mul (Nat.one_le_iff_ne_zero.2 hx)
            (Nat.mul_le_mul_right (2 ^ 64) hpos)
          omega
      rw [if_neg (by omega)]

end Field

/-- A byte in front of the last eight, or the sign of the number, makes the loop fail, or the
bytes in front of the last eight repeat the sign. -/
def SignSeen (field : List UInt8) : Prop :=
  field.length < 9 ∨ SignExtended field ∨ (∃ b ∈ highBytes field, b ≠ 0 ∧ b ≠ 0xFF) ∨
    ∃ c ∈ field.head?, c ≠ 0xFF ∧ c.toNat &&& 0x7F ≠ 0

/-- `read_binary` is exact or fails if and only if the bytes in front of the last eight are seen to
be more than the sign. -/
theorem readBinary_eq_iff (field : List UInt8) :
    readBinary field = exactBinary field ↔ SignSeen field := by
  cases field with
  | nil => exact ⟨fun _ => .inl (by decide), fun _ => by decide⟩
  | cons c rest =>
      by_cases hlength : rest.length < 8
      · exact ⟨fun _ => .inl (Nat.succ_lt_succ hlength), fun _ => readBinary_short c hlength⟩
      · obtain ⟨hfits, hlong⟩ := exactBinary_long c (Nat.le_of_not_lt hlength)
        have hnine : ¬ (c :: rest).length < 9 := fun h => hlength (Nat.lt_of_succ_lt_succ h)
        rw [readBinary_long c (Nat.le_of_not_lt hlength)]
        unfold SignSeen
        by_cases hmark : c ≠ 0xFF ∧ c.toNat &&& 0x7F ≠ 0
        · have hnot : ¬ SignExtended (c :: rest) := by
            rw [SignExtended, if_neg hmark.1]
            exact fun h => hmark.2 h.1
          rw [if_pos hmark, hlong hnot]
          exact ⟨fun _ => .inr (.inr (.inr ⟨c, rfl, hmark⟩)), fun _ => rfl⟩
        · have hmark' : ¬ ∃ b ∈ (c :: rest).head?, b ≠ 0xFF ∧ b.toNat &&& 0x7F ≠ 0 := by
            rintro ⟨b, hb, h⟩
            cases hb
            exact hmark h
          rw [if_neg hmark]
          by_cases hbytes : ∀ b ∈ highBytes (c :: rest), b = 0 ∨ b = 0xFF
          · have hseen : ¬ ∃ b ∈ highBytes (c :: rest), b ≠ 0 ∧ b ≠ 0xFF := by
              rintro ⟨b, hb, hzero, hones⟩
              exact (hbytes b hb).elim hzero hones
            rw [if_pos hbytes]
            by_cases hsign : SignExtended (c :: rest)
            · exact ⟨fun _ => .inr (.inl hsign), fun _ => (hfits hsign).symm⟩
            · rw [hlong hsign]
              exact ⟨fun h => absurd h (Option.some_ne_none _), fun h => by simp only [hnine, hsign, hseen, hmark', or_self] at h⟩
          · have hnot : ¬ SignExtended (c :: rest) := by
              intro h
              rw [SignExtended] at h
              split at h
              · exact hbytes fun b hb => .inr (h.1 b hb)
              · exact hbytes fun b hb => .inl (h.2 b hb)
            have hseen : ∃ b ∈ highBytes (c :: rest), b ≠ 0 ∧ b ≠ 0xFF := by
              simpa using hbytes
            rw [if_neg hbytes, hlong hnot]
            exact ⟨fun _ => .inr (.inr (.inl hseen)), fun _ => rfl⟩

/-- The readers are exact or fail: the octal one always, the decimal one if and only if the number
fits or one of its digits is caught, the one for base 256 if and only if the bytes in front of the
last eight are seen to be more than the sign. -/
theorem readers_exact_iff (str field : List UInt8) :
    readOctal field = exact (octalValue field) ∧
      (paxReadDecimal str = exact (digitsValue 10 (decimalRun str)) ↔
        digitsValue 10 (decimalRun str) < 2 ^ 64 ∨ Caught (decimalRun str)) ∧
      (readBinary field = exactBinary field ↔ SignSeen field) :=
  ⟨readOctal_eq field, paxReadDecimal_eq_iff str, readBinary_eq_iff field⟩

/-- `18446744073709551616` is read as 0. -/
theorem paxReadDecimal_wraps :
    ¬ ∀ str, paxReadDecimal str = exact (digitsValue 10 (decimalRun str)) := by
  intro h
  have hread := h (numeral 10 (2 ^ 64))
  revert hread
  decide

end ImageTool.Tar
