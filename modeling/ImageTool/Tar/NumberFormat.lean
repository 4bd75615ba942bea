import ImageTool.Tar.Number

/-!
# Writing the numbers of a tar header

`write_number` writes octal digits and a blank, then octal digits without one, and last a number
in base 256.  What it writes is read back with `read_number`.
-/

namespace ImageTool.Tar

open ImageTool.Lib ImageTool.Fstream

/-! ## The writers -/

/-- The loop of `write_binary`, in front of the bytes it has stored. -/
def byteLoop : Nat → Nat → List UInt8 → List UInt8
  | 0, _, dst => dst
  | digits + 1, value, dst => byteLoop digits (value >>> 8) (UInt8.ofNat (value &&& 0xFF) :: dst)

/-- `write_binary`. -/
def writeBinary (value digits : Nat) : List UInt8 :=
  match byteLoop digits value [] with
  | [] => []
  | c :: dst => (c ||| 0x80) :: dst

/-- The loop of `write_number` for the mask. -/
def maskLoop : Nat → Nat
  | 0 => 0
  | n + 1 => u64 (maskLoop n <<< 3) ||| 7

/-- The conversion `%0*o` of `sprintf`. -/
def sprintfOctal (width value : Nat) : List UInt8 := List.leftpad width 48 (numeral 8 value)

/-- `write_number`. -/
def writeNumber (value digits : Nat) : List UInt8 :=
  let mask := maskLoop (digits - 1)
  if value ≤ mask then (sprintfOctal (digits - 1) (u32 value) ++ [32]).take digits
  else if value ≤ u64 (mask <<< 3) ||| 7 then (sprintfOctal digits (u32 value)).take digits
  else writeBinary value digits

/-- `write_number_signed`. -/
def writeNumberSigned (value : Int) (digits : Nat) : List UInt8 :=
  if value < 0 then
    let neg := u64 (-value).toNat
    writeBinary (sub64 0 neg) digits
  else writeNumber value.toNat digits

/-- The value of a signed 64-bit expression. -/
def int64 (n : Int) : Int := n.bmod (2 ^ 64)

/-- What `decode_header` makes of the modification time. -/
def decodeMtime (field : Nat) : Int :=
  if field &&& 0x8000000000000000 ≠ 0 then
    let field := sub64 0 field
    int64 (-int64 field)
  else int64 field

/-! ## What is read back -/

theorem byteLoop_eq (digits value : Nat) (dst : List UInt8) :
    byteLoop digits value dst = (littleEndian digits value).reverse ++ dst := by
  induction digits generalizing value dst with
  | zero => rfl
  | succ digits ih =>
      have hbyte : UInt8.ofNat (value &&& 0xFF) = UInt8.ofNat value := by
        rw [show 0xFF = 2 ^ 8 - 1 from rfl, Nat.and_two_pow_sub_one_eq_mod]
        exact UInt8.toNat_inj.1 (by simp)
      rw [byteLoop, ih, hbyte, littleEndian, List.reverse_cons, List.append_assoc,
        List.singleton_append, Nat.shiftRight_eq_div_pow]

theorem littleEndian_succ_of_lt {k value : Nat} (h : value < 256 ^ k) :
    littleEndian (k + 1) value = littleEndian k value ++ [0] := by
  induction k generalizing value with
  | zero =>
      obtain rfl : value = 0 := by omega
      rfl
  | succ k ih =>
      rw [Nat.pow_succ] at h
      rw [littleEndian, ih (by omega), littleEndian, List.cons_append]

/-- A number that leaves the first byte free is stored behind the marker bit. -/
theorem writeBinary_of_lt {value k : Nat} (h : value < 256 ^ k) :
    writeBinary value (k + 1) = 0x80 :: (littleEndian k value).reverse := by
  unfold writeBinary
  rw [byteLoop_eq, littleEndian_succ_of_lt h, List.append_nil, List.reverse_append]
  rfl

/-- A number behind the marker bit is read back. -/
theorem readNumber_writeBinary {value k : Nat} (h : value < 256 ^ k) (hvalue : value < 2 ^ 64) :
    readNumber (writeBinary value (k + 1)) = some value := by
  have hbytes : ofBigEndian (littleEndian k value).reverse = value := by
    rw [ofBigEndian, List.reverse_reverse, ofLittleEndian_littleEndian, Nat.mod_eq_of_lt h]
  have hbinary : binaryValue (0x80 :: (littleEndian k value).reverse) = value := by
    simp [binaryValue, hbytes]
  have hexact : exactBinary (0x80 :: (littleEndian k value).reverse) = some value := by
    rw [exactBinary, hbinary, if_pos (by omega)]
    congr 1
    omega
  have hseen : SignSeen (0x80 :: (littleEndian k value).reverse) := by
    by_cases hk : k < 8
    · exact .inl (Nat.succ_lt_succ (by simpa using hk))
    · refine .inr (.inl ?_)
      by_contra hsign
      have hnone := (exactBinary_long 0x80 (by simpa using hk)).2 hsign
      rw [hexact] at hnone
      cases hnone
  have hmark : (0x80 : UInt8) &&& 0x80 ≠ 0 := by decide
  rw [writeBinary_of_lt h, readNumber, List.headD_cons, if_pos hmark, (readBinary_eq_iff _).2 hseen,
    hexact]

theorem isDigitOf_of_mem_sprintfOctal {width value : Nat} {c : UInt8}
    (hc : c ∈ sprintfOctal width value) : isDigitOf 8 c = true := by
  rw [sprintfOctal, List.leftpad, List.mem_append] at hc
  rcases hc with hzero | hnumeral
  · rw [List.eq_of_mem_replicate hzero]
    decide
  · exact isDigitOf_of_mem_numeral (by decide) (by decide) hnumeral

theorem length_sprintfOctal {width value : Nat} (hwidth : 0 < width) (h : value < 8 ^ width) :
    (sprintfOctal width value).length = width := by
  rw [sprintfOctal, List.length_leftpad]
  exact Nat.max_eq_left (length_numeral_le (by decide) hwidth h)

/-- Octal digits are read back up to a blank or to the end of the field. -/
theorem readNumber_sprintfOctal {width value : Nat} (hwidth : 0 < width) (h : value < 8 ^ width)
    (hvalue : value < 2 ^ 64) {tail : List UInt8} (htail : tail = [] ∨ tail = [32]) :
    readNumber (sprintfOctal width value ++ tail) = some value := by
  have hlength := length_sprintfOctal hwidth h
  have hdigits : ∀ c ∈ sprintfOctal width value, isDigitOf 8 c = true :=
    fun c hc => isDigitOf_of_mem_sprintfOctal hc
  have hsum : digitsValue 8 (sprintfOctal width value) = value := by
    rw [sprintfOctal, digitsValue_leftpad, digitsValue_numeral (by decide) (by decide)]
  generalize sprintfOctal width value = text at *
  obtain ⟨c, cs, rfl⟩ := List.exists_cons_of_length_pos (show 0 < text.length by omega)
  have hc := hdigits c List.mem_cons_self
  have hplain : c &&& 0x80 = 0 ∧ isSpace c = false := by
    have hrange : 48 ≤ c.toNat ∧ c.toNat < 56 := by simpa [isDigitOf] using hc
    rw [← UInt8.ofNat_toNat (x := c)]
    generalize c.toNat = n at hrange
    obtain ⟨hlo, hhi⟩ := hrange
    interval_cases n <;> decide
  have hrun : ((c :: cs) ++ tail).takeWhile (isDigitOf 8) = c :: cs := by
    rw [List.takeWhile_append_of_pos hdigits]
    rcases htail with rfl | rfl
    · simp
    · simp [show isDigitOf 8 32 = false from rfl]
  rw [readNumber, List.cons_append, List.headD_cons, if_neg (by simp [hplain.1]), readOctal_eq,
    octalValue, List.dropWhile_cons_of_neg (by simp [hplain.2]), ← List.cons_append, hrun, hsum,
    exact,
    if_pos hvalue]

theorem maskLoop_eq {n : Nat} (h : n ≤ 21) : maskLoop n = 8 ^ n - 1 := by
  interval_cases n <;> decide

/-- What `write_number` has written is read back as 32 bits of the number where it is written in
octal. -/
theorem readNumber_writeNumber {value d : Nat} (hd : 0 < d) (hd' : d < 21) (h : value < 256 ^ d)
    (hvalue : value < 2 ^ 64) :
    readNumber (writeNumber value (d + 1)) =
      some (if value < 8 ^ (d + 1) then u32 value else value) := by
  have hmask : u64 (maskLoop d <<< 3) ||| 7 = 8 ^ (d + 1) - 1 := maskLoop_eq (n := d + 1) hd'
  have hpos : 0 < 8 ^ d := Nat.pow_pos (by decide)
  have hu32 : u32 value ≤ value := Nat.mod_le _ _
  unfold writeNumber
  dsimp only
  rw [Nat.add_sub_cancel, hmask, maskLoop_eq (by omega)]
  by_cases hblank : value ≤ 8 ^ d - 1
  · have hlength := length_sprintfOctal hd (show u32 value < 8 ^ d by omega)
    rw [if_pos hblank, List.take_of_length_le (by simp [hlength]),
      readNumber_sprintfOctal hd (by omega) (by omega) (.inr rfl),
      if_pos (by rw [Nat.pow_succ]; omega)]
  · by_cases hfull : value ≤ 8 ^ (d + 1) - 1
    · have hlength := length_sprintfOctal (Nat.succ_pos d) (show u32 value < 8 ^ (d + 1) by omega)
      have hread := readNumber_sprintfOctal (Nat.succ_pos d) (show u32 value < 8 ^ (d + 1) by omega)
        (by omega) (.inl rfl)
      rw [List.append_nil] at hread
      rw [if_neg hblank, if_pos hfull, List.take_of_length_le (by simp [hlength]), hread,
        if_pos (by omega)]
    · rw [if_neg hblank, if_neg hfull, readNumber_writeBinary h hvalue, if_neg (by omega)]

/-! ## Signed numbers -/

theorem int64_of_range {n : Int} (hlo : -2 ^ 63 ≤ n) (hhi : n < 2 ^ 63) : int64 n = n :=
  Int.bmod_eq_of_le (by omega) (by omega)

/-- The highest of 64 bits. -/
theorem and_sign_eq_zero_iff {field : Nat} (h : field < 2 ^ 64) :
    field &&& 0x8000000000000000 = 0 ↔ field < 2 ^ 63 := by
  rw [show 0x8000000000000000 = 2 ^ 63 from rfl]
  constructor
  · intro hzero
    by_contra hge
    have hbit := Nat.testBit_of_two_pow_le_and_two_pow_add_one_gt (Nat.le_of_not_lt hge) h
    have hand : (field &&& 2 ^ 63).testBit 63 = false := by
      rw [hzero]
      rfl
    rw [Nat.testBit_and, hbit, Nat.testBit_two_pow_self] at hand
    cases hand
  · intro hlt
    apply Nat.eq_of_testBit_eq
    intro i
    rw [Nat.testBit_and, Nat.testBit_two_pow, Nat.zero_testBit]
    by_cases hi : 63 = i
    · simp [← hi, Nat.testBit_lt_two_pow hlt]
    · simp [hi]

theorem decodeMtime_of_lt {field : Nat} (h : field < 2 ^ 63) : decodeMtime field = field := by
  rw [decodeMtime, if_neg (not_not.2 ((and_sign_eq_zero_iff (by omega)).2 h))]
  exact int64_of_range (by omega) (by omega)

/-- A negative time is read back from its two's complement. -/
theorem decodeMtime_sub64 {neg : Nat} (hpos : 0 < neg) (h : neg ≤ 2 ^ 63) :
    decodeMtime (sub64 0 neg) = -neg := by
  have hfield : sub64 0 neg = 2 ^ 64 - neg := by
    rw [sub64_of_lt hpos (by omega), Nat.zero_add]
  have hback : sub64 0 (2 ^ 64 - neg) = neg := by
    rw [sub64_of_lt (by omega) (by omega)]
    omega
  rw [hfield, decodeMtime, if_pos (by rw [ne_eq, and_sign_eq_zero_iff (by omega)]; omega)]
  dsimp only
  rw [hback]
  by_cases hmin : neg = 2 ^ 63
  · -- The least number is its own negation.
    subst hmin
    decide
  · rw [int64_of_range (n := (neg : Int)) (by omega) (by omega),
      int64_of_range (by omega) (by omega)]

/-- The numbers that `write_number` writes with all their bits into a field of 12 bytes. -/
def Kept (value : Int) : Prop := value < 2 ^ 32 ∨ 2 ^ 36 ≤ value

/-- A field of 12 bytes gives back 32 bits of the numbers between those in octal and those in
base 256. -/
theorem readNumber_writeNumber_twelve {value : Nat} (h : value < 2 ^ 64) :
    readNumber (writeNumber value 12) = some (if value < 2 ^ 36 then u32 value else value) := by
  have hpow : (8 : Nat) ^ (11 + 1) = 2 ^ 36 := by decide
  have hread := readNumber_writeNumber (d := 11) (by decide) (by decide)
    (Nat.lt_of_lt_of_le h (by decide)) h
  rwa [hpow] at hread

theorem u32_eq_self_iff {value : Nat} : u32 value = value ↔ value < 2 ^ 32 :=
  Nat.mod_eq_iff_lt (by decide)

theorem readNumber_writeNumber_eq_iff {value : Nat} (h : value < 2 ^ 64) :
    readNumber (writeNumber value 12) = some value ↔ Kept value := by
  rw [readNumber_writeNumber_twelve h, Option.some.injEq]
  unfold Kept
  split
  · rw [u32_eq_self_iff]
    omega
  · simp only [true_iff]
    omega

/-- A negative number is always stored in base 256. -/
theorem readNumber_writeNumberSigned_negative {value : Int} (hlo : -2 ^ 63 ≤ value)
    (hhi : value < 0) :
    (readNumber (writeNumberSigned value 12)).map decodeMtime = some value := by
  have hneg : u64 (-value).toNat = (-value).toNat := u64_of_lt (by omega)
  have hlt : sub64 0 (-value).toNat < 2 ^ 64 := u64_lt _
  rw [writeNumberSigned, if_pos hhi]
  dsimp only
  rw [hneg, readNumber_writeBinary (k := 11) (Nat.lt_of_lt_of_le hlt (by decide)) hlt,
    Option.map_some,
    decodeMtime_sub64 (by omega) (by omega)]
  congr 1
  omega

theorem readNumber_writeNumberSigned_iff {value : Int} (hlo : -2 ^ 63 ≤ value)
    (hhi : value < 2 ^ 63) :
    (readNumber (writeNumberSigned value 12)).map decodeMtime = some value ↔ Kept value := by
  by_cases hneg : value < 0
  · rw [readNumber_writeNumberSigned_negative hlo hneg]
    exact ⟨fun _ => .inl (by omega), fun _ => rfl⟩
  · obtain ⟨n, rfl⟩ := Int.eq_ofNat_of_zero_le (Int.not_lt.1 hneg)
    have hn : n < 2 ^ 63 := by omega
    have hread : (if n < 2 ^ 36 then u32 n else n) < 2 ^ 63 := by
      have hle : u32 n ≤ n := Nat.mod_le _ _
      split <;> omega
    rw [writeNumberSigned, if_neg hneg, Int.toNat_natCast,
      ← readNumber_writeNumber_eq_iff (by omega),
      readNumber_writeNumber_twelve (by omega), Option.map_some, decodeMtime_of_lt hread]
    simp

/-- A number of 64 bits in a field of 12 bytes, without or with a sign, is read back if and only if
it has no more than 32 bits or is stored in base 256; a number of 32 bits in a field of 8 bytes is
always read back. -/
theorem readNumber_writeNumber_iff (value : UInt64) (short : UInt32) (mtime : Int64) :
    (readNumber (writeNumber value.toNat 12) = some value.toNat ↔ Kept value.toNat) ∧
      readNumber (writeNumber short.toNat 8) = some short.toNat ∧
      ((readNumber (writeNumberSigned mtime.toInt 12)).map decodeMtime = some mtime.toInt ↔
        Kept mtime.toInt) := by
  have hshort := short.toNat_lt
  have hpow : (2 : Nat) ^ 32 ≤ 256 ^ 7 := by decide
  have hread := @readNumber_writeNumber short.toNat 7 (by decide) (by decide)
    (by omega) (by omega)
  rw [u32_of_lt hshort, ite_self] at hread
  exact ⟨readNumber_writeNumber_eq_iff value.toNat_lt, hread,
    readNumber_writeNumberSigned_iff mtime.le_toInt mtime.toInt_lt⟩

/-- `2 ^ 32` is written as 0. -/
theorem readNumber_writeNumber_wraps :
    ¬ ∀ value : UInt64, readNumber (writeNumber value.toNat 12) = some value.toNat := by
  intro h
  have hread := h (2 ^ 32)
  revert hread
  decide

end ImageTool.Tar
