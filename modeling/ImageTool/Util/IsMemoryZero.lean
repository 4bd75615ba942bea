import ImageTool.Lib.Bytes
import Mathlib.Tactic.Ring

/-!
# `is_memory_zero`

The test compares whole 64-bit words once the blob is long enough and its
pointer has been brought to a word boundary.  The alignment of the pointer
decides how the blob is cut, never the answer: `isMemoryZero_eq`.
-/

namespace ImageTool.Util

open ImageTool.Lib

/-- `U64THRESHOLD`. -/
def u64Threshold : Nat := 128

/-- `test_u8`. -/
def testU8 (blob : List UInt8) : Bool := blob.all (· == 0)

/-- The value of a word stored little-endian in memory. -/
def wordValue : List UInt8 → Nat
  | [] => 0
  | b :: bs => b.toNat + 256 * wordValue bs

/-- The word loop of `is_memory_zero` and the bytes behind the last word. -/
def testWords : Nat → List UInt8 → Bool
  | 0, blob => testU8 blob
  | fuel + 1, blob =>
      if 8 ≤ blob.length then
        if wordValue (blob.take 8) ≠ 0 then false
        else testWords fuel (blob.drop 8)
      else testU8 blob

/-- `is_memory_zero`, for a blob at address `addr`. -/
def isMemoryZero (addr : Nat) (blob : List UInt8) : Bool :=
  if blob.length < u64Threshold then testU8 blob
  else
    let diff := addr % 8
    if diff ≠ 0 then
      let diff := 8 - diff
      if testU8 (blob.take diff) then testWords blob.length (blob.drop diff)
      else false
    else testWords blob.length blob

theorem wordValue_eq_zero_iff (bytes : List UInt8) :
    wordValue bytes = 0 ↔ testU8 bytes = true := by
  induction bytes with
  | nil => simp [wordValue, testU8]
  | cons b bs ih =>
      have hb : b.toNat = 0 ↔ b = 0 := by
        rw [← UInt8.toNat_inj]; rfl
      have hsplit : wordValue (b :: bs) = 0 ↔ b.toNat = 0 ∧ wordValue bs = 0 := by
        simp only [wordValue]
        omega
      rw [hsplit, ih, hb]
      simp [testU8]

theorem testU8_take_drop (n : Nat) (blob : List UInt8) :
    (testU8 (blob.take n) && testU8 (blob.drop n)) = testU8 blob := by
  unfold testU8
  rw [← List.all_append, List.take_append_drop]

theorem testWords_eq (fuel : Nat) :
    ∀ blob : List UInt8, testWords fuel blob = testU8 blob := by
  induction fuel with
  | zero => intro blob; rfl
  | succ fuel ih =>
      intro blob
      rw [testWords]
      split
      · rw [← testU8_take_drop 8 blob, ih]
        split
        · rename_i hword
          rw [ne_eq, wordValue_eq_zero_iff] at hword
          simp [hword]
        · rename_i hword
          rw [not_not, wordValue_eq_zero_iff] at hword
          simp [hword]
      · rfl

/-- The answer does not depend on the alignment of the blob. -/
theorem isMemoryZero_eq (addr : Nat) (blob : List UInt8) :
    isMemoryZero addr blob = blob.all (· == 0) := by
  change _ = testU8 blob
  unfold isMemoryZero
  split
  · rfl
  · simp only [testWords_eq]
    split
    · rw [← testU8_take_drop (8 - addr % 8) blob]
      split <;> simp_all
    · rfl

/-- `data == NULL || is_memory_zero(data, size)`.  A buffer of the model has no
address; by `isMemoryZero_eq` any will do. -/
def isNullOrZero (data : Buffer) (size : Nat) : Bool :=
  match data with
  | none => true
  | some l => isMemoryZero 0 (l.take size)

theorem bytes_of_isNullOrZero {data : Buffer} {size : Nat}
    (h : isNullOrZero data size = true) (hold : data.Holds size) :
    data.bytes size = List.replicate size 0 := by
  cases data with
  | none => rfl
  | some l =>
      simp only [isNullOrZero, isMemoryZero_eq, List.all_eq_true,
        beq_iff_eq] at h
      have hlen := Buffer.length_bytes hold
      rw [List.eq_replicate_iff]
      exact ⟨hlen, h⟩

end ImageTool.Util
