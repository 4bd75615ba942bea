import Mathlib.Tactic.Ring

/-!
# Unsigned machine words as natural numbers

The source computes with `uint32_t` and `uint64_t`.  The model keeps every such
value a `Nat` and reduces explicitly where the C expression can leave the range:
`u64 e` is the value a 64-bit expression `e` really has, `sub64 a b` is the
wrapping difference `a - b`.  Where the operands are in range the reductions
disappear (`u64_of_lt`, `sub64_of_le`), so a proof that has established its
bounds continues in plain arithmetic.
-/

namespace ImageTool.Lib

/-- The value of a 64-bit unsigned expression. -/
def u64 (n : Nat) : Nat := n % 2 ^ 64

/-- The value of a 32-bit unsigned expression. -/
def u32 (n : Nat) : Nat := n % 2 ^ 32

/-- The wrapping 64-bit difference `a - b`. -/
def sub64 (a b : Nat) : Nat := u64 (a + (2 ^ 64 - u64 b))

theorem u64_lt (n : Nat) : u64 n < 2 ^ 64 := Nat.mod_lt _ (by decide)

theorem u32_lt (n : Nat) : u32 n < 2 ^ 32 := Nat.mod_lt _ (by decide)

theorem u64_of_lt {n : Nat} (h : n < 2 ^ 64) : u64 n = n := Nat.mod_eq_of_lt h

theorem u32_of_lt {n : Nat} (h : n < 2 ^ 32) : u32 n = n := Nat.mod_eq_of_lt h

@[simp] theorem u64_zero : u64 0 = 0 := rfl

theorem u64_le (n : Nat) : u64 n ≤ n := Nat.mod_le _ _

/-- Without a borrow the wrapping difference is the difference. -/
theorem sub64_of_le {a b : Nat} (hba : b ≤ a) (ha : a < 2 ^ 64) :
    sub64 a b = a - b := by
  have hb : u64 b = b := u64_of_lt (by omega)
  unfold sub64
  rw [hb, show a + (2 ^ 64 - b) = (a - b) + 2 ^ 64 by omega]
  unfold u64
  rw [Nat.add_mod_right]
  exact Nat.mod_eq_of_lt (by omega)

/-- With a borrow the wrapping difference is the difference plus `2 ^ 64`. -/
theorem sub64_of_lt {a b : Nat} (hab : a < b) (hb : b < 2 ^ 64) :
    sub64 a b = a + 2 ^ 64 - b := by
  unfold sub64
  rw [u64_of_lt hb, u64_of_lt (by omega)]
  omega

/-- A 64-bit expression whose overflow check substitutes the largest value. -/
def sat64 (n : Nat) : Nat := if n < 2 ^ 64 then n else 2 ^ 64 - 1

theorem sat64_le (n : Nat) : sat64 n ≤ n := by unfold sat64; split <;> omega

theorem sat64_lt (n : Nat) : sat64 n < 2 ^ 64 := by unfold sat64; split <;> omega

theorem sat64_mono {a b : Nat} (h : a ≤ b) : sat64 a ≤ sat64 b := by
  unfold sat64
  split <;> split <;> omega

/-- Number of blocks of `blocksize` bytes needed for `size` bytes, as the source
computes it: a division and, for a remainder, one more. -/
def blockCount (size blocksize : Nat) : Nat :=
  if size % blocksize = 0 then size / blocksize else size / blocksize + 1

theorem blockCount_mul_ge {size blocksize : Nat} (hbs : 0 < blocksize) :
    size ≤ blockCount size blocksize * blocksize := by
  have hdm := Nat.div_add_mod size blocksize
  have hlt := Nat.mod_lt size hbs
  unfold blockCount
  split
  · rw [Nat.mul_comm]; omega
  · rw [Nat.add_mul, Nat.mul_comm]; omega

theorem blockCount_le_iff {size blocksize n : Nat} (hbs : 0 < blocksize) :
    blockCount size blocksize ≤ n ↔ size ≤ n * blocksize := by
  constructor
  · intro h
    exact Nat.le_trans (blockCount_mul_ge hbs) (Nat.mul_le_mul_right _ h)
  · intro h
    unfold blockCount
    split
    · exact Nat.div_le_of_le_mul (by rw [Nat.mul_comm]; exact h)
    · rename_i hmod
      have hdm := Nat.div_add_mod size blocksize
      have hlt : size / blocksize < n := by
        apply Nat.lt_of_mul_lt_mul_left (a := blocksize)
        rw [Nat.mul_comm blocksize n]
        omega
      exact hlt

theorem lt_blockCount_iff {size blocksize n : Nat} (hbs : 0 < blocksize) :
    n < blockCount size blocksize ↔ n * blocksize < size := by
  have h : blockCount size blocksize ≤ n ↔ size ≤ n * blocksize :=
    blockCount_le_iff hbs
  omega

theorem blockCount_mono {a b blocksize : Nat} (hbs : 0 < blocksize) (h : a ≤ b) :
    blockCount a blocksize ≤ blockCount b blocksize :=
  (blockCount_le_iff hbs).2 (Nat.le_trans h (blockCount_mul_ge hbs))

@[simp] theorem blockCount_zero (blocksize : Nat) : blockCount 0 blocksize = 0 := by
  simp [blockCount]

theorem blockCount_mul {n blocksize : Nat} (hbs : 0 < blocksize) :
    blockCount (n * blocksize) blocksize = n := by
  simp [blockCount, hbs]

/-- A size given by its full blocks and a rest. -/
theorem blockCount_mul_add {q d blocksize : Nat} (hd : 0 < d) (hle : d ≤ blocksize) :
    blockCount (q * blocksize + d) blocksize = q + 1 := by
  have hbs : 0 < blocksize := by omega
  apply Nat.le_antisymm
  · rw [blockCount_le_iff hbs, Nat.add_mul, Nat.one_mul]
    omega
  · exact (lt_blockCount_iff hbs).2 (by omega)

/-- The size of fewer than `2 ^ 32` blocks is a 64-bit value. -/
theorem lt_of_blockCount_lt {size blocksize : Nat} (hbs : 0 < blocksize)
    (hbs' : blocksize < 2 ^ 32) (h : blockCount size blocksize < 2 ^ 32) :
    size < 2 ^ 64 :=
  calc
    size ≤ blockCount size blocksize * blocksize := blockCount_mul_ge hbs
    _ < 2 ^ 32 * 2 ^ 32 := Nat.mul_lt_mul'' h hbs'
    _ = 2 ^ 64 := by decide

theorem blockCount_pos {size blocksize : Nat} (hbs : 0 < blocksize) (h : 0 < size) :
    0 < blockCount size blocksize := by
  rw [lt_blockCount_iff hbs]; omega

end ImageTool.Lib
