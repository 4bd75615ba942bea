import Mathlib.Tactic.Ring

/-!
# Numbers and records in bytes

Numbers are stored with the least or the most significant byte first, records one behind the
other and all of one length.
-/

namespace ImageTool.Lib

/-- The lowest `k` bytes of a number. -/
def littleEndian : Nat → Nat → List UInt8
  | 0, _ => []
  | k + 1, n => UInt8.ofNat n :: littleEndian k (n / 256)

/-- The number bytes stand for. -/
def ofLittleEndian : List UInt8 → Nat
  | [] => 0
  | b :: bs => b.toNat + 256 * ofLittleEndian bs

@[simp] theorem length_littleEndian (k n : Nat) : (littleEndian k n).length = k := by
  induction k generalizing n with
  | zero => rfl
  | succ k ih => simp [littleEndian, ih]

theorem ofLittleEndian_littleEndian (k n : Nat) :
    ofLittleEndian (littleEndian k n) = n % 256 ^ k := by
  induction k generalizing n with
  | zero => simp [littleEndian, ofLittleEndian, Nat.mod_one]
  | succ k ih =>
      rw [littleEndian, ofLittleEndian, ih, UInt8.toNat_ofNat', Nat.pow_succ' (m := 256),
        Nat.mod_mul]

theorem ofLittleEndian_append (as bs : List UInt8) :
    ofLittleEndian (as ++ bs) = ofLittleEndian as + 256 ^ as.length * ofLittleEndian bs := by
  induction as with
  | nil => simp [ofLittleEndian]
  | cons a as ih =>
      rw [List.cons_append, ofLittleEndian, ofLittleEndian, ih, List.length_cons, Nat.pow_succ]
      ring

theorem ofLittleEndian_lt (bytes : List UInt8) : ofLittleEndian bytes < 256 ^ bytes.length := by
  induction bytes with
  | nil => simp [ofLittleEndian]
  | cons b bs ih =>
      have hb := b.toNat_lt
      rw [ofLittleEndian, List.length_cons, Nat.pow_succ]
      omega

/-- The number bytes stand for if the most significant one is first. -/
def ofBigEndian (bytes : List UInt8) : Nat := ofLittleEndian bytes.reverse

@[simp] theorem ofBigEndian_nil : ofBigEndian [] = 0 := rfl

@[simp] theorem ofBigEndian_singleton (b : UInt8) : ofBigEndian [b] = b.toNat := by
  simp [ofBigEndian, ofLittleEndian]

theorem ofBigEndian_append (as bs : List UInt8) :
    ofBigEndian (as ++ bs) = ofBigEndian as * 256 ^ bs.length + ofBigEndian bs := by
  rw [ofBigEndian, List.reverse_append, ofLittleEndian_append, List.length_reverse, ofBigEndian,
    ofBigEndian]
  ring

theorem ofBigEndian_cons (b : UInt8) (bs : List UInt8) :
    ofBigEndian (b :: bs) = b.toNat * 256 ^ bs.length + ofBigEndian bs := by
  rw [← List.singleton_append, ofBigEndian_append, ofBigEndian_singleton]

theorem ofBigEndian_lt (bytes : List UInt8) : ofBigEndian bytes < 256 ^ bytes.length := by
  simpa [ofBigEndian] using ofLittleEndian_lt bytes.reverse

/-- The least number has no byte but 0. -/
theorem ofBigEndian_eq_zero_iff {bytes : List UInt8} :
    ofBigEndian bytes = 0 ↔ ∀ b ∈ bytes, b = 0 := by
  induction bytes with
  | nil => simp
  | cons b bs ih =>
      have hb : b.toNat = 0 ↔ b = 0 := by
        rw [← UInt8.toNat_inj]
        rfl
      simp [ofBigEndian_cons, ih, hb]

/-- The greatest number has no byte but 255. -/
theorem ofBigEndian_eq_max_iff {bytes : List UInt8} :
    ofBigEndian bytes = 256 ^ bytes.length - 1 ↔ ∀ b ∈ bytes, b = 0xFF := by
  induction bytes with
  | nil => simp
  | cons b bs ih =>
      have hb : b = 0xFF ↔ b.toNat = 255 := by
        rw [← UInt8.toNat_inj]
        rfl
      have hlt := ofBigEndian_lt bs
      have hb' := b.toNat_lt
      rw [ofBigEndian_cons, List.forall_mem_cons, ← ih, hb, List.length_cons, Nat.pow_succ]
      constructor
      · intro h
        have hlast : b.toNat = 255 := by
          by_contra hne
          have hmul := Nat.mul_le_mul_right (256 ^ bs.length) (show b.toNat ≤ 254 by omega)
          omega
        rw [hlast] at h
        exact ⟨hlast, by omega⟩
      · rintro ⟨hlast, hrest⟩
        rw [hlast]
        omega

/-- The records of `n` bytes that bytes are made of. -/
def records (n : Nat) (bytes : List UInt8) : List (List UInt8) :=
  (List.range (bytes.length / n)).map fun i => (bytes.drop (n * i)).take n

theorem records_cons {n : Nat} (hn : 0 < n) {r : List UInt8} (hr : r.length = n)
    (rest : List UInt8) : records n (r ++ rest) = r :: records n rest := by
  have hcount : (r ++ rest).length / n = rest.length / n + 1 := by
    rw [List.length_append, hr, Nat.add_div_left _ hn]
  unfold records
  rw [hcount, List.range_succ_eq_map, List.map_cons, List.map_map]
  congr 1
  · rw [Nat.mul_zero, List.drop_zero, List.take_left' hr]
  · apply List.map_congr_left
    intro i _
    have hskip : n * (i + 1) = r.length + n * i := by rw [hr, Nat.mul_succ, Nat.add_comm]
    dsimp only [Function.comp_apply]
    rw [Nat.succ_eq_add_one, hskip, ← List.drop_drop, List.drop_left]

/-- Records put one behind the other are found again. -/
theorem records_flatten {n : Nat} (hn : 0 < n) {rs : List (List UInt8)}
    (hrs : ∀ r ∈ rs, r.length = n) : records n rs.flatten = rs := by
  induction rs with
  | nil => simp [records]
  | cons r rs ih =>
      rw [List.flatten_cons, records_cons hn (hrs r List.mem_cons_self),
        ih fun r' hr' => hrs r' (List.mem_cons_of_mem _ hr')]

end ImageTool.Lib
