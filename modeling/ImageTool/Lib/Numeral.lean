import Mathlib.Data.Nat.Digits.Lemmas
import ImageTool.Lib.LittleEndian

/-!
# Numbers in text

A number is written with the most significant digit first.  The value of a run of digits, the
text of a number, and reading a run digit by digit with a bound on the value.
-/

namespace ImageTool.Lib

/-- The digits of a base up to ten. -/
def isDigitOf (base : Nat) (c : UInt8) : Bool := 48 ≤ c.toNat && c.toNat < 48 + base

/-- The number a digit stands for. -/
def digitValue (c : UInt8) : Nat := c.toNat - 48

/-- The number that `r`, followed by digits, stands for. -/
def digitsValueFrom (base r : Nat) (cs : List UInt8) : Nat :=
  cs.foldl (fun v c => v * base + digitValue c) r

/-- The number a run of digits stands for. -/
def digitsValue (base : Nat) (cs : List UInt8) : Nat := digitsValueFrom base 0 cs

@[simp] theorem digitsValueFrom_nil (base r : Nat) : digitsValueFrom base r [] = r := rfl

theorem digitsValueFrom_cons (base r : Nat) (c : UInt8) (cs : List UInt8) :
    digitsValueFrom base r (c :: cs) = digitsValueFrom base (r * base + digitValue c) cs := by
  simp only [digitsValueFrom, List.foldl_cons]

theorem digitsValueFrom_eq (base r : Nat) (cs : List UInt8) :
    digitsValueFrom base r cs = r * base ^ cs.length + digitsValue base cs := by
  unfold digitsValue
  induction cs generalizing r with
  | nil => simp
  | cons c cs ih =>
      rw [digitsValueFrom_cons, digitsValueFrom_cons, ih, ih (0 * base + digitValue c),
        List.length_cons]
      ring

@[simp] theorem digitsValue_nil (base : Nat) : digitsValue base [] = 0 := rfl

theorem digitsValue_cons (base : Nat) (c : UInt8) (cs : List UInt8) :
    digitsValue base (c :: cs) = digitValue c * base ^ cs.length + digitsValue base cs := by
  rw [digitsValue, digitsValueFrom_cons, digitsValueFrom_eq, Nat.zero_mul, Nat.zero_add]

theorem digitsValue_append (base : Nat) (as bs : List UInt8) :
    digitsValue base (as ++ bs) =
      digitsValue base as * base ^ bs.length + digitsValue base bs := by
  induction as with
  | nil => simp
  | cons a as ih =>
      rw [List.cons_append, digitsValue_cons, digitsValue_cons, ih, List.length_append, Nat.pow_add]
      ring

/-- More digits do not make a number smaller. -/
theorem le_digitsValueFrom {base : Nat} (hbase : 0 < base) (r : Nat) (cs : List UInt8) :
    r ≤ digitsValueFrom base r cs := by
  rw [digitsValueFrom_eq]
  exact Nat.le_add_right_of_le (Nat.le_mul_of_pos_right r (Nat.pow_pos hbase))

/-! ## Reading with a bound -/

/-- A run of digits behind `r`, or nothing once a number reaches the bound. -/
def boundedValue (base bound : Nat) : List UInt8 → Nat → Option Nat
  | [], r => some r
  | c :: cs, r =>
      if r * base + digitValue c < bound then boundedValue base bound cs (r * base + digitValue c)
      else none

/-- A run is read if and only if its number is below the bound. -/
theorem boundedValue_eq {base bound r : Nat} (hbase : 0 < base) (hr : r < bound)
    (cs : List UInt8) :
    boundedValue base bound cs r =
      if digitsValueFrom base r cs < bound then some (digitsValueFrom base r cs) else none := by
  induction cs generalizing r with
  | nil => simp [boundedValue, hr]
  | cons c cs ih =>
      rw [boundedValue, digitsValueFrom_cons]
      by_cases hnext : r * base + digitValue c < bound
      · rw [if_pos hnext, ih hnext]
      · have hle := le_digitsValueFrom hbase (r * base + digitValue c) cs
        rw [if_neg hnext, if_neg (by omega)]

/-! ## The text of a number -/

/-- The text of a number. -/
def numeral (base n : Nat) : List UInt8 :=
  if n = 0 then [48] else ((Nat.digits base n).map fun d => UInt8.ofNat (48 + d)).reverse

theorem digitValue_ofNat {d : Nat} (hd : d < 10) : digitValue (UInt8.ofNat (48 + d)) = d := by
  unfold digitValue
  rw [UInt8.toNat_ofNat']
  omega

theorem isDigitOf_ofNat {base d : Nat} (hbase : base ≤ 10) (hd : d < base) :
    isDigitOf base (UInt8.ofNat (48 + d)) = true := by
  simp only [isDigitOf, UInt8.toNat_ofNat', Bool.and_eq_true, decide_eq_true_eq]
  omega

section Numeral

variable {base : Nat} (hbase : 1 < base) (hten : base ≤ 10)

include hbase

include hten in
theorem digitsValue_digits {ds : List Nat} (hds : ∀ d ∈ ds, d < base) :
    digitsValue base (ds.map fun d => UInt8.ofNat (48 + d)).reverse = Nat.ofDigits base ds := by
  induction ds with
  | nil => simp
  | cons d ds ih =>
      have hd : d < base := hds d List.mem_cons_self
      rw [List.map_cons, List.reverse_cons, digitsValue_append,
        ih fun d' hd' => hds d' (List.mem_cons_of_mem _ hd'), Nat.ofDigits_cons]
      rw [digitsValue_cons, digitValue_ofNat (show d < 10 by omega)]
      simp
      ring

include hten in
@[simp] theorem digitsValue_numeral (n : Nat) : digitsValue base (numeral base n) = n := by
  unfold numeral
  split
  · simp [*, digitsValue_cons, digitValue]
  · rw [digitsValue_digits hbase hten fun d hd => Nat.digits_lt_base hbase hd, Nat.ofDigits_digits]

include hten in
theorem isDigitOf_of_mem_numeral {n : Nat} {c : UInt8} (hc : c ∈ numeral base n) :
    isDigitOf base c = true := by
  unfold numeral at hc
  split at hc
  · rw [List.mem_singleton] at hc
    simp [hc, isDigitOf]
    omega
  · rw [List.mem_reverse, List.mem_map] at hc
    obtain ⟨d, hd, rfl⟩ := hc
    exact isDigitOf_ofNat hten (Nat.digits_lt_base hbase hd)

theorem length_numeral_le {n k : Nat} (hk : 0 < k) (hn : n < base ^ k) :
    (numeral base n).length ≤ k := by
  unfold numeral
  split
  · exact hk
  · rw [List.length_reverse, List.length_map]
    exact (Nat.digits_length_le_iff hbase n).2 hn

theorem lt_length_numeral {n k : Nat} (hn : base ^ k ≤ n) : k < (numeral base n).length := by
  have hpos : 0 < base ^ k := Nat.pow_pos (by omega)
  unfold numeral
  rw [if_neg (by omega), List.length_reverse, List.length_map]
  exact (Nat.lt_digits_length_iff hbase n).2 hn

/-- A number that counts its own digits, and `size` more. -/
theorem exists_eq_length_numeral_add (size : Nat) : ∃ n, n = (numeral base n).length + size := by
  have hexists : ∃ d, size + d + 1 < base ^ (d + 1) := by
    refine ⟨size, ?_⟩
    have hmul : 2 * (size + 1) ≤ base * base ^ size := Nat.mul_le_mul hbase (Nat.lt_pow_self hbase)
    rw [Nat.pow_succ']
    omega
  have hfind := Nat.find_spec hexists
  have hbefore : ∀ d, d < Nat.find hexists → ¬ size + d + 1 < base ^ (d + 1) :=
    fun d hd => Nat.find_min hexists hd
  generalize Nat.find hexists = d at hfind hbefore
  have hpow : base ^ d ≤ size + d + 1 := by
    cases d with
    | zero => exact Nat.le_add_left ..
    | succ d =>
        have hnot := hbefore d (Nat.lt_succ_self d)
        omega
  have hle : (numeral base (size + d + 1)).length ≤ d + 1 :=
    length_numeral_le hbase (Nat.succ_pos d) hfind
  have hlt : d < (numeral base (size + d + 1)).length := lt_length_numeral hbase hpow
  exact ⟨size + d + 1, by omega⟩

end Numeral

theorem numeral_ne_nil (base n : Nat) : numeral base n ≠ [] := by
  unfold numeral
  split
  · simp
  · simpa [Nat.digits_eq_nil_iff_eq_zero]

/-- Zeros in front do not change a number. -/
theorem digitsValue_leftpad (base n : Nat) (cs : List UInt8) :
    digitsValue base (List.leftpad n 48 cs) = digitsValue base cs := by
  have hzeros : ∀ k, digitsValue base (List.replicate k 48) = 0 := by
    intro k
    induction k with
    | zero => rfl
    | succ k ih => simp [List.replicate_succ, digitsValue_cons, ih, digitValue]
  rw [List.leftpad, digitsValue_append, hzeros, Nat.zero_mul, Nat.zero_add]

end ImageTool.Lib
