import ImageTool.Gcfg.CodePoint
import Mathlib.Data.List.Basic

/-!
# Valid UTF-8

The check looks the length of a sequence up by its first byte, collects the value, and compares
it with the least one of that length.  The value nine passes at every length.
-/

namespace ImageTool.Gcfg

/-- `min_val_by_count`. -/
def minValByCount : List UInt32 :=
  [0xFFFFFFFF, 0x00000020, 0x00000080, 0x00000800, 0x00010000, 0x00200000, 0x04000000]

/-- `mask_by_count`. -/
def maskByCount : List UInt8 := [0xFF, 0xFF, 0x1F, 0x0F, 0x07, 0x03]

/-- `seq_length`. -/
def seqLength : List Nat :=
  [1, 1, 1, 1, 1, 1, 1, 1, 1, 1, 1, 1, 1, 1, 1, 1,
   1, 1, 1, 1, 1, 1, 1, 1, 1, 1, 1, 1, 1, 1, 1, 1,
   0, 0, 0, 0, 0, 0, 0, 0, 0, 0, 0, 0, 0, 0, 0, 0,
   2, 2, 2, 2, 2, 2, 2, 2, 3, 3, 3, 3, 4, 4, 5, 0]

/-- The entry of `seq_length` for a first byte. -/
def seqCount (x : UInt8) : Nat := seqLength.getD ((x >>> 2) &&& 0x3F).toNat 0

/-- What the first byte holds of the value. -/
def leadBits (x : UInt8) : UInt8 := x &&& maskByCount.getD (seqCount x) 0

/-- The inner loop: so many further bytes, of six bits each. -/
def moreBytes : Nat → UInt32 → List UInt8 → Option (UInt32 × List UInt8)
  | 0, cp, str => some (cp, str)
  | _ + 1, _, [] => none
  | n + 1, cp, x :: str =>
      if x &&& 0xC0 ≠ 0x80 then none
      else moreBytes n ((cp <<< 6) ||| (x &&& 0x3F).toUInt32) str

/-- One turn of the outer loop, with the value it checks. -/
def nextChar (x : UInt8) (str : List UInt8) : Option (UInt32 × List UInt8) := do
  let count := seqCount x
  if count > 1 ∧ str.length < count - 1 then none
  else
    let (cp, str) ← moreBytes (count - 1) (leadBits x).toUInt32 str
    if cp < minValByCount.getD count 0 ∧ cp ≠ 0x09 then none
    else if !isValidCp cp ∨ cp = 0x7F then none
    else some (cp, str)

-- the equations of the loop are derived here, once for all of the lemmas
attribute [local simp] moreBytes

theorem length_moreBytes {n : Nat} {cp cp' : UInt32} {str rest : List UInt8}
    (h : moreBytes n cp str = some (cp', rest)) : rest.length + n = str.length := by
  induction n generalizing cp str with
  | zero =>
      cases h
      rfl
  | succ n ih =>
      cases str with
      | nil => cases h
      | cons x str =>
          unfold moreBytes at h
          split at h
          · cases h
          · rw [List.length_cons, ← ih h]
            rfl

/-- A sequence that is too short ends the inner loop as well. -/
theorem nextChar_some {x : UInt8} {cp : UInt32} {str rest : List UInt8} :
    nextChar x str = some (cp, rest) ↔
      moreBytes (seqCount x - 1) (leadBits x).toUInt32 str = some (cp, rest) ∧
        (minValByCount.getD (seqCount x) 0 ≤ cp ∨ cp = 0x09) ∧ isValidCp cp = true ∧ cp ≠ 0x7F := by
  unfold nextChar
  dsimp only
  cases hmore : moreBytes (seqCount x - 1) (leadBits x).toUInt32 str with
  | none => simp
  | some r =>
      obtain ⟨cp', rest'⟩ := r
      have hlen := length_moreBytes hmore
      rw [if_neg (by omega)]
      simp only [bind, Option.bind]
      constructor
      · intro h
        split at h
        · cases h
        rename_i hmin
        split at h
        · cases h
        rename_i hvalid
        cases h
        rw [not_and_or, not_not, UInt32.not_lt] at hmin
        simp only [Bool.not_eq_true', not_or, Bool.not_eq_false] at hvalid
        exact ⟨rfl, hmin, hvalid⟩
      · rintro ⟨hsome, hmin, hvalid, hdel⟩
        cases hsome
        rw [if_neg, if_neg]
        · simp [hvalid, hdel]
        · rw [not_and_or, not_not, UInt32.not_lt]
          exact hmin

theorem length_nextChar {x : UInt8} {cp : UInt32} {str rest : List UInt8}
    (h : nextChar x str = some (cp, rest)) : rest.length ≤ str.length := by
  have hlen := length_moreBytes (nextChar_some.1 h).1
  omega

/-- `gcfg_is_valid_utf8`. -/
def isValidUtf8 : List UInt8 → Bool
  | [] => true
  | x :: str =>
      match _ : nextChar x str with
      | none => false
      | some (_, rest) => isValidUtf8 rest
termination_by str => str.length
decreasing_by
  rename_i h
  exact Nat.lt_succ_of_le (length_nextChar h)

theorem isValidUtf8_cons (x : UInt8) (str : List UInt8) :
    isValidUtf8 (x :: str) =
      match nextChar x str with
      | none => false
      | some (_, rest) => isValidUtf8 rest := by
  rw [isValidUtf8]
  split <;> simp [*]

/-! ## Sequences -/

/-- The first byte of a sequence of so many bytes, without the value. -/
def marker : Nat → Nat
  | 2 => 0xC0
  | 3 => 0xE0
  | 4 => 0xF0
  | 5 => 0xF8
  | _ => 0

/-- How many values the first byte of such a sequence can hold. -/
def leadSize : Nat → Nat
  | 1 => 128
  | 2 => 32
  | 3 => 16
  | 4 => 8
  | 5 => 4
  | _ => 0

/-- The last bytes of a sequence. -/
def tailBytes : Nat → Nat → List UInt8
  | 0, _ => []
  | k + 1, n => UInt8.ofNat (0x80 + n / 64 ^ k % 64) :: tailBytes k n

/-- A number as a sequence of so many bytes, shortest or not. -/
def longForm (k n : Nat) : List UInt8 :=
  UInt8.ofNat (marker k + n / 64 ^ (k - 1)) :: tailBytes (k - 1) n

section Sequence

variable {k n : Nat} {x : UInt8} {cp cp' : UInt32} {str rest : List UInt8}

/-- The tables, read once for every first byte. -/
theorem lead_table : ∀ i : Fin 256,
    (seqCount (UInt8.ofNat i) = 0 ∧ 128 ≤ (i : Nat)) ∨
      (seqCount (UInt8.ofNat i) ∈ [1, 2, 3, 4, 5] ∧
        (i : Nat) = marker (seqCount (UInt8.ofNat i)) + (leadBits (UInt8.ofNat i)).toNat ∧
        (leadBits (UInt8.ofNat i)).toNat < leadSize (seqCount (UInt8.ofNat i))) := by
  decide +kernel

theorem marker_table : ∀ k ∈ [1, 2, 3, 4, 5], ∀ v < leadSize k,
    seqCount (UInt8.ofNat (marker k + v)) = k ∧
      (leadBits (UInt8.ofNat (marker k + v))).toNat = v := by
  decide +kernel

theorem mark_table : ∀ i : Fin 256, UInt8.ofNat i &&& 0xC0 = 0x80 ↔ (i : Nat) / 64 = 2 := by
  decide +kernel

theorem and_mark_iff (x : UInt8) : x &&& 0xC0 = 0x80 ↔ x.toNat / 64 = 2 := by
  have h := mark_table ⟨x.toNat, x.toNat_lt⟩
  rwa [UInt8.ofNat_toNat] at h

theorem toNat_and_six (x : UInt8) : (x &&& 0x3F).toNat = x.toNat % 64 := by
  rw [UInt8.toNat_and]
  exact Nat.and_two_pow_sub_one_eq_mod x.toNat 6

theorem toNat_shift_or (hcp : (cp.toNat + 1) * 64 ≤ 2 ^ 32) (x : UInt8) :
    ((cp <<< 6) ||| (x &&& 0x3F).toUInt32).toNat = cp.toNat * 64 + x.toNat % 64 := by
  have hlt : x.toNat % 2 ^ 6 < 2 ^ 6 := Nat.mod_lt _ (by decide)
  have hshift : (cp <<< 6).toNat = 2 ^ 6 * cp.toNat := by
    rw [UInt32.toNat_shiftLeft]
    change cp.toNat <<< 6 % 2 ^ 32 = _
    rw [Nat.shiftLeft_eq, Nat.mod_eq_of_lt (by omega), Nat.mul_comm]
  rw [UInt32.toNat_or, hshift, UInt8.toNat_toUInt32, toNat_and_six]
  change 2 ^ 6 * cp.toNat ||| x.toNat % 2 ^ 6 = _
  rw [← Nat.two_pow_add_eq_or_of_lt hlt]
  omega

/-- The inner loop reads the last bytes of the value it returns. -/
theorem moreBytes_some (hcp : (cp.toNat + 1) * 64 ^ k ≤ 2 ^ 32) :
    moreBytes k cp str = some (cp', rest) ↔
      cp'.toNat / 64 ^ k = cp.toNat ∧ str = tailBytes k cp'.toNat ++ rest := by
  induction k generalizing cp str with
  | zero =>
      rw [moreBytes, Option.some.injEq, Prod.mk.injEq, tailBytes, Nat.pow_zero, Nat.div_one,
        UInt32.toNat_inj]
      exact and_congr_left' eq_comm
  | succ k ih =>
      have hpow : 64 ^ (k + 1) = 64 ^ k * 64 := Nat.pow_succ ..
      have hpos : 0 < 64 ^ k := Nat.pow_pos (by decide)
      have hcp64 : (cp.toNat + 1) * 64 ≤ 2 ^ 32 := by
        have hle : (cp.toNat + 1) * 64 ≤ (cp.toNat + 1) * 64 * 64 ^ k :=
          Nat.le_mul_of_pos_right _ hpos
        rw [hpow, Nat.mul_comm (64 ^ k), ← Nat.mul_assoc] at hcp
        omega
      cases str with
      | nil => simp [moreBytes, tailBytes]
      | cons x str =>
          have hnext := toNat_shift_or hcp64 x
          have hbound : (((cp <<< 6) ||| (x &&& 0x3F).toUInt32).toNat + 1) * 64 ^ k ≤ 2 ^ 32 := by
            rw [hnext]
            calc (cp.toNat * 64 + x.toNat % 64 + 1) * 64 ^ k
                ≤ (cp.toNat + 1) * 64 * 64 ^ k := Nat.mul_le_mul_right _ (by omega)
              _ = (cp.toNat + 1) * 64 ^ (k + 1) := by rw [hpow, Nat.mul_assoc, Nat.mul_comm 64]
              _ ≤ 2 ^ 32 := hcp
          have hx := x.toNat_lt
          rw [moreBytes, tailBytes, List.cons_append, List.cons.injEq, hpow,
            ← Nat.div_div_eq_div_mul]
          by_cases hmark : x.toNat / 64 = 2
          · rw [if_neg (not_not.2 ((and_mark_iff x).2 hmark)), ih hbound, hnext, ← UInt8.toNat_inj,
              UInt8.toNat_ofNat']
            generalize cp'.toNat / 64 ^ k = q
            constructor
            · rintro ⟨hq, htail⟩
              exact ⟨by omega, by omega, htail⟩
            · rintro ⟨hq, hhead, htail⟩
              exact ⟨by omega, htail⟩
          · rw [if_pos (fun h => hmark ((and_mark_iff x).1 h))]
            constructor
            · intro h
              cases h
            · rintro ⟨hq, hhead, htail⟩
              rw [← UInt8.toNat_inj, UInt8.toNat_ofNat'] at hhead
              omega

/-- What a sequence that passes the checks looks like. -/
def Sequence (k n : Nat) : Prop :=
  k ∈ [1, 2, 3, 4, 5] ∧ n / 64 ^ (k - 1) < leadSize k ∧
    ((minValByCount.getD k 0).toNat ≤ n ∨ n = 9) ∧ ValidCodePoint n ∧ n ≠ 0x7F

theorem leadSize_mul_le (hk : k ∈ [1, 2, 3, 4, 5]) :
    leadSize k * 64 ^ (k - 1) ≤ 2 ^ 32 ∧ marker k + leadSize k ≤ 256 := by
  revert k
  decide

/-- One turn reads the first byte and the last ones of the value it returns. -/
theorem nextChar_iff (hk : seqCount x ∈ [1, 2, 3, 4, 5]) (hx : x.toNat = marker (seqCount x) +
    (leadBits x).toNat) (hlead : (leadBits x).toNat < leadSize (seqCount x)) :
    nextChar x str = some (cp, rest) ↔ Sequence (seqCount x) cp.toNat ∧
      x :: str = longForm (seqCount x) cp.toNat ++ rest := by
  have hsize := leadSize_mul_le hk
  have hbound : ((leadBits x).toUInt32.toNat + 1) * 64 ^ (seqCount x - 1) ≤ 2 ^ 32 := by
    rw [UInt8.toNat_toUInt32]
    exact Nat.le_trans (Nat.mul_le_mul_right _ hlead) hsize.1
  rw [nextChar_some, moreBytes_some hbound, UInt8.toNat_toUInt32, isValidCp_iff, longForm,
    List.cons_append, List.cons.injEq, UInt32.le_iff_toNat_le, ← UInt32.toNat_inj,
    ← UInt8.toNat_inj,
    Ne, ← UInt32.toNat_inj, UInt8.toNat_ofNat']
  unfold Sequence
  generalize cp.toNat / 64 ^ (seqCount x - 1) = q at *
  constructor
  · rintro ⟨⟨hq, htail⟩, hmin, hvalid, hdel⟩
    exact ⟨⟨hk, by omega, hmin, hvalid, hdel⟩, by omega, htail⟩
  · rintro ⟨⟨-, hq, hmin, hvalid, hdel⟩, hhead, htail⟩
    exact ⟨⟨by omega, htail⟩, hmin, hvalid, hdel⟩

theorem sequence_of_nextChar (h : nextChar x str = some (cp, rest)) :
    ∃ k, Sequence k cp.toNat ∧ x :: str = longForm k cp.toNat ++ rest := by
  have htable := lead_table ⟨x.toNat, x.toNat_lt⟩
  simp only [UInt8.ofNat_toNat] at htable
  cases htable with
  | inl hnone =>
      -- no value is as great as the least one of such a sequence
      have hmin := (nextChar_some.1 h).2.1
      have hmore := (nextChar_some.1 h).1
      have hlead : leadBits x = x := by
        unfold leadBits
        rw [hnone.1]
        exact UInt8.and_neg_one
      rw [hnone.1, hlead] at hmore
      rw [hnone.1] at hmin
      cases hmore
      have hx : x.toUInt32.toNat = x.toNat := rfl
      have hlt := x.toNat_lt
      cases hmin with
      | inl hmin =>
          rw [UInt32.le_iff_toNat_le, hx] at hmin
          change 0xFFFFFFFF ≤ x.toNat at hmin
          omega
      | inr htab =>
          rw [← UInt32.toNat_inj, hx] at htab
          change x.toNat = 9 at htab
          omega
  | inr hsome =>
      exact ⟨seqCount x, (nextChar_iff hsome.1 hsome.2.1 hsome.2.2).1 h⟩

theorem nextChar_of_sequence (h : Sequence k n) (heq : x :: str = longForm k n ++ rest) :
    nextChar x str = some (UInt32.ofNat n, rest) := by
  have hsize := leadSize_mul_le h.1
  have htable := marker_table k h.1 _ h.2.1
  have hx : x = UInt8.ofNat (marker k + n / 64 ^ (k - 1)) := (List.cons.inj heq).1
  have hn : (UInt32.ofNat n).toNat = n := by
    have hle := h.2.2.2.1.1
    rw [UInt32.toNat_ofNat']
    omega
  rw [← hx] at htable
  have hlead := h.2.1
  apply (nextChar_iff _ _ _).2
  · rw [htable.1, hn]
    exact ⟨h, heq⟩
  · rw [htable.1]
    exact h.1
  · rw [htable.1, htable.2, hx, UInt8.toNat_ofNat']
    omega
  · rw [htable.1, htable.2]
    exact hlead

end Sequence

/-! ## Texts -/

/-- The code points a text is made of. -/
def Permitted (n : Nat) : Prop := ValidCodePoint n ∧ (n = 9 ∨ 0x20 ≤ n) ∧ n ≠ 0x7F

/-- The shortest forms of permitted code points, one after another. -/
def IsText (str : List UInt8) : Prop :=
  ∃ cps : List Nat, (∀ n ∈ cps, Permitted n) ∧ str = cps.flatMap utf8

/-- A tab in more bytes than it needs. -/
def overlongTabs : List (List UInt8) :=
  [[0xC0, 0x89], [0xE0, 0x80, 0x89], [0xF0, 0x80, 0x80, 0x89], [0xF8, 0x80, 0x80, 0x80, 0x89]]

/-- What the check takes in one turn. -/
def IsChunk (chunk : List UInt8) : Prop :=
  (∃ n, Permitted n ∧ chunk = utf8 n) ∨ chunk ∈ overlongTabs

/-- A text but for tabs in more bytes than they need, of which there is one at least. -/
def HasOverlongTab (str : List UInt8) : Prop :=
  ∃ chunks : List (List UInt8), (∀ chunk ∈ chunks, IsChunk chunk) ∧
    (∃ chunk ∈ chunks, chunk ∈ overlongTabs) ∧ str = chunks.flatten

section Text

variable {k n : Nat} {x : UInt8} {cp : UInt32} {str rest chunk : List UInt8}
  {chunks : List (List UInt8)}

theorem utf8_eq_longForm {k n : Nat} (h : ValidCodePoint n)
    (hk : k = if n ≤ 0x7F then 1 else if n ≤ 0x7FF then 2 else if n ≤ 0xFFFF then 3 else 4) :
    utf8 n = longForm k n := by
  have hchar := toNat_charOfNat h
  have hle := h.1
  unfold utf8 String.utf8EncodeChar
  simp only [hchar]
  subst hk
  by_cases h1 : n ≤ 0x7F
  · simp [h1, longForm, tailBytes, marker]
  by_cases h2 : n ≤ 0x7FF
  · have hlead : n / 64 % 32 = n / 64 := Nat.mod_eq_of_lt (by omega)
    simp [h1, h2, hlead, longForm, tailBytes, marker, UInt8.add_comm]
  by_cases h3 : n ≤ 0xFFFF
  · have hlead : n / 4096 % 16 = n / 4096 := Nat.mod_eq_of_lt (by omega)
    simp [h1, h2, h3, hlead, longForm, tailBytes, marker, UInt8.add_comm]
  · have hlead : n / 262144 % 8 = n / 262144 := Nat.mod_eq_of_lt (by omega)
    simp [h1, h2, h3, hlead, longForm, tailBytes, marker, UInt8.add_comm]

theorem exists_sequence_of_permitted (h : Permitted n) :
    ∃ k, Sequence k n ∧ utf8 n = longForm k n := by
  have hle := h.1.1
  refine ⟨_, ?_, utf8_eq_longForm h.1 rfl⟩
  refine ⟨?_, ?_, ?_, h.1, h.2.2⟩
  · split_ifs <;> simp
  · split_ifs <;> simp only [leadSize] <;> omega
  · have htab := h.2.1
    split_ifs
    · change 0x20 ≤ n ∨ n = 9
      omega
    · change 0x80 ≤ n ∨ n = 9
      omega
    · change 0x800 ≤ n ∨ n = 9
      omega
    · change 0x10000 ≤ n ∨ n = 9
      omega

theorem exists_sequence_of_overlong (h : chunk ∈ overlongTabs) :
    ∃ k, Sequence k 9 ∧ chunk = longForm k 9 ∧ 2 ≤ k := by
  simp only [overlongTabs, List.mem_cons, List.not_mem_nil, or_false] at h
  rcases h with rfl | rfl | rfl | rfl
  · exact ⟨2, ⟨by decide, by decide, by decide, by decide, by decide⟩, rfl, by decide⟩
  · exact ⟨3, ⟨by decide, by decide, by decide, by decide, by decide⟩, rfl, by decide⟩
  · exact ⟨4, ⟨by decide, by decide, by decide, by decide, by decide⟩, rfl, by decide⟩
  · exact ⟨5, ⟨by decide, by decide, by decide, by decide, by decide⟩, rfl, by decide⟩

/-- A sequence that passes is the shortest one, or a tab in more bytes. -/
theorem isChunk_of_sequence (h : Sequence k n) : IsChunk (longForm k n) := by
  obtain ⟨hk, hsize, hmin, hvalid, hdel⟩ := h
  have hle := hvalid.1
  have hshort : (k = if n ≤ 0x7F then 1 else if n ≤ 0x7FF then 2 else if n ≤ 0xFFFF then 3 else 4) →
      (n = 9 ∨ 0x20 ≤ n) → IsChunk (longForm k n) := by
    intro hk htab
    rw [← utf8_eq_longForm hvalid hk]
    exact Or.inl ⟨n, ⟨hvalid, htab, hdel⟩, rfl⟩
  simp only [List.mem_cons, List.not_mem_nil, or_false] at hk
  rcases hk with rfl | rfl | rfl | rfl | rfl
  · change n / 1 < 128 at hsize
    change 0x20 ≤ n ∨ n = 9 at hmin
    exact hshort (by rw [if_pos (by omega)]) (by omega)
  · change n / 64 < 32 at hsize
    change 0x80 ≤ n ∨ n = 9 at hmin
    rcases hmin with hmin | rfl
    · exact hshort (by rw [if_neg (by omega), if_pos (by omega)]) (by omega)
    · exact Or.inr (by decide)
  · change n / 4096 < 16 at hsize
    change 0x800 ≤ n ∨ n = 9 at hmin
    rcases hmin with hmin | rfl
    · exact hshort (by rw [if_neg (by omega), if_neg (by omega), if_pos (by omega)]) (by omega)
    · exact Or.inr (by decide)
  · change 0x10000 ≤ n ∨ n = 9 at hmin
    rcases hmin with hmin | rfl
    · exact hshort (by rw [if_neg (by omega), if_neg (by omega), if_neg (by omega)]) (by omega)
    · exact Or.inr (by decide)
  · change 0x200000 ≤ n ∨ n = 9 at hmin
    rcases hmin with hmin | rfl
    · omega
    · exact Or.inr (by decide)

theorem exists_sequence_of_isChunk (h : IsChunk chunk) :
    ∃ k n, Sequence k n ∧ chunk = longForm k n := by
  cases h with
  | inl hshort =>
      obtain ⟨n, hn, rfl⟩ := hshort
      obtain ⟨k, hk⟩ := exists_sequence_of_permitted hn
      exact ⟨k, n, hk⟩
  | inr htab =>
      obtain ⟨k, hk, heq, -⟩ := exists_sequence_of_overlong htab
      exact ⟨k, 9, hk, heq⟩

/-- One turn takes one chunk. -/
theorem nextChar_of_isChunk (h : IsChunk chunk) (heq : x :: str = chunk ++ rest) :
    ∃ cp, nextChar x str = some (cp, rest) := by
  obtain ⟨k, n, hseq, rfl⟩ := exists_sequence_of_isChunk h
  exact ⟨_, nextChar_of_sequence hseq heq⟩

theorem isChunk_ne_nil (h : IsChunk chunk) : ∃ x tail, chunk = x :: tail := by
  obtain ⟨k, n, -, rfl⟩ := exists_sequence_of_isChunk h
  exact ⟨_, _, rfl⟩

/-- What is accepted is a row of chunks. -/
theorem isValidUtf8_iff (str : List UInt8) : isValidUtf8 str = true ↔
    ∃ chunks : List (List UInt8), (∀ chunk ∈ chunks, IsChunk chunk) ∧ str = chunks.flatten := by
  constructor
  · intro h
    induction hlen : str.length using Nat.strong_induction_on generalizing str with
    | _ len ih =>
        cases str with
        | nil => exact ⟨[], by simp⟩
        | cons x str =>
            rw [isValidUtf8_cons] at h
            cases hnext : nextChar x str with
            | none =>
                rw [hnext] at h
                cases h
            | some r =>
                obtain ⟨cp, rest⟩ := r
                rw [hnext] at h
                have hle := length_nextChar hnext
                obtain ⟨k, hseq, heq⟩ := sequence_of_nextChar hnext
                rw [List.length_cons] at hlen
                obtain ⟨chunks, hchunks, rfl⟩ := ih rest.length (by omega) rest h rfl
                refine ⟨longForm k cp.toNat :: chunks, ?_, heq⟩
                intro chunk hmem
                cases List.mem_cons.1 hmem with
                | inl hhead =>
                    rw [hhead]
                    exact isChunk_of_sequence hseq
                | inr htail => exact hchunks chunk htail
  · rintro ⟨chunks, hchunks, rfl⟩
    induction chunks with
    | nil => rw [List.flatten_nil, isValidUtf8]
    | cons chunk chunks ih =>
        have hchunk := hchunks chunk List.mem_cons_self
        obtain ⟨x, tail, rfl⟩ := isChunk_ne_nil hchunk
        have hsplit : x :: (tail ++ chunks.flatten) = x :: tail ++ chunks.flatten := rfl
        obtain ⟨cp, hnext⟩ := nextChar_of_isChunk hchunk hsplit
        rw [List.flatten_cons, List.cons_append, isValidUtf8_cons, hnext]
        exact ih fun c hc => hchunks c (List.mem_cons_of_mem _ hc)

/-- A string falls into chunks in one way at most. -/
theorem flatten_inj {chunks chunks' : List (List UInt8)} (h : ∀ chunk ∈ chunks, IsChunk chunk)
    (h' : ∀ chunk ∈ chunks', IsChunk chunk) (heq : chunks.flatten = chunks'.flatten) :
    chunks = chunks' := by
  induction chunks generalizing chunks' with
  | nil =>
      cases chunks' with
      | nil => rfl
      | cons chunk' chunks' =>
          obtain ⟨x, tail, rfl⟩ := isChunk_ne_nil (h' chunk' List.mem_cons_self)
          cases heq
  | cons chunk chunks ih =>
      have hchunk := h chunk List.mem_cons_self
      obtain ⟨x, tail, rfl⟩ := isChunk_ne_nil hchunk
      cases chunks' with
      | nil => cases heq
      | cons chunk' chunks' =>
          have hsplit : x :: (tail ++ chunks.flatten) = x :: tail ++ chunks.flatten := rfl
          have hsplit' : x :: (tail ++ chunks.flatten) = chunk' ++ chunks'.flatten := heq
          obtain ⟨cp, hnext⟩ := nextChar_of_isChunk hchunk hsplit
          obtain ⟨cp', hnext'⟩ := nextChar_of_isChunk (h' chunk' List.mem_cons_self) hsplit'
          have hrest : chunks.flatten = chunks'.flatten := by
            rw [hnext, Option.some.injEq, Prod.mk.injEq] at hnext'
            exact hnext'.2
          have hhead : x :: tail = chunk' := by
            rw [List.flatten_cons, List.flatten_cons, hrest] at heq
            exact List.append_cancel_right heq
          rw [hhead, ih (fun c hc => h c (List.mem_cons_of_mem _ hc))
            (fun c hc => h' c (List.mem_cons_of_mem _ hc)) hrest]

/-- The shortest form of a code point is no overlong tab. -/
theorem utf8_not_mem_overlongTabs (h : Permitted n) : utf8 n ∉ overlongTabs := by
  intro hmem
  obtain ⟨k, hseq, heq⟩ := exists_sequence_of_permitted h
  obtain ⟨k', hseq', heq', -⟩ := exists_sequence_of_overlong hmem
  obtain ⟨x, tail, hcons⟩ := isChunk_ne_nil (Or.inl ⟨n, h, rfl⟩)
  have hnext : nextChar x tail = some (UInt32.ofNat n, []) :=
    nextChar_of_sequence hseq (by rw [List.append_nil, ← heq, hcons])
  have hnext' : nextChar x tail = some (UInt32.ofNat 9, []) :=
    nextChar_of_sequence hseq' (by rw [List.append_nil, ← heq', hcons])
  have hvalue : UInt32.ofNat n = UInt32.ofNat 9 := by
    rw [hnext, Option.some.injEq, Prod.mk.injEq] at hnext'
    exact hnext'.1
  have hn : n = 9 := by
    have hle := h.1.1
    rw [← UInt32.toNat_inj, UInt32.toNat_ofNat'] at hvalue
    change n % 2 ^ 32 = 9 at hvalue
    omega
  rw [hn] at hmem
  exact absurd hmem (by decide)

theorem isText_iff (str : List UInt8) : IsText str ↔
    ∃ chunks : List (List UInt8), (∀ chunk ∈ chunks, ∃ n, Permitted n ∧ chunk = utf8 n) ∧
      str = chunks.flatten := by
  constructor
  · rintro ⟨cps, hcps, rfl⟩
    refine ⟨cps.map utf8, ?_, List.flatMap_def⟩
    intro chunk hmem
    obtain ⟨n, hn, rfl⟩ := List.mem_map.1 hmem
    exact ⟨n, hcps n hn, rfl⟩
  · rintro ⟨chunks, hchunks, rfl⟩
    induction chunks with
    | nil => exact ⟨[], by simp⟩
    | cons chunk chunks ih =>
        obtain ⟨n, hn, rfl⟩ := hchunks chunk List.mem_cons_self
        obtain ⟨cps, hcps, heq⟩ := ih fun c hc => hchunks c (List.mem_cons_of_mem _ hc)
        refine ⟨n :: cps, ?_, ?_⟩
        · intro m hm
          cases List.mem_cons.1 hm with
          | inl hhead =>
              rw [hhead]
              exact hn
          | inr htail => exact hcps m htail
        · rw [List.flatten_cons, List.flatMap_cons, heq]

theorem isValidUtf8_of_isText (h : IsText str) : isValidUtf8 str = true := by
  obtain ⟨chunks, hchunks, heq⟩ := (isText_iff str).1 h
  exact (isValidUtf8_iff str).2 ⟨chunks, fun chunk hmem => Or.inl (hchunks chunk hmem), heq⟩

/-- A string with an overlong tab is accepted and is no text. -/
theorem not_isText_of_hasOverlongTab (h : HasOverlongTab str) :
    isValidUtf8 str = true ∧ ¬ IsText str := by
  obtain ⟨chunks, hchunks, ⟨tab, htab, hover⟩, heq⟩ := h
  refine ⟨(isValidUtf8_iff str).2 ⟨chunks, hchunks, heq⟩, ?_⟩
  intro htext
  obtain ⟨chunks', hchunks', heq'⟩ := (isText_iff str).1 htext
  have hsame : chunks = chunks' :=
    flatten_inj hchunks (fun c hc => Or.inl (hchunks' c hc)) (by rw [← heq, heq'])
  rw [hsame] at htab
  obtain ⟨n, hn, rfl⟩ := hchunks' tab htab
  exact utf8_not_mem_overlongTabs hn hover

/-- `encode_utf8` writes the shortest form, and what it writes is accepted. -/
def EncodesTexts : Prop :=
  (∀ cp : UInt32, Permitted cp.toNat → encodeUtf8 cp = utf8 cp.toNat) ∧
    ∀ cps : List UInt32, (∀ cp ∈ cps, Permitted cp.toNat) →
      isValidUtf8 (cps.flatMap encodeUtf8) = true

theorem encodesTexts : EncodesTexts := by
  have hencode : ∀ cp : UInt32, Permitted cp.toNat → encodeUtf8 cp = utf8 cp.toNat :=
    fun cp hcp => encodeUtf8_eq hcp.1
  refine ⟨hencode, ?_⟩
  intro cps hcps
  apply isValidUtf8_of_isText
  refine ⟨cps.map UInt32.toNat, ?_, ?_⟩
  · intro n hn
    obtain ⟨cp, hcp, rfl⟩ := List.mem_map.1 hn
    exact hcps cp hcp
  · rw [List.flatMap_map]
    exact List.flatMap_congr fun cp hcp => hencode cp (hcps cp hcp)

/-- Texts are what is accepted, unless tabs take more bytes than they need. -/
theorem valid_iff_text_iff (str : List UInt8) :
    ((isValidUtf8 str = true ↔ IsText str) ∧ EncodesTexts) ↔ ¬ HasOverlongTab str := by
  rw [and_iff_left encodesTexts]
  constructor
  · intro hiff hover
    have hnot := not_isText_of_hasOverlongTab hover
    exact hnot.2 (hiff.1 hnot.1)
  · intro hnone
    refine ⟨?_, isValidUtf8_of_isText⟩
    intro hvalid
    obtain ⟨chunks, hchunks, heq⟩ := (isValidUtf8_iff str).1 hvalid
    refine (isText_iff str).2 ⟨chunks, ?_, heq⟩
    intro chunk hmem
    cases hchunks chunk hmem with
    | inl hshort => exact hshort
    | inr htab => exact absurd ⟨chunks, hchunks, ⟨chunk, hmem, htab⟩, heq⟩ hnone

/-- A tab in two bytes is accepted. -/
theorem tab_in_two_bytes : isValidUtf8 [0xC0, 0x89] = true ∧ ¬ IsText [0xC0, 0x89] := by
  have htab : [0xC0, 0x89] ∈ overlongTabs := List.mem_cons_self
  apply not_isText_of_hasOverlongTab
  exact ⟨[[0xC0, 0x89]], by simpa [IsChunk] using Or.inr htab, ⟨_, List.mem_singleton_self _, htab⟩,
    by simp⟩

end Text

end ImageTool.Gcfg
