import Mathlib.Data.List.GetD
import Mathlib.Data.Nat.Basic
import ImageTool.Lib.LastAssigned
import ImageTool.Lib.Word

/-!
# The bitmap

`bitmap_t`: a set of indices in an array of 64-bit words that grows when a bit
behind its end is set.  Every operation is described by what it does to
`isSet`; no other module looks at the words.
-/

namespace ImageTool.Util

open ImageTool.Lib

/-- `bitmap_t`; the array is never empty. -/
structure Bitmap where
  words : List (BitVec 64)
  nonempty : words ≠ []

namespace Bitmap

/-- `MIN_BITMAP_WORDS`. -/
def minBitmapWords : Nat := 64

/-- The number of words `bitmap_create` allocates. -/
def createWordCount (bitCount : Nat) : Nat :=
  let bitCount := if bitCount % 64 ≠ 0 then u64 (bitCount + (64 - bitCount % 64)) else bitCount
  let bitCount := if bitCount / 64 < minBitmapWords then minBitmapWords * 64 else bitCount
  bitCount / 64

theorem minBitmapWords_le_createWordCount (bitCount : Nat) :
    minBitmapWords ≤ createWordCount bitCount := by
  simp only [createWordCount]
  generalize (if bitCount % 64 ≠ 0 then u64 (bitCount + (64 - bitCount % 64))
    else bitCount) = n
  split
  · exact Nat.le_of_eq (Nat.mul_div_cancel _ (by decide)).symm
  · omega

/-- `bitmap_create`. -/
def create (bitCount : Nat) : Bitmap where
  words := List.replicate (createWordCount bitCount) 0
  nonempty := by
    have hcount : 0 < createWordCount bitCount :=
      Nat.lt_of_lt_of_le (by decide) (minBitmapWords_le_createWordCount bitCount)
    rw [ne_eq, List.replicate_eq_nil_iff]
    omega

/-- `bitmap_is_set`. -/
def isSet (b : Bitmap) (index : Nat) : Bool :=
  let wordIdx := index / 64
  let wordOff := index % 64
  if wordIdx ≥ b.words.length then false
  else (b.words.getD wordIdx 0 &&& (1#64 <<< wordOff)) != 0#64

/-- The doubling loop of `bitmap_set`; the first argument bounds the rounds. -/
def growCount : Nat → Nat → Nat → Nat
  | 0, _, newCount => newCount
  | fuel + 1, wordIdx, newCount =>
      if wordIdx ≥ newCount then growCount fuel wordIdx (newCount * 2) else newCount

/-- The words after `bitmap_set` has made room for word `wordIdx`. -/
def growWords (words : List (BitVec 64)) (wordIdx : Nat) : List (BitVec 64) :=
  if wordIdx ≥ words.length then
    let newCount := growCount (wordIdx + 1) wordIdx (words.length * 2)
    words ++ List.replicate (newCount - words.length) 0
  else words

theorem growWords_ne_nil {words : List (BitVec 64)} (h : words ≠ []) (i : Nat) :
    growWords words i ≠ [] := by
  unfold growWords
  split
  · simp [h]
  · exact h

/-- `bitmap_set`, with allocations that succeed. -/
def set (b : Bitmap) (index : Nat) : Bitmap :=
  let wordIdx := index / 64
  let wordOff := index % 64
  let words := growWords b.words wordIdx
  { words := words.set wordIdx (words.getD wordIdx 0 ||| (1#64 <<< wordOff))
    nonempty := by
      simpa only [ne_eq, List.set_eq_nil_iff] using growWords_ne_nil b.nonempty wordIdx }

/-- `bitmap_clear`. -/
def clear (b : Bitmap) (index : Nat) : Bitmap :=
  let wordIdx := index / 64
  let wordOff := index % 64
  if wordIdx < b.words.length then
    { words := b.words.set wordIdx (b.words.getD wordIdx 0 &&& ~~~(1#64 <<< wordOff))
      nonempty := by simpa only [ne_eq, List.set_eq_nil_iff] using b.nonempty }
  else b

/-- `bitmap_set_value`. -/
def setValue (b : Bitmap) (index : Nat) (value : Bool) : Bitmap :=
  if value then b.set index else b.clear index

/-- `while (i > 0 && bitmap->words[i - 1] == 0) --i;` -/
def usedWords (words : List (BitVec 64)) : Nat → Nat
  | 0 => 0
  | i + 1 => if words.getD i 0 = 0#64 then usedWords words i else i + 1

/-- `bitmap_shrink`, with an allocation that succeeds. -/
def shrink (b : Bitmap) : Bitmap :=
  let i := usedWords b.words b.words.length
  if h : 0 < i ∧ i ≤ b.words.length / 2 then
    { words := b.words.take i
      nonempty := by
        rw [ne_eq, List.take_eq_nil_iff, not_or]
        exact ⟨Nat.ne_of_gt h.1, b.nonempty⟩ }
  else b

/-- `while (i > 0 && bitmap->words[i] == 0) --i;` -/
def topWord (words : List (BitVec 64)) : Nat → Nat
  | 0 => 0
  | i + 1 => if words.getD (i + 1) 0 = 0#64 then topWord words i else i + 1

/-- `while (word != 0x01)` of `bitmap_msb_index`, which shifts the top bit down to
bit 0.  At most 63 rounds are needed for a word that is not 0. -/
def msbLoop : Nat → BitVec 64 → Nat → Nat
  | 0, _, index => index
  | fuel + 1, word, index =>
      if word ≠ 0x01#64 then
        msbLoop fuel ((word >>> 1) &&& ~~~(1#64 <<< 63)) (index + 1)
      else index

/-- `bitmap_msb_index`. -/
def msbIndex (b : Bitmap) : Nat :=
  let i := topWord b.words (b.words.length - 1)
  let word := b.words.getD i 0
  if word = 0#64 then 0 else msbLoop 63 word (i * 64)

/-! ## Membership -/

private theorem and_bit_ne_zero (w : BitVec 64) {k : Nat} (hk : k < 64) :
    ((w &&& (1#64 <<< k)) != 0#64) = w.getLsbD k := by
  have hand := BitVec.and_twoPow w k
  rw [BitVec.twoPow_eq] at hand
  rw [hand]
  cases hbit : w.getLsbD k with
  | false => simp
  | true =>
      have hne : (1#64 <<< k) ≠ 0#64 := by
        intro h0
        have := congrArg (fun v => v.getLsbD k) h0
        simp [hk] at this
      simp [hne]

/-- Membership is a bit of a word; words behind the array count as 0. -/
theorem isSet_eq (b : Bitmap) (i : Nat) :
    b.isSet i = (b.words.getD (i / 64) 0).getLsbD (i % 64) := by
  unfold isSet
  dsimp only
  split
  · rename_i h
    rw [List.getD_eq_default _ _ h]
    simp
  · exact and_bit_ne_zero _ (Nat.mod_lt _ (by decide))

@[simp] theorem isSet_create (n i : Nat) : (create n).isSet i = false := by
  rw [isSet_eq]
  simp only [create, List.getD_eq_getElem?_getD, List.getElem?_replicate]
  by_cases h : i / 64 < createWordCount n
  · simp [h]
  · simp [h]

private theorem lt_growCount {wordIdx : Nat} :
    ∀ {fuel newCount : Nat}, 0 < newCount → wordIdx < newCount + fuel →
      wordIdx < growCount fuel wordIdx newCount := by
  intro fuel
  induction fuel with
  | zero => intro n _ h; exact h
  | succ fuel ih =>
      intro n hn h
      unfold growCount
      split
      · exact ih (by omega) (by omega)
      · omega

theorem lt_length_growWords {words : List (BitVec 64)} (h : words ≠ []) (i : Nat) :
    i < (growWords words i).length := by
  have hlen : 0 < words.length := List.length_pos_iff.2 h
  unfold growWords
  split
  · have hcount : i < growCount (i + 1) i (words.length * 2) :=
      lt_growCount (by omega) (by omega)
    simp only [List.length_append, List.length_replicate]
    omega
  · omega

/-- Growing the array adds no member. -/
theorem getD_growWords (words : List (BitVec 64)) (i j : Nat) :
    (growWords words i).getD j 0 = words.getD j 0 := by
  unfold growWords
  split
  · simp only [List.getD_eq_getElem?_getD]
    by_cases hj : j < words.length
    · rw [List.getElem?_append_left hj]
    · rw [List.getElem?_append_right (by omega), List.getElem?_replicate,
        List.getElem?_eq_none (by omega)]
      split <;> rfl
  · rfl

private theorem div_mod_ext {i j : Nat} (h : i / 64 = j / 64) (h' : i % 64 = j % 64) :
    i = j := by omega

/-- Setting a bit adds exactly that member. -/
@[simp] theorem isSet_set (b : Bitmap) (i j : Nat) :
    (b.set i).isSet j = (decide (i = j) || b.isSet j) := by
  have hlen := lt_length_growWords b.nonempty (i / 64)
  rw [isSet_eq, isSet_eq]
  simp only [set, List.getD_eq_getElem?_getD]
  rw [List.getElem?_set]
  have hgrow := getD_growWords b.words (i / 64)
  simp only [List.getD_eq_getElem?_getD] at hgrow
  by_cases hw : i / 64 = j / 64
  · rw [if_pos hw, if_pos (by simpa using hlen), Option.getD_some, hgrow, hw]
    have hmod := Nat.mod_lt j (show 0 < 64 by decide)
    rw [BitVec.getLsbD_or, Bool.or_comm]
    congr 1
    rw [← BitVec.twoPow_eq, BitVec.getLsbD_twoPow]
    by_cases hbit : i % 64 = j % 64
    · have hij := div_mod_ext hw hbit
      subst hij
      simp [hmod]
    · have hne : i ≠ j := by rintro rfl; exact hbit rfl
      simp [hbit, hne]
  · have hne : i ≠ j := by rintro rfl; exact hw rfl
    rw [if_neg hw, hgrow]
    simp [hne]

/-- Clearing a bit removes exactly that member. -/
@[simp] theorem isSet_clear (b : Bitmap) (i j : Nat) :
    (b.clear i).isSet j = (decide (i ≠ j) && b.isSet j) := by
  by_cases hi : i / 64 < b.words.length
  · rw [isSet_eq, isSet_eq]
    simp only [clear, if_pos hi, List.getD_eq_getElem?_getD]
    rw [List.getElem?_set]
    by_cases hw : i / 64 = j / 64
    · rw [if_pos hw, if_pos hi, Option.getD_some, hw]
      have hmod := Nat.mod_lt j (show 0 < 64 by decide)
      rw [BitVec.getLsbD_and, Bool.and_comm]
      congr 1
      rw [BitVec.getLsbD_not, ← BitVec.twoPow_eq, BitVec.getLsbD_twoPow]
      by_cases hbit : i % 64 = j % 64
      · have hij := div_mod_ext hw hbit
        subst hij
        simp [hmod]
      · have hne : i ≠ j := by rintro rfl; exact hbit rfl
        simp [hbit, hne, hmod]
    · have hne : i ≠ j := by rintro rfl; exact hw rfl
      rw [if_neg hw]
      simp [hne]
  · simp only [clear, if_neg hi]
    by_cases hij : i = j
    · subst hij
      rw [isSet_eq, List.getD_eq_default _ _ (by omega)]
      simp
    · simp [hij]

/-! ## The highest member -/

private theorem topWord_le (words : List (BitVec 64)) (i : Nat) :
    topWord words i ≤ i := by
  induction i with
  | zero => exact Nat.le_refl 0
  | succ i ih =>
      unfold topWord
      split
      · omega
      · exact Nat.le_refl _

private theorem getD_above_topWord (words : List (BitVec 64)) :
    ∀ i j, topWord words i < j → j ≤ i → words.getD j 0 = 0#64 := by
  intro i
  induction i with
  | zero => intro j hj hj'; omega
  | succ i ih =>
      intro j hj hj'
      unfold topWord at hj
      split at hj
      · rename_i hzero
        by_cases hji : j = i + 1
        · rw [hji]; exact hzero
        · exact ih j hj (by omega)
      · omega

/-- The loop ends at the top bit of a word that is not 0. -/
private theorem msbLoop_spec :
    ∀ (fuel : Nat) (word : BitVec 64) (index : Nat), word ≠ 0#64 →
      word.toNat < 2 ^ (fuel + 1) →
      ∃ k, msbLoop fuel word index = index + k ∧ word.getLsbD k = true ∧
        ∀ j, k < j → word.getLsbD j = false := by
  intro fuel
  induction fuel with
  | zero =>
      intro word index hne hlt
      have hone : word = 1#64 := by
        apply BitVec.eq_of_toNat_eq
        have : word.toNat ≠ 0 := fun h => hne (BitVec.eq_of_toNat_eq (by simpa using h))
        simp
        omega
      subst hone
      refine ⟨0, rfl, rfl, ?_⟩
      intro j hj
      simp [BitVec.getLsbD_one]
      omega
  | succ fuel ih =>
      intro word index hne hlt
      unfold msbLoop
      split
      · rename_i hone
        have hmask : (word >>> 1) &&& ~~~(1#64 <<< 63) = word >>> 1 := by
          apply BitVec.eq_of_getLsbD_eq
          intro j hj
          rw [BitVec.getLsbD_and, BitVec.getLsbD_not, ← BitVec.twoPow_eq,
            BitVec.getLsbD_twoPow, BitVec.getLsbD_ushiftRight]
          by_cases h63 : j = 63
          · subst h63
            simp
          · have hj63 : ¬ 63 = j := fun h => h63 h.symm
            simp [hj, hj63]
        have hnat : (word >>> 1).toNat = word.toNat / 2 := by
          simp [BitVec.toNat_ushiftRight, Nat.shiftRight_eq_div_pow]
        have hge : 2 ≤ word.toNat := by
          have h0 : word.toNat ≠ 0 :=
            fun h => hne (BitVec.eq_of_toNat_eq (by simpa using h))
          have h1 : word.toNat ≠ 1 :=
            fun h => hone (BitVec.eq_of_toNat_eq (by simpa using h))
          omega
        have hne' : word >>> 1 ≠ 0#64 := by
          intro h
          have := congrArg BitVec.toNat h
          rw [hnat] at this
          simp at this
          omega
        have hlt' : (word >>> 1).toNat < 2 ^ (fuel + 1) := by
          rw [hnat]
          rw [Nat.pow_succ] at hlt
          omega
        obtain ⟨k, hloop, hbit, habove⟩ := ih (word >>> 1) (index + 1) hne' hlt'
        refine ⟨k + 1, by rw [hmask, hloop]; omega, ?_, ?_⟩
        · rw [BitVec.getLsbD_ushiftRight, Nat.add_comm] at hbit
          exact hbit
        · intro j hj
          have hpred := habove (j - 1) (by omega)
          rw [BitVec.getLsbD_ushiftRight, show 1 + (j - 1) = j by omega] at hpred
          exact hpred
      · rename_i hone
        have hword : word = 1#64 := by
          by_contra h
          exact hone h
        subst hword
        refine ⟨0, rfl, rfl, ?_⟩
        intro j hj
        simp [BitVec.getLsbD_one]
        omega

private theorem getLsbD_zero_of_getD {words : List (BitVec 64)} {i k : Nat}
    (h : words.getD i 0 = 0#64) : (words.getD i 0).getLsbD k = false := by
  rw [h]; simp

/-- `bitmap_msb_index` is a member with no member above it, or 0 for the empty
set. -/
theorem msbIndex_spec (b : Bitmap) :
    (b.isSet b.msbIndex = true ∧ ∀ j, b.msbIndex < j → b.isSet j = false) ∨
      (b.msbIndex = 0 ∧ ∀ j, b.isSet j = false) := by
  have hlen : 0 < b.words.length := List.length_pos_iff.2 b.nonempty
  have htop := topWord_le b.words (b.words.length - 1)
  have habove : ∀ j, topWord b.words (b.words.length - 1) < j / 64 →
      b.isSet j = false := by
    intro j hj
    rw [isSet_eq]
    by_cases hin : j / 64 ≤ b.words.length - 1
    · exact getLsbD_zero_of_getD (getD_above_topWord _ _ _ hj hin)
    · rw [List.getD_eq_default _ _ (by omega)]; simp
  generalize hi : topWord b.words (b.words.length - 1) = i at *
  by_cases hzero : b.words.getD i 0 = 0#64
  · right
    refine ⟨by simp only [msbIndex, hi, hzero, if_true], ?_⟩
    intro j
    by_cases hj : i < j / 64
    · exact habove j hj
    · by_cases hi0 : i = 0
      · rw [isSet_eq, show j / 64 = i by omega]
        exact getLsbD_zero_of_getD hzero
      · -- the loop stops above word 0 only at a word that is not 0
        exfalso
        have hstop : ∀ n, topWord b.words n = i → b.words.getD i 0 ≠ 0#64 := by
          intro n
          induction n with
          | zero => intro h; exact absurd h.symm hi0
          | succ n ih =>
              intro h
              unfold topWord at h
              split at h
              · exact ih h
              · rename_i hne
                rw [← h]; exact hne
        exact hstop _ hi hzero
  · left
    have hlt : (b.words.getD i 0).toNat < 2 ^ (63 + 1) := (b.words.getD i 0).isLt
    obtain ⟨k, hloop, hbit, hk⟩ := msbLoop_spec 63 (b.words.getD i 0) (i * 64) hzero hlt
    have hk64 : k < 64 := by
      by_contra h
      rw [BitVec.getLsbD_of_ge _ _ (by omega)] at hbit
      cases hbit
    have hmsb : b.msbIndex = i * 64 + k := by
      simp only [msbIndex, hi, if_neg hzero, hloop]
    rw [hmsb]
    constructor
    · rw [isSet_eq, show (i * 64 + k) / 64 = i by omega,
        show (i * 64 + k) % 64 = k by omega]
      exact hbit
    · intro j hj
      by_cases hji : j / 64 = i
      · rw [isSet_eq, hji]
        exact hk _ (by omega)
      · exact habove j (by omega)

/-! ## Sizes of the array -/

/-- The bitmap after `bitmap_set` has made room for word `wordIdx`. -/
def grown (b : Bitmap) (wordIdx : Nat) : Bitmap where
  words := growWords b.words wordIdx
  nonempty := growWords_ne_nil b.nonempty wordIdx

@[simp] theorem isSet_grown (b : Bitmap) (wordIdx i : Nat) :
    (b.grown wordIdx).isSet i = b.isSet i := by
  rw [isSet_eq, isSet_eq]
  simp only [grown, getD_growWords]

/-- Indices behind the words of the array. -/
theorem isSet_behind (b : Bitmap) {i : Nat} (hi : b.words.length ≤ i / 64) :
    b.isSet i = false := by
  rw [isSet_eq, List.getD_eq_default _ _ hi]
  exact BitVec.getLsbD_zero

/-- What is cut off when the array shrinks is zero. -/
private theorem getD_behind_usedWords (words : List (BitVec 64)) :
    ∀ n j, usedWords words n ≤ j → j < n → words.getD j 0 = 0#64 := by
  intro n
  induction n with
  | zero => intro j hj hn; omega
  | succ n ih =>
      intro j hj hn
      unfold usedWords at hj
      split at hj
      · rename_i hzero
        by_cases hlast : j = n
        · rw [hlast]
          exact hzero
        · exact ih j hj (by omega)
      · omega

@[simp] theorem isSet_shrink (b : Bitmap) (i : Nat) : b.shrink.isSet i = b.isSet i := by
  unfold shrink
  dsimp only
  split
  · rw [isSet_eq, isSet_eq]
    congr 1
    by_cases hkept : i / 64 < usedWords b.words b.words.length
    · simp only [List.getD_eq_getElem?_getD, List.getElem?_take_of_lt hkept]
    · have hcut : (b.words.take (usedWords b.words b.words.length)).getD (i / 64) 0 = 0#64 := by
        apply List.getD_eq_default
        simp only [List.length_take]
        omega
      rw [hcut]
      by_cases hin : i / 64 < b.words.length
      · exact (getD_behind_usedWords b.words _ _ (by omega) hin).symm
      · exact (List.getD_eq_default _ _ (by omega)).symm
  · rfl

/-! ## Runs -/

/-- The calls that change a bitmap. -/
inductive Op where
  | set (index : Nat)
  | clear (index : Nat)
  | setValue (index : Nat) (value : Bool)
  | shrink

/-- Make a call. -/
def step (b : Bitmap) : Op → Bitmap
  | .set index => b.set index
  | .clear index => b.clear index
  | .setValue index value => b.setValue index value
  | .shrink => b.shrink

/-- What a call assigns to an index. -/
def Op.assigns : Op → Option (Nat × Bool)
  | .set index => some (index, true)
  | .clear index => some (index, false)
  | .setValue index value => some (index, value)
  | .shrink => none

theorem isSet_set_iff (b : Bitmap) (i j : Nat) :
    (b.set i).isSet j = true ↔
      (if i = j then some true else none).elim (b.isSet j = true) (· = true) := by
  rw [isSet_set]
  split <;> simp [*]

theorem isSet_clear_iff (b : Bitmap) (i j : Nat) :
    (b.clear i).isSet j = true ↔
      (if i = j then some false else none).elim (b.isSet j = true) (· = true) := by
  rw [isSet_clear]
  split <;> simp [*]

/-- Each call does to the set what it assigns. -/
theorem showsSet : ShowsSet step Op.assigns (fun b i => b.isSet i = true) (fun _ => True)
    (fun _ => True) where
  keeps _ _ _ _ := trivial
  mem_step b op i _ _ := by
    cases op with
    | set index =>
        rw [assigned_of_some (show (Op.set index).assigns = some (index, true) from rfl)]
        exact isSet_set_iff b index i
    | clear index =>
        rw [assigned_of_some (show (Op.clear index).assigns = some (index, false) from rfl)]
        exact isSet_clear_iff b index i
    | setValue index value =>
        have hassigns : (Op.setValue index value).assigns = some (index, value) := rfl
        rw [assigned_of_some hassigns]
        cases value with
        | false => exact isSet_clear_iff b index i
        | true => exact isSet_set_iff b index i
    | shrink =>
        rw [assigned_of_none (show Op.shrink.assigns = none from rfl), Option.elim_none]
        exact Iff.of_eq (congrArg (· = true) (isSet_shrink b i))

/-- After any calls a bitmap holds the indices that were set last.  Its array may have any size:
what is behind it counts as clear, and growing and shrinking change no member. -/
theorem run_represents (bitCount : Nat) (ops : List Op) :
    (∀ i, (ops.foldl step (create bitCount)).isSet i = true ↔
      lastAssigned Op.assigns i ops = some true) ∧
    (∀ i, (ops.foldl step (create bitCount)).words.length ≤ i / 64 →
      (ops.foldl step (create bitCount)).isSet i = false) ∧
    (∀ i wordIdx, ((ops.foldl step (create bitCount)).grown wordIdx).isSet i =
      (ops.foldl step (create bitCount)).isSet i) ∧
    (∀ i, (ops.foldl step (create bitCount)).shrink.isSet i =
      (ops.foldl step (create bitCount)).isSet i) ∧
    (((∀ i, lastAssigned Op.assigns i ops ≠ some true) ∧
        (ops.foldl step (create bitCount)).msbIndex = 0) ∨
      (lastAssigned Op.assigns (ops.foldl step (create bitCount)).msbIndex ops = some true ∧
        ∀ i, lastAssigned Op.assigns i ops = some true →
          i ≤ (ops.foldl step (create bitCount)).msbIndex)) := by
  have hrun := (showsSet.run ops (fun _ _ => trivial) (s := create bitCount) trivial).2
  generalize ops.foldl step (create bitCount) = b at hrun ⊢
  have hmem : ∀ i, b.isSet i = true ↔ lastAssigned Op.assigns i ops = some true := by
    intro i
    rw [hrun i]
    cases lastAssigned Op.assigns i ops <;> simp
  refine ⟨hmem, fun i hi => isSet_behind b hi, fun i wordIdx => isSet_grown b wordIdx i,
    isSet_shrink b, ?_⟩
  rcases b.msbIndex_spec with ⟨hset, habove⟩ | ⟨hzero, hempty⟩
  · right
    constructor
    · exact (hmem _).1 hset
    · intro i hi
      by_contra hgt
      have hclear := habove i (by omega)
      rw [(hmem i).2 hi] at hclear
      cases hclear
  · left
    constructor
    · intro i hi
      have hset := (hmem i).2 hi
      rw [hempty i] at hset
      cases hset
    · exact hzero

end Bitmap

end ImageTool.Util
