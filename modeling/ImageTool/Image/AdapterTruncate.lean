import ImageTool.Image.BlocksizeAdapter
import ImageTool.Image.FileVolume

/-!
# Truncating the block size adapter

`adapter_truncate` rounds the size up to adapter blocks and multiplies their count by
the block size of the *wrapped* volume.  Where that is the larger one it asks for too many
bytes, which does no harm as long as the surplus stays in the last wrapped block or the
volume cannot grow any further; where it is the smaller one the missing bytes must fit
behind the offset, in the rest of the block the offset lies in.
-/

namespace ImageTool.Image

open ImageTool.Lib

variable {σ : Type}

/-- A volume whose truncation, where it succeeds, sets the block count to the requested
bytes rounded up to its block size, within its limits.  A request that is not above the
minimum leaves `low` blocks: those the volume had, or the minimum. -/
structure Truncates (vol : Volume σ) (low : σ → Nat) : Prop where
  above : ∀ s s' size, vol.truncate size s = .ok () s' →
    vol.getMinBlockCount s < blockCount size vol.blocksize →
    vol.getBlockCount s' = min (blockCount size vol.blocksize) (vol.getMaxBlockCount s)
  notAbove : ∀ s s' size, vol.truncate size s = .ok () s' →
    blockCount size vol.blocksize ≤ vol.getMinBlockCount s →
    vol.getBlockCount s' = low s

/-- The file volume leaves its size alone where the request is not above its minimum. -/
theorem FileVolume.truncates (host : Host) {blocksize : Nat} :
    Truncates (FileVolume.volume host blocksize) (FileVolume.getBlockCount blocksize) where
  above s s' size h hmin := by
    have hmin' : ¬ blockCount size blocksize ≤ s.minBlockCount := Nat.not_le.2 hmin
    change FileVolume.truncate blocksize size s = .ok () s' at h
    unfold FileVolume.truncate at h
    dsimp only at h
    by_cases hmax : blockCount size blocksize > s.maxBlockCount
    · rw [if_pos hmax] at h
      cases h
    · rw [if_neg hmax, if_neg hmin'] at h
      cases h
      exact (Nat.min_eq_left (Nat.le_of_not_lt hmax)).symm
  notAbove s s' size h hmin := by
    have hmin' : blockCount size blocksize ≤ s.minBlockCount := hmin
    change FileVolume.truncate blocksize size s = .ok () s' at h
    unfold FileVolume.truncate at h
    dsimp only at h
    by_cases hmax : blockCount size blocksize > s.maxBlockCount
    · rw [if_pos hmax] at h
      cases h
    · rw [if_neg hmax, if_pos hmin'] at h
      cases h
      rfl

namespace Adapter

/-- The wrapped blocks that the first `count` blocks of the adapter take up. -/
def wrappedCount (ad : Adapter σ) (count : Nat) : Nat :=
  blockCount (ad.offset + count * ad.blocksize) ad.wrapped.blocksize

/-- The wrapped blocks that `adapter_truncate` asks for. -/
def requestedCount (ad : Adapter σ) (count : Nat) : Nat :=
  blockCount (sat64 (count * ad.wrapped.blocksize + ad.offset)) ad.wrapped.blocksize

/-- The wrapped volume is sized for the blocks the adapter needs, and the adapter has
these and no further one that would fill another wrapped block. -/
def SizedFor (ad : Adapter σ) (size : Nat) (s : σ) : Prop :=
  ad.wrapped.getBlockCount s = ad.wrappedCount (blockCount size ad.blocksize) ∧
    blockCount size ad.blocksize ≤ ad.getBlockCount s ∧
    (ad.getBlockCount s - blockCount size ad.blocksize) * ad.blocksize <
      ad.wrapped.blocksize

/-- The bytes of `count` blocks, counted in blocks of the wrapped volume, end in the wrapped
block they should end in.

Of larger blocks the surplus must leave the last one in place, unless that is the last block
the volume can have or the last that has an address.  Of smaller ones the shortage must fit
between the offset and the end of its block, unless the request is below the volume's minimum
and the volume happens to be as large as it should be. -/
def RequestFits (ad : Adapter σ) (low : σ → Nat) (count : Nat) (s : σ) : Prop :=
  let padding := (ad.wrapped.blocksize - ad.offset % ad.wrapped.blocksize) % ad.wrapped.blocksize
  let bytes := ad.offset + count * ad.blocksize
  if ad.blocksize ≤ ad.wrapped.blocksize then
    count * (ad.wrapped.blocksize - ad.blocksize) + padding < ad.wrapped.blocksize ∨
      (2 ^ 64 - 2) / ad.wrapped.blocksize * ad.wrapped.blocksize < bytes ∨
      ad.wrapped.getMaxBlockCount s * ad.wrapped.blocksize < bytes + ad.wrapped.blocksize
  else
    count * (ad.blocksize - ad.wrapped.blocksize) ≤ padding ∨
      (count * ad.wrapped.blocksize + ad.offset ≤
          ad.wrapped.getMinBlockCount s * ad.wrapped.blocksize ∧
        bytes ≤ low s * ad.wrapped.blocksize ∧
        low s * ad.wrapped.blocksize < bytes + ad.wrapped.blocksize)

instance (ad : Adapter σ) (low : σ → Nat) (count : Nat) (s : σ) :
    Decidable (ad.RequestFits low count s) := by
  unfold RequestFits
  infer_instance

/-- Both overflow checks together substitute the largest value once. -/
theorem sat64_sat64_add (a b : Nat) : sat64 (sat64 a + b) = sat64 (a + b) := by
  by_cases ha : a < 2 ^ 64
  · rw [sat64, sat64, if_pos ha, ← sat64]
  · unfold sat64
    rw [if_neg ha, if_neg (show ¬ a + b < 2 ^ 64 by omega)]
    split <;> omega

/-- What a truncation above the adapter's minimum asks of the wrapped volume. -/
theorem truncate_above (ad : Adapter σ) {size : Nat} {s : σ}
    (hmin : ad.getMinBlockCount s < blockCount size ad.blocksize) :
    ad.truncate size s = ad.wrapped.truncate
      (sat64 (blockCount size ad.blocksize * ad.wrapped.blocksize + ad.offset)) s := by
  unfold truncate
  dsimp only
  rw [if_neg (by omega), sat64_sat64_add]

/-- The block count of the adapter where the wrapped volume has the blocks that `count`
adapter blocks take up. -/
theorem convBlkCount_wrappedCount (ad : Adapter σ) {count : Nat} (hbs : 0 < ad.blocksize)
    (hwbs : 0 < ad.wrapped.blocksize) (hword : ad.offset + count * ad.blocksize < 2 ^ 64) :
    count ≤ ad.convBlkCount (ad.wrappedCount count) ∧
      (ad.convBlkCount (ad.wrappedCount count) - count) * ad.blocksize <
        ad.wrapped.blocksize := by
  have hge : ad.offset + count * ad.blocksize ≤
      ad.wrappedCount count * ad.wrapped.blocksize := blockCount_mul_ge hwbs
  have hlt : ad.wrappedCount count * ad.wrapped.blocksize <
      ad.offset + count * ad.blocksize + ad.wrapped.blocksize := by
    by_cases hzero : ad.wrappedCount count = 0
    · rw [hzero, Nat.zero_mul]
      omega
    · have hpred : (ad.wrappedCount count - 1) * ad.wrapped.blocksize <
          ad.offset + count * ad.blocksize :=
        (lt_blockCount_iff hwbs).1 (show ad.wrappedCount count - 1 <
          ad.wrappedCount count by omega)
      have hsplit : ad.wrappedCount count * ad.wrapped.blocksize =
          (ad.wrappedCount count - 1) * ad.wrapped.blocksize + ad.wrapped.blocksize := by
        rw [← Nat.succ_mul]
        congr 1
        omega
      omega
  have hsatle := sat64_le (ad.wrappedCount count * ad.wrapped.blocksize)
  have hsatge : ad.offset + count * ad.blocksize ≤
      sat64 (ad.wrappedCount count * ad.wrapped.blocksize) := by
    unfold sat64
    split <;> omega
  unfold convBlkCount
  dsimp only
  generalize sat64 (ad.wrappedCount count * ad.wrapped.blocksize) = bytes at *
  rw [if_neg (by omega)]
  have hdiv := Nat.div_mul_le_self (bytes - ad.offset) ad.blocksize
  constructor
  · rw [Nat.le_div_iff_mul_le hbs]
    omega
  · rw [Nat.sub_mul]
    omega

/-- Rounding a number up to a multiple of `w`. -/
theorem blockCount_mul_eq {x w : Nat} (hw : 0 < w) :
    blockCount x w * w = x + (w - x % w) % w := by
  have hdm := Nat.div_add_mod x w
  have hlt := Nat.mod_lt x hw
  rw [Nat.mul_comm] at hdm
  unfold blockCount
  split
  · rename_i hzero
    rw [hzero, Nat.sub_zero, Nat.mod_self]
    omega
  · rw [Nat.mod_eq_of_lt (show w - x % w < w by omega), Nat.succ_mul]
    omega

/-- The number of blocks that cover `x` bytes and no whole block more. -/
theorem eq_blockCount_iff {x w n : Nat} (hw : 0 < w) :
    n = blockCount x w ↔ x ≤ n * w ∧ n * w < x + w := by
  rw [← blockCount_le_iff hw]
  constructor
  · rintro rfl
    refine ⟨Nat.le_refl _, ?_⟩
    have hpad := Nat.mod_lt (w - x % w) hw
    rw [blockCount_mul_eq hw]
    omega
  · rintro ⟨hle, hlt⟩
    apply Nat.le_antisymm _ hle
    by_cases hzero : n = 0
    · rw [hzero]
      exact Nat.zero_le _
    · have hsplit : n * w = (n - 1) * w + w := by
        rw [← Nat.succ_mul, Nat.succ_eq_add_one, Nat.sub_add_cancel (by omega)]
      have hprev : n - 1 < blockCount x w := (lt_blockCount_iff hw).2 (by omega)
      omega

section Request

variable {ad : Adapter σ} {low : σ → Nat} {count : Nat} {s : σ}

/-- The adapter's bytes lie in front of the end of the wrapped volume's maximum. -/
theorem wrappedCount_le_max (hwbs : 0 < ad.wrapped.blocksize) (hpos : 0 < count)
    (hmax : count ≤ ad.getMaxBlockCount s) :
    ad.offset + count * ad.blocksize < 2 ^ 64 ∧
      ad.wrappedCount count ≤ ad.wrapped.getMaxBlockCount s := by
  have hwin := ad.window_le (ad.wrapped.getMaxBlockCount s) (Nat.lt_of_lt_of_le hpos hmax)
  have hmul : count * ad.blocksize ≤
      ad.convBlkCount (ad.wrapped.getMaxBlockCount s) * ad.blocksize :=
    Nat.mul_le_mul_right _ hmax
  refine ⟨by omega, ?_⟩
  exact (blockCount_le_iff hwbs).2 (by omega)

/-- They end behind its minimum. -/
theorem min_lt_wrappedCount (hbs : 0 < ad.blocksize) (hwbs : 0 < ad.wrapped.blocksize)
    (hword : ad.offset + count * ad.blocksize < 2 ^ 64)
    (hmin : ad.getMinBlockCount s < count) :
    ad.wrapped.getMinBlockCount s < ad.wrappedCount count := by
  have hsat : sat64 (ad.wrapped.getMinBlockCount s * ad.wrapped.blocksize) <
      ad.offset + count * ad.blocksize := by
    unfold getMinBlockCount convBlkCount at hmin
    dsimp only at hmin
    split at hmin
    · omega
    · rename_i hge
      rw [Nat.div_lt_iff_lt_mul hbs] at hmin
      omega
  apply (lt_blockCount_iff hwbs).2
  unfold sat64 at hsat
  split at hsat <;> omega

/-- Larger wrapped blocks: at least as many blocks are asked for as are needed. -/
theorem wrappedCount_le_requested (hwbs : 0 < ad.wrapped.blocksize)
    (hword : ad.offset + count * ad.blocksize < 2 ^ 64)
    (hle : ad.blocksize ≤ ad.wrapped.blocksize) :
    ad.wrappedCount count ≤ ad.requestedCount count := by
  have hmul : count * ad.blocksize ≤ count * ad.wrapped.blocksize :=
    Nat.mul_le_mul_left _ hle
  apply blockCount_mono hwbs
  unfold sat64
  split <;> omega

/-- They are as many where the surplus ends in the last block needed. -/
theorem requestedCount_le_iff (hwbs : 0 < ad.wrapped.blocksize) (hpos : 0 < count)
    (hword : ad.offset + count * ad.blocksize < 2 ^ 64)
    (hle : ad.blocksize ≤ ad.wrapped.blocksize) :
    ad.requestedCount count ≤ ad.wrappedCount count ↔
      count * (ad.wrapped.blocksize - ad.blocksize) +
          (ad.wrapped.blocksize - ad.offset % ad.wrapped.blocksize) % ad.wrapped.blocksize <
        ad.wrapped.blocksize ∨
      (2 ^ 64 - 2) / ad.wrapped.blocksize * ad.wrapped.blocksize <
        ad.offset + count * ad.blocksize := by
  have hpad := blockCount_mul_eq (x := ad.offset) hwbs
  have hmul : count * ad.blocksize ≤ count * ad.wrapped.blocksize :=
    Nat.mul_le_mul_left _ hle
  have hone : ad.wrapped.blocksize ≤ count * ad.wrapped.blocksize :=
    Nat.le_mul_of_pos_left _ hpos
  -- without the surplus the bytes end in block `count - 1` behind the offset's
  have hsurplus : count + blockCount ad.offset ad.wrapped.blocksize ≤ ad.wrappedCount count ↔
      count * (ad.wrapped.blocksize - ad.blocksize) +
          (ad.wrapped.blocksize - ad.offset % ad.wrapped.blocksize) % ad.wrapped.blocksize <
        ad.wrapped.blocksize := by
    have hlast : (count + blockCount ad.offset ad.wrapped.blocksize - 1) *
          ad.wrapped.blocksize + ad.wrapped.blocksize =
        count * ad.wrapped.blocksize + blockCount ad.offset ad.wrapped.blocksize *
          ad.wrapped.blocksize := by
      rw [← Nat.succ_mul, Nat.succ_eq_add_one, Nat.sub_add_cancel (by omega), Nat.add_mul]
    have hlt : count + blockCount ad.offset ad.wrapped.blocksize - 1 <
          blockCount (ad.offset + count * ad.blocksize) ad.wrapped.blocksize ↔
        (count + blockCount ad.offset ad.wrapped.blocksize - 1) * ad.wrapped.blocksize <
          ad.offset + count * ad.blocksize := lt_blockCount_iff hwbs
    have hpred : count + blockCount ad.offset ad.wrapped.blocksize ≤ ad.wrappedCount count ↔
        count + blockCount ad.offset ad.wrapped.blocksize - 1 < ad.wrappedCount count := by
      omega
    rw [hpred, Nat.mul_sub]
    unfold wrappedCount
    rw [hlt]
    omega
  -- the last block that begins below the largest 64-bit value
  have hlast : (2 ^ 64 - 2) / ad.wrapped.blocksize < ad.wrappedCount count ↔
      (2 ^ 64 - 2) / ad.wrapped.blocksize * ad.wrapped.blocksize <
        ad.offset + count * ad.blocksize := lt_blockCount_iff hwbs
  have hdiv : 2 ^ 64 - 2 < ((2 ^ 64 - 2) / ad.wrapped.blocksize + 1) * ad.wrapped.blocksize :=
    Nat.lt_mul_of_div_lt (Nat.lt_succ_self _) hwbs
  rw [← hsurplus, ← hlast]
  unfold requestedCount
  rw [blockCount_le_iff hwbs]
  have hends : count + blockCount ad.offset ad.wrapped.blocksize ≤ ad.wrappedCount count ↔
      count * ad.wrapped.blocksize + ad.offset ≤
        ad.wrappedCount count * ad.wrapped.blocksize := by
    constructor
    · intro hblocks
      have := Nat.mul_le_mul_right ad.wrapped.blocksize hblocks
      rw [Nat.add_mul] at this
      omega
    · intro hbytes
      have hsub : ad.offset ≤ (ad.wrappedCount count - count) * ad.wrapped.blocksize := by
        rw [Nat.sub_mul]
        omega
      have hrest := (blockCount_le_iff hwbs).2 hsub
      have hcount : count ≤ ad.wrappedCount count :=
        Nat.le_of_mul_le_mul_right (by omega) hwbs
      omega
  rw [hends]
  by_cases hfits : count * ad.wrapped.blocksize + ad.offset < 2 ^ 64
  · rw [sat64, if_pos hfits]
    constructor
    · exact Or.inl
    · rintro (hsame | hend)
      · exact hsame
      · have := Nat.mul_le_mul_right ad.wrapped.blocksize (Nat.succ_le_of_lt hend)
        rw [Nat.succ_eq_add_one] at this
        omega
  · rw [sat64, if_neg hfits]
    constructor
    · intro hbytes
      right
      exact Nat.lt_of_mul_lt_mul_right (Nat.lt_of_le_of_lt (Nat.div_mul_le_self _ _) (by omega))
    · rintro (hsame | hend)
      · omega
      · have := Nat.mul_le_mul_right ad.wrapped.blocksize (Nat.succ_le_of_lt hend)
        rw [Nat.succ_eq_add_one] at this
        omega

/-- Smaller wrapped blocks: at most as many are asked for as are needed. -/
theorem requestedCount_le_wrapped (hwbs : 0 < ad.wrapped.blocksize)
    (hgt : ad.wrapped.blocksize < ad.blocksize) :
    ad.requestedCount count ≤ ad.wrappedCount count := by
  have hmul : count * ad.wrapped.blocksize ≤ count * ad.blocksize :=
    Nat.mul_le_mul_left _ (Nat.le_of_lt hgt)
  have hsat := sat64_le (count * ad.wrapped.blocksize + ad.offset)
  exact blockCount_mono hwbs (by omega)

/-- They are as many where the shortage fits behind the offset. -/
theorem wrappedCount_le_iff (hwbs : 0 < ad.wrapped.blocksize)
    (hword : ad.offset + count * ad.blocksize < 2 ^ 64)
    (hgt : ad.wrapped.blocksize < ad.blocksize) :
    ad.wrappedCount count ≤ ad.requestedCount count ↔
      count * (ad.blocksize - ad.wrapped.blocksize) ≤
        (ad.wrapped.blocksize - ad.offset % ad.wrapped.blocksize) % ad.wrapped.blocksize := by
  have hmul : count * ad.wrapped.blocksize ≤ count * ad.blocksize :=
    Nat.mul_le_mul_left _ (Nat.le_of_lt hgt)
  have hrequest : ad.requestedCount count = count + blockCount ad.offset ad.wrapped.blocksize := by
    unfold requestedCount
    rw [sat64, if_pos (by omega)]
    symm
    rw [eq_blockCount_iff hwbs, Nat.add_mul, blockCount_mul_eq hwbs]
    have hpad := Nat.mod_lt (ad.wrapped.blocksize - ad.offset % ad.wrapped.blocksize) hwbs
    omega
  rw [hrequest, wrappedCount, blockCount_le_iff hwbs, Nat.add_mul, blockCount_mul_eq hwbs,
    Nat.mul_sub]
  omega

/-- The blocks that a volume with the law makes of the request are those the adapter needs
exactly if the request fits. -/
theorem requestFits_iff (hbs : 0 < ad.blocksize) (hwbs : 0 < ad.wrapped.blocksize)
    (hmin : ad.getMinBlockCount s < count) (hmax : count ≤ ad.getMaxBlockCount s) :
    (if ad.requestedCount count ≤ ad.wrapped.getMinBlockCount s then low s
      else min (ad.requestedCount count) (ad.wrapped.getMaxBlockCount s)) =
        ad.wrappedCount count ↔ ad.RequestFits low count s := by
  have hpos : 0 < count := by omega
  obtain ⟨hword, hneed⟩ := wrappedCount_le_max hwbs hpos hmax
  have habove := min_lt_wrappedCount hbs hwbs hword hmin
  unfold RequestFits
  dsimp only
  by_cases hle : ad.blocksize ≤ ad.wrapped.blocksize
  · have hmore : ad.wrappedCount count ≤ ad.requestedCount count :=
      wrappedCount_le_requested hwbs hword hle
    rw [if_pos hle, if_neg (by omega), ← or_assoc, ← requestedCount_le_iff hwbs hpos hword hle]
    -- the last block of the volume is the last one needed
    have hend : ad.wrapped.getMaxBlockCount s ≤ ad.wrappedCount count ↔
        ad.wrapped.getMaxBlockCount s * ad.wrapped.blocksize <
          ad.offset + count * ad.blocksize + ad.wrapped.blocksize := by
      have hsplit : ad.wrapped.getMaxBlockCount s * ad.wrapped.blocksize =
          (ad.wrapped.getMaxBlockCount s - 1) * ad.wrapped.blocksize + ad.wrapped.blocksize := by
        rw [← Nat.succ_mul, Nat.succ_eq_add_one, Nat.sub_add_cancel (by omega)]
      have hlt : ad.wrapped.getMaxBlockCount s - 1 < ad.wrappedCount count ↔
          (ad.wrapped.getMaxBlockCount s - 1) * ad.wrapped.blocksize <
            ad.offset + count * ad.blocksize := lt_blockCount_iff hwbs
      omega
    rw [← hend]
    omega
  · have hgt := Nat.lt_of_not_le hle
    have hless : ad.requestedCount count ≤ ad.wrappedCount count :=
      requestedCount_le_wrapped hwbs hgt
    have hsame : ad.wrappedCount count ≤ ad.requestedCount count ↔
        count * (ad.blocksize - ad.wrapped.blocksize) ≤
          (ad.wrapped.blocksize - ad.offset % ad.wrapped.blocksize) % ad.wrapped.blocksize :=
      wrappedCount_le_iff hwbs hword hgt
    have hlow : low s = ad.wrappedCount count ↔
        ad.offset + count * ad.blocksize ≤ low s * ad.wrapped.blocksize ∧
          low s * ad.wrapped.blocksize <
            ad.offset + count * ad.blocksize + ad.wrapped.blocksize := eq_blockCount_iff hwbs
    have hbytes : sat64 (count * ad.wrapped.blocksize + ad.offset) =
        count * ad.wrapped.blocksize + ad.offset := by
      have hmul := Nat.mul_le_mul_left count (Nat.le_of_lt hgt)
      rw [sat64, if_pos (by omega)]
    have hnot : ad.requestedCount count ≤ ad.wrapped.getMinBlockCount s ↔
        count * ad.wrapped.blocksize + ad.offset ≤
          ad.wrapped.getMinBlockCount s * ad.wrapped.blocksize := by
      unfold requestedCount
      rw [blockCount_le_iff hwbs, hbytes]
    rw [if_neg hle, ← hsame, ← hnot, ← hlow]
    split <;> omega

end Request

/-- A successful truncation above the adapter's minimum sizes the adapter exactly if the
request, which is counted in blocks of the wrapped volume, fits. -/
theorem truncate_sizedFor_iff (ad : Adapter σ) {low : σ → Nat}
    (hlaw : Truncates ad.wrapped low) (hbs : 0 < ad.blocksize)
    (hwbs : 0 < ad.wrapped.blocksize) {size : Nat} {s s' : σ}
    (hmin : ad.getMinBlockCount s < blockCount size ad.blocksize)
    (hmax : blockCount size ad.blocksize ≤ ad.getMaxBlockCount s)
    (hok : ad.truncate size s = .ok () s') :
    ad.SizedFor size s' ↔ ad.RequestFits low (blockCount size ad.blocksize) s := by
  rw [ad.truncate_above hmin] at hok
  generalize hc : blockCount size ad.blocksize = count at *
  have hcount : ad.wrapped.getBlockCount s' =
      if ad.requestedCount count ≤ ad.wrapped.getMinBlockCount s then low s
      else min (ad.requestedCount count) (ad.wrapped.getMaxBlockCount s) := by
    split
    · rename_i hle
      exact hlaw.notAbove s s' _ hok hle
    · rename_i hgt
      exact hlaw.above s s' _ hok (Nat.lt_of_not_le hgt)
  have hword := (wrappedCount_le_max hwbs (by omega) hmax).1
  rw [← requestFits_iff hbs hwbs hmin hmax, ← hcount]
  unfold SizedFor
  rw [hc]
  constructor
  · intro h
    exact h.1
  · intro h
    have hconv := ad.convBlkCount_wrappedCount hbs hwbs hword
    rw [← h] at hconv
    exact ⟨h, hconv.1, hconv.2⟩

/-! ### Sectors on a file with 4096-byte blocks -/

/-- 512-byte sectors from the start of a file volume. -/
def sectors : Adapter FileVolume := ⟨FileVolume.volume FileVolume.punchingHost 4096, 512, 0⟩

/-- A new file volume of at most 16 blocks. -/
def newFile : FileVolume := FileVolume.fromFd 4096 OsFile.empty 65536

/-- One sector needs one block, and gets it. -/
theorem truncate_sizedFor_sector :
    ∃ s', sectors.truncate 512 newFile = .ok () s' ∧ sectors.SizedFor 512 s' :=
  ⟨_, rfl, (sectors.truncate_sizedFor_iff (s := newFile)
    (FileVolume.truncates FileVolume.punchingHost)
    (by decide) (by decide) (by decide) (by decide) rfl).2 (by decide)⟩

/-- Two sectors need one block of the file, and get two. -/
theorem truncate_two_sectors :
    blockCount 1024 sectors.blocksize ≤ sectors.getMaxBlockCount newFile ∧
      sectors.getMinBlockCount newFile < blockCount 1024 sectors.blocksize ∧
      ∃ s', sectors.truncate 1024 newFile = .ok () s' ∧
        sectors.wrapped.getBlockCount s' = 2 ∧
        sectors.wrappedCount (blockCount 1024 sectors.blocksize) = 1 ∧
        ¬ sectors.SizedFor 1024 s' := by
  refine ⟨by decide, by decide, _, rfl, rfl, rfl, ?_⟩
  intro h
  exact absurd h.1 (by decide)

end Adapter

end ImageTool.Image
