import ImageTool.Image.Memmove

/-!
# Moving up over the last address

`volume_memmove` computes the end of the destination in 64 bits.  Where a range is moved up
over itself and the new place has no 64-bit end, the copy from the back starts at the first
blocks of the volume.  It repeats the end of the range there, down to the first byte, and goes
on at the last address, which the volume refuses.
-/

namespace ImageTool.Lib.Bytes

/-- Copy the bytes below `n` one by one from `s` bytes behind, the last one first. -/
def pullDown (f : Bytes) (s n : Nat) : Bytes := fun p => f (p + blockCount (n - p) s * s)

section PullDown

variable {f : Bytes} {s n p d : Nat}

@[simp] theorem pullDown_zero (f : Bytes) (s : Nat) : f.pullDown s 0 = f := by
  funext p
  unfold pullDown
  rw [Nat.zero_sub, blockCount_zero, Nat.zero_mul, Nat.add_zero]

theorem pullDown_apply_of_ge (h : n ≤ p) : f.pullDown s n p = f p := by
  unfold pullDown
  rw [Nat.sub_eq_zero_of_le h, blockCount_zero, Nat.zero_mul, Nat.add_zero]

/-- Where no byte is copied twice. -/
theorem pullDown_apply_of_le (hp : p < n) (hle : n ≤ s) : f.pullDown s n p = f (p + s) := by
  have hone : blockCount (n - p) s = 1 := by
    have hpos : 0 < blockCount (n - p) s := blockCount_pos (by omega) (by omega)
    have hmax : blockCount (n - p) s ≤ 1 := (blockCount_le_iff (by omega)).2 (by omega)
    omega
  unfold pullDown
  rw [hone, Nat.one_mul]

/-- The last `d` bytes first. -/
theorem move_pullDown (hs : d ≤ s) (hd : d ≤ n) :
    (f.move (n - d) (n - d + s) d).pullDown s (n - d) = f.pullDown s n := by
  funext p
  by_cases hzero : s = 0
  · -- nothing is copied
    obtain rfl : d = 0 := by omega
    rw [move_zero, Nat.sub_zero]
  have hpos := Nat.pos_of_ne_zero hzero
  have hmono := blockCount_mono hpos (show n - d - p ≤ n - p by omega)
  have hfront : n - d ≤ p + blockCount (n - d - p) s * s := by
    have hle : n - d - p ≤ blockCount (n - d - p) s * s :=
      (blockCount_le_iff hpos).1 (Nat.le_refl _)
    omega
  unfold pullDown
  by_cases hin : p + blockCount (n - d - p) s * s < n
  · have hnext : blockCount (n - p) s = blockCount (n - d - p) s + 1 := by
      apply Nat.le_antisymm
      · rw [blockCount_le_iff hpos, Nat.succ_mul]
        omega
      · apply Nat.lt_of_not_le
        rw [blockCount_le_iff hpos]
        omega
    rw [move_apply_of_mem hfront (by omega), hnext, Nat.succ_mul]
    congr 1
    omega
  · have hsame : blockCount (n - p) s = blockCount (n - d - p) s := by
      apply Nat.le_antisymm _ hmono
      rw [blockCount_le_iff hpos]
      omega
    rw [move_apply_of_ge (by omega), hsame]

end PullDown

end ImageTool.Lib.Bytes

namespace ImageTool.Image

open ImageTool.Lib

variable {σ : Type}

section Wrap

variable {vol : Volume σ} {count : Nat} {view : σ → Bytes}

/-- The copy down to the first byte, with more to come. -/
theorem copyBackwardLoop_wrap (hv : BlockStore vol count view) (hr : RefusesOutside vol count)
    (hbytes : count * vol.blocksize < 2 ^ 64) {dist : Nat} (hdist : vol.blocksize ≤ dist)
    (fuel n size dst src : Nat) (s : σ) (hfuel : size ≤ fuel) (hn : n < size)
    (hin : n + dist ≤ count * vol.blocksize) (hdst : dst = if n = 0 then 2 ^ 64 - 1 else n - 1)
    (hsrc : 0 < n → src = n + dist - 1) :
    ∃ s', copyBackwardLoop vol fuel dst src size s = .fail s' ∧
      view s' = (view s).pullDown dist n := by
  have hbs := hv.blocksize_pos
  induction fuel generalizing n size dst src s with
  | zero => omega
  | succ fuel ih =>
      obtain ⟨diff, hpos, hle, hso, hdo, hround⟩ :=
        copyBackwardLoop_succ vol fuel dst src (show 0 < size by omega)
      have hsmod := Nat.mod_lt src hbs
      have hdmod := Nat.mod_lt dst hbs
      have hsdm := Nat.div_add_mod' src vol.blocksize
      have hddm := Nat.div_add_mod' dst vol.blocksize
      rw [hround, Call.bind_apply]
      by_cases hzero : n = 0
      · -- behind the last address
        subst hzero
        rw [if_pos rfl] at hdst
        rcases moveChunk_cases hv hr s (i := src / vol.blocksize) (j := dst / vol.blocksize)
          (a := src % vol.blocksize + 1 - diff) (b := dst % vol.blocksize + 1 - diff)
          (n := diff) (by omega) (by omega) with ⟨hj, _⟩ | hfail
        · have hnext := Nat.mul_le_mul_right vol.blocksize hj
          rw [Nat.succ_mul] at hnext
          omega
        · rw [hfail]
          exact ⟨s, rfl, (Bytes.pullDown_zero _ _).symm⟩
      rw [if_neg hzero] at hdst
      have hplace := hsrc (Nat.pos_of_ne_zero hzero)
      have hdle := Nat.mod_le dst vol.blocksize
      obtain ⟨s₁, hs₁, hview₁⟩ := moveChunk_eq hv s (i := src / vol.blocksize)
        (j := dst / vol.blocksize) (a := src % vol.blocksize + 1 - diff)
        (b := dst % vol.blocksize + 1 - diff) (n := diff)
        (Nat.div_lt_of_lt_mul (by rw [Nat.mul_comm]; omega))
        (Nat.div_lt_of_lt_mul (by rw [Nat.mul_comm]; omega)) (by omega) (by omega)
      rw [show dst / vol.blocksize * vol.blocksize + (dst % vol.blocksize + 1 - diff) =
          n - diff by omega, show src / vol.blocksize * vol.blocksize +
          (src % vol.blocksize + 1 - diff) = n - diff + dist by omega] at hview₁
      rw [hs₁, Outcome.bind_ok]
      have hnext : sub64 dst diff = if n - diff = 0 then 2 ^ 64 - 1 else n - diff - 1 := by
        split
        · rw [sub64_of_lt (by omega) (by omega)]
          omega
        · rw [sub64_of_le (by omega) (by omega)]
          omega
      obtain ⟨s₂, hs₂, hview₂⟩ := ih (n - diff) (size - diff) _ (sub64 src diff) s₁ (by omega)
        (by omega) (by omega) hnext (by
          intro _
          rw [sub64_of_le (by omega) (by omega)]
          omega)
      refine ⟨s₂, hs₂, ?_⟩
      rw [hview₂, hview₁, Bytes.move_pullDown (by omega) (by omega)]

/-- A range that is moved up over itself to a place without a 64-bit end. -/
theorem volumeMemmove_wrap (hv : BlockStore vol count view) (hr : RefusesOutside vol count)
    (hbytes : count * vol.blocksize < 2 ^ 64) {dst src size : Nat} (s : σ) (hlt : src < dst)
    (hover : dst < src + size) (hin : src + size ≤ count * vol.blocksize)
    (hdst : dst < 2 ^ 64) (hwrap : 2 ^ 64 < dst + size)
    (hdist : vol.blocksize ≤ 2 ^ 64 - (dst - src)) :
    ∃ s', volumeMemmove vol dst src size s = .fail s' ∧
      view s' = (view s).pullDown (2 ^ 64 - (dst - src)) (dst + size - 2 ^ 64) := by
  unfold volumeMemmove
  rw [if_neg (by omega), u64_of_lt (by omega), if_pos (by omega)]
  unfold copyBackward
  apply copyBackwardLoop_wrap hv hr hbytes hdist size _ size _ _ s (Nat.le_refl size)
  · omega
  · omega
  · rw [if_neg (by omega)]
    unfold u64
    omega
  · intro _
    rw [u64_of_lt (by omega)]
    omega

end Wrap

end ImageTool.Image
