import ImageTool.Image.Volume
import ImageTool.Util.IsMemoryZero

/-!
# `volume_read` and `volume_write`

Byte-granular access to a volume.  A request is cut at block boundaries; whole
blocks take the block operations, a whole block of zeros is discarded instead of
written, and the ragged ends take the partial operations.  On a block store the
cutting is invisible: the bytes of the request are read or spliced in.
-/

namespace ImageTool.Image

open ImageTool.Lib ImageTool.Util

variable {σ : Type}

/-- One round of `volume_read`. -/
def readChunk (vol : Volume σ) (blkIndex blkOffset blkSize : Nat) :
    Call σ (List UInt8) :=
  if blkOffset = 0 ∧ blkSize = vol.blocksize then vol.readBlock blkIndex
  else vol.readPartialBlock blkIndex blkOffset blkSize

/-- The loop of `volume_read`; the first argument bounds the number of rounds. -/
def volumeReadLoop (vol : Volume σ) : Nat → Nat → Nat → Nat → Call σ (List UInt8)
  | 0, _, _, size => if size = 0 then pure [] else Call.stuck
  | fuel + 1, blkIndex, blkOffset, size =>
      if size = 0 then pure [] else
        let blkSize := vol.blocksize - blkOffset
        let blkSize := if blkSize > size then size else blkSize
        do
          let data ← readChunk vol blkIndex blkOffset blkSize
          let rest ← volumeReadLoop vol fuel (u64 (blkIndex + 1)) 0 (size - blkSize)
          pure (data ++ rest)

/-- `volume_read`. -/
def volumeRead (vol : Volume σ) (offset size : Nat) : Call σ (List UInt8) :=
  volumeReadLoop vol size (offset / vol.blocksize) (offset % vol.blocksize) size

/-- One round of `volume_write`. -/
def writeChunk (vol : Volume σ) (blkIndex blkOffset : Nat) (data : Buffer)
    (blkSize : Nat) : Call σ Unit :=
  if blkOffset = 0 ∧ blkSize = vol.blocksize then
    if isNullOrZero data blkSize then vol.discardBlocks blkIndex 1
    else vol.writeBlock blkIndex data
  else vol.writePartialBlock blkIndex data blkOffset blkSize

/-- The loop of `volume_write`; the first argument bounds the number of rounds. -/
def volumeWriteLoop (vol : Volume σ) :
    Nat → Nat → Nat → Buffer → Nat → Call σ Unit
  | 0, _, _, _, size => if size = 0 then pure () else Call.stuck
  | fuel + 1, blkIndex, blkOffset, data, size =>
      if size = 0 then pure () else
        let blkSize := vol.blocksize - blkOffset
        let blkSize := if blkSize > size then size else blkSize
        do
          writeChunk vol blkIndex blkOffset data blkSize
          volumeWriteLoop vol fuel (u64 (blkIndex + 1)) 0
            (data.advance blkSize) (size - blkSize)

/-- `volume_write`. -/
def volumeWrite (vol : Volume σ) (offset : Nat) (data : Buffer) (size : Nat) :
    Call σ Unit :=
  volumeWriteLoop vol size (offset / vol.blocksize) (offset % vol.blocksize) data size

/-! ## Kept properties -/

section Keeps

variable {vol : Volume σ} {P : σ → Prop}

theorem volumeReadLoop_keeps (hk : vol.Keeps P) (fuel i a n : Nat) :
    (volumeReadLoop vol fuel i a n).Keeps P := by
  induction fuel generalizing i a n with
  | zero => exact Call.Keeps.ite (Call.Keeps.pure _) Call.Keeps.stuck
  | succ fuel ih =>
      refine Call.Keeps.ite (Call.Keeps.pure _) (Call.Keeps.bind ?_ fun _ =>
        Call.Keeps.bind (ih _ _ _) fun _ => Call.Keeps.pure _)
      exact Call.Keeps.ite (hk.readBlock _) (hk.readPartialBlock _ _ _)

theorem volumeRead_keeps (hk : vol.Keeps P) (offset size : Nat) :
    (volumeRead vol offset size).Keeps P :=
  volumeReadLoop_keeps hk _ _ _ _

theorem volumeWriteLoop_keeps (hk : vol.Keeps P) (fuel i a : Nat) (data : Buffer)
    (n : Nat) : (volumeWriteLoop vol fuel i a data n).Keeps P := by
  induction fuel generalizing i a data n with
  | zero => exact Call.Keeps.ite (Call.Keeps.pure _) Call.Keeps.stuck
  | succ fuel ih =>
      refine Call.Keeps.ite (Call.Keeps.pure _) (Call.Keeps.bind ?_ fun _ => ih _ _ _ _)
      exact Call.Keeps.ite
        (Call.Keeps.ite (hk.discardBlocks _ _) (hk.writeBlock _ _))
        (hk.writePartialBlock _ _ _ _)

theorem volumeWrite_keeps (hk : vol.Keeps P) (offset : Nat) (data : Buffer)
    (size : Nat) : (volumeWrite vol offset data size).Keeps P :=
  volumeWriteLoop_keeps hk _ _ _ _ _

end Keeps

/-! ## Behaviour on a block store -/

section BlockStore

variable {vol : Volume σ} {count : Nat} {view : σ → Bytes}

theorem readChunk_eq (hv : BlockStore vol count view) (s : σ) {i a n : Nat}
    (hi : i < count) (ha : a + n ≤ vol.blocksize) :
    readChunk vol i a n s = .ok ((view s).slice (i * vol.blocksize + a) n) s := by
  unfold readChunk
  split
  · rename_i h
    obtain ⟨rfl, rfl⟩ := h
    exact hv.readBlock s i hi
  · exact hv.readPartialBlock s i a n hi ha

theorem writeChunk_eq (hv : BlockStore vol count view) (s : σ) {i a n : Nat}
    {data : Buffer} (hi : i < count) (ha : a + n ≤ vol.blocksize)
    (hold : data.Holds n) :
    ∃ s', writeChunk vol i a data n s = .ok () s' ∧
      view s' = (view s).splice (i * vol.blocksize + a) (data.bytes n) := by
  unfold writeChunk
  split
  · rename_i h
    obtain ⟨rfl, rfl⟩ := h
    split
    · rename_i hzero
      obtain ⟨s', hs', hview⟩ := hv.discardBlocks s i 1 (by omega)
      refine ⟨s', hs', ?_⟩
      rw [hview, Bytes.clear_eq_splice, bytes_of_isNullOrZero hzero hold,
        Nat.one_mul, Nat.add_zero]
    · exact hv.writeBlock s i data hi hold
  · exact hv.writePartialBlock s i data a n hi ha hold

private theorem index_lt {i a size count bs : Nat} (hsize : 0 < size)
    (h : i * bs + a + size ≤ count * bs) : i < count := by
  apply Nat.lt_of_mul_lt_mul_right (a := bs)
  omega

/-- The rounds behind the first start at the next block boundary. -/
private theorem next_le {i a n size count bs : Nat} (hn : n = size ∨ a + n = bs)
    (hle : n ≤ size) (h : i * bs + a + size ≤ count * bs) :
    size - n = 0 ∨ (i + 1) * bs + 0 + (size - n) ≤ count * bs := by
  rcases hn with rfl | hn
  · left; omega
  · right; rw [Nat.add_mul]; omega

theorem volumeReadLoop_eq (hv : BlockStore vol count view)
    (hcount : count ≤ 2 ^ 64) :
    ∀ (fuel i a size : Nat) (s : σ), size ≤ fuel → a < vol.blocksize →
      (size = 0 ∨ i * vol.blocksize + a + size ≤ count * vol.blocksize) →
      volumeReadLoop vol fuel i a size s =
        .ok ((view s).slice (i * vol.blocksize + a) size) s := by
  intro fuel
  induction fuel with
  | zero =>
      intro i a size s hfuel _ _
      obtain rfl : size = 0 := by omega
      simp [volumeReadLoop]
  | succ fuel ih =>
      intro i a size s hfuel ha hin
      by_cases hsize : size = 0
      · subst hsize
        simp [volumeReadLoop]
      have hin' := hin.resolve_left hsize
      have hbs := hv.blocksize_pos
      simp only [volumeReadLoop, hsize, ↓reduceIte, Call.bind_apply]
      generalize hn : (if vol.blocksize - a > size then size else vol.blocksize - a) = n
      have hnPos : 0 < n := by subst hn; split <;> omega
      have hnSize : n ≤ size := by subst hn; split <;> omega
      have hnBlk : a + n ≤ vol.blocksize := by subst hn; split <;> omega
      have hnEnd : n = size ∨ a + n = vol.blocksize := by subst hn; split <;> omega
      have hi : i < count := index_lt (by omega) hin'
      rw [readChunk_eq hv s hi hnBlk, Outcome.bind_ok, Call.bind_apply]
      by_cases hlast : size - n = 0
      · obtain rfl : n = size := by omega
        rw [hlast, ih _ _ 0 s (by omega) hbs (Or.inl rfl)]
        simp
      have hnext := (next_le hnEnd hnSize hin').resolve_left hlast
      have hi' : i + 1 < count := index_lt (by omega) hnext
      rw [u64_of_lt (by omega), ih (i + 1) 0 (size - n) s (by omega) hbs
        (Or.inr hnext), Outcome.bind_ok, Call.pure_apply]
      congr 1
      have haddr : (i + 1) * vol.blocksize + 0 = i * vol.blocksize + a + n := by
        rw [Nat.add_mul]; omega
      rw [haddr, Bytes.slice_append]
      congr 1
      omega

/-- On a block store `volume_read` returns the bytes of the range. -/
theorem volumeRead_eq (hv : BlockStore vol count view) (hcount : count ≤ 2 ^ 64)
    {offset size : Nat} (s : σ) (hin : offset + size ≤ count * vol.blocksize) :
    volumeRead vol offset size s = .ok ((view s).slice offset size) s := by
  have hdm := Nat.div_add_mod offset vol.blocksize
  have haddr : offset / vol.blocksize * vol.blocksize + offset % vol.blocksize =
      offset := by rw [Nat.mul_comm]; exact hdm
  have h := volumeReadLoop_eq hv hcount size (offset / vol.blocksize)
    (offset % vol.blocksize) size s (Nat.le_refl _)
    (Nat.mod_lt _ hv.blocksize_pos) (by right; omega)
  rwa [haddr] at h

theorem volumeWriteLoop_eq (hv : BlockStore vol count view)
    (hcount : count ≤ 2 ^ 64) :
    ∀ (fuel i a size : Nat) (data : Buffer) (s : σ), size ≤ fuel →
      a < vol.blocksize → data.Holds size →
      (size = 0 ∨ i * vol.blocksize + a + size ≤ count * vol.blocksize) →
      ∃ s', volumeWriteLoop vol fuel i a data size s = .ok () s' ∧
        view s' = (view s).splice (i * vol.blocksize + a) (data.bytes size) := by
  intro fuel
  induction fuel with
  | zero =>
      intro i a size data s hfuel _ hold _
      obtain rfl : size = 0 := by omega
      have hnil : data.bytes 0 = [] := List.eq_nil_of_length_eq_zero
        (Buffer.length_bytes hold)
      exact ⟨s, by simp [volumeWriteLoop], by rw [hnil, Bytes.splice_nil]⟩
  | succ fuel ih =>
      intro i a size data s hfuel ha hold hin
      by_cases hsize : size = 0
      · subst hsize
        have hnil : data.bytes 0 = [] := List.eq_nil_of_length_eq_zero
          (Buffer.length_bytes hold)
        exact ⟨s, by simp [volumeWriteLoop], by rw [hnil, Bytes.splice_nil]⟩
      have hin' := hin.resolve_left hsize
      have hbs := hv.blocksize_pos
      simp only [volumeWriteLoop, hsize, ↓reduceIte, Call.bind_apply]
      generalize hn : (if vol.blocksize - a > size then size else vol.blocksize - a) = n
      have hnPos : 0 < n := by subst hn; split <;> omega
      have hnSize : n ≤ size := by subst hn; split <;> omega
      have hnBlk : a + n ≤ vol.blocksize := by subst hn; split <;> omega
      have hnEnd : n = size ∨ a + n = vol.blocksize := by subst hn; split <;> omega
      have hi : i < count := index_lt (by omega) hin'
      obtain ⟨s₁, hs₁, hview₁⟩ := writeChunk_eq hv s hi hnBlk (hold.mono hnSize)
      rw [hs₁, Outcome.bind_ok]
      have hlen₁ : (data.bytes n).length = n :=
        Buffer.length_bytes (hold.mono hnSize)
      have hold₂ : (data.advance n).Holds (size - n) := by
        apply Buffer.Holds.advance
        rwa [Nat.add_sub_cancel' hnSize]
      have hbytes := Buffer.bytes_append_advance data n (size - n)
      rw [Nat.add_sub_cancel' hnSize] at hbytes
      by_cases hlast : size - n = 0
      · obtain ⟨s₂, hs₂, hview₂⟩ := ih (u64 (i + 1)) 0 (size - n) (data.advance n) s₁
          (by omega) hbs hold₂ (Or.inl hlast)
        refine ⟨s₂, hs₂, ?_⟩
        rw [hview₂, hview₁, ← hbytes, hlast]
        have hnil : (data.advance n).bytes 0 = [] :=
          List.eq_nil_of_length_eq_zero (Buffer.length_bytes (hlast ▸ hold₂))
        rw [hnil, Bytes.splice_nil, List.append_nil]
      have hnext := (next_le hnEnd hnSize hin').resolve_left hlast
      have hi' : i + 1 < count := index_lt (by omega) hnext
      obtain ⟨s₂, hs₂, hview₂⟩ := ih (i + 1) 0 (size - n) (data.advance n) s₁
        (by omega) hbs hold₂ (Or.inr hnext)
      rw [u64_of_lt (by omega)]
      refine ⟨s₂, hs₂, ?_⟩
      have haddr : (i + 1) * vol.blocksize + 0 =
          i * vol.blocksize + a + (data.bytes n).length := by
        rw [Nat.add_mul, hlen₁]; omega
      rw [hview₂, hview₁, haddr, Bytes.splice_splice_append, hbytes]

/-- On a block store `volume_write` splices its data in, whole-block, partial and
all-zero chunks alike. -/
theorem volumeWrite_eq (hv : BlockStore vol count view) (hcount : count ≤ 2 ^ 64)
    {offset size : Nat} {data : Buffer} (s : σ) (hold : data.Holds size)
    (hin : offset + size ≤ count * vol.blocksize) :
    ∃ s', volumeWrite vol offset data size s = .ok () s' ∧
      view s' = (view s).splice offset (data.bytes size) := by
  have hdm := Nat.div_add_mod offset vol.blocksize
  have haddr : offset / vol.blocksize * vol.blocksize + offset % vol.blocksize =
      offset := by rw [Nat.mul_comm]; exact hdm
  have h := volumeWriteLoop_eq hv hcount size (offset / vol.blocksize)
    (offset % vol.blocksize) size data s (Nat.le_refl _)
    (Nat.mod_lt _ hv.blocksize_pos) hold (by right; omega)
  rwa [haddr] at h

end BlockStore

/-! ## Refusal behind the end -/

section Refuses

variable {vol : Volume σ} {count : Nat}

theorem writeChunk_ok (hr : RefusesOutside vol count) {i a n : Nat} {data : Buffer}
    {s s' : σ} (h : writeChunk vol i a data n s = .ok () s') : i < count := by
  by_contra hout
  have hi : count ≤ i := Nat.le_of_not_lt hout
  unfold writeChunk at h
  split at h
  · split at h
    · rw [hr.discardBlocks s i 1 (by omega)] at h
      cases h
    · rw [hr.writeBlock s i data hi] at h
      cases h
  · rw [hr.writePartialBlock s i data a n hi] at h
    cases h

theorem volumeWriteLoop_ok (hr : RefusesOutside vol count) (hbs : 0 < vol.blocksize) :
    ∀ (fuel i a size : Nat) (data : Buffer) (s s' : σ), 0 < size → a < vol.blocksize →
      i * vol.blocksize + a + size ≤ 2 ^ 64 →
      volumeWriteLoop vol fuel i a data size s = .ok () s' →
      i * vol.blocksize + a + size ≤ count * vol.blocksize := by
  intro fuel
  induction fuel with
  | zero =>
      intro i a size data s s' hsize _ _ h
      rw [volumeWriteLoop, if_neg (by omega)] at h
      cases h
  | succ fuel ih =>
      intro i a size data s s' hsize ha h64 h
      rw [volumeWriteLoop, if_neg (by omega)] at h
      generalize hn : (if vol.blocksize - a > size then size else vol.blocksize - a) = n
        at h
      have hnSize : n ≤ size := by subst hn; split <;> omega
      have hnBlk : a + n ≤ vol.blocksize := by subst hn; split <;> omega
      have hnEnd : n = size ∨ a + n = vol.blocksize := by subst hn; split <;> omega
      change Outcome.bind _ _ = _ at h
      obtain ⟨_, t, hres, h⟩ := Outcome.of_bind_eq_ok h
      have hnext : (i + 1) * vol.blocksize = i * vol.blocksize + vol.blocksize := by
        rw [Nat.add_mul, Nat.one_mul]
      have hin : (i + 1) * vol.blocksize ≤ count * vol.blocksize :=
        Nat.mul_le_mul_right _ (writeChunk_ok hr hres)
      by_cases hlast : size - n = 0
      · omega
      · have hi : i + 1 ≤ (i + 1) * vol.blocksize := Nat.le_mul_of_pos_right _ hbs
        rw [u64_of_lt (by omega)] at h
        have hrest := ih _ _ _ _ _ _ (by omega) hbs (by omega) h
        omega

/-- A volume that refuses what leaves it is written only where all of it fits. -/
theorem volumeWrite_ok (hr : RefusesOutside vol count) (hbs : 0 < vol.blocksize)
    {offset size : Nat} {data : Buffer} {s s' : σ} (hsize : 0 < size)
    (h64 : offset + size ≤ 2 ^ 64) (h : volumeWrite vol offset data size s = .ok () s') :
    offset + size ≤ count * vol.blocksize := by
  have hdm := Nat.div_add_mod offset vol.blocksize
  have haddr : offset / vol.blocksize * vol.blocksize + offset % vol.blocksize =
      offset := by rw [Nat.mul_comm]; exact hdm
  have hloop := volumeWriteLoop_ok hr hbs _ _ _ _ _ _ _ hsize
    (Nat.mod_lt _ hbs) (by rw [haddr]; exact h64) h
  rwa [haddr] at hloop

end Refuses

theorem volumeWriteLoop_zero (vol : Volume σ) (fuel i a : Nat) (data : Buffer) (s : σ) :
    volumeWriteLoop vol fuel i a data 0 s = .ok () s := by
  cases fuel <;> rfl

/-! ## Byte access to an array of blocks -/

section Ideal

variable {blocksize count offset size : Nat}

/-- `volume_read` returns the bytes of a range inside the volume, and `volume_write` puts
the data there, or zeros for `NULL`, and changes no other byte; the test for zero blocks
has the same answer at every address. -/
theorem volumeAccess_flat (hbs : 0 < blocksize) (hcount : count ≤ 2 ^ 64)
    (hin : offset + size ≤ count * blocksize) (w : Bytes) :
    volumeRead (idealVolume blocksize count) offset size w = .ok (w.slice offset size) w ∧
    (∀ data : Buffer, data.Holds size →
      ∃ w', volumeWrite (idealVolume blocksize count) offset data size w = .ok () w' ∧
        w'.slice offset size = data.bytes size ∧
        ∀ p, p < offset ∨ offset + size ≤ p → w' p = w p) ∧
    ∀ addr blob, isMemoryZero addr blob = blob.all (· == 0) := by
  have hstore : BlockStore (idealVolume blocksize count) count id :=
    idealVolume_blockStore hbs
  refine ⟨volumeRead_eq hstore hcount w hin, ?_, isMemoryZero_eq⟩
  intro data hold
  obtain ⟨w', hok, hview⟩ := volumeWrite_eq hstore hcount w hold hin
  have hsplice : w' = w.splice offset (data.bytes size) := hview
  have hlen := Buffer.length_bytes hold
  refine ⟨w', hok, ?_, ?_⟩
  · have hself := Bytes.slice_splice_self w offset (data.bytes size)
    rw [hlen] at hself
    rw [hsplice, hself]
  · intro p hp
    rw [hsplice]
    rcases hp with hp | hp
    · exact Bytes.splice_apply_of_lt hp
    · exact Bytes.splice_apply_of_ge (by omega)

/-- Five bytes from the middle of a block of four on. -/
theorem volumeAccess_flat_five :
    volumeRead (idealVolume 4 2) 2 5 (fun _ => 7) = .ok [7, 7, 7, 7, 7] (fun _ => 7) ∧
    ∃ w', volumeWrite (idealVolume 4 2) 2 (some [1, 2, 0, 0, 0]) 5 (fun _ => 7) = .ok () w' ∧
      w'.slice 2 5 = [1, 2, 0, 0, 0] ∧ ∀ p, p < 2 ∨ 2 + 5 ≤ p → w' p = 7 :=
  have h := volumeAccess_flat (show 0 < 4 by decide) (show 2 ≤ 2 ^ 64 by decide)
    (show 2 + 5 ≤ 2 * 4 by decide) fun _ => 7
  ⟨h.1, h.2.1 (some [1, 2, 0, 0, 0]) (by simp)⟩

end Ideal

end ImageTool.Image
