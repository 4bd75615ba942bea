import ImageTool.Image.BlocksizeAdapter
import ImageTool.Image.StreamRuns
import Mathlib.Data.Nat.ModEq

/-!
# Where the last write ends

A volume that notes where the last write to it ended, to be put under anything that writes to a
volume.  Streams into an adapter over it end where their data does.  Ends are compared up to a
multiple of 512, so that addresses that wrap around do not matter.
-/

namespace ImageTool.Image

open ImageTool.Lib ImageTool.Util ImageTool.Fstream

variable {σ α : Type}

/-- A call that writes nothing. -/
def keepEnd (m : Call σ α) : Call (σ × Nat) α := fun s => (m s.1).mapState fun v => (v, s.2)

/-- A call whose last byte is in front of `last`. -/
def noteEnd (m : Call σ α) (last : Nat) : Call (σ × Nat) α :=
  fun s => (m s.1).mapState fun v => (v, last)

/-- A volume next to the end of the last write to it; discarding blocks fills them with zeros. -/
def recorded (vol : Volume σ) : Volume (σ × Nat) where
  blocksize := vol.blocksize
  getMinBlockCount s := vol.getMinBlockCount s.1
  getMaxBlockCount s := vol.getMaxBlockCount s.1
  getBlockCount s := vol.getBlockCount s.1
  truncate size := keepEnd (vol.truncate size)
  readBlock index := keepEnd (vol.readBlock index)
  readPartialBlock index offset size := keepEnd (vol.readPartialBlock index offset size)
  writeBlock index buffer :=
    noteEnd (vol.writeBlock index buffer) (index * vol.blocksize + vol.blocksize)
  writePartialBlock index buffer offset size :=
    noteEnd (vol.writePartialBlock index buffer offset size)
      (index * vol.blocksize + offset + size)
  moveBlock src dst := noteEnd (vol.moveBlock src dst) (dst * vol.blocksize + vol.blocksize)
  moveBlockPartial src dst srcOffset dstOffset size :=
    noteEnd (vol.moveBlockPartial src dst srcOffset dstOffset size)
      (dst * vol.blocksize + dstOffset + size)
  discardBlocks index count :=
    noteEnd (vol.discardBlocks index count) (index * vol.blocksize + count * vol.blocksize)
  commit := keepEnd vol.commit

theorem u64_modEq (n : Nat) : u64 n ≡ n [MOD 512] := by
  unfold Nat.ModEq u64
  omega

section Recorded

variable {vol : Volume σ} {count : Nat} {view : σ → Bytes}

theorem noteEnd_ok {m : Call σ α} {last : Nat} {a : α} {s s' : σ × Nat}
    (h : noteEnd m last s = .ok a s') : s'.2 = last := by
  obtain ⟨v, -, rfl⟩ := Outcome.of_mapState_eq_ok h
  rfl

/-- Noting the end changes nothing else. -/
theorem recorded_blockStore (hv : BlockStore vol count view) :
    BlockStore (recorded vol) count fun s => view s.1 where
  blocksize_pos := hv.blocksize_pos
  maxBlockCount s := hv.maxBlockCount s.1
  readBlock s i hi := by
    change (vol.readBlock i s.1).mapState _ = _
    rw [hv.readBlock s.1 i hi]
    rfl
  readPartialBlock s i off n hi hn := by
    change (vol.readPartialBlock i off n s.1).mapState _ = _
    rw [hv.readPartialBlock s.1 i off n hi hn]
    rfl
  writeBlock s i b hi hb := by
    obtain ⟨v, hv, hview⟩ := hv.writeBlock s.1 i b hi hb
    exact ⟨(v, _), congrArg (Outcome.mapState _) hv, hview⟩
  writePartialBlock s i b off n hi hn hb := by
    obtain ⟨v, hv, hview⟩ := hv.writePartialBlock s.1 i b off n hi hn hb
    exact ⟨(v, _), congrArg (Outcome.mapState _) hv, hview⟩
  moveBlock s i j hi hj := by
    obtain ⟨v, hv, hview⟩ := hv.moveBlock s.1 i j hi hj
    exact ⟨(v, _), congrArg (Outcome.mapState _) hv, hview⟩
  moveBlockPartial s i j so d n hi hj hs hd := by
    obtain ⟨v, hv, hview⟩ := hv.moveBlockPartial s.1 i j so d n hi hj hs hd
    exact ⟨(v, _), congrArg (Outcome.mapState _) hv, hview⟩
  discardBlocks s i n h := by
    obtain ⟨v, hv, hview⟩ := hv.discardBlocks s.1 i n h
    exact ⟨(v, _), congrArg (Outcome.mapState _) hv, hview⟩
  commit s := by
    obtain ⟨v, hv, hview⟩ := hv.commit s.1
    exact ⟨(v, _), congrArg (Outcome.mapState _) hv, hview⟩

end Recorded

/-! ## Writing in chunks -/

section Chunks

variable {τ : Type} {vol : Volume τ} {last : τ → Nat} {base : Nat} {P : Buffer → Nat → Prop}

/-- Every chunk of a request ends where its data does. -/
def ChunksEnd (vol : Volume τ) (last : τ → Nat) (base : Nat) (P : Buffer → Nat → Prop) : Prop :=
  ∀ i a n data size s s', P data size → 0 < n → n ≤ size →
    writeChunk vol i a data n s = .ok () s' →
    last s' ≡ base + (i * vol.blocksize + a + n) [MOD 512]

/-- If each chunk ends where its data does, so does the whole request. -/
theorem volumeWriteLoop_last (hchunk : ChunksEnd vol last base P)
    (hadvance : ∀ data size n, P data size → n ≤ size → P (data.advance n) (size - n)) :
    ∀ (fuel i a size : Nat) (data : Buffer) (s s' : τ), P data size → 0 < size →
      a < vol.blocksize → volumeWriteLoop vol fuel i a data size s = .ok () s' →
      last s' ≡ base + (i * vol.blocksize + a + size) [MOD 512] := by
  intro fuel
  induction fuel with
  | zero =>
      intro i a size data s s' _ hpos _ h
      rw [volumeWriteLoop, if_neg (Nat.ne_of_gt hpos)] at h
      cases h
  | succ fuel ih =>
      intro i a size data s s' hP hpos ha h
      rw [volumeWriteLoop, if_neg (Nat.ne_of_gt hpos)] at h
      generalize hn : (if vol.blocksize - a > size then size else vol.blocksize - a) = n at h
      have hnPos : 0 < n := by subst hn; split <;> omega
      have hnSize : n ≤ size := by subst hn; split <;> omega
      have hnEnd : n = size ∨ a + n = vol.blocksize := by subst hn; split <;> omega
      change Outcome.bind _ _ = _ at h
      obtain ⟨_, t, hfirst, hrest⟩ := Outcome.of_bind_eq_ok h
      have hend := hchunk i a n data size s t hP hnPos hnSize hfirst
      by_cases hlast : size = n
      · rw [hlast, Nat.sub_self, volumeWriteLoop_zero] at hrest
        cases hrest
        rw [hlast]
        exact hend
      · have hbs : a + n = vol.blocksize := hnEnd.resolve_left (Ne.symm hlast)
        have hnext := ih (u64 (i + 1)) 0 (size - n) (data.advance n) t s'
          (hadvance data size n hP hnSize) (by omega) (by omega) hrest
        have hindex : u64 (i + 1) * vol.blocksize ≡ (i + 1) * vol.blocksize [MOD 512] :=
          (u64_modEq (i + 1)).mul_right _
        have haddr : base + ((i + 1) * vol.blocksize + 0 + (size - n)) =
            base + (i * vol.blocksize + a + size) := by
          rw [Nat.add_mul]
          omega
        have hsame := ((hindex.add_right 0).add_right (size - n)).add_left base
        rw [haddr] at hsame
        exact hnext.trans hsame

theorem volumeWrite_last (hchunk : ChunksEnd vol last base P)
    (hadvance : ∀ data size n, P data size → n ≤ size → P (data.advance n) (size - n))
    (hbs : 0 < vol.blocksize) {offset size : Nat} {data : Buffer} {s s' : τ} (hP : P data size)
    (hpos : 0 < size) (h : volumeWrite vol offset data size s = .ok () s') :
    last s' ≡ base + (offset + size) [MOD 512] := by
  have haddr : offset / vol.blocksize * vol.blocksize + offset % vol.blocksize = offset := by
    rw [Nat.mul_comm]
    exact Nat.div_add_mod offset vol.blocksize
  have hloop := volumeWriteLoop_last hchunk hadvance _ _ _ _ _ _ _ hP hpos (Nat.mod_lt _ hbs) h
  rwa [haddr] at hloop

end Chunks

/-! ## Streams into an adapter -/

section Streams

variable {vol : Volume σ} {ad : Adapter (σ × Nat)} {data : Buffer} {size : Nat}

theorem recorded_chunksEnd (vol : Volume σ) :
    ChunksEnd (recorded vol) Prod.snd 0 fun _ _ => True := by
  intro i a n data size s s' _ _ _ h
  have hend : s'.2 = i * vol.blocksize + a + n := by
    unfold writeChunk at h
    split at h
    · rename_i hwhole
      obtain ⟨rfl, rfl⟩ := hwhole
      split at h
      · rw [noteEnd_ok h, Nat.one_mul]
        rfl
      · exact noteEnd_ok h
    · exact noteEnd_ok h
  rw [hend, Nat.zero_add]
  exact Nat.ModEq.refl _

/-- A write to the volume ends where its data does. -/
theorem recorded_volumeWrite {offset : Nat} {s s' : σ × Nat} (hbs : 0 < vol.blocksize)
    (hpos : 0 < size) (h : volumeWrite (recorded vol) offset data size s = .ok () s') :
    s'.2 ≡ offset + size [MOD 512] := by
  have hlast := volumeWrite_last (recorded_chunksEnd vol) (fun _ _ _ _ _ => trivial) hbs trivial
    hpos h
  rwa [Nat.zero_add] at hlast

/-- No block of zeros is in the data, which would be discarded if there is room for it. -/
def NoZeroBlock (bs : Nat) (data : Buffer) (size : Nat) : Prop :=
  ∀ k, k + bs ≤ size → isNullOrZero (data.advance k) bs = false

theorem NoZeroBlock.advance {bs n : Nat} (h : NoZeroBlock bs data size) (hn : n ≤ size) :
    NoZeroBlock bs (data.advance n) (size - n) := by
  intro k hk
  have hsame : (data.advance n).advance k = data.advance (n + k) := by
    cases data with
    | none => rfl
    | some l =>
        change some ((l.drop n).drop k) = some (l.drop (n + k))
        rw [List.drop_drop]
  rw [hsame]
  exact h (n + k) (by omega)

theorem adapter_chunksEnd (hw : ad.wrapped = recorded vol) (hbs : 0 < vol.blocksize) :
    ChunksEnd ad.volume Prod.snd ad.offset (NoZeroBlock ad.blocksize) := by
  intro i a n data size s s' hdata hpos hn h
  have hpartial : ∀ off, ad.writePartialBlock i data off n s = .ok () s' →
      s'.2 ≡ ad.offset + (i * ad.blocksize + off + n) [MOD 512] := by
    intro off hwrite
    obtain ⟨_, t, hbounds, hvolume⟩ := Outcome.of_bind_eq_ok hwrite
    rw [hw] at hvolume
    have hend := recorded_volumeWrite hbs hpos hvolume
    have hoffset := (u64_modEq (ad.offset + i * ad.blocksize + off)).add_right n
    have hsum : ad.offset + i * ad.blocksize + off + n =
        ad.offset + (i * ad.blocksize + off + n) := by
      omega
    rw [hsum] at hoffset
    exact hend.trans hoffset
  unfold writeChunk at h
  split at h
  · rename_i hwhole
    obtain ⟨rfl, rfl⟩ := hwhole
    have hzero : isNullOrZero data ad.blocksize = false := by
      have hfirst := hdata 0 (by rw [Nat.zero_add]; exact hn)
      cases data with
      | none => exact hfirst
      | some l => exact hfirst
    split at h
    · rename_i hnull
      rw [Adapter.volume_blocksize, hzero] at hnull
      cases hnull
    · exact hpartial 0 h
  · exact hpartial a h

/-- What is appended to a stream ends behind what has been written to it before. -/
theorem volOstreamAppend_last (hw : ad.wrapped = recorded vol) (hbs : 0 < vol.blocksize)
    (had : 0 < ad.blocksize) {offset maxSize : Nat} {bytes : List UInt8}
    {w w' : VolOstream (σ × Nat)} (hpos : 0 < bytes.length)
    (hdata : NoZeroBlock ad.blocksize (some bytes) bytes.length)
    (h : volOstreamAppend ad.volume offset maxSize bytes w = .ok () w') :
    w'.wrapped.2 ≡ ad.offset + (offset + w.written + bytes.length) [MOD 512] := by
  unfold volOstreamAppend at h
  rw [if_neg (Nat.ne_of_gt hpos)] at h
  split at h
  · cases h
  · obtain ⟨_, t, hwrite, hcount⟩ := Outcome.of_bind_eq_ok h
    obtain ⟨v, hv, rfl⟩ := Outcome.of_mapState_eq_ok hwrite
    cases hcount
    have hlast := volumeWrite_last (adapter_chunksEnd hw hbs)
      (fun _ _ _ hP hn => hP.advance hn) had hdata hpos hv
    have hoffset := ((u64_modEq (offset + w.written)).add_right bytes.length).add_left ad.offset
    exact hlast.trans hoffset

end Streams

end ImageTool.Image
