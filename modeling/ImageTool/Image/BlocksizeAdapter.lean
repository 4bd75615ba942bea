import ImageTool.Image.Memmove
import ImageTool.Image.Access
import ImageTool.Image.BlockOp

/-!
# The block size adapter

A volume of blocks of `blocksize` bytes laid out from byte `offset` of a wrapped
volume on.  The state is that of the wrapped volume.

On a wrapped block store every operation whose blocks lie below the adapter's
maximum acts on the window of the wrapped contents, so the adapter is a block
store again (`Adapter.blockStore`).  `moveBlock` is the one operation that hands
its block numbers to the wrapped volume unchecked.
-/

namespace ImageTool.Image

open ImageTool.Lib

variable {σ : Type}

/-- `adapter_t`. -/
structure Adapter (σ : Type) where
  wrapped : Volume σ
  blocksize : Nat
  offset : Nat

namespace Adapter

/-- `conv_blk_count`. -/
def convBlkCount (ad : Adapter σ) (count : Nat) : Nat :=
  let count := sat64 (count * ad.wrapped.blocksize)
  if count < ad.offset then 0 else (count - ad.offset) / ad.blocksize

def getMinBlockCount (ad : Adapter σ) (s : σ) : Nat :=
  ad.convBlkCount (ad.wrapped.getMinBlockCount s)

def getMaxBlockCount (ad : Adapter σ) (s : σ) : Nat :=
  ad.convBlkCount (ad.wrapped.getMaxBlockCount s)

def getBlockCount (ad : Adapter σ) (s : σ) : Nat :=
  ad.convBlkCount (ad.wrapped.getBlockCount s)

/-- `adapter_truncate`. -/
def truncate (ad : Adapter σ) (size : Nat) : Call σ Unit := fun s =>
  let count := blockCount size ad.blocksize
  if count ≤ ad.getMinBlockCount s then .ok () s
  else
    let size := sat64 (count * ad.wrapped.blocksize)
    ad.wrapped.truncate (sat64 (size + ad.offset)) s

/-- `check_bounds`. -/
def checkBounds (ad : Adapter σ) (index blkOffset size : Nat) : Call σ Unit :=
  fun s =>
    if index ≥ ad.getMaxBlockCount s ∨ blkOffset > ad.blocksize ∨
        size > ad.blocksize - blkOffset then .fail s
    else .ok () s

def readPartialBlock (ad : Adapter σ) (index blkOffset size : Nat) :
    Call σ (List UInt8) := do
  ad.checkBounds index blkOffset size
  volumeRead ad.wrapped (u64 (ad.offset + index * ad.blocksize + blkOffset)) size

def readBlock (ad : Adapter σ) (index : Nat) : Call σ (List UInt8) :=
  ad.readPartialBlock index 0 ad.blocksize

def writePartialBlock (ad : Adapter σ) (index : Nat) (buffer : Buffer)
    (blkOffset size : Nat) : Call σ Unit := do
  ad.checkBounds index blkOffset size
  volumeWrite ad.wrapped (u64 (ad.offset + index * ad.blocksize + blkOffset))
    buffer size

/-- `discard_blocks`: what lies behind the last block is cut off silently. -/
def discardBlocks (ad : Adapter σ) (index count : Nat) : Call σ Unit := fun s =>
  let max := ad.getMaxBlockCount s
  if index ≥ max then .ok () s
  else
    let count := if count > max - index then max - index else count
    volumeWrite ad.wrapped (u64 (ad.offset + index * ad.blocksize)) none
      (u64 (count * ad.blocksize)) s

def writeBlock (ad : Adapter σ) (index : Nat) (buffer : Buffer) : Call σ Unit :=
  ad.writePartialBlock index buffer 0 ad.blocksize

/-- `move_block`: no bounds are checked here. -/
def moveBlock (ad : Adapter σ) (src dst : Nat) : Call σ Unit :=
  volumeMemmove ad.wrapped (u64 (ad.offset + dst * ad.blocksize))
    (u64 (ad.offset + src * ad.blocksize)) ad.blocksize

/-- `move_block_partial`, through the scratch buffer.  The `size_t` arguments are
handed on as 32-bit values. -/
def moveBlockPartial (ad : Adapter σ) (src dst srcOffset dstOffset size : Nat) :
    Call σ Unit := do
  let scratch ← ad.readPartialBlock src (u32 srcOffset) (u32 size)
  ad.writePartialBlock dst (some scratch) (u32 dstOffset) (u32 size)

/-- The method table set up by `volume_blocksize_adapter_create`. -/
def volume (ad : Adapter σ) : Volume σ where
  blocksize := ad.blocksize
  getMinBlockCount := ad.getMinBlockCount
  getMaxBlockCount := ad.getMaxBlockCount
  getBlockCount := ad.getBlockCount
  truncate := ad.truncate
  readBlock := ad.readBlock
  readPartialBlock := ad.readPartialBlock
  writeBlock := ad.writeBlock
  writePartialBlock := ad.writePartialBlock
  moveBlock := ad.moveBlock
  moveBlockPartial := ad.moveBlockPartial
  discardBlocks := ad.discardBlocks
  commit := ad.wrapped.commit

@[simp] theorem volume_blocksize (ad : Adapter σ) :
    ad.volume.blocksize = ad.blocksize := rfl

/-! ## The window -/

/-- Converting block counts keeps their order. -/
theorem convBlkCount_mono (ad : Adapter σ) {a b : Nat} (h : a ≤ b) :
    ad.convBlkCount a ≤ ad.convBlkCount b := by
  have hle : sat64 (a * ad.wrapped.blocksize) ≤ sat64 (b * ad.wrapped.blocksize) :=
    sat64_mono (Nat.mul_le_mul_right _ h)
  unfold convBlkCount
  dsimp only
  by_cases ha : sat64 (a * ad.wrapped.blocksize) < ad.offset
  · rw [if_pos ha]
    exact Nat.zero_le _
  · rw [if_neg ha, if_neg (by omega)]
    exact Nat.div_le_div_right (by omega)

/-- The blocks of the adapter fit into the wrapped volume, and every byte of
theirs has a 64-bit address. -/
theorem window_le (ad : Adapter σ) (count : Nat) (hpos : 0 < ad.convBlkCount count) :
    ad.offset + ad.convBlkCount count * ad.blocksize ≤
        count * ad.wrapped.blocksize ∧
      ad.offset + ad.convBlkCount count * ad.blocksize < 2 ^ 64 := by
  have hle := sat64_le (count * ad.wrapped.blocksize)
  have hlt := sat64_lt (count * ad.wrapped.blocksize)
  unfold convBlkCount at *
  dsimp only at *
  split at hpos
  · omega
  · rename_i hge
    rw [if_neg hge]
    have := Nat.div_mul_le_self
      (sat64 (count * ad.wrapped.blocksize) - ad.offset) ad.blocksize
    omega

/-- The last byte of a range within a block lies inside the window. -/
private theorem block_le {i a n max bs : Nat} (hi : i < max) (ha : a + n ≤ bs) :
    i * bs + a + n ≤ max * bs := by
  calc i * bs + a + n ≤ i * bs + bs := by omega
    _ = (i + 1) * bs := by rw [Nat.add_mul, Nat.one_mul]
    _ ≤ max * bs := Nat.mul_le_mul_right _ hi

section BlockStore

variable {ad : Adapter σ} {count : Nat} {view : σ → Bytes}

theorem getMaxBlockCount_eq (hv : BlockStore ad.wrapped count view) (s : σ) :
    ad.getMaxBlockCount s = ad.convBlkCount count := by
  rw [getMaxBlockCount, hv.maxBlockCount]

theorem checkBounds_ok (hv : BlockStore ad.wrapped count view) (s : σ)
    {i a n : Nat} (hi : i < ad.convBlkCount count) (ha : a + n ≤ ad.blocksize) :
    ad.checkBounds i a n s = .ok () s := by
  unfold checkBounds
  rw [getMaxBlockCount_eq hv, if_neg (by omega)]

theorem checkBounds_fail (hv : BlockStore ad.wrapped count view) (s : σ)
    {i a n : Nat} (hi : ad.convBlkCount count ≤ i) :
    ad.checkBounds i a n s = .fail s := by
  unfold checkBounds
  rw [getMaxBlockCount_eq hv, if_pos (Or.inl hi)]

theorem readPartialBlock_eq (hv : BlockStore ad.wrapped count view)
    (hcount : count < 2 ^ 64) (s : σ) {i a n : Nat}
    (hi : i < ad.convBlkCount count) (ha : a + n ≤ ad.blocksize) :
    ad.readPartialBlock i a n s =
      .ok ((view s).slice (ad.offset + (i * ad.blocksize + a)) n) s := by
  obtain ⟨hwin, hwin64⟩ := ad.window_le count (by omega)
  have hend := block_le hi ha
  unfold readPartialBlock
  rw [Call.bind_apply, checkBounds_ok hv s hi ha, Outcome.bind_ok,
    u64_of_lt (by omega), volumeRead_eq hv (by omega) s (by omega), Nat.add_assoc]

theorem writePartialBlock_eq (hv : BlockStore ad.wrapped count view)
    (hcount : count < 2 ^ 64) (s : σ) {i a n : Nat} {b : Buffer}
    (hi : i < ad.convBlkCount count) (ha : a + n ≤ ad.blocksize) (hb : b.Holds n) :
    ∃ s', ad.writePartialBlock i b a n s = .ok () s' ∧
      view s' =
        (view s).splice (ad.offset + (i * ad.blocksize + a)) (b.bytes n) := by
  obtain ⟨hwin, hwin64⟩ := ad.window_le count (by omega)
  have hend := block_le hi ha
  unfold writePartialBlock
  rw [Call.bind_apply, checkBounds_ok hv s hi ha, Outcome.bind_ok,
    u64_of_lt (by omega), Nat.add_assoc]
  exact volumeWrite_eq hv (by omega) s hb (by omega)

theorem moveBlock_eq (hv : BlockStore ad.wrapped count view) (s : σ) {i j : Nat}
    (hi : i < ad.convBlkCount count) (hj : j < ad.convBlkCount count) :
    ∃ s', ad.moveBlock i j s = .ok () s' ∧
      view s' = (view s).move (ad.offset + j * ad.blocksize)
        (ad.offset + i * ad.blocksize) ad.blocksize := by
  obtain ⟨hwin, hwin64⟩ := ad.window_le count (by omega)
  have hsrc := block_le (n := ad.blocksize) hi (Nat.zero_add ad.blocksize).le
  have hdst := block_le (n := ad.blocksize) hj (Nat.zero_add ad.blocksize).le
  by_cases hbs : ad.blocksize = 0
  · refine ⟨s, ?_, by rw [hbs, Bytes.move_zero]⟩
    unfold moveBlock volumeMemmove
    rw [if_pos (Or.inr hbs), Call.pure_apply]
  · unfold moveBlock
    rw [u64_of_lt (by omega), u64_of_lt (by omega)]
    exact volumeMemmove_eq hv s (by omega) (by omega) (by omega) (by omega)

theorem moveBlockPartial_eq (hv : BlockStore ad.wrapped count view)
    (hcount : count < 2 ^ 64) (hbs : ad.blocksize < 2 ^ 32) (s : σ)
    {i j a b n : Nat} (hi : i < ad.convBlkCount count)
    (hj : j < ad.convBlkCount count) (ha : a + n ≤ ad.blocksize)
    (hb : b + n ≤ ad.blocksize) :
    ∃ s', ad.moveBlockPartial i j a b n s = .ok () s' ∧
      view s' = (view s).move (ad.offset + (j * ad.blocksize + b))
        (ad.offset + (i * ad.blocksize + a)) n := by
  unfold moveBlockPartial
  rw [u32_of_lt (by omega), u32_of_lt (by omega), u32_of_lt (by omega),
    Call.bind_apply, readPartialBlock_eq hv hcount s hi ha, Outcome.bind_ok]
  obtain ⟨s', hs', hview⟩ := writePartialBlock_eq hv hcount s hj hb
    (b := some ((view s).slice (ad.offset + (i * ad.blocksize + a)) n)) (by simp)
  refine ⟨s', hs', ?_⟩
  rw [hview, Bytes.move_eq_splice, Buffer.bytes, List.take_of_length_le (by simp)]

/-- The number of blocks a discard really clears. -/
def discardCount (ad : Adapter σ) (count i n : Nat) : Nat :=
  if n > ad.convBlkCount count - i then ad.convBlkCount count - i else n

theorem discardBlocks_eq (hv : BlockStore ad.wrapped count view)
    (hcount : count < 2 ^ 64) (s : σ) {i n : Nat} :
    ∃ s', ad.discardBlocks i n s = .ok () s' ∧
      view s' = (view s).clear (ad.offset + i * ad.blocksize)
        (ad.discardCount count i n * ad.blocksize) := by
  unfold discardBlocks discardCount
  dsimp only
  rw [getMaxBlockCount_eq hv]
  by_cases hi : i ≥ ad.convBlkCount count
  · refine ⟨s, if_pos hi, ?_⟩
    have hzero : (if n > ad.convBlkCount count - i then ad.convBlkCount count - i
        else n) = 0 := by split <;> omega
    rw [hzero, Nat.zero_mul, Bytes.clear_zero]
  · obtain ⟨hwin, hwin64⟩ := ad.window_le count (by omega)
    generalize hm : (if n > ad.convBlkCount count - i then ad.convBlkCount count - i
        else n) = m
    have hmle : i + m ≤ ad.convBlkCount count := by subst hm; split <;> omega
    have hend : i * ad.blocksize + m * ad.blocksize ≤
        ad.convBlkCount count * ad.blocksize := by
      rw [← Nat.add_mul]; exact Nat.mul_le_mul_right _ hmle
    rw [if_neg hi, u64_of_lt (by omega), u64_of_lt (by omega), Bytes.clear_eq_splice]
    exact volumeWrite_eq hv (by omega) s (Buffer.holds_none _) (by omega)

/-- Over a block store the adapter is a block store on its window. -/
theorem blockStore (hv : BlockStore ad.wrapped count view) (hcount : count < 2 ^ 64)
    (hbs : 0 < ad.blocksize) (hbs32 : ad.blocksize < 2 ^ 32) :
    BlockStore ad.volume (ad.convBlkCount count)
      (fun s => (view s).window ad.offset) where
  blocksize_pos := hbs
  maxBlockCount s := getMaxBlockCount_eq hv s
  readBlock s i hi := by
    have h := readPartialBlock_eq hv hcount s hi (Nat.zero_add ad.blocksize).le
    rw [Bytes.slice_window]
    exact h
  readPartialBlock s i off n hi hn := by
    rw [Bytes.slice_window]
    exact readPartialBlock_eq hv hcount s hi hn
  writeBlock s i b hi hb := by
    obtain ⟨s', hs', hview⟩ := writePartialBlock_eq hv hcount s hi
      (Nat.zero_add ad.blocksize).le hb
    exact ⟨s', hs', by rw [hview, Bytes.window_splice]; rfl⟩
  writePartialBlock s i b off n hi hn hb := by
    obtain ⟨s', hs', hview⟩ := writePartialBlock_eq hv hcount s hi hn hb
    exact ⟨s', hs', by rw [hview, Bytes.window_splice]; rfl⟩
  moveBlock s i j hi hj := by
    obtain ⟨s', hs', hview⟩ := moveBlock_eq hv s hi hj
    exact ⟨s', hs', by rw [hview, Bytes.window_move]; rfl⟩
  moveBlockPartial s i j a b n hi hj ha hb := by
    obtain ⟨s', hs', hview⟩ := moveBlockPartial_eq hv hcount hbs32 s hi hj ha hb
    exact ⟨s', hs', by rw [hview, Bytes.window_move]; rfl⟩
  discardBlocks s i n h := by
    obtain ⟨s', hs', hview⟩ := discardBlocks_eq hv hcount s (i := i) (n := n)
    have hn : ad.discardCount count i n = n := by
      unfold discardCount
      split <;> omega
    exact ⟨s', hs', by rw [hview, hn, Bytes.window_clear]; rfl⟩
  commit s := by
    obtain ⟨s', hs', hview⟩ := hv.commit s
    exact ⟨s', hs', by rw [hview]⟩

end BlockStore

/-! ## Sequences of operations -/

section Window

/-- An ideal array of `max` blocks of `blocksize` bytes stored at byte `offset`
of a flat store.  The array refuses operations that leave it; only discards are
cut off at its end instead. -/
def windowStep (blocksize max offset : Nat) (op : BlockOp) :
    Call Bytes (List UInt8) :=
  Call.zoom (Bytes.window · offset) (Bytes.embed · offset)
    ((op.clip max).run (idealVolume blocksize max))

/-- `move_block` names only blocks of the adapter. -/
def MoveInRange (max : Nat) : BlockOp → Prop
  | .move i j => i < max ∧ j < max
  | _ => True

variable {wbs count : Nat} {ad : Adapter Bytes}

/-- One operation of the adapter is that operation of the array in the window. -/
theorem run_eq_windowStep (hw : ad.wrapped = idealVolume wbs count) (hwbs : 0 < wbs)
    (hcount : count < 2 ^ 64) (hbs32 : ad.blocksize < 2 ^ 32)
    (op : BlockOp) (hfits : op.Fits ad.blocksize)
    (hmove : MoveInRange (ad.convBlkCount count) op) (s : Bytes) :
    op.run ad.volume s =
      windowStep ad.blocksize (ad.convBlkCount count) ad.offset op s := by
  have hv : BlockStore ad.wrapped count id := hw ▸ idealVolume_blockStore hwbs
  simp only [windowStep, Call.zoom_apply]
  cases op with
  | read i =>
      by_cases hi : i < ad.convBlkCount count
      · have hread := readPartialBlock_eq hv hcount s hi (Nat.zero_add ad.blocksize).le
        simpa [BlockOp.run, BlockOp.clip, volume, readBlock, hi, Bytes.slice_window]
          using hread
      · simp [BlockOp.run, BlockOp.clip, volume, readBlock, readPartialBlock, hi,
          checkBounds_fail hv s (Nat.le_of_not_lt hi)]
  | readPartial i off n =>
      have hn : off + n ≤ ad.blocksize := hfits
      by_cases hi : i < ad.convBlkCount count
      · have hread := readPartialBlock_eq hv hcount s hi hn
        simpa [BlockOp.run, BlockOp.clip, volume, hi, hn, Bytes.slice_window]
          using hread
      · simp [BlockOp.run, BlockOp.clip, volume, readPartialBlock, hi,
          checkBounds_fail hv s (Nat.le_of_not_lt hi)]
  | write i b =>
      by_cases hi : i < ad.convBlkCount count
      · obtain ⟨s', hs', hview⟩ := writePartialBlock_eq hv hcount s hi
          (Nat.zero_add ad.blocksize).le hfits
        simp only [id_eq, Nat.add_zero] at hview
        simp [BlockOp.run, BlockOp.clip, volume, writeBlock, hi, hs', hview,
          Bytes.embed_splice]
      · simp [BlockOp.run, BlockOp.clip, volume, writeBlock, writePartialBlock, hi,
          checkBounds_fail hv s (Nat.le_of_not_lt hi)]
  | writePartial i b off n =>
      obtain ⟨hn, hb⟩ := hfits
      by_cases hi : i < ad.convBlkCount count
      · obtain ⟨s', hs', hview⟩ := writePartialBlock_eq hv hcount s hi hn hb
        simp only [id_eq] at hview
        simp [BlockOp.run, BlockOp.clip, volume, hi, hn, hs', hview,
          Bytes.embed_splice]
      · simp [BlockOp.run, BlockOp.clip, volume, writePartialBlock, hi,
          checkBounds_fail hv s (Nat.le_of_not_lt hi)]
  | move i j =>
      obtain ⟨hi, hj⟩ := hmove
      obtain ⟨s', hs', hview⟩ := moveBlock_eq hv s hi hj
      simp only [id_eq] at hview
      simp [BlockOp.run, BlockOp.clip, volume, hi, hj, hs', hview, Bytes.embed_move]
  | movePartial i j a b n =>
      obtain ⟨ha, hb⟩ := hfits
      by_cases hi : i < ad.convBlkCount count
      · by_cases hj : j < ad.convBlkCount count
        · obtain ⟨s', hs', hview⟩ := moveBlockPartial_eq hv hcount hbs32 s hi hj ha hb
          simp only [id_eq] at hview
          simp [BlockOp.run, BlockOp.clip, volume, hi, hj, ha, hb, hs', hview,
            Bytes.embed_move]
        · have hread := readPartialBlock_eq hv hcount s hi ha
          simp [BlockOp.run, BlockOp.clip, volume, moveBlockPartial, writePartialBlock,
            u32_of_lt (show a < 2 ^ 32 by omega), u32_of_lt (show n < 2 ^ 32 by omega),
            hj, hread, checkBounds_fail hv s (Nat.le_of_not_lt hj)]
      · simp [BlockOp.run, BlockOp.clip, volume, moveBlockPartial, readPartialBlock, hi,
          checkBounds_fail hv s (Nat.le_of_not_lt hi)]
  | discard i n =>
      obtain ⟨s', hs', hview⟩ := discardBlocks_eq hv hcount s (i := i) (n := n)
      have hclip : min i (ad.convBlkCount count) +
          min n (ad.convBlkCount count - i) ≤ ad.convBlkCount count := by omega
      have hcnt : ad.discardCount count i n = min n (ad.convBlkCount count - i) := by
        unfold discardCount; split <;> omega
      have hzero : Bytes.clear s (ad.offset + i * ad.blocksize)
          (min n (ad.convBlkCount count - i) * ad.blocksize) =
          Bytes.clear s (ad.offset + min i (ad.convBlkCount count) * ad.blocksize)
          (min n (ad.convBlkCount count - i) * ad.blocksize) := by
        by_cases hi : i ≤ ad.convBlkCount count
        · rw [Nat.min_eq_left hi]
        · rw [show min n (ad.convBlkCount count - i) = 0 by omega]
          simp
      simp only [id_eq] at hview
      simp [BlockOp.run, BlockOp.clip, volume, hclip, hs', hview, hcnt, hzero,
        Bytes.embed_clear]
  | commit =>
      simp [BlockOp.run, BlockOp.clip, volume, hw]

/-- The array in the window changes only bytes of the blocks an operation targets. -/
theorem windowStep_frame {bs max o : Nat} (hbs : 0 < bs) {op : BlockOp}
    (hfits : op.Fits bs) {s t : Bytes}
    (hrun : (windowStep bs max o op s).state? = some t) {p : Nat}
    (hp : ∀ b < max, op.Targets b → ¬ (o ≤ p ∧ BlockOp.InBlock bs b (p - o))) :
    t p = s p := by
  simp only [windowStep, Call.zoom_apply] at hrun
  have hframe : ∀ w', ((op.clip max).run (idealVolume bs max) (s.window o)).state? =
      some w' → o ≤ p → w' (p - o) = s.window o (p - o) := by
    intro w' hw' hop
    apply BlockOp.run_idealVolume_frame hbs (BlockOp.fits_clip hfits) hw'
    intro b hb htarget hin
    exact hp b hb (BlockOp.targets_clip htarget) ⟨hop, hin⟩
  have hembed : ∀ w', (o ≤ p → w' (p - o) = s.window o (p - o)) →
      s.embed o w' p = s p := by
    intro w' hw'
    by_cases hlt : p < o
    · exact if_pos hlt
    · rw [Bytes.embed, if_neg hlt, hw' (by omega), Bytes.window]
      congr 1
      omega
  cases hres : (op.clip max).run (idealVolume bs max) (s.window o) with
  | ok a w' =>
      rw [hres] at hrun hframe
      cases hrun
      exact hembed w' (hframe w' rfl)
  | fail w' =>
      rw [hres] at hrun hframe
      cases hrun
      exact hembed w' (hframe w' rfl)
  | stuck => rw [hres] at hrun; cases hrun

/-- The array in the window refuses what leaves it. -/
theorem windowStep_outside {bs max o : Nat} {op : BlockOp} (hop : ¬ op.IsDiscard)
    (h : ¬ op.InRange max) (s : Bytes) : windowStep bs max o op s = .fail s := by
  rw [windowStep, Call.zoom_apply, BlockOp.clip_of_not_isDiscard hop,
    BlockOp.run_idealVolume_outside h, Outcome.mapState_fail, Bytes.embed_window]

/-- Any sequence of operations whose block moves name blocks of the adapter acts
as on the array in the window: the same results and the same bytes, nothing
changed outside the blocks the operations target, and a failure without effect
for every operation that leaves the array. -/
theorem runAll_eq_window (hw : ad.wrapped = idealVolume wbs count) (hwbs : 0 < wbs)
    (hcount : count < 2 ^ 64) (hbs : 0 < ad.blocksize) (hbs32 : ad.blocksize < 2 ^ 32)
    (ops : List BlockOp) (hfits : ∀ op ∈ ops, op.Fits ad.blocksize)
    (hmove : ∀ op ∈ ops, MoveInRange (ad.convBlkCount count) op) (s : Bytes) :
    runAll (BlockOp.run ad.volume) ops s =
        runAll (windowStep ad.blocksize (ad.convBlkCount count) ad.offset) ops s ∧
      (∀ t, (runAll (BlockOp.run ad.volume) ops s).2 = some t →
        ∀ p, (∀ op ∈ ops, ∀ b < ad.convBlkCount count, op.Targets b →
          ¬ (ad.offset ≤ p ∧ BlockOp.InBlock ad.blocksize b (p - ad.offset))) →
        t p = s p) ∧
      ∀ op ∈ ops, ¬ op.IsDiscard → ¬ op.InRange (ad.convBlkCount count) →
        ∀ t, op.run ad.volume t = .fail t := by
  have hstep : ∀ op ∈ ops, ∀ t, op.run ad.volume t =
      windowStep ad.blocksize (ad.convBlkCount count) ad.offset op t := by
    intro op hop t
    exact run_eq_windowStep hw hwbs hcount hbs32 op (hfits op hop) (hmove op hop) t
  refine ⟨runAll_congr ops hstep s, ?_, ?_⟩
  · intro t hrun p hp
    have htrans : ∀ a b c : Bytes, b p = a p → c p = b p → c p = a p :=
      fun _ _ _ hab hbc => hbc.trans hab
    refine runAll_rel (R := fun a b => b p = a p) (fun _ => rfl) htrans ops ?_ s t hrun
    intro op hop a b hab
    rw [hstep op hop] at hab
    exact windowStep_frame hbs (hfits op hop) hab (hp op hop)
  · intro op hop hdisc hout t
    rw [hstep op hop]
    exact windowStep_outside hdisc hout t

/-- Four blocks of three bytes, from the third byte on of a volume of four blocks of four bytes. -/
def fourOfThree : Adapter Bytes := ⟨idealVolume 4 4, 3, 2⟩

/-- Operations of every kind; the last read and the partial write behind it leave the array. -/
def mixedOps : List BlockOp :=
  [.write 1 (some [1, 2, 3]), .writePartial 2 (some [9]) 1 1, .move 1 3, .movePartial 3 0 0 1 2,
    .readPartial 0 1 2, .discard 1 2, .move 0 2, .read 2, .read 3, .write 3 none, .commit,
    .read 4, .writePartial 5 (some [7]) 0 1]

theorem runAll_eq_window_fourOfThree :
    runAll (BlockOp.run fourOfThree.volume) mixedOps (fun _ => 0) =
      runAll (windowStep 3 4 2) mixedOps (fun _ => 0) ∧
    (runAll (windowStep 3 4 2) mixedOps (fun _ => 0)).1 =
      [some [], some [], some [], some [], some [1, 2], some [], some [], some [0, 1, 2],
        some [1, 2, 3], some [], some [], none, none] := by
  have hfits : ∀ op ∈ mixedOps, op.Fits fourOfThree.blocksize := by
    simp [mixedOps, BlockOp.Fits, Buffer.Holds, fourOfThree]
  have hmove : ∀ op ∈ mixedOps, MoveInRange (fourOfThree.convBlkCount 4) op := by
    simp [mixedOps, MoveInRange, fourOfThree, convBlkCount, sat64]
  exact ⟨(runAll_eq_window (show fourOfThree.wrapped = idealVolume 4 4 from rfl) (by decide)
    (by decide) (by decide) (by decide) _ hfits hmove fun _ => 0).1, by decide⟩

/-- Three bytes of a four-byte volume, zeroed after its first byte. -/
def threeOfFour : Adapter Bytes := ⟨idealVolume 4 1, 3, 0⟩

def firstByteSet : Bytes := fun p => if p = 0 then 1 else 0

/-- Moving the only block to a block behind the last one is no operation of the
array, but it fails only after it has changed the byte behind the window. -/
theorem move_behind_window :
    threeOfFour.convBlkCount 1 = 1 ∧
      ((BlockOp.move 0 1).run threeOfFour.volume firstByteSet).val? = none ∧
      ((BlockOp.move 0 1).run threeOfFour.volume firstByteSet).state?.map (· 3) =
        some 1 ∧
      firstByteSet 3 = 0 := by
  decide

end Window

end Adapter

end ImageTool.Image
