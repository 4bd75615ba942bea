import ImageTool.Image.BlockOp
import ImageTool.Lib.OsFile

/-!
# Volumes in files of a tree

`fstree_file_volume_create` makes a block device out of one file of a tree.  The module
speaks about the file only through `FileCalls`, and takes for granted that the calls act
on one byte string (`ActAs`).  Under that assumption the device is an array of
`max_block_count` blocks, as long as the two limits do not contradict each other
(`fileVolumeLaw_iff`).
-/

namespace ImageTool.Fstree

open ImageTool.Lib ImageTool.Image

/-! ## The file behind the volume -/

/-- The size of a file and the calls on it: `fstree_file_read`, `fstree_file_write` and
`fstree_file_truncate`. -/
structure FileCalls (σ : Type) where
  size : σ → Nat
  read (offset size : Nat) : Call σ (List UInt8)
  write (offset : Nat) (data : Buffer) (size : Nat) : Call σ Unit
  truncate (size : Nat) : Call σ Unit

/-- Within 64-bit addresses the calls read from, splice into and cut or extend one byte
string. -/
structure FileCalls.ActAs {σ : Type} (file : FileCalls σ) (view : σ → OsFile) : Prop where
  size_eq : ∀ s, file.size s = (view s).size
  read_eq : ∀ s off n, off + n < 2 ^ 64 →
    file.read off n s = .ok ((view s).data.slice off n) s
  write_eq : ∀ s off (b : Buffer) n, off + n < 2 ^ 64 → b.Holds n →
    ∃ s', file.write off b n s = .ok () s' ∧ view s' = (view s).pwrite off (b.bytes n)
  truncate_eq : ∀ s n, n < 2 ^ 64 →
    ∃ s', file.truncate n s = .ok () s' ∧ view s' = (view s).ftruncate n

/-- A byte string by itself. -/
def byteFile : FileCalls OsFile where
  size f := f.size
  read off n f := .ok (f.data.slice off n) f
  write off b n f := .ok () (f.pwrite off (b.bytes n))
  truncate n f := .ok () (f.ftruncate n)

theorem byteFile_actAs : byteFile.ActAs id where
  size_eq _ := rfl
  read_eq _ _ _ _ := rfl
  write_eq _ _ _ _ _ _ := ⟨_, rfl, rfl⟩
  truncate_eq _ _ _ := ⟨_, rfl, rfl⟩

/-! ## The operations -/

/-- `file_volume_t` of a tree, less the tree and the node. -/
structure FsVolume where
  blocksize : Nat
  minBlockCount : Nat
  maxBlockCount : Nat

namespace FsVolume

section Operations

variable {σ : Type} (file : FileCalls σ) (v : FsVolume)

/-- `check_bounds`. -/
def checkBounds (index blkOffset size : Nat) : Call σ Unit :=
  if index ≥ v.maxBlockCount ∨ blkOffset > v.blocksize ∨ size > v.blocksize - blkOffset then
    Call.fail
  else pure ()

/-- `fsvol_read_partial_block`. -/
def readPartialBlock (index offset size : Nat) : Call σ (List UInt8) := do
  v.checkBounds index offset size
  file.read (u64 (index * v.blocksize + offset)) size

/-- `fsvol_write_partial_block`. -/
def writePartialBlock (index : Nat) (buffer : Buffer) (offset size : Nat) :
    Call σ Unit := do
  v.checkBounds index offset size
  file.write (u64 (index * v.blocksize + offset)) buffer size

/-- `fsvol_read_block`. -/
def readBlock (index : Nat) : Call σ (List UInt8) :=
  v.readPartialBlock file index 0 v.blocksize

/-- `fsvol_write_block`. -/
def writeBlock (index : Nat) (buffer : Buffer) : Call σ Unit :=
  v.writePartialBlock file index buffer 0 v.blocksize

/-- `get_block_count`. -/
def getBlockCount (s : σ) : Nat := blockCount (file.size s) v.blocksize

/-- `fsvol_discard_blocks`. -/
def discardBlocks (index count : Nat) : Call σ Unit := do
  let s ← Call.get
  let blkCount := v.getBlockCount file s
  if index ≥ blkCount then pure ()
  else if count < blkCount - index then
    file.write (u64 (index * v.blocksize)) none (u64 (count * v.blocksize))
  else do
    file.truncate (u64 (index * v.blocksize))
    Call.guard (index < v.minBlockCount)
      (file.truncate (u64 (v.minBlockCount * v.blocksize)))

/-- `fsvol_move_block`. -/
def moveBlock (src dst : Nat) : Call σ Unit := do
  let scratch ← v.readBlock file src
  v.writeBlock file dst (some scratch)

/-- `fsvol_move_block_partial`. -/
def moveBlockPartial (src dst srcOffset dstOffset size : Nat) : Call σ Unit := do
  let scratch ← v.readPartialBlock file src (u32 srcOffset) (u32 size)
  v.writePartialBlock file dst (some scratch) (u32 dstOffset) (u32 size)

/-- `fsvol_truncate`. -/
def truncate (size : Nat) : Call σ Unit :=
  let count := blockCount size v.blocksize
  if count ≤ v.minBlockCount then pure ()
  else if count > v.maxBlockCount then Call.fail
  else file.truncate size

/-- The method table set up by `fstree_file_volume_create`. -/
def volume : Volume σ where
  blocksize := v.blocksize
  getMinBlockCount _ := v.minBlockCount
  getMaxBlockCount _ := v.maxBlockCount
  getBlockCount := v.getBlockCount file
  truncate := v.truncate file
  readBlock := v.readBlock file
  readPartialBlock := v.readPartialBlock file
  writeBlock := v.writeBlock file
  writePartialBlock := v.writePartialBlock file
  moveBlock := v.moveBlock file
  moveBlockPartial := v.moveBlockPartial file
  discardBlocks := v.discardBlocks file
  commit := pure ()

/-- The limits `fstree_file_volume_create` derives from the two sizes. -/
def ofSizes (blocksize minSize maxSize : Nat) : FsVolume where
  blocksize := blocksize
  minBlockCount := blockCount minSize blocksize
  maxBlockCount := maxSize / blocksize

/-- `fstree_file_volume_create`. -/
def create (blocksize minSize maxSize : Nat) : Call σ FsVolume := do
  let v := ofSizes blocksize minSize maxSize
  let s ← Call.get
  let blkUsed := blockCount (file.size s) blocksize
  Call.guard (v.minBlockCount > 0 ∧ blkUsed < v.minBlockCount)
    (file.truncate (u64 (v.minBlockCount * blocksize)))
  pure v

end Operations

/-! ## One operation -/

/-- The minimum in bytes, as it is computed, stays within the maximum, and no block can
lie in front of a discarded one and behind that minimum. -/
def Consistent (v : FsVolume) : Prop :=
  u64 (v.minBlockCount * v.blocksize) ≤ v.maxBlockCount * v.blocksize ∧
    (v.minBlockCount ≤ v.maxBlockCount ∨ v.maxBlockCount ≤ 1)

/-- A volume with a block size and a maximum that fit into the machine's words. -/
structure Addressable (v : FsVolume) : Prop where
  blocksize_pos : 0 < v.blocksize
  blocksize_lt : v.blocksize < 2 ^ 32
  bytes_lt : v.maxBlockCount * v.blocksize < 2 ^ 64

/-- A call succeeds, leaves the given contents behind and keeps within the maximum. -/
def Leaves {σ : Type} (v : FsVolume) (view : σ → OsFile) (o : Outcome σ Unit)
    (data : Bytes) : Prop :=
  ∃ s', o = .ok () s' ∧ (view s').data = data ∧
    (view s').size ≤ v.maxBlockCount * v.blocksize

section Laws

variable {σ : Type} {file : FileCalls σ} {view : σ → OsFile} {v : FsVolume} {s : σ}

private theorem block_end_le (v : FsVolume) {i off n : Nat} (hi : i < v.maxBlockCount)
    (hn : off + n ≤ v.blocksize) :
    i * v.blocksize + off + n ≤ v.maxBlockCount * v.blocksize := by
  calc i * v.blocksize + off + n ≤ i * v.blocksize + v.blocksize := by omega
    _ = (i + 1) * v.blocksize := by rw [Nat.add_mul, Nat.one_mul]
    _ ≤ v.maxBlockCount * v.blocksize := Nat.mul_le_mul_right _ hi

private theorem checkBounds_ok {i off n : Nat} (hi : i < v.maxBlockCount)
    (hn : off + n ≤ v.blocksize) : v.checkBounds i off n s = .ok () s := by
  unfold checkBounds
  rw [if_neg (by omega)]
  rfl

theorem readPartialBlock_eq (hfile : file.ActAs view) (hv : v.Addressable) {i off n : Nat}
    (hi : i < v.maxBlockCount) (hn : off + n ≤ v.blocksize) :
    v.readPartialBlock file i off n s =
      .ok ((view s).data.slice (i * v.blocksize + off) n) s := by
  have hend := block_end_le v hi hn
  have hbytes := hv.bytes_lt
  unfold readPartialBlock
  rw [Call.bind_apply, checkBounds_ok hi hn, Outcome.bind_ok, u64_of_lt (by omega),
    hfile.read_eq _ _ _ (by omega)]

theorem writePartialBlock_view (hfile : file.ActAs view) (hv : v.Addressable)
    {i off n : Nat} {b : Buffer} (hi : i < v.maxBlockCount) (hn : off + n ≤ v.blocksize)
    (hb : b.Holds n) :
    ∃ s', v.writePartialBlock file i b off n s = .ok () s' ∧
      view s' = (view s).pwrite (i * v.blocksize + off) (b.bytes n) := by
  have hend := block_end_le v hi hn
  have hbytes := hv.bytes_lt
  obtain ⟨s', hok, hview⟩ := hfile.write_eq s (i * v.blocksize + off) b n (by omega) hb
  refine ⟨s', ?_, hview⟩
  unfold writePartialBlock
  rw [Call.bind_apply, checkBounds_ok hi hn, Outcome.bind_ok, u64_of_lt (by omega), hok]

theorem writePartialBlock_leaves (hfile : file.ActAs view) (hv : v.Addressable)
    (hsize : (view s).size ≤ v.maxBlockCount * v.blocksize) {i off n : Nat} {b : Buffer}
    (hi : i < v.maxBlockCount) (hn : off + n ≤ v.blocksize) (hb : b.Holds n) :
    v.Leaves view (v.writePartialBlock file i b off n s)
      ((view s).data.splice (i * v.blocksize + off) (b.bytes n)) := by
  have hend := block_end_le v hi hn
  obtain ⟨s', hok, hview⟩ := writePartialBlock_view (s := s) hfile hv hi hn hb
  refine ⟨s', hok, by rw [hview, OsFile.pwrite_data], ?_⟩
  rw [hview]
  exact OsFile.pwrite_size_le hsize (by rw [Buffer.length_bytes hb]; exact hend)

theorem moveBlockPartial_leaves (hfile : file.ActAs view) (hv : v.Addressable)
    (hsize : (view s).size ≤ v.maxBlockCount * v.blocksize) {i j a b n : Nat}
    (hi : i < v.maxBlockCount) (hj : j < v.maxBlockCount) (ha : a + n ≤ v.blocksize)
    (hb : b + n ≤ v.blocksize) :
    v.Leaves view (v.moveBlockPartial file i j a b n s)
      ((view s).data.move (j * v.blocksize + b) (i * v.blocksize + a) n) := by
  have hbs := hv.blocksize_lt
  have hlen : ((view s).data.slice (i * v.blocksize + a) n).length = n := by simp
  have hwrite := writePartialBlock_leaves (b := some ((view s).data.slice
    (i * v.blocksize + a) n)) hfile hv hsize hj hb (by simp)
  have htake : Buffer.bytes (some ((view s).data.slice (i * v.blocksize + a) n)) n =
      (view s).data.slice (i * v.blocksize + a) n := by
    rw [Buffer.bytes, List.take_of_length_le (Nat.le_of_eq hlen)]
  unfold moveBlockPartial
  rw [u32_of_lt (by omega), u32_of_lt (by omega), u32_of_lt (by omega), Call.bind_apply,
    readPartialBlock_eq hfile hv hi ha, Outcome.bind_ok, Bytes.move_eq_splice]
  rwa [htake] at hwrite

/-- A move of a whole block is the partial move of all its bytes. -/
theorem moveBlock_leaves (hfile : file.ActAs view) (hv : v.Addressable)
    (hsize : (view s).size ≤ v.maxBlockCount * v.blocksize) {i j : Nat}
    (hi : i < v.maxBlockCount) (hj : j < v.maxBlockCount) :
    v.Leaves view (v.moveBlock file i j s)
      ((view s).data.move (j * v.blocksize) (i * v.blocksize) v.blocksize) := by
  have hmove := moveBlockPartial_leaves hfile hv hsize hi hj (Nat.zero_add _).le
    (Nat.zero_add _).le
  have hbs := hv.blocksize_lt
  unfold moveBlockPartial at hmove
  rw [u32_of_lt (by omega), u32_of_lt (by omega)] at hmove
  exact hmove

/-! ### Discarding -/

/-- The minimum a discard extends the file to again lies behind the discarded block. -/
private theorem Consistent.le_min (hc : v.Consistent) (hv : v.Addressable) {i : Nat}
    (hi : i < v.maxBlockCount) (hmin : i < v.minBlockCount) :
    i * v.blocksize ≤ u64 (v.minBlockCount * v.blocksize) := by
  rcases hc.2 with hle | hone
  · have hbytes := hv.bytes_lt
    have hmul : v.minBlockCount * v.blocksize ≤ v.maxBlockCount * v.blocksize :=
      Nat.mul_le_mul_right _ hle
    rw [u64_of_lt (by omega)]
    exact Nat.mul_le_mul_right _ (Nat.le_of_lt hmin)
  · rw [show i = 0 by omega, Nat.zero_mul]
    exact Nat.zero_le _

/-- Cutting the file at the first discarded block clears the range, where the file ends
inside it. -/
private theorem ftruncate_eq_clear {f : OsFile} {a n : Nat} (h : f.size ≤ a + n) :
    (f.ftruncate a).data = f.data.clear a n := by
  funext p
  rw [OsFile.ftruncate_data, Bytes.clear]
  split
  · rw [if_neg (by omega)]
  · split
    · rfl
    · exact (f.zero_behind p (by omega)).symm

private theorem ftruncate_ftruncate_eq_clear {f : OsFile} {a n m : Nat}
    (h : f.size ≤ a + n) (ham : a ≤ m) :
    ((f.ftruncate a).ftruncate m).data = f.data.clear a n := by
  rw [OsFile.ftruncate_data_of_zero, ftruncate_eq_clear h]
  intro p hp
  exact if_neg (by omega)

/-- A discard does not fall below the minimum. -/
def KeepsMin (v : FsVolume) (f f' : OsFile) : Prop :=
  v.minBlockCount ≤ blockCount f.size v.blocksize →
    v.minBlockCount ≤ blockCount f'.size v.blocksize

theorem discardBlocks_spec (hfile : file.ActAs view) (hv : v.Addressable)
    (hc : v.Consistent) (hsize : (view s).size ≤ v.maxBlockCount * v.blocksize) {i n : Nat}
    (hin : i + n ≤ v.maxBlockCount) :
    ∃ s', v.discardBlocks file i n s = .ok () s' ∧
      (view s').data = (view s).data.clear (i * v.blocksize) (n * v.blocksize) ∧
      (view s').size ≤ v.maxBlockCount * v.blocksize ∧
      v.KeepsMin (view s) (view s') := by
  have hbs := hv.blocksize_pos
  have hbytes := hv.bytes_lt
  have hend : i * v.blocksize + n * v.blocksize ≤ v.maxBlockCount * v.blocksize := by
    rw [← Nat.add_mul]
    exact Nat.mul_le_mul_right _ hin
  have hcount : blockCount (view s).size v.blocksize ≤ v.maxBlockCount :=
    (blockCount_le_iff hbs).2 hsize
  unfold discardBlocks
  rw [Call.bind_apply, Call.get_apply, Outcome.bind_ok]
  simp only [getBlockCount, hfile.size_eq, Call.ite_apply]
  by_cases hbehind : i ≥ blockCount (view s).size v.blocksize
  · -- the file ends in front of the range
    rw [if_pos hbehind]
    refine ⟨s, rfl, ?_, hsize, id⟩
    have hle : (view s).size ≤ i * v.blocksize := (blockCount_le_iff hbs).1 hbehind
    funext p
    rw [Bytes.clear]
    split
    · exact (view s).zero_behind p (by omega)
    · rfl
  rw [if_neg hbehind]
  by_cases hinside : n < blockCount (view s).size v.blocksize - i
  · -- the range ends inside the file
    rw [if_pos hinside, u64_of_lt (by omega), u64_of_lt (by omega)]
    obtain ⟨s', hok, hview⟩ := hfile.write_eq s (i * v.blocksize) none (n * v.blocksize)
      (by omega) (Buffer.holds_none _)
    refine ⟨s', hok, ?_, ?_, fun hmin => ?_⟩
    · rw [hview, OsFile.pwrite_data, Bytes.clear_eq_splice]
      rfl
    · rw [hview]
      exact OsFile.pwrite_size_le hsize (by simpa [Buffer.bytes] using hend)
    · rw [hview]
      exact Nat.le_trans hmin (blockCount_mono hbs (OsFile.le_pwrite_size _ _ _))
  · -- the file ends inside the range and is cut off
    rw [if_neg hinside, u64_of_lt (by omega), Call.bind_apply]
    have hlast : (view s).size ≤ i * v.blocksize + n * v.blocksize := by
      rw [← Nat.add_mul, ← blockCount_le_iff hbs]
      omega
    obtain ⟨s', hok, hview⟩ := hfile.truncate_eq s (i * v.blocksize) (by omega)
    rw [hok, Outcome.bind_ok]
    by_cases hmin : i < v.minBlockCount
    · rw [Call.guard_pos hmin]
      obtain ⟨s'', hok', hview'⟩ := hfile.truncate_eq s'
        (u64 (v.minBlockCount * v.blocksize)) (u64_lt _)
      refine ⟨s'', hok', ?_, ?_, fun hkept => ?_⟩
      · rw [hview', hview]
        exact ftruncate_ftruncate_eq_clear hlast (hc.le_min hv (by omega) hmin)
      · rw [hview']
        exact hc.1
      · have hle : v.minBlockCount * v.blocksize ≤ v.maxBlockCount * v.blocksize :=
          Nat.mul_le_mul_right _ (Nat.le_trans hkept hcount)
        rw [hview', OsFile.ftruncate_size, u64_of_lt (by omega), blockCount_mul hbs]
    · rw [Call.guard_neg hmin]
      refine ⟨s', rfl, ?_, ?_, fun _ => ?_⟩
      · rw [hview, ftruncate_eq_clear hlast]
      · rw [hview, OsFile.ftruncate_size]
        omega
      · rw [hview, OsFile.ftruncate_size, blockCount_mul hbs]
        exact Nat.le_of_not_lt hmin

end Laws

/-! ## Sequences of operations -/

/-- What the volume that `fstree_file_volume_create` makes of a file of zeros is for:
its reads are those of an array of zeros after the same operations, the file stays
within the maximum, and a discard leaves the other bytes and the minimum alone. -/
def FileVolumeLaw {σ : Type} (file : FileCalls σ) (view : σ → OsFile)
    (blocksize minSize maxSize : Nat) (s₀ : σ) : Prop :=
  ∀ v s₁, create file blocksize minSize maxSize s₀ = .ok v s₁ → ∀ ops : List BlockOp,
    (∀ op ∈ ops, op.Fits blocksize ∧ op.InRange v.maxBlockCount) →
    (runAll (BlockOp.run (v.volume file)) ops s₁).1 =
        (runAll (BlockOp.run (idealVolume blocksize v.maxBlockCount)) ops fun _ => 0).1 ∧
      ∀ s, (runAll (BlockOp.run (v.volume file)) ops s₁).2 = some s →
        (view s).size ≤ v.maxBlockCount * blocksize ∧
        ∀ i n s', i + n ≤ v.maxBlockCount → v.discardBlocks file i n s = .ok () s' →
          (∀ p, ¬ (i * blocksize ≤ p ∧ p < (i + n) * blocksize) →
            (view s').data p = (view s).data p) ∧ v.KeepsMin (view s) (view s')

section Runs

variable {σ : Type} {file : FileCalls σ} {view : σ → OsFile} {v : FsVolume}

/-- One operation acts on the bytes of the file as on an ideal array. -/
theorem run_eq_ideal (hfile : file.ActAs view) (hv : v.Addressable) (hc : v.Consistent)
    {s : σ} (hsize : (view s).size ≤ v.maxBlockCount * v.blocksize) {op : BlockOp}
    (hfits : op.Fits v.blocksize) (hin : op.InRange v.maxBlockCount) :
    ∃ a s', op.run (v.volume file) s = .ok a s' ∧
      op.run (idealVolume v.blocksize v.maxBlockCount) (view s).data =
        .ok a (view s').data ∧
      (view s').size ≤ v.maxBlockCount * v.blocksize := by
  have hunit : ∀ {m : Call σ Unit} {m' : Call Bytes Unit} {data : Bytes},
      v.Leaves view (m s) data → m' (view s).data = .ok () data →
      ∃ a s', (do m; pure [] : Call σ (List UInt8)) s = .ok a s' ∧
        (do m'; pure [] : Call Bytes (List UInt8)) (view s).data = .ok a (view s').data ∧
        (view s').size ≤ v.maxBlockCount * v.blocksize := by
    intro m m' data hm hm'
    obtain ⟨s', hok, hdata, hsize'⟩ := hm
    refine ⟨[], s', ?_, ?_, hsize'⟩
    · rw [Call.bind_apply, hok]
      rfl
    · rw [Call.bind_apply, hm', hdata]
      rfl
  cases op with
  | read i =>
      exact ⟨_, s, readPartialBlock_eq hfile hv hin (Nat.zero_add _).le, if_pos hin, hsize⟩
  | readPartial i off n =>
      exact ⟨_, s, readPartialBlock_eq hfile hv hin hfits, if_pos ⟨hin, hfits⟩, hsize⟩
  | write i b =>
      exact hunit (writePartialBlock_leaves hfile hv hsize hin (Nat.zero_add _).le hfits)
        (if_pos hin)
  | writePartial i b off n =>
      exact hunit (writePartialBlock_leaves hfile hv hsize hin hfits.1 hfits.2)
        (if_pos ⟨hin, hfits.1⟩)
  | move i j => exact hunit (moveBlock_leaves hfile hv hsize hin.1 hin.2) (if_pos hin)
  | movePartial i j a b n =>
      exact hunit (moveBlockPartial_leaves hfile hv hsize hin.1 hin.2 hfits.1 hfits.2)
        (if_pos ⟨hin.1, hin.2, hfits⟩)
  | discard i n =>
      obtain ⟨s', hok, hdata, hsize', -⟩ := discardBlocks_spec hfile hv hc hsize hin
      exact hunit ⟨s', hok, hdata, hsize'⟩ (if_pos hin)
  | commit => exact ⟨[], s, rfl, rfl, hsize⟩

/-- The file a volume is created over is extended to the minimum, if it has fewer
blocks. -/
theorem create_eq (hfile : file.ActAs view) (bs minSize maxSize : Nat) (s₀ : σ) :
    ∃ s₁, create file bs minSize maxSize s₀ = .ok (ofSizes bs minSize maxSize) s₁ ∧
      view s₁ =
        if (ofSizes bs minSize maxSize).minBlockCount > 0 ∧
            blockCount (view s₀).size bs < (ofSizes bs minSize maxSize).minBlockCount then
          (view s₀).ftruncate (u64 ((ofSizes bs minSize maxSize).minBlockCount * bs))
        else view s₀ := by
  unfold create
  generalize ofSizes bs minSize maxSize = v
  simp only [Call.bind_apply, Call.get_apply, Outcome.bind_ok, hfile.size_eq]
  by_cases hshort : v.minBlockCount > 0 ∧ blockCount (view s₀).size bs < v.minBlockCount
  · obtain ⟨s₁, hok, hview⟩ := hfile.truncate_eq s₀ (u64 (v.minBlockCount * bs)) (u64_lt _)
    refine ⟨s₁, ?_, by rw [hview, if_pos hshort]⟩
    rw [Call.guard_pos hshort, hok]
    rfl
  · refine ⟨s₀, ?_, by rw [if_neg hshort]⟩
    rw [Call.guard_neg hshort]
    rfl

theorem ofSizes_addressable {bs maxSize : Nat} (hbs : 0 < bs) (hbs' : bs < 2 ^ 32)
    (hmax : maxSize < 2 ^ 64) (minSize : Nat) :
    (ofSizes bs minSize maxSize).Addressable := by
  have hle := Nat.div_mul_le_self maxSize bs
  exact ⟨hbs, hbs', by show maxSize / bs * bs < 2 ^ 64; omega⟩

/-- A file of zeros stays one when the volume is created. -/
private theorem ftruncate_zero {f : OsFile} (h : ∀ p, f.data p = 0) (n p : Nat) :
    (f.ftruncate n).data p = 0 := by
  rw [OsFile.ftruncate_data, h p]
  split
  · rfl
  · rfl

theorem law_of_consistent (hfile : file.ActAs view) {bs minSize maxSize : Nat}
    (hbs : 0 < bs) (hbs' : bs < 2 ^ 32) (hmax : maxSize < 2 ^ 64) {s₀ : σ}
    (hsize : (view s₀).size ≤ maxSize / bs * bs) (hzero : ∀ p, (view s₀).data p = 0)
    (hc : (ofSizes bs minSize maxSize).Consistent) :
    FileVolumeLaw file view bs minSize maxSize s₀ := by
  intro v s₁ hcreate ops hops
  have hv := ofSizes_addressable hbs hbs' hmax minSize
  obtain ⟨s, hok, hview⟩ := create_eq hfile bs minSize maxSize s₀
  rw [hok] at hcreate
  cases hcreate
  have hinit : (view s₁).size ≤ (ofSizes bs minSize maxSize).maxBlockCount * bs ∧
      (view s₁).data = fun _ => 0 := by
    rw [hview]
    split
    · exact ⟨hc.1, funext fun p => ftruncate_zero hzero _ p⟩
    · exact ⟨hsize, funext hzero⟩
  -- the contents of the file and those of the array stay the same
  have hstep : ∀ (t : σ) (w : Bytes) (op : BlockOp),
      ((view t).size ≤ (ofSizes bs minSize maxSize).maxBlockCount * bs ∧
        (view t).data = w) →
      (op.Fits bs ∧ op.InRange (ofSizes bs minSize maxSize).maxBlockCount) →
      ∃ a t' w', op.run ((ofSizes bs minSize maxSize).volume file) t = .ok a t' ∧
        op.run (idealVolume bs (ofSizes bs minSize maxSize).maxBlockCount) w = .ok a w' ∧
        (view t').size ≤ (ofSizes bs minSize maxSize).maxBlockCount * bs ∧
        (view t').data = w' := by
    intro t w op ht hop
    obtain ⟨a, t', hrun, hideal, hsize'⟩ := run_eq_ideal hfile hv hc ht.1 hop.1 hop.2
    exact ⟨a, t', _, hrun, by rw [← ht.2]; exact hideal, hsize', rfl⟩
  obtain ⟨hval, -, t, w, hrun, -, hsize', -⟩ :=
    runAll_simulation hstep ops s₁ _ hinit (Along.of_forall (fun op hop _ => hops op hop) s₁)
  refine ⟨hval, fun u hu => ?_⟩
  rw [hrun] at hu
  cases hu
  refine ⟨hsize', fun i n t' hin hdiscard => ?_⟩
  obtain ⟨t'', hok', hdata, -, hkeeps⟩ := discardBlocks_spec hfile hv hc hsize' hin
  rw [hok'] at hdiscard
  cases hdiscard
  refine ⟨fun p hp => ?_, hkeeps⟩
  rw [hdata, Bytes.clear]
  rw [Nat.add_mul] at hp
  exact if_neg hp

/-! ### Where the limits contradict each other -/

/-- The bytes of the minimum wrap around to less than a block. -/
private theorem wrapped_lt {bs minSize : Nat} (hbs : 0 < bs) (hmin : minSize < 2 ^ 64)
    (hwrap : 2 ^ 64 ≤ blockCount minSize bs * bs) :
    u64 (blockCount minSize bs * bs) < bs := by
  have hround : blockCount minSize bs * bs < minSize + bs := by
    have hlt : ¬ blockCount minSize bs ≤ blockCount minSize bs - 1 := by
      have hpos : 0 < blockCount minSize bs := by
        by_contra hzero
        rw [Nat.eq_zero_of_not_pos hzero] at hwrap
        omega
      omega
    rw [blockCount_le_iff hbs, Nat.sub_mul, Nat.one_mul] at hlt
    omega
  unfold u64
  omega

/-- The two writes that fill the first two blocks. -/
def fillTwo (bs : Nat) : List BlockOp :=
  [.write 0 (some (List.replicate bs 1)), .write 1 (some (List.replicate bs 1))]

private theorem fillTwo_view (hfile : file.ActAs view) (hv : v.Addressable)
    (hmax : 2 ≤ v.maxBlockCount) {s₁ : σ} (hsize : (view s₁).size ≤ v.blocksize) :
    ∃ s, (runAll (BlockOp.run (v.volume file)) (fillTwo v.blocksize) s₁).2 = some s ∧
      (view s).size = 2 * v.blocksize ∧ (view s).data (v.blocksize - 1) = 1 := by
  have hbs := hv.blocksize_pos
  have hfull : Buffer.Holds (some (List.replicate v.blocksize 1)) v.blocksize := by simp
  have hbytes : Buffer.bytes (some (List.replicate v.blocksize 1)) v.blocksize =
      List.replicate v.blocksize 1 := by simp [Buffer.bytes]
  obtain ⟨s, hok, hview⟩ := writePartialBlock_view (s := s₁) hfile hv
    (show 0 < v.maxBlockCount by omega) (Nat.zero_add _).le hfull
  obtain ⟨s', hok', hview'⟩ := writePartialBlock_view (s := s) hfile hv
    (show 1 < v.maxBlockCount by omega) (Nat.zero_add _).le hfull
  rw [hbytes] at hview hview'
  refine ⟨s', ?_, ?_, ?_⟩
  · have hfirst : (v.volume file).writeBlock 0 (some (List.replicate v.blocksize 1)) s₁ =
        .ok () s := hok
    have hsecond : (v.volume file).writeBlock 1 (some (List.replicate v.blocksize 1)) s =
        .ok () s' := hok'
    simp [fillTwo, runAll, BlockOp.run, hfirst, hsecond]
  · rw [hview', OsFile.pwrite_size_of_ne (by simpa using hbs), hview,
      OsFile.pwrite_size_of_ne (by simpa using hbs)]
    simp only [List.length_replicate]
    omega
  · rw [hview', OsFile.pwrite_data, Bytes.splice_apply_of_lt (by omega), hview,
      OsFile.pwrite_data, Bytes.splice_apply_of_mem (by omega) (by simp; omega)]
    have hlt : v.blocksize - 1 < v.blocksize := by omega
    simp [List.getD_eq_getElem?_getD, hlt]

/-- Discarding the second block cuts the first one as well. -/
private theorem discard_second_view (hfile : file.ActAs view) (hv : v.Addressable)
    (hmin : 1 < v.minBlockCount) {s : σ} (hsize : (view s).size = 2 * v.blocksize) :
    ∃ s', v.discardBlocks file 1 1 s = .ok () s' ∧
      view s' = ((view s).ftruncate (u64 (1 * v.blocksize))).ftruncate
        (u64 (v.minBlockCount * v.blocksize)) := by
  have hcount : v.getBlockCount file s = 2 := by
    rw [getBlockCount, hfile.size_eq, hsize, blockCount_mul hv.blocksize_pos]
  obtain ⟨s', hok, hview⟩ := hfile.truncate_eq s (u64 (1 * v.blocksize)) (u64_lt _)
  obtain ⟨s'', hok', hview'⟩ := hfile.truncate_eq s'
    (u64 (v.minBlockCount * v.blocksize)) (u64_lt _)
  refine ⟨s'', ?_, by rw [hview', hview]⟩
  unfold discardBlocks
  simp only [Call.bind_apply, Call.get_apply, Outcome.bind_ok, hcount, Call.ite_apply]
  rw [if_neg (by decide), if_neg (by decide), hok, Outcome.bind_ok, Call.guard_pos hmin, hok']

theorem consistent_of_law (hfile : file.ActAs view) {bs minSize maxSize : Nat}
    (hbs : 0 < bs) (hbs' : bs < 2 ^ 32) (hmin : minSize < 2 ^ 64) (hmax : maxSize < 2 ^ 64)
    {s₀ : σ} (hsize : (view s₀).size ≤ maxSize / bs * bs)
    (hlaw : FileVolumeLaw file view bs minSize maxSize s₀) :
    (ofSizes bs minSize maxSize).Consistent := by
  have hv := ofSizes_addressable hbs hbs' hmax minSize
  have hbytes : maxSize / bs * bs < 2 ^ 64 := hv.bytes_lt
  obtain ⟨s₁, hok, hview⟩ := create_eq hfile bs minSize maxSize s₀
  have hused : blockCount (view s₀).size bs ≤ maxSize / bs := (blockCount_le_iff hbs).2 hsize
  show u64 (blockCount minSize bs * bs) ≤ maxSize / bs * bs ∧
    (blockCount minSize bs ≤ maxSize / bs ∨ maxSize / bs ≤ 1)
  have hview' : maxSize / bs < blockCount minSize bs →
      view s₁ = (view s₀).ftruncate (u64 (blockCount minSize bs * bs)) := by
    intro hgt
    rw [hview]
    exact if_pos ⟨show 0 < blockCount minSize bs by omega,
      show _ < blockCount minSize bs by omega⟩
  have hfirst : u64 (blockCount minSize bs * bs) ≤ maxSize / bs * bs := by
    by_cases hle : blockCount minSize bs ≤ maxSize / bs
    · exact Nat.le_trans (u64_le _) (Nat.mul_le_mul_right _ hle)
    · obtain ⟨-, hstates⟩ := hlaw _ s₁ hok [] (by simp)
      have hshort := (hstates s₁ rfl).1
      rw [hview' (Nat.lt_of_not_le hle)] at hshort
      exact hshort
  refine ⟨hfirst, ?_⟩
  by_contra hnot
  rw [not_or] at hnot
  have hgt : maxSize / bs < blockCount minSize bs := Nat.lt_of_not_le hnot.1
  have hwrap : 2 ^ 64 ≤ blockCount minSize bs * bs := by
    by_contra hlt
    have hmul : (maxSize / bs + 1) * bs ≤ blockCount minSize bs * bs :=
      Nat.mul_le_mul_right _ hgt
    rw [u64_of_lt (by omega)] at hfirst
    rw [Nat.add_mul, Nat.one_mul] at hmul
    omega
  have hsmall := wrapped_lt hbs hmin hwrap
  have htwo : 2 ≤ (ofSizes bs minSize maxSize).maxBlockCount := Nat.lt_of_not_le hnot.2
  have hmin' : 1 < (ofSizes bs minSize maxSize).minBlockCount :=
    Nat.lt_of_le_of_lt (Nat.le_of_lt htwo) hgt
  have hshort : (view s₁).size ≤ bs := by
    rw [hview' hgt]
    exact Nat.le_of_lt hsmall
  obtain ⟨s, hrun, hfull, hone⟩ := fillTwo_view hfile hv htwo hshort
  obtain ⟨s', hdiscard, hcut⟩ := discard_second_view hfile hv hmin' hfull
  obtain ⟨-, hstates⟩ := hlaw _ s₁ hok (fillTwo bs) (by
    intro op hop
    simp only [fillTwo, List.mem_cons, List.not_mem_nil, or_false] at hop
    rcases hop with rfl | rfl
    · exact ⟨by simp [BlockOp.Fits], show 0 < _ by omega⟩
    · exact ⟨by simp [BlockOp.Fits], htwo⟩)
  obtain ⟨-, hdiscards⟩ := hstates s hrun
  have hkept := (hdiscards 1 1 s' htwo hdiscard).1 (bs - 1) (by omega)
  have hcleared : (view s').data (bs - 1) = 0 := by
    rw [hcut, OsFile.ftruncate_data]
    exact if_neg (show ¬ bs - 1 < u64 (blockCount minSize bs * bs) by omega)
  have hone' : (view s).data (bs - 1) = 1 := hone
  rw [hcleared, hone'] at hkept
  exact absurd hkept (by decide)

/-- Over a file of zeros the volume behaves as an array of zeros within its limits exactly
if the limits are consistent: the minimum is not above the maximum, or it wraps around to
at most the maximum of at most one block. -/
theorem fileVolumeLaw_iff (hfile : file.ActAs view) {bs minSize maxSize : Nat}
    (hbs : 0 < bs) (hbs' : bs < 2 ^ 32) (hmin : minSize < 2 ^ 64) (hmax : maxSize < 2 ^ 64)
    {s₀ : σ} (hsize : (view s₀).size ≤ maxSize / bs * bs)
    (hzero : ∀ p, (view s₀).data p = 0) :
    FileVolumeLaw file view bs minSize maxSize s₀ ↔
      (ofSizes bs minSize maxSize).Consistent :=
  ⟨consistent_of_law hfile hbs hbs' hmin hmax hsize,
    law_of_consistent hfile hbs hbs' hmax hsize hzero⟩

end Runs

theorem fileVolumeLaw_two_blocks :
    FileVolumeLaw byteFile id 4 5 8 OsFile.empty := by
  have hconsistent : (ofSizes 4 5 8).Consistent := ⟨by decide, Or.inl (by decide)⟩
  exact (fileVolumeLaw_iff byteFile_actAs (by decide) (by decide) (by decide) (by decide)
    (by decide) (fun _ => rfl)).2 hconsistent

/-- With both sizes 5 and blocks of 4 bytes the minimum is rounded up to two blocks and
the maximum down to one: the file starts out longer than the maximum. -/
theorem create_beyond_maximum :
    ((create byteFile 4 5 5 OsFile.empty).state?.map OsFile.size) = some 8 ∧
      (ofSizes 4 5 5).maxBlockCount * 4 = 4 ∧
      ¬ FileVolumeLaw byteFile id 4 5 5 OsFile.empty := by
  refine ⟨by decide, by decide, fun hlaw => ?_⟩
  obtain ⟨-, hstates⟩ := hlaw _ _ rfl [] (by simp)
  have hsize : 8 ≤ 4 := (hstates _ rfl).1
  omega

end FsVolume

end ImageTool.Fstree
