import ImageTool.Image.BlockOp
import ImageTool.Util.Bitmap
import ImageTool.Util.Retry

/-!
# The file volume

A volume in a regular file.  Three things are kept in step: the file itself, a
bitmap of the blocks that may hold data, and `bytesUsed`, the size the file is
cut to on commit.  Reads and discards look at the bitmap first.

`FileVolume.Sound` is the invariant: what the bitmap does not mark, and what lies
behind `bytesUsed`, is zero in the file.  Under it the contents of the volume are
the bytes of the file, whatever its size.
-/

namespace ImageTool.Image

open ImageTool.Lib ImageTool.Util

/-- What the system the program was built for offers: hole punching, and
`copy_file_range`, which copies some of the bytes that the source range has
(`none` for an error). -/
structure Host where
  hasFallocate : Bool
  copyFileRange (file : OsFile) (offIn offOut size : Nat) : Option Nat
  copy_le : ∀ f i o n k, copyFileRange f i o n = some k → k ≤ n ∧ k ≤ f.size - i
  copy_pos : ∀ f i o n k, copyFileRange f i o n = some k → 0 < n → i < f.size → 0 < k

/-- `file_volume_t`. -/
structure FileVolume where
  file : OsFile
  bitmap : Bitmap
  bytesUsed : Nat
  minBlockCount : Nat
  maxBlockCount : Nat

namespace FileVolume

/-! ## The operations -/

/-- `check_bounds`. -/
def checkBounds (blocksize index offset size : Nat) : Call FileVolume Unit := fun s =>
  if index ≥ s.maxBlockCount then .fail s
  else if offset > blocksize then .fail s
  else if size > blocksize - offset then .fail s
  else .ok () s

def readRetry (offset size : Nat) : Call FileVolume (List UInt8) := fun s =>
  match Util.readRetry s.file offset size with
  | some data => .ok data s
  | none => .fail s

def writeRetry (offset : Nat) (data : List UInt8) : Call FileVolume Unit :=
  Call.modify fun s => { s with file := Util.writeRetry s.file offset data }

/-- `fvol->bytes_used = max(fvol->bytes_used, last)`. -/
def raiseUsed (last : Nat) : Call FileVolume Unit := Call.modify fun s =>
  { s with bytesUsed := if last > s.bytesUsed then last else s.bytesUsed }

def setBit (index : Nat) : Call FileVolume Unit :=
  Call.modify fun s => { s with bitmap := s.bitmap.set index }

/-- `read_partial_block`.  Where `pos` lies behind `bytes_used` the difference
`avail` wraps around and the read goes to the file unshortened. -/
def readPartialBlock (blocksize index offset size : Nat) :
    Call FileVolume (List UInt8) := do
  checkBounds blocksize index offset size
  if size = 0 then pure [] else
    let s ← Call.get
    if !s.bitmap.isSet index then pure (List.replicate size 0) else
      let pos := u64 (index * blocksize + offset)
      let avail := sub64 s.bytesUsed pos
      let count := if size ≥ avail then avail else size
      let data ← readRetry pos count
      pure (data ++ List.replicate (size - count) 0)

def readBlock (blocksize index : Nat) : Call FileVolume (List UInt8) :=
  readPartialBlock blocksize index 0 blocksize

def writePartialBlock (blocksize index : Nat) (buffer : Buffer) (offset size : Nat) :
    Call FileVolume Unit := do
  checkBounds blocksize index offset size
  setBit index
  raiseUsed (u64 (index * blocksize + offset + size))
  writeRetry (u64 (index * blocksize + offset)) (buffer.bytes size)

/-- `while (count--) bitmap_clear(fvol->bitmap, index++);` -/
def clearBits : Bitmap → Nat → Nat → Bitmap
  | b, _, 0 => b
  | b, index, count + 1 => clearBits (b.clear index) (index + 1) count

/-- The fallback of `discard_blocks`: zeros are written over marked blocks. -/
def writeZeros (blocksize : Nat) : OsFile → Bitmap → Nat → Nat → OsFile × Bitmap
  | f, b, _, 0 => (f, b)
  | f, b, index, count + 1 =>
      if !b.isSet index then writeZeros blocksize f b (index + 1) count
      else
        let f := Util.writeRetry f (u64 (index * blocksize)) (List.replicate blocksize 0)
        writeZeros blocksize f (b.clear index) (index + 1) count

/-- `total_size` of `discard_blocks`: the end of the last marked block. -/
def markedSize (blocksize : Nat) (b : Bitmap) : Nat :=
  let lastIndex := b.msbIndex
  if lastIndex = 0 ∧ b.isSet 0 = false then 0 else u64 ((lastIndex + 1) * blocksize)

/-- The end of `discard_blocks`: `bytes_used` shrinks to the last marked block. -/
def shrinkUsed (blocksize : Nat) (s : FileVolume) : FileVolume :=
  let totalSize := markedSize blocksize s.bitmap
  if totalSize < s.bytesUsed then { s with bytesUsed := totalSize } else s

/-- The file and the bitmap after the middle part of `discard_blocks`: the end of
the volume is cut off, other ranges are punched out or overwritten. -/
def eraseBlocks (host : Host) (blocksize index count : Nat) (s : FileVolume) :
    OsFile × Bitmap :=
  if count = s.maxBlockCount - index then
    (s.file.ftruncate (u64 (index * blocksize)), clearBits s.bitmap index count)
  else if host.hasFallocate then
    (s.file.punchHole (u64 (index * blocksize)) (u64 (count * blocksize)),
      clearBits s.bitmap index count)
  else writeZeros blocksize s.file s.bitmap index count

def discardBlocks (host : Host) (blocksize index count : Nat) : Call FileVolume Unit :=
  fun s =>
    if index ≥ s.maxBlockCount then .ok () s
    else
      let count :=
        if count > s.maxBlockCount - index then s.maxBlockCount - index else count
      if count = 0 then .ok () s
      else
        let erased := eraseBlocks host blocksize index count s
        .ok () (shrinkUsed blocksize { s with file := erased.1, bitmap := erased.2 })

def writeBlock (host : Host) (blocksize index : Nat) (buffer : Buffer) :
    Call FileVolume Unit :=
  match buffer with
  | none => discardBlocks host blocksize index 1
  | some _ => writePartialBlock blocksize index buffer 0 blocksize

/-- The `copy_file_range` loop of `transfer_blocks`: the number of bytes copied,
unless the loop goes on for ever. -/
def copyLoop (host : Host) (offIn offOut size : Nat) :
    Nat → OsFile → Nat → Option (OsFile × Nat)
  | 0, _, _ => none
  | fuel + 1, f, processed =>
      if processed < size then
        match host.copyFileRange f (offIn + processed) (offOut + processed)
            (size - processed) with
        | none => some (f, processed)
        | some ret =>
            copyLoop host offIn offOut size fuel
              (f.pwrite (offOut + processed) (f.pread (offIn + processed) ret))
              (processed + ret)
      else some (f, processed)

/-- `transfer_blocks`.  The loop behind the fast path ends after its first round,
which adds `size` to `processed`. -/
def transferBlocks (host : Host) (blocksize src dst count : Nat) :
    Call FileVolume Unit := fun s =>
  let size := blocksize * count
  let offIn := src * size
  let offOut := dst * size
  match copyLoop host offIn offOut size (size + 1) s.file 0 with
  | none => .stuck
  | some (f, processed) =>
      if processed < size then
        let diff := size - processed
        let diff := if diff > blocksize then blocksize else diff
        (do
          let data ← readRetry (offIn + processed) diff
          writeRetry (offOut + processed) data) { s with file := f }
      else .ok () { s with file := f }

def moveBlock (host : Host) (blocksize src dst : Nat) : Call FileVolume Unit := do
  checkBounds blocksize src 0 blocksize
  checkBounds blocksize dst 0 blocksize
  let s ← Call.get
  let srcSet := s.bitmap.isSet src
  let dstSet := s.bitmap.isSet dst
  if src = dst ∨ (!srcSet && !dstSet) then pure ()
  else if !srcSet then discardBlocks host blocksize dst 1
  else do
    transferBlocks host blocksize src dst 1
    raiseUsed (u64 ((dst + 1) * blocksize))
    setBit dst

/-- `move_block_partial`.  The destination block is not marked. -/
def moveBlockPartial (blocksize src dst srcOffset dstOffset size : Nat) :
    Call FileVolume Unit := do
  checkBounds blocksize src (u32 srcOffset) (u32 size)
  checkBounds blocksize dst (u32 dstOffset) (u32 size)
  let scratch ← readRetry (u64 (src * blocksize + srcOffset)) size
  raiseUsed (u64 (dst * blocksize + dstOffset + size))
  writeRetry (u64 (dst * blocksize + dstOffset)) scratch

def commit : Call FileVolume Unit := Call.modify fun s =>
  { s with file := s.file.ftruncate s.bytesUsed }

def getBlockCount (blocksize : Nat) (s : FileVolume) : Nat :=
  blockCount s.bytesUsed blocksize

/-- `while (idx <= end) bitmap_set(fvol->bitmap, idx++);` -/
def setBits : Bitmap → Nat → Nat → Bitmap
  | b, _, 0 => b
  | b, idx, n + 1 => setBits (b.set idx) (idx + 1) n

/-- `while (end > idx) bitmap_clear(fvol->bitmap, end--);` -/
def clearBitsDown : Bitmap → Nat → Nat → Bitmap
  | b, _, 0 => b
  | b, last, n + 1 => clearBitsDown (b.clear last) (last - 1) n

/-- `file_volume_truncate`. -/
def truncate (blocksize size : Nat) : Call FileVolume Unit := fun s =>
  let count := blockCount size blocksize
  if count > s.maxBlockCount then .fail s
  else if count ≤ s.minBlockCount then .ok () s
  else
    let s := { s with file := s.file.ftruncate size }
    let bitmap :=
      if size > s.bytesUsed then
        let idx := s.bytesUsed / blocksize
        setBits s.bitmap idx (count + 1 - idx)
      else if size < s.bytesUsed then
        let last := blockCount s.bytesUsed blocksize
        clearBitsDown s.bitmap last (last - size / blocksize)
      else s.bitmap
    .ok () { s with bitmap := bitmap, bytesUsed := size }

/-- The properties `minsize` and `maxsize`. -/
inductive Property where
  | minSize
  | maxSize

/-- `set_property`. -/
def setProperty (blocksize : Nat) (prop : Property) (value : Nat) :
    Call FileVolume Unit := Call.modify fun s =>
  match prop with
  | .minSize =>
      let count := blockCount value blocksize
      { s with
        minBlockCount := if count > s.maxBlockCount then s.maxBlockCount else count }
  | .maxSize =>
      let count := value / blocksize
      { s with
        maxBlockCount := if count < s.minBlockCount then s.minBlockCount else count }

/-- `volume_from_fd` for a regular file, whose end is rounded up to a block. -/
def fromFd (blocksize : Nat) (file : OsFile) (maxSize : Nat) : FileVolume :=
  let used := blockCount file.size blocksize
  { file := if file.size % blocksize ≠ 0 then file.ftruncate (used * blocksize) else file
    bitmap := setBits (Bitmap.create used) 0 used
    bytesUsed := used * blocksize
    minBlockCount := 0
    maxBlockCount := blockCount maxSize blocksize }

/-- The method table set up by `volume_from_fd`. -/
def volume (host : Host) (blocksize : Nat) : Volume FileVolume where
  blocksize := blocksize
  getMinBlockCount := minBlockCount
  getMaxBlockCount := maxBlockCount
  getBlockCount := getBlockCount blocksize
  truncate := truncate blocksize
  readBlock := readBlock blocksize
  readPartialBlock := readPartialBlock blocksize
  writeBlock := writeBlock host blocksize
  writePartialBlock := writePartialBlock blocksize
  moveBlock := moveBlock host blocksize
  moveBlockPartial := moveBlockPartial blocksize
  discardBlocks := discardBlocks host blocksize
  commit := commit

/-! ## The invariant -/

/-- What is not marked or lies behind `bytesUsed` is zero, and the volume stays
within its maximum size, which fits into 64 bits. -/
structure Sound (blocksize : Nat) (s : FileVolume) : Prop where
  addressable : s.maxBlockCount * blocksize < 2 ^ 64
  marked_lt : ∀ b, s.bitmap.isSet b = true → b < s.maxBlockCount
  unmarked : ∀ p, s.bitmap.isSet (p / blocksize) = false → s.file.data p = 0
  unused : ∀ p, s.bytesUsed ≤ p → s.file.data p = 0
  size_le : s.file.size ≤ s.maxBlockCount * blocksize
  used_le : s.bytesUsed ≤ s.maxBlockCount * blocksize

/-- An operation succeeds with the given contents, keeps the invariant and leaves
the maximum alone. -/
def Yields (blocksize : Nat) (o : Outcome FileVolume Unit) (s : FileVolume)
    (data : Bytes) : Prop :=
  ∃ s', o = .ok () s' ∧ Sound blocksize s' ∧ s'.maxBlockCount = s.maxBlockCount ∧
    s'.file.data = data

section Laws

variable {bs : Nat} {s : FileVolume} {host : Host}

private theorem mul_add_le {i a n max : Nat} (hi : i < max) (ha : a + n ≤ bs) :
    i * bs + a + n ≤ max * bs := by
  calc i * bs + a + n ≤ i * bs + bs := by omega
    _ = (i + 1) * bs := by rw [Nat.add_mul, Nat.one_mul]
    _ ≤ max * bs := Nat.mul_le_mul_right _ hi

private theorem div_eq_of_mem {i a n p : Nat} (ha : a + n ≤ bs)
    (h : i * bs + a ≤ p) (h' : p < i * bs + a + n) : p / bs = i := by
  rw [Nat.div_eq_iff (by omega)]
  constructor
  · omega
  · omega

theorem checkBounds_ok {i a n : Nat} (hi : i < s.maxBlockCount) (ha : a + n ≤ bs) :
    checkBounds bs i a n s = .ok () s := by
  unfold checkBounds
  rw [if_neg (by omega), if_neg (by omega), if_neg (by omega)]

/-! ### Reading -/

/-- The number of bytes a read at `pos` takes from the file. -/
def taken (s : FileVolume) (pos n : Nat) : Nat :=
  if pos ≤ s.bytesUsed then min n (s.bytesUsed - pos) else n

/-- What a read of `n` bytes from offset `off` of block `i` takes from the file lies
within the file. -/
def CanRead (bs : Nat) (s : FileVolume) (i off n : Nat) : Prop :=
  s.bitmap.isSet i = false ∨ s.taken (i * bs + off) n = 0 ∨
    i * bs + off + s.taken (i * bs + off) n ≤ s.file.size

/-- The bytes of the file behind `bytesUsed` are the zeros a read appends. -/
private theorem slice_append_zeros (hs : Sound bs s) {pos n k : Nat} (hk : k ≤ n)
    (hend : k = n ∨ s.bytesUsed ≤ pos + k) :
    s.file.data.slice pos k ++ List.replicate (n - k) 0 = s.file.data.slice pos n := by
  have hzero : List.replicate (n - k) 0 = s.file.data.slice (pos + k) (n - k) := by
    symm
    rw [List.eq_replicate_iff]
    refine ⟨by simp, ?_⟩
    intro x hx
    rw [Bytes.slice, List.mem_map] at hx
    obtain ⟨i, hi, rfl⟩ := hx
    have hlt := List.mem_range.1 hi
    exact hs.unused _ (by omega)
  rw [hzero, Bytes.slice_append]
  congr 1
  omega

theorem readPartialBlock_eq (hs : Sound bs s) {i off n : Nat}
    (hi : i < s.maxBlockCount) (hn : off + n ≤ bs) (hread : CanRead bs s i off n) :
    readPartialBlock bs i off n s = .ok (s.file.data.slice (i * bs + off) n) s := by
  have hend := mul_add_le hi hn
  have haddr := hs.addressable
  have hused := hs.used_le
  unfold readPartialBlock
  rw [Call.bind_apply, checkBounds_ok hi hn, Outcome.bind_ok]
  by_cases hn0 : n = 0
  · rw [if_pos hn0, hn0]; rfl
  rw [if_neg hn0, Call.bind_apply, Call.get_apply, Outcome.bind_ok]
  cases hset : s.bitmap.isSet i with
  | false =>
      have hzero : List.replicate n 0 = s.file.data.slice (i * bs + off) n := by
        symm
        rw [List.eq_replicate_iff]
        refine ⟨by simp, ?_⟩
        intro x hx
        rw [Bytes.slice, List.mem_map] at hx
        obtain ⟨k, hk, rfl⟩ := hx
        have hlt := List.mem_range.1 hk
        have hblock : (i * bs + off + k) / bs = i :=
          div_eq_of_mem hn (by omega) (by omega)
        exact hs.unmarked _ (by rw [hblock]; exact hset)
      simp only [Bool.not_false, if_true, Call.pure_apply, hzero]
  | true =>
      have hpos : u64 (i * bs + off) = i * bs + off := u64_of_lt (by omega)
      have hcount : (if n ≥ sub64 s.bytesUsed (i * bs + off) then
          sub64 s.bytesUsed (i * bs + off) else n) = s.taken (i * bs + off) n := by
        unfold taken
        by_cases hle : i * bs + off ≤ s.bytesUsed
        · rw [sub64_of_le hle (by omega), if_pos hle]
          split <;> omega
        · rw [sub64_of_lt (by omega) (by omega), if_neg hle, if_neg (by omega)]
      have hk : s.taken (i * bs + off) n ≤ n := by unfold taken; split <;> omega
      have htail : s.taken (i * bs + off) n = n ∨
          s.bytesUsed ≤ i * bs + off + s.taken (i * bs + off) n := by
        unfold taken; split <;> omega
      have hfile : Util.readRetry s.file (i * bs + off) (s.taken (i * bs + off) n) =
          some (s.file.data.slice (i * bs + off) (s.taken (i * bs + off) n)) := by
        rcases hread with h | h | h
        · rw [hset] at h; cases h
        · rw [h]; rfl
        · exact readRetry_eq h
      simp only [Bool.not_true, Bool.false_eq_true, if_false, hpos, hcount,
        Call.bind_apply, readRetry, hfile, Outcome.bind_ok, Call.pure_apply]
      rw [slice_append_zeros hs hk htail]

/-! ### Writing -/

/-- Splicing data into a marked block below `bytesUsed` keeps the invariant. -/
private theorem sound_splice (hs : Sound bs s) {i off last : Nat} {b : Bitmap}
    {data : List UInt8} (hi : i < s.maxBlockCount) (hn : off + data.length ≤ bs)
    (hb : ∀ j, b.isSet j = (decide (i = j) || s.bitmap.isSet j))
    (hlast : i * bs + off + data.length ≤ last) (hlast' : last ≤ s.maxBlockCount * bs)
    (hused : s.bytesUsed ≤ last) :
    Sound bs { s with
      file := Util.writeRetry s.file (i * bs + off) data, bitmap := b,
      bytesUsed := last } where
  addressable := hs.addressable
  marked_lt := by
    intro j hj
    rw [hb, Bool.or_eq_true, decide_eq_true_eq] at hj
    rcases hj with rfl | hj
    · exact hi
    · exact hs.marked_lt j hj
  unmarked := by
    intro p hp
    rw [hb, Bool.or_eq_false_iff, decide_eq_false_iff_not] at hp
    have hout : ¬ (i * bs + off ≤ p ∧ p < i * bs + off + data.length) :=
      fun h => hp.1 (div_eq_of_mem hn h.1 h.2).symm
    rw [writeRetry_data, Bytes.splice, if_neg hout]
    exact hs.unmarked p hp.2
  unused := by
    intro p hp
    have hlp : last ≤ p := hp
    rw [writeRetry_data, Bytes.splice_apply_of_ge (by omega)]
    exact hs.unused p (by omega)
  size_le := writeRetry_size_le hs.size_le (Nat.le_trans hlast hlast')
  used_le := hlast'

private theorem raised_le {last used max : Nat} (h : last ≤ max) (h' : used ≤ max) :
    (if last > used then last else used) ≤ max ∧
      last ≤ (if last > used then last else used) ∧
      used ≤ (if last > used then last else used) := by
  split <;> omega

theorem writePartialBlock_eq (hs : Sound bs s) {i off n : Nat} {buffer : Buffer}
    (hi : i < s.maxBlockCount) (hn : off + n ≤ bs) (hb : buffer.Holds n) :
    Yields bs (writePartialBlock bs i buffer off n s) s
      (s.file.data.splice (i * bs + off) (buffer.bytes n)) := by
  have hend := mul_add_le hi hn
  have haddr := hs.addressable
  have hlen := Buffer.length_bytes hb
  obtain ⟨hmax, hlast, hused⟩ := raised_le hend hs.used_le
  refine ⟨{ s with
    file := Util.writeRetry s.file (i * bs + off) (buffer.bytes n)
    bitmap := s.bitmap.set i
    bytesUsed := if i * bs + off + n > s.bytesUsed then i * bs + off + n
      else s.bytesUsed }, ?_, ?_, rfl, writeRetry_data _ _ _⟩
  · unfold writePartialBlock
    rw [Call.bind_apply, checkBounds_ok hi hn, u64_of_lt (by omega),
      u64_of_lt (by omega)]
    rfl
  · exact sound_splice hs hi (by omega) (Bitmap.isSet_set _ _) (by omega) hmax hused

/-! ### Discarding -/

theorem isSet_clearBits (b : Bitmap) (i n j : Nat) :
    (clearBits b i n).isSet j = (decide (¬ (i ≤ j ∧ j < i + n)) && b.isSet j) := by
  induction n generalizing b i with
  | zero =>
      simp [clearBits]
  | succ n ih =>
      rw [clearBits, ih, Bitmap.isSet_clear]
      by_cases hj : i = j
      · subst hj
        simp
      · have hiff : (i + 1 ≤ j ∧ j < i + 1 + n) ↔ (i ≤ j ∧ j < i + (n + 1)) := by omega
        rw [decide_eq_true hj, Bool.true_and, decide_eq_decide.2 (not_congr hiff)]

/-- What erasing a range of blocks leaves behind. -/
structure Erased (bs : Nat) (s : FileVolume) (i n : Nat) (f : OsFile) (b : Bitmap) :
    Prop where
  data : f.data = s.file.data.clear (i * bs) (n * bs)
  size_le : f.size ≤ s.maxBlockCount * bs
  isSet : ∀ j, b.isSet j = (decide (¬ (i ≤ j ∧ j < i + n)) && s.bitmap.isSet j)

/-- A range of unmarked blocks is zero already. -/
private theorem clear_of_unmarked (hbs : 0 < bs) {f : Bytes} {i n : Nat}
    (h : ∀ p, i ≤ p / bs → p / bs < i + n → f p = 0) :
    f.clear (i * bs) (n * bs) = f := by
  funext p
  simp only [Bytes.clear]
  split
  · rename_i hp
    rw [← Nat.add_mul] at hp
    exact (h p ((Nat.le_div_iff_mul_le hbs).2 hp.1)
      ((Nat.div_lt_iff_lt_mul hbs).2 hp.2)).symm
  · rfl

/-- Overwriting the marked blocks of a range erases it. -/
private theorem writeZeros_spec (hbs : 0 < bs) {max : Nat} (hmax : max * bs < 2 ^ 64) :
    ∀ (n i : Nat) (f : OsFile) (b : Bitmap), i + n ≤ max → f.size ≤ max * bs →
      (∀ p, b.isSet (p / bs) = false → f.data p = 0) →
      (writeZeros bs f b i n).1.data = f.data.clear (i * bs) (n * bs) ∧
        (writeZeros bs f b i n).1.size ≤ max * bs ∧
        ∀ j, (writeZeros bs f b i n).2.isSet j =
          (decide (¬ (i ≤ j ∧ j < i + n)) && b.isSet j) := by
  intro n
  induction n with
  | zero =>
      intro i f b _ hsize _
      refine ⟨by simp [writeZeros], hsize, ?_⟩
      intro j
      simp [writeZeros]
  | succ n ih =>
      intro i f b hin hsize hun
      have hnext : i * bs + bs = (i + 1) * bs := by rw [Nat.add_mul, Nat.one_mul]
      have hle : (i + 1) * bs ≤ max * bs := Nat.mul_le_mul_right _ (by omega)
      have hrest : bs + n * bs = (n + 1) * bs := by
        rw [Nat.add_mul, Nat.one_mul, Nat.add_comm]
      have hiff : ∀ j, i ≠ j →
          ((i + 1 ≤ j ∧ j < i + 1 + n) ↔ (i ≤ j ∧ j < i + (n + 1))) := by
        intro j hj; omega
      unfold writeZeros
      cases hset : b.isSet i with
      | false =>
          obtain ⟨hdata, hsize', hbits⟩ := ih (i + 1) f b (by omega) hsize hun
          simp only [Bool.not_false, if_true]
          refine ⟨?_, hsize', ?_⟩
          · have hone : f.data.clear (i * bs) bs = f.data := by
              have h := clear_of_unmarked hbs (f := f.data) (i := i) (n := 1)
                (fun p h1 h2 => hun p (by rw [show p / bs = i by omega]; exact hset))
              rwa [Nat.one_mul] at h
            rw [hdata, ← hrest, ← Bytes.clear_clear_append, hone, hnext]
          · intro j
            rw [hbits]
            by_cases hj : i = j
            · subst hj
              simp [hset]
            · rw [decide_eq_decide.2 (not_congr (hiff j hj))]
      | true =>
          simp only [Bool.not_true, Bool.false_eq_true, if_false]
          rw [u64_of_lt (by omega)]
          have hfile : (Util.writeRetry f (i * bs) (List.replicate bs 0)).data =
              f.data.clear (i * bs) bs := by
            rw [writeRetry_data, Bytes.clear_eq_splice]
          obtain ⟨hdata, hsize', hbits⟩ := ih (i + 1)
            (Util.writeRetry f (i * bs) (List.replicate bs 0)) (b.clear i) (by omega)
            (writeRetry_size_le hsize (by simp only [List.length_replicate]; omega))
            (by
              intro p hp
              rw [hfile]
              rw [Bitmap.isSet_clear, Bool.and_eq_false_iff, decide_eq_false_iff_not,
                not_not] at hp
              simp only [Bytes.clear]
              split
              · rfl
              · rename_i hout
                rcases hp with hp | hp
                · exfalso
                  apply hout
                  have hlow := Nat.div_mul_le_self p bs
                  have hhigh := Nat.lt_div_mul_add (a := p) hbs
                  rw [← hp] at hlow hhigh
                  exact ⟨hlow, hhigh⟩
                · exact hun p hp)
          refine ⟨?_, hsize', ?_⟩
          · rw [hdata, hfile, ← hnext, Bytes.clear_clear_append, hrest]
          · intro j
            rw [hbits, Bitmap.isSet_clear]
            by_cases hj : i = j
            · subst hj
              simp
            · rw [decide_eq_decide.2 (not_congr (hiff j hj)), decide_eq_true hj,
                Bool.true_and]

theorem eraseBlocks_erased (host : Host) (hs : Sound bs s) (hbs : 0 < bs) {i n : Nat}
    (hin : i + n ≤ s.maxBlockCount) :
    Erased bs s i n (eraseBlocks host bs i n s).1 (eraseBlocks host bs i n s).2 := by
  have haddr := hs.addressable
  have hend : i * bs + n * bs ≤ s.maxBlockCount * bs := by
    rw [← Nat.add_mul]; exact Nat.mul_le_mul_right _ hin
  unfold eraseBlocks
  rw [u64_of_lt (by omega), u64_of_lt (by omega)]
  split
  · rename_i hlast
    refine ⟨?_, ?_, isSet_clearBits _ _ _⟩
    · -- behind the volume there is nothing to cut off
      funext p
      rw [OsFile.ftruncate_data]
      simp only [Bytes.clear]
      by_cases hp : p < i * bs
      · rw [if_pos hp, if_neg (by omega)]
      · by_cases hp' : p < i * bs + n * bs
        · rw [if_neg hp, if_pos (by omega)]
        · rw [if_neg hp, if_neg (by omega)]
          have hmax : s.maxBlockCount * bs ≤ i * bs + n * bs := by
            rw [← Nat.add_mul]; exact Nat.mul_le_mul_right _ (by omega)
          exact (s.file.zero_behind p (by have := hs.size_le; omega)).symm
    · show i * bs ≤ s.maxBlockCount * bs
      omega
  · split
    · exact ⟨rfl, hs.size_le, isSet_clearBits _ _ _⟩
    · obtain ⟨hdata, hsize, hbits⟩ := writeZeros_spec hbs haddr n i s.file s.bitmap hin
        hs.size_le hs.unmarked
      exact ⟨hdata, hsize, hbits⟩

/-- No marked block reaches behind `markedSize`. -/
theorem unmarked_of_markedSize_le (hbs : 0 < bs) {b : Bitmap} {max : Nat}
    (haddr : max * bs < 2 ^ 64) (hmarked : ∀ j, b.isSet j = true → j < max) {p : Nat}
    (hp : markedSize bs b ≤ p) : b.isSet (p / bs) = false := by
  unfold markedSize at hp
  dsimp only at hp
  rcases Bitmap.msbIndex_spec b with ⟨hmem, habove⟩ | ⟨_, hempty⟩
  · have hne : ¬ (b.msbIndex = 0 ∧ b.isSet 0 = false) := by
      rintro ⟨h0, hclear⟩
      rw [h0, hclear] at hmem
      cases hmem
    have hle : (b.msbIndex + 1) * bs ≤ max * bs := Nat.mul_le_mul_right _ (hmarked _ hmem)
    rw [if_neg hne, u64_of_lt (by omega)] at hp
    exact habove _ ((Nat.le_div_iff_mul_le hbs).2 hp)
  · exact hempty _

/-- Lowering `bytesUsed` to the last marked block keeps the invariant. -/
theorem shrinkUsed_sound (hs : Sound bs s) (hbs : 0 < bs) :
    Sound bs (shrinkUsed bs s) := by
  unfold shrinkUsed
  dsimp only
  by_cases hlt : markedSize bs s.bitmap < s.bytesUsed
  · rw [if_pos hlt]
    refine ⟨hs.addressable, hs.marked_lt, hs.unmarked, ?_, hs.size_le,
      Nat.le_trans (Nat.le_of_lt hlt) hs.used_le⟩
    intro p hp
    exact hs.unmarked p (unmarked_of_markedSize_le hbs hs.addressable hs.marked_lt hp)
  · rw [if_neg hlt]
    exact hs

theorem shrinkUsed_maxBlockCount (s : FileVolume) :
    (shrinkUsed bs s).maxBlockCount = s.maxBlockCount := by
  unfold shrinkUsed; dsimp only; split <;> rfl

theorem shrinkUsed_file (s : FileVolume) : (shrinkUsed bs s).file = s.file := by
  unfold shrinkUsed; dsimp only; split <;> rfl

theorem discardBlocks_eq (host : Host) (hs : Sound bs s) (hbs : 0 < bs) {i n : Nat}
    (hin : i + n ≤ s.maxBlockCount) :
    Yields bs (discardBlocks host bs i n s) s
      (s.file.data.clear (i * bs) (n * bs)) := by
  by_cases hn : n = 0
  · refine ⟨s, ?_, hs, rfl, by rw [hn, Nat.zero_mul, Bytes.clear_zero]⟩
    unfold discardBlocks
    split
    · rfl
    · dsimp only
      rw [if_neg (show ¬ n > s.maxBlockCount - i by omega), if_pos hn]
  · have hcount : (if n > s.maxBlockCount - i then s.maxBlockCount - i else n) = n :=
      if_neg (by omega)
    have herased : Erased bs s i n _ _ := eraseBlocks_erased host hs hbs hin
    have hsound : Sound bs { s with
        file := (eraseBlocks host bs i n s).1
        bitmap := (eraseBlocks host bs i n s).2 } := by
      refine ⟨hs.addressable, ?_, ?_, ?_, herased.size_le, hs.used_le⟩
      · intro j hj
        rw [herased.isSet, Bool.and_eq_true] at hj
        exact hs.marked_lt j hj.2
      · intro p hp
        rw [herased.isSet, Bool.and_eq_false_iff, decide_eq_false_iff_not, not_not] at hp
        show (eraseBlocks host bs i n s).1.data p = 0
        rw [herased.data]
        simp only [Bytes.clear]
        split
        · rfl
        · rename_i hout
          rcases hp with hp | hp
          · exfalso
            apply hout
            rw [← Nat.add_mul]
            exact ⟨(Nat.le_div_iff_mul_le hbs).1 hp.1, (Nat.div_lt_iff_lt_mul hbs).1 hp.2⟩
          · exact hs.unmarked p hp
      · intro p hp
        show (eraseBlocks host bs i n s).1.data p = 0
        rw [herased.data]
        simp only [Bytes.clear]
        split
        · rfl
        · exact hs.unused p hp
    refine ⟨_, ?_, shrinkUsed_sound hsound hbs, shrinkUsed_maxBlockCount _, ?_⟩
    · unfold discardBlocks
      rw [if_neg (by omega)]
      dsimp only
      rw [hcount, if_neg hn]
    · rw [shrinkUsed_file]
      exact herased.data

/-! ### Moving -/

/-- The fast path copies a first part of the range. -/
private theorem copyLoop_spec (host : Host) {f₀ : OsFile} {offIn offOut size n : Nat}
    (hin : offIn + size ≤ f₀.size) (hout : offOut + size ≤ n)
    (hdisj : offOut ≤ offIn ∨ offIn + size ≤ offOut) :
    ∀ (fuel : Nat) (f : OsFile) (processed : Nat), processed ≤ size →
      size < processed + fuel → f.data = f₀.data.move offOut offIn processed →
      f₀.size ≤ f.size → f.size ≤ n →
      ∃ f' k, copyLoop host offIn offOut size fuel f processed = some (f', k) ∧
        k ≤ size ∧ f'.data = f₀.data.move offOut offIn k ∧ f₀.size ≤ f'.size ∧
        f'.size ≤ n := by
  intro fuel
  induction fuel with
  | zero => intro f k hk hfuel; omega
  | succ fuel ih =>
      intro f k hk hfuel hdata hlow hhigh
      unfold copyLoop
      by_cases hlt : k < size
      · rw [if_pos hlt]
        cases hret : host.copyFileRange f (offIn + k) (offOut + k) (size - k) with
        | none => exact ⟨f, k, rfl, hk, hdata, hlow, hhigh⟩
        | some ret =>
            obtain ⟨hle, havail⟩ := host.copy_le f _ _ _ ret hret
            have hpos := host.copy_pos f _ _ _ ret hret (by omega) (by omega)
            have hread : f.pread (offIn + k) ret = f.data.slice (offIn + k) ret :=
              OsFile.pread_eq (by omega)
            have hlen : (f.data.slice (offIn + k) ret).length = ret := by simp
            dsimp only
            rw [hread]
            apply ih _ (k + ret) (by omega) (by omega)
            · rw [OsFile.pwrite_data, ← Bytes.move_eq_splice, hdata]
              exact Bytes.move_move_forward (by omega)
            · exact Nat.le_trans hlow (OsFile.le_pwrite_size _ _ _)
            · exact OsFile.pwrite_size_le hhigh (by omega)
      · rw [if_neg hlt]
        exact ⟨f, k, rfl, hk, hdata, hlow, hhigh⟩

/-- A block that the file has in full is copied in full. -/
theorem transferBlocks_eq (host : Host) {i j max : Nat} (hij : i ≠ j)
    (hsrc : (i + 1) * bs ≤ s.file.size) (hdst : (j + 1) * bs ≤ max * bs)
    (hsize : s.file.size ≤ max * bs) :
    ∃ f, transferBlocks host bs i j 1 s = .ok () { s with file := f } ∧
      f.data = s.file.data.move (j * bs) (i * bs) bs ∧ f.size ≤ max * bs := by
  rw [Nat.add_mul, Nat.one_mul] at hsrc hdst
  have hdisj : j * bs ≤ i * bs ∨ i * bs + bs ≤ j * bs := by
    rcases Nat.lt_or_gt_of_ne hij with h | h
    · right
      calc i * bs + bs = (i + 1) * bs := by rw [Nat.add_mul, Nat.one_mul]
        _ ≤ j * bs := Nat.mul_le_mul_right _ h
    · left
      exact Nat.mul_le_mul_right _ (Nat.le_of_lt h)
  obtain ⟨f, k, hcopy, hk, hdata, hlow, hhigh⟩ := copyLoop_spec host hsrc hdst hdisj
    (bs + 1) s.file 0 (Nat.zero_le _) (by omega) (by simp) (Nat.le_refl _) hsize
  unfold transferBlocks
  simp only [Nat.mul_one, hcopy]
  by_cases hlt : k < bs
  · have hread : Util.readRetry f (i * bs + k) (bs - k) =
        some (f.data.slice (i * bs + k) (bs - k)) := readRetry_eq (by omega)
    have hdiff : ¬ bs - k > bs := by omega
    simp only [if_pos hlt, if_neg hdiff, Call.bind_apply, readRetry, hread,
      Outcome.bind_ok, writeRetry, Call.modify_apply]
    refine ⟨_, rfl, ?_, writeRetry_size_le hhigh (by rw [Bytes.length_slice]; omega)⟩
    rw [writeRetry_data, ← Bytes.move_eq_splice, hdata,
      Bytes.move_move_forward (by omega), show k + (bs - k) = bs by omega]
  · rw [if_neg hlt]
    have hkbs : k = bs := by omega
    exact ⟨f, rfl, by rw [hdata, hkbs], hhigh⟩

/-- Moving a range that is zero clears the destination. -/
private theorem move_of_zero {f : Bytes} (dst : Nat) {src n : Nat}
    (h : ∀ k < n, f (src + k) = 0) : f.move dst src n = f.clear dst n := by
  funext p
  simp only [Bytes.move, Bytes.clear]
  split
  · exact h _ (by omega)
  · rfl

private theorem block_zero (hs : Sound bs s) {i : Nat} (h : s.bitmap.isSet i = false) :
    ∀ k < bs, s.file.data (i * bs + k) = 0 := by
  intro k hk
  have hblock : (i * bs + k) / bs = i :=
    div_eq_of_mem (a := 0) (n := bs) (by omega) (by omega) (by omega)
  exact hs.unmarked _ (by rw [hblock]; exact h)

theorem moveBlock_eq (hs : Sound bs s) (hbs : 0 < bs) {i j : Nat}
    (hi : i < s.maxBlockCount) (hj : j < s.maxBlockCount)
    (hsrc : i = j ∨ s.bitmap.isSet i = false ∨ (i + 1) * bs ≤ s.file.size) :
    Yields bs (moveBlock host bs i j s) s
      (s.file.data.move (j * bs) (i * bs) bs) := by
  have haddr := hs.addressable
  have hdst : (j + 1) * bs ≤ s.maxBlockCount * bs := Nat.mul_le_mul_right _ hj
  unfold moveBlock
  rw [Call.bind_apply, checkBounds_ok hi (Nat.zero_add bs).le, Outcome.bind_ok,
    Call.bind_apply, checkBounds_ok hj (Nat.zero_add bs).le, Outcome.bind_ok,
    Call.bind_apply, Call.get_apply, Outcome.bind_ok]
  by_cases hij : i = j
  · rw [if_pos (Or.inl hij)]
    exact ⟨s, rfl, hs, rfl, by rw [hij, Bytes.move_self]⟩
  cases hset : s.bitmap.isSet i with
  | false =>
      have hmove := move_of_zero (j * bs) (block_zero hs hset)
      cases hset' : s.bitmap.isSet j with
      | false =>
          have hcond : i = j ∨ (!false && !false) = true := Or.inr rfl
          rw [if_pos hcond]
          refine ⟨s, rfl, hs, rfl, ?_⟩
          have hclear := clear_of_unmarked hbs (f := s.file.data) (i := j) (n := 1)
            (fun p h1 h2 => hs.unmarked p
              (by rw [show p / bs = j by omega]; exact hset'))
          rw [hmove, ← hclear, Nat.one_mul, Bytes.clear_clear_self]
      | true =>
          have hcond : ¬ (i = j ∨ (!false && !true) = true) := by simp [hij]
          have htrue : (!false) = true := rfl
          rw [if_neg hcond, if_pos htrue]
          have h := discardBlocks_eq host hs hbs (i := j) (n := 1) (by omega)
          rw [Nat.one_mul] at h
          rw [hmove]
          exact h
  | true =>
      have hfile : (i + 1) * bs ≤ s.file.size := by
        rcases hsrc with h | h | h
        · exact absurd h hij
        · rw [hset] at h; cases h
        · exact h
      obtain ⟨f, hcopy, hdata, hsize⟩ := transferBlocks_eq host hij hfile hdst hs.size_le
      obtain ⟨hmax, hlast, hused⟩ := raised_le hdst hs.used_le
      have hcond : ¬ (i = j ∨ (!true && !s.bitmap.isSet j) = true) := by simp [hij]
      rw [if_neg hcond, if_neg (by simp), Call.bind_apply, hcopy, Outcome.bind_ok,
        u64_of_lt (by omega)]
      refine ⟨_, rfl, ?_, rfl, hdata⟩
      have hout : ∀ p, ¬ (j * bs ≤ p ∧ p < j * bs + bs) → f.data p = s.file.data p := by
        intro p hp
        rw [hdata]
        exact if_neg hp
      refine ⟨hs.addressable, ?_, ?_, ?_, hsize, hmax⟩
      · intro b hb
        rw [Bitmap.isSet_set, Bool.or_eq_true, decide_eq_true_eq] at hb
        rcases hb with rfl | hb
        · exact hj
        · exact hs.marked_lt b hb
      · intro p hp
        rw [Bitmap.isSet_set, Bool.or_eq_false_iff, decide_eq_false_iff_not] at hp
        have hne : ¬ (j * bs ≤ p ∧ p < j * bs + bs) := fun h =>
          hp.1 (div_eq_of_mem (a := 0) (n := bs) (by omega) h.1 h.2).symm
        show f.data p = 0
        rw [hout p hne]
        exact hs.unmarked p hp.2
      · intro p hp
        rw [Nat.add_mul, Nat.one_mul] at hlast
        have hp' : (if j * bs + bs > s.bytesUsed then j * bs + bs else s.bytesUsed) ≤ p := by
          rw [Nat.add_mul, Nat.one_mul] at hp; exact hp
        rw [Nat.add_mul, Nat.one_mul] at hused
        show f.data p = 0
        rw [hout p (by omega)]
        exact hs.unused p (by omega)

theorem moveBlockPartial_eq (hs : Sound bs s) (hbs32 : bs < 2 ^ 32) {i j a b n : Nat}
    (hi : i < s.maxBlockCount) (hj : j < s.maxBlockCount) (ha : a + n ≤ bs)
    (hb : b + n ≤ bs)
    (hsrc : n = 0 ∨ (i * bs + a + n ≤ s.file.size ∧ (s.bitmap.isSet j = true ∨
      ∀ k < n, s.file.data (i * bs + a + k) = 0))) :
    Yields bs (moveBlockPartial bs i j a b n s) s
      (s.file.data.move (j * bs + b) (i * bs + a) n) := by
  have haddr := hs.addressable
  have hsrcEnd := mul_add_le hi ha
  have hdstEnd := mul_add_le hj hb
  have hread : Util.readRetry s.file (i * bs + a) n =
      some (s.file.data.slice (i * bs + a) n) := by
    rcases hsrc with h | h
    · rw [h]; rfl
    · exact readRetry_eq h.1
  obtain ⟨hmax, hlast, hused⟩ := raised_le hdstEnd hs.used_le
  have hlen : (s.file.data.slice (i * bs + a) n).length = n := Bytes.length_slice _ _ _
  refine ⟨{ s with
    file := Util.writeRetry s.file (j * bs + b) (s.file.data.slice (i * bs + a) n)
    bytesUsed := if j * bs + b + n > s.bytesUsed then j * bs + b + n
      else s.bytesUsed }, ?_, ?_, rfl, ?_⟩
  · unfold moveBlockPartial
    rw [u32_of_lt (by omega), u32_of_lt (by omega), u32_of_lt (by omega),
      Call.bind_apply, checkBounds_ok hi ha, Outcome.bind_ok, Call.bind_apply,
      checkBounds_ok hj hb, Outcome.bind_ok, u64_of_lt (by omega), u64_of_lt (by omega),
      u64_of_lt (by omega), Call.bind_apply]
    simp only [readRetry, hread, Outcome.bind_ok, Call.bind_apply]
    rfl
  · have hzero : ∀ p, j * bs + b ≤ p → p < j * bs + b + n →
        s.bitmap.isSet j = false → s.file.data (i * bs + a + (p - (j * bs + b))) = 0 := by
      intro p hp hp' hclear
      rcases hsrc with h | ⟨_, h | h⟩
      · omega
      · rw [hclear] at h; cases h
      · exact h _ (by omega)
    refine ⟨hs.addressable, hs.marked_lt, ?_, ?_, ?_, hmax⟩
    · intro p hp
      show (Util.writeRetry s.file _ _).data p = 0
      rw [writeRetry_data, ← Bytes.move_eq_splice]
      simp only [Bytes.move]
      split
      · rename_i hin
        apply hzero p hin.1 hin.2
        have hblock : p / bs = j := div_eq_of_mem hb hin.1 hin.2
        rw [← hblock]
        exact hp
      · exact hs.unmarked p hp
    · intro p hp
      have hp' : (if j * bs + b + n > s.bytesUsed then j * bs + b + n
        else s.bytesUsed) ≤ p := hp
      show (Util.writeRetry s.file _ _).data p = 0
      rw [writeRetry_data, Bytes.splice_apply_of_ge (by omega)]
      exact hs.unused p (by omega)
    · exact writeRetry_size_le hs.size_le (by rw [hlen]; exact hdstEnd)
  · rw [Bytes.move_eq_splice]
    exact writeRetry_data _ _ _

/-! ### Committing -/

theorem commit_eq (hs : Sound bs s) : Yields bs (commit s) s s.file.data := by
  have hdata := OsFile.ftruncate_data_of_zero hs.unused
  refine ⟨_, rfl, ?_, rfl, hdata⟩
  refine ⟨hs.addressable, hs.marked_lt, ?_, ?_, hs.used_le, hs.used_le⟩
  · intro p hp
    show (s.file.ftruncate s.bytesUsed).data p = 0
    rw [hdata]
    exact hs.unmarked p hp
  · intro p hp
    show (s.file.ftruncate s.bytesUsed).data p = 0
    rw [hdata]
    exact hs.unused p hp

end Laws

/-! ## Sequences of operations -/

/-- The bytes an operation takes from the file are there, and a partial move to a
block that is not marked moves zeros only. -/
def Meets (bs : Nat) (s : FileVolume) : BlockOp → Prop
  | .read i => CanRead bs s i 0 bs
  | .readPartial i off n => CanRead bs s i off n
  | .move i j => i = j ∨ s.bitmap.isSet i = false ∨ (i + 1) * bs ≤ s.file.size
  | .movePartial i j a _ n => n = 0 ∨ (i * bs + a + n ≤ s.file.size ∧
      (s.bitmap.isSet j = true ∨ ∀ k < n, s.file.data (i * bs + a + k) = 0))
  | _ => True

section Runs

variable {bs : Nat} {s : FileVolume} {host : Host}

private theorem yields_pure {m : Call FileVolume Unit} {data : Bytes}
    (h : Yields bs (m s) s data) :
    ∃ s', (do m; pure [] : Call FileVolume (List UInt8)) s = .ok [] s' ∧
      Sound bs s' ∧ s'.maxBlockCount = s.maxBlockCount ∧ s'.file.data = data := by
  obtain ⟨s', hok, hsound, hmax, hdata⟩ := h
  exact ⟨s', by rw [Call.bind_apply, hok]; rfl, hsound, hmax, hdata⟩

/-- One operation acts on the bytes of the file as on an ideal array. -/
theorem run_eq_ideal (hs : Sound bs s) (hbs : 0 < bs) (hbs32 : bs < 2 ^ 32)
    (op : BlockOp) (hfits : op.Fits bs) (hin : op.InRange s.maxBlockCount)
    (hmeets : s.Meets bs op) :
    ∃ a s', op.run (volume host bs) s = .ok a s' ∧
      op.run (idealVolume bs s.maxBlockCount) s.file.data = .ok a s'.file.data ∧
      Sound bs s' ∧ s'.maxBlockCount = s.maxBlockCount := by
  have hunit : ∀ {m : Call FileVolume Unit} {m' : Call Bytes Unit} {data : Bytes},
      Yields bs (m s) s data → m' s.file.data = .ok () data →
      ∃ a s', (do m; pure [] : Call FileVolume (List UInt8)) s = .ok a s' ∧
        (do m'; pure [] : Call Bytes (List UInt8)) s.file.data = .ok a s'.file.data ∧
        Sound bs s' ∧ s'.maxBlockCount = s.maxBlockCount := by
    intro m m' data hm hm'
    obtain ⟨s', hok, hsound, hmax, hdata⟩ := yields_pure hm
    exact ⟨[], s', hok, by rw [Call.bind_apply, hm', hdata]; rfl, hsound, hmax⟩
  cases op with
  | read i =>
      have hread := readPartialBlock_eq hs hin (Nat.zero_add bs).le hmeets
      exact ⟨_, s, hread, if_pos hin, hs, rfl⟩
  | readPartial i off n =>
      have hread := readPartialBlock_eq hs hin hfits hmeets
      exact ⟨_, s, hread, if_pos ⟨hin, hfits⟩, hs, rfl⟩
  | write i b =>
      cases b with
      | none =>
          refine hunit (discardBlocks_eq host hs hbs (i := i) (n := 1) hin) ?_
          rw [Bytes.clear_eq_splice, Nat.one_mul]
          exact if_pos hin
      | some l =>
          exact hunit (writePartialBlock_eq hs hin (Nat.zero_add bs).le hfits) (if_pos hin)
  | writePartial i b off n =>
      exact hunit (writePartialBlock_eq hs hin hfits.1 hfits.2) (if_pos ⟨hin, hfits.1⟩)
  | move i j =>
      exact hunit (moveBlock_eq hs hbs hin.1 hin.2 hmeets) (if_pos hin)
  | movePartial i j a b n =>
      exact hunit (moveBlockPartial_eq hs hbs32 hin.1 hin.2 hfits.1 hfits.2 hmeets)
        (if_pos ⟨hin.1, hin.2, hfits⟩)
  | discard i n => exact hunit (discardBlocks_eq host hs hbs hin) (if_pos hin)
  | commit => exact hunit (commit_eq hs) rfl

theorem isSet_setBits (b : Bitmap) (i n j : Nat) :
    (setBits b i n).isSet j = (decide (i ≤ j ∧ j < i + n) || b.isSet j) := by
  induction n generalizing b i with
  | zero =>
      simp [setBits]
  | succ n ih =>
      rw [setBits, ih, Bitmap.isSet_set]
      by_cases hj : i = j
      · subst hj
        simp
      · have hiff : (i + 1 ≤ j ∧ j < i + 1 + n) ↔ (i ≤ j ∧ j < i + (n + 1)) := by omega
        rw [decide_eq_false hj, Bool.false_or, decide_eq_decide.2 hiff]

/-- A volume in an empty file. -/
theorem fromFd_sound (maxSize : Nat) (hmax : blockCount maxSize bs * bs < 2 ^ 64) :
    Sound bs (fromFd bs OsFile.empty maxSize) := by
  have hzero : ∀ p, (fromFd bs OsFile.empty maxSize).file.data p = 0 := by
    intro p
    simp [fromFd]
  refine ⟨hmax, ?_, fun p _ => hzero p, fun p _ => hzero p, ?_, ?_⟩
  · intro b hb
    simp [fromFd, setBits] at hb
  · simp [fromFd]
  · simp [fromFd]

/-- A file volume that starts out empty cannot be told from an array of zeros by a
sequence of in-range operations that meet the condition: every one succeeds, and
every read returns the bytes of the array. -/
theorem runAll_eq_ideal (hbs : 0 < bs) (hbs32 : bs < 2 ^ 32) (maxSize : Nat)
    (hmax : blockCount maxSize bs * bs < 2 ^ 64) (ops : List BlockOp)
    (hfits : ∀ op ∈ ops, op.Fits bs)
    (hin : ∀ op ∈ ops, op.InRange (blockCount maxSize bs))
    (hmeets : Along (BlockOp.run (volume host bs)) (Meets bs) ops
      (fromFd bs OsFile.empty maxSize)) :
    (runAll (BlockOp.run (volume host bs)) ops (fromFd bs OsFile.empty maxSize)).1 =
        (runAll (BlockOp.run (idealVolume bs (blockCount maxSize bs))) ops
          fun _ => 0).1 ∧
      none ∉
        (runAll (BlockOp.run (volume host bs)) ops (fromFd bs OsFile.empty maxSize)).1 := by
  have hstep : ∀ (s : FileVolume) (g : Bytes) (op : BlockOp),
      (Sound bs s ∧ s.maxBlockCount = blockCount maxSize bs ∧ s.file.data = g) →
      ((op.Fits bs ∧ op.InRange (blockCount maxSize bs)) ∧ s.Meets bs op) →
      ∃ a s' g', op.run (volume host bs) s = .ok a s' ∧
        op.run (idealVolume bs (blockCount maxSize bs)) g = .ok a g' ∧
        Sound bs s' ∧ s'.maxBlockCount = blockCount maxSize bs ∧ s'.file.data = g' := by
    rintro s _ op ⟨hs, hmax', rfl⟩ ⟨⟨hf, hr⟩, hm⟩
    rw [← hmax'] at hr ⊢
    obtain ⟨a, s', hok, hideal, hs', hmax''⟩ := run_eq_ideal hs hbs hbs32 op hf hr hm
    exact ⟨a, s', _, hok, hideal, hs', hmax'', rfl⟩
  have hinit : (fromFd bs OsFile.empty maxSize).file.data = fun _ => 0 := by
    funext p
    simp [fromFd]
  have hcond := Along.and_forall (P := fun op => op.Fits bs ∧
    op.InRange (blockCount maxSize bs)) (fun op hop => ⟨hfits op hop, hin op hop⟩) hmeets
  obtain ⟨hval, hnone, _⟩ := runAll_simulation hstep ops _ _
    ⟨fromFd_sound maxSize hmax, rfl, hinit⟩ hcond
  exact ⟨hval, hnone⟩

end Runs

/-- Hole punching, but no `copy_file_range`. -/
def punchingHost : Host where
  hasFallocate := true
  copyFileRange _ _ _ _ := none
  copy_le := by simp
  copy_pos := by simp

theorem runAll_eq_ideal_two_blocks :
    (runAll (BlockOp.run (volume punchingHost 4))
      [.write 0 (some [1, 2, 3, 4]), .move 0 1, .discard 0 1, .commit, .read 1]
      (fromFd 4 OsFile.empty 8)).1 =
    (runAll (BlockOp.run (idealVolume 4 2))
      [.write 0 (some [1, 2, 3, 4]), .move 0 1, .discard 0 1, .commit, .read 1]
      fun _ => 0).1 := by
  have hmeets : Along (BlockOp.run (volume punchingHost 4)) (Meets 4)
      [.write 0 (some [1, 2, 3, 4]), .move 0 1, .discard 0 1, .commit, .read 1]
      (fromFd 4 OsFile.empty 8) :=
    ⟨trivial, Or.inr (Or.inr (by decide)), trivial, trivial,
      Or.inr (Or.inr (by decide)), trivial⟩
  exact (runAll_eq_ideal (by decide) (by decide) 8 (by decide) _
    (by simp [BlockOp.Fits]) (by simp [BlockOp.InRange, blockCount]) hmeets).1

/-- A partial move does not mark its destination, so that block goes on reading as
zero. -/
theorem movePartial_unmarked_reads_zero :
    (runAll (BlockOp.run (volume punchingHost 4))
      [.write 0 (some [1, 2, 3, 4]), .movePartial 0 1 0 0 4, .read 1]
      (fromFd 4 OsFile.empty 8)).1 = [some [], some [], some [0, 0, 0, 0]] ∧
    (runAll (BlockOp.run (idealVolume 4 2))
      [.write 0 (some [1, 2, 3, 4]), .movePartial 0 1 0 0 4, .read 1]
      fun _ => 0).1 = [some [], some [], some [1, 2, 3, 4]] := by
  decide

end FileVolume

end ImageTool.Image
