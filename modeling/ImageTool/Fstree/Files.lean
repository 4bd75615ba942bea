import ImageTool.Image.Access
import ImageTool.Image.Memmove
import ImageTool.Fstree.Accounting

/-!
# File data of an fstree

The contents of all regular files of a tree lie on one volume, the blocks of a file
in one run without its sparse blocks.  The state here is that of the volume, the
first free block and the file nodes, in the order of `nodes_by_type`; a file is named
by its place in that list.
-/

namespace ImageTool

/-- The part of `fstree_t` that concerns file data. -/
structure Fstree (σ : Type) where
  volume : σ
  dataOffset : Nat
  noSparse : Bool
  files : List Fstree.FileNode

end ImageTool

namespace ImageTool.Fstree

open ImageTool.Lib ImageTool.Image ImageTool.Util

variable {σ α : Type}

/-- A call on the underlying volume. -/
def onVolume (m : Call σ α) : Call (Fstree σ) α :=
  Call.zoom Fstree.volume (fun fs v => { fs with volume := v }) m

/-- The node of a file. -/
def file (i : Nat) : Call (Fstree σ) FileNode := fun fs =>
  match fs.files[i]? with
  | some n => .ok n fs
  | none => .stuck

/-- Change the node of a file. -/
def updateFile (i : Nat) (f : FileNode → FileNode) : Call (Fstree σ) Unit :=
  Call.modify fun fs => { fs with files := fs.files.modify i f }

/-- Change the nodes of all files. -/
def updateFiles (f : FileNode → FileNode) : Call (Fstree σ) Unit :=
  Call.modify fun fs => { fs with files := fs.files.map f }

/-- Set the first free block. -/
def setDataOffset (index : Nat) : Call (Fstree σ) Unit :=
  Call.modify fun fs => { fs with dataOffset := index }

/-! ## Moving to the end -/

/-- A round of the last loop of `fstree_file_move_to_end`. -/
def closeBehind (bs src blkCount : Nat) (fit : FileNode) : FileNode :=
  if filePhysicalSize bs fit = 0 then fit
  else if fit.startIndex ≥ src then
    { fit with startIndex := sub64 fit.startIndex blkCount }
  else fit

/-- `fstree_file_move_to_end`. -/
def fileMoveToEnd (vol : Volume σ) (i : Nat) : Call (Fstree σ) Unit := do
  let n ← file i
  let fs ← Call.get
  let physSize := filePhysicalSize vol.blocksize n
  if physSize = 0 then updateFile i fun n => { n with startIndex := fs.dataOffset }
  else
    let blkCount := blockCount physSize vol.blocksize
    if blkCount ≥ sub64 fs.dataOffset n.startIndex then pure ()
    else do
      let src := u64 (n.startIndex * vol.blocksize)
      let dst := u64 (fs.dataOffset * vol.blocksize)
      let size := u64 (blkCount * vol.blocksize)
      onVolume (volumeMemmove vol dst src size)
      onVolume (volumeMemmove vol src (u64 (src + size))
        (u64 (sub64 fs.dataOffset n.startIndex * vol.blocksize)))
      onVolume (vol.discardBlocks fs.dataOffset blkCount)
      updateFile i fun n => { n with startIndex := fs.dataOffset }
      updateFiles (closeBehind vol.blocksize n.startIndex blkCount)

/-! ## Appending -/

/-- The walk of `append_to_tail` over the regions in front of block `tailIndex`: the
position of the block on the volume and, where the walk ends at a region, the list
with that region made one block shorter. -/
def findTail (tailIndex : Nat) : Nat → List Region → Nat × Option (List Region)
  | real, [] => (real, none)
  | real, it :: next =>
      if it.count < sub64 tailIndex it.index then
        let found := findTail tailIndex (sub64 real it.count) next
        (found.1, found.2.map (it :: ·))
      else
        let count := u32 (it.count + (2 ^ 32 - 1))
        (real, some (if count = 0 then next else { it with count := count } :: next))

/-- `append_to_tail`. -/
def appendToTail (vol : Volume σ) (i tailIndex tailSize : Nat) (data : Buffer)
    (size : Nat) : Call (Fstree σ) Unit := do
  let n ← file i
  let found := findTail tailIndex (u64 (n.startIndex + tailIndex)) n.sparse
  match found.2 with
  | none => onVolume (vol.writePartialBlock found.1 data tailSize size)
  | some sparse =>
      if isNullOrZero data size then pure ()
      else do
        fileMoveToEnd vol i
        let fs ← Call.get
        onVolume (vol.writePartialBlock fs.dataOffset none 0 tailSize)
        setDataOffset (u64 (fs.dataOffset + 1))
        updateFile i fun n => { n with sparse := sparse }
        onVolume (vol.writePartialBlock fs.dataOffset data tailSize size)

/-- `append_block`. -/
def appendBlock (vol : Volume σ) (i : Nat) (data : Buffer) (size : Nat) :
    Call (Fstree σ) Unit := do
  fileMoveToEnd vol i
  let fs ← Call.get
  (if size = vol.blocksize then onVolume (vol.writeBlock fs.dataOffset data)
    else do
      onVolume (vol.writePartialBlock fs.dataOffset data 0 size)
      onVolume (vol.writePartialBlock fs.dataOffset none size (vol.blocksize - size)))
  setDataOffset (u64 (fs.dataOffset + 1))

/-- One round of `fstree_file_append`: put `diff` bytes behind the end of the file. -/
def appendChunk (vol : Volume σ) (i tailIndex tailSize : Nat) (data : Buffer)
    (diff : Nat) : Call (Fstree σ) Unit := do
  let fs ← Call.get
  (if tailSize > 0 then appendToTail vol i tailIndex tailSize data diff
    else if fs.noSparse = false ∧ isNullOrZero data diff then
      updateFile i fun n => { n with sparse := markSparse n.sparse tailIndex }
    else appendBlock vol i data diff)
  updateFile i fun n => { n with size := u64 (n.size + diff) }

/-- The loop of `fstree_file_append`; the first argument bounds the number of
rounds. -/
def fileAppendLoop (vol : Volume σ) (i : Nat) :
    Nat → Nat → Nat → Buffer → Nat → Call (Fstree σ) Unit
  | 0, _, _, _, size => if size = 0 then pure () else Call.stuck
  | fuel + 1, tailIndex, tailSize, data, size =>
      if size = 0 then pure () else
        let diff := vol.blocksize - tailSize
        let diff := if diff > size then size else diff
        do
          appendChunk vol i tailIndex tailSize data diff
          fileAppendLoop vol i fuel (u64 (tailIndex + 1)) 0 (data.advance diff)
            (size - diff)

/-- `fstree_file_append`. -/
def fileAppend (vol : Volume σ) (i : Nat) (data : Buffer) (size : Nat) :
    Call (Fstree σ) Unit := do
  let n ← file i
  fileAppendLoop vol i size (n.size / vol.blocksize) (n.size % vol.blocksize) data size

/-! ## Writing -/

/-- `insert_sparse_block`. -/
def insertSparseBlock (vol : Volume σ) (i realIndex index : Nat) :
    Call (Fstree σ) Unit := do
  let fs ← Call.get
  let src := u64 (realIndex * vol.blocksize)
  let dst := u64 (src + vol.blocksize)
  onVolume (volumeMemmove vol dst src
    (u64 (sub64 fs.dataOffset realIndex * vol.blocksize)))
  setDataOffset (u64 (fs.dataOffset + 1))
  updateFile i fun n => { n with sparse := markNotSparse n.sparse index }
  onVolume (vol.discardBlocks realIndex 1)

/-- `remove_file_block`. -/
def removeFileBlock (vol : Volume σ) (i realIndex index : Nat) :
    Call (Fstree σ) Unit := do
  let fs ← Call.get
  let dst := u64 (realIndex * vol.blocksize)
  let src := u64 (dst + vol.blocksize)
  let size := sub64 (sub64 fs.dataOffset realIndex) 1
  onVolume (volumeMemmove vol dst src (u64 (size * vol.blocksize)))
  setDataOffset (sub64 fs.dataOffset 1)
  updateFile i fun n => { n with sparse := markSparse n.sparse index }
  onVolume (vol.discardBlocks (sub64 fs.dataOffset 1) 1)

/-- The loop of `write_partial_block` over the sparse regions: the position of block
`index` on the volume, and the region that contains it. -/
def locate (index : Nat) : Nat → List Region → Nat × Option Region
  | start, [] => (start, none)
  | start, it :: next =>
      if inRegion index it then (start, some it)
      else locate index (if it.index < index then sub64 start it.count else start) next

/-- Turn a block of zeros at `start` into a sparse one. -/
def removeStored (vol : Volume σ) (i start index : Nat) : Call (Fstree σ) Unit := do
  let n ← file i
  fileMoveToEnd vol i
  let m ← file i
  removeFileBlock vol i (u64 (sub64 start n.startIndex + m.startIndex)) index

/-- `write_partial_block` behind its loop, for a block stored at `start`. -/
def writeStored (vol : Volume σ) (i start index : Nat) (data : Buffer)
    (offset size : Nat) : Call (Fstree σ) Unit := do
  let n ← file i
  let fs ← Call.get
  if offset = 0 ∧ size = vol.blocksize then
    if fs.noSparse = false ∧ isNullOrZero data size then removeStored vol i start index
    else onVolume (vol.writeBlock start data)
  else if fs.noSparse = false ∧ offset = 0 ∧ index = n.size / vol.blocksize ∧
      size = n.size % vol.blocksize ∧ isNullOrZero data size then
    removeStored vol i start index
  else onVolume (vol.writePartialBlock start data offset size)

/-- `write_partial_block`. -/
def writePartialBlock (vol : Volume σ) (i index : Nat) (data : Buffer)
    (offset size : Nat) : Call (Fstree σ) Unit := do
  let n ← file i
  let found := locate index (u64 (n.startIndex + index)) n.sparse
  match found.2 with
  | none => writeStored vol i found.1 index data offset size
  | some it =>
      if isNullOrZero data size then pure ()
      else do
        fileMoveToEnd vol i
        let m ← file i
        let start := sub64 (u64 (sub64 found.1 n.startIndex + m.startIndex))
          (index - it.index)
        insertSparseBlock vol i start index
        writeStored vol i start index data offset size

/-- The loop of `fstree_file_write`; the first argument bounds the number of
rounds. -/
def fileWriteLoop (vol : Volume σ) (i : Nat) :
    Nat → Nat → Buffer → Nat → Nat → Call (Fstree σ) Unit
  | 0, _, _, _, size => if size = 0 then pure () else Call.stuck
  | fuel + 1, blkIndex, data, blkOffset, size =>
      if size = 0 then pure () else
        let blkSize := vol.blocksize - blkOffset
        let blkSize := if blkSize > size then size else blkSize
        do
          writePartialBlock vol i blkIndex data blkOffset blkSize
          fileWriteLoop vol i fuel (u64 (blkIndex + 1)) (data.advance blkSize) 0
            (size - blkSize)

/-- `fstree_file_write`.  Where the end of the file lies inside the request, a `NULL`
buffer gives a pointer that must not be read. -/
def fileWrite (vol : Volume σ) (i offset : Nat) (data : Buffer) (size : Nat) :
    Call (Fstree σ) Unit :=
  if size = 0 then pure () else do
    let n ← file i
    Call.guard (offset > n.size) (fileAppend vol i none (offset - n.size))
    let n ← file i
    let available := n.size - offset
    Call.guard (size > available)
      (if data = none ∧ available ≠ 0 then Call.stuck
      else fileAppend vol i (data.advance available) (size - available))
    let size := if size > available then available else size
    fileWriteLoop vol i size (offset / vol.blocksize) data (offset % vol.blocksize) size

/-! ## Cutting off -/

/-- A round of the last loop of `fstree_file_truncate`. -/
def closeCut (bs start diff : Nat) (fit : FileNode) : FileNode :=
  if filePhysicalSize bs fit = 0 then fit
  else if fit.startIndex > start then
    { fit with startIndex := sub64 fit.startIndex diff }
  else fit

/-- `fstree_file_truncate` for a size below that of the file. -/
def fileShrink (vol : Volume σ) (i size : Nat) : Call (Fstree σ) Unit := do
  let n ← file i
  let oldCount := blockCount (filePhysicalSize vol.blocksize n) vol.blocksize
  let cut : FileNode :=
    { n with sparse := truncateSparse (blockCount size vol.blocksize) n.sparse, size := size }
  let newSize := filePhysicalSize vol.blocksize cut
  let newCount := blockCount newSize vol.blocksize
  updateFile i fun _ => cut
  Call.guard (newCount < oldCount) (do
    let fs ← Call.get
    let src := u64 (n.startIndex + oldCount)
    let dst := u64 (n.startIndex + newCount)
    onVolume (volumeMemmove vol (u64 (dst * vol.blocksize)) (u64 (src * vol.blocksize))
      (u64 (sub64 fs.dataOffset src * vol.blocksize)))
    let diff := oldCount - newCount
    onVolume (vol.discardBlocks (sub64 fs.dataOffset diff) diff)
    setDataOffset (sub64 fs.dataOffset diff)
    updateFiles (closeCut vol.blocksize n.startIndex diff))
  let tailSize := newSize % vol.blocksize
  Call.guard (tailSize > 0)
    (onVolume (vol.writePartialBlock (sub64 (u64 (n.startIndex + newCount)) 1) none tailSize
      (vol.blocksize - tailSize)))

/-- `fstree_file_truncate`. -/
def fileTruncate (vol : Volume σ) (i size : Nat) : Call (Fstree σ) Unit := do
  let n ← file i
  if size > n.size then fileAppend vol i none (size - n.size)
  else if size = n.size then pure ()
  else fileShrink vol i size

/-! ## Gaps -/

/-- The byte size `fstree_add_gap` rounds to. -/
def gapSize (bs size : Nat) : Nat :=
  if size % bs ≠ 0 then u64 (size + (bs - size % bs)) else size

/-- A round of the loop of `fstree_add_gap`. -/
def openGap (index count : Nat) (fit : FileNode) : FileNode :=
  if fit.startIndex ≥ index then
    { fit with startIndex := u64 (fit.startIndex + count) }
  else fit

/-- `fstree_add_gap`. -/
def addGap (vol : Volume σ) (index size : Nat) : Call (Fstree σ) Unit :=
  if size = 0 then pure () else do
    let size := gapSize vol.blocksize size
    let count := size / vol.blocksize
    let fs ← Call.get
    (if index < fs.dataOffset then do
        let src := u64 (index * vol.blocksize)
        let dst := u64 (src + size)
        onVolume (volumeMemmove vol dst src
          (u64 ((fs.dataOffset - index) * vol.blocksize)))
        updateFiles (openGap index count)
        setDataOffset (u64 (fs.dataOffset + count))
      else setDataOffset (u64 (index + count)))
    onVolume (vol.discardBlocks index count)

/-! ## Reading -/

/-- `read_partial_block`. -/
def readPartialBlock (vol : Volume σ) (i index offset size : Nat) :
    Call (Fstree σ) (List UInt8) := do
  let n ← file i
  let found := locate index (u64 (n.startIndex + index)) n.sparse
  match found.2 with
  | some _ => pure (List.replicate size 0)
  | none =>
      if offset = 0 ∧ size = vol.blocksize then onVolume (vol.readBlock found.1)
      else onVolume (vol.readPartialBlock found.1 offset size)

/-- The loop of `fstree_file_read`; the first argument bounds the number of rounds. -/
def fileReadLoop (vol : Volume σ) (i : Nat) :
    Nat → Nat → Nat → Nat → Call (Fstree σ) (List UInt8)
  | 0, _, _, size => if size = 0 then pure [] else Call.stuck
  | fuel + 1, blkIndex, blkOffset, size =>
      if size = 0 then pure [] else
        let blkSize := vol.blocksize - blkOffset
        let blkSize := if blkSize > size then size else blkSize
        do
          let data ← readPartialBlock vol i blkIndex blkOffset blkSize
          let rest ← fileReadLoop vol i fuel (u64 (blkIndex + 1)) 0 (size - blkSize)
          pure (data ++ rest)

/-- `fstree_file_read`. -/
def fileRead (vol : Volume σ) (i offset size : Nat) : Call (Fstree σ) (List UInt8) :=
  if size = 0 then pure [] else do
    let n ← file i
    if offset ≥ n.size then pure (List.replicate size 0)
    else do
      let available := n.size - offset
      let rest := if size > available then available else size
      let data ← fileReadLoop vol i rest (offset / vol.blocksize) (offset % vol.blocksize)
        rest
      pure (data ++ List.replicate (size - rest) 0)

end ImageTool.Fstree
