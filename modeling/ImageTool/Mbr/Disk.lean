import ImageTool.Image.Access
import ImageTool.Image.Memmove
import ImageTool.Image.BlockOp
import ImageTool.Mbr.Table

/-!
# MBR disks

The partition manager and the volumes it hands out, over any volume `vol` of
512-byte sectors.  The state is that of the volume and the table.  A partition
is named by its slot.
-/

namespace ImageTool.Mbr

open ImageTool.Lib ImageTool.Image

/-- `mbr_disk_t`. -/
structure Disk (σ : Type) where
  volume : σ
  parts : List Part

namespace Disk

variable {σ α : Type}

/-- A call on the underlying volume. -/
def onVolume (m : Call σ α) : Call (Disk σ) α :=
  Call.zoom Disk.volume (fun d v => { d with volume := v }) m

/-- Change one table entry. -/
def update (i : Nat) (f : Part → Part) : Call (Disk σ) Unit :=
  Call.modify fun d => { d with parts := d.parts.modify i f }

/-- The table entry of a partition. -/
def part (i : Nat) : Call (Disk σ) Part := fun d =>
  match d.parts[i]? with
  | some p => .ok p d
  | none => .stuck

/-- The highest sector of any partition. -/
def maxSector (parts : List Part) : Nat :=
  parts.foldl (fun max p => if p.lastSector > max then p.lastSector else max) 0

/-- `shrink_partition`. -/
def shrinkPartition (vol : Volume σ) (i diff : Nat) : Call (Disk σ) Unit := do
  let p ← part i
  let diff := clampDiff p diff
  if diff = 0 then pure ()
  else do
    let d ← Call.get
    let max := maxSector d.parts
    onVolume (vol.discardBlocks (sub64 max diff) diff)
    Call.modify fun d => { d with parts := d.parts.map (shiftDown p.index diff) }
    update i fun q => { q with blkCount := sub64 q.blkCount diff }

/-- `mbr_shrink_to_fit`. -/
def shrinkToFit (vol : Volume σ) (i : Nat) : Call (Disk σ) Unit := do
  let p ← part i
  if p.blkUsed ≥ p.blkCount then pure ()
  else shrinkPartition vol i (p.blkCount - p.blkUsed)

/-- The loop that shrinks the partitions `i, i + 1, …` of `n` that start behind
sector `start`. -/
def shrinkBehind (vol : Volume σ) (start : Nat) : Nat → Nat → Call (Disk σ) Unit
  | _, 0 => pure ()
  | i, n + 1 => do
      let p ← part i
      Call.guard (p.index > start) (shrinkToFit vol i)
      shrinkBehind vol start (i + 1) n

/-- `grow_partition`. -/
def growPartition (vol : Volume σ) (i diff : Nat) : Call (Disk σ) Unit := do
  let p ← part i
  let start := p.index
  let count := p.blkCount
  let d ← Call.get
  shrinkBehind vol start 0 d.parts.length
  let diff := u64 (roundUp diff)
  let d ← Call.get
  let max := maxSector d.parts
  onVolume (volumeMemmove vol (u64 ((start + count + diff) * sectorSize))
    (u64 ((start + count) * sectorSize))
    (u64 (sub64 max (sub64 (start + count) 1) * sectorSize)))
  onVolume (volumeWrite vol (u64 ((start + count) * sectorSize)) none
    (u64 (diff * sectorSize)))
  Call.modify fun d => { d with parts := d.parts.map (shiftUp start diff) }
  update i fun q => { q with blkCount := u64 (q.blkCount + diff) }

/-- `get_free_space`. -/
def getFreeSpace (vol : Volume σ) (d : Disk σ) : Nat :=
  let free := vol.getMaxBlockCount d.volume
  let free := if free > maxLba then maxLba else free
  let free := if free % partAlign ≠ 0 then free - free % partAlign else free
  let used := d.parts.foldl (fun used p => u64 (used + p.blkCount)) reserved
  if used < free then free - used else 0

/-- `mbr_apply_expand_policy`. -/
def applyExpandPolicy (vol : Volume σ) (i : Nat) : Call (Disk σ) Unit := do
  let p ← part i
  if !p.fills then pure ()
  else do
    let d ← Call.get
    let avail := getFreeSpace vol d
    if p.blkCount ≥ avail then pure ()
    else growPartition vol i (avail - p.blkCount)

/-! ## Partitions as volumes -/

/-- `part_read_partial_block`.  A read behind the end of a growing partition
clears a whole block of the buffer. -/
def partReadPartialBlock (vol : Volume σ) (i index offset size : Nat) :
    Call (Disk σ) (List UInt8) := do
  let p ← part i
  if index ≥ p.blkCount then
    if !p.grows then Call.fail else pure (List.replicate vol.blocksize 0)
  else onVolume (vol.readPartialBlock (u64 (p.index + index)) offset size)

/-- `part_write_partial_block`. -/
def partWritePartialBlock (vol : Volume σ) (i index : Nat) (buffer : Buffer)
    (offset size : Nat) : Call (Disk σ) Unit := do
  let p ← part i
  Call.guard (index ≥ p.blkCount)
    (if !p.grows then Call.fail
    else growPartition vol i (u64 (index - p.blkCount + 1)))
  Call.guard (index ≥ p.blkUsed)
    (update i fun q => { q with blkUsed := u64 (index + 1) })
  onVolume (vol.writePartialBlock (u64 (p.index + index)) buffer offset size)

/-- `part_discard_blocks`. -/
def partDiscardBlocks (vol : Volume σ) (i index count : Nat) : Call (Disk σ) Unit := do
  let p ← part i
  if index ≥ p.blkUsed then pure ()
  else
    let count := if count > p.blkUsed - index then p.blkUsed - index else count
    if count = 0 then pure ()
    else do
      Call.guard (index + count = p.blkUsed)
        (update i fun q => { q with blkUsed := index })
      onVolume (vol.discardBlocks (u64 (p.index + index)) count)

/-- `part_move_block_partial`. -/
def partMoveBlockPartial (vol : Volume σ) (i src dst srcOffset dstOffset size : Nat) :
    Call (Disk σ) Unit := do
  let p ← part i
  if (src ≥ p.blkCount ∨ dst ≥ p.blkCount) ∧ p.grows = false then Call.fail
  else if src ≥ p.blkUsed ∧ dst ≥ p.blkUsed then pure ()
  else if src ≥ p.blkUsed then partDiscardBlocks vol i dst 1
  else do
    Call.guard (dst ≥ p.blkCount) (growPartition vol i (u64 (dst - p.blkCount + 1)))
    Call.guard (dst ≥ p.blkUsed) (update i fun q => { q with blkUsed := dst })
    if srcOffset = 0 ∧ dstOffset = 0 ∧ size = vol.blocksize then
      onVolume (vol.moveBlock (u64 (p.index + src)) (u64 (p.index + dst)))
    else
      onVolume (vol.moveBlockPartial (u64 (p.index + src)) (u64 (p.index + dst))
        srcOffset dstOffset size)

/-- `part_set_base_block_count`. -/
def partSetBaseBlockCount (vol : Volume σ) (i size : Nat) : Call (Disk σ) Unit := do
  let p ← part i
  (if size > p.blkCount then growPartition vol i (size - p.blkCount)
    else Call.guard (size < p.blkCount ∧ size > p.blkUsed)
      (shrinkPartition vol i (size - p.blkUsed)))
  update i fun q => { q with blkCountMin := size }

/-- `part_set_flags`. -/
def partSetFlags (i : Nat) (flags : BitVec 64) : Call (Disk σ) Unit := do
  Call.guard (flags &&& flagFill ≠ 0)
    (Call.modify fun d => { d with parts := d.parts.map Part.clearFill })
  update i fun q => { q with flags := flags }

def partMinCount (i : Nat) (d : Disk σ) : Nat :=
  match d.parts[i]? with
  | some p => p.blkCountMin
  | none => 0

def partMaxCount (vol : Volume σ) (i : Nat) (d : Disk σ) : Nat :=
  match d.parts[i]? with
  | some p => if p.grows then u64 (p.blkCount + getFreeSpace vol d) else p.blkCount
  | none => 0

def partBlkCount (vol : Volume σ) (i : Nat) (d : Disk σ) : Nat :=
  match d.parts[i]? with
  | some p => if p.fills then partMaxCount vol i d else p.blkCount
  | none => 0

/-- The number of sectors `part_truncate` aims at. -/
def truncateCount (vol : Volume σ) (size : Nat) : Nat :=
  let count := blockCount size vol.blocksize
  if count % partAlign ≠ 0 then u64 (count + (partAlign - count % partAlign)) else count

/-- `part_truncate`. -/
def partTruncate (vol : Volume σ) (i size : Nat) : Call (Disk σ) Unit := do
  let p ← part i
  let count := truncateCount vol size
  if count ≤ p.blkCountMin then pure ()
  else if count = p.blkCount then pure ()
  else do
    (if count < p.blkCount then shrinkPartition vol i (p.blkCount - count)
      else growPartition vol i (count - p.blkCount))
    update i fun q => { q with blkCount := count, blkUsed := count }

/-- The method table of a partition, set up by `mbr_part_create`. -/
def partition (vol : Volume σ) (i : Nat) : Volume (Disk σ) where
  blocksize := vol.blocksize
  getMinBlockCount := partMinCount i
  getMaxBlockCount := partMaxCount vol i
  getBlockCount := partBlkCount vol i
  truncate := partTruncate vol i
  readBlock index := partReadPartialBlock vol i index 0 vol.blocksize
  readPartialBlock := partReadPartialBlock vol i
  writeBlock index buffer := partWritePartialBlock vol i index buffer 0 vol.blocksize
  writePartialBlock := partWritePartialBlock vol i
  moveBlock src dst := partMoveBlockPartial vol i src dst 0 0 vol.blocksize
  moveBlockPartial := partMoveBlockPartial vol i
  discardBlocks := partDiscardBlocks vol i
  commit := pure ()

/-! ## The partition manager -/

/-- `while (blk_count--) write_block(index++, NULL)`. -/
def clearBlocks (vol : Volume σ) : Nat → Nat → Call σ Unit
  | _, 0 => pure ()
  | index, count + 1 => do
      vol.writeBlock index none
      clearBlocks vol (u64 (index + 1)) count

/-- The first sector behind all partitions. -/
def nextFree (parts : List Part) : Nat :=
  parts.foldl (fun index p =>
    if u64 (p.index + p.blkCount) > index then u64 (p.index + p.blkCount) else index)
    reserved

/-- `mbr_disk_create_parition`. -/
def createPartition (vol : Volume σ) (blkCount : Nat) (flags : BitVec 64) :
    Call (Disk σ) Unit := do
  let d ← Call.get
  if d.parts.length = maxPartitions then Call.fail
  else do
    let blkCount := u64 (roundUp blkCount)
    let index := nextFree d.parts
    onVolume (clearBlocks vol index blkCount)
    Call.modify fun d =>
      { d with
        parts :=
          (if flags &&& flagFill ≠ 0 then d.parts.map Part.clearFill else d.parts) ++
            [{ index := index, blkCountMin := blkCount, blkCount := blkCount,
               blkUsed := 0, flags := flags }] }

/-- `MAX_CHS`. -/
def maxChs : Nat := 63 * 254 * 1023

/-- `lba_to_chs`. -/
def lbaToChs (lba : Nat) : List UInt8 :=
  let (c, h, s) :=
    if lba ≥ maxChs then (1023, 254, 63)
    else (lba / (254 * 63), (lba / 63) % 254, 1 + lba % 63)
  [UInt8.ofNat h, UInt8.ofNat (((c >>> 2) &&& 0xC0) ||| (s &&& 0x3F)),
    UInt8.ofNat (c &&& 0xFF)]

/-- A 32-bit value, least significant byte first. -/
def le32 (n : Nat) : List UInt8 :=
  [UInt8.ofNat n, UInt8.ofNat (n / 2 ^ 8), UInt8.ofNat (n / 2 ^ 16),
    UInt8.ofNat (n / 2 ^ 24)]

/-- The header entry of a partition. -/
def headerEntry (p : Part) : List UInt8 :=
  let lba := u32 p.index
  let count := u32 p.blkCount
  [if p.flags &&& flagBootable ≠ 0 then (0x80 : UInt8) else 0] ++ lbaToChs lba ++
    [UInt8.ofNat ((p.flags >>> 20) &&& 0xFF).toNat] ++
    lbaToChs (if count > 0 then u32 (lba + count + (2 ^ 32 - 1)) else lba) ++
    le32 lba ++ le32 count

/-- The sector `mbr_disk_commit` writes. -/
def header (parts : List Part) : List UInt8 :=
  List.replicate 446 0x90 ++
    ((parts.map headerEntry).flatten ++
      List.replicate (16 * (maxPartitions - parts.length)) 0) ++ [0x55, 0xAA]

/-- The loops over all partitions in `mbr_disk_commit`. -/
def eachPart (f : Nat → Call (Disk σ) Unit) : Nat → Nat → Call (Disk σ) Unit
  | _, 0 => pure ()
  | i, n + 1 => do
      f i
      eachPart f (i + 1) n

/-- `mbr_disk_commit`. -/
def commit (vol : Volume σ) : Call (Disk σ) Unit := do
  let d ← Call.get
  eachPart (shrinkToFit vol) 0 d.parts.length
  eachPart (applyExpandPolicy vol) 0 d.parts.length
  let d ← Call.get
  onVolume (vol.writeBlock 0 (some (header d.parts)))
  onVolume vol.commit

/-- `mbrdisk_create`. -/
def create (v : σ) : Disk σ := ⟨v, []⟩

end Disk

/-! ## Operations as data -/

/-- An operation on a disk or on one of its partitions. -/
inductive DiskOp where
  | create (blkCount : Nat) (flags : BitVec 64)
  | block (i : Nat) (op : BlockOp)
  | truncate (i size : Nat)
  | setBaseBlockCount (i size : Nat)
  | setFlags (i : Nat) (flags : BitVec 64)
  | commit

/-- Carry an operation out; only reads return bytes. -/
def DiskOp.run {σ : Type} (vol : Volume σ) : DiskOp → Call (Disk σ) (List UInt8)
  | create n flags => do Disk.createPartition vol n flags; pure []
  | block i op => op.run (Disk.partition vol i)
  | truncate i size => do Disk.partTruncate vol i size; pure []
  | setBaseBlockCount i size => do Disk.partSetBaseBlockCount vol i size; pure []
  | setFlags i flags => do Disk.partSetFlags i flags; pure []
  | commit => do Disk.commit vol; pure []

end ImageTool.Mbr
