import ImageTool.Image.FileVolumeOrder
import ImageTool.Fstree.FsVolumeOrder
import ImageTool.Mbr.PartitionOrder

/-!
# The size contract of all volumes

`volume.h` promises a minimum number of blocks "that the volume always has".  The four
implementations keep that promise as far as the conditions of their modules go: the block
size adapter without one, the others where no setting contradicts the current size.
-/

namespace ImageTool.Imgtool

open ImageTool.Lib ImageTool.Image ImageTool.Fstree ImageTool.Mbr ImageTool.Util

/-- An implementation of `volume_t` in a state that operations on it lead to, each of which
meets the implementation's condition. -/
inductive InUse : {σ : Type} → Volume σ → σ → Prop
  /-- A file that is not longer than its maximum, in blocks that have 64-bit addresses. -/
  | file (host : Host) {bs : Nat} (maxSize : Nat) (file : OsFile) {s : FileVolume} (hbs : 0 < bs)
      (hfile : blockCount file.size bs ≤ blockCount maxSize bs)
      (hmax : blockCount maxSize bs * bs + bs < 2 ^ 64)
      (h : FileVolume.ReachedInOrder bs file maxSize s) : InUse (FileVolume.volume host bs) s
  /-- An adapter over any volume that satisfies the contract. -/
  | adapter {σ : Type} (ad : Adapter σ) {start s : σ}
      (hwrapped : ad.wrapped.SatisfiesContract start) (h : ad.volume.Reaches start s) :
      InUse ad.volume s
  /-- A volume in a file of a tree, with limits that contradict neither each other nor the
  size of the file. -/
  | tree {σ : Type} (vol : Volume σ) (i minSize : Nat) {bs maxSize : Nat} {v : FsVolume}
      {fs start s : Fstree σ} (hbs : 0 < bs) (hbs32 : bs < 2 ^ 32) (hmax : maxSize < 2 ^ 64)
      (hlimits : blockCount minSize bs ≤ maxSize / bs)
      (hsize : blockCount ((treeFile vol i).size fs) bs ≤ maxSize / bs)
      (hcreate : FsVolume.create (treeFile vol i) bs minSize maxSize fs = .ok v start)
      (h : v.ReachedInOrder (treeFile vol i) start s) : InUse (v.volume (treeFile vol i)) s
  /-- A partition of an MBR disk over any volume. -/
  | partition {σ : Type} (vol : Volume σ) (i : Nat) {v : σ} {d : Disk σ}
      (h : Disk.ReachedInOrder vol v d) : InUse (Disk.partition vol i) d

/-- Whatever the implementation, its counts are in order. -/
theorem inUse_inOrder {σ : Type} {vol : Volume σ} {s : σ} (h : InUse vol s) :
    vol.InOrder s := by
  cases h with
  | file host maxSize file hbs hfile hmax h => exact (h.ordered hbs hfile hmax).inOrder hbs
  | adapter ad hwrapped h => exact Adapter.satisfiesContract hwrapped s h
  | tree vol i minSize hbs hbs32 hmax hlimits hsize hcreate h =>
      have hfile := treeFile_sizeLaw vol i
      obtain ⟨rfl, hstart⟩ := FsVolume.create_ordered hfile hbs hmax hlimits hsize hcreate
      have hv := FsVolume.ofSizes_addressable hbs hbs32 hmax minSize
      exact (h.ordered hfile hv hlimits hstart).inOrder hbs
  | partition vol i h => exact h.ordered.inOrder vol i

/-- A tree of one empty file. -/
def oneFile : Fstree Bytes := ⟨fun _ => 0, 0, false, [⟨0, 0, []⟩]⟩

/-- Two partitions; the base size of the first one is lowered, the second one is written. -/
def partOps : List DiskOp :=
  [.create 4096 0, .create 2048 flagGrow, .setBaseBlockCount 0 2048, .block 1 (.write 3 none),
    .commit]

/-- A file that has a block and then a minimum of one, a file of a tree that is written and
extended, and a partition of two. -/
theorem inUse_inOrder_three :
    (∃ s, (runAll (fun act => FileVolume.Action.run FileVolume.punchingHost 4 act)
        [.block (.write 0 (some [1, 2, 3, 4])), .setProperty .minSize 4]
        (FileVolume.fromFd 4 OsFile.empty 64)).2 = some s ∧
      (FileVolume.volume FileVolume.punchingHost 4).InOrder s) ∧
    (∃ v start s, FsVolume.create (treeFile (idealVolume 4 4) 0) 4 4 12 oneFile = .ok v start ∧
      (runAll (VolumeOp.run (v.volume (treeFile (idealVolume 4 4) 0)))
        [.block (.write 1 (some [1, 2, 3, 4])), .truncate 12] start).2 = some s ∧
      (v.volume (treeFile (idealVolume 4 4) 0)).InOrder s) ∧
    ∃ d, (runAll (DiskOp.run (idealVolume 512 8192)) partOps (Disk.create fun _ => 0)).2 = some d ∧
      (Disk.partition (idealVolume 512 8192) 1).InOrder d := by
  refine ⟨?_, ?_, ?_⟩
  · refine ⟨_, rfl, inUse_inOrder (.file FileVolume.punchingHost 64 OsFile.empty
      (by decide) (by decide) (by decide) ?_)⟩
    refine Run.tail (FileVolume.punchingHost, .setProperty .minSize 4)
      (Run.tail (FileVolume.punchingHost, .block (.write 0 (some [1, 2, 3, 4]))) Run.refl
        ⟨trivial, ?_, ?_⟩ rfl) ⟨show 4 < 2 ^ 64 by decide, ?_⟩ rfl
    · intro i n h
      cases h
    · intro i j a b n h
      cases h
    · show min (blockCount 4 4) 16 ≤ blockCount 4 4
      decide
  · refine ⟨_, _, _, rfl, rfl, inUse_inOrder (.tree _ _ 4 (show 0 < 4 by decide)
      (show 4 < 2 ^ 32 by decide) (show 12 < 2 ^ 64 by decide) (by decide)
      (show blockCount ((treeFile (idealVolume 4 4) 0).size oneFile) 4 ≤ 12 / 4 by decide) rfl ?_)⟩
    refine Run.tail (.truncate 12)
      (Run.tail (.block (.write 1 (some [1, 2, 3, 4]))) Run.refl ?_ rfl) ?_ rfl
    · intro i n h
      cases h
    · show 12 < 2 ^ 64
      decide
  · have hsome : (runAll (DiskOp.run (idealVolume 512 8192)) partOps
        (Disk.create fun _ => 0)).2.isSome = true := by decide +kernel
    have hall : Along (DiskOp.run (idealVolume 512 8192)) (Disk.SizesFit (idealVolume 512 8192))
        partOps (Disk.create fun _ => 0) := by decide +kernel
    obtain ⟨d, hd⟩ := Option.isSome_iff_exists.1 hsome
    exact ⟨d, hd, inUse_inOrder (.partition _ 1 (hall.run hd))⟩

/-- Set to a minimum of one block, an empty file still has none. -/
theorem not_inOrder :
    (∃ s, FileVolume.Reached 4096 OsFile.empty 65536 s ∧
      ¬ (FileVolume.volume FileVolume.punchingHost 4096).InOrder s) ∧
    (∃ v s, FsVolume.create (treeFile (idealVolume 4 4) 0) 4 8 4
        ⟨fun _ => 0, 0, false, [⟨0, 0, []⟩]⟩ = .ok v s ∧
      ¬ (v.volume (treeFile (idealVolume 4 4) 0)).InOrder s) ∧
    ∃ d, (runAll (DiskOp.run (idealVolume 512 8192))
        [.create 6144 0, .setBaseBlockCount 0 2048, .setBaseBlockCount 0 4096]
        (Disk.create fun _ => 0)).2 = some d ∧
      ¬ (Disk.partition (idealVolume 512 8192) 0).InOrder d := by
  refine ⟨?_, ?_, ?_⟩
  · refine ⟨_, Run.tail (FileVolume.punchingHost, .setProperty .minSize 4096) Run.refl
      (show 4096 < 2 ^ 64 by decide) rfl, ?_⟩
    intro h
    exact absurd h.1 (by decide)
  · refine ⟨_, _, rfl, ?_⟩
    intro h
    exact absurd h.2 (by decide)
  · have hcounts : (runAll (DiskOp.run (idealVolume 512 8192))
        [.create 6144 0, .setBaseBlockCount 0 2048, .setBaseBlockCount 0 4096]
        (Disk.create fun _ => 0)).2.map (fun d =>
          ((Disk.partition (idealVolume 512 8192) 0).getMinBlockCount d,
            (Disk.partition (idealVolume 512 8192) 0).getBlockCount d)) =
        some (4096, 2048) := by decide +kernel
    obtain ⟨d, hd, hpair⟩ := Option.map_eq_some_iff.1 hcounts
    rw [Prod.mk.injEq] at hpair
    refine ⟨d, hd, ?_⟩
    intro h
    have hle := h.1
    rw [hpair.1, hpair.2] at hle
    omega

end ImageTool.Imgtool
