import ImageTool.Lib.Run
import ImageTool.Fstree.Steps

/-!
# The data area over whole runs

Sequences of operations on the files of an fstree whose volume is an ideal array.
`WellLaid` is what the rest of the program relies on, in the counts the source itself
computes; it follows from `Layout`, which every operation keeps as long as no block
address or block count leaves its machine word.
-/

namespace ImageTool.Fstree

open ImageTool.Lib ImageTool.Image

variable {σ : Type}

/-- The operations on file data. -/
inductive FileOp where
  | append (i : Nat) (data : Buffer) (size : Nat)
  | write (i offset : Nat) (data : Buffer) (size : Nat)
  | truncate (i size : Nat)
  | moveToEnd (i : Nat)
  | addGap (index size : Nat)

/-- Carry out an operation. -/
def FileOp.run (vol : Volume σ) : FileOp → Call (Fstree σ) Unit
  | append i data size => fileAppend vol i data size
  | write i offset data size => fileWrite vol i offset data size
  | truncate i size => fileTruncate vol i size
  | moveToEnd i => fileMoveToEnd vol i
  | addGap index size => Fstree.addGap vol index size

/-- The number of blocks of a file as `fstree_file_move_to_end` computes it. -/
def blkCount (bs : Nat) (n : FileNode) : Nat := blockCount (filePhysicalSize bs n) bs

/-- What the builders of images rely on. -/
structure WellLaid (bs : Nat) (fs : Fstree σ) : Prop where
  inside : ∀ n ∈ fs.files, filePhysicalSize bs n ≠ 0 →
    n.startIndex + blkCount bs n ≤ fs.dataOffset
  apart : ∀ (i j : Nat) (n m : FileNode), i ≠ j → fs.files[i]? = some n → fs.files[j]? = some m →
    filePhysicalSize bs n ≠ 0 → filePhysicalSize bs m ≠ 0 →
      n.startIndex + blkCount bs n ≤ m.startIndex ∨
        m.startIndex + blkCount bs m ≤ n.startIndex
  sorted : ∀ n ∈ fs.files, n.sparse.Pairwise fun r r' => r.index < r'.index
  disjoint : ∀ n ∈ fs.files, n.sparse.Pairwise fun r r' => ∀ i, r.Has i → ¬ r'.Has i
  nonempty : ∀ n ∈ fs.files, ∀ r ∈ n.sparse, 0 < r.count
  within : ∀ n ∈ fs.files, ∀ r ∈ n.sparse, r.index + r.count ≤ blockCount n.size bs

/-- No file stores blocks on both sides of the border in front of block `index`. -/
def NotInside (bs index : Nat) (fs : Fstree σ) : Prop :=
  ∀ n ∈ fs.files, filePhysicalSize bs n ≠ 0 →
    index ≤ n.startIndex ∨ n.startIndex + blkCount bs n ≤ index

/-- The block counts and block addresses an operation may need fit their words. -/
def Fits (bs : Nat) (fs : Fstree σ) : FileOp → Prop
  | .append i _ size => ∀ n, fs.files[i]? = some n →
      blockCount (n.size + size) bs < 2 ^ 32
  | .write i offset _ size => 0 < size → ∀ n, fs.files[i]? = some n →
      blockCount (max n.size (offset + size)) bs < 2 ^ 32 ∧
        fs.dataOffset + blockCount (max n.size (offset + size)) bs <
          2 ^ 64 + blkCount bs n
  | .truncate _ size => blockCount size bs < 2 ^ 32
  | .moveToEnd _ => True
  | .addGap index size => NotInside bs index fs ∧
      max index fs.dataOffset + gapSize bs size / bs < 2 ^ 64

/-- An fstree whose files are all empty. -/
structure Unused (fs : Fstree σ) : Prop where
  dataOffset : fs.dataOffset = 0
  size : ∀ n ∈ fs.files, n.size = 0
  sparse : ∀ n ∈ fs.files, n.sparse = []

section Invariant

variable {bs count : Nat} {fs fs' : Fstree σ}

theorem Within.pairwise {lo hi : Nat} {rs : List Region} (h : Within lo hi rs) :
    rs.Pairwise (fun r r' => r.index + r.count ≤ r'.index) ∧
      ∀ r ∈ rs, lo ≤ r.index ∧ 0 < r.count ∧ r.index + r.count ≤ hi := by
  induction rs generalizing lo with
  | nil => exact ⟨List.Pairwise.nil, by simp⟩
  | cons r rs ih =>
      obtain ⟨hstart, hpos, hrest⟩ := h
      obtain ⟨hpair, hbounds⟩ := ih hrest
      refine ⟨List.pairwise_cons.2 ⟨fun r' hr' => (hbounds r' hr').1, hpair⟩, ?_⟩
      intro r' hr'
      rcases List.mem_cons.1 hr' with rfl | hr'
      · exact ⟨hstart, hpos, hrest.le⟩
      · have := hbounds r' hr'
        omega

theorem LaidOut.blkCount_eq (h : LaidOut bs fs) (hbs : 0 < bs) (hbs' : bs < 2 ^ 32)
    {n : FileNode} (hn : n ∈ fs.files) : blkCount bs n = n.stored bs :=
  blockCount_filePhysicalSize hbs hbs' (h.valid n hn)

theorem LaidOut.stored_pos (h : LaidOut bs fs) (hbs : 0 < bs) (hbs' : bs < 2 ^ 32)
    {n : FileNode} (hn : n ∈ fs.files) : filePhysicalSize bs n ≠ 0 ↔ 0 < n.stored bs := by
  rw [Ne, filePhysicalSize_eq_zero hbs hbs' (h.valid n hn)]
  exact Nat.pos_iff_ne_zero.symm

theorem LaidOut.wellLaid (h : LaidOut bs fs) (hbs : 0 < bs) (hbs' : bs < 2 ^ 32) :
    WellLaid bs fs where
  inside := by
    intro n hn hsize
    obtain ⟨i, hi⟩ := List.getElem?_of_mem hn
    rw [h.blkCount_eq hbs hbs' hn]
    exact h.stop_le hi ((h.stored_pos hbs hbs' hn).1 hsize)
  apart := by
    intro i j n m hij hi hj hsizen hsizem
    have hn := List.mem_of_getElem? hi
    have hm := List.mem_of_getElem? hj
    rw [h.blkCount_eq hbs hbs' hn, h.blkCount_eq hbs hbs' hm]
    have hapart := h.packed.apart i j hij
    rw [extentAt_eq hi, extentAt_eq hj] at hapart
    exact hapart ((h.stored_pos hbs hbs' hn).1 hsizen) ((h.stored_pos hbs hbs' hm).1 hsizem)
  sorted := by
    intro n hn
    obtain ⟨hpair, hbounds⟩ := (h.valid n hn).within.pairwise
    apply hpair.imp_of_mem
    intro r r' hr _ hle
    have := (hbounds r hr).2.1
    omega
  disjoint := by
    intro n hn
    apply (h.valid n hn).within.pairwise.1.imp
    intro r r' hle i hin hin'
    unfold Region.Has at hin hin'
    omega
  nonempty n hn r hr := ((h.valid n hn).within.pairwise.2 r hr).2.1
  within n hn r hr := ((h.valid n hn).within.pairwise.2 r hr).2.2

theorem Unused.laidOut (h : Unused fs) : LaidOut bs fs where
  valid := by
    intro n hn
    have hblocks : n.blocks bs = 0 := by
      unfold FileNode.blocks
      rw [h.size n hn, blockCount_zero]
    refine ⟨?_, ?_, ?_⟩
    · rw [hblocks, h.sparse n hn]
      exact Nat.le_refl 0
    · rw [h.sparse n hn]
      simp
    · rw [h.size n hn]
      decide
  packed := by
    have hempty : ∀ i, ¬ 0 < (extentAt bs fs.files i).len := by
      intro i hi
      obtain ⟨n, hn⟩ := exists_of_extentAt_pos hi
      rw [extentAt_eq hn] at hi
      change 0 < blockCount n.size bs - total n.sparse at hi
      rw [h.size n (List.mem_of_getElem? hn), blockCount_zero, Nat.zero_sub] at hi
      omega
    exact ⟨fun i hi => absurd hi (hempty i), fun i j _ hi => absurd hi (hempty i)⟩
  top_lt := by
    rw [h.dataOffset]
    decide

theorem idealVolume_bounded (hbs : 0 < bs) (hbs' : bs < 2 ^ 32) (hcount : count < 2 ^ 64) :
    Bounded (idealVolume bs count) where
  blocksize_pos := hbs
  blocksize_lt := hbs'
  writeBlock := by
    intro s i b t hok
    rw [idealVolume_writeBlock] at hok
    split at hok
    · omega
    · cases hok
  writePartialBlock := by
    intro s i b off n t hok
    rw [idealVolume_writePartialBlock] at hok
    split at hok
    · omega
    · cases hok

/-- What an operation on one file needs of a file that is not there. -/
theorem returns_of_file {α : Type} {i : Nat} {m : Call (Fstree σ) α}
    {f : FileNode → Call (Fstree σ) α} (hm : m = file i >>= f) {Q : α → Fstree σ → Prop}
    {E : Fstree σ → Prop}
    (h : ∀ n, fs.files[i]? = some n → Call.Returns (m fs) Q E) : Call.Returns (m fs) Q E := by
  cases hn : fs.files[i]? with
  | some n => exact h n hn
  | none =>
      rw [hm, Call.bind_apply]
      unfold file
      rw [hn]
      trivial

/-- One operation. -/
theorem FileOp.run_laidOut {vol : Volume σ} (hvol : Bounded vol)
    (h : LaidOut vol.blocksize fs) {op : FileOp} (hfits : Fits vol.blocksize fs op)
    (hstep : (op.run vol fs).state? = some fs') : LaidOut vol.blocksize fs' := by
  have hbs := hvol.blocksize_pos
  have hbs' := hvol.blocksize_lt
  refine Call.Returns.state ?_ hstep
  cases op with
  | append i data size =>
      refine returns_of_file rfl fun n hn => ?_
      exact (fileAppend_resized hvol h hn data size (hfits n hn)).mono
        (fun _ _ hres => hres.layout) fun _ hlaid => hlaid
  | write i offset data size =>
      by_cases hzero : size = 0
      · subst hzero
        exact h
      · refine returns_of_file (m := fileWrite vol i offset data size) (if_neg hzero)
          fun n hn => ?_
        apply fileWrite_layout hvol offset data size h hn
        intro hpos
        obtain ⟨hblocks, hroom⟩ := hfits hpos n hn
        rw [h.blkCount_eq hbs hbs' (List.mem_of_getElem? hn)] at hroom
        exact ⟨hblocks, hroom⟩
  | truncate i size =>
      exact returns_of_file rfl fun n hn => fileTruncate_layout hvol h hn hfits
  | moveToEnd i =>
      refine returns_of_file rfl fun n hn => ?_
      exact (fileMoveToEnd_moved hvol h hn).mono (fun _ _ hmoved => hmoved.layout)
        fun _ hlaid => hlaid
  | addGap index size =>
      obtain ⟨hindex, hlt⟩ := hfits
      apply addGap_layout vol h _ hlt
      intro n hn hpos
      rw [← h.blkCount_eq hbs hbs' hn]
      exact hindex n hn ((h.stored_pos hbs hbs' hn).2 hpos)

/-- In every state reached from empty files on an ideal volume by operations whose
counts fit their words, the files are laid out as the rest of the program expects. -/
theorem run_wellLaid (hbs : 0 < bs) (hbs' : bs < 2 ^ 32) (hcount : count < 2 ^ 64)
    {fs fs' : Fstree Bytes} (hunused : Unused fs)
    (hrun : Run (fun op fs => (FileOp.run (idealVolume bs count) op fs).state?) (Fits bs)
      fs fs') : WellLaid bs fs' := by
  have hvol := idealVolume_bounded hbs hbs' hcount
  have hstart : LaidOut bs fs := hunused.laidOut
  have hlaid : LaidOut bs fs' :=
    hrun.invariant hstart fun _ _ _ h hfits hstep =>
      FileOp.run_laidOut hvol h hfits hstep
  exact hlaid.wellLaid hbs hbs'

/-- A stored block, and a gap in front of it. -/
theorem run_wellLaid_gap_in_front :
    ∃ fs : Fstree Bytes, fs.dataOffset = 2 ∧ fs.files = [⟨4, 1, []⟩, ⟨0, 1, []⟩] ∧
      WellLaid 4 fs := by
  let step := fun op (fs : Fstree Bytes) => (FileOp.run (idealVolume 4 4) op fs).state?
  let data := fun fs : Fstree Bytes => (fs.dataOffset, fs.files)
  let start : Fstree Bytes := ⟨fun _ => 0, 0, false, [⟨0, 0, []⟩, ⟨0, 0, []⟩]⟩
  have h₁ : (step (.append 0 (some [1, 2, 3, 4]) 4) start).map data =
      some (1, [⟨4, 0, []⟩, ⟨0, 0, []⟩]) := by decide +kernel
  have h₂ : ((step (.append 0 (some [1, 2, 3, 4]) 4) start).bind
      (step (.addGap 0 3))).map data = some (2, [⟨4, 1, []⟩, ⟨0, 1, []⟩]) := by
    decide +kernel
  obtain ⟨fs₁, hfs₁, hdata₁⟩ := Option.map_eq_some_iff.1 h₁
  rw [hfs₁, Option.bind_some] at h₂
  obtain ⟨fs₂, hfs₂, hdata₂⟩ := Option.map_eq_some_iff.1 h₂
  obtain ⟨hoffset₁, hfiles₁⟩ := Prod.mk.inj hdata₁
  obtain ⟨hoffset₂, hfiles₂⟩ := Prod.mk.inj hdata₂
  have hunused : Unused start := ⟨rfl, by decide, by decide⟩
  refine ⟨fs₂, hoffset₂, hfiles₂, run_wellLaid (by decide) (by decide)
    (show 4 < 2 ^ 64 by decide) hunused (Run.tail _ (Run.tail _ Run.refl ?_ hfs₁) ?_ hfs₂)⟩
  · intro n hn
    cases hn
    decide
  · refine ⟨?_, ?_⟩
    · unfold NotInside
      rw [hfiles₁]
      decide
    · rw [hoffset₁]
      decide

/-- A gap that ends at block `2 ^ 64`: the volume refuses it, and the first free block
has become block 0. -/
theorem addGap_wraps :
    ∃ fs fs' : Fstree Bytes,
      (FileOp.run (idealVolume 4 4) (.append 0 (some [1, 2, 3, 4]) 4)
        ⟨fun _ => 0, 0, false, [⟨0, 0, []⟩]⟩).state? = some fs ∧
      NotInside 4 (2 ^ 64 - 1) fs ∧
      FileOp.run (idealVolume 4 4) (.addGap (2 ^ 64 - 1) 4) fs = .fail fs' ∧
      ¬ WellLaid 4 fs' := by
  let step := fun op (fs : Fstree Bytes) => (FileOp.run (idealVolume 4 4) op fs).state?
  let data := fun fs : Fstree Bytes => (fs.dataOffset, fs.files)
  let start : Fstree Bytes := ⟨fun _ => 0, 0, false, [⟨0, 0, []⟩]⟩
  have h₁ : (step (.append 0 (some [1, 2, 3, 4]) 4) start).map data =
      some (1, [⟨4, 0, []⟩]) := by decide +kernel
  have h₂ : ((step (.append 0 (some [1, 2, 3, 4]) 4) start).map fun fs =>
      match FileOp.run (idealVolume 4 4) (.addGap (2 ^ 64 - 1) 4) fs with
      | .fail fs' => some (data fs')
      | _ => none) = some (some (0, [⟨4, 0, []⟩])) := by decide +kernel
  obtain ⟨fs, hfs, hdata⟩ := Option.map_eq_some_iff.1 h₁
  rw [hfs, Option.map_some, Option.some.injEq] at h₂
  split at h₂
  · rename_i fs' hfail
    obtain ⟨hoffset, hfiles⟩ := Prod.mk.inj (Option.some.inj h₂)
    refine ⟨fs, fs', hfs, ?_, hfail, ?_⟩
    · unfold NotInside
      rw [(Prod.mk.inj hdata).2]
      decide
    · intro hlaid
      have hinside := hlaid.inside ⟨4, 0, []⟩ (by rw [hfiles]; decide) (by decide)
      rw [hoffset] at hinside
      exact absurd hinside (by decide)
  · cases h₂

end Invariant

end ImageTool.Fstree
