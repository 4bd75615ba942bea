import ImageTool.Fstree.Sparse

/-!
# How many blocks a file stores

The source keeps no count of the stored blocks of a file: it subtracts the bytes in
sparse regions from the size, where a region that reaches over the end of the file
counts up to the end only.  Rounded up to blocks, that is the number of blocks of the
file less the number of sparse ones.
-/

namespace ImageTool.Fstree

open ImageTool.Lib

/-- The part of `tree_node_t` that describes a regular file. -/
structure FileNode where
  size : Nat
  startIndex : Nat
  sparse : List Region
  deriving DecidableEq

/-- One round of `fstree_file_sparse_bytes`. -/
def addSparse (bs size count : Nat) (it : Region) : Nat :=
  let start := u64 (it.index * bs)
  let length := u64 (it.count * bs)
  if start ≥ size then count
  else u64 (count + if length > size - start then size - start else length)

/-- `fstree_file_sparse_bytes`. -/
def fileSparseBytes (bs : Nat) (n : FileNode) : Nat :=
  n.sparse.foldl (addSparse bs n.size) 0

/-- `fstree_file_physical_size`. -/
def filePhysicalSize (bs : Nat) (n : FileNode) : Nat :=
  let sparse := fileSparseBytes bs n
  if sparse ≥ n.size then 0 else n.size - sparse

/-- The blocks of a file, stored or not. -/
def FileNode.blocks (bs : Nat) (n : FileNode) : Nat := blockCount n.size bs

/-- The blocks of a file that lie on the volume. -/
def FileNode.stored (bs : Nat) (n : FileNode) : Nat := n.blocks bs - total n.sparse

/-- The sparse list of a file fits its size, and the fields fit their words. -/
structure FileNode.Valid (bs : Nat) (n : FileNode) : Prop where
  within : Within 0 (n.blocks bs) n.sparse
  words : ∀ r ∈ n.sparse, r.index < 2 ^ 32 ∧ r.count < 2 ^ 32
  size_lt : n.size < 2 ^ 64

instance (bs : Nat) (n : FileNode) : Decidable (n.Valid bs) :=
  decidable_of_iff (Within 0 (n.blocks bs) n.sparse ∧
      (∀ r ∈ n.sparse, r.index < 2 ^ 32 ∧ r.count < 2 ^ 32) ∧ n.size < 2 ^ 64)
    ⟨fun h => ⟨h.1, h.2.1, h.2.2⟩, fun h => ⟨h.within, h.words, h.size_lt⟩⟩

section

variable {bs : Nat}

/-- Regions of a file of fewer than `2 ^ 32` blocks fit their words. -/
theorem FileNode.Valid.of_blocks {n : FileNode} (hbs : 0 < bs) (hbs' : bs < 2 ^ 32)
    (hwithin : Within 0 (n.blocks bs) n.sparse) (hblocks : n.blocks bs < 2 ^ 32) :
    n.Valid bs where
  within := hwithin
  words := by
    intro r hr
    have hbounds := hwithin.region hr
    omega
  size_lt := lt_of_blockCount_lt hbs hbs' hblocks

private theorem within_top {hi : Nat} {rs : List Region} (h : Within hi hi rs) : rs = [] := by
  cases rs with
  | nil => rfl
  | cons r rs =>
      have hend := h.2.2.le
      have hpos := h.2.1
      have hstart := h.1
      omega

/-- Bytes are counted as `count` blocks for each region, less what a region that covers the
last block has behind the end of the file. -/
private theorem sparseFold_add {size lo acc : Nat} {rs : List Region} (hbs : 0 < bs)
    (hbs' : bs < 2 ^ 32) (hsize : size < 2 ^ 64) (h : Within lo (blockCount size bs) rs)
    (hwords : ∀ r ∈ rs, r.index < 2 ^ 32 ∧ r.count < 2 ^ 32) (hacc : acc ≤ lo * bs) :
    ∃ e, (Covers rs (blockCount size bs - 1) → e + size = blockCount size bs * bs) ∧
      (¬ Covers rs (blockCount size bs - 1) → e = 0) ∧
      rs.foldl (addSparse bs size) acc + e = acc + total rs * bs := by
  induction rs generalizing lo acc with
  | nil => exact ⟨0, fun hcover => absurd hcover (covers_nil _), fun _ => rfl, by simp⟩
  | cons r rs ih =>
      obtain ⟨hstart, hpos, hrest⟩ := h
      have hend := hrest.le
      have hlt : r.index * bs < size := (lt_blockCount_iff hbs).1 (by omega)
      have hlow : acc ≤ r.index * bs := Nat.le_trans hacc (Nat.mul_le_mul_right _ hstart)
      have hstop : r.index * bs + r.count * bs ≤ blockCount size bs * bs := by
        rw [← Nat.add_mul]
        exact Nat.mul_le_mul_right _ hend
      have hge : size ≤ blockCount size bs * bs := blockCount_mul_ge hbs
      obtain ⟨hindex, hcount⟩ := hwords r List.mem_cons_self
      have hindex' : r.index * bs < 2 ^ 32 * 2 ^ 32 := Nat.mul_lt_mul'' hindex hbs'
      have hcount' : r.count * bs < 2 ^ 32 * 2 ^ 32 := Nat.mul_lt_mul'' hcount hbs'
      have hround : addSparse bs size acc r = acc +
          if r.count * bs > size - r.index * bs then size - r.index * bs
          else r.count * bs := by
        unfold addSparse
        dsimp only
        rw [u64_of_lt (show r.index * bs < 2 ^ 64 by omega),
          u64_of_lt (show r.count * bs < 2 ^ 64 by omega), if_neg (by omega),
          u64_of_lt (by split <;> omega)]
      rw [List.foldl_cons, hround, total_cons, Nat.add_mul]
      by_cases hlast : r.index + r.count = blockCount size bs
      · -- the last region: nothing follows it
        rw [hlast] at hrest
        rw [within_top hrest, List.foldl_nil, total_nil]
        have hcover : Covers [r] (blockCount size bs - 1) := by
          rw [covers_cons]
          left
          unfold Region.Has
          omega
        have hstop' : r.index * bs + r.count * bs = blockCount size bs * bs := by
          rw [← Nat.add_mul, hlast]
        refine ⟨blockCount size bs * bs - size, fun _ => by omega, fun h => absurd hcover h, ?_⟩
        split <;> omega
      · have hin : r.index * bs + r.count * bs < size := by
          rw [← Nat.add_mul]
          exact (lt_blockCount_iff hbs).1 (by omega)
        rw [if_neg (by omega)]
        have hacc' : acc + r.count * bs ≤ (r.index + r.count) * bs := by
          rw [Nat.add_mul]
          omega
        obtain ⟨e, he, he', hfold⟩ :=
          ih hrest (fun r' hr' => hwords r' (List.mem_cons_of_mem r hr')) hacc'
        have hsame : Covers (r :: rs) (blockCount size bs - 1) ↔
            Covers rs (blockCount size bs - 1) := by
          rw [covers_cons, or_iff_right]
          unfold Region.Has
          omega
        exact ⟨e, fun h => he (hsame.1 h), fun h => he' fun h' => h (hsame.2 h'), by omega⟩

theorem stored_le {n : FileNode} : n.stored bs ≤ n.blocks bs := Nat.sub_le _ _

theorem FileNode.Valid.total_le {n : FileNode} (h : n.Valid bs) :
    total n.sparse ≤ n.blocks bs := by
  have := h.within.total_le
  omega

/-- The stored bytes of a file: whole blocks where the last one is sparse, and else the
blocks less what the last one has behind the end of the file. -/
theorem filePhysicalSize_eq {n : FileNode} (hbs : 0 < bs) (hbs' : bs < 2 ^ 32)
    (h : n.Valid bs) :
    (Covers n.sparse (n.blocks bs - 1) → filePhysicalSize bs n = n.stored bs * bs) ∧
      (¬ Covers n.sparse (n.blocks bs - 1) →
        filePhysicalSize bs n + n.blocks bs * bs = n.stored bs * bs + n.size) := by
  obtain ⟨e, he, he', hsum⟩ :=
    sparseFold_add hbs hbs' h.size_lt h.within h.words (Nat.zero_le _)
  rw [Nat.zero_add] at hsum
  change fileSparseBytes bs n + e = _ at hsum
  have htotal := h.total_le
  have hge : n.size ≤ n.blocks bs * bs := blockCount_mul_ge hbs
  have hmul : total n.sparse * bs + n.stored bs * bs = n.blocks bs * bs := by
    unfold FileNode.stored
    rw [← Nat.add_mul, Nat.add_sub_cancel' htotal]
  unfold filePhysicalSize
  dsimp only
  constructor
  · intro hcover
    have hrest : e + n.size = n.blocks bs * bs := he hcover
    split <;> omega
  · intro hfree
    have hrest := he' hfree
    rcases Nat.eq_zero_or_pos n.size with hzero | hpos
    · have hnone : n.blocks bs = 0 := by
        unfold FileNode.blocks
        rw [hzero, blockCount_zero]
      rw [hnone, Nat.zero_mul] at hmul ⊢
      split <;> omega
    · have hblocks := blockCount_pos hbs hpos
      change 0 < n.blocks bs at hblocks
      have hlast : (n.blocks bs - 1) * bs < n.size :=
        (lt_blockCount_iff hbs).1 (Nat.sub_lt hblocks Nat.one_pos)
      have hnext : (n.blocks bs - 1) * bs + bs = n.blocks bs * bs := by
        rw [← Nat.succ_mul, Nat.succ_eq_add_one, Nat.sub_add_cancel hblocks]
      -- a stored block is left, since the last one is not covered
      have hfew := h.within.total_lt (Nat.zero_le _) (Nat.sub_lt hblocks Nat.one_pos) hfree
      rw [Nat.zero_add] at hfew
      have hle := Nat.mul_le_mul_right bs (Nat.le_sub_one_of_lt hfew)
      split <;> omega

/-- The count the source computes from the physical size. -/
theorem blockCount_filePhysicalSize {n : FileNode} (hbs : 0 < bs) (hbs' : bs < 2 ^ 32)
    (h : n.Valid bs) : blockCount (filePhysicalSize bs n) bs = n.stored bs := by
  obtain ⟨hwhole, hpart⟩ := filePhysicalSize_eq hbs hbs' h
  by_cases hcover : Covers n.sparse (n.blocks bs - 1)
  · rw [hwhole hcover, blockCount_mul hbs]
  have hsize := hpart hcover
  have hge : n.size ≤ n.blocks bs * bs := blockCount_mul_ge hbs
  rcases Nat.eq_zero_or_pos (n.blocks bs) with hzero | hpos
  · have hstored : n.stored bs = 0 := by
      have hle : n.stored bs ≤ n.blocks bs := stored_le
      omega
    rw [hzero, Nat.zero_mul] at hge
    rw [hstored, hzero, Nat.zero_mul] at hsize
    rw [hstored, show filePhysicalSize bs n = 0 by omega, blockCount_zero]
  have hlast : (n.blocks bs - 1) * bs < n.size :=
    (lt_blockCount_iff hbs).1 (Nat.sub_lt hpos Nat.one_pos)
  have hnext : (n.blocks bs - 1) * bs + bs = n.blocks bs * bs := by
    rw [← Nat.succ_mul, Nat.succ_eq_add_one, Nat.sub_add_cancel hpos]
  have hfew := h.within.total_lt (Nat.zero_le _) (Nat.sub_lt hpos Nat.one_pos) hcover
  have hstored : 0 < n.stored bs := by
    unfold FileNode.stored
    omega
  have hprev : (n.stored bs - 1) * bs + bs = n.stored bs * bs := by
    rw [← Nat.succ_mul, Nat.succ_eq_add_one, Nat.sub_add_cancel hstored]
  apply Nat.le_antisymm
  · rw [blockCount_le_iff hbs]
    omega
  · have hlt : n.stored bs - 1 < blockCount (filePhysicalSize bs n) bs :=
      (lt_blockCount_iff hbs).2 (by omega)
    omega

theorem filePhysicalSize_eq_zero {n : FileNode} (hbs : 0 < bs) (hbs' : bs < 2 ^ 32)
    (h : n.Valid bs) : filePhysicalSize bs n = 0 ↔ n.stored bs = 0 := by
  rw [← blockCount_filePhysicalSize hbs hbs' h]
  constructor
  · intro hzero
    rw [hzero, blockCount_zero]
  · intro hzero
    by_contra hpos
    have := blockCount_pos hbs (Nat.pos_of_ne_zero hpos)
    omega

end

end ImageTool.Fstree
