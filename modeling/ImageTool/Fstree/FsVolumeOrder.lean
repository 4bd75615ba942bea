import ImageTool.Fstree.FsVolume
import ImageTool.Fstree.Steps
import ImageTool.Image.SizeContract

/-!
# The block counts of a volume in a file of a tree

The minimum and the maximum of the volume are fixed when it is created; the current size is
that of the file.  `SizeLaw` says what the three calls do to the size of a file, also where
they fail, and `treeFile_sizeLaw` that `fstree_file_read`, `fstree_file_write` and
`fstree_file_truncate` obey it.

Nothing compares the two limits with each other, or the maximum with the size the file has.
A discard below the minimum cuts the file first and extends it again then, so a failure in
between leaves it too short.
-/

namespace ImageTool.Fstree

open ImageTool.Lib ImageTool.Image ImageTool.Util

variable {σ : Type}

/-! ## Sizes -/

/-- What reading, writing and truncating do to the size of the file. -/
structure FileCalls.SizeLaw (file : FileCalls σ) : Prop where
  read : ∀ off n a, (file.read off n).Keeps (fun s => file.size s = a)
  write : ∀ s off b n, off + n < 2 ^ 64 → Call.Returns (file.write off b n s)
    (fun _ t => file.size s ≤ file.size t ∧ file.size t ≤ max (file.size s) (off + n))
    (fun t => file.size s ≤ file.size t ∧ file.size t ≤ max (file.size s) (off + n))
  truncate : ∀ s n, n < 2 ^ 64 → Call.Returns (file.truncate n s)
    (fun _ t => file.size t = n)
    (fun t => min (file.size s) n ≤ file.size t ∧ file.size t ≤ max (file.size s) n)

/-- File `i` of a tree and the calls on it. -/
def treeFile (vol : Volume σ) (i : Nat) : FileCalls (Fstree σ) where
  size fs := (fs.files[i]?.map FileNode.size).getD 0
  read := fileRead vol i
  write := fileWrite vol i
  truncate := fileTruncate vol i

/-- File `i` has `a` bytes. -/
def HasSize (i a : Nat) (fs : Fstree σ) : Prop := fs.files[i]?.map FileNode.size = some a

section Sizes

variable {vol : Volume σ} {i j a : Nat} {fs : Fstree σ}

theorem HasSize.size_eq (h : HasSize i a fs) : (treeFile vol i).size fs = a := by
  show (fs.files[i]?.map FileNode.size).getD 0 = a
  rw [h]
  rfl

theorem onVolume_hasSize {α : Type} (m : Call σ α) :
    (onVolume m).Keeps (HasSize i a) := fun _ h =>
  onVolume_returns (fun _ _ _ => h) fun _ => h

theorem updateFile_hasSize {f : FileNode → FileNode} (hf : ∀ n, (f n).size = n.size) :
    (updateFile j f : Call (Fstree σ) Unit).Keeps (HasSize i a) := by
  intro fs h
  show (fs.files.modify j f)[i]?.map FileNode.size = some a
  rw [List.getElem?_modify, Option.map_eq_map, Option.map_map, ← h]
  congr 1
  funext n
  show (if j = i then f n else n).size = n.size
  split
  · exact hf n
  · rfl

theorem updateFiles_hasSize {f : FileNode → FileNode} (hf : ∀ n, (f n).size = n.size) :
    (updateFiles f : Call (Fstree σ) Unit).Keeps (HasSize i a) := by
  intro fs h
  show (fs.files.map f)[i]?.map FileNode.size = some a
  rw [List.getElem?_map, Option.map_map, ← h]
  congr 1
  funext n
  exact hf n

theorem setDataOffset_hasSize (index : Nat) :
    (setDataOffset index : Call (Fstree σ) Unit).Keeps (HasSize i a) := fun _ h => h

theorem file_hasSize : (file j : Call (Fstree σ) FileNode).Keeps (HasSize i a) := by
  intro fs h
  unfold file
  cases fs.files[j]? with
  | none => trivial
  | some n => exact h

private theorem get_hasSize : (Call.get : Call (Fstree σ) (Fstree σ)).Keeps (HasSize i a) :=
  fun _ h => h

private theorem guard_hasSize {c : Prop} [Decidable c] {m : Call (Fstree σ) Unit}
    (hm : m.Keeps (HasSize i a)) : (Call.guard c m).Keeps (HasSize i a) :=
  Call.Keeps.ite hm (Call.Keeps.pure _)

/-! ### Calls that leave the sizes alone -/

theorem fileMoveToEnd_hasSize : (fileMoveToEnd vol j).Keeps (HasSize i a) := by
  refine Call.Keeps.bind file_hasSize fun n => Call.Keeps.bind get_hasSize fun fs => ?_
  refine Call.Keeps.ite (updateFile_hasSize fun _ => rfl) (Call.Keeps.ite (Call.Keeps.pure _) ?_)
  refine Call.Keeps.bind (onVolume_hasSize _) fun _ => ?_
  refine Call.Keeps.bind (onVolume_hasSize _) fun _ => ?_
  refine Call.Keeps.bind (onVolume_hasSize _) fun _ => ?_
  refine Call.Keeps.bind (updateFile_hasSize fun _ => rfl) fun _ => ?_
  apply updateFiles_hasSize
  intro fit
  unfold closeBehind
  split
  · rfl
  · split
    · rfl
    · rfl

theorem appendToTail_hasSize (tailIndex tailSize : Nat) (data : Buffer) (size : Nat) :
    (appendToTail vol j tailIndex tailSize data size).Keeps (HasSize i a) := by
  refine Call.Keeps.bind file_hasSize fun n => ?_
  dsimp only
  split
  · exact onVolume_hasSize _
  · refine Call.Keeps.ite (Call.Keeps.pure _) (Call.Keeps.bind fileMoveToEnd_hasSize fun _ => ?_)
    refine Call.Keeps.bind get_hasSize fun fs => ?_
    refine Call.Keeps.bind (onVolume_hasSize _) fun _ => ?_
    refine Call.Keeps.bind (setDataOffset_hasSize _) fun _ => ?_
    exact Call.Keeps.bind (updateFile_hasSize fun _ => rfl) fun _ => onVolume_hasSize _

theorem appendBlock_hasSize (data : Buffer) (size : Nat) :
    (appendBlock vol j data size).Keeps (HasSize i a) := by
  refine Call.Keeps.bind fileMoveToEnd_hasSize fun _ => Call.Keeps.bind get_hasSize fun fs => ?_
  refine Call.Keeps.bind (Call.Keeps.ite (onVolume_hasSize _) ?_) fun _ =>
    setDataOffset_hasSize _
  exact Call.Keeps.bind (onVolume_hasSize _) fun _ => onVolume_hasSize _

theorem removeFileBlock_hasSize (realIndex index : Nat) :
    (removeFileBlock vol j realIndex index).Keeps (HasSize i a) := by
  refine Call.Keeps.bind get_hasSize fun fs => Call.Keeps.bind (onVolume_hasSize _) fun _ => ?_
  refine Call.Keeps.bind (setDataOffset_hasSize _) fun _ => ?_
  exact Call.Keeps.bind (updateFile_hasSize fun _ => rfl) fun _ => onVolume_hasSize _

theorem insertSparseBlock_hasSize (realIndex index : Nat) :
    (insertSparseBlock vol j realIndex index).Keeps (HasSize i a) := by
  refine Call.Keeps.bind get_hasSize fun fs => Call.Keeps.bind (onVolume_hasSize _) fun _ => ?_
  refine Call.Keeps.bind (setDataOffset_hasSize _) fun _ => ?_
  exact Call.Keeps.bind (updateFile_hasSize fun _ => rfl) fun _ => onVolume_hasSize _

theorem removeStored_hasSize (start index : Nat) :
    (removeStored vol j start index).Keeps (HasSize i a) :=
  Call.Keeps.bind file_hasSize fun _ => Call.Keeps.bind fileMoveToEnd_hasSize fun _ =>
    Call.Keeps.bind file_hasSize fun _ => removeFileBlock_hasSize _ _

theorem writeStored_hasSize (start index : Nat) (data : Buffer) (offset size : Nat) :
    (writeStored vol j start index data offset size).Keeps (HasSize i a) := by
  refine Call.Keeps.bind file_hasSize fun _ => Call.Keeps.bind get_hasSize fun _ => ?_
  refine Call.Keeps.ite (Call.Keeps.ite (removeStored_hasSize _ _) (onVolume_hasSize _)) ?_
  exact Call.Keeps.ite (removeStored_hasSize _ _) (onVolume_hasSize _)

theorem writePartialBlock_hasSize (index : Nat) (data : Buffer) (offset size : Nat) :
    (writePartialBlock vol j index data offset size).Keeps (HasSize i a) := by
  refine Call.Keeps.bind file_hasSize fun n => ?_
  dsimp only
  split
  · exact writeStored_hasSize _ _ _ _ _
  · refine Call.Keeps.ite (Call.Keeps.pure _) (Call.Keeps.bind fileMoveToEnd_hasSize fun _ => ?_)
    refine Call.Keeps.bind file_hasSize fun m => ?_
    exact Call.Keeps.bind (insertSparseBlock_hasSize _ _) fun _ =>
      writeStored_hasSize _ _ _ _ _

theorem fileWriteLoop_hasSize (fuel blkIndex : Nat) (data : Buffer) (blkOffset size : Nat) :
    (fileWriteLoop vol j fuel blkIndex data blkOffset size).Keeps (HasSize i a) := by
  induction fuel generalizing blkIndex data blkOffset size with
  | zero => exact Call.Keeps.ite (Call.Keeps.pure _) Call.Keeps.stuck
  | succ fuel ih =>
      exact Call.Keeps.ite (Call.Keeps.pure _) (Call.Keeps.bind
        (writePartialBlock_hasSize _ _ _ _) fun _ => ih _ _ _ _)

theorem readPartialBlock_hasSize (index offset size : Nat) :
    (readPartialBlock vol j index offset size).Keeps (HasSize i a) := by
  refine Call.Keeps.bind file_hasSize fun n => ?_
  dsimp only
  split
  · exact Call.Keeps.pure _
  · exact Call.Keeps.ite (onVolume_hasSize _) (onVolume_hasSize _)

theorem fileReadLoop_hasSize (fuel blkIndex blkOffset size : Nat) :
    (fileReadLoop vol j fuel blkIndex blkOffset size).Keeps (HasSize i a) := by
  induction fuel generalizing blkIndex blkOffset size with
  | zero => exact Call.Keeps.ite (Call.Keeps.pure _) Call.Keeps.stuck
  | succ fuel ih =>
      exact Call.Keeps.ite (Call.Keeps.pure _) (Call.Keeps.bind
        (readPartialBlock_hasSize _ _ _) fun _ => Call.Keeps.bind (ih _ _ _) fun _ =>
        Call.Keeps.pure _)

theorem fileRead_hasSize (offset size : Nat) :
    (fileRead vol j offset size).Keeps (HasSize i a) := by
  refine Call.Keeps.ite (Call.Keeps.pure _) (Call.Keeps.bind file_hasSize fun n => ?_)
  exact Call.Keeps.ite (Call.Keeps.pure _) (Call.Keeps.bind (fileReadLoop_hasSize _ _ _ _)
    fun _ => Call.Keeps.pure _)

/-! ### Appending, writing and truncating -/

/-- The size of file `i` lies between two bounds. -/
def SizeBetween (i lo hi : Nat) (fs : Fstree σ) : Prop := ∃ b, HasSize i b fs ∧ lo ≤ b ∧ b ≤ hi

theorem HasSize.between (h : HasSize i a fs) {lo hi : Nat} (hlo : lo ≤ a) (hhi : a ≤ hi) :
    SizeBetween i lo hi fs := ⟨a, h, hlo, hhi⟩

theorem SizeBetween.widen {lo hi lo' hi' : Nat} (h : SizeBetween i lo hi fs) (hlo : lo' ≤ lo)
    (hhi : hi ≤ hi') : SizeBetween i lo' hi' fs := by
  obtain ⟨b, hb, hle, hge⟩ := h
  exact ⟨b, hb, Nat.le_trans hlo hle, Nat.le_trans hge hhi⟩

/-- The node of a file of `a` bytes has that size. -/
private theorem file_returns {α : Type} {f : FileNode → Call (Fstree σ) α}
    {Q : α → Fstree σ → Prop} {E : Fstree σ → Prop} (h : HasSize i a fs)
    (hf : ∀ n, fs.files[i]? = some n → n.size = a → Call.Returns (f n fs) Q E) :
    Call.Returns ((file i >>= f) fs) Q E := by
  obtain ⟨n, hn, hsize⟩ := Option.map_eq_some_iff.1 h
  rw [Call.bind_apply, file_eq hn]
  exact hf n hn hsize

variable (vol) in
theorem appendChunk_size (h : HasSize i a fs) (tailIndex tailSize : Nat) (data : Buffer)
    {diff : Nat} (h64 : a + diff < 2 ^ 64) :
    Call.Returns (appendChunk vol i tailIndex tailSize data diff fs)
      (fun _ => HasSize i (a + diff)) (HasSize i a) := by
  have hstore : (if tailSize > 0 then appendToTail vol i tailIndex tailSize data diff
      else if fs.noSparse = false ∧ isNullOrZero data diff then
        updateFile i fun n => { n with sparse := markSparse n.sparse tailIndex }
      else appendBlock vol i data diff).Keeps (HasSize i a) :=
    Call.Keeps.ite (appendToTail_hasSize _ _ _ _) (Call.Keeps.ite
      (updateFile_hasSize fun _ => rfl) (appendBlock_hasSize _ _))
  unfold appendChunk
  rw [Call.bind_apply, Call.get_apply, Outcome.bind_ok]
  refine (hstore fs h).bind fun _ t ht => ?_
  obtain ⟨n, hn, hsize⟩ := Option.map_eq_some_iff.1 ht
  show (t.files.modify i fun n => { n with size := u64 (n.size + diff) })[i]?.map
    FileNode.size = some (a + diff)
  rw [List.getElem?_modify, hn]
  simp only [Option.map_eq_map, if_true, Option.map_some, Option.some.injEq]
  rw [hsize, u64_of_lt h64]

theorem fileAppendLoop_size (fuel tailIndex tailSize : Nat) (data : Buffer) (size : Nat)
    (h : HasSize i a fs) (h64 : a + size < 2 ^ 64) :
    Call.Returns (fileAppendLoop vol i fuel tailIndex tailSize data size fs)
      (fun _ => HasSize i (a + size)) (SizeBetween i a (a + size)) := by
  induction fuel generalizing tailIndex tailSize data size a fs with
  | zero =>
      unfold fileAppendLoop
      split
      · rename_i hzero
        rw [hzero]
        exact h
      · trivial
  | succ fuel ih =>
      unfold fileAppendLoop
      by_cases hzero : size = 0
      · rw [if_pos hzero, hzero]
        exact h
      · rw [if_neg hzero]
        generalize hdiff : (if vol.blocksize - tailSize > size then size
          else vol.blocksize - tailSize) = diff
        have hle : diff ≤ size := by
          subst hdiff
          split <;> omega
        have hsum : a + diff + (size - diff) = a + size := by omega
        have hchunk := appendChunk_size vol h tailIndex tailSize data
          (show a + diff < 2 ^ 64 by omega)
        apply Call.Returns.bind (hchunk.mono (F := SizeBetween i a (a + size))
          (fun _ _ ht => ht) fun t ht => ht.between (Nat.le_refl _) (Nat.le_add_right _ _))
        intro _ t ht
        have hrest := ih (u64 (tailIndex + 1)) 0 (data.advance diff) (size - diff) ht
          (by omega)
        rw [hsum] at hrest
        exact hrest.mono (fun _ _ hu => hu) fun _ hu =>
          hu.widen (Nat.le_add_right _ _) (Nat.le_refl _)

variable (vol) in
theorem fileAppend_size (h : HasSize i a fs) (data : Buffer) (size : Nat)
    (h64 : a + size < 2 ^ 64) :
    Call.Returns (fileAppend vol i data size fs) (fun _ => HasSize i (a + size))
      (SizeBetween i a (a + size)) :=
  file_returns h fun _ _ _ => fileAppendLoop_size _ _ _ _ _ h h64

/-- An append under a condition. -/
private theorem guard_append_size {c : Prop} [Decidable c] (h : HasSize i a fs)
    {m : Call (Fstree σ) Unit} {b : Nat}
    (hm : c → Call.Returns (m fs) (fun _ => HasSize i b) (SizeBetween i a b))
    (hskip : ¬ c → a = b) :
    Call.Returns (Call.guard c m fs) (fun _ => HasSize i b) (SizeBetween i a b) :=
  Call.Returns.guard hm fun hc => by rw [← hskip hc]; exact h

theorem fileWrite_size (h : HasSize i a fs) (offset : Nat) (data : Buffer) {size : Nat}
    (h64 : offset + size < 2 ^ 64) :
    Call.Returns (fileWrite vol i offset data size fs)
      (fun _ => SizeBetween i a (max a (offset + size)))
      (SizeBetween i a (max a (offset + size))) := by
  unfold fileWrite
  split
  · exact h.between (Nat.le_refl _) (Nat.le_max_left _ _)
  · refine file_returns h fun n _ hsize => ?_
    -- a gap in front of the data
    have hgap : Call.Returns (Call.guard (offset > n.size)
        (fileAppend vol i none (offset - n.size)) fs)
        (fun _ => HasSize i (max a offset)) (SizeBetween i a (max a offset)) := by
      apply guard_append_size h
      · intro hbehind
        have happend := fileAppend_size vol h none (offset - n.size) (by omega)
        rwa [show a + (offset - n.size) = max a offset by omega] at happend
      · intro hinside
        omega
    apply Call.Returns.bind (hgap.mono (F := SizeBetween i a (max a (offset + size)))
      (fun _ _ ht => ht) fun _ ht => ht.widen (Nat.le_refl _) (by omega))
    intro _ t ht
    refine file_returns ht fun n' _ hsize' => ?_
    -- the bytes behind the end of the file
    have hmore : Call.Returns (Call.guard (size > n'.size - offset)
        (if data = none ∧ n'.size - offset ≠ 0 then Call.stuck
          else fileAppend vol i (data.advance (n'.size - offset)) (size - (n'.size - offset))) t)
        (fun _ => HasSize i (max a (offset + size)))
        (SizeBetween i (max a offset) (max a (offset + size))) := by
      apply guard_append_size ht
      · intro hover
        split
        · trivial
        · have happend := fileAppend_size vol ht (data.advance (n'.size - offset))
            (size - (n'.size - offset)) (by omega)
          rwa [show max a offset + (size - (n'.size - offset)) = max a (offset + size) by
            omega] at happend
      · intro hinside
        omega
    apply Call.Returns.bind (hmore.mono (F := SizeBetween i a (max a (offset + size)))
      (fun _ _ hu => hu) fun _ hu => hu.widen (by omega) (Nat.le_refl _))
    intro _ u hu
    exact (fileWriteLoop_hasSize _ _ _ _ _ u hu).mono
      (fun _ _ hw => hw.between (by omega) (Nat.le_refl _))
      fun _ hw => hw.between (by omega) (Nat.le_refl _)

theorem fileShrink_size (h : HasSize i a fs) (size : Nat) :
    (Call.Returns (fileShrink vol i size fs) (fun _ => HasSize i size) (HasSize i size)) := by
  refine file_returns h fun n hn _ => ?_
  change Call.Returns ((updateFile i (fun _ => cutNode vol.blocksize size n) >>= fun _ => _) fs)
    _ _
  rw [Call.bind_apply, updateFile_apply, Outcome.bind_ok]
  have hset : HasSize i size
      { fs with files := fs.files.modify i fun _ => cutNode vol.blocksize size n } := by
    show (fs.files.modify i fun _ => cutNode vol.blocksize size n)[i]?.map FileNode.size =
      some size
    rw [List.getElem?_modify, hn]
    simp only [Option.map_eq_map, if_true, Option.map_some]
    rfl
  refine Call.Keeps.bind (P := HasSize i size) (guard_hasSize ?_)
    (fun _ => guard_hasSize (onVolume_hasSize _)) _ hset
  refine Call.Keeps.bind get_hasSize fun _ => Call.Keeps.bind (onVolume_hasSize _) fun _ => ?_
  refine Call.Keeps.bind (onVolume_hasSize _) fun _ => ?_
  refine Call.Keeps.bind (setDataOffset_hasSize _) fun _ => updateFiles_hasSize ?_
  intro fit
  unfold closeCut
  split
  · rfl
  · split
    · rfl
    · rfl

theorem fileTruncate_size (h : HasSize i a fs) {size : Nat} (h64 : size < 2 ^ 64) :
    Call.Returns (fileTruncate vol i size fs) (fun _ => HasSize i size)
      (SizeBetween i (min a size) (max a size)) := by
  refine file_returns h fun n _ hsize => ?_
  split
  · have happend := fileAppend_size vol h none (size - n.size) (by omega)
    rw [show a + (size - n.size) = size by omega] at happend
    exact happend.mono (fun _ _ ht => ht) fun _ ht => ht.widen (by omega) (by omega)
  · split
    · rename_i heq
      rw [heq, hsize]
      exact h
    · exact (fileShrink_size h size).mono (fun _ _ ht => ht) fun _ ht =>
        ht.between (by omega) (by omega)

/-- Every call follows the pointer to the file first. -/
private theorem hasSize_or_stuck (vol : Volume σ) (i : Nat) (fs : Fstree σ) :
    HasSize i ((treeFile vol i).size fs) fs ∨
      ∀ {α : Type} (f : FileNode → Call (Fstree σ) α), (file i >>= f) fs = .stuck := by
  cases hfs : fs.files[i]? with
  | none =>
      right
      intro α f
      rw [Call.bind_apply, file, hfs]
      rfl
  | some n =>
      have h : HasSize i n.size fs := by rw [HasSize, hfs, Option.map_some]
      left
      rw [h.size_eq]
      exact h

/-- The calls on a file of a tree obey the law. -/
theorem treeFile_sizeLaw (vol : Volume σ) (i : Nat) : (treeFile vol i).SizeLaw where
  read off n a := by
    intro fs hfs
    show Call.Returns (fileRead vol i off n fs) _ _
    cases hasSize_or_stuck vol i fs with
    | inl h =>
        rw [hfs] at h
        exact (fileRead_hasSize off n fs h).mono (fun _ _ ht => ht.size_eq)
          fun _ ht => ht.size_eq
    | inr hstuck =>
        unfold fileRead
        split
        · exact hfs
        · rw [hstuck]
          trivial
  write fs off b n h64 := by
    show Call.Returns (fileWrite vol i off b n fs) _ _
    cases hasSize_or_stuck vol i fs with
    | inl h =>
        have hbetween : ∀ t, SizeBetween i ((treeFile vol i).size fs)
            (max ((treeFile vol i).size fs) (off + n)) t →
            (treeFile vol i).size fs ≤ (treeFile vol i).size t ∧
              (treeFile vol i).size t ≤ max ((treeFile vol i).size fs) (off + n) := by
          rintro t ⟨a, ha, hlo, hhi⟩
          rw [ha.size_eq]
          exact ⟨hlo, hhi⟩
        exact (fileWrite_size h off b h64).mono (fun _ => hbetween) hbetween
    | inr hstuck =>
        unfold fileWrite
        split
        · exact ⟨Nat.le_refl _, Nat.le_max_left _ _⟩
        · rw [hstuck]
          trivial
  truncate fs n h64 := by
    show Call.Returns (fileTruncate vol i n fs) _ _
    cases hasSize_or_stuck vol i fs with
    | inl h =>
        refine (fileTruncate_size h h64).mono (fun _ t ht => ht.size_eq) ?_
        rintro t ⟨a, ha, hlo, hhi⟩
        rw [ha.size_eq]
        exact ⟨hlo, hhi⟩
    | inr hstuck =>
        unfold fileTruncate
        rw [hstuck]
        trivial

end Sizes

/-! ## The volume -/

namespace FsVolume

/-- The condition on an operation and the state it finds: a discard that reaches from below
the minimum to the end of the file cuts the file, and extends it again without a failure. -/
def ExtendsAgain (file : FileCalls σ) (v : FsVolume) (s : σ) : VolumeOp → Prop
  | .block op => ∀ index count, op = .discard index count → index < v.minBlockCount →
      v.getBlockCount file s ≤ index + count →
      ∃ t, v.discardBlocks file index count s = .ok () t
  | .truncate size => size < 2 ^ 64

/-- The states that such operations lead to. -/
def ReachedInOrder (file : FileCalls σ) (v : FsVolume) : σ → σ → Prop :=
  Run (fun (op : VolumeOp) s => (op.run (v.volume file) s).state?) (v.ExtendsAgain file)

/-- The size of the file lies between the limits. -/
structure Ordered (file : FileCalls σ) (v : FsVolume) (s : σ) : Prop where
  min_le : v.minBlockCount ≤ v.getBlockCount file s
  size_le : file.size s ≤ v.maxBlockCount * v.blocksize

section Order

variable {file : FileCalls σ} {v : FsVolume} {s : σ}

theorem Ordered.inOrder (hbs : 0 < v.blocksize) (h : v.Ordered file s) :
    (v.volume file).InOrder s :=
  ⟨h.min_le, (blockCount_le_iff hbs).2 h.size_le⟩

/-- A size that is no smaller, and within the maximum. -/
theorem Ordered.grow (hbs : 0 < v.blocksize) (h : v.Ordered file s) {t : σ}
    (hge : file.size s ≤ file.size t) (hle : file.size t ≤ v.maxBlockCount * v.blocksize) :
    v.Ordered file t :=
  ⟨Nat.le_trans h.min_le (blockCount_mono hbs hge), hle⟩

/-- A size that still has the blocks of the minimum, and is within the maximum. -/
theorem Ordered.of_blocks (hbs : 0 < v.blocksize) {t : σ} {count : Nat}
    (hmin : v.minBlockCount ≤ count) (hge : count * v.blocksize ≤ file.size t)
    (hle : file.size t ≤ v.maxBlockCount * v.blocksize) : v.Ordered file t := by
  refine ⟨?_, hle⟩
  calc v.minBlockCount ≤ count := hmin
    _ = blockCount (count * v.blocksize) v.blocksize := (blockCount_mul hbs).symm
    _ ≤ v.getBlockCount file t := blockCount_mono hbs hge

/-- Where the bounds check passes, the range lies within the maximum. -/
private theorem checkBounds_spec {P : σ → Prop} (h : P s) (i off n : Nat) :
    Call.Returns (v.checkBounds i off n s)
      (fun _ t => s = t ∧ i * v.blocksize + off + n ≤ v.maxBlockCount * v.blocksize) P := by
  unfold checkBounds
  split
  · exact h
  · refine ⟨rfl, ?_⟩
    calc i * v.blocksize + off + n ≤ i * v.blocksize + v.blocksize := by omega
      _ = (i + 1) * v.blocksize := by rw [Nat.add_mul, Nat.one_mul]
      _ ≤ v.maxBlockCount * v.blocksize := Nat.mul_le_mul_right _ (by omega)

theorem readPartialBlock_ordered (hfile : file.SizeLaw) (i off n : Nat) :
    (v.readPartialBlock file i off n).Keeps (v.Ordered file) := by
  intro s hs
  refine Call.Returns.bind (checkBounds_spec hs i off n) ?_
  rintro _ _ ⟨rfl, _⟩
  have hkeep : ∀ t, file.size t = file.size s → v.Ordered file t := by
    intro t ht
    refine ⟨?_, by rw [ht]; exact hs.size_le⟩
    unfold getBlockCount
    rw [ht]
    exact hs.min_le
  exact (hfile.read _ n _ s rfl).mono (fun _ => hkeep) hkeep

theorem writePartialBlock_ordered (hfile : file.SizeLaw) (hv : v.Addressable) (i : Nat)
    (b : Buffer) (off n : Nat) :
    (v.writePartialBlock file i b off n).Keeps (v.Ordered file) := by
  intro s hs
  have hbytes := hv.bytes_lt
  have hsize := hs.size_le
  refine Call.Returns.bind (checkBounds_spec hs i off n) ?_
  rintro _ _ ⟨rfl, hend⟩
  rw [u64_of_lt (by omega)]
  have hgrow : ∀ t, file.size s ≤ file.size t ∧
      file.size t ≤ max (file.size s) (i * v.blocksize + off + n) → v.Ordered file t :=
    fun t ht => hs.grow hv.blocksize_pos ht.1 (by omega)
  exact (hfile.write s _ b n (by omega)).mono (fun _ => hgrow) hgrow

theorem moveBlockPartial_ordered (hfile : file.SizeLaw) (hv : v.Addressable)
    (i j a b n : Nat) : (v.moveBlockPartial file i j a b n).Keeps (v.Ordered file) :=
  Call.Keeps.bind (readPartialBlock_ordered hfile _ _ _) fun _ =>
    writePartialBlock_ordered hfile hv _ _ _ _

theorem moveBlock_ordered (hfile : file.SizeLaw) (hv : v.Addressable) (i j : Nat) :
    (v.moveBlock file i j).Keeps (v.Ordered file) :=
  Call.Keeps.bind (readPartialBlock_ordered hfile _ _ _) fun _ =>
    writePartialBlock_ordered hfile hv _ _ _ _

theorem discardBlocks_ordered (hfile : file.SizeLaw) (hv : v.Addressable)
    (hlimits : v.minBlockCount ≤ v.maxBlockCount) (h : v.Ordered file s) {i n : Nat}
    (hok : i < v.minBlockCount → v.getBlockCount file s ≤ i + n →
      ∃ t, v.discardBlocks file i n s = .ok () t) :
    Call.Returns (v.discardBlocks file i n s) (fun _ => v.Ordered file) (v.Ordered file) := by
  have hbs := hv.blocksize_pos
  have hbytes := hv.bytes_lt
  have hsize := h.size_le
  have hminle : v.minBlockCount * v.blocksize ≤ v.maxBlockCount * v.blocksize :=
    Nat.mul_le_mul_right _ hlimits
  by_cases hbehind : i ≥ v.getBlockCount file s
  · unfold discardBlocks
    rw [Call.bind_apply, Call.get_apply, Outcome.bind_ok, Call.ite_apply, if_pos hbehind]
    exact h
  have hinfile : i * v.blocksize < file.size s :=
    (lt_blockCount_iff hbs).1 (show i < v.getBlockCount file s by omega)
  by_cases hinside : n < v.getBlockCount file s - i
  · -- zeros are written over a range inside the file
    have hend : (i + n) * v.blocksize < file.size s :=
      (lt_blockCount_iff hbs).1 (show i + n < v.getBlockCount file s by omega)
    rw [Nat.add_mul] at hend
    unfold discardBlocks
    rw [Call.bind_apply, Call.get_apply, Outcome.bind_ok, Call.ite_apply, if_neg hbehind,
      Call.ite_apply, if_pos hinside, u64_of_lt (by omega), u64_of_lt (by omega)]
    have hgrow : ∀ t, file.size s ≤ file.size t ∧
        file.size t ≤ max (file.size s) (i * v.blocksize + n * v.blocksize) →
        v.Ordered file t := fun t ht => h.grow hbs ht.1 (by omega)
    exact (hfile.write s _ none _ (by omega)).mono (fun _ => hgrow) hgrow
  · -- the file is cut at the first discarded block
    have hunfold : v.discardBlocks file i n s = ((file.truncate (i * v.blocksize)) s).bind
        fun _ => Call.guard (i < v.minBlockCount)
          (file.truncate (u64 (v.minBlockCount * v.blocksize))) := by
      unfold discardBlocks
      rw [Call.bind_apply, Call.get_apply, Outcome.bind_ok, Call.ite_apply, if_neg hbehind,
        Call.ite_apply, if_neg hinside, u64_of_lt (by omega)]
      rfl
    have hcut := hfile.truncate s (i * v.blocksize) (by omega)
    by_cases hmin : i < v.minBlockCount
    · obtain ⟨t, ht⟩ := hok hmin (by omega)
      rw [ht]
      rw [hunfold] at ht
      obtain ⟨_, u, hu, hext⟩ := Outcome.of_bind_eq_ok ht
      rw [Call.guard_pos hmin, u64_of_lt (by omega)] at hext
      have hlast := hfile.truncate u (v.minBlockCount * v.blocksize) (by omega)
      rw [hext] at hlast
      have heq : file.size t = v.minBlockCount * v.blocksize := hlast
      exact Ordered.of_blocks hbs (Nat.le_refl _) (Nat.le_of_eq heq.symm) (by omega)
    · rw [hunfold]
      have hleaves : Call.Returns (file.truncate (i * v.blocksize) s)
          (fun _ => v.Ordered file) (v.Ordered file) := by
        apply hcut.mono
        · intro _ t ht
          exact Ordered.of_blocks hbs (Nat.le_of_not_lt hmin) (Nat.le_of_eq ht.symm) (by omega)
        · intro t ht
          exact Ordered.of_blocks hbs (Nat.le_of_not_lt hmin) (by omega) (by omega)
      apply hleaves.bind
      intro _ t ht
      rw [Call.guard_neg hmin]
      exact ht

theorem truncate_ordered (hfile : file.SizeLaw) (hv : v.Addressable) (h : v.Ordered file s)
    {size : Nat} (h64 : size < 2 ^ 64) :
    Call.Returns (v.truncate file size s) (fun _ => v.Ordered file) (v.Ordered file) := by
  have hbs := hv.blocksize_pos
  have hsize := h.size_le
  unfold truncate
  split
  · exact h
  · rename_i hmin
    split
    · exact h
    · rename_i hmax
      have hle : size ≤ v.maxBlockCount * v.blocksize :=
        (blockCount_le_iff hbs).1 (Nat.le_of_not_lt hmax)
      have hcut := hfile.truncate s size h64
      apply hcut.mono
      · intro _ t ht
        refine ⟨?_, by omega⟩
        unfold getBlockCount
        rw [ht]
        exact Nat.le_of_lt (Nat.lt_of_not_le hmin)
      · intro t ht
        refine ⟨?_, by omega⟩
        -- no smaller than the smaller one of the two sizes
        have hmono : blockCount (min (file.size s) size) v.blocksize ≤ v.getBlockCount file t :=
          blockCount_mono hbs ht.1
        have hold := h.min_le
        unfold getBlockCount at hold hmono ⊢
        by_cases hcmp : file.size s ≤ size
        · rw [Nat.min_eq_left hcmp] at hmono
          omega
        · rw [Nat.min_eq_right (by omega)] at hmono
          omega

/-- One operation that meets the condition. -/
theorem run_ordered (hfile : file.SizeLaw) (hv : v.Addressable)
    (hlimits : v.minBlockCount ≤ v.maxBlockCount) (h : v.Ordered file s) {op : VolumeOp}
    (hok : v.ExtendsAgain file s op) :
    Call.Returns (op.run (v.volume file) s) (fun _ => v.Ordered file) (v.Ordered file) := by
  cases op with
  | truncate size => exact (truncate_ordered hfile hv h hok).bind_pure
  | block op =>
      cases op with
      | read i => exact readPartialBlock_ordered hfile i 0 v.blocksize s h
      | readPartial i off n => exact readPartialBlock_ordered hfile i off n s h
      | write i b =>
          exact (writePartialBlock_ordered hfile hv i b 0 v.blocksize s h).bind_pure
      | writePartial i b off n =>
          exact (writePartialBlock_ordered hfile hv i b off n s h).bind_pure
      | move i j => exact (moveBlock_ordered hfile hv i j s h).bind_pure
      | movePartial i j a b n => exact (moveBlockPartial_ordered hfile hv i j a b n s h).bind_pure
      | discard i n =>
          exact (discardBlocks_ordered hfile hv hlimits h (hok i n rfl)).bind_pure
      | commit => exact h

/-- A new volume has its minimum. -/
theorem create_ordered (hfile : file.SizeLaw) {bs minSize maxSize : Nat} (hbs : 0 < bs)
    (hmax : maxSize < 2 ^ 64) (hlimits : blockCount minSize bs ≤ maxSize / bs)
    (hsize : blockCount (file.size s) bs ≤ maxSize / bs) {t : σ}
    (hcreate : create file bs minSize maxSize s = .ok v t) :
    v = ofSizes bs minSize maxSize ∧ v.Ordered file t := by
  have hdiv := Nat.div_mul_le_self maxSize bs
  have hminle : blockCount minSize bs * bs ≤ maxSize / bs * bs := Nat.mul_le_mul_right _ hlimits
  have hold : file.size s ≤ maxSize / bs * bs := (blockCount_le_iff hbs).1 hsize
  have hguard : Call.Returns (Call.guard (blockCount minSize bs > 0 ∧
      blockCount (file.size s) bs < blockCount minSize bs)
      (file.truncate (u64 (blockCount minSize bs * bs))) s)
      (fun _ => (ofSizes bs minSize maxSize).Ordered file) fun _ => True := by
    apply Call.Returns.guard
    · intro _
      rw [u64_of_lt (by omega)]
      have hext := hfile.truncate s (blockCount minSize bs * bs) (by omega)
      apply hext.mono
      · intro _ u hu
        exact Ordered.of_blocks hbs (Nat.le_refl _) (Nat.le_of_eq hu.symm)
          (show file.size u ≤ maxSize / bs * bs by omega)
      · intro _ _
        trivial
    · intro hno
      exact ⟨show blockCount minSize bs ≤ blockCount (file.size s) bs by omega, hold⟩
  unfold create at hcreate
  rw [Call.bind_apply, Call.get_apply, Outcome.bind_ok, Call.bind_apply] at hcreate
  obtain ⟨_, u, hu, hpure⟩ := Outcome.of_bind_eq_ok hcreate
  change Call.guard (blockCount minSize bs > 0 ∧
    blockCount (file.size s) bs < blockCount minSize bs) _ s = .ok _ u at hu
  have hordered : Call.Returns (.ok () u) (fun _ => (ofSizes bs minSize maxSize).Ordered file)
    fun _ => True := hu ▸ hguard
  cases hpure
  exact ⟨rfl, hordered⟩

/-- In every state that such operations lead to, the size lies between the limits. -/
theorem ReachedInOrder.ordered (hfile : file.SizeLaw) (hv : v.Addressable)
    (hlimits : v.minBlockCount ≤ v.maxBlockCount) {start : σ} (hstart : v.Ordered file start)
    (h : v.ReachedInOrder file start s) : v.Ordered file s :=
  Run.invariant h hstart fun _ _ _ ht hok hop =>
    (run_ordered hfile hv hlimits ht hok).state hop

end Order

end FsVolume

end ImageTool.Fstree
