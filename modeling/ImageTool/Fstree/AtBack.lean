import ImageTool.Fstree.MoveContent

/-!
# A file behind all others

The operations that change the blocks of a file move it to the end first.  They rely on what
`fstree_file_move_to_end` leaves there: the file with its bytes, the others closed up in
front of it, and a free block behind it.
-/

namespace ImageTool.Fstree

open ImageTool.Lib ImageTool.Image ImageTool.Util

variable {σ : Type}

/-- The file lies at the end of the data area, or there is room for a copy of its blocks. -/
def Movable (bs count top : Nat) (n : FileNode) : Prop :=
  n.startIndex + n.stored bs = top ∨ top + n.stored bs ≤ count

/-- Where file `m` starts once file `n` lies behind all others. -/
def closedStart (bs : Nat) (n m : FileNode) : Nat :=
  if n.startIndex < m.startIndex then m.startIndex - n.stored bs else m.startIndex

/-- What moving file `i` to the end gives. -/
structure AtBack (bs count : Nat) (view : σ → Bytes) (i start : Nat) (n : FileNode)
    (fs fs₁ : Fstree σ) : Prop where
  housed : Housed bs count fs₁
  kept : ∀ P, FilesKept bs count view P fs fs₁
  dataOffset : fs₁.dataOffset = fs.dataOffset
  noSparse : fs₁.noSparse = fs.noSparse
  node : fs₁.files[i]? = some { n with startIndex := start }
  stop : start + n.stored bs = fs₁.dataOffset
  data : ∀ q < n.stored bs * bs,
    view fs₁.volume (start * bs + q) = view fs.volume (n.startIndex * bs + q)
  movable : Movable bs count fs.dataOffset n
  closed : ∀ (j : Nat) (m : FileNode), j ≠ i → fs.files[j]? = some m → 0 < m.stored bs →
    fs₁.files[j]? = some { m with startIndex := closedStart bs n m }
  behind : ∀ o < bs, view fs₁.volume (fs.dataOffset * bs + o) =
    if 0 < n.stored bs ∧ n.startIndex + n.stored bs < fs.dataOffset then 0
    else view fs.volume (fs.dataOffset * bs + o)

section MoveToEnd

variable {vol : Volume σ} {count i : Nat} {view : σ → Bytes} {fs fs' : Fstree σ}
variable {n : FileNode}

/-- Without room, only a file that is at the end already is moved there. -/
theorem fileMoveToEnd_movable (hb : Backing vol count view)
    (h : Housed vol.blocksize count fs) (hn : fs.files[i]? = some n) :
    Call.Returns (fileMoveToEnd vol i fs)
      (fun _ _ => Movable vol.blocksize count fs.dataOffset n)
      (fun _ => ¬ Movable vol.blocksize count fs.dataOffset n) := by
  have hbs := hb.store.blocksize_pos
  have hvalid := h.laidOut.valid_at hn
  have hfits := h.fits
  by_cases hroom : fs.dataOffset + n.stored vol.blocksize ≤ count
  · obtain ⟨v, hok⟩ := fileMoveToEnd_ok hb h.laidOut hn hroom
    rw [hok]
    exact Or.inr hroom
  have htop := h.laidOut.top_lt
  unfold fileMoveToEnd
  rw [Call.bind_apply, file_eq hn, Outcome.bind_ok, Call.bind_apply, Call.get_apply,
    Outcome.bind_ok]
  dsimp only
  split
  · rename_i hzero
    have hstored := (filePhysicalSize_eq_zero hbs hb.blocksize_lt hvalid).1 hzero
    omega
  rename_i hzero
  have hstored := (filePhysicalSize_eq_zero hbs hb.blocksize_lt hvalid).not.1 hzero
  have hstop := h.laidOut.stop_le hn (Nat.pos_of_ne_zero hstored)
  rw [blockCount_filePhysicalSize hbs hb.blocksize_lt hvalid,
    sub64_of_le (show n.startIndex ≤ fs.dataOffset by omega) htop]
  split
  · left
    omega
  have hle := Nat.mul_le_mul_right vol.blocksize hstop
  have hbytes := hb.block_le hfits
  have hin := Nat.mul_le_mul_right vol.blocksize hfits
  have hout := Nat.mul_lt_mul_of_pos_right (Nat.lt_of_not_le hroom) hbs
  rw [Nat.add_mul] at hle hout
  rw [u64_of_lt (show n.startIndex * vol.blocksize < 2 ^ 64 by omega), u64_of_lt hbytes,
    u64_of_lt (show n.stored vol.blocksize * vol.blocksize < 2 ^ 64 by omega)]
  apply Call.Returns.bind (R := fun _ _ => False)
  · apply returns_onVolume
    apply (volumeMemmove_beyond hb.store hb.refuses hb.bytes_lt fs.volume
      (Nat.mul_pos (Nat.pos_of_ne_zero hstored) hbs) hle (by omega) hout).mono
    · intro _ _ hnever
      exact hnever
    · intro v _ hmovable
      unfold Movable at hmovable
      omega
  · intro _ _ hnever
    exact hnever.elim

/-- The list of files and the block behind the data area. -/
theorem fileMoveToEnd_end (hb : Backing vol count view) (h : Housed vol.blocksize count fs)
    (hn : fs.files[i]? = some n) :
    Call.Returns (fileMoveToEnd vol i fs)
      (fun _ fs₁ => fs₁.files = endFiles vol.blocksize fs.dataOffset i n fs.files ∧
        ∀ o < vol.blocksize, view fs₁.volume (fs.dataOffset * vol.blocksize + o) =
          if 0 < n.stored vol.blocksize ∧ n.startIndex + n.stored vol.blocksize < fs.dataOffset
          then 0 else view fs.volume (fs.dataOffset * vol.blocksize + o))
      fun _ => True := by
  have hbs := hb.store.blocksize_pos
  have hvalid := h.laidOut.valid_at hn
  have htop := h.laidOut.top_lt
  unfold fileMoveToEnd endFiles
  rw [Call.bind_apply, file_eq hn, Outcome.bind_ok, Call.bind_apply, Call.get_apply,
    Outcome.bind_ok]
  dsimp only
  by_cases hzero : filePhysicalSize vol.blocksize n = 0
  · have hstored := (filePhysicalSize_eq_zero hbs hb.blocksize_lt hvalid).1 hzero
    rw [if_pos hzero, if_pos hstored]
    refine ⟨rfl, fun o _ => ?_⟩
    rw [if_neg (by omega)]
  have hstored := (filePhysicalSize_eq_zero hbs hb.blocksize_lt hvalid).not.1 hzero
  have hpos := Nat.pos_of_ne_zero hstored
  have hstop := h.laidOut.stop_le hn hpos
  rw [if_neg hzero, if_neg hstored, blockCount_filePhysicalSize hbs hb.blocksize_lt hvalid,
    sub64_of_le (show n.startIndex ≤ fs.dataOffset by omega) htop]
  by_cases hlast : n.stored vol.blocksize ≥ fs.dataOffset - n.startIndex
  · rw [if_pos hlast, if_pos hlast]
    refine ⟨rfl, fun o _ => ?_⟩
    rw [if_neg (by omega)]
  rw [if_neg hlast, if_neg hlast]
  apply onVolume_bind fun _ => trivial
  intro _ v₁ _
  apply onVolume_bind fun _ => trivial
  intro _ v₂ _
  apply onVolume_bind fun _ => trivial
  intro _ v₃ h₃
  rw [Call.bind_apply, updateFile_apply, Outcome.bind_ok, updateFiles_apply]
  refine ⟨rfl, ?_⟩
  intro o ho
  have hfit : fs.dataOffset + n.stored vol.blocksize ≤ count := by
    by_contra hout
    rw [hb.refuses.discardBlocks v₂ _ _ (by omega)] at h₃
    cases h₃
  have hfirst := Nat.mul_le_mul_right vol.blocksize hpos
  rw [if_pos ⟨hpos, by omega⟩]
  change view v₃ _ = 0
  rw [view_of_ok (hb.store.discardBlocks v₂ _ _ hfit) h₃]
  exact if_pos (by omega)

/-- The other files that store blocks. -/
theorem Housed.endFiles_ne (hb : Backing vol count view) (h : Housed vol.blocksize count fs)
    (hn : fs.files[i]? = some n) {j : Nat} {m : FileNode} (hji : j ≠ i)
    (hm : fs.files[j]? = some m) (hj : 0 < m.stored vol.blocksize) :
    (endFiles vol.blocksize fs.dataOffset i n fs.files)[j]? =
      some { m with startIndex := closedStart vol.blocksize n m } := by
  have hstop := h.laidOut.stop_le hm hj
  unfold endFiles closedStart
  by_cases hzero : n.stored vol.blocksize = 0
  · rw [if_pos hzero, List.getElem?_modify_ne _ _ fun hij => hji hij.symm, hm, hzero,
      Nat.sub_zero, ite_self]
  have hapart := h.laidOut.packed.apart j i hji (by rw [extentAt_eq hm]; exact hj)
    (by rw [extentAt_eq hn]; exact Nat.pos_of_ne_zero hzero)
  rw [extentAt_eq hm, extentAt_eq hn] at hapart
  change m.startIndex + m.stored vol.blocksize ≤ n.startIndex ∨
    n.startIndex + n.stored vol.blocksize ≤ m.startIndex at hapart
  rw [if_neg hzero]
  split
  · rw [hm, if_neg (by omega)]
  · rw [h.laidOut.movedFiles_ne hb.store.blocksize_pos hb.blocksize_lt hn
      (Nat.pos_of_ne_zero hzero) hji hm hj]
    by_cases hbehind : n.startIndex < m.startIndex
    · rw [if_pos hbehind, if_pos (Nat.le_of_lt hbehind)]
    · rw [if_neg hbehind, if_neg (by omega)]

theorem fileMoveToEnd_atBack (hb : Backing vol count view) (h : Housed vol.blocksize count fs)
    (hn : fs.files[i]? = some n) :
    Call.Returns (fileMoveToEnd vol i fs)
      (fun _ fs₁ => ∃ start, AtBack vol.blocksize count view i start n fs fs₁)
      (fun fs' => FilesKept vol.blocksize count view (fun _ => True) fs fs' ∧
        ¬ Movable vol.blocksize count fs.dataOffset n) := by
  have hspec := fileMoveToEnd_spec hb h hn fun _ => True
  have hmovable := fileMoveToEnd_movable hb h hn
  have hend := fileMoveToEnd_end hb h hn
  cases hres : fileMoveToEnd vol i fs with
  | stuck => trivial
  | fail fs₁ =>
      rw [hres] at hspec hmovable
      exact ⟨hspec, hmovable⟩
  | ok u fs₁ =>
      rw [hres] at hspec hmovable hend
      obtain ⟨hrel, hmoved⟩ := hspec
      obtain ⟨hfiles, hbehind⟩ := hend
      obtain ⟨start, hnode, hstop⟩ := hmoved.atEnd
      obtain ⟨start', hnode', hdata⟩ := hrel.node i n hn
      have hstart : start' = start := by
        rw [hnode, Option.some.injEq] at hnode'
        exact (congrArg FileNode.startIndex hnode').symm
      subst hstart
      have hfits := h.fits
      rw [← hmoved.dataOffset] at hfits
      have hhoused : Housed vol.blocksize count fs₁ := ⟨hmoved.layout, hfits⟩
      refine ⟨start', hhoused, hrel.filesKept hhoused, hmoved.dataOffset, hmoved.noSparse,
        hnode, hstop, hdata, hmovable, ?_, hbehind⟩
      intro j m hji hm hj
      rw [hfiles]
      exact h.endFiles_ne hb hn hji hm hj

end MoveToEnd

end ImageTool.Fstree
