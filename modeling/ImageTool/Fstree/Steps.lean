import ImageTool.Fstree.Layout

/-!
# The operations keep the layout

One lemma for each function that changes file data: what it does to the layout where
it succeeds, and that the layout holds where the volume made it fail.
-/

namespace ImageTool.Fstree

open ImageTool.Lib ImageTool.Image ImageTool.Util

variable {σ α β : Type}

/-- The layout of an fstree. -/
def LaidOut (bs : Nat) (fs : Fstree σ) : Prop := Layout bs fs.dataOffset fs.files

/-- A write that succeeds was inside the volume, and block addresses are 64-bit. -/
structure Bounded (vol : Volume σ) : Prop where
  blocksize_pos : 0 < vol.blocksize
  blocksize_lt : vol.blocksize < 2 ^ 32
  writeBlock : ∀ s i b t, vol.writeBlock i b s = .ok () t → i + 1 < 2 ^ 64
  writePartialBlock : ∀ s i b off n t, vol.writePartialBlock i b off n s = .ok () t →
    i + 1 < 2 ^ 64

/-! ## Single statements -/

section Statements

variable {fs : Fstree σ} {i : Nat} {n : FileNode}

theorem file_eq (hn : fs.files[i]? = some n) : file i fs = .ok n fs := by
  unfold file
  rw [hn]

@[simp] theorem updateFile_apply (f : FileNode → FileNode) (fs : Fstree σ) :
    updateFile i f fs = .ok () { fs with files := fs.files.modify i f } := rfl

@[simp] theorem updateFiles_apply (f : FileNode → FileNode) (fs : Fstree σ) :
    updateFiles f fs = .ok () { fs with files := fs.files.map f } := rfl

@[simp] theorem setDataOffset_apply (index : Nat) (fs : Fstree σ) :
    setDataOffset index fs = .ok () { fs with dataOffset := index } := rfl

/-- A call on the volume changes nothing else. -/
theorem onVolume_returns {m : Call σ α} {Q : α → Fstree σ → Prop} {E : Fstree σ → Prop}
    (hok : ∀ a v, m fs.volume = .ok a v → Q a { fs with volume := v })
    (hfail : ∀ v, E { fs with volume := v }) : Call.Returns (onVolume m fs) Q E := by
  unfold onVolume
  rw [Call.zoom_apply]
  cases hm : m fs.volume with
  | ok a v => exact hok a v hm
  | fail v => exact hfail v
  | stuck => trivial

theorem returns_onVolume {m : Call σ α} {Q : α → Fstree σ → Prop} {E : Fstree σ → Prop}
    (h : Call.Returns (m fs.volume) (fun a v => Q a { fs with volume := v })
      fun v => E { fs with volume := v }) : Call.Returns (onVolume m fs) Q E := by
  unfold onVolume
  rw [Call.zoom_apply]
  cases hm : m fs.volume with
  | ok a v => rw [hm] at h; exact h
  | fail v => rw [hm] at h; exact h
  | stuck => trivial

theorem onVolume_ok {m : Call σ α} {a : α} {v : σ} (h : m fs.volume = .ok a v) :
    onVolume m fs = .ok a { fs with volume := v } := by
  unfold onVolume
  rw [Call.zoom_apply, h]
  rfl

theorem onVolume_bind {m : Call σ α} {f : α → Call (Fstree σ) β}
    {Q : β → Fstree σ → Prop} {E : Fstree σ → Prop}
    (hfail : ∀ v, E { fs with volume := v })
    (hok : ∀ a v, m fs.volume = .ok a v →
      Call.Returns (f a { fs with volume := v }) Q E) :
    Call.Returns ((onVolume m >>= f) fs) Q E :=
  Call.Returns.bind (onVolume_returns (Q := fun a fs' => Call.Returns (f a fs') Q E)
    hok hfail) fun _ _ h => h

end Statements

/-! ## Moving to the end -/

section MoveToEnd

variable {vol : Volume σ} {fs : Fstree σ} {i : Nat} {n : FileNode}

/-- The file lies at the end of the data area. -/
structure AtEnd (bs i : Nat) (n : FileNode) (fs : Fstree σ) : Prop where
  node : fs.files[i]? = some n
  stop : n.startIndex + n.stored bs = fs.dataOffset

/-- What moving a file to the end leaves as it was. -/
structure Moved (bs i : Nat) (n : FileNode) (fs fs' : Fstree σ) : Prop where
  layout : LaidOut bs fs'
  dataOffset : fs'.dataOffset = fs.dataOffset
  noSparse : fs'.noSparse = fs.noSparse
  atEnd : ∃ start, AtEnd bs i { n with startIndex := start } fs'

theorem fileMoveToEnd_moved (hvol : Bounded vol) (h : LaidOut vol.blocksize fs)
    (hn : fs.files[i]? = some n) :
    Call.Returns (fileMoveToEnd vol i fs)
      (fun _ => Moved vol.blocksize i n fs) (LaidOut vol.blocksize) := by
  have hbs := hvol.blocksize_pos
  have hbs' := hvol.blocksize_lt
  have hvalid := h.valid_at hn
  have hcount := blockCount_filePhysicalSize hbs hbs' hvalid
  unfold fileMoveToEnd
  rw [Call.bind_apply, file_eq hn, Outcome.bind_ok, Call.bind_apply, Call.get_apply,
    Outcome.bind_ok]
  dsimp only
  by_cases hzero : filePhysicalSize vol.blocksize n = 0
  · -- nothing stored: the file starts behind all others
    rw [if_pos hzero]
    have hstored := (filePhysicalSize_eq_zero hbs hbs' hvalid).1 hzero
    have hfree : FileNode.stored vol.blocksize { n with startIndex := fs.dataOffset } = 0 :=
      hstored
    refine ⟨?_, rfl, rfl, fs.dataOffset, ?_, ?_⟩
    · apply h.replace hn (hvalid.restart fs.dataOffset)
      intro hpos
      omega
    · exact getElem?_modify_self hn
    · show fs.dataOffset + _ = fs.dataOffset
      rw [hfree, Nat.add_zero]
  · rw [if_neg hzero, hcount]
    have hpos : 0 < n.stored vol.blocksize := by
      have := (filePhysicalSize_eq_zero hbs hbs' hvalid).not.1 hzero
      omega
    have hstop := h.stop_le hn hpos
    have htop := h.top_lt
    by_cases hlast : n.stored vol.blocksize ≥ sub64 fs.dataOffset n.startIndex
    · rw [if_pos hlast]
      rw [sub64_of_le (by omega) htop] at hlast
      exact ⟨h, rfl, rfl, n.startIndex, hn, by show n.startIndex + n.stored _ = _; omega⟩
    · rw [if_neg hlast]
      apply onVolume_bind (fun _ => h)
      intro _ v _
      apply onVolume_bind (fun _ => h)
      intro _ v' _
      apply onVolume_bind (fun _ => h)
      intro _ v'' _
      rw [Call.bind_apply, updateFile_apply, Outcome.bind_ok, updateFiles_apply]
      obtain ⟨hlayout, hnode⟩ := Layout.moveEnd h hbs hbs' hn hpos
      refine ⟨hlayout, rfl, rfl, fs.dataOffset - n.stored vol.blocksize, hnode, ?_⟩
      show fs.dataOffset - n.stored vol.blocksize + n.stored vol.blocksize = fs.dataOffset
      omega

end MoveToEnd

/-! ## Appending -/

/-- The region that loses a block to the end of the file: the walk passed those in
front of it. -/
theorem findTail_removed {tailIndex real lo hi : Nat} {rs rs' : List Region}
    (hhi : hi < 2 ^ 32) (h : Within lo hi rs)
    (hfound : (findTail tailIndex real rs).2 = some rs') :
    ∃ r ∈ rs, ¬ r.count < sub64 tailIndex r.index ∧
      (∀ r' ∈ rs, r'.index < r.index → r'.count < sub64 tailIndex r'.index) ∧
      Removed lo hi (r.index + r.count - 1) rs rs' := by
  induction rs generalizing lo real rs' with
  | nil => cases hfound
  | cons it next ih =>
      obtain ⟨hstart, hpos, hrest⟩ := h
      have hend := hrest.le
      have hbehind : ∀ i, Covers next i → it.index + it.count ≤ i :=
        fun i hi => (hrest.bounds hi).1
      unfold findTail at hfound
      split at hfound
      · rename_i hpass
        obtain ⟨rs'', hfound', rfl⟩ := Option.map_eq_some_iff.1 hfound
        obtain ⟨r, hr, hstop, hbefore, hremoved⟩ := ih hrest hfound'
        have hrpos := hrest.region hr
        refine ⟨r, List.mem_cons_of_mem _ hr, hstop, ?_, ?_⟩
        · intro r' hr' hlt
          rcases List.mem_cons.1 hr' with rfl | hr'
          · exact hpass
          · exact hbefore r' hr' hlt
        · refine ⟨⟨hstart, hpos, hremoved.within⟩, ?_, ?_⟩
          · rw [total_cons, total_cons, Nat.add_assoc, hremoved.total]
          · intro i
            rw [covers_cons, covers_cons, hremoved.covers]
            unfold Region.Has
            constructor
            · rintro (h | h)
              · exact ⟨Or.inl h, by omega⟩
              · exact ⟨Or.inr h.1, h.2⟩
            · rintro ⟨h | h, hne⟩
              · exact Or.inl h
              · exact Or.inr ⟨h, hne⟩
      · rename_i hstop
        have hcount : u32 (it.count + (2 ^ 32 - 1)) = it.count - 1 := by
          unfold u32
          omega
        simp only [hcount, Option.some.injEq] at hfound
        subst hfound
        refine ⟨it, List.mem_cons_self, hstop, ?_, ?_⟩
        · intro r' hr' hlt
          rcases List.mem_cons.1 hr' with rfl | hr'
          · exact absurd hlt (Nat.lt_irrefl _)
          · have := (hrest.region hr').1
            omega
        · have hlast : ∀ i, it.Has i ∧ i ≠ it.index + it.count - 1 ↔
              it.index ≤ i ∧ i < it.index + (it.count - 1) := by
            intro i
            unfold Region.Has
            omega
          have hnext : ∀ i, Covers next i → i ≠ it.index + it.count - 1 := by
            intro i hi
            have := hbehind i hi
            omega
          split
          · rename_i hzero
            refine ⟨hrest.mono (by omega) (Nat.le_refl _), ?_, ?_⟩
            · rw [total_cons]
              omega
            · intro i
              rw [covers_cons, or_and_right, hlast]
              constructor
              · intro hi
                exact Or.inr ⟨hi, hnext i hi⟩
              · rintro (hi | hi)
                · omega
                · exact hi.1
          · refine ⟨⟨hstart, ?_, hrest.mono ?_ (Nat.le_refl _)⟩, ?_, ?_⟩
            · show 0 < it.count - 1
              omega
            · show it.index + (it.count - 1) ≤ it.index + it.count
              omega
            · simp only [total_cons]
              omega
            · intro i
              rw [covers_cons, covers_cons, or_and_right, hlast]
              exact or_congr Iff.rfl ⟨fun hi => ⟨hi, hnext i hi⟩, And.left⟩

/-- After an operation on file `i`: it has `size` bytes, and the data area has grown
by the blocks it stores more. -/
structure Resized (bs i : Nat) (n : FileNode) (fs : Fstree σ) (size : Nat)
    (fs' : Fstree σ) : Prop where
  layout : LaidOut bs fs'
  node : ∃ m, fs'.files[i]? = some m ∧ m.size = size ∧
    fs'.dataOffset + n.stored bs = fs.dataOffset + m.stored bs

section Append

variable {vol : Volume σ} {fs fs' fs'' : Fstree σ} {i size size' : Nat} {n m : FileNode}
variable {bs : Nat}

theorem Resized.refl (h : LaidOut bs fs) (hn : fs.files[i]? = some n) :
    Resized bs i n fs n.size fs := ⟨h, n, hn, rfl, rfl⟩

theorem Resized.volume (h : Resized bs i n fs size fs') (v : σ) :
    Resized bs i n fs size { fs' with volume := v } := ⟨h.layout, h.node⟩

theorem Resized.trans (h : Resized bs i n fs size fs')
    (h' : ∀ m, fs'.files[i]? = some m → m.size = size → Resized bs i m fs' size' fs'') :
    Resized bs i n fs size' fs'' := by
  obtain ⟨m, hm, hsize, hoffset⟩ := h.node
  obtain ⟨k, hk, hsizek, hoffsetk⟩ := (h' m hm hsize).node
  exact ⟨(h' m hm hsize).layout, k, hk, hsizek, by omega⟩

/-- A file at the end of the data area that has changed its blocks. -/
theorem Resized.ofEnd (fs' : Fstree σ) {top : Nat} (h : Layout bs top fs'.files)
    (hm : fs'.files[i]? = some m) (hend : m.startIndex + n.stored bs = fs.dataOffset)
    (hlast : m.startIndex + m.stored bs = top) {f : FileNode → FileNode}
    (hvalid : (f m).Valid bs) (hstart : (f m).startIndex = m.startIndex)
    (hsize : (f m).size = size) (htop : m.startIndex + (f m).stored bs = fs'.dataOffset)
    (hlt : fs'.dataOffset < 2 ^ 64) :
    Resized bs i n fs size { fs' with files := fs'.files.modify i f } where
  layout := h.resizeEnd hm hlast hvalid hstart htop hlt
  node := by
    refine ⟨f m, getElem?_modify_self hm, hsize, ?_⟩
    show fs'.dataOffset + _ = _
    omega

/-- Putting bytes into the last block of a file. -/
theorem appendToTail_resized (hvol : Bounded vol) (h : LaidOut vol.blocksize fs)
    (hn : fs.files[i]? = some n) (hblocks : n.blocks vol.blocksize < 2 ^ 32)
    (tailIndex tailSize : Nat) (data : Buffer) (k : Nat) :
    Call.Returns (appendToTail vol i tailIndex tailSize data k fs)
      (fun _ => Resized vol.blocksize i n fs n.size) (LaidOut vol.blocksize) := by
  have hvalid := h.valid_at hn
  unfold appendToTail
  rw [Call.bind_apply, file_eq hn, Outcome.bind_ok]
  cases hfound : (findTail tailIndex (u64 (n.startIndex + tailIndex)) n.sparse).2 with
  | none => exact onVolume_returns (fun _ v _ => (Resized.refl h hn).volume v) fun _ => h
  | some sparse =>
      obtain ⟨r, _, _, _, hremoved⟩ := findTail_removed hblocks hvalid.within hfound
      have htotal := hremoved.total
      change Call.Returns ((if isNullOrZero data k then pure () else _ :
        Call (Fstree σ) Unit) fs) _ _
      rw [Call.ite_apply]
      split
      · exact Resized.refl h hn
      · apply Call.Returns.bind (fileMoveToEnd_moved hvol h hn)
        intro _ fs₁ hmoved
        obtain ⟨start, hnode, hstop⟩ := hmoved.atEnd
        rw [Call.bind_apply, Call.get_apply, Outcome.bind_ok]
        apply onVolume_bind (fun _ => hmoved.layout)
        intro _ v hwrite
        have hlt := hvol.writePartialBlock _ _ _ _ _ _ hwrite
        rw [Call.bind_apply, setDataOffset_apply, Outcome.bind_ok, Call.bind_apply,
          updateFile_apply, Outcome.bind_ok, u64_of_lt hlt]
        have hle := hvalid.total_le
        have hstored : FileNode.stored vol.blocksize
            { size := n.size, startIndex := start, sparse := sparse } =
              n.stored vol.blocksize + 1 := by
          unfold FileNode.stored
          change n.blocks vol.blocksize - total sparse = _
          omega
        have hresized : Resized vol.blocksize i n fs n.size { fs₁ with
            volume := v
            dataOffset := fs₁.dataOffset + 1
            files := fs₁.files.modify i fun n => { n with sparse := sparse } } := by
          have := hmoved.dataOffset
          apply Resized.ofEnd { fs₁ with
            volume := v
            dataOffset := fs₁.dataOffset + 1 } (f := fun n => { n with sparse := sparse })
            hmoved.layout hnode
          · exact hstop.trans hmoved.dataOffset
          · exact hstop
          · exact .of_blocks hvol.blocksize_pos hvol.blocksize_lt hremoved.within hblocks
          · rfl
          · rfl
          · rw [hstored]
            exact congrArg (· + 1) hstop
          · exact hlt
        exact onVolume_returns (fun _ v _ => hresized.volume v) fun _ => hresized.layout

/-- A new block behind all others that belongs to no file yet. -/
structure BlockAdded (bs i : Nat) (n : FileNode) (fs fs' : Fstree σ) : Prop where
  layout : Layout bs fs.dataOffset fs'.files
  dataOffset : fs'.dataOffset = fs.dataOffset + 1
  dataOffset_lt : fs.dataOffset + 1 < 2 ^ 64
  node : ∃ start, fs'.files[i]? = some { n with startIndex := start } ∧
    start + n.stored bs = fs.dataOffset

theorem appendBlock_added (hvol : Bounded vol) (h : LaidOut vol.blocksize fs)
    (hn : fs.files[i]? = some n) (data : Buffer) (k : Nat) :
    Call.Returns (appendBlock vol i data k fs)
      (fun _ => BlockAdded vol.blocksize i n fs) (LaidOut vol.blocksize) := by
  unfold appendBlock
  apply Call.Returns.bind (fileMoveToEnd_moved hvol h hn)
  intro _ fs₁ hmoved
  have hoffset := hmoved.dataOffset
  obtain ⟨start, hnode, hstop⟩ := hmoved.atEnd
  -- both ways of writing the block leave its address in range
  have hadded : ∀ v, fs₁.dataOffset + 1 < 2 ^ 64 →
      Call.Returns (setDataOffset (u64 (fs₁.dataOffset + 1)) { fs₁ with volume := v })
        (fun _ => BlockAdded vol.blocksize i n fs) (LaidOut vol.blocksize) := by
    intro v hlt
    rw [u64_of_lt hlt, setDataOffset_apply, hoffset]
    rw [hoffset] at hlt
    exact ⟨hoffset ▸ hmoved.layout, rfl, hlt, start, hnode, hstop.trans hoffset⟩
  rw [Call.bind_apply, Call.get_apply, Outcome.bind_ok, Call.bind_apply]
  by_cases hfull : k = vol.blocksize
  · rw [if_pos hfull]
    apply onVolume_bind (fun _ => hmoved.layout)
    intro _ v hwrite
    exact hadded v (hvol.writeBlock _ _ _ _ hwrite)
  · rw [if_neg hfull]
    refine Call.Returns.bind (R := fun _ fs' => ∃ v, fs' = { fs₁ with volume := v } ∧
      fs₁.dataOffset + 1 < 2 ^ 64) ?_ ?_
    · apply onVolume_bind (fun _ => hmoved.layout)
      intro _ v hwrite
      have hlt := hvol.writePartialBlock _ _ _ _ _ _ hwrite
      exact onVolume_returns (fun _ v' _ => ⟨v', rfl, hlt⟩) fun _ => hmoved.layout
    · rintro _ _ ⟨v, rfl, hlt⟩
      exact hadded v hlt

/-- The last block of a file whose size is not a multiple of the block size. -/
theorem blockCount_tail {size diff : Nat} (htail : 0 < size % bs) (hdiff : size % bs + diff ≤ bs) :
    blockCount (size + diff) bs = blockCount size bs := by
  have hsize := Nat.div_add_mod size bs
  rw [Nat.mul_comm] at hsize
  have hrest : size + diff = size / bs * bs + (size % bs + diff) := by omega
  calc
    blockCount (size + diff) bs = size / bs + 1 := by
      rw [hrest]
      exact blockCount_mul_add (by omega) hdiff
    _ = blockCount (size / bs * bs + size % bs) bs :=
      (blockCount_mul_add htail (by omega)).symm
    _ = blockCount size bs := by rw [hsize]

/-- A new block behind a file of full blocks. -/
theorem blockCount_next {size diff : Nat} (htail : size % bs = 0) (hpos : 0 < diff)
    (hdiff : diff ≤ bs) :
    blockCount size bs = size / bs ∧ blockCount (size + diff) bs = size / bs + 1 := by
  have hsize := Nat.div_mul_cancel (Nat.dvd_of_mod_eq_zero htail)
  constructor
  · exact if_pos htail
  · calc
      blockCount (size + diff) bs = blockCount (size / bs * bs + diff) bs := by rw [hsize]
      _ = size / bs + 1 := blockCount_mul_add hpos hdiff

/-- A new block at the end of a file that is not stored. -/
theorem Resized.sparseBlock {vol : Volume σ} (h : LaidOut vol.blocksize fs)
    (hn : fs.files[i]? = some n) (hvol : Bounded vol) {diff index : Nat}
    (hold : blockCount n.size vol.blocksize = index)
    (hnew : blockCount (n.size + diff) vol.blocksize = index + 1)
    (hblocks : blockCount (n.size + diff) vol.blocksize < 2 ^ 32) :
    Resized vol.blocksize i n fs (n.size + diff) { fs with
      files := fs.files.modify i ((fun n => { n with size := u64 (n.size + diff) }) ∘
        fun n => { n with sparse := markSparse n.sparse index }) } := by
  have hvalid := h.valid_at hn
  have hwithin := hvalid.within
  have hsize := lt_of_blockCount_lt hvol.blocksize_pos hvol.blocksize_lt hblocks
  rw [FileNode.blocks, hold] at hwithin
  have hfree : ¬ Covers n.sparse index := by
    intro hcover
    have := (hwithin.bounds hcover).2
    omega
  have hadded := markSparse_added (by omega) (Nat.lt_succ_self index)
    (hwithin.mono (Nat.le_refl _) (Nat.le_succ index)) hfree (Nat.zero_le _)
  have hblocks' : FileNode.blocks vol.blocksize
      ⟨u64 (n.size + diff), n.startIndex, markSparse n.sparse index⟩ = index + 1 := by
    unfold FileNode.blocks
    dsimp only
    rw [u64_of_lt hsize, hnew]
  have hstored : FileNode.stored vol.blocksize
      ⟨u64 (n.size + diff), n.startIndex, markSparse n.sparse index⟩ =
        n.stored vol.blocksize := by
    unfold FileNode.stored
    rw [hblocks', FileNode.blocks, hold]
    change index + 1 - total (markSparse n.sparse index) = _
    rw [hadded.total, Nat.add_sub_add_right]
  refine ⟨?_, _, getElem?_modify_self hn, u64_of_lt hsize, ?_⟩
  · apply Layout.replace h hn
    · exact .of_blocks hvol.blocksize_pos hvol.blocksize_lt
        (by rw [Function.comp_apply, hblocks']; exact hadded.within)
        (by rw [Function.comp_apply, hblocks']; omega)
    · intro _
      exact ⟨rfl, Nat.le_of_eq hstored⟩
  · rw [Function.comp_apply, hstored]

/-- A stored block becomes the last one of a file. -/
theorem Resized.newBlock (hadd : BlockAdded bs i n fs fs') (hvalid : n.Valid bs)
    (hbs : 0 < bs) (hbs' : bs < 2 ^ 32) {diff index : Nat} (hold : blockCount n.size bs = index)
    (hnew : blockCount (n.size + diff) bs = index + 1) (hsize : n.size + diff < 2 ^ 64)
    (hblocks : blockCount (n.size + diff) bs < 2 ^ 32) :
    Resized bs i n fs (n.size + diff)
      { fs' with files := fs'.files.modify i fun n => { n with size := u64 (n.size + diff) } } := by
  obtain ⟨start, hnode, hstop⟩ := hadd.node
  have hle := hvalid.total_le
  have hblocks' : FileNode.blocks bs ⟨u64 (n.size + diff), start, n.sparse⟩ =
      n.blocks bs + 1 := by
    unfold FileNode.blocks
    dsimp only
    rw [u64_of_lt hsize, hnew, hold]
  have hstored : FileNode.stored bs ⟨u64 (n.size + diff), start, n.sparse⟩ =
      n.stored bs + 1 := by
    unfold FileNode.stored
    rw [hblocks']
    change n.blocks bs + 1 - total n.sparse = _
    omega
  apply Resized.ofEnd fs' (f := fun n => { n with size := u64 (n.size + diff) })
    hadd.layout hnode hstop hstop
  · apply FileNode.Valid.of_blocks hbs hbs'
    · rw [hblocks']
      exact hvalid.within.mono (Nat.le_refl _) (Nat.le_succ _)
    · rw [hblocks', FileNode.blocks, hold, ← hnew]
      exact hblocks
  · rfl
  · exact u64_of_lt hsize
  · rw [hstored, hadd.dataOffset]
    change start + (n.stored bs + 1) = _
    omega
  · rw [hadd.dataOffset]
    exact hadd.dataOffset_lt

theorem appendChunk_resized (hvol : Bounded vol) (h : LaidOut vol.blocksize fs)
    (hn : fs.files[i]? = some n) {tailSize diff : Nat} (data : Buffer)
    (htail : tailSize = n.size % vol.blocksize) (hpos : 0 < diff)
    (hdiff : tailSize + diff ≤ vol.blocksize)
    (hblocks : blockCount (n.size + diff) vol.blocksize < 2 ^ 32) :
    Call.Returns (appendChunk vol i (n.size / vol.blocksize) tailSize data diff fs)
      (fun _ => Resized vol.blocksize i n fs (n.size + diff)) (LaidOut vol.blocksize) := by
  have hbs := hvol.blocksize_pos
  have hsize := lt_of_blockCount_lt hbs hvol.blocksize_lt hblocks
  have hvalid := h.valid_at hn
  unfold appendChunk
  rw [Call.bind_apply, Call.get_apply, Outcome.bind_ok, Call.bind_apply]
  by_cases hzero : tailSize > 0
  · rw [if_pos hzero]
    have hsame := blockCount_tail (htail ▸ hzero) (htail ▸ hdiff)
    have hold : n.blocks vol.blocksize < 2 ^ 32 := by
      unfold FileNode.blocks
      omega
    apply Call.Returns.bind (appendToTail_resized hvol h hn hold _ _ _ _)
    intro _ fs₁ hres
    obtain ⟨m, hm, hmsize, hoffset⟩ := hres.node
    have hvalidm := hres.layout.valid_at hm
    have hgrown : FileNode.blocks vol.blocksize { m with size := u64 (m.size + diff) } =
        m.blocks vol.blocksize := by
      unfold FileNode.blocks
      dsimp only
      rw [hmsize, u64_of_lt hsize, hsame]
    have hstored : FileNode.stored vol.blocksize { m with size := u64 (m.size + diff) } =
        m.stored vol.blocksize := by
      unfold FileNode.stored
      rw [hgrown]
    rw [updateFile_apply]
    refine ⟨?_, { m with size := u64 (m.size + diff) }, getElem?_modify_self hm, ?_, ?_⟩
    · apply hres.layout.replace hm
      · refine ⟨by rw [hgrown]; exact hvalidm.within, hvalidm.words, ?_⟩
        exact u64_lt _
      · intro _
        exact ⟨rfl, Nat.le_of_eq hstored⟩
    · rw [hmsize]
      exact u64_of_lt hsize
    · rw [hstored]
      exact hoffset
  · rw [if_neg hzero]
    have hfull : n.size % vol.blocksize = 0 := by omega
    obtain ⟨hold, hnew⟩ := blockCount_next hfull hpos (by omega)
    by_cases hsparse : fs.noSparse = false ∧ isNullOrZero data diff
    · -- the new block is not stored
      rw [if_pos hsparse, updateFile_apply, Outcome.bind_ok, updateFile_apply,
        List.modify_modify_eq]
      exact Resized.sparseBlock h hn hvol hold hnew hblocks
    · rw [if_neg hsparse]
      apply Call.Returns.bind (appendBlock_added hvol h hn _ _)
      intro _ fs₁ hadd
      rw [updateFile_apply]
      exact Resized.newBlock hadd hvalid hbs hvol.blocksize_lt hold hnew hsize hblocks

/-- The size behind a full last block. -/
theorem next_block (size : Nat) (hbs : 0 < bs) :
    (size + (bs - size % bs)) / bs = size / bs + 1 ∧ (size + (bs - size % bs)) % bs = 0 := by
  have hmod := Nat.mod_lt size hbs
  have hsize := Nat.div_add_mod size bs
  have hnext : size + (bs - size % bs) = bs * (size / bs + 1) := by
    rw [Nat.mul_add, Nat.mul_one]
    omega
  rw [hnext]
  exact ⟨Nat.mul_div_cancel_left _ hbs, Nat.mul_mod_right _ _⟩

theorem fileAppendLoop_resized (hvol : Bounded vol) (fuel tailIndex tailSize : Nat)
    (data : Buffer) (k : Nat) (h : LaidOut vol.blocksize fs) (hn : fs.files[i]? = some n)
    (htail : 0 < k → tailIndex = n.size / vol.blocksize ∧ tailSize = n.size % vol.blocksize)
    (hblocks : blockCount (n.size + k) vol.blocksize < 2 ^ 32) :
    Call.Returns (fileAppendLoop vol i fuel tailIndex tailSize data k fs)
      (fun _ => Resized vol.blocksize i n fs (n.size + k)) (LaidOut vol.blocksize) := by
  have hbs := hvol.blocksize_pos
  induction fuel generalizing fs n tailIndex tailSize data k with
  | zero =>
      unfold fileAppendLoop
      split
      · rename_i hzero
        subst hzero
        exact Resized.refl h hn
      · trivial
  | succ fuel ih =>
      unfold fileAppendLoop
      by_cases hzero : k = 0
      · rw [if_pos hzero]
        subst hzero
        exact Resized.refl h hn
      · rw [if_neg hzero]
        obtain ⟨hindex, hrest⟩ := htail (Nat.pos_of_ne_zero hzero)
        have hmod := Nat.mod_lt n.size hbs
        generalize hdiff : (if vol.blocksize - tailSize > k then k
          else vol.blocksize - tailSize) = diff
        have hle : diff ≤ k ∧ tailSize + diff ≤ vol.blocksize ∧ 0 < diff ∧
            (0 < k - diff → diff = vol.blocksize - tailSize) := by
          rw [← hdiff]
          split <;> omega
        obtain ⟨hk, hfit, hpos, hnext⟩ := hle
        have hmono := blockCount_mono hbs (show n.size + diff ≤ n.size + k by omega)
        subst hindex
        apply Call.Returns.bind
          (appendChunk_resized hvol h hn data hrest hpos hfit (by omega))
        intro _ fs₁ hres
        obtain ⟨m, hm, hmsize, _⟩ := hres.node
        have hsum : m.size + (k - diff) = n.size + k := by omega
        apply (ih _ _ _ _ hres.layout hm ?_ (by rw [hsum]; exact hblocks)).mono
        · intro _ fs₂ hres'
          rw [hsum] at hres'
          apply hres.trans
          intro m' hm' _
          rw [hm] at hm'
          cases hm'
          exact hres'
        · intro _ hlaid
          exact hlaid
        · intro hleft
          have hfull := next_block n.size hbs
          rw [← hrest, ← hnext hleft, ← hmsize] at hfull
          have hlt := lt_of_blockCount_lt hbs hvol.blocksize_lt hblocks
          have hdiv := Nat.div_le_self m.size vol.blocksize
          rw [u64_of_lt (by omega)]
          exact ⟨hfull.1.symm, hfull.2.symm⟩

theorem fileAppend_resized (hvol : Bounded vol) (h : LaidOut vol.blocksize fs)
    (hn : fs.files[i]? = some n) (data : Buffer) (k : Nat)
    (hblocks : blockCount (n.size + k) vol.blocksize < 2 ^ 32) :
    Call.Returns (fileAppend vol i data k fs)
      (fun _ => Resized vol.blocksize i n fs (n.size + k)) (LaidOut vol.blocksize) := by
  unfold fileAppend
  rw [Call.bind_apply, file_eq hn, Outcome.bind_ok]
  exact fileAppendLoop_resized hvol _ _ _ _ _ h hn (fun _ => ⟨rfl, rfl⟩) hblocks

end Append

/-! ## Writing -/

theorem locate_none {index start : Nat} {rs : List Region}
    (h : (locate index start rs).2 = none) : ¬ Covers rs index := by
  induction rs generalizing start with
  | nil => exact covers_nil index
  | cons it next ih =>
      unfold locate at h
      split at h
      · cases h
      · rename_i hout
        rw [inRegion_iff] at hout
        rw [covers_cons, not_or]
        exact ⟨hout, ih h⟩

theorem locate_some {index start : Nat} {rs : List Region} {it : Region}
    (h : (locate index start rs).2 = some it) : Covers rs index := by
  induction rs generalizing start with
  | nil => cases h
  | cons r next ih =>
      rw [covers_cons]
      unfold locate at h
      split at h
      · rename_i hin
        exact Or.inl (inRegion_iff.1 hin)
      · exact Or.inr (ih h)

section Write

variable {vol : Volume σ} {fs fs' : Fstree σ} {i index : Nat} {n : FileNode}

theorem removeFileBlock_resized (hvol : Bounded vol) (realIndex : Nat)
    (hmoved : Moved vol.blocksize i n fs fs') (hvalid : n.Valid vol.blocksize)
    (hblocks : n.blocks vol.blocksize < 2 ^ 32) (hindex : index < n.blocks vol.blocksize)
    (hfree : ¬ Covers n.sparse index) :
    Call.Returns (removeFileBlock vol i realIndex index fs')
      (fun _ => Resized vol.blocksize i n fs n.size) (LaidOut vol.blocksize) := by
  obtain ⟨start, hnode, hstop⟩ := hmoved.atEnd
  have hadded := markSparse_added hblocks hindex hvalid.within hfree
    (Nat.zero_le index)
  have htotal := hadded.within.total_le
  have hcount := hadded.total
  have htop := hmoved.layout.top_lt
  have hstop' : start + (n.blocks vol.blocksize - total n.sparse) = fs'.dataOffset := hstop
  have hpos : 0 < fs'.dataOffset := by omega
  have hresized : ∀ v, Resized vol.blocksize i n fs n.size { fs' with
      volume := v
      dataOffset := fs'.dataOffset - 1
      files := fs'.files.modify i fun n => { n with sparse := markSparse n.sparse index } } := by
    intro v
    apply Resized.ofEnd { fs' with
      volume := v
      dataOffset := fs'.dataOffset - 1 } (f := fun n => { n with
        sparse := markSparse n.sparse index }) hmoved.layout hnode
    · exact hstop.trans hmoved.dataOffset
    · exact hstop
    · exact .of_blocks hvol.blocksize_pos hvol.blocksize_lt hadded.within hblocks
    · rfl
    · rfl
    · change start + (n.blocks vol.blocksize - total (markSparse n.sparse index)) = _
      change _ = fs'.dataOffset - 1
      omega
    · change fs'.dataOffset - 1 < 2 ^ 64
      omega
  unfold removeFileBlock
  rw [Call.bind_apply, Call.get_apply, Outcome.bind_ok]
  apply onVolume_bind (fun _ => hmoved.layout)
  intro _ v _
  rw [sub64_of_le hpos htop]
  exact onVolume_returns (fun _ v _ => hresized v) fun v => (hresized v).layout

theorem removeStored_resized (hvol : Bounded vol) (h : LaidOut vol.blocksize fs)
    (hn : fs.files[i]? = some n) (hblocks : n.blocks vol.blocksize < 2 ^ 32) (start : Nat)
    (hindex : index < n.blocks vol.blocksize) (hfree : ¬ Covers n.sparse index) :
    Call.Returns (removeStored vol i start index fs)
      (fun _ => Resized vol.blocksize i n fs n.size) (LaidOut vol.blocksize) := by
  unfold removeStored
  rw [Call.bind_apply, file_eq hn, Outcome.bind_ok]
  apply Call.Returns.bind (fileMoveToEnd_moved hvol h hn)
  intro _ fs₁ hmoved
  obtain ⟨start', hnode, _⟩ := hmoved.atEnd
  rw [Call.bind_apply, file_eq hnode, Outcome.bind_ok]
  exact removeFileBlock_resized hvol _ hmoved (h.valid_at hn) hblocks hindex hfree

theorem writeStored_resized (hvol : Bounded vol) (h : LaidOut vol.blocksize fs)
    (hn : fs.files[i]? = some n) (hblocks : n.blocks vol.blocksize < 2 ^ 32) (start : Nat)
    (data : Buffer) (offset k : Nat) (hindex : index < n.blocks vol.blocksize)
    (hfree : ¬ Covers n.sparse index) :
    Call.Returns (writeStored vol i start index data offset k fs)
      (fun _ => Resized vol.blocksize i n fs n.size) (LaidOut vol.blocksize) := by
  have hwrite : ∀ m : Call σ Unit, Call.Returns (onVolume m fs)
      (fun _ => Resized vol.blocksize i n fs n.size) (LaidOut vol.blocksize) :=
    fun m => onVolume_returns (fun _ v _ => (Resized.refl h hn).volume v) fun _ => h
  have hremove := removeStored_resized hvol h hn hblocks start hindex hfree
  unfold writeStored
  rw [Call.bind_apply, file_eq hn, Outcome.bind_ok, Call.bind_apply, Call.get_apply,
    Outcome.bind_ok, Call.ite_apply]
  split
  · rw [Call.ite_apply]
    split
    · exact hremove
    · exact hwrite _
  · rw [Call.ite_apply]
    split
    · exact hremove
    · exact hwrite _

/-- Storing a block that was sparse. -/
theorem insertSparseBlock_resized (hvol : Bounded vol) (realIndex : Nat)
    (hmoved : Moved vol.blocksize i n fs fs') (hvalid : n.Valid vol.blocksize)
    (hblocks : n.blocks vol.blocksize < 2 ^ 32) (hcover : Covers n.sparse index)
    (hlt : fs'.dataOffset + 1 < 2 ^ 64) :
    Call.Returns (insertSparseBlock vol i realIndex index fs')
      (fun _ fs'' => Resized vol.blocksize i n fs n.size fs'' ∧
        ∃ start, fs''.files[i]? = some ⟨n.size, start, markNotSparse n.sparse index⟩)
      (LaidOut vol.blocksize) := by
  obtain ⟨start, hnode, hstop⟩ := hmoved.atEnd
  have hremoved := markNotSparse_removed hblocks hvalid.within hcover
  have htotal := hvalid.total_le
  have hcount := hremoved.total
  have hstop' : start + (n.blocks vol.blocksize - total n.sparse) = fs'.dataOffset := hstop
  have hresized : ∀ v, Resized vol.blocksize i n fs n.size { fs' with
      volume := v
      dataOffset := fs'.dataOffset + 1
      files := fs'.files.modify i fun n =>
        { n with sparse := markNotSparse n.sparse index } } := by
    intro v
    apply Resized.ofEnd { fs' with
      volume := v
      dataOffset := fs'.dataOffset + 1 } (f := fun n => { n with
        sparse := markNotSparse n.sparse index }) hmoved.layout hnode
    · exact hstop.trans hmoved.dataOffset
    · exact hstop
    · exact .of_blocks hvol.blocksize_pos hvol.blocksize_lt hremoved.within hblocks
    · rfl
    · rfl
    · change start + (n.blocks vol.blocksize - total (markNotSparse n.sparse index)) = _
      change _ = fs'.dataOffset + 1
      omega
    · exact hlt
  unfold insertSparseBlock
  rw [Call.bind_apply, Call.get_apply, Outcome.bind_ok]
  apply onVolume_bind (fun _ => hmoved.layout)
  intro _ v _
  rw [u64_of_lt hlt]
  refine onVolume_returns (fun _ v _ => ⟨hresized v, start, ?_⟩) fun v => (hresized v).layout
  exact getElem?_modify_self (f := fun n => { n with sparse := markNotSparse n.sparse index })
    hnode

theorem writePartialBlock_resized (hvol : Bounded vol) (h : LaidOut vol.blocksize fs)
    (hn : fs.files[i]? = some n) (hblocks : n.blocks vol.blocksize < 2 ^ 32)
    (data : Buffer) (offset k : Nat) (hindex : index < n.blocks vol.blocksize)
    (hroom : fs.dataOffset + n.blocks vol.blocksize < 2 ^ 64 + n.stored vol.blocksize) :
    Call.Returns (writePartialBlock vol i index data offset k fs)
      (fun _ => Resized vol.blocksize i n fs n.size) (LaidOut vol.blocksize) := by
  have hvalid := h.valid_at hn
  unfold writePartialBlock
  rw [Call.bind_apply, file_eq hn, Outcome.bind_ok]
  cases hfound : (locate index (u64 (n.startIndex + index)) n.sparse).2 with
  | none => exact writeStored_resized hvol h hn hblocks _ _ _ _ hindex (locate_none hfound)
  | some it =>
      have hcover := locate_some hfound
      have hremoved := markNotSparse_removed hblocks hvalid.within hcover
      change Call.Returns ((if isNullOrZero data k then pure () else _ :
        Call (Fstree σ) Unit) fs) _ _
      rw [Call.ite_apply]
      split
      · exact Resized.refl h hn
      · apply Call.Returns.bind (fileMoveToEnd_moved hvol h hn)
        intro _ fs₁ hmoved
        obtain ⟨start, hnode, _⟩ := hmoved.atEnd
        rw [Call.bind_apply, file_eq hnode, Outcome.bind_ok]
        have hlt : fs₁.dataOffset + 1 < 2 ^ 64 := by
          have htotal := hremoved.total
          have hle := hvalid.total_le
          rw [hmoved.dataOffset]
          unfold FileNode.stored at hroom
          omega
        apply Call.Returns.bind (insertSparseBlock_resized hvol _ hmoved hvalid hblocks hcover hlt)
        rintro _ fs₂ ⟨hres, start', hnode'⟩
        have hfree : ¬ Covers (markNotSparse n.sparse index) index := by
          rw [hremoved.covers]
          exact fun hin => hin.2 rfl
        apply (writeStored_resized hvol hres.layout hnode' hblocks _ _ _ _ hindex hfree).mono
        · intro _ fs₃ hwritten
          apply hres.trans
          intro m hm _
          rw [hnode'] at hm
          cases hm
          exact hwritten
        · intro _ hlaid
          exact hlaid

/-- The blocks of the file that are not stored still fit behind the data area. -/
theorem Resized.room {bs : Nat} {m : FileNode} (h : Resized bs i n fs n.size fs')
    (hroom : fs.dataOffset + n.blocks bs < 2 ^ 64 + n.stored bs)
    (hm : fs'.files[i]? = some m) : m.size = n.size ∧
      fs'.dataOffset + m.blocks bs < 2 ^ 64 + m.stored bs := by
  obtain ⟨k, hk, hsize, hoffset⟩ := h.node
  rw [hm] at hk
  cases hk
  refine ⟨hsize, ?_⟩
  have hblocks : m.blocks bs = n.blocks bs := by
    unfold FileNode.blocks
    rw [hsize]
  rw [hblocks]
  omega

theorem fileWriteLoop_resized (hvol : Bounded vol) (fuel blkIndex : Nat) (data : Buffer)
    (blkOffset k : Nat) (h : LaidOut vol.blocksize fs) (hn : fs.files[i]? = some n)
    (hblocks : n.blocks vol.blocksize < 2 ^ 32) (hin : 0 < k → blkOffset < vol.blocksize ∧
      blkIndex * vol.blocksize + blkOffset + k ≤ n.size)
    (hroom : fs.dataOffset + n.blocks vol.blocksize < 2 ^ 64 + n.stored vol.blocksize) :
    Call.Returns (fileWriteLoop vol i fuel blkIndex data blkOffset k fs)
      (fun _ => Resized vol.blocksize i n fs n.size) (LaidOut vol.blocksize) := by
  have hbs := hvol.blocksize_pos
  induction fuel generalizing fs n blkIndex data blkOffset k with
  | zero =>
      unfold fileWriteLoop
      split
      · exact Resized.refl h hn
      · trivial
  | succ fuel ih =>
      unfold fileWriteLoop
      by_cases hzero : k = 0
      · rw [if_pos hzero]
        exact Resized.refl h hn
      · rw [if_neg hzero]
        obtain ⟨hoff, hend⟩ := hin (Nat.pos_of_ne_zero hzero)
        generalize hdiff : (if vol.blocksize - blkOffset > k then k
          else vol.blocksize - blkOffset) = diff
        have hle : diff ≤ k ∧ (0 < k - diff → diff = vol.blocksize - blkOffset) := by
          rw [← hdiff]
          split <;> omega
        have hindex : blkIndex < n.blocks vol.blocksize :=
          (lt_blockCount_iff hbs).2 (by omega)
        apply Call.Returns.bind (writePartialBlock_resized hvol h hn hblocks _ _ _ hindex hroom)
        intro _ fs₁ hres
        obtain ⟨m, hm, _, _⟩ := hres.node
        obtain ⟨hmsize, hroom'⟩ := hres.room hroom hm
        have hblocks' : m.blocks vol.blocksize < 2 ^ 32 := by
          unfold FileNode.blocks at hblocks ⊢
          rw [hmsize]
          exact hblocks
        apply (ih _ _ _ _ hres.layout hm hblocks' ?_ hroom').mono
        · intro _ fs₂ hres'
          rw [hmsize] at hres'
          apply hres.trans
          intro m' hm' _
          rw [hm] at hm'
          cases hm'
          exact hres'
        · intro _ hlaid
          exact hlaid
        · intro hleft
          refine ⟨hbs, ?_⟩
          rw [u64_of_lt (by omega), hmsize, Nat.add_mul, Nat.one_mul]
          have := hle.2 hleft
          omega

/-- What a write may need: the file keeps fewer than `2 ^ 32` blocks, and the data
area has room below block `2 ^ 64` for those it does not store. -/
def WriteFits (bs : Nat) (fs : Fstree σ) (n : FileNode) (size : Nat) : Prop :=
  blockCount size bs < 2 ^ 32 ∧
    fs.dataOffset + blockCount size bs < 2 ^ 64 + n.stored bs

theorem fileWrite_layout (hvol : Bounded vol) (offset : Nat) (data : Buffer) (k : Nat)
    (h : LaidOut vol.blocksize fs) (hn : fs.files[i]? = some n)
    (hfits : 0 < k → WriteFits vol.blocksize fs n (max n.size (offset + k))) :
    Call.Returns (fileWrite vol i offset data k fs)
      (fun _ => LaidOut vol.blocksize) (LaidOut vol.blocksize) := by
  have hbs := hvol.blocksize_pos
  unfold fileWrite
  by_cases hzero : k = 0
  · rw [if_pos hzero]
    exact h
  rw [if_neg hzero, Call.bind_apply, file_eq hn, Outcome.bind_ok]
  obtain ⟨hblocks, hroom⟩ := hfits (Nat.pos_of_ne_zero hzero)
  -- zeros up to the offset
  apply Call.Returns.bind
    (R := fun _ => Resized vol.blocksize i n fs (max n.size offset))
  · apply Call.Returns.guard
    · intro hgap
      rw [show max n.size offset = n.size + (offset - n.size) by omega]
      apply fileAppend_resized hvol h hn
      have := blockCount_mono hbs
        (show n.size + (offset - n.size) ≤ max n.size (offset + k) by omega)
      omega
    · intro hgap
      rw [Nat.max_eq_left (by omega)]
      exact Resized.refl h hn
  intro _ fs₁ hres₁
  obtain ⟨n₁, hn₁, hsize₁, hoffset₁⟩ := hres₁.node
  rw [Call.bind_apply, file_eq hn₁, Outcome.bind_ok]
  -- what reaches over the end of the file
  apply Call.Returns.bind
    (R := fun _ => Resized vol.blocksize i n₁ fs₁ (max n.size (offset + k)))
  · apply Call.Returns.guard
    · intro hover
      rw [Call.ite_apply]
      split
      · trivial
      · rw [show max n.size (offset + k) = n₁.size + (k - (n₁.size - offset)) by omega]
        apply fileAppend_resized hvol hres₁.layout hn₁
        rw [show n₁.size + (k - (n₁.size - offset)) = max n.size (offset + k) by omega]
        exact hblocks
    · intro hover
      rw [show max n.size (offset + k) = n₁.size by omega]
      exact Resized.refl hres₁.layout hn₁
  intro _ fs₂ hres₂
  obtain ⟨n₂, hn₂, hsize₂, hoffset₂⟩ := hres₂.node
  have hblocks₂ : n₂.blocks vol.blocksize < 2 ^ 32 := by
    unfold FileNode.blocks
    rw [hsize₂]
    exact hblocks
  apply (fileWriteLoop_resized hvol _ _ _ _ _ hres₂.layout hn₂ hblocks₂ ?_ ?_).mono
  · intro _ _ hres
    exact hres.layout
  · intro _ hlaid
    exact hlaid
  · intro _
    have hdiv := Nat.div_add_mod offset vol.blocksize
    rw [Nat.mul_comm] at hdiv
    refine ⟨Nat.mod_lt _ hbs, ?_⟩
    rw [hdiv, hsize₂]
    split <;> omega
  · unfold FileNode.blocks
    rw [hsize₂]
    omega

end Write

/-! ## Cutting off and gaps -/

section TruncateAndGap

variable {vol : Volume σ} {fs : Fstree σ} {i : Nat} {n : FileNode}

/-- The node of a file that is cut down. -/
def cutNode (bs size : Nat) (n : FileNode) : FileNode :=
  { n with sparse := truncateSparse (blockCount size bs) n.sparse, size := size }

theorem cutNode_valid {bs size : Nat} (hbs : 0 < bs) (hvalid : n.Valid bs)
    (hsize : size < n.size) :
    (cutNode bs size n).Valid bs ∧ (cutNode bs size n).stored bs ≤ n.stored bs := by
  have hmono := blockCount_mono hbs (Nat.le_of_lt hsize)
  have hcut : Cut 0 (n.blocks bs) (blockCount size bs) n.sparse
      (truncateSparse (blockCount size bs) n.sparse) :=
    truncateSparse_cut hvalid.words hvalid.within (Nat.zero_le _)
  refine ⟨⟨hcut.within, truncateSparse_words hvalid.words, ?_⟩, ?_⟩
  · exact Nat.lt_trans hsize hvalid.size_lt
  · have htotal := hcut.total_le
    unfold FileNode.stored
    change blockCount size bs - total (truncateSparse (blockCount size bs) n.sparse) ≤ _
    unfold FileNode.blocks at *
    omega

theorem fileShrink_layout (hvol : Bounded vol) {size : Nat} (h : LaidOut vol.blocksize fs)
    (hn : fs.files[i]? = some n) (hsize : size < n.size) :
    Call.Returns (fileShrink vol i size fs)
      (fun _ => LaidOut vol.blocksize) (LaidOut vol.blocksize) := by
  have hbs := hvol.blocksize_pos
  have hbs' := hvol.blocksize_lt
  have hvalid := h.valid_at hn
  obtain ⟨hvalid', hless⟩ := cutNode_valid hbs hvalid hsize
  have hold := blockCount_filePhysicalSize hbs hbs' hvalid
  have hnew := blockCount_filePhysicalSize hbs hbs' hvalid'
  have hcut : LaidOut vol.blocksize { fs with
      files := fs.files.modify i fun _ => cutNode vol.blocksize size n } :=
    Layout.replace h hn hvalid' fun _ => ⟨rfl, hless⟩
  unfold fileShrink
  rw [Call.bind_apply, file_eq hn, Outcome.bind_ok]
  change Call.Returns ((updateFile i (fun _ => cutNode vol.blocksize size n) >>= fun _ => _) fs)
    _ _
  rw [Call.bind_apply, updateFile_apply, Outcome.bind_ok]
  apply Call.Returns.bind (R := fun _ => LaidOut vol.blocksize)
  · apply Call.Returns.guard
    · intro hlt
      change blockCount (filePhysicalSize vol.blocksize (cutNode vol.blocksize size n)) _ <
        _ at hlt
      rw [hold, hnew] at hlt
      have hstop := h.stop_le hn (by omega)
      have htop := h.top_lt
      rw [Call.bind_apply, Call.get_apply, Outcome.bind_ok]
      apply onVolume_bind (fun _ => hcut)
      intro _ v _
      apply onVolume_bind (fun _ => hcut)
      intro _ v' _
      rw [Call.bind_apply, setDataOffset_apply, Outcome.bind_ok, updateFiles_apply]
      have hgone := Layout.cutFile h hbs hbs' hn hvalid' rfl hlt
      change LaidOut vol.blocksize { fs with
        volume := v'
        dataOffset := sub64 fs.dataOffset
          (blockCount (filePhysicalSize vol.blocksize n) vol.blocksize -
            blockCount (filePhysicalSize vol.blocksize (cutNode vol.blocksize size n))
              vol.blocksize)
        files := (fs.files.modify i fun _ => cutNode vol.blocksize size n).map
          (closeCut vol.blocksize n.startIndex
            (blockCount (filePhysicalSize vol.blocksize n) vol.blocksize -
              blockCount (filePhysicalSize vol.blocksize (cutNode vol.blocksize size n))
                vol.blocksize)) }
      rw [hold, hnew, sub64_of_le (by omega) htop]
      exact hgone
    · intro _
      exact hcut
  · intro _ fs₁ hlaid
    apply Call.Returns.guard
    · intro _
      exact onVolume_returns (fun _ _ _ => hlaid) fun _ => hlaid
    · intro _
      exact hlaid

theorem fileTruncate_layout (hvol : Bounded vol) {size : Nat} (h : LaidOut vol.blocksize fs)
    (hn : fs.files[i]? = some n) (hblocks : blockCount size vol.blocksize < 2 ^ 32) :
    Call.Returns (fileTruncate vol i size fs)
      (fun _ => LaidOut vol.blocksize) (LaidOut vol.blocksize) := by
  unfold fileTruncate
  rw [Call.bind_apply, file_eq hn, Outcome.bind_ok, Call.ite_apply]
  split
  · have hgrow := fileAppend_resized hvol h hn none (size - n.size)
      (by rw [Nat.add_sub_cancel' (by omega)]; exact hblocks)
    exact hgrow.mono (fun _ _ hres => hres.layout) fun _ hlaid => hlaid
  · rw [Call.ite_apply]
    split
    · exact h
    · exact fileShrink_layout hvol h hn (by omega)

theorem addGap_layout (vol : Volume σ) {index size : Nat} (h : LaidOut vol.blocksize fs)
    (hindex : ∀ n ∈ fs.files, 0 < n.stored vol.blocksize →
      index ≤ n.startIndex ∨ n.startIndex + n.stored vol.blocksize ≤ index)
    (hfits : max index fs.dataOffset + gapSize vol.blocksize size / vol.blocksize < 2 ^ 64) :
    Call.Returns (addGap vol index size fs)
      (fun _ => LaidOut vol.blocksize) (LaidOut vol.blocksize) := by
  unfold addGap
  by_cases hzero : size = 0
  · rw [if_pos hzero]
    exact h
  rw [if_neg hzero, Call.bind_apply, Call.get_apply, Outcome.bind_ok]
  apply Call.Returns.bind (R := fun _ => LaidOut vol.blocksize)
  · rw [Call.ite_apply]
    split
    · apply onVolume_bind (fun _ => h)
      intro _ v _
      rw [Call.bind_apply, updateFiles_apply, Outcome.bind_ok, setDataOffset_apply,
        u64_of_lt (by omega)]
      exact Layout.openGap h hindex (by omega)
    · rename_i hbehind
      have hge : fs.dataOffset ≤ index + gapSize vol.blocksize size / vol.blocksize :=
        Nat.le_add_right_of_le (Nat.not_lt.1 hbehind)
      have hlt : index + gapSize vol.blocksize size / vol.blocksize < 2 ^ 64 := by omega
      rw [setDataOffset_apply, u64_of_lt hlt]
      exact Layout.grow h hge hlt
  · intro _ fs₁ hlaid
    exact onVolume_returns (fun _ _ _ => hlaid) fun _ => hlaid

end TruncateAndGap

end ImageTool.Fstree
