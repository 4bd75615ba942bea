import ImageTool.Fstree.AppendLaw

/-!
# What a truncate makes of a file

A file that is cut down keeps what is in front of its new end, the blocks behind it
close up, and the rest of its last block is cleared.  A file that is extended gets zeros
behind its end, unless its last block is one that `append_to_tail` takes for a part of the
region in front of it and so does not write to: then `TailClean` decides what it ends in.
-/

namespace ImageTool.Fstree

open ImageTool.Lib ImageTool.Image ImageTool.Util

variable {σ : Type}

/-! ## Extending with zeros -/

/-- A partial last block behind a region holds zeros behind the end of the file. -/
def TailClean (bs : Nat) (view : Bytes) (n : FileNode) : Prop :=
  0 < n.size % bs → EndsAt n.sparse (n.size / bs) →
    ∀ o < bs, n.size % bs ≤ o → blockByte bs view n (n.size / bs) o = 0

section Clean

variable {bs size q : Nat} {view view' : Bytes} {n m : FileNode}

theorem TailFresh.clean (h : TailFresh bs view n) : TailClean bs view n :=
  fun hpos hends o ho _ => (h hpos hends).2 o ho

theorem TailClean.appendSound (h : TailClean bs view n) (size q : Nat) :
    AppendSound bs view n none size q := by
  intro _ htail hends
  rw [if_pos (show isNullOrZero none _ = true from rfl)]
  intro k hk
  exact h htail hends _ (by omega) (Nat.le_add_right _ _)

/-- The file has only become longer in its last block. -/
theorem TailClean.longer (h : TailClean bs view n) (htail : 0 < n.size % bs)
    (hfit : n.size % bs + size ≤ bs) : TailClean bs view { n with size := n.size + size } := by
  intro hpos hends o ho hge
  have hlt : n.size % bs + size < bs := by
    by_contra hfull
    have hnext := next_block n.size (show 0 < bs by omega)
    dsimp only at hpos
    rw [show size = bs - n.size % bs by omega] at hpos
    omega
  obtain ⟨hdiv, hmod⟩ := size_div_mod hlt
  dsimp only at hends hge ⊢
  rw [hdiv] at hends ⊢
  exact h htail hends o ho (by omega)

/-- The stored bytes of the file are where they are now. -/
theorem TailClean.congr (h : TailClean bs view n) (hvalid : n.Valid bs)
    {start : Nat} (hdata : ∀ q < n.stored bs * bs,
      view' (start * bs + q) = view (n.startIndex * bs + q)) :
    TailClean bs view' { n with startIndex := start } := by
  intro hpos hends o ho hge
  have hblocks : n.size / bs < n.blocks bs := by
    rw [blocks_of_tail (n := n) hpos]
    exact Nat.lt_succ_self _
  have hbyte := blockByte_congr (m := { n with startIndex := start }) hvalid rfl hdata hblocks ho
  exact hbyte.trans (h hpos hends o ho hge)

end Clean

section Extend

variable {vol : Volume σ} {count i size : Nat} {view : σ → Bytes} {fs fs' : Fstree σ}
variable {n m : FileNode}

/-- Zeros behind the end of a file keep its last block clean. -/
theorem fileAppend_clean (hb : Backing vol count view) (h : Housed vol.blocksize count fs)
    (hn : fs.files[i]? = some n) (hpos : 0 < size)
    (hblocks : blockCount (n.size + size) vol.blocksize < 2 ^ 32)
    (hok : fileAppend vol i none size fs = .ok () fs') (hm : fs'.files[i]? = some m)
    (hclean : TailClean vol.blocksize (view fs.volume) n) :
    TailClean vol.blocksize (view fs'.volume) m := by
  have hbs := hb.store.blocksize_pos
  have happ := fileAppend_appended hb h hn (Buffer.holds_none size) hblocks
  rw [hok] at happ
  obtain ⟨m', hm', hsize, _, hfresh⟩ := happ.node
  rw [hm, Option.some.injEq] at hm'
  subst hm'
  have hmono := blockCount_mono hbs (show n.size ≤ n.size + size by omega)
  by_cases hnew : n.blocks vol.blocksize < m.blocks vol.blocksize
  · exact (hfresh rfl (Or.inr hnew)).clean
  by_cases htail : 0 < n.size % vol.blocksize ∧ EndsAt n.sparse (n.size / vol.blocksize)
  · have hfit : n.size % vol.blocksize + size ≤ vol.blocksize := by
      unfold FileNode.blocks at hnew
      rw [hsize, Nat.not_lt, blockCount_le_iff hbs] at hnew
      change _ ≤ n.blocks vol.blocksize * vol.blocksize at hnew
      rw [blocks_of_tail htail.1, Nat.succ_mul] at hnew
      have := size_eq vol.blocksize n
      omega
    have hlt := lt_of_blockCount_lt hbs hb.blocksize_lt hblocks
    rw [fileAppend_unwritten (h.laidOut.valid_at hn) (Nat.lt_of_le_of_lt hmono hblocks) hn hpos
      htail.1 hfit htail.2, Outcome.ok.injEq] at hok
    obtain ⟨-, rfl⟩ := hok
    rw [getElem?_modify_self hn, Option.some.injEq, u64_of_lt hlt] at hm
    subst hm
    exact hclean.longer htail.1 hfit
  · have hstart : TailFresh vol.blocksize (view fs.volume) n :=
      fun hpos hends => absurd ⟨hpos, hends⟩ htail
    exact (hfresh rfl (Or.inl hstart)).clean

end Extend

/-! ## Cutting down -/

/-- File `i` has become `cut`, and the blocks behind it have closed up. -/
structure ClosedUp (bs count : Nat) (view : σ → Bytes) (i : Nat) (n cut : FileNode)
    (fs fs₁ : Fstree σ) : Prop where
  housed : Housed bs count fs₁
  others : FilesKept bs count view (· ≠ i) fs fs₁
  node : fs₁.files[i]? = some cut
  data : ∀ q < cut.stored bs * bs,
    view fs₁.volume (n.startIndex * bs + q) = view fs.volume (n.startIndex * bs + q)

section Cut

variable {vol : Volume σ} {bs count i size : Nat} {view : σ → Bytes} {fs fs₁ : Fstree σ}
variable {n cut : FileNode}

/-- Every block behind the file lies lower by the blocks that were cut off. -/
theorem cutFiles_closedUp (hbs : 0 < bs) (hbs' : bs < 2 ^ 32) (h : Housed bs count fs)
    (hn : fs.files[i]? = some n) (hvalid : cut.Valid bs)
    (hstart : cut.startIndex = n.startIndex) (hless : cut.stored bs < n.stored bs) {v : σ}
    (hlow : ∀ p < (n.startIndex + cut.stored bs) * bs, view v p = view fs.volume p)
    (hhigh : ∀ p, (n.startIndex + cut.stored bs) * bs ≤ p →
      p + (n.stored bs - cut.stored bs) * bs < fs.dataOffset * bs →
        view v p = view fs.volume (p + (n.stored bs - cut.stored bs) * bs)) :
    ClosedUp bs count view i n cut fs { fs with
      volume := v
      dataOffset := fs.dataOffset - (n.stored bs - cut.stored bs)
      files := (fs.files.modify i fun _ => cut).map
        (closeCut bs n.startIndex (n.stored bs - cut.stored bs)) } := by
  have hfits := h.fits
  have hhoused : Housed bs count { fs with
      volume := v
      dataOffset := fs.dataOffset - (n.stored bs - cut.stored bs)
      files := (fs.files.modify i fun _ => cut).map
        (closeCut bs n.startIndex (n.stored bs - cut.stored bs)) } :=
    ⟨Layout.cutFile h.laidOut hbs hbs' hn hvalid hstart hless,
      Nat.le_trans (Nat.sub_le _ _) hfits⟩
  refine ⟨hhoused, ?_, ?_, ?_⟩
  · apply FilesKept.of_housed hhoused (by simp)
    intro j m hji hm
    by_cases hpos : 0 < m.stored bs
    · refine ⟨_, Layout.cutFiles_ne h.laidOut hbs hbs' hn hless hji hm hpos, ?_⟩
      intro q hq
      have hstop := Nat.mul_le_mul_right bs (h.laidOut.stop_le hm hpos)
      have hapart := h.laidOut.packed.apart j i hji (by rw [extentAt_eq hm]; exact hpos)
        (by rw [extentAt_eq hn]; exact Nat.zero_lt_of_lt hless)
      rw [extentAt_eq hm, extentAt_eq hn] at hapart
      unfold Extent.Apart Extent.stop FileNode.extent at hapart
      dsimp only at hapart
      rw [Nat.add_mul] at hstop
      by_cases hbehind : m.startIndex > n.startIndex
      · rw [if_pos hbehind]
        have hle : n.startIndex + cut.stored bs ≤
            m.startIndex - (n.stored bs - cut.stored bs) := by omega
        have hle' := Nat.mul_le_mul_right bs hle
        have hback : (m.startIndex - (n.stored bs - cut.stored bs)) * bs +
            (n.stored bs - cut.stored bs) * bs = m.startIndex * bs := by
          rw [← Nat.add_mul, Nat.sub_add_cancel (by omega)]
        change view v _ = _
        rw [hhigh _ (by omega) (by omega)]
        congr 1
        omega
      · rw [if_neg hbehind]
        have hfront : m.startIndex + m.stored bs ≤ n.startIndex + cut.stored bs := by omega
        have hfront' := Nat.mul_le_mul_right bs hfront
        rw [Nat.add_mul] at hfront'
        exact hlow _ (by omega)
    · have hm' : (fs.files.modify i fun _ => cut)[j]? = some m :=
        (List.getElem?_modify_ne _ _ fun hij => hji hij.symm).trans hm
      have hg : Restarts (closeCut bs n.startIndex (n.stored bs - cut.stored bs)) :=
        closeCut_restarts _ _
      obtain ⟨start, hstart'⟩ := hg.getElem?_map hm'
      refine ⟨start, hstart', ?_⟩
      intro q hq
      rw [Nat.eq_zero_of_not_pos hpos, Nat.zero_mul] at hq
      exact absurd hq (Nat.not_lt_zero q)
  · dsimp only
    rw [List.getElem?_map, getElem?_modify_self hn, Option.map_some,
      closeCut_self (Nat.le_of_eq hstart)]
  · intro q hq
    apply hlow
    rw [Nat.add_mul]
    omega

/-- `fileShrink` in the counts of stored blocks. -/
theorem fileShrink_eq (hbs : 0 < vol.blocksize) (hbs' : vol.blocksize < 2 ^ 32)
    (hn : fs.files[i]? = some n) (hvalid : n.Valid vol.blocksize)
    (hcut : cutNode vol.blocksize size n = cut) (hvalid' : cut.Valid vol.blocksize) :
    fileShrink vol i size fs = (do
      updateFile i fun _ => cut
      Call.guard (cut.stored vol.blocksize < n.stored vol.blocksize) (do
        let fs ← Call.get
        let src := u64 (n.startIndex + n.stored vol.blocksize)
        let dst := u64 (n.startIndex + cut.stored vol.blocksize)
        onVolume (volumeMemmove vol (u64 (dst * vol.blocksize)) (u64 (src * vol.blocksize))
          (u64 (sub64 fs.dataOffset src * vol.blocksize)))
        let diff := n.stored vol.blocksize - cut.stored vol.blocksize
        onVolume (vol.discardBlocks (sub64 fs.dataOffset diff) diff)
        setDataOffset (sub64 fs.dataOffset diff)
        updateFiles (closeCut vol.blocksize n.startIndex diff))
      let tailSize := filePhysicalSize vol.blocksize cut % vol.blocksize
      Call.guard (tailSize > 0)
        (onVolume (vol.writePartialBlock
          (sub64 (u64 (n.startIndex + cut.stored vol.blocksize)) 1) none tailSize
          (vol.blocksize - tailSize))) : Call (Fstree σ) Unit) fs := by
  subst hcut
  unfold fileShrink
  rw [Call.bind_apply, file_eq hn, Outcome.bind_ok, ← blockCount_filePhysicalSize hbs hbs' hvalid,
    ← blockCount_filePhysicalSize hbs hbs' hvalid']
  rfl

/-- The blocks that were cut off are given back. -/
theorem fileShrink_closedUp (hb : Backing vol count view) (h : Housed vol.blocksize count fs)
    (hn : fs.files[i]? = some n) (hvalid : cut.Valid vol.blocksize)
    (hstart : cut.startIndex = n.startIndex)
    (hle : cut.stored vol.blocksize ≤ n.stored vol.blocksize) :
    Call.Returns (Call.guard (cut.stored vol.blocksize < n.stored vol.blocksize) (do
        let fs ← Call.get
        let src := u64 (n.startIndex + n.stored vol.blocksize)
        let dst := u64 (n.startIndex + cut.stored vol.blocksize)
        onVolume (volumeMemmove vol (u64 (dst * vol.blocksize)) (u64 (src * vol.blocksize))
          (u64 (sub64 fs.dataOffset src * vol.blocksize)))
        let diff := n.stored vol.blocksize - cut.stored vol.blocksize
        onVolume (vol.discardBlocks (sub64 fs.dataOffset diff) diff)
        setDataOffset (sub64 fs.dataOffset diff)
        updateFiles (closeCut vol.blocksize n.startIndex diff) : Call (Fstree σ) Unit)
        { fs with files := fs.files.modify i fun _ => cut })
      (fun _ => ClosedUp vol.blocksize count view i n cut fs) (fun _ => False) := by
  have hbs := hb.store.blocksize_pos
  have hfits := h.fits
  have htop := h.laidOut.top_lt
  apply Call.Returns.guard
  · intro hlt
    have hstop := h.laidOut.stop_le hn (Nat.zero_lt_of_lt hlt)
    generalize hcut : { fs with files := fs.files.modify i fun _ => cut } = fs₀
    have htop₀ : fs₀.dataOffset = fs.dataOffset := by rw [← hcut]
    rw [Call.bind_apply, Call.get_apply, Outcome.bind_ok]
    dsimp only
    rw [htop₀]
    have hend := Nat.mul_le_mul_right vol.blocksize hstop
    have hin := Nat.mul_le_mul_right vol.blocksize hfits
    have hlt64 := hb.bytes_lt
    generalize hold : n.stored vol.blocksize = old at *
    generalize hnew : cut.stored vol.blocksize = new at *
    have hrest : (fs.dataOffset - (n.startIndex + old)) * vol.blocksize =
        fs.dataOffset * vol.blocksize - (n.startIndex + old) * vol.blocksize := Nat.sub_mul _ _ _
    have hdiff : (fs.dataOffset - (old - new)) * vol.blocksize =
        fs.dataOffset * vol.blocksize - (old - new) * vol.blocksize := Nat.sub_mul _ _ _
    have hsrc : (n.startIndex + old) * vol.blocksize =
        (n.startIndex + new) * vol.blocksize + (old - new) * vol.blocksize := by
      rw [← Nat.add_mul]
      congr 1
      omega
    rw [u64_of_lt (show n.startIndex + old < 2 ^ 64 by omega),
      u64_of_lt (show n.startIndex + new < 2 ^ 64 by omega), sub64_of_le (by omega) htop,
      sub64_of_le (by omega) htop, hrest, hsrc, u64_of_lt (by omega), u64_of_lt (by omega),
      u64_of_lt (by omega)]
    rw [hsrc] at hend
    obtain ⟨v₁, h₁, hview₁⟩ := volumeMemmove_eq hb.store fs₀.volume
      (show (n.startIndex + new) * vol.blocksize + (fs.dataOffset * vol.blocksize -
        ((n.startIndex + new) * vol.blocksize + (old - new) * vol.blocksize)) ≤ _ by omega)
      (show (n.startIndex + new) * vol.blocksize + (old - new) * vol.blocksize + _ ≤ _ by omega)
      (by omega) (by omega)
    obtain ⟨v₂, h₂, hview₂⟩ := hb.store.discardBlocks v₁ (fs.dataOffset - (old - new))
      (old - new) (by omega)
    rw [Call.bind_apply, onVolume_ok h₁, Outcome.bind_ok, Call.bind_apply, onVolume_ok h₂,
      Outcome.bind_ok, Call.bind_apply, setDataOffset_apply, Outcome.bind_ok, updateFiles_apply]
    rw [hview₁, hdiff] at hview₂
    have hgap : ∀ p, view v₂ p = if p < (n.startIndex + new) * vol.blocksize then
        view fs.volume p
        else if p + (old - new) * vol.blocksize < fs.dataOffset * vol.blocksize then
          view fs.volume (p + (old - new) * vol.blocksize)
        else if p < fs.dataOffset * vol.blocksize then 0 else view fs.volume p := by
      intro p
      rw [hview₂, ← hcut]
      exact Bytes.close_gap_apply hend
    subst hold hnew hcut
    apply cutFiles_closedUp hbs hb.blocksize_lt h hn hvalid hstart hlt
    · intro p hp
      rw [hgap, if_pos hp]
    · intro p hp hp'
      rw [hgap, if_neg (Nat.not_lt.2 hp), if_pos hp']
  · intro hge
    have hsame : cut.stored vol.blocksize = n.stored vol.blocksize := by omega
    refine ⟨⟨?_, hfits⟩, (FilesKept.refl view _ h).modify _ _, getElem?_modify_self hn,
      fun _ _ => rfl⟩
    exact Layout.replace h.laidOut hn hvalid fun _ => ⟨hstart, hle⟩

/-- In front of its new end the file has the bytes it had. -/
theorem ClosedUp.contents_eq (h : ClosedUp bs count view i n cut fs fs₁) (hbs : 0 < bs)
    (hvalid : n.Valid bs) (hsize : size < n.size) (hcut : cutNode bs size n = cut) :
    contents bs (view fs₁.volume) cut = (contents bs (view fs.volume) n).take size := by
  obtain ⟨hvalid', -⟩ := cutNode_valid hbs hvalid hsize
  rw [hcut] at hvalid'
  have hcsize : cut.size = size := by rw [← hcut]; rfl
  have hcutoff : Cut 0 (n.blocks bs) (cut.blocks bs) n.sparse cut.sparse := by
    rw [← hcut]
    exact truncateSparse_cut hvalid.words hvalid.within (Nat.zero_le _)
  have hcovers : ∀ x < cut.blocks bs, Covers cut.sparse x ↔ Covers n.sparse x := by
    intro x hx
    rw [hcutoff.covers]
    exact and_iff_left hx
  have hall : (contents bs (view fs₁.volume) cut).take size =
      contents bs (view fs₁.volume) cut := List.take_of_length_le (by simp [hcsize])
  rw [← hall, take_contents_iff hbs (Nat.le_of_lt hsize) (Nat.le_of_eq hcsize.symm)]
  intro b o ho hlt
  have hblocks : b < cut.blocks bs := (lt_blockCount_iff hbs).2 (by omega)
  by_cases hb : Covers n.sparse b
  · rw [blockByte_sparse hb, blockByte_sparse ((hcovers b hblocks).2 hb)]
  · have hb' : ¬ Covers cut.sparse b := (hcovers b hblocks).not.2 hb
    have hrank : rank cut.sparse b = rank n.sparse b :=
      rank_congr fun x hx => hcovers x (Nat.lt_trans hx hblocks)
    have hbyte := h.data _ (hvalid'.byte_lt hb' hblocks ho)
    have hstart : cut.startIndex = n.startIndex := by rw [← hcut]; rfl
    unfold blockByte
    rw [if_neg hb, if_neg hb', hstart, hbyte, hrank]

/-- `c` cut down to `size` bytes, or extended to as many with zeros. -/
def cutOrExtend (c : List UInt8) (size : Nat) : List UInt8 :=
  c.take size ++ List.replicate (size - c.length) 0

/-- After a truncate of file `i` to `size` bytes. -/
structure Truncated (bs count : Nat) (view : σ → Bytes) (i : Nat) (n : FileNode) (size : Nat)
    (fs fs' : Fstree σ) : Prop where
  housed : Housed bs count fs'
  others : FilesKept bs count view (· ≠ i) fs fs'
  node : ∃ m, fs'.files[i]? = some m ∧ m.size = size ∧
    contents bs (view fs'.volume) m = cutOrExtend (contents bs (view fs.volume) n) size ∧
    TailClean bs (view fs'.volume) m

/-- The rest of the last block is cleared. -/
theorem ClosedUp.truncated (hb : Backing vol count view)
    (h : ClosedUp vol.blocksize count view i n cut fs fs₁) (hvalid : n.Valid vol.blocksize)
    (hsize : size < n.size) (hcut : cutNode vol.blocksize size n = cut) :
    Call.Returns (Call.guard (filePhysicalSize vol.blocksize cut % vol.blocksize > 0)
        (onVolume (vol.writePartialBlock
          (sub64 (u64 (n.startIndex + cut.stored vol.blocksize)) 1) none
          (filePhysicalSize vol.blocksize cut % vol.blocksize)
          (vol.blocksize - filePhysicalSize vol.blocksize cut % vol.blocksize))) fs₁)
      (fun _ => Truncated vol.blocksize count view i n size fs) (fun _ => False) := by
  have hbs := hb.store.blocksize_pos
  obtain ⟨hvalid', -⟩ := cutNode_valid hbs hvalid hsize
  rw [hcut] at hvalid'
  obtain ⟨hwhole, hpart⟩ := filePhysicalSize_eq hbs hb.blocksize_lt hvalid'
  have hcsize : cut.size = size := by rw [← hcut]; rfl
  have hcontents : contents vol.blocksize (view fs₁.volume) cut =
      cutOrExtend (contents vol.blocksize (view fs.volume) n) size := by
    unfold cutOrExtend
    rw [h.contents_eq hbs hvalid hsize hcut, length_contents,
      Nat.sub_eq_zero_of_le (Nat.le_of_lt hsize), List.replicate_zero, List.append_nil]
  have hdone : TailClean vol.blocksize (view fs₁.volume) cut →
      Truncated vol.blocksize count view i n size fs fs₁ :=
    fun hclean => ⟨h.housed, h.others, cut, h.node, hcsize, hcontents, hclean⟩
  by_cases htail : 0 < cut.size % vol.blocksize
  swap
  · -- the file ends with a block
    have hphys : filePhysicalSize vol.blocksize cut % vol.blocksize = 0 := by
      by_cases hcover : Covers cut.sparse (cut.blocks vol.blocksize - 1)
      · rw [hwhole hcover, Nat.mul_mod_left]
      · have hmod := congrArg (· % vol.blocksize) (hpart hcover)
        simp only [Nat.add_mul_mod_self_right, Nat.mul_add_mod_self_right] at hmod
        omega
    rw [Call.guard_neg (by omega)]
    exact hdone fun hpos => absurd hpos htail
  have hblocks := blocks_of_tail htail
  rw [hblocks, Nat.add_sub_cancel] at hwhole hpart
  by_cases hcover : Covers cut.sparse (cut.size / vol.blocksize)
  · rw [hwhole hcover, Nat.mul_mod_left, Call.guard_neg (by omega)]
    exact hdone fun _ _ _ _ _ => blockByte_sparse hcover
  · have hphys : filePhysicalSize vol.blocksize cut % vol.blocksize =
        cut.size % vol.blocksize := by
      have hmod := congrArg (· % vol.blocksize) (hpart hcover)
      simpa only [Nat.add_mul_mod_self_right, Nat.mul_add_mod_self_right] using hmod
    have hstart : cut.startIndex = n.startIndex := by rw [← hcut]; rfl
    have hstored : cut.stored vol.blocksize =
        rank cut.sparse (cut.size / vol.blocksize) + 1 := by
      rw [hvalid'.stored_eq, hblocks, rank_succ, if_pos hcover]
    have hrank : rank cut.sparse (cut.size / vol.blocksize) < cut.stored vol.blocksize := by
      omega
    have hstop := h.housed.laidOut.stop_le h.node (Nat.zero_lt_of_lt hrank)
    have htop := h.housed.laidOut.top_lt
    have hmod := Nat.mod_lt cut.size hbs
    rw [hphys, Call.guard_pos htail, hstored, ← hstart, u64_of_lt (by omega),
      sub64_of_le (by omega) (by omega), ← Nat.add_assoc, Nat.add_sub_cancel]
    apply hb.returns_writePartialBlock (by omega) (Buffer.holds_none _)
    · intro _ v hview
      have hlen : (Buffer.bytes none (vol.blocksize - cut.size % vol.blocksize)).length =
          vol.blocksize - cut.size % vol.blocksize := Buffer.length_bytes (Buffer.holds_none _)
      have hfit : cut.size % vol.blocksize +
          (Buffer.bytes none (vol.blocksize - cut.size % vol.blocksize)).length ≤
            vol.blocksize := by omega
      have hkept : FilesKept vol.blocksize count view (· ≠ i) fs₁ { fs₁ with volume := v } := by
        apply FilesKept.splice hbs h.housed hview hfit
        intro j m hj hm r hr
        exact h.housed.laidOut.block_ne hj h.node hm hr hrank
      refine ⟨⟨h.housed.laidOut, h.housed.fits⟩, h.others.trans hkept, cut, h.node, hcsize, ?_, ?_⟩
      · rw [← hcontents]
        change contents _ (view v) _ = _
        rw [hview]
        exact contents_splice_behind hbs hcover (Nat.le_refl _) hfit
      · intro _ _ o ho hge
        change blockByte _ (view v) _ _ _ = 0
        rw [hview, blockByte_splice_self hcover, if_pos (by omega)]
        unfold Buffer.bytes
        rw [List.getD_eq_getElem?_getD, List.getElem?_replicate]
        split <;> rfl
    · intro hout
      have hfits := h.housed.fits
      omega

/-- Cutting a file down does not fail. -/
theorem fileShrink_truncated (hb : Backing vol count view) (h : Housed vol.blocksize count fs)
    (hn : fs.files[i]? = some n) (hsize : size < n.size) :
    Call.Returns (fileShrink vol i size fs)
      (fun _ => Truncated vol.blocksize count view i n size fs) (fun _ => False) := by
  have hbs := hb.store.blocksize_pos
  have hvalid := h.laidOut.valid_at hn
  obtain ⟨hvalid', hle⟩ := cutNode_valid hbs hvalid hsize
  rw [fileShrink_eq hbs hb.blocksize_lt hn hvalid rfl hvalid', Call.bind_apply,
    updateFile_apply, Outcome.bind_ok]
  apply Call.Returns.bind (fileShrink_closedUp hb h hn hvalid' rfl hle)
  intro _ fs₁ hclosed
  exact hclosed.truncated hb hvalid hsize rfl

end Cut

/-! ## The whole truncate -/

section Truncate

variable {vol : Volume σ} {count i size : Nat} {view : σ → Bytes} {fs fs' : Fstree σ}
variable {n m : FileNode}

theorem cutOrExtend_append {c : List UInt8} (hsize : c.length ≤ size) :
    cutOrExtend c size = c ++ List.replicate (size - c.length) 0 := by
  unfold cutOrExtend
  rw [List.take_of_length_le hsize]

theorem fileTruncate_truncated (hb : Backing vol count view)
    (h : Housed vol.blocksize count fs) (hn : fs.files[i]? = some n)
    (hblocks : n.size ≤ size → blockCount size vol.blocksize < 2 ^ 32)
    (hclean : n.size ≤ size → TailClean vol.blocksize (view fs.volume) n) :
    Call.Returns (fileTruncate vol i size fs)
      (fun _ => Truncated vol.blocksize count view i n size fs) (fun _ => True) := by
  unfold fileTruncate
  rw [Call.bind_apply, file_eq hn, Outcome.bind_ok, Call.ite_apply, Call.ite_apply]
  split
  · rename_i hgt
    have hsum : n.size + (size - n.size) = size := Nat.add_sub_cancel' (Nat.le_of_lt hgt)
    have hblocks' : blockCount (n.size + (size - n.size)) vol.blocksize < 2 ^ 32 := by
      rw [hsum]
      exact hblocks (Nat.le_of_lt hgt)
    have happ := fileAppend_appended hb h hn (Buffer.holds_none (size - n.size)) hblocks'
    cases hok : fileAppend vol i none (size - n.size) fs with
    | ok u fs' =>
        rw [hok] at happ
        obtain ⟨m, hm, hsize, hgrown, _⟩ := happ.node
        have hstart := hclean (Nat.le_of_lt hgt)
        refine ⟨happ.housed, happ.others, m, hm, hsize.trans hsum, ?_, ?_⟩
        · rw [hgrown.eq_iff.2 (hstart.appendSound _ _), cutOrExtend_append (by simp; omega),
            length_contents]
          rfl
        · exact fileAppend_clean hb h hn (Nat.sub_pos_of_lt hgt) hblocks' hok hm hstart
    | fail fs' => trivial
    | stuck => trivial
  · rename_i hle
    split
    · rename_i heq
      subst heq
      refine ⟨h, FilesKept.refl view _ h, n, hn, rfl, ?_, hclean (Nat.le_refl _)⟩
      rw [cutOrExtend_append (by simp), length_contents]
      simp
    · exact (fileShrink_truncated hb h hn (by omega)).mono (fun _ _ hdone => hdone)
        fun _ _ => trivial

/-- File `i` has been cut down or extended to `size` bytes; where it is extended again
before its bytes change, zeros follow; and all others have their old bytes. -/
structure TruncateLaw (vol : Volume σ) (count : Nat) (view : σ → Bytes) (i size : Nat)
    (fs fs' : Fstree σ) : Prop where
  contents : ∀ c, Reads vol i c fs → Reads vol i (cutOrExtend c size) fs'
  later : ∀ c, Reads vol i c fs' → ∀ fs₁ fs₂ size₁, Housed vol.blocksize count fs₁ →
    FilesKept vol.blocksize count view (· = i) fs' fs₁ → size ≤ size₁ →
      blockCount size₁ vol.blocksize < 2 ^ 32 →
        fileTruncate vol i size₁ fs₁ = .ok () fs₂ → Reads vol i (cutOrExtend c size₁) fs₂
  others : ∀ j, j ≠ i → ∀ c, Reads vol j c fs' ↔ Reads vol j c fs

theorem Truncated.law (hb : Backing vol count view) (h : Housed vol.blocksize count fs)
    (hn : fs.files[i]? = some n)
    (htrunc : Truncated vol.blocksize count view i n size fs fs') :
    TruncateLaw vol count view i size fs fs' := by
  obtain ⟨m, hm, hsize, hcontents, hclean⟩ := htrunc.node
  refine ⟨?_, ?_, ?_⟩
  · intro c hc
    rw [reads_iff_contents hb.store h hn] at hc
    rw [reads_iff_contents hb.store htrunc.housed hm, hcontents, hc]
  · intro c hc fs₁ fs₂ size₁ h₁ hkept hle hblocks hok
    obtain ⟨start, hm₁, _, hdata⟩ := hkept.node i m rfl hm
    have hclean₁ := hclean.congr (htrunc.housed.laidOut.valid_at hm) hdata
    have htrunc₁ := fileTruncate_truncated hb h₁ hm₁ (fun _ => hblocks)
      fun _ => hclean₁
    rw [hok] at htrunc₁
    obtain ⟨m₂, hm₂, _, hcontents₂, _⟩ := htrunc₁.node
    rw [reads_iff_contents hb.store htrunc.housed hm] at hc
    have hsame := contents_congr (m := { m with startIndex := start }) hb.store.blocksize_pos
      (htrunc.housed.laidOut.valid_at hm) rfl rfl hdata
    rw [reads_iff_contents hb.store htrunc₁.housed hm₂, hcontents₂, hsame, hc]
  · intro j hj c
    exact htrunc.others.reads_iff hb.store h hj

theorem fileTruncate_append (hn : fs.files[i]? = some n) (hlt : n.size < size) :
    fileTruncate vol i size fs = fileAppend vol i none (size - n.size) fs := by
  unfold fileTruncate
  rw [Call.bind_apply, file_eq hn, Outcome.bind_ok, if_pos hlt]

/-- Where the zeros behind a file arrive, its last block was not in the way. -/
theorem appendSound_of_reads (hb : Backing vol count view) (h : Housed vol.blocksize count fs)
    (hn : fs.files[i]? = some n) (hlt : n.size < size)
    (hblocks : blockCount size vol.blocksize < 2 ^ 32)
    (hok : fileTruncate vol i size fs = .ok () fs')
    (hreads : ∀ c, Reads vol i c fs → Reads vol i (cutOrExtend c size) fs') :
    AppendSound vol.blocksize (view fs.volume) n none (size - n.size) n.size := by
  rw [fileTruncate_append hn hlt] at hok
  have happ := fileAppend_appended hb h hn (Buffer.holds_none (size - n.size))
    (by rw [Nat.add_sub_cancel' (Nat.le_of_lt hlt)]; exact hblocks)
  rw [hok] at happ
  obtain ⟨m, hm, _, hgrown, _⟩ := happ.node
  have hread := hreads _ ((reads_iff_contents hb.store h hn).2 rfl)
  rw [reads_iff_contents hb.store happ.housed hm, cutOrExtend_append (by simp; omega),
    length_contents] at hread
  have hsound := hgrown.eq_iff.1 hread
  rwa [length_contents] at hsound

/-- Zeros behind a file whose last block follows a region and takes them all. -/
theorem fileTruncate_unwritten (hb : Backing vol count view) (h : Housed vol.blocksize count fs)
    (hn : fs.files[i]? = some n) (hle : n.size ≤ size)
    (hblocks : blockCount size vol.blocksize < 2 ^ 32) (htail : 0 < n.size % vol.blocksize)
    (hfit : n.size % vol.blocksize + (size - n.size) ≤ vol.blocksize)
    (hends : EndsAt n.sparse (n.size / vol.blocksize)) :
    ∃ fs', fileTruncate vol i size fs = .ok () fs' ∧ Housed vol.blocksize count fs' ∧
      fs'.volume = fs.volume ∧ fs'.files[i]? = some { n with size := size } := by
  have hsum : n.size + (size - n.size) = size := Nat.add_sub_cancel' hle
  rcases Nat.eq_or_lt_of_le hle with rfl | hlt
  · refine ⟨fs, ?_, h, rfl, hn⟩
    unfold fileTruncate
    rw [Call.bind_apply, file_eq hn, Outcome.bind_ok, if_neg (Nat.lt_irrefl _), if_pos rfl]
    rfl
  · have hmono := blockCount_mono hb.store.blocksize_pos hle
    have hsize := lt_of_blockCount_lt hb.store.blocksize_pos hb.blocksize_lt hblocks
    have happ := fileAppend_appended hb h hn (Buffer.holds_none (size - n.size))
      (by rw [hsum]; exact hblocks)
    have hok := fileAppend_unwritten (h.laidOut.valid_at hn) (Nat.lt_of_le_of_lt hmono hblocks)
      hn (Nat.sub_pos_of_lt hlt) htail hfit hends
    rw [hok] at happ
    refine ⟨_, (fileTruncate_append hn hlt).trans hok, happ.housed, rfl, ?_⟩
    rw [getElem?_modify_self hn, hsum, u64_of_lt hsize]

/-- Only a clean last block lets zeros follow the file now and later. -/
theorem TruncateLaw.clean (hb : Backing vol count view) (h : Housed vol.blocksize count fs)
    (hn : fs.files[i]? = some n) (hle : n.size ≤ size)
    (hblocks : blockCount size vol.blocksize < 2 ^ 32)
    (hok : fileTruncate vol i size fs = .ok () fs')
    (hlaw : TruncateLaw vol count view i size fs fs') :
    TailClean vol.blocksize (view fs.volume) n := by
  have hbs := hb.store.blocksize_pos
  intro htail hends o ho hge
  have hsound : n.size < size → AppendSound vol.blocksize (view fs.volume) n none
      (size - n.size) n.size :=
    fun hlt => appendSound_of_reads hb h hn hlt hblocks hok hlaw.contents
  by_cases hin : o < n.size % vol.blocksize + (size - n.size)
  · -- the byte is in the file now
    have hzero := hsound (by omega) (by omega) htail hends
    rw [if_pos (show isNullOrZero none _ = true from rfl)] at hzero
    have hbyte := hzero (o - n.size % vol.blocksize) (by omega)
    rwa [Nat.add_sub_cancel' hge] at hbyte
  · -- the byte is in the file after it was extended to the end of the block
    obtain ⟨fs₁, h₁, hfs', hvol, hn'⟩ := fileTruncate_unwritten hb h hn hle hblocks htail
      (by omega) hends
    rw [hok, Outcome.ok.injEq] at h₁
    obtain ⟨-, rfl⟩ := h₁
    have hsum : size = n.size + (size - n.size) := (Nat.add_sub_cancel' hle).symm
    have hshort : n.size % vol.blocksize + (size - n.size) < vol.blocksize := by omega
    obtain ⟨hdiv, hmod⟩ := size_div_mod hshort
    rw [← hsum] at hdiv hmod
    generalize hfull : n.size + (vol.blocksize - n.size % vol.blocksize) = full
    have hblocks' : blockCount full vol.blocksize < 2 ^ 32 := by
      have hsame := blockCount_tail htail (show n.size % vol.blocksize +
        (vol.blocksize - n.size % vol.blocksize) ≤ vol.blocksize by omega)
      have hmono := blockCount_mono hbs hle
      rw [hfull] at hsame
      omega
    have hends' : EndsAt n.sparse (size / vol.blocksize) := by
      rw [hdiv]
      exact hends
    have htail' : 0 < size % vol.blocksize := by omega
    obtain ⟨fs₂, hok₂, -⟩ := fileTruncate_unwritten (n := { n with size := size }) hb hfs' hn'
      (show size ≤ full by omega) hblocks' htail'
      (show size % vol.blocksize + (full - size) ≤ vol.blocksize by omega) hends'
    have hlater : ∀ c, Reads vol i c fs' → Reads vol i (cutOrExtend c full) fs₂ := by
      intro c hc
      exact hlaw.later c hc fs' fs₂ full hfs' (FilesKept.refl view _ hfs') (by omega) hblocks' hok₂
    have hzero := appendSound_of_reads (n := { n with size := size }) hb hfs' hn'
      (show size < full by omega) hblocks' hok₂ hlater (show 0 < full - size by omega) htail' hends'
    rw [if_pos (show isNullOrZero none _ = true from rfl)] at hzero
    have hbyte := hzero (o - size % vol.blocksize) (by dsimp only; omega)
    dsimp only at hbyte
    rw [Nat.add_sub_cancel' (by omega), hdiv, hvol] at hbyte
    exact hbyte

/-- A successful truncate cuts the file down or extends it with zeros, for good, and changes
no other exactly if it was cut down or the last block it had is clean. -/
theorem fileTruncate_law (hb : Backing vol count view) (h : Housed vol.blocksize count fs)
    (hn : fs.files[i]? = some n)
    (hblocks : n.size ≤ size → blockCount size vol.blocksize < 2 ^ 32)
    (hok : fileTruncate vol i size fs = .ok () fs') :
    TruncateLaw vol count view i size fs fs' ↔
      (n.size ≤ size → TailClean vol.blocksize (view fs.volume) n) := by
  constructor
  · intro hlaw hle
    exact hlaw.clean hb h hn hle (hblocks hle) hok
  · intro hclean
    have htrunc := fileTruncate_truncated hb h hn hblocks hclean
    rw [hok] at htrunc
    exact htrunc.law hb h hn

/-- A file that is cut down inside its first block. -/
theorem fileTruncate_law_cut :
    let fs : Fstree Bytes := ⟨fun p => UInt8.ofNat p, 3, false, [⟨6, 0, []⟩, ⟨3, 2, []⟩]⟩
    ∃ fs', fileTruncate (idealVolume 4 4) 0 3 fs = .ok () fs' ∧
      (TruncateLaw (idealVolume 4 4) 4 id 0 3 fs fs' ↔
        (6 ≤ 3 → TailClean 4 fs.volume ⟨6, 0, []⟩)) := by
  intro fs
  have hok : (fileTruncate (idealVolume 4 4) 0 3 fs).val? = some () := by decide +kernel
  have hb : Backing (idealVolume 4 4) 4 id :=
    idealVolume_backing (by decide) (by decide) (by decide)
  have hfs : Housed 4 4 fs := ⟨show Layout 4 3 [⟨6, 0, []⟩, ⟨3, 2, []⟩] by decide, by decide⟩
  obtain ⟨fs', hres⟩ := Outcome.exists_ok hok
  exact ⟨fs', hres, fileTruncate_law hb hfs rfl (by decide) hres⟩

/-- A move to the end that fails leaves a copy behind the data area; a file of zeros gets a
byte into its last block there, and what follows the byte when the file is extended is
from that copy. -/
theorem fileTruncate_stale :
    let vol := idealVolume 4 4
    let start : Fstree Bytes := ⟨fun _ => 0, 0, false, [⟨0, 0, []⟩, ⟨0, 0, []⟩, ⟨0, 0, []⟩]⟩
    ∃ fs₁ fs fs', (do
        fileAppend vol 0 (some [1, 2, 3, 4, 5, 6, 7, 8]) 8
        fileAppend vol 1 (some [9, 9, 9, 9]) 4
        fileTruncate vol 2 6
        fileMoveToEnd vol 0 : Call (Fstree Bytes) Unit) start = .fail fs₁ ∧
      fileAppend vol 2 (some [7]) 1 fs₁ = .ok () fs ∧ Housed 4 4 fs ∧
      Reads vol 2 [0, 0, 0, 0, 0, 0, 7] fs ∧ fileTruncate vol 2 8 fs = .ok () fs' ∧
      (fileRead vol 2 0 8 fs').val? = some [0, 0, 0, 0, 0, 0, 7, 4] ∧
      ¬ TruncateLaw vol 4 id 2 8 fs fs' := by
  intro vol start
  have hb : BlockStore vol 4 id := idealVolume_blockStore (by decide)
  generalize hmoved : (do
    fileAppend vol 0 (some [1, 2, 3, 4, 5, 6, 7, 8]) 8
    fileAppend vol 1 (some [9, 9, 9, 9]) 4
    fileTruncate vol 2 6
    fileMoveToEnd vol 0 : Call (Fstree Bytes) Unit) start = moved
  have hfail : moved.val? = none := by
    subst hmoved
    decide +kernel
  have happend : (moved.state?.bind fun fs₁ => (fileAppend vol 2 (some [7]) 1 fs₁).val?) =
      some () := by
    subst hmoved
    decide +kernel
  have htruncate : (moved.state?.bind fun fs₁ => (fileAppend vol 2 (some [7]) 1 fs₁).state?.bind
      fun fs => (fileTruncate vol 2 8 fs).val?) = some () := by
    subst hmoved
    decide +kernel
  have hrun : (moved.state?.bind fun fs₁ => (fileAppend vol 2 (some [7]) 1 fs₁).state?.bind fun fs =>
      (fileTruncate vol 2 8 fs).state?.map fun fs' => (fs.dataOffset, fs.files,
        fileContents 4 id fs 2, (fileRead vol 2 0 8 fs').val?)) =
      some (4, [⟨8, 0, []⟩, ⟨4, 2, []⟩, ⟨7, 3, [⟨0, 1⟩]⟩], some [0, 0, 0, 0, 0, 0, 7],
        some [0, 0, 0, 0, 0, 0, 7, 4]) := by
    subst hmoved
    decide +kernel
  obtain ⟨fs₁, h₁, hrest⟩ := Option.bind_eq_some_iff.1 hrun
  obtain ⟨fs, h₂, hlast⟩ := Option.bind_eq_some_iff.1 hrest
  obtain ⟨fs', h₃, hresult⟩ := Option.map_eq_some_iff.1 hlast
  rw [h₁, Option.bind_some] at happend htruncate
  rw [h₂, Option.bind_some] at htruncate
  simp only [Prod.mk.injEq] at hresult
  obtain ⟨htop, hfiles, hcontents, hread⟩ := hresult
  have hfs : Housed 4 4 fs := by
    refine ⟨?_, by omega⟩
    unfold LaidOut
    rw [htop, hfiles]
    decide
  have hreads : Reads vol 2 [0, 0, 0, 0, 0, 0, 7] fs := (reads_iff hb hfs).2 hcontents
  refine ⟨fs₁, fs, fs', Outcome.eq_fail h₁ hfail, Outcome.eq_ok h₂ happend, hfs, hreads,
    Outcome.eq_ok h₃ htruncate, hread, ?_⟩
  intro hlaw
  exact absurd ((hlaw.contents _ hreads).read_eq hread) (by decide)

end Truncate

end ImageTool.Fstree
