import ImageTool.Image.MemmoveWrap
import ImageTool.Fstree.StoredBytes

/-!
# Gaps that do not fit

`fstree_add_gap` adds the size of the gap to the address of a block in 64 bits and does not
look at the result.  Where the sum has no 64-bit value, the blocks behind the gap are copied
in front of it; where only the end of the moved range has none, the copy starts over at the
first block.  Anywhere else a gap that does not fit leaves the files where they are.
-/

namespace ImageTool.Fstree

open ImageTool.Lib ImageTool.Image ImageTool.Util

variable {σ : Type}

/-- No byte of a file is lost where a gap of `gap` bytes in front of block `index` does not
fit. -/
def GapKeeps (bs index gap : Nat) (view : Bytes) (top : Nat) (files : List FileNode) : Prop :=
  index < top →
    if 2 ^ 64 ≤ index * bs + gap then
      -- the files behind the gap move along, which they can only by whole blocks
      ∀ n ∈ files, ∀ q, n.Stores bs q → if index ≤ n.startIndex then bs = 1
        else view.move (index * bs + gap - 2 ^ 64) (index * bs) (top * bs - index * bs)
            (n.startIndex * bs + n.byteAt bs q) =
          view (n.startIndex * bs + n.byteAt bs q)
    else index * bs + gap < top * bs → 2 ^ 64 < top * bs + gap →
      ∀ n ∈ files, ∀ q, n.Stores bs q →
        view.pullDown (2 ^ 64 - gap) (top * bs + gap - 2 ^ 64)
            (n.startIndex * bs + n.byteAt bs q) =
          view (n.startIndex * bs + n.byteAt bs q)

section Gap

variable {vol : Volume σ} {bs count index size gap : Nat} {view : σ → Bytes}
variable {fs fs' : Fstree σ} {P : Nat → Prop}

theorem gapSize_lt (hsize : size < 2 ^ 64) : gapSize bs size < 2 ^ 64 := by
  unfold gapSize
  split
  · exact u64_lt _
  · exact hsize

/-- The rounding gives whole blocks, or wraps to less than one. -/
theorem gapSize_cases (hbs : 0 < bs) (hbs' : bs < 2 ^ 32) (hsize : size < 2 ^ 64) :
    (∃ g, gapSize bs size = g * bs) ∨ gapSize bs size < bs := by
  have hdiv := Nat.div_add_mod' size bs
  have hmod := Nat.mod_lt size hbs
  unfold gapSize
  split
  · have hsum : size + (bs - size % bs) = (size / bs + 1) * bs := by
      rw [Nat.succ_mul]
      omega
    by_cases h64 : size + (bs - size % bs) < 2 ^ 64
    · left
      exact ⟨_, (u64_of_lt h64).trans hsum⟩
    · right
      unfold u64
      omega
  · left
    exact ⟨size / bs, by omega⟩

/-- A copy over itself starts over at least one block behind what it has to leave alone. -/
theorem gapSize_distance (hbs : 0 < bs) (hbs' : bs < 2 ^ 32) (hsize : size < 2 ^ 64) {len : Nat}
    (hover : gapSize bs size < len * bs) (hlen : len * bs < 2 ^ 64) :
    bs ≤ 2 ^ 64 - gapSize bs size := by
  rcases gapSize_cases hbs hbs' hsize with ⟨g, hg⟩ | hsmall
  · rw [hg] at hover ⊢
    have hnext := Nat.mul_le_mul_right bs (Nat.lt_of_mul_lt_mul_right hover)
    rw [Nat.succ_mul] at hnext
    omega
  · omega

/-- A gap that does not fit leaves the files where they are, unless its move wraps. -/
theorem addGap_spared (hb : Backing vol count view) (h : Housed vol.blocksize count fs)
    (hgap : index < fs.dataOffset →
      index * vol.blocksize + gapSize vol.blocksize size < 2 ^ 64 ∧
        (index * vol.blocksize + gapSize vol.blocksize size < fs.dataOffset * vol.blocksize →
          fs.dataOffset * vol.blocksize + gapSize vol.blocksize size ≤ 2 ^ 64)) :
    Call.Returns (addGap vol index size fs) (fun _ _ => True)
      (FilesKept vol.blocksize count view P fs) := by
  have hbs := hb.store.blocksize_pos
  have hfits := h.fits
  unfold addGap
  rw [Call.ite_apply]
  split
  · trivial
  rw [Call.bind_apply, Call.get_apply, Outcome.bind_ok, Call.bind_apply]
  generalize gapSize vol.blocksize size = gap at *
  by_cases hinside : index < fs.dataOffset
  swap
  · -- only the end of the data area has changed
    rw [if_neg hinside, setDataOffset_apply, Outcome.bind_ok]
    apply hb.returns_discardBlocks
    · intro _ _ _
      trivial
    · intro _
      exact .inPlace h rfl (fun _ _ => rfl) fun _ _ _ _ _ _ => rfl
  have hgap := hgap hinside
  have hrest : (fs.dataOffset - index) * vol.blocksize =
      fs.dataOffset * vol.blocksize - index * vol.blocksize := Nat.sub_mul _ _ _
  have hlt := hb.bytes_lt
  have hin := Nat.mul_le_mul_right vol.blocksize hfits
  have hnext := Nat.mul_le_mul_right vol.blocksize hinside
  rw [Nat.succ_mul] at hnext
  rw [if_pos hinside, hrest, u64_of_lt (show index * vol.blocksize < 2 ^ 64 by omega),
    u64_of_lt (show fs.dataOffset * vol.blocksize - index * vol.blocksize < 2 ^ 64 by omega)]
  have hmove : Call.Returns (onVolume (volumeMemmove vol (u64 (index * vol.blocksize + gap))
      (index * vol.blocksize) (fs.dataOffset * vol.blocksize - index * vol.blocksize)) fs)
      (fun _ _ => index + gap / vol.blocksize ≤ count)
      (FilesKept vol.blocksize count view P fs) := by
    by_cases hzero : gap = 0
    · rw [hzero, Nat.add_zero, u64_of_lt (by omega)]
      unfold volumeMemmove
      rw [if_pos (Or.inl rfl), Nat.zero_div]
      show index + 0 ≤ count
      omega
    apply hb.returns_memmoveUp (Nat.pos_of_ne_zero hzero) (by omega)
    · intro _
      exact hgap.1
    · intro _ hroom v _
      have hdiv := Nat.div_mul_le_self gap vol.blocksize
      have hall : (index + gap / vol.blocksize) * vol.blocksize ≤ count * vol.blocksize := by
        rw [Nat.add_mul]
        omega
      exact Nat.le_of_mul_le_mul_right hall hbs
    · intro hnone
      omega
    · intro v hview
      exact FilesKept.behind h P fun p hp => hview p (by omega)
    · intro hover hwrap
      omega
  apply Call.Returns.bind (R := fun _ _ => index + gap / vol.blocksize ≤ count)
  · rw [Call.bind_apply]
    apply Call.Returns.bind hmove
    intro _ fs₁ hroom
    rw [Call.bind_apply, updateFiles_apply, Outcome.bind_ok, setDataOffset_apply]
    exact hroom
  · intro _ fs₁ hroom
    apply hb.returns_discardBlocks
    · intro _ _ _
      trivial
    · intro hout
      exact absurd hroom hout

/-- The move starts over at the first block and does not come to an end. -/
theorem addGap_wrap (hb : Backing vol count view) (h : Housed vol.blocksize count fs)
    (hzero : size ≠ 0) (hsize : size < 2 ^ 64) (hinside : index < fs.dataOffset)
    (hover : index * vol.blocksize + gapSize vol.blocksize size < fs.dataOffset * vol.blocksize)
    (hwrap : 2 ^ 64 < fs.dataOffset * vol.blocksize + gapSize vol.blocksize size) :
    ∃ v, addGap vol index size fs = .fail { fs with volume := v } ∧
      view v = (view fs.volume).pullDown (2 ^ 64 - gapSize vol.blocksize size)
        (fs.dataOffset * vol.blocksize + gapSize vol.blocksize size - 2 ^ 64) := by
  have hbs := hb.store.blocksize_pos
  have hlt := hb.bytes_lt
  have hin := Nat.mul_le_mul_right vol.blocksize h.fits
  have hle := Nat.mul_le_mul_right vol.blocksize (Nat.le_of_lt hinside)
  have hrest : (fs.dataOffset - index) * vol.blocksize =
      fs.dataOffset * vol.blocksize - index * vol.blocksize := Nat.sub_mul _ _ _
  have hdist : vol.blocksize ≤ 2 ^ 64 - gapSize vol.blocksize size :=
    gapSize_distance hbs hb.blocksize_lt hsize
      (show _ < (fs.dataOffset - index) * vol.blocksize by omega) (by omega)
  unfold addGap
  rw [if_neg hzero, Call.bind_apply, Call.get_apply, Outcome.bind_ok, Call.bind_apply,
    if_pos hinside, hrest, u64_of_lt (show index * vol.blocksize < 2 ^ 64 by omega), u64_of_lt (by omega),
    u64_of_lt (by omega), Call.bind_apply]
  generalize gapSize vol.blocksize size = gap at *
  obtain ⟨v, hfail, hview⟩ := volumeMemmove_wrap hb.store hb.refuses hlt fs.volume
    (show index * vol.blocksize < index * vol.blocksize + gap by omega)
    (show _ < index * vol.blocksize + (fs.dataOffset * vol.blocksize - index * vol.blocksize) by
      omega) (by omega) (by omega) (by omega) (by omega)
  refine ⟨v, ?_, ?_⟩
  · unfold onVolume
    rw [Call.zoom_apply, hfail]
    rfl
  · rw [hview, Nat.add_sub_cancel_left, show index * vol.blocksize + gap +
      (fs.dataOffset * vol.blocksize - index * vol.blocksize) =
        fs.dataOffset * vol.blocksize + gap by omega]

/-- The new place of the moved range lies in front of the old one. -/
theorem addGap_behind (hb : Backing vol count view) (h : Housed vol.blocksize count fs)
    (hsize : size < 2 ^ 64) (hinside : index < fs.dataOffset)
    (hwrap : 2 ^ 64 ≤ index * vol.blocksize + gapSize vol.blocksize size)
    (hfail : addGap vol index size fs = .fail fs') :
    count < index + gapSize vol.blocksize size / vol.blocksize ∧ ∃ v,
      view v = (view fs.volume).move
          (index * vol.blocksize + gapSize vol.blocksize size - 2 ^ 64) (index * vol.blocksize)
          (fs.dataOffset * vol.blocksize - index * vol.blocksize) ∧
        fs' = { fs with
          volume := v
          dataOffset := u64 (fs.dataOffset + gapSize vol.blocksize size / vol.blocksize)
          files := fs.files.map (openGap index (gapSize vol.blocksize size / vol.blocksize)) } := by
  have hlt := hb.bytes_lt
  have hin := Nat.mul_le_mul_right vol.blocksize h.fits
  have hle := Nat.mul_le_mul_right vol.blocksize (Nat.le_of_lt hinside)
  have hrest : (fs.dataOffset - index) * vol.blocksize =
      fs.dataOffset * vol.blocksize - index * vol.blocksize := Nat.sub_mul _ _ _
  have hgap : gapSize vol.blocksize size < 2 ^ 64 := gapSize_lt hsize
  unfold addGap at hfail
  rw [Call.ite_apply] at hfail
  split at hfail
  · cases hfail
  rw [Call.bind_apply, Call.get_apply, Outcome.bind_ok, Call.bind_apply, if_pos hinside, hrest,
    u64_of_lt (show index * vol.blocksize < 2 ^ 64 by omega), Call.bind_apply] at hfail
  generalize gapSize vol.blocksize size = gap at *
  have hplace : u64 (index * vol.blocksize + gap) = index * vol.blocksize + gap - 2 ^ 64 := by
    unfold u64
    omega
  obtain ⟨v, hok, hview⟩ := volumeMemmove_eq hb.store fs.volume
    (show index * vol.blocksize + gap - 2 ^ 64 +
      (fs.dataOffset * vol.blocksize - index * vol.blocksize) ≤ _ by omega)
    (show index * vol.blocksize + _ ≤ _ by omega) (by omega) (by omega)
  rw [hplace, u64_of_lt (show fs.dataOffset * vol.blocksize - index * vol.blocksize < 2 ^ 64 by
    omega), onVolume_ok hok, Outcome.bind_ok, Call.bind_apply, updateFiles_apply,
    Outcome.bind_ok, setDataOffset_apply, Outcome.bind_ok] at hfail
  by_cases hroom : index + gap / vol.blocksize ≤ count
  · obtain ⟨v₁, hok₁, -⟩ := hb.store.discardBlocks v index (gap / vol.blocksize) hroom
    unfold onVolume at hfail
    rw [Call.zoom_apply, hok₁] at hfail
    cases hfail
  · unfold onVolume at hfail
    rw [Call.zoom_apply, hb.refuses.discardBlocks _ _ _ (by omega)] at hfail
    cases hfail
    exact ⟨by omega, v, hview, rfl⟩

/-- A file in front of the gap has what the move has left of its bytes.  One behind it starts
`gap` bytes later, which is on the volume for blocks of one byte only. -/
theorem moved_readsSame_iff (hb : Backing vol count view) (h : Housed vol.blocksize count fs)
    {j : Nat} {n : FileNode} (hn : fs.files[j]? = some n) (hgap : gap < 2 ^ 64)
    (hinside : index < fs.dataOffset) (hwrap : 2 ^ 64 ≤ index * vol.blocksize + gap)
    (hout : count < index + gap / vol.blocksize) {v : σ}
    (hview : view v = (view fs.volume).move (index * vol.blocksize + gap - 2 ^ 64)
      (index * vol.blocksize) (fs.dataOffset * vol.blocksize - index * vol.blocksize))
    {top : Nat} :
    (∀ c, Reads vol j c { fs with
        volume := v
        dataOffset := top
        files := fs.files.map (openGap index (gap / vol.blocksize)) } ↔ Reads vol j c fs) ↔
      ∀ q, n.Stores vol.blocksize q → if index ≤ n.startIndex then vol.blocksize = 1
        else view v (n.startIndex * vol.blocksize + n.byteAt vol.blocksize q) =
          view fs.volume (n.startIndex * vol.blocksize + n.byteAt vol.blocksize q) := by
  have hbs := hb.store.blocksize_pos
  have hlt := hb.bytes_lt
  have hvalid := h.laidOut.valid_at hn
  have hn' : (fs.files.map (openGap index (gap / vol.blocksize)))[j]? =
      some (openGap index (gap / vol.blocksize) n) := by
    rw [List.getElem?_map, hn, Option.map_some]
  unfold openGap at hn'
  by_cases hfront : index ≤ n.startIndex
  swap
  · rw [if_neg hfront] at hn'
    simp only [if_neg hfront]
    exact h.readsSame_iff hb.store hn hn' (h.placed hn)
  rw [if_pos hfront] at hn'
  simp only [if_pos hfront]
  by_cases hone : vol.blocksize = 1
  · apply iff_of_true _ fun _ _ => hone
    rw [hone, Nat.div_one] at hn'
    have hstart : 0 < n.stored vol.blocksize →
        u64 (n.startIndex + gap) + 2 ^ 64 = n.startIndex + gap := by
      intro hpos
      have hstop := h.laidOut.stop_le hn hpos
      have htop := h.laidOut.top_lt
      rw [hone, Nat.mul_one] at hwrap
      unfold u64
      omega
    rw [h.readsSame_iff hb.store hn (by rw [hone, Nat.div_one]; exact hn')]
    · intro q hq
      have hpos := hvalid.stored_pos hbs hq
      have hbyte := hvalid.byteAt_lt hbs hq
      have hstop := h.laidOut.stop_le hn hpos
      have hplace := hstart hpos
      rw [hone] at hbyte hstop hwrap
      change view v _ = _
      rw [hview, hone, Bytes.move_apply_of_mem (by omega) (by omega)]
      exact congrArg (view fs.volume) (by omega)
    · refine ⟨hvalid.restart _, ?_, ?_⟩
      · intro hpos
        have hstop := (h.placed hn).fits hpos
        have hplace := hstart hpos
        change u64 (n.startIndex + gap) + n.stored vol.blocksize ≤ count
        omega
      · intro hpos
        have hstop := (h.placed hn).stop_lt hpos
        have hplace := hstart hpos
        change u64 (n.startIndex + gap) + n.stored vol.blocksize < 2 ^ 64
        omega
  by_cases hpos : 0 < n.stored vol.blocksize
  · obtain ⟨b, hblock, hfree⟩ := hvalid.exists_stored hpos
    apply iff_of_false
    · intro hall
      have hrank := h.block_lt hn hfree hblock
      have hfits := h.fits
      have hhalf : gap / vol.blocksize ≤ gap / 2 := Nat.div_le_div_left (by omega) (by omega)
      have htwice := Nat.mul_le_mul_left count (show 2 ≤ vol.blocksize by omega)
      have hstart : u64 (n.startIndex + gap / vol.blocksize) =
          n.startIndex + gap / vol.blocksize := u64_of_lt (by omega)
      rw [hstart] at hn'
      apply not_reads_of_outside (m := { n with startIndex := n.startIndex + gap / vol.blocksize })
        hb.refuses (by omega) ?_ (hvalid.restart _) hfree hblock
      · show count ≤ n.startIndex + gap / vol.blocksize + rank n.sparse b
        omega
      · show n.startIndex + gap / vol.blocksize + rank n.sparse b < 2 ^ 64
        omega
      · exact (hall _).2 ((reads_iff_contents hb.store h hn).2 rfl)
      · exact hn'
    · intro hall
      refine hone (hall (b * vol.blocksize) ⟨(lt_blockCount_iff hbs).1 hblock, ?_⟩)
      rwa [Nat.mul_div_cancel _ hbs]
  · have hnone : ∀ q, ¬ n.Stores vol.blocksize q := fun q hq => hpos (hvalid.stored_pos hbs hq)
    have hplaced : Placed vol.blocksize count
        { n with startIndex := u64 (n.startIndex + gap / vol.blocksize) } :=
      ⟨hvalid.restart _, fun hp => absurd hp hpos, fun hp => absurd hp hpos⟩
    apply iff_of_true _ fun q hq => absurd hq (hnone q)
    rw [h.readsSame_iff hb.store hn hn' hplaced]
    exact fun q hq => absurd hq (hnone q)

/-- What a gap that does not fit leaves of the files. -/
theorem addGap_fail_iff (hb : Backing vol count view) (h : Housed vol.blocksize count fs)
    (hsize : size < 2 ^ 64) (hfail : addGap vol index size fs = .fail fs') :
    (∀ j c, Reads vol j c fs' ↔ Reads vol j c fs) ↔
      GapKeeps vol.blocksize index (gapSize vol.blocksize size) (view fs.volume)
        fs.dataOffset fs.files := by
  have hbs := hb.store.blocksize_pos
  have hzero : size ≠ 0 := by
    rintro rfl
    unfold addGap at hfail
    rw [if_pos rfl] at hfail
    cases hfail
  by_cases hkept : index < fs.dataOffset →
      index * vol.blocksize + gapSize vol.blocksize size < 2 ^ 64 ∧
        (index * vol.blocksize + gapSize vol.blocksize size < fs.dataOffset * vol.blocksize →
          fs.dataOffset * vol.blocksize + gapSize vol.blocksize size ≤ 2 ^ 64)
  · have hspared := addGap_spared (P := fun _ => True) hb h hkept
    rw [hfail] at hspared
    apply iff_of_true
    · intro j c
      exact FilesKept.reads_iff hspared hb.store h trivial
    · intro hinside
      obtain ⟨hlow, hend⟩ := hkept hinside
      rw [if_neg (Nat.not_le.2 hlow)]
      intro hover hwrap
      exact absurd (hend hover) (Nat.not_le.2 hwrap)
  rw [Classical.not_imp] at hkept
  obtain ⟨hinside, hkept⟩ := hkept
  have hall : GapKeeps vol.blocksize index (gapSize vol.blocksize size) (view fs.volume)
      fs.dataOffset fs.files ↔ _ := imp_iff_right hinside
  rw [hall]
  split
  · rename_i hbehind
    obtain ⟨hout, v, hview, hres⟩ := addGap_behind hb h hsize hinside hbehind hfail
    subst hres
    rw [← hview]
    apply readsSame_mem_iff
    · exact List.length_map _
    · intro j n hn
      exact moved_readsSame_iff hb h hn (gapSize_lt hsize) hinside hbehind hout hview
  · rename_i hlow
    have hover : index * vol.blocksize + gapSize vol.blocksize size <
        fs.dataOffset * vol.blocksize := by
      by_contra hapart
      exact hkept ⟨by omega, fun hover => absurd hover hapart⟩
    have hwrap : 2 ^ 64 < fs.dataOffset * vol.blocksize + gapSize vol.blocksize size := by
      by_contra hend
      exact hkept ⟨by omega, fun _ => by omega⟩
    obtain ⟨v, hres, hview⟩ := addGap_wrap hb h hzero hsize hinside hover hwrap
    rw [hfail, Outcome.fail.injEq] at hres
    subst hres
    rw [imp_iff_right hover, imp_iff_right hwrap, ← hview]
    apply readsSame_mem_iff
    · rfl
    · intro j n hn
      exact h.readsSame_iff hb.store hn hn (h.placed hn)

end Gap

end ImageTool.Fstree
