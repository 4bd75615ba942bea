import ImageTool.Fstree.AppendContent
import ImageTool.Fstree.AtBack

/-!
# What an append makes of a file

`appendChunk_appended` puts the lemmas on the last block together for one round of
`fstree_file_append`, and `fileAppend_appended` for all of it: the data arrives unless
the first round takes a stored last block for a part of the region in front of it.
-/

namespace ImageTool.Fstree

open ImageTool.Lib ImageTool.Image ImageTool.Util

variable {σ : Type}

/-! ## Writing to one block -/

section Kept

variable {bs count i a e : Nat} {view : σ → Bytes} {P : Nat → Prop} {fs fs' : Fstree σ}
variable {D : List UInt8}

/-- A write to a block that belongs to none of the files in `P`. -/
theorem FilesKept.splice (hbs : 0 < bs) (h : Housed bs count fs) {v : σ}
    (hview : view v = (view fs.volume).splice (a * bs + e) D) (hfit : e + D.length ≤ bs)
    (hne : ∀ (j : Nat) (m : FileNode), P j → fs.files[j]? = some m →
      ∀ r < m.stored bs, m.startIndex + r ≠ a) :
    FilesKept bs count view P fs { fs with volume := v } := by
  refine FilesKept.inPlace h rfl (fun _ _ => rfl) ?_
  intro j m hj hm q hq
  have hplace : m.startIndex * bs + q = (m.startIndex + q / bs) * bs + q % bs := by
    rw [Nat.add_mul, Nat.add_assoc, Nat.div_add_mod']
  rw [hplace]
  change view v _ = _
  rw [hview]
  apply splice_other_block _ (Nat.mod_lt q hbs) hfit
  exact hne j m hj hm (q / bs) ((Nat.div_lt_iff_lt_mul hbs).2 hq)

/-- Any change of the node of file `i`. -/
theorem FilesKept.modify (h : FilesKept bs count view (· ≠ i) fs fs') (top : Nat)
    (f : FileNode → FileNode) : FilesKept bs count view (· ≠ i) fs
      { fs' with dataOffset := top, files := fs'.files.modify i f } where
  length := by
    rw [← h.length]
    exact List.length_modify ..
  node := by
    intro j n hj hn
    obtain ⟨start, hn', hdata⟩ := h.node j n hj hn
    exact ⟨start, (List.getElem?_modify_ne _ _ fun hij => hj hij.symm).trans hn', hdata⟩

/-- The block behind the data area is in no file. -/
theorem LaidOut.behind (h : LaidOut bs fs) {j : Nat} {m : FileNode}
    (hm : fs.files[j]? = some m) {r : Nat} (hr : r < m.stored bs) :
    m.startIndex + r ≠ fs.dataOffset := by
  have hstop := h.stop_le hm (Nat.zero_lt_of_lt hr)
  omega

/-- A stored block of one file is in no other. -/
theorem LaidOut.block_ne (h : LaidOut bs fs) {j : Nat} {n m : FileNode} (hji : j ≠ i)
    (hn : fs.files[i]? = some n) (hm : fs.files[j]? = some m) {r x : Nat}
    (hr : r < m.stored bs) (hx : x < n.stored bs) :
    m.startIndex + r ≠ n.startIndex + x := by
  have hapart := h.packed.apart j i hji
    (by rw [extentAt_eq hm]; exact Nat.zero_lt_of_lt hr)
    (by rw [extentAt_eq hn]; exact Nat.zero_lt_of_lt hx)
  rw [extentAt_eq hm, extentAt_eq hn] at hapart
  unfold Extent.Apart Extent.stop FileNode.extent at hapart
  dsimp only at hapart
  omega

end Kept

/-! ## One round -/

/-- `size` bytes of `data` have been put behind the end of file `i`, whose size is still to
change; `sound` says whether they are what the file then ends in. -/
structure PutBehind (bs count : Nat) (view : σ → Bytes) (i : Nat) (n : FileNode)
    (data : Buffer) (size : Nat) (sound : Nat → Prop) (fs fs' : Fstree σ) : Prop where
  fits : fs'.dataOffset ≤ count
  others : FilesKept bs count view (· ≠ i) fs fs'
  node : ∃ m, fs'.files[i]? = some m ∧ m.size = n.size ∧
    Grown (contents bs (view fs.volume) n) (data.bytes size) sound (data = none)
      (contents bs (view fs'.volume) { m with size := n.size + size }) ∧
    (data = none → StaysFresh bs (view fs.volume) (view fs'.volume) n
      { m with size := n.size + size })

theorem PutBehind.congr {bs count i size : Nat} {view : σ → Bytes} {n : FileNode}
    {data : Buffer} {sound sound' : Nat → Prop} {fs fs' : Fstree σ}
    (h : PutBehind bs count view i n data size sound fs fs')
    (hsound : ∀ q ≤ n.size, sound q ↔ sound' q) :
    PutBehind bs count view i n data size sound' fs fs' := by
  obtain ⟨m, hm, hsize, hgrown, hfresh⟩ := h.node
  refine ⟨h.fits, h.others, m, hm, hsize, hgrown.congr ?_, hfresh⟩
  intro q hq
  exact hsound q (by simpa using hq)

section Round

variable {vol : Volume σ} {count i d : Nat} {view : σ → Bytes} {fs fs₁ : Fstree σ}
variable {n : FileNode} {data : Buffer}

/-- A byte that is not zero in what is not all zeros. -/
theorem exists_ne_zero (hzero : isNullOrZero data d ≠ true) (hold : data.Holds d) :
    ∃ o < d, (data.bytes d).getD o 0 ≠ 0 := by
  cases data with
  | none => exact absurd rfl hzero
  | some l =>
      have hlen : (l.take d).length = d := Buffer.length_bytes hold
      by_contra hall
      apply hzero
      unfold isNullOrZero
      dsimp only
      rw [isMemoryZero_eq, List.all_eq_true]
      intro x hx
      obtain ⟨o, ho, rfl⟩ := List.getElem_of_mem hx
      by_contra hne
      refine hall ⟨o, by omega, ?_⟩
      change ((l.take d).getD o 0) ≠ 0
      rw [List.getD_eq_getElem?_getD, List.getElem?_eq_getElem ho, Option.getD_some]
      simpa using hne

/-- The last block of the file is stored. -/
theorem appendToTail_stored (hb : Backing vol count view) (h : Housed vol.blocksize count fs)
    (hn : fs.files[i]? = some n) (htail : 0 < n.size % vol.blocksize)
    (hfit : n.size % vol.blocksize + d ≤ vol.blocksize) (hold : data.Holds d)
    (hfree : ¬ Covers n.sparse (n.size / vol.blocksize))
    (hends : ¬ EndsAt n.sparse (n.size / vol.blocksize)) :
    Call.Returns (onVolume (vol.writePartialBlock
        (n.startIndex + rank n.sparse (n.size / vol.blocksize)) data
        (n.size % vol.blocksize) d) fs)
      (fun _ => PutBehind vol.blocksize count view i n data d (fun _ => True) fs)
      (FilesKept vol.blocksize count view (· ≠ i) fs) := by
  have hbs := hb.store.blocksize_pos
  have hblocks : n.size / vol.blocksize < n.blocks vol.blocksize := by
    rw [blocks_of_tail htail]
    exact Nat.lt_succ_self _
  have hrank := (h.laidOut.valid_at hn).rank_lt hfree hblocks
  have hlen := Buffer.length_bytes hold
  apply hb.returns_writePartialBlock hfit hold
  · intro _ v hview
    refine ⟨h.fits, ?_, n, hn, rfl, ?_, ?_⟩
    · apply FilesKept.splice hbs h hview
      · rw [hlen]
        exact hfit
      · intro j m hj hm r hr
        exact h.laidOut.block_ne hj hn hm hr hrank
    · change Grown _ _ _ _ (contents _ (view v) _)
      rw [hview]
      exact .of_append (contents_tail_stored hbs hfit hlen hfree)
    · intro _
      exact .of_tail htail hfit rfl rfl fun hin => absurd hin hends
  · intro _
    exact FilesKept.refl view _ h

/-- The head of a new last block and the bytes behind it. -/
theorem appendToTail_result (hb : Backing vol count view) {start : Nat} (rs' : List Region)
    (h : AtBack vol.blocksize count view i start n fs fs₁)
    (hfit : n.size % vol.blocksize + d ≤ vol.blocksize) (hold : data.Holds d) :
    Call.Returns ((do
        onVolume (vol.writePartialBlock fs₁.dataOffset none 0 (n.size % vol.blocksize))
        setDataOffset (u64 (fs₁.dataOffset + 1))
        updateFile i fun n => { n with sparse := rs' }
        onVolume (vol.writePartialBlock fs₁.dataOffset data (n.size % vol.blocksize) d) :
          Call (Fstree σ) Unit) fs₁)
      (fun _ fs' => fs₁.dataOffset < count ∧ ∃ v, view v =
        (view fs₁.volume).splice (fs₁.dataOffset * vol.blocksize + 0)
          (List.replicate (n.size % vol.blocksize) 0 ++ data.bytes d) ∧
        fs' = { fs₁ with
          volume := v
          dataOffset := fs₁.dataOffset + 1
          files := fs₁.files.modify i fun n => { n with sparse := rs' } })
      (fun fs' => FilesKept vol.blocksize count view (· ≠ i) fs fs' ∧
        ¬ fs₁.dataOffset < count) := by
  have hcount := hb.count_lt
  rw [Call.bind_apply]
  apply Call.Returns.bind (R := fun _ fs' => fs₁.dataOffset < count ∧ ∃ v, view v =
      (view fs₁.volume).splice (fs₁.dataOffset * vol.blocksize + 0)
        (List.replicate (n.size % vol.blocksize) 0) ∧ fs' = { fs₁ with volume := v })
  · apply hb.returns_writePartialBlock (by omega) (Buffer.holds_none _)
    · intro htop v hview
      exact ⟨htop, v, hview, rfl⟩
    · intro hout
      exact ⟨h.kept _, hout⟩
  rintro _ _ ⟨htop, v₁, hview₁, rfl⟩
  rw [Call.bind_apply, setDataOffset_apply, Outcome.bind_ok, Call.bind_apply,
    updateFile_apply, Outcome.bind_ok]
  apply hb.returns_writePartialBlock hfit hold
  · intro _ v₂ hview₂
    refine ⟨htop, v₂, ?_, ?_⟩
    · have happend := Bytes.splice_splice_append (view fs₁.volume)
        (fs₁.dataOffset * vol.blocksize + 0) (List.replicate (n.size % vol.blocksize) 0)
        (data.bytes d)
      rw [List.length_replicate] at happend
      change view v₂ = (view v₁).splice _ _ at hview₂
      rw [hview₂, hview₁]
      exact happend
    · rw [u64_of_lt (by omega)]
  · intro hout
    exact absurd htop hout

theorem appendToTail_added (hb : Backing vol count view) {start : Nat} {rs' : List Region}
    {sound : Nat → Prop} (h : AtBack vol.blocksize count view i start n fs fs₁)
    (hfit : n.size % vol.blocksize + d ≤ vol.blocksize) (hold : data.Holds d)
    (hsome : data ≠ none)
    (hgrown : Grown (contents vol.blocksize (view fs.volume) n) (data.bytes d) sound
      (data = none) (contents vol.blocksize ((view fs₁.volume).splice
        ((start + n.stored vol.blocksize) * vol.blocksize + 0)
        (List.replicate (n.size % vol.blocksize) 0 ++ data.bytes d)) (addedNode n start d rs'))) :
    Call.Returns ((do
        onVolume (vol.writePartialBlock fs₁.dataOffset none 0 (n.size % vol.blocksize))
        setDataOffset (u64 (fs₁.dataOffset + 1))
        updateFile i fun n => { n with sparse := rs' }
        onVolume (vol.writePartialBlock fs₁.dataOffset data (n.size % vol.blocksize) d) :
          Call (Fstree σ) Unit) fs₁)
      (fun _ => PutBehind vol.blocksize count view i n data d sound fs)
      (FilesKept vol.blocksize count view (· ≠ i) fs) := by
  have hbs := hb.store.blocksize_pos
  have hlen := Buffer.length_bytes hold
  apply (appendToTail_result hb rs' h hfit hold).mono
  · rintro _ _ ⟨htop, v, hview, rfl⟩
    refine ⟨htop, ?_, _, getElem?_modify_self h.node, rfl, ?_, fun hnone => absurd hnone hsome⟩
    · have hkept : FilesKept vol.blocksize count view (· ≠ i) fs₁ { fs₁ with volume := v } := by
        apply FilesKept.splice hbs h.housed hview
        · simp [hlen]
          omega
        · intro j m _ hm r hr
          exact h.housed.laidOut.behind hm hr
      exact ((h.kept _).trans hkept).modify _ _
    · change Grown _ _ _ _ (contents _ (view v) (addedNode n start d rs'))
      rw [hview, ← h.stop]
      exact hgrown
  · intro _ hfail
    exact hfail.1

theorem appendToTail_put (hb : Backing vol count view) (h : Housed vol.blocksize count fs)
    (hn : fs.files[i]? = some n) (hblocks : n.blocks vol.blocksize < 2 ^ 32)
    (htail : 0 < n.size % vol.blocksize)
    (hfit : n.size % vol.blocksize + d ≤ vol.blocksize) (hold : data.Holds d) :
    Call.Returns
      (appendToTail vol i (n.size / vol.blocksize) (n.size % vol.blocksize) data d fs)
      (fun _ => PutBehind vol.blocksize count view i n data d
        (TailSound vol.blocksize (view fs.volume) n data d) fs)
      (FilesKept vol.blocksize count view (· ≠ i) fs) := by
  have hbs := hb.store.blocksize_pos
  have hvalid := h.laidOut.valid_at hn
  have hlen := Buffer.length_bytes hold
  have hwithin := hvalid.within
  rw [blocks_of_tail htail] at hwithin hblocks
  unfold appendToTail
  rw [Call.bind_apply, file_eq hn, Outcome.bind_ok]
  cases hfound : (findTail (n.size / vol.blocksize)
      (u64 (n.startIndex + n.size / vol.blocksize)) n.sparse).2 with
  | none =>
      obtain ⟨hfree, hends⟩ := findTail_none_free (by omega) hwithin hfound
      have htotal := rank_add_total hwithin
      rw [rank_succ, if_pos hfree] at htotal
      have hsum : n.startIndex + n.size / vol.blocksize =
          n.startIndex + rank n.sparse (n.size / vol.blocksize) + total n.sparse := by omega
      have hlt := h.block_lt hn hfree (by rw [blocks_of_tail htail]; exact Nat.lt_succ_self _)
      have htop := h.laidOut.top_lt
      have haddr := (findTail_none hfound).2 (congrArg u64 hsum)
      rw [u64_of_lt (show n.startIndex + rank n.sparse (n.size / vol.blocksize) < 2 ^ 64 by
        omega)] at haddr
      dsimp only
      rw [haddr]
      apply (appendToTail_stored hb h hn htail hfit hold hfree hends).mono
      · intro _ fs' hput
        exact hput.congr fun q _ => iff_of_true trivial fun hend => absurd hend hends
      · intro _ hkept
        exact hkept
  | some sparse =>
      obtain ⟨k, hcover, hremoved, hplace⟩ := findTail_some hblocks hwithin hfound
      change Call.Returns ((if isNullOrZero data d then pure () else _ :
        Call (Fstree σ) Unit) fs) _ _
      rw [Call.ite_apply]
      split
      · -- zeros: nothing is written
        rename_i hzero
        refine ⟨h.fits, FilesKept.refl view _ h, n, hn, rfl, ?_,
          fun _ => .of_tail htail hfit rfl rfl fun _ _ _ => rfl⟩
        rw [bytes_of_isNullOrZero hzero hold]
        apply (grown_unwritten hbs hfit (data = none)).congr
        intro q _
        unfold TailSound
        rw [if_pos hzero]
        rcases hplace with ⟨rfl, hends⟩ | ⟨_, hends⟩
        · exact iff_of_true (fun k _ => blockByte_sparse hcover) fun hend => absurd hend hends
        · exact ⟨fun h _ => h, fun h => h hends⟩
      · rename_i hzero
        apply Call.Returns.bind ((fileMoveToEnd_atBack hb h hn).mono (fun _ _ hback => hback)
          fun _ hkept => hkept.1.mono fun _ _ => trivial)
        rintro _ fs₁ ⟨start, hback⟩
        have hadded : TailAdded vol.blocksize k start (view fs.volume) (view fs₁.volume) n
            sparse :=
          ⟨hvalid, htail, hback.data, hcover, hremoved, hplace.imp And.left And.left⟩
        have hsome : data ≠ none := by
          rintro rfl
          exact hzero rfl
        rw [Call.bind_apply, Call.get_apply, Outcome.bind_ok]
        apply appendToTail_added hb hback hfit hold hsome
        rcases hplace with ⟨hk, hends⟩ | ⟨hk, hends⟩
        · apply (Grown.of_append (hadded.contents_eq hbs hk hfit hlen)).congr
          intro q _
          exact iff_of_true trivial fun hend => absurd hend hends
        · apply (hadded.grown hbs hk hfit hlen (exists_ne_zero hzero hold) hsome).congr
          intro q _
          unfold TailSound
          rw [if_neg hzero, ← hk, Nat.add_sub_cancel]
          rw [← hk] at hends
          exact ⟨fun h _ => h, fun h => h hends⟩

/-- A new block is written in one piece or in two. -/
theorem appendBlock_result (hb : Backing vol count view) (h : Housed vol.blocksize count fs)
    (hn : fs.files[i]? = some n) (hd : d ≤ vol.blocksize) (hold : data.Holds d) :
    Call.Returns (appendBlock vol i data d fs)
      (fun _ fs' => ∃ start fs₁ v, AtBack vol.blocksize count view i start n fs fs₁ ∧
        fs₁.dataOffset < count ∧
        view v = (view fs₁.volume).splice (fs₁.dataOffset * vol.blocksize + 0)
          (data.bytes d ++ List.replicate (vol.blocksize - d) 0) ∧
        fs' = { fs₁ with volume := v, dataOffset := fs₁.dataOffset + 1 })
      (fun fs' => FilesKept vol.blocksize count view (· ≠ i) fs fs' ∧
        ¬ (Movable vol.blocksize count fs.dataOffset n ∧ fs.dataOffset < count)) := by
  have hcount := hb.count_lt
  have hlen := Buffer.length_bytes hold
  unfold appendBlock
  apply Call.Returns.bind ((fileMoveToEnd_atBack hb h hn).mono (fun _ _ hback => hback)
    fun _ hkept => ⟨hkept.1.mono fun _ _ => trivial, fun hroom => hkept.2 hroom.1⟩)
  rintro _ fs₁ ⟨start, hback⟩
  have hoffset := hback.dataOffset
  rw [Call.bind_apply, Call.get_apply, Outcome.bind_ok, Call.bind_apply]
  apply Call.Returns.bind (R := fun _ fs' => fs₁.dataOffset < count ∧ ∃ v,
    view v = (view fs₁.volume).splice (fs₁.dataOffset * vol.blocksize + 0)
      (data.bytes d ++ List.replicate (vol.blocksize - d) 0) ∧ fs' = { fs₁ with volume := v })
  · by_cases hfull : d = vol.blocksize
    · subst hfull
      rw [if_pos rfl]
      apply hb.returns_writeBlock hold
      · intro htop v hview
        refine ⟨htop, v, ?_, rfl⟩
        rw [hview, Nat.sub_self, List.replicate_zero, List.append_nil]
        rfl
      · intro hout
        exact ⟨hback.kept _, fun hroom => hout (by omega)⟩
    · rw [if_neg hfull]
      apply Call.Returns.bind (R := fun _ fs' => fs₁.dataOffset < count ∧ ∃ v,
        view v = (view fs₁.volume).splice (fs₁.dataOffset * vol.blocksize + 0) (data.bytes d) ∧
          fs' = { fs₁ with volume := v })
      · apply hb.returns_writePartialBlock (by omega) hold
        · intro htop v hview
          exact ⟨htop, v, hview, rfl⟩
        · intro hout
          exact ⟨hback.kept _, fun hroom => hout (by omega)⟩
      · rintro _ _ ⟨htop, v₁, hview₁, rfl⟩
        apply hb.returns_writePartialBlock (by omega) (Buffer.holds_none _)
        · intro _ v hview
          refine ⟨htop, v, ?_, rfl⟩
          have happend := Bytes.splice_splice_append (view fs₁.volume)
            (fs₁.dataOffset * vol.blocksize + 0) (data.bytes d)
            (List.replicate (vol.blocksize - d) 0)
          rw [hlen] at happend
          change view v = (view v₁).splice _ _ at hview
          rw [hview, hview₁]
          exact happend
        · intro hout
          exact absurd htop hout
  · rintro _ _ ⟨htop, v, hview, rfl⟩
    rw [setDataOffset_apply, u64_of_lt (by omega)]
    exact ⟨start, fs₁, v, hback, htop, hview, rfl⟩

/-- A file of full blocks has as many in its list as in its size. -/
theorem FileNode.Valid.full {bs : Nat} (h : n.Valid bs) (hfull : n.size % bs = 0) :
    n.blocks bs = n.size / bs ∧ ¬ Covers n.sparse (n.size / bs) := by
  have hblocks : n.blocks bs = n.size / bs := if_pos hfull
  refine ⟨hblocks, ?_⟩
  intro hcover
  have := (h.within.bounds hcover).2
  omega

/-- A new block behind a file of full blocks. -/
theorem contents_new_block {bs start top : Nat} {view₀ view₁ : Bytes} {l : List UInt8}
    (hbs : 0 < bs) (hvalid : n.Valid bs) (hfull : n.size % bs = 0) (hd : d ≤ bs)
    (hlen : l.length = d) (hstop : start + n.stored bs = top)
    (hdata : ∀ q < n.stored bs * bs, view₁ (start * bs + q) = view₀ (n.startIndex * bs + q)) :
    contents bs (view₁.splice (top * bs + 0) (l ++ List.replicate (bs - d) 0))
      { n with startIndex := start, size := n.size + d } = contents bs view₀ n ++ l := by
  obtain ⟨hblocks, hfree⟩ := hvalid.full hfull
  have hsize := size_eq bs n
  rw [hfull] at hsize
  have hbyte : ∀ o < d, view₁.splice (top * bs + 0) (l ++ List.replicate (bs - d) 0)
      (top * bs + (0 + o)) = l.getD o 0 := by
    intro o ho
    rw [Bytes.splice_apply_of_mem (by omega) (by simp; omega),
      List.getD_eq_getElem?_getD, List.getElem?_append_left (by omega),
      List.getD_eq_getElem?_getD]
    congr 2
    omega
  apply contents_write_last (m := { n with startIndex := start, size := n.size + d }) hbs rfl
    hsize (by omega) hlen hfree
  · change start + rank n.sparse (n.size / bs) = top
    rw [← hstop, hvalid.stored_eq, hblocks]
  · simp [hlen, hd]
  · intro b o hb ho
    exact blockByte_congr hvalid rfl hdata (by omega) ho
  · intro o ho
    omega
  · exact hbyte

/-- A new block of zeros. -/
theorem new_block_fresh {bs start top : Nat} {view₁ : Bytes} (hvalid : n.Valid bs)
    (hfull : n.size % bs = 0) (hd : d ≤ bs) (hstop : start + n.stored bs = top) :
    TailFresh bs (view₁.splice (top * bs + 0)
      (Buffer.bytes none d ++ List.replicate (bs - d) 0))
      { n with startIndex := start, size := n.size + d } := by
  obtain ⟨hblocks, hfree⟩ := hvalid.full hfull
  intro hpos _
  dsimp only at hpos ⊢
  have hlt : d < bs := by
    by_contra hge
    rw [show d = bs by omega, Nat.add_mod_right] at hpos
    omega
  rw [(size_div_mod (by omega)).1]
  refine ⟨hfree, ?_⟩
  intro o ho
  have hplace : start + rank n.sparse (n.size / bs) = top := by
    rw [← hstop, hvalid.stored_eq, hblocks]
  rw [blockByte_stored (n := { n with startIndex := start, size := n.size + d }) hfree]
  change Bytes.splice _ _ _ ((start + rank n.sparse (n.size / bs)) * bs + o) = 0
  have hzeros : Buffer.bytes none d ++ List.replicate (bs - d) 0 = List.replicate bs 0 := by
    unfold Buffer.bytes
    rw [List.replicate_append_replicate, Nat.add_sub_cancel' hd]
  rw [hplace, hzeros, Bytes.splice_apply_of_mem (by omega) (by simp; omega)]
  simp [List.getD_eq_getElem?_getD, ho]

theorem appendBlock_put (hb : Backing vol count view) (h : Housed vol.blocksize count fs)
    (hn : fs.files[i]? = some n) (hfull : n.size % vol.blocksize = 0)
    (hd : d ≤ vol.blocksize) (hold : data.Holds d) :
    Call.Returns (appendBlock vol i data d fs)
      (fun _ => PutBehind vol.blocksize count view i n data d (fun _ => True) fs)
      (FilesKept vol.blocksize count view (· ≠ i) fs) := by
  have hbs := hb.store.blocksize_pos
  have hlen := Buffer.length_bytes hold
  apply (appendBlock_result hb h hn hd hold).mono
  · rintro _ fs' ⟨start, fs₁, v, hback, htop, hview, rfl⟩
    refine ⟨htop, ?_, _, hback.node, rfl, .of_append ?_, ?_⟩
    · have hkept : FilesKept vol.blocksize count view (· ≠ i) fs₁ { fs₁ with volume := v } := by
        apply FilesKept.splice hbs hback.housed hview
        · simp [hlen, hd]
        · intro j m _ hm r hr
          exact hback.housed.laidOut.behind hm hr
      exact ⟨((hback.kept _).trans hkept).length, ((hback.kept _).trans hkept).node⟩
    · change contents _ (view v) _ = _
      rw [hview]
      exact contents_new_block hbs (h.laidOut.valid_at hn) hfull hd hlen hback.stop hback.data
    · rintro rfl _
      change TailFresh _ (view v) _
      rw [hview]
      exact new_block_fresh (h.laidOut.valid_at hn) hfull hd hback.stop
  · intro _ hkept
    exact hkept.1

/-- A new block of zeros that is not stored. -/
theorem markSparse_put {bs : Nat} (hbs : 0 < bs) (h : Housed bs count fs)
    (hn : fs.files[i]? = some n) (hfull : n.size % bs = 0) (hd : d ≤ bs)
    (hblocks : n.size / bs + 1 < 2 ^ 32) (hold : data.Holds d)
    (hzero : isNullOrZero data d = true) :
    PutBehind bs count view i n data d (fun _ => True) fs { fs with
      files := fs.files.modify i fun m =>
        { m with sparse := markSparse m.sparse (n.size / bs) } } := by
  have hvalid := h.laidOut.valid_at hn
  obtain ⟨hcount, hfree⟩ := hvalid.full hfull
  have hwithin := hvalid.within
  rw [hcount] at hwithin
  have hadded := markSparse_added hblocks (Nat.lt_succ_self (n.size / bs))
    (hwithin.mono (Nat.le_refl _) (Nat.le_succ _)) hfree (Nat.zero_le _)
  have hsize := size_eq bs n
  rw [hfull] at hsize
  refine ⟨h.fits, (FilesKept.refl view _ h).modify _ _, _, getElem?_modify_self hn, rfl,
    .of_append ?_, ?_⟩
  rotate_left
  · intro _ _ hpos hends
    have hlt : d < bs := by
      by_contra hge
      dsimp only at hpos
      rw [show d = bs by omega, Nat.add_mod_right] at hpos
      omega
    dsimp only at hends
    rw [(size_div_mod (by omega)).1] at hends
    exact absurd hends (markSparse_not_endsAt hblocks (Nat.lt_succ_self _)
      (hwithin.mono (Nat.le_refl _) (Nat.le_succ _)) hfree)
  apply contents_eq_append hbs rfl hsize (by omega) (Buffer.length_bytes hold)
  · intro b o ho hlt
    have hb : b < n.size / bs := by
      by_contra hge
      have hle := Nat.mul_le_mul_right bs (Nat.le_of_not_lt hge)
      omega
    have hsame : ∀ x, x < n.size / bs →
        (Covers (markSparse n.sparse (n.size / bs)) x ↔ Covers n.sparse x) := by
      intro x hx
      rw [hadded.covers]
      exact or_iff_left (by omega)
    apply blockByte_eq_of_rank (hsame b hb)
    exact congrArg (n.startIndex + ·) (rank_congr fun x hx => hsame x (by omega))
  · intro o ho
    have hcover : Covers (markSparse n.sparse (n.size / bs)) (n.size / bs) :=
      (hadded.covers _).2 (Or.inr rfl)
    rw [blockByte_sparse hcover, bytes_of_isNullOrZero hzero hold]
    simp [List.getD_eq_getElem?_getD, ho]

/-- After an append of `size` bytes of `data` to file `i`. -/
structure Appended (bs count : Nat) (view : σ → Bytes) (i : Nat) (n : FileNode)
    (data : Buffer) (size : Nat) (sound : Nat → Prop) (fs fs' : Fstree σ) : Prop where
  housed : Housed bs count fs'
  others : FilesKept bs count view (· ≠ i) fs fs'
  node : ∃ m, fs'.files[i]? = some m ∧ m.size = n.size + size ∧
    Grown (contents bs (view fs.volume) n) (data.bytes size) sound (data = none)
      (contents bs (view fs'.volume) m) ∧
    (data = none → StaysFresh bs (view fs.volume) (view fs'.volume) n m)

theorem appendChunk_appended (hb : Backing vol count view) (h : Housed vol.blocksize count fs)
    (hn : fs.files[i]? = some n) {tailSize : Nat} (htail : tailSize = n.size % vol.blocksize)
    (hpos : 0 < d) (hfit : tailSize + d ≤ vol.blocksize) (hold : data.Holds d)
    (hblocks : blockCount (n.size + d) vol.blocksize < 2 ^ 32) :
    Call.Returns (appendChunk vol i (n.size / vol.blocksize) tailSize data d fs)
      (fun _ => Appended vol.blocksize count view i n data d (fun q =>
        0 < n.size % vol.blocksize → TailSound vol.blocksize (view fs.volume) n data d q) fs)
      (FilesKept vol.blocksize count view (· ≠ i) fs) := by
  have hbs := hb.store.blocksize_pos
  have hsize := lt_of_blockCount_lt hbs hb.blocksize_lt hblocks
  have hresized := appendChunk_resized hb.bounded h.laidOut hn data htail hpos hfit hblocks
  subst htail
  have hput : Call.Returns
      ((if n.size % vol.blocksize > 0 then
          appendToTail vol i (n.size / vol.blocksize) (n.size % vol.blocksize) data d
        else if fs.noSparse = false ∧ isNullOrZero data d then
          updateFile i fun m => { m with sparse := markSparse m.sparse (n.size / vol.blocksize) }
        else appendBlock vol i data d : Call (Fstree σ) Unit) fs)
      (fun _ => PutBehind vol.blocksize count view i n data d (fun q =>
        0 < n.size % vol.blocksize → TailSound vol.blocksize (view fs.volume) n data d q) fs)
      (FilesKept vol.blocksize count view (· ≠ i) fs) := by
    by_cases hzero : n.size % vol.blocksize > 0
    · rw [if_pos hzero]
      have hold' : n.blocks vol.blocksize < 2 ^ 32 := by
        have hmono := blockCount_mono hbs (Nat.le_add_right n.size d)
        unfold FileNode.blocks
        omega
      apply (appendToTail_put hb h hn hold' hzero hfit hold).mono
      · intro _ _ hput
        exact hput.congr fun q _ => ⟨fun hq _ => hq, fun hq => hq hzero⟩
      · intro _ hkept
        exact hkept
    · have hfull : n.size % vol.blocksize = 0 := by omega
      have hsound : ∀ q ≤ n.size, True ↔ (0 < n.size % vol.blocksize →
          TailSound vol.blocksize (view fs.volume) n data d q) :=
        fun q _ => iff_of_true trivial fun hpos => absurd hpos hzero
      rw [if_neg hzero]
      by_cases hsparse : fs.noSparse = false ∧ isNullOrZero data d
      · rw [if_pos hsparse, updateFile_apply]
        have hnext := (blockCount_next hfull hpos (by omega)).2
        exact (markSparse_put hbs h hn hfull (by omega) (by omega) hold hsparse.2).congr hsound
      · rw [if_neg hsparse]
        apply (appendBlock_put hb h hn hfull (by omega) hold).mono
        · intro _ _ hput
          exact hput.congr hsound
        · intro _ hkept
          exact hkept
  have hgrown : Call.Returns
      (appendChunk vol i (n.size / vol.blocksize) (n.size % vol.blocksize) data d fs)
      (fun _ fs' => fs'.dataOffset ≤ count ∧
        FilesKept vol.blocksize count view (· ≠ i) fs fs' ∧
        ∃ m, fs'.files[i]? = some m ∧ m.size = n.size + d ∧
          Grown (contents vol.blocksize (view fs.volume) n) (data.bytes d) (fun q =>
            0 < n.size % vol.blocksize →
              TailSound vol.blocksize (view fs.volume) n data d q) (data = none)
            (contents vol.blocksize (view fs'.volume) m) ∧
          (data = none → StaysFresh vol.blocksize (view fs.volume) (view fs'.volume) n m))
      (FilesKept vol.blocksize count view (· ≠ i) fs) := by
    unfold appendChunk
    rw [Call.bind_apply, Call.get_apply, Outcome.bind_ok]
    apply Call.Returns.bind hput
    intro _ fs₁ hput₁
    obtain ⟨m, hm, hmsize, hgrown, hfresh⟩ := hput₁.node
    rw [updateFile_apply]
    refine ⟨hput₁.fits, hput₁.others.modify _ _, _, getElem?_modify_self hm, ?_, ?_, ?_⟩
    · rw [hmsize]
      exact u64_of_lt hsize
    · dsimp only
      rw [hmsize, u64_of_lt hsize]
      exact hgrown
    · dsimp only
      rw [hmsize, u64_of_lt hsize]
      exact hfresh
  apply (hgrown.and hresized).mono
  · rintro _ fs' ⟨⟨hfits, hothers, hnode⟩, hres⟩
    exact ⟨⟨hres.layout, hfits⟩, hothers, hnode⟩
  · intro _ hkept
    exact hkept.1

end Round

/-! ## The whole append -/

section Append

variable {vol : Volume σ} {count i size size' : Nat} {view : σ → Bytes}
variable {fs fs' fs'' : Fstree σ} {n m : FileNode} {data data' : Buffer}

/-- What decides whether `size` bytes behind the end of a file arrive, and the file is what
it was up to byte `q`: only the last block it has can be in the way. -/
def AppendSound (bs : Nat) (view : Bytes) (n : FileNode) (data : Buffer) (size q : Nat) : Prop :=
  0 < size → 0 < n.size % bs → TailSound bs view n data (min (bs - n.size % bs) size) q

theorem Appended.congr {bs : Nat} {sound sound' : Nat → Prop}
    (h : Appended bs count view i n data size sound fs fs')
    (hsound : ∀ q ≤ n.size, sound q ↔ sound' q) :
    Appended bs count view i n data size sound' fs fs' := by
  obtain ⟨m, hm, hsize, hgrown, hfresh⟩ := h.node
  refine ⟨h.housed, h.others, m, hm, hsize, hgrown.congr ?_, hfresh⟩
  intro q hq
  exact hsound q (by simpa using hq)

theorem Appended.refl {bs : Nat} (h : Housed bs count fs) (hn : fs.files[i]? = some n)
    (data : Buffer) : Appended bs count view i n data 0 (fun _ => True) fs fs := by
  refine ⟨h, FilesKept.refl view _ h, n, hn, rfl, .of_append ?_, ?_⟩
  · cases data <;> simp [Buffer.bytes]
  · intro _ hstart
    exact hstart.resolve_right (Nat.lt_irrefl _)

/-- What is appended behind a full last block arrives. -/
theorem Appended.trans {bs : Nat} {sound sound' : Nat → Prop}
    (h : Appended bs count view i n data size sound fs fs')
    (h' : ∀ m, fs'.files[i]? = some m → m.size = n.size + size →
      Appended bs count view i m (data.advance size) size' sound' fs' fs'' ∧ sound' m.size) :
    Appended bs count view i n data (size + size') sound fs fs'' := by
  obtain ⟨m, hm, hsize, hgrown, hfresh⟩ := h.node
  obtain ⟨hrest, hsound⟩ := h' m hm hsize
  obtain ⟨k, hk, hsizek, hgrownk, hfreshk⟩ := hrest.node
  refine ⟨hrest.housed, h.others.trans hrest.others, k, hk, by omega, ?_, ?_⟩
  · rw [← Buffer.bytes_append_advance]
    exact hgrown.trans hgrownk (by simpa using hsound)
  · rintro rfl
    exact (hfresh rfl).trans (hfreshk rfl)

theorem fileAppendLoop_appended (hb : Backing vol count view) (fuel tailIndex tailSize : Nat)
    (data : Buffer) (size : Nat) (h : Housed vol.blocksize count fs)
    (hn : fs.files[i]? = some n) (hold : data.Holds size)
    (htail : 0 < size → tailIndex = n.size / vol.blocksize ∧ tailSize = n.size % vol.blocksize)
    (hblocks : blockCount (n.size + size) vol.blocksize < 2 ^ 32) :
    Call.Returns (fileAppendLoop vol i fuel tailIndex tailSize data size fs)
      (fun _ => Appended vol.blocksize count view i n data size
        (AppendSound vol.blocksize (view fs.volume) n data size) fs)
      (FilesKept vol.blocksize count view (· ≠ i) fs) := by
  have hbs := hb.store.blocksize_pos
  have hdone : size = 0 → Appended vol.blocksize count view i n data size
      (AppendSound vol.blocksize (view fs.volume) n data size) fs fs := by
    rintro rfl
    exact (Appended.refl h hn data).congr fun q _ =>
      iff_of_true trivial fun hpos => absurd hpos (Nat.lt_irrefl 0)
  induction fuel generalizing fs n tailIndex tailSize data size with
  | zero =>
      unfold fileAppendLoop
      split
      · rename_i hzero
        exact hdone hzero
      · trivial
  | succ fuel ih =>
      unfold fileAppendLoop
      by_cases hzero : size = 0
      · rw [if_pos hzero]
        exact hdone hzero
      rw [if_neg hzero]
      obtain ⟨hindex, hrest⟩ := htail (Nat.pos_of_ne_zero hzero)
      have hmod := Nat.mod_lt n.size hbs
      generalize hdiff : (if vol.blocksize - tailSize > size then size
        else vol.blocksize - tailSize) = diff
      have hmin : diff = min (vol.blocksize - n.size % vol.blocksize) size := by
        rw [← hdiff, hrest]
        split <;> omega
      have hsplit : diff + (size - diff) = size := by omega
      have hmono := blockCount_mono hbs (show n.size + diff ≤ n.size + size by omega)
      subst hindex
      apply Call.Returns.bind (appendChunk_appended hb h hn hrest (by omega) (by omega)
        (hold.mono (by omega)) (by omega))
      intro _ fs₁ happ
      obtain ⟨m, hm, hmsize, _⟩ := happ.node
      have hsum : m.size + (size - diff) = n.size + size := by omega
      have hnext : 0 < size - diff → n.size / vol.blocksize + 1 = m.size / vol.blocksize ∧
          0 = m.size % vol.blocksize := by
        intro hleft
        have hfull := next_block n.size hbs
        rw [show vol.blocksize - n.size % vol.blocksize = diff by omega, ← hmsize] at hfull
        exact ⟨hfull.1.symm, hfull.2.symm⟩
      have hlt := lt_of_blockCount_lt hbs hb.blocksize_lt hblocks
      have hdiv := Nat.div_le_self n.size vol.blocksize
      have hrestSound : ∀ q, AppendSound vol.blocksize (view fs₁.volume) m
          (data.advance diff) (size - diff) q := by
        intro q hleft hpos
        have := (hnext hleft).2
        omega
      refine (ih (u64 (n.size / vol.blocksize + 1)) 0 (data.advance diff) (size - diff)
        happ.housed hm (Buffer.Holds.advance (by rw [hsplit]; exact hold)) ?_
        (by rw [hsum]; exact hblocks) ?_).mono ?_ ?_
      · intro hleft
        rw [u64_of_lt (by omega)]
        exact hnext hleft
      · intro hleft
        rw [hleft]
        exact (Appended.refl happ.housed hm _).congr fun q _ =>
          iff_of_true trivial fun hpos => absurd hpos (Nat.lt_irrefl 0)
      · intro _ fs₂ happ₂
        have hall := happ.trans fun m' hm' _ => by
          rw [hm] at hm'
          cases hm'
          exact ⟨happ₂, hrestSound m.size⟩
        rw [hsplit] at hall
        apply hall.congr
        intro q _
        unfold AppendSound
        rw [← hmin]
        exact ⟨fun hq _ => hq, fun hq => hq (Nat.pos_of_ne_zero hzero)⟩
      · intro _ hkept
        exact happ.others.trans hkept

theorem fileAppend_appended (hb : Backing vol count view) (h : Housed vol.blocksize count fs)
    (hn : fs.files[i]? = some n) (hold : data.Holds size)
    (hblocks : blockCount (n.size + size) vol.blocksize < 2 ^ 32) :
    Call.Returns (fileAppend vol i data size fs)
      (fun _ => Appended vol.blocksize count view i n data size
        (AppendSound vol.blocksize (view fs.volume) n data size) fs)
      (FilesKept vol.blocksize count view (· ≠ i) fs) := by
  unfold fileAppend
  rw [Call.bind_apply, file_eq hn, Outcome.bind_ok]
  exact fileAppendLoop_appended hb _ _ _ _ _ h hn hold (fun _ => ⟨rfl, rfl⟩) hblocks

theorem fileAppendLoop_zero (vol : Volume σ) (i fuel tailIndex tailSize : Nat) (data : Buffer)
    (fs : Fstree σ) : fileAppendLoop vol i fuel tailIndex tailSize data 0 fs = .ok () fs := by
  cases fuel <;> rfl

/-- Zeros in a last block that follows a region only change the size. -/
theorem fileAppend_unwritten (hvalid : n.Valid vol.blocksize)
    (hblocks : n.blocks vol.blocksize < 2 ^ 32) (hn : fs.files[i]? = some n) (hpos : 0 < size)
    (htail : 0 < n.size % vol.blocksize)
    (hfit : n.size % vol.blocksize + size ≤ vol.blocksize)
    (hends : EndsAt n.sparse (n.size / vol.blocksize)) :
    fileAppend vol i none size fs = .ok () { fs with
      files := fs.files.modify i fun m => { m with size := u64 (m.size + size) } } := by
  have hwithin := hvalid.within
  rw [blocks_of_tail htail] at hwithin hblocks
  have htailed : appendToTail vol i (n.size / vol.blocksize) (n.size % vol.blocksize) none size fs =
      .ok () fs := by
    unfold appendToTail
    rw [Call.bind_apply, file_eq hn, Outcome.bind_ok]
    cases hfound : (findTail (n.size / vol.blocksize)
        (u64 (n.startIndex + n.size / vol.blocksize)) n.sparse).2 with
    | none => exact absurd hends (findTail_none_free (by omega) hwithin hfound).2
    | some sparse => rfl
  obtain ⟨fuel, rfl⟩ := Nat.exists_eq_add_of_lt hpos
  unfold fileAppend
  rw [Call.bind_apply, file_eq hn, Outcome.bind_ok]
  unfold fileAppendLoop
  rw [if_neg (by omega)]
  have hdiff : (if vol.blocksize - n.size % vol.blocksize > 0 + fuel + 1 then 0 + fuel + 1
      else vol.blocksize - n.size % vol.blocksize) = 0 + fuel + 1 := by
    split <;> omega
  rw [hdiff, Nat.sub_self, Call.bind_apply]
  unfold appendChunk
  rw [Call.bind_apply, Call.get_apply, Outcome.bind_ok, Call.bind_apply, if_pos htail, htailed,
    Outcome.bind_ok, updateFile_apply, Outcome.bind_ok, fileAppendLoop_zero]

/-- File `i` has `data` behind its old end, and all others their old bytes. -/
def AppendLaw (vol : Volume σ) (i : Nat) (data : List UInt8) (fs fs' : Fstree σ) : Prop :=
  (∀ c, Reads vol i c fs → Reads vol i (c ++ data) fs') ∧
    ∀ j, j ≠ i → ∀ c, Reads vol j c fs' ↔ Reads vol j c fs

/-- A successful append puts its data behind the file and changes no other exactly if the
last block the file had is not in the way. -/
theorem fileAppend_law (hb : Backing vol count view) (h : Housed vol.blocksize count fs)
    (hn : fs.files[i]? = some n) (hold : data.Holds size)
    (hblocks : blockCount (n.size + size) vol.blocksize < 2 ^ 32)
    (hok : fileAppend vol i data size fs = .ok () fs') :
    AppendLaw vol i (data.bytes size) fs fs' ↔
      AppendSound vol.blocksize (view fs.volume) n data size n.size := by
  have hbs := hb.store.blocksize_pos
  have happ := fileAppend_appended hb h hn hold hblocks
  rw [hok] at happ
  obtain ⟨m, hm, _, hgrown, _⟩ := happ.node
  have heq := hgrown.eq_iff
  rw [length_contents] at heq
  rw [← heq]
  constructor
  · intro hlaw
    have hreads := hlaw.1 _ ((reads_iff_contents hb.store h hn).2 rfl)
    exact (reads_iff_contents hb.store happ.housed hm).1 hreads
  · intro hsame
    constructor
    · intro c hc
      rw [reads_iff_contents hb.store h hn] at hc
      rw [reads_iff_contents hb.store happ.housed hm, hsame, hc]
    · intro j hj c
      exact happ.others.reads_iff hb.store h hj

/-- Three bytes behind two in a block that is stored and follows no region. -/
theorem fileAppend_law_tail :
    let fs : Fstree Bytes := ⟨fun _ => 7, 1, false, [⟨2, 0, []⟩]⟩
    ∃ fs', fileAppend (idealVolume 4 4) 0 (some [1, 2, 3]) 3 fs = .ok () fs' ∧
      (AppendLaw (idealVolume 4 4) 0 [1, 2, 3] fs fs' ↔
        AppendSound 4 fs.volume ⟨2, 0, []⟩ (some [1, 2, 3]) 3 2) := by
  intro fs
  have hok : (fileAppend (idealVolume 4 4) 0 (some [1, 2, 3]) 3 fs).val? = some () := by
    decide +kernel
  have hb : Backing (idealVolume 4 4) 4 id :=
    idealVolume_backing (by decide) (by decide) (by decide)
  have hfs : Housed 4 4 fs := ⟨show Layout 4 1 [⟨2, 0, []⟩] by decide, by decide⟩
  obtain ⟨fs', hres⟩ := Outcome.exists_ok hok
  exact ⟨fs', hres, fileAppend_law hb hfs rfl (by simp) (by decide) hres⟩

/-- A block of zeros that is not stored, two bytes behind it, and one more: the stored block
is taken for a part of the region. -/
theorem fileAppend_behind_region :
    let fs : Fstree Bytes :=
      ⟨fun p => if p = 0 then 1 else if p = 1 then 2 else 0, 1, false, [⟨6, 0, [⟨0, 1⟩]⟩]⟩
    ∃ fs', Housed 4 4 fs ∧ Reads (idealVolume 4 4) 0 [0, 0, 0, 0, 1, 2] fs ∧
      fileAppend (idealVolume 4 4) 0 (some [3]) 1 fs = .ok () fs' ∧
      (fileRead (idealVolume 4 4) 0 0 7 fs').val? = some [1, 2, 0, 0, 0, 0, 3] ∧
      ¬ AppendLaw (idealVolume 4 4) 0 [3] fs fs' := by
  intro fs
  have hv : BlockStore (idealVolume 4 4) 4 id := idealVolume_blockStore (by decide)
  have hfs : Housed 4 4 fs := ⟨show Layout 4 1 [⟨6, 0, [⟨0, 1⟩]⟩] by decide, by decide⟩
  have hreads : Reads (idealVolume 4 4) 0 [0, 0, 0, 0, 1, 2] fs :=
    (reads_iff hv hfs).2 (by decide +kernel)
  have hrun : ((do
      fileAppend (idealVolume 4 4) 0 (some [3]) 1
      fileRead (idealVolume 4 4) 0 0 7 : Call (Fstree Bytes) (List UInt8)) fs).val? =
        some [1, 2, 0, 0, 0, 0, 3] := by decide +kernel
  rw [Call.bind_apply] at hrun
  obtain ⟨_, fs', hres, hread⟩ := Outcome.of_bind_val? hrun
  refine ⟨fs', hfs, hreads, hres, hread, ?_⟩
  intro hlaw
  exact absurd ((hlaw.1 _ hreads).read_eq hread) (by decide)

end Append

end ImageTool.Fstree
