import ImageTool.Image.MemmoveWrap
import ImageTool.Fstree.AppendLaw

/-!
# Writing to a block of a file

`write_partial_block` writes to a block where it is stored, takes it out of the file where
it becomes a block of zeros, and stores a block of a region before it writes to it.  The
blocks behind it in the file are counted anew then, and lie one block lower or higher.
-/

namespace ImageTool.Fstree

open ImageTool.Lib ImageTool.Image ImageTool.Util

variable {σ : Type}

/-! ## Bytes of the blocks behind -/

section Rearranged

variable {bs b o e index start top a : Nat} {view view' : Bytes} {n m : FileNode}
variable {rs' : List Region} {D : List UInt8}

theorem rank_mono {rs : List Region} {c : Nat} (h : b ≤ c) : rank rs b ≤ rank rs c :=
  Nat.count_monotone _ h

/-- What a write to one block of a file makes of its bytes. -/
theorem splice_bytesOf_block (ho : o < bs) (hfit : e + D.length ≤ bs) :
    (bytesOf bs view n).splice (index * bs + e) D (b * bs + o) =
      if b = index ∧ e ≤ o ∧ o < e + D.length then D.getD (o - e) 0
      else blockByte bs view n b o := by
  by_cases hb : b = index
  · subst hb
    unfold Bytes.splice
    by_cases hin : e ≤ o ∧ o < e + D.length
    · rw [if_pos (by omega), if_pos ⟨rfl, hin⟩, Nat.add_sub_add_left]
    · rw [if_neg (by omega), if_neg (fun h => hin h.2), bytesOf_block ho]
  · rw [splice_other_block hb ho hfit, bytesOf_block ho, if_neg fun h => hb h.1]

/-- Block by block is byte by byte. -/
theorem bytesOf_eq_splice (hbs : 0 < bs) (hfit : e + D.length ≤ bs)
    (h : ∀ b o, o < bs → b * bs + o < n.size → blockByte bs view' m b o =
      if b = index ∧ e ≤ o ∧ o < e + D.length then D.getD (o - e) 0
      else blockByte bs view n b o) :
    ∀ p < n.size, bytesOf bs view' m p =
      (bytesOf bs view n).splice (index * bs + e) D p := by
  intro p hp
  have ho := Nat.mod_lt p hbs
  rw [← Nat.div_add_mod' p bs, bytesOf_block ho, splice_bytesOf_block ho hfit]
  apply h _ _ ho
  rwa [Nat.div_add_mod']

/-- The blocks behind a stored block that was taken out have moved down. -/
theorem blockByte_takenOut (hvalid : n.Valid bs) (hfree : ¬ Covers n.sparse index)
    (hcovers : ∀ x, Covers rs' x ↔ Covers n.sparse x ∨ x = index)
    (hlow : ∀ p < (start + rank n.sparse index) * bs, view' p = view p)
    (hhigh : ∀ p, (start + rank n.sparse index) * bs ≤ p →
      p + bs < (start + n.stored bs) * bs → view' p = view (p + bs))
    (hb : b < n.blocks bs) (ho : o < bs) :
    blockByte bs view' { n with startIndex := start, sparse := rs' } b o =
      if b = index then 0 else blockByte bs view { n with startIndex := start } b o := by
  by_cases hself : b = index
  · rw [if_pos hself]
    exact blockByte_sparse ((hcovers b).2 (Or.inr hself))
  rw [if_neg hself]
  by_cases hcover : Covers n.sparse b
  · rw [blockByte_sparse (n := { n with startIndex := start }) hcover,
      blockByte_sparse (n := { n with startIndex := start, sparse := rs' })
        ((hcovers b).2 (Or.inl hcover))]
  have hcover' : ¬ Covers rs' b := by
    rw [hcovers]
    exact fun h => h.elim hcover hself
  rw [blockByte_stored (n := { n with startIndex := start }) hcover,
    blockByte_stored (n := { n with startIndex := start, sparse := rs' }) hcover']
  dsimp only
  have hrank := rank_added (b := b) hfree hcovers
  have hstored := hvalid.rank_lt hcover hb
  rcases Nat.lt_or_gt_of_ne hself with hlt | hgt
  · have hfront := rank_lt hcover hlt
    rw [if_neg (by omega), Nat.add_zero] at hrank
    have hle := Nat.mul_le_mul_right bs (show start + rank n.sparse b + 1 ≤
      start + rank n.sparse index by omega)
    rw [Nat.succ_mul] at hle
    rw [← hrank]
    exact hlow _ (by omega)
  · have hbehind := rank_lt hfree hgt
    rw [if_pos hgt] at hrank
    have hle := Nat.mul_le_mul_right bs (show start + rank n.sparse index ≤
      start + rank rs' b by omega)
    have hend := Nat.mul_le_mul_right bs (show start + rank n.sparse b + 1 ≤
      start + n.stored bs by omega)
    have hnext : (start + rank n.sparse b) * bs = (start + rank rs' b) * bs + bs := by
      rw [hrank, ← Nat.add_assoc, Nat.succ_mul]
    rw [Nat.succ_mul] at hend
    rw [hhigh _ (by omega) (by omega)]
    congr 1
    omega

/-- The blocks behind a block of a region that was put in have moved up. -/
theorem blockByte_putIn (hvalid : n.Valid bs) (hcover : Covers n.sparse index)
    (hcovers : ∀ x, Covers rs' x ↔ Covers n.sparse x ∧ x ≠ index)
    (hlow : ∀ p < (start + rank n.sparse index) * bs, view' p = view p)
    (hgap : ∀ o < bs, view' ((start + rank n.sparse index) * bs + o) = 0)
    (hhigh : ∀ p, (start + rank n.sparse index) * bs ≤ p →
      p < (start + n.stored bs) * bs → view' (p + bs) = view p)
    (hb : b < n.blocks bs) (ho : o < bs) :
    blockByte bs view' { n with startIndex := start, sparse := rs' } b o =
      blockByte bs view { n with startIndex := start } b o := by
  have hfree : ¬ Covers rs' index := by
    rw [hcovers]
    exact fun h => h.2 rfl
  have hback : ∀ x, Covers n.sparse x ↔ Covers rs' x ∨ x = index := by
    intro x
    rw [hcovers]
    by_cases hx : x = index
    · simp [hx, hcover]
    · simp [hx]
  have hrank := fun b => rank_added (b := b) hfree hback
  by_cases hself : b = index
  · subst hself
    have hplace := hrank b
    rw [if_neg (Nat.lt_irrefl b), Nat.add_zero] at hplace
    rw [blockByte_sparse (n := { n with startIndex := start }) hcover,
      blockByte_stored (n := { n with startIndex := start, sparse := rs' }) hfree]
    dsimp only
    rw [hplace]
    exact hgap o ho
  by_cases hstored : Covers n.sparse b
  · rw [blockByte_sparse (n := { n with startIndex := start }) hstored,
      blockByte_sparse (n := { n with startIndex := start, sparse := rs' })
        ((hcovers b).2 ⟨hstored, hself⟩)]
  have hstored' : ¬ Covers rs' b := by
    rw [hcovers]
    exact fun h => hstored h.1
  have hlast := hvalid.rank_lt hstored hb
  have hplace := hrank b
  rw [blockByte_stored (n := { n with startIndex := start }) hstored,
    blockByte_stored (n := { n with startIndex := start, sparse := rs' }) hstored']
  dsimp only
  rcases Nat.lt_or_gt_of_ne hself with hlt | hgt
  · have hfront := rank_lt hstored hlt
    rw [if_neg (by omega), Nat.add_zero] at hplace
    have hle := Nat.mul_le_mul_right bs (show start + rank n.sparse b + 1 ≤
      start + rank n.sparse index by omega)
    rw [Nat.succ_mul] at hle
    rw [hplace]
    exact hlow _ (by omega)
  · have hbehind : rank n.sparse index ≤ rank n.sparse b := rank_mono (Nat.le_of_lt hgt)
    rw [if_pos hgt] at hplace
    have hle := Nat.mul_le_mul_right bs (show start + rank n.sparse index ≤
      start + rank n.sparse b by omega)
    have hend := Nat.mul_le_mul_right bs (show start + rank n.sparse b + 1 ≤
      start + n.stored bs by omega)
    rw [Nat.succ_mul] at hend
    rw [← hhigh _ (by omega) (by omega), hplace, ← Nat.add_assoc, Nat.succ_mul]
    congr 1
    omega

end Rearranged

/-! ## One block -/

/-- `data` has been written at byte `pos` of file `i`, and nothing else has changed. -/
structure Written (bs count : Nat) (view : σ → Bytes) (i : Nat) (n : FileNode) (pos : Nat)
    (data : List UInt8) (fs fs' : Fstree σ) : Prop where
  housed : Housed bs count fs'
  others : FilesKept bs count view (· ≠ i) fs fs'
  node : ∃ m, fs'.files[i]? = some m ∧ m.size = n.size ∧ ∀ p < n.size,
    bytesOf bs (view fs'.volume) m p = (bytesOf bs (view fs.volume) n).splice pos data p

section Block

variable {bs count i index start d e : Nat} {view : σ → Bytes} {fs fs₁ fs' : Fstree σ}
variable {n : FileNode} {D : List UInt8}

/-- A block that is stored. -/
theorem Housed.written (h : Housed bs count fs) (hbs : 0 < bs) (hn : fs.files[i]? = some n)
    (hfree : ¬ Covers n.sparse index) (hindex : index < n.blocks bs)
    (hfit : e + D.length ≤ bs) {v : σ} (hview : view v =
      (view fs.volume).splice ((n.startIndex + rank n.sparse index) * bs + e) D) :
    Written bs count view i n (index * bs + e) D fs { fs with volume := v } := by
  have hrank := (h.laidOut.valid_at hn).rank_lt hfree hindex
  refine ⟨⟨h.laidOut, h.fits⟩, ?_, n, hn, rfl, ?_⟩
  · apply FilesKept.splice hbs h hview hfit
    intro j m hj hm r hr
    exact h.laidOut.block_ne hj hn hm hr hrank
  · apply bytesOf_eq_splice hbs hfit
    intro b o ho _
    change blockByte bs (view v) n b o = _
    rw [hview]
    by_cases hb : b = index
    · subst hb
      rw [blockByte_splice_self hfree]
      simp
    · rw [blockByte_splice_other hfree hb ho hfit, if_neg fun hin => hb hin.1]

theorem written_nil (h : Housed bs count fs) (hn : fs.files[i]? = some n) (pos : Nat) :
    Written bs count view i n pos [] fs fs :=
  ⟨h, FilesKept.refl view _ h, n, hn, rfl, fun p _ => by rw [Bytes.splice_nil]⟩

/-- Zeros in a block that is not stored. -/
theorem written_sparse (h : Housed bs count fs) (hbs : 0 < bs) (hn : fs.files[i]? = some n)
    (hcover : Covers n.sparse index) (hfit : e + d ≤ bs) :
    Written bs count view i n (index * bs + e) (List.replicate d 0) fs fs := by
  refine ⟨h, FilesKept.refl view _ h, n, hn, rfl, ?_⟩
  apply bytesOf_eq_splice hbs (by simpa using hfit)
  intro b o _ _
  split
  · rename_i hin
    obtain ⟨rfl, -, hlt⟩ := hin
    rw [blockByte_sparse hcover, List.getD_eq_getElem?_getD, List.getElem?_replicate]
    split <;> rfl
  · rfl

/-- More bytes behind them. -/
theorem Written.trans {pos : Nat} {D' : List UInt8} {fs₂ : Fstree σ}
    (h : Written bs count view i n pos D fs fs₁)
    (h' : ∀ m, fs₁.files[i]? = some m → m.size = n.size →
      Written bs count view i m (pos + D.length) D' fs₁ fs₂) :
    Written bs count view i n pos (D ++ D') fs fs₂ := by
  obtain ⟨m, hm, hsize, hbytes⟩ := h.node
  have hrest := h' m hm hsize
  obtain ⟨k, hk, hsizek, hbytesk⟩ := hrest.node
  refine ⟨hrest.housed, h.others.trans hrest.others, k, hk, hsizek.trans hsize, ?_⟩
  intro p hp
  rw [hbytesk p (by omega), ← Bytes.splice_splice_append]
  unfold Bytes.splice
  split
  · rfl
  · exact hbytes p hp

/-- Behind the files in front of the last one. -/
theorem AtBack.others_below (h : AtBack bs count view i start n fs fs₁) {j : Nat}
    {m : FileNode} (hji : j ≠ i) (hm : fs₁.files[j]? = some m) (hpos : 0 < m.stored bs) :
    m.startIndex + m.stored bs ≤ start := by
  have hstop := h.housed.laidOut.stop_le hm hpos
  have hend := h.stop
  by_cases hzero : n.stored bs = 0
  · omega
  · have hnode := h.node
    have hapart := h.housed.laidOut.packed.apart j i hji (by rw [extentAt_eq hm]; exact hpos)
      (by rw [extentAt_eq hnode]; exact Nat.pos_of_ne_zero hzero)
    rw [extentAt_eq hm, extentAt_eq hnode] at hapart
    change m.startIndex + m.stored bs ≤ start ∨ start + n.stored bs ≤ m.startIndex at hapart
    omega

/-- The last file may change all it stores. -/
theorem AtBack.kept_below (h : AtBack bs count view i start n fs fs₁) {v : σ}
    (hview : ∀ p < start * bs, view v p = view fs₁.volume p) :
    FilesKept bs count view (· ≠ i) fs { fs₁ with volume := v } := by
  have hkept : FilesKept bs count view (· ≠ i) fs₁ { fs₁ with volume := v } := by
    refine FilesKept.inPlace h.housed rfl (fun _ _ => rfl) ?_
    intro j m hj hm q hq
    have hpos : 0 < m.stored bs := by
      by_contra hzero
      rw [Nat.eq_zero_of_not_pos hzero, Nat.zero_mul] at hq
      exact absurd hq (Nat.not_lt_zero q)
    have hbelow := Nat.mul_le_mul_right bs (h.others_below hj hm hpos)
    rw [Nat.add_mul] at hbelow
    exact hview _ (by omega)
  exact (h.kept _).trans hkept

/-- The file has its bytes where it has been moved to. -/
theorem AtBack.blockByte_eq (h : AtBack bs count view i start n fs fs₁) (hvalid : n.Valid bs)
    {b o : Nat} (hb : b < n.blocks bs) (ho : o < bs) :
    blockByte bs (view fs₁.volume) { n with startIndex := start } b o =
      blockByte bs (view fs.volume) n b o :=
  blockByte_congr (m := { n with startIndex := start }) hvalid rfl h.data hb ho

/-! ## What a block does to the data area -/

/-- The files but `i`, whose node has become `m`, lie where they did as soon as file `i` is
behind them. -/
def SameClosed (bs i : Nat) (n m : FileNode) (fs fs' : Fstree σ) : Prop :=
  ∀ (j : Nat) (k : FileNode), j ≠ i → fs.files[j]? = some k → 0 < k.stored bs →
    ∃ start, fs'.files[j]? = some { k with startIndex := start } ∧
      closedStart bs m { k with startIndex := start } = closedStart bs n k

/-- The node of file `i` has become `m`, with `added` blocks put into the data area and
`removed` taken out of it. -/
structure Accounted (bs count i added removed : Nat) (n m : FileNode) (fs fs' : Fstree σ) :
    Prop where
  node : fs'.files[i]? = some m
  stored : m.stored bs + removed = n.stored bs + added
  dataOffset : fs'.dataOffset + removed = fs.dataOffset + added
  noSparse : fs'.noSparse = fs.noSparse
  atEnd : 0 < added + removed →
    Movable bs count fs.dataOffset n ∧ m.startIndex + m.stored bs = fs'.dataOffset
  start : added + removed = 0 → m.startIndex = n.startIndex
  closed : SameClosed bs i n m fs fs'

/-- The bytes of the last block of a file. -/
def lastBlock (bs : Nat) (view : Bytes) (n : FileNode) (o : Nat) : UInt8 :=
  view ((n.startIndex + n.stored bs - 1) * bs + o)

/-- File `i` has got `added` blocks at block `index` and lost `removed`. -/
structure BlockDone (bs count : Nat) (view : σ → Bytes) (i index added removed : Nat)
    (n m : FileNode) (fs fs' : Fstree σ) : Prop
    extends Accounted bs count i added removed n m fs fs' where
  size : m.size = n.size
  fills : 0 < added → added = 1 ∧ Covers n.sparse index
  empties : 0 < removed → removed = 1 ∧ ¬ Covers n.sparse index
  covers : ∀ x, Covers m.sparse x ↔
    (Covers n.sparse x ∧ ¬ (0 < added ∧ x = index)) ∨ (0 < removed ∧ x = index)
  room : 0 < added → fs.dataOffset < count
  last : rank n.sparse (index + 1) < n.stored bs → ∀ o < bs,
    lastBlock bs (view fs'.volume) m o = lastBlock bs (view fs.volume) n o

/-- File `i` is behind all others at the end of the volume, and the end of its last block,
whose bytes are `last`, has been copied to the first block: as many of them as a block behind
the volume would have behind the last address. -/
structure Torn (bs count : Nat) (view : σ → Bytes) (i : Nat) (n : FileNode) (last : Nat → UInt8)
    (fs fs' : Fstree σ) : Prop where
  length : fs'.files.length = fs.files.length
  node : ∀ (j : Nat) (m : FileNode), j ≠ i → fs.files[j]? = some m → ∃ start : Nat,
    fs'.files[j]? = some { m with startIndex := start } ∧
      Placed bs count { m with startIndex := start } ∧
      (0 < m.stored bs → start = closedStart bs n m) ∧
      ∀ q < m.stored bs * bs, view fs'.volume (start * bs + q) =
        if start * bs + q + (2 ^ 64 - count * bs) < bs then
          last (start * bs + q + (2 ^ 64 - count * bs))
        else view fs.volume (m.startIndex * bs + q)

/-- Its last block is the last one of the data area. -/
theorem AtBack.lastBlock_eq (h : AtBack bs count view i start n fs fs₁) (hpos : 0 < n.stored bs)
    {o : Nat} (ho : o < bs) : view fs₁.volume ((fs₁.dataOffset - 1) * bs + o) =
      lastBlock bs (view fs.volume) n o := by
  have hstop := h.stop
  have hle : (n.stored bs - 1) * bs + bs = n.stored bs * bs := by
    rw [← Nat.succ_mul]
    congr 1
    omega
  have hbyte := h.data ((n.stored bs - 1) * bs + o) (by omega)
  unfold lastBlock
  rw [← Nat.add_assoc, ← Nat.add_assoc, ← Nat.add_mul, ← Nat.add_mul] at hbyte
  rw [show fs₁.dataOffset - 1 = start + (n.stored bs - 1) by omega, hbyte,
    Nat.add_sub_assoc hpos]

theorem SameClosed.trans {m k : FileNode} {fs₂ : Fstree σ} (h : SameClosed bs i n m fs fs₁)
    (h' : SameClosed bs i m k fs₁ fs₂) : SameClosed bs i n k fs fs₂ := by
  intro j l hji hl hpos
  obtain ⟨start, hl₁, hsame₁⟩ := h j l hji hl hpos
  obtain ⟨start', hl₂, hsame₂⟩ := h' j _ hji hl₁ hpos
  exact ⟨start', hl₂, hsame₂.trans hsame₁⟩

section Accounted

variable {added removed added' removed' : Nat} {m k : FileNode} {fs₂ : Fstree σ}

/-- The last file has changed. -/
theorem AtBack.accounted (h : AtBack bs count view i start n fs fs₁)
    (hmoved : 0 < added + removed) (hm : fs'.files[i]? = some m) (hstart : m.startIndex = start)
    (hstored : m.stored bs + removed = n.stored bs + added)
    (hoffset : fs'.dataOffset + removed = fs₁.dataOffset + added)
    (hno : fs'.noSparse = fs₁.noSparse)
    (hfiles : ∀ j, j ≠ i → fs'.files[j]? = fs₁.files[j]?) :
    Accounted bs count i added removed n m fs fs' := by
  have hstop := h.stop
  have htop := h.dataOffset
  refine ⟨hm, hstored, by omega, hno.trans h.noSparse, fun _ => ⟨h.movable, by omega⟩,
    fun hnone => absurd hmoved (by omega), ?_⟩
  intro j l hji hl hpos
  have hclosed := h.closed j l hji hl hpos
  have hbelow := h.others_below hji hclosed hpos
  refine ⟨_, (hfiles j hji).trans hclosed, ?_⟩
  apply if_neg
  rw [hstart]
  change ¬ start < closedStart bs n l
  change closedStart bs n l + l.stored bs ≤ start at hbelow
  omega

/-- The file stores what it did where it did. -/
theorem Accounted.same (hm : fs'.files[i]? = some m) (hstart : m.startIndex = n.startIndex)
    (hstored : m.stored bs = n.stored bs) (hoffset : fs'.dataOffset = fs.dataOffset)
    (hno : fs'.noSparse = fs.noSparse)
    (hfiles : ∀ j, j ≠ i → fs'.files[j]? = fs.files[j]?) :
    Accounted bs count i 0 0 n m fs fs' := by
  refine ⟨hm, hstored, hoffset, hno, fun hnone => absurd hnone (Nat.lt_irrefl 0),
    fun _ => hstart, ?_⟩
  intro j l hji hl _
  refine ⟨l.startIndex, (hfiles j hji).trans hl, ?_⟩
  unfold closedStart
  rw [hstart, hstored]

namespace Accounted

/-- The file can be moved as before. -/
theorem movable_iff (h : Accounted bs count i added removed n m fs fs₁) :
    Movable bs count fs₁.dataOffset m ↔ Movable bs count fs.dataOffset n := by
  by_cases hmoved : 0 < added + removed
  · obtain ⟨hmovable, hend⟩ := h.atEnd hmoved
    exact iff_of_true (Or.inl hend) hmovable
  · have hstart := h.start (by omega)
    have hstored := h.stored
    have hoffset := h.dataOffset
    unfold Movable
    rw [hstart, show m.stored bs = n.stored bs by omega,
      show fs₁.dataOffset = fs.dataOffset by omega]

theorem trans (h : Accounted bs count i added removed n m fs fs₁)
    (h' : Accounted bs count i added' removed' m k fs₁ fs₂) :
    Accounted bs count i (added + added') (removed + removed') n k fs fs₂ := by
  have hstored := h.stored
  have hstored' := h'.stored
  have hoffset := h.dataOffset
  have hoffset' := h'.dataOffset
  refine ⟨h'.node, by omega, by omega, h'.noSparse.trans h.noSparse, ?_, ?_,
    h.closed.trans h'.closed⟩
  · intro hmoved
    by_cases hlater : 0 < added' + removed'
    · obtain ⟨hmovable, hend⟩ := h'.atEnd hlater
      exact ⟨h.movable_iff.1 hmovable, hend⟩
    · obtain ⟨hmovable, hend⟩ := h.atEnd (by omega)
      have hstart := h'.start (by omega)
      exact ⟨hmovable, by omega⟩
  · intro hnone
    exact (h'.start (by omega)).trans (h.start (by omega))

end Accounted

end Accounted

/-- A block that is written where it is stored. -/
theorem blockDone_written (hn : fs.files[i]? = some n) (hfree : ¬ Covers n.sparse index)
    (hfit : e + D.length ≤ bs) {v : σ} (hview : view v =
      (view fs.volume).splice ((n.startIndex + rank n.sparse index) * bs + e) D) :
    BlockDone bs count view i index 0 0 n n fs { fs with volume := v } := by
  refine ⟨.same hn rfl rfl rfl rfl fun _ _ => rfl, rfl, ?_, ?_, ?_, ?_, ?_⟩
  · intro hnone
    exact absurd hnone (Nat.lt_irrefl 0)
  · intro hnone
    exact absurd hnone (Nat.lt_irrefl 0)
  · intro x
    simp
  · intro hnone
    exact absurd hnone (Nat.lt_irrefl 0)
  · intro hlast o ho
    rw [rank_succ, if_pos hfree] at hlast
    change view v _ = _
    rw [hview]
    apply splice_other_block _ ho hfit
    omega

theorem blockDone_none (hn : fs.files[i]? = some n) :
    BlockDone bs count view i index 0 0 n n fs fs := by
  refine ⟨.same hn rfl rfl rfl rfl fun _ _ => rfl, rfl, ?_, ?_, ?_, ?_, fun _ _ _ => rfl⟩
  · intro hnone
    exact absurd hnone (Nat.lt_irrefl 0)
  · intro hnone
    exact absurd hnone (Nat.lt_irrefl 0)
  · intro x
    simp
  · intro hnone
    exact absurd hnone (Nat.lt_irrefl 0)

namespace BlockDone

variable {added removed : Nat} {m k : FileNode} {fs₂ : Fstree σ}

/-- The stored blocks in front of one behind it. -/
theorem rank_eq (h : BlockDone bs count view i index added removed n m fs fs') {b : Nat}
    (hb : index < b) : rank m.sparse b + removed = rank n.sparse b + added := by
  have hcovers := h.covers
  by_cases ha : 0 < added
  · obtain ⟨rfl, hcover⟩ := h.fills ha
    by_cases hr : 0 < removed
    · exact absurd hcover (h.empties hr).2
    obtain rfl : removed = 0 := by omega
    have hfree : ¬ Covers m.sparse index := by
      rw [hcovers]
      simp
    have hback : ∀ x, Covers n.sparse x ↔ Covers m.sparse x ∨ x = index := by
      intro x
      rw [hcovers]
      by_cases hx : x = index
      · simp [hx, hcover]
      · simp [hx]
    rw [rank_added hfree hback, if_pos hb, Nat.add_zero]
  obtain rfl : added = 0 := by omega
  by_cases hr : 0 < removed
  · obtain ⟨rfl, hfree⟩ := h.empties hr
    have hnext : ∀ x, Covers m.sparse x ↔ Covers n.sparse x ∨ x = index := by
      intro x
      rw [hcovers]
      simp
    rw [rank_added hfree hnext, if_pos hb, Nat.add_zero]
  · obtain rfl : removed = 0 := by omega
    rw [rank_congr fun x _ => show Covers m.sparse x ↔ Covers n.sparse x by
      rw [hcovers]
      simp]

/-- Then the block is written. -/
theorem write (h : BlockDone bs count view i index added removed n m fs fs₁)
    (h' : BlockDone bs count view i index 0 0 m k fs₁ fs₂) :
    BlockDone bs count view i index added removed n k fs fs₂ := by
  refine ⟨h.toAccounted.trans h'.toAccounted, h'.size.trans h.size, h.fills, h.empties, ?_,
    h.room, ?_⟩
  · intro x
    rw [h'.covers, ← h.covers]
    simp
  · intro hlast o ho
    have hrank := h.rank_eq (show index < index + 1 by omega)
    have hstored := h.stored
    rw [h'.last (by omega) o ho]
    exact h.last hlast o ho

end BlockDone

end Block

section Operations

variable {vol : Volume σ} {count i index start d e k : Nat} {view : σ → Bytes}
variable {fs fs₁ fs' : Fstree σ} {n : FileNode} {data : Buffer}

/-- A block is taken out of a file that lies behind all others. -/
theorem removeFileBlock_ok (hb : Backing vol count view)
    (h : AtBack vol.blocksize count view i start n fs fs₁)
    (hrank : rank n.sparse index < n.stored vol.blocksize) :
    ∃ v, removeFileBlock vol i (start + rank n.sparse index) index fs₁ = .ok () { fs₁ with
        volume := v
        dataOffset := fs₁.dataOffset - 1
        files := fs₁.files.modify i fun n =>
          { n with sparse := markSparse n.sparse index } } ∧
      ∀ p, view v p = if p < (start + rank n.sparse index) * vol.blocksize then
          view fs₁.volume p
        else if p + vol.blocksize < fs₁.dataOffset * vol.blocksize then
          view fs₁.volume (p + vol.blocksize)
        else if p < fs₁.dataOffset * vol.blocksize then 0 else view fs₁.volume p := by
  have hfits := h.housed.fits
  have htop := h.housed.laidOut.top_lt
  have hstop := h.stop
  have hin := Nat.mul_le_mul_right vol.blocksize hfits
  have hlt64 := hb.bytes_lt
  have hnext : (start + rank n.sparse index + 1) * vol.blocksize =
      (start + rank n.sparse index) * vol.blocksize + vol.blocksize := Nat.succ_mul _ _
  have hle := Nat.mul_le_mul_right vol.blocksize
    (show start + rank n.sparse index + 1 ≤ fs₁.dataOffset by omega)
  have hrest : (fs₁.dataOffset - (start + rank n.sparse index) - 1) * vol.blocksize =
      fs₁.dataOffset * vol.blocksize -
        ((start + rank n.sparse index) * vol.blocksize + vol.blocksize) := by
    rw [Nat.sub_sub, Nat.sub_mul, hnext]
  have hlast : (fs₁.dataOffset - 1) * vol.blocksize =
      fs₁.dataOffset * vol.blocksize - vol.blocksize := by rw [Nat.sub_mul, Nat.one_mul]
  rw [hnext] at hle
  unfold removeFileBlock
  rw [Call.bind_apply, Call.get_apply, Outcome.bind_ok]
  rw [sub64_of_le (by omega) htop, sub64_of_le (by omega) (by omega), hrest,
    sub64_of_le (by omega) htop, u64_of_lt (by omega), u64_of_lt (by omega), u64_of_lt (by omega)]
  obtain ⟨v₁, h₁, hview₁⟩ := volumeMemmove_eq hb.store fs₁.volume
    (show (start + rank n.sparse index) * vol.blocksize + (fs₁.dataOffset * vol.blocksize -
      ((start + rank n.sparse index) * vol.blocksize + vol.blocksize)) ≤ _ by omega)
    (show (start + rank n.sparse index) * vol.blocksize + vol.blocksize + _ ≤ _ by omega)
    (by omega) (by omega)
  obtain ⟨v₂, h₂, hview₂⟩ := hb.store.discardBlocks v₁ (fs₁.dataOffset - 1) 1 (by omega)
  refine ⟨v₂, ?_, ?_⟩
  · rw [Call.bind_apply, onVolume_ok h₁, Outcome.bind_ok, Call.bind_apply, setDataOffset_apply,
      Outcome.bind_ok, Call.bind_apply, updateFile_apply, Outcome.bind_ok, onVolume_ok h₂]
  · intro p
    rw [hview₂, hview₁, hlast, Nat.one_mul]
    exact Bytes.close_gap_apply hle

/-- The block was one of zeros. -/
theorem AtBack.takenOut {bs : Nat} (h : AtBack bs count view i start n fs fs₁) (hbs : 0 < bs)
    (hbs' : bs < 2 ^ 32) (hvalid : n.Valid bs) (hblocks : n.blocks bs < 2 ^ 32)
    (hindex : index < n.blocks bs) (hfree : ¬ Covers n.sparse index) (hk : k ≤ bs)
    (hall : ∀ o < bs, index * bs + o < n.size → o < k) {v : σ}
    (hview : ∀ p, view v p = if p < (start + rank n.sparse index) * bs then view fs₁.volume p
      else if p + bs < fs₁.dataOffset * bs then view fs₁.volume (p + bs)
      else if p < fs₁.dataOffset * bs then 0 else view fs₁.volume p)
    {fs' : Fstree σ} (hfs' : fs' = { fs₁ with
      volume := v
      dataOffset := fs₁.dataOffset - 1
      files := fs₁.files.modify i fun n =>
        { n with sparse := markSparse n.sparse index } }) :
    Written bs count view i n (index * bs + 0) (List.replicate k 0) fs fs' ∧
      BlockDone bs count view i index 0 1 n
        { n with startIndex := start, sparse := markSparse n.sparse index } fs fs' := by
  subst hfs'
  have hfits := h.housed.fits
  have htop := h.housed.laidOut.top_lt
  have hrank := hvalid.rank_lt hfree hindex
  have hstop := h.stop
  have hadded := markSparse_added hblocks hindex hvalid.within hfree (Nat.zero_le index)
  have htotal := hadded.within.total_le
  have hcount := hadded.total
  have hstored : FileNode.stored bs
      { n with startIndex := start, sparse := markSparse n.sparse index } + 1 =
        n.stored bs := by
    change n.blocks bs - total (markSparse n.sparse index) + 1 = n.blocks bs - total n.sparse
    omega
  have hfront := Nat.mul_le_mul_right bs (show start ≤ start + rank n.sparse index by omega)
  constructor
  · refine ⟨⟨?_, ?_⟩, ?_, _, getElem?_modify_self h.node, rfl, ?_⟩
    · apply Layout.resizeEnd h.housed.laidOut h.node h.stop
      · exact .of_blocks hbs hbs' hadded.within hblocks
      · rfl
      · change start + FileNode.stored bs
          { n with startIndex := start, sparse := markSparse n.sparse index } =
            fs₁.dataOffset - 1
        omega
      · change fs₁.dataOffset - 1 < 2 ^ 64
        omega
    · change fs₁.dataOffset - 1 ≤ count
      omega
    · apply (h.kept_below _).modify
      intro p hp
      rw [hview, if_pos (by omega)]
    · apply bytesOf_eq_splice hbs (by simpa using hk)
      intro b o ho hlt
      have hb' : b < n.blocks bs := (lt_blockCount_iff hbs).2 (by omega)
      have htaken : blockByte bs (view v) { n with
          startIndex := start, sparse := markSparse n.sparse index } b o =
          if b = index then 0
          else blockByte bs (view fs₁.volume) { n with startIndex := start } b o := by
        apply blockByte_takenOut hvalid hfree hadded.covers _ _ hb' ho
        · intro p hp
          rw [hview, if_pos hp]
        · intro p hp hp'
          rw [hstop] at hp'
          rw [hview, if_neg (by omega), if_pos hp']
      change blockByte _ (view v) { n with
        startIndex := start, sparse := markSparse n.sparse index } b o = _
      rw [htaken, h.blockByte_eq hvalid hb' ho]
      by_cases hself : b = index
      · subst hself
        have hin := hall o ho hlt
        rw [if_pos rfl, if_pos (by simp; omega), List.getD_eq_getElem?_getD,
          List.getElem?_replicate, if_pos (by omega), Option.getD_some]
      · rw [if_neg hself, if_neg fun hin => hself hin.1]
  · refine ⟨?_, rfl, ?_, fun _ => ⟨rfl, hfree⟩, ?_, ?_, ?_⟩
    · refine h.accounted Nat.one_pos (getElem?_modify_self h.node) rfl hstored ?_ rfl ?_
      · change fs₁.dataOffset - 1 + 1 = fs₁.dataOffset + 0
        omega
      · intro j hji
        exact List.getElem?_modify_ne _ _ fun hij => hji hij.symm
    · intro hnone
      exact absurd hnone (Nat.lt_irrefl 0)
    · intro x
      change Covers (markSparse n.sparse index) x ↔ _
      rw [hadded.covers]
      simp
    · intro hnone
      exact absurd hnone (Nat.lt_irrefl 0)
    · intro hlast o ho
      rw [rank_succ, if_pos hfree] at hlast
      change view v ((start + FileNode.stored bs
        { n with startIndex := start, sparse := markSparse n.sparse index } - 1) * bs + o) = _
      have hplace : start + FileNode.stored bs
          { n with startIndex := start, sparse := markSparse n.sparse index } - 1 =
            fs₁.dataOffset - 2 := by omega
      rw [hplace, ← h.lastBlock_eq (by omega) ho]
      have hbelow := Nat.mul_le_mul_right bs
        (show start + rank n.sparse index ≤ fs₁.dataOffset - 2 by omega)
      have hone : (fs₁.dataOffset - 1) * bs = (fs₁.dataOffset - 2) * bs + bs := by
        rw [← Nat.succ_mul]
        congr 1
        omega
      have htwo : fs₁.dataOffset * bs = (fs₁.dataOffset - 1) * bs + bs := by
        rw [← Nat.succ_mul]
        congr 1
        omega
      rw [hview, if_neg (by omega), if_pos (by omega), hone]
      congr 1
      omega

/-- A block of zeros is taken out of a file that lies behind all others. -/
theorem removeFileBlock_written (hb : Backing vol count view)
    (h : AtBack vol.blocksize count view i start n fs fs₁) (hvalid : n.Valid vol.blocksize)
    (hblocks : n.blocks vol.blocksize < 2 ^ 32) (hindex : index < n.blocks vol.blocksize)
    (hfree : ¬ Covers n.sparse index) (hk : k ≤ vol.blocksize)
    (hall : ∀ o < vol.blocksize, index * vol.blocksize + o < n.size → o < k) :
    Call.Returns (removeFileBlock vol i (start + rank n.sparse index) index fs₁)
      (fun _ fs' => Written vol.blocksize count view i n (index * vol.blocksize + 0)
          (List.replicate k 0) fs fs' ∧
        ∃ m, BlockDone vol.blocksize count view i index 0 1 n m fs fs')
      (fun _ => False) := by
  obtain ⟨v, hok, hview⟩ := removeFileBlock_ok hb h (hvalid.rank_lt hfree hindex)
  obtain ⟨hwritten, hdone⟩ := h.takenOut hb.store.blocksize_pos hb.blocksize_lt hvalid hblocks
    hindex hfree hk hall hview rfl
  rw [hok]
  exact ⟨hwritten, _, hdone⟩

/-- After a block of a region has been put into file `i`, which starts at `start` now. -/
structure PutIn (bs count : Nat) (view : σ → Bytes) (i start index : Nat) (n : FileNode)
    (fs fs' : Fstree σ) : Prop where
  housed : Housed bs count fs'
  others : FilesKept bs count view (· ≠ i) fs fs'
  node : fs'.files[i]? =
    some { n with startIndex := start, sparse := markNotSparse n.sparse index }
  bytes : ∀ b o, b < n.blocks bs → o < bs → blockByte bs (view fs'.volume)
    { n with startIndex := start, sparse := markNotSparse n.sparse index } b o =
      blockByte bs (view fs.volume) n b o

/-- The file grows by the block where it lies behind all others. -/
theorem AtBack.putIn {bs : Nat} (h : AtBack bs count view i start n fs fs₁) (hbs : 0 < bs)
    (hbs' : bs < 2 ^ 32) (hvalid : n.Valid bs) (hblocks : n.blocks bs < 2 ^ 32)
    (hcover : Covers n.sparse index) (hroom : fs₁.dataOffset < count) (hcount : count < 2 ^ 64)
    {v : σ} (hview : ∀ p, view v p =
      if p < (start + rank n.sparse index) * bs then view fs₁.volume p
      else if p < (start + rank n.sparse index) * bs + bs then 0
      else if p < fs₁.dataOffset * bs + bs then view fs₁.volume (p - bs)
      else view fs₁.volume p) :
    PutIn bs count view i start index n fs { fs₁ with
      volume := v
      dataOffset := fs₁.dataOffset + 1
      files := fs₁.files.modify i fun n =>
        { n with sparse := markNotSparse n.sparse index } } := by
  have hremoved := markNotSparse_removed hblocks hvalid.within hcover
  have htotal := hvalid.within.total_le
  have hcount' := hremoved.total
  have hstop := h.stop
  have hstored : FileNode.stored bs
      { n with startIndex := start, sparse := markNotSparse n.sparse index } =
        n.stored bs + 1 := by
    change n.blocks bs - total (markNotSparse n.sparse index) =
      n.blocks bs - total n.sparse + 1
    omega
  refine ⟨⟨?_, ?_⟩, ?_, getElem?_modify_self h.node, ?_⟩
  · apply Layout.resizeEnd h.housed.laidOut h.node h.stop
    · exact .of_blocks hbs hbs' hremoved.within hblocks
    · rfl
    · change start + FileNode.stored bs
        { n with startIndex := start, sparse := markNotSparse n.sparse index } =
          fs₁.dataOffset + 1
      omega
    · change fs₁.dataOffset + 1 < 2 ^ 64
      omega
  · exact hroom
  · apply (h.kept_below _).modify
    intro p hp
    have hfront := Nat.mul_le_mul_right bs (show start ≤ start + rank n.sparse index by omega)
    rw [hview, if_pos (by omega)]
  · intro b o hb ho
    have hput : blockByte bs (view v)
        { n with startIndex := start, sparse := markNotSparse n.sparse index } b o =
          blockByte bs (view fs₁.volume) { n with startIndex := start } b o := by
      apply blockByte_putIn hvalid hcover hremoved.covers _ _ _ hb ho
      · intro p hp
        rw [hview, if_pos hp]
      · intro q hq
        rw [hview, if_neg (by omega), if_pos (by omega)]
      · intro p hp hp'
        rw [hstop] at hp'
        rw [hview, if_neg (by omega), if_neg (by omega), if_pos (by omega), Nat.add_sub_cancel]
    exact hput.trans (h.blockByte_eq hvalid hb ho)

theorem PutIn.written {bs : Nat} (h : PutIn bs count view i start index n fs fs₁) (hbs : 0 < bs)
    (pos : Nat) : Written bs count view i n pos [] fs fs₁ := by
  refine ⟨h.housed, h.others, _, h.node, rfl, ?_⟩
  intro p hp
  rw [Bytes.splice_nil]
  exact h.bytes _ _ (div_lt_blocks hbs hp) (Nat.mod_lt p hbs)

/-- The file that has grown, and the others. -/
theorem AtBack.putIn_done {bs : Nat} (h : AtBack bs count view i start n fs fs₁)
    (hvalid : n.Valid bs) (hblocks : n.blocks bs < 2 ^ 32) (hcover : Covers n.sparse index)
    (hroom : fs₁.dataOffset < count) {v : σ} (hview : ∀ p, view v p =
      if p < (start + rank n.sparse index) * bs then view fs₁.volume p
      else if p < (start + rank n.sparse index) * bs + bs then 0
      else if p < fs₁.dataOffset * bs + bs then view fs₁.volume (p - bs)
      else view fs₁.volume p) :
    BlockDone bs count view i index 1 0 n
      { n with startIndex := start, sparse := markNotSparse n.sparse index } fs { fs₁ with
        volume := v
        dataOffset := fs₁.dataOffset + 1
        files := fs₁.files.modify i fun n =>
          { n with sparse := markNotSparse n.sparse index } } := by
  have hremoved := markNotSparse_removed hblocks hvalid.within hcover
  have htotal := hvalid.within.total_le
  have hcount := hremoved.total
  have hstop := h.stop
  have hoffset := h.dataOffset
  have hstored : FileNode.stored bs
      { n with startIndex := start, sparse := markNotSparse n.sparse index } =
        n.stored bs + 1 := by
    change n.blocks bs - total (markNotSparse n.sparse index) = n.blocks bs - total n.sparse + 1
    omega
  refine ⟨?_, rfl, fun _ => ⟨rfl, hcover⟩, ?_, ?_, ?_, ?_⟩
  · refine h.accounted Nat.one_pos (getElem?_modify_self h.node) rfl hstored rfl rfl ?_
    intro j hji
    exact List.getElem?_modify_ne _ _ fun hij => hji hij.symm
  · intro hnone
    exact absurd hnone (Nat.lt_irrefl 0)
  · intro x
    change Covers (markNotSparse n.sparse index) x ↔ _
    rw [hremoved.covers]
    simp
  · intro _
    omega
  · intro hlast o ho
    rw [rank_succ, if_neg (not_not.2 hcover), Nat.add_zero] at hlast
    change view v ((start + FileNode.stored bs
      { n with startIndex := start, sparse := markNotSparse n.sparse index } - 1) * bs + o) = _
    rw [hstored, show start + (n.stored bs + 1) - 1 = fs₁.dataOffset by omega,
      ← h.lastBlock_eq (by omega) ho]
    have hbelow := Nat.mul_le_mul_right bs
      (show start + rank n.sparse index + 1 ≤ fs₁.dataOffset by omega)
    have hone : fs₁.dataOffset * bs = (fs₁.dataOffset - 1) * bs + bs := by
      rw [← Nat.succ_mul]
      congr 1
      omega
    rw [Nat.succ_mul] at hbelow
    rw [hview, if_neg (by omega), if_neg (by omega), if_pos (by omega), hone]
    congr 1
    omega

/-- A block is put into a file that lies behind all others, with room behind it. -/
theorem insertSparseBlock_ok (hb : Backing vol count view)
    (h : AtBack vol.blocksize count view i start n fs fs₁)
    (hrank : rank n.sparse index ≤ n.stored vol.blocksize) (hroom : fs₁.dataOffset < count) :
    ∃ v, insertSparseBlock vol i (start + rank n.sparse index) index fs₁ = .ok () { fs₁ with
        volume := v
        dataOffset := fs₁.dataOffset + 1
        files := fs₁.files.modify i fun n =>
          { n with sparse := markNotSparse n.sparse index } } ∧
      ∀ p, view v p = if p < (start + rank n.sparse index) * vol.blocksize then
          view fs₁.volume p
        else if p < (start + rank n.sparse index) * vol.blocksize + vol.blocksize then 0
        else if p < fs₁.dataOffset * vol.blocksize + vol.blocksize then
          view fs₁.volume (p - vol.blocksize)
        else view fs₁.volume p := by
  have hcount := hb.count_lt
  have hstop := h.stop
  have hle := Nat.mul_le_mul_right vol.blocksize
    (show start + rank n.sparse index ≤ fs₁.dataOffset by omega)
  have hin := Nat.mul_le_mul_right vol.blocksize hroom
  have hlt64 := hb.bytes_lt
  have hrest : (fs₁.dataOffset - (start + rank n.sparse index)) * vol.blocksize =
      fs₁.dataOffset * vol.blocksize - (start + rank n.sparse index) * vol.blocksize :=
    Nat.sub_mul _ _ _
  rw [Nat.succ_mul] at hin
  unfold insertSparseBlock
  rw [Call.bind_apply, Call.get_apply, Outcome.bind_ok]
  rw [sub64_of_le (by omega) (by omega), hrest,
    u64_of_lt (show (start + rank n.sparse index) * vol.blocksize < 2 ^ 64 by omega),
    u64_of_lt (show _ + vol.blocksize < 2 ^ 64 by omega), u64_of_lt (by omega)]
  obtain ⟨v₁, h₁, hview₁⟩ := volumeMemmove_eq hb.store fs₁.volume
    (show (start + rank n.sparse index) * vol.blocksize + vol.blocksize + (fs₁.dataOffset *
      vol.blocksize - (start + rank n.sparse index) * vol.blocksize) ≤ _ by omega)
    (show (start + rank n.sparse index) * vol.blocksize + _ ≤ _ by omega) (by omega) (by omega)
  obtain ⟨v₂, h₂, hview₂⟩ := hb.store.discardBlocks v₁ (start + rank n.sparse index) 1 (by omega)
  refine ⟨v₂, ?_, ?_⟩
  · rw [Call.bind_apply, onVolume_ok h₁, Outcome.bind_ok, Call.bind_apply, setDataOffset_apply,
      Outcome.bind_ok, Call.bind_apply, updateFile_apply, Outcome.bind_ok, onVolume_ok h₂,
      u64_of_lt (by omega)]
  · intro p
    have hend : (start + rank n.sparse index) * vol.blocksize + vol.blocksize +
        (fs₁.dataOffset * vol.blocksize - (start + rank n.sparse index) * vol.blocksize) =
          fs₁.dataOffset * vol.blocksize + vol.blocksize := by omega
    rw [hview₂, hview₁, Nat.one_mul, Bytes.open_gap_apply, hend]

/-- Where the end of its last block has been copied to the first block. -/
theorem AtBack.torn {bs : Nat} (h : AtBack bs count view i start n fs fs₁)
    (hpos : 0 < n.stored bs) {v : σ} (hview : ∀ p, view v p =
      if p + (2 ^ 64 - count * bs) < bs then
        view fs₁.volume ((fs₁.dataOffset - 1) * bs + (p + (2 ^ 64 - count * bs)))
      else view fs₁.volume p) :
    Torn bs count view i n (lastBlock bs (view fs.volume) n) fs { fs₁ with volume := v } where
  length := (h.kept fun _ => True).length
  node := by
    intro j m hji hm
    obtain ⟨s, hm', hplaced, hdata⟩ := (h.kept fun _ => True).node j m trivial hm
    refine ⟨s, hm', hplaced, ?_, ?_⟩
    · intro hj
      have hclosed := h.closed j m hji hm hj
      rw [hm', Option.some.injEq] at hclosed
      exact congrArg FileNode.startIndex hclosed
    · intro q hq
      change view v _ = _
      rw [hview]
      split
      · rename_i hlow
        exact h.lastBlock_eq hpos hlow
      · exact hdata q hq

/-- Two blocks or more that lie up to the end of the volume cannot be moved behind themselves; what
the copy has done before it fails leaves the file torn. -/
theorem AtBack.move_refused (hb : Backing vol count view)
    (h : AtBack vol.blocksize count view i start n fs fs₁) (hfull : fs₁.dataOffset = count)
    {first : Nat} (hfirst : start ≤ first) (htwo : first + 2 ≤ count) :
    ∃ v, onVolume (volumeMemmove vol (first * vol.blocksize + vol.blocksize)
        (first * vol.blocksize) (count * vol.blocksize - first * vol.blocksize)) fs₁ =
          .fail { fs₁ with volume := v } ∧
      Torn vol.blocksize count view i n (lastBlock vol.blocksize (view fs.volume) n) fs
        { fs₁ with volume := v } := by
  have hbs := hb.store.blocksize_pos
  have hstop := h.stop
  have hlt64 := hb.bytes_lt
  have hover := Nat.mul_le_mul_right vol.blocksize htwo
  rw [Nat.add_mul] at hover
  have hlast : (fs₁.dataOffset - 1) * vol.blocksize =
      count * vol.blocksize - vol.blocksize := by rw [Nat.sub_mul, hfull, Nat.one_mul]
  by_cases hwrap : 2 ^ 64 < count * vol.blocksize + vol.blocksize
  · obtain ⟨v, hfail, hview⟩ := volumeMemmove_wrap hb.store hb.refuses hlt64 fs₁.volume
      (show first * vol.blocksize < first * vol.blocksize + vol.blocksize by omega)
      (show _ < first * vol.blocksize + (count * vol.blocksize - first * vol.blocksize) by omega)
      (by omega) (by omega) (by omega) (by omega)
    rw [Nat.add_sub_cancel_left, show first * vol.blocksize + vol.blocksize +
      (count * vol.blocksize - first * vol.blocksize) =
        count * vol.blocksize + vol.blocksize by omega] at hview
    refine ⟨v, ?_, h.torn (by omega) ?_⟩
    · unfold onVolume
      rw [Call.zoom_apply, hfail]
      rfl
    · intro p
      rw [hview]
      split
      · rw [Bytes.pullDown_apply_of_le (by omega) (by omega), hlast]
        exact congrArg (view fs₁.volume) (by omega)
      · exact Bytes.pullDown_apply_of_ge (by omega)
  · have hfail := volumeMemmove_refused hb.store hb.refuses fs₁.volume
      (show first * vol.blocksize < first * vol.blocksize + vol.blocksize by omega)
      (show _ < first * vol.blocksize + (count * vol.blocksize - first * vol.blocksize) by omega)
      (by omega) (by omega)
    refine ⟨fs₁.volume, ?_, h.torn (by omega) ?_⟩
    · unfold onVolume
      rw [Call.zoom_apply, hfail]
      rfl
    · intro p
      rw [if_neg (by omega)]

/-- On a full volume, the blocks behind the new one are moved over the last address if there
are two of them: with one the copy starts behind the volume. -/
theorem insertSparseBlock_full (hb : Backing vol count view)
    (h : AtBack vol.blocksize count view i start n fs fs₁)
    (hrank : rank n.sparse index ≤ n.stored vol.blocksize) (hfull : fs₁.dataOffset = count) :
    Call.Returns (insertSparseBlock vol i (start + rank n.sparse index) index fs₁)
      (fun _ _ => False)
      (fun fs' => (rank n.sparse index + 2 ≤ n.stored vol.blocksize →
          Torn vol.blocksize count view i n (lastBlock vol.blocksize (view fs.volume) n) fs fs') ∧
        (¬ rank n.sparse index + 2 ≤ n.stored vol.blocksize →
          FilesKept vol.blocksize count view (· ≠ i) fs fs')) := by
  have hbs := hb.store.blocksize_pos
  have hcount := hb.count_lt
  have hstop := h.stop
  have hlt64 := hb.bytes_lt
  have hle := Nat.mul_le_mul_right vol.blocksize
    (show start + rank n.sparse index ≤ fs₁.dataOffset by omega)
  have hrest : (fs₁.dataOffset - (start + rank n.sparse index)) * vol.blocksize =
      count * vol.blocksize - (start + rank n.sparse index) * vol.blocksize := by
    rw [Nat.sub_mul, hfull]
  have hlen : (n.stored vol.blocksize - rank n.sparse index) * vol.blocksize =
      count * vol.blocksize - (start + rank n.sparse index) * vol.blocksize := by
    rw [← hrest]
    congr 1
    omega
  have hfront := Nat.mul_le_mul_right vol.blocksize
    (show start ≤ start + rank n.sparse index by omega)
  rw [hfull] at hle
  unfold insertSparseBlock
  rw [Call.bind_apply, Call.get_apply, Outcome.bind_ok]
  rw [sub64_of_le (by omega) (by omega), hrest,
    u64_of_lt (show (start + rank n.sparse index) * vol.blocksize < 2 ^ 64 by omega),
    u64_of_lt (show count * vol.blocksize - _ < 2 ^ 64 by omega), Call.bind_apply]
  by_cases htwo : rank n.sparse index + 2 ≤ n.stored vol.blocksize
  · have hover := Nat.mul_le_mul_right vol.blocksize
      (show start + rank n.sparse index + 2 ≤ count by omega)
    rw [Nat.add_mul] at hover
    obtain ⟨v, hfail, htorn⟩ := h.move_refused hb hfull (Nat.le_add_right start _)
      (show start + rank n.sparse index + 2 ≤ count by omega)
    rw [u64_of_lt (by omega), hfail]
    exact ⟨fun _ => htorn, fun hnot => absurd htwo hnot⟩
  · have hone := Nat.mul_le_mul_right vol.blocksize
      (show n.stored vol.blocksize - rank n.sparse index ≤ 1 by omega)
    rw [hlen, Nat.one_mul] at hone
    apply Call.Returns.bind (R := fun _ fs' => fs' = fs₁ ∧ count ≤ start + rank n.sparse index)
    · apply hb.returns_memmoveUp hbs (by omega)
      · intro hpos
        have hzero : n.stored vol.blocksize - rank n.sparse index ≠ 0 := by
          intro hzero
          rw [hzero, Nat.zero_mul] at hlen
          omega
        have hfirst := Nat.mul_le_mul_right vol.blocksize (Nat.pos_of_ne_zero hzero)
        omega
      · intro _ hfit
        omega
      · intro hnone
        exact ⟨rfl, Nat.le_of_mul_le_mul_right (Nat.sub_eq_zero_iff_le.1 hnone) hbs⟩
      · intro v hview
        refine ⟨fun hnot => absurd hnot htwo, fun _ => h.kept_below fun p hp => hview p ?_⟩
        omega
      · intro hover
        omega
    · rintro _ _ ⟨rfl, hbehind⟩
      rw [Call.bind_apply, setDataOffset_apply, Outcome.bind_ok, Call.bind_apply,
        updateFile_apply, Outcome.bind_ok]
      apply hb.returns_discardBlocks
      · intro hroom
        omega
      · intro _
        refine ⟨fun hnot => absurd hnot htwo, fun _ => ?_⟩
        exact (h.kept_below fun _ _ => rfl).modify _ _

/-- A block of zeros is taken out of the file where there is room to move it. -/
theorem removeStored_written (hb : Backing vol count view) (h : Housed vol.blocksize count fs)
    (hn : fs.files[i]? = some n) (hblocks : n.blocks vol.blocksize < 2 ^ 32)
    (hindex : index < n.blocks vol.blocksize) (hfree : ¬ Covers n.sparse index)
    (hk : k ≤ vol.blocksize)
    (hall : ∀ o < vol.blocksize, index * vol.blocksize + o < n.size → o < k) :
    Call.Returns (removeStored vol i (n.startIndex + rank n.sparse index) index fs)
      (fun _ fs' => Written vol.blocksize count view i n (index * vol.blocksize + 0)
          (List.replicate k 0) fs fs' ∧
        ∃ m, BlockDone vol.blocksize count view i index 0 1 n m fs fs')
      (fun fs' => FilesKept vol.blocksize count view (· ≠ i) fs fs' ∧
        ¬ Movable vol.blocksize count fs.dataOffset n) := by
  have hvalid := h.laidOut.valid_at hn
  have hlt := h.block_lt hn hfree hindex
  have htop := h.laidOut.top_lt
  have hrank := hvalid.rank_lt hfree hindex
  unfold removeStored
  rw [Call.bind_apply, file_eq hn, Outcome.bind_ok]
  apply Call.Returns.bind ((fileMoveToEnd_atBack hb h hn).mono (fun _ _ hback => hback)
    fun _ hkept => ⟨hkept.1.mono fun _ _ => trivial, hkept.2⟩)
  rintro _ fs₁ ⟨start, hback⟩
  have hstop := hback.stop
  have hlast := hback.housed.laidOut.top_lt
  rw [Call.bind_apply, file_eq hback.node, Outcome.bind_ok, sub64_of_le (by omega) (by omega),
    Nat.add_sub_cancel_left, Nat.add_comm,
    u64_of_lt (show start + rank n.sparse index < 2 ^ 64 by omega)]
  apply (removeFileBlock_written hb hback hvalid hblocks hindex hfree hk hall).mono
  · intro _ _ hdone
    exact hdone
  · intro _ hnever
    exact hnever.elim

/-- All that a stored block holds of a file is overwritten by zeros, and it may be dropped. -/
def Drops (bs : Nat) (noSparse : Bool) (n : FileNode) (index : Nat) (data : Buffer)
    (offset size : Nat) : Prop :=
  noSparse = false ∧ offset = 0 ∧
    (size = bs ∨ index = n.size / bs ∧ size = n.size % bs) ∧ isNullOrZero data size = true

instance (bs : Nat) (noSparse : Bool) (n : FileNode) (index : Nat) (data : Buffer)
    (offset size : Nat) : Decidable (Drops bs noSparse n index data offset size) :=
  inferInstanceAs (Decidable (_ ∧ _))

theorem writeStored_eq (hn : fs.files[i]? = some n) (place : Nat) :
    writeStored vol i place index data e k fs =
      if Drops vol.blocksize fs.noSparse n index data e k then removeStored vol i place index fs
      else if e = 0 ∧ k = vol.blocksize then onVolume (vol.writeBlock place data) fs
      else onVolume (vol.writePartialBlock place data e k) fs := by
  unfold writeStored Drops
  rw [Call.bind_apply, file_eq hn, Outcome.bind_ok, Call.bind_apply, Call.get_apply,
    Outcome.bind_ok, Call.ite_apply, Call.ite_apply, Call.ite_apply]
  by_cases hfull : e = 0 ∧ k = vol.blocksize
  · obtain ⟨rfl, rfl⟩ := hfull
    simp
  · rw [if_neg hfull, if_neg hfull]
    congr 1
    simp only [eq_iff_iff]
    constructor
    · intro hall
      exact ⟨hall.1, hall.2.1, Or.inr ⟨hall.2.2.1, hall.2.2.2.1⟩, hall.2.2.2.2⟩
    · intro hall
      obtain ⟨hflag, hoffset, hwhole, hzero⟩ := hall
      have hlast := hwhole.resolve_left fun hsize => hfull ⟨hoffset, hsize⟩
      exact ⟨hflag, hoffset, hlast.1, hlast.2, hzero⟩

/-- Behind the walk, for a block that is stored. -/
theorem writeStored_written (hb : Backing vol count view) (h : Housed vol.blocksize count fs)
    (hn : fs.files[i]? = some n) (hblocks : n.blocks vol.blocksize < 2 ^ 32)
    (hindex : index < n.blocks vol.blocksize) (hfree : ¬ Covers n.sparse index)
    (hfit : e + k ≤ vol.blocksize) (hold : data.Holds k) :
    Call.Returns (writeStored vol i (n.startIndex + rank n.sparse index) index data e k fs)
      (fun _ fs' => Written vol.blocksize count view i n (index * vol.blocksize + e)
          (data.bytes k) fs fs' ∧
        ∃ m, BlockDone vol.blocksize count view i index 0
          (if Drops vol.blocksize fs.noSparse n index data e k then 1 else 0) n m fs fs')
      (fun fs' => FilesKept vol.blocksize count view (· ≠ i) fs fs' ∧
        ¬ Movable vol.blocksize count fs.dataOffset n ∧
        Drops vol.blocksize fs.noSparse n index data e k) := by
  have hbs := hb.store.blocksize_pos
  have hlen := Buffer.length_bytes hold
  have hlt := h.block_lt hn hfree hindex
  have hfits := h.fits
  rw [writeStored_eq hn]
  split
  · rename_i hdrops
    have hdrops' := hdrops
    obtain ⟨_, rfl, hwhole, hzero⟩ := hdrops'
    rw [bytes_of_isNullOrZero hzero hold]
    apply (removeStored_written (k := k) hb h hn hblocks hindex hfree (by omega) ?_).mono
    · intro _ _ hdone
      exact hdone
    · intro _ hkept
      exact ⟨hkept.1, hkept.2, hdrops⟩
    · intro o ho hin
      rcases hwhole with rfl | ⟨hblock, hsize⟩
      · exact ho
      · -- all of a partial last block
        have hsum := size_eq vol.blocksize n
        rw [← hblock, ← hsize] at hsum
        omega
  · split
    · rename_i hfull
      obtain ⟨rfl, rfl⟩ := hfull
      apply hb.returns_writeBlock hold
      · intro _ v hview
        exact ⟨h.written hbs hn hfree hindex (by omega) hview, n,
          blockDone_written (e := 0) hn hfree (by omega) hview⟩
      · intro hout
        exact absurd (Nat.lt_of_lt_of_le hlt hfits) hout
    · apply hb.returns_writePartialBlock hfit hold
      · intro _ v hview
        exact ⟨h.written hbs hn hfree hindex (by omega) hview, n,
          blockDone_written hn hfree (by omega) hview⟩
      · intro hout
        exact absurd (Nat.lt_of_lt_of_le hlt hfits) hout

/-- What the walk leaves of the position of a block that is not stored. -/
theorem walked_place {first rank rest start : Nat} (hlt : start + rank < 2 ^ 64) :
    sub64 (u64 (sub64 (u64 (first + rank + rest)) first + start)) rest = start + rank := by
  have hsum : first + rank + rest = rank + rest + first := by omega
  have hmove : u64 (u64 (rank + rest) + start) = u64 (start + rank + rest) := by
    unfold u64
    omega
  rw [hsum, sub64_u64_add, hmove, sub64_u64_add, u64_of_lt hlt]

/-- A block of a region gets data. -/
def Fills (n : FileNode) (index : Nat) (data : Buffer) (size : Nat) : Prop :=
  Covers n.sparse index ∧ ¬ isNullOrZero data size = true

/-- A stored block is dropped. -/
def Empties (bs : Nat) (noSparse : Bool) (n : FileNode) (index : Nat) (data : Buffer)
    (offset size : Nat) : Prop :=
  ¬ Covers n.sparse index ∧ Drops bs noSparse n index data offset size

instance (n : FileNode) (index : Nat) (data : Buffer) (size : Nat) :
    Decidable (Fills n index data size) :=
  inferInstanceAs (Decidable (_ ∧ _))

instance (bs : Nat) (noSparse : Bool) (n : FileNode) (index : Nat) (data : Buffer)
    (offset size : Nat) : Decidable (Empties bs noSparse n index data offset size) :=
  inferInstanceAs (Decidable (_ ∧ _))

/-- Why writing to a block of file `i` has failed, and what is left of the others: there is no
room to move the file, or none for another block. -/
def BlockFails (bs count : Nat) (view : σ → Bytes) (i index : Nat) (n : FileNode)
    (fills empties : Prop) (fs fs' : Fstree σ) : Prop :=
  ((fills ∨ empties) ∧ ¬ Movable bs count fs.dataOffset n ∧
      FilesKept bs count view (· ≠ i) fs fs') ∨
    (fills ∧ Movable bs count fs.dataOffset n ∧ fs.dataOffset = count ∧
      (rank n.sparse index + 2 ≤ n.stored bs →
        Torn bs count view i n (lastBlock bs (view fs.volume) n) fs fs') ∧
      (¬ rank n.sparse index + 2 ≤ n.stored bs → FilesKept bs count view (· ≠ i) fs fs'))

/-- A block of a region that gets data is put into the file first. -/
theorem fillBlock_written (hb : Backing vol count view) (h : Housed vol.blocksize count fs)
    (hn : fs.files[i]? = some n) (hblocks : n.blocks vol.blocksize < 2 ^ 32)
    (hindex : index < n.blocks vol.blocksize) (hfit : e + k ≤ vol.blocksize)
    (hold : data.Holds k) (hfills : Fills n index data k)
    (hback : AtBack vol.blocksize count view i start n fs fs₁) :
    Call.Returns ((do
        insertSparseBlock vol i (start + rank n.sparse index) index
        writeStored vol i (start + rank n.sparse index) index data e k :
          Call (Fstree σ) Unit) fs₁)
      (fun _ fs' => Written vol.blocksize count view i n (index * vol.blocksize + e)
          (data.bytes k) fs fs' ∧
        ∃ m, BlockDone vol.blocksize count view i index 1 0 n m fs fs')
      (BlockFails vol.blocksize count view i index n True False fs) := by
  have hbs := hb.store.blocksize_pos
  have hvalid := h.laidOut.valid_at hn
  obtain ⟨hcover, hdata⟩ := hfills
  have hfits := hback.housed.fits
  have hoffset := hback.dataOffset
  have hrank : rank n.sparse index ≤ n.stored vol.blocksize := by
    rw [hvalid.stored_eq]
    exact rank_mono (Nat.le_of_lt hindex)
  rw [Call.bind_apply]
  by_cases hroom : fs₁.dataOffset < count
  swap
  · apply Call.Returns.bind (R := fun _ _ => False)
    · apply (insertSparseBlock_full hb hback hrank (by omega)).mono
      · intro _ _ hnever
        exact hnever
      · intro _ hfail
        exact Or.inr ⟨trivial, hback.movable, by omega, hfail.1, hfail.2⟩
    · intro _ _ hnever
      exact hnever.elim
  obtain ⟨v, hok, hview⟩ := insertSparseBlock_ok hb hback hrank hroom
  have hput := hback.putIn hbs hb.blocksize_lt hvalid hblocks hcover hroom hb.count_lt hview
  have hdone := hback.putIn_done hvalid hblocks hcover hroom hview
  have hremoved := markNotSparse_removed hblocks hvalid.within hcover
  have hfree : ¬ Covers (markNotSparse n.sparse index) index := by
    rw [hremoved.covers]
    exact fun hin => hin.2 rfl
  have hplace := rank_removed (b := index) hcover hremoved
  rw [if_neg (Nat.lt_irrefl index), Nat.add_zero] at hplace
  have hstored := writeStored_written hb hput.housed hput.node hblocks hindex hfree hfit hold
  rw [hplace] at hstored
  rw [hok, Outcome.bind_ok]
  apply hstored.mono
  · intro _ fs₃ hwritten
    obtain ⟨hwritten, m, hblock⟩ := hwritten
    rw [if_neg fun hdrops => hdata hdrops.2.2.2] at hblock
    refine ⟨(hput.written hbs _).trans ?_, m, hdone.write hblock⟩
    intro m' hm' _
    rw [hput.node, Option.some.injEq] at hm'
    subst hm'
    exact hwritten
  · intro _ hfail
    exact absurd hfail.2.2.2.2.2 hdata

theorem writePartialBlock_written (hb : Backing vol count view)
    (h : Housed vol.blocksize count fs) (hn : fs.files[i]? = some n)
    (hblocks : n.blocks vol.blocksize < 2 ^ 32) (hindex : index < n.blocks vol.blocksize)
    (hfit : e + k ≤ vol.blocksize) (hold : data.Holds k) :
    Call.Returns (writePartialBlock vol i index data e k fs)
      (fun _ fs' => Written vol.blocksize count view i n (index * vol.blocksize + e)
          (data.bytes k) fs fs' ∧
        ∃ m, BlockDone vol.blocksize count view i index
          (if Fills n index data k then 1 else 0)
          (if Empties vol.blocksize fs.noSparse n index data e k then 1 else 0) n m fs fs')
      (BlockFails vol.blocksize count view i index n (Fills n index data k)
        (Empties vol.blocksize fs.noSparse n index data e k) fs) := by
  have hbs := hb.store.blocksize_pos
  have hvalid := h.laidOut.valid_at hn
  have htop := h.laidOut.top_lt
  have hrank := rank_le n.sparse index
  have hsum : n.startIndex + index =
      n.startIndex + rank n.sparse index + (index - rank n.sparse index) := by omega
  unfold writePartialBlock
  rw [Call.bind_apply, file_eq hn, Outcome.bind_ok, hsum]
  by_cases hcover : Covers n.sparse index
  · have hkeeps : ¬ Empties vol.blocksize fs.noSparse n index data e k :=
      fun hempties => hempties.1 hcover
    obtain ⟨it, -, hfound⟩ := locate_sparse (y := n.startIndex + rank n.sparse index)
      hvalid.within hcover
    rw [hfound, if_neg hkeeps]
    change Call.Returns ((if isNullOrZero data k then pure () else _ : Call (Fstree σ) Unit) fs) _ _
    rw [Call.ite_apply]
    split
    · rename_i hzero
      rw [bytes_of_isNullOrZero hzero hold, if_neg fun hfills => hfills.2 hzero]
      exact ⟨written_sparse h hbs hn hcover hfit, n, blockDone_none hn⟩
    · rename_i hdata
      have hfills : Fills n index data k := ⟨hcover, hdata⟩
      apply Call.Returns.bind ((fileMoveToEnd_atBack hb h hn).mono (fun _ _ hback => hback)
        fun _ hkept => Or.inl ⟨Or.inl hfills, hkept.2, hkept.1.mono fun _ _ => trivial⟩)
      rintro _ fs₁ ⟨start, hback⟩
      have hstop := hback.stop
      have hlast := hback.housed.laidOut.top_lt
      have hbefore : rank n.sparse index ≤ n.stored vol.blocksize := by
        rw [hvalid.stored_eq]
        exact rank_mono (Nat.le_of_lt hindex)
      rw [Call.bind_apply, file_eq hback.node, Outcome.bind_ok]
      change Call.Returns ((insertSparseBlock vol i (sub64 (u64 (sub64 (u64 (n.startIndex +
        rank n.sparse index + (index - it.index))) n.startIndex + start)) (index - it.index))
          index >>= fun _ => _) fs₁) _ _
      rw [walked_place (by omega), if_pos hfills]
      apply (fillBlock_written hb h hn hblocks hindex hfit hold hfills hback).mono
      · intro _ _ hdone
        exact hdone
      · intro _ hfail
        apply hfail.imp
        · intro hmove
          exact ⟨Or.inl hfills, hmove.2⟩
        · intro hfull
          exact ⟨hfills, hfull.2⟩
  · have hlt := h.block_lt hn hcover hindex
    rw [locate_stored hvalid.within hcover, u64_of_lt (by omega),
      if_neg fun hfills => hcover hfills.1]
    have hiff : Empties vol.blocksize fs.noSparse n index data e k ↔
        Drops vol.blocksize fs.noSparse n index data e k := and_iff_right hcover
    simp only [hiff]
    apply (writeStored_written hb h hn hblocks hindex hcover hfit hold).mono
    · intro _ _ hdone
      exact hdone
    · intro _ hfail
      exact Or.inl ⟨Or.inr hfail.2.2, hfail.2.1, hfail.1⟩

end Operations

end ImageTool.Fstree
