import ImageTool.Lib.FirstFull
import ImageTool.Fstree.WriteContent

/-!
# Writing to all blocks of a range

`fstree_file_write` goes through the blocks of a range and stores those of a region that get
data, each one block more, and drops stored ones that become zeros, each one block less.  So
the first block that finds the data area full can be told from the request and the regions of
the file, and with it what a write that fails leaves of the other files.
-/

namespace ImageTool.Fstree

open ImageTool.Lib ImageTool.Image ImageTool.Util

variable {σ : Type}

/-! ## The part of a request in one block -/

/-- Where the part of a request at byte `offset` that lies in block `x` starts. -/
def pieceStart (bs offset x : Nat) : Nat := max offset (x * bs)

/-- How many of its `size` bytes that are. -/
def pieceSize (bs offset size x : Nat) : Nat :=
  min (offset + size) ((x + 1) * bs) - pieceStart bs offset x

/-- The data of that part. -/
def pieceData (bs offset : Nat) (data : Buffer) (x : Nat) : Buffer :=
  data.advance (pieceStart bs offset x - offset)

/-- The request puts data into block `x`, which is in a region of the file. -/
def Grows (bs : Nat) (covers : Nat → Prop) (offset : Nat) (data : Buffer) (size x : Nat) :
    Prop :=
  0 < pieceSize bs offset size x ∧ covers x ∧
    ¬ isNullOrZero (pieceData bs offset data x) (pieceSize bs offset size x) = true

/-- The request makes block `x`, which is stored, one of zeros that is dropped. -/
def Shrinks (bs : Nat) (noSparse : Bool) (covers : Nat → Prop) (total offset : Nat)
    (data : Buffer) (size x : Nat) : Prop :=
  0 < pieceSize bs offset size x ∧ ¬ covers x ∧
    noSparse = false ∧ pieceStart bs offset x = x * bs ∧
    (pieceSize bs offset size x = bs ∨
      x = total / bs ∧ pieceSize bs offset size x = total % bs) ∧
    isNullOrZero (pieceData bs offset data x) (pieceSize bs offset size x) = true

section Decide

variable (bs : Nat) (noSparse : Bool) (covers : Nat → Prop) [DecidablePred covers]
variable (total offset : Nat) (data : Buffer) (size : Nat)

instance : DecidablePred (Grows bs covers offset data size) := fun _ =>
  inferInstanceAs (Decidable (_ ∧ _))

instance : DecidablePred (Shrinks bs noSparse covers total offset data size) := fun _ =>
  inferInstanceAs (Decidable (_ ∧ _))

/-- A write to a file of `total` bytes with `stored` blocks comes to a block it has no room
for, in front of two stored ones. -/
def Tears (count top stored : Nat) : Prop :=
  ∃ x, FirstFull (Grows bs covers offset data size)
      (Shrinks bs noSparse covers total offset data size) top count x ∧
    Nat.count (fun y => ¬ covers y) x + 2 ≤ stored

variable {bs noSparse covers total offset data} in
/-- An empty request has no part in any block. -/
theorem not_tears_zero {count top stored : Nat} :
    ¬ Tears bs noSparse covers total offset data 0 count top stored := by
  rintro ⟨x, hx, _⟩
  have hpos := hx.1.1
  unfold pieceSize pieceStart at hpos
  omega

end Decide

section Piece

variable {bs offset size b o d x : Nat} {data : Buffer}

theorem isNullOrZero_zero (data : Buffer) : isNullOrZero data 0 = true := by
  cases data with
  | none => rfl
  | some l => simp [isNullOrZero, isMemoryZero_eq]

theorem advance_zero (data : Buffer) : data.advance 0 = data := by
  cases data <;> simp [Buffer.advance]

theorem advance_advance (data : Buffer) (m n : Nat) :
    (data.advance m).advance n = data.advance (m + n) := by
  cases data with
  | none => rfl
  | some l => simp [Buffer.advance]

/-- In front of the request there is nothing of it. -/
theorem pieceSize_low (ho : o < bs) (hx : x < b) : pieceSize bs (b * bs + o) size x = 0 := by
  have hle := Nat.mul_le_mul_right bs hx
  rw [Nat.succ_mul] at hle
  unfold pieceSize pieceStart
  rw [Nat.succ_mul]
  omega

/-- The first part. -/
theorem piece_first (b : Nat) (data : Buffer) (ho : o < bs) (hd : 0 < d) (hle : d ≤ size) (hfit : o + d ≤ bs)
    (hnext : 0 < size - d → o + d = bs) :
    pieceStart bs (b * bs + o) b = b * bs + o ∧ pieceSize bs (b * bs + o) size b = d ∧
      pieceData bs (b * bs + o) data b = data := by
  have hstart : pieceStart bs (b * bs + o) b = b * bs + o := Nat.max_eq_left (by omega)
  refine ⟨hstart, ?_, ?_⟩
  · unfold pieceSize
    rw [hstart, Nat.succ_mul]
    omega
  · unfold pieceData
    rw [hstart, Nat.sub_self]
    cases data <;> rfl

/-- The parts behind it. -/
theorem piece_later (data : Buffer) (hfit : o + d = bs) (hle : d ≤ size) (hx : b < x) :
    pieceStart bs ((b + 1) * bs + 0) x = pieceStart bs (b * bs + o) x ∧
      pieceSize bs ((b + 1) * bs + 0) (size - d) x = pieceSize bs (b * bs + o) size x ∧
      pieceData bs ((b + 1) * bs + 0) (data.advance d) x =
        pieceData bs (b * bs + o) data x := by
  have hmul := Nat.mul_le_mul_right bs hx
  rw [Nat.succ_mul] at hmul
  have hstart : pieceStart bs ((b + 1) * bs + 0) x = pieceStart bs (b * bs + o) x := by
    unfold pieceStart
    rw [Nat.succ_mul]
    omega
  refine ⟨hstart, ?_, ?_⟩
  · unfold pieceSize
    rw [hstart, Nat.succ_mul]
    omega
  · unfold pieceData
    rw [hstart, advance_advance]
    congr 1
    unfold pieceStart
    rw [Nat.succ_mul]
    omega

end Piece

/-! ## One block of the range -/

section Block

variable {bs count i b o d size : Nat} {view : σ → Bytes} {fs fs₁ fs' : Fstree σ}
variable {n m : FileNode} {data : Buffer}

theorem grows_low {covers : Nat → Prop} (ho : o < bs) {x : Nat} (hx : x < b) :
    ¬ Grows bs covers (b * bs + o) data size x := by
  intro hg
  have hpos := hg.1
  rw [pieceSize_low ho hx] at hpos
  exact absurd hpos (Nat.lt_irrefl 0)

theorem shrinks_low {noSparse : Bool} {covers : Nat → Prop} {total : Nat} (ho : o < bs)
    {x : Nat} (hx : x < b) : ¬ Shrinks bs noSparse covers total (b * bs + o) data size x := by
  intro hg
  have hpos := hg.1
  rw [pieceSize_low ho hx] at hpos
  exact absurd hpos (Nat.lt_irrefl 0)

/-- The first block is in a region and gets data. -/
theorem grows_first (n : FileNode) (b : Nat) (data : Buffer) (ho : o < bs) (hd : 0 < d) (hle : d ≤ size) (hfit : o + d ≤ bs)
    (hnext : 0 < size - d → o + d = bs) :
    Grows bs (Covers n.sparse) (b * bs + o) data size b ↔ Fills n b data d := by
  obtain ⟨_, hsize, hdata⟩ := piece_first b data ho hd hle hfit hnext
  unfold Grows Fills
  rw [hsize, hdata]
  exact and_iff_right hd

theorem shrinks_first (n : FileNode) (b : Nat) (data : Buffer) (noSparse : Bool) (ho : o < bs) (hd : 0 < d) (hle : d ≤ size)
    (hfit : o + d ≤ bs) (hnext : 0 < size - d → o + d = bs) :
    Shrinks bs noSparse (Covers n.sparse) n.size (b * bs + o) data size b ↔
      Empties bs noSparse n b data o d := by
  obtain ⟨hstart, hsize, hdata⟩ := piece_first b data ho hd hle hfit hnext
  have hzero : b * bs + o = b * bs ↔ o = 0 := by omega
  unfold Shrinks Empties Drops
  rw [hstart, hsize, hdata, hzero]
  exact and_iff_right hd

/-- The request tears the last block of file `i`. -/
def TearsFile (bs count : Nat) (fs : Fstree σ) (n : FileNode) (offset : Nat) (data : Buffer)
    (size : Nat) : Prop :=
  Movable bs count fs.dataOffset n ∧
    Tears bs fs.noSparse (Covers n.sparse) n.size offset data size count fs.dataOffset
      (n.stored bs)

/-- What is left of the other files by a write in place that fails. -/
def WriteFails (bs count : Nat) (view : σ → Bytes) (i : Nat) (n : FileNode) (offset : Nat)
    (data : Buffer) (size : Nat) (fs fs' : Fstree σ) : Prop :=
  (TearsFile bs count fs n offset data size →
      Torn bs count view i n (lastBlock bs (view fs.volume) n) fs fs') ∧
    (¬ TearsFile bs count fs n offset data size → FilesKept bs count view (· ≠ i) fs fs')

/-- The first block finds no room. -/
theorem BlockFails.writeFails (ho : o < bs) (hd : 0 < d) (hle : d ≤ size) (hfit : o + d ≤ bs)
    (hnext : 0 < size - d → o + d = bs)
    (h : BlockFails bs count view i b n (Fills n b data d)
      (Empties bs fs.noSparse n b data o d) fs fs') :
    WriteFails bs count view i n (b * bs + o) data size fs fs' := by
  rcases h with ⟨_, hstuck, hkept⟩ | ⟨hfill, hmovable, hfull, htorn, hkept⟩
  · exact ⟨fun htears => absurd htears.1 hstuck, fun _ => hkept⟩
  have hlow : ∀ y < b, ¬ Grows bs (Covers n.sparse) (b * bs + o) data size y ∧
      ¬ Shrinks bs fs.noSparse (Covers n.sparse) n.size (b * bs + o) data size y :=
    fun y hy => ⟨grows_low ho hy, shrinks_low ho hy⟩
  have hhere := fun x => firstFull_here (x := x) hlow
    ((grows_first n b data ho hd hle hfit hnext).2 hfill) (show count ≤ fs.dataOffset by omega)
  have htears : TearsFile bs count fs n (b * bs + o) data size ↔
      rank n.sparse b + 2 ≤ n.stored bs := by
    unfold TearsFile Tears
    simp only [hhere, exists_eq_left, and_iff_right hmovable]
    exact Iff.rfl
  unfold WriteFails
  rw [htears]
  exact ⟨htorn, hkept⟩

namespace BlockDone

variable {added removed : Nat}

/-- The rest of the request comes to the same block. -/
theorem tears_iff (h : BlockDone bs count view i b added removed n m fs fs₁) (hbs : 0 < bs)
    (ho : o < bs) (hd : 0 < d) (hlt : d < size) (hfit : o + d = bs)
    (hadded : added = if Fills n b data d then 1 else 0)
    (hremoved : removed = if Empties bs fs.noSparse n b data o d then 1 else 0) :
    TearsFile bs count fs₁ m ((b + 1) * bs + 0) (data.advance d) (size - d) ↔
      TearsFile bs count fs n (b * bs + o) data size := by
  have hle := Nat.le_of_lt hlt
  have hgrow := grows_first n b data ho hd hle (by omega)
    fun _ => hfit
  have hshrink := shrinks_first n b data fs.noSparse ho hd hle
    (by omega) fun _ => hfit
  have hcovers : ∀ y, b < y → (Covers m.sparse y ↔ Covers n.sparse y) := by
    intro y hy
    have hne : y ≠ b := by omega
    rw [h.covers]
    simp [hne]
  have hgrows : ∀ y, Grows bs (Covers m.sparse) ((b + 1) * bs + 0) (data.advance d)
      (size - d) y ↔ y ≠ b ∧ Grows bs (Covers n.sparse) (b * bs + o) data size y := by
    intro y
    by_cases hy : b < y
    · obtain ⟨_, hsize, hdata⟩ := piece_later data hfit hle hy
      unfold Grows
      rw [hsize, hdata, hcovers y hy]
      exact (and_iff_right (by omega)).symm
    · apply iff_of_false (grows_low hbs (by omega))
      intro hg
      exact grows_low ho (by omega) hg.2
  have hshrinks : ∀ y, Shrinks bs fs₁.noSparse (Covers m.sparse) m.size ((b + 1) * bs + 0)
      (data.advance d) (size - d) y ↔
        y ≠ b ∧ Shrinks bs fs.noSparse (Covers n.sparse) n.size (b * bs + o) data size y := by
    intro y
    by_cases hy : b < y
    · obtain ⟨hstart, hsize, hdata⟩ := piece_later data hfit hle hy
      unfold Shrinks
      rw [hstart, hsize, hdata, hcovers y hy, h.noSparse, h.size]
      exact (and_iff_right (by omega)).symm
    · apply iff_of_false (shrinks_low hbs (by omega))
      intro hg
      exact shrinks_low ho (by omega) hg.2
  have hroom : Grows bs (Covers n.sparse) (b * bs + o) data size b →
      fs.dataOffset < count := by
    intro hg
    apply h.room
    rw [hadded, if_pos (hgrow.1 hg)]
    exact Nat.one_pos
  have hfirst := fun x => firstFull_next (x := x) hgrows hshrinks
    (fun y hy => ⟨grows_low ho hy, shrinks_low ho hy⟩)
    (by simp only [hadded, hgrow]) (by simp only [hremoved, hshrink]) h.dataOffset hroom
  unfold TearsFile Tears
  rw [h.movable_iff]
  apply and_congr_right
  intro _
  apply exists_congr
  intro x
  rw [hfirst x]
  apply and_congr_right
  intro hx
  have hbx : b < x := by
    by_contra hge
    exact grows_low hbs (show x < b + 1 by omega) hx.1
  have hrank := h.rank_eq hbx
  have hstored := h.stored
  change rank m.sparse x + 2 ≤ _ ↔ rank n.sparse x + 2 ≤ _
  omega

end BlockDone

/-- What a later step does to the others is done to the files as they were. -/
theorem Torn.trans {last last₁ : Nat → UInt8} (hclosed : SameClosed bs i n m fs fs₁)
    (hkept : FilesKept bs count view (· ≠ i) fs fs₁) (hlast : ∀ o < bs, last₁ o = last o)
    (h : Torn bs count view i m last₁ fs₁ fs') : Torn bs count view i n last fs fs' := by
  refine ⟨h.length.trans hkept.length, ?_⟩
  intro j k hji hk
  obtain ⟨start₁, hk₁, _, hdata₁⟩ := hkept.node j k hji hk
  obtain ⟨start, hk', hplaced, hstart, hdata⟩ := h.node j _ hji hk₁
  refine ⟨start, hk', hplaced, ?_, ?_⟩
  · intro hpos
    obtain ⟨start₂, hk₂, hsame⟩ := hclosed j k hji hk hpos
    rw [hk₁, Option.some.injEq] at hk₂
    rw [hstart hpos, hk₂, hsame]
  · intro q hq
    rw [hdata q hq]
    split
    · rename_i hlow
      exact hlast _ hlow
    · exact hdata₁ q hq

/-- A later block finds no room. -/
theorem WriteFails.trans {added removed : Nat}
    (h : BlockDone bs count view i b added removed n m fs fs₁) (hbs : 0 < bs)
    (ho : o < bs) (hd : 0 < d) (hlt : d < size) (hfit : o + d = bs)
    (hadded : added = if Fills n b data d then 1 else 0)
    (hremoved : removed = if Empties bs fs.noSparse n b data o d then 1 else 0)
    (hkept : FilesKept bs count view (· ≠ i) fs fs₁)
    (h' : WriteFails bs count view i m ((b + 1) * bs + 0) (data.advance d) (size - d) fs₁ fs') :
    WriteFails bs count view i n (b * bs + o) data size fs fs' := by
  have hiff := h.tears_iff hbs ho hd hlt hfit hadded hremoved
  obtain ⟨htorn, hrest⟩ := h'
  constructor
  · intro htears
    have htears' := hiff.2 htears
    have hfirst := htears'.2
    obtain ⟨x, hx, hrank⟩ := hfirst
    have hbx : b < x := by
      by_contra hge
      exact grows_low hbs (show x < b + 1 by omega) hx.1
    have hmono : rank m.sparse (b + 1) ≤ rank m.sparse x := rank_mono hbx
    have hnext := h.rank_eq (show b < b + 1 by omega)
    have hstored := h.stored
    change rank m.sparse x + 2 ≤ _ at hrank
    exact (htorn htears').trans h.closed hkept (h.last (by omega))
  · intro hnot
    exact hkept.trans (hrest fun htears => hnot (hiff.1 htears))

end Block

/-! ## All blocks of a range -/

section Loop

variable {vol : Volume σ} {count i : Nat} {view : σ → Bytes} {fs : Fstree σ} {n : FileNode}

theorem fileWriteLoop_zero (vol : Volume σ) (i fuel blkIndex : Nat) (data : Buffer)
    (blkOffset : Nat) (fs : Fstree σ) :
    fileWriteLoop vol i fuel blkIndex data blkOffset 0 fs = .ok () fs := by
  cases fuel <;> rfl

/-- The bytes arrive, or what is left of the others is known. -/
theorem fileWriteLoop_written (hb : Backing vol count view)
    (fuel blkIndex : Nat) (data : Buffer) (blkOffset k : Nat) (h : Housed vol.blocksize count fs)
    (hn : fs.files[i]? = some n)
    (hblocks : n.blocks vol.blocksize < 2 ^ 32) (hoff : blkOffset < vol.blocksize)
    (hin : blkIndex * vol.blocksize + blkOffset + k ≤ n.size) (hold : data.Holds k) :
    Call.Returns (fileWriteLoop vol i fuel blkIndex data blkOffset k fs)
      (fun _ => Written vol.blocksize count view i n (blkIndex * vol.blocksize + blkOffset)
        (data.bytes k) fs)
      (WriteFails vol.blocksize count view i n (blkIndex * vol.blocksize + blkOffset) data k
        fs) := by
  have hbs := hb.store.blocksize_pos
  induction fuel generalizing fs n blkIndex data blkOffset k with
  | zero =>
      unfold fileWriteLoop
      split
      · rename_i hzero
        rw [hzero, Buffer.bytes_zero]
        exact written_nil h hn _
      · trivial
  | succ fuel ih =>
      unfold fileWriteLoop
      by_cases hzero : k = 0
      · rw [if_pos hzero, hzero, Buffer.bytes_zero]
        exact written_nil h hn _
      rw [if_neg hzero]
      generalize hdiff : (if vol.blocksize - blkOffset > k then k
        else vol.blocksize - blkOffset) = diff
      have hle : diff ≤ k ∧ blkOffset + diff ≤ vol.blocksize ∧
          (0 < k - diff → blkOffset + diff = vol.blocksize) := by
        rw [← hdiff]
        split <;> omega
      obtain ⟨hk, hfit, hnext⟩ := hle
      have hsplit : diff + (k - diff) = k := Nat.add_sub_cancel' hk
      have hindex : blkIndex < n.blocks vol.blocksize := (lt_blockCount_iff hbs).2 (by omega)
      have hhold : data.Holds diff := hold.mono hk
      have hlen := Buffer.length_bytes hhold
      have hdpos : 0 < diff := by
        rw [← hdiff]
        split <;> omega
      apply Call.Returns.bind
        ((writePartialBlock_written hb h hn hblocks hindex hfit hhold).mono (fun _ _ hdone => hdone)
          fun _ hfail => hfail.writeFails hoff hdpos hk hfit hnext)
      rintro _ fs₁ ⟨hwritten, m, hdone⟩
      by_cases hrest : k - diff = 0
      · obtain rfl : diff = k := by omega
        rw [hrest, fileWriteLoop_zero]
        exact hwritten
      have hm := hdone.node
      have hmsize := hdone.size
      have hmblocks : m.blocks vol.blocksize < 2 ^ 32 := by
        unfold FileNode.blocks at hblocks ⊢
        rw [hmsize]
        exact hblocks
      have hfull := hnext (Nat.pos_of_ne_zero hrest)
      have hplace : (blkIndex + 1) * vol.blocksize + 0 =
          blkIndex * vol.blocksize + blkOffset + diff := by
        rw [Nat.succ_mul]
        omega
      have hlater := ih (blkIndex + 1) (data.advance diff) 0 (k - diff) hwritten.housed hm
        hmblocks hbs (by omega) (Buffer.Holds.advance (by rw [hsplit]; exact hold))
      rw [u64_of_lt (by omega)]
      apply hlater.mono
      · intro _ fs₂ hwritten₂
        rw [hplace] at hwritten₂
        have hall : Written vol.blocksize count view i n
            (blkIndex * vol.blocksize + blkOffset)
            (data.bytes diff ++ (data.advance diff).bytes (k - diff)) fs fs₂ := by
          apply hwritten.trans
          intro m' hm' _
          rw [hm, Option.some.injEq] at hm'
          subst hm'
          rw [hlen]
          exact hwritten₂
        rwa [Buffer.bytes_append_advance, hsplit] at hall
      · intro _ hfail
        exact hfail.trans hdone hbs hoff hdpos (by omega) hfull rfl rfl hwritten.others

end Loop

end ImageTool.Fstree
