import ImageTool.Fstree.WriteLoop

/-!
# The blocks an append takes

`fstree_file_append` takes a block for each part of the request that it does not leave out as
zeros, and one more where the last block of the file is, or follows, one of a region and gets
data.  Their number says whether the data area has room for them, and the last of them is the
last block of the file afterwards.
-/

namespace ImageTool.Fstree

open ImageTool.Lib ImageTool.Image ImageTool.Util

variable {σ : Type}

instance (rs : List Region) (b : Nat) : Decidable (EndsAt rs b) :=
  inferInstanceAs (Decidable (∃ r ∈ rs, r.index + r.count = b))

/-- How many of `size` bytes behind a file go into its last block. -/
def headSize (bs : Nat) (n : FileNode) (size : Nat) : Nat := min (bs - n.size % bs) size

/-- The last block of a file gets data and is stored anew: it is one of a region, or the first
block behind a region. -/
def TakesTail (bs : Nat) (n : FileNode) (data : Buffer) (size : Nat) : Prop :=
  0 < n.size % bs ∧ (Covers n.sparse (n.size / bs) ∨ EndsAt n.sparse (n.size / bs)) ∧
    ¬ isNullOrZero data (headSize bs n size) = true

/-- The block that its region loses then. -/
def takenBlock (bs : Nat) (n : FileNode) : Nat :=
  if EndsAt n.sparse (n.size / bs) then n.size / bs - 1 else n.size / bs

/-- Block `x` starts behind the file and is stored. -/
def Fresh (bs : Nat) (noSparse : Bool) (n : FileNode) (data : Buffer) (size x : Nat) : Prop :=
  n.size ≤ x * bs ∧ 0 < pieceSize bs n.size size x ∧
    ¬ (noSparse = false ∧
      isNullOrZero (pieceData bs n.size data x) (pieceSize bs n.size size x) = true)

instance (bs : Nat) (n : FileNode) (data : Buffer) (size : Nat) :
    Decidable (TakesTail bs n data size) :=
  inferInstanceAs (Decidable (_ ∧ _))

instance (bs : Nat) (noSparse : Bool) (n : FileNode) (data : Buffer) (size : Nat) :
    DecidablePred (Fresh bs noSparse n data size) := fun _ =>
  inferInstanceAs (Decidable (_ ∧ _))

/-- The blocks that an append of `size` bytes takes. -/
def addedBlocks (bs : Nat) (noSparse : Bool) (n : FileNode) (data : Buffer) (size : Nat) : Nat :=
  (if TakesTail bs n data size then 1 else 0) +
    Nat.count (Fresh bs noSparse n data size) (blockCount (n.size + size) bs)

/-- Byte `o` of the last block of a file after the last block it had has been filled up: a
block that is stored anew keeps what was behind the data area, unless the move of the file has
left zeros there. -/
def tailByte (bs : Nat) (view : Bytes) (top : Nat) (n : FileNode) (data : Buffer)
    (size o : Nat) : UInt8 :=
  let head := data.bytes (headSize bs n size)
  let last := (n.startIndex + n.stored bs - 1) * bs
  if TakesTail bs n data size then
    Bytes.splice
      (fun p => if 0 < n.stored bs ∧ n.startIndex + n.stored bs < top then 0 else view p)
      (top * bs) (List.replicate (n.size % bs) 0 ++ head) (top * bs + o)
  else if 0 < n.size % bs ∧ ¬ Covers n.sparse (n.size / bs) ∧
      ¬ EndsAt n.sparse (n.size / bs) then
    view.splice (last + n.size % bs) head (last + o)
  else lastBlock bs view n o

/-- Byte `o` of the last block of a file after an append of `size` bytes. -/
def lastByte (bs : Nat) (noSparse : Bool) (view : Bytes) (top : Nat) (n : FileNode)
    (data : Buffer) (size o : Nat) : UInt8 :=
  let x := Nat.findGreatest (Fresh bs noSparse n data size) (blockCount (n.size + size) bs)
  if Fresh bs noSparse n data size x then
    ((pieceData bs n.size data x).bytes (pieceSize bs n.size size x)).getD o 0
  else tailByte bs view top n data size o

section Fresh

variable {bs top size d x o : Nat} {noSparse : Bool} {view : Bytes} {n m : FileNode}
variable {data : Buffer}

theorem Fresh.lt (hbs : 0 < bs) (h : Fresh bs noSparse n data size x) :
    x < blockCount (n.size + size) bs := by
  have hpos := h.2.1
  unfold pieceSize pieceStart at hpos
  rw [lt_blockCount_iff hbs]
  omega

/-- The greatest of the blocks taken behind the file. -/
theorem exists_last_fresh (hbs : 0 < bs) (h : Fresh bs noSparse n data size x) :
    ∃ y, Fresh bs noSparse n data size y ∧
      ∀ z, y < z → ¬ Fresh bs noSparse n data size z := by
  refine ⟨_, Nat.findGreatest_spec (Nat.le_of_lt (h.lt hbs)) h, ?_⟩
  intro z hlt hz
  exact Nat.findGreatest_is_greatest hlt (Nat.le_of_lt (hz.lt hbs)) hz

theorem lastByte_fresh (hbs : 0 < bs) (hx : Fresh bs noSparse n data size x)
    (hmax : ∀ y, x < y → ¬ Fresh bs noSparse n data size y) :
    lastByte bs noSparse view top n data size o =
      ((pieceData bs n.size data x).bytes (pieceSize bs n.size size x)).getD o 0 := by
  have hgreatest : Nat.findGreatest (Fresh bs noSparse n data size)
      (blockCount (n.size + size) bs) = x :=
    Nat.findGreatest_eq_iff.2 ⟨Nat.le_of_lt (hx.lt hbs), fun _ => hx, fun y hy _ => hmax y hy⟩
  unfold lastByte
  rw [hgreatest]
  exact if_pos hx

theorem lastByte_tail (hnone : ∀ x, ¬ Fresh bs noSparse n data size x) :
    lastByte bs noSparse view top n data size o = tailByte bs view top n data size o :=
  if_neg (hnone _)

/-! ### One round -/

/-- A round that fills up the last block takes no other. -/
theorem not_fresh_of_tail (htail : 0 < n.size % bs) (hfit : n.size % bs + d ≤ bs) (x : Nat) :
    ¬ Fresh bs noSparse n data d x := by
  intro hx
  have hsize := size_eq bs n
  have hpos := hx.2.1
  have hge := hx.1
  have hlt : n.size / bs < x := by
    by_contra hle
    have := Nat.mul_le_mul_right bs (Nat.le_of_not_lt hle)
    omega
  have hle := Nat.mul_le_mul_right bs hlt
  rw [Nat.succ_mul] at hle
  unfold pieceSize pieceStart at hpos
  omega

/-- A round behind a file of full blocks is about the next one. -/
theorem fresh_iff_of_full (noSparse : Bool) (data : Buffer) (hbs : 0 < bs) (hfull : n.size % bs = 0) (hpos : 0 < d) (hd : d ≤ bs) :
    Fresh bs noSparse n data d x ↔
      x = n.size / bs ∧ ¬ (noSparse = false ∧ isNullOrZero data d = true) := by
  have hsize := size_eq bs n
  rw [hfull, Nat.add_zero] at hsize
  have hfirst := piece_first (o := 0) (n.size / bs) data hbs hpos
    (Nat.le_refl d) (by omega) (by omega)
  rw [Nat.add_zero, ← hsize] at hfirst
  obtain ⟨_, hpiece, hdata⟩ := hfirst
  constructor
  · intro hx
    have hge := hx.1
    have hlt := hx.lt hbs
    rw [(blockCount_next hfull hpos hd).2] at hlt
    have hle : n.size / bs ≤ x := by
      by_contra hout
      have := Nat.mul_le_mul_right bs (Nat.lt_of_not_le hout)
      rw [Nat.succ_mul] at this
      omega
    obtain rfl : x = n.size / bs := by omega
    have hkept := hx.2.2
    rw [hpiece, hdata] at hkept
    exact ⟨rfl, hkept⟩
  · rintro ⟨rfl, hkept⟩
    unfold Fresh
    rw [hpiece, hdata]
    exact ⟨Nat.le_of_eq hsize, hpos, hkept⟩

theorem headSize_of_fit (hfit : n.size % bs + d ≤ bs) : headSize bs n d = d := by
  unfold headSize
  omega

theorem addedBlocks_of_tail (noSparse : Bool) (data : Buffer) (htail : 0 < n.size % bs) (hfit : n.size % bs + d ≤ bs) :
    addedBlocks bs noSparse n data d = if TakesTail bs n data d then 1 else 0 := by
  unfold addedBlocks
  rw [count_low fun x _ => not_fresh_of_tail htail hfit x, Nat.add_zero]

theorem not_takesTail_of_full (hfull : n.size % bs = 0) : ¬ TakesTail bs n data size := by
  intro htakes
  have := htakes.1
  omega

theorem addedBlocks_of_full (hbs : 0 < bs) (hfull : n.size % bs = 0) (hpos : 0 < d)
    (hd : d ≤ bs) : addedBlocks bs noSparse n data d =
      if noSparse = false ∧ isNullOrZero data d = true then 0 else 1 := by
  have hiff := fun x => fresh_iff_of_full (x := x) noSparse data hbs
    hfull hpos hd
  unfold addedBlocks
  rw [if_neg (not_takesTail_of_full hfull), Nat.zero_add, (blockCount_next hfull hpos hd).2,
    Nat.count_succ, count_low fun x hx hfresh => Nat.ne_of_lt hx ((hiff x).1 hfresh).1,
    Nat.zero_add]
  simp only [hiff, true_and, ite_not]

/-! ### The rounds behind it -/

/-- The parts behind a round that ends in a full block. -/
theorem piece_rest (data : Buffer) (hm : m.size = n.size + d) (hd : d ≤ size) (hx : m.size ≤ x * bs) :
    pieceSize bs n.size size x = pieceSize bs m.size (size - d) x ∧
      pieceData bs n.size data x = pieceData bs m.size (data.advance d) x := by
  have hstart : pieceStart bs n.size x = x * bs := Nat.max_eq_right (by omega)
  have hstart' : pieceStart bs m.size x = x * bs := Nat.max_eq_right hx
  constructor
  · unfold pieceSize
    rw [hstart, hstart', hm]
    congr 2
    omega
  · unfold pieceData
    rw [hstart, hstart', advance_advance]
    congr 1
    omega

theorem fresh_split (noSparse : Bool) (data : Buffer) (hm : m.size = n.size + d) (hd : d ≤ size) (hfull : m.size % bs = 0)
    (x : Nat) : Fresh bs noSparse n data size x ↔
      Fresh bs noSparse n data d x ∨ Fresh bs noSparse m (data.advance d) (size - d) x := by
  have hsize := size_eq bs m
  rw [hfull, Nat.add_zero] at hsize
  by_cases hx : m.size ≤ x * bs
  · obtain ⟨hpiece, hdata⟩ := piece_rest data hm hd hx
    have hnone : ¬ Fresh bs noSparse n data d x := by
      intro hfresh
      have hpos := hfresh.2.1
      unfold pieceSize pieceStart at hpos
      omega
    rw [or_iff_right hnone]
    unfold Fresh
    rw [hpiece, hdata]
    apply and_congr_left
    intro _
    exact iff_of_true (by omega) hx
  · have hnone : ¬ Fresh bs noSparse m (data.advance d) (size - d) x := fun hfresh =>
      hx hfresh.1
    have hlt : x < m.size / bs := by
      by_contra hge
      have := Nat.mul_le_mul_right bs (Nat.le_of_not_lt hge)
      omega
    have hle : (x + 1) * bs ≤ m.size / bs * bs := Nat.mul_le_mul_right bs hlt
    have hpiece : pieceSize bs n.size size x = pieceSize bs n.size d x := by
      unfold pieceSize
      omega
    rw [or_iff_left hnone]
    unfold Fresh
    rw [hpiece]

theorem addedBlocks_split (noSparse : Bool) (data : Buffer) (hbs : 0 < bs) (hm : m.size = n.size + d) (hd : d ≤ size)
    (hfull : m.size % bs = 0) (hhead : headSize bs n size = headSize bs n d) :
    addedBlocks bs noSparse n data size =
      addedBlocks bs noSparse n data d + addedBlocks bs noSparse m (data.advance d) (size - d) := by
  have hcount := count_or (fresh_split noSparse data hm hd hfull)
    (fun x hx hx' => by
      have hlt := hx.lt hbs
      rw [lt_blockCount_iff hbs] at hlt
      have hge := hx'.1
      omega) (blockCount (n.size + size) bs)
  have htakes : TakesTail bs n data size ↔ TakesTail bs n data d := by
    unfold TakesTail
    rw [hhead]
  have hfirst : Nat.count (Fresh bs noSparse n data d) (blockCount (n.size + size) bs) =
      Nat.count (Fresh bs noSparse n data d) (blockCount (n.size + d) bs) :=
    count_high (fun x hx => hx.lt hbs) (blockCount_mono hbs (by omega))
  unfold addedBlocks
  rw [hcount, hfirst, if_neg (not_takesTail_of_full hfull),
    show m.size + (size - d) = n.size + size by omega]
  simp only [htakes]
  omega

/-- The last block of the later rounds is the last one of all, if they take any. -/
theorem lastByte_split {view₁ : Bytes} {top₁ : Nat} (hbs : 0 < bs) (hm : m.size = n.size + d)
    (hd : d ≤ size) (hfull : m.size % bs = 0) (hhead : headSize bs n size = headSize bs n d)
    (hlast : (∀ x, ¬ Fresh bs noSparse m (data.advance d) (size - d) x) →
      lastBlock bs view₁ m o = lastByte bs noSparse view top n data d o) :
    lastByte bs noSparse view₁ top₁ m (data.advance d) (size - d) o =
      lastByte bs noSparse view top n data size o := by
  have hsplit := fresh_split noSparse data hm hd hfull
  have htakes : TakesTail bs n data size ↔ TakesTail bs n data d := by
    unfold TakesTail
    rw [hhead]
  by_cases hsome : ∃ x, Fresh bs noSparse m (data.advance d) (size - d) x
  · obtain ⟨x, hx⟩ := hsome
    obtain ⟨y, hy, hmax⟩ := exists_last_fresh hbs hx
    have hall : ∀ z, y < z → ¬ Fresh bs noSparse n data size z := by
      intro z hz hfresh
      rcases (hsplit z).1 hfresh with hfirst | hrest
      · have hlt := hfirst.lt hbs
        have hge := hy.1
        have hle := Nat.mul_le_mul_right bs (Nat.le_of_lt hz)
        rw [lt_blockCount_iff hbs] at hlt
        omega
      · exact hmax z hz hrest
    obtain ⟨hpiece, hdata⟩ := piece_rest data hm hd hy.1
    rw [lastByte_fresh hbs hy hmax, lastByte_fresh hbs ((hsplit y).2 (Or.inr hy)) hall, hpiece,
      hdata]
  · have hnone : ∀ x, ¬ Fresh bs noSparse m (data.advance d) (size - d) x := fun x hx =>
      hsome ⟨x, hx⟩
    have htail : tailByte bs view₁ top₁ m (data.advance d) (size - d) o =
        lastBlock bs view₁ m o := by
      unfold tailByte
      rw [if_neg (not_takesTail_of_full hfull), if_neg (by omega)]
    rw [lastByte_tail hnone, htail, hlast hnone]
    by_cases hfirst : ∃ x, Fresh bs noSparse n data d x
    · obtain ⟨x, hx⟩ := hfirst
      obtain ⟨y, hy, hmax⟩ := exists_last_fresh hbs hx
      have hlt := hy.lt hbs
      rw [lt_blockCount_iff hbs] at hlt
      have hall : ∀ z, y < z → ¬ Fresh bs noSparse n data size z := by
        intro z hz hfresh
        exact ((hsplit z).1 hfresh).elim (hmax z hz) (hnone z)
      have hnext := Nat.mul_le_mul_right bs (show y + 1 ≤ m.size / bs by
        by_contra hge
        have := Nat.mul_le_mul_right bs (show m.size / bs ≤ y by omega)
        have hsize := size_eq bs m
        omega)
      have hsize := size_eq bs m
      have hpiece : pieceSize bs n.size size y = pieceSize bs n.size d y := by
        unfold pieceSize
        omega
      rw [lastByte_fresh hbs hy hmax, lastByte_fresh hbs ((hsplit y).2 (Or.inl hy)) hall, hpiece]
    · have hfirst' : ∀ x, ¬ Fresh bs noSparse n data d x := fun x hx => hfirst ⟨x, hx⟩
      rw [lastByte_tail hfirst', lastByte_tail fun x hx =>
        ((hsplit x).1 hx).elim (hfirst' x) (hnone x)]
      unfold tailByte
      rw [hhead]
      simp only [htakes]

end Fresh

/-! ## What an append leaves -/

/-- An append has put `size` bytes of `data` behind file `i`, whose node is `m` now. -/
structure Lengthened (bs count : Nat) (view : σ → Bytes) (i : Nat) (n m : FileNode)
    (data : Buffer) (size : Nat) (fs fs' : Fstree σ) : Prop
    extends Accounted bs count i (addedBlocks bs fs.noSparse n data size) 0 n m fs fs' where
  size_eq : m.size = n.size + size
  covers : ∀ x < n.blocks bs, Covers m.sparse x ↔
    Covers n.sparse x ∧ ¬ (TakesTail bs n data size ∧ x = takenBlock bs n)
  last : 0 < m.stored bs → ∀ o < bs, lastBlock bs (view fs'.volume) m o =
    lastByte bs fs.noSparse (view fs.volume) fs.dataOffset n data size o

/-- There is room for an append: to move the file and for the blocks it takes. -/
def AppendFits (bs count : Nat) (fs : Fstree σ) (n : FileNode) (data : Buffer) (size : Nat) :
    Prop :=
  Movable bs count fs.dataOffset n ∧
    fs.dataOffset + addedBlocks bs fs.noSparse n data size ≤ count

section Lengthened

variable {bs count i d size start : Nat} {view : σ → Bytes} {fs fs₁ fs₂ : Fstree σ}
variable {n m k : FileNode} {data : Buffer} {rs : List Region}

theorem headSize_zero (bs : Nat) (n : FileNode) : headSize bs n 0 = 0 := Nat.min_zero _

/-- An empty append takes no block. -/
theorem not_takesTail_zero : ¬ TakesTail bs n data 0 := by
  intro htakes
  apply htakes.2.2
  rw [headSize_zero]
  exact isNullOrZero_zero data

theorem not_fresh_zero {noSparse : Bool} (x : Nat) : ¬ Fresh bs noSparse n data 0 x := by
  intro hx
  have hpos := hx.2.1
  unfold pieceSize pieceStart at hpos
  omega

theorem addedBlocks_zero (noSparse : Bool) : addedBlocks bs noSparse n data 0 = 0 := by
  unfold addedBlocks
  rw [if_neg not_takesTail_zero, count_low fun x _ => not_fresh_zero x]

theorem lastByte_zero {noSparse : Bool} {view : Bytes} {top o : Nat} :
    lastByte bs noSparse view top n data 0 o = lastBlock bs view n o := by
  rw [lastByte_tail not_fresh_zero]
  unfold tailByte lastBlock
  rw [if_neg not_takesTail_zero, headSize_zero, Buffer.bytes_zero, Bytes.splice_nil, ite_self]

theorem Lengthened.refl (hn : fs.files[i]? = some n) (data : Buffer) :
    Lengthened bs count view i n n data 0 fs fs := by
  refine ⟨?_, rfl, ?_, fun _ _ _ => lastByte_zero.symm⟩
  · rw [addedBlocks_zero]
    exact .same hn rfl rfl rfl rfl fun _ _ => rfl
  · intro x _
    rw [and_iff_left fun htaken => not_takesTail_zero htaken.1]

/-- More rounds behind a full block. -/
theorem Lengthened.trans (hbs : 0 < bs) (hd : d ≤ size) (hfull : m.size % bs = 0)
    (hhead : headSize bs n size = headSize bs n d)
    (h : Lengthened bs count view i n m data d fs fs₁)
    (h' : Lengthened bs count view i m k (data.advance d) (size - d) fs₁ fs₂) :
    Lengthened bs count view i n k data size fs fs₂ := by
  have hm := h.size_eq
  have hk := h'.size_eq
  have hsplit := addedBlocks_split fs.noSparse data hbs hm hd hfull hhead
  have haccounted := h.toAccounted.trans h'.toAccounted
  have hlater := h'.last
  have hstored := h'.stored
  rw [h.noSparse] at haccounted hlater hstored
  rw [← hsplit] at haccounted
  refine ⟨haccounted, by omega, ?_, ?_⟩
  · intro x hx
    have hle : n.blocks bs ≤ m.blocks bs := blockCount_mono hbs (by omega)
    have hnone : ¬ TakesTail bs m (data.advance d) (size - d) := not_takesTail_of_full hfull
    have htakes : TakesTail bs n data size ↔ TakesTail bs n data d := by
      unfold TakesTail
      rw [hhead]
    rw [h'.covers x (by omega), h.covers x hx, htakes]
    simp [hnone]
  · intro hpos o ho
    rw [hlater hpos o ho]
    apply lastByte_split hbs hm hd hfull hhead
    intro hnone
    have hzero : addedBlocks bs fs.noSparse m (data.advance d) (size - d) = 0 := by
      unfold addedBlocks
      rw [if_neg (not_takesTail_of_full hfull), count_low fun x _ => hnone x]
    exact h.last (by omega) o ho

/-- One round is done but for the size of the file. -/
def RoundDone (bs count : Nat) (view : σ → Bytes) (i : Nat) (n : FileNode) (data : Buffer)
    (d : Nat) (fs fs₁ : Fstree σ) : Prop :=
  ∃ m, fs₁.files[i]? = some m ∧ m.size = n.size ∧
    ∀ f : FileNode → FileNode, f m = { m with size := n.size + d } →
      Lengthened bs count view i n { m with size := n.size + d } data d fs
        { fs₁ with files := fs₁.files.modify i f }

/-- The file stores the same blocks. -/
theorem RoundDone.of_same (hnode : fs₁.files[i]? = some { n with sparse := rs })
    (hfiles : ∀ j, j ≠ i → fs₁.files[j]? = fs.files[j]?)
    (hoffset : fs₁.dataOffset = fs.dataOffset) (hno : fs₁.noSparse = fs.noSparse)
    (hadded : addedBlocks bs fs.noSparse n data d = 0)
    (hstored : FileNode.stored bs { n with size := n.size + d, sparse := rs } = n.stored bs)
    (hcovers : ∀ x < n.blocks bs, Covers rs x ↔
      Covers n.sparse x ∧ ¬ (TakesTail bs n data d ∧ x = takenBlock bs n))
    (hlast : ∀ o < bs, lastBlock bs (view fs₁.volume) n o =
      lastByte bs fs.noSparse (view fs.volume) fs.dataOffset n data d o) :
    RoundDone bs count view i n data d fs fs₁ := by
  refine ⟨_, hnode, rfl, ?_⟩
  intro f hf
  refine ⟨?_, rfl, hcovers, ?_⟩
  · rw [hadded]
    refine .same ((getElem?_modify_self hnode).trans (congrArg some hf)) rfl hstored hoffset hno ?_
    intro j hji
    exact (List.getElem?_modify_ne _ _ fun hij => hji hij.symm).trans (hfiles j hji)
  · intro _ o ho
    unfold lastBlock
    rw [hstored]
    exact hlast o ho

/-- The file lies behind all others and has got a block. -/
theorem RoundDone.of_end (hback : AtBack bs count view i start n fs fs₁)
    (hnode : fs₂.files[i]? = some { n with startIndex := start, sparse := rs })
    (hfiles : ∀ j, j ≠ i → fs₂.files[j]? = fs₁.files[j]?)
    (hoffset : fs₂.dataOffset = fs₁.dataOffset + 1) (hno : fs₂.noSparse = fs₁.noSparse)
    (hadded : addedBlocks bs fs.noSparse n data d = 1)
    (hstored : FileNode.stored bs ⟨n.size + d, start, rs⟩ = n.stored bs + 1)
    (hcovers : ∀ x < n.blocks bs, Covers rs x ↔
      Covers n.sparse x ∧ ¬ (TakesTail bs n data d ∧ x = takenBlock bs n))
    (hlast : ∀ o < bs, view fs₂.volume (fs₁.dataOffset * bs + o) =
      lastByte bs fs.noSparse (view fs.volume) fs.dataOffset n data d o) :
    RoundDone bs count view i n data d fs fs₂ := by
  have hstop := hback.stop
  refine ⟨_, hnode, rfl, ?_⟩
  intro f hf
  refine ⟨?_, rfl, hcovers, ?_⟩
  · rw [hadded]
    refine hback.accounted Nat.one_pos
      ((getElem?_modify_self hnode).trans (congrArg some hf)) rfl hstored hoffset hno ?_
    intro j hji
    exact (List.getElem?_modify_ne _ _ fun hij => hji hij.symm).trans (hfiles j hji)
  · intro _ o ho
    unfold lastBlock
    rw [hstored, ← hlast o ho, show start + (n.stored bs + 1) - 1 = fs₁.dataOffset by omega]

end Lengthened

section Round

variable {vol : Volume σ} {count i d : Nat} {view : σ → Bytes} {fs : Fstree σ}
variable {n : FileNode} {data : Buffer}

/-- The last byte behind data that fit into the tail is one of the tail. -/
theorem lastByte_of_tail {bs : Nat} (htail : 0 < n.size % bs) (hfit : n.size % bs + d ≤ bs)
    (noSparse : Bool) (f : Bytes) (top o : Nat) :
    lastByte bs noSparse f top n data d o = tailByte bs f top n data d o :=
  lastByte_tail (not_fresh_of_tail htail hfit)

/-- The address of a tail that is stored. -/
theorem findTail_stored (h : Housed vol.blocksize count fs) (hn : fs.files[i]? = some n)
    (htail : 0 < n.size % vol.blocksize)
    (hfound : (findTail (n.size / vol.blocksize)
      (u64 (n.startIndex + n.size / vol.blocksize)) n.sparse).2 = none)
    (hfree : ¬ Covers n.sparse (n.size / vol.blocksize)) :
    (findTail (n.size / vol.blocksize) (u64 (n.startIndex + n.size / vol.blocksize)) n.sparse).1 =
        n.startIndex + rank n.sparse (n.size / vol.blocksize) ∧
      n.startIndex + rank n.sparse (n.size / vol.blocksize) < count := by
  have hcount := blocks_of_tail htail
  have hwithin := (h.laidOut.valid_at hn).within
  rw [hcount] at hwithin
  have htotal := rank_add_total hwithin
  rw [rank_succ, if_pos hfree] at htotal
  have hsum : n.startIndex + n.size / vol.blocksize =
      n.startIndex + rank n.sparse (n.size / vol.blocksize) + total n.sparse := by omega
  have hlt := h.block_lt hn hfree (by rw [hcount]; exact Nat.lt_succ_self _)
  have htop := h.laidOut.top_lt
  have hfits := h.fits
  have haddr := (findTail_none hfound).2 (congrArg u64 hsum)
  rw [u64_of_lt (show n.startIndex + rank n.sparse (n.size / vol.blocksize) < 2 ^ 64 by
    omega)] at haddr
  exact ⟨haddr, by omega⟩

/-- Data are written into a tail that is stored. -/
theorem writeTail_round (hb : Backing vol count view) (h : Housed vol.blocksize count fs)
    (hn : fs.files[i]? = some n) (htail : 0 < n.size % vol.blocksize)
    (hfit : n.size % vol.blocksize + d ≤ vol.blocksize) (hold : data.Holds d)
    (hfree : ¬ Covers n.sparse (n.size / vol.blocksize))
    (hends : ¬ EndsAt n.sparse (n.size / vol.blocksize))
    (hlt : n.startIndex + rank n.sparse (n.size / vol.blocksize) < count) :
    Call.Returns
      (onVolume (vol.writePartialBlock (n.startIndex + rank n.sparse (n.size / vol.blocksize)) data
        (n.size % vol.blocksize) d) fs)
      (fun _ => RoundDone vol.blocksize count view i n data d fs)
      (fun _ => ¬ AppendFits vol.blocksize count fs n data d) := by
  have hnext : FileNode.blocks vol.blocksize ⟨n.size + d, n.startIndex, n.sparse⟩ =
      n.blocks vol.blocksize := blockCount_tail htail hfit
  have hstored : FileNode.stored vol.blocksize { n with size := n.size + d } =
      n.stored vol.blocksize := congrArg (· - total n.sparse) hnext
  have htakes : ¬ TakesTail vol.blocksize n data d := fun htakes => htakes.2.1.elim hfree hends
  have hrank := (h.laidOut.valid_at hn).stored_eq
  rw [blocks_of_tail htail, rank_succ, if_pos hfree] at hrank
  apply hb.returns_writePartialBlock hfit hold
  · intro _ v hview
    refine .of_same hn (fun _ _ => rfl) rfl rfl ?_ hstored ?_ ?_
    · rw [addedBlocks_of_tail fs.noSparse data htail hfit, if_neg htakes]
    · intro x _
      simp [htakes]
    · intro o _
      change lastBlock _ (view v) n o = _
      rw [lastByte_of_tail htail hfit]
      unfold tailByte lastBlock
      rw [if_neg htakes, if_pos ⟨htail, hfree, hends⟩, headSize_of_fit hfit, hview, hrank]
      rfl
  · intro hout
    omega

/-- Zeros behind a tail that is not stored are not written. -/
theorem skipTail_round {bs : Nat} (hn : fs.files[i]? = some n) (htail : 0 < n.size % bs)
    (hfit : n.size % bs + d ≤ bs)
    (hregion : Covers n.sparse (n.size / bs) ∨ EndsAt n.sparse (n.size / bs))
    (hzero : isNullOrZero data d = true) : RoundDone bs count view i n data d fs fs := by
  have hnext : FileNode.blocks bs ⟨n.size + d, n.startIndex, n.sparse⟩ = n.blocks bs :=
    blockCount_tail htail hfit
  have hstored : FileNode.stored bs { n with size := n.size + d } = n.stored bs :=
    congrArg (· - total n.sparse) hnext
  have htakes : ¬ TakesTail bs n data d := by
    intro htakes
    have hdata := htakes.2.2
    rw [headSize_of_fit hfit] at hdata
    exact hdata hzero
  refine .of_same hn (fun _ _ => rfl) rfl rfl ?_ hstored ?_ ?_
  · rw [addedBlocks_of_tail fs.noSparse data htail hfit, if_neg htakes]
  · intro x _
    simp [htakes]
  · intro o _
    rw [lastByte_of_tail htail hfit]
    unfold tailByte
    rw [if_neg htakes, if_neg fun hfree => hregion.elim hfree.2.1 hfree.2.2]

/-- A tail that is not stored gets the block behind the file, which has been moved to the end. -/
theorem takeTail_round {bs start k : Nat} {fs₁ : Fstree σ} {v : σ} {sparse : List Region}
    (hvalid : n.Valid bs) (hback : AtBack bs count view i start n fs fs₁)
    (htail : 0 < n.size % bs) (hfit : n.size % bs + d ≤ bs) (htakes : TakesTail bs n data d)
    (htaken : takenBlock bs n = k) (hremoved : Removed 0 (n.blocks bs) k n.sparse sparse)
    (hview : view v = (view fs₁.volume).splice (fs₁.dataOffset * bs + 0)
      (List.replicate (n.size % bs) 0 ++ data.bytes d)) :
    RoundDone bs count view i n data d fs { fs₁ with
      volume := v
      dataOffset := fs₁.dataOffset + 1
      files := fs₁.files.modify i fun n => { n with sparse := sparse } } := by
  have hadded := addedBlocks_of_tail fs.noSparse data htail hfit
  have hnext : FileNode.blocks bs ⟨n.size + d, n.startIndex, n.sparse⟩ = n.blocks bs :=
    blockCount_tail htail hfit
  have htotal := hvalid.total_le
  have hless := hremoved.total
  have hlonger : FileNode.stored bs ⟨n.size + d, start, sparse⟩ = n.stored bs + 1 := by
    change FileNode.blocks bs ⟨n.size + d, n.startIndex, n.sparse⟩ - total sparse =
      n.blocks bs - total n.sparse + 1
    omega
  rw [if_pos htakes] at hadded
  refine .of_end hback (getElem?_modify_self hback.node) ?_ rfl rfl hadded hlonger ?_ ?_
  · intro j hji
    exact List.getElem?_modify_ne _ _ fun hij => hji hij.symm
  · intro x _
    rw [hremoved.covers, htaken]
    simp [htakes]
  · intro o ho
    change view v _ = _
    rw [lastByte_of_tail htail hfit]
    unfold tailByte
    rw [if_pos htakes, headSize_of_fit hfit, hview, hback.dataOffset]
    unfold Bytes.splice
    have hplace : fs.dataOffset * bs + 0 = fs.dataOffset * bs := rfl
    rw [hplace]
    split
    · rfl
    · exact hback.behind o ho

theorem appendToTail_round (hb : Backing vol count view) (h : Housed vol.blocksize count fs)
    (hn : fs.files[i]? = some n) (hblocks : n.blocks vol.blocksize < 2 ^ 32)
    (htail : 0 < n.size % vol.blocksize)
    (hfit : n.size % vol.blocksize + d ≤ vol.blocksize) (hold : data.Holds d) :
    Call.Returns
      (appendToTail vol i (n.size / vol.blocksize) (n.size % vol.blocksize) data d fs)
      (fun _ => RoundDone vol.blocksize count view i n data d fs)
      (fun _ => ¬ AppendFits vol.blocksize count fs n data d) := by
  have hvalid := h.laidOut.valid_at hn
  have hcount := blocks_of_tail htail
  have hwithin := hvalid.within
  rw [hcount] at hwithin hblocks
  unfold appendToTail
  rw [Call.bind_apply, file_eq hn, Outcome.bind_ok]
  cases hfound : (findTail (n.size / vol.blocksize)
      (u64 (n.startIndex + n.size / vol.blocksize)) n.sparse).2 with
  | none =>
      obtain ⟨hfree, hends⟩ := findTail_none_free (by omega) hwithin hfound
      obtain ⟨haddr, hlt⟩ := findTail_stored h hn htail hfound hfree
      dsimp only
      rw [haddr]
      exact writeTail_round hb h hn htail hfit hold hfree hends hlt
  | some sparse =>
      obtain ⟨k, hcover, hremoved, hplace⟩ := findTail_some hblocks hwithin hfound
      have hregion : Covers n.sparse (n.size / vol.blocksize) ∨
          EndsAt n.sparse (n.size / vol.blocksize) := by
        rcases hplace with ⟨rfl, _⟩ | ⟨_, hends⟩
        · exact Or.inl hcover
        · exact Or.inr hends
      change Call.Returns ((if isNullOrZero data d then pure () else _ :
        Call (Fstree σ) Unit) fs) _ _
      rw [Call.ite_apply]
      split
      · rename_i hzero
        exact skipTail_round hn htail hfit hregion hzero
      · rename_i hzero
        have htakes : TakesTail vol.blocksize n data d := by
          refine ⟨htail, hregion, ?_⟩
          rw [headSize_of_fit hfit]
          exact hzero
        have htaken : takenBlock vol.blocksize n = k := by
          unfold takenBlock
          rcases hplace with ⟨hk, hends⟩ | ⟨hk, hends⟩
          · rw [if_neg hends, hk]
          · rw [if_pos hends]
            omega
        apply Call.Returns.bind ((fileMoveToEnd_atBack hb h hn).mono (fun _ _ hback => hback)
          fun _ hkept hroom => hkept.2 hroom.1)
        rintro _ fs₁ ⟨start, hback⟩
        have hoffset := hback.dataOffset
        rw [Call.bind_apply, Call.get_apply, Outcome.bind_ok]
        apply (appendToTail_result hb sparse hback hfit hold).mono
        · rintro _ _ ⟨_, v, hview, rfl⟩
          rw [← hcount] at hremoved
          exact takeTail_round hvalid hback htail hfit htakes htaken hremoved hview
        · intro _ hfail hroom
          have hle := hroom.2
          rw [addedBlocks_of_tail fs.noSparse data htail hfit, if_pos htakes] at hle
          exact hfail.2 (by omega)

/-- A new block of zeros that is not stored. -/
theorem markSparse_round {bs : Nat} (hbs : 0 < bs) (h : Housed bs count fs)
    (hn : fs.files[i]? = some n) (hfull : n.size % bs = 0) (hpos : 0 < d) (hd : d ≤ bs)
    (hblocks : n.size / bs + 1 < 2 ^ 32)
    (hsparse : fs.noSparse = false ∧ isNullOrZero data d = true) :
    RoundDone bs count view i n data d fs { fs with
      files := fs.files.modify i fun m =>
        { m with sparse := markSparse m.sparse (n.size / bs) } } := by
  have hvalid := h.laidOut.valid_at hn
  obtain ⟨hcount, hfree⟩ := hvalid.full hfull
  have hwithin := hvalid.within
  rw [hcount] at hwithin
  have hmarked := markSparse_added hblocks (Nat.lt_succ_self (n.size / bs))
    (hwithin.mono (Nat.le_refl _) (Nat.le_succ _)) hfree (Nat.zero_le _)
  have htotal := hmarked.total
  have htakes : ¬ TakesTail bs n data d := not_takesTail_of_full hfull
  refine .of_same (getElem?_modify_self hn) ?_ rfl rfl ?_ ?_ ?_ ?_
  · intro j hji
    exact List.getElem?_modify_ne _ _ fun hij => hji hij.symm
  · rw [addedBlocks_of_full hbs hfull hpos hd, if_pos hsparse]
  · change FileNode.blocks bs ⟨n.size + d, n.startIndex, n.sparse⟩ -
      total (markSparse n.sparse (n.size / bs)) = n.blocks bs - total n.sparse
    have hnext : FileNode.blocks bs ⟨n.size + d, n.startIndex, n.sparse⟩ = n.size / bs + 1 :=
      (blockCount_next hfull hpos hd).2
    omega
  · intro x hx
    rw [hmarked.covers, or_iff_left (by omega)]
    simp [htakes]
  · intro o _
    have hnone : ∀ x, ¬ Fresh bs fs.noSparse n data d x := by
      intro x hx
      exact ((fresh_iff_of_full _ _ hbs hfull hpos hd).1 hx).2 hsparse
    rw [lastByte_tail hnone]
    unfold tailByte
    rw [if_neg htakes, if_neg (by omega)]

theorem appendBlock_round (hb : Backing vol count view) (h : Housed vol.blocksize count fs)
    (hn : fs.files[i]? = some n) (hfull : n.size % vol.blocksize = 0) (hpos : 0 < d)
    (hd : d ≤ vol.blocksize) (hold : data.Holds d)
    (hdata : ¬ (fs.noSparse = false ∧ isNullOrZero data d = true)) :
    Call.Returns (appendBlock vol i data d fs)
      (fun _ => RoundDone vol.blocksize count view i n data d fs)
      (fun _ => ¬ AppendFits vol.blocksize count fs n data d) := by
  have hbs := hb.store.blocksize_pos
  have hvalid := h.laidOut.valid_at hn
  have hlen := Buffer.length_bytes hold
  have hcount := (hvalid.full hfull).1
  have htakes : ¬ TakesTail vol.blocksize n data d := not_takesTail_of_full hfull
  have hiff := fun x => fresh_iff_of_full (x := x) fs.noSparse data hbs
    hfull hpos hd
  have hadded : addedBlocks vol.blocksize fs.noSparse n data d = 1 := by
    rw [addedBlocks_of_full hbs hfull hpos hd, if_neg hdata]
  apply (appendBlock_result hb h hn hd hold).mono
  · rintro _ _ ⟨start, fs₁, v, hback, _, hview, rfl⟩
    refine .of_end hback hback.node (fun _ _ => rfl) rfl rfl hadded ?_ ?_ ?_
    · have hnext : FileNode.blocks vol.blocksize ⟨n.size + d, n.startIndex, n.sparse⟩ =
          n.size / vol.blocksize + 1 := (blockCount_next hfull hpos hd).2
      have htotal := hvalid.total_le
      change FileNode.blocks vol.blocksize ⟨n.size + d, n.startIndex, n.sparse⟩ -
        total n.sparse = n.blocks vol.blocksize - total n.sparse + 1
      omega
    · intro x _
      simp [htakes]
    · intro o ho
      have hsize := size_eq vol.blocksize n
      rw [hfull, Nat.add_zero] at hsize
      have hfirst := piece_first (o := 0) (n.size / vol.blocksize) data hbs hpos
        (Nat.le_refl d) (by omega) (by omega)
      rw [Nat.add_zero, ← hsize] at hfirst
      obtain ⟨_, hpiece, hbytes⟩ := hfirst
      change view v _ = _
      rw [lastByte_fresh hbs ((hiff _).2 ⟨rfl, hdata⟩)
        fun y hy hfresh => Nat.ne_of_gt hy ((hiff y).1 hfresh).1, hpiece, hbytes, hview,
        Bytes.splice_apply_of_mem (by omega) (by simp; omega)]
      have hplace : fs₁.dataOffset * vol.blocksize + o - (fs₁.dataOffset * vol.blocksize + 0) =
          o := by omega
      rw [hplace, List.getD_eq_getElem?_getD, List.getD_eq_getElem?_getD]
      by_cases hin : o < d
      · rw [List.getElem?_append_left (by omega)]
      · rw [List.getElem?_append_right (by omega), List.getElem?_replicate, if_pos (by omega),
          List.getElem?_eq_none (by omega)]
        rfl
  · intro _ hfail hroom
    have hle := hroom.2
    rw [hadded] at hle
    exact hfail.2 ⟨hroom.1, hle⟩

theorem appendChunk_lengthened (hb : Backing vol count view) (h : Housed vol.blocksize count fs)
    (hn : fs.files[i]? = some n) {tailSize : Nat} (htail : tailSize = n.size % vol.blocksize)
    (hpos : 0 < d) (hfit : tailSize + d ≤ vol.blocksize) (hold : data.Holds d)
    (hblocks : blockCount (n.size + d) vol.blocksize < 2 ^ 32) :
    Call.Returns (appendChunk vol i (n.size / vol.blocksize) tailSize data d fs)
      (fun _ fs' => ∃ m, Lengthened vol.blocksize count view i n m data d fs fs')
      (fun _ => ¬ AppendFits vol.blocksize count fs n data d) := by
  have hbs := hb.store.blocksize_pos
  have hsize := lt_of_blockCount_lt hbs hb.blocksize_lt hblocks
  subst htail
  have hround : Call.Returns
      ((if n.size % vol.blocksize > 0 then
          appendToTail vol i (n.size / vol.blocksize) (n.size % vol.blocksize) data d
        else if fs.noSparse = false ∧ isNullOrZero data d then
          updateFile i fun m => { m with sparse := markSparse m.sparse (n.size / vol.blocksize) }
        else appendBlock vol i data d : Call (Fstree σ) Unit) fs)
      (fun _ => RoundDone vol.blocksize count view i n data d fs)
      (fun _ => ¬ AppendFits vol.blocksize count fs n data d) := by
    by_cases hzero : n.size % vol.blocksize > 0
    · rw [if_pos hzero]
      have hmono := blockCount_mono hbs (Nat.le_add_right n.size d)
      exact appendToTail_round hb h hn (Nat.lt_of_le_of_lt hmono hblocks) hzero hfit hold
    · have hfull : n.size % vol.blocksize = 0 := by omega
      rw [if_neg hzero]
      by_cases hsparse : fs.noSparse = false ∧ isNullOrZero data d
      · rw [if_pos hsparse, updateFile_apply]
        have hnext := (blockCount_next hfull hpos (by omega)).2
        exact markSparse_round hbs h hn hfull hpos (by omega) (by omega) hsparse
      · rw [if_neg hsparse]
        exact appendBlock_round hb h hn hfull hpos (by omega) hold hsparse
  unfold appendChunk
  rw [Call.bind_apply, Call.get_apply, Outcome.bind_ok]
  apply Call.Returns.bind hround
  intro _ fs₁ hdone
  obtain ⟨m, _, hmsize, hlength⟩ := hdone
  rw [updateFile_apply]
  refine ⟨_, hlength _ ?_⟩
  rw [hmsize, u64_of_lt hsize]

end Round

/-! ## The whole append -/

section Append

variable {vol : Volume σ} {count i size : Nat} {view : σ → Bytes} {fs : Fstree σ}
variable {n : FileNode} {data : Buffer}

theorem fileAppendLoop_lengthened (hb : Backing vol count view) (fuel tailIndex tailSize : Nat)
    (data : Buffer) (size : Nat) (h : Housed vol.blocksize count fs)
    (hn : fs.files[i]? = some n) (hold : data.Holds size)
    (htail : 0 < size → tailIndex = n.size / vol.blocksize ∧ tailSize = n.size % vol.blocksize)
    (hblocks : blockCount (n.size + size) vol.blocksize < 2 ^ 32) :
    Call.Returns (fileAppendLoop vol i fuel tailIndex tailSize data size fs)
      (fun _ fs' => ∃ m, Lengthened vol.blocksize count view i n m data size fs fs')
      (fun _ => ¬ AppendFits vol.blocksize count fs n data size) := by
  have hbs := hb.store.blocksize_pos
  induction fuel generalizing fs n tailIndex tailSize data size with
  | zero =>
      unfold fileAppendLoop
      split
      · rename_i hzero
        subst hzero
        exact ⟨n, Lengthened.refl hn data⟩
      · trivial
  | succ fuel ih =>
      unfold fileAppendLoop
      by_cases hzero : size = 0
      · subst hzero
        rw [if_pos rfl]
        exact ⟨n, Lengthened.refl hn data⟩
      rw [if_neg hzero]
      obtain ⟨hindex, hrest⟩ := htail (Nat.pos_of_ne_zero hzero)
      have hmod := Nat.mod_lt n.size hbs
      generalize hdiff : (if vol.blocksize - tailSize > size then size
        else vol.blocksize - tailSize) = diff
      have hmin : diff = min (vol.blocksize - n.size % vol.blocksize) size := by
        rw [← hdiff, hrest]
        split <;> omega
      have hsplit : diff + (size - diff) = size := by omega
      have hhead : headSize vol.blocksize n size = headSize vol.blocksize n diff := by
        unfold headSize
        omega
      have hmono := blockCount_mono hbs (show n.size + diff ≤ n.size + size by omega)
      subst hindex
      have hpos : 0 < diff := by omega
      have hfit : tailSize + diff ≤ vol.blocksize := by omega
      have hhold : data.Holds diff := hold.mono (by omega)
      have hround := (appendChunk_lengthened hb h hn hrest hpos hfit hhold (by omega)).and
        (appendChunk_appended hb h hn hrest hpos hfit hhold (by omega))
      -- the request is this round alone, or its rest starts at a new block
      by_cases hlast : size - diff = 0
      · obtain rfl : diff = size := by omega
        rw [hlast]
        apply Call.Returns.bind (hround.mono (fun _ _ hdone => hdone) fun _ hfail => hfail.1)
        intro _ fs₁ hdone
        rw [fileAppendLoop_zero]
        exact hdone.1
      have hfull := next_block n.size hbs
      rw [show vol.blocksize - n.size % vol.blocksize = diff by omega] at hfull
      have hsum : ∀ m : FileNode, m.size = n.size + diff → m.size % vol.blocksize = 0 →
          addedBlocks vol.blocksize fs.noSparse n data size =
            addedBlocks vol.blocksize fs.noSparse n data diff +
              addedBlocks vol.blocksize fs.noSparse m (data.advance diff) (size - diff) :=
        fun m hm hmod => addedBlocks_split fs.noSparse data hbs hm (by omega) hmod hhead
      apply Call.Returns.bind (hround.mono (fun _ _ hdone => hdone) ?_)
      · intro _ fs₁ hdone
        obtain ⟨⟨m, hlength⟩, happended⟩ := hdone
        have hm := hlength.node
        have hmsize := hlength.size_eq
        rw [← hmsize] at hfull
        have hlt := lt_of_blockCount_lt hbs hb.blocksize_lt hblocks
        have hdiv := Nat.div_le_self n.size vol.blocksize
        rw [u64_of_lt (by omega)]
        apply (ih (n.size / vol.blocksize + 1) 0 (data.advance diff) (size - diff)
          happended.housed hm (Buffer.Holds.advance (by rw [hsplit]; exact hold))
          (fun _ => ⟨hfull.1.symm, hfull.2.symm⟩)
          (by rw [show m.size + (size - diff) = n.size + size by omega]; exact hblocks)).mono
        · intro _ fs₂ hdone
          obtain ⟨k, hk⟩ := hdone
          exact ⟨k, hlength.trans hbs (by omega) hfull.2 hhead hk⟩
        · intro _ hstuck hroom
          apply hstuck
          have hle := hroom.2
          have hoffset := hlength.dataOffset
          rw [hsum m hmsize hfull.2] at hle
          refine ⟨hlength.movable_iff.2 hroom.1, ?_⟩
          rw [hlength.noSparse]
          omega
      · intro _ hfail hroom
        apply hfail.1
        have hle := hroom.2
        rw [hsum ⟨n.size + diff, 0, []⟩ rfl hfull.2] at hle
        exact ⟨hroom.1, by omega⟩

/-- An append takes the blocks it takes, or there is no room for them. -/
theorem fileAppend_lengthened (hb : Backing vol count view) (h : Housed vol.blocksize count fs)
    (hn : fs.files[i]? = some n) (hold : data.Holds size)
    (hblocks : blockCount (n.size + size) vol.blocksize < 2 ^ 32) :
    Call.Returns (fileAppend vol i data size fs)
      (fun _ fs' => ∃ m, Lengthened vol.blocksize count view i n m data size fs fs')
      (fun _ => ¬ AppendFits vol.blocksize count fs n data size) := by
  unfold fileAppend
  rw [Call.bind_apply, file_eq hn, Outcome.bind_ok]
  exact fileAppendLoop_lengthened hb _ _ _ _ _ h hn hold (fun _ => ⟨rfl, rfl⟩) hblocks

end Append

end ImageTool.Fstree
