import ImageTool.Fstree.TruncateLaw
import ImageTool.Fstree.AppendBlocks

/-!
# What a write makes of a file

`fstree_file_write` appends zeros up to the offset where that lies behind the file, appends
what reaches over the end, and writes the rest in place.  The last part always works out; the
two appends do unless the last block the file had is taken for a part of the region in front
of it.  Then the first append may leave bytes that the second one moves, or the write in place
may cover what the append has damaged, so that `WriteSound` looks at all of them at once.
-/

namespace ImageTool.Fstree

open ImageTool.Lib ImageTool.Image ImageTool.Util

variable {σ : Type}

/-- What decides whether a write over the end of a file arrives. -/
def WriteSound (bs : Nat) (view : Bytes) (n : FileNode) (offset : Nat) (data : Buffer)
    (size : Nat) : Prop :=
  n.size < offset + size → 0 < n.size % bs → EndsAt n.sparse (n.size / bs) →
    if isNullOrZero (data.advance (n.size - offset))
        (min (bs - n.size % bs) (offset + size - n.size) - (offset - n.size)) then
      ∀ k < min (bs - n.size % bs) (offset + size - n.size),
        blockByte bs view n (n.size / bs) (n.size % bs + k) = 0
    else
      ¬ Covers n.sparse (n.size / bs) ∧ ∀ o < bs, (n.size / bs - 1) * bs + o < offset →
        blockByte bs view n (n.size / bs) o = 0

/-- `c`, with zeros up to `offset` where it is shorter, overwritten by `data` from there on. -/
def writeOver (c : List UInt8) (offset : Nat) (data : List UInt8) : List UInt8 :=
  cutOrExtend c offset ++ data ++ c.drop (offset + data.length)

section Lists

variable {c c₁ c₂ D D₁ D₂ : List UInt8} {offset g : Nat}

/-- Inside the file. -/
theorem writeOver_inside (h : offset ≤ c.length) :
    writeOver c offset D = c.take offset ++ D ++ c.drop (offset + D.length) := by
  unfold writeOver cutOrExtend
  rw [Nat.sub_eq_zero_of_le h, List.replicate_zero, List.append_nil]

/-- Over the end of the file. -/
theorem writeOver_across (h : offset ≤ c.length) (h' : c.length ≤ offset + D.length) :
    writeOver c offset D = c.take offset ++ D := by
  rw [writeOver_inside h, List.drop_of_length_le h', List.append_nil]

/-- Behind the file. -/
theorem writeOver_behind (h : c.length ≤ offset) :
    writeOver c offset D = c ++ List.replicate (offset - c.length) 0 ++ D := by
  unfold writeOver
  rw [cutOrExtend_append h, List.drop_of_length_le (by omega), List.append_nil]

/-- Zeros that have been put behind `c`, and `D` behind them. -/
theorem grown_twice_iff {sound₁ sound₂ : Nat → Prop} {zeros₁ zeros₂ : Prop}
    (h₁ : Grown c (List.replicate g 0) sound₁ zeros₁ c₁) (hzeros : zeros₁)
    (h₂ : Grown c₁ D sound₂ zeros₂ c₂) (hsound : sound₂ c.length → sound₂ c₁.length) :
    c₂ = c ++ List.replicate g 0 ++ D ↔ sound₁ c.length ∧ sound₂ c₁.length := by
  have hlen : c₁.length = (c ++ List.replicate g (0 : UInt8)).length := by
    rw [h₁.length, List.length_append]
  constructor
  · intro hall
    have hkept : c₂.take c.length = c₁.take c.length := by
      rw [hall, h₁.kept hzeros, List.append_assoc, List.take_left]
    have hnew : c₂.drop c₁.length = D := by
      rw [hall, hlen, List.drop_left]
    have hle : c.length ≤ c₁.length := by
      rw [hlen, List.length_append]
      exact Nat.le_add_right _ _
    have hlater := hsound ((h₂.agrees c.length hle).1 ⟨hkept, hnew⟩)
    have hsplit := h₂.eq_iff.2 hlater
    rw [hall, List.append_left_inj] at hsplit
    exact ⟨h₁.eq_iff.1 hsplit.symm, hlater⟩
  · rintro ⟨hfirst, hlater⟩
    rw [h₂.eq_iff.2 hlater, h₁.eq_iff.2 hfirst]

end Lists

/-! ## A gap in front of the data -/

section Gap

variable {vol : Volume σ} {bs count i offset size q g : Nat} {view : σ → Bytes}
variable {fs fs₁ : Fstree σ} {n n₁ : FileNode} {data : Buffer} {rs : List Region}

theorem EndsAt.pos {lo hi b : Nat} (h : EndsAt rs b) (hwithin : Within lo hi rs) : 0 < b := by
  obtain ⟨r, hr, hend⟩ := h
  have := hwithin.region hr
  omega

/-- Behind a fresh last block everything arrives. -/
theorem TailFresh.appendSound {view : Bytes} (h : TailFresh bs view n) (data : Buffer)
    (size q : Nat) : AppendSound bs view n data size q := by
  intro _ htail hends
  obtain ⟨hfree, hzero⟩ := h htail hends
  split
  · intro k hk
    exact hzero _ (by omega)
  · exact ⟨hfree, fun o ho _ => hzero o ho⟩

/-- Data behind a file that has become longer in a last block that follows a region. -/
theorem appendSound_longer {view : Bytes} (htail : 0 < n.size % bs)
    (hends : EndsAt n.sparse (n.size / bs)) (hin : n.size % bs + g < bs) (hsize : 0 < size) :
    AppendSound bs view { n with size := n.size + g } data size q ↔
      if isNullOrZero data (min (bs - (n.size % bs + g)) size) then
        ∀ k < min (bs - (n.size % bs + g)) size,
          blockByte bs view n (n.size / bs) (n.size % bs + g + k) = 0
      else ¬ Covers n.sparse (n.size / bs) ∧ ∀ o < bs, (n.size / bs - 1) * bs + o < q →
        blockByte bs view n (n.size / bs) o = 0 := by
  obtain ⟨hdiv, hmod⟩ := size_div_mod hin
  unfold AppendSound TailSound
  dsimp only
  rw [hdiv, hmod]
  exact ⟨fun h => h hsize (by omega) hends, fun h _ _ _ => h⟩

/-- The two appends of a write behind the end of a file, where the gap ends in the last block
the file has. -/
theorem gap_sound_inside {view : Bytes} {lo hi : Nat} (hwithin : Within lo hi n.sparse)
    (htail : 0 < n.size % bs) (hends : EndsAt n.sparse (n.size / bs)) (hg : 0 < g)
    (hin : n.size % bs + g < bs) (hsize : 0 < size) :
    (AppendSound bs view { n with size := n.size + g } data size n.size →
      AppendSound bs view { n with size := n.size + g } data size (n.size + g)) ∧
    (AppendSound bs view n none g n.size ∧
        AppendSound bs view { n with size := n.size + g } data size (n.size + g) ↔
      WriteSound bs view n (n.size + g) data size) := by
  have hlen : n.size + g + size - n.size = g + size := by
    rw [Nat.add_assoc, Nat.add_sub_cancel_left]
  have hall : min (bs - n.size % bs) (n.size + g + size - n.size) =
      g + min (bs - (n.size % bs + g)) size := by
    rw [hlen, ← Nat.sub_sub, ← Nat.add_min_add_left, Nat.add_sub_cancel' (by omega)]
  have hdiff : min (bs - n.size % bs) (n.size + g + size - n.size) - (n.size + g - n.size) =
      min (bs - (n.size % bs + g)) size := by
    rw [hall, Nat.add_sub_cancel_left, Nat.add_sub_cancel_left]
  have hsum := size_eq bs n
  have hpos := hends.pos hwithin
  have hprev : (n.size / bs - 1) * bs + bs = n.size / bs * bs := by
    rw [← Nat.succ_mul, Nat.succ_eq_add_one, Nat.sub_add_cancel hpos]
  have hnone : AppendSound bs view n none g n.size ↔
      ∀ k < g, blockByte bs view n (n.size / bs) (n.size % bs + k) = 0 := by
    unfold AppendSound TailSound
    rw [show min (bs - n.size % bs) g = g by omega,
      if_pos (show isNullOrZero none g = true from rfl)]
    exact ⟨fun h => h hg htail hends, fun h _ _ _ => h⟩
  have hwrite : WriteSound bs view n (n.size + g) data size ↔
      if isNullOrZero data (min (bs - (n.size % bs + g)) size) then
        ∀ k < g + min (bs - (n.size % bs + g)) size,
          blockByte bs view n (n.size / bs) (n.size % bs + k) = 0
      else ¬ Covers n.sparse (n.size / bs) ∧ ∀ o < bs,
        (n.size / bs - 1) * bs + o < n.size + g → blockByte bs view n (n.size / bs) o = 0 := by
    unfold WriteSound
    rw [hdiff, hall, show n.size - (n.size + g) = 0 by omega, advance_zero]
    exact ⟨fun h => h (by omega) htail hends, fun h _ _ _ => h⟩
  rw [appendSound_longer htail hends hin hsize, appendSound_longer htail hends hin hsize,
    hnone, hwrite]
  by_cases hzero : isNullOrZero data (min (bs - (n.size % bs + g)) size) = true
  · rw [if_pos hzero, if_pos hzero, if_pos hzero]
    refine ⟨id, ?_⟩
    constructor
    · rintro ⟨hfirst, hlater⟩ k hk
      by_cases hlt : k < g
      · exact hfirst k hlt
      · have hbyte := hlater (k - g) (by omega)
        rwa [Nat.add_assoc, Nat.add_sub_cancel' (by omega)] at hbyte
    · intro hbytes
      refine ⟨fun k hk => hbytes k (by omega), ?_⟩
      intro k hk
      rw [Nat.add_assoc]
      exact hbytes (g + k) (by omega)
  · rw [if_neg hzero, if_neg hzero, if_neg hzero]
    constructor
    · rintro ⟨hfree, hbytes⟩
      exact ⟨hfree, fun o ho _ => hbytes o ho (by omega)⟩
    · constructor
      · exact fun h => h.2
      · intro hblock
        exact ⟨fun k hk => hblock.2 _ (by omega) (by omega), hblock⟩

/-- The two appends of a write behind the end of a file. -/
theorem gap_sound (data : Buffer) (hb : Backing vol count view)
    (h : Housed vol.blocksize count fs) (hn : fs.files[i]? = some n) (hg : 0 < g) (hsize : 0 < size)
    (hblocks : blockCount (n.size + g) vol.blocksize < 2 ^ 32)
    (hok : fileAppend vol i none g fs = .ok () fs₁) (hn₁ : fs₁.files[i]? = some n₁)
    (hsize₁ : n₁.size = n.size + g)
    (hfresh : StaysFresh vol.blocksize (view fs.volume) (view fs₁.volume) n n₁) :
    (AppendSound vol.blocksize (view fs₁.volume) n₁ data size n.size →
      AppendSound vol.blocksize (view fs₁.volume) n₁ data size (n.size + g)) ∧
    (AppendSound vol.blocksize (view fs.volume) n none g n.size ∧
        AppendSound vol.blocksize (view fs₁.volume) n₁ data size (n.size + g) ↔
      WriteSound vol.blocksize (view fs.volume) n (n.size + g) data size) := by
  have hbs := hb.store.blocksize_pos
  have hvalid := h.laidOut.valid_at hn
  by_cases hside : 0 < n.size % vol.blocksize ∧ EndsAt n.sparse (n.size / vol.blocksize)
  swap
  · -- the last block is in nothing's way
    have hstart : TailFresh vol.blocksize (view fs.volume) n :=
      fun hpos hends => absurd ⟨hpos, hends⟩ hside
    have hlater := (hfresh (Or.inl hstart)).appendSound data size
    exact ⟨fun _ => hlater _, iff_of_true ⟨hstart.appendSound _ _ _, hlater _⟩
      fun _ hpos hends => absurd ⟨hpos, hends⟩ hside⟩
  obtain ⟨htail, hends⟩ := hside
  by_cases hin : n.size % vol.blocksize + g < vol.blocksize
  · have hmono := blockCount_mono hbs (Nat.le_add_right n.size g)
    have hlt := lt_of_blockCount_lt hbs hb.blocksize_lt hblocks
    rw [fileAppend_unwritten hvalid (Nat.lt_of_le_of_lt hmono hblocks) hn hg htail
      (Nat.le_of_lt hin) hends, Outcome.ok.injEq] at hok
    obtain ⟨-, rfl⟩ := hok
    rw [getElem?_modify_self hn, Option.some.injEq, u64_of_lt hlt] at hn₁
    subst hn₁
    exact gap_sound_inside hvalid.within htail hends hg hin hsize
  · -- the gap ends behind that block
    have hlater : ∀ q, AppendSound vol.blocksize (view fs₁.volume) n₁ data size q := by
      intro q
      by_cases hnew : n.blocks vol.blocksize < n₁.blocks vol.blocksize
      · exact (hfresh (Or.inr hnew)).appendSound data size q
      · have hfull : n₁.size = (n.size / vol.blocksize + 1) * vol.blocksize := by
          have hsum := size_eq vol.blocksize n
          unfold FileNode.blocks at hnew
          rw [Nat.not_lt, blockCount_le_iff hbs] at hnew
          change _ ≤ n.blocks vol.blocksize * vol.blocksize at hnew
          rw [blocks_of_tail htail, Nat.succ_mul] at hnew
          rw [Nat.succ_mul]
          omega
        intro _ hpos
        rw [hfull, Nat.mul_mod_left] at hpos
        exact absurd hpos (Nat.lt_irrefl 0)
    have hdiff : min (vol.blocksize - n.size % vol.blocksize) (n.size + g + size - n.size) -
        (n.size + g - n.size) = 0 := by omega
    have hall : min (vol.blocksize - n.size % vol.blocksize) (n.size + g + size - n.size) =
        min (vol.blocksize - n.size % vol.blocksize) g := by omega
    have hwrite : WriteSound vol.blocksize (view fs.volume) n (n.size + g) data size ↔
        AppendSound vol.blocksize (view fs.volume) n none g n.size := by
      unfold WriteSound AppendSound TailSound
      rw [hdiff, hall, if_pos (isNullOrZero_zero _),
        if_pos (show isNullOrZero none _ = true from rfl)]
      exact ⟨fun h _ => h (by omega), fun h _ => h hg⟩
    rw [hwrite]
    exact ⟨fun _ => hlater _, and_iff_left (hlater _)⟩

end Gap

/-! ## The whole write -/

section Write

variable {vol : Volume σ} {bs count i offset size pos : Nat} {view : σ → Bytes}
variable {fs fs₁ fs' : Fstree σ} {n m : FileNode} {data : Buffer} {D : List UInt8}

theorem Written.contents_eq (h : Written bs count view i n pos D fs fs')
    (hm : fs'.files[i]? = some m) (hin : pos + D.length ≤ n.size) :
    contents bs (view fs'.volume) m = (contents bs (view fs.volume) n).take pos ++ D ++
      (contents bs (view fs.volume) n).drop (pos + D.length) := by
  obtain ⟨k, hk, hsize, hbytes⟩ := h.node
  rw [hm, Option.some.injEq] at hk
  subst hk
  unfold contents
  rw [← Bytes.slice_splice_inside hin, hsize]
  apply Bytes.slice_congr
  intro p _ hp
  exact hbytes p (by omega)

/-- After a write to file `i`: its bytes are what they should be exactly if the write was
sound. -/
structure WriteDone (bs count : Nat) (view : σ → Bytes) (i : Nat) (n : FileNode)
    (offset : Nat) (data : Buffer) (size : Nat) (fs fs' : Fstree σ) : Prop where
  housed : Housed bs count fs'
  others : FilesKept bs count view (· ≠ i) fs fs'
  node : ∃ m, fs'.files[i]? = some m ∧
    (contents bs (view fs'.volume) m =
        writeOver (contents bs (view fs.volume) n) offset (data.bytes size) ↔
      WriteSound bs (view fs.volume) n offset data size)

/-- All of the request lies in the file. -/
theorem Written.writeDone (h : Written bs count view i n offset (data.bytes size) fs fs')
    (hold : data.Holds size) (hin : offset + size ≤ n.size) :
    WriteDone bs count view i n offset data size fs fs' := by
  obtain ⟨m, hm, _, _⟩ := h.node
  have hlen := Buffer.length_bytes hold
  refine ⟨h.housed, h.others, m, hm, iff_of_true ?_ fun hlt => by omega⟩
  rw [h.contents_eq hm (by omega), writeOver_inside (by simp; omega)]

/-- The end of the file lies in the request: the rest is appended first. -/
theorem Appended.writeDone {avail : Nat} (hold : data.Holds size) (havail : offset + avail = n.size)
    (hlt : avail < size) (h : Appended bs count view i n (data.advance avail) (size - avail)
      (AppendSound bs (view fs.volume) n (data.advance avail) (size - avail)) fs fs₁)
    (hm : fs₁.files[i]? = some m)
    (hwritten : Written bs count view i m offset (data.bytes avail) fs₁ fs') :
    WriteDone bs count view i n offset data size fs fs' := by
  obtain ⟨m₁, hm₁, hsize₁, hgrown, _⟩ := h.node
  rw [hm, Option.some.injEq] at hm₁
  subst hm₁
  obtain ⟨k, hk, _, _⟩ := hwritten.node
  have hlen : (data.bytes avail).length = avail :=
    Buffer.length_bytes (hold.mono (Nat.le_of_lt hlt))
  have hsplit : data.bytes avail ++ (data.advance avail).bytes (size - avail) =
      data.bytes size := by
    rw [Buffer.bytes_append_advance, Nat.add_sub_cancel' (Nat.le_of_lt hlt)]
  have hsound : WriteSound bs (view fs.volume) n offset data size ↔
      AppendSound bs (view fs.volume) n (data.advance avail) (size - avail) offset := by
    unfold WriteSound AppendSound TailSound
    rw [show n.size - offset = avail by omega, show offset - n.size = 0 by omega,
      show offset + size - n.size = size - avail by omega, Nat.sub_zero]
    exact ⟨fun h _ => h (by omega), fun h _ => h (by omega)⟩
  have hagrees := hgrown.agrees offset (by simp; omega)
  rw [length_contents] at hagrees
  refine ⟨hwritten.housed, h.others.trans hwritten.others, k, hk, ?_⟩
  rw [hsound, ← hagrees, hwritten.contents_eq hk (by omega), hlen, havail,
    writeOver_across (by simp; omega) (by simp [Buffer.length_bytes hold]; omega), ← hsplit,
    List.append_assoc]
  constructor
  · intro hall
    obtain ⟨htake, hrest⟩ := List.append_inj hall (by simp; omega)
    exact ⟨htake, List.append_cancel_left hrest⟩
  · rintro ⟨htake, hdrop⟩
    rw [htake, hdrop]

/-- The request lies behind the file: zeros are appended first. -/
theorem writeDone_behind (hb : Backing vol count view) (h : Housed vol.blocksize count fs)
    (hn : fs.files[i]? = some n) (hlt : n.size < offset) (hsize : 0 < size)
    (hblocks : blockCount offset vol.blocksize < 2 ^ 32)
    (hok : fileAppend vol i none (offset - n.size) fs = .ok () fs₁)
    (happ : Appended vol.blocksize count view i n none (offset - n.size)
      (AppendSound vol.blocksize (view fs.volume) n none (offset - n.size)) fs fs₁)
    (hm : fs₁.files[i]? = some m)
    (happ' : Appended vol.blocksize count view i m data size
      (AppendSound vol.blocksize (view fs₁.volume) m data size) fs₁ fs') :
    WriteDone vol.blocksize count view i n offset data size fs fs' := by
  obtain ⟨m₁, hm₁, hsize₁, hgrown, hfresh⟩ := happ.node
  rw [hm, Option.some.injEq] at hm₁
  subst hm₁
  obtain ⟨k, hk, _, hgrown', _⟩ := happ'.node
  have hsum : n.size + (offset - n.size) = offset := Nat.add_sub_cancel' (Nat.le_of_lt hlt)
  have hgap := gap_sound data hb h hn (Nat.sub_pos_of_lt hlt) hsize
    (by rw [hsum]; exact hblocks) hok hm hsize₁ (hfresh rfl)
  rw [hsum] at hgap hsize₁
  refine ⟨happ'.housed, happ.others.trans happ'.others, k, hk, ?_⟩
  rw [writeOver_behind (by simp; omega), length_contents, ← hgap.2]
  have htwice := grown_twice_iff hgrown rfl hgrown' (by
    rw [length_contents, length_contents, hsize₁]
    exact hgap.1)
  rw [length_contents, length_contents, hsize₁] at htwice
  exact htwice

/-- What reaches over the end of a file in a write to it. -/
def overEnd (n : FileNode) (offset : Nat) (data : Buffer) : Buffer := data.advance (n.size - offset)

/-- A write comes to a block of the file it has no room for, in front of two stored ones, when
what reaches over the end has been appended. -/
def TearsWrite (bs count : Nat) (fs : Fstree σ) (n : FileNode) (offset : Nat) (data : Buffer)
    (size : Nat) : Prop :=
  let rest := offset + size - n.size
  let added := addedBlocks bs fs.noSparse n (overEnd n offset data) rest
  AppendFits bs count fs n (overEnd n offset data) rest ∧
    Tears bs fs.noSparse
      (fun x => Covers n.sparse x ∧
        ¬ (TakesTail bs n (overEnd n offset data) rest ∧ x = takenBlock bs n))
      (n.size + rest) offset data (min size (n.size - offset)) count (fs.dataOffset + added)
      (n.stored bs + added)

/-- What is left of the other files by a write that fails. -/
def WriteFailed (bs count : Nat) (view : σ → Bytes) (i : Nat) (n : FileNode) (offset : Nat)
    (data : Buffer) (size : Nat) (fs fs' : Fstree σ) : Prop :=
  (TearsWrite bs count fs n offset data size →
    Torn bs count view i n (lastByte bs fs.noSparse (view fs.volume) fs.dataOffset n
      (overEnd n offset data) (offset + size - n.size)) fs fs') ∧
    (¬ TearsWrite bs count fs n offset data size → FilesKept bs count view (· ≠ i) fs fs')

/-- Behind an append, a write in place comes to the block that the request tells. -/
theorem Lengthened.tears_iff {rest avail : Nat} (hbs : 0 < bs)
    (h : Lengthened bs count view i n m data rest fs fs₁) (hfits : fs₁.dataOffset ≤ count)
    (havail : offset + avail ≤ n.size) (request : Buffer) :
    TearsFile bs count fs₁ m offset request avail ↔
      AppendFits bs count fs n data rest ∧
        Tears bs fs.noSparse
          (fun x => Covers n.sparse x ∧ ¬ (TakesTail bs n data rest ∧ x = takenBlock bs n))
          (n.size + rest) offset request avail count
          (fs.dataOffset + addedBlocks bs fs.noSparse n data rest)
          (n.stored bs + addedBlocks bs fs.noSparse n data rest) := by
  have hstored := h.stored
  have hoffset := h.dataOffset
  have hin : ∀ x, 0 < pieceSize bs offset avail x → x < n.blocks bs := by
    intro x hpos
    unfold pieceSize pieceStart at hpos
    exact (lt_blockCount_iff hbs).2 (by omega)
  have hgrows : ∀ x, Grows bs (Covers m.sparse) offset request avail x ↔
      Grows bs (fun x => Covers n.sparse x ∧
        ¬ (TakesTail bs n data rest ∧ x = takenBlock bs n)) offset request avail x := by
    intro x
    apply and_congr_right
    intro hpos
    rw [h.covers x (hin x hpos)]
  have hshrinks : ∀ x, Shrinks bs fs₁.noSparse (Covers m.sparse) m.size offset request avail x ↔
      Shrinks bs fs.noSparse (fun x => Covers n.sparse x ∧
        ¬ (TakesTail bs n data rest ∧ x = takenBlock bs n)) (n.size + rest) offset request avail
          x := by
    intro x
    rw [h.noSparse, h.size_eq]
    apply and_congr_right
    intro hpos
    rw [h.covers x (hin x hpos)]
  unfold TearsFile AppendFits Tears
  rw [h.movable_iff, and_assoc, and_iff_right (show fs.dataOffset +
    addedBlocks bs fs.noSparse n data rest ≤ count by omega),
    show fs₁.dataOffset = fs.dataOffset + addedBlocks bs fs.noSparse n data rest from hoffset,
    show m.stored bs = n.stored bs + addedBlocks bs fs.noSparse n data rest from hstored]
  apply and_congr_right
  intro _
  apply exists_congr
  intro x
  rw [firstFull_congr hgrows hshrinks]
  apply and_congr_right
  intro hx
  have hblocks := hin x hx.1.1
  rw [count_congr fun y hy => not_congr (h.covers y (Nat.lt_trans hy hblocks))]

/-- The write in place fails. -/
theorem Lengthened.writeFailed (hbs : 0 < bs) (hle : offset ≤ n.size)
    (h : Lengthened bs count view i n m (overEnd n offset data) (offset + size - n.size) fs fs₁)
    (hfits : fs₁.dataOffset ≤ count) (hkept : FilesKept bs count view (· ≠ i) fs fs₁)
    (h' : WriteFails bs count view i m offset data (min size (n.size - offset)) fs₁ fs') :
    WriteFailed bs count view i n offset data size fs fs' := by
  have hiff := h.tears_iff hbs hfits
    (show offset + min size (n.size - offset) ≤ n.size by omega) data
  have hwrite : TearsWrite bs count fs n offset data size ↔
      TearsFile bs count fs₁ m offset data (min size (n.size - offset)) := hiff.symm
  unfold WriteFailed
  rw [hwrite]
  constructor
  · intro htears
    have hstored := htears.2
    obtain ⟨x, _, hrank⟩ := hstored
    exact (h'.1 htears).trans h.closed hkept (h.last (by omega))
  · intro hnot
    exact hkept.trans (h'.2 hnot)

theorem FilesKept.writeFailed (h : FilesKept bs count view (· ≠ i) fs fs')
    (hnot : ¬ TearsWrite bs count fs n offset data size) :
    WriteFailed bs count view i n offset data size fs fs' :=
  ⟨fun htears => absurd htears hnot, fun _ => h⟩

theorem fileWrite_done (hb : Backing vol count view) (h : Housed vol.blocksize count fs)
    (hn : fs.files[i]? = some n) (hold : data.Holds size) (hsize : 0 < size)
    (hblocks : blockCount (max n.size (offset + size)) vol.blocksize < 2 ^ 32) :
    Call.Returns (fileWrite vol i offset data size fs)
      (fun _ => WriteDone vol.blocksize count view i n offset data size fs)
      (WriteFailed vol.blocksize count view i n offset data size fs) := by
  have hbs := hb.store.blocksize_pos
  have hcount : ∀ k ≤ max n.size (offset + size), blockCount k vol.blocksize < 2 ^ 32 :=
    fun k hk => Nat.lt_of_le_of_lt (blockCount_mono hbs hk) hblocks
  have hplace : offset / vol.blocksize * vol.blocksize + offset % vol.blocksize = offset :=
    Nat.div_add_mod' _ _
  have hloop : ∀ {fs₁ : Fstree σ} {m : FileNode} (k : Nat), Housed vol.blocksize count fs₁ →
      fs₁.files[i]? = some m → m.size ≤ max n.size (offset + size) → offset + k ≤ m.size →
      data.Holds k →
      Call.Returns (fileWriteLoop vol i k (offset / vol.blocksize) data
          (offset % vol.blocksize) k fs₁)
        (fun _ => Written vol.blocksize count view i m offset (data.bytes k) fs₁)
        (WriteFails vol.blocksize count view i m offset data k fs₁) := by
    intro fs₁ m k h₁ hm hmsize hin hk
    have hwritten := fileWriteLoop_written hb k (offset / vol.blocksize) data
      (offset % vol.blocksize) k h₁ hm (hcount _ hmsize) (Nat.mod_lt _ hbs) (by omega) hk
    rwa [hplace] at hwritten
  unfold fileWrite
  rw [if_neg (Nat.ne_of_gt hsize), Call.bind_apply, file_eq hn, Outcome.bind_ok]
  by_cases hgap : offset > n.size
  · -- zeros first, and nothing is left to write in place
    have hsum : n.size + (offset - n.size) = offset := by omega
    have hnot : ¬ TearsWrite vol.blocksize count fs n offset data size := by
      intro htears
      have hplace := htears.2
      rw [show min size (n.size - offset) = 0 by omega] at hplace
      exact not_tears_zero hplace
    rw [Call.guard_pos hgap, Call.bind_apply]
    have happ := fileAppend_appended hb h hn (Buffer.holds_none (offset - n.size))
      (by rw [hsum]; exact hcount offset (by omega))
    cases hok : fileAppend vol i none (offset - n.size) fs with
    | stuck => trivial
    | fail fs₁ => rw [hok] at happ; exact FilesKept.writeFailed happ hnot
    | ok u fs₁ =>
        rw [hok] at happ
        obtain ⟨m, hm, hmsize, _⟩ := happ.node
        rw [hsum] at hmsize
        rw [Outcome.bind_ok, Call.bind_apply, file_eq hm, Outcome.bind_ok, hmsize, Nat.sub_self,
          Call.guard_pos hsize, if_neg (fun hnull => hnull.2 rfl), advance_zero, Nat.sub_zero]
        apply Call.Returns.bind ((fileAppend_appended hb happ.housed hm hold
          (by rw [hmsize]; exact hcount _ (by omega))).mono (fun _ _ happ' => happ')
            fun _ hkept => (happ.others.trans hkept).writeFailed hnot)
        intro _ fs₂ happ'
        rw [if_pos hsize, fileWriteLoop_zero]
        exact writeDone_behind hb h hn hgap hsize (hcount offset (by omega)) hok happ hm happ'
  · rw [Call.guard_neg hgap, Call.bind_apply, Call.pure_apply, Outcome.bind_ok, Call.bind_apply,
      file_eq hn, Outcome.bind_ok]
    by_cases hover : size > n.size - offset
    · -- what reaches over the end first
      have havail : offset + (n.size - offset) = n.size := by omega
      have hrest : offset + size - n.size = size - (n.size - offset) := by omega
      have hmin : min size (n.size - offset) = n.size - offset := by omega
      have hhold : (overEnd n offset data).Holds (size - (n.size - offset)) :=
        Buffer.Holds.advance (by rw [Nat.add_sub_cancel' (Nat.le_of_lt hover)]; exact hold)
      have hfew : blockCount (n.size + (size - (n.size - offset))) vol.blocksize < 2 ^ 32 :=
        hcount _ (by omega)
      rw [Call.guard_pos hover, Call.bind_apply, Call.ite_apply]
      split
      · trivial
      apply Call.Returns.bind (((fileAppend_appended hb h hn hhold hfew).and
        (fileAppend_lengthened hb h hn hhold hfew)).mono (fun _ _ hdone => hdone) ?_)
      · intro _ fs₁ hdone
        obtain ⟨happ, m', hlength⟩ := hdone
        obtain ⟨m, hm, hmsize, _⟩ := happ.node
        obtain rfl : m' = m := by
          rw [hlength.node, Option.some.injEq] at hm
          exact hm
        apply (hloop (n.size - offset) happ.housed hm (by omega) (by omega)
          (hold.mono (Nat.le_of_lt hover))).mono
        · intro _ _ hwritten
          exact happ.writeDone hold havail hover hm hwritten
        · intro _ hfail
          rw [← hrest] at hlength
          rw [← hmin] at hfail
          exact hlength.writeFailed hbs (by omega) happ.housed.fits happ.others hfail
      · intro _ hfail
        apply FilesKept.writeFailed hfail.1
        intro htears
        have hroom := htears.1
        rw [hrest] at hroom
        exact hfail.2 hroom
    · rw [Call.guard_neg hover, Call.bind_apply, Call.pure_apply, Outcome.bind_ok, if_neg hover]
      apply (hloop size h hn (by omega) (by omega) hold).mono
      · intro _ _ hwritten
        exact hwritten.writeDone hold (by omega)
      · intro _ hfail
        have hrest : offset + size - n.size = 0 := by omega
        have hmin : min size (n.size - offset) = size := by omega
        have hlength : Lengthened vol.blocksize count view i n n (overEnd n offset data) 0 fs fs :=
          .refl hn _
        rw [← hrest] at hlength
        rw [← hmin] at hfail
        exact hlength.writeFailed hbs (by omega) h.fits (FilesKept.refl view _ h) hfail

/-- File `i` is overwritten by `data` from `offset` on, and the others are as they were. -/
def WriteLaw (vol : Volume σ) (i offset : Nat) (data : List UInt8) (fs fs' : Fstree σ) : Prop :=
  (∀ c, Reads vol i c fs → Reads vol i (writeOver c offset data) fs') ∧
    ∀ j, j ≠ i → ∀ c, Reads vol j c fs' ↔ Reads vol j c fs

theorem WriteDone.law_iff (hb : Backing vol count view) (h : Housed vol.blocksize count fs)
    (hn : fs.files[i]? = some n)
    (hdone : WriteDone vol.blocksize count view i n offset data size fs fs') :
    WriteLaw vol i offset (data.bytes size) fs fs' ↔
      WriteSound vol.blocksize (view fs.volume) n offset data size := by
  obtain ⟨m, hm, hiff⟩ := hdone.node
  rw [← hiff]
  constructor
  · intro hlaw
    have hreads := hlaw.1 _ ((reads_iff_contents hb.store h hn).2 rfl)
    exact (reads_iff_contents hb.store hdone.housed hm).1 hreads
  · intro hsame
    constructor
    · intro c hc
      rw [reads_iff_contents hb.store h hn] at hc
      rw [reads_iff_contents hb.store hdone.housed hm, hsame, hc]
    · intro j hj c
      exact hdone.others.reads_iff hb.store h hj

theorem fileWrite_empty (vol : Volume σ) (i offset : Nat) (data : Buffer) (fs : Fstree σ) :
    fileWrite vol i offset data 0 fs = .ok () fs := by
  unfold fileWrite
  rw [if_pos rfl, Call.pure_apply]

/-- A successful write overwrites the file from `offset` on and changes no other, if the last
block the file had is not in the way of what is appended; writing nothing changes nothing. -/
theorem fileWrite_law (hb : Backing vol count view) (h : Housed vol.blocksize count fs)
    (hn : fs.files[i]? = some n) (hold : data.Holds size)
    (hblocks : 0 < size → blockCount (max n.size (offset + size)) vol.blocksize < 2 ^ 32)
    (hok : fileWrite vol i offset data size fs = .ok () fs') :
    (size = 0 → fs' = fs) ∧
      (0 < size → WriteSound vol.blocksize (view fs.volume) n offset data size →
        WriteLaw vol i offset (data.bytes size) fs fs') := by
  constructor
  · intro hzero
    rw [hzero, fileWrite_empty, Outcome.ok.injEq] at hok
    exact hok.2.symm
  · intro hsize hsound
    have hdone := fileWrite_done hb h hn hold hsize (hblocks hsize)
    rw [hok] at hdone
    exact (hdone.law_iff hb h hn).2 hsound

/-- Two bytes into a region of two blocks, in front of a stored block. -/
theorem fileWrite_law_region :
    let fs : Fstree Bytes := ⟨fun _ => 7, 1, false, [⟨12, 0, [⟨0, 2⟩]⟩]⟩
    ∃ fs', fileWrite (idealVolume 4 4) 0 5 (some [1, 2]) 2 fs = .ok () fs' ∧
      (2 = 0 → fs' = fs) ∧
      (0 < 2 → WriteSound 4 fs.volume ⟨12, 0, [⟨0, 2⟩]⟩ 5 (some [1, 2]) 2 →
        WriteLaw (idealVolume 4 4) 0 5 [1, 2] fs fs') := by
  intro fs
  have hok : (fileWrite (idealVolume 4 4) 0 5 (some [1, 2]) 2 fs).val? = some () := by
    decide +kernel
  have hb : Backing (idealVolume 4 4) 4 id :=
    idealVolume_backing (by decide) (by decide) (by decide)
  have hfs : Housed 4 4 fs := ⟨show Layout 4 1 [⟨12, 0, [⟨0, 2⟩]⟩] by decide, by decide⟩
  obtain ⟨fs', hres⟩ := Outcome.exists_ok hok
  exact ⟨fs', hres, fileWrite_law hb hfs rfl (by simp) (by decide) hres⟩

/-- Nothing is written behind an empty file, which stays empty; and one byte behind a last
block that follows a region moves that block in front of the region. -/
theorem fileWrite_short :
    let vol := idealVolume 4 4
    let empty : Fstree Bytes := ⟨fun _ => 0, 0, false, [⟨0, 0, []⟩]⟩
    let fs : Fstree Bytes :=
      ⟨fun p => if p = 0 then 1 else if p = 1 then 2 else 0, 1, false, [⟨6, 0, [⟨0, 1⟩]⟩]⟩
    (Housed 4 4 empty ∧ fileWrite vol 0 3 none 0 empty = .ok () empty ∧
      ¬ WriteLaw vol 0 3 [] empty empty) ∧
    ∃ fs', Housed 4 4 fs ∧ Reads vol 0 [0, 0, 0, 0, 1, 2] fs ∧
      fileWrite vol 0 6 (some [3]) 1 fs = .ok () fs' ∧
      (fileRead vol 0 0 7 fs').val? = some [1, 2, 0, 0, 0, 0, 3] ∧
      ¬ WriteLaw vol 0 6 [3] fs fs' := by
  intro vol empty fs
  have hv : BlockStore vol 4 id := idealVolume_blockStore (by decide)
  constructor
  · have hempty : Housed 4 4 empty := ⟨show Layout 4 0 [⟨0, 0, []⟩] by decide, by decide⟩
    refine ⟨hempty, fileWrite_empty _ _ _ _ _, ?_⟩
    intro hlaw
    obtain ⟨n, hn, hsize⟩ := (hlaw.1 [] ((reads_iff hv hempty).2 rfl)).1
    cases hn
    exact absurd hsize (by decide)
  · have hfs : Housed 4 4 fs := ⟨show Layout 4 1 [⟨6, 0, [⟨0, 1⟩]⟩] by decide, by decide⟩
    have hreads : Reads vol 0 [0, 0, 0, 0, 1, 2] fs := (reads_iff hv hfs).2 (by decide +kernel)
    have hrun : ((do
        fileWrite vol 0 6 (some [3]) 1
        fileRead vol 0 0 7 : Call (Fstree Bytes) (List UInt8)) fs).val? =
          some [1, 2, 0, 0, 0, 0, 3] := by decide +kernel
    rw [Call.bind_apply] at hrun
    obtain ⟨_, fs', hres, hread⟩ := Outcome.of_bind_val? hrun
    refine ⟨fs', hfs, hreads, hres, hread, ?_⟩
    intro hlaw
    exact absurd ((hlaw.1 _ hreads).read_eq hread) (by decide)

end Write

end ImageTool.Fstree
