import Mathlib.Data.Nat.Count
import ImageTool.Fstree.Steps

/-!
# The contents of files

What a file holds, as a list of bytes: zeros in its sparse regions, and elsewhere the
bytes of the block that lies behind as many stored blocks as there are in front of it
in the file.  The functions of the source find that block by subtracting region
lengths on the way; `locate_stored` says that they find the right one, and
`fileRead_eq` that `fstree_file_read` returns the contents.
-/

namespace ImageTool.Fstree

open ImageTool.Lib ImageTool.Image ImageTool.Util

/-! ## The rank of a stored block -/

instance (rs : List Region) : DecidablePred (Covers rs) := fun i =>
  inferInstanceAs (Decidable (∃ r ∈ rs, r.Has i))

/-- The number of stored blocks of a file in front of block `b`. -/
def rank (rs : List Region) (b : Nat) : Nat := Nat.count (fun x => ¬ Covers rs x) b

section Rank

variable {lo hi b y : Nat} {r : Region} {rs rs' : List Region}

theorem rank_le (rs : List Region) (b : Nat) : rank rs b ≤ b := Nat.count_le _

theorem rank_lt {c : Nat} (hb : ¬ Covers rs b) (hc : b < c) : rank rs b < rank rs c :=
  Nat.count_strict_mono hb hc

theorem rank_succ (rs : List Region) (b : Nat) :
    rank rs (b + 1) = rank rs b + if ¬ Covers rs b then 1 else 0 := Nat.count_succ _ b

/-- The lists agree in front of block `b`. -/
theorem rank_congr (h : ∀ x < b, Covers rs x ↔ Covers rs' x) : rank rs b = rank rs' b := by
  induction b with
  | zero => rfl
  | succ b ih =>
      have hlast := h b (Nat.lt_succ_self b)
      rw [rank_succ, rank_succ, ih fun x hx => h x (Nat.lt_succ_of_lt hx)]
      simp only [hlast]

/-- A region hides those of its blocks that are in front of block `b`. -/
theorem rank_cons (h : ∀ x, r.Has x → ¬ Covers rs x) :
    rank (r :: rs) b + min r.count (b - r.index) = rank rs b := by
  induction b with
  | zero => simp [rank]
  | succ b ih =>
      rw [rank_succ, rank_succ]
      by_cases hin : r.Has b
      · have hcover : Covers (r :: rs) b := (covers_cons r rs b).2 (Or.inl hin)
        rw [if_neg (not_not.2 hcover), if_pos (h b hin)]
        unfold Region.Has at hin
        omega
      · have hsame : Covers (r :: rs) b ↔ Covers rs b := by simp [hin]
        simp only [hsame]
        unfold Region.Has at hin
        omega

theorem Within.apart (h : Within lo hi (r :: rs)) {x : Nat} (hx : r.Has x) : ¬ Covers rs x := by
  intro hcover
  have hbehind := (h.2.2.bounds hcover).1
  unfold Region.Has at hx
  omega

/-- The blocks of a file are the stored ones and the sparse ones. -/
theorem rank_add_total (h : Within lo hi rs) : rank rs hi + total rs = hi := by
  induction rs generalizing lo with
  | nil =>
      have hall : rank [] hi = hi := Nat.count_of_forall fun x _ => covers_nil x
      rw [hall, total_nil, Nat.add_zero]
  | cons r rs ih =>
      have hcons := rank_cons (b := hi) fun x hx => h.apart hx
      have hend := h.2.2.le
      have hrest := ih h.2.2
      rw [total_cons]
      omega

theorem FileNode.Valid.stored_eq {bs : Nat} {n : FileNode} (h : n.Valid bs) :
    n.stored bs = rank n.sparse (n.blocks bs) := by
  have htotal := rank_add_total h.within
  unfold FileNode.stored
  omega

/-- A stored block of a file is one of those that are counted. -/
theorem FileNode.Valid.rank_lt {bs : Nat} {n : FileNode} (h : n.Valid bs)
    (hb : ¬ Covers n.sparse b) (hblocks : b < n.blocks bs) :
    rank n.sparse b < n.stored bs := by
  rw [h.stored_eq]
  exact Fstree.rank_lt hb hblocks

theorem sub64_u64_add (x c : Nat) : sub64 (u64 (x + c)) c = u64 x := by
  unfold sub64 u64
  omega

/-- The walk of the reading and writing functions ends at the right block. -/
theorem locate_stored (h : Within lo hi rs) (hb : ¬ Covers rs b) :
    locate b (u64 (y + (b - rank rs b))) rs = (u64 y, none) := by
  induction rs generalizing lo with
  | nil =>
      have hall : rank [] b = b := Nat.count_of_forall fun x _ => covers_nil x
      rw [hall, Nat.sub_self]
      rfl
  | cons r rs ih =>
      have hcons := rank_cons (b := b) fun x hx => h.apart hx
      have hle := rank_le rs b
      rw [covers_cons, not_or] at hb
      obtain ⟨hout, hrest⟩ := hb
      unfold locate
      rw [if_neg (by rw [inRegion_iff]; exact hout)]
      unfold Region.Has at hout
      by_cases hlt : r.index < b
      · have hsum : y + (b - rank (r :: rs) b) = y + (b - rank rs b) + r.count := by omega
        rw [if_pos hlt, hsum, sub64_u64_add]
        exact ih h.2.2 hrest
      · have hsame : rank (r :: rs) b = rank rs b := by omega
        rw [if_neg hlt, hsame]
        exact ih h.2.2 hrest

/-- In front of a sparse block the walk ends at the region that contains it. -/
theorem locate_sparse (h : Within lo hi rs) (hb : Covers rs b) :
    ∃ it : Region, it.Has b ∧
      locate b (u64 (y + (b - rank rs b))) rs = (u64 (y + (b - it.index)), some it) := by
  induction rs generalizing lo with
  | nil => exact absurd hb (covers_nil b)
  | cons r rs ih =>
      have hcons := rank_cons (b := b) fun x hx => h.apart hx
      have hle := rank_le rs b
      by_cases hin : r.Has b
      · refine ⟨r, hin, ?_⟩
        have hrest : rank rs b = b := by
          apply Nat.count_of_forall
          intro x hx hcover
          have hbehind := (h.2.2.bounds hcover).1
          unfold Region.Has at hin
          omega
        unfold locate
        rw [if_pos (inRegion_iff.2 hin)]
        unfold Region.Has at hin
        rw [show b - rank (r :: rs) b = b - r.index by omega]
      · have hnext : Covers rs b := ((covers_cons r rs b).1 hb).resolve_left hin
        have hbehind := (h.2.2.bounds hnext).1
        have hpos := h.2.1
        obtain ⟨it, hhas, hit⟩ := ih h.2.2 hnext
        refine ⟨it, hhas, ?_⟩
        have hsum : y + (b - rank (r :: rs) b) = y + (b - rank rs b) + r.count := by omega
        unfold locate
        rw [if_neg (by rw [inRegion_iff]; exact hin), if_pos (by omega), hsum, sub64_u64_add]
        exact hit

end Rank

/-! ## Contents -/

/-- Byte `o` of block `b` of a file, over the contents of the volume. -/
def blockByte (bs : Nat) (view : Bytes) (n : FileNode) (b o : Nat) : UInt8 :=
  if Covers n.sparse b then 0
  else view (n.startIndex * bs + (rank n.sparse b * bs + o))

/-- A file as a flat store, from its first byte up to the end of its last block. -/
def bytesOf (bs : Nat) (view : Bytes) (n : FileNode) : Bytes :=
  fun p => blockByte bs view n (p / bs) (p % bs)

/-- The contents of a file. -/
def contents (bs : Nat) (view : Bytes) (n : FileNode) : List UInt8 :=
  (bytesOf bs view n).slice 0 n.size

/-- The contents of the files of an fstree. -/
def fileContents (bs : Nat) (view : σ → Bytes) (fs : Fstree σ) (i : Nat) :
    Option (List UInt8) :=
  fs.files[i]?.map (contents bs (view fs.volume))

section Contents

variable {bs b o : Nat} {view view' : Bytes} {n m : FileNode}

@[simp] theorem length_contents : (contents bs view n).length = n.size :=
  Bytes.length_slice _ _ _

theorem bytesOf_block (ho : o < bs) : bytesOf bs view n (b * bs + o) = blockByte bs view n b o := by
  unfold bytesOf
  rw [Nat.mul_comm b bs, Nat.mul_add_div (Nat.zero_lt_of_lt ho), Nat.div_eq_of_lt ho,
    Nat.add_zero, Nat.mul_add_mod, Nat.mod_eq_of_lt ho]

theorem div_lt_blocks {p : Nat} (hbs : 0 < bs) (hp : p < n.size) : p / bs < n.blocks bs :=
  (lt_blockCount_iff hbs).2 (Nat.lt_of_le_of_lt (Nat.div_mul_le_self p bs) hp)

/-- The byte of a stored block lies in the run of blocks of the file. -/
theorem FileNode.Valid.byte_lt (h : n.Valid bs) (hb : ¬ Covers n.sparse b)
    (hblocks : b < n.blocks bs) (ho : o < bs) :
    rank n.sparse b * bs + o < n.stored bs * bs :=
  calc
    rank n.sparse b * bs + o < rank n.sparse b * bs + bs := Nat.add_lt_add_left ho _
    _ = (rank n.sparse b + 1) * bs := (Nat.succ_mul _ _).symm
    _ ≤ n.stored bs * bs := Nat.mul_le_mul_right _ (h.rank_lt hb hblocks)

/-- A file that has kept its regions has its bytes where its stored bytes are kept. -/
theorem blockByte_congr (hvalid : n.Valid bs) (hsparse : m.sparse = n.sparse)
    (hdata : ∀ q < n.stored bs * bs,
      view' (m.startIndex * bs + q) = view (n.startIndex * bs + q))
    (hblocks : b < n.blocks bs) (ho : o < bs) :
    blockByte bs view' m b o = blockByte bs view n b o := by
  unfold blockByte
  rw [hsparse]
  by_cases hb : Covers n.sparse b
  · rw [if_pos hb, if_pos hb]
  · rw [if_neg hb, if_neg hb]
    exact hdata _ (hvalid.byte_lt hb hblocks ho)

theorem contents_congr (hbs : 0 < bs) (hvalid : n.Valid bs) (hsize : m.size = n.size)
    (hsparse : m.sparse = n.sparse)
    (hdata : ∀ q < n.stored bs * bs,
      view' (m.startIndex * bs + q) = view (n.startIndex * bs + q)) :
    contents bs view' m = contents bs view n := by
  unfold contents
  rw [hsize]
  apply Bytes.slice_congr
  intro p _ hp
  rw [Nat.zero_add] at hp
  exact blockByte_congr hvalid hsparse hdata (div_lt_blocks hbs hp) (Nat.mod_lt _ hbs)

end Contents

/-! ## Reading -/

/-- The data area lies on a volume of `count` blocks. -/
structure Housed (bs count : Nat) (fs : Fstree σ) : Prop where
  laidOut : LaidOut bs fs
  fits : fs.dataOffset ≤ count

/-- The stored blocks of a file lie on a volume of `count` blocks. -/
structure Placed (bs count : Nat) (n : FileNode) : Prop where
  valid : n.Valid bs
  fits : 0 < n.stored bs → n.startIndex + n.stored bs ≤ count
  stop_lt : 0 < n.stored bs → n.startIndex + n.stored bs < 2 ^ 64

theorem Housed.placed {bs count i : Nat} {fs : Fstree σ} {n : FileNode}
    (h : Housed bs count fs) (hn : fs.files[i]? = some n) : Placed bs count n where
  valid := h.laidOut.valid_at hn
  fits := by
    intro hpos
    exact Nat.le_trans (h.laidOut.stop_le hn hpos) h.fits
  stop_lt := by
    intro hpos
    exact Nat.lt_of_le_of_lt (h.laidOut.stop_le hn hpos) h.laidOut.top_lt

/-- What reading `size` bytes at `offset` makes of the contents of a file. -/
def readBack (c : List UInt8) (offset size : Nat) : List UInt8 :=
  (List.range size).map fun k => c.getD (offset + k) 0

section Read

variable {vol : Volume σ} {count i b o k : Nat} {view : σ → Bytes} {fs : Fstree σ}
variable {n : FileNode}

/-- The block a file has behind `rank` others is on the volume. -/
theorem Housed.block_lt (h : Housed vol.blocksize count fs) (hn : fs.files[i]? = some n)
    (hb : ¬ Covers n.sparse b) (hblocks : b < n.blocks vol.blocksize) :
    n.startIndex + rank n.sparse b < fs.dataOffset := by
  have hrank := (h.laidOut.valid_at hn).rank_lt hb hblocks
  have hstop := h.laidOut.stop_le hn (Nat.zero_lt_of_lt hrank)
  omega

theorem readPartialBlock_eq (hv : BlockStore vol count view)
    (h : Placed vol.blocksize count n) (hn : fs.files[i]? = some n)
    (hblocks : b < n.blocks vol.blocksize) (ho : o + k ≤ vol.blocksize) :
    readPartialBlock vol i b o k fs =
      .ok ((bytesOf vol.blocksize (view fs.volume) n).slice (b * vol.blocksize + o) k) fs := by
  have hbyte : ∀ q < k, bytesOf vol.blocksize (view fs.volume) n (b * vol.blocksize + o + q) =
      blockByte vol.blocksize (view fs.volume) n b (o + q) := by
    intro q hq
    rw [Nat.add_assoc, bytesOf_block (by omega)]
  unfold readPartialBlock
  rw [Call.bind_apply, file_eq hn, Outcome.bind_ok]
  by_cases hb : Covers n.sparse b
  · -- a sparse block
    have hzero : (bytesOf vol.blocksize (view fs.volume) n).slice (b * vol.blocksize + o) k =
        List.replicate k 0 := by
      apply List.ext_getElem
      · simp
      · intro q hq _
        rw [Bytes.getElem_slice, hbyte q (by simpa using hq), List.getElem_replicate]
        exact if_pos hb
    rw [hzero]
    cases hfound : (locate b (u64 (n.startIndex + b)) n.sparse).2 with
    | none => exact absurd hb (locate_none hfound)
    | some it => rfl
  · have hlt := h.valid.rank_lt hb hblocks
    have hfits := h.fits (Nat.zero_lt_of_lt hlt)
    have hstop := h.stop_lt (Nat.zero_lt_of_lt hlt)
    have hrank := rank_le n.sparse b
    have hsum : n.startIndex + b =
        n.startIndex + rank n.sparse b + (b - rank n.sparse b) := by omega
    rw [hsum, locate_stored h.valid.within hb, u64_of_lt (by omega)]
    have hread := readChunk_eq hv fs.volume (i := n.startIndex + rank n.sparse b)
      (by omega) ho
    have hslice : (view fs.volume).slice
        ((n.startIndex + rank n.sparse b) * vol.blocksize + o) k =
          (bytesOf vol.blocksize (view fs.volume) n).slice (b * vol.blocksize + o) k := by
      rw [Bytes.slice_eq_iff]
      intro q hq
      rw [hbyte q hq, blockByte, if_neg hb, Nat.add_mul]
      congr 1
      omega
    rw [hslice] at hread
    change (if o = 0 ∧ k = vol.blocksize then
      onVolume (vol.readBlock (n.startIndex + rank n.sparse b))
      else onVolume (vol.readPartialBlock (n.startIndex + rank n.sparse b) o k)) fs = _
    unfold readChunk at hread
    split
    · rename_i hfull
      rw [if_pos hfull] at hread
      unfold onVolume
      rw [Call.zoom_apply, hread]
      rfl
    · rename_i hpart
      rw [if_neg hpart] at hread
      unfold onVolume
      rw [Call.zoom_apply, hread]
      rfl

theorem fileReadLoop_zero (vol : Volume σ) (i fuel b o : Nat) (fs : Fstree σ) :
    fileReadLoop vol i fuel b o 0 fs = .ok [] fs := by
  cases fuel <;> rfl

theorem fileReadLoop_eq (hv : BlockStore vol count view) (h : Placed vol.blocksize count n)
    (hn : fs.files[i]? = some n) (fuel b o k : Nat) (hfuel : k ≤ fuel)
    (ho : o < vol.blocksize) (hin : b * vol.blocksize + o + k ≤ n.size) :
    fileReadLoop vol i fuel b o k fs =
      .ok ((bytesOf vol.blocksize (view fs.volume) n).slice (b * vol.blocksize + o) k) fs := by
  have hbs := hv.blocksize_pos
  have hvalid := h.valid
  induction fuel generalizing b o k with
  | zero =>
      obtain rfl : k = 0 := by omega
      simp [fileReadLoop]
  | succ fuel ih =>
      unfold fileReadLoop
      by_cases hzero : k = 0
      · subst hzero
        simp
      rw [if_neg hzero]
      generalize hd : (if vol.blocksize - o > k then k else vol.blocksize - o) = d
      have hd' : 0 < d ∧ d ≤ k ∧ o + d ≤ vol.blocksize ∧
          (0 < k - d → o + d = vol.blocksize) := by
        rw [← hd]
        split <;> omega
      obtain ⟨hpos, hle, hfit, hnext⟩ := hd'
      have hblocks : b < n.blocks vol.blocksize := (lt_blockCount_iff hbs).2 (by omega)
      have hlt : b + 1 < 2 ^ 64 := by
        have hsize := hvalid.size_lt
        have hle := Nat.le_mul_of_pos_right b hbs
        omega
      rw [Call.bind_apply, readPartialBlock_eq hv h hn hblocks hfit, Outcome.bind_ok,
        Call.bind_apply, u64_of_lt (by omega)]
      by_cases hlast : k - d = 0
      · obtain rfl : d = k := by omega
        rw [hlast, fileReadLoop_zero, Outcome.bind_ok, Call.pure_apply, List.append_nil]
      · have haddr : (b + 1) * vol.blocksize + 0 = b * vol.blocksize + o + d := by
          have := hnext (Nat.pos_of_ne_zero hlast)
          rw [Nat.add_mul]
          omega
        rw [ih (b + 1) 0 (k - d) (by omega) hbs (by omega), haddr, Outcome.bind_ok,
          Call.pure_apply, Bytes.slice_append, Nat.add_sub_cancel' hle]

/-- `fstree_file_read` gives the contents of a file, and zeros behind its end. -/
theorem fileRead_eq (hv : BlockStore vol count view) (h : Placed vol.blocksize count n)
    (hn : fs.files[i]? = some n) (offset size : Nat) :
    fileRead vol i offset size fs =
      .ok (readBack (contents vol.blocksize (view fs.volume) n) offset size) fs := by
  have hbs := hv.blocksize_pos
  have hbyte : ∀ p, (contents vol.blocksize (view fs.volume) n).getD p 0 =
      if p < n.size then bytesOf vol.blocksize (view fs.volume) n p else 0 := by
    intro p
    split
    · rename_i hp
      unfold contents
      rw [Bytes.getD_slice hp, Nat.zero_add]
    · rename_i hp
      rw [List.getD_eq_getElem?_getD, List.getElem?_eq_none (by simpa using hp),
        Option.getD_none]
  unfold fileRead
  by_cases hzero : size = 0
  · subst hzero
    rfl
  rw [if_neg hzero, Call.bind_apply, file_eq hn, Outcome.bind_ok]
  by_cases hbehind : offset ≥ n.size
  · rw [if_pos hbehind, Call.pure_apply]
    congr 1
    apply List.ext_getElem
    · simp [readBack]
    · intro k _ hk
      simp only [readBack, List.getElem_map, List.getElem_range, List.getElem_replicate, hbyte]
      exact (if_neg (by omega)).symm
  · rw [if_neg hbehind]
    generalize hrest : (if size > n.size - offset then n.size - offset else size) = rest
    have hrest' : rest ≤ size ∧ offset + rest ≤ n.size ∧
        (rest < size → offset + rest = n.size) := by
      rw [← hrest]
      split <;> omega
    obtain ⟨hle, hin, hend⟩ := hrest'
    have haddr : offset / vol.blocksize * vol.blocksize + offset % vol.blocksize = offset := by
      rw [Nat.mul_comm]
      exact Nat.div_add_mod _ _
    have hloop := fileReadLoop_eq hv h hn rest (offset / vol.blocksize)
      (offset % vol.blocksize) rest (Nat.le_refl _) (Nat.mod_lt _ hbs)
      (by rw [haddr]; exact hin)
    rw [haddr] at hloop
    rw [Call.bind_apply, hloop, Outcome.bind_ok, Call.pure_apply]
    congr 1
    apply List.ext_getElem
    · simp [readBack, hle]
    · intro k _ hk
      simp only [readBack, List.getElem_map, List.getElem_range, hbyte]
      by_cases hk' : k < rest
      · rw [List.getElem_append_left (by simpa using hk'), Bytes.getElem_slice,
          if_pos (by omega)]
      · have hsize : k < size := by simpa [readBack] using hk
        have := hend (by omega)
        rw [List.getElem_append_right (by simpa using hk'), List.getElem_replicate,
          if_neg (by omega)]

theorem readBack_all (c : List UInt8) : readBack c 0 c.length = c := by
  apply List.ext_getElem
  · simp [readBack]
  · intro k _ hk
    simp [readBack, List.getD_eq_getElem?_getD, hk]

/-- File `i` has the bytes `c`: that is its size, and reads anywhere give its bytes and
zeros behind them. -/
def Reads (vol : Volume σ) (i : Nat) (c : List UInt8) (fs : Fstree σ) : Prop :=
  (∃ n, fs.files[i]? = some n ∧ n.size = c.length) ∧
    ∀ offset size, fileRead vol i offset size fs = .ok (readBack c offset size) fs

theorem Reads.read_eq {c d : List UInt8} {offset size : Nat} (h : Reads vol i c fs)
    (hread : (fileRead vol i offset size fs).val? = some d) : d = readBack c offset size := by
  rw [h.2 offset size] at hread
  exact (Option.some.inj hread).symm

theorem reads_iff_of_placed (hv : BlockStore vol count view)
    (h : ∀ n, fs.files[i]? = some n → Placed vol.blocksize count n) {c : List UInt8} :
    Reads vol i c fs ↔ fileContents vol.blocksize view fs i = some c := by
  unfold fileContents
  constructor
  · intro hreads
    obtain ⟨⟨n, hn, hsize⟩, hread⟩ := hreads
    have hall := hread 0 n.size
    rw [fileRead_eq hv (h n hn) hn, Outcome.ok.injEq] at hall
    have hsame : contents vol.blocksize (view fs.volume) n = c := by
      calc
        contents vol.blocksize (view fs.volume) n =
            readBack (contents vol.blocksize (view fs.volume) n) 0 n.size := by
          have := readBack_all (contents vol.blocksize (view fs.volume) n)
          rw [length_contents] at this
          exact this.symm
        _ = readBack c 0 c.length := by rw [hall.1, hsize]
        _ = c := readBack_all c
    rw [hn, Option.map_some, hsame]
  · intro hcontents
    obtain ⟨n, hn, hc⟩ := Option.map_eq_some_iff.1 hcontents
    refine ⟨⟨n, hn, ?_⟩, ?_⟩
    · rw [← hc, length_contents]
    · intro offset size
      rw [fileRead_eq hv (h n hn) hn, hc]

theorem reads_iff (hv : BlockStore vol count view) (h : Housed vol.blocksize count fs)
    {c : List UInt8} :
    Reads vol i c fs ↔ fileContents vol.blocksize view fs i = some c :=
  reads_iff_of_placed hv fun _ hn => h.placed hn

theorem reads_iff_contents (hv : BlockStore vol count view) (h : Housed vol.blocksize count fs)
    (hn : fs.files[i]? = some n) {c : List UInt8} :
    Reads vol i c fs ↔ contents vol.blocksize (view fs.volume) n = c := by
  rw [reads_iff hv h]
  unfold fileContents
  rw [hn, Option.map_some, Option.some.injEq]

end Read

end ImageTool.Fstree
