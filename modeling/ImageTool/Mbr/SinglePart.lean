import ImageTool.Mbr.Header

/-!
# A disk with one partition

The only partition of a disk over a block store, allowed to grow, against an array of
zeros.  `Stores` relates the two: up to its block count the partition has the bytes of the
array, and from its used block count on the array is zero.  Reads behind the end that are
not of a whole block, moves behind the used blocks and partial moves of an unused block do
not respect it.
-/

namespace ImageTool.Mbr

open ImageTool.Lib ImageTool.Image

variable {σ : Type} {vol : Volume σ} {count : Nat} {view : σ → Bytes}

namespace Disk

/-! ## Growing -/

theorem u64_add_sub64_one (a b : Nat) :
    u64 (a + sub64 b 1) = sub64 (a + b) 1 := by
  unfold sub64 u64
  omega

theorem sub64_self {a : Nat} (h : a < 2 ^ 64) : sub64 a a = 0 := by
  rw [sub64_of_le (Nat.le_refl a) h, Nat.sub_self]

theorem maxSector_single (p : Part) : maxSector [p] = p.lastSector := by
  have htop : ∀ n : Nat, (if n > 0 then n else 0) = n := by
    intro n
    split <;> omega
  unfold maxSector
  rw [List.foldl_cons, List.foldl_nil]
  exact htop _

/-- Nothing lies behind the only partition; growing it clears the new blocks. -/
theorem growPartition_single (hv : BlockStore vol count view)
    (hbs : vol.blocksize = sectorSize) (h64 : count * sectorSize < 2 ^ 64) (v : σ) (p : Part)
    {diff : Nat} (hend : p.index + p.blkCount + roundUp diff ≤ count) :
    ∃ v', growPartition vol 0 diff ⟨v, [p]⟩ =
        .ok () ⟨v', [{ p with blkCount := p.blkCount + roundUp diff }]⟩ ∧
      view v' = (view v).clear ((p.index + p.blkCount) * sectorSize)
        (roundUp diff * sectorSize) := by
  have hsector : sectorSize = 512 := rfl
  have hmul : (p.index + p.blkCount + roundUp diff) * sectorSize ≤ count * sectorSize :=
    Nat.mul_le_mul_right _ hend
  rw [Nat.add_mul] at hmul
  have hcount : count < 2 ^ 64 := by
    rw [hsector] at h64
    omega
  have hdiff : u64 (roundUp diff) = roundUp diff := u64_of_lt (by omega)
  have hmax : sub64 (maxSector [p]) (sub64 (p.index + p.blkCount) 1) = 0 := by
    rw [maxSector_single, Part.lastSector, u64_add_sub64_one]
    exact sub64_self (u64_lt _)
  have hbytes : (p.index + p.blkCount) * sectorSize + roundUp diff * sectorSize ≤
      count * vol.blocksize := by
    rw [hbs]
    exact hmul
  obtain ⟨v', hwrite, hview⟩ := volumeWrite_eq hv (by omega) v
    (Buffer.holds_none (roundUp diff * sectorSize)) hbytes
  have hnone : shrinkBehind vol p.index 0 1 ⟨v, [p]⟩ = .ok () ⟨v, [p]⟩ := by
    unfold shrinkBehind
    rw [Call.bind_apply, part_apply (show [p][0]? = some p from rfl), Outcome.bind_ok,
      Call.guard_neg (Nat.lt_irrefl _)]
    rfl
  refine ⟨v', ?_, by rw [hview, Bytes.clear_eq_splice]; rfl⟩
  rw [growPartition_eq (show [p][0]? = some p from rfl),
    show ([p] : List Part).length = 1 from rfl, hnone]
  change growTail vol 0 p.index p.blkCount diff ⟨v, [p]⟩ = _
  unfold growTail
  rw [hdiff, Call.bind_apply, Call.get_apply, Outcome.bind_ok]
  simp only [hmax, Nat.zero_mul, u64_zero]
  unfold volumeMemmove onVolume
  rw [if_pos (Or.inr rfl), Call.bind_apply, Call.zoom_apply, Call.pure_apply,
    Outcome.mapState_ok, Outcome.bind_ok, Call.bind_apply, Call.zoom_apply,
    u64_of_lt (by omega), u64_of_lt (by omega), hwrite, Outcome.mapState_ok, Outcome.bind_ok,
    Call.bind_apply, Call.modify_apply, Outcome.bind_ok]
  unfold update
  rw [Call.modify_apply]
  have hshift : shiftUp p.index (roundUp diff) p = p := if_neg (Nat.lt_irrefl _)
  simp only [List.map_cons, List.map_nil, hshift, List.modify_zero_cons]
  rw [u64_of_lt (by omega)]

/-! ## The partition against an array -/

/-- The only partition of a disk, which may grow, has the bytes of an array that is zero from
the used blocks on. -/
structure StoredIn (view : σ → Bytes) (count : Nat) (p : Part) (v : σ) (s : Bytes) :
    Prop where
  grows : p.grows = true
  starts : p.index = reserved
  aligned : p.blkCount % partAlign = 0
  min_le : p.blkCountMin ≤ p.blkCount
  used_le : p.blkUsed ≤ p.blkCount
  fits : p.blkCount ≤ count - reserved
  same : Bytes.AgreeBelow (p.blkCount * sectorSize)
    ((view v).window (p.index * sectorSize)) s
  unused : ∀ x, p.blkUsed * sectorSize ≤ x → s x = 0

/-- The disk has one partition, which stores the array. -/
def Stores (view : σ → Bytes) (count : Nat) (d : Disk σ) (s : Bytes) : Prop :=
  ∃ v p, d = ⟨v, [p]⟩ ∧ StoredIn view count p v s

/-- What the shortcuts of the source get right.  Reads behind the end are of a whole block,
no move of a used block ends behind the used ones, and a partial move of an unused block to a
used one is of a whole block. -/
def Allowed (d : Disk σ) (op : BlockOp) : Prop :=
  ∀ p, d.parts = [p] →
    match op with
    | .readPartial i _ n => i < p.blkCount ∨ n = sectorSize
    | .move src dst => src < p.blkUsed → dst < p.blkUsed
    | .movePartial src dst _ _ n =>
        (src < p.blkUsed → dst < p.blkUsed) ∧
          (dst < p.blkUsed → src < p.blkUsed ∨ n = sectorSize)
    | _ => True

/-- The blocks an operation starts at lie below `max`. -/
def StartsBelow (max : Nat) : BlockOp → Prop
  | .read i => i < max
  | .readPartial i _ _ => i < max
  | .write i _ => i < max
  | .writePartial i _ _ _ => i < max
  | .move i j => i < max ∧ j < max
  | .movePartial i j _ _ _ => i < max ∧ j < max
  | .discard i _ => i < max
  | .commit => True

/-- The last byte of a range within a block of the first `n`. -/
private theorem block_range_le {i a m n : Nat} (hi : i < n) (ha : a + m ≤ sectorSize) :
    i * sectorSize + a + m ≤ n * sectorSize := by
  calc i * sectorSize + a + m ≤ i * sectorSize + sectorSize := by omega
    _ = (i + 1) * sectorSize := by rw [Nat.add_mul, Nat.one_mul]
    _ ≤ n * sectorSize := Nat.mul_le_mul_right _ hi

private theorem count_lt_word (h64 : count * sectorSize < 2 ^ 64) : count < 2 ^ 64 := by
  rw [show sectorSize = 512 from rfl] at h64
  omega

/-- An address of the volume, seen from the start of the partition. -/
private theorem window_index (p : Part) (i off : Nat) :
    (p.index + i) * sectorSize + off = p.index * sectorSize + (i * sectorSize + off) := by
  rw [Nat.add_mul]
  omega

section Steps

variable {p : Part} {v v' : σ} {s : Bytes}

/-- Writing within a block of the partition. -/
theorem StoredIn.splice (h : StoredIn view count p v s) {i off : Nat} {data : List UInt8}
    (hi : i < p.blkCount) (hoff : off + data.length ≤ sectorSize)
    (hview : view v' = (view v).splice ((p.index + i) * sectorSize + off) data) :
    StoredIn view count { p with blkUsed := max p.blkUsed (i + 1) } v'
      (s.splice (i * sectorSize + off) data) where
  grows := h.grows
  starts := h.starts
  aligned := h.aligned
  min_le := h.min_le
  used_le := by
    have hle := h.used_le
    show max p.blkUsed (i + 1) ≤ p.blkCount
    omega
  fits := h.fits
  same := by
    show Bytes.AgreeBelow (p.blkCount * sectorSize) ((view v').window (p.index * sectorSize)) _
    rw [hview, window_index, Bytes.window_splice]
    exact h.same.splice _ _
  unused := by
    intro x hx
    have hend := block_range_le (Nat.lt_succ_self i) hoff
    have hlast : (i + 1) * sectorSize ≤ max p.blkUsed (i + 1) * sectorSize :=
      Nat.mul_le_mul_right _ (Nat.le_max_right _ _)
    have hused : p.blkUsed * sectorSize ≤ max p.blkUsed (i + 1) * sectorSize :=
      Nat.mul_le_mul_right _ (Nat.le_max_left _ _)
    rw [Bytes.splice_apply_of_ge (Nat.le_trans hend (Nat.le_trans hlast hx))]
    exact h.unused x (Nat.le_trans hused hx)

/-- Moving between used blocks of the partition. -/
theorem StoredIn.move (h : StoredIn view count p v s) {i j a b n : Nat} (hi : i < p.blkUsed)
    (hj : j < p.blkUsed) (ha : a + n ≤ sectorSize) (hb : b + n ≤ sectorSize)
    (hview : view v' = (view v).move ((p.index + j) * sectorSize + b)
      ((p.index + i) * sectorSize + a) n) :
    StoredIn view count p v' (s.move (j * sectorSize + b) (i * sectorSize + a) n) where
  grows := h.grows
  starts := h.starts
  aligned := h.aligned
  min_le := h.min_le
  used_le := h.used_le
  fits := h.fits
  same := by
    have hused := h.used_le
    have hsrc := block_range_le (show i < p.blkCount by omega) ha
    rw [hview, window_index, window_index, Bytes.window_move]
    exact h.same.move hsrc
  unused := by
    intro x hx
    have hdst := block_range_le hj hb
    rw [Bytes.move_apply_of_ge (by omega)]
    exact h.unused x hx

/-- Clearing used blocks of the partition, and as many behind these as one likes; the used
blocks may end with the blocks in front. -/
theorem StoredIn.clear (h : StoredIn view count p v s) {i n m used : Nat}
    (hend : i + n ≤ p.blkUsed) (hn : n ≤ m) (hm : n = m ∨ i + n = p.blkUsed)
    (hused : used = p.blkUsed ∨ used = i ∧ i + n = p.blkUsed)
    (hview : view v' = (view v).clear ((p.index + i) * sectorSize) (n * sectorSize)) :
    StoredIn view count { p with blkUsed := used } v'
      (s.clear (i * sectorSize) (m * sectorSize)) where
  grows := h.grows
  starts := h.starts
  aligned := h.aligned
  min_le := h.min_le
  used_le := by
    have hle := h.used_le
    show used ≤ p.blkCount
    omega
  fits := h.fits
  same := by
    have hsame : s.clear (i * sectorSize) (m * sectorSize) =
        s.clear (i * sectorSize) (n * sectorSize) := by
      rcases hm with rfl | hlast
      · rfl
      · rw [← Nat.add_sub_cancel' hn, Nat.add_mul, ← Bytes.clear_clear_append]
        apply Bytes.clear_eq_self
        intro x hx _
        rw [Bytes.clear_apply_of_ge hx]
        refine h.unused x ?_
        rw [← hlast, Nat.add_mul]
        exact hx
    have hindex := window_index p i 0
    rw [Nat.add_zero, Nat.add_zero] at hindex
    show Bytes.AgreeBelow (p.blkCount * sectorSize) ((view v').window (p.index * sectorSize)) _
    rw [hsame, hview, hindex, Bytes.window_clear]
    exact h.same.clear _ _
  unused := by
    intro x hx
    change used * sectorSize ≤ x at hx
    have hmul : n * sectorSize ≤ m * sectorSize := Nat.mul_le_mul_right _ hn
    unfold Bytes.clear
    split
    · rfl
    · rename_i hout
      refine h.unused x ?_
      rcases hused with rfl | ⟨rfl, hlast⟩
      · exact hx
      · rw [← hlast, Nat.add_mul]
        omega

variable (hv : BlockStore vol count view) (hbs : vol.blocksize = sectorSize)
  (h64 : count * sectorSize < 2 ^ 64)

include hv h64

/-- The maximum block count of the partition. -/
theorem StoredIn.partMaxCount_eq (h : StoredIn view count p v s) :
    partMaxCount vol 0 ⟨v, [p]⟩ =
      max p.blkCount (alignDown (min count maxLba) - reserved) := by
  have hcount := count_lt_word h64
  have hfits := h.fits
  have hstart := h.starts
  have hres : reserved = 2048 := rfl
  have htotal : totalCount [p] = p.blkCount := by simp [totalCount]
  have hfree : getFreeSpace vol ⟨v, [p]⟩ = freeSpace vol ⟨v, [p]⟩ :=
    getFreeSpace_eq (show reserved + totalCount [p] < 2 ^ 64 by omega)
  have hcap := alignDown_le (min count maxLba)
  unfold freeSpace at hfree
  rw [hv.maxBlockCount] at hfree
  change getFreeSpace vol ⟨v, [p]⟩ =
    alignDown (min count maxLba) - (reserved + totalCount [p]) at hfree
  show (if p.grows then u64 (p.blkCount + getFreeSpace vol ⟨v, [p]⟩) else p.blkCount) = _
  rw [if_pos h.grows, hfree, htotal, u64_of_lt (by omega)]
  omega

theorem StoredIn.partMaxCount_le (h : StoredIn view count p v s) :
    partMaxCount vol 0 ⟨v, [p]⟩ ≤ count := by
  have hfits := h.fits
  have hstart := h.starts
  have hcap := alignDown_le (min count maxLba)
  rw [h.partMaxCount_eq hv h64]
  omega

include hbs

/-- The partition grows over every block below its maximum. -/
theorem StoredIn.grow (h : StoredIn view count p v s) {i : Nat}
    (hi : i < partMaxCount vol 0 ⟨v, [p]⟩) (hge : i ≥ p.blkCount) :
    ∃ v' n, growPartition vol 0 (u64 (i - p.blkCount + 1)) ⟨v, [p]⟩ =
        .ok () ⟨v', [{ p with blkCount := n }]⟩ ∧
      i < n ∧ StoredIn view count { p with blkCount := n } v' s := by
  have hcount := count_lt_word h64
  have hstart := h.starts
  have haligned := h.aligned
  have hused := h.used_le
  have hmax : i < alignDown (min count maxLba) - reserved := by
    rw [h.partMaxCount_eq hv h64] at hi
    omega
  have hcap := alignDown_le (min count maxLba)
  have hunits := alignDown_mod (min count maxLba)
  have hlow := le_roundUp (i - p.blkCount + 1)
  have hround := roundUp_mod (i - p.blkCount + 1)
  have hfits : p.index + p.blkCount + roundUp (i - p.blkCount + 1) ≤ count := by
    have hup := roundUp_lt (show 0 < i - p.blkCount + 1 by omega)
    have hres : reserved = 2048 := rfl
    rw [partAlign_eq] at *
    omega
  obtain ⟨v', hgrow, hview⟩ := growPartition_single hv hbs h64 v p hfits
  rw [u64_of_lt (show i - p.blkCount + 1 < 2 ^ 64 by omega)]
  refine ⟨v', _, hgrow, by omega, ⟨h.grows, h.starts, ?_, ?_, ?_, ?_, ?_, h.unused⟩⟩
  · show (p.blkCount + roundUp (i - p.blkCount + 1)) % partAlign = 0
    rw [partAlign_eq] at *
    omega
  · exact Nat.le_trans h.min_le (Nat.le_add_right _ _)
  · exact Nat.le_trans hused (Nat.le_add_right _ _)
  · show p.blkCount + roundUp (i - p.blkCount + 1) ≤ count - reserved
    omega
  · show Bytes.AgreeBelow ((p.blkCount + roundUp (i - p.blkCount + 1)) * sectorSize)
      ((view v').window (p.index * sectorSize)) s
    rw [hview, Nat.add_mul p.index, Bytes.window_clear]
    intro x hx
    rw [Nat.add_mul] at hx
    by_cases hin : x < p.blkCount * sectorSize
    · rw [Bytes.clear_apply_of_lt hin]
      exact h.same x hin
    · have hzero : p.blkUsed * sectorSize ≤ x :=
        Nat.le_trans (Nat.mul_le_mul_right _ hused) (by omega)
      rw [h.unused x hzero]
      exact if_pos ⟨by omega, hx⟩

theorem StoredIn.read (h : StoredIn view count p v s) {i off n : Nat}
    (hn : off + n ≤ sectorSize) (hok : i < p.blkCount ∨ n = sectorSize) :
    partReadPartialBlock vol 0 i off n ⟨v, [p]⟩ =
      .ok (s.slice (i * sectorSize + off) n) ⟨v, [p]⟩ := by
  have hcount := count_lt_word h64
  have hused := h.used_le
  unfold partReadPartialBlock
  rw [Call.bind_apply, part_apply (show [p][0]? = some p from rfl), Outcome.bind_ok]
  by_cases hge : i ≥ p.blkCount
  · have hmul : p.blkUsed * sectorSize ≤ i * sectorSize := Nat.mul_le_mul_right _ (by omega)
    have hzero : s.slice (i * sectorSize + off) n = List.replicate n 0 :=
      Bytes.slice_eq_zeros fun x hx _ => h.unused x (by omega)
    rw [if_pos hge, if_neg (by simp [h.grows]), hzero, hbs, hok.resolve_left (by omega)]
    rfl
  · have hfits := h.fits
    have hstart := h.starts
    have hend := block_range_le (show i < p.blkCount by omega) hn
    rw [if_neg hge, u64_of_lt (by omega)]
    unfold onVolume
    rw [Call.zoom_apply, hv.readPartialBlock v _ _ _ (by omega) (by omega),
      Outcome.mapState_ok, hbs, window_index, ← Bytes.slice_window,
      h.same.slice (by omega)]

/-- Writing to a partition that holds the block. -/
theorem StoredIn.write_inside (h : StoredIn view count p v s) {i off n : Nat} {b : Buffer}
    (hi : i < p.blkCount) (hn : off + n ≤ sectorSize) (hb : b.Holds n) :
    ∃ d', (do
        Call.guard (i ≥ p.blkUsed) (update 0 fun q => { q with blkUsed := u64 (i + 1) })
        onVolume (vol.writePartialBlock (u64 (p.index + i)) b off n)) ⟨v, [p]⟩ = .ok () d' ∧
      Stores view count d' (s.splice (i * sectorSize + off) (b.bytes n)) := by
  have hcount := count_lt_word h64
  have hfits := h.fits
  have hstart := h.starts
  obtain ⟨v', hwrite, hview⟩ := hv.writePartialBlock v (p.index + i) b off n (by omega)
    (by rw [hbs]; exact hn) hb
  have hlen : (b.bytes n).length = n := Buffer.length_bytes hb
  rw [hbs] at hview
  have hstored := h.splice hi (by rw [hlen]; exact hn) hview
  refine ⟨⟨v', [{ p with blkUsed := max p.blkUsed (i + 1) }]⟩, ?_, v', _, rfl, hstored⟩
  have hmark : Call.guard (i ≥ p.blkUsed) (update 0 fun q => { q with blkUsed := u64 (i + 1) })
      (⟨v, [p]⟩ : Disk σ) = .ok () ⟨v, [{ p with blkUsed := max p.blkUsed (i + 1) }]⟩ := by
    by_cases hge : i ≥ p.blkUsed
    · rw [Call.guard_pos hge, u64_of_lt (by omega), Nat.max_eq_right (by omega)]
      rfl
    · rw [Call.guard_neg hge, Nat.max_eq_left (by omega)]
      rfl
  rw [Call.bind_apply, hmark, Outcome.bind_ok]
  unfold onVolume
  rw [Call.zoom_apply, u64_of_lt (by omega), hwrite]
  rfl

theorem StoredIn.write (h : StoredIn view count p v s) {i off n : Nat} {b : Buffer}
    (hi : i < partMaxCount vol 0 ⟨v, [p]⟩) (hn : off + n ≤ sectorSize) (hb : b.Holds n) :
    ∃ d', partWritePartialBlock vol 0 i b off n ⟨v, [p]⟩ = .ok () d' ∧
      Stores view count d' (s.splice (i * sectorSize + off) (b.bytes n)) := by
  unfold partWritePartialBlock
  rw [Call.bind_apply, part_apply (show [p][0]? = some p from rfl), Outcome.bind_ok]
  by_cases hge : i ≥ p.blkCount
  · obtain ⟨v', m, hgrow, him, hstored⟩ := h.grow hv hbs h64 hi hge
    rw [Call.guard_pos hge, if_neg (by simp [h.grows]), Call.bind_apply, hgrow,
      Outcome.bind_ok]
    exact hstored.write_inside hv hbs h64 him hn hb
  · rw [Call.guard_neg hge]
    exact h.write_inside hv hbs h64 (by omega) hn hb

theorem StoredIn.discard (h : StoredIn view count p v s) {i n : Nat} (hi : i < count) :
    ∃ d', partDiscardBlocks vol 0 i n ⟨v, [p]⟩ = .ok () d' ∧
      Stores view count d' (s.clear (i * sectorSize) (min n (count - i) * sectorSize)) := by
  have hcount := count_lt_word h64
  have hfits := h.fits
  have hstart := h.starts
  have hused := h.used_le
  unfold partDiscardBlocks
  rw [Call.bind_apply, part_apply (show [p][0]? = some p from rfl), Outcome.bind_ok]
  by_cases hge : i ≥ p.blkUsed
  · rw [if_pos hge]
    have hmul : p.blkUsed * sectorSize ≤ i * sectorSize := Nat.mul_le_mul_right _ hge
    rw [Bytes.clear_eq_self fun x hx _ => h.unused x (by omega)]
    exact ⟨_, rfl, v, p, rfl, h⟩
  rw [if_neg hge]
  have hclip : (if n > p.blkUsed - i then p.blkUsed - i else n) = min n (p.blkUsed - i) := by
    split <;> omega
  rw [hclip]
  by_cases hzero : min n (p.blkUsed - i) = 0
  · have hn : min n (count - i) = 0 := by omega
    rw [if_pos hzero, hn, Nat.zero_mul, Bytes.clear_zero]
    exact ⟨_, rfl, v, p, rfl, h⟩
  rw [if_neg hzero]
  obtain ⟨v', hdiscard, hview⟩ := hv.discardBlocks v (p.index + i) (min n (p.blkUsed - i))
    (by omega)
  rw [hbs] at hview
  have hrun : ∀ q : Part, onVolume (vol.discardBlocks (u64 (p.index + i))
      (min n (p.blkUsed - i))) ⟨v, [q]⟩ = .ok () ⟨v', [q]⟩ := by
    intro q
    unfold onVolume
    rw [Call.zoom_apply, u64_of_lt (by omega), hdiscard]
    rfl
  by_cases hlast : i + min n (p.blkUsed - i) = p.blkUsed
  · rw [Call.guard_pos hlast]
    exact ⟨_, hrun _, v', _, rfl,
      h.clear (by omega) (by omega) (Or.inr hlast) (Or.inr ⟨rfl, hlast⟩) hview⟩
  · rw [Call.guard_neg hlast]
    exact ⟨_, hrun _, v', p, rfl,
      h.clear (by omega) (by omega) (Or.inl (by omega)) (Or.inl rfl) hview⟩

theorem StoredIn.moveBlocks (h : StoredIn view count p v s) {i j a b n : Nat}
    (hj : j < count) (ha : a + n ≤ sectorSize) (hb : b + n ≤ sectorSize)
    (hdst : i < p.blkUsed → j < p.blkUsed)
    (hsrc : j < p.blkUsed → i < p.blkUsed ∨ n = sectorSize) :
    ∃ d', partMoveBlockPartial vol 0 i j a b n ⟨v, [p]⟩ = .ok () d' ∧
      Stores view count d' (s.move (j * sectorSize + b) (i * sectorSize + a) n) := by
  have hcount := count_lt_word h64
  have hfits := h.fits
  have hstart := h.starts
  have hused := h.used_le
  unfold partMoveBlockPartial
  rw [Call.bind_apply, part_apply (show [p][0]? = some p from rfl), Outcome.bind_ok,
    if_neg (by simp [h.grows])]
  by_cases hge : i ≥ p.blkUsed
  · have hmul : p.blkUsed * sectorSize ≤ i * sectorSize := Nat.mul_le_mul_right _ hge
    rw [Bytes.move_eq_clear fun x hx _ => h.unused x (by omega)]
    by_cases hjge : j ≥ p.blkUsed
    · -- nothing is moved within the unused blocks
      have hmul' : p.blkUsed * sectorSize ≤ j * sectorSize := Nat.mul_le_mul_right _ hjge
      rw [if_pos ⟨hge, hjge⟩, Bytes.clear_eq_self fun x hx _ => h.unused x (by omega)]
      exact ⟨_, rfl, v, p, rfl, h⟩
    · have hn : n = sectorSize := (hsrc (by omega)).resolve_left (by omega)
      obtain ⟨d', hrun, hstored⟩ := h.discard hv hbs h64 (n := 1) hj
      rw [Nat.min_eq_left (by omega), Nat.one_mul] at hstored
      have hpart : ¬ (i ≥ p.blkUsed ∧ j ≥ p.blkUsed) := by omega
      rw [if_neg hpart, if_pos hge, hn, show b = 0 by omega, Nat.add_zero]
      exact ⟨d', hrun, hstored⟩
  · have hjlt := hdst (by omega)
    have hin : ¬ j ≥ p.blkCount := by omega
    have hboth : ¬ (i ≥ p.blkUsed ∧ j ≥ p.blkUsed) := by omega
    rw [if_neg hboth, if_neg hge, Call.bind_apply, Call.guard_neg hin, Call.pure_apply,
      Outcome.bind_ok, Call.bind_apply, Call.guard_neg (Nat.not_le_of_lt hjlt),
      Call.pure_apply, Outcome.bind_ok, u64_of_lt (by omega), u64_of_lt (by omega)]
    by_cases hwhole : a = 0 ∧ b = 0 ∧ n = vol.blocksize
    · obtain ⟨rfl, rfl, rfl⟩ := hwhole
      obtain ⟨v', hrun, hview⟩ := hv.moveBlock v (p.index + i) (p.index + j) (by omega)
        (by omega)
      rw [if_pos ⟨rfl, rfl, rfl⟩]
      unfold onVolume
      rw [Call.zoom_apply, hrun]
      refine ⟨_, rfl, v', p, rfl, h.move (by omega) hjlt ha hb ?_⟩
      rw [hview, hbs, Nat.add_zero, Nat.add_zero]
    · obtain ⟨v', hrun, hview⟩ := hv.moveBlockPartial v (p.index + i) (p.index + j) a b n
        (by omega) (by omega) (by omega) (by omega)
      rw [hbs] at hview
      rw [if_neg hwhole]
      unfold onVolume
      rw [Call.zoom_apply, hrun]
      exact ⟨_, rfl, v', p, rfl, h.move (by omega) hjlt ha hb hview⟩

/-- Each operation does to the partition what it does to the array. -/
theorem Stores.step {d : Disk σ} (hd : Stores view count d s) {op : BlockOp}
    (hfits : op.Fits sectorSize) (hstart : StartsBelow (partMaxCount vol 0 d) op)
    (hok : Allowed d op) :
    ∃ a d' s', op.run (partition vol 0) d = .ok a d' ∧
      (op.clip count).run (idealVolume sectorSize count) s = .ok a s' ∧
      Stores view count d' s' := by
  obtain ⟨v, p, rfl, h⟩ := hd
  have hmax := h.partMaxCount_le hv h64
  have hallowed := hok p rfl
  cases op with
  | read i =>
      have hi : i < count := Nat.lt_of_lt_of_le hstart hmax
      have hread := h.read hv hbs h64 (i := i) (Nat.le_of_eq (Nat.zero_add sectorSize))
        (Or.inr rfl)
      refine ⟨_, _, s, ?_, if_pos hi, v, p, rfl, h⟩
      show partReadPartialBlock vol 0 i 0 vol.blocksize _ = _
      rw [hbs, hread, Nat.add_zero]
  | readPartial i off n =>
      have hi : i < count := Nat.lt_of_lt_of_le hstart hmax
      exact ⟨_, _, s, h.read hv hbs h64 hfits hallowed, if_pos ⟨hi, hfits⟩, v, p, rfl, h⟩
  | write i b =>
      have hi : i < count := Nat.lt_of_lt_of_le hstart hmax
      obtain ⟨d', hrun, hd'⟩ := h.write hv hbs h64 hstart
        (Nat.le_of_eq (Nat.zero_add sectorSize)) hfits
      rw [Nat.add_zero] at hd'
      refine ⟨[], d', _, ?_, ?_, hd'⟩
      · show (partWritePartialBlock vol 0 i b 0 vol.blocksize _).bind _ = _
        rw [hbs, hrun]
        rfl
      · show ((idealVolume sectorSize count).writeBlock i b s).bind _ = _
        rw [idealVolume_writeBlock, if_pos hi]
        rfl
  | writePartial i b off n =>
      have hi : i < count := Nat.lt_of_lt_of_le hstart hmax
      obtain ⟨d', hrun, hd'⟩ := h.write hv hbs h64 hstart hfits.1 hfits.2
      refine ⟨[], d', _, ?_, ?_, hd'⟩
      · show (partWritePartialBlock vol 0 i b off n _).bind _ = _
        rw [hrun]
        rfl
      · show ((idealVolume sectorSize count).writePartialBlock i b off n s).bind _ = _
        rw [idealVolume_writePartialBlock, if_pos ⟨hi, hfits.1⟩]
        rfl
  | move i j =>
      have hi : i < count := Nat.lt_of_lt_of_le hstart.1 hmax
      have hj : j < count := Nat.lt_of_lt_of_le hstart.2 hmax
      have hwhole : 0 + sectorSize ≤ sectorSize := Nat.le_of_eq (Nat.zero_add sectorSize)
      obtain ⟨d', hrun, hd'⟩ := h.moveBlocks hv hbs h64 hj hwhole hwhole hallowed
        fun _ => Or.inr rfl
      rw [Nat.add_zero, Nat.add_zero] at hd'
      refine ⟨[], d', _, ?_, ?_, hd'⟩
      · show (partMoveBlockPartial vol 0 i j 0 0 vol.blocksize _).bind _ = _
        rw [hbs, hrun]
        rfl
      · show ((idealVolume sectorSize count).moveBlock i j s).bind _ = _
        rw [idealVolume_moveBlock, if_pos ⟨hi, hj⟩]
        rfl
  | movePartial i j a b n =>
      have hi : i < count := Nat.lt_of_lt_of_le hstart.1 hmax
      have hj : j < count := Nat.lt_of_lt_of_le hstart.2 hmax
      obtain ⟨d', hrun, hd'⟩ := h.moveBlocks hv hbs h64 hj hfits.1 hfits.2 hallowed.1
        hallowed.2
      refine ⟨[], d', _, ?_, ?_, hd'⟩
      · show (partMoveBlockPartial vol 0 i j a b n _).bind _ = _
        rw [hrun]
        rfl
      · show ((idealVolume sectorSize count).moveBlockPartial i j a b n s).bind _ = _
        rw [idealVolume_moveBlockPartial, if_pos ⟨hi, hj, hfits⟩]
        rfl
  | discard i n =>
      have hi : i < count := Nat.lt_of_lt_of_le hstart hmax
      obtain ⟨d', hrun, hd'⟩ := h.discard hv hbs h64 (n := n) hi
      refine ⟨[], d', _, ?_, ?_, hd'⟩
      · show (partDiscardBlocks vol 0 i n _).bind _ = _
        rw [hrun]
        rfl
      · show ((idealVolume sectorSize count).discardBlocks (min i count)
          (min n (count - i)) s).bind _ = _
        rw [idealVolume_discardBlocks, if_pos (by omega), Nat.min_eq_left (by omega)]
        rfl
  | commit => exact ⟨[], _, s, rfl, rfl, v, p, rfl, h⟩

/-- Shrinking to fit keeps the contents, unless it takes the last of the used blocks. -/
theorem StoredIn.shrink (h : StoredIn view count p v s)
    (hkeep : p.blkUsed < fit p ∨ fit p = p.blkCount) :
    ∃ v', shrinkToFit vol 0 ⟨v, [p]⟩ = .ok () ⟨v', [fitted p]⟩ ∧
      p.blkUsed ≤ fit p ∧ Bytes.AgreeBelow (fit p * sectorSize)
        ((view v').window (p.index * sectorSize)) s := by
  have hcount := count_lt_word h64
  have hfits := h.fits
  have hstart := h.starts
  have hused := used_le_fit h.used_le
  -- a size that stays as it is
  have hkept : fit p = p.blkCount → (⟨v, [p]⟩ : Disk σ) = ⟨v, [fitted p]⟩ ∧
      Bytes.AgreeBelow (fit p * sectorSize) ((view v).window (p.index * sectorSize)) s := by
    intro hfit
    constructor
    · rw [fitted, hfit]
    · rw [hfit]
      exact h.same
  unfold shrinkToFit
  rw [Call.bind_apply, part_apply (show [p][0]? = some p from rfl), Outcome.bind_ok]
  by_cases hge : p.blkUsed ≥ p.blkCount
  · obtain ⟨heq, hsame⟩ := hkept (if_pos hge)
    rw [if_pos hge]
    exact ⟨v, congrArg (Outcome.ok ()) heq, hused, hsame⟩
  have hfit : fit p = shrunk p (p.blkCount - p.blkUsed) := if_neg hge
  have hlarge : partAlign ≤ p.blkCount := by
    have haligned := h.aligned
    rw [partAlign_eq] at *
    omega
  obtain ⟨hclamp, hle⟩ := clampDiff_eq (p.blkCount - p.blkUsed) hlarge h.min_le (by omega)
  rw [← hfit] at hclamp hle
  rw [if_neg hge]
  unfold shrinkPartition
  rw [Call.bind_apply, part_apply (show [p][0]? = some p from rfl), Outcome.bind_ok, hclamp]
  by_cases hzero : p.blkCount - fit p = 0
  · obtain ⟨heq, hsame⟩ := hkept (by omega)
    rw [if_pos hzero]
    exact ⟨v, congrArg (Outcome.ok ()) heq, hused, hsame⟩
  have hlast : maxSector [p] = p.index + p.blkCount - 1 := by
    rw [maxSector_single, Part.lastSector, sub64_of_le (by omega) (by omega), u64_of_lt (by omega)]
    omega
  -- the range starts one block in front of what is given up
  have hfrom : sub64 (p.index + p.blkCount - 1) (p.blkCount - fit p) =
      p.index + (fit p - 1) := by
    rw [sub64_of_le (by omega) (by omega)]
    omega
  obtain ⟨v', hdiscard, hview⟩ := hv.discardBlocks v (p.index + (fit p - 1))
    (p.blkCount - fit p) (by omega)
  refine ⟨v', ?_, hused, ?_⟩
  · have hshift : shiftDown p.index (p.blkCount - fit p) p = p := if_neg (Nat.lt_irrefl _)
    have hsub : sub64 p.blkCount (p.blkCount - fit p) = fit p := by
      rw [sub64_of_le (by omega) (by omega)]
      omega
    rw [if_neg hzero, Call.bind_apply, Call.get_apply, Outcome.bind_ok, Call.bind_apply]
    unfold onVolume
    rw [Call.zoom_apply, hlast, hfrom, hdiscard, Outcome.mapState_ok, Outcome.bind_ok,
      Call.bind_apply, Call.modify_apply, Outcome.bind_ok]
    unfold update
    rw [Call.modify_apply]
    simp only [List.map_cons, List.map_nil, hshift, List.modify_zero_cons, hsub]
    rfl
  · have hindex := window_index p (fit p - 1) 0
    rw [Nat.add_zero, Nat.add_zero] at hindex
    rw [hview, hbs, hindex, Bytes.window_clear]
    intro x hx
    have hin : x < p.blkCount * sectorSize :=
      Nat.lt_of_lt_of_le hx (Nat.mul_le_mul_right _ hle)
    have hzeros : p.blkUsed * sectorSize ≤ (fit p - 1) * sectorSize :=
      Nat.mul_le_mul_right _ (by omega)
    unfold Bytes.clear
    split
    · exact (h.unused x (by omega)).symm
    · exact h.same x hin

end Steps

/-! ## From an empty table on -/

section Create

variable (hv : BlockStore vol count view) (hro : RefusesOutside vol count)
  (hbs : vol.blocksize = sectorSize) (h64 : count * sectorSize < 2 ^ 64)

include hv hro

/-- Blocks that could be cleared are on the volume. -/
theorem clearBlocks_ok (hcount : count < 2 ^ 64) {index n : Nat} {v v' : σ}
    (hok : clearBlocks vol index n v = .ok () v') :
    n ≤ count - index ∧
      view v' = (view v).clear (index * vol.blocksize) (n * vol.blocksize) := by
  induction n generalizing index v with
  | zero =>
      cases hok
      rw [Nat.zero_mul, Bytes.clear_zero]
      exact ⟨Nat.zero_le _, rfl⟩
  | succ n ih =>
      unfold clearBlocks at hok
      rw [Call.bind_apply] at hok
      by_cases hi : index < count
      · obtain ⟨v₁, hwrite, hview⟩ := hv.writeBlock v index none hi (Buffer.holds_none _)
        rw [hwrite, Outcome.bind_ok, u64_of_lt (by omega)] at hok
        obtain ⟨hn, hview'⟩ := ih hok
        have hmul : (n + 1) * vol.blocksize = vol.blocksize + n * vol.blocksize := by
          rw [Nat.add_mul, Nat.one_mul, Nat.add_comm]
        refine ⟨by omega, ?_⟩
        rw [hview', hview, hmul, ← Bytes.clear_clear_append, Bytes.clear_eq_splice _ _
          vol.blocksize, Nat.add_mul, Nat.one_mul]
        rfl
      · rw [hro.writeBlock v index none (by omega)] at hok
        cases hok

include hbs h64

/-- A new partition that may grow stores zeros. -/
theorem createPartition_stores {n : Nat} {flags : BitVec 64} (hgrow : flags &&& flagGrow ≠ 0)
    {v : σ} {d : Disk σ} (hok : createPartition vol n flags (create v) = .ok () d) :
    Stores view count d fun _ => 0 := by
  have hcount := count_lt_word h64
  have hempty : (if flags &&& flagFill ≠ 0 then ([] : List Part).map Part.clearFill else []) =
      [] := by
    split <;> rfl
  unfold createPartition at hok
  rw [Call.bind_apply, Call.get_apply, Outcome.bind_ok, if_neg (by simp [create, maxPartitions]),
    Call.bind_apply] at hok
  obtain ⟨_, d₁, hclear, hok⟩ := Outcome.of_bind_eq_ok hok
  unfold onVolume at hclear
  rw [Call.zoom_apply] at hclear
  change (clearBlocks vol reserved (u64 (roundUp n)) v).mapState _ = _ at hclear
  cases hres : clearBlocks vol reserved (u64 (roundUp n)) v with
  | fail v' => rw [hres] at hclear; cases hclear
  | stuck => rw [hres] at hclear; cases hclear
  | ok u v' =>
      rw [hres] at hclear
      cases hclear
      rw [Call.modify_apply] at hok
      cases hok
      obtain ⟨hfits, hview⟩ := clearBlocks_ok hv hro hcount hres
      have hround := roundUp_mod n
      refine ⟨v', ⟨reserved, u64 (roundUp n), u64 (roundUp n), 0, flags⟩, ?_, ?_⟩
      · show (⟨v', _ ++ [_]⟩ : Disk σ) = _
        exact congrArg (fun l => (⟨v', l ++ [_]⟩ : Disk σ)) hempty
      · refine ⟨?_, rfl, ?_, Nat.le_refl _, Nat.zero_le _, hfits, ?_, fun _ _ => rfl⟩
        · simpa [Part.grows] using hgrow
        · show u64 (roundUp n) % partAlign = 0
          unfold u64
          rw [partAlign_eq] at *
          omega
        · show Bytes.AgreeBelow (u64 (roundUp n) * sectorSize)
            ((view v').window (reserved * sectorSize)) _
          rw [hview, hbs]
          intro x hx
          exact if_pos ⟨Nat.le_add_right _ _, Nat.add_lt_add_left hx _⟩

/-- The operations on a new partition that start below its maximum block count, as far as the
shortcuts allow, return what an array of zeros would.  Behind them its used blocks cover all
that is not zero, and shrinking to fit keeps the contents unless it takes the last of these
blocks. -/
theorem partition_simulates_array {n : Nat} {flags : BitVec 64}
    (hgrow : flags &&& flagGrow ≠ 0) {v : σ} {d : Disk σ}
    (hcreate : createPartition vol n flags (create v) = .ok () d) {ops : List BlockOp}
    (hfits : ∀ op ∈ ops, op.Fits sectorSize)
    (hrun : Along (fun op => op.run (partition vol 0))
      (fun d op => StartsBelow (partMaxCount vol 0 d) op ∧ Allowed d op) ops d) :
    (runAll (fun op => op.run (partition vol 0)) ops d).1 =
        (runAll (fun op => (op.clip count).run (idealVolume sectorSize count)) ops
          fun _ => 0).1 ∧
      none ∉ (runAll (fun op => op.run (partition vol 0)) ops d).1 ∧
      ∃ v' p s', (runAll (fun op => op.run (partition vol 0)) ops d).2 = some ⟨v', [p]⟩ ∧
        (runAll (fun op => (op.clip count).run (idealVolume sectorSize count)) ops
          fun _ => 0).2 = some s' ∧
        (∀ x, s' x ≠ 0 → x / sectorSize < p.blkUsed) ∧
        (p.blkUsed < fit p ∨ fit p = p.blkCount →
          ∃ v'', shrinkToFit vol 0 ⟨v', [p]⟩ = .ok () ⟨v'', [fitted p]⟩ ∧
            ∀ x, s' x ≠ 0 → x < fit p * sectorSize ∧
              view v'' (p.index * sectorSize + x) = s' x) := by
  have hstep : ∀ (d : Disk σ) (s : Bytes) (op : BlockOp), Stores view count d s →
      (op.Fits sectorSize ∧ StartsBelow (partMaxCount vol 0 d) op ∧ Allowed d op) →
      ∃ a d' s', op.run (partition vol 0) d = .ok a d' ∧
        (op.clip count).run (idealVolume sectorSize count) s = .ok a s' ∧
        Stores view count d' s' :=
    fun _ _ _ hd hop => hd.step hv hbs h64 hop.1 hop.2.1 hop.2.2
  obtain ⟨hval, hnone, d', s', hd', hs', v', p, rfl, hstored⟩ :=
    runAll_simulation hstep ops d (fun _ => 0)
      (createPartition_stores hv hro hbs h64 hgrow hcreate) (hrun.and_forall hfits)
  have hused : ∀ x, s' x ≠ 0 → x / sectorSize < p.blkUsed := by
    intro x hx
    rw [Nat.div_lt_iff_lt_mul (by decide)]
    exact Nat.lt_of_not_le fun hle => hx (hstored.unused x hle)
  refine ⟨hval, hnone, v', p, s', hd', hs', hused, ?_⟩
  intro hkeep
  obtain ⟨v'', hshrink, hle, hsame⟩ := hstored.shrink hv hbs h64 hkeep
  refine ⟨v'', hshrink, ?_⟩
  intro x hx
  have hin : x < fit p * sectorSize := by
    rw [← Nat.div_lt_iff_lt_mul (by decide)]
    exact Nat.lt_of_lt_of_le (hused x hx) hle
  exact ⟨hin, hsame x hin⟩

end Create

/-- A new partition of a mebibyte with one more behind it to grow into. -/
theorem createPartition_first : ∃ v, createPartition (idealVolume sectorSize (3 * 2048)) 2048
    flagGrow (create fun _ => 0) = .ok () ⟨v, [⟨2048, 2048, 2048, 0, flagGrow⟩]⟩ := by
  obtain ⟨v, hcreate⟩ := createPartition_idealVolume sectorSize
    (show 3 * 2048 < 2 ^ 64 by decide) 2048 flagGrow [] (fun _ => 0) (by decide) (by decide)
  exact ⟨v, hcreate⟩

theorem partMaxCount_first (w : Bytes) (used : Nat) :
    partMaxCount (idealVolume sectorSize (3 * 2048)) 0
      ⟨w, [⟨2048, 2048, 2048, used, flagGrow⟩]⟩ = 4096 := by
  have hmax : (idealVolume sectorSize (3 * 2048)).getMaxBlockCount w = 6144 := rfl
  have hgrow : ¬ flagGrow = 0#64 := by decide
  simp [partMaxCount, Part.grows, hgrow, getFreeSpace, hmax, maxLba, partAlign_eq, reserved,
    u64]

/-- A byte written to block 7, and the block read back. -/
theorem partition_simulates_array_write :
    ∃ d : Disk Bytes, createPartition (idealVolume sectorSize (3 * 2048)) 2048 flagGrow
        (create fun _ => 0) = .ok () d ∧
      (runAll (fun op : BlockOp => op.run (partition (idealVolume sectorSize (3 * 2048)) 0))
          [BlockOp.writePartial 7 (some [1]) 0 1, .read 7] d).1 =
        (runAll (fun op : BlockOp => (op.clip (3 * 2048)).run (idealVolume sectorSize (3 * 2048)))
          [BlockOp.writePartial 7 (some [1]) 0 1, .read 7] fun _ => 0).1 := by
  obtain ⟨v, hcreate⟩ := createPartition_first
  have hfits : ∀ op ∈ [BlockOp.writePartial 7 (some [1]) 0 1, .read 7],
      op.Fits sectorSize := by
    simp [BlockOp.Fits, sectorSize]
  refine ⟨_, hcreate, (partition_simulates_array (idealVolume_blockStore (by decide))
    idealVolume_refusesOutside rfl (by decide) (by decide) hcreate hfits ?_).1⟩
  have hstart : ∀ (w : Bytes) (used : Nat), 7 < partMaxCount (idealVolume sectorSize (3 * 2048))
      0 ⟨w, [⟨2048, 2048, 2048, used, flagGrow⟩]⟩ := by
    intro w used
    rw [partMaxCount_first]
    decide
  exact ⟨⟨hstart v 0, fun _ _ => trivial⟩, ⟨hstart _ 8, fun _ _ => trivial⟩, trivial⟩

/-- A read of five bytes behind the end clears 512, and a block that is moved behind the used
blocks does not count as used. -/
theorem partition_short_read_and_move :
    ∃ (v w : Bytes) (d : Disk Bytes), createPartition (idealVolume sectorSize (3 * 2048)) 2048
        flagGrow (create fun _ => 0) = .ok () d ∧
      3000 < partMaxCount (idealVolume sectorSize (3 * 2048)) 0 d ∧
      (BlockOp.readPartial 3000 0 5).run (partition (idealVolume sectorSize (3 * 2048)) 0) d =
        .ok (List.replicate 512 0) d ∧
      (runAll (fun op : BlockOp => op.run (partition (idealVolume sectorSize (3 * 2048)) 0))
          [BlockOp.writePartial 0 (some [1]) 0 1, .move 0 5] d).2 =
        some ⟨v, [⟨2048, 2048, 2048, 5, flagGrow⟩]⟩ ∧
      (runAll (fun op : BlockOp => (op.clip (3 * 2048)).run (idealVolume sectorSize (3 * 2048)))
          [BlockOp.writePartial 0 (some [1]) 0 1, .move 0 5] fun _ => 0).2 = some w ∧
      w (5 * sectorSize) ≠ 0 := by
  obtain ⟨v, hcreate⟩ := createPartition_first
  refine ⟨_, _, _, hcreate, ?_, rfl, rfl, rfl, ?_⟩
  · rw [partMaxCount_first]
    decide
  · decide

end Disk

end ImageTool.Mbr
