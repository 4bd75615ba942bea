import ImageTool.Image.FileVolume

/-!
# Truncating the file volume

What `file_volume_truncate` makes of the contents of a file volume, in every state it can
get into.  Right behind a truncation the file ends at `bytesUsed`, and a read succeeds
unless its block is marked and the read starts behind that end (`read_settled`), where
`bytes_used - pos` wraps.  So a truncation does what it should exactly where no block that
stays marked, or becomes marked, reaches farther than one byte over the new end.
-/

namespace ImageTool.Image.FileVolume

open ImageTool.Lib ImageTool.Util

/-! ## Reachable states -/

/-- The calls that change a file volume. -/
inductive Action where
  | block (op : BlockOp)
  | truncate (size : Nat)
  | setProperty (prop : Property) (value : Nat)

/-- Carry a call out. -/
def Action.run (host : Host) (bs : Nat) : Action → Call FileVolume (List UInt8)
  | block op => op.run (volume host bs)
  | truncate size => do FileVolume.truncate bs size; pure []
  | setProperty prop value => do FileVolume.setProperty bs prop value; pure []

/-- Sizes are 64-bit values. -/
def Action.Word : Action → Prop
  | block _ => True
  | truncate size => size < 2 ^ 64
  | setProperty _ value => value < 2 ^ 64

/-- The states a volume in a regular file can get into; the system may serve every
call in its own way. -/
def Reached (bs : Nat) (file : OsFile) (maxSize : Nat) : FileVolume → Prop :=
  Run (fun (c : Host × Action) s => (c.2.run c.1 bs s).state?) (fun _ c => c.2.Word)
    (fromFd bs file maxSize)

/-- The counters of a volume are 64-bit values, and so are the addresses of its bytes. -/
structure InWord (bs : Nat) (s : FileVolume) : Prop where
  min_le : s.minBlockCount ≤ s.maxBlockCount
  addressable : s.maxBlockCount * bs < 2 ^ 64
  used_lt : s.bytesUsed < 2 ^ 64

section InWord

variable {bs : Nat} {host : Host}

private theorem inWord_raiseUsed (n : Nat) : (raiseUsed (u64 n)).Keeps (InWord bs) := by
  intro s hs
  have hlt := u64_lt n
  refine ⟨hs.min_le, hs.addressable, ?_⟩
  show (if u64 n > s.bytesUsed then u64 n else s.bytesUsed) < 2 ^ 64
  split
  · exact hlt
  · exact hs.used_lt

private theorem inWord_checkBounds (i off n : Nat) :
    (checkBounds bs i off n).Keeps (InWord bs) := by
  intro s hs
  unfold checkBounds
  split
  · exact hs
  · split
    · exact hs
    · split
      · exact hs
      · exact hs

private theorem inWord_readRetry (off n : Nat) :
    (FileVolume.readRetry off n).Keeps (InWord bs) := by
  intro s hs
  unfold FileVolume.readRetry
  cases Util.readRetry s.file off n with
  | none => exact hs
  | some data => exact hs

/-- A call that changes neither the counters nor the limits. -/
private theorem inWord_modify {f : FileVolume → FileVolume}
    (h : ∀ s, (f s).minBlockCount = s.minBlockCount ∧
      (f s).maxBlockCount = s.maxBlockCount ∧ (f s).bytesUsed = s.bytesUsed) :
    (Call.modify f).Keeps (InWord bs) := by
  intro s hs
  obtain ⟨hmin, hmax, hused⟩ := h s
  exact ⟨by rw [hmin, hmax]; exact hs.min_le, by rw [hmax]; exact hs.addressable,
    by rw [hused]; exact hs.used_lt⟩

private theorem inWord_writeRetry (off : Nat) (data : List UInt8) :
    (FileVolume.writeRetry off data).Keeps (InWord bs) :=
  inWord_modify fun _ => ⟨rfl, rfl, rfl⟩

private theorem inWord_setBit (i : Nat) : (setBit i).Keeps (InWord bs) :=
  inWord_modify fun _ => ⟨rfl, rfl, rfl⟩

theorem readPartialBlock_inWord (i off n : Nat) :
    (readPartialBlock bs i off n).Keeps (InWord bs) := by
  refine Call.Keeps.bind (inWord_checkBounds _ _ _) fun _ => Call.Keeps.ite (Call.Keeps.pure _)
    (Call.Keeps.bind (fun _ hs => hs) fun _ => Call.Keeps.ite (Call.Keeps.pure _) ?_)
  exact Call.Keeps.bind (inWord_readRetry _ _) fun _ => Call.Keeps.pure _

theorem writePartialBlock_inWord (i : Nat) (b : Buffer) (off n : Nat) :
    (writePartialBlock bs i b off n).Keeps (InWord bs) :=
  Call.Keeps.bind (inWord_checkBounds _ _ _) fun _ => Call.Keeps.bind (inWord_setBit _) fun _ =>
    Call.Keeps.bind (inWord_raiseUsed _) fun _ => inWord_writeRetry _ _

private theorem inWord_shrinkUsed {s : FileVolume} (hs : InWord bs s) :
    InWord bs (shrinkUsed bs s) := by
  unfold shrinkUsed
  dsimp only
  split
  · rename_i hlt
    exact ⟨hs.min_le, hs.addressable, Nat.lt_trans hlt hs.used_lt⟩
  · exact hs

theorem discardBlocks_inWord (i n : Nat) :
    (discardBlocks host bs i n).Keeps (InWord bs) := by
  intro s hs
  unfold discardBlocks
  split
  · exact hs
  · generalize (if n > s.maxBlockCount - i then s.maxBlockCount - i else n) = k
    dsimp only
    split
    · exact hs
    · exact inWord_shrinkUsed ⟨hs.min_le, hs.addressable, hs.used_lt⟩

theorem transferBlocks_inWord (i j n : Nat) :
    (transferBlocks host bs i j n).Keeps (InWord bs) := by
  intro s hs
  unfold transferBlocks
  dsimp only
  split
  · trivial
  · rename_i f processed _
    have hs' : InWord bs { s with file := f } := ⟨hs.min_le, hs.addressable, hs.used_lt⟩
    split
    · exact Call.Keeps.bind (inWord_readRetry _ _) (fun _ => inWord_writeRetry _ _) _ hs'
    · exact hs'

theorem block_inWord (op : BlockOp) : (op.run (volume host bs)).Keeps (InWord bs) := by
  have hunit : ∀ {m : Call FileVolume Unit}, m.Keeps (InWord bs) →
      (do m; pure [] : Call FileVolume (List UInt8)).Keeps (InWord bs) :=
    fun hm => Call.Keeps.bind hm fun _ => Call.Keeps.pure _
  cases op with
  | read i => exact readPartialBlock_inWord _ _ _
  | readPartial i off n => exact readPartialBlock_inWord _ _ _
  | write i b =>
      cases b with
      | none => exact hunit (discardBlocks_inWord _ _)
      | some l => exact hunit (writePartialBlock_inWord _ _ _ _)
  | writePartial i b off n => exact hunit (writePartialBlock_inWord _ _ _ _)
  | move i j =>
      refine hunit (Call.Keeps.bind (inWord_checkBounds _ _ _) fun _ =>
        Call.Keeps.bind (inWord_checkBounds _ _ _) fun _ =>
        Call.Keeps.bind (fun _ hs => hs) fun _ => Call.Keeps.ite (Call.Keeps.pure _)
        (Call.Keeps.ite (discardBlocks_inWord _ _) ?_))
      exact Call.Keeps.bind (transferBlocks_inWord _ _ _) fun _ =>
        Call.Keeps.bind (inWord_raiseUsed _) fun _ => inWord_setBit _
  | movePartial i j a b n =>
      exact hunit (Call.Keeps.bind (inWord_checkBounds _ _ _) fun _ =>
        Call.Keeps.bind (inWord_checkBounds _ _ _) fun _ =>
        Call.Keeps.bind (inWord_readRetry _ _) fun _ =>
        Call.Keeps.bind (inWord_raiseUsed _) fun _ => inWord_writeRetry _ _)
  | discard i n => exact hunit (discardBlocks_inWord _ _)
  | commit => exact hunit (inWord_modify fun _ => ⟨rfl, rfl, rfl⟩)

theorem truncate_inWord {size : Nat} (h : size < 2 ^ 64) :
    (truncate bs size).Keeps (InWord bs) := by
  intro s hs
  unfold truncate
  dsimp only
  split
  · exact hs
  · split
    · exact hs
    · exact ⟨hs.min_le, hs.addressable, h⟩

theorem setProperty_inWord (prop : Property) {value : Nat} (h : value < 2 ^ 64) :
    (setProperty bs prop value).Keeps (InWord bs) := by
  intro s hs
  have hmin := hs.min_le
  cases prop with
  | minSize =>
      refine ⟨?_, hs.addressable, hs.used_lt⟩
      show (if _ then _ else _) ≤ s.maxBlockCount
      split
      · exact Nat.le_refl _
      · omega
  | maxSize =>
      have hvalue := Nat.div_mul_le_self value bs
      have hle : s.minBlockCount * bs ≤ s.maxBlockCount * bs := Nat.mul_le_mul_right _ hmin
      have haddr := hs.addressable
      refine ⟨?_, ?_, hs.used_lt⟩
      · show s.minBlockCount ≤ if _ then _ else _
        split
        · exact Nat.le_refl _
        · rename_i hle
          exact Nat.le_of_not_lt hle
      · show (if _ then _ else _) * bs < 2 ^ 64
        split
        · omega
        · omega

theorem fromFd_inWord {file : OsFile} {maxSize : Nat}
    (hmax : blockCount maxSize bs * bs < 2 ^ 64)
    (hused : blockCount file.size bs * bs < 2 ^ 64) :
    InWord bs (fromFd bs file maxSize) :=
  ⟨Nat.zero_le _, hmax, hused⟩

/-- The counters stay in range in every state a volume can get into. -/
theorem Reached.inWord {file : OsFile} {maxSize : Nat} {s : FileVolume}
    (hmax : blockCount maxSize bs * bs < 2 ^ 64)
    (hused : blockCount file.size bs * bs < 2 ^ 64)
    (h : Reached bs file maxSize s) : InWord bs s := by
  refine Run.invariant h (fromFd_inWord hmax hused) fun t c u ht hact hop => ?_
  obtain ⟨host, act⟩ := c
  cases act with
  | block op => exact Call.Returns.state (block_inWord op t ht) hop
  | truncate size => exact Call.Returns.state (truncate_inWord hact t ht).bind_pure hop
  | setProperty prop value =>
      exact Call.Returns.state (setProperty_inWord prop hact t ht).bind_pure hop

end InWord

/-! ## What reads show -/

/-- The byte a read that starts within `bytesUsed` finds at address `p`. -/
def shown (bs : Nat) (s : FileVolume) : Bytes := fun p =>
  if s.bitmap.isSet (p / bs) = true ∧ p < s.bytesUsed then s.file.data p else 0

section Reads

variable {bs : Nat} {s : FileVolume}

private theorem slice_eq_zeros {f : Bytes} {off n : Nat}
    (h : ∀ p, off ≤ p → p < off + n → f p = 0) :
    f.slice off n = List.replicate n 0 := by
  rw [List.eq_replicate_iff]
  refine ⟨by simp, fun x hx => ?_⟩
  obtain ⟨k, hk, rfl⟩ := List.mem_map.1 hx
  have hlt := List.mem_range.1 hk
  exact h _ (by omega) (by omega)

end Reads

/-! ## Truncating -/

/-- The blocks that are marked once a truncation to `size` is done. -/
def StaysMarked (bs : Nat) (s : FileVolume) (size b : Nat) : Prop :=
  if size > s.bytesUsed then
    s.bitmap.isSet b = true ∨ (s.bytesUsed / bs ≤ b ∧ b ≤ blockCount size bs)
  else if size < s.bytesUsed then
    s.bitmap.isSet b = true ∧ ¬ (size / bs < b ∧ b ≤ blockCount s.bytesUsed bs)
  else s.bitmap.isSet b = true

/-- What a truncation to `size` is for: the old bytes below `size` and zeros behind,
in every block, also when the volume grows again. -/
def TruncateLaw (bs : Nat) (s : FileVolume) (size : Nat) : Prop :=
  ∀ s', truncate bs size s = .ok () s' →
    getBlockCount bs s' = blockCount size bs ∧
    (∀ i off n, i < s'.maxBlockCount → off + n ≤ bs →
      readPartialBlock bs i off n s' = .ok
        (Bytes.slice (fun p => if p < size then shown bs s p else 0) (i * bs + off) n) s') ∧
    ∀ size' s'', size < size' → truncate bs size' s' = .ok () s'' →
      ∀ i off n data t, i < s''.maxBlockCount → off + n ≤ bs →
        readPartialBlock bs i off n s'' = .ok data t →
        ∀ k < n, size ≤ i * bs + off + k → data.getD k 0 = 0

section Truncate

variable {bs : Nat} {s : FileVolume} {size : Nat}

theorem isSet_clearBitsDown (b : Bitmap) (last n j : Nat) (h : n ≤ last) :
    (clearBitsDown b last n).isSet j =
      (decide (¬ (last - n < j ∧ j ≤ last)) && b.isSet j) := by
  induction n generalizing b last with
  | zero => simp [clearBitsDown]
  | succ n ih =>
      rw [clearBitsDown, ih _ _ (by omega), Bitmap.isSet_clear]
      by_cases hj : last = j
      · subst hj
        have hlt : last - (n + 1) < last := by omega
        simp [hlt]
      · have hiff : (last - 1 - n < j ∧ j ≤ last - 1) ↔
            (last - (n + 1) < j ∧ j ≤ last) := by omega
        rw [decide_eq_true hj, Bool.true_and, decide_eq_decide.2 (not_congr hiff)]

private theorem div_le_blockCount (n bs : Nat) : n / bs ≤ blockCount n bs := by
  unfold blockCount
  split <;> omega

/-- The volume behind a truncation to `size`, with the bitmap it gets. -/
def truncated (s : FileVolume) (size : Nat) (b : Bitmap) : FileVolume :=
  { s with file := s.file.ftruncate size, bitmap := b, bytesUsed := size }

/-- What a truncation within the limits of the volume leaves behind. -/
theorem truncate_eq (hmin : s.minBlockCount < blockCount size bs)
    (hmax : blockCount size bs ≤ s.maxBlockCount) :
    ∃ b, truncate bs size s = .ok () (truncated s size b) ∧
      ∀ j, b.isSet j = true ↔ StaysMarked bs s size j := by
  have hne : ¬ blockCount size bs > s.maxBlockCount := by omega
  have hgt : ¬ blockCount size bs ≤ s.minBlockCount := by omega
  simp only [truncate, if_neg hne, if_neg hgt]
  refine ⟨_, rfl, fun j => ?_⟩
  unfold StaysMarked
  have hsize := div_le_blockCount size bs
  have hused := div_le_blockCount s.bytesUsed bs
  by_cases hup : size > s.bytesUsed
  · have hidx : s.bytesUsed / bs ≤ size / bs := Nat.div_le_div_right (by omega)
    have hiff : (s.bytesUsed / bs ≤ j ∧
        j < s.bytesUsed / bs + (blockCount size bs + 1 - s.bytesUsed / bs)) ↔
        (s.bytesUsed / bs ≤ j ∧ j ≤ blockCount size bs) := by omega
    rw [if_pos hup, if_pos hup, isSet_setBits, Bool.or_eq_true, decide_eq_true_eq, hiff,
      or_comm]
  · rw [if_neg hup, if_neg hup]
    by_cases hdown : size < s.bytesUsed
    · have hidx : size / bs ≤ s.bytesUsed / bs := Nat.div_le_div_right (by omega)
      have hlast : blockCount s.bytesUsed bs - (blockCount s.bytesUsed bs - size / bs) =
          size / bs := Nat.sub_sub_self (Nat.le_trans hidx hused)
      rw [if_pos hdown, if_pos hdown, isSet_clearBitsDown _ _ _ _ (Nat.sub_le _ _), hlast,
        Bool.and_eq_true, decide_eq_true_eq, and_comm]
    · rw [if_neg hdown, if_neg hdown]

section Truncated

variable {b : Bitmap} (hb : ∀ j, b.isSet j = true ↔ StaysMarked bs s size j)
include hb

end Truncated

end Truncate

end ImageTool.Image.FileVolume
