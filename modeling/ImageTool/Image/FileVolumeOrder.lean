import ImageTool.Image.SizeContract
import ImageTool.Image.Truncation

/-!
# The block counts of the file volume

The minimum and the maximum of a file volume are settings, and its current size is
`bytes_used`.  Writes and truncations look at the maximum, truncations also at the minimum.
Three things are not checked: setting a limit leaves the current size alone, discarding cuts
the volume back to the last block that is still marked, whatever the minimum, and
`move_block_partial` checks 32-bit values but adds up the 64-bit ones.  `SizesAgree` is the
condition that makes up for them.
-/

namespace ImageTool.Image.FileVolume

open ImageTool.Lib ImageTool.Util

/-! ## The condition -/

/-- The blocks an operation discards, as a first block and a number. -/
def discarded (s : FileVolume) : BlockOp → Option (Nat × Nat)
  | .write i none => some (i, 1)
  | .move i j =>
      if i ≠ j ∧ i < s.maxBlockCount ∧ j < s.maxBlockCount ∧ s.bitmap.isSet i = false ∧
          s.bitmap.isSet j = true then some (j, 1)
      else none
  | .discard i n => some (i, n)
  | .read _ | .readPartial _ _ _ | .write _ (some _) | .writePartial _ _ _ _
  | .movePartial _ _ _ _ _ | .commit => none

/-- Once the blocks are discarded, a marked one is left at the end of the minimum or
behind it. -/
def MinimumStaysMarked (s : FileVolume) (i n : Nat) : Prop :=
  ∃ b, s.minBlockCount ≤ b + 1 ∧ s.bitmap.isSet b = true ∧
    ¬ (i ≤ b ∧ b < i + n ∧ b < s.maxBlockCount)

/-- The condition on an action and the state it finds. -/
def SizesAgree (bs : Nat) (s : FileVolume) : Action → Prop
  | .block op =>
      (∀ i n, discarded s op = some (i, n) → i < s.maxBlockCount → 0 < n →
        s.minBlockCount = 0 ∨ MinimumStaysMarked s i n) ∧
      (∀ i j a b n, op = .movePartial i j a b n → j < s.maxBlockCount →
        u32 b + u32 n ≤ bs → u64 (j * bs + b + n) ≤ s.maxBlockCount * bs)
  | .truncate _ => True
  | .setProperty .minSize value =>
      min (blockCount value bs) s.maxBlockCount ≤ getBlockCount bs s
  | .setProperty .maxSize value =>
      getBlockCount bs s ≤ max (value / bs) s.minBlockCount ∧ value / bs * bs + bs < 2 ^ 64

/-- The states of a volume in a regular file that such actions lead to; the system may
serve every call in its own way. -/
def ReachedInOrder (bs : Nat) (file : OsFile) (maxSize : Nat) : FileVolume → Prop :=
  Run (fun (c : Host × Action) s => (c.2.run c.1 bs s).state?)
    (fun s c => c.2.Word ∧ SizesAgree bs s c.2) (fromFd bs file maxSize)

/-! ## The invariant -/

/-- The sizes are in order, and the ends of all marked blocks have 64-bit addresses. -/
structure Ordered (bs : Nat) (s : FileVolume) : Prop where
  min_le : s.minBlockCount ≤ blockCount s.bytesUsed bs
  used_le : s.bytesUsed ≤ s.maxBlockCount * bs
  addressable : s.maxBlockCount * bs + bs < 2 ^ 64
  marked : ∀ b, s.bitmap.isSet b = true → b * bs + bs < 2 ^ 64

section Ordered

variable {bs : Nat} {host : Host} {s : FileVolume}

theorem Ordered.inOrder (hbs : 0 < bs) (h : Ordered bs s) : (volume host bs).InOrder s :=
  ⟨h.min_le, (blockCount_le_iff hbs).2 h.used_le⟩

/-- The blocks below the maximum end at 64-bit addresses. -/
theorem Ordered.block_end (h : Ordered bs s) {i : Nat} (hi : i ≤ s.maxBlockCount) :
    i * bs + bs < 2 ^ 64 := by
  have haddr := h.addressable
  have hle : i * bs ≤ s.maxBlockCount * bs := Nat.mul_le_mul_right _ hi
  omega

/-- Only the file and marks change. -/
theorem Ordered.of_marks (h : Ordered bs s) {f : OsFile} {b : Bitmap}
    (hb : ∀ j, b.isSet j = true → s.bitmap.isSet j = true) :
    Ordered bs { s with file := f, bitmap := b } :=
  ⟨h.min_le, h.used_le, h.addressable, fun j hj => h.marked j (hb j hj)⟩

/-! ## Reads and writes -/

/-- Where the bounds check passes, the block lies below the maximum; either way nothing
changes. -/
private theorem checkBounds_spec {P : FileVolume → Prop} (h : P s) (i off n : Nat) :
    Call.Returns (checkBounds bs i off n s)
      (fun _ t => s = t ∧ i < s.maxBlockCount ∧ off + n ≤ bs) P := by
  unfold checkBounds
  split
  · exact h
  · split
    · exact h
    · split
      · exact h
      · exact ⟨rfl, by omega, by omega⟩

private theorem readRetry_spec {P : FileVolume → Prop} (h : P s) (off n : Nat) :
    Call.Returns (FileVolume.readRetry off n s) (fun _ t => s = t) P := by
  unfold FileVolume.readRetry
  cases Util.readRetry s.file off n with
  | none => exact h
  | some data => rfl

theorem readPartialBlock_ordered (i off n : Nat) :
    (readPartialBlock bs i off n).Keeps (Ordered bs) := by
  intro s hs
  refine Call.Returns.bind (checkBounds_spec hs i off n) ?_
  rintro _ _ ⟨rfl, _, _⟩
  split
  · exact hs
  · rw [Call.bind_apply, Call.get_apply, Outcome.bind_ok]
    split
    · exact hs
    · refine Call.Returns.bind (readRetry_spec hs _ _) ?_
      rintro _ _ rfl
      exact hs

/-- Raising `bytes_used` within the maximum keeps the order. -/
theorem Ordered.raise (hbs : 0 < bs) (h : Ordered bs s) (last : Nat)
    (hlast : last ≤ s.maxBlockCount * bs) :
    Ordered bs { s with bytesUsed := if last > s.bytesUsed then last else s.bytesUsed } := by
  have hle := h.used_le
  have hmin := h.min_le
  refine ⟨Nat.le_trans hmin (blockCount_mono hbs ?_), ?_, h.addressable, h.marked⟩
  · show s.bytesUsed ≤ if last > s.bytesUsed then last else s.bytesUsed
    split <;> omega
  · show (if last > s.bytesUsed then last else s.bytesUsed) ≤ s.maxBlockCount * bs
    split <;> omega

/-- Marking a block below the maximum keeps the order. -/
theorem Ordered.mark (h : Ordered bs s) {i : Nat} (hi : i ≤ s.maxBlockCount) :
    Ordered bs { s with bitmap := s.bitmap.set i } := by
  refine ⟨h.min_le, h.used_le, h.addressable, fun j hj => ?_⟩
  rw [Bitmap.isSet_set, Bool.or_eq_true, decide_eq_true_eq] at hj
  cases hj with
  | inl heq => exact heq ▸ h.block_end hi
  | inr hset => exact h.marked j hset

theorem writePartialBlock_ordered (hbs : 0 < bs) (i : Nat) (b : Buffer) (off n : Nat) :
    (writePartialBlock bs i b off n).Keeps (Ordered bs) := by
  intro s hs
  refine Call.Returns.bind (checkBounds_spec hs i off n) ?_
  rintro _ _ ⟨rfl, hi, hoff⟩
  have hend : i * bs + off + n ≤ s.maxBlockCount * bs := by
    calc i * bs + off + n ≤ i * bs + bs := by omega
      _ = (i + 1) * bs := by rw [Nat.add_mul, Nat.one_mul]
      _ ≤ s.maxBlockCount * bs := Nat.mul_le_mul_right _ hi
  have haddr := hs.addressable
  have hraised := (hs.mark (Nat.le_of_lt hi)).raise hbs (u64 (i * bs + off + n))
    (by rw [u64_of_lt (by omega)]; exact hend)
  exact hraised.of_marks fun _ hj => hj

theorem moveBlockPartial_ordered (hbs : 0 < bs) (h : Ordered bs s) {i j a b n : Nat}
    (hend : j < s.maxBlockCount → u32 b + u32 n ≤ bs →
      u64 (j * bs + b + n) ≤ s.maxBlockCount * bs) :
    Call.Returns (moveBlockPartial bs i j a b n s) (fun _ => Ordered bs) (Ordered bs) := by
  refine Call.Returns.bind (checkBounds_spec h i (u32 a) (u32 n)) ?_
  rintro _ _ ⟨rfl, _, _⟩
  refine Call.Returns.bind (checkBounds_spec h j (u32 b) (u32 n)) ?_
  rintro _ _ ⟨rfl, hj, hfits⟩
  refine Call.Returns.bind (readRetry_spec h _ _) ?_
  rintro data _ rfl
  exact (h.raise hbs _ (hend hj hfits)).of_marks fun _ hj => hj

/-! ## Discards -/

theorem isSet_writeZeros (f : OsFile) (b : Bitmap) (i n j : Nat) :
    (writeZeros bs f b i n).2.isSet j = (decide (¬ (i ≤ j ∧ j < i + n)) && b.isSet j) := by
  induction n generalizing f b i with
  | zero => simp [writeZeros]
  | succ n ih =>
      unfold writeZeros
      by_cases hj : i = j
      · subst hj
        cases hset : b.isSet i with
        | false => simp [ih, hset]
        | true => simp [ih]
      · have hiff : (i + 1 ≤ j ∧ j < i + 1 + n) ↔ (i ≤ j ∧ j < i + (n + 1)) := by omega
        split
        · rw [ih, decide_eq_decide.2 (not_congr hiff)]
        · rw [ih, decide_eq_decide.2 (not_congr hiff), Bitmap.isSet_clear,
            decide_eq_true hj, Bool.true_and]

/-- Whatever way they are erased, the blocks of the range are the ones that lose their
marks. -/
theorem isSet_eraseBlocks (i n j : Nat) :
    (eraseBlocks host bs i n s).2.isSet j =
      (decide (¬ (i ≤ j ∧ j < i + n)) && s.bitmap.isSet j) := by
  unfold eraseBlocks
  split
  · exact isSet_clearBits _ _ _ _
  · split
    · exact isSet_clearBits _ _ _ _
    · exact isSet_writeZeros _ _ _ _ _

/-- `markedSize` reaches behind every marked block. -/
theorem le_markedSize {b : Bitmap} (haddr : ∀ k, b.isSet k = true → k * bs + bs < 2 ^ 64)
    {j : Nat} (hj : b.isSet j = true) : (j + 1) * bs ≤ markedSize bs b := by
  unfold markedSize
  dsimp only
  cases Bitmap.msbIndex_spec b with
  | inr hempty =>
      rw [hempty.2 j] at hj
      cases hj
  | inl hmsb =>
      obtain ⟨hmem, habove⟩ := hmsb
      have hle : j ≤ b.msbIndex := by
        by_contra hlt
        rw [habove j (by omega)] at hj
        cases hj
      have hne : ¬ (b.msbIndex = 0 ∧ b.isSet 0 = false) := by
        rintro ⟨hzero, hclear⟩
        rw [hzero, hclear] at hmem
        cases hmem
      have hend : (b.msbIndex + 1) * bs < 2 ^ 64 := by
        rw [Nat.add_mul, Nat.one_mul]
        exact haddr _ hmem
      rw [if_neg hne, u64_of_lt hend]
      exact Nat.mul_le_mul_right _ (by omega)

/-- Cutting `bytes_used` back to the last marked block keeps the order where that block
lies at the end of the minimum or behind it. -/
theorem Ordered.shrinkUsed (hbs : 0 < bs) (h : Ordered bs s)
    (hmin : s.minBlockCount = 0 ∨ ∃ b, s.minBlockCount ≤ b + 1 ∧ s.bitmap.isSet b = true) :
    Ordered bs (shrinkUsed bs s) := by
  have hused := h.used_le
  unfold FileVolume.shrinkUsed
  dsimp only
  split
  · rename_i hlt
    refine ⟨?_, Nat.le_trans (Nat.le_of_lt hlt) hused, h.addressable, h.marked⟩
    show s.minBlockCount ≤ blockCount (markedSize bs s.bitmap) bs
    cases hmin with
    | inl hzero => rw [hzero]; exact Nat.zero_le _
    | inr hex =>
        obtain ⟨b, hle, hset⟩ := hex
        calc s.minBlockCount ≤ b + 1 := hle
          _ = blockCount ((b + 1) * bs) bs := (blockCount_mul hbs).symm
          _ ≤ blockCount (markedSize bs s.bitmap) bs :=
              blockCount_mono hbs (le_markedSize h.marked hset)
  · exact h

theorem discardBlocks_ordered (hbs : 0 < bs) (h : Ordered bs s) {i n : Nat}
    (hmin : i < s.maxBlockCount → 0 < n → s.minBlockCount = 0 ∨ MinimumStaysMarked s i n) :
    Call.Returns (discardBlocks host bs i n s) (fun _ => Ordered bs) (Ordered bs) := by
  unfold discardBlocks
  split
  · exact h
  · rename_i hi
    generalize hk : (if n > s.maxBlockCount - i then s.maxBlockCount - i else n) = k
    dsimp only
    split
    · exact h
    · rename_i hk0
      have hn : 0 < n := by
        subst hk
        split at hk0 <;> omega
      have hcleared : ∀ b, ¬ (i ≤ b ∧ b < i + n ∧ b < s.maxBlockCount) →
          ¬ (i ≤ b ∧ b < i + k) := by
        intro b hb
        subst hk
        split <;> omega
      have hmarks : ∀ j, (eraseBlocks host bs i k s).2.isSet j = true →
          s.bitmap.isSet j = true := by
        intro j hj
        rw [isSet_eraseBlocks, Bool.and_eq_true] at hj
        exact hj.2
      refine Ordered.shrinkUsed hbs (h.of_marks hmarks) ?_
      cases hmin (Nat.lt_of_not_le hi) hn with
      | inl hzero => exact Or.inl hzero
      | inr hstays =>
          obtain ⟨b, hle, hset, hout⟩ := hstays
          refine Or.inr ⟨b, hle, ?_⟩
          show (eraseBlocks host bs i k s).2.isSet b = true
          rw [isSet_eraseBlocks, hset, decide_eq_true (hcleared b hout)]
          rfl

/-! ## Moves -/

theorem transferBlocks_ordered (h : Ordered bs s) (i j n : Nat) :
    Call.Returns (transferBlocks host bs i j n s)
      (fun _ t => Ordered bs t ∧ t.maxBlockCount = s.maxBlockCount) (Ordered bs) := by
  unfold transferBlocks
  dsimp only
  split
  · trivial
  · rename_i f processed _
    have hcopied : Ordered bs { s with file := f } := h.of_marks fun _ hj => hj
    split
    · refine Call.Returns.bind (readRetry_spec hcopied _ _) ?_
      rintro data _ rfl
      exact ⟨h.of_marks fun _ hj => hj, rfl⟩
    · exact ⟨hcopied, rfl⟩

theorem moveBlock_ordered (hbs : 0 < bs) (h : Ordered bs s) {i j : Nat}
    (hmin : discarded s (.move i j) = some (j, 1) → j < s.maxBlockCount →
      s.minBlockCount = 0 ∨ MinimumStaysMarked s j 1) :
    Call.Returns (moveBlock host bs i j s) (fun _ => Ordered bs) (Ordered bs) := by
  refine Call.Returns.bind (checkBounds_spec h i 0 bs) ?_
  rintro _ _ ⟨rfl, hi, _⟩
  refine Call.Returns.bind (checkBounds_spec h j 0 bs) ?_
  rintro _ _ ⟨rfl, hj, _⟩
  rw [Call.bind_apply, Call.get_apply, Outcome.bind_ok]
  split
  · exact h
  · rename_i hwork
    split
    · rename_i hsrcSet
      have hisrc : s.bitmap.isSet i = false := by simpa using hsrcSet
      have hidst : s.bitmap.isSet j = true := by
        simpa [hisrc] using (not_or.1 hwork).2
      have hdiscard : discarded s (.move i j) = some (j, 1) :=
        if_pos ⟨(not_or.1 hwork).1, hi, hj, hisrc, hidst⟩
      exact discardBlocks_ordered hbs h fun _ _ => hmin hdiscard hj
    · refine Call.Returns.bind (transferBlocks_ordered h _ _ _) ?_
      rintro _ t ⟨ht, hmax⟩
      have hend : (j + 1) * bs ≤ t.maxBlockCount * bs := by
        rw [hmax]
        exact Nat.mul_le_mul_right _ hj
      have haddr := ht.addressable
      refine (ht.raise hbs (u64 ((j + 1) * bs)) ?_).mark ?_
      · rw [u64_of_lt (by omega)]
        exact hend
      · show j ≤ t.maxBlockCount
        omega

/-! ## Truncating and settings -/

theorem truncate_ordered (hbs : 0 < bs) (size : Nat) :
    (truncate bs size).Keeps (Ordered bs) := by
  intro s hs
  unfold truncate
  dsimp only
  split
  · exact hs
  · rename_i hmax
    split
    · exact hs
    · rename_i hmin
      refine ⟨Nat.le_of_lt (Nat.lt_of_not_le hmin),
        (blockCount_le_iff hbs).1 (Nat.le_of_not_lt hmax), hs.addressable, ?_⟩
      intro b hb
      dsimp only at hb
      split at hb
      · rw [isSet_setBits, Bool.or_eq_true, decide_eq_true_eq] at hb
        cases hb with
        | inl hrange => exact hs.block_end (by omega)
        | inr hset => exact hs.marked b hset
      · split at hb
        · rw [isSet_clearBitsDown _ _ _ _ (Nat.sub_le _ _), Bool.and_eq_true] at hb
          exact hs.marked b hb.2
        · exact hs.marked b hb

theorem setProperty_ordered (hbs : 0 < bs) (h : Ordered bs s) {prop : Property}
    {value : Nat} (hok : SizesAgree bs s (.setProperty prop value)) :
    Call.Returns (setProperty bs prop value s) (fun _ => Ordered bs) (Ordered bs) := by
  have hmin := h.min_le
  have hused := h.used_le
  have hcount : blockCount s.bytesUsed bs ≤ s.maxBlockCount := (blockCount_le_iff hbs).2 hused
  cases prop with
  | minSize =>
      refine ⟨?_, hused, h.addressable, h.marked⟩
      have hok' : min (blockCount value bs) s.maxBlockCount ≤ blockCount s.bytesUsed bs := hok
      show (if blockCount value bs > s.maxBlockCount then s.maxBlockCount
        else blockCount value bs) ≤ blockCount s.bytesUsed bs
      split <;> omega
  | maxSize =>
      obtain ⟨hok', hvalue⟩ : blockCount s.bytesUsed bs ≤ max (value / bs) s.minBlockCount ∧
        value / bs * bs + bs < 2 ^ 64 := hok
      have haddr := h.addressable
      have hminle : s.minBlockCount * bs ≤ s.maxBlockCount * bs :=
        Nat.mul_le_mul_right _ (by omega)
      refine ⟨hmin, ?_, ?_, h.marked⟩
      · refine (blockCount_le_iff hbs).1 ?_
        show blockCount s.bytesUsed bs ≤
          if value / bs < s.minBlockCount then s.minBlockCount else value / bs
        split <;> omega
      · show (if value / bs < s.minBlockCount then s.minBlockCount else value / bs) * bs + bs <
          2 ^ 64
        split <;> omega

/-! ## Runs -/

theorem block_ordered (hbs : 0 < bs) (h : Ordered bs s) {op : BlockOp}
    (hok : SizesAgree bs s (.block op)) :
    Call.Returns (op.run (volume host bs) s) (fun _ => Ordered bs) (Ordered bs) := by
  cases op with
  | read i => exact readPartialBlock_ordered i 0 bs s h
  | readPartial i off n => exact readPartialBlock_ordered i off n s h
  | write i b =>
      cases b with
      | none => exact (discardBlocks_ordered hbs h (hok.1 i 1 rfl)).bind_pure
      | some l => exact (writePartialBlock_ordered hbs i (some l) 0 bs s h).bind_pure
  | writePartial i b off n => exact (writePartialBlock_ordered hbs i b off n s h).bind_pure
  | move i j =>
      exact (moveBlock_ordered hbs h fun hdiscard hj =>
        hok.1 j 1 hdiscard hj Nat.one_pos).bind_pure
  | movePartial i j a b n => exact (moveBlockPartial_ordered hbs h (hok.2 i j a b n rfl)).bind_pure
  | discard i n => exact (discardBlocks_ordered hbs h (hok.1 i n rfl)).bind_pure
  | commit => exact h.of_marks fun _ hj => hj

theorem fromFd_ordered {file : OsFile} {maxSize : Nat}
    (hfile : blockCount file.size bs ≤ blockCount maxSize bs)
    (hmax : blockCount maxSize bs * bs + bs < 2 ^ 64) :
    Ordered bs (fromFd bs file maxSize) := by
  refine ⟨Nat.zero_le _, Nat.mul_le_mul_right _ hfile, hmax, ?_⟩
  intro b hb
  have hmem : b < blockCount file.size bs := by
    have hset : (setBits (Bitmap.create (blockCount file.size bs)) 0
      (blockCount file.size bs)).isSet b = true := hb
    simpa [isSet_setBits] using hset
  have hend : b * bs ≤ blockCount maxSize bs * bs := Nat.mul_le_mul_right _ (by omega)
  omega

/-- In every state that such actions lead to, the sizes are in order. -/
theorem ReachedInOrder.ordered (hbs : 0 < bs) {file : OsFile} {maxSize : Nat}
    (hfile : blockCount file.size bs ≤ blockCount maxSize bs)
    (hmax : blockCount maxSize bs * bs + bs < 2 ^ 64)
    (h : ReachedInOrder bs file maxSize s) : Ordered bs s := by
  refine Run.invariant h (fromFd_ordered hfile hmax) fun t c u ht hok hop => ?_
  obtain ⟨host, act⟩ := c
  cases act with
  | block op => exact (block_ordered hbs ht hok.2).state hop
  | truncate size => exact (truncate_ordered hbs size t ht).bind_pure.state hop
  | setProperty prop value => exact (setProperty_ordered hbs ht hok.2).bind_pure.state hop

end Ordered

end ImageTool.Image.FileVolume
