import ImageTool.Mbr.Relocate

/-!
# Isolation of partitions

Over an ideal volume no operation on one partition changes what the used blocks of
another read as, as long as the operations are `Safe`: a partition gives up room
only while nothing behind it is in use, and no byte address wraps.
-/

namespace ImageTool.Mbr

open ImageTool.Lib ImageTool.Image

namespace Disk

/-- An operation on partition `i` that keeps the table sane and the used bytes of
all other partitions. -/
structure Isolated (count : Nat) (i : Option Nat) (d d' : Disk Bytes) : Prop where
  sane : Sane count d'.parts
  kept : ∀ k, some k ≠ i → Kept k d d'

theorem Isolated.trans {count : Nat} {i : Option Nat} {d₁ d₂ d₃ : Disk Bytes}
    (h : Isolated count i d₁ d₂) (h' : Isolated count i d₂ d₃) :
    Isolated count i d₁ d₃ :=
  ⟨h'.sane, fun k hk => (h.kept k hk).trans (h'.kept k hk)⟩

theorem GrownBy.isolated {count i r : Nat} {d d' : Disk Bytes}
    (h : GrownBy count i r d d') : Isolated count (some i) d d' :=
  ⟨h.sane, fun k _ => h.kept k⟩

section Laws

variable {d : Disk Bytes} {i count : Nat} {p : Part}

theorem Isolated.refl (hs : Sane count d.parts) (i : Option Nat) : Isolated count i d d :=
  ⟨hs, fun k _ => Kept.refl k d⟩

/-! ## Single steps -/

/-- Changing one entry, but not its place, in a table whose other entries are sane. -/
theorem Sane.of_modify {parts : List Part} (hs : Sound count parts)
    (hused : ∀ (k : Nat) q, k ≠ i → parts[k]? = some q → q.blkUsed ≤ q.blkCount)
    (hmin : ∀ (k : Nat) q, k ≠ i → parts[k]? = some q → q.blkCountMin ≤ count)
    (hp : parts[i]? = some p) {f : Part → Part} (hindex : (f p).index = p.index)
    (hcount : (f p).blkCount = p.blkCount) (hfill : (f p).fills = p.fills)
    (hfused : (f p).blkUsed ≤ p.blkCount) (hfmin : (f p).blkCountMin ≤ count) :
    Sane count (parts.modify i f) := by
  have hentry : ∀ k q, (parts.modify i f)[k]? = some q →
      (k = i ∧ q = f p) ∨ (k ≠ i ∧ parts[k]? = some q) := by
    intro k q hq
    rw [List.getElem?_modify] at hq
    obtain ⟨q', hq', rfl⟩ := Option.map_eq_some_iff.1 hq
    split
    · rename_i hik
      subst hik
      rw [hp] at hq'
      cases hq'
      exact Or.inl ⟨rfl, rfl⟩
    · rename_i hik
      exact Or.inr ⟨fun h => hik h.symm, hq'⟩
  refine ⟨hs.modify hp hindex hcount hfill, ?_, ?_⟩
  · intro k q hq
    rcases hentry k q hq with ⟨_, rfl⟩ | ⟨hk, hq'⟩
    · rw [hcount]
      exact hfused
    · exact hused k q hk hq'
  · intro k q hq
    rcases hentry k q hq with ⟨_, rfl⟩ | ⟨hk, hq'⟩
    · exact hfmin
    · exact hmin k q hk hq'

/-- Changing an entry of partition `i`, but not its place, keeps all others. -/
theorem kept_modify {k : Nat} (hk : k ≠ i) (f : Part → Part) :
    Kept k d { d with parts := d.parts.modify i f } := by
  intro q hq
  refine ⟨q, ?_, rfl, fun _ _ => rfl⟩
  show (d.parts.modify i f)[k]? = some q
  rw [List.getElem?_modify, hq, Option.map_eq_map, Option.map_some,
    if_neg fun h => hk h.symm]

theorem update_isolated (hs : Sane count d.parts) (hp : d.parts[i]? = some p)
    {f : Part → Part} (hindex : (f p).index = p.index)
    (hcount : (f p).blkCount = p.blkCount) (hfill : (f p).fills = p.fills)
    (hused : (f p).blkUsed ≤ p.blkCount) (hmin : (f p).blkCountMin ≤ count) :
    Call.Returns (update i f d)
      (fun _ d' => Isolated count (some i) d d' ∧ d'.parts[i]? = some (f p))
      (fun d' => Sane count d'.parts) := by
  refine ⟨⟨Sane.of_modify hs.sound (fun k q _ => hs.used_le k q)
    (fun k q _ => hs.min_le k q) hp hindex hcount hfill hused hmin, ?_⟩, ?_⟩
  · intro k hk
    exact kept_modify (fun h => hk (congrArg some h)) f
  · show (d.parts.modify i f)[i]? = some (f p)
    rw [List.getElem?_modify, hp, Option.map_eq_map, Option.map_some, if_pos rfl]

/-- A call on the volume that changes bytes of partition `i` only. -/
theorem onVolume_isolated {α : Type} (hs : Sane count d.parts)
    (hp : d.parts[i]? = some p) {m : Call Bytes α}
    (h : Call.Returns (m d.volume)
      (fun _ v => ∀ x, x < p.index * sectorSize ∨
        (p.index + p.blkCount) * sectorSize ≤ x → v x = d.volume x)
      (fun _ => True)) :
    Call.Returns (onVolume m d) (fun _ => Isolated count (some i) d)
      (fun d' => Sane count d'.parts) := by
  refine (onVolume_returns h).mono ?_ (fun _ h => by rw [h.2]; exact hs)
  rintro _ d' ⟨hsame, hparts⟩
  refine ⟨by rw [hparts]; exact hs, ?_⟩
  intro k hk q hq
  refine ⟨q, by rw [hparts]; exact hq, rfl, ?_⟩
  intro x hx
  apply hsame
  have hused := hs.used_le k q hq
  have hne : k ≠ i := fun h => hk (congrArg some h)
  rcases Nat.lt_or_gt_of_ne hne with hlt | hgt
  · have hend := hs.sound.laid.end_le hq hp hlt
    left
    simp only [sectorSize, Nat.add_mul] at *
    omega
  · have hend := hs.sound.laid.end_le hp hq hgt
    right
    simp only [sectorSize, Nat.add_mul] at *
    omega

/-- Sector `index` of a partition is a sector of the volume. -/
private theorem u64_index_add (hs : Sane count d.parts) (hcount : count * sectorSize ≤ 2 ^ 64)
    (hp : d.parts[i]? = some p) {index : Nat} (hin : index < p.blkCount) :
    u64 (p.index + index) = p.index + index := by
  have hbound := hs.sound.index_add_le hp
  have hfits := hs.sound.fits
  simp only [sectorSize] at hcount
  exact u64_of_lt (by omega)

/-- A byte in front of a sector is in front of all that follow. -/
private theorem lt_sector {a b off x : Nat} (hab : a ≤ b) (hx : x < a * sectorSize) :
    x < b * sectorSize + off :=
  Nat.lt_of_lt_of_le hx (Nat.le_trans (Nat.mul_le_mul_right _ hab) (Nat.le_add_right _ _))

/-- A part of a sector ends in front of the next one. -/
private theorem sector_le {a b off n x : Nat} (hab : a < b) (hn : off + n ≤ sectorSize)
    (hx : b * sectorSize ≤ x) : a * sectorSize + off + n ≤ x := by
  have hnext : (a + 1) * sectorSize ≤ b * sectorSize := Nat.mul_le_mul_right _ hab
  rw [Nat.succ_mul] at hnext
  omega

/-! ## Operations on a partition -/

variable (hcount : count * sectorSize ≤ 2 ^ 64)

include hcount

omit hcount in
theorem partReadPartialBlock_isolated (hs : Sane count d.parts) (index offset size : Nat) :
    Call.Returns
      (partReadPartialBlock (idealVolume sectorSize count) i index offset size d)
      (fun _ => Isolated count (some i) d) (fun d' => Sane count d'.parts) := by
  apply part_returns
  intro p hp
  split
  · split
    · exact hs
    · exact Isolated.refl hs _
  · apply onVolume_isolated hs hp
    rw [idealVolume_readPartialBlock]
    split
    · exact fun _ _ => rfl
    · trivial

/-- The growth that comes with a write or a move behind the end of a partition. -/
private theorem growTo_isolated (hs : Sane count d.parts) (hp : d.parts[i]? = some p)
    {index : Nat} (h64 : index < 2 ^ 64)
    (hsafe : p.blkCount ≤ index → GrowSafe d.parts i (index - p.blkCount + 1)) :
    Call.Returns
      (Call.guard (index ≥ p.blkCount) (growPartition (idealVolume sectorSize count) i
        (u64 (index - p.blkCount + 1))) d)
      (fun _ d' => Isolated count (some i) d d' ∧ ∃ n, index < n ∧ p.blkCount ≤ n ∧
        d'.parts[i]? = some { p with blkCount := n })
      (fun d' => Sane count d'.parts) := by
  have hlarge := hs.sound.large i p hp
  rw [partAlign_eq] at hlarge
  refine Call.Returns.guard ?_ ?_
  · intro hge
    rw [u64_of_lt (by omega)]
    refine (growPartition_ideal hs hcount hp (hsafe hge)).mono ?_ (fun _ h => h)
    intro _ d' h
    have hround := le_roundUp (index - p.blkCount + 1)
    exact ⟨h.isolated, _, by omega, Nat.le_add_right _ _, h.entry hs hp⟩
  · intro hlt
    exact ⟨Isolated.refl hs _, p.blkCount, by omega, Nat.le_refl _, hp⟩

theorem partWritePartialBlock_isolated (hs : Sane count d.parts) {index : Nat}
    (buffer : Buffer) (offset size : Nat)
    (hsafe : ∀ p, d.parts[i]? = some p → index < 2 ^ 64 ∧
      (p.blkCount ≤ index → p.grows = true →
        GrowSafe d.parts i (index - p.blkCount + 1))) :
    Call.Returns
      (partWritePartialBlock (idealVolume sectorSize count) i index buffer offset size d)
      (fun _ => Isolated count (some i) d) (fun d' => Sane count d'.parts) := by
  apply part_returns
  intro p hp
  obtain ⟨h64, hgrow⟩ := hsafe p hp
  refine Call.Returns.bind (R := fun _ d' => Isolated count (some i) d d' ∧
    ∃ n, index < n ∧ p.blkCount ≤ n ∧ d'.parts[i]? = some { p with blkCount := n }) ?_ ?_
  · cases hgrows : p.grows with
    | true => exact growTo_isolated hcount hs hp h64 fun hge => hgrow hge hgrows
    | false =>
        refine Call.Returns.guard (fun _ => hs) ?_
        intro hlt
        exact ⟨Isolated.refl hs _, p.blkCount, by omega, Nat.le_refl _, hp⟩
  · rintro _ d₁ ⟨h₁, n, hn, hle, hp₁⟩
    have hbound := h₁.sane.sound.index_add_le hp₁
    have hfits := h₁.sane.sound.fits
    have hused := hs.used_le i p hp
    have hmin := hs.min_le i p hp
    refine Call.Returns.bind (R := fun _ d' => Isolated count (some i) d d' ∧
      ∃ q, d'.parts[i]? = some q ∧ q.index = p.index ∧ q.blkCount = n) ?_ ?_
    · refine Call.Returns.guard ?_ ?_
      · intro _
        have hindex : u64 (index + 1) ≤ n := Nat.le_trans (u64_le _) hn
        refine (update_isolated (f := fun q => { q with blkUsed := u64 (index + 1) })
          h₁.sane hp₁ rfl rfl rfl hindex hmin).mono ?_ (fun _ h => h)
        rintro _ d₂ ⟨h₂, hp₂⟩
        exact ⟨h₁.trans h₂, _, hp₂, rfl, rfl⟩
      · intro _
        exact ⟨h₁, _, hp₁, rfl, rfl⟩
    · rintro _ d₂ ⟨h₂, q, hq, hindex, hcountq⟩
      rw [← hindex, u64_index_add h₂.sane hcount hq (by omega)]
      refine (onVolume_isolated h₂.sane hq ?_).mono (fun _ _ h => h₂.trans h) (fun _ h => h)
      rw [idealVolume_writePartialBlock]
      split
      · rename_i hin
        have hlen : (buffer.bytes size).length ≤ size := by
          unfold Buffer.bytes
          split <;> simp
        rintro x (hx | hx)
        · exact Bytes.splice_apply_of_lt (lt_sector (Nat.le_add_right _ _) hx)
        · exact Bytes.splice_apply_of_ge (sector_le (by omega) (by omega) hx)
      · trivial

theorem partDiscardBlocks_isolated (hs : Sane count d.parts) (index n : Nat) :
    Call.Returns (partDiscardBlocks (idealVolume sectorSize count) i index n d)
      (fun _ => Isolated count (some i) d) (fun d' => Sane count d'.parts) := by
  apply part_returns
  intro p hp
  split
  · exact Isolated.refl hs _
  rename_i hlt
  have hused := hs.used_le i p hp
  have hclip : (if n > p.blkUsed - index then p.blkUsed - index else n) ≤
      p.blkUsed - index := by
    split <;> omega
  generalize (if n > p.blkUsed - index then p.blkUsed - index else n) = m at *
  change Call.Returns ((if m = 0 then pure () else _ : Call (Disk Bytes) Unit) d) _ _
  split
  · exact Isolated.refl hs _
  refine Call.Returns.bind (R := fun _ d' => Isolated count (some i) d d' ∧
    ∃ q, d'.parts[i]? = some q ∧ q.index = p.index ∧ q.blkCount = p.blkCount) ?_ ?_
  · refine Call.Returns.guard ?_ (fun _ => ⟨Isolated.refl hs _, p, hp, rfl, rfl⟩)
    intro _
    refine (update_isolated (f := fun q => { q with blkUsed := index }) hs hp rfl rfl rfl
      (show index ≤ p.blkCount by omega) (hs.min_le i p hp)).mono ?_ (fun _ h => h)
    rintro _ d' ⟨h', hp'⟩
    exact ⟨h', _, hp', rfl, rfl⟩
  · rintro _ d' ⟨h', q, hq, hindex, hcountq⟩
    rw [← hindex, u64_index_add h'.sane hcount hq (by omega)]
    refine (onVolume_isolated h'.sane hq ?_).mono (fun _ _ h => h'.trans h) (fun _ h => h)
    rw [idealVolume_discardBlocks]
    split
    · rintro x (hx | hx)
      · apply Bytes.clear_apply_of_lt
        exact Nat.lt_of_lt_of_le hx (Nat.mul_le_mul_right _ (Nat.le_add_right _ _))
      · apply Bytes.clear_apply_of_ge
        rw [← Nat.add_mul]
        exact Nat.le_trans (Nat.mul_le_mul_right _ (by omega)) hx
    · trivial

theorem partMoveBlockPartial_isolated (hs : Sane count d.parts) {src dst : Nat}
    (srcOffset dstOffset size : Nat)
    (hsafe : ∀ p, d.parts[i]? = some p → src < p.blkUsed → dst < 2 ^ 64 ∧
      (p.blkCount ≤ dst → p.grows = true →
        GrowSafe d.parts i (dst - p.blkCount + 1))) :
    Call.Returns (partMoveBlockPartial (idealVolume sectorSize count) i src dst
        srcOffset dstOffset size d)
      (fun _ => Isolated count (some i) d) (fun d' => Sane count d'.parts) := by
  apply part_returns
  intro p hp
  split
  · exact hs
  rename_i hgrows
  split
  · exact Isolated.refl hs _
  split
  · exact partDiscardBlocks_isolated hcount hs dst 1
  rename_i hsrc
  obtain ⟨h64, hgrow⟩ := hsafe p hp (by omega)
  refine (growTo_isolated hcount hs hp h64 ?_).bind ?_
  · intro hge
    apply hgrow hge
    cases hg : p.grows with
    | true => rfl
    | false => exact absurd ⟨Or.inr hge, hg⟩ hgrows
  · rintro _ d₁ ⟨h₁, n, hn, hle, hp₁⟩
    have hused := hs.used_le i p hp
    have hmin := hs.min_le i p hp
    refine Call.Returns.bind (R := fun _ d' => Isolated count (some i) d d' ∧
      ∃ q, d'.parts[i]? = some q ∧ q.index = p.index ∧ q.blkCount = n) ?_ ?_
    · refine Call.Returns.guard ?_ (fun _ => ⟨h₁, _, hp₁, rfl, rfl⟩)
      intro _
      refine (update_isolated (f := fun q => { q with blkUsed := dst }) h₁.sane hp₁ rfl rfl
        rfl (Nat.le_of_lt hn) hmin).mono ?_ (fun _ h => h)
      rintro _ d₂ ⟨h₂, hp₂⟩
      exact ⟨h₁.trans h₂, _, hp₂, rfl, rfl⟩
    · rintro _ d₂ ⟨h₂, q, hq, hindex, hcountq⟩
      rw [← hindex, u64_index_add h₂.sane hcount hq (show src < q.blkCount by omega),
        u64_index_add h₂.sane hcount hq (show dst < q.blkCount by omega)]
      have hmove : ∀ (v : Bytes) a b m, b + m ≤ sectorSize → ∀ x,
          x < q.index * sectorSize ∨ (q.index + q.blkCount) * sectorSize ≤ x →
          v.move ((q.index + dst) * sectorSize + b) a m x = v x := by
        rintro v a b m hm x (hx | hx)
        · exact Bytes.move_apply_of_lt (lt_sector (Nat.le_add_right _ _) hx)
        · exact Bytes.move_apply_of_ge (sector_le (by omega) hm hx)
      split
      · refine (onVolume_isolated h₂.sane hq ?_).mono (fun _ _ h => h₂.trans h)
          (fun _ h => h)
        rw [idealVolume_moveBlock]
        split
        · have hwhole := hmove d₂.volume ((q.index + src) * sectorSize) 0 sectorSize
            (Nat.le_of_eq (Nat.zero_add _))
          simp only [Nat.add_zero] at hwhole
          exact hwhole
        · trivial
      · refine (onVolume_isolated h₂.sane hq ?_).mono (fun _ _ h => h₂.trans h)
          (fun _ h => h)
        rw [idealVolume_moveBlockPartial]
        split
        · rename_i hin
          exact hmove _ _ _ _ hin.2.2.2
        · trivial

theorem partSetBaseBlockCount_isolated (hs : Sane count d.parts) {size : Nat}
    (hgrow : ∀ p, d.parts[i]? = some p → p.blkCount < size →
      GrowSafe d.parts i (size - p.blkCount))
    (hshrink : ∀ p, d.parts[i]? = some p → p.blkUsed < size → size < p.blkCount →
      p.blkCountMin ≤ p.blkCount →
      shrunk p (size - p.blkUsed) = p.blkCount ∨ NothingBehind d.parts i) :
    Call.Returns (partSetBaseBlockCount (idealVolume sectorSize count) i size d)
      (fun _ => Isolated count (some i) d) (fun d' => Sane count d'.parts) := by
  apply part_returns
  intro p hp
  have hfits := hs.sound.fits
  have hbound := hs.sound.index_add_le hp
  -- the size that becomes the minimum fits into the volume
  refine Call.Returns.bind (R := fun _ d' => Isolated count (some i) d d' ∧
    size ≤ count ∧ ∃ q, d'.parts[i]? = some q) ?_ ?_
  · split
    · rename_i hgt
      refine (growPartition_ideal hs hcount hp (hgrow p hp hgt)).mono ?_ (fun _ h => h)
      intro _ d' h
      have hentry := h.entry hs hp
      have hround := le_roundUp (size - p.blkCount)
      have hend : p.index + (p.blkCount + roundUp (size - p.blkCount)) ≤ count :=
        Nat.le_trans (h.sane.sound.index_add_le hentry).2 h.sane.sound.fits
      exact ⟨h.isolated, by omega, _, hentry⟩
    · rename_i hle
      refine Call.Returns.guard ?_ (fun _ => ⟨Isolated.refl hs _, by omega, p, hp⟩)
      rintro ⟨hlt, hused⟩
      have hkeep : p.blkUsed ≤ shrunk p (size - p.blkUsed) := by
        have hdown := alignDown_le (size - p.blkUsed)
        unfold shrunk
        omega
      have hlarge := partAlign_le_shrunk p (size - p.blkUsed)
      rcases shrinkPartition_ideal hs hcount hp (size - p.blkUsed) with
        ⟨hmin, hrun, hshrunk⟩ | ⟨_, hrun⟩
      · rw [hrun]
        refine ⟨⟨hs.resize hp hlarge hkeep (by omega), ?_⟩, by omega, _,
          getElem?_resize_self hp⟩
        intro k hk
        exact kept_shrunkDisk_of_ne hs hp hlarge hshrunk (hshrink p hp hused hlt hmin)
          fun h => hk (congrArg some h)
      · rw [hrun]
        exact hs
  · rintro _ d₁ ⟨h₁, hsize, q, hq⟩
    refine (update_isolated (f := fun r => { r with blkCountMin := size }) h₁.sane hq rfl
      rfl rfl (h₁.sane.used_le i q hq) hsize).mono ?_ (fun _ h => h)
    rintro _ d₂ ⟨h₂, _⟩
    exact h₁.trans h₂

theorem partTruncate_isolated (hs : Sane count d.parts) {size : Nat}
    (hsafe : ∀ p, d.parts[i]? = some p →
      p.blkCountMin < truncateCount (idealVolume sectorSize count) size →
      truncateCount (idealVolume sectorSize count) size ≠ p.blkCount →
      p.blkCount % partAlign = 0 ∧
      (truncateCount (idealVolume sectorSize count) size < p.blkCount →
        NothingBehind d.parts i) ∧
      (p.blkCount < truncateCount (idealVolume sectorSize count) size →
        GrowSafe d.parts i
          (truncateCount (idealVolume sectorSize count) size - p.blkCount))) :
    Call.Returns (partTruncate (idealVolume sectorSize count) i size d)
      (fun _ => Isolated count (some i) d) (fun d' => Sane count d'.parts) := by
  apply part_returns
  intro p hp
  have hmod := truncateCount_mod (idealVolume sectorSize count) size
  generalize truncateCount (idealVolume sectorSize count) size = n at *
  change Call.Returns ((if n ≤ p.blkCountMin then pure () else _ :
    Call (Disk Bytes) Unit) d) _ _
  split
  · exact Isolated.refl hs _
  rename_i hmin
  split
  · exact Isolated.refl hs _
  rename_i hne
  obtain ⟨hcountmod, hbehind, hgrow⟩ := hsafe p hp (by omega) hne
  have hfits := hs.sound.fits
  split
  · rename_i hlt
    have hshrunk : shrunk p (p.blkCount - n) = n := by
      unfold shrunk
      rw [alignDown_eq, partAlign_eq] at *
      omega
    rcases shrinkPartition_ideal hs hcount hp (p.blkCount - n) with
      ⟨_, hrun, hle⟩ | ⟨_, hrun⟩
    · have hlarge : partAlign ≤ n := hshrunk ▸ partAlign_le_shrunk p (p.blkCount - n)
      rw [Call.bind_apply, hrun, hshrunk]
      have hothers : ∀ (k : Nat) q, k ≠ i → (resize d.parts i n)[k]? = some q →
          ∃ q', d.parts[k]? = some q' ∧ q.blkUsed = q'.blkUsed ∧
            q.blkCount = q'.blkCount ∧ q.blkCountMin = q'.blkCountMin := by
        intro k q hk hq
        rw [getElem?_resize] at hq
        obtain ⟨q', hq', rfl⟩ := Option.map_eq_some_iff.1 hq
        exact ⟨q', hq', rfl, if_neg fun h => hk h.symm, rfl⟩
      refine ⟨Sane.of_modify (hs.sound.resize hp hlarge (by omega)) ?_ ?_
        (getElem?_resize_self hp) rfl rfl rfl (Nat.le_refl _) (hs.min_le i p hp), ?_⟩
      · intro k q hk hq
        obtain ⟨q', hq', hused, hcountq, _⟩ := hothers k q hk hq
        rw [hused, hcountq]
        exact hs.used_le k q' hq'
      · intro k q hk hq
        obtain ⟨q', hq', _, _, hminq⟩ := hothers k q hk hq
        rw [hminq]
        exact hs.min_le k q' hq'
      · intro k hk
        have hki : k ≠ i := fun h => hk (congrArg some h)
        exact (kept_shrunkDisk_of_ne hs hp hlarge (by omega) (Or.inr (hbehind hlt)) hki).trans
          (kept_modify hki _)
    · rw [Call.bind_apply, hrun]
      exact hs
  · rename_i hge
    have hround : roundUp (n - p.blkCount) = n - p.blkCount := by
      apply roundUp_of_mod
      · rw [partAlign_eq] at *
        omega
      · omega
    refine (growPartition_ideal hs hcount hp (hgrow (by omega))).bind ?_
    intro _ d₁ h
    have hentry := h.entry hs hp
    rw [hround, show p.blkCount + (n - p.blkCount) = n by omega] at hentry
    refine (update_isolated (f := fun q => { q with blkCount := n, blkUsed := n }) h.sane
      hentry rfl rfl rfl (Nat.le_refl n) (hs.min_le i p hp)).mono ?_ (fun _ h => h)
    rintro _ d₂ ⟨h₂, _⟩
    exact h.isolated.trans h₂

omit hcount in
theorem partSetFlags_isolated (hs : Sane count d.parts) (flags : BitVec 64) :
    Call.Returns (partSetFlags i flags d) (fun _ => Isolated count (some i) d)
      (fun d' => Sane count d'.parts) := by
  rw [partSetFlags_eq]
  refine ⟨⟨hs.sound.setFlags i flags, ?_, ?_⟩, ?_⟩
  · intro k q hq
    obtain ⟨q', fl, hq', rfl⟩ := getElem?_setFlags hq
    exact hs.used_le k q' hq'
  · intro k q hq
    obtain ⟨q', fl, hq', rfl⟩ := getElem?_setFlags hq
    exact hs.min_le k q' hq'
  · intro k _ q hq
    obtain ⟨fl, hget⟩ := exists_setFlags i flags hq
    exact ⟨_, hget, rfl, fun _ _ => rfl⟩

/-! ## The partition manager -/

/-- Clearing sectors reaches all of them, and no sector in front. -/
private theorem clearBlocks_ideal {n : Nat} (index : Nat) (v : Bytes) :
    Call.Returns (clearBlocks (idealVolume sectorSize count) index n v)
      (fun _ v' => (0 < n → index + n ≤ count) ∧
        ∀ x < index * sectorSize, v' x = v x) (fun _ => True) := by
  induction n generalizing index v with
  | zero => exact ⟨fun h => absurd h (Nat.lt_irrefl 0), fun _ _ => rfl⟩
  | succ n ih =>
      unfold clearBlocks
      rw [Call.bind_apply, idealVolume_writeBlock]
      split
      · rename_i hin
        have h64 : index + 1 < 2 ^ 64 := by
          have hle : index + 1 ≤ 2 ^ 55 := by
            simp only [sectorSize] at hcount
            omega
          omega
        rw [Outcome.bind_ok, u64_of_lt h64]
        refine (ih (index + 1) _).mono ?_ (fun _ h => h)
        rintro _ v' ⟨hend, hfront⟩
        refine ⟨?_, ?_⟩
        · intro _
          rcases Nat.eq_zero_or_pos n with rfl | hn
          · exact hin
          · have := hend hn
            omega
        · intro x hx
          have hnext : index * sectorSize ≤ (index + 1) * sectorSize :=
            Nat.mul_le_mul_right _ (Nat.le_succ index)
          rw [hfront x (Nat.lt_of_lt_of_le hx hnext)]
          exact Bytes.splice_apply_of_lt hx
      · trivial

theorem createPartition_isolated (hs : d.parts = [] ∨ Sane count d.parts) {blkCount : Nat}
    (h64 : roundUp blkCount < 2 ^ 64) (flags : BitVec 64) :
    Call.Returns (createPartition (idealVolume sectorSize count) blkCount flags d)
      (fun _ => Isolated count none d) (fun d' => d'.parts = d.parts) := by
  have hlarge := partAlign_le_roundUp blkCount
  have hpos := roundUp_pos blkCount
  have hcount' : count ≤ 2 ^ 55 := by
    simp only [sectorSize] at hcount
    omega
  have hnext : nextFree d.parts = tableEnd d.parts := by
    rcases hs with hnil | hs
    · rw [hnil]
      rfl
    · exact nextFree_eq hs.sound (by omega)
  unfold createPartition
  rw [Call.bind_apply, Call.get_apply, Outcome.bind_ok]
  split
  · exact rfl
  rw [hnext, u64_of_lt h64]
  refine Call.Returns.bind (R := fun _ d' => (tableEnd d.parts + roundUp blkCount ≤ count ∧
    ∀ x < tableEnd d.parts * sectorSize, d'.volume x = d.volume x) ∧
      d'.parts = d.parts) ?_ ?_
  · refine (onVolume_returns (clearBlocks_ideal hcount _ d.volume)).mono ?_ (fun _ h => h.2)
    rintro _ d' ⟨⟨hend, hfront⟩, hparts⟩
    exact ⟨⟨hend hpos, hfront⟩, hparts⟩
  rintro _ d' ⟨⟨hend, hfront⟩, hparts⟩
  have hsane : Sane count d.parts := by
    rcases hs with hnil | hs
    · rw [hnil] at hend ⊢
      have hnone : ∀ {Q : Part → Prop} (k : Nat) p, ([] : List Part)[k]? = some p → Q p :=
        fun k p hp => by simp at hp
      exact ⟨sound_nil (Nat.le_trans (Nat.le_add_right _ _) hend), hnone, hnone⟩
    · exact hs
  show Isolated count none d { d' with
    parts := appendPart d'.parts (tableEnd d.parts) (roundUp blkCount) flags }
  rw [hparts]
  refine ⟨⟨hsane.sound.appendPart hlarge hend flags, ?_, ?_⟩, ?_⟩
  · intro k q hq
    rcases getElem?_appendPart hq with ⟨q', fl, hq', rfl⟩ | ⟨_, rfl⟩
    · exact hsane.used_le k q' hq'
    · exact Nat.zero_le _
  · intro k q hq
    rcases getElem?_appendPart hq with ⟨q', fl, hq', rfl⟩ | ⟨_, rfl⟩
    · exact hsane.min_le k q' hq'
    · exact Nat.le_trans (Nat.le_add_left _ _) hend
  · intro k _ q hq
    obtain ⟨fl, hget⟩ := exists_appendPart (tableEnd d.parts) (roundUp blkCount) flags hq
    refine ⟨_, hget, rfl, ?_⟩
    intro x hx
    have hbound := hsane.sound.index_add_le hq
    have hused := hsane.used_le k q hq
    apply hfront
    have hle : (q.index + q.blkUsed) * sectorSize ≤ tableEnd d.parts * sectorSize :=
      Nat.mul_le_mul_right _ (by omega)
    rw [Nat.add_mul] at hle
    exact Nat.lt_of_lt_of_le (Nat.add_lt_add_left hx _) hle

/-- The expand policy on a table whose partitions have been shrunk to fit. -/
private theorem applyExpandPolicy_isolated (hs : Sane count d.parts)
    (hfit : ∀ p, d.parts[i]? = some p → p.fills = true →
      ∀ (k : Nat) q, d.parts[k]? = some q → fit q = q.blkCount) :
    Call.Returns (applyExpandPolicy (idealVolume sectorSize count) i d)
      (fun _ d' => Isolated count none d d' ∧ ((∀ p, d.parts[i]? = some p →
        p.fills = false) → d' = d) ∧ d'.parts.map Part.flags = d.parts.map Part.flags)
      (fun d' => Sane count d'.parts) := by
  have hcount' : count ≤ 2 ^ 55 := by
    simp only [sectorSize] at hcount
    omega
  apply part_returns
  intro p hp
  cases hpf : p.fills with
  | false => exact ⟨Isolated.refl hs _, fun _ => rfl, rfl⟩
  | true =>
      rw [show (!true) = false from rfl, if_neg (by decide), Call.bind_apply,
        Call.get_apply, Outcome.bind_ok]
      split
      · exact ⟨Isolated.refl hs _, fun _ => rfl, rfl⟩
      rename_i hlt
      rcases getFreeSpace_spec (idealVolume sectorSize count) hs.sound (by omega)
        with hzero | ⟨free, _, hlba, _, hend, hfree⟩
      · omega
      have hall := hfit p hp hpf
      have hle := tableEnd_fitRange_le (fun k q hq => Nat.le_of_eq (hall k q hq)) (i + 1)
        d.parts.length
      have hsafe : GrowSafe d.parts i
          (getFreeSpace (idealVolume sectorSize count) d - p.blkCount) := by
        refine ⟨fun j _ _ q hq => Or.inl (hall j q hq), fun _ => ?_⟩
        have hround := roundUp_le
          (getFreeSpace (idealVolume sectorSize count) d - p.blkCount)
        have hlarge := hs.sound.large i p hp
        have hsmall : tableEnd (fitRange (i + 1) d.parts.length d.parts) + roundUp
            (getFreeSpace (idealVolume sectorSize count) d - p.blkCount) ≤ maxLba := by
          omega
        exact Nat.le_trans (Nat.mul_le_mul_right _ hsmall) (by decide)
      refine (growPartition_ideal hs hcount hp hsafe).mono ?_ (fun _ h => h)
      intro _ d' h
      refine ⟨⟨h.sane, fun k _ => h.kept k⟩, fun hno => ?_, ?_⟩
      · rw [hno p hp] at hpf
        cases hpf
      · rw [h.parts p hp, map_flags_resize, map_flags_fitRange]

theorem commit_isolated (hs : Sane count d.parts) (hsafe : FitAllSafe 0 d.parts) :
    Call.Returns (commit (idealVolume sectorSize count) d)
      (fun _ => Isolated count none d) (fun d' => Sane count d'.parts) := by
  unfold commit
  rw [Call.bind_apply, Call.get_apply, Outcome.bind_ok]
  refine (fitAll_ideal hs hcount hsafe).bind ?_
  intro _ d₁ h₁
  have hfit₁ : ∀ (k : Nat) q, d₁.parts[k]? = some q → fit q = q.blkCount := by
    intro k q hq
    rw [h₁.parts, getElem?_fitRange] at hq
    obtain ⟨q', hq', rfl⟩ := Option.map_eq_some_iff.1 hq
    have hlt := (List.getElem?_eq_some_iff.1 hq').1
    rw [if_pos ⟨Nat.zero_le k, hlt⟩]
    exact fit_of_eq_fit (h₁.canFit k q' (Nat.zero_le k) hlt hq') (hs.used_le k q' hq')
      rfl rfl rfl
  have hlen : d.parts.length = d₁.parts.length := by
    rw [h₁.parts, length_fitRange]
  -- one partition at most is expanded, and up to there all have been shrunk to fit
  refine Call.Returns.bind (R := fun _ => Isolated count none d) ?_ ?_
  · rw [hlen]
    refine (eachPart_rule (n := d₁.parts.length) (I := fun j d' =>
      Isolated count none d d' ∧ (d' = d₁ ∨ ∃ k < j, ∃ q, d'.parts[k]? = some q ∧
        q.fills = true)) (E := fun d' => Sane count d'.parts) ?_ d₁.parts.length 0 d₁
      (Nat.zero_add _) ⟨⟨h₁.sane, fun k _ => h₁.kept k⟩, Or.inl rfl⟩).mono
      (fun _ _ h => h.1) (fun _ h => h)
    rintro j d' hj ⟨h', hstate⟩
    refine (applyExpandPolicy_isolated hcount (i := j) h'.sane ?_).mono ?_ (fun _ h => h)
    · intro p hp hpf k q hq
      rcases hstate with rfl | ⟨m, hm, r, hr, hrf⟩
      · exact hfit₁ k q hq
      · have := h'.sane.sound.oneFill j m p r hp hr hpf hrf
        omega
    · rintro _ d'' ⟨h'', hsame, hflags⟩
      refine ⟨h'.trans h'', ?_⟩
      have hcarry : ∀ (k : Nat) q, d'.parts[k]? = some q → q.fills = true →
          ∃ r, d''.parts[k]? = some r ∧ r.fills = true := by
        intro k q hq hqf
        have hget := congrArg (fun l => l[k]?) hflags
        simp only [List.getElem?_map, hq, Option.map_some] at hget
        obtain ⟨r, hr, hrf⟩ := Option.map_eq_some_iff.1 hget
        exact ⟨r, hr, by unfold Part.fills at *; rw [hrf]; exact hqf⟩
      rcases hstate with rfl | ⟨m, hm, r, hr, hrf⟩
      · by_cases hany : ∀ p, d'.parts[j]? = some p → p.fills = false
        · exact Or.inl (hsame hany)
        · right
          simp only [not_forall] at hany
          obtain ⟨p, hp, hpf⟩ := hany
          obtain ⟨r, hr, hrf⟩ := hcarry j p hp (by simpa using hpf)
          exact ⟨j, Nat.lt_succ_self j, r, hr, hrf⟩
      · right
        obtain ⟨r', hr', hrf'⟩ := hcarry m r hr hrf
        exact ⟨m, by omega, r', hr', hrf'⟩
  · -- the header goes into the first sector, in front of all partitions
    intro _ d₂ h₂
    rw [Call.bind_apply, Call.get_apply, Outcome.bind_ok]
    have hheader : Call.Returns
        ((idealVolume sectorSize count).writeBlock 0 (some (header d₂.parts)) d₂.volume)
        (fun _ v => ∀ x, sectorSize ≤ x → v x = d₂.volume x) (fun _ => True) := by
      rw [idealVolume_writeBlock]
      split
      · intro x hx
        apply Bytes.splice_apply_of_ge
        have hlen : (Buffer.bytes (some (header d₂.parts)) sectorSize).length ≤
            sectorSize := by
          simp only [Buffer.bytes, List.length_take]
          exact Nat.min_le_left _ _
        omega
      · trivial
    refine Call.Returns.bind (R := fun _ => Isolated count none d) ?_ ?_
    · refine (onVolume_returns hheader).mono ?_ (fun _ h => by rw [h.2]; exact h₂.sane)
      rintro _ d₃ ⟨hsame, hparts⟩
      refine ⟨by rw [hparts]; exact h₂.sane, fun k hk => (h₂.kept k hk).trans ?_⟩
      intro q hq
      refine ⟨q, by rw [hparts]; exact hq, rfl, ?_⟩
      intro x _
      apply hsame
      have hindex := (h₂.sane.sound.index_add_le hq).1
      have hfirst : 1 * sectorSize ≤ q.index * sectorSize :=
        Nat.mul_le_mul_right _ (Nat.le_trans (by decide) hindex)
      omega
    · intro _ d₃ h₃
      refine (onVolume_returns (m := (idealVolume sectorSize count).commit)
        (Q := fun _ v => v = d₃.volume) (E := fun _ => True) rfl).mono ?_
        (fun _ h => by rw [h.2]; exact h₃.sane)
      rintro _ ⟨v, parts⟩ ⟨rfl, rfl⟩
      exact h₃

end Laws

/-! ## Runs -/

/-- The partition an operation is called on. -/
def slot : DiskOp → Option Nat
  | .block i _ => some i
  | .truncate i _ => some i
  | .setBaseBlockCount i _ => some i
  | .setFlags i _ => some i
  | _ => none

/-- The condition on an operation and the state it finds.  Where a partition gives up
room, nothing behind it is in use; where one grows, the partitions behind it can be
shrunk to fit and no byte address wraps. -/
def Safe (count : Nat) (d : Disk Bytes) : DiskOp → Prop
  | .create blkCount _ => roundUp blkCount < 2 ^ 64
  | .block i op => ∀ p, d.parts[i]? = some p → ∀ index, target p.blkUsed op = some index →
      index < 2 ^ 64 ∧ (p.blkCount ≤ index → p.grows = true →
        GrowSafe d.parts i (index - p.blkCount + 1))
  | .truncate i size => ∀ p, d.parts[i]? = some p →
      p.blkCountMin < truncateCount (idealVolume sectorSize count) size →
      truncateCount (idealVolume sectorSize count) size ≠ p.blkCount →
      p.blkCount % partAlign = 0 ∧
      (truncateCount (idealVolume sectorSize count) size < p.blkCount →
        NothingBehind d.parts i) ∧
      (p.blkCount < truncateCount (idealVolume sectorSize count) size →
        GrowSafe d.parts i
          (truncateCount (idealVolume sectorSize count) size - p.blkCount))
  | .setBaseBlockCount i size => ∀ p, d.parts[i]? = some p →
      (p.blkCount < size → GrowSafe d.parts i (size - p.blkCount)) ∧
      (p.blkUsed < size → size < p.blkCount → p.blkCountMin ≤ p.blkCount →
        shrunk p (size - p.blkUsed) = p.blkCount ∨ NothingBehind d.parts i)
  | .setFlags _ _ => True
  | .commit => FitAllSafe 0 d.parts

section Runs

variable {d : Disk Bytes} {count : Nat} (hcount : count * sectorSize ≤ 2 ^ 64)

include hcount

private theorem block_isolated (hs : Sane count d.parts) {i : Nat} {op : BlockOp}
    (hsafe : Safe count d (.block i op)) :
    Call.Returns ((DiskOp.block i op).run (idealVolume sectorSize count) d)
      (fun _ => Isolated count (some i) d) (fun d' => Sane count d'.parts) := by
  cases op with
  | read index => exact partReadPartialBlock_isolated hs _ _ _
  | readPartial index offset size => exact partReadPartialBlock_isolated hs _ _ _
  | write index buffer =>
      exact Call.Returns.bind_pure (partWritePartialBlock_isolated hcount hs buffer _ _
        fun p hp => hsafe p hp index rfl)
  | writePartial index buffer offset size =>
      exact Call.Returns.bind_pure (partWritePartialBlock_isolated hcount hs buffer _ _
        fun p hp => hsafe p hp index rfl)
  | move src dst =>
      exact Call.Returns.bind_pure (partMoveBlockPartial_isolated hcount hs _ _ _
        fun p hp hsrc => hsafe p hp dst (if_pos hsrc))
  | movePartial src dst a b n =>
      exact Call.Returns.bind_pure (partMoveBlockPartial_isolated hcount hs _ _ _
        fun p hp hsrc => hsafe p hp dst (if_pos hsrc))
  | discard index n => exact Call.Returns.bind_pure (partDiscardBlocks_isolated hcount hs _ _)
  | commit => exact Isolated.refl hs _

/-- A safe operation on a disk with a sane table. -/
private theorem run_isolated (hs : Sane count d.parts) {op : DiskOp}
    (hsafe : Safe count d op) :
    Call.Returns (op.run (idealVolume sectorSize count) d)
      (fun _ => Isolated count (slot op) d) (fun d' => Sane count d'.parts) := by
  cases op with
  | create blkCount flags =>
      refine Call.Returns.bind_pure ((createPartition_isolated hcount (Or.inr hs) hsafe flags).mono
        (fun _ _ h => h) ?_)
      intro d' hparts
      rw [hparts]
      exact hs
  | block i op => exact block_isolated hcount hs hsafe
  | truncate i size => exact Call.Returns.bind_pure (partTruncate_isolated hcount hs hsafe)
  | setBaseBlockCount i size =>
      exact Call.Returns.bind_pure (partSetBaseBlockCount_isolated hcount hs
        (fun p hp => (hsafe p hp).1) (fun p hp => (hsafe p hp).2))
  | setFlags i flags => exact Call.Returns.bind_pure (partSetFlags_isolated hs flags)
  | commit => exact Call.Returns.bind_pure (commit_isolated hcount hs hsafe)

/-- The table stays empty or sane. -/
private theorem run_sane (hs : d.parts = [] ∨ Sane count d.parts) {op : DiskOp}
    (hsafe : Safe count d op) {d' : Disk Bytes}
    (hrun : (op.run (idealVolume sectorSize count) d).state? = some d') :
    d'.parts = [] ∨ Sane count d'.parts := by
  rcases hs with hnil | hs
  · by_cases hop : ∀ n flags, op ≠ .create n flags
    · exact Or.inl (run_nil hnil hop hrun)
    · simp only [ne_eq, not_forall, not_not] at hop
      obtain ⟨n, flags, rfl⟩ := hop
      have hstep : Call.Returns
          ((DiskOp.create n flags).run (idealVolume sectorSize count) d)
          (fun _ d' => d'.parts = [] ∨ Sane count d'.parts)
          (fun d' => d'.parts = [] ∨ Sane count d'.parts) :=
        (Call.Returns.bind_pure (createPartition_isolated hcount (Or.inl hnil) hsafe flags)).mono
          (fun _ _ h => Or.inr h.sane) (fun _ h => Or.inl (h.trans hnil))
      exact hstep.state hrun
  · have hstep := (run_isolated hcount hs hsafe).mono (R := fun _ d' => Sane count d'.parts)
      (fun _ _ h => h.sane) (fun _ h => h)
    exact Or.inr (hstep.state hrun)

/-- Used blocks of a partition whose bytes have been kept read as before. -/
private theorem read_of_kept {d' : Disk Bytes} {k b : Nat} {p : Part}
    (hs : Sane count d.parts) (hs' : Sane count d'.parts) (h : Kept k d d')
    (hp : d.parts[k]? = some p) (hb : b < p.blkUsed) :
    ∃ bytes, (partition (idealVolume sectorSize count) k).readBlock b d = .ok bytes d ∧
      (partition (idealVolume sectorSize count) k).readBlock b d' = .ok bytes d' := by
  have hread : ∀ {e : Disk Bytes} {q : Part}, Sane count e.parts → e.parts[k]? = some q →
      b < q.blkUsed → (partition (idealVolume sectorSize count) k).readBlock b e =
        .ok (e.volume.slice ((q.index + b) * sectorSize) sectorSize) e := by
    intro e q he hq hbq
    have hused := he.used_le k q hq
    have hbound := he.sound.index_add_le hq
    have hfits := he.sound.fits
    show partReadPartialBlock _ k b 0 sectorSize e = _
    unfold partReadPartialBlock
    rw [Call.bind_apply, part_apply hq, Outcome.bind_ok, if_neg (by omega),
      u64_index_add he hcount hq (by omega)]
    unfold onVolume
    rw [Call.zoom_apply, idealVolume_readPartialBlock, if_pos ⟨by omega, by omega⟩,
      Nat.add_zero, Outcome.mapState_ok]
  obtain ⟨q, hq, hused, hbytes⟩ := h p hp
  refine ⟨_, hread hs hp hb, ?_⟩
  have hsame : d'.volume.slice ((q.index + b) * sectorSize) sectorSize =
      d.volume.slice ((p.index + b) * sectorSize) sectorSize := ?_
  · rw [hread hs' hq (by omega), hsame]
  rw [Bytes.slice_eq_iff]
  intro x hx
  rw [Nat.add_mul, Nat.add_assoc, Nat.add_mul, Nat.add_assoc]
  apply hbytes
  have hle : (b + 1) * sectorSize ≤ p.blkUsed * sectorSize := Nat.mul_le_mul_right _ hb
  rw [Nat.succ_mul] at hle
  omega

omit hcount in
/-- In every run of safe operations from a new disk, an operation that succeeds leaves
the used blocks of all other partitions readable as they were. -/
theorem run_isolation (hcount : count * sectorSize ≤ 2 ^ 64) (v : Bytes)
    {op : DiskOp} {d' : Disk Bytes} {out : List UInt8}
    (hrun : Run (fun op d => (DiskOp.run (idealVolume sectorSize count) op d).state?)
      (Safe count) (create v) d)
    (hsafe : Safe count d op)
    (hok : op.run (idealVolume sectorSize count) d = .ok out d')
    {k b : Nat} {p : Part} (hk : some k ≠ slot op) (hp : d.parts[k]? = some p)
    (hb : b < p.blkUsed) :
    ∃ bytes, (partition (idealVolume sectorSize count) k).readBlock b d = .ok bytes d ∧
      (partition (idealVolume sectorSize count) k).readBlock b d' = .ok bytes d' := by
  have hinv : d.parts = [] ∨ Sane count d.parts :=
    hrun.invariant (I := fun d => d.parts = [] ∨ Sane count d.parts) (Or.inl rfl)
      fun d op d' h hcond hstep => run_sane hcount h hcond hstep
  rcases hinv with hnil | hs
  · rw [hnil] at hp
    simp at hp
  · have hstep := run_isolated hcount hs hsafe
    rw [hok] at hstep
    exact read_of_kept hcount hs hstep.sane (hstep.kept k hk) hp hb

omit hcount in
/-- Two partitions; the first block of the second is in use when the first one is
written. -/
theorem run_isolation_write :
    ∃ d d' bytes,
      (DiskOp.block 0 (.write 0 none)).run (idealVolume sectorSize 8192) d = .ok [] d' ∧
      (partition (idealVolume sectorSize 8192) 1).readBlock 0 d = .ok bytes d ∧
      (partition (idealVolume sectorSize 8192) 1).readBlock 0 d' = .ok bytes d' := by
  let step := fun op d => (DiskOp.run (idealVolume sectorSize 8192) op d).state?
  let sizes := fun d : Disk Bytes => d.parts.map fun p => (p.blkCount, p.blkUsed)
  have hlarge : ∀ {d : Disk Bytes} {i : Nat} {p : Part} {l : List (Nat × Nat)},
      sizes d = l → d.parts[i]? = some p → l[i]? = some (p.blkCount, p.blkUsed) := by
    intro d i p l hl hp
    rw [← hl, List.getElem?_map, hp]
    rfl
  have h₁ : (step (.create 2048 0) (create fun _ => 0)).isSome = true := by decide +kernel
  have h₂ : ((step (.create 2048 0) (create fun _ => 0)).bind
      (step (.create 2048 0))).map sizes = some [(2048, 0), (2048, 0)] := by
    decide +kernel
  have h₃ : (((step (.create 2048 0) (create fun _ => 0)).bind
      (step (.create 2048 0))).bind (step (.block 1 (.write 0 none)))).map
        (fun d => (sizes d,
          ((DiskOp.block 0 (.write 0 none)).run (idealVolume sectorSize 8192) d).val?)) =
      some ([(2048, 0), (2048, 1)], some []) := by decide +kernel
  obtain ⟨d₁, hd₁⟩ := Option.isSome_iff_exists.1 h₁
  rw [hd₁, Option.bind_some] at h₂ h₃
  obtain ⟨d₂, hd₂, hsizes₂⟩ := Option.map_eq_some_iff.1 h₂
  rw [hd₂, Option.bind_some] at h₃
  obtain ⟨d₃, hd₃, hres₃⟩ := Option.map_eq_some_iff.1 h₃
  obtain ⟨hsizes₃, hok⟩ := Prod.mk.inj hres₃
  -- neither write grows its partition
  have hsafe : ∀ {d : Disk Bytes} {i : Nat} {l : List (Nat × Nat)}, sizes d = l →
      (∀ n u, l[i]? = some (n, u) → 0 < n) → Safe 8192 d (.block i (.write 0 none)) := by
    intro d i l hl hpos p hp index hindex
    have hzero : index = 0 := (Option.some.inj hindex).symm
    have hp' := hpos _ _ (hlarge hl hp)
    exact ⟨by omega, fun hle _ => absurd hle (by omega)⟩
  have hrun : Run step (Safe 8192) (create fun _ => 0) d₃ := by
    refine Run.tail (.block 1 (.write 0 none)) (Run.tail (.create 2048 0)
      (Run.tail (.create 2048 0) Run.refl ?_ hd₁) ?_ hd₂) (hsafe hsizes₂ ?_) hd₃
    · show roundUp 2048 < 2 ^ 64
      decide
    · show roundUp 2048 < 2 ^ 64
      decide
    · intro n u hn
      cases hn
      decide
  cases hd' : (DiskOp.block 0 (.write 0 none)).run (idealVolume sectorSize 8192) d₃ with
  | fail d' => rw [hd'] at hok; cases hok
  | stuck => rw [hd'] at hok; cases hok
  | ok out d' =>
      rw [hd'] at hok
      cases hok
      have hp : ∃ p, d₃.parts[1]? = some p ∧ p.blkUsed = 1 := by
        have hget := congrArg (fun l => l[1]?) hsizes₃
        obtain ⟨p, hp, hpe⟩ := Option.map_eq_some_iff.1
          ((List.getElem?_map ..).symm.trans hget)
        exact ⟨p, hp, congrArg Prod.snd hpe⟩
      obtain ⟨p, hp, hused⟩ := hp
      obtain ⟨bytes, hread⟩ := run_isolation (show 8192 * sectorSize ≤ 2 ^ 64 by decide)
        (fun _ => 0) hrun (hsafe hsizes₃ (i := 0) (by intro n u hn; cases hn; decide)) hd'
        (k := 1) (b := 0)
        (by decide) hp (by omega)
      exact ⟨d₃, d', bytes, hd', hread⟩

omit hcount in
/-- The first of two partitions is not in use and has a minimum size of 0.  Committing
shrinks it, and the second one is read from where its data is not. -/
theorem commit_leaves_data_behind :
    ∃ d, (runAll (DiskOp.run (idealVolume sectorSize 8192))
        [.create 4096 0, .create 2048 0, .setBaseBlockCount 0 0,
          .block 1 (.write 0 (some (List.replicate 512 1)))] (create fun _ => 0)).2 =
        some d ∧
      (d.parts[1]?.map Part.blkUsed) = some 1 ∧
      (DiskOp.commit.run (idealVolume sectorSize 8192) d).val? = some [] ∧
      (DiskOp.commit.run (idealVolume sectorSize 8192) d).state?.map
          (fun d' => ((partition (idealVolume sectorSize 8192) 1).readBlock 0 d').val?) ≠
        some ((partition (idealVolume sectorSize 8192) 1).readBlock 0 d).val? := by
  let first := fun d => ((partition (idealVolume sectorSize 8192) 1).readBlock 0 d).val?
  have hvals : ((runAll (DiskOp.run (idealVolume sectorSize 8192))
      [.create 4096 0, .create 2048 0, .setBaseBlockCount 0 0,
        .block 1 (.write 0 (some (List.replicate 512 1)))] (create fun _ => 0)).2.map
      fun d => ((first d).map (List.headD · 9), d.parts[1]?.map Part.blkUsed,
        (DiskOp.commit.run (idealVolume sectorSize 8192) d).val?,
        (DiskOp.commit.run (idealVolume sectorSize 8192) d).state?.map fun d' =>
          (first d').map (List.headD · 9))) =
      some (some 1, some 1, some [], some (some 0)) := by decide +kernel
  obtain ⟨d, hd, hval⟩ := Option.map_eq_some_iff.1 hvals
  simp only [Prod.mk.injEq] at hval
  obtain ⟨hbefore, hused, hok, hafter⟩ := hval
  refine ⟨d, hd, hused, hok, ?_⟩
  intro hsame
  have hheads := congrArg (Option.map (Option.map (List.headD · 9))) hsame
  rw [Option.map_map] at hheads
  exact absurd (hafter.symm.trans (hheads.trans (congrArg some hbefore))) (by decide)

end Runs

end Disk

end ImageTool.Mbr
