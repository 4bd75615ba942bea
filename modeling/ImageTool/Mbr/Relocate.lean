import ImageTool.Mbr.Invariant

/-!
# Where the data of a partition goes

Over an ideal volume growing and shrinking one partition moves the others around
on the disk.  Growing moves table entries and data together.  Shrinking moves the
entries only and discards sectors at the end of the table, so it keeps the used
bytes of the other partitions only where nothing behind the partition is in use
(`NothingBehind`).
-/

namespace ImageTool.Mbr

open ImageTool.Lib ImageTool.Image

namespace Disk

/-- The used bytes of partition `k` are where its table entry says, before and
after. -/
def Kept (k : Nat) (d d' : Disk Bytes) : Prop :=
  ∀ p, d.parts[k]? = some p → ∃ p', d'.parts[k]? = some p' ∧ p'.blkUsed = p.blkUsed ∧
    ∀ x < p.blkUsed * sectorSize,
      d'.volume (p'.index * sectorSize + x) = d.volume (p.index * sectorSize + x)

theorem Kept.refl (k : Nat) (d : Disk Bytes) : Kept k d d :=
  fun p hp => ⟨p, hp, rfl, fun _ _ => rfl⟩

theorem Kept.trans {k : Nat} {d₁ d₂ d₃ : Disk Bytes} (h : Kept k d₁ d₂)
    (h' : Kept k d₂ d₃) : Kept k d₁ d₃ := by
  intro p hp
  obtain ⟨p', hp', hused, hbytes⟩ := h p hp
  obtain ⟨p'', hp'', hused', hbytes'⟩ := h' p' hp'
  refine ⟨p'', hp'', hused'.trans hused, ?_⟩
  intro x hx
  rw [hbytes' x (by rw [hused]; exact hx), hbytes x hx]

/-- A sound table whose used blocks lie within their partitions. -/
structure Sane (count : Nat) (parts : List Part) : Prop where
  sound : Sound count parts
  used_le : ∀ (i : Nat) p, parts[i]? = some p → p.blkUsed ≤ p.blkCount
  min_le : ∀ (i : Nat) p, parts[i]? = some p → p.blkCountMin ≤ count

section Laws

variable {d : Disk Bytes} {i count : Nat} {p : Part}

/-! ## Shrinking -/

/-- A disk after partition `i` has been shrunk to `n` blocks. -/
def shrunkDisk (d : Disk Bytes) (i : Nat) (p : Part) (n : Nat) : Disk Bytes where
  volume := d.volume.clear ((tableEnd d.parts - 1 - (p.blkCount - n)) * sectorSize)
    ((p.blkCount - n) * sectorSize)
  parts := resize d.parts i n

theorem Sane.resize (hs : Sane count d.parts) (hp : d.parts[i]? = some p) {n : Nat}
    (hn : partAlign ≤ n) (hused : p.blkUsed ≤ n)
    (hfit : tableEnd d.parts + n ≤ count + p.blkCount) :
    Sane count (Mbr.resize d.parts i n) where
  sound := hs.sound.resize hp hn hfit
  used_le := by
    intro k q hq
    rw [getElem?_resize] at hq
    obtain ⟨q', hq', rfl⟩ := Option.map_eq_some_iff.1 hq
    show q'.blkUsed ≤ if i = k then n else q'.blkCount
    split
    · rename_i hik
      subst hik
      rw [hp] at hq'
      cases hq'
      exact hused
    · exact hs.used_le k q' hq'
  min_le := by
    intro k q hq
    rw [getElem?_resize] at hq
    obtain ⟨q', hq', rfl⟩ := Option.map_eq_some_iff.1 hq
    exact hs.min_le k q' hq'

private theorem shrunkDisk_self (hs : Sound count d.parts) (hp : d.parts[i]? = some p) :
    shrunkDisk d i p p.blkCount = d := by
  unfold shrunkDisk
  rw [hs.resize_self hp, Nat.sub_self, Nat.zero_mul, Bytes.clear_zero]

/-- Over an ideal volume a shrink does what `shrunkDisk` says, or fails because the
minimum is above the size. -/
theorem shrinkPartition_ideal (hs : Sane count d.parts)
    (hcount : count * sectorSize ≤ 2 ^ 64) (hp : d.parts[i]? = some p) (diff : Nat) :
    (p.blkCountMin ≤ p.blkCount ∧
        shrinkPartition (idealVolume sectorSize count) i diff d =
          .ok () (shrunkDisk d i p (shrunk p diff)) ∧ shrunk p diff ≤ p.blkCount) ∨
      (p.blkCount < p.blkCountMin ∧
        shrinkPartition (idealVolume sectorSize count) i diff d = .fail d) := by
  have hbound := hs.sound.index_add_le hp
  have hfits := hs.sound.fits
  have hlarge := hs.sound.large i p hp
  have hmin := hs.min_le i p hp
  simp only [sectorSize] at hcount
  by_cases hle : p.blkCountMin ≤ p.blkCount
  · left
    obtain ⟨_, hshrunk⟩ := clampDiff_eq diff hlarge hle (by omega)
    refine ⟨hle, ?_, hshrunk⟩
    rw [shrinkPartition_eq hs.sound (by omega) hp hle]
    by_cases hsame : shrunk p diff = p.blkCount
    · rw [if_pos hsame, hsame, shrunkDisk_self hs.sound hp]
    · have hin : tableEnd d.parts - 1 - (p.blkCount - shrunk p diff) +
          (p.blkCount - shrunk p diff) ≤ count := by
        omega
      rw [if_neg hsame]
      unfold onVolume
      rw [Call.zoom_apply, idealVolume_discardBlocks, if_pos hin]
      rfl
  · right
    refine ⟨by omega, ?_⟩
    have hclamp := clampDiff_of_lt_min diff hlarge (by omega) (by omega)
    rw [partAlign_eq] at hlarge
    unfold shrinkPartition
    rw [Call.bind_apply, part_apply hp, Outcome.bind_ok, hclamp, if_neg (by omega),
      Call.bind_apply, Call.get_apply, Outcome.bind_ok,
      maxSector_eq hs.sound (by omega) hp, sub64_of_lt (by omega) (by omega),
      Call.bind_apply]
    unfold onVolume
    rw [Call.zoom_apply, idealVolume_discardBlocks, if_neg (by omega)]
    rfl

/-- Nothing in use lies behind partition `i` of the table. -/
def NothingBehind (parts : List Part) (i : Nat) : Prop :=
  ∀ (k : Nat) q, i < k → parts[k]? = some q → q.blkUsed = 0

/-- Partitions in front of a shrunk one keep their bytes; those behind it have none. -/
theorem kept_shrunkDisk_of_ne (hs : Sane count d.parts) (hp : d.parts[i]? = some p)
    {n : Nat} (hn : partAlign ≤ n) (hle : n ≤ p.blkCount)
    (hsafe : n = p.blkCount ∨ NothingBehind d.parts i) {k : Nat} (hk : k ≠ i) :
    Kept k d (shrunkDisk d i p n) := by
  rcases hsafe with rfl | hsafe
  · rw [shrunkDisk_self hs.sound hp]
    exact Kept.refl k d
  intro q hq
  refine ⟨resized d.parts i n k q, ?_, ?_, ?_⟩
  · show (Mbr.resize d.parts i n)[k]? = _
    rw [getElem?_resize, hq]
    rfl
  · rfl
  · intro x hx
    rcases Nat.lt_or_gt_of_ne hk with hlt | hgt
    · have hindex := hs.sound.laid.index_eq hq
      have hend := hs.sound.laid.end_le hq hp hlt
      have hbound := hs.sound.index_add_le hp
      have hused := hs.used_le k q hq
      rw [partAlign_eq] at hn
      show d.volume.clear _ _ ((reserved + totalCount _) * sectorSize + x) = _
      rw [totalCount_take_resize_of_le d.parts n (Nat.le_of_lt hlt), ← hindex]
      apply Bytes.clear_apply_of_lt
      simp only [sectorSize] at *
      omega
    · rw [hsafe k q hgt hq] at hx
      omega

/-- A shrunk partition keeps its used bytes when the discarded sectors start behind
them. -/
theorem kept_shrunkDisk_self (hs : Sane count d.parts) (hp : d.parts[i]? = some p)
    {n : Nat} (hn : partAlign ≤ n) (hle : n ≤ p.blkCount) (hused : p.blkUsed ≤ n)
    (hsafe : n = p.blkCount ∨ (i + 1 = d.parts.length → p.blkUsed < n)) :
    Kept i d (shrunkDisk d i p n) := by
  rcases hsafe with rfl | hsafe
  · rw [shrunkDisk_self hs.sound hp]
    exact Kept.refl i d
  intro q hq
  rw [hp] at hq
  cases hq
  have hindex := hs.sound.laid.index_eq hp
  have hbound := hs.sound.index_add_le hp
  have hlen := (List.getElem?_eq_some_iff.1 hp).1
  refine ⟨resized d.parts i n i p, ?_, ?_, ?_⟩
  · show (Mbr.resize d.parts i n)[i]? = _
    rw [getElem?_resize, hp]
    rfl
  · rfl
  · intro x hx
    show d.volume.clear _ _ ((reserved + totalCount _) * sectorSize + x) = _
    rw [totalCount_take_resize_of_le d.parts n (Nat.le_refl i), ← hindex]
    -- the last partition ends the table, any other has a whole one behind it
    have hstart : p.index + p.blkUsed ≤ tableEnd d.parts - 1 - (p.blkCount - n) := by
      by_cases hlast : i + 1 = d.parts.length
      · have := hsafe hlast
        omega
      · have hnext : d.parts[i + 1]? = some d.parts[i + 1] :=
          List.getElem?_eq_getElem (by omega)
        have hend := hs.sound.laid.end_le hp hnext (Nat.lt_succ_self i)
        have hnextEnd := (hs.sound.index_add_le hnext).2
        have hlarge := hs.sound.large _ _ hnext
        rw [partAlign_eq] at hlarge
        omega
    apply Bytes.clear_apply_of_lt
    simp only [sectorSize] at *
    omega

/-! ## Growing -/

/-- A disk after partition `i` has been given `r` more sectors. -/
def grownDisk (d : Disk Bytes) (i : Nat) (p : Part) (r : Nat) : Disk Bytes where
  volume := (d.volume.move ((p.index + p.blkCount + r) * sectorSize)
    ((p.index + p.blkCount) * sectorSize)
    ((tableEnd d.parts - (p.index + p.blkCount)) * sectorSize)).clear
      ((p.index + p.blkCount) * sectorSize) (r * sectorSize)
  parts := resize d.parts i (p.blkCount + r)

/-- Zeros that are written to the sectors behind a place fit onto the volume. -/
theorem volumeWrite_sectors {S r : Nat} (hcount : count ≤ 2 ^ 55) (hr : 0 < r)
    (hle : S + r ≤ 2 ^ 55) (v : Bytes) : Call.Returns
      (volumeWrite (idealVolume sectorSize count) (S * sectorSize) none (r * sectorSize) v)
      (fun _ w => S + r ≤ count ∧ w = v.clear (S * sectorSize) (r * sectorSize))
      (fun _ => True) := by
  have hv : BlockStore (idealVolume sectorSize count) count id :=
    idealVolume_blockStore (by decide)
  have hgap : 0 < r * sectorSize := by simp only [sectorSize]; omega
  have hgapEnd : S * sectorSize + r * sectorSize ≤ 2 ^ 64 := by
    simp only [sectorSize]
    omega
  cases hw : volumeWrite (idealVolume sectorSize count) (S * sectorSize) none
      (r * sectorSize) v with
  | fail w => trivial
  | stuck => trivial
  | ok u w =>
      have hin := volumeWrite_ok idealVolume_refusesOutside hv.blocksize_pos hgap hgapEnd hw
      rw [idealVolume_blocksize, ← Nat.add_mul] at hin
      have hfit : S + r ≤ count := Nat.le_of_mul_le_mul_right hin (by decide)
      refine ⟨hfit, ?_⟩
      have hend : S * sectorSize + r * sectorSize ≤
          count * (idealVolume sectorSize count).blocksize := by
        rw [idealVolume_blocksize, ← Nat.add_mul]
        exact Nat.mul_le_mul_right _ hfit
      obtain ⟨w', hw', hview⟩ := volumeWrite_eq hv (by omega) v
        (Buffer.holds_none (r * sectorSize)) hend
      rw [hw] at hw'
      cases hw'
      rw [Bytes.clear_eq_splice]
      exact hview

/-- The sectors from `S` up to `E` fit onto the volume where they are moved to. -/
theorem volumeMemmove_sectors {S E r : Nat} (hSE : S < E) (hr : 0 < r) (hle : E + r ≤ 2 ^ 55)
    (v : Bytes) : Call.Returns
      (volumeMemmove (idealVolume sectorSize count) ((S + r) * sectorSize) (S * sectorSize)
        ((E - S) * sectorSize) v)
      (fun _ w => E + r ≤ count ∧
        w = v.move ((S + r) * sectorSize) (S * sectorSize) ((E - S) * sectorSize))
      (fun _ => True) := by
  have hv : BlockStore (idealVolume sectorSize count) count id :=
    idealVolume_blockStore (by decide)
  have htail : 0 < (E - S) * sectorSize := by simp only [sectorSize]; omega
  have hne : S * sectorSize ≠ (S + r) * sectorSize := by simp only [sectorSize]; omega
  have h64 : (E + r) * sectorSize ≤ 2 ^ 64 := by simp only [sectorSize]; omega
  have hdst : (S + r) * sectorSize + (E - S) * sectorSize = (E + r) * sectorSize := by
    rw [← Nat.add_mul]
    congr 1
    omega
  have hsrc : S * sectorSize + (E - S) * sectorSize = E * sectorSize := by
    rw [← Nat.add_mul]
    congr 1
    omega
  cases hm : volumeMemmove (idealVolume sectorSize count) ((S + r) * sectorSize)
      (S * sectorSize) ((E - S) * sectorSize) v with
  | fail w => trivial
  | stuck => trivial
  | ok u w =>
      have hin := volumeMemmove_ok idealVolume_refusesOutside hv.blocksize_pos htail hne
        (by rw [hdst]; exact h64) hm
      rw [idealVolume_blocksize, hdst] at hin
      have hfit : E + r ≤ count := Nat.le_of_mul_le_mul_right hin (by decide)
      refine ⟨hfit, ?_⟩
      have hend : E * sectorSize ≤ (E + r) * sectorSize :=
        Nat.mul_le_mul_right _ (Nat.le_add_right E r)
      rw [← hdst] at hin hend h64
      rw [← hsrc] at hend
      obtain ⟨w', hw', hview⟩ := volumeMemmove_eq hv v hin
        (Nat.le_trans hend hin) h64 (Nat.le_trans hend h64)
      rw [hm] at hw'
      cases hw'
      exact hview

/-- Over an ideal volume growing does what `grownDisk` says, or leaves the table
alone. -/
theorem growTail_ideal (hs : Sane count d.parts) (hcount : count * sectorSize ≤ 2 ^ 64)
    (hp : d.parts[i]? = some p) {diff : Nat}
    (h64 : (tableEnd d.parts + roundUp diff) * sectorSize ≤ 2 ^ 64) :
    Call.Returns
      (growTail (idealVolume sectorSize count) i p.index p.blkCount diff d)
      (fun _ d' => tableEnd d.parts + roundUp diff ≤ count ∧
        d' = grownDisk d i p (roundUp diff))
      (fun d' => d'.parts = d.parts) := by
  have hbound := hs.sound.index_add_le hp
  have hpos := roundUp_pos diff
  have hcount' : count ≤ 2 ^ 55 := by simp only [sectorSize] at hcount; omega
  have h64' : tableEnd d.parts + roundUp diff ≤ 2 ^ 55 := by
    simp only [sectorSize] at h64
    omega
  have hreserved : 0 < reserved := by decide
  rw [growTail_eq hs.sound hp (by omega) (by omega)]
  generalize roundUp diff = r at *
  generalize hS : p.index + p.blkCount = S at *
  generalize hE : tableEnd d.parts = E at *
  -- no product below wraps
  have hStart : S * sectorSize < 2 ^ 64 := by simp only [sectorSize]; omega
  have hTail : (E - S) * sectorSize < 2 ^ 64 := by simp only [sectorSize]; omega
  have hGap : r * sectorSize < 2 ^ 64 := by simp only [sectorSize]; omega
  have hmove : Call.Returns
      (volumeMemmove (idealVolume sectorSize count) (u64 ((S + r) * sectorSize))
        (S * sectorSize) ((E - S) * sectorSize) d.volume)
      (fun _ w => (E - S = 0 ∨ E + r ≤ count) ∧
        w = d.volume.move ((S + r) * sectorSize) (S * sectorSize) ((E - S) * sectorSize))
      (fun _ => True) := by
    by_cases hlast : E - S = 0
    · -- there is nothing behind the partition to move
      unfold volumeMemmove
      rw [hlast, Nat.zero_mul, if_pos (Or.inr rfl), Call.pure_apply, Bytes.move_zero]
      exact ⟨Or.inl rfl, rfl⟩
    have hDst : (S + r) * sectorSize < 2 ^ 64 := by simp only [sectorSize]; omega
    rw [u64_of_lt hDst]
    exact (volumeMemmove_sectors (by omega) hpos h64' d.volume).mono
      (fun _ _ h => ⟨Or.inr h.1, h.2⟩) fun _ h => h
  rw [u64_of_lt hStart, u64_of_lt hTail, u64_of_lt hGap]
  refine Call.Returns.bind (R := fun _ d' => d'.parts = d.parts ∧ E + r ≤ count ∧
    d'.volume = (d.volume.move ((S + r) * sectorSize) (S * sectorSize)
      ((E - S) * sectorSize)).clear (S * sectorSize) (r * sectorSize)) ?_ ?_
  · refine ((onVolume_returns hmove).mono (fun _ _ h => h) (fun _ h => h.2)).bind ?_
    rintro _ d₁ ⟨⟨hfit, hd₁⟩, hparts₁⟩
    refine (onVolume_returns (volumeWrite_sectors hcount' hpos (by omega) d₁.volume)).mono ?_
      (fun _ h => h.2.trans hparts₁)
    rintro _ d₂ ⟨⟨hle, hd₂⟩, hparts₂⟩
    refine ⟨hparts₂.trans hparts₁, by omega, ?_⟩
    rw [hd₂, hd₁]
  · rintro _ d' ⟨_, hfit, hd'⟩
    refine ⟨hfit, ?_⟩
    simp only [grownDisk, hS, hE, hd']

theorem sane_grownDisk (hs : Sane count d.parts) (hp : d.parts[i]? = some p) {r : Nat}
    (hfit : tableEnd d.parts + r ≤ count) : Sane count (grownDisk d i p r).parts := by
  have hlarge := hs.sound.large i p hp
  have hused := hs.used_le i p hp
  exact hs.resize hp (by omega) (by omega) (by omega)

/-- Growing keeps the used bytes of every partition. -/
theorem kept_grownDisk (hs : Sane count d.parts) (hp : d.parts[i]? = some p) (r : Nat)
    (k : Nat) : Kept k d (grownDisk d i p r) := by
  intro q hq
  have hindex := hs.sound.laid.index_eq hq
  have hindexp := hs.sound.laid.index_eq hp
  have hbound := hs.sound.index_add_le hq
  have hused := hs.used_le k q hq
  refine ⟨resized d.parts i (p.blkCount + r) k q, ?_, ?_, ?_⟩
  · show (Mbr.resize d.parts i (p.blkCount + r))[k]? = _
    rw [getElem?_resize, hq]
    rfl
  · rfl
  · intro x hx
    show ((d.volume.move _ _ _).clear _ _) ((reserved + totalCount _) * sectorSize + x) = _
    by_cases hki : k ≤ i
    · -- in front of the gap nothing is touched
      have hend : q.index + q.blkUsed ≤ p.index + p.blkCount := by
        rcases Nat.lt_or_eq_of_le hki with hlt | rfl
        · have := hs.sound.laid.end_le hq hp hlt
          omega
        · rw [hp] at hq
          cases hq
          omega
      rw [totalCount_take_resize_of_le d.parts _ hki, ← hindex]
      simp only [sectorSize] at *
      rw [Bytes.clear_apply_of_lt (by omega), Bytes.move_apply_of_lt (by omega)]
    · have hstart := hs.sound.laid.end_le hp hq (by omega)
      have htake := totalCount_take_resize_of_lt (n := p.blkCount + r) hp
        (show i < k by omega)
      have hnew : reserved + totalCount ((Mbr.resize d.parts i (p.blkCount + r)).take k) =
          q.index + r := by
        omega
      rw [hnew]
      simp only [sectorSize] at *
      rw [Bytes.clear_apply_of_ge (by omega),
        Bytes.move_apply_of_mem (by omega) (by omega)]
      exact congrArg d.volume (by omega)

/-! ## Shrinking several partitions to fit -/

/-- The minimum size does not keep `p` from being shrunk to fit. -/
def CanFit (p : Part) : Prop := p.blkUsed < p.blkCount → p.blkCountMin ≤ p.blkCount

/-- Shrinking partition `j` to fit loses no data: it has no room to give, or nothing
behind it is in use.  The source discards one sector in front of the end of the
table, so the last partition must not be filled up either. -/
def FitSafe (parts : List Part) (j : Nat) : Prop :=
  ∀ p, parts[j]? = some p → fit p = p.blkCount ∨
    (NothingBehind parts j ∧ (j + 1 = parts.length → p.blkUsed < fit p))

/-- Shrinking the partitions from slot `lo` on to fit loses no data, as far as the
loop gets before a minimum size stops it. -/
def FitAllSafe (lo : Nat) (parts : List Part) : Prop :=
  ∀ j, lo ≤ j → (∀ k q, lo ≤ k → k ≤ j → parts[k]? = some q → CanFit q) →
    FitSafe parts j

/-- What holds once the slots `lo, …, j - 1` of the disk `d` have been shrunk to
fit. -/
structure FitTo (count lo : Nat) (d : Disk Bytes) (j : Nat) (d' : Disk Bytes) :
    Prop where
  parts : d'.parts = fitRange lo j d.parts
  sane : Sane count d'.parts
  kept : ∀ k, Kept k d d'
  canFit : ∀ k q, lo ≤ k → k < j → d.parts[k]? = some q → CanFit q

theorem shrinkToFit_ideal (hs : Sane count d.parts)
    (hcount : count * sectorSize ≤ 2 ^ 64) (hp : d.parts[i]? = some p) :
    (CanFit p ∧ fit p ≤ p.blkCount ∧
        shrinkToFit (idealVolume sectorSize count) i d =
          .ok () (shrunkDisk d i p (fit p))) ∨
      (¬ CanFit p ∧ shrinkToFit (idealVolume sectorSize count) i d = .fail d) := by
  unfold shrinkToFit
  rw [Call.bind_apply, part_apply hp, Outcome.bind_ok]
  by_cases hused : p.blkUsed ≥ p.blkCount
  · left
    have hfit : fit p = p.blkCount := if_pos hused
    rw [if_pos hused, hfit, shrunkDisk_self hs.sound hp]
    exact ⟨fun h => by omega, Nat.le_refl _, rfl⟩
  · have hfit : fit p = shrunk p (p.blkCount - p.blkUsed) := if_neg hused
    rw [if_neg hused, hfit]
    rcases shrinkPartition_ideal hs hcount hp (p.blkCount - p.blkUsed) with
      ⟨hle, hrun, hshrunk⟩ | ⟨hlt, hrun⟩
    · exact Or.inl ⟨fun _ => hle, hshrunk, hrun⟩
    · exact Or.inr ⟨fun h => absurd (h (by omega)) (by omega), hrun⟩

theorem Sane.fit (hs : Sane count d.parts) (hp : d.parts[i]? = some p)
    (hle : fit p ≤ p.blkCount) : Sane count (shrunkDisk d i p (fit p)).parts := by
  have hfits := hs.sound.fits
  exact hs.resize hp (partAlign_le_fit (hs.sound.large i p hp))
    (used_le_fit (hs.used_le i p hp)) (by omega)

/-- One round of a loop that shrinks partitions to fit. -/
theorem FitTo.step {lo j : Nat} {d' : Disk Bytes} (hcount : count * sectorSize ≤ 2 ^ 64)
    (hsafe : FitAllSafe lo d.parts) (hlo : lo ≤ j) (hp : d.parts[j]? = some p)
    (h : FitTo count lo d j d') :
    Call.Returns (shrinkToFit (idealVolume sectorSize count) j d')
      (fun _ => FitTo count lo d (j + 1)) (fun d'' => Sane count d''.parts) := by
  -- the entry has been moved, and that is all
  obtain ⟨q, hq, hqp⟩ : ∃ q, d'.parts[j]? = some q ∧ q = { p with
      index := reserved + totalCount ((fitRange lo j d.parts).take j) } := by
    have hout : ¬ (lo ≤ j ∧ j < j) := by omega
    refine ⟨_, ?_, rfl⟩
    rw [h.parts, getElem?_fitRange, hp, Option.map_some, if_neg hout]
  have hfit : fit q = fit p := by rw [hqp]; rfl
  have hcan : CanFit q ↔ CanFit p := by rw [hqp]; rfl
  rcases shrinkToFit_ideal h.sane hcount hq with ⟨hok, hle, hrun⟩ | ⟨_, hrun⟩
  · rw [hrun]
    have hall : ∀ k r, lo ≤ k → k < j + 1 → d.parts[k]? = some r → CanFit r := by
      intro k r hlok hk hr
      rcases Nat.lt_or_eq_of_le (Nat.le_of_lt_succ hk) with hlt | rfl
      · exact h.canFit k r hlok hlt hr
      · rw [hp] at hr
        cases hr
        exact hcan.1 hok
    have hlarge := partAlign_le_fit (h.sane.sound.large j q hq)
    have hroom : fit q = q.blkCount ∨ (NothingBehind d'.parts j ∧
        (j + 1 = d'.parts.length → q.blkUsed < fit q)) := by
      have hj := hsafe j hlo (fun k r hlok hk => hall k r hlok (by omega)) p hp
      rw [hfit, h.parts, length_fitRange, hqp]
      refine hj.imp_right fun ⟨hbehind, hlast⟩ => ⟨?_, hlast⟩
      intro k r hk hr
      rw [getElem?_fitRange] at hr
      obtain ⟨r', hr', rfl⟩ := Option.map_eq_some_iff.1 hr
      have hunused := hbehind k r' hk hr'
      split <;> exact hunused
    refine ⟨?_, h.sane.fit hq hle, ?_, hall⟩
    · show resize d'.parts j (fit q) = _
      rw [h.parts, hfit]
      exact resize_fitRange hlo hp
    · intro k
      refine (h.kept k).trans ?_
      by_cases hk : k = j
      · subst hk
        exact kept_shrunkDisk_self h.sane hq hlarge hle
          (used_le_fit (h.sane.used_le k q hq)) (hroom.imp_right And.right)
      · exact kept_shrunkDisk_of_ne h.sane hq hlarge hle (hroom.imp_right And.left) hk
  · rw [hrun]
    exact h.sane

theorem FitTo.refl (hs : Sane count d.parts) (lo : Nat) : FitTo count lo d lo d where
  parts := (fitRange_of_le hs.sound.laid (Nat.le_refl lo)).symm
  sane := hs
  kept k := Kept.refl k d
  canFit k q hlo hk := by omega

/-- The loop of `grow_partition` over the partitions behind slot `i`. -/
theorem shrinkBehind_ideal (hs : Sane count d.parts)
    (hcount : count * sectorSize ≤ 2 ^ 64) (hp : d.parts[i]? = some p)
    (hsafe : FitAllSafe (i + 1) d.parts) :
    Call.Returns
      (shrinkBehind (idealVolume sectorSize count) p.index 0 d.parts.length d)
      (fun _ => FitTo count (i + 1) d d.parts.length)
      (fun d' => Sane count d'.parts) := by
  apply shrinkBehind_rule hs.sound hp (I := FitTo count (i + 1) d)
  · intro j d' h
    exact ⟨h.parts, h.sane.sound⟩
  · exact FitTo.refl hs (i + 1)
  · intro j d' q hij hq h
    exact h.step hcount hsafe hij hq

/-- The first loop of `mbr_disk_commit`. -/
theorem fitAll_ideal (hs : Sane count d.parts) (hcount : count * sectorSize ≤ 2 ^ 64)
    (hsafe : FitAllSafe 0 d.parts) :
    Call.Returns
      (eachPart (shrinkToFit (idealVolume sectorSize count)) 0 d.parts.length d)
      (fun _ => FitTo count 0 d d.parts.length) (fun d' => Sane count d'.parts) := by
  refine eachPart_rule (I := FitTo count 0 d) ?_ d.parts.length 0 d (Nat.zero_add _)
    (FitTo.refl hs 0)
  intro j d' hj h
  exact h.step hcount hsafe (Nat.zero_le j) (List.getElem?_eq_getElem hj)

/-! ## Growing with the partitions behind shrunk to fit -/

/-- Growing partition `i` by `diff` loses no data: the partitions behind it can be
shrunk to fit, and no byte address behind the moved sectors wraps. -/
def GrowSafe (parts : List Part) (i diff : Nat) : Prop :=
  FitAllSafe (i + 1) parts ∧
    ((∀ k q, i < k → parts[k]? = some q → CanFit q) →
      (tableEnd (fitRange (i + 1) parts.length parts) + roundUp diff) * sectorSize ≤
        2 ^ 64)

/-- What holds once partition `i` of the disk `d` has been given `r` more sectors. -/
structure GrownBy (count i r : Nat) (d d' : Disk Bytes) : Prop where
  parts : ∀ p, d.parts[i]? = some p →
    d'.parts = resize (fitRange (i + 1) d.parts.length d.parts) i (p.blkCount + r)
  sane : Sane count d'.parts
  kept : ∀ k, Kept k d d'

theorem growPartition_ideal (hs : Sane count d.parts)
    (hcount : count * sectorSize ≤ 2 ^ 64) (hp : d.parts[i]? = some p) {diff : Nat}
    (hsafe : GrowSafe d.parts i diff) :
    Call.Returns (growPartition (idealVolume sectorSize count) i diff d)
      (fun _ => GrownBy count i (roundUp diff) d) (fun d' => Sane count d'.parts) := by
  rw [growPartition_eq hp]
  refine (shrinkBehind_ideal hs hcount hp hsafe.1).bind ?_
  rintro _ d₁ h
  have hp₁ : d₁.parts[i]? = some p := by
    rw [h.parts, fitRange_getElem?_of_lt hs.sound.laid (Nat.lt_succ_self i)]
    exact hp
  have h64 := hsafe.2 fun k q hk hq =>
    h.canFit k q hk (List.getElem?_eq_some_iff.1 hq).1 hq
  rw [← h.parts] at h64
  refine (growTail_ideal h.sane hcount hp₁ h64).mono ?_ ?_
  · rintro _ d₂ ⟨hfit, rfl⟩
    refine ⟨?_, sane_grownDisk h.sane hp₁ hfit, fun k => ?_⟩
    · intro q hq
      rw [hp] at hq
      cases hq
      rw [← h.parts]
      rfl
    · exact (h.kept k).trans (kept_grownDisk h.sane hp₁ _ k)
  · intro d₂ hparts
    rw [hparts]
    exact h.sane

/-- The grown partition stays where it is and keeps all but its size. -/
theorem GrownBy.entry {r : Nat} {d' : Disk Bytes} (hs : Sane count d.parts)
    (hp : d.parts[i]? = some p) (h : GrownBy count i r d d') :
    d'.parts[i]? = some { p with blkCount := p.blkCount + r } := by
  have hindex := hs.sound.laid.index_eq hp
  have htake : ∀ j < i, (fitRange (i + 1) d.parts.length d.parts)[j]? = d.parts[j]? :=
    fun j hj => fitRange_getElem?_of_lt hs.sound.laid (by omega)
  have hfront : (fitRange (i + 1) d.parts.length d.parts).take i = d.parts.take i := by
    apply List.ext_getElem?
    intro j
    by_cases hj : j < i
    · rw [List.getElem?_take_of_lt hj, List.getElem?_take_of_lt hj, htake j hj]
    · rw [List.getElem?_take_eq_none (by omega), List.getElem?_take_eq_none (by omega)]
  rw [h.parts p hp, getElem?_resize,
    fitRange_getElem?_of_lt hs.sound.laid (Nat.lt_succ_self i), hp, Option.map_some]
  unfold resized
  rw [totalCount_take_resize_of_le _ _ (Nat.le_refl i), hfront, ← hindex, if_pos rfl]

end Laws

end Disk

end ImageTool.Mbr
