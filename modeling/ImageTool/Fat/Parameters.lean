import Mathlib.Tactic.IntervalCases
import ImageTool.Lib.Word

/-!
# Parameters of a FAT32 filesystem

`compute_fs_parameters` picks the number of sectors of a cluster and the size of the FAT from
the size of the disk.  It tries every number of sectors up to eight, not only the powers of
two, holds the number of clusters against a threshold before the FATs are taken off, and
computes in 32 bits.  `LegalSectors` is what is left of the range of sizes.
-/

namespace ImageTool.Fat

open ImageTool.Lib

/-- `SECTOR_SIZE`. -/
def sectorSize : Nat := 512

/-- `FAT32_RESERVED_COUNT`. -/
def fat32ReservedCount : Nat := 32

/-- `FAT32_FAT_START`. -/
def fat32FatStart : Nat := fat32ReservedCount * sectorSize

/-- `FAT32_ENTRIES_PER_SECTOR`. -/
def fat32EntriesPerSector : Nat := sectorSize / 4

/-- `CLUSTER_SIZE_PREFERRED`. -/
def clusterSizePreferred : Nat := 4096

/-- `MAX_DISK_SIZE`. -/
def maxDiskSize : Nat := 1024 * 1024 * 1024 * 1024

/-- `FAT32_MIN_SECTORS`. -/
def fat32MinSectors : Nat := 66000

/-- The fields of `fatfs_filesystem_t` that `compute_fs_parameters` sets. -/
structure FsParameters where
  secsPerCluster : Nat
  secsPerFat : Nat
  fatsize : Nat
  deriving DecidableEq

/-- The loop of `compute_fs_parameters` from `i` on: the sectors of a cluster and the number of
clusters. -/
def clusterLoop (sectors : Nat) : Nat → Nat → Nat × Nat → Nat × Nat
  | 0, _, best => best
  | n + 1, i, best =>
      if sectors / i < fat32MinSectors then best
      else clusterLoop sectors n (i + 1) (i, sectors / i)

/-- `compute_fs_parameters`. -/
def computeFsParameters (diskSize : Nat) : FsParameters :=
  let sectors := u32 (diskSize / sectorSize)
  let chosen := clusterLoop sectors (clusterSizePreferred / sectorSize) 1 (1, sectors)
  let clusters := chosen.2
  let secsPerFat := clusters / fat32EntriesPerSector +
    if clusters % fat32EntriesPerSector ≠ 0 then 1 else 0
  { secsPerCluster := chosen.1, secsPerFat := secsPerFat,
    fatsize := u32 (secsPerFat * sectorSize) }

/-- The number of sectors `fatfs_write_super_block` writes for a volume of `size` bytes. -/
def sectorCount (size : Nat) : Nat :=
  u32 ((if size > maxDiskSize then maxDiskSize else size) / sectorSize)

/-- The clusters behind the reserved sectors and both FATs. -/
def FsParameters.dataClusters (p : FsParameters) (total : Nat) : Nat :=
  (total - fat32ReservedCount - 2 * p.secsPerFat) / p.secsPerCluster

/-! ## What is chosen -/

/-- The loop ends with the largest number that leaves enough clusters. -/
theorem clusterLoop_eq (sectors : Nat) {n i : Nat} (best : Nat × Nat) (hi : 0 < i) :
    clusterLoop sectors n i best =
      if i ≤ sectors / fat32MinSectors ∧ 0 < n then
        (min (i + n - 1) (sectors / fat32MinSectors),
          sectors / min (i + n - 1) (sectors / fat32MinSectors))
      else best := by
  induction n generalizing i best with
  | zero => simp [clusterLoop]
  | succ n ih =>
      have hstop : sectors / i < fat32MinSectors ↔ ¬ i ≤ sectors / fat32MinSectors := by
        rw [Nat.le_div_iff_mul_le (by decide), Nat.div_lt_iff_lt_mul hi, Nat.mul_comm]
        omega
      unfold clusterLoop
      by_cases hle : i ≤ sectors / fat32MinSectors
      · rw [if_neg fun h => hstop.1 h hle, if_pos ⟨hle, Nat.succ_pos n⟩,
          ih (i, sectors / i) (by omega)]
        by_cases hnext : i + 1 ≤ sectors / fat32MinSectors ∧ 0 < n
        · rw [if_pos hnext, show i + 1 + n - 1 = i + (n + 1) - 1 by omega]
        · rw [if_neg hnext, show min (i + (n + 1) - 1) (sectors / fat32MinSectors) = i by omega]
      · rw [if_pos (hstop.2 hle), if_neg fun h => hle h.1]

/-- The number of sectors of a FAT with `clusters` entries. -/
def fatSectors (clusters : Nat) : Nat := (clusters + 127) / 128

/-- Where the number of sectors is large enough and not cut off, as many sectors as possible,
at most eight, make a cluster. -/
theorem computeFsParameters_eq {diskSize : Nat}
    (hmin : fat32MinSectors ≤ diskSize / sectorSize) (hlt : diskSize / sectorSize < 2 ^ 32) :
    ∃ m, m = min 8 (diskSize / sectorSize / fat32MinSectors) ∧ 0 < m ∧
      computeFsParameters diskSize = ⟨m, fatSectors (diskSize / sectorSize / m),
        u32 (fatSectors (diskSize / sectorSize / m) * sectorSize)⟩ := by
  have hpos : 1 ≤ diskSize / sectorSize / fat32MinSectors :=
    (Nat.le_div_iff_mul_le (by decide)).2 (by omega)
  have hround : ∀ c : Nat, c / fat32EntriesPerSector +
      (if c % fat32EntriesPerSector ≠ 0 then 1 else 0) = fatSectors c := by
    intro c
    unfold fatSectors
    rw [show fat32EntriesPerSector = 128 from rfl]
    split <;> omega
  refine ⟨_, rfl, by omega, ?_⟩
  unfold computeFsParameters
  dsimp only
  rw [u32_of_lt hlt, show clusterSizePreferred / sectorSize = 8 from rfl,
    clusterLoop_eq _ _ Nat.one_pos, if_pos ⟨hpos, by decide⟩, hround]

/-! ## Which sizes are legal -/

/-- FAT32 allows the parameters for `total` sectors, and none of them was cut off. -/
structure Legal (diskSize total : Nat) : Prop where
  powerOfTwo : (computeFsParameters diskSize).secsPerCluster.isPowerOfTwo
  enough : 65525 ≤ (computeFsParameters diskSize).dataClusters total
  few : (computeFsParameters diskSize).dataClusters total ≤ 0x0FFFFFF5
  sectors_lt : diskSize / sectorSize < 2 ^ 32
  fatsize_eq : (computeFsParameters diskSize).fatsize =
    (computeFsParameters diskSize).secsPerFat * sectorSize

/-- Disks of one, two, four or eight sectors a cluster that leave room for the FATs, of at most
`max` sectors. -/
def LegalSectors (max sectors : Nat) : Prop :=
  66599 ≤ sectors ∧ sectors < 132000 ∨ 132116 ≤ sectors ∧ sectors < 198000 ∨
    264000 ≤ sectors ∧ sectors < 330000 ∨ 528000 ≤ sectors ∧ sectors ≤ max

instance (max sectors : Nat) : Decidable (LegalSectors max sectors) := by
  unfold LegalSectors
  infer_instance

theorem isPowerOfTwo_iff {n : Nat} (hpos : 0 < n) (hle : n ≤ 8) :
    n.isPowerOfTwo ↔ n = 1 ∨ n = 2 ∨ n = 4 ∨ n = 8 := by
  constructor
  · rintro ⟨k, rfl⟩
    have hk : k ≤ 3 := by
      by_contra hgt
      have hpow : 2 ^ 4 ≤ 2 ^ k := Nat.pow_le_pow_right (by decide) (by omega)
      omega
    interval_cases k <;> simp
  · rintro (rfl | rfl | rfl | rfl)
    · exact ⟨0, rfl⟩
    · exact ⟨1, rfl⟩
    · exact ⟨2, rfl⟩
    · exact ⟨3, rfl⟩

/-- Where no sector is cut off, the number of clusters decides. -/
theorem legal_iff {diskSize m : Nat} (hlt : diskSize / sectorSize < 2 ^ 32)
    (hm : m = min 8 (diskSize / sectorSize / fat32MinSectors)) (hpos : 0 < m)
    (heq : computeFsParameters diskSize = ⟨m, fatSectors (diskSize / sectorSize / m),
      u32 (fatSectors (diskSize / sectorSize / m) * sectorSize)⟩) (total : Nat) :
    Legal diskSize total ↔ (m = 1 ∨ m = 2 ∨ m = 4 ∨ m = 8) ∧
      65525 ≤ (total - 32 - 2 * fatSectors (diskSize / sectorSize / m)) / m ∧
      (total - 32 - 2 * fatSectors (diskSize / sectorSize / m)) / m ≤ 0x0FFFFFF5 := by
  have hpow := isPowerOfTwo_iff hpos (show m ≤ 8 by omega)
  have hfat : fatSectors (diskSize / sectorSize / m) * sectorSize < 2 ^ 32 := by
    have hclusters : diskSize / sectorSize / m ≤ 2 ^ 29 := by
      rw [show fat32MinSectors = 66000 from rfl] at hm
      generalize diskSize / sectorSize = sectors at *
      obtain rfl | hless : m = 8 ∨ m < 8 := by omega
      · omega
      · have hsmall : sectors / 66000 < 8 := by omega
        exact Nat.le_trans (Nat.div_le_self _ _) (by omega)
    unfold fatSectors
    rw [show sectorSize = 512 from rfl] at *
    omega
  constructor
  · intro h
    have hp := h.powerOfTwo
    have he := h.enough
    have hf := h.few
    rw [heq] at hp he hf
    exact ⟨hpow.1 hp, he, hf⟩
  · rintro ⟨hp, he, hf⟩
    refine ⟨?_, ?_, ?_, hlt, ?_⟩
    · rw [heq]
      exact hpow.2 hp
    · rw [heq]
      exact he
    · rw [heq]
      exact hf
    · rw [heq]
      exact u32_of_lt hfat

/-- The sectors the boot sector tells of. -/
theorem sectorCount_eq (diskSize : Nat) :
    sectorCount diskSize = min (diskSize / sectorSize) (2 ^ 31) := by
  unfold sectorCount u32
  rw [show maxDiskSize = 2 ^ 40 from rfl, show sectorSize = 512 from rfl]
  split <;> omega

/-- The parameters are legal for the sectors of the disk on four ranges, and on one that ends
later for the sectors the boot sector tells of. -/
theorem computeFsParameters_legal_iff {diskSize : Nat}
    (h : fat32MinSectors * sectorSize ≤ diskSize) :
    (Legal diskSize (diskSize / sectorSize) ↔
        LegalSectors 2151686111 (diskSize / sectorSize)) ∧
      (Legal diskSize (sectorCount diskSize) ↔
        LegalSectors (2 ^ 32 - 1) (diskSize / sectorSize)) := by
  have hmin : fat32MinSectors ≤ diskSize / sectorSize :=
    (Nat.le_div_iff_mul_le (by decide)).2 h
  by_cases hlt : diskSize / sectorSize < 2 ^ 32
  · obtain ⟨m, hm, hpos, heq⟩ := computeFsParameters_eq hmin hlt
    rw [legal_iff hlt hm hpos heq, legal_iff hlt hm hpos heq, sectorCount_eq]
    have hle : m ≤ 8 := by omega
    unfold LegalSectors fatSectors
    rw [show fat32MinSectors = 66000 from rfl] at hm hmin
    clear heq h
    generalize diskSize / sectorSize = sectors at *
    -- the number of sectors a cluster fixes the range of disk sizes
    interval_cases m <;> omega
  · constructor
    · constructor
      · intro hl
        exact absurd hl.sectors_lt hlt
      · unfold LegalSectors
        omega
    · constructor
      · intro hl
        exact absurd hl.sectors_lt hlt
      · unfold LegalSectors
        omega

/-- A disk of 66599 sectors. -/
theorem computeFsParameters_legal_smallest : Legal (66599 * sectorSize) 66599 :=
  (computeFsParameters_legal_iff (by decide)).1.2 (by decide)

/-- A disk of 100 MiB gets three sectors a cluster. -/
theorem computeFsParameters_three : fat32MinSectors * sectorSize ≤ 100 * 1024 * 1024 ∧
    ¬ Legal (100 * 1024 * 1024) (100 * 1024 * 1024 / sectorSize) ∧
    ¬ Legal (100 * 1024 * 1024) (sectorCount (100 * 1024 * 1024)) := by
  have hthree : ∀ total, ¬ Legal (100 * 1024 * 1024) total := by
    intro total h
    have hp := h.powerOfTwo
    rw [show (computeFsParameters (100 * 1024 * 1024)).secsPerCluster = 3 by decide,
      isPowerOfTwo_iff (by decide) (by decide)] at hp
    omega
  exact ⟨by decide, hthree _, hthree _⟩

end ImageTool.Fat
