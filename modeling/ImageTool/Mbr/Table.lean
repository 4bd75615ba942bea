import Mathlib.Data.List.Basic
import ImageTool.Lib.Word

/-!
# The partition table in memory

The table of an MBR disk is a list of at most four partitions.  The source
changes one partition's size by moving the starts of all partitions behind it.
On a table that is laid out without gaps this is `resize`: give one partition a
new size and lay the table out again.
-/

namespace ImageTool.Mbr

open ImageTool.Lib

/-- `SECTOR_SIZE`. -/
def sectorSize : Nat := 512

/-- `MBR_PART_ALIGN`, in sectors. -/
def partAlign : Nat := 1024 * 1024 / sectorSize

/-- `MBR_RESERVED`. -/
def reserved : Nat := partAlign

/-- `MAX_MBR_PARTITIONS`. -/
def maxPartitions : Nat := 4

/-- `MAX_LBA`. -/
def maxLba : Nat := 0x0FFFFFFF

/-- `COMMON_PARTITION_FLAG_GROW`. -/
def flagGrow : BitVec 64 := 0x01

/-- `COMMON_PARTITION_FLAG_FILL`. -/
def flagFill : BitVec 64 := 0x02

/-- `MBR_PARTITION_FLAG_BOOTABLE`. -/
def flagBootable : BitVec 64 := 0x00010000

theorem partAlign_eq : partAlign = 2048 := rfl

/-- An entry of `mbr_disk_t::partitions`. -/
structure Part where
  index : Nat
  blkCountMin : Nat
  blkCount : Nat
  blkUsed : Nat
  flags : BitVec 64
  deriving DecidableEq

namespace Part

def grows (p : Part) : Bool := p.flags &&& flagGrow != 0

def fills (p : Part) : Bool := p.flags &&& flagFill != 0

/-- `flags &= ~COMMON_PARTITION_FLAG_FILL`. -/
def clearFill (p : Part) : Part := { p with flags := p.flags &&& ~~~flagFill }

/-- The last sector of a partition, as the source computes it. -/
def lastSector (p : Part) : Nat := u64 (p.index + sub64 p.blkCount 1)

@[simp] theorem fills_clearFill (p : Part) : p.clearFill.fills = false := by
  have hmask : p.flags &&& ~~~flagFill &&& flagFill = 0#64 := by
    rw [BitVec.and_assoc, show ~~~flagFill &&& flagFill = 0#64 by decide, BitVec.and_zero]
  simp [fills, clearFill, hmask]

end Part

/-- Cut a number of sectors down to whole alignment units. -/
def alignDown (diff : Nat) : Nat := if diff % partAlign ≠ 0 then diff - diff % partAlign else diff

/-- Round a number of sectors up to whole alignment units, at least one. -/
def roundUp (diff : Nat) : Nat :=
  if diff % partAlign ≠ 0 ∨ diff = 0 then diff + (partAlign - diff % partAlign) else diff

/-- The amount by which `shrink_partition` really shrinks a partition. -/
def clampDiff (p : Part) (diff : Nat) : Nat :=
  let count := p.blkCount
  let diff := alignDown diff
  let diff := if diff > count then count else diff
  let diff := if sub64 count diff < partAlign then sub64 count partAlign else diff
  if sub64 count diff < p.blkCountMin then sub64 count p.blkCountMin else diff

/-- The size a partition is left with when it is shrunk by `diff`. -/
def shrunk (p : Part) (diff : Nat) : Nat :=
  max (max (p.blkCount - alignDown diff) partAlign) p.blkCountMin

/-- The size of a partition that has been shrunk to fit. -/
def fit (p : Part) : Nat :=
  if p.blkUsed ≥ p.blkCount then p.blkCount else shrunk p (p.blkCount - p.blkUsed)

theorem alignDown_eq (diff : Nat) : alignDown diff = diff - diff % partAlign := by
  unfold alignDown; split <;> omega

theorem alignDown_le (diff : Nat) : alignDown diff ≤ diff := by
  unfold alignDown; split <;> omega

theorem alignDown_mod (diff : Nat) : alignDown diff % partAlign = 0 := by
  unfold alignDown; rw [partAlign_eq]; split <;> omega

theorem roundUp_mod (diff : Nat) : roundUp diff % partAlign = 0 := by
  unfold roundUp; rw [partAlign_eq]; split <;> omega

theorem roundUp_pos (diff : Nat) : 0 < roundUp diff := by
  unfold roundUp; rw [partAlign_eq]; split <;> omega

theorem le_roundUp (diff : Nat) : diff ≤ roundUp diff := by
  unfold roundUp; split <;> omega

theorem partAlign_le_roundUp (diff : Nat) : partAlign ≤ roundUp diff := by
  unfold roundUp; rw [partAlign_eq]; split <;> omega

theorem roundUp_le (diff : Nat) : roundUp diff ≤ diff + partAlign := by
  unfold roundUp; split <;> omega

theorem roundUp_lt {diff : Nat} (h : 0 < diff) : roundUp diff < diff + partAlign := by
  unfold roundUp; rw [partAlign_eq]; split <;> omega

theorem roundUp_of_mod {diff : Nat} (h : diff % partAlign = 0) (hpos : 0 < diff) :
    roundUp diff = diff := if_neg (by omega)

/-- Without an underflow the clamps leave at least one alignment unit and the
minimum. -/
theorem clampDiff_eq {p : Part} (diff : Nat) (hcount : partAlign ≤ p.blkCount)
    (hmin : p.blkCountMin ≤ p.blkCount) (h64 : p.blkCount < 2 ^ 64) :
    clampDiff p diff = p.blkCount - shrunk p diff ∧ shrunk p diff ≤ p.blkCount := by
  have hsub : ∀ x ≤ p.blkCount, sub64 p.blkCount x = p.blkCount - x :=
    fun x hx => sub64_of_le hx h64
  unfold clampDiff shrunk
  dsimp only
  generalize alignDown diff = a
  have hfirst : (if a > p.blkCount then p.blkCount else a) = min a p.blkCount := by
    split <;> omega
  rw [hfirst, hsub _ (Nat.min_le_right _ _), hsub _ hcount]
  have hsecond : (if p.blkCount - min a p.blkCount < partAlign then p.blkCount - partAlign
      else min a p.blkCount) = min a (p.blkCount - partAlign) := by
    split <;> omega
  rw [hsecond, hsub _ (by omega), hsub _ hmin]
  constructor
  · split <;> omega
  · omega

/-- With a minimum above the size the last clamp underflows. -/
theorem clampDiff_of_lt_min {p : Part} (diff : Nat) (hcount : partAlign ≤ p.blkCount)
    (hlt : p.blkCount < p.blkCountMin) (h64 : p.blkCountMin < 2 ^ 64) :
    clampDiff p diff = p.blkCount + 2 ^ 64 - p.blkCountMin := by
  have hsub : ∀ x ≤ p.blkCount, sub64 p.blkCount x = p.blkCount - x :=
    fun x hx => sub64_of_le hx (by omega)
  unfold clampDiff
  dsimp only
  generalize alignDown diff = a
  have hfirst : (if a > p.blkCount then p.blkCount else a) = min a p.blkCount := by
    split <;> omega
  rw [hfirst, hsub _ (Nat.min_le_right _ _), hsub _ hcount]
  have hsecond : (if p.blkCount - min a p.blkCount < partAlign then p.blkCount - partAlign
      else min a p.blkCount) = min a (p.blkCount - partAlign) := by
    split <;> omega
  rw [hsecond, hsub _ (by omega), if_pos (by omega), sub64_of_lt hlt h64]

theorem partAlign_le_shrunk (p : Part) (diff : Nat) : partAlign ≤ shrunk p diff := by
  unfold shrunk; omega

/-- Shrinking to fit keeps the used blocks. -/
theorem used_le_fit {p : Part} (h : p.blkUsed ≤ p.blkCount) : p.blkUsed ≤ fit p := by
  unfold fit shrunk
  have hle := alignDown_le (p.blkCount - p.blkUsed)
  split <;> omega

/-- A size that has been fitted fits. -/
theorem fit_of_eq_fit {p q : Part} (hmin : p.blkUsed < p.blkCount →
    p.blkCountMin ≤ p.blkCount) (hused : p.blkUsed ≤ p.blkCount)
    (hq : q.blkCount = fit p) (hqused : q.blkUsed = p.blkUsed)
    (hqmin : q.blkCountMin = p.blkCountMin) : fit q = q.blkCount := by
  by_cases hge : p.blkUsed ≥ p.blkCount
  · have hfit : fit p = p.blkCount := if_pos hge
    exact if_pos (by omega)
  · have hfit : fit p = shrunk p (p.blkCount - p.blkUsed) := if_neg hge
    have hle := hmin (by omega)
    by_cases hge' : q.blkUsed ≥ q.blkCount
    · exact if_pos hge'
    · have hfit' : fit q = shrunk q (q.blkCount - q.blkUsed) := if_neg hge'
      rw [hfit', hq, hfit]
      rw [hq, hqused, hfit] at hge'
      unfold shrunk at *
      rw [hq, hqused, hqmin, hfit]
      simp only [alignDown_eq, partAlign_eq] at *
      generalize p.blkCount = c at *
      generalize p.blkUsed = u at *
      generalize p.blkCountMin = m at *
      omega

/-! ## Tables without gaps -/

/-- The number of sectors of a list of partitions. -/
def totalCount (parts : List Part) : Nat := (parts.map Part.blkCount).sum

/-- Lay partitions out one behind the other from sector `start` on. -/
def relay (start : Nat) : List Part → List Part
  | [] => []
  | p :: ps => { p with index := start } :: relay (start + p.blkCount) ps

/-- A table without gaps behind the reserved sectors. -/
def Laid (parts : List Part) : Prop := relay reserved parts = parts

/-- The first sector behind the table. -/
def tableEnd (parts : List Part) : Nat := reserved + totalCount parts

/-- Give partition `i` the size `count` and lay the table out again. -/
def resize (parts : List Part) (i count : Nat) : List Part :=
  relay reserved (parts.modify i fun p => { p with blkCount := count })

@[simp] theorem totalCount_nil : totalCount [] = 0 := rfl

@[simp] theorem totalCount_cons (p : Part) (ps : List Part) :
    totalCount (p :: ps) = p.blkCount + totalCount ps := rfl

@[simp] theorem totalCount_append (ps qs : List Part) :
    totalCount (ps ++ qs) = totalCount ps + totalCount qs := by
  simp [totalCount]

@[simp] theorem length_relay (s : Nat) (parts : List Part) :
    (relay s parts).length = parts.length := by
  induction parts generalizing s with
  | nil => rfl
  | cons p ps ih => simp [relay, ih]

@[simp] theorem totalCount_relay (s : Nat) (parts : List Part) :
    totalCount (relay s parts) = totalCount parts := by
  induction parts generalizing s with
  | nil => rfl
  | cons p ps ih => simp [relay, ih]

theorem relay_append (s : Nat) (ps qs : List Part) :
    relay s (ps ++ qs) = relay s ps ++ relay (s + totalCount ps) qs := by
  induction ps generalizing s with
  | nil => rfl
  | cons p ps ih => simp [relay, ih, Nat.add_assoc]

@[simp] theorem relay_relay (s t : Nat) (parts : List Part) :
    relay s (relay t parts) = relay s parts := by
  induction parts generalizing s t with
  | nil => rfl
  | cons p ps ih => simp [relay, ih]

theorem laid_relay (parts : List Part) : Laid (relay reserved parts) := relay_relay _ _ _

/-- Laying out changes no field but the start. -/
theorem getElem?_relay (s : Nat) (parts : List Part) (i : Nat) :
    (relay s parts)[i]? =
      (parts[i]?).map fun p => { p with index := s + totalCount (parts.take i) } := by
  induction parts generalizing s i with
  | nil => rfl
  | cons p ps ih =>
      cases i with
      | zero => simp [relay]
      | succ i => simp [relay, ih, Nat.add_assoc]

/-- In a table without gaps a partition starts behind all earlier ones. -/
theorem Laid.index_eq {parts : List Part} (h : Laid parts) {i : Nat} {p : Part}
    (hp : parts[i]? = some p) : p.index = reserved + totalCount (parts.take i) := by
  have hrelay := getElem?_relay reserved parts i
  rw [h, hp, Option.map_some, Option.some.injEq] at hrelay
  exact congrArg Part.index hrelay

/-- A list split at a partition. -/
theorem split_at {parts : List Part} {i : Nat} {p : Part} (h : parts[i]? = some p) :
    parts = parts.take i ++ p :: parts.drop (i + 1) ∧ (parts.take i).length = i := by
  obtain ⟨hlt, hget⟩ := List.getElem?_eq_some_iff.1 h
  refine ⟨?_, by simp; omega⟩
  rw [← hget]
  simp

theorem totalCount_split {parts : List Part} {i : Nat} {p : Part}
    (h : parts[i]? = some p) :
    totalCount parts =
      totalCount (parts.take i) + p.blkCount + totalCount (parts.drop (i + 1)) := by
  conv_lhs => rw [(split_at h).1]
  simp [Nat.add_assoc]

private theorem modify_split {pre post : List Part} {p : Part} (f : Part → Part) :
    (pre ++ p :: post).modify pre.length f = pre ++ f p :: post := by
  induction pre with
  | nil => rfl
  | cons q pre ih => simp [ih]

/-- Lowering the starts of a laid out tail lays it out further down. -/
private theorem relay_sub {s d : Nat} {parts : List Part} (h : relay s parts = parts)
    (hd : d ≤ s) (hs : s + totalCount parts < 2 ^ 64) :
    parts.map (fun q => { q with index := sub64 q.index d }) = relay (s - d) parts := by
  induction parts generalizing s with
  | nil => rfl
  | cons q qs ih =>
      simp only [relay, List.cons.injEq] at h
      have hq : q.index = s := (congrArg Part.index h.1).symm
      simp only [totalCount_cons] at hs
      simp only [List.map_cons, relay, hq]
      rw [sub64_of_le hd (by omega), ih h.2 (by omega) (by omega),
        Nat.sub_add_comm hd]

private theorem relay_add {s d : Nat} {parts : List Part} (h : relay s parts = parts)
    (hs : s + totalCount parts + d < 2 ^ 64) :
    parts.map (fun q => { q with index := u64 (q.index + d) }) = relay (s + d) parts := by
  induction parts generalizing s with
  | nil => rfl
  | cons q qs ih =>
      simp only [relay, List.cons.injEq] at h
      have hq : q.index = s := (congrArg Part.index h.1).symm
      simp only [totalCount_cons] at hs
      simp only [List.map_cons, relay, hq]
      rw [u64_of_lt (by omega), ih h.2 (by omega), Nat.add_right_comm]

/-- Partitions in a laid out list start at its start or later, and within it. -/
private theorem mem_relay {s : Nat} {parts : List Part} (h : relay s parts = parts)
    {q : Part} (hq : q ∈ parts) : s ≤ q.index ∧ q.index + q.blkCount ≤ s + totalCount parts := by
  induction parts generalizing s with
  | nil => cases hq
  | cons p ps ih =>
      simp only [relay, List.cons.injEq] at h
      have hp : p.index = s := (congrArg Part.index h.1).symm
      simp only [totalCount_cons]
      rcases List.mem_cons.1 hq with rfl | hmem
      · omega
      · have := ih h.2 hmem
        omega

/-- `if (partitions[i].index > start) partitions[i].index -= diff;` -/
def shiftDown (start diff : Nat) (p : Part) : Part :=
  if p.index > start then { p with index := sub64 p.index diff } else p

/-- `if (partitions[i].index > start) partitions[i].index += diff;` -/
def shiftUp (start diff : Nat) (p : Part) : Part :=
  if p.index > start then { p with index := u64 (p.index + diff) } else p

/-- What a shift leaves alone and what it moves, in a table without gaps. -/
private theorem map_shift {pre post : List Part} {p : Part}
    (h : Laid (pre ++ p :: post)) (hpos : ∀ q ∈ pre ++ p :: post, 0 < q.blkCount)
    (f : Part → Part) :
    (pre ++ p :: post).map (fun q => if q.index > p.index then f q else q) =
      pre ++ p :: post.map f := by
  have hsplit := h
  rw [Laid, relay_append] at hsplit
  obtain ⟨hpre, hrest⟩ := List.append_inj hsplit (by simp)
  simp only [relay, List.cons.injEq] at hrest
  have hp : p.index = reserved + totalCount pre := (congrArg Part.index hrest.1).symm
  have hkeep : pre.map (fun q => if q.index > p.index then f q else q) = pre := by
    conv_rhs => rw [← List.map_id pre]
    apply List.map_congr_left
    intro q hq
    have hend := (mem_relay hpre hq).2
    exact if_neg (by omega)
  have hmove : post.map (fun q => if q.index > p.index then f q else q) = post.map f := by
    apply List.map_congr_left
    intro q hq
    have hstart := (mem_relay hrest.2 hq).1
    have hppos := hpos p (by simp)
    exact if_pos (by omega)
  rw [List.map_append, List.map_cons, hkeep, hmove, if_neg (by omega)]

private theorem laid_post {pre post : List Part} {p : Part} (h : Laid (pre ++ p :: post)) :
    relay reserved pre = pre ∧ p.index = reserved + totalCount pre ∧
      relay (reserved + totalCount pre + p.blkCount) post = post := by
  rw [Laid, relay_append] at h
  obtain ⟨hpre, hrest⟩ := List.append_inj h (by simp)
  simp only [relay, List.cons.injEq] at hrest
  exact ⟨hpre, (congrArg Part.index hrest.1).symm, hrest.2⟩

/-- Taking `diff` sectors from partition `i` and lowering the starts behind it. -/
theorem shiftDown_eq_resize {parts : List Part} {i : Nat} (diff : Nat) {p : Part}
    (h : Laid parts) (hpos : ∀ q ∈ parts, 0 < q.blkCount) (hp : parts[i]? = some p)
    (hdiff : diff ≤ p.blkCount) (h64 : tableEnd parts < 2 ^ 64) :
    (parts.map (shiftDown p.index diff)).modify i
        (fun q => { q with blkCount := sub64 q.blkCount diff }) =
      resize parts i (p.blkCount - diff) := by
  obtain ⟨hsplit, hlen⟩ := split_at hp
  generalize parts.take i = pre at *
  generalize parts.drop (i + 1) = post at *
  subst hlen
  subst hsplit
  obtain ⟨hpre, hindex, hpost⟩ := laid_post h
  simp only [tableEnd, totalCount_append, totalCount_cons] at h64
  unfold resize shiftDown
  rw [map_shift h hpos, modify_split, modify_split, relay_append, hpre]
  simp only [relay]
  rw [relay_sub hpost (by omega) (by omega), sub64_of_le hdiff (by omega),
    Nat.add_sub_assoc hdiff]
  congr 2
  cases p
  simp_all

/-- Giving partition `i` `diff` more sectors and raising the starts behind it. -/
theorem shiftUp_eq_resize {parts : List Part} {i : Nat} (diff : Nat) {p : Part}
    (h : Laid parts) (hpos : ∀ q ∈ parts, 0 < q.blkCount) (hp : parts[i]? = some p)
    (h64 : tableEnd parts + diff < 2 ^ 64) :
    (parts.map (shiftUp p.index diff)).modify i
        (fun q => { q with blkCount := u64 (q.blkCount + diff) }) =
      resize parts i (p.blkCount + diff) := by
  obtain ⟨hsplit, hlen⟩ := split_at hp
  generalize parts.take i = pre at *
  generalize parts.drop (i + 1) = post at *
  subst hlen
  subst hsplit
  obtain ⟨hpre, hindex, hpost⟩ := laid_post h
  simp only [tableEnd, totalCount_append, totalCount_cons] at h64
  unfold resize shiftUp
  rw [map_shift h hpos, modify_split, modify_split, relay_append, hpre]
  simp only [relay]
  rw [relay_add hpost (by omega), u64_of_lt (by omega), ← Nat.add_assoc]
  congr 2
  cases p
  simp_all

/-- `totalCount` of a laid out prefix. -/
theorem totalCount_take_relay (s : Nat) (parts : List Part) (k : Nat) :
    totalCount ((relay s parts).take k) = totalCount (parts.take k) := by
  induction parts generalizing s k with
  | nil => rfl
  | cons p ps ih =>
      cases k with
      | zero => rfl
      | succ k => simp [relay, ih]

/-! ## Tables that fit -/

/-- At most one partition carries the FILL flag. -/
def OneFill (parts : List Part) : Prop :=
  ∀ (i j : Nat) (p q : Part), parts[i]? = some p → parts[j]? = some q →
    p.fills = true → q.fills = true → i = j

/-- A table without gaps that ends within `limit`. -/
structure Sound (limit : Nat) (parts : List Part) : Prop where
  laid : Laid parts
  large : ∀ (i : Nat) p, parts[i]? = some p → partAlign ≤ p.blkCount
  fits : tableEnd parts ≤ limit
  oneFill : OneFill parts

theorem Sound.pos {limit : Nat} {parts : List Part} (h : Sound limit parts) :
    ∀ q ∈ parts, 0 < q.blkCount := by
  intro q hq
  obtain ⟨i, hi⟩ := List.mem_iff_getElem?.1 hq
  exact Nat.lt_of_lt_of_le (by decide) (h.large i q hi)

theorem Sound.mono {limit limit' : Nat} {parts : List Part} (h : Sound limit parts)
    (hle : limit ≤ limit') : Sound limit' parts :=
  ⟨h.laid, h.large, Nat.le_trans h.fits hle, h.oneFill⟩

theorem sound_nil {limit : Nat} (h : reserved ≤ limit) : Sound limit [] where
  laid := rfl
  large i p hp := by simp at hp
  fits := h
  oneFill i j p q hp := by simp at hp

theorem blkCount_le_total {parts : List Part} {i : Nat} {p : Part}
    (hp : parts[i]? = some p) :
    totalCount (parts.take i) + p.blkCount ≤ totalCount parts := by
  have := totalCount_split hp
  omega

/-- A partition lies inside the table. -/
theorem Sound.index_add_le {limit : Nat} {parts : List Part} (h : Sound limit parts)
    {i : Nat} {p : Part} (hp : parts[i]? = some p) :
    reserved ≤ p.index ∧ p.index + p.blkCount ≤ tableEnd parts := by
  have hindex := h.laid.index_eq hp
  have htotal := blkCount_le_total hp
  unfold tableEnd
  omega

private theorem totalCount_take_mono {parts : List Part} {i j : Nat} {p : Part}
    (hp : parts[i]? = some p) (hij : i < j) :
    totalCount (parts.take i) + p.blkCount ≤ totalCount (parts.take j) := by
  have hp' : (parts.take j)[i]? = some p := by
    rw [List.getElem?_take_of_lt hij]; exact hp
  have h := blkCount_le_total hp'
  rwa [List.take_take, Nat.min_eq_left (by omega)] at h

/-- A partition ends before any later one starts. -/
theorem Laid.end_le {parts : List Part} (h : Laid parts) {i j : Nat} {p q : Part}
    (hp : parts[i]? = some p) (hq : parts[j]? = some q) (hij : i < j) :
    p.index + p.blkCount ≤ q.index := by
  have hmono := totalCount_take_mono hp hij
  rw [h.index_eq hp, h.index_eq hq]
  omega

/-- Starts tell the slots of a table apart. -/
theorem Sound.index_lt_iff {limit : Nat} {parts : List Part} (h : Sound limit parts)
    {i j : Nat} {p q : Part} (hp : parts[i]? = some p) (hq : parts[j]? = some q) :
    q.index > p.index ↔ i < j := by
  constructor
  · intro hlt
    by_contra hij
    rcases Nat.lt_or_eq_of_le (Nat.le_of_not_lt hij) with hji | rfl
    · have := h.laid.end_le hq hp hji
      omega
    · rw [hp] at hq
      cases hq
      omega
  · intro hij
    have hend := h.laid.end_le hp hq hij
    have hlarge := h.large i p hp
    rw [partAlign_eq] at hlarge
    omega

/-! ## Resizing -/

/-- What becomes of the entry `q` in slot `k`. -/
def resized (parts : List Part) (i n k : Nat) (q : Part) : Part :=
  { q with
    index := reserved + totalCount ((resize parts i n).take k)
    blkCount := if i = k then n else q.blkCount }

theorem getElem?_resize (parts : List Part) (i n k : Nat) :
    (resize parts i n)[k]? = (parts[k]?).map (resized parts i n k) := by
  unfold resized resize
  rw [getElem?_relay, totalCount_take_relay, List.getElem?_modify]
  cases hk : parts[k]? with
  | none => rfl
  | some q =>
      by_cases hik : i = k
      · simp [hik]
      · simp [hik]

theorem getElem?_resize_self {parts : List Part} {i n : Nat} {p : Part}
    (hp : parts[i]? = some p) :
    (resize parts i n)[i]? = some { p with
      index := reserved + totalCount ((resize parts i n).take i), blkCount := n } := by
  rw [getElem?_resize, hp, Option.map_some]
  unfold resized
  rw [if_pos rfl]

theorem totalCount_modify {parts : List Part} {i n : Nat} {p : Part}
    (hp : parts[i]? = some p) :
    totalCount (parts.modify i fun q => { q with blkCount := n }) + p.blkCount =
      totalCount parts + n := by
  obtain ⟨hsplit, hlen⟩ := split_at hp
  generalize parts.take i = pre at *
  generalize parts.drop (i + 1) = post at *
  subst hlen
  subst hsplit
  rw [modify_split]
  simp only [totalCount_append, totalCount_cons]
  omega

theorem totalCount_resize {parts : List Part} {i n : Nat} {p : Part}
    (hp : parts[i]? = some p) :
    totalCount (resize parts i n) + p.blkCount = totalCount parts + n := by
  unfold resize
  rw [totalCount_relay]
  exact totalCount_modify hp

private theorem take_modify {parts : List Part} {i k : Nat} (f : Part → Part) :
    (parts.modify i f).take k = (parts.take k).modify i f := by
  apply List.ext_getElem?
  intro j
  by_cases hj : j < k
  · rw [List.getElem?_take_of_lt hj, List.getElem?_modify, List.getElem?_modify,
      List.getElem?_take_of_lt hj]
  · rw [List.getElem?_take_eq_none (by omega), List.getElem?_modify,
      List.getElem?_take_eq_none (by omega)]
    rfl

/-- Starts up to the resized slot stay. -/
theorem totalCount_take_resize_of_le (parts : List Part) {i k : Nat} (n : Nat)
    (hk : k ≤ i) : totalCount ((resize parts i n).take k) = totalCount (parts.take k) := by
  unfold resize
  rw [totalCount_take_relay, take_modify, List.modify_eq_self (by simp; omega)]

/-- Starts behind the resized slot move by the difference. -/
theorem totalCount_take_resize_of_lt {parts : List Part} {i n k : Nat} {p : Part}
    (hp : parts[i]? = some p) (hk : i < k) :
    totalCount ((resize parts i n).take k) + p.blkCount =
      totalCount (parts.take k) + n := by
  have hp' : (parts.take k)[i]? = some p := by
    rw [List.getElem?_take_of_lt hk]; exact hp
  unfold resize
  rw [totalCount_take_relay, take_modify]
  exact totalCount_modify hp'

/-- Resizing keeps a table sound where the new size is large enough and fits. -/
theorem Sound.resize {limit : Nat} {parts : List Part} (h : Sound limit parts)
    {i n : Nat} {p : Part} (hp : parts[i]? = some p) (hn : partAlign ≤ n)
    (hfit : tableEnd parts + n ≤ limit + p.blkCount) : Sound limit (resize parts i n) where
  laid := laid_relay _
  large := by
    intro k q hq
    rw [getElem?_resize] at hq
    obtain ⟨q', hq', rfl⟩ := Option.map_eq_some_iff.1 hq
    show partAlign ≤ if i = k then n else q'.blkCount
    split
    · exact hn
    · exact h.large k q' hq'
  fits := by
    have htotal := totalCount_resize (n := n) hp
    unfold tableEnd at *
    omega
  oneFill := by
    intro k l q r hq hr hqf hrf
    rw [getElem?_resize] at hq hr
    obtain ⟨q', hq', rfl⟩ := Option.map_eq_some_iff.1 hq
    obtain ⟨r', hr', rfl⟩ := Option.map_eq_some_iff.1 hr
    exact h.oneFill k l q' r' hq' hr' hqf hrf

/-- Giving a partition the size it has changes nothing. -/
theorem Sound.resize_self {limit : Nat} {parts : List Part} (h : Sound limit parts)
    {i : Nat} {p : Part} (hp : parts[i]? = some p) :
    Mbr.resize parts i p.blkCount = parts := by
  have hmodify : (parts.modify i fun q => { q with blkCount := p.blkCount }) = parts := by
    apply List.ext_getElem?
    intro k
    rw [List.getElem?_modify]
    by_cases hik : i = k
    · subst hik
      simp [hp]
    · simp [hik]
  rw [Mbr.resize, hmodify]
  exact h.laid

/-! ## Other changes -/

/-- The layout of a table looks at starts and sizes only. -/
private theorem relay_eq_of_map_eq {s : Nat} :
    ∀ {ps qs : List Part}, qs.map (fun p => (p.index, p.blkCount)) =
      ps.map (fun p => (p.index, p.blkCount)) → relay s ps = ps → relay s qs = qs := by
  intro ps
  induction ps generalizing s with
  | nil =>
      intro qs h _
      rw [List.map_nil, List.map_eq_nil_iff] at h
      rw [h]
      rfl
  | cons p ps ih =>
      intro qs h hp
      cases qs with
      | nil => simp at h
      | cons q qs =>
          simp only [List.map_cons, List.cons.injEq, Prod.mk.injEq] at h
          simp only [relay, List.cons.injEq] at hp ⊢
          obtain ⟨⟨hindex, hcount⟩, hrest⟩ := h
          have hs : q.index = s := by rw [hindex]; exact (congrArg Part.index hp.1).symm
          refine ⟨by rw [← hs], ?_⟩
          rw [hcount]
          exact ih hrest hp.2

theorem totalCount_eq_of_map_eq {ps qs : List Part}
    (h : qs.map (fun p => (p.index, p.blkCount)) = ps.map (fun p => (p.index, p.blkCount))) :
    totalCount qs = totalCount ps := by
  have hsnd := congrArg (fun l => (l.map Prod.snd).sum) h
  simpa [totalCount, Function.comp_def] using hsnd

/-- A table that keeps its starts and sizes stays sound. -/
theorem Sound.of_map_eq {limit : Nat} {parts parts' : List Part} (h : Sound limit parts)
    (hmap : parts'.map (fun p => (p.index, p.blkCount)) =
      parts.map (fun p => (p.index, p.blkCount))) (hfill : OneFill parts') :
    Sound limit parts' where
  laid := relay_eq_of_map_eq hmap h.laid
  large := by
    intro i p hp
    have hget := congrArg (fun l => l[i]?) hmap
    simp only [List.getElem?_map, hp, Option.map_some] at hget
    obtain ⟨q, hq, heq⟩ := Option.map_eq_some_iff.1 hget.symm
    have hcount : q.blkCount = p.blkCount := congrArg Prod.snd heq
    rw [← hcount]
    exact h.large i q hq
  fits := by
    have := h.fits
    unfold tableEnd at *
    rw [totalCount_eq_of_map_eq hmap]
    exact this
  oneFill := hfill

/-- Changing other fields of one entry. -/
theorem Sound.modify {limit : Nat} {parts : List Part} (h : Sound limit parts) {i : Nat}
    {p : Part} (hp : parts[i]? = some p) {f : Part → Part}
    (hindex : (f p).index = p.index) (hcount : (f p).blkCount = p.blkCount)
    (hfill : (f p).fills = p.fills) : Sound limit (parts.modify i f) := by
  have hget : ∀ k, (parts.modify i f)[k]? =
      (parts[k]?).map fun q => if i = k then f q else q := by
    intro k
    rw [List.getElem?_modify]
    by_cases hik : i = k <;> simp [hik]
  apply h.of_map_eq
  · apply List.ext_getElem?
    intro k
    rw [List.getElem?_map, List.getElem?_map, hget]
    by_cases hik : i = k
    · subst hik
      simp [hp, hindex, hcount]
    · simp [hik]
  · intro k l q r hq hr hqf hrf
    rw [hget] at hq hr
    obtain ⟨q', hq', rfl⟩ := Option.map_eq_some_iff.1 hq
    obtain ⟨r', hr', rfl⟩ := Option.map_eq_some_iff.1 hr
    refine h.oneFill k l q' r' hq' hr' ?_ ?_
    · split at hqf
      · rename_i hik
        subst hik
        rw [hp] at hq'
        cases hq'
        rw [← hfill]
        exact hqf
      · exact hqf
    · split at hrf
      · rename_i hil
        subst hil
        rw [hp] at hr'
        cases hr'
        rw [← hfill]
        exact hrf
      · exact hrf

theorem oneFill_clearFill (parts : List Part) : OneFill (parts.map Part.clearFill) := by
  intro i j p q hp _ hpf _
  rw [List.getElem?_map] at hp
  obtain ⟨p', _, rfl⟩ := Option.map_eq_some_iff.1 hp
  rw [Part.fills_clearFill] at hpf
  cases hpf

/-- Taking the FILL flag from every partition. -/
theorem Sound.clearFill {limit : Nat} {parts : List Part} (h : Sound limit parts) :
    Sound limit (parts.map Part.clearFill) :=
  h.of_map_eq (by simp [Part.clearFill]) (oneFill_clearFill parts)

/-- A new partition behind the table. -/
theorem Sound.append {limit : Nat} {parts : List Part} (h : Sound limit parts)
    {p : Part} (hindex : p.index = tableEnd parts) (hlarge : partAlign ≤ p.blkCount)
    (hfit : tableEnd parts + p.blkCount ≤ limit)
    (hfill : p.fills = true → ∀ (i : Nat) q, parts[i]? = some q → q.fills = false) :
    Sound limit (parts ++ [p]) where
  laid := by
    rw [Laid, relay_append, h.laid]
    simp only [relay, List.append_cancel_left_eq, List.cons.injEq, and_true]
    rw [show reserved + totalCount parts = p.index from hindex.symm]
  large := by
    intro i q hq
    rw [List.getElem?_append] at hq
    split at hq
    · exact h.large i q hq
    · rw [List.getElem?_singleton] at hq
      split at hq
      · cases hq; exact hlarge
      · cases hq
  fits := by
    unfold tableEnd at *
    simp only [totalCount_append, totalCount_cons, totalCount_nil]
    omega
  oneFill := by
    have hget : ∀ k q, (parts ++ [p])[k]? = some q → q.fills = true →
        (parts[k]? = some q ∧ p.fills = false) ∨ (k = parts.length ∧ q = p) := by
      intro k q hq hqf
      rw [List.getElem?_append] at hq
      split at hq
      · left
        refine ⟨hq, ?_⟩
        cases hpf : p.fills with
        | false => rfl
        | true =>
            rw [hfill hpf k q hq] at hqf
            cases hqf
      · right
        rw [List.getElem?_singleton] at hq
        split at hq
        · cases hq
          exact ⟨by omega, rfl⟩
        · cases hq
    intro i j q r hq hr hqf hrf
    rcases hget i q hq hqf with ⟨hq', hpf⟩ | ⟨hi, rfl⟩
    · rcases hget j r hr hrf with ⟨hr', _⟩ | ⟨_, rfl⟩
      · exact h.oneFill i j q r hq' hr' hqf hrf
      · rw [hpf] at hrf; cases hrf
    · rcases hget j r hr hrf with ⟨_, hpf⟩ | ⟨hj, _⟩
      · rw [hpf] at hqf; cases hqf
      · omega

/-- The table after `part_set_flags`. -/
def setFlags (parts : List Part) (i : Nat) (flags : BitVec 64) : List Part :=
  (if flags &&& flagFill ≠ 0 then parts.map Part.clearFill else parts).modify i
    fun q => { q with flags := flags }

/-- Setting flags changes no other field. -/
theorem getElem?_setFlags {parts : List Part} {i k : Nat} {flags : BitVec 64} {q : Part}
    (hq : (setFlags parts i flags)[k]? = some q) :
    ∃ q' fl, parts[k]? = some q' ∧ q = { q' with flags := fl } := by
  unfold setFlags at hq
  rw [List.getElem?_modify] at hq
  obtain ⟨r, hr, rfl⟩ := Option.map_eq_some_iff.1 hq
  have hbase : ∃ q' fl, parts[k]? = some q' ∧ r = { q' with flags := fl } := by
    split at hr
    · rw [List.getElem?_map] at hr
      obtain ⟨q', hq', rfl⟩ := Option.map_eq_some_iff.1 hr
      exact ⟨q', _, hq', rfl⟩
    · exact ⟨r, _, hr, rfl⟩
  obtain ⟨q', fl, hq', rfl⟩ := hbase
  split
  · exact ⟨q', flags, hq', rfl⟩
  · exact ⟨q', fl, hq', rfl⟩

theorem exists_setFlags {parts : List Part} (i : Nat) (flags : BitVec 64) {k : Nat}
    {q : Part} (hq : parts[k]? = some q) :
    ∃ fl, (setFlags parts i flags)[k]? = some { q with flags := fl } := by
  have hlen : k < (setFlags parts i flags).length := by
    have hlt := (List.getElem?_eq_some_iff.1 hq).1
    unfold setFlags
    split <;> simpa using hlt
  have hget := List.getElem?_eq_getElem hlen
  obtain ⟨q', fl, hq', heq⟩ := getElem?_setFlags hget
  rw [hq] at hq'
  cases hq'
  exact ⟨fl, by rw [hget, heq]⟩

theorem map_setFlags (parts : List Part) (i : Nat) (flags : BitVec 64) :
    (setFlags parts i flags).map (fun p => (p.index, p.blkCount)) =
      parts.map fun p => (p.index, p.blkCount) := by
  have hmodify : ∀ base : List Part,
      (base.modify i fun q => { q with flags := flags }).map
        (fun p => (p.index, p.blkCount)) = base.map fun p => (p.index, p.blkCount) := by
    intro base
    apply List.ext_getElem?
    intro k
    rw [List.getElem?_map, List.getElem?_map, List.getElem?_modify]
    cases base[k]? with
    | none => rfl
    | some q => by_cases hik : i = k <;> simp [hik]
  unfold setFlags
  rw [hmodify]
  split
  · simp [Part.clearFill]
  · rfl

theorem Sound.setFlags {limit : Nat} {parts : List Part} (h : Sound limit parts) (i : Nat)
    (flags : BitVec 64) : Sound limit (setFlags parts i flags) := by
  refine h.of_map_eq (map_setFlags parts i flags) ?_
  have hfills : ∀ q : Part, ({ q with flags := flags } : Part).fills =
      (flags &&& flagFill != 0) := fun _ => rfl
  -- a partition other than `i` carries the flag only if `flags` does not
  have hother : ∀ k q, (Mbr.setFlags parts i flags)[k]? = some q → q.fills = true →
      (flags &&& flagFill ≠ 0 ∧ k = i) ∨
        (¬ flags &&& flagFill ≠ 0 ∧ ∃ q', parts[k]? = some q' ∧ q'.fills = true) := by
    intro k q hq hqf
    unfold Mbr.setFlags at hq
    rw [List.getElem?_modify] at hq
    obtain ⟨q', hq', rfl⟩ := Option.map_eq_some_iff.1 hq
    by_cases hf : flags &&& flagFill ≠ 0
    · left
      refine ⟨hf, ?_⟩
      by_contra hne
      rw [if_pos hf, List.getElem?_map] at hq'
      obtain ⟨r, _, rfl⟩ := Option.map_eq_some_iff.1 hq'
      rw [if_neg (fun h => hne h.symm), Part.fills_clearFill] at hqf
      cases hqf
    · right
      rw [if_neg hf] at hq'
      refine ⟨hf, q', hq', ?_⟩
      split at hqf
      · exfalso
        rw [hfills] at hqf
        simp only [ne_eq, not_not] at hf
        simp [hf] at hqf
      · exact hqf
  intro k l q r hq hr hqf hrf
  rcases hother k q hq hqf with ⟨hf, hk⟩ | ⟨hf, q', hq', hqf'⟩
  · rcases hother l r hr hrf with ⟨_, hl⟩ | ⟨hf', _⟩
    · rw [hk, hl]
    · exact absurd hf hf'
  · rcases hother l r hr hrf with ⟨hf', _⟩ | ⟨_, r', hr', hrf'⟩
    · exact absurd hf' hf
    · exact h.oneFill k l q' r' hq' hr' hqf' hrf'

/-- The table after `mbr_disk_create_parition` has put a partition of `n` sectors at
`index`. -/
def appendPart (parts : List Part) (index n : Nat) (flags : BitVec 64) : List Part :=
  (if flags &&& flagFill ≠ 0 then parts.map Part.clearFill else parts) ++
    [{ index := index, blkCountMin := n, blkCount := n, blkUsed := 0, flags := flags }]

theorem Sound.appendPart {limit : Nat} {parts : List Part} (h : Sound limit parts)
    {n : Nat} (hlarge : partAlign ≤ n) (hfit : tableEnd parts + n ≤ limit)
    (flags : BitVec 64) : Sound limit (appendPart parts (tableEnd parts) n flags) := by
  unfold Mbr.appendPart
  split
  · have hend : tableEnd (parts.map Part.clearFill) = tableEnd parts := by
      simp [tableEnd, totalCount, Part.clearFill, Function.comp_def]
    refine h.clearFill.append hend.symm hlarge (by rw [hend]; exact hfit) ?_
    intro _ k q hq
    rw [List.getElem?_map] at hq
    obtain ⟨q', _, rfl⟩ := Option.map_eq_some_iff.1 hq
    exact Part.fills_clearFill q'
  · rename_i hf
    refine h.append rfl hlarge hfit ?_
    intro hfill
    exfalso
    apply hf
    simpa [Part.fills] using hfill

theorem exists_appendPart {parts : List Part} (index n : Nat) (flags : BitVec 64)
    {k : Nat} {q : Part} (hq : parts[k]? = some q) :
    ∃ fl, (appendPart parts index n flags)[k]? = some { q with flags := fl } := by
  have hlt := (List.getElem?_eq_some_iff.1 hq).1
  unfold appendPart
  split
  · rw [List.getElem?_append_left (by simpa using hlt), List.getElem?_map, hq]
    exact ⟨_, rfl⟩
  · rw [List.getElem?_append_left hlt, hq]
    exact ⟨_, rfl⟩

/-- Entries of the longer table: old ones but for the flags, and the new one. -/
theorem getElem?_appendPart {parts : List Part} {index n k : Nat} {flags : BitVec 64}
    {q : Part} (hq : (appendPart parts index n flags)[k]? = some q) :
    (∃ q' fl, parts[k]? = some q' ∧ q = { q' with flags := fl }) ∨
      (k = parts.length ∧ q = {
        index := index, blkCountMin := n, blkCount := n, blkUsed := 0,
        flags := flags }) := by
  unfold appendPart at hq
  have hlen : (if flags &&& flagFill ≠ 0 then parts.map Part.clearFill else parts).length =
      parts.length := by split <;> simp
  rw [List.getElem?_append, hlen] at hq
  split at hq
  · left
    split at hq
    · rw [List.getElem?_map] at hq
      obtain ⟨q', hq', rfl⟩ := Option.map_eq_some_iff.1 hq
      exact ⟨q', _, hq', rfl⟩
    · exact ⟨q, _, hq, rfl⟩
  · right
    rw [List.getElem?_singleton] at hq
    split at hq
    · cases hq
      exact ⟨by omega, rfl⟩
    · cases hq

/-! ## Shrinking to fit -/

/-- A partition shrunk to fit. -/
def fitted (p : Part) : Part := { p with blkCount := fit p }

/-- The table with the partitions in slots `lo, …, hi - 1` shrunk to fit. -/
def fitRange (lo hi : Nat) (parts : List Part) : List Part :=
  relay reserved (parts.mapIdx fun k p => if lo ≤ k ∧ k < hi then fitted p else p)

/-- The start does not matter for laying out. -/
private theorem relay_congr {s : Nat} :
    ∀ {ps qs : List Part}, ps.map (fun p => { p with index := 0 }) =
      qs.map (fun p => { p with index := 0 }) → relay s ps = relay s qs := by
  intro ps
  induction ps generalizing s with
  | nil =>
      intro qs h
      cases qs with
      | nil => rfl
      | cons q qs => simp at h
  | cons p ps ih =>
      intro qs h
      cases qs with
      | nil => simp at h
      | cons q qs =>
          simp only [List.map_cons, List.cons.injEq, Part.mk.injEq] at h
          obtain ⟨⟨_, hmin, hcount, hused, hflags⟩, hrest⟩ := h
          simp only [relay, List.cons.injEq]
          refine ⟨?_, ?_⟩
          · simp [hmin, hcount, hused, hflags]
          · rw [hcount]
            exact ih hrest

theorem getElem?_fitRange (lo hi : Nat) (parts : List Part) (k : Nat) :
    (fitRange lo hi parts)[k]? = (parts[k]?).map fun q =>
      { (if lo ≤ k ∧ k < hi then fitted q else q) with
        index := reserved + totalCount ((fitRange lo hi parts).take k) } := by
  unfold fitRange
  rw [getElem?_relay, totalCount_take_relay, List.getElem?_mapIdx]
  cases parts[k]? with
  | none => rfl
  | some q => rfl

theorem length_fitRange (lo hi : Nat) (parts : List Part) :
    (fitRange lo hi parts).length = parts.length := by simp [fitRange]

theorem fitRange_of_le {lo hi : Nat} {parts : List Part} (h : Laid parts)
    (hle : hi ≤ lo) : fitRange lo hi parts = parts := by
  have hmap : (parts.mapIdx fun k p => if lo ≤ k ∧ k < hi then fitted p else p) =
      parts := by
    apply List.ext_getElem?
    intro k
    rw [List.getElem?_mapIdx]
    have hout : ¬ (lo ≤ k ∧ k < hi) := by omega
    simp [hout]
  rw [fitRange, hmap]
  exact h

/-- Shrinking the next slot to fit extends the range. -/
theorem resize_fitRange {lo k : Nat} {parts : List Part} {q : Part} (hlo : lo ≤ k)
    (hq : parts[k]? = some q) :
    resize (fitRange lo k parts) k (fit q) = fitRange lo (k + 1) parts := by
  unfold resize
  conv_rhs => unfold fitRange
  apply relay_congr
  apply List.ext_getElem?
  intro j
  rw [List.getElem?_map, List.getElem?_map, List.getElem?_modify, getElem?_fitRange,
    List.getElem?_mapIdx]
  by_cases hjk : k = j
  · subst hjk
    have hin : lo ≤ k ∧ k < k + 1 := by omega
    simp [hq, hin, fitted]
  · have hiff : (lo ≤ j ∧ j < k + 1) ↔ (lo ≤ j ∧ j < k) := by omega
    cases parts[j]? with
    | none => simp
    | some r => simp only [Option.map_some, Option.map_eq_map, if_neg hjk, hiff]

theorem map_flags_resize (parts : List Part) (i n : Nat) :
    (resize parts i n).map Part.flags = parts.map Part.flags := by
  apply List.ext_getElem?
  intro k
  rw [List.getElem?_map, List.getElem?_map, getElem?_resize, Option.map_map]
  rfl

theorem map_flags_fitRange (lo hi : Nat) (parts : List Part) :
    (fitRange lo hi parts).map Part.flags = parts.map Part.flags := by
  apply List.ext_getElem?
  intro k
  rw [List.getElem?_map, List.getElem?_map, getElem?_fitRange, Option.map_map]
  refine congrArg (fun f => Option.map f parts[k]?) (funext fun q => ?_)
  show (if lo ≤ k ∧ k < hi then fitted q else q).flags = q.flags
  split <;> rfl

/-- Slots in front of the range stay as they are. -/
theorem fitRange_getElem?_of_lt {lo hi k : Nat} {parts : List Part} (h : Laid parts)
    (hk : k < lo) : (fitRange lo hi parts)[k]? = parts[k]? := by
  have htake : (parts.mapIdx fun j p => if lo ≤ j ∧ j < hi then fitted p else p).take k =
      parts.take k := by
    apply List.ext_getElem?
    intro j
    by_cases hj : j < k
    · rw [List.getElem?_take_of_lt hj, List.getElem?_take_of_lt hj, List.getElem?_mapIdx]
      have hout : ¬ (lo ≤ j ∧ j < hi) := by omega
      simp [hout]
    · rw [List.getElem?_take_eq_none (by omega), List.getElem?_take_eq_none (by omega)]
  have hindex : totalCount ((fitRange lo hi parts).take k) =
      totalCount (parts.take k) := by
    rw [fitRange, totalCount_take_relay, htake]
  have hout : ¬ (lo ≤ k ∧ k < hi) := by omega
  rw [getElem?_fitRange, hindex]
  cases hq : parts[k]? with
  | none => rfl
  | some q =>
      simp only [Option.map_some, if_neg hout]
      rw [← h.index_eq hq]

theorem fit_le {p : Part} (h : p.blkUsed < p.blkCount → p.blkCountMin ≤ p.blkCount)
    (hlarge : partAlign ≤ p.blkCount) : fit p ≤ p.blkCount := by
  unfold fit
  split
  · exact Nat.le_refl _
  · have := h (by omega)
    unfold shrunk
    omega

private theorem totalCount_mapIdx_le {parts : List Part} {f : Nat → Part → Part}
    (h : ∀ (k : Nat) q, parts[k]? = some q → (f k q).blkCount ≤ q.blkCount) :
    totalCount (parts.mapIdx f) ≤ totalCount parts := by
  induction parts generalizing f with
  | nil => exact Nat.le_refl _
  | cons p ps ih =>
      rw [List.mapIdx_cons, totalCount_cons, totalCount_cons]
      have hp := h 0 p rfl
      have hps := ih fun k q hq => h (k + 1) q hq
      exact Nat.add_le_add hp hps

/-- Shrinking partitions to fit cannot raise the end of the table. -/
theorem tableEnd_fitRange_le {parts : List Part}
    (h : ∀ (k : Nat) q, parts[k]? = some q → fit q ≤ q.blkCount) (lo hi : Nat) :
    tableEnd (fitRange lo hi parts) ≤ tableEnd parts := by
  unfold tableEnd fitRange
  rw [totalCount_relay]
  apply Nat.add_le_add_left
  apply totalCount_mapIdx_le
  intro k q hq
  split
  · exact h k q hq
  · exact Nat.le_refl _

theorem partAlign_le_fit {p : Part} (hlarge : partAlign ≤ p.blkCount) :
    partAlign ≤ fit p := by
  unfold fit
  split
  · exact hlarge
  · unfold shrunk; omega

end ImageTool.Mbr
