import ImageTool.Lib.Run
import ImageTool.Mbr.Resize

/-!
# The partition table invariant

Over any volume whose operations do not lower its maximum size, a disk whose
operations are `Admissible` keeps partitions that are disjoint, aligned and
within the volume.  Two things are not checked by the source and make up the
condition: that a minimum size which takes effect when a partition is shrunk is
aligned and not above the partition's size, and that a partition that is created
or grown ends within the volume.
-/

namespace ImageTool.Mbr

open ImageTool.Lib ImageTool.Image

/-- Shrinking `p` by `diff` does not run into a minimum that is not aligned or
above the size. -/
def ShrinkOk (p : Part) (diff : Nat) : Prop :=
  p.blkCountMin ≤ p.blkCount ∧ (p.blkCountMin % partAlign = 0 ∨
    p.blkCountMin ≤ max partAlign (p.blkCount - alignDown diff))

/-- The same for shrinking `p` to fit. -/
def FitOk (p : Part) : Prop :=
  p.blkUsed < p.blkCount → ShrinkOk p (p.blkCount - p.blkUsed)

instance (p : Part) (diff : Nat) : Decidable (ShrinkOk p diff) :=
  inferInstanceAs (Decidable (_ ∧ _))

instance (p : Part) : Decidable (FitOk p) := inferInstanceAs (Decidable (_ → _))

theorem forall_mem_fitOk_iff {parts : List Part} :
    (∀ p ∈ parts, FitOk p) ↔ ∀ (i : Nat) p, parts[i]? = some p → FitOk p := by
  simp only [List.mem_iff_getElem?, forall_exists_index]
  exact forall_comm

theorem forall_fitOk_iff {parts : List Part} {i : Nat} :
    (∀ q ∈ parts.drop (i + 1), FitOk q) ↔
      ∀ k q, i < k → parts[k]? = some q → FitOk q := by
  constructor
  · intro h k q hik hq
    apply h q
    rw [List.mem_iff_getElem?]
    refine ⟨k - (i + 1), ?_⟩
    rwa [List.getElem?_drop, Nat.add_sub_cancel' hik]
  · intro h q hq
    obtain ⟨k, hk⟩ := List.mem_iff_getElem?.1 hq
    rw [List.getElem?_drop] at hk
    exact h _ q (by omega) hk

/-- All partitions have whole alignment units. -/
def Aligned (parts : List Part) : Prop :=
  ∀ (i : Nat) p, parts[i]? = some p → p.blkCount % partAlign = 0

/-- The invariant of the table. -/
structure TableInvariant (limit : Nat) (parts : List Part) : Prop where
  disjoint : ∀ (i j : Nat) p q, parts[i]? = some p → parts[j]? = some q → i ≠ j →
    p.index + p.blkCount ≤ q.index ∨ q.index + q.blkCount ≤ p.index
  reserved_le : ∀ (i : Nat) p, parts[i]? = some p → reserved ≤ p.index
  aligned : ∀ (i : Nat) p, parts[i]? = some p →
    p.index % partAlign = 0 ∧ p.blkCount % partAlign = 0
  fits : ∀ (i : Nat) p, parts[i]? = some p → p.index + p.blkCount ≤ limit
  oneFill : OneFill parts

theorem totalCount_mod {parts : List Part} (h : Aligned parts) :
    totalCount parts % partAlign = 0 := by
  induction parts with
  | nil => rfl
  | cons p ps ih =>
      have hp := h 0 p rfl
      have hps := ih fun i q hq => h (i + 1) q hq
      rw [totalCount_cons, Nat.add_mod, hp, hps]
      rfl

theorem Sound.tableInvariant {limit : Nat} {parts : List Part} (h : Sound limit parts)
    (ha : Aligned parts) : TableInvariant limit parts where
  disjoint := by
    intro i j p q hp hq hij
    rcases Nat.lt_or_gt_of_ne hij with h' | h'
    · exact Or.inl (h.laid.end_le hp hq h')
    · exact Or.inr (h.laid.end_le hq hp h')
  reserved_le i p hp := (h.index_add_le hp).1
  aligned := by
    intro i p hp
    refine ⟨?_, ha i p hp⟩
    have htake : totalCount (parts.take i) % partAlign = 0 := by
      apply totalCount_mod
      intro k q hq
      rw [List.getElem?_take] at hq
      split at hq
      · exact ha k q hq
      · cases hq
    rw [h.laid.index_eq hp, Nat.add_mod, htake]
    rfl
  fits i p hp := Nat.le_trans (h.index_add_le hp).2 h.fits
  oneFill := h.oneFill

theorem Aligned.resize {parts : List Part} (h : Aligned parts) {i n : Nat}
    (hn : n % partAlign = 0) : Aligned (resize parts i n) := by
  intro k q hq
  rw [getElem?_resize] at hq
  obtain ⟨q', hq', rfl⟩ := Option.map_eq_some_iff.1 hq
  show (if i = k then n else q'.blkCount) % partAlign = 0
  split
  · exact hn
  · exact h k q' hq'

/-- Sizes left by an admissible shrink are aligned. -/
theorem shrunk_mod {p : Part} {diff : Nat} (hcount : p.blkCount % partAlign = 0)
    (h : ShrinkOk p diff) : shrunk p diff % partAlign = 0 := by
  obtain ⟨_, hmin⟩ := h
  have hmod := alignDown_mod diff
  unfold shrunk
  rw [partAlign_eq] at *
  omega

/-- A partition that has been shrunk to fit can be shrunk to fit again. -/
theorem fitOk_of_fit {p q : Part} (h : FitOk p) (hcount : p.blkCount % partAlign = 0)
    (hq : q.blkCount = fit p) (hused : q.blkUsed = p.blkUsed)
    (hmin : q.blkCountMin = p.blkCountMin) : FitOk q := by
  intro hlt
  by_cases hge : p.blkUsed ≥ p.blkCount
  · have hfit : fit p = p.blkCount := if_pos hge
    omega
  · have hfit : fit p = shrunk p (p.blkCount - p.blkUsed) := if_neg hge
    obtain ⟨hle, hclamp⟩ := h (by omega)
    unfold ShrinkOk
    rw [hmin, hused, hq, hfit]
    rw [hused, hq, hfit] at hlt
    unfold shrunk at *
    simp only [alignDown_eq, partAlign_eq] at hclamp hlt hcount ⊢
    refine ⟨Nat.le_max_right _ _, ?_⟩
    rcases hclamp with hclamp | hclamp
    · exact Or.inl hclamp
    · right
      generalize p.blkCount = c at *
      generalize p.blkUsed = u at *
      omega

namespace Disk

variable {σ : Type} {vol : Volume σ} {d : Disk σ} {i limit : Nat} {p : Part}

/-- No operation of the volume lowers its maximum size. -/
structure KeepsMax (vol : Volume σ) : Prop where
  max_lt : ∀ v, vol.getMaxBlockCount v < 2 ^ 64
  keeps : ∀ limit, vol.Keeps fun v => limit ≤ vol.getMaxBlockCount v

/-- A sound, aligned table within a limit that the volume does not fall below. -/
structure Good (vol : Volume σ) (limit : Nat) (d : Disk σ) : Prop where
  le_max : limit ≤ vol.getMaxBlockCount d.volume
  sound : Sound limit d.parts
  aligned : Aligned d.parts

theorem Good.raise (h : Good vol limit d) :
    Good vol (vol.getMaxBlockCount d.volume) d :=
  ⟨Nat.le_refl _, h.sound.mono h.le_max, h.aligned⟩

/-- Growing partition `i` by `diff` keeps the table within the volume, and the
partitions behind it can be shrunk to fit first. -/
def GrowOk (vol : Volume σ) (d : Disk σ) (i diff : Nat) : Prop :=
  (∀ k q, i < k → d.parts[k]? = some q → FitOk q) ∧
    tableEnd (fitRange (i + 1) d.parts.length d.parts) + roundUp diff ≤
      vol.getMaxBlockCount d.volume

instance (vol : Volume σ) (d : Disk σ) (i diff : Nat) : Decidable (GrowOk vol d i diff) :=
  @instDecidableAnd _ _ (decidable_of_iff _ forall_fitOk_iff) inferInstance

/-! ## Shrinking and growing -/

section

variable (hk : KeepsMax vol)

include hk

theorem Good.limit_lt (h : Good vol limit d) : limit < 2 ^ 64 :=
  Nat.lt_of_le_of_lt h.le_max (hk.max_lt _)

omit hk in
/-- Operations on the volume keep the table. -/
private theorem onVolume_good {α : Type} {m : Call σ α} (h : Good vol limit d)
    (hm : m.Keeps fun v => limit ≤ vol.getMaxBlockCount v) :
    Call.Returns (onVolume m d)
      (fun _ d' => Good vol limit d' ∧ d'.parts = d.parts) (Good vol limit) := by
  have hbase := onVolume_returns (hm d.volume h.le_max)
  refine hbase.mono ?_ ?_
  · rintro a d' ⟨hmax, hparts⟩
    exact ⟨⟨hmax, hparts ▸ h.sound, hparts ▸ h.aligned⟩, hparts⟩
  · rintro d' ⟨hmax, hparts⟩
    exact ⟨hmax, hparts ▸ h.sound, hparts ▸ h.aligned⟩

theorem shrinkPartition_good (h : Good vol limit d) (hp : d.parts[i]? = some p)
    {diff : Nat} (hok : ShrinkOk p diff) :
    Call.Returns (shrinkPartition vol i diff d)
      (fun _ d' => Good vol limit d' ∧ d'.parts = resize d.parts i (shrunk p diff))
      (Good vol limit) := by
  have hbound := h.sound.index_add_le hp
  have hfits := h.sound.fits
  have h64 := h.limit_lt hk
  obtain ⟨_, hle⟩ := clampDiff_eq diff (h.sound.large i p hp) hok.1 (by omega)
  rw [shrinkPartition_eq h.sound h64 hp hok.1]
  split
  · rename_i hsame
    rw [hsame, h.sound.resize_self hp]
    exact ⟨h, rfl⟩
  · refine (onVolume_good h ((hk.keeps limit).discardBlocks _ _)).bind ?_
    rintro _ d' ⟨h', hparts⟩
    refine ⟨⟨h'.le_max, ?_, ?_⟩, rfl⟩
    · exact h.sound.resize hp (by unfold shrunk; omega) (by omega)
    · exact h.aligned.resize (shrunk_mod (h.aligned i p hp) hok)

theorem shrinkToFit_good (h : Good vol limit d) (hp : d.parts[i]? = some p)
    (hok : FitOk p) :
    Call.Returns (shrinkToFit vol i d)
      (fun _ d' => Good vol limit d' ∧ d'.parts = resize d.parts i (fit p))
      (Good vol limit) := by
  unfold shrinkToFit
  rw [Call.bind_apply, part_apply hp, Outcome.bind_ok]
  by_cases hused : p.blkUsed ≥ p.blkCount
  · have hfit : fit p = p.blkCount := if_pos hused
    rw [if_pos hused, hfit, h.sound.resize_self hp]
    exact ⟨h, rfl⟩
  · have hfit : fit p = shrunk p (p.blkCount - p.blkUsed) := if_neg hused
    rw [if_neg hused, hfit]
    exact shrinkPartition_good hk h hp (hok (by omega))

/-- Shrinking the next slot of a range to fit. -/
private theorem shrinkToFit_range {d' : Disk σ} {lo j : Nat} {q : Part} (hlo : lo ≤ j)
    (hq : d.parts[j]? = some q) (hok : FitOk q) (h' : Good vol limit d')
    (hparts : d'.parts = fitRange lo j d.parts) :
    Call.Returns (shrinkToFit vol j d')
      (fun _ d'' => Good vol limit d'' ∧ d''.parts = fitRange lo (j + 1) d.parts)
      (Good vol limit) := by
  have hout : ¬ (lo ≤ j ∧ j < j) := by omega
  have hq' : d'.parts[j]? = some { q with
      index := reserved + totalCount ((fitRange lo j d.parts).take j) } := by
    rw [hparts, getElem?_fitRange, hq, Option.map_some, if_neg hout]
  refine (shrinkToFit_good hk h' hq' hok).mono ?_ (fun _ h => h)
  rintro _ d'' ⟨hgood, hres⟩
  refine ⟨hgood, ?_⟩
  rw [hres, hparts]
  exact resize_fitRange (q := q) hlo hq

theorem shrinkBehind_good (h : Good vol limit d) (hp : d.parts[i]? = some p)
    (hok : ∀ k q, i < k → d.parts[k]? = some q → FitOk q) :
    Call.Returns (shrinkBehind vol p.index 0 d.parts.length d)
      (fun _ d' => Good vol limit d' ∧
        d'.parts = fitRange (i + 1) d.parts.length d.parts) (Good vol limit) := by
  apply shrinkBehind_rule h.sound hp (I := fun j d' => Good vol limit d' ∧
    d'.parts = fitRange (i + 1) j d.parts)
  · rintro j d' ⟨hgood, hparts⟩
    exact ⟨hparts, hgood.sound⟩
  · exact ⟨h, (fitRange_of_le h.sound.laid (Nat.le_refl _)).symm⟩
  · rintro j d' q hij hq ⟨hgood, hparts⟩
    exact shrinkToFit_range hk hij hq (hok j q hij hq) hgood hparts

theorem growPartition_good (h : Good vol limit d) (hp : d.parts[i]? = some p) {diff : Nat}
    (hfit : ∀ k q, i < k → d.parts[k]? = some q → FitOk q)
    (hend : tableEnd (fitRange (i + 1) d.parts.length d.parts) + roundUp diff ≤ limit) :
    Call.Returns (growPartition vol i diff d)
      (fun _ d' => Good vol limit d' ∧
        d'.parts = resize (fitRange (i + 1) d.parts.length d.parts) i
          (p.blkCount + roundUp diff))
      (Good vol limit) := by
  have h64 := h.limit_lt hk
  rw [growPartition_eq hp]
  refine (shrinkBehind_good hk h hp hfit).bind ?_
  rintro _ d₁ ⟨h₁, hparts₁⟩
  have hp₁ : d₁.parts[i]? = some p := by
    rw [hparts₁, fitRange_getElem?_of_lt h.sound.laid (Nat.lt_succ_self i)]
    exact hp
  have hlarge := h.sound.large i p hp
  rw [← hparts₁] at hend ⊢
  rw [growTail_eq h₁.sound hp₁ (by omega) h64]
  refine Call.Returns.bind (R := fun _ d' => Good vol limit d' ∧ d'.parts = d₁.parts) ?_ ?_
  · refine (onVolume_good h₁ (volumeMemmove_keeps (hk.keeps limit) _ _ _)).bind ?_
    rintro _ d₂ ⟨h₂, hparts₂⟩
    rw [← hparts₂]
    exact onVolume_good h₂ (volumeWrite_keeps (hk.keeps limit) _ _ _)
  · rintro _ d₂ ⟨h₂, _⟩
    refine ⟨⟨h₂.le_max, ?_, ?_⟩, rfl⟩
    · exact h₁.sound.resize hp₁ (by omega) (by omega)
    · apply h₁.aligned.resize
      have hcount := h.aligned i p hp
      have hround := roundUp_mod diff
      rw [partAlign_eq] at *
      omega

/-! ## Operations on a partition -/

omit hk in
theorem update_good (h : Good vol limit d) {f : Part → Part}
    (hf : ∀ q, (f q).index = q.index ∧ (f q).blkCount = q.blkCount ∧
      (f q).fills = q.fills) :
    Call.Returns (update i f d) (fun _ => Good vol limit) (Good vol limit) := by
  cases hp : d.parts[i]? with
  | none =>
      have hsame : d.parts.modify i f = d.parts := by
        apply List.modify_eq_self
        exact List.getElem?_eq_none_iff.1 hp
      refine ⟨h.le_max, ?_, ?_⟩
      · show Sound limit (d.parts.modify i f)
        rw [hsame]
        exact h.sound
      · show Aligned (d.parts.modify i f)
        rw [hsame]
        exact h.aligned
  | some p =>
      obtain ⟨hindex, hcount, hfill⟩ := hf p
      refine ⟨h.le_max, h.sound.modify hp hindex hcount hfill, ?_⟩
      intro k q hq
      rw [List.getElem?_modify] at hq
      obtain ⟨q', hq', rfl⟩ := Option.map_eq_some_iff.1 hq
      have hq'' := h.aligned k q' hq'
      split
      · rw [(hf q').2.1]; exact hq''
      · exact hq''

omit hk in
private theorem onVolume_keeps {α : Type} {m : Call σ α} (h : Good vol limit d)
    (hm : m.Keeps fun v => limit ≤ vol.getMaxBlockCount v) :
    Call.Returns (onVolume m d) (fun _ => Good vol limit) (Good vol limit) :=
  (onVolume_good h hm).mono (fun _ _ h => h.1) (fun _ h => h)

/-- A partition is only grown where that is allowed. -/
private theorem grow_good (h : Good vol (vol.getMaxBlockCount d.volume) d)
    (hp : d.parts[i]? = some p) {diff : Nat} (hok : GrowOk vol d i diff) :
    Call.Returns (growPartition vol i diff d)
      (fun _ => Good vol (vol.getMaxBlockCount d.volume))
      (Good vol (vol.getMaxBlockCount d.volume)) :=
  (growPartition_good hk h hp hok.1 hok.2).mono (fun _ _ h => h.1) (fun _ h => h)

private theorem growOk_lt {diff : Nat} (hok : GrowOk vol d i diff) : diff < 2 ^ 64 := by
  have h1 := hok.2
  have h2 := hk.max_lt d.volume
  have h3 := le_roundUp diff
  omega

theorem partReadPartialBlock_good (h : Good vol limit d) (index offset size : Nat) :
    Call.Returns (partReadPartialBlock vol i index offset size d)
      (fun _ => Good vol limit) (Good vol limit) := by
  apply part_returns
  intro p _
  split
  · split
    · exact h
    · exact h
  · exact onVolume_keeps h ((hk.keeps limit).readPartialBlock _ _ _)

theorem partWritePartialBlock_good (h : Good vol (vol.getMaxBlockCount d.volume) d)
    {index : Nat} (buffer : Buffer) (offset size : Nat)
    (hok : ∀ p, d.parts[i]? = some p → p.blkCount ≤ index → p.grows = true →
      GrowOk vol d i (index - p.blkCount + 1)) :
    Call.Returns (partWritePartialBlock vol i index buffer offset size d)
      (fun _ => Good vol (vol.getMaxBlockCount d.volume))
      (Good vol (vol.getMaxBlockCount d.volume)) := by
  apply part_returns
  intro p hp
  refine Call.Returns.bind (R := fun _ => Good vol (vol.getMaxBlockCount d.volume)) ?_ ?_
  · refine Call.Returns.guard ?_ (fun _ => h)
    intro hge
    cases hgrows : p.grows with
    | false => exact h
    | true =>
        have hgrow := hok p hp hge hgrows
        rw [u64_of_lt (growOk_lt hk hgrow)]
        exact grow_good hk h hp hgrow
  · intro _ d' h'
    refine Call.Returns.bind (R := fun _ => Good vol (vol.getMaxBlockCount d.volume))
      ?_ ?_
    · exact Call.Returns.guard
        (fun _ => update_good h' fun q => ⟨rfl, rfl, rfl⟩) (fun _ => h')
    · intro _ d'' h''
      exact onVolume_keeps h'' ((hk.keeps _).writePartialBlock _ _ _ _)

theorem partDiscardBlocks_good (h : Good vol limit d) (index count : Nat) :
    Call.Returns (partDiscardBlocks vol i index count d) (fun _ => Good vol limit)
      (Good vol limit) := by
  apply part_returns
  intro p _
  split
  · exact h
  · generalize (if count > p.blkUsed - index then p.blkUsed - index else count) = n
    change Call.Returns ((if n = 0 then pure () else _ : Call (Disk σ) Unit) d) _ _
    split
    · exact h
    · refine Call.Returns.bind (R := fun _ => Good vol limit) ?_ ?_
      · exact Call.Returns.guard
          (fun _ => update_good h fun q => ⟨rfl, rfl, rfl⟩) (fun _ => h)
      · intro _ d' h'
        exact onVolume_keeps h' ((hk.keeps limit).discardBlocks _ _)

theorem partMoveBlockPartial_good (h : Good vol (vol.getMaxBlockCount d.volume) d)
    {src dst : Nat} (srcOffset dstOffset size : Nat)
    (hok : ∀ p, d.parts[i]? = some p → src < p.blkUsed → p.blkCount ≤ dst →
      p.grows = true → GrowOk vol d i (dst - p.blkCount + 1)) :
    Call.Returns (partMoveBlockPartial vol i src dst srcOffset dstOffset size d)
      (fun _ => Good vol (vol.getMaxBlockCount d.volume))
      (Good vol (vol.getMaxBlockCount d.volume)) := by
  apply part_returns
  intro p hp
  split
  · exact h
  rename_i hin
  split
  · exact h
  split
  · exact partDiscardBlocks_good hk h dst 1
  rename_i hsrc
  refine Call.Returns.bind (R := fun _ => Good vol (vol.getMaxBlockCount d.volume)) ?_ ?_
  · refine Call.Returns.guard ?_ (fun _ => h)
    intro hge
    have hgrows : p.grows = true := by
      cases hg : p.grows with
      | false => exact absurd ⟨Or.inr hge, hg⟩ hin
      | true => rfl
    have hgrow := hok p hp (by omega) hge hgrows
    rw [u64_of_lt (growOk_lt hk hgrow)]
    exact grow_good hk h hp hgrow
  · intro _ d' h'
    refine Call.Returns.bind (R := fun _ => Good vol (vol.getMaxBlockCount d.volume))
      ?_ ?_
    · exact Call.Returns.guard
        (fun _ => update_good h' fun q => ⟨rfl, rfl, rfl⟩) (fun _ => h')
    · intro _ d'' h''
      split
      · exact onVolume_keeps h'' ((hk.keeps _).moveBlock _ _)
      · exact onVolume_keeps h'' ((hk.keeps _).moveBlockPartial _ _ _ _ _)

theorem partSetBaseBlockCount_good (h : Good vol (vol.getMaxBlockCount d.volume) d)
    {size : Nat}
    (hgrow : ∀ p, d.parts[i]? = some p → p.blkCount < size →
      GrowOk vol d i (size - p.blkCount))
    (hshrink : ∀ p, d.parts[i]? = some p → p.blkUsed < size → size < p.blkCount →
      ShrinkOk p (size - p.blkUsed)) :
    Call.Returns (partSetBaseBlockCount vol i size d)
      (fun _ => Good vol (vol.getMaxBlockCount d.volume))
      (Good vol (vol.getMaxBlockCount d.volume)) := by
  apply part_returns
  intro p hp
  refine Call.Returns.bind (R := fun _ => Good vol (vol.getMaxBlockCount d.volume)) ?_
    fun _ d' h' => update_good h' fun q => ⟨rfl, rfl, rfl⟩
  split
  · rename_i hgt
    exact grow_good hk h hp (hgrow p hp hgt)
  · refine Call.Returns.guard ?_ (fun _ => h)
    rintro ⟨hlt, hused⟩
    exact (shrinkPartition_good hk h hp (hshrink p hp hused hlt)).mono
      (fun _ _ h => h.1) (fun _ h => h)

omit hk in
theorem partSetFlags_good (h : Good vol limit d) (flags : BitVec 64) :
    Call.Returns (partSetFlags i flags d) (fun _ => Good vol limit) (Good vol limit) := by
  rw [partSetFlags_eq]
  refine ⟨h.le_max, h.sound.setFlags i flags, ?_⟩
  intro k q hq
  obtain ⟨q', fl, hq', rfl⟩ := getElem?_setFlags hq
  exact h.aligned k q' hq'

omit hk in
theorem truncateCount_mod (vol : Volume σ) (size : Nat) :
    truncateCount vol size % partAlign = 0 := by
  unfold truncateCount u64
  rw [partAlign_eq]
  dsimp only
  split <;> omega

omit hk in
/-- A truncation down leaves exactly the size it aims at. -/
private theorem shrunk_truncate {count : Nat} (hcount : p.blkCount % partAlign = 0)
    (hmod : count % partAlign = 0) (hmin : p.blkCountMin < count)
    (hlt : count < p.blkCount) :
    ShrinkOk p (p.blkCount - count) ∧ shrunk p (p.blkCount - count) = count := by
  unfold ShrinkOk shrunk
  rw [alignDown_eq, partAlign_eq] at *
  omega

theorem partTruncate_good (h : Good vol (vol.getMaxBlockCount d.volume) d) {size : Nat}
    (hok : ∀ p, d.parts[i]? = some p → p.blkCountMin < truncateCount vol size →
      p.blkCount < truncateCount vol size →
      GrowOk vol d i (truncateCount vol size - p.blkCount)) :
    Call.Returns (partTruncate vol i size d)
      (fun _ => Good vol (vol.getMaxBlockCount d.volume))
      (Good vol (vol.getMaxBlockCount d.volume)) := by
  apply part_returns
  intro p hp
  have hmod := truncateCount_mod vol size
  generalize truncateCount vol size = count at *
  have hcount := h.aligned i p hp
  change Call.Returns ((if count ≤ p.blkCountMin then pure () else _ :
    Call (Disk σ) Unit) d) _ _
  split
  · exact h
  rename_i hmin
  split
  · exact h
  rename_i hne
  -- either way the partition has the new size when the last assignment sets it
  refine Call.Returns.bind (R := fun _ d' => Good vol (vol.getMaxBlockCount d.volume) d' ∧
    ∀ q, d'.parts[i]? = some q → q.blkCount = count) ?_ ?_
  · split
    · rename_i hlt
      obtain ⟨hok', hshrunk⟩ := shrunk_truncate hcount hmod (by omega) hlt
      refine (shrinkPartition_good hk h hp hok').mono ?_ (fun _ h => h)
      rintro _ d' ⟨h', hparts⟩
      refine ⟨h', ?_⟩
      intro q hq
      rw [hparts, getElem?_resize, hshrunk] at hq
      obtain ⟨q', _, rfl⟩ := Option.map_eq_some_iff.1 hq
      exact if_pos rfl
    · have hgrow := hok p hp (by omega) (by omega)
      refine (growPartition_good hk h hp hgrow.1 hgrow.2).mono ?_ (fun _ h => h)
      rintro _ d' ⟨h', hparts⟩
      refine ⟨h', ?_⟩
      intro q hq
      have hround : roundUp (count - p.blkCount) = count - p.blkCount := by
        apply roundUp_of_mod
        · rw [partAlign_eq] at *
          omega
        · omega
      rw [hparts, getElem?_resize, hround] at hq
      obtain ⟨q', _, rfl⟩ := Option.map_eq_some_iff.1 hq
      show (if i = i then p.blkCount + (count - p.blkCount) else q'.blkCount) = count
      rw [if_pos rfl]
      omega
  · rintro _ d' ⟨h', hsize⟩
    show Good vol _ { d' with parts := d'.parts.modify i _ }
    cases hq : d'.parts[i]? with
    | none =>
        rw [List.modify_eq_self (List.getElem?_eq_none_iff.1 hq)]
        exact h'
    | some q =>
        refine ⟨h'.le_max, h'.sound.modify hq rfl (hsize q hq).symm rfl, ?_⟩
        intro k r hr
        rw [List.getElem?_modify] at hr
        obtain ⟨r', hr', rfl⟩ := Option.map_eq_some_iff.1 hr
        split
        · exact hmod
        · exact h'.aligned k r' hr'

/-! ## The partition manager -/

omit hk in
private theorem clearBlocks_keeps {P : σ → Prop} (hkeeps : vol.Keeps P) (index n : Nat) :
    (clearBlocks vol index n).Keeps P := by
  induction n generalizing index with
  | zero => exact Call.Keeps.pure ()
  | succ n ih => exact Call.Keeps.bind (hkeeps.writeBlock _ _) fun _ => ih _

theorem createPartition_good (h : Good vol (vol.getMaxBlockCount d.volume) d)
    {blkCount : Nat} (flags : BitVec 64)
    (hok : d.parts.length ≠ maxPartitions →
      tableEnd d.parts + roundUp blkCount ≤ vol.getMaxBlockCount d.volume) :
    Call.Returns (createPartition vol blkCount flags d)
      (fun _ => Good vol (vol.getMaxBlockCount d.volume))
      (Good vol (vol.getMaxBlockCount d.volume)) := by
  have h64 := h.limit_lt hk
  unfold createPartition
  rw [Call.bind_apply, Call.get_apply, Outcome.bind_ok]
  split
  · exact h
  rename_i hne
  have hfit := hok hne
  rw [nextFree_eq h.sound h64, u64_of_lt (by omega)]
  refine (onVolume_good h (clearBlocks_keeps ((hk.keeps _)) _ _)).bind ?_
  rintro _ d' ⟨h', hparts⟩
  have hlarge := partAlign_le_roundUp blkCount
  rw [← hparts] at hfit ⊢
  refine ⟨h'.le_max, h'.sound.appendPart hlarge hfit flags, ?_⟩
  intro k q hq
  rcases getElem?_appendPart hq with ⟨q', fl, hq', rfl⟩ | ⟨_, rfl⟩
  · exact h'.aligned k q' hq'
  · exact roundUp_mod blkCount

/-- The loop of `mbr_disk_commit` that shrinks every partition to fit. -/
private theorem commit_shrinks (h : Good vol limit d)
    (hok : ∀ (k : Nat) q, d.parts[k]? = some q → FitOk q) :
    Call.Returns (eachPart (shrinkToFit vol) 0 d.parts.length d)
      (fun _ d' => Good vol limit d' ∧ d'.parts = fitRange 0 d.parts.length d.parts)
      (Good vol limit) := by
  refine eachPart_rule (I := fun j d' => Good vol limit d' ∧
    d'.parts = fitRange 0 j d.parts) ?_ d.parts.length 0 d (Nat.zero_add _)
    ⟨h, (fitRange_of_le h.sound.laid (Nat.le_refl 0)).symm⟩
  rintro j d' hj ⟨h', hparts⟩
  have hq : d.parts[j]? = some d.parts[j] := List.getElem?_eq_getElem hj
  exact shrinkToFit_range hk (Nat.zero_le j) hq (hok j _ hq) h' hparts

/-- The expand policy grows into free space only. -/
private theorem applyExpandPolicy_good (h : Good vol limit d)
    (hfill : ∀ p, d.parts[i]? = some p → p.fills = true →
      ∀ (k : Nat) q, d.parts[k]? = some q → FitOk q) :
    Call.Returns (applyExpandPolicy vol i d)
      (fun _ d' => (∃ limit', Good vol limit' d') ∧ ((∀ p, d.parts[i]? = some p →
        p.fills = false) → d' = d) ∧ d'.parts.map Part.flags = d.parts.map Part.flags)
      (fun d' => ∃ limit', Good vol limit' d') := by
  apply part_returns
  intro p hp
  cases hpf : p.fills with
  | false => exact ⟨⟨limit, h⟩, fun _ => rfl, rfl⟩
  | true =>
      have hnot : (!true) = false := rfl
      rw [hnot, if_neg (by decide), Call.bind_apply, Call.get_apply, Outcome.bind_ok]
      have hraise := h.raise
      have h64 := hraise.limit_lt hk
      change Call.Returns ((if p.blkCount ≥ getFreeSpace vol d then pure () else _ :
        Call (Disk σ) Unit) d) _ _
      split
      · exact ⟨⟨limit, h⟩, fun _ => rfl, rfl⟩
      rename_i hlt
      rcases getFreeSpace_spec vol hraise.sound h64 with hzero |
        ⟨free, hle, _, hmod, hend, hfree⟩
      · omega
      have htotal := totalCount_mod h.aligned
      have hcount := h.aligned i p hp
      have hdiff : (getFreeSpace vol d - p.blkCount) % partAlign = 0 := by
        rw [hfree]
        unfold tableEnd reserved at *
        rw [partAlign_eq] at *
        omega
      have hround := roundUp_of_mod hdiff (by omega)
      have hfit := hfill p hp hpf
      have hshrink := tableEnd_fitRange_le (fun k q hq =>
        fit_le (fun hused => (hfit k q hq hused).1) (h.sound.large k q hq))
        (i + 1) d.parts.length
      have hbound := h.sound.index_add_le hp
      refine (growPartition_good hk hraise hp (fun k q _ hq => hfit k q hq)
        (by rw [hround]; omega)).mono ?_ (fun _ h => ⟨_, h⟩)
      rintro _ d' ⟨h', hparts⟩
      refine ⟨⟨_, h'⟩, fun hno => ?_, ?_⟩
      · rw [hno p hp] at hpf
        cases hpf
      · rw [hparts, map_flags_resize, map_flags_fitRange]

theorem commit_good (h : Good vol limit d)
    (hok : ∀ (k : Nat) q, d.parts[k]? = some q → FitOk q) :
    Call.Returns (commit vol d) (fun _ d' => ∃ limit', Good vol limit' d')
      (fun d' => ∃ limit', Good vol limit' d') := by
  unfold commit
  rw [Call.bind_apply, Call.get_apply, Outcome.bind_ok]
  refine ((commit_shrinks hk h hok).mono (F := fun d' => ∃ limit', Good vol limit' d')
    (fun _ _ h => h) (fun _ h => ⟨_, h⟩)).bind ?_
  rintro _ d₁ ⟨h₁, hparts₁⟩
  have hok₁ : ∀ (k : Nat) q, d₁.parts[k]? = some q → FitOk q := by
    intro k q hq
    rw [hparts₁, getElem?_fitRange] at hq
    obtain ⟨q', hq', rfl⟩ := Option.map_eq_some_iff.1 hq
    have hin : 0 ≤ k ∧ k < d.parts.length :=
      ⟨Nat.zero_le k, (List.getElem?_eq_some_iff.1 hq').1⟩
    rw [if_pos hin]
    exact fitOk_of_fit (hok k q' hq') (h.aligned k q' hq') rfl rfl rfl
  have hlen : d.parts.length = d₁.parts.length := by
    rw [hparts₁, length_fitRange]
  -- one partition at most is expanded; up to there every one can be shrunk to fit
  refine Call.Returns.bind (R := fun _ d' => ∃ limit', Good vol limit' d') ?_ ?_
  · rw [hlen]
    refine (eachPart_rule (n := d₁.parts.length) (I := fun j d' =>
      (∃ limit', Good vol limit' d') ∧ (d' = d₁ ∨ ((∃ k < j, ∃ q, d'.parts[k]? = some q ∧
        q.fills = true)))) (E := fun d' => ∃ limit', Good vol limit' d') ?_
      d₁.parts.length 0 d₁ (Nat.zero_add _) ⟨⟨limit, h₁⟩, Or.inl rfl⟩).mono
      (fun _ _ h => h.1) (fun _ h => h)
    rintro j d' hj ⟨⟨limit', h'⟩, hstate⟩
    refine (applyExpandPolicy_good hk (i := j) h' ?_).mono ?_ (fun _ h => h)
    · intro p hp hpf k q hq
      rcases hstate with rfl | ⟨m, hm, r, hr, hrf⟩
      · exact hok₁ k q hq
      · have := h'.sound.oneFill j m p r hp hr hpf hrf
        omega
    · rintro _ d'' ⟨hgood, hsame, hflags⟩
      refine ⟨hgood, ?_⟩
      have hcarry : ∀ (k : Nat) q, d'.parts[k]? = some q → q.fills = true →
          ∃ r, d''.parts[k]? = some r ∧ r.fills = true := by
        intro k q hq hqf
        have hget := congrArg (fun l => l[k]?) hflags
        simp only [List.getElem?_map, hq, Option.map_some] at hget
        obtain ⟨r, hr, hrf⟩ := Option.map_eq_some_iff.1 hget
        exact ⟨r, hr, by unfold Part.fills at *; rw [hrf]; exact hqf⟩
      rcases hstate with rfl | ⟨m, hm, r, hr, hrf⟩
      · by_cases hany : ∀ p, d'.parts[j]? = some p → p.fills = false
        · exact Or.inl (hsame hany)
        · right
          simp only [not_forall] at hany
          obtain ⟨p, hp, hpf⟩ := hany
          obtain ⟨r, hr, hrf⟩ := hcarry j p hp (by simpa using hpf)
          exact ⟨j, Nat.lt_succ_self j, r, hr, hrf⟩
      · right
        obtain ⟨r', hr', hrf'⟩ := hcarry m r hr hrf
        exact ⟨m, by omega, r', hr', hrf'⟩
  · rintro _ d₂ ⟨limit', h₂⟩
    rw [Call.bind_apply, Call.get_apply, Outcome.bind_ok]
    refine Call.Returns.bind (R := fun _ d' => ∃ limit', Good vol limit' d') ?_ ?_
    · exact (onVolume_keeps h₂ ((hk.keeps limit').writeBlock _ _)).mono
        (fun _ _ h => ⟨_, h⟩) (fun _ h => ⟨_, h⟩)
    · rintro _ d₃ ⟨limit'', h₃⟩
      exact (onVolume_keeps h₃ (hk.keeps limit'').commit).mono
        (fun _ _ h => ⟨_, h⟩) (fun _ h => ⟨_, h⟩)

end

/-! ## Runs -/

/-- The block a write or a move aims at, where it is carried out at all. -/
def target (used : Nat) : BlockOp → Option Nat
  | .write index _ => some index
  | .writePartial index _ _ _ => some index
  | .move src dst => if src < used then some dst else none
  | .movePartial src dst _ _ _ => if src < used then some dst else none
  | _ => none

/-- The condition on an operation and the state it finds: what is created or grown
ends within the volume, and partitions are not shrunk into a minimum size that is
not aligned or above their size. -/
def Admissible (vol : Volume σ) (d : Disk σ) : DiskOp → Prop
  | .create blkCount _ => d.parts.length ≠ maxPartitions →
      tableEnd d.parts + roundUp blkCount ≤ vol.getMaxBlockCount d.volume
  | .block i op => ∀ p, d.parts[i]? = some p → ∀ index, target p.blkUsed op = some index →
      p.blkCount ≤ index → p.grows = true → GrowOk vol d i (index - p.blkCount + 1)
  | .truncate i size => ∀ p, d.parts[i]? = some p →
      p.blkCountMin < truncateCount vol size → p.blkCount < truncateCount vol size →
      GrowOk vol d i (truncateCount vol size - p.blkCount)
  | .setBaseBlockCount i size => ∀ p, d.parts[i]? = some p →
      (p.blkCount < size → GrowOk vol d i (size - p.blkCount)) ∧
      (p.blkUsed < size → size < p.blkCount → ShrinkOk p (size - p.blkUsed))
  | .setFlags _ _ => True
  | .commit => ∀ (i : Nat) p, d.parts[i]? = some p → FitOk p

instance (vol : Volume σ) (d : Disk σ) (op : DiskOp) : Decidable (Admissible vol d op) :=
  match op with
  | .create _ _ => inferInstanceAs (Decidable (_ → _))
  | .block i op => decidable_of_iff (∀ p ∈ d.parts[i]?, ∀ index ∈ target p.blkUsed op,
      p.blkCount ≤ index → p.grows = true → GrowOk vol d i (index - p.blkCount + 1)) Iff.rfl
  | .truncate i size => decidable_of_iff (∀ p ∈ d.parts[i]?,
      p.blkCountMin < truncateCount vol size → p.blkCount < truncateCount vol size →
      GrowOk vol d i (truncateCount vol size - p.blkCount)) Iff.rfl
  | .setBaseBlockCount i size => decidable_of_iff (∀ p ∈ d.parts[i]?,
      (p.blkCount < size → GrowOk vol d i (size - p.blkCount)) ∧
      (p.blkUsed < size → size < p.blkCount → ShrinkOk p (size - p.blkUsed))) Iff.rfl
  | .setFlags _ _ => isTrue trivial
  | .commit => decidable_of_iff _ forall_mem_fitOk_iff

/-- An admissible operation on one partition keeps the table good. -/
private theorem block_good (hk : KeepsMax vol)
    (h : Good vol (vol.getMaxBlockCount d.volume) d) {op : BlockOp}
    (hok : Admissible vol d (.block i op)) :
    Call.Returns ((DiskOp.block i op).run vol d)
      (fun _ => Good vol (vol.getMaxBlockCount d.volume))
      (Good vol (vol.getMaxBlockCount d.volume)) := by
  cases op with
  | read index => exact partReadPartialBlock_good hk h _ _ _
  | readPartial index offset size => exact partReadPartialBlock_good hk h _ _ _
  | write index buffer =>
      exact Call.Returns.bind_pure (partWritePartialBlock_good hk h buffer _ _
        fun p hp => hok p hp index rfl)
  | writePartial index buffer offset size =>
      exact Call.Returns.bind_pure (partWritePartialBlock_good hk h buffer _ _
        fun p hp => hok p hp index rfl)
  | move src dst =>
      exact Call.Returns.bind_pure (partMoveBlockPartial_good hk h _ _ _
        fun p hp hsrc => hok p hp dst (if_pos hsrc))
  | movePartial src dst a b n =>
      exact Call.Returns.bind_pure (partMoveBlockPartial_good hk h _ _ _
        fun p hp hsrc => hok p hp dst (if_pos hsrc))
  | discard index count => exact Call.Returns.bind_pure (partDiscardBlocks_good hk h _ _)
  | commit => exact h

/-- An admissible operation keeps the table good. -/
theorem run_good (hk : KeepsMax vol) (h : Good vol limit d) {op : DiskOp}
    (hok : Admissible vol d op) {d' : Disk σ} (hrun : (op.run vol d).state? = some d') :
    ∃ limit', Good vol limit' d' := by
  have hraise := h.raise
  cases op with
  | create blkCount flags =>
      exact ⟨_, (Call.Returns.bind_pure (createPartition_good hk hraise flags hok)).state hrun⟩
  | block i op => exact ⟨_, (block_good hk hraise hok).state hrun⟩
  | truncate i size =>
      exact ⟨_, (Call.Returns.bind_pure (partTruncate_good hk hraise hok)).state hrun⟩
  | setBaseBlockCount i size =>
      exact ⟨_, (Call.Returns.bind_pure (partSetBaseBlockCount_good hk hraise
        (fun p hp => (hok p hp).1) (fun p hp => (hok p hp).2))).state hrun⟩
  | setFlags i flags => exact ⟨_, (Call.Returns.bind_pure (partSetFlags_good h flags)).state hrun⟩
  | commit => exact (Call.Returns.bind_pure (commit_good hk h hok)).state hrun

/-- Without partitions there is nothing for an operation to work on. -/
theorem run_nil {op : DiskOp} (hd : d.parts = [])
    (hop : ∀ n flags, op ≠ .create n flags) {d' : Disk σ}
    (hrun : (op.run vol d).state? = some d') : d'.parts = [] := by
  have hnone : ∀ {α : Type} (i : Nat) (f : Part → Call (Disk σ) α),
      (part i >>= f) d = .stuck := by
    intro α i f
    rw [Call.bind_apply, show part i d = .stuck by simp [part, hd]]
    rfl
  cases op with
  | create n flags => exact absurd rfl (hop n flags)
  | block i op =>
      have hstuck : ∀ op : BlockOp, op ≠ .commit →
          op.run (partition vol i) d = .stuck := by
        intro op hne
        cases op with
        | commit => exact absurd rfl hne
        | read | readPartial => exact hnone i _
        | write | writePartial | move | movePartial | discard =>
            exact congrArg (fun o => Outcome.bind o _) (hnone i _)
      by_cases hop' : op = .commit
      · subst hop'
        cases hrun
        exact hd
      · rw [DiskOp.run, hstuck op hop'] at hrun
        cases hrun
  | truncate i size =>
      have hstuck : (DiskOp.truncate i size).run vol d = .stuck :=
        congrArg (fun o => Outcome.bind o _) (hnone i _)
      rw [hstuck] at hrun
      cases hrun
  | setBaseBlockCount i size =>
      have hstuck : (DiskOp.setBaseBlockCount i size).run vol d = .stuck :=
        congrArg (fun o => Outcome.bind o _) (hnone i _)
      rw [hstuck] at hrun
      cases hrun
  | setFlags i flags =>
      have hkeep : Call.Returns (partSetFlags i flags d) (fun _ d' => d'.parts = [])
          (fun d' => d'.parts = []) := by
        refine Call.Returns.bind (R := fun _ d' => d'.parts = []) ?_ ?_
        · exact Call.Returns.guard (fun _ => by simp [hd]) (fun _ => hd)
        · intro _ d' hd'
          simp [update, hd']
      exact (Call.Returns.bind_pure hkeep).state hrun
  | commit =>
      have honv : ∀ {m : Call σ Unit} {d' : Disk σ}, d'.parts = [] →
          Call.Returns (onVolume m d') (fun _ d'' => d''.parts = [])
            (fun d'' => d''.parts = []) := by
        intro m d' hd'
        have htrue : Call.Returns (m d'.volume) (fun _ _ => True) (fun _ => True) := by
          cases m d'.volume <;> trivial
        exact (onVolume_returns htrue).mono (fun _ _ h => h.2.trans hd')
          (fun _ h => h.2.trans hd')
      have hkeep : Call.Returns (commit vol d) (fun _ d' => d'.parts = [])
          (fun d' => d'.parts = []) := by
        unfold commit
        rw [Call.bind_apply, Call.get_apply, Outcome.bind_ok, hd]
        exact (honv hd).bind fun _ d' hd' => honv hd'
      exact (Call.Returns.bind_pure hkeep).state hrun

/-- In every state that admissible operations lead to, the table is in order. -/
theorem run_tableInvariant (hk : KeepsMax vol) (v : σ) {d : Disk σ}
    (hrun : Run (fun op d => (DiskOp.run vol op d).state?) (Admissible vol) (create v) d) :
    TableInvariant (vol.getMaxBlockCount d.volume) d.parts := by
  have hinv : d.parts = [] ∨ ∃ limit, Good vol limit d := by
    refine hrun.invariant (I := fun d => d.parts = [] ∨ ∃ limit, Good vol limit d)
      (Or.inl rfl) ?_
    rintro d op d' (hd | ⟨limit, h⟩) hok hstep
    · by_cases hop : ∀ n flags, op ≠ .create n flags
      · exact Or.inl (run_nil hd hop hstep)
      · simp only [ne_eq, not_forall, not_not] at hop
        obtain ⟨n, flags, rfl⟩ := hop
        right
        have hfit := hok (by rw [hd]; decide)
        have hempty : Sound (vol.getMaxBlockCount d.volume) d.parts := by
          rw [hd] at hfit ⊢
          exact sound_nil (by simp only [tableEnd, totalCount_nil] at hfit; omega)
        have haligned : Aligned d.parts := by
          intro k q hq
          rw [hd] at hq
          simp at hq
        exact run_good hk ⟨Nat.le_refl _, hempty, haligned⟩ hok hstep
    · exact Or.inr (run_good hk h hok hstep)
  rcases hinv with hd | ⟨limit, h⟩
  · have hnone : ∀ (i : Nat) (p : Part), ¬ d.parts[i]? = some p := by
      intro i p hp
      rw [hd] at hp
      simp at hp
    exact ⟨fun i _ p _ hp => absurd hp (hnone i p), fun i p hp => absurd hp (hnone i p),
      fun i p hp => absurd hp (hnone i p), fun i p hp => absurd hp (hnone i p),
      fun i _ p _ hp => absurd hp (hnone i p)⟩
  · exact h.raise.sound.tableInvariant h.aligned

theorem idealVolume_keepsMax {bs count : Nat} (h : count < 2 ^ 64) :
    KeepsMax (idealVolume bs count) where
  max_lt _ := h
  keeps limit := by
    -- the maximum does not depend on the state at all
    have hconst : ∀ {α : Type} (m : Call Bytes α), m.Keeps fun v =>
        limit ≤ (idealVolume bs count).getMaxBlockCount v := by
      intro α m v hv
      cases m v with
      | ok a w => exact hv
      | fail w => exact hv
      | stuck => trivial
    exact ⟨fun _ => hconst _, fun _ _ _ => hconst _, fun _ _ => hconst _,
      fun _ _ _ _ => hconst _, fun _ _ => hconst _, fun _ _ _ _ _ => hconst _,
      fun _ _ => hconst _, hconst _⟩

/-- Two partitions; the base size of the first one moves the second one, which has contents and
takes the free space on commit. -/
def twoParts : List DiskOp :=
  [.create 2048 flagGrow, .create 2048 flagFill, .block 1 (.writePartial 0 (some [1]) 0 1),
    .setBaseBlockCount 0 4096, .commit]

theorem run_tableInvariant_twoParts :
    ∃ d, (runAll (DiskOp.run (idealVolume 512 12288)) twoParts (create fun _ => 0)).2 = some d ∧
      d.parts.map (fun p => (p.index, p.blkCount)) = [(2048, 4096), (6144, 4096)] ∧
      TableInvariant 12288 d.parts := by
  have hparts : (runAll (DiskOp.run (idealVolume 512 12288)) twoParts (create fun _ => 0)).2.map
      (fun d => d.parts.map fun p => (p.index, p.blkCount)) =
      some [(2048, 4096), (6144, 4096)] := by decide +kernel
  have hall : Along (DiskOp.run (idealVolume 512 12288)) (Admissible (idealVolume 512 12288))
      twoParts (create fun _ => 0) := by decide +kernel
  obtain ⟨d, hd, hparts⟩ := Option.map_eq_some_iff.1 hparts
  exact ⟨d, hd, hparts, run_tableInvariant (idealVolume_keepsMax (by decide)) (fun _ => 0)
    (hall.run hd)⟩
/-- A minimum of 3000 sectors is accepted as it is, and shrinking to fit on commit
leaves the partition with exactly that size. -/
theorem commit_shrinks_to_minimum :
    ∃ d, (runAll (DiskOp.run (idealVolume 512 8192))
        [.create 4096 0, .setBaseBlockCount 0 3000, .commit] (create fun _ => 0)).2 =
      some d ∧ ¬ TableInvariant 8192 d.parts := by
  have hcounts : (runAll (DiskOp.run (idealVolume 512 8192))
      [.create 4096 0, .setBaseBlockCount 0 3000, .commit]
      (create fun _ => 0)).2.map (fun d => d.parts.map Part.blkCount) =
      some [3000] := by decide +kernel
  obtain ⟨d, hd, hparts⟩ := Option.map_eq_some_iff.1 hcounts
  refine ⟨d, hd, ?_⟩
  intro hinv
  have hget := congrArg (fun l => l[0]?) hparts
  rw [List.getElem?_map] at hget
  obtain ⟨p, hp, hcount⟩ := Option.map_eq_some_iff.1 hget
  have haligned := (hinv.aligned 0 p hp).2
  rw [hcount] at haligned
  exact absurd haligned (by decide)

end Disk

end ImageTool.Mbr
