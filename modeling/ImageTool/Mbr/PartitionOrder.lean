import ImageTool.Image.SizeContract
import ImageTool.Mbr.Fill

/-!
# The block counts of partitions

The counts of a partition are those of its table entry, and its maximum adds the free space
of the disk.  Shrinking stops at the minimum and growing only adds, so the minimum stays
below the size with one exception: `part_set_base_block_count` shrinks a partition by what
the new size is above the *used* blocks, and not by what the partition has above the new
size.  `GrowFits` keeps the sums within 64 bits.
-/

namespace ImageTool.Mbr

open ImageTool.Lib ImageTool.Image

/-- The minimum is not above the size, and the free space can be added to it. -/
structure Part.Ordered (p : Part) : Prop where
  min_le : p.blkCountMin ≤ p.blkCount
  bounded : p.blkCount + maxLba < 2 ^ 64

/-- The size a partition grows to leaves room for the free space within 64 bits. -/
def GrowFits (p : Part) (diff : Nat) : Prop := p.blkCount + roundUp diff + maxLba < 2 ^ 64

instance (p : Part) (diff : Nat) : Decidable (GrowFits p diff) := inferInstanceAs (Decidable (_ < _))

theorem Part.Ordered.inWord {p : Part} (h : p.Ordered) : p.InWord := by
  have hmin := h.min_le
  have hbound := h.bounded
  exact ⟨by omega, by omega⟩

/-- The order does not depend on where a partition lies. -/
theorem Part.Ordered.of_core {p q : Part} (h : p.Ordered) (hcore : q.core = p.core) :
    q.Ordered := by
  have hmin : q.core.blkCountMin = p.core.blkCountMin := by rw [hcore]
  have hcount : q.core.blkCount = p.core.blkCount := by rw [hcore]
  have hmin' : q.blkCountMin = p.blkCountMin := hmin
  have hcount' : q.blkCount = p.blkCount := hcount
  refine ⟨?_, ?_⟩
  · rw [hmin', hcount']
    exact h.min_le
  · rw [hcount']
    exact h.bounded

/-- What a partition is shrunk to is within its limits. -/
theorem Part.Ordered.shrunk {p : Part} (h : p.Ordered) (diff : Nat) :
    ({ p with blkCount := shrunk p diff } : Part).Ordered := by
  have hmin := h.min_le
  have hbound := h.bounded
  have halign : partAlign + maxLba < 2 ^ 64 := by decide
  unfold Mbr.shrunk
  constructor
  · show p.blkCountMin ≤ max (max (p.blkCount - alignDown diff) partAlign) p.blkCountMin
    omega
  · show max (max (p.blkCount - alignDown diff) partAlign) p.blkCountMin + maxLba < 2 ^ 64
    omega

theorem Part.Ordered.grown {p : Part} (h : p.Ordered) {diff : Nat} (hfits : GrowFits p diff) :
    ({ p with blkCount := p.blkCount + roundUp diff } : Part).Ordered :=
  ⟨Nat.le_trans h.min_le (Nat.le_add_right _ _), hfits⟩

namespace Disk

variable {σ : Type} {vol : Volume σ} {d : Disk σ} {i : Nat} {p : Part}

/-- All partitions are in order. -/
def AllOrdered (d : Disk σ) : Prop := ∀ (k : Nat) q, d.parts[k]? = some q → q.Ordered

/-- Partition `i` has the entry `p`, and all partitions are in order. -/
def OrderedAt (i : Nat) (p : Part) (d : Disk σ) : Prop :=
  d.AllOrdered ∧ d.parts[i]? = some p

/-- A table in which the other partitions have at most moved. -/
private theorem orderedAt_of_parts {parts : List Part} {f : Part → Part}
    (h : ∀ (k : Nat) q, parts[k]? = some q → q.Ordered) (hp : parts[i]? = some p)
    (hcore : ∀ q, (f q).core = q.core) (hsame : f p = p) {g : Part → Part}
    (hg : (g p).Ordered) {v : σ} :
    OrderedAt i (g p) (⟨v, (parts.map f).modify i g⟩ : Disk σ) := by
  constructor
  · intro k q hq
    rw [List.getElem?_modify, List.getElem?_map] at hq
    obtain ⟨r, hr, rfl⟩ := Option.map_eq_some_iff.1 hq
    obtain ⟨r', hr', rfl⟩ := Option.map_eq_some_iff.1 hr
    by_cases hik : i = k
    · subst hik
      rw [hp] at hr'
      cases hr'
      rw [if_pos rfl, hsame]
      exact hg
    · rw [if_neg hik]
      exact (h k r' hr').of_core (hcore r')
  · show ((parts.map f).modify i g)[i]? = some (g p)
    rw [List.getElem?_modify, List.getElem?_map, hp]
    simp [hsame]

/-- Calls on the volume leave the table alone. -/
private theorem onVolume_ordered {α : Type} {c : Call σ α} {P : Disk σ → Prop}
    (hP : ∀ t : Disk σ, t.parts = d.parts → P t) :
    Call.Returns (onVolume c d) (fun _ => P) P := by
  have htrue : Call.Returns (c d.volume) (fun _ _ => True) fun _ => True := by
    cases c d.volume with
    | ok a v => trivial
    | fail v => trivial
    | stuck => trivial
  exact (onVolume_returns htrue).mono (fun _ t ht => hP t ht.2) fun t ht => hP t ht.2

private theorem AllOrdered.of_parts (h : d.AllOrdered) {t : Disk σ} (ht : t.parts = d.parts) :
    t.AllOrdered := fun k q hq => h k q (ht ▸ hq)

private theorem OrderedAt.of_parts (h : d.OrderedAt i p) {t : Disk σ}
    (ht : t.parts = d.parts) : t.OrderedAt i p := ⟨h.1.of_parts ht, ht ▸ h.2⟩

/-! ## Shrinking and growing -/

theorem shrinkPartition_parts (hp : d.parts[i]? = some p) (hw : p.InWord) (diff : Nat) :
    Call.Returns (shrinkPartition vol i diff d)
      (fun _ t => ∃ f : Part → Part, (∀ q, (f q).core = q.core) ∧
        (∀ q, q.index ≤ p.index → f q = q) ∧
        t.parts = (d.parts.map f).modify i fun q => { q with blkCount := shrunk p diff })
      (fun t => t.parts = d.parts) := by
  have hsub := sub64_clampDiff hw diff
  unfold shrinkPartition
  rw [Call.bind_apply, part_apply hp, Outcome.bind_ok]
  dsimp only
  generalize clampDiff p diff = n at hsub
  by_cases hzero : n = 0
  · rw [if_pos hzero]
    rw [hzero, sub64_of_le (Nat.zero_le _) hw.count_lt, Nat.sub_zero] at hsub
    refine ⟨id, fun _ => rfl, fun _ _ => rfl, ?_⟩
    rw [List.map_id, modify_eq_self hp (by rw [← hsub])]
  · rw [if_neg hzero, Call.bind_apply, Call.get_apply, Outcome.bind_ok, Call.bind_apply]
    refine Call.Returns.bind (onVolume_ordered (P := fun t => t.parts = d.parts)
      fun _ ht => ht) ?_
    intro _ t ht
    refine ⟨shiftDown p.index n, shiftDown_core _ _, fun q hq => if_neg (by omega), ?_⟩
    show (t.parts.map (shiftDown p.index n)).modify i _ = _
    rw [ht]
    apply modify_congr (p := p)
    · rw [List.getElem?_map, hp, Option.map_some, shiftDown, if_neg (Nat.lt_irrefl _)]
    · rw [hsub]

theorem shrinkPartition_ordered (h : d.OrderedAt i p) (diff : Nat) :
    Call.Returns (shrinkPartition vol i diff d)
      (fun _ => OrderedAt i { p with blkCount := shrunk p diff }) AllOrdered := by
  have hpart := h.1 i p h.2
  apply (shrinkPartition_parts h.2 hpart.inWord diff).mono
  · rintro _ ⟨v, parts⟩ ⟨f, hcore, hsame, rfl⟩
    exact orderedAt_of_parts h.1 h.2 hcore (hsame p (Nat.le_refl _)) (hpart.shrunk diff)
  · intro t ht
    exact h.1.of_parts ht

/-- Shrinking another partition that lies behind leaves the entry as it is. -/
theorem shrinkPartition_other (h : d.OrderedAt i p) {j : Nat} {q : Part}
    (hq : d.parts[j]? = some q) (hlt : p.index < q.index) (diff : Nat) :
    Call.Returns (shrinkPartition vol j diff d) (fun _ => OrderedAt i p) AllOrdered := by
  have hne : j ≠ i := by
    rintro rfl
    have hentry := h.2
    rw [hq] at hentry
    cases hentry
    omega
  have hpart := h.1 j q hq
  apply (shrinkPartition_parts hq hpart.inWord diff).mono
  · rintro _ ⟨v, parts⟩ ⟨f, hcore, hsame, rfl⟩
    refine ⟨(orderedAt_of_parts h.1 hq hcore (hsame q (Nat.le_refl _)) (hpart.shrunk diff)).1,
      ?_⟩
    show ((d.parts.map f).modify j _)[i]? = some p
    rw [List.getElem?_modify, List.getElem?_map, h.2]
    simp [hne, hsame p (Nat.le_of_lt hlt)]
  · intro t ht
    exact h.1.of_parts ht

theorem shrinkToFit_ordered (h : d.AllOrdered) (j : Nat) :
    Call.Returns (shrinkToFit vol j d) (fun _ => AllOrdered) AllOrdered := by
  apply part_returns
  intro q hq
  split
  · exact h
  · exact (shrinkPartition_ordered ⟨h, hq⟩ _).mono (fun _ _ ht => ht.1) fun _ ht => ht

/-- The loop of `grow_partition` leaves the entry of the partition that grows alone. -/
theorem shrinkBehind_ordered (h : d.OrderedAt i p) (j n : Nat) :
    Call.Returns (shrinkBehind vol p.index j n d) (fun _ => OrderedAt i p) AllOrdered := by
  induction n generalizing j d with
  | zero => exact h
  | succ n ih =>
      unfold shrinkBehind
      apply part_returns
      intro q hq
      refine Call.Returns.bind (R := fun _ => OrderedAt i p)
        (Call.Returns.guard ?_ fun _ => h) fun _ t ht => ih ht (j + 1)
      intro hbehind
      apply part_returns
      intro q' hq'
      rw [hq] at hq'
      cases hq'
      split
      · exact h
      · exact shrinkPartition_other h hq hbehind _

theorem growPartition_ordered (h : d.OrderedAt i p) {diff : Nat} (hfits : GrowFits p diff) :
    Call.Returns (growPartition vol i diff d)
      (fun _ => OrderedAt i { p with blkCount := p.blkCount + roundUp diff }) AllOrdered := by
  have hpart := h.1 i p h.2
  unfold growPartition
  apply part_returns
  intro q hq
  rw [h.2] at hq
  cases hq
  rw [Call.bind_apply, Call.get_apply, Outcome.bind_ok]
  refine Call.Returns.bind (shrinkBehind_ordered h 0 d.parts.length) fun _ d₁ h₁ => ?_
  rw [Call.bind_apply, Call.get_apply, Outcome.bind_ok]
  refine Call.Returns.bind (R := fun _ => OrderedAt i p) ((onVolume_ordered
    (P := OrderedAt i p) fun _ ht => h₁.of_parts ht).mono (fun _ _ ht => ht)
    fun _ ht => ht.1) fun _ d₂ h₂ => ?_
  refine Call.Returns.bind (R := fun _ => OrderedAt i p) ((onVolume_ordered
    (P := OrderedAt i p) fun _ ht => h₂.of_parts ht).mono (fun _ _ ht => ht)
    fun _ ht => ht.1) fun _ d₃ h₃ => ?_
  have hfits' := hfits
  unfold GrowFits at hfits'
  have hround : u64 (roundUp diff) = roundUp diff := u64_of_lt (by omega)
  have hcount : u64 (p.blkCount + u64 (roundUp diff)) = p.blkCount + roundUp diff := by
    rw [hround, u64_of_lt (by omega)]
  show OrderedAt i { p with blkCount := p.blkCount + roundUp diff }
    ⟨d₃.volume, (d₃.parts.map (shiftUp p.index (u64 (roundUp diff)))).modify i
      fun q => { q with blkCount := u64 (q.blkCount + u64 (roundUp diff)) }⟩
  have hset := orderedAt_of_parts (v := d₃.volume) h₃.1 h₃.2
    (shiftUp_core p.index (u64 (roundUp diff))) (if_neg (Nat.lt_irrefl _))
    (g := fun q => { q with blkCount := u64 (q.blkCount + u64 (roundUp diff)) })
    (by
      show ({ p with blkCount := u64 (p.blkCount + u64 (roundUp diff)) } : Part).Ordered
      rw [hcount]
      exact hpart.grown hfits)
  rwa [hcount] at hset

/-! ## Operations on a partition -/

/-- Changing an entry to one that is in order. -/
private theorem update_ordered (h : d.OrderedAt i p) {f : Part → Part} (hf : (f p).Ordered) :
    Call.Returns (update i f d) (fun _ => AllOrdered) AllOrdered := by
  have hset := orderedAt_of_parts (v := d.volume) (f := id) h.1 h.2 (fun _ => rfl) rfl hf
  rw [List.map_id] at hset
  exact hset.1

/-- The used blocks do not count. -/
private theorem updateUsed_ordered (h : d.AllOrdered) {f : Part → Nat} :
    Call.Returns (update i (fun q => { q with blkUsed := f q }) d) (fun _ => AllOrdered)
      AllOrdered := by
  intro k q hq
  rw [List.getElem?_modify] at hq
  obtain ⟨r, hr, rfl⟩ := Option.map_eq_some_iff.1 hq
  have hord := h k r hr
  split
  · exact ⟨hord.min_le, hord.bounded⟩
  · exact hord

private theorem onVolume_allOrdered {α : Type} {c : Call σ α} (h : d.AllOrdered) :
    Call.Returns (onVolume c d) (fun _ => AllOrdered) AllOrdered :=
  onVolume_ordered fun _ ht => h.of_parts ht

theorem partReadPartialBlock_ordered (h : d.AllOrdered) (index offset size : Nat) :
    Call.Returns (partReadPartialBlock vol i index offset size d) (fun _ => AllOrdered)
      AllOrdered := by
  apply part_returns
  intro p _
  split
  · split
    · exact h
    · exact h
  · exact onVolume_allOrdered h

theorem partWritePartialBlock_ordered (h : d.AllOrdered) {index : Nat} (buffer : Buffer)
    (offset size : Nat) (hok : ∀ p, d.parts[i]? = some p → p.blkCount ≤ index →
      p.grows = true → GrowFits p (u64 (index - p.blkCount + 1))) :
    Call.Returns (partWritePartialBlock vol i index buffer offset size d)
      (fun _ => AllOrdered) AllOrdered := by
  apply part_returns
  intro p hp
  refine Call.Returns.bind (R := fun _ => AllOrdered) ?_ fun _ t ht => ?_
  · refine Call.Returns.guard ?_ fun _ => h
    intro hge
    cases hgrows : p.grows with
    | false => exact h
    | true =>
        exact (growPartition_ordered ⟨h, hp⟩ (hok p hp hge hgrows)).mono
          (fun _ _ ht => ht.1) fun _ ht => ht
  · refine Call.Returns.bind (R := fun _ => AllOrdered) ?_ fun _ u hu => onVolume_allOrdered hu
    exact Call.Returns.guard (fun _ => updateUsed_ordered ht) fun _ => ht

theorem partDiscardBlocks_ordered (h : d.AllOrdered) (index count : Nat) :
    Call.Returns (partDiscardBlocks vol i index count d) (fun _ => AllOrdered) AllOrdered := by
  apply part_returns
  intro p _
  split
  · exact h
  · generalize (if count > p.blkUsed - index then p.blkUsed - index else count) = n
    change Call.Returns ((if n = 0 then pure () else _ : Call (Disk σ) Unit) d) _ _
    split
    · exact h
    · refine Call.Returns.bind (R := fun _ => AllOrdered) ?_ fun _ t ht =>
        onVolume_allOrdered ht
      exact Call.Returns.guard (fun _ => updateUsed_ordered h) fun _ => h

theorem partMoveBlockPartial_ordered (h : d.AllOrdered) {src dst : Nat}
    (srcOffset dstOffset size : Nat)
    (hok : ∀ p, d.parts[i]? = some p → src < p.blkUsed → p.blkCount ≤ dst →
      p.grows = true → GrowFits p (u64 (dst - p.blkCount + 1))) :
    Call.Returns (partMoveBlockPartial vol i src dst srcOffset dstOffset size d)
      (fun _ => AllOrdered) AllOrdered := by
  apply part_returns
  intro p hp
  split
  · exact h
  rename_i hin
  split
  · exact h
  split
  · exact partDiscardBlocks_ordered h dst 1
  rename_i hsrc
  refine Call.Returns.bind (R := fun _ => AllOrdered) ?_ fun _ t ht => ?_
  · refine Call.Returns.guard ?_ fun _ => h
    intro hge
    have hgrows : p.grows = true := by
      cases hg : p.grows with
      | false => exact absurd ⟨Or.inr hge, hg⟩ hin
      | true => rfl
    exact (growPartition_ordered ⟨h, hp⟩ (hok p hp (by omega) hge hgrows)).mono
      (fun _ _ ht => ht.1) fun _ ht => ht
  · refine Call.Returns.bind (R := fun _ => AllOrdered)
      (Call.Returns.guard (fun _ => updateUsed_ordered ht) fun _ => ht) fun _ u hu => ?_
    split
    · exact onVolume_allOrdered hu
    · exact onVolume_allOrdered hu

theorem partSetBaseBlockCount_ordered (h : d.AllOrdered) {size : Nat}
    (hgrow : ∀ p, d.parts[i]? = some p → p.blkCount < size → GrowFits p (size - p.blkCount))
    (hshrink : ∀ p, d.parts[i]? = some p → p.blkUsed < size → size < p.blkCount →
      size ≤ shrunk p (size - p.blkUsed)) :
    Call.Returns (partSetBaseBlockCount vol i size d) (fun _ => AllOrdered) AllOrdered := by
  apply part_returns
  intro p hp
  -- whichever way the partition is resized, the new minimum is not above its size
  refine Call.Returns.bind (R := fun _ t => ∃ q, t.OrderedAt i q ∧ size ≤ q.blkCount) ?_ ?_
  · split
    · rename_i hgt
      refine (growPartition_ordered ⟨h, hp⟩ (hgrow p hp hgt)).mono ?_ fun _ ht => ht
      intro _ t ht
      have hround := le_roundUp (size - p.blkCount)
      exact ⟨_, ht, show size ≤ p.blkCount + roundUp (size - p.blkCount) by omega⟩
    · rename_i hle
      refine Call.Returns.guard ?_ fun _ => ⟨p, ⟨h, hp⟩, Nat.le_of_not_lt hle⟩
      rintro ⟨hlt, hused⟩
      refine (shrinkPartition_ordered ⟨h, hp⟩ _).mono ?_ fun _ ht => ht
      intro _ t ht
      exact ⟨_, ht, hshrink p hp hused hlt⟩
  · rintro _ t ⟨q, ht, hsize⟩
    exact update_ordered ht ⟨hsize, (ht.1 i q ht.2).bounded⟩

theorem partTruncate_ordered (h : d.AllOrdered) {size : Nat}
    (hok : ∀ p, d.parts[i]? = some p → p.blkCountMin < truncateCount vol size →
      p.blkCount < truncateCount vol size →
      GrowFits p (truncateCount vol size - p.blkCount)) :
    Call.Returns (partTruncate vol i size d) (fun _ => AllOrdered) AllOrdered := by
  apply part_returns
  intro p hp
  generalize truncateCount vol size = count at *
  change Call.Returns ((if count ≤ p.blkCountMin then pure () else _ :
    Call (Disk σ) Unit) d) _ _
  have hbound := (h i p hp).bounded
  split
  · exact h
  rename_i hmin
  split
  · exact h
  refine Call.Returns.bind (R := fun _ t => ∃ q, t.OrderedAt i q ∧ q.blkCountMin ≤ count ∧
    count + maxLba < 2 ^ 64) ?_ ?_
  · split
    · refine (shrinkPartition_ordered ⟨h, hp⟩ _).mono ?_ fun _ ht => ht
      intro _ t ht
      exact ⟨_, ht, Nat.le_of_not_le hmin, by omega⟩
    · have hgrow := hok p hp (by omega) (by omega)
      have hround := le_roundUp (count - p.blkCount)
      unfold GrowFits at hgrow
      refine (growPartition_ordered ⟨h, hp⟩ (hok p hp (by omega) (by omega))).mono ?_
        fun _ ht => ht
      intro _ t ht
      exact ⟨_, ht, Nat.le_of_not_le hmin, by omega⟩
  · rintro _ t ⟨q, ht, hle, hfits⟩
    exact update_ordered ht ⟨hle, hfits⟩

/-! ## The partition manager -/

theorem createPartition_ordered (h : d.AllOrdered) {blkCount : Nat} (flags : BitVec 64)
    (hok : u64 (roundUp blkCount) + maxLba < 2 ^ 64) :
    Call.Returns (createPartition vol blkCount flags d) (fun _ => AllOrdered) AllOrdered := by
  unfold createPartition
  rw [Call.bind_apply, Call.get_apply, Outcome.bind_ok]
  split
  · exact h
  refine Call.Returns.bind (R := fun _ => AllOrdered) (onVolume_allOrdered h) fun _ t ht => ?_
  intro k q hq
  change ((if flags &&& flagFill ≠ 0 then t.parts.map Part.clearFill else t.parts) ++ _)[k]? =
    some q at hq
  have hmem := List.mem_of_getElem? hq
  rw [List.mem_append, List.mem_singleton] at hmem
  cases hmem with
  | inr hnew =>
      subst hnew
      exact ⟨Nat.le_refl _, hok⟩
  | inl hold =>
      split at hold
      · obtain ⟨r, hr, rfl⟩ := List.mem_map.1 hold
        obtain ⟨m, hm⟩ := List.mem_iff_getElem?.1 hr
        exact ⟨(ht m r hm).min_le, (ht m r hm).bounded⟩
      · obtain ⟨m, hm⟩ := List.mem_iff_getElem?.1 hold
        exact ht m q hm

theorem partSetFlags_ordered (h : d.AllOrdered) (flags : BitVec 64) :
    Call.Returns (partSetFlags i flags d) (fun _ => AllOrdered) AllOrdered := by
  rw [partSetFlags_eq]
  intro k q hq
  obtain ⟨q', fl, hq', rfl⟩ := getElem?_setFlags hq
  exact ⟨(h k q' hq').min_le, (h k q' hq').bounded⟩

theorem getFreeSpace_le (vol : Volume σ) (d : Disk σ) : getFreeSpace vol d ≤ maxLba := by
  unfold getFreeSpace
  dsimp only
  generalize hcap : (if vol.getMaxBlockCount d.volume > maxLba then maxLba
    else vol.getMaxBlockCount d.volume) = cap
  have hle : cap ≤ maxLba := by subst hcap; split <;> omega
  generalize hfree : (if cap % partAlign ≠ 0 then cap - cap % partAlign else cap) = free
  have hfle : free ≤ cap := by subst hfree; split <;> omega
  split <;> omega

theorem applyExpandPolicy_ordered (h : d.AllOrdered) (j : Nat) :
    Call.Returns (applyExpandPolicy vol j d) (fun _ => AllOrdered) AllOrdered := by
  apply part_returns
  intro p hp
  split
  · exact h
  · rw [Call.bind_apply, Call.get_apply, Outcome.bind_ok]
    split
    · exact h
    · have hfree := getFreeSpace_le vol d
      have hround := roundUp_le (getFreeSpace vol d - p.blkCount)
      have hsmall : maxLba + partAlign + maxLba < 2 ^ 64 := by decide
      have hfits : GrowFits p (getFreeSpace vol d - p.blkCount) := by
        unfold GrowFits
        omega
      exact (growPartition_ordered ⟨h, hp⟩ hfits).mono (fun _ _ ht => ht.1) fun _ ht => ht

theorem commit_ordered (h : d.AllOrdered) :
    Call.Returns (commit vol d) (fun _ => AllOrdered) AllOrdered := by
  unfold commit
  rw [Call.bind_apply, Call.get_apply, Outcome.bind_ok]
  have hshrink : Call.Returns (eachPart (shrinkToFit vol) 0 d.parts.length d)
      (fun _ => AllOrdered) AllOrdered :=
    eachPart_rule (I := fun _ => AllOrdered) (fun j _ _ ht => shrinkToFit_ordered ht j)
      _ 0 d (Nat.zero_add _) h
  refine hshrink.bind fun _ t ht => ?_
  have hexpand : Call.Returns (eachPart (applyExpandPolicy vol) 0 d.parts.length t)
      (fun _ => AllOrdered) AllOrdered :=
    eachPart_rule (I := fun _ => AllOrdered) (fun j _ _ hu => applyExpandPolicy_ordered hu j)
      _ 0 t (Nat.zero_add _) ht
  refine hexpand.bind fun _ u hu => ?_
  rw [Call.bind_apply, Call.get_apply, Outcome.bind_ok]
  exact (onVolume_allOrdered hu).bind fun _ w hw => onVolume_allOrdered hw

/-! ## Runs -/

/-- The condition on an operation and the state it finds: sizes stay within 64 bits, and a
new base size between the used blocks and the size leaves a partition of that size. -/
def SizesFit (vol : Volume σ) (d : Disk σ) : DiskOp → Prop
  | .create blkCount _ => u64 (roundUp blkCount) + maxLba < 2 ^ 64
  | .block i op => ∀ p, d.parts[i]? = some p → ∀ index, target p.blkUsed op = some index →
      p.blkCount ≤ index → p.grows = true → GrowFits p (u64 (index - p.blkCount + 1))
  | .truncate i size => ∀ p, d.parts[i]? = some p →
      p.blkCountMin < truncateCount vol size → p.blkCount < truncateCount vol size →
      GrowFits p (truncateCount vol size - p.blkCount)
  | .setBaseBlockCount i size => ∀ p, d.parts[i]? = some p →
      (p.blkCount < size → GrowFits p (size - p.blkCount)) ∧
      (p.blkUsed < size → size < p.blkCount → size ≤ shrunk p (size - p.blkUsed))
  | .setFlags _ _ => True
  | .commit => True

instance (vol : Volume σ) (d : Disk σ) (op : DiskOp) : Decidable (SizesFit vol d op) :=
  match op with
  | .create _ _ => inferInstanceAs (Decidable (_ < _))
  | .block i op => decidable_of_iff (∀ p ∈ d.parts[i]?, ∀ index ∈ target p.blkUsed op,
      p.blkCount ≤ index → p.grows = true → GrowFits p (u64 (index - p.blkCount + 1))) Iff.rfl
  | .truncate i size => decidable_of_iff (∀ p ∈ d.parts[i]?,
      p.blkCountMin < truncateCount vol size → p.blkCount < truncateCount vol size →
      GrowFits p (truncateCount vol size - p.blkCount)) Iff.rfl
  | .setBaseBlockCount i size => decidable_of_iff (∀ p ∈ d.parts[i]?,
      (p.blkCount < size → GrowFits p (size - p.blkCount)) ∧
      (p.blkUsed < size → size < p.blkCount → size ≤ shrunk p (size - p.blkUsed))) Iff.rfl
  | .setFlags _ _ => isTrue trivial
  | .commit => isTrue trivial

/-- The states of a new disk that such operations lead to. -/
def ReachedInOrder (vol : Volume σ) (v : σ) : Disk σ → Prop :=
  Run (fun op d => (DiskOp.run vol op d).state?) (SizesFit vol) (create v)

theorem run_ordered (h : d.AllOrdered) {op : DiskOp} (hok : SizesFit vol d op) :
    Call.Returns (op.run vol d) (fun _ => AllOrdered) AllOrdered := by
  cases op with
  | create blkCount flags => exact (createPartition_ordered h flags hok).bind_pure
  | truncate i size => exact (partTruncate_ordered h hok).bind_pure
  | setBaseBlockCount i size =>
      exact (partSetBaseBlockCount_ordered h (fun p hp => (hok p hp).1)
        fun p hp => (hok p hp).2).bind_pure
  | setFlags i flags => exact (partSetFlags_ordered h flags).bind_pure
  | commit => exact (commit_ordered h).bind_pure
  | block i op =>
      cases op with
      | read index => exact partReadPartialBlock_ordered h _ _ _
      | readPartial index offset size => exact partReadPartialBlock_ordered h _ _ _
      | write index buffer =>
          exact (partWritePartialBlock_ordered h buffer _ _
            fun p hp => hok p hp index rfl).bind_pure
      | writePartial index buffer offset size =>
          exact (partWritePartialBlock_ordered h buffer _ _
            fun p hp => hok p hp index rfl).bind_pure
      | move src dst =>
          exact (partMoveBlockPartial_ordered h _ _ _
            fun p hp hsrc => hok p hp dst (if_pos hsrc)).bind_pure
      | movePartial src dst a b n =>
          exact (partMoveBlockPartial_ordered h _ _ _
            fun p hp hsrc => hok p hp dst (if_pos hsrc)).bind_pure
      | discard index count => exact (partDiscardBlocks_ordered h _ _).bind_pure
      | commit => exact h

/-- In every state that such operations lead to, all partitions are in order. -/
theorem ReachedInOrder.ordered {v : σ} (h : ReachedInOrder vol v d) : d.AllOrdered := by
  refine Run.invariant h ?_ fun _ _ _ ht hok hop => (run_ordered ht hok).state hop
  intro k q hq
  cases hq

theorem AllOrdered.inOrder (h : d.AllOrdered) (vol : Volume σ) (i : Nat) :
    (partition vol i).InOrder d := by
  show partMinCount i d ≤ partBlkCount vol i d ∧ partBlkCount vol i d ≤ partMaxCount vol i d
  unfold partMinCount partBlkCount partMaxCount
  cases hp : d.parts[i]? with
  | none => exact ⟨Nat.le_refl _, Nat.le_refl _⟩
  | some p =>
      have hmin := (h i p hp).min_le
      have hbound := (h i p hp).bounded
      have hfree := getFreeSpace_le vol d
      dsimp only
      rw [u64_of_lt (show p.blkCount + getFreeSpace vol d < 2 ^ 64 by omega)]
      constructor
      · split
        · split
          · omega
          · exact hmin
        · exact hmin
      · split
        · exact Nat.le_refl _
        · split
          · exact Nat.le_add_right _ _
          · exact Nat.le_refl _

end Disk

end ImageTool.Mbr
