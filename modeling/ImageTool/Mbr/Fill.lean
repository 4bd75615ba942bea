import ImageTool.Mbr.Invariant
import ImageTool.Mbr.SinglePart

/-!
# The fill policy

A commit shrinks every partition to fit and then grows the one that is to fill the disk.
Only the sizes matter here, so tables are compared by `cores`, up to the positions of the
partitions.  The free space already leaves out the blocks of the partition that grows, and
`mbr_apply_expand_policy` takes these off once more: where there is free space left after
the shrinking, an aligned table is never filled.
-/

namespace ImageTool.Mbr

open ImageTool.Lib ImageTool.Image

/-- A partition, wherever it lies. -/
def Part.core (p : Part) : Part := { p with index := 0 }

/-- The partitions of a table, wherever they lie. -/
def cores (parts : List Part) : List Part := parts.map Part.core

/-- Sizes are 64-bit values. -/
structure Part.InWord (p : Part) : Prop where
  count_lt : p.blkCount < 2 ^ 64
  min_lt : p.blkCountMin < 2 ^ 64

@[simp] theorem fitted_core (p : Part) : fitted p.core = (fitted p).core := rfl

/-! ## Sizes -/

theorem sub64_sub64 {a b : Nat} (ha : a < 2 ^ 64) (hb : b < 2 ^ 64) :
    sub64 a (sub64 a b) = b := by
  by_cases hle : b ≤ a
  · rw [sub64_of_le hle ha, sub64_of_le (by omega) ha]
    omega
  · rw [sub64_of_lt (by omega) hb, sub64_of_lt (by omega) (by omega)]
    omega

/-- Also where a difference wraps around, the clamps leave `shrunk` blocks. -/
theorem sub64_clampDiff {p : Part} (hw : p.InWord) (diff : Nat) :
    sub64 p.blkCount (clampDiff p diff) = shrunk p diff := by
  have hcount := hw.count_lt
  have hmin := hw.min_lt
  have hfirst : (if alignDown diff > p.blkCount then p.blkCount else alignDown diff) =
      min (alignDown diff) p.blkCount := by
    split <;> omega
  unfold clampDiff shrunk
  dsimp only
  rw [hfirst]
  have hleft : sub64 p.blkCount (min (alignDown diff) p.blkCount) =
      p.blkCount - alignDown diff := by
    rw [sub64_of_le (Nat.min_le_right _ _) hcount]
    omega
  have halign : sub64 p.blkCount (sub64 p.blkCount partAlign) = partAlign :=
    sub64_sub64 hcount (by decide)
  rw [hleft]
  by_cases hlow : p.blkCount - alignDown diff < partAlign
  · rw [if_pos hlow, halign]
    by_cases hlt : partAlign < p.blkCountMin
    · rw [if_pos hlt, sub64_sub64 hcount hmin]
      omega
    · rw [if_neg hlt, halign]
      omega
  · rw [if_neg hlow, hleft]
    by_cases hlt : p.blkCount - alignDown diff < p.blkCountMin
    · rw [if_pos hlt, sub64_sub64 hcount hmin]
      omega
    · rw [if_neg hlt, hleft]
      omega

theorem shrunk_lt {p : Part} (hw : p.InWord) (diff : Nat) : shrunk p diff < 2 ^ 64 := by
  have hcount := hw.count_lt
  have hmin := hw.min_lt
  unfold shrunk
  rw [partAlign_eq]
  omega

theorem Part.InWord.fitted {p : Part} (hw : p.InWord) : (fitted p).InWord := by
  refine ⟨?_, hw.min_lt⟩
  show fit p < 2 ^ 64
  unfold fit
  split
  · exact hw.count_lt
  · exact shrunk_lt hw _

/-- Shrinking to fit a second time changes nothing. -/
theorem fit_fitted (p : Part) : fit (fitted p) = fit p := by
  by_cases hge : p.blkUsed ≥ p.blkCount
  · have hfit : fit p = p.blkCount := if_pos hge
    have hsame : fitted p = p := by rw [fitted, hfit]
    rw [hsame]
  · have hfit : fit p = shrunk p (p.blkCount - p.blkUsed) := if_neg hge
    unfold fit
    show (if p.blkUsed ≥ fit p then fit p else shrunk (fitted p) (fit p - p.blkUsed)) = fit p
    split
    · rfl
    · rename_i hlt
      show max (max (fit p - alignDown (fit p - p.blkUsed)) partAlign) p.blkCountMin = fit p
      rw [alignDown_eq]
      rw [hfit] at hlt ⊢
      unfold shrunk at *
      rw [alignDown_eq, partAlign_eq] at *
      omega

@[simp] theorem fitted_fitted (p : Part) : fitted (fitted p) = fitted p := by
  show { fitted p with blkCount := fit (fitted p) } = fitted p
  rw [fit_fitted]
  rfl

/-! ## What the operations do to the sizes -/

theorem getElem?_cores {parts : List Part} {i : Nat} {p : Part} (hp : parts[i]? = some p) :
    (cores parts)[i]? = some p.core := by
  rw [cores, List.getElem?_map, hp]
  rfl

theorem cores_map {f : Part → Part} (hf : ∀ p, (f p).core = p.core) (parts : List Part) :
    cores (parts.map f) = cores parts := by
  unfold cores
  rw [List.map_map]
  exact List.map_congr_left fun p _ => hf p

theorem cores_modify {f : Part → Part} (hf : ∀ p, (f p).core = f p.core) (parts : List Part)
    (i : Nat) : cores (parts.modify i f) = (cores parts).modify i f := by
  unfold cores
  apply List.ext_getElem?
  intro k
  rw [List.getElem?_map, List.getElem?_modify, List.getElem?_modify, List.getElem?_map]
  simp only [Option.map_eq_map, Option.map_map]
  congr 1
  funext p
  show (if i = k then f p else p).core = if i = k then f p.core else p.core
  split
  · exact hf p
  · rfl

/-- Only the partition in the slot matters. -/
theorem modify_congr {f g : Part → Part} {parts : List Part} {i : Nat} {p : Part}
    (hp : parts[i]? = some p) (h : f p = g p) : parts.modify i f = parts.modify i g := by
  apply List.ext_getElem?
  intro k
  rw [List.getElem?_modify, List.getElem?_modify]
  by_cases hik : i = k
  · subst hik
    simp [hp, h]
  · simp [hik]

theorem modify_eq_self {f : Part → Part} {parts : List Part} {i : Nat} {p : Part}
    (hp : parts[i]? = some p) (h : f p = p) : parts.modify i f = parts := by
  have hid : parts.modify i f = parts.modify i id := modify_congr hp h
  rw [hid, List.modify_id]

theorem shiftDown_core (start diff : Nat) (p : Part) :
    (shiftDown start diff p).core = p.core := by
  unfold shiftDown
  split <;> rfl

theorem shiftUp_core (start diff : Nat) (p : Part) : (shiftUp start diff p).core = p.core := by
  unfold shiftUp
  split <;> rfl

namespace Disk

variable {σ : Type} {vol : Volume σ} {m : Nat} {d : Disk σ}

/-- No operation changes the maximum size of the volume. -/
def FixedMax (vol : Volume σ) : Prop := ∀ m, vol.Keeps fun v => vol.getMaxBlockCount v = m

/-- The volume has the maximum `m` and the table, positions apart, is `ps`. -/
def HasSizes (vol : Volume σ) (m : Nat) (ps : List Part) (d : Disk σ) : Prop :=
  vol.getMaxBlockCount d.volume = m ∧ cores d.parts = ps

section Sizes

variable (hk : FixedMax vol) {ps : List Part}

/-- A call on the volume changes no size. -/
theorem onVolume_sizes {α : Type} {c : Call σ α} (h : HasSizes vol m ps d)
    (hc : c.Keeps fun v => vol.getMaxBlockCount v = m) :
    Call.Returns (onVolume c d) (fun _ d' => HasSizes vol m ps d' ∧ d'.parts = d.parts)
      (fun _ => True) := by
  refine (onVolume_returns (hc d.volume h.1)).mono ?_ fun _ _ => trivial
  rintro _ d' ⟨hmax, hparts⟩
  exact ⟨⟨hmax, by rw [hparts]; exact h.2⟩, hparts⟩

include hk

theorem shrinkPartition_sizes (h : HasSizes vol m ps d) {i : Nat} {p : Part}
    (hp : d.parts[i]? = some p) (hw : p.InWord) (diff : Nat) :
    Call.Returns (shrinkPartition vol i diff d)
      (fun _ => HasSizes vol m (ps.modify i fun q => { q with blkCount := shrunk p diff }))
      (fun _ => True) := by
  have hps : ps[i]? = some p.core := by rw [← h.2]; exact getElem?_cores hp
  have hsub := sub64_clampDiff hw diff
  unfold shrinkPartition
  rw [Call.bind_apply, part_apply hp, Outcome.bind_ok]
  dsimp only
  generalize clampDiff p diff = n at hsub
  by_cases hzero : n = 0
  · rw [if_pos hzero]
    rw [hzero, sub64_of_le (Nat.zero_le _) hw.count_lt, Nat.sub_zero] at hsub
    show HasSizes vol m _ d
    rw [modify_eq_self hps (by rw [← hsub]; rfl)]
    exact h
  · rw [if_neg hzero, Call.bind_apply, Call.get_apply, Outcome.bind_ok, Call.bind_apply]
    refine Call.Returns.bind (onVolume_sizes h ((hk m).discardBlocks _ _)) ?_
    rintro _ d' ⟨⟨hmax, hcores⟩, hparts⟩
    refine ⟨hmax, ?_⟩
    show cores ((d'.parts.map (shiftDown p.index n)).modify i _) = _
    rw [cores_modify (f := fun q => { q with blkCount := sub64 q.blkCount n }) fun _ => rfl,
      cores_map (shiftDown_core _ _), hcores]
    apply modify_congr hps
    show ({ p.core with blkCount := sub64 p.blkCount n } : Part) = _
    rw [hsub]

theorem shrinkToFit_sizes (h : HasSizes vol m ps d) {i : Nat} {p : Part}
    (hp : d.parts[i]? = some p) (hw : p.InWord) :
    Call.Returns (shrinkToFit vol i d)
      (fun _ => HasSizes vol m (ps.modify i fitted)) (fun _ => True) := by
  have hps : ps[i]? = some p.core := by rw [← h.2]; exact getElem?_cores hp
  unfold shrinkToFit
  rw [Call.bind_apply, part_apply hp, Outcome.bind_ok]
  by_cases hge : p.blkUsed ≥ p.blkCount
  · have hfit : fit p = p.blkCount := if_pos hge
    rw [if_pos hge]
    show HasSizes vol m _ d
    rw [modify_eq_self hps (by rw [fitted_core, fitted, hfit])]
    exact h
  · have hfit : fit p = shrunk p (p.blkCount - p.blkUsed) := if_neg hge
    rw [if_neg hge]
    refine (shrinkPartition_sizes hk h hp hw _).mono (fun _ d' hd' => ?_) fun _ _ => trivial
    rwa [modify_congr hps (g := fun q => { q with blkCount := shrunk p (p.blkCount - p.blkUsed) })]
    rw [fitted_core, fitted, hfit]
    rfl

/-- Shrinking fitted partitions leaves all sizes. -/
theorem shrinkBehind_sizes (hword : ∀ p ∈ ps, p.InWord) (hfit : ∀ p ∈ ps, fitted p = p)
    (start i n : Nat) (h : HasSizes vol m ps d) :
    Call.Returns (shrinkBehind vol start i n d) (fun _ => HasSizes vol m ps)
      (fun _ => True) := by
  induction n generalizing i d with
  | zero => exact h
  | succ n ih =>
      unfold shrinkBehind
      apply part_returns
      intro p hp
      have hps : ps[i]? = some p.core := by rw [← h.2]; exact getElem?_cores hp
      have hmem : p.core ∈ ps := List.mem_of_getElem? hps
      have hw : p.InWord := ⟨(hword _ hmem).count_lt, (hword _ hmem).min_lt⟩
      rw [Call.bind_apply]
      refine Call.Returns.bind (Call.Returns.guard (fun _ => ?_) fun _ => h) fun _ d' hd' =>
        ih (i + 1) hd'
      refine (shrinkToFit_sizes hk h hp hw).mono (fun _ d' hd' => ?_) fun _ _ => trivial
      rwa [modify_eq_self hps (hfit _ hmem)] at hd'

/-- The size a partition of a table without slack grows to. -/
theorem growPartition_sizes (hword : ∀ p ∈ ps, p.InWord) (hfit : ∀ p ∈ ps, fitted p = p)
    (h : HasSizes vol m ps d) (i diff : Nat) :
    Call.Returns (growPartition vol i diff d)
      (fun _ => HasSizes vol m
        (ps.modify i fun q => { q with blkCount := u64 (q.blkCount + u64 (roundUp diff)) }))
      (fun _ => True) := by
  unfold growPartition
  apply part_returns
  intro p hp
  dsimp only
  rw [Call.bind_apply, Call.get_apply, Outcome.bind_ok, Call.bind_apply]
  refine Call.Returns.bind (shrinkBehind_sizes hk hword hfit _ _ _ h) fun _ d₁ h₁ => ?_
  rw [Call.bind_apply, Call.get_apply, Outcome.bind_ok, Call.bind_apply]
  refine Call.Returns.bind (onVolume_sizes h₁ (volumeMemmove_keeps (hk m) _ _ _))
    fun _ d₂ h₂ => ?_
  rw [Call.bind_apply]
  refine Call.Returns.bind (onVolume_sizes h₂.1 (volumeWrite_keeps (hk m) _ _ _))
    fun _ d₃ h₃ => ?_
  refine ⟨h₃.1.1, ?_⟩
  show cores ((d₃.parts.map (shiftUp p.index (u64 (roundUp diff)))).modify i _) = _
  rw [cores_modify (f := fun q => { q with
      blkCount := u64 (q.blkCount + u64 (roundUp diff)) }) fun _ => rfl,
    cores_map (shiftUp_core _ _), h₃.1.2]

/-- The loop that shrinks all partitions to fit. -/
theorem eachPart_shrinkToFit_sizes (hword : ∀ p ∈ d.parts, p.InWord)
    (h : HasSizes vol m (cores d.parts) d) :
    Call.Returns (eachPart (shrinkToFit vol) 0 d.parts.length d)
      (fun _ => HasSizes vol m (cores (d.parts.map fitted))) (fun _ => True) := by
  -- the partitions in front of the loop variable have been shrunk
  let done := fun j : Nat => (cores d.parts).mapIdx fun k q => if k < j then fitted q else q
  have hstep : ∀ j d', j < d.parts.length → HasSizes vol m (done j) d' →
      Call.Returns (shrinkToFit vol j d') (fun _ => HasSizes vol m (done (j + 1)))
        (fun _ => True) := by
    intro j d' hj hd'
    have hget : (done j)[j]? = some d.parts[j].core := by
      simp [done, cores, hj]
    have hlen : j < d'.parts.length := by
      have hl := congrArg List.length hd'.2
      simp [done, cores] at hl
      omega
    have hp := List.getElem?_eq_getElem hlen
    have hcore : d'.parts[j].core = d.parts[j].core := by
      have hc := getElem?_cores hp
      rw [hd'.2, hget] at hc
      exact (Option.some.inj hc).symm
    have hmem := hword _ (List.getElem_mem hj)
    have hw : d'.parts[j].InWord := by
      constructor
      · show d'.parts[j].core.blkCount < 2 ^ 64
        rw [hcore]
        exact hmem.count_lt
      · show d'.parts[j].core.blkCountMin < 2 ^ 64
        rw [hcore]
        exact hmem.min_lt
    refine (shrinkToFit_sizes hk hd' hp hw).mono (fun _ d'' hd'' => ?_) fun _ _ => trivial
    have hnext : (done j).modify j fitted = done (j + 1) := by
      apply List.ext_getElem?
      intro k
      simp only [done, List.getElem?_modify, List.getElem?_mapIdx]
      cases (cores d.parts)[k]? with
      | none => rfl
      | some q =>
          simp only [Option.map_some, Option.map_eq_map]
          by_cases hjk : j = k
          · subst hjk
            simp
          · simp only [if_neg hjk, show (k < j + 1) = (k < j) from propext (by omega)]
    rwa [hnext] at hd''
  have hinit : done 0 = cores d.parts := by
    apply List.ext_getElem?
    intro k
    simp [done]
  have hlast : done d.parts.length = cores (d.parts.map fitted) := by
    apply List.ext_getElem?
    intro k
    simp only [done, List.getElem?_mapIdx, cores, List.getElem?_map, Option.map_map]
    cases hq : d.parts[k]? with
    | none => rfl
    | some q =>
        have hk' := (List.getElem?_eq_some_iff.1 hq).1
        simp [hk']
  have hloop := eachPart_rule (I := fun j => HasSizes vol m (done j)) (E := fun _ => True) hstep
    d.parts.length 0 d (Nat.zero_add _) (by rw [hinit]; exact h)
  rwa [hlast] at hloop

end Sizes

/-! ## Filling the disk -/

theorem totalCount_cores (parts : List Part) : totalCount (cores parts) = totalCount parts := by
  unfold totalCount cores
  rw [List.map_map]
  rfl

/-- The size a partition of `count` blocks grows to where `free` are free: what is free
beyond its own size is added, rounded up. -/
def grownCount (free count : Nat) : Nat :=
  if free ≤ count then count else count + roundUp (free - count)

/-- Growing a partition of `count` blocks takes up the `free` ones but for less than an
alignment unit. -/
def FillsUp (free count : Nat) : Prop :=
  if free ≤ count then free < partAlign else free < roundUp (free - count) + partAlign

instance (free count : Nat) : Decidable (FillsUp free count) := by
  unfold FillsUp
  infer_instance

/-- Sizes, and the sum of those that a commit shrinks the partitions to, are 64-bit
values. -/
structure InWord (d : Disk σ) : Prop where
  part : ∀ p ∈ d.parts, p.InWord
  sum : reserved + totalCount (d.parts.map fitted) < 2 ^ 64

/-- The disk with all partitions shrunk to fit. -/
def allFit (d : Disk σ) : Disk σ := { d with parts := d.parts.map fitted }

/-- What the policy is for: less than an alignment unit is left, and the partitions that are
not to fill the disk have been shrunk to fit. -/
structure Filled (vol : Volume σ) (d d' : Disk σ) : Prop where
  free : freeSpace vol d' < partAlign
  fit : ∀ (k : Nat) q, d.parts[k]? = some q → q.fills = false →
    d'.parts[k]?.map Part.blkCount = some (fit q)

/-- The sizes behind the loop that applies the policy to partition `i`, which has the entry
`p`. -/
def expanded (vol : Volume σ) (d : Disk σ) (i : Nat) (p : Part) : List Part :=
  (cores d.allFit.parts).modify i fun q =>
    { q with blkCount := grownCount (freeSpace vol d.allFit) (fit p) }

theorem applyExpandPolicy_fills {i : Nat} {p : Part} (hp : d.parts[i]? = some p)
    (hfills : p.fills = true) : applyExpandPolicy vol i d =
      (if p.blkCount ≥ getFreeSpace vol d then pure ()
        else growPartition vol i (getFreeSpace vol d - p.blkCount)) d := by
  unfold applyExpandPolicy
  rw [Call.bind_apply, part_apply hp, Outcome.bind_ok, if_neg (by simp [hfills]),
    Call.bind_apply, Call.get_apply, Outcome.bind_ok]

section Fill

variable (hk : FixedMax vol) (hword : InWord d) (hone : OneFill d.parts) {i : Nat} {p : Part}
  (hp : d.parts[i]? = some p)

include hp

theorem getElem?_cores_fitted : (cores d.allFit.parts)[i]? = some (fitted p).core := by
  apply getElem?_cores
  show (d.parts.map fitted)[i]? = some (fitted p)
  rw [List.getElem?_map, hp]
  rfl

theorem totalCount_expanded : totalCount (expanded vol d i p) + fit p =
    totalCount d.allFit.parts + grownCount (freeSpace vol d.allFit) (fit p) := by
  have hsum := totalCount_modify (n := grownCount (freeSpace vol d.allFit) (fit p))
    (getElem?_cores_fitted hp)
  rw [totalCount_cores] at hsum
  exact hsum

include hk hword

/-- Applying the policy to the partition that is to fill the disk. -/
theorem applyExpandPolicy_sizes (hfills : p.fills = true) {d' : Disk σ}
    (h : HasSizes vol (vol.getMaxBlockCount d.volume) (cores d.allFit.parts) d') :
    Call.Returns (applyExpandPolicy vol i d')
      (fun _ => HasSizes vol (vol.getMaxBlockCount d.volume) (expanded vol d i p))
      (fun _ => True) := by
  have hcore := getElem?_cores_fitted hp
  have hwords : ∀ q ∈ cores d.allFit.parts, q.InWord := by
    intro q hq
    obtain ⟨_, hfit, rfl⟩ := List.mem_map.1 hq
    obtain ⟨r, hr, rfl⟩ := List.mem_map.1 hfit
    exact ⟨(hword.part r hr).fitted.count_lt, (hword.part r hr).min_lt⟩
  have hfits : ∀ q ∈ cores d.allFit.parts, fitted q = q := by
    intro q hq
    obtain ⟨_, hfit, rfl⟩ := List.mem_map.1 hq
    obtain ⟨r, _, rfl⟩ := List.mem_map.1 hfit
    rw [fitted_core, fitted_fitted]
  have htotal : totalCount d'.parts = totalCount d.allFit.parts := by
    rw [← totalCount_cores, h.2, totalCount_cores]
  have havail : getFreeSpace vol d' = freeSpace vol d.allFit := by
    have hsum := hword.sum
    rw [getFreeSpace_eq (by rw [htotal]; exact hsum)]
    unfold freeSpace
    rw [htotal, h.1]
    rfl
  have hlen : i < d'.parts.length := by
    have hi := (List.getElem?_eq_some_iff.1 hcore).1
    rw [← h.2] at hi
    simpa [cores] using hi
  obtain ⟨q, hq⟩ : ∃ q, d'.parts[i]? = some q := ⟨_, List.getElem?_eq_getElem hlen⟩
  have hqp : q.core = (fitted p).core := by
    have hc := getElem?_cores hq
    rw [h.2, hcore] at hc
    exact (Option.some.inj hc).symm
  have hcount : q.blkCount = fit p := congrArg Part.blkCount hqp
  have hflags : q.flags = p.flags := by
    show q.core.flags = (fitted p).core.flags
    rw [hqp]
  have hqfills : q.fills = true := by
    rw [← hfills]
    unfold Part.fills
    rw [hflags]
  rw [applyExpandPolicy_fills hq hqfills, havail, hcount]
  by_cases hle : freeSpace vol d.allFit ≤ fit p
  · have hsame : grownCount (freeSpace vol d.allFit) (fit p) = fit p := if_pos hle
    rw [if_pos hle]
    show HasSizes vol _ (expanded vol d i p) d'
    unfold expanded
    rw [hsame, modify_eq_self hcore rfl]
    exact h
  · have hgrown : grownCount (freeSpace vol d.allFit) (fit p) =
        fit p + roundUp (freeSpace vol d.allFit - fit p) := if_neg hle
    have hfit64 : fit p < 2 ^ 64 := (hwords _ (List.mem_of_getElem? hcore)).count_lt
    have hfree : freeSpace vol d.allFit ≤ maxLba := by
      have hcap := alignDown_le (min (vol.getMaxBlockCount d.allFit.volume) maxLba)
      unfold freeSpace
      omega
    have hround := roundUp_le (freeSpace vol d.allFit - fit p)
    have hlba : maxLba + partAlign < 2 ^ 64 := by decide
    rw [if_neg hle]
    refine (growPartition_sizes hk hwords hfits h i _).mono (fun _ d'' hd'' => ?_)
      fun _ _ => trivial
    unfold expanded
    rw [hgrown]
    rwa [modify_congr hcore (g := fun q => { q with
      blkCount := fit p + roundUp (freeSpace vol d.allFit - fit p) })] at hd''
    have hdiff : u64 (roundUp (freeSpace vol d.allFit - fit p)) =
        roundUp (freeSpace vol d.allFit - fit p) := u64_of_lt (by omega)
    rw [hdiff]
    show ({ (fitted p).core with blkCount := u64 (fit p + _) } : Part) = _
    rw [u64_of_lt (by omega)]

include hone

/-- The loop that applies the policy to all partitions. -/
theorem eachPart_applyExpandPolicy_sizes (hfills : p.fills = true) {d' : Disk σ} {n : Nat}
    (hn : i < n) (h : HasSizes vol (vol.getMaxBlockCount d.volume) (cores d.allFit.parts) d') :
    Call.Returns (eachPart (applyExpandPolicy vol) 0 n d')
      (fun _ => HasSizes vol (vol.getMaxBlockCount d.volume) (expanded vol d i p))
      (fun _ => True) := by
  let sizes := fun j => if i < j then expanded vol d i p else cores d.allFit.parts
  have hstep : ∀ j e, j < n → HasSizes vol (vol.getMaxBlockCount d.volume) (sizes j) e →
      Call.Returns (applyExpandPolicy vol j e)
        (fun _ => HasSizes vol (vol.getMaxBlockCount d.volume) (sizes (j + 1)))
        (fun _ => True) := by
    intro j e _ he
    by_cases hij : i = j
    · subst hij
      have hbefore : sizes i = cores d.allFit.parts := if_neg (Nat.lt_irrefl i)
      have hafter : sizes (i + 1) = expanded vol d i p := if_pos (Nat.lt_succ_self i)
      rw [hbefore] at he
      rw [hafter]
      exact applyExpandPolicy_sizes hk hword hp hfills he
    · have hsame : sizes (j + 1) = sizes j := by
        simp only [sizes, show (i < j + 1) = (i < j) from propext (by omega)]
      rw [hsame]
      unfold applyExpandPolicy
      apply part_returns
      intro q hq
      -- another partition does not fill the disk
      have hqfills : q.fills = false := by
        have hc : (sizes j)[j]? = some q.core := by rw [← he.2]; exact getElem?_cores hq
        have hfit : (cores d.allFit.parts)[j]? = some q.core := by
          by_cases hlt : i < j
          · simp only [sizes, if_pos hlt, expanded, List.getElem?_modify, if_neg hij] at hc
            simpa using hc
          · simpa only [sizes, if_neg hlt] using hc
        unfold cores allFit at hfit
        rw [List.getElem?_map, List.getElem?_map, Option.map_map] at hfit
        obtain ⟨r, hr, hrq⟩ := Option.map_eq_some_iff.1 hfit
        have hflags : r.flags = q.flags := by
          show (fitted r).core.flags = q.core.flags
          exact congrArg (fun p : Part => p.flags) hrq
        cases hqf : q.fills with
        | false => rfl
        | true =>
            have hrf : r.fills = true := by
              rw [← hqf]
              unfold Part.fills
              rw [hflags]
            exact absurd (hone i j p r hp hr hfills hrf) hij
      rw [if_pos (by simp [hqfills])]
      exact he
  have hloop := eachPart_rule (I := fun j => HasSizes vol _ (sizes j)) (E := fun _ => True)
    hstep n 0 d' (Nat.zero_add n) (by rwa [show sizes 0 = _ from if_neg (Nat.not_lt_zero i)])
  rwa [show sizes n = _ from if_pos hn] at hloop

/-- The sizes a commit leaves. -/
theorem commit_sizes (hfills : p.fills = true) {d' : Disk σ} (hok : commit vol d = .ok () d') :
    HasSizes vol (vol.getMaxBlockCount d.volume) (expanded vol d i p) d' := by
  have hi := (List.getElem?_eq_some_iff.1 hp).1
  have hreturns : Call.Returns (commit vol d)
      (fun _ => HasSizes vol (vol.getMaxBlockCount d.volume) (expanded vol d i p))
      (fun _ => True) := by
    unfold commit
    rw [Call.bind_apply, Call.get_apply, Outcome.bind_ok, Call.bind_apply]
    refine Call.Returns.bind (eachPart_shrinkToFit_sizes hk hword.part ⟨rfl, rfl⟩)
      fun _ d₁ h₁ => ?_
    rw [Call.bind_apply]
    refine Call.Returns.bind
      (eachPart_applyExpandPolicy_sizes hk hword hone hp hfills hi h₁) fun _ d₂ h₂ => ?_
    rw [Call.bind_apply, Call.get_apply, Outcome.bind_ok, Call.bind_apply]
    refine Call.Returns.bind (onVolume_sizes h₂ ((hk _).writeBlock _ _)) fun _ d₃ h₃ => ?_
    exact (onVolume_sizes h₃.1 (hk _).commit).mono (fun _ _ h => h.1) fun _ h => h
  rw [hok] at hreturns
  exact hreturns

/-- Less than an alignment unit is left if the growth takes up the space that is free once all
partitions are shrunk to fit. -/
theorem freeSpace_commit_iff (hfills : p.fills = true) {d' : Disk σ}
    (hok : commit vol d = .ok () d') :
    freeSpace vol d' < partAlign ↔ FillsUp (freeSpace vol d.allFit) (fit p) := by
  obtain ⟨hmax, hcores⟩ := commit_sizes hk hword hone hp hfills hok
  have htotal : totalCount d'.parts + fit p =
      totalCount d.allFit.parts + grownCount (freeSpace vol d.allFit) (fit p) := by
    rw [← totalCount_cores d'.parts, hcores]
    exact totalCount_expanded hp
  have hfree : freeSpace vol d' =
      alignDown (min (vol.getMaxBlockCount d.volume) maxLba) -
        (reserved + totalCount d'.parts) := by
    unfold freeSpace
    rw [hmax]
  have hfitted : freeSpace vol d.allFit =
      alignDown (min (vol.getMaxBlockCount d.volume) maxLba) -
        (reserved + totalCount d.allFit.parts) := rfl
  have hpos : 0 < partAlign := by decide
  rw [hfree]
  generalize freeSpace vol d.allFit = u at *
  unfold FillsUp
  unfold grownCount at htotal
  by_cases hle : u ≤ fit p
  · rw [if_pos hle] at htotal ⊢
    omega
  · have hround := le_roundUp (u - fit p)
    rw [if_neg hle] at htotal ⊢
    omega

theorem filled_iff (hfills : p.fills = true) {d' : Disk σ} (hok : commit vol d = .ok () d') :
    Filled vol d d' ↔ FillsUp (freeSpace vol d.allFit) (fit p) := by
  have hcores := (commit_sizes hk hword hone hp hfills hok).2
  have hleft := freeSpace_commit_iff hk hword hone hp hfills hok
  constructor
  · intro h
    exact hleft.1 h.free
  · intro h
    refine ⟨hleft.2 h, ?_⟩
    intro k q hq hqfills
    have hik : i ≠ k := by
      rintro rfl
      rw [hp] at hq
      cases hq
      rw [hfills] at hqfills
      cases hqfills
    have hget : (cores d'.parts)[k]? = some (fitted q).core := by
      rw [hcores]
      unfold expanded
      rw [List.getElem?_modify, getElem?_cores_fitted hq]
      simp [hik]
    unfold cores at hget
    rw [List.getElem?_map] at hget
    obtain ⟨r, hr, hrq⟩ := Option.map_eq_some_iff.1 hget
    rw [hr, Option.map_some]
    exact congrArg some (congrArg Part.blkCount hrq)

end Fill

/-- After a successful commit of a disk with a partition that is to fill it, the disk is
filled exactly if the growth takes up the space that is free once all partitions are shrunk to
fit. -/
theorem commit_filled_iff (hk : FixedMax vol) {v : σ} {d d' : Disk σ} (hd : Reached vol v d)
    (hword : InWord d) (hfill : ∃ p ∈ d.parts, p.fills = true)
    (hok : commit vol d = .ok () d') :
    Filled vol d d' ↔ ∃ p ∈ d.parts, p.fills = true ∧ FillsUp (freeSpace vol d.allFit) (fit p) := by
  have hone := hd.oneFill
  constructor
  · intro h
    obtain ⟨p, hp, hfills⟩ := hfill
    obtain ⟨i, hi⟩ := List.getElem?_of_mem hp
    exact ⟨p, hp, hfills, (filled_iff hk hword hone hi hfills hok).1 h⟩
  · rintro ⟨p, hp, hfills, hup⟩
    obtain ⟨i, hi⟩ := List.getElem?_of_mem hp
    exact (filled_iff hk hword hone hi hfills hok).2 hup

/-! ### One partition -/

theorem idealVolume_fixedMax (bs count : Nat) : FixedMax (idealVolume bs count) := by
  intro m
  -- the maximum does not depend on the state at all
  have hconst : ∀ {α : Type} (c : Call Bytes α),
      c.Keeps fun v => (idealVolume bs count).getMaxBlockCount v = m := by
    intro α c v hv
    cases c v with
    | ok a w => exact hv
    | fail w => exact hv
    | stuck => trivial
  exact ⟨fun _ => hconst _, fun _ _ _ => hconst _, fun _ _ => hconst _,
    fun _ _ _ _ => hconst _, fun _ _ => hconst _, fun _ _ _ _ _ => hconst _,
    fun _ _ => hconst _, hconst _⟩

/-- A disk whose only partition is to fill it can be committed, if what the partition grows to
is on the volume. -/
theorem commit_single {count : Nat} {view : σ → Bytes} (hv : BlockStore vol count view)
    (hbs : vol.blocksize = sectorSize) (h64 : count * sectorSize < 2 ^ 64) (hcount : 0 < count)
    (v : σ) {p : Part} (hset : clampDiff p (p.blkCount - p.blkUsed) = 0)
    (hfills : p.fills = true)
    (hstart : reserved ≤ p.index)
    (hfits : p.index + grownCount (freeSpace vol ⟨v, [p]⟩) p.blkCount ≤ count) :
    ∃ d', commit vol ⟨v, [p]⟩ = .ok () d' := by
  have hfree : getFreeSpace vol ⟨v, [p]⟩ = freeSpace vol ⟨v, [p]⟩ := by
    have hsector : sectorSize = 512 := rfl
    have htotal : totalCount [p] = p.blkCount := by simp [totalCount]
    apply getFreeSpace_eq
    show reserved + totalCount [p] < 2 ^ 64
    rw [hsector] at h64
    unfold grownCount at hfits
    split at hfits <;> omega
  have hshrink : eachPart (shrinkToFit vol) 0 1 ⟨v, [p]⟩ = .ok () ⟨v, [p]⟩ := by
    apply eachPart_settled
    intro j _ hj
    obtain rfl : j = 0 := by omega
    exact shrinkToFit_settled rfl hset
  have hexpand : ∃ w q, applyExpandPolicy vol 0 ⟨v, [p]⟩ = .ok () ⟨w, [q]⟩ := by
    rw [applyExpandPolicy_fills rfl hfills, hfree]
    by_cases hge : p.blkCount ≥ freeSpace vol ⟨v, [p]⟩
    · rw [if_pos hge]
      exact ⟨v, p, rfl⟩
    · have hgrown : grownCount (freeSpace vol ⟨v, [p]⟩) p.blkCount =
          p.blkCount + roundUp (freeSpace vol ⟨v, [p]⟩ - p.blkCount) :=
        if_neg (by omega)
      have hend : p.index + p.blkCount + roundUp (freeSpace vol ⟨v, [p]⟩ - p.blkCount) ≤
          count := by omega
      obtain ⟨w, hgrow, -⟩ := growPartition_single hv hbs h64 v p hend
      rw [if_neg hge]
      exact ⟨w, _, hgrow⟩
  obtain ⟨w, q, hexpand⟩ := hexpand
  obtain ⟨w₁, hwrite, -⟩ := hv.writeBlock w 0 (some (header [q])) hcount
    (by rw [hbs, Buffer.holds_some, length_header (show [q].length ≤ 4 by simp)])
  obtain ⟨w₂, hcommit, -⟩ := hv.commit w₁
  refine ⟨⟨w₂, [q]⟩, ?_⟩
  unfold commit
  rw [Call.bind_apply, Call.get_apply, Outcome.bind_ok, Call.bind_apply]
  rw [show ([p] : List Part).length = 1 from rfl, hshrink, Outcome.bind_ok, Call.bind_apply]
  unfold eachPart
  rw [Call.bind_apply, hexpand, Outcome.bind_ok]
  change ((onVolume (vol.writeBlock 0 (some (header [q])))) _).bind _ = _
  unfold onVolume
  rw [Call.zoom_apply, hwrite, Outcome.mapState_ok, Outcome.bind_ok, Call.zoom_apply, hcommit]
  rfl

/-- A new partition of a mebibyte that is to fill the disk. -/
theorem createPartition_fill (units : Nat) (hunits : 2 ≤ units) (h64 : units * 2048 < 2 ^ 64) :
    ∃ v, createPartition (idealVolume sectorSize (units * 2048)) 2048 flagFill
      ⟨fun _ => 0, []⟩ = .ok () ⟨v, [⟨2048, 2048, 2048, 0, flagFill⟩]⟩ := by
  obtain ⟨v, hcreate⟩ := createPartition_idealVolume sectorSize h64 2048 flagFill []
    (fun _ => 0) (by decide) (by show 4096 ≤ units * 2048; omega)
  exact ⟨v, hcreate⟩

theorem inWord_first (v : σ) : InWord (⟨v, [⟨2048, 2048, 2048, 0, flagFill⟩]⟩ : Disk σ) := by
  constructor
  · intro p hp
    obtain rfl := List.mem_singleton.1 hp
    exact ⟨by decide, by decide⟩
  · show reserved + totalCount [fitted ⟨2048, 2048, 2048, 0, flagFill⟩] < 2 ^ 64
    decide

/-- A disk that the partition fills from the start. -/
theorem commit_filled_full :
    ∃ d d' : Disk Bytes, Reached (idealVolume sectorSize (2 * 2048)) (fun _ => 0) d ∧
      commit (idealVolume sectorSize (2 * 2048)) d = .ok () d' ∧
      Filled (idealVolume sectorSize (2 * 2048)) d d' := by
  obtain ⟨v, hcreate⟩ := createPartition_fill 2 (by decide) (by decide)
  have hreached := (Reached.empty fun _ => 0).create hcreate
  obtain ⟨d', hok⟩ := commit_single (p := ⟨2048, 2048, 2048, 0, flagFill⟩)
    (show BlockStore (idealVolume sectorSize (2 * 2048)) (2 * 2048) id from
      idealVolume_blockStore (by decide)) rfl (by decide) (by decide) v (by decide)
    (by decide) (by decide) (by
      show 2048 + grownCount (alignDown (min (2 * 2048) maxLba) -
        (reserved + totalCount [⟨2048, 2048, 2048, 0, flagFill⟩])) 2048 ≤ 2 * 2048
      decide)
  refine ⟨_, d', hreached, hok, (commit_filled_iff (idealVolume_fixedMax _ _) hreached
    (inWord_first v) ⟨_, List.mem_cons_self, by decide⟩ hok).2
    ⟨_, List.mem_cons_self, by decide, ?_⟩⟩
  show FillsUp (alignDown (min (2 * 2048) maxLba) -
    (reserved + totalCount [fitted ⟨2048, 2048, 2048, 0, flagFill⟩])) _
  decide

/-- Of five mebibytes the partition leaves one free. -/
theorem commit_leaves_free :
    ∃ d d' : Disk Bytes, Reached (idealVolume sectorSize (5 * 2048)) (fun _ => 0) d ∧
      (∃ p ∈ d.parts, p.fills = true) ∧
      commit (idealVolume sectorSize (5 * 2048)) d = .ok () d' ∧
      ¬ freeSpace (idealVolume sectorSize (5 * 2048)) d' < partAlign := by
  obtain ⟨v, hcreate⟩ := createPartition_fill 5 (by decide) (by decide)
  have hreached := (Reached.empty fun _ => 0).create hcreate
  obtain ⟨d', hok⟩ := commit_single (p := ⟨2048, 2048, 2048, 0, flagFill⟩)
    (show BlockStore (idealVolume sectorSize (5 * 2048)) (5 * 2048) id from
      idealVolume_blockStore (by decide)) rfl (by decide) (by decide) v (by decide)
    (by decide) (by decide) (by
      show 2048 + grownCount (alignDown (min (5 * 2048) maxLba) -
        (reserved + totalCount [⟨2048, 2048, 2048, 0, flagFill⟩])) 2048 ≤ 5 * 2048
      decide)
  refine ⟨_, d', hreached, ⟨_, List.mem_cons_self, by decide⟩, hok, ?_⟩
  rw [freeSpace_commit_iff (idealVolume_fixedMax _ _) (inWord_first v) hreached.oneFill
    (i := 0) rfl (by decide) hok]
  show ¬ FillsUp (alignDown (min (5 * 2048) maxLba) -
    (reserved + totalCount [fitted ⟨2048, 2048, 2048, 0, flagFill⟩])) _
  decide

end Disk

end ImageTool.Mbr
