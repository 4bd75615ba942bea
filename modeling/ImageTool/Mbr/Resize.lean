import ImageTool.Mbr.Disk

/-!
# What shrinking and growing do

On a sound table `shrink_partition` and `grow_partition` are a few operations on
the volume followed by `resize`.  The equations here say so exactly; the table
invariant and the isolation of partitions both start from them.
-/

namespace ImageTool.Mbr

open ImageTool.Lib ImageTool.Image

namespace Disk

variable {σ α : Type} {vol : Volume σ} {d : Disk σ} {i limit : Nat} {p : Part}

theorem part_apply (hp : d.parts[i]? = some p) : part i d = .ok p d := by
  simp [part, hp]

/-- What holds of a function for every entry holds of it at the partition. -/
theorem part_returns {f : Part → Call (Disk σ) α} {Q : α → Disk σ → Prop}
    {E : Disk σ → Prop}
    (h : ∀ p, d.parts[i]? = some p → Call.Returns (f p d) Q E) :
    Call.Returns ((part i >>= f) d) Q E := by
  rw [Call.bind_apply]
  cases hp : d.parts[i]? with
  | none => rw [show part i d = .stuck by simp [part, hp]]; trivial
  | some p =>
      rw [part_apply hp]
      exact h p hp

/-- A call on the volume leaves the table alone. -/
theorem onVolume_returns {m : Call σ α} {Q : α → σ → Prop} {E : σ → Prop}
    (h : Call.Returns (m d.volume) Q E) :
    Call.Returns (onVolume m d) (fun a d' => Q a d'.volume ∧ d'.parts = d.parts)
      (fun d' => E d'.volume ∧ d'.parts = d.parts) := by
  unfold onVolume
  rw [Call.zoom_apply]
  cases hres : m d.volume with
  | ok a v => rw [hres] at h; exact ⟨h, rfl⟩
  | fail v => rw [hres] at h; exact ⟨h, rfl⟩
  | stuck => trivial

/-! ## Computed bounds -/

private theorem foldl_lastSector {s : Nat} (top : Nat) {parts : List Part}
    (h : relay s parts = parts) (hpos : ∀ q ∈ parts, 0 < q.blkCount)
    (h64 : s + totalCount parts < 2 ^ 64) (htop : top ≤ s) :
    parts.foldl (fun max p => if p.lastSector > max then p.lastSector else max) top =
      if parts = [] then top else max top (s + totalCount parts - 1) := by
  induction parts generalizing s top with
  | nil => rfl
  | cons q qs ih =>
      simp only [relay, List.cons.injEq] at h
      have hq : q.index = s := (congrArg Part.index h.1).symm
      have hqpos := hpos q (by simp)
      simp only [totalCount_cons] at h64
      have hlast : q.lastSector = s + q.blkCount - 1 := by
        unfold Part.lastSector
        rw [sub64_of_le hqpos (by omega), u64_of_lt (by omega), hq]
        omega
      rw [List.foldl_cons, hlast, ih _ h.2 (fun r hr => hpos r (by simp [hr])) (by omega)
        (by split <;> omega)]
      simp only [reduceCtorEq, if_false, totalCount_cons]
      cases qs with
      | nil => simp only [if_true, totalCount_nil]; split <;> omega
      | cons r rs =>
          have hrpos := hpos r (by simp)
          simp only [reduceCtorEq, if_false, totalCount_cons]
          split <;> omega

/-- The highest sector of a table is the one in front of its end. -/
theorem maxSector_eq (hs : Sound limit d.parts) (h64 : limit < 2 ^ 64)
    (hp : d.parts[i]? = some p) : maxSector d.parts = tableEnd d.parts - 1 := by
  have hfits := hs.fits
  have hne : d.parts ≠ [] := by rintro h; rw [h] at hp; simp at hp
  have hfold := foldl_lastSector 0 hs.laid hs.pos
    (by unfold tableEnd at hfits; omega) (Nat.zero_le _)
  rw [if_neg hne, Nat.zero_max] at hfold
  exact hfold

private theorem foldl_nextFree {s : Nat} {parts : List Part}
    (h : relay s parts = parts) (h64 : s + totalCount parts < 2 ^ 64) :
    parts.foldl (fun index p =>
      if u64 (p.index + p.blkCount) > index then u64 (p.index + p.blkCount) else index) s =
      s + totalCount parts := by
  induction parts generalizing s with
  | nil => rfl
  | cons q qs ih =>
      simp only [relay, List.cons.injEq] at h
      have hq : q.index = s := (congrArg Part.index h.1).symm
      simp only [totalCount_cons] at h64
      have hstep : (if u64 (q.index + q.blkCount) > s then u64 (q.index + q.blkCount)
          else s) = s + q.blkCount := by
        rw [u64_of_lt (by omega), hq]
        split <;> omega
      rw [List.foldl_cons, hstep, ih h.2 (by omega), totalCount_cons, Nat.add_assoc]

/-- New partitions start at the end of the table. -/
theorem nextFree_eq (hs : Sound limit d.parts) (h64 : limit < 2 ^ 64) :
    nextFree d.parts = tableEnd d.parts :=
  foldl_nextFree hs.laid (Nat.lt_of_le_of_lt hs.fits h64)

theorem foldl_used {s : Nat} {parts : List Part}
    (h64 : s + totalCount parts < 2 ^ 64) :
    parts.foldl (fun used p => u64 (used + p.blkCount)) s = s + totalCount parts := by
  induction parts generalizing s with
  | nil => rfl
  | cons q qs ih =>
      simp only [totalCount_cons] at h64
      rw [List.foldl_cons, u64_of_lt (by omega), ih (by omega), totalCount_cons,
        Nat.add_assoc]

/-- The free space lies between the end of the table and the last aligned sector
of the volume. -/
theorem getFreeSpace_spec (vol : Volume σ) (hs : Sound limit d.parts) (h64 : limit < 2 ^ 64) :
    getFreeSpace vol d = 0 ∨ (∃ free, free ≤ vol.getMaxBlockCount d.volume ∧
      free ≤ maxLba ∧ free % partAlign = 0 ∧ tableEnd d.parts < free ∧
      getFreeSpace vol d = free - tableEnd d.parts) := by
  have hused : d.parts.foldl (fun used p => u64 (used + p.blkCount)) reserved =
      tableEnd d.parts := foldl_used (Nat.lt_of_le_of_lt hs.fits h64)
  unfold getFreeSpace
  dsimp only
  rw [hused]
  generalize hcap : (if vol.getMaxBlockCount d.volume > maxLba then maxLba
    else vol.getMaxBlockCount d.volume) = cap
  have hle : cap ≤ vol.getMaxBlockCount d.volume := by subst hcap; split <;> omega
  have hlba : cap ≤ maxLba := by subst hcap; split <;> omega
  generalize hfree : (if cap % partAlign ≠ 0 then cap - cap % partAlign else cap) = free
  have hfle : free ≤ cap := by subst hfree; split <;> omega
  have hmod : free % partAlign = 0 := by
    subst hfree
    rw [partAlign_eq]
    split <;> omega
  by_cases hlt : tableEnd d.parts < free
  · right
    exact ⟨free, Nat.le_trans hfle hle, Nat.le_trans hfle hlba, hmod, hlt, if_pos hlt⟩
  · left
    exact if_neg hlt

/-- The sectors of the volume, in whole alignment units, that no partition takes up. -/
def freeSpace (vol : Volume σ) (d : Disk σ) : Nat :=
  alignDown (min (vol.getMaxBlockCount d.volume) maxLba) - (reserved + totalCount d.parts)

/-- Where the sizes add up to a 64-bit value, `get_free_space` is the free space. -/
theorem getFreeSpace_eq (h : reserved + totalCount d.parts < 2 ^ 64) :
    getFreeSpace vol d = freeSpace vol d := by
  have hused := foldl_used h
  unfold getFreeSpace freeSpace alignDown
  dsimp only
  rw [hused]
  have hcap : (if vol.getMaxBlockCount d.volume > maxLba then maxLba
      else vol.getMaxBlockCount d.volume) = min (vol.getMaxBlockCount d.volume) maxLba := by
    split <;> omega
  rw [hcap]
  generalize (if min (vol.getMaxBlockCount d.volume) maxLba % partAlign ≠ 0 then _ else _) =
    free
  split <;> omega

/-! ## Shrinking -/

/-- Shrinking discards the end of the table and resizes. -/
theorem shrinkPartition_eq (hs : Sound limit d.parts) (h64 : limit < 2 ^ 64)
    (hp : d.parts[i]? = some p) (hmin : p.blkCountMin ≤ p.blkCount) (diff : Nat) :
    shrinkPartition vol i diff d =
      if shrunk p diff = p.blkCount then .ok () d
      else (onVolume (vol.discardBlocks
        (tableEnd d.parts - 1 - (p.blkCount - shrunk p diff))
        (p.blkCount - shrunk p diff)) d).bind fun _ d' =>
          .ok () { d' with parts := resize d.parts i (shrunk p diff) } := by
  have hbound := hs.index_add_le hp
  have hfits := hs.fits
  obtain ⟨hclamp, hle⟩ := clampDiff_eq diff (hs.large i p hp) hmin (by omega)
  have hpos : 0 < shrunk p diff := by
    have : partAlign ≤ shrunk p diff := by unfold shrunk; omega
    rw [partAlign_eq] at this
    omega
  unfold shrinkPartition
  rw [Call.bind_apply, part_apply hp, Outcome.bind_ok, hclamp]
  by_cases hsame : shrunk p diff = p.blkCount
  · rw [if_pos (by omega), if_pos hsame, Call.pure_apply]
  · rw [if_neg (by omega), if_neg hsame, Call.bind_apply, Call.get_apply,
      Outcome.bind_ok, maxSector_eq hs h64 hp, sub64_of_le (by omega) (by omega),
      Call.bind_apply]
    have hresize := shiftDown_eq_resize (p.blkCount - shrunk p diff) hs.laid hs.pos
      hp (by omega) (by omega)
    rw [show p.blkCount - (p.blkCount - shrunk p diff) = shrunk p diff by omega]
      at hresize
    unfold onVolume
    rw [Call.zoom_apply]
    cases vol.discardBlocks (tableEnd d.parts - 1 - (p.blkCount - shrunk p diff))
        (p.blkCount - shrunk p diff) d.volume with
    | ok a v =>
        simp only [Outcome.mapState_ok, Outcome.bind_ok, update, Call.bind_apply,
          Call.modify_apply, hresize]
        rfl
    | fail v => rfl
    | stuck => rfl

/-! ## Growing -/

/-- `grow_partition` behind the loop that shrinks the later partitions. -/
def growTail (vol : Volume σ) (i start count diff : Nat) : Call (Disk σ) Unit := do
  let diff := u64 (roundUp diff)
  let d ← Call.get
  let max := maxSector d.parts
  onVolume (volumeMemmove vol (u64 ((start + count + diff) * sectorSize))
    (u64 ((start + count) * sectorSize))
    (u64 (sub64 max (sub64 (start + count) 1) * sectorSize)))
  onVolume (volumeWrite vol (u64 ((start + count) * sectorSize)) none
    (u64 (diff * sectorSize)))
  Call.modify fun d => { d with parts := d.parts.map (shiftUp start diff) }
  update i fun q => { q with blkCount := u64 (q.blkCount + diff) }

theorem growPartition_eq (hp : d.parts[i]? = some p) (diff : Nat) :
    growPartition vol i diff d =
      (shrinkBehind vol p.index 0 d.parts.length d).bind fun _ d' =>
        growTail vol i p.index p.blkCount diff d' := by
  unfold growPartition
  rw [Call.bind_apply, part_apply hp, Outcome.bind_ok, Call.bind_apply, Call.get_apply,
    Outcome.bind_ok, Call.bind_apply]
  rfl

/-- Growing moves what lies behind the partition up, clears the gap and resizes. -/
theorem growTail_eq (hs : Sound limit d.parts) (hp : d.parts[i]? = some p) {diff : Nat}
    (h64 : tableEnd d.parts + roundUp diff < 2 ^ 64) (hlimit : limit < 2 ^ 64) :
    growTail vol i p.index p.blkCount diff d =
      ((onVolume (volumeMemmove vol
        (u64 ((p.index + p.blkCount + roundUp diff) * sectorSize))
        (u64 ((p.index + p.blkCount) * sectorSize))
        (u64 ((tableEnd d.parts - (p.index + p.blkCount)) * sectorSize))) d).bind
      fun _ => onVolume (volumeWrite vol (u64 ((p.index + p.blkCount) * sectorSize)) none
        (u64 (roundUp diff * sectorSize)))).bind
      fun _ d' => .ok () { d' with
        parts := resize d.parts i (p.blkCount + roundUp diff) } := by
  have hbound := hs.index_add_le hp
  have hfits := hs.fits
  have hlarge := hs.large i p hp
  rw [partAlign_eq] at hlarge
  have hresize := shiftUp_eq_resize (roundUp diff) hs.laid hs.pos hp h64
  have hsize : sub64 (tableEnd d.parts - 1) (sub64 (p.index + p.blkCount) 1) =
      tableEnd d.parts - (p.index + p.blkCount) := by
    rw [sub64_of_le (b := 1) (by omega) (by omega), sub64_of_le (by omega) (by omega)]
    omega
  unfold growTail
  rw [u64_of_lt (show roundUp diff < 2 ^ 64 by omega), Call.bind_apply, Call.get_apply,
    Outcome.bind_ok, maxSector_eq hs hlimit hp, hsize, Call.bind_apply]
  unfold onVolume
  rw [Call.zoom_apply]
  cases volumeMemmove vol (u64 ((p.index + p.blkCount + roundUp diff) * sectorSize))
      (u64 ((p.index + p.blkCount) * sectorSize))
      (u64 ((tableEnd d.parts - (p.index + p.blkCount)) * sectorSize)) d.volume with
  | fail v => rfl
  | stuck => rfl
  | ok a v =>
      simp only [Outcome.mapState_ok, Outcome.bind_ok, Call.bind_apply, Call.zoom_apply]
      cases volumeWrite vol (u64 ((p.index + p.blkCount) * sectorSize)) none
          (u64 (roundUp diff * sectorSize)) v with
      | fail w => rfl
      | stuck => rfl
      | ok b w =>
          simp only [Outcome.mapState_ok, Outcome.bind_ok, update, Call.bind_apply,
            Call.modify_apply, hresize]
          rfl

/-! ## Flags -/

theorem partSetFlags_eq (i : Nat) (flags : BitVec 64) (d : Disk σ) :
    partSetFlags i flags d = .ok () { d with parts := setFlags d.parts i flags } := by
  unfold partSetFlags setFlags
  by_cases hf : flags &&& flagFill ≠ 0
  · rw [Call.bind_apply, Call.guard_pos hf, if_pos hf]
    rfl
  · rw [Call.bind_apply, Call.guard_neg hf, if_neg hf]
    rfl

/-! ## Loops over the table -/

/-- The loop of `grow_partition` leaves the slots up to `i` alone and shrinks every
later one to fit.  `I j` describes the state once the slots below `j` are done. -/
theorem shrinkBehind_rule (hs : Sound limit d.parts) (hp : d.parts[i]? = some p)
    {I : Nat → Disk σ → Prop} {E : Disk σ → Prop}
    (hparts : ∀ j d', I j d' → d'.parts = fitRange (i + 1) j d.parts ∧
      Sound limit d'.parts)
    (hinit : I (i + 1) d)
    (hstep : ∀ j d' q, i < j → d.parts[j]? = some q → I j d' →
      Call.Returns (shrinkToFit vol j d') (fun _ => I (j + 1)) E) :
    Call.Returns (shrinkBehind vol p.index 0 d.parts.length d)
      (fun _ => I d.parts.length) E := by
  have hlen : i < d.parts.length := (List.getElem?_eq_some_iff.1 hp).1
  have hbehind : ∀ n j d', i < j → j + n = d.parts.length → I j d' →
      Call.Returns (shrinkBehind vol p.index j n d') (fun _ => I d.parts.length) E := by
    intro n
    induction n with
    | zero =>
        intro j d' _ hj hI
        rw [Nat.add_zero] at hj
        subst hj
        exact hI
    | succ n ih =>
        intro j d' hij hj hI
        obtain ⟨hd', hsound⟩ := hparts j d' hI
        have hq : d.parts[j]? = some d.parts[j] := List.getElem?_eq_getElem (by omega)
        obtain ⟨q', hq'⟩ : ∃ q', d'.parts[j]? = some q' := by
          rw [hd', getElem?_fitRange, hq]
          exact ⟨_, rfl⟩
        have hpi : d'.parts[i]? = some p := by
          rw [hd', fitRange_getElem?_of_lt hs.laid (Nat.lt_succ_self i)]
          exact hp
        have hgt : q'.index > p.index := (hsound.index_lt_iff hpi hq').2 hij
        unfold shrinkBehind
        rw [Call.bind_apply, part_apply hq', Outcome.bind_ok, Call.guard_pos hgt,
          Call.bind_apply]
        exact (hstep j d' _ hij hq hI).bind fun _ d'' hI' =>
          ih (j + 1) d'' (by omega) (by omega) hI'
  have hfront : ∀ n j, j + n = i + 1 →
      shrinkBehind vol p.index j (n + (d.parts.length - (i + 1))) d =
        shrinkBehind vol p.index (i + 1) (d.parts.length - (i + 1)) d := by
    intro n
    induction n with
    | zero => intro j hj; rw [Nat.zero_add, show j = i + 1 by omega]
    | succ n ih =>
        intro j hj
        have hq : d.parts[j]? = some d.parts[j] := List.getElem?_eq_getElem (by omega)
        have hle : ¬ d.parts[j].index > p.index := by
          rw [hs.index_lt_iff hp hq]
          omega
        rw [Nat.add_right_comm]
        conv_lhs => unfold shrinkBehind
        rw [Call.bind_apply, part_apply hq, Outcome.bind_ok, Call.guard_neg hle,
          Call.bind_apply, Call.pure_apply, Outcome.bind_ok]
        exact ih (j + 1) (by omega)
  have hall := hfront (i + 1) 0 (by omega)
  rw [show i + 1 + (d.parts.length - (i + 1)) = d.parts.length by omega] at hall
  rw [hall]
  exact hbehind _ (i + 1) d (Nat.lt_succ_self i) (by omega) hinit

/-- The loops of `mbr_disk_commit`. -/
theorem eachPart_rule {f : Nat → Call (Disk σ) Unit} {I : Nat → Disk σ → Prop}
    {E : Disk σ → Prop} {n : Nat}
    (hstep : ∀ j d', j < n → I j d' → Call.Returns (f j d') (fun _ => I (j + 1)) E) :
    ∀ m j d', j + m = n → I j d' →
      Call.Returns (eachPart f j m d') (fun _ => I n) E := by
  intro m
  induction m with
  | zero =>
      intro j d' hj hI
      rw [Nat.add_zero] at hj
      subst hj
      exact hI
  | succ m ih =>
      intro j d' hj hI
      exact (hstep j d' (by omega) hI).bind fun _ d'' hI' =>
        ih (j + 1) d'' (by omega) hI'

end Disk

end ImageTool.Mbr
