import Mathlib.Data.List.Basic
import ImageTool.Lib.Word

/-!
# Sparse regions of a file

A file keeps the blocks it does not store in a list of regions with 32-bit starts
and lengths.  `Within lo hi` says that the regions are sorted, disjoint, not empty
and lie between block `lo` and block `hi`; the functions that change the list keep
it, and add or remove exactly the block they are given.
-/

namespace ImageTool.Fstree

open ImageTool.Lib

/-- `file_sparse_holes_t`. -/
structure Region where
  index : Nat
  count : Nat
  deriving DecidableEq

namespace Region

/-- The region contains block `i`. -/
def Has (r : Region) (i : Nat) : Prop := r.index ≤ i ∧ i < r.index + r.count

instance (r : Region) (i : Nat) : Decidable (r.Has i) :=
  inferInstanceAs (Decidable (_ ∧ _))

end Region

/-- The test of the source for a block inside a region. -/
def inRegion (index : Nat) (it : Region) : Bool :=
  it.index ≤ index && index - it.index < it.count

/-- `try_merge`, from the region behind `prev` on; the list returned starts with
`prev`. -/
def tryMerge (index : Nat) : Option Region → List Region → Option (List Region)
  | _, [] => none
  | prev, it :: next =>
      if index ≥ it.index then
        if it.count > index - it.index then some (prev.toList ++ it :: next)
        else if it.count = index - it.index then
          let it := { it with count := u32 (it.count + 1) }
          some (prev.toList ++ match next with
            | r :: rest =>
                if r.index = u32 (it.index + it.count) then
                  { it with count := u32 (it.count + r.count) } :: rest
                else it :: r :: rest
            | [] => [it])
        else (tryMerge index (some it) next).map (prev.toList ++ ·)
      else if u64 (index + 1) = it.index then
        let it : Region := ⟨u32 (it.index + (2 ^ 32 - 1)), u32 (it.count + 1)⟩
        some (match prev with
          | some p =>
              if it.index = u32 (p.index + p.count) then
                { p with count := u32 (p.count + it.count) } :: next
              else p :: it :: next
          | none => it :: next)
      else (tryMerge index (some it) next).map (prev.toList ++ ·)

/-- `insert_new_region`. -/
def insertNewRegion (sparse : Region) : List Region → List Region
  | [] => [sparse]
  | it :: next =>
      if it.index < sparse.index then it :: insertNewRegion sparse next
      else sparse :: it :: next

/-- `fstree_file_mark_sparse`. -/
def markSparse (rs : List Region) (index : Nat) : List Region :=
  match tryMerge index none rs with
  | some rs => rs
  | none => insertNewRegion ⟨u32 index, 1⟩ rs

/-- `fstree_file_mark_not_sparse`. -/
def markNotSparse : List Region → Nat → List Region
  | [], _ => []
  | it :: next, index =>
      if inRegion index it then
        let rel := index - it.index
        if rel = 0 ∨ rel = it.count - 1 then
          if it.count - 1 = 0 then next
          else if rel = 0 then ⟨u32 (it.index + 1), it.count - 1⟩ :: next
          else ⟨it.index, it.count - 1⟩ :: next
        else
          ⟨it.index, u32 rel⟩ ::
            ⟨u32 (it.index + rel + 1), u32 (it.count - rel - 1)⟩ :: next
      else it :: markNotSparse next index

/-- The list `truncate_sparse` leaves of a file that is cut down to `count` blocks. -/
def truncateSparse (count : Nat) : List Region → List Region
  | [] => []
  | it :: next =>
      if it.index ≥ count then truncateSparse count next
      else (if it.count ≥ count - it.index then { it with count := u32 (count - it.index) }
        else it) :: truncateSparse count next

/-! ## Sorted lists -/

/-- Sorted, disjoint, non-empty regions between block `lo` and block `hi`. -/
def Within (lo hi : Nat) : List Region → Prop
  | [] => lo ≤ hi
  | r :: rs => lo ≤ r.index ∧ 0 < r.count ∧ Within (r.index + r.count) hi rs

instance Within.decidable (lo hi : Nat) : (rs : List Region) → Decidable (Within lo hi rs)
  | [] => inferInstanceAs (Decidable (lo ≤ hi))
  | r :: rs =>
      have := Within.decidable (r.index + r.count) hi rs
      inferInstanceAs (Decidable (_ ∧ _ ∧ _))

/-- Some region contains block `i`. -/
def Covers (rs : List Region) (i : Nat) : Prop := ∃ r ∈ rs, r.Has i

/-- A region ends in front of block `b`. -/
def EndsAt (rs : List Region) (b : Nat) : Prop := ∃ r ∈ rs, r.index + r.count = b

/-- The number of blocks in all regions. -/
def total (rs : List Region) : Nat := (rs.map Region.count).sum

@[simp] theorem total_nil : total [] = 0 := rfl

@[simp] theorem total_cons (r : Region) (rs : List Region) :
    total (r :: rs) = r.count + total rs := by simp [total]

@[simp] theorem covers_nil (i : Nat) : ¬ Covers [] i := by
  rintro ⟨r, hr, _⟩
  cases hr

@[simp] theorem covers_cons (r : Region) (rs : List Region) (i : Nat) :
    Covers (r :: rs) i ↔ r.Has i ∨ Covers rs i := by
  simp [Covers]

theorem inRegion_iff {index : Nat} {it : Region} : inRegion index it = true ↔ it.Has index := by
  unfold inRegion Region.Has
  rw [Bool.and_eq_true, decide_eq_true_iff, decide_eq_true_iff]
  omega

variable {lo hi : Nat} {rs : List Region}

theorem Within.le (h : Within lo hi rs) : lo ≤ hi := by
  induction rs generalizing lo with
  | nil => exact h
  | cons r rs ih =>
      have := ih h.2.2
      have := h.1
      omega

theorem Within.mono {lo' hi' : Nat} (h : Within lo hi rs) (hlo : lo' ≤ lo) (hhi : hi ≤ hi') :
    Within lo' hi' rs := by
  induction rs generalizing lo lo' with
  | nil => exact Nat.le_trans hlo (Nat.le_trans h hhi)
  | cons r rs ih => exact ⟨Nat.le_trans hlo h.1, h.2.1, ih h.2.2 (Nat.le_refl _)⟩

theorem Within.total_le (h : Within lo hi rs) : lo + total rs ≤ hi := by
  induction rs generalizing lo with
  | nil => exact h
  | cons r rs ih =>
      have hrest := ih h.2.2
      have hstart := h.1
      rw [total_cons]
      omega

/-- A block in none of the regions is left over. -/
theorem Within.total_lt (h : Within lo hi rs) {x : Nat} (hlo : lo ≤ x) (hhi : x < hi)
    (hx : ¬ Covers rs x) : lo + total rs < hi := by
  induction rs generalizing lo with
  | nil =>
      rw [total_nil]
      omega
  | cons r rs ih =>
      obtain ⟨hstart, -, hrest⟩ := h
      rw [covers_cons, not_or] at hx
      obtain ⟨hout, hx⟩ := hx
      unfold Region.Has at hout
      have htotal := hrest.total_le
      rw [total_cons]
      by_cases hbehind : r.index + r.count ≤ x
      · have := ih hrest hbehind hx
        omega
      · omega

theorem Within.bounds (h : Within lo hi rs) {i : Nat} (hi' : Covers rs i) :
    lo ≤ i ∧ i < hi := by
  induction rs generalizing lo with
  | nil => exact absurd hi' (covers_nil i)
  | cons r rs ih =>
      have hstart := h.1
      rcases (covers_cons r rs i).1 hi' with hr | hrs
      · have hend := h.2.2.le
        unfold Region.Has at hr
        omega
      · have := ih h.2.2 hrs
        omega

/-- Every region lies between the bounds and is not empty. -/
theorem Within.region (h : Within lo hi rs) {r : Region} (hr : r ∈ rs) :
    lo ≤ r.index ∧ 0 < r.count ∧ r.index + r.count ≤ hi := by
  induction rs generalizing lo with
  | nil => cases hr
  | cons it next ih =>
      obtain ⟨hstart, hpos, hrest⟩ := h
      rcases List.mem_cons.1 hr with rfl | hr
      · exact ⟨hstart, hpos, hrest.le⟩
      · have := ih hrest hr
        omega

/-! ## Marking a block sparse -/

/-- `try_merge` on a sorted list, where nothing wraps and the region in front of a
block has been tried before the one behind it. -/
def mergeInto (index : Nat) : List Region → Option (List Region)
  | [] => none
  | it :: next =>
      if it.index ≤ index then
        if it.index + it.count = index then
          match next with
          | r :: rest =>
              if r.index = index + 1 then some (⟨it.index, it.count + 1 + r.count⟩ :: rest)
              else some (⟨it.index, it.count + 1⟩ :: r :: rest)
          | [] => some [⟨it.index, it.count + 1⟩]
        else (mergeInto index next).map (it :: ·)
      else if index + 1 = it.index then some (⟨index, it.count + 1⟩ :: next)
      else none

/-- No region behind the next block can be merged with it. -/
private theorem tryMerge_none {index : Nat} (h : Within lo hi rs) (hlo : index + 1 < lo)
    (hhi : hi < 2 ^ 32) (prev : Option Region) : tryMerge index prev rs = none := by
  have hle := h.le
  induction rs generalizing lo prev with
  | nil => rfl
  | cons it next ih =>
      have hstart := h.1
      have hend := h.2.2.le
      unfold tryMerge
      rw [if_neg (by omega), u64_of_lt (by omega), if_neg (by omega),
        ih h.2.2 (by omega) (some it) hend]
      rfl

theorem tryMerge_eq {index : Nat} (hhi : hi < 2 ^ 32) (hindex : index < hi)
    {prev : Option Region} (h : Within lo hi rs) (hcover : ¬ Covers rs index)
    (hprev : ∀ p, prev = some p → p.index + p.count < index) :
    tryMerge index prev rs = (mergeInto index rs).map (prev.toList ++ ·) := by
  induction rs generalizing lo prev with
  | nil => rfl
  | cons it next ih =>
      have hpos := h.2.1
      have hend := h.2.2.le
      rw [covers_cons, not_or] at hcover
      obtain ⟨hout, hrest⟩ := hcover
      unfold Region.Has at hout
      unfold tryMerge mergeInto
      by_cases hge : it.index ≤ index
      · rw [if_pos hge, if_pos hge, if_neg (by omega)]
        by_cases heq : it.index + it.count = index
        · rw [if_pos (by omega), if_pos heq, u32_of_lt (by omega)]
          cases next with
          | nil => rfl
          | cons r rest =>
              have hr := h.2.2.2.2.le
              have hrpos := h.2.2.2.1
              have hrstart := h.2.2.1
              have hfree : r.index ≠ index := by
                intro h
                apply hrest
                rw [covers_cons]
                left
                unfold Region.Has
                omega
              simp only
              rw [u32_of_lt (by omega), u32_of_lt (by omega),
                show it.index + (it.count + 1) = index + 1 by omega]
              split <;> rfl
        · rw [if_neg (by omega), if_neg heq, ih h.2.2 hrest (by
            intro p hp
            cases hp
            omega), Option.map_map, Option.map_map]
          rfl
      · rw [if_neg hge, if_neg hge, u64_of_lt (by omega)]
        by_cases hnext : index + 1 = it.index
        · rw [if_pos hnext, if_pos hnext]
          have hindex' : u32 (it.index + (2 ^ 32 - 1)) = index := by
            unfold u32
            omega
          dsimp only
          rw [hindex', u32_of_lt (by omega)]
          cases prev with
          | none => rfl
          | some p =>
              have hp := hprev p rfl
              have hne : ¬ index = u32 (p.index + p.count) := by
                rw [u32_of_lt (by omega)]
                omega
              simp only
              rw [if_neg hne]
              rfl
        · rw [if_neg hnext, if_neg hnext, tryMerge_none h.2.2 (by omega) hhi,
            Option.map_none]

/-- A list of regions with block `index` added. -/
structure Added (lo hi index : Nat) (rs rs' : List Region) : Prop where
  within : Within lo hi rs'
  total : total rs' = total rs + 1
  covers : ∀ i, Covers rs' i ↔ Covers rs i ∨ i = index

private theorem mergeInto_added {index : Nat} (hhi : index < hi) {rs' : List Region}
    (h : Within lo hi rs) (hcover : ¬ Covers rs index) (hlo : lo ≤ index)
    (hrun : mergeInto index rs = some rs') : Added lo hi index rs rs' := by
  induction rs generalizing lo rs' with
  | nil => cases hrun
  | cons it next ih =>
      obtain ⟨hstart, hpos, hwithin⟩ := h
      rw [covers_cons, not_or] at hcover
      obtain ⟨hout, hrest⟩ := hcover
      unfold Region.Has at hout
      unfold mergeInto at hrun
      by_cases hge : it.index ≤ index
      · rw [if_pos hge] at hrun
        by_cases heq : it.index + it.count = index
        · rw [if_pos heq] at hrun
          cases next with
          | nil =>
              cases hrun
              have hend : it.index + (it.count + 1) ≤ hi := by omega
              refine ⟨⟨hstart, Nat.succ_pos _, hend⟩, by simp, ?_⟩
              intro i
              simp only [covers_cons, covers_nil, or_false, Region.Has]
              omega
          | cons r rest =>
              obtain ⟨hr, hrpos, hrwithin⟩ := hwithin
              have hrne : index ≤ r.index := by omega
              have hrne' : r.index ≠ index := by
                intro h
                apply hrest
                rw [covers_cons]
                left
                unfold Region.Has
                omega
              by_cases hadj : r.index = index + 1
              · simp only [if_pos hadj] at hrun
                cases hrun
                have hlong : 0 < it.count + 1 + r.count := by omega
                refine ⟨⟨hstart, hlong, ?_⟩, ?_, ?_⟩
                · have hend : it.index + (it.count + 1 + r.count) = r.index + r.count := by
                    omega
                  rw [hend]
                  exact hrwithin
                · simp only [total_cons]
                  omega
                · intro i
                  simp only [covers_cons, Region.Has]
                  rw [← or_assoc, or_right_comm]
                  refine or_congr ?_ Iff.rfl
                  omega
              · simp only [if_neg hadj] at hrun
                cases hrun
                have hgap : it.index + (it.count + 1) ≤ r.index := by omega
                refine ⟨⟨hstart, Nat.succ_pos _, hgap, hrpos, hrwithin⟩, ?_, ?_⟩
                · simp only [total_cons]
                  omega
                · intro i
                  rw [covers_cons, covers_cons it, or_right_comm]
                  refine or_congr ?_ Iff.rfl
                  simp only [Region.Has]
                  omega
        · rw [if_neg heq] at hrun
          obtain ⟨rs'', hrun', rfl⟩ := Option.map_eq_some_iff.1 hrun
          have hadded := ih hwithin hrest (by omega) hrun'
          refine ⟨⟨hstart, hpos, hadded.within⟩, ?_, ?_⟩
          · rw [total_cons, total_cons, hadded.total, Nat.add_assoc]
          · intro i
            rw [covers_cons, covers_cons, hadded.covers, or_assoc]
      · rw [if_neg hge] at hrun
        split at hrun
        · rename_i hnext
          cases hrun
          refine ⟨⟨hlo, Nat.succ_pos _, ?_⟩, ?_, ?_⟩
          · show Within (index + (it.count + 1)) hi next
            rw [show index + (it.count + 1) = it.index + it.count by omega]
            exact hwithin
          · simp only [total_cons]
            omega
          · intro i
            rw [covers_cons, covers_cons, or_right_comm]
            refine or_congr ?_ Iff.rfl
            simp only [Region.Has]
            omega
        · cases hrun

private theorem insertNewRegion_added {index : Nat} (hhi : index < hi) (h : Within lo hi rs)
    (hcover : ¬ Covers rs index) (hlo : lo ≤ index) :
    Added lo hi index rs (insertNewRegion ⟨index, 1⟩ rs) := by
  induction rs generalizing lo with
  | nil =>
      refine ⟨⟨hlo, Nat.one_pos, hhi⟩, by simp [insertNewRegion], ?_⟩
      intro i
      simp only [insertNewRegion, covers_cons, covers_nil, or_false, false_or, Region.Has]
      omega
  | cons it next ih =>
      obtain ⟨hstart, hpos, hwithin⟩ := h
      rw [covers_cons, not_or] at hcover
      obtain ⟨hout, hrest⟩ := hcover
      unfold Region.Has at hout
      unfold insertNewRegion
      split
      · rename_i hlt
        have hadded := ih hwithin hrest (by simp only at hlt; omega)
        refine ⟨⟨hstart, hpos, hadded.within⟩, ?_, ?_⟩
        · rw [total_cons, total_cons, hadded.total, Nat.add_assoc]
        · intro i
          rw [covers_cons, covers_cons, hadded.covers, or_assoc]
      · rename_i hge
        simp only at hge
        refine ⟨⟨hlo, Nat.one_pos, by show index + 1 ≤ _; omega, hpos, hwithin⟩, ?_, ?_⟩
        · rw [total_cons]
          exact Nat.add_comm _ _
        · intro i
          rw [covers_cons, or_comm]
          refine or_congr Iff.rfl ?_
          simp only [Region.Has]
          omega

/-- Marking a stored block sparse. -/
theorem markSparse_added {index : Nat} (hhi : hi < 2 ^ 32) (hindex : index < hi)
    (h : Within lo hi rs) (hcover : ¬ Covers rs index) (hlo : lo ≤ index) :
    Added lo hi index rs (markSparse rs index) := by
  have hmerge : tryMerge index none rs = (mergeInto index rs).map ([] ++ ·) :=
    tryMerge_eq hhi hindex h hcover (by intro p hp; cases hp)
  unfold markSparse
  rw [hmerge]
  cases hinto : mergeInto index rs with
  | none =>
      simp only [Option.map_none]
      rw [u32_of_lt (by omega)]
      exact insertNewRegion_added hindex h hcover hlo
  | some rs' => exact mergeInto_added hindex h hcover hlo hinto

/-- Every region of a sorted list ends behind its lower bound. -/
private theorem Within.not_endsAt (h : Within lo hi rs) {b : Nat} (hb : b ≤ lo) :
    ¬ EndsAt rs b := by
  rintro ⟨r, hr, hend⟩
  have := h.region hr
  omega

private theorem endsAt_cons {r : Region} {b : Nat} :
    EndsAt (r :: rs) b ↔ r.index + r.count = b ∨ EndsAt rs b := by
  simp [EndsAt]

/-- The block is merged with the region in front of it. -/
private theorem mergeInto_not_endsAt {index : Nat} {rs' : List Region} (h : Within lo hi rs)
    (hrun : mergeInto index rs = some rs') : ¬ EndsAt rs' index := by
  induction rs generalizing lo rs' with
  | nil => cases hrun
  | cons it next ih =>
      obtain ⟨hstart, hpos, hwithin⟩ := h
      unfold mergeInto at hrun
      by_cases hge : it.index ≤ index
      · rw [if_pos hge] at hrun
        by_cases heq : it.index + it.count = index
        · rw [if_pos heq] at hrun
          have hrest := hwithin.not_endsAt (Nat.le_of_eq heq.symm)
          cases next with
          | nil =>
              cases hrun
              rw [endsAt_cons, not_or]
              exact ⟨by simp only; omega, hrest⟩
          | cons r rest =>
              rw [endsAt_cons, not_or] at hrest
              dsimp only at hrun
              split at hrun
              · cases hrun
                rw [endsAt_cons, not_or]
                exact ⟨by simp only; omega, hrest.2⟩
              · cases hrun
                rw [endsAt_cons, endsAt_cons, not_or, not_or]
                exact ⟨by simp only; omega, hrest⟩
        · rw [if_neg heq] at hrun
          obtain ⟨rs'', hrun', rfl⟩ := Option.map_eq_some_iff.1 hrun
          rw [endsAt_cons, not_or]
          exact ⟨heq, ih hwithin hrun'⟩
      · rw [if_neg hge] at hrun
        split at hrun
        · cases hrun
          rw [endsAt_cons, not_or]
          exact ⟨by simp only; omega, hwithin.not_endsAt (by omega)⟩
        · cases hrun

/-- There was no region to merge the block with. -/
private theorem mergeInto_none {index : Nat} (h : Within lo hi rs)
    (hrun : mergeInto index rs = none) : ¬ EndsAt rs index := by
  induction rs generalizing lo with
  | nil => simp [EndsAt]
  | cons it next ih =>
      obtain ⟨hstart, hpos, hwithin⟩ := h
      unfold mergeInto at hrun
      rw [endsAt_cons, not_or]
      by_cases hge : it.index ≤ index
      · rw [if_pos hge] at hrun
        by_cases heq : it.index + it.count = index
        · rw [if_pos heq] at hrun
          cases next with
          | nil => cases hrun
          | cons r rest =>
              dsimp only at hrun
              split at hrun <;> cases hrun
        · rw [if_neg heq, Option.map_eq_none_iff] at hrun
          exact ⟨heq, ih hwithin hrun⟩
      · exact ⟨by omega, hwithin.not_endsAt (by omega)⟩

private theorem mem_insertNewRegion {r sparse : Region} (h : r ∈ insertNewRegion sparse rs) :
    r = sparse ∨ r ∈ rs := by
  induction rs with
  | nil => simpa [insertNewRegion] using h
  | cons it next ih =>
      unfold insertNewRegion at h
      split at h
      · rcases List.mem_cons.1 h with rfl | h
        · simp
        · simpa using (ih h).imp_right Or.inr
      · simpa using h

/-- A block that is marked sparse follows no region. -/
theorem markSparse_not_endsAt {index : Nat} (hhi : hi < 2 ^ 32) (hindex : index < hi)
    (h : Within lo hi rs) (hcover : ¬ Covers rs index) : ¬ EndsAt (markSparse rs index) index := by
  have hmerge : tryMerge index none rs = (mergeInto index rs).map ([] ++ ·) :=
    tryMerge_eq hhi hindex h hcover (by intro p hp; cases hp)
  unfold markSparse
  rw [hmerge]
  cases hinto : mergeInto index rs with
  | some rs' => exact mergeInto_not_endsAt h hinto
  | none =>
      rw [Option.map_none, u32_of_lt (by omega)]
      rintro ⟨r, hr, hend⟩
      rcases mem_insertNewRegion hr with rfl | hr
      · simp at hend
      · exact mergeInto_none h hinto ⟨r, hr, hend⟩

/-! ## Marking a block not sparse -/

/-- A list of regions with block `index` removed. -/
structure Removed (lo hi index : Nat) (rs rs' : List Region) : Prop where
  within : Within lo hi rs'
  total : total rs' + 1 = total rs
  covers : ∀ i, Covers rs' i ↔ Covers rs i ∧ i ≠ index

/-- The first region is replaced by what the block leaves of it. -/
private theorem removed_first {index : Nat} {it : Region} {left next : List Region}
    (hin : it.Has index) (hnext : Within (it.index + it.count) hi next)
    (hwithin : Within lo hi (left ++ next)) (htotal : total left + 1 = it.count)
    (hleft : ∀ i, Covers left i ↔ it.Has i ∧ i ≠ index) :
    Removed lo hi index (it :: next) (left ++ next) := by
  refine ⟨hwithin, ?_, ?_⟩
  · rw [total_cons, ← htotal]
    unfold total
    rw [List.map_append, List.sum_append]
    omega
  · intro i
    have hother : Covers next i → i ≠ index := by
      intro hi
      have hbehind := (hnext.bounds hi).1
      unfold Region.Has at hin
      omega
    have happend : Covers (left ++ next) i ↔ Covers left i ∨ Covers next i := by
      simp [Covers, or_and_right, exists_or]
    rw [happend, hleft, covers_cons, or_and_right]
    exact or_congr_right ⟨fun h => ⟨h, hother h⟩, And.left⟩

/-- Marking a sparse block not sparse. -/
theorem markNotSparse_removed {index : Nat} (hhi : hi < 2 ^ 32) (h : Within lo hi rs)
    (hcover : Covers rs index) : Removed lo hi index rs (markNotSparse rs index) := by
  induction rs generalizing lo with
  | nil => exact absurd hcover (covers_nil index)
  | cons it next ih =>
      obtain ⟨hstart, hpos, hwithin⟩ := h
      have hend := hwithin.le
      unfold markNotSparse
      by_cases hin : it.Has index
      · have hbounds := hin
        rw [if_pos (inRegion_iff.2 hin)]
        unfold Region.Has at hbounds
        dsimp only
        by_cases hone : it.count = 1
        · -- the region is used up
          rw [if_pos (by omega), if_pos (by omega)]
          apply @removed_first lo hi index it [] next hin hwithin
          · exact hwithin.mono (by omega) (Nat.le_refl _)
          · exact hone.symm
          · intro i
            rw [iff_false_left (covers_nil i)]
            unfold Region.Has
            omega
        by_cases hfirst : index = it.index
        · rw [if_pos (by omega), if_neg (by omega), if_pos (by omega), u32_of_lt (by omega)]
          have hrest : it.index + 1 + (it.count - 1) = it.index + it.count := by omega
          apply @removed_first lo hi index it [⟨it.index + 1, it.count - 1⟩] next hin hwithin
          · refine ⟨Nat.le_succ_of_le hstart, ?_, ?_⟩
            · show 0 < it.count - 1
              omega
            · show Within (it.index + 1 + (it.count - 1)) hi next
              rw [hrest]
              exact hwithin
          · simp only [total_cons, total_nil]
            omega
          · intro i
            simp only [covers_cons, covers_nil, or_false, Region.Has]
            omega
        by_cases hlast : index = it.index + (it.count - 1)
        · rw [if_pos (by omega), if_neg (by omega), if_neg (by omega)]
          apply @removed_first lo hi index it [⟨it.index, it.count - 1⟩] next hin hwithin
          · refine ⟨hstart, ?_, ?_⟩
            · show 0 < it.count - 1
              omega
            · exact hwithin.mono (by show it.index + (it.count - 1) ≤ _; omega) (Nat.le_refl _)
          · simp only [total_cons, total_nil]
            omega
          · intro i
            simp only [covers_cons, covers_nil, or_false, Region.Has]
            omega
        · -- the region is split
          rw [if_neg (by omega), u32_of_lt (by omega), u32_of_lt (by omega),
            u32_of_lt (by omega)]
          have hrest : it.index + (index - it.index) + 1 +
              (it.count - (index - it.index) - 1) = it.index + it.count := by omega
          apply @removed_first lo hi index it [⟨it.index, index - it.index⟩,
            ⟨it.index + (index - it.index) + 1, it.count - (index - it.index) - 1⟩] next hin hwithin
          · refine ⟨hstart, ?_, ?_, ?_, ?_⟩
            · show 0 < index - it.index
              omega
            · show it.index + (index - it.index) ≤ it.index + (index - it.index) + 1
              omega
            · show 0 < it.count - (index - it.index) - 1
              omega
            · show Within (it.index + (index - it.index) + 1 +
                (it.count - (index - it.index) - 1)) hi next
              rw [hrest]
              exact hwithin
          · simp only [total_cons, total_nil]
            omega
          · intro i
            simp only [covers_cons, covers_nil, or_false, Region.Has]
            omega
      · have hnext : Covers next index := ((covers_cons it next index).1 hcover).resolve_left hin
        rw [if_neg (by rw [inRegion_iff]; exact hin)]
        have hremoved := ih hwithin hnext
        have hfar := (hwithin.bounds hnext).1
        refine ⟨⟨hstart, hpos, hremoved.within⟩, ?_, ?_⟩
        · rw [total_cons, total_cons, Nat.add_assoc, hremoved.total]
        · intro i
          rw [covers_cons, covers_cons, hremoved.covers, or_and_right]
          refine or_congr_left ⟨fun h => ⟨h, ?_⟩, And.left⟩
          unfold Region.Has at h
          omega

/-! ## Cutting a file off -/

private theorem truncateSparse_of_le {count : Nat} (h : Within lo hi rs) (hlo : count ≤ lo) :
    truncateSparse count rs = [] := by
  induction rs generalizing lo with
  | nil => rfl
  | cons it next ih =>
      have hstart := h.1
      unfold truncateSparse
      rw [if_pos (by omega)]
      exact ih h.2.2 (by omega)

/-- What is left of a list when the file is cut down to `count` blocks. -/
structure Cut (lo hi count : Nat) (rs rs' : List Region) : Prop where
  within : Within lo count rs'
  total_le : total rs ≤ total rs' + (hi - count)
  covers : ∀ i, Covers rs' i ↔ Covers rs i ∧ i < count

/-- No field of a region grows. -/
theorem truncateSparse_words {count : Nat}
    (hwords : ∀ r ∈ rs, r.index < 2 ^ 32 ∧ r.count < 2 ^ 32) :
    ∀ r ∈ truncateSparse count rs, r.index < 2 ^ 32 ∧ r.count < 2 ^ 32 := by
  induction rs with
  | nil => simp [truncateSparse]
  | cons it next ih =>
      have hit := hwords it List.mem_cons_self
      have hrest := ih fun r hr => hwords r (List.mem_cons_of_mem it hr)
      unfold truncateSparse
      split
      · exact hrest
      · intro r hr
        rcases List.mem_cons.1 hr with rfl | hr
        · split
          · exact ⟨hit.1, u32_lt _⟩
          · exact hit
        · exact hrest r hr

theorem truncateSparse_cut {count : Nat}
    (hwords : ∀ r ∈ rs, r.index < 2 ^ 32 ∧ r.count < 2 ^ 32) (h : Within lo hi rs)
    (hlo : lo ≤ count) : Cut lo hi count rs (truncateSparse count rs) := by
  induction rs generalizing lo with
  | nil => exact ⟨hlo, Nat.zero_le _, fun i => by simp [truncateSparse]⟩
  | cons it next ih =>
      obtain ⟨hstart, hpos, hwithin⟩ := h
      have hit := (hwords it List.mem_cons_self).2
      have hend := hwithin.le
      have htotal := hwithin.total_le
      have hbehind : ∀ i, Covers next i → it.index + it.count ≤ i :=
        fun i hi => (hwithin.bounds hi).1
      unfold truncateSparse
      by_cases hout : it.index ≥ count
      · rw [if_pos hout, truncateSparse_of_le hwithin (by omega)]
        refine ⟨hlo, ?_, ?_⟩
        · rw [total_cons, total_nil]
          omega
        · intro i
          simp only [covers_cons, covers_nil, false_iff, Region.Has]
          rintro ⟨h | h, hi⟩
          · omega
          · have := hbehind i h
            omega
      rw [if_neg hout]
      by_cases hcut : it.count ≥ count - it.index
      · -- the region is the last one left
        rw [if_pos hcut, truncateSparse_of_le hwithin (by omega), u32_of_lt (by omega)]
        refine ⟨⟨hstart, ?_, ?_⟩, ?_, ?_⟩
        · show 0 < count - it.index
          omega
        · show it.index + (count - it.index) ≤ count
          omega
        · simp only [total_cons, total_nil]
          omega
        · intro i
          simp only [covers_cons, covers_nil, or_false, Region.Has]
          constructor
          · intro h
            exact ⟨Or.inl (by omega), by omega⟩
          · rintro ⟨h | h, hi⟩
            · omega
            · have := hbehind i h
              omega
      · rw [if_neg hcut]
        have hrest := ih (fun r hr => hwords r (List.mem_cons_of_mem it hr)) hwithin (by omega)
        refine ⟨⟨hstart, hpos, hrest.within⟩, ?_, ?_⟩
        · have := hrest.total_le
          simp only [total_cons]
          omega
        · intro i
          rw [covers_cons, covers_cons, hrest.covers]
          unfold Region.Has
          constructor
          · rintro (h | h)
            · exact ⟨Or.inl h, by omega⟩
            · exact ⟨Or.inr h.1, h.2⟩
          · rintro ⟨h | h, hi⟩
            · exact Or.inl h
            · exact Or.inr ⟨h, hi⟩

end ImageTool.Fstree
