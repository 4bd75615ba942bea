import ImageTool.Fstree.Sparse
import ImageTool.Lib.LastAssigned

/-!
# The sparse list as a set

Neighbouring regions never touch: between two of them there is a block that is not sparse.  So a
set of blocks has one list only, and marking blocks keeps it that list.
-/

namespace ImageTool.Fstree

open ImageTool.Lib

/-- Regions that are not empty, from block `lo` on, with a block between neighbours that is in
none of them. -/
def Gapped (lo : Nat) : List Region → Prop
  | [] => True
  | r :: rs => lo ≤ r.index ∧ 0 < r.count ∧ Gapped (r.index + r.count + 1) rs

variable {lo hi index : Nat} {rs : List Region}

theorem Gapped.mono {lo' : Nat} (h : Gapped lo rs) (hlo : lo' ≤ lo) : Gapped lo' rs := by
  cases rs with
  | nil => trivial
  | cons r rs => exact ⟨Nat.le_trans hlo h.1, h.2⟩

theorem Gapped.count_pos (h : Gapped lo rs) : ∀ r ∈ rs, 0 < r.count := by
  induction rs generalizing lo with
  | nil =>
      intro r hr
      cases hr
  | cons it next ih =>
      have hrest := ih h.2.2
      intro r hr
      rcases List.mem_cons.1 hr with rfl | hr
      · exact h.2.1
      · exact hrest r hr

theorem Gapped.isChain (h : Gapped lo rs) :
    rs.IsChain fun r s => r.index + r.count < s.index := by
  induction rs generalizing lo with
  | nil => exact List.IsChain.nil
  | cons r rs ih =>
      have hrest := ih h.2.2
      cases rs with
      | nil => exact List.IsChain.singleton r
      | cons s rs => exact List.IsChain.cons_cons h.2.2.1 hrest

/-- The blocks of the regions lie behind the lower bound. -/
theorem Gapped.le_of_covers (h : Gapped lo rs) (hcover : Covers rs index) : lo ≤ index := by
  induction rs generalizing lo with
  | nil => exact absurd hcover (covers_nil index)
  | cons r rs ih =>
      have hstart := h.1
      rcases (covers_cons r rs index).1 hcover with hr | hrest
      · unfold Region.Has at hr
        omega
      · have hle := ih h.2.2 hrest
        omega

/-- The block behind a region is in none. -/
theorem Gapped.not_covers_end (h : Gapped lo rs) :
    ∀ r ∈ rs, ¬ Covers rs (r.index + r.count) := by
  induction rs generalizing lo with
  | nil =>
      intro r hr
      cases hr
  | cons it next ih =>
      intro r hr hcover
      rcases List.mem_cons.1 hr with rfl | hr
      · rcases (covers_cons r next _).1 hcover with hself | hnext
        · unfold Region.Has at hself
          omega
        · have hle := h.2.2.le_of_covers hnext
          omega
      · rcases (covers_cons it next _).1 hcover with hself | hnext
        · have hcovers : Covers next r.index :=
            ⟨r, hr, Nat.le_refl _, Nat.lt_add_of_pos_right (h.2.2.count_pos r hr)⟩
          have hle := h.2.2.le_of_covers hcovers
          unfold Region.Has at hself
          omega
        · exact ih h.2.2 r hr hnext

/-! ## Marking -/

/-- A block that is sparse already is found in its region: the region in front of it ends before
the block in front of it. -/
theorem tryMerge_covered (h : Gapped lo rs) (hcover : Covers rs index) (prev : Option Region) :
    tryMerge index prev rs = some (prev.toList ++ rs) := by
  induction rs generalizing lo prev with
  | nil => exact absurd hcover (covers_nil index)
  | cons it next ih =>
      unfold tryMerge
      by_cases hin : it.Has index
      · unfold Region.Has at hin
        rw [if_pos hin.1, if_pos (by omega)]
      · have hnext := ((covers_cons it next index).1 hcover).resolve_left hin
        have hbehind := h.2.2.le_of_covers hnext
        rw [if_pos (by omega), if_neg (by omega), if_neg (by omega), ih h.2.2 hnext (some it)]
        rfl

theorem markSparse_covered (h : Gapped lo rs) (hcover : Covers rs index) :
    markSparse rs index = rs := by
  rw [markSparse, tryMerge_covered h hcover none]
  rfl

theorem markNotSparse_uncovered (hcover : ¬ Covers rs index) : markNotSparse rs index = rs := by
  induction rs with
  | nil => rfl
  | cons it next ih =>
      rw [covers_cons, not_or] at hcover
      unfold markNotSparse
      rw [if_neg (fun hin => hcover.1 (inRegion_iff.1 hin)), ih hcover.2]

/-- The block is joined with the region in front of it, the region behind it, or both. -/
theorem mergeInto_gapped (h : Gapped lo rs) (hcover : ¬ Covers rs index) (hlo : lo ≤ index)
    {rs' : List Region} (hrun : mergeInto index rs = some rs') : Gapped lo rs' := by
  induction rs generalizing lo rs' with
  | nil => cases hrun
  | cons it next ih =>
      obtain ⟨hstart, hpos, hrest⟩ := h
      rw [covers_cons, not_or] at hcover
      have hout := hcover.1
      unfold Region.Has at hout
      unfold mergeInto at hrun
      by_cases hge : it.index ≤ index
      · rw [if_pos hge] at hrun
        by_cases heq : it.index + it.count = index
        · rw [if_pos heq] at hrun
          cases next with
          | nil =>
              cases hrun
              exact ⟨hstart, Nat.succ_pos _, trivial⟩
          | cons r rest =>
              have hgap := hrest.1
              dsimp only at hrun
              by_cases hjoin : r.index = index + 1
              · rw [if_pos hjoin] at hrun
                cases hrun
                refine ⟨hstart, by simp only; omega, ?_⟩
                have hend : it.index + (it.count + 1 + r.count) = r.index + r.count := by omega
                simp only [hend]
                exact hrest.2.2
              · rw [if_neg hjoin] at hrun
                cases hrun
                exact ⟨hstart, Nat.succ_pos _, by simp only; omega, hrest.2⟩
        · rw [if_neg heq] at hrun
          obtain ⟨rs'', hrun', rfl⟩ := Option.map_eq_some_iff.1 hrun
          exact ⟨hstart, hpos, ih hrest hcover.2 (by omega) hrun'⟩
      · rw [if_neg hge] at hrun
        by_cases hnext : index + 1 = it.index
        · rw [if_pos hnext] at hrun
          cases hrun
          refine ⟨hlo, Nat.succ_pos _, ?_⟩
          have hend : index + (it.count + 1) = it.index + it.count := by omega
          simp only [hend]
          exact hrest
        · rw [if_neg hnext] at hrun
          cases hrun

/-- A block that touches no region gets one of its own. -/
theorem insertNewRegion_gapped (h : Gapped lo rs) (hcover : ¬ Covers rs index) (hlo : lo ≤ index)
    (hapart : mergeInto index rs = none) : Gapped lo (insertNewRegion ⟨index, 1⟩ rs) := by
  induction rs generalizing lo with
  | nil => exact ⟨hlo, Nat.one_pos, trivial⟩
  | cons it next ih =>
      obtain ⟨hstart, hpos, hrest⟩ := h
      rw [covers_cons, not_or] at hcover
      have hout := hcover.1
      unfold Region.Has at hout
      unfold mergeInto at hapart
      unfold insertNewRegion
      by_cases hge : it.index ≤ index
      · rw [if_pos hge] at hapart
        by_cases heq : it.index + it.count = index
        · rw [if_pos heq] at hapart
          cases next with
          | nil => cases hapart
          | cons r rest =>
              dsimp only at hapart
              split at hapart <;> cases hapart
        · rw [if_neg heq, Option.map_eq_none_iff] at hapart
          rw [if_pos (show it.index < index by omega)]
          exact ⟨hstart, hpos, ih hrest hcover.2 (by omega) hapart⟩
      · rw [if_neg hge] at hapart
        have hnext : index + 1 ≠ it.index := by
          intro heq
          rw [if_pos heq] at hapart
          cases hapart
        rw [if_neg (show ¬ it.index < index by omega)]
        exact ⟨hlo, Nat.one_pos, by simp only; omega, hpos, hrest⟩

theorem markNotSparse_gapped {lo' : Nat} (h : Gapped lo rs) (hhi : hi < 2 ^ 32)
    (hwithin : Within lo' hi rs) : Gapped lo (markNotSparse rs index) := by
  induction rs generalizing lo lo' with
  | nil => trivial
  | cons it next ih =>
      obtain ⟨hstart, hpos, hrest⟩ := h
      have hend := hwithin.2.2.le
      unfold markNotSparse
      by_cases hin : it.Has index
      · rw [if_pos (inRegion_iff.2 hin)]
        unfold Region.Has at hin
        dsimp only
        by_cases hone : it.count = 1
        · -- the region is used up
          rw [if_pos (by omega), if_pos (by omega)]
          exact hrest.mono (by omega)
        by_cases hfirst : index = it.index
        · rw [if_pos (by omega), if_neg (by omega), if_pos (by omega), u32_of_lt (by omega)]
          refine ⟨Nat.le_succ_of_le hstart, by simp only; omega, hrest.mono ?_⟩
          simp only
          omega
        by_cases hlast : index = it.index + (it.count - 1)
        · rw [if_pos (by omega), if_neg (by omega), if_neg (by omega)]
          refine ⟨hstart, by simp only; omega, hrest.mono ?_⟩
          simp only
          omega
        · -- the region is split
          rw [if_neg (by omega), u32_of_lt (by omega), u32_of_lt (by omega),
            u32_of_lt (by omega)]
          refine ⟨hstart, by simp only; omega, Nat.le_refl _, by simp only; omega, hrest.mono ?_⟩
          simp only
          omega
      · rw [if_neg (fun htest => hin (inRegion_iff.1 htest))]
        exact ⟨hstart, hpos, ih hrest hwithin.2.2⟩

/-! ## Runs -/

/-- The calls that mark a block of a file. -/
inductive MarkOp where
  | sparse (index : Nat)
  | notSparse (index : Nat)

namespace MarkOp

/-- The block. -/
def block : MarkOp → Nat
  | sparse index => index
  | notSparse index => index

/-- Make the call. -/
def run (rs : List Region) : MarkOp → List Region
  | sparse index => markSparse rs index
  | notSparse index => markNotSparse rs index

/-- What a call marks a block as. -/
def assigns : MarkOp → Option (Nat × Bool)
  | sparse index => some (index, true)
  | notSparse index => some (index, false)

end MarkOp

/-- The list of a file whose blocks have numbers that the source can count behind. -/
structure SparseList (rs : List Region) : Prop where
  within : Within 0 (2 ^ 32 - 1) rs
  gapped : Gapped 0 rs

theorem SparseList.markSparse (h : SparseList rs) (hindex : index < 2 ^ 32 - 1) :
    SparseList (markSparse rs index) ∧
      ∀ i, Covers (Fstree.markSparse rs index) i ↔ Covers rs i ∨ i = index := by
  by_cases hcover : Covers rs index
  · rw [markSparse_covered h.gapped hcover]
    refine ⟨h, fun i => ?_⟩
    constructor
    · exact Or.inl
    · rintro (hi | rfl)
      · exact hi
      · exact hcover
  · have hadded := markSparse_added (by decide) hindex h.within hcover (Nat.zero_le index)
    refine ⟨⟨hadded.within, ?_⟩, hadded.covers⟩
    have hmerge : tryMerge index none rs = (mergeInto index rs).map ([] ++ ·) :=
      tryMerge_eq (by decide) hindex h.within hcover (by intro p hp; cases hp)
    unfold Fstree.markSparse
    rw [hmerge]
    cases hinto : mergeInto index rs with
    | none =>
        rw [Option.map_none, u32_of_lt (by omega)]
        exact insertNewRegion_gapped h.gapped hcover (Nat.zero_le index) hinto
    | some rs' => exact mergeInto_gapped h.gapped hcover (Nat.zero_le index) hinto

theorem SparseList.markNotSparse (h : SparseList rs) :
    SparseList (markNotSparse rs index) ∧
      ∀ i, Covers (Fstree.markNotSparse rs index) i ↔ Covers rs i ∧ i ≠ index := by
  by_cases hcover : Covers rs index
  · have hremoved := markNotSparse_removed (by decide) h.within hcover
    have hgapped : Gapped 0 (Fstree.markNotSparse rs index) :=
      markNotSparse_gapped h.gapped (show 2 ^ 32 - 1 < 2 ^ 32 by decide) h.within
    exact ⟨⟨hremoved.within, hgapped⟩, hremoved.covers⟩
  · rw [markNotSparse_uncovered hcover]
    refine ⟨h, fun i => ?_⟩
    constructor
    · intro hi
      exact ⟨hi, fun heq => hcover (heq ▸ hi)⟩
    · exact And.left

/-- Marking keeps the list, and changes the set of sparse blocks at the block it marks. -/
theorem showsSet_marks : ShowsSet MarkOp.run MarkOp.assigns Covers SparseList
    (fun op => op.block < 2 ^ 32 - 1) where
  keeps rs op hop h := by
    cases op with
    | sparse index => exact (h.markSparse hop).1
    | notSparse index => exact h.markNotSparse.1
  mem_step rs op i hop h := by
    cases op with
    | sparse index =>
        rw [assigned_of_some (show (MarkOp.sparse index).assigns = some (index, true) from rfl)]
        have hindex : index < 2 ^ 32 - 1 := hop
        rw [MarkOp.run, (h.markSparse hindex).2 i]
        by_cases hi : index = i
        · simp [hi]
        · simp [hi, Ne.symm hi]
    | notSparse index =>
        rw [assigned_of_some (show (MarkOp.notSparse index).assigns = some (index, false) from rfl)]
        rw [MarkOp.run, h.markNotSparse.2 i]
        by_cases hi : index = i
        · simp [hi]
        · simp [hi, Ne.symm hi]

/-- After any marks the list has regions that are not empty and do not touch, in the order of
their blocks, and a block is in one of them if and only if it was marked sparse last.  A block that
is marked as it is leaves the list as it is. -/
theorem marks_represent (ops : List MarkOp) (hops : ∀ op ∈ ops, op.block < 2 ^ 32 - 1) :
    (∀ r ∈ ops.foldl MarkOp.run [], 0 < r.count) ∧
    ((ops.foldl MarkOp.run []).IsChain fun r s => r.index + r.count < s.index) ∧
    (∀ r ∈ ops.foldl MarkOp.run [], ¬ Covers (ops.foldl MarkOp.run []) (r.index + r.count)) ∧
    (∀ i, Covers (ops.foldl MarkOp.run []) i ↔ lastAssigned MarkOp.assigns i ops = some true) ∧
    ∀ i, (Covers (ops.foldl MarkOp.run []) i →
        markSparse (ops.foldl MarkOp.run []) i = ops.foldl MarkOp.run []) ∧
      (¬ Covers (ops.foldl MarkOp.run []) i →
        markNotSparse (ops.foldl MarkOp.run []) i = ops.foldl MarkOp.run []) := by
  have hempty : SparseList [] := ⟨Nat.zero_le _, trivial⟩
  obtain ⟨hlist, hmem⟩ := showsSet_marks.run ops hops hempty
  generalize ops.foldl MarkOp.run [] = rs at hlist hmem ⊢
  refine ⟨hlist.gapped.count_pos, hlist.gapped.isChain, hlist.gapped.not_covers_end, ?_, ?_⟩
  · intro i
    rw [hmem i]
    cases lastAssigned MarkOp.assigns i ops <;> simp
  · exact fun i => ⟨markSparse_covered hlist.gapped, markNotSparse_uncovered⟩

/-- Two blocks, the one between them, and that one again not sparse. -/
theorem marks_represent_four : Covers
    ([MarkOp.sparse 3, .sparse 1, .sparse 2, .notSparse 2].foldl MarkOp.run []) 3 :=
  ((marks_represent [MarkOp.sparse 3, .sparse 1, .sparse 2, .notSparse 2]
    (by decide)).2.2.2.1 3).2 (by decide)

end ImageTool.Fstree
