import ImageTool.Lib.Interleaved
import ImageTool.Fstree.MoveContent

/-!
# Headers between files

A format that puts a header in front of every file opens a gap at the start of the file with
`fstree_add_gap` and writes the header into the gap.  The files of a data area without holes lie in
a row, and each of these steps adds one header to the row and leaves the rest of it as it was.
-/

namespace ImageTool.Fstree

open ImageTool.Lib ImageTool.Image ImageTool.Util

variable {σ : Type}

/-- The data area begins with `lead`, and behind it lie the files in the order of the list, each
behind its front. -/
structure Interleaved (vol : Volume σ) (view : σ → Bytes) (lead : List UInt8) (order : List Nat)
    (front body : Nat → List UInt8) (fs : Fstree σ) : Prop where
  layout : LaidOut vol.blocksize fs
  nodup : order.Nodup
  stored : ∀ i, i ∈ order ↔ 0 < (extentAt vol.blocksize fs.files i).len
  leads : (view fs.volume).slice 0 lead.length = lead
  lined : Lined vol.blocksize (view fs.volume) (extentAt vol.blocksize fs.files) front body
    lead.length (fs.dataOffset * vol.blocksize) order

/-- The data area has no hole: it is as large as what the files store. -/
def Full (bs : Nat) (fs : Fstree σ) : Prop :=
  (fs.files.map fun n => n.stored bs).sum = fs.dataOffset

section Interleaved

variable {vol : Volume σ} {view : σ → Bytes} {count : Nat} {lead : List UInt8} {order : List Nat}
  {front body : Nat → List UInt8} {fs : Fstree σ} {i size : Nat}

/-- All of the data area. -/
theorem Interleaved.slice (h : Interleaved vol view lead order front body fs) :
    (view fs.volume).slice 0 (fs.dataOffset * vol.blocksize) =
      lead ++ order.flatMap fun i => front i ++ body i := by
  have hrow := h.lined.slice
  rw [h.lined.length, ← Bytes.slice_append, h.leads, Nat.zero_add, hrow]

theorem Interleaved.length (h : Interleaved vol view lead order front body fs) :
    fs.dataOffset * vol.blocksize =
      (lead ++ order.flatMap fun i => front i ++ body i).length := by
  rw [List.length_append]
  exact h.lined.length

theorem sum_extentAt (bs : Nat) (files : List FileNode) :
    ((List.range files.length).map fun i => (extentAt bs files i).len).sum =
      (files.map fun n => n.stored bs).sum := by
  congr 1
  apply List.ext_getElem
  · simp
  · intro i hi hi'
    rw [List.length_map] at hi'
    rw [List.getElem_map, List.getElem_map, List.getElem_range,
      extentAt_eq (List.getElem?_eq_getElem hi')]
    rfl

/-- The files in the order in which they lie. -/
def fileRow (bs : Nat) (files : List FileNode) : List Nat :=
  rowOf (extentAt bs files) (List.range files.length)

/-- The blocks of a file as they are on the volume. -/
def fileBlocks (bs : Nat) (view : Bytes) (files : List FileNode) (i : Nat) : List UInt8 :=
  view.slice ((extentAt bs files i).start * bs) ((extentAt bs files i).len * bs)

theorem mem_fileRow {bs i : Nat} {files : List FileNode} :
    i ∈ fileRow bs files ↔ 0 < (extentAt bs files i).len := by
  unfold fileRow
  rw [mem_rowOf, List.mem_range, and_iff_right_iff_imp]
  intro hpos
  obtain ⟨n, hn⟩ := exists_of_extentAt_pos hpos
  exact (List.getElem?_eq_some_iff.1 hn).1

/-- A data area without a hole is a row of files. -/
theorem Full.interleaved (vol : Volume σ) (view : σ → Bytes) (hfull : Full vol.blocksize fs)
    (h : LaidOut vol.blocksize fs) :
    Interleaved vol view [] (fileRow vol.blocksize fs.files) (fun _ => [])
      (fileBlocks vol.blocksize (view fs.volume) fs.files) fs where
  layout := h
  nodup := rowOf_nodup List.nodup_range
  stored i := mem_fileRow
  leads := rfl
  lined := by
    have htiles : Tiles (extentAt vol.blocksize fs.files) 0 fs.dataOffset
        (fileRow vol.blocksize fs.files) :=
      h.packed.tiles List.nodup_range (by rw [sum_extentAt, hfull])
    have hlined := htiles.lined vol.blocksize (view fs.volume)
    rwa [Nat.zero_mul] at hlined

/-- What `fstree_add_gap` makes of a data area that is laid out, for a block that is not strictly
inside a file. -/
structure GapOpened (vol : Volume σ) (view : σ → Bytes) (index gap : Nat) (fs fs' : Fstree σ) :
    Prop where
  layout : LaidOut vol.blocksize fs'
  dataOffset : fs'.dataOffset = fs.dataOffset + gap
  files : ∃ g, Restarts g ∧ fs'.files = fs.files.map g
  noSparse : fs'.noSparse = fs.noSparse
  len : ∀ j, (extentAt vol.blocksize fs'.files j).len = (extentAt vol.blocksize fs.files j).len
  start : ∀ j, 0 < (extentAt vol.blocksize fs.files j).len →
    (extentAt vol.blocksize fs'.files j).start =
      if (extentAt vol.blocksize fs.files j).start ≥ index then
        (extentAt vol.blocksize fs.files j).start + gap
      else (extentAt vol.blocksize fs.files j).start
  view : view fs'.volume = ((view fs.volume).move
      (index * vol.blocksize + gap * vol.blocksize) (index * vol.blocksize)
      (fs.dataOffset * vol.blocksize - index * vol.blocksize)).clear
    (index * vol.blocksize) (gap * vol.blocksize)

theorem addGap_opens (hv : BlockStore vol count view) (hlt : count * vol.blocksize < 2 ^ 64)
    (h : LaidOut vol.blocksize fs) (index size : Nat)
    (hindex : ∀ n ∈ fs.files, 0 < n.stored vol.blocksize →
      index ≤ n.startIndex ∨ n.startIndex + n.stored vol.blocksize ≤ index)
    (hle : index ≤ fs.dataOffset)
    (hroom : fs.dataOffset + blockCount size vol.blocksize ≤ count) :
    ∃ fs', addGap vol index size fs = .ok () fs' ∧
      GapOpened vol view index (blockCount size vol.blocksize) fs fs' := by
  have hbs := hv.blocksize_pos
  have hcount : count < 2 ^ 64 := Nat.lt_of_le_of_lt (Nat.le_mul_of_pos_right _ hbs) hlt
  by_cases hzero : size = 0
  · subst hzero
    rw [blockCount_zero]
    refine ⟨fs, rfl, h, rfl, ⟨id, fun n => ⟨n.startIndex, rfl⟩, (List.map_id _).symm⟩, rfl,
      fun _ => rfl, fun j _ => by split <;> rfl, ?_⟩
    rw [Nat.zero_mul, Nat.add_zero, Bytes.move_self, Bytes.clear_zero]
  · have hmax : max index fs.dataOffset = fs.dataOffset := Nat.max_eq_right hle
    obtain ⟨v, hok, hview⟩ := addGap_moves hv hlt (Nat.pos_of_ne_zero hzero)
      (show max index fs.dataOffset + _ ≤ count by rw [hmax]; exact hroom)
    have hbytes := gapSize_eq hbs
      (Nat.lt_of_le_of_lt (Nat.mul_le_mul_right _ (Nat.le_trans (Nat.le_add_left _ _) hroom)) hlt)
    have hlayout : Call.Returns (addGap vol index size fs) (fun _ => LaidOut vol.blocksize)
        (LaidOut vol.blocksize) := by
      apply addGap_layout vol h hindex
      rw [hbytes, Nat.mul_div_cancel _ hbs, hmax]
      omega
    rw [hok] at hlayout
    have hid : Restarts (id : FileNode → FileNode) := fun n => ⟨n.startIndex, rfl⟩
    refine ⟨_, hok, hlayout, congrArg (· + _) hmax, ?_, rfl,
      fun j => gapFiles_len _ _ _ _ j _, ?_, ?_⟩
    · unfold gapFiles
      split
      · exact ⟨_, openGap_restarts _ _, rfl⟩
      · exact ⟨id, hid, (List.map_id _).symm⟩
    · intro j hj
      obtain ⟨m, hm⟩ := exists_of_extentAt_pos hj
      rw [extentAt_eq hm] at hj ⊢
      rw [extentAt_eq (Layout.gapFiles_at h (by omega) hm hj)]
      rfl
    · rw [hview, Nat.sub_mul]

/-- A gap at the beginning of the data area, with something written into it. -/
theorem addGap_lead (hv : BlockStore vol count view) (hlt : count * vol.blocksize < 2 ^ 64)
    (h : Interleaved vol view [] order (fun _ => []) body fs) (size : Nat)
    (hroom : fs.dataOffset + blockCount size vol.blocksize ≤ count) :
    ∃ fs', addGap vol 0 size fs = .ok () fs' ∧
      GapOpened vol view 0 (blockCount size vol.blocksize) fs fs' ∧
      ∀ v data, data.length ≤ blockCount size vol.blocksize * vol.blocksize →
        view v = (view fs'.volume).splice 0 data →
        Interleaved vol view (filled data (blockCount size vol.blocksize * vol.blocksize)) order
          (fun _ => []) body { fs' with volume := v } := by
  obtain ⟨fs', hok, hopened⟩ := addGap_opens hv hlt h.layout 0 size
    (fun n _ _ => Or.inl (Nat.zero_le _)) (Nat.zero_le _) hroom
  refine ⟨fs', hok, hopened, ?_⟩
  intro v data hdata hwrite
  generalize blockCount size vol.blocksize = gap at *
  have hview := hopened.view
  rw [Nat.zero_mul, Nat.zero_add, Nat.sub_zero] at hview
  rw [hview] at hwrite
  have hgap := slice_gap (view fs.volume) 0 (fs.dataOffset * vol.blocksize) hdata
  rw [Nat.zero_add] at hgap
  refine ⟨hopened.layout, h.nodup, ?_, ?_, ?_⟩
  · intro i
    rw [h.stored i, ← hopened.len i]
  · rw [length_filled hdata, hwrite, hgap]
  · have hshift : Lined vol.blocksize (view v) (extentAt vol.blocksize fs'.files) (fun _ => []) body
        (([] : List UInt8).length + gap * vol.blocksize)
        (fs.dataOffset * vol.blocksize + gap * vol.blocksize) order := by
      apply h.lined.shift gap _ fun _ _ => rfl
      · intro p hp hp'
        have hopen := @Bytes.open_gap_apply (view fs.volume) 0 (gap * vol.blocksize)
          (fs.dataOffset * vol.blocksize) (p + gap * vol.blocksize)
        rw [Nat.zero_add] at hopen
        rw [hwrite, Bytes.splice_apply_of_ge (by omega), hopen, if_neg (by omega),
          if_neg (by omega), if_pos (by omega), Nat.add_sub_cancel]
      · intro i hi
        have hstart := hopened.start i ((h.stored i).1 hi)
        rw [if_pos (Nat.zero_le _)] at hstart
        exact ⟨hstart, hopened.len i⟩
    rw [List.length_nil, Nat.zero_add, ← Nat.add_mul] at hshift
    rw [length_filled hdata]
    change Lined _ _ _ _ _ _ (fs'.dataOffset * vol.blocksize) _
    rw [hopened.dataOffset]
    exact hshift

/-- A gap in front of a file, with something written into it. -/
theorem addGap_front (hv : BlockStore vol count view) (hlt : count * vol.blocksize < 2 ^ 64)
    (h : Interleaved vol view lead order front body fs) (hi : i ∈ order) (hempty : front i = [])
    (size : Nat) (hroom : fs.dataOffset + blockCount size vol.blocksize ≤ count) :
    ∃ fs', addGap vol (extentAt vol.blocksize fs.files i).start size fs = .ok () fs' ∧
      GapOpened vol view (extentAt vol.blocksize fs.files i).start
        (blockCount size vol.blocksize) fs fs' ∧
      ∀ v data, data.length ≤ blockCount size vol.blocksize * vol.blocksize →
        view v = (view fs'.volume).splice
          ((extentAt vol.blocksize fs.files i).start * vol.blocksize) data →
        Interleaved vol view lead order
          (Function.update front i
            (filled data (blockCount size vol.blocksize * vol.blocksize))) body
          { fs' with volume := v } := by
  have hbs := hv.blocksize_pos
  have hpos := (h.stored i).1 hi
  have hbounds := h.lined.bounds hi
  obtain ⟨n, hn⟩ := exists_of_extentAt_pos hpos
  have hstop := h.layout.packed.stop_le i hpos
  have hle : (extentAt vol.blocksize fs.files i).start ≤ fs.dataOffset := by
    unfold Extent.stop at hstop
    omega
  obtain ⟨fs', hok, hopened⟩ := addGap_opens hv hlt h.layout
    (extentAt vol.blocksize fs.files i).start size (by
      intro m hm hmpos
      obtain ⟨j, hj⟩ := List.getElem?_of_mem hm
      have hextent : extentAt vol.blocksize fs.files j = m.extent vol.blocksize := extentAt_eq hj
      have hjpos : 0 < (extentAt vol.blocksize fs.files j).len := by rw [hextent]; exact hmpos
      by_cases hij : i = j
      · subst hij
        rw [hextent]
        exact Or.inl (Nat.le_refl _)
      · have hapart := h.layout.packed.apart i j hij hpos hjpos
        rw [hextent] at hapart
        unfold Extent.Apart Extent.stop FileNode.extent at hapart
        dsimp only at hapart
        omega) hle hroom
  refine ⟨fs', hok, hopened, ?_⟩
  intro v data hdata hwrite
  generalize blockCount size vol.blocksize = gap at *
  refine ⟨hopened.layout, h.nodup, ?_, ?_, ?_⟩
  · intro j
    rw [h.stored j, ← hopened.len j]
  · refine Eq.trans ?_ h.leads
    apply Bytes.slice_congr
    intro p _ hp
    rw [hwrite, hopened.view, Bytes.splice_apply_of_lt (by omega), Bytes.open_gap_apply,
      if_pos (by omega)]
  · change Lined _ _ _ _ _ _ (fs'.dataOffset * vol.blocksize) _
    rw [hopened.dataOffset, Nat.add_mul]
    apply h.lined.insert hi h.nodup hdata hempty
    · intro j hj
      exact ⟨hopened.len j, hopened.start j ((h.stored j).1 hj)⟩
    · intro j hj
      exact Nat.mul_pos ((h.stored j).1 hj) hbs
    · rw [hwrite, hopened.view]

end Interleaved

end ImageTool.Fstree
