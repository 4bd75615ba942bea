import ImageTool.Lib.Extents
import ImageTool.Fstree.Files

/-!
# The layout of file data

`Layout bs top files` is the invariant of the data area: the stored blocks of all
files are packed below `top`, and every sparse list fits the size of its file.  The
lemmas here say how the list of files changes in one step of an operation, in terms
of the rearrangements of `Packed`; moving a file to the end is the first operation
they are put together for.
-/

namespace ImageTool.Fstree

open ImageTool.Lib ImageTool.Image ImageTool.Util

/-- The extent of a file. -/
def FileNode.extent (bs : Nat) (n : FileNode) : Extent := ⟨n.startIndex, n.stored bs⟩

/-- The extent of the file at a place of the list. -/
def extentAt (bs : Nat) (files : List FileNode) (i : Nat) : Extent :=
  match files[i]? with
  | some n => n.extent bs
  | none => ⟨0, 0⟩

/-- The layout of the data area below block `top`. -/
structure Layout (bs top : Nat) (files : List FileNode) : Prop where
  valid : ∀ n ∈ files, n.Valid bs
  packed : Packed top (extentAt bs files)
  top_lt : top < 2 ^ 64

section Lists

variable {bs top i j : Nat} {n m : FileNode} {files : List FileNode}

theorem extentAt_eq (h : files[i]? = some n) : extentAt bs files i = n.extent bs := by
  unfold extentAt
  rw [h]

theorem exists_of_extentAt_pos (h : 0 < (extentAt bs files i).len) :
    ∃ n, files[i]? = some n := by
  unfold extentAt at h
  cases hn : files[i]? with
  | none =>
      rw [hn] at h
      exact absurd h (Nat.lt_irrefl 0)
  | some n => exact ⟨n, rfl⟩

theorem getElem?_modify_self {f : FileNode → FileNode} (h : files[i]? = some n) :
    (files.modify i f)[i]? = some (f n) := by
  rw [List.getElem?_modify_eq, h]
  rfl

theorem extentAt_modify_self {f : FileNode → FileNode} (h : files[i]? = some n) :
    extentAt bs (files.modify i f) i = (f n).extent bs :=
  extentAt_eq (getElem?_modify_self h)

theorem extentAt_modify_ne {f : FileNode → FileNode} (h : j ≠ i) :
    extentAt bs (files.modify i f) j = extentAt bs files j := by
  unfold extentAt
  rw [List.getElem?_modify_ne f files fun hij => h hij.symm]

theorem mem_modify {f : FileNode → FileNode} (h : files[i]? = some n)
    (hm : m ∈ files.modify i f) : m ∈ files ∨ m = f n := by
  obtain ⟨j, hj⟩ := List.getElem?_of_mem hm
  by_cases hji : j = i
  · subst hji
    rw [getElem?_modify_self h] at hj
    exact Or.inr (Option.some.inj hj).symm
  · rw [List.getElem?_modify_ne f files fun hij => hji hij.symm] at hj
    exact Or.inl (List.mem_of_getElem? hj)

/-- Only the places of the list have to be looked at. -/
theorem packed_extentAt_iff : Packed top (extentAt bs files) ↔
    (∀ i < files.length, 0 < (extentAt bs files i).len → (extentAt bs files i).stop ≤ top) ∧
      ∀ i < files.length, ∀ j < files.length, i ≠ j → 0 < (extentAt bs files i).len →
        0 < (extentAt bs files j).len → (extentAt bs files i).Apart (extentAt bs files j) := by
  have hlt : ∀ i, 0 < (extentAt bs files i).len → i < files.length := by
    intro i hi
    obtain ⟨n, hn⟩ := exists_of_extentAt_pos hi
    exact (List.getElem?_eq_some_iff.1 hn).1
  constructor
  · intro h
    exact ⟨fun i _ => h.stop_le i, fun i _ j _ => h.apart i j⟩
  · intro h
    exact ⟨fun i hi => h.1 i (hlt i hi) hi,
      fun i j hij hi hj => h.2 i (hlt i hi) j (hlt j hj) hij hi hj⟩

instance (bs top : Nat) (files : List FileNode) : Decidable (Layout bs top files) :=
  have : Decidable (Packed top (extentAt bs files)) :=
    decidable_of_iff _ packed_extentAt_iff.symm
  decidable_of_iff ((∀ n ∈ files, n.Valid bs) ∧ Packed top (extentAt bs files) ∧ top < 2 ^ 64)
    ⟨fun h => ⟨h.1, h.2.1, h.2.2⟩, fun h => ⟨h.valid, h.packed, h.top_lt⟩⟩

/-- A file that only starts elsewhere. -/
theorem FileNode.Valid.restart (h : n.Valid bs) (start : Nat) :
    FileNode.Valid bs { n with startIndex := start } := ⟨h.within, h.words, h.size_lt⟩

namespace Layout

theorem valid_at (h : Layout bs top files) (hn : files[i]? = some n) : n.Valid bs :=
  h.valid n (List.mem_of_getElem? hn)

theorem stop_le (h : Layout bs top files) (hn : files[i]? = some n)
    (hpos : 0 < n.stored bs) : n.startIndex + n.stored bs ≤ top := by
  have hstop := h.packed.stop_le i
  rw [extentAt_eq hn] at hstop
  exact hstop hpos

theorem valid_modify (h : Layout bs top files) (hn : files[i]? = some n)
    {f : FileNode → FileNode} (hvalid : (f n).Valid bs) :
    ∀ m ∈ files.modify i f, m.Valid bs := by
  intro m hm
  rcases mem_modify hn hm with hold | rfl
  · exact h.valid m hold
  · exact hvalid

/-- A file that stores no more than before, in the same place. -/
theorem replace (h : Layout bs top files) (hn : files[i]? = some n)
    {f : FileNode → FileNode} (hvalid : (f n).Valid bs)
    (hf : 0 < (f n).stored bs →
      (f n).startIndex = n.startIndex ∧ (f n).stored bs ≤ n.stored bs) :
    Layout bs top (files.modify i f) where
  valid := h.valid_modify hn hvalid
  packed := by
    apply h.packed.shorten
    intro j hj
    by_cases hji : j = i
    · subst hji
      rw [extentAt_modify_self hn] at hj ⊢
      rw [extentAt_eq hn]
      exact hf hj
    · rw [extentAt_modify_ne hji]
      exact ⟨rfl, Nat.le_refl _⟩
  top_lt := h.top_lt

/-- The file at the end of the data area takes a different number of blocks. -/
theorem resizeEnd (h : Layout bs top files) (hn : files[i]? = some n)
    (hend : n.startIndex + n.stored bs = top) {f : FileNode → FileNode} {top' : Nat}
    (hvalid : (f n).Valid bs) (hstart : (f n).startIndex = n.startIndex)
    (htop : n.startIndex + (f n).stored bs = top') (hlt : top' < 2 ^ 64) :
    Layout bs top' (files.modify i f) where
  valid := h.valid_modify hn hvalid
  packed := by
    have hlast : (extentAt bs files i).stop = top := by
      rw [extentAt_eq hn]
      exact hend
    apply h.packed.resizeLast hlast
    · intro _
      rw [extentAt_modify_self hn, extentAt_eq hn]
      exact hstart
    · intro j hji
      exact extentAt_modify_ne hji
    · rw [extentAt_modify_self hn, extentAt_eq hn]
      exact Nat.le_of_eq htop
  top_lt := hlt

end Layout

end Lists

/-! ## Loops over all files -/

/-- A function that changes only where files start. -/
def Restarts (g : FileNode → FileNode) : Prop :=
  ∀ n, ∃ start, g n = { n with startIndex := start }

section Restarts

variable {bs top i j : Nat} {n m : FileNode} {files : List FileNode}
variable {g : FileNode → FileNode}

theorem Restarts.stored_eq (hg : Restarts g) (n : FileNode) : (g n).stored bs = n.stored bs := by
  obtain ⟨start, hstart⟩ := hg n
  rw [hstart]
  rfl

theorem Restarts.getElem?_map (hg : Restarts g) (hn : files[i]? = some n) :
    ∃ start, (files.map g)[i]? = some { n with startIndex := start } := by
  obtain ⟨start, hstart⟩ := hg n
  refine ⟨start, ?_⟩
  rw [List.getElem?_map, hn, Option.map_some, hstart]

theorem extentAt_map_start (hn : files[i]? = some n) :
    (extentAt bs (files.map g) i).start = (g n).startIndex := by
  rw [extentAt_eq (n := g n) (by rw [List.getElem?_map, hn, Option.map_some])]
  rfl

theorem Restarts.extentAt_map_len (hg : Restarts g) :
    (extentAt bs (files.map g) i).len = (extentAt bs files i).len := by
  unfold extentAt
  rw [List.getElem?_map]
  cases files[i]? with
  | none => rfl
  | some n => exact hg.stored_eq n

/-- A change of the start of every file that stores blocks. -/
theorem Layout.restart {top' : Nat} (h : ∀ n ∈ files, n.Valid bs)
    (hg : Restarts g) (hlt : top' < 2 ^ 64)
    (hpacked : Packed top' (extentAt bs (files.map g))) : Layout bs top' (files.map g) where
  valid := by
    intro m hm
    obtain ⟨n, hn, rfl⟩ := List.mem_map.1 hm
    obtain ⟨start, hstart⟩ := hg n
    rw [hstart]
    exact (h n hn).restart start
  packed := hpacked
  top_lt := hlt

/-- A file that starts elsewhere has the blocks it had. -/
theorem extentAt_restart_len (start : Nat) :
    (extentAt bs (files.modify i fun n => { n with startIndex := start }) j).len =
      (extentAt bs files j).len := by
  by_cases hji : j = i
  · subst hji
    unfold extentAt
    rw [List.getElem?_modify_eq]
    cases files[j]? <;> rfl
  · rw [extentAt_modify_ne hji]

end Restarts

section MoveEnd

variable {bs top i : Nat} {n fit : FileNode} {files : List FileNode}

theorem closeBehind_restarts (src count : Nat) : Restarts (closeBehind bs src count) := by
  intro fit
  unfold closeBehind
  split
  · exact ⟨fit.startIndex, rfl⟩
  · split
    · exact ⟨_, rfl⟩
    · exact ⟨fit.startIndex, rfl⟩

theorem closeBehind_startIndex {src count : Nat} (hbs : 0 < bs) (hbs' : bs < 2 ^ 32)
    (hvalid : fit.Valid bs) (hpos : 0 < fit.stored bs)
    (hcount : fit.startIndex ≥ src → count ≤ fit.startIndex)
    (hlt : fit.startIndex < 2 ^ 64) : (closeBehind bs src count fit).startIndex =
      if fit.startIndex ≥ src then fit.startIndex - count else fit.startIndex := by
  have hsize : ¬ filePhysicalSize bs fit = 0 := by
    rw [filePhysicalSize_eq_zero hbs hbs' hvalid]
    omega
  unfold closeBehind
  rw [if_neg hsize]
  split
  · rename_i hge
    exact sub64_of_le (hcount hge) hlt
  · rfl

/-- The list `fstree_file_move_to_end` leaves where it moved data. -/
def movedFiles (bs top i : Nat) (n : FileNode) (files : List FileNode) : List FileNode :=
  (files.modify i fun n => { n with startIndex := top }).map
    (closeBehind bs n.startIndex (n.stored bs))

/-- The blocks behind the file that was moved have closed up. -/
theorem Layout.movedFiles_ne (h : Layout bs top files) (hbs : 0 < bs) (hbs' : bs < 2 ^ 32)
    (hn : files[i]? = some n) (hpos : 0 < n.stored bs) {j : Nat} {m : FileNode} (hji : j ≠ i)
    (hm : files[j]? = some m) (hj : 0 < m.stored bs) :
    (movedFiles bs top i n files)[j]? = some { m with startIndex :=
      if m.startIndex ≥ n.startIndex then m.startIndex - n.stored bs else m.startIndex } := by
  have hapart := h.packed.apart j i hji (by rw [extentAt_eq hm]; exact hj)
    (by rw [extentAt_eq hn]; exact hpos)
  rw [extentAt_eq hm, extentAt_eq hn] at hapart
  have hstop := h.stop_le hm hj
  have htop := h.top_lt
  have hplace := closeBehind_startIndex hbs hbs' (h.valid_at hm) hj
    (show m.startIndex ≥ n.startIndex → n.stored bs ≤ m.startIndex by
      intro hge
      unfold Extent.Apart Extent.stop FileNode.extent at hapart
      dsimp only at hapart
      omega) (by omega)
  have hg : Restarts (closeBehind bs n.startIndex (n.stored bs)) := closeBehind_restarts _ _
  obtain ⟨start, hstart⟩ := hg m
  unfold movedFiles
  rw [List.getElem?_map, List.getElem?_modify_ne _ _ fun hij => hji hij.symm, hm,
    Option.map_some, hstart]
  rw [hstart] at hplace
  rw [← hplace]

theorem Layout.moveEnd (h : Layout bs top files) (hbs : 0 < bs) (hbs' : bs < 2 ^ 32)
    (hn : files[i]? = some n) (hpos : 0 < n.stored bs) :
    Layout bs top (movedFiles bs top i n files) ∧ (movedFiles bs top i n files)[i]? =
      some { n with startIndex := top - n.stored bs } := by
  have hvalid := h.valid_at hn
  have hstop := h.stop_le hn hpos
  have htop := h.top_lt
  have hg : Restarts (closeBehind bs n.startIndex (n.stored bs)) :=
    closeBehind_restarts _ _
  -- the file itself
  have hmoved : (files.modify i fun n => { n with startIndex := top })[i]? =
      some { n with startIndex := top } :=
    getElem?_modify_self (f := fun n : FileNode => { n with startIndex := top }) hn
  have hself : (closeBehind bs n.startIndex (n.stored bs)
      { n with startIndex := top }).startIndex = top - n.stored bs := by
    have hplace : top ≥ n.startIndex := by omega
    rw [closeBehind_startIndex hbs hbs' (hvalid.restart top) hpos
      (fun _ => by show n.stored bs ≤ top; omega) h.top_lt]
    exact if_pos hplace
  constructor
  · have hvalid' : ∀ m ∈ files.modify i fun n => { n with startIndex := top },
        m.Valid bs :=
      h.valid_modify (f := fun n : FileNode => { n with startIndex := top }) hn
        (hvalid.restart top)
    refine Layout.restart hvalid' hg h.top_lt ?_
    apply h.packed.moveLast (k := i)
    · rw [extentAt_eq hn]
      exact hpos
    · rw [hg.extentAt_map_len, extentAt_restart_len, extentAt_map_start hmoved, hself,
        extentAt_eq hn]
      exact ⟨rfl, rfl⟩
    · intro j hji
      refine ⟨by rw [hg.extentAt_map_len, extentAt_restart_len], ?_⟩
      intro hj
      obtain ⟨m, hm⟩ := exists_of_extentAt_pos hj
      rw [extentAt_eq hm] at hj
      have hm' := h.movedFiles_ne hbs hbs' hn hpos hji hm hj
      change (extentAt bs (movedFiles bs top i n files) j).start = _
      rw [extentAt_eq hm', extentAt_eq hm, extentAt_eq hn]
      rfl
  · obtain ⟨start, hstart⟩ := hg.getElem?_map hmoved
    have hplace : (extentAt bs (movedFiles bs top i n files) i).start = top - n.stored bs :=
      (extentAt_map_start hmoved).trans hself
    unfold movedFiles at hplace ⊢
    rw [extentAt_eq hstart] at hplace
    rw [hstart, ← hplace]
    rfl

end MoveEnd

section CutAndGap

variable {bs top i : Nat} {n cut fit : FileNode} {files : List FileNode}

theorem closeCut_restarts (start diff : Nat) : Restarts (closeCut bs start diff) := by
  intro fit
  unfold closeCut
  split
  · exact ⟨fit.startIndex, rfl⟩
  · split
    · exact ⟨_, rfl⟩
    · exact ⟨fit.startIndex, rfl⟩

theorem closeCut_startIndex {start diff : Nat} (hbs : 0 < bs) (hbs' : bs < 2 ^ 32)
    (hvalid : fit.Valid bs) (hpos : 0 < fit.stored bs)
    (hdiff : fit.startIndex > start → diff ≤ fit.startIndex)
    (hlt : fit.startIndex < 2 ^ 64) : (closeCut bs start diff fit).startIndex =
      if fit.startIndex > start then fit.startIndex - diff else fit.startIndex := by
  have hsize : ¬ filePhysicalSize bs fit = 0 := by
    rw [filePhysicalSize_eq_zero hbs hbs' hvalid]
    omega
  unfold closeCut
  rw [if_neg hsize]
  split
  · rename_i hgt
    exact sub64_of_le (hdiff hgt) hlt
  · rfl

theorem closeCut_self {start diff : Nat} (h : fit.startIndex ≤ start) :
    closeCut bs start diff fit = fit := by
  unfold closeCut
  rw [if_neg (Nat.not_lt.2 h), ite_self]

/-- The blocks behind a file that was cut down have closed up. -/
theorem Layout.cutFiles_ne (h : Layout bs top files) (hbs : 0 < bs) (hbs' : bs < 2 ^ 32)
    (hn : files[i]? = some n) (hless : cut.stored bs < n.stored bs) {j : Nat} {m : FileNode}
    (hji : j ≠ i) (hm : files[j]? = some m) (hj : 0 < m.stored bs) :
    ((files.modify i fun _ => cut).map
      (closeCut bs n.startIndex (n.stored bs - cut.stored bs)))[j]? = some { m with startIndex :=
        if m.startIndex > n.startIndex then m.startIndex - (n.stored bs - cut.stored bs)
        else m.startIndex } := by
  have hapart := h.packed.apart j i hji (by rw [extentAt_eq hm]; exact hj)
    (by rw [extentAt_eq hn]; exact Nat.zero_lt_of_lt hless)
  rw [extentAt_eq hm, extentAt_eq hn] at hapart
  have hstop := h.stop_le hm hj
  have htop := h.top_lt
  have hplace := closeCut_startIndex hbs hbs' (h.valid_at hm) hj
    (show m.startIndex > n.startIndex → n.stored bs - cut.stored bs ≤ m.startIndex by
      intro hgt
      unfold Extent.Apart Extent.stop FileNode.extent at hapart
      dsimp only at hapart
      omega) (by omega)
  have hg : Restarts (closeCut bs n.startIndex (n.stored bs - cut.stored bs)) :=
    closeCut_restarts _ _
  obtain ⟨start, hstart⟩ := hg m
  rw [List.getElem?_map, List.getElem?_modify_ne _ _ fun hij => hji hij.symm, hm,
    Option.map_some, hstart]
  rw [hstart] at hplace
  rw [← hplace]

/-- Cutting a file down where it lies, and closing the hole. -/
theorem Layout.cutFile (h : Layout bs top files) (hbs : 0 < bs) (hbs' : bs < 2 ^ 32)
    (hn : files[i]? = some n) (hvalid : cut.Valid bs)
    (hstart : cut.startIndex = n.startIndex) (hless : cut.stored bs < n.stored bs) :
    Layout bs (top - (n.stored bs - cut.stored bs))
      ((files.modify i fun _ => cut).map
        (closeCut bs n.startIndex (n.stored bs - cut.stored bs))) := by
  have hstop := h.stop_le hn (by omega)
  have htop := h.top_lt
  have hg : Restarts (closeCut bs n.startIndex (n.stored bs - cut.stored bs)) :=
    closeCut_restarts _ _
  have hcut : (files.modify i fun _ => cut)[i]? = some cut := getElem?_modify_self hn
  refine Layout.restart (h.valid_modify hn hvalid) hg (by omega) ?_
  apply h.packed.cut (k := i)
  · rw [extentAt_eq hn]
    exact Nat.sub_le _ _
  · rw [extentAt_eq hn]
    exact Nat.zero_lt_of_lt hless
  · rw [hg.extentAt_map_len, extentAt_map_start hcut, extentAt_eq hcut, extentAt_eq hn,
      closeCut_self (Nat.le_of_eq hstart)]
    exact ⟨hstart, (Nat.sub_sub_self (Nat.le_of_lt hless)).symm⟩
  · intro j hji
    have hsame : extentAt bs (files.modify i fun _ => cut) j = extentAt bs files j :=
      extentAt_modify_ne hji
    refine ⟨by rw [hg.extentAt_map_len, hsame], ?_⟩
    intro hj
    obtain ⟨m, hm⟩ := exists_of_extentAt_pos hj
    rw [extentAt_eq hm] at hj
    rw [extentAt_eq (h.cutFiles_ne hbs hbs' hn hless hji hm hj), extentAt_eq hm, extentAt_eq hn]
    rfl

theorem openGap_restarts (index count : Nat) : Restarts (openGap index count) := by
  intro fit
  unfold openGap
  split
  · exact ⟨_, rfl⟩
  · exact ⟨fit.startIndex, rfl⟩

/-- Opening a gap in front of a block that is not strictly inside a file. -/
theorem Layout.openGap {index count : Nat} (h : Layout bs top files)
    (hindex : ∀ n ∈ files, 0 < n.stored bs →
      index ≤ n.startIndex ∨ n.startIndex + n.stored bs ≤ index)
    (hlt : top + count < 2 ^ 64) :
    Layout bs (top + count) (files.map (openGap index count)) := by
  have hg : Restarts (Fstree.openGap index count) := openGap_restarts _ _
  refine Layout.restart h.valid hg hlt ?_
  apply h.packed.gap (x := index) (d := count)
  · intro j hj
    obtain ⟨m, hm⟩ := exists_of_extentAt_pos hj
    rw [extentAt_eq hm] at hj ⊢
    exact hindex m (List.mem_of_getElem? hm) hj
  · intro j
    exact hg.extentAt_map_len
  · intro j hj
    obtain ⟨m, hm⟩ := exists_of_extentAt_pos hj
    rw [extentAt_eq hm] at hj
    rw [extentAt_map_start hm, extentAt_eq hm]
    have hstop := h.stop_le hm hj
    change _ = if m.startIndex ≥ index then m.startIndex + count else m.startIndex
    have hjpos : 0 < m.stored bs := hj
    unfold Fstree.openGap
    split
    · exact u64_of_lt (by omega)
    · rfl

/-- An unused stretch behind the data area. -/
theorem Layout.grow {top' : Nat} (h : Layout bs top files) (htop : top ≤ top')
    (hlt : top' < 2 ^ 64) : Layout bs top' files :=
  ⟨h.valid, h.packed.mono htop, hlt⟩

end CutAndGap

end ImageTool.Fstree
