import ImageTool.Fstree.Content

/-!
# Moving file data

`fstree_file_move_to_end` and `fstree_add_gap` move blocks of files and nothing else:
where the volume has room they succeed, every file reads as before, and the data area
is rearranged as the accounting says.  Where the volume has no room for a copy, what was
copied lies behind the data area.
-/

namespace ImageTool.Fstree

open ImageTool.Lib ImageTool.Image ImageTool.Util

variable {σ : Type}

/-! ## Files that are moved -/

/-- Every file keeps its size and its regions, and its stored bytes wherever they lie
now. -/
structure Relocated (bs : Nat) (view : σ → Bytes) (fs fs' : Fstree σ) : Prop where
  length : fs'.files.length = fs.files.length
  node : ∀ (j : Nat) (n : FileNode), fs.files[j]? = some n → ∃ start : Nat,
    fs'.files[j]? = some { n with startIndex := start } ∧
      ∀ q < n.stored bs * bs,
        view fs'.volume (start * bs + q) = view fs.volume (n.startIndex * bs + q)

section Relocated

variable {bs count i : Nat} {view : σ → Bytes} {fs fs' fs'' : Fstree σ} {n : FileNode}

theorem Relocated.refl (bs : Nat) (view : σ → Bytes) (fs : Fstree σ) :
    Relocated bs view fs fs := ⟨rfl, fun _ n hn => ⟨n.startIndex, hn, fun _ _ => rfl⟩⟩

theorem Relocated.fileContents_eq (h : Relocated bs view fs fs') (hbs : 0 < bs)
    (hvalid : ∀ n ∈ fs.files, n.Valid bs) :
    fileContents bs view fs' = fileContents bs view fs := by
  funext j
  unfold fileContents
  cases hn : fs.files[j]? with
  | none =>
      have hout := List.getElem?_eq_none_iff.1 hn
      rw [List.getElem?_eq_none (by rw [h.length]; exact hout)]
      rfl
  | some n =>
      obtain ⟨start, hn', hdata⟩ := h.node j n hn
      rw [hn', Option.map_some, Option.map_some]
      exact congrArg some (contents_congr hbs (hvalid n (List.mem_of_getElem? hn)) rfl rfl hdata)

end Relocated

/-- Every file has the bytes it had. -/
def ReadsSame (vol : Volume σ) (fs fs' : Fstree σ) : Prop :=
  ∀ j c, Reads vol j c fs' ↔ Reads vol j c fs

/-- The extents of all files but `i` lie in the order they had. -/
def SameOrder (bs i : Nat) (fs fs' : Fstree σ) : Prop :=
  ∀ j k, j ≠ i → k ≠ i → 0 < (extentAt bs fs.files j).len →
    0 < (extentAt bs fs.files k).len →
    ((extentAt bs fs'.files j).start < (extentAt bs fs'.files k).start ↔
      (extentAt bs fs.files j).start < (extentAt bs fs.files k).start)

theorem Relocated.readsSame {vol : Volume σ} {count : Nat} {view : σ → Bytes}
    {fs fs' : Fstree σ} (h : Relocated vol.blocksize view fs fs')
    (hv : BlockStore vol count view) (hfs : Housed vol.blocksize count fs)
    (hfs' : Housed vol.blocksize count fs') : ReadsSame vol fs fs' := by
  intro j c
  rw [reads_iff hv hfs', reads_iff hv hfs,
    h.fileContents_eq hv.blocksize_pos hfs.laidOut.valid]

/-! ## Files that are left alone -/

/-- The files in `P` keep their sizes, their regions and their stored bytes, and lie on the
volume. -/
structure FilesKept (bs count : Nat) (view : σ → Bytes) (P : Nat → Prop)
    (fs fs' : Fstree σ) : Prop where
  length : fs'.files.length = fs.files.length
  node : ∀ (j : Nat) (n : FileNode), P j → fs.files[j]? = some n → ∃ start : Nat,
    fs'.files[j]? = some { n with startIndex := start } ∧
      Placed bs count { n with startIndex := start } ∧
      ∀ q < n.stored bs * bs,
        view fs'.volume (start * bs + q) = view fs.volume (n.startIndex * bs + q)

section FilesKept

variable {bs count i : Nat} {view : σ → Bytes} {P Q : Nat → Prop} {fs fs' fs'' : Fstree σ}
variable {n : FileNode}

/-- Nothing but the volume has changed for the files in `P`. -/
theorem FilesKept.inPlace (h : Housed bs count fs)
    (hlength : fs'.files.length = fs.files.length)
    (hfiles : ∀ j, P j → fs'.files[j]? = fs.files[j]?)
    (hview : ∀ (j : Nat) (n : FileNode), P j → fs.files[j]? = some n →
      ∀ q < n.stored bs * bs,
        view fs'.volume (n.startIndex * bs + q) = view fs.volume (n.startIndex * bs + q)) :
    FilesKept bs count view P fs fs' where
  length := hlength
  node := by
    intro j n hj hn
    exact ⟨n.startIndex, (hfiles j hj).trans hn, h.placed hn, hview j n hj hn⟩

theorem FilesKept.refl (view : σ → Bytes) (P : Nat → Prop) (h : Housed bs count fs) :
    FilesKept bs count view P fs fs :=
  .inPlace h rfl (fun _ _ => rfl) fun _ _ _ _ _ _ => rfl

/-- A change behind the data area. -/
theorem FilesKept.behind (h : Housed bs count fs) (P : Nat → Prop) {v : σ}
    (hview : ∀ p < fs.dataOffset * bs, view v p = view fs.volume p) :
    FilesKept bs count view P fs { fs with volume := v } := by
  refine FilesKept.inPlace h rfl (fun _ _ => rfl) ?_
  intro j n _ hn q hq
  have hpos : 0 < n.stored bs := by
    by_contra hzero
    rw [Nat.eq_zero_of_not_pos hzero, Nat.zero_mul] at hq
    omega
  have hstop := Nat.mul_le_mul_right bs (h.laidOut.stop_le hn hpos)
  rw [Nat.add_mul] at hstop
  exact hview _ (by omega)

theorem FilesKept.mono (h : FilesKept bs count view P fs fs') (hPQ : ∀ j, Q j → P j) :
    FilesKept bs count view Q fs fs' :=
  ⟨h.length, fun j n hj hn => h.node j n (hPQ j hj) hn⟩

theorem FilesKept.trans (h : FilesKept bs count view P fs fs')
    (h' : FilesKept bs count view P fs' fs'') : FilesKept bs count view P fs fs'' where
  length := h'.length.trans h.length
  node := by
    intro j n hj hn
    obtain ⟨start, hn', _, hdata⟩ := h.node j n hj hn
    obtain ⟨start', hn'', hplaced, hdata'⟩ := h'.node j _ hj hn'
    refine ⟨start', hn'', hplaced, ?_⟩
    intro q hq
    exact (hdata' q hq).trans (hdata q hq)

/-- The files in `P` have their bytes on the volume. -/
theorem FilesKept.of_housed (hfs' : Housed bs count fs')
    (hlength : fs'.files.length = fs.files.length)
    (hnode : ∀ (j : Nat) (n : FileNode), P j → fs.files[j]? = some n → ∃ start : Nat,
      fs'.files[j]? = some { n with startIndex := start } ∧ ∀ q < n.stored bs * bs,
        view fs'.volume (start * bs + q) = view fs.volume (n.startIndex * bs + q)) :
    FilesKept bs count view P fs fs' where
  length := hlength
  node := by
    intro j n hj hn
    obtain ⟨start, hn', hdata⟩ := hnode j n hj hn
    exact ⟨start, hn', hfs'.placed hn', hdata⟩

theorem Relocated.filesKept (h : Relocated bs view fs fs') (hfs' : Housed bs count fs')
    (P : Nat → Prop) : FilesKept bs count view P fs fs' :=
  .of_housed hfs' h.length fun j n _ hn => h.node j n hn

theorem FilesKept.fileContents_eq (h : FilesKept bs count view P fs fs') (hbs : 0 < bs)
    {j : Nat} (hj : P j) : fileContents bs view fs' j = fileContents bs view fs j := by
  unfold fileContents
  cases hn : fs.files[j]? with
  | none =>
      have hout := List.getElem?_eq_none_iff.1 hn
      rw [List.getElem?_eq_none (by rw [h.length]; exact hout)]
      rfl
  | some n =>
      obtain ⟨start, hn', hplaced, hdata⟩ := h.node j n hj hn
      have hvalid : n.Valid bs := ⟨hplaced.valid.within, hplaced.valid.words, hplaced.valid.size_lt⟩
      rw [hn', Option.map_some, Option.map_some]
      exact congrArg some (contents_congr hbs hvalid rfl rfl hdata)

/-- They read as before. -/
theorem FilesKept.reads_iff {vol : Volume σ} (h : FilesKept vol.blocksize count view P fs fs')
    (hv : BlockStore vol count view) (hfs : Housed vol.blocksize count fs) {j : Nat} (hj : P j)
    {c : List UInt8} : Reads vol j c fs' ↔ Reads vol j c fs := by
  have hplaced : ∀ m, fs'.files[j]? = some m → Placed vol.blocksize count m := by
    intro m hm
    have hlt := (List.getElem?_eq_some_iff.1 hm).1
    rw [h.length] at hlt
    obtain ⟨start, hn', hplaced, _⟩ := h.node j _ hj (List.getElem?_eq_getElem hlt)
    rw [hm] at hn'
    cases hn'
    exact hplaced
  rw [reads_iff_of_placed hv hplaced, Fstree.reads_iff hv hfs,
    h.fileContents_eq hv.blocksize_pos hj]

end FilesKept

/-! ## A volume for file data -/

/-- An array of blocks with 64-bit byte addresses that refuses what leaves it. -/
structure Backing (vol : Volume σ) (count : Nat) (view : σ → Bytes) : Prop where
  store : BlockStore vol count view
  refuses : RefusesOutside vol count
  blocksize_lt : vol.blocksize < 2 ^ 32
  bytes_lt : count * vol.blocksize < 2 ^ 64

section Backing

variable {vol : Volume σ} {count : Nat} {view : σ → Bytes}

theorem Backing.count_lt (h : Backing vol count view) : count < 2 ^ 64 :=
  Nat.lt_of_le_of_lt (Nat.le_mul_of_pos_right _ h.store.blocksize_pos) h.bytes_lt

theorem Backing.block_le (h : Backing vol count view) {i : Nat} (hi : i ≤ count) :
    i * vol.blocksize < 2 ^ 64 :=
  Nat.lt_of_le_of_lt (Nat.mul_le_mul_right _ hi) h.bytes_lt

theorem Backing.bounded (h : Backing vol count view) : Bounded vol where
  blocksize_pos := h.store.blocksize_pos
  blocksize_lt := h.blocksize_lt
  writeBlock := by
    intro s i b t hok
    have hcount := h.count_lt
    by_contra hout
    rw [h.refuses.writeBlock s i b (by omega)] at hok
    cases hok
  writePartialBlock := by
    intro s i b off n t hok
    have hcount := h.count_lt
    by_contra hout
    rw [h.refuses.writePartialBlock s i b off n (by omega)] at hok
    cases hok

theorem idealVolume_backing {bs : Nat} (hbs : 0 < bs) (hbs' : bs < 2 ^ 32)
    (hbytes : count * bs < 2 ^ 64) : Backing (idealVolume bs count) count id :=
  ⟨idealVolume_blockStore hbs, idealVolume_refusesOutside, hbs', hbytes⟩

section Calls

variable {a off k : Nat} {data : Buffer} {fs : Fstree σ} {Q : Unit → Fstree σ → Prop}
variable {E : Fstree σ → Prop}

theorem Backing.returns_of {m : Call σ Unit} {c : Bytes} {P : Prop} [Decidable P]
    (hin : P → ∃ s', m fs.volume = .ok () s' ∧ view s' = c)
    (hout : ¬ P → m fs.volume = .fail fs.volume)
    (hok : P → ∀ v, view v = c → Q () { fs with volume := v }) (hfail : ¬ P → E fs) :
    Call.Returns (onVolume m fs) Q E := by
  by_cases h : P
  · obtain ⟨v, hv, hview⟩ := hin h
    rw [onVolume_ok hv]
    exact hok h v hview
  · unfold onVolume
    rw [Call.zoom_apply, hout h]
    exact hfail h

theorem Backing.returns_writeBlock (h : Backing vol count view) (hold : data.Holds vol.blocksize)
    (hok : a < count → ∀ v, view v = (view fs.volume).splice (a * vol.blocksize)
      (data.bytes vol.blocksize) → Q () { fs with volume := v })
    (hfail : ¬ a < count → E fs) :
    Call.Returns (onVolume (vol.writeBlock a data) fs) Q E :=
  returns_of (fun hin => h.store.writeBlock _ _ _ hin hold)
    (fun hout => h.refuses.writeBlock _ _ _ (Nat.le_of_not_lt hout)) hok hfail

theorem Backing.returns_writePartialBlock (h : Backing vol count view)
    (hfit : off + k ≤ vol.blocksize) (hold : data.Holds k)
    (hok : a < count → ∀ v, view v = (view fs.volume).splice (a * vol.blocksize + off)
      (data.bytes k) → Q () { fs with volume := v })
    (hfail : ¬ a < count → E fs) :
    Call.Returns (onVolume (vol.writePartialBlock a data off k) fs) Q E :=
  returns_of (fun hin => h.store.writePartialBlock _ _ _ _ _ hin hfit hold)
    (fun hout => h.refuses.writePartialBlock _ _ _ _ _ (Nat.le_of_not_lt hout)) hok hfail

theorem Backing.returns_discardBlocks (h : Backing vol count view)
    (hok : a + k ≤ count → ∀ v, view v = (view fs.volume).clear (a * vol.blocksize)
      (k * vol.blocksize) → Q () { fs with volume := v })
    (hfail : ¬ a + k ≤ count → E fs) :
    Call.Returns (onVolume (vol.discardBlocks a k) fs) Q E :=
  returns_of (fun hin => h.store.discardBlocks _ _ _ hin)
    (fun hout => h.refuses.discardBlocks _ _ _ (Nat.lt_of_not_le hout)) hok hfail

/-- Moving a range up: all of it arrives, or only what lies behind both places has changed, or
the places overlap and the new one has no 64-bit end. -/
theorem Backing.returns_memmoveUp (h : Backing vol count view) {d len : Nat} (hd : 0 < d)
    (hin : a + len ≤ count * vol.blocksize) (hdst : 0 < len → a + d < 2 ^ 64)
    (hok : 0 < len → a + d + len ≤ count * vol.blocksize → ∀ v,
      view v = (view fs.volume).move (a + d) a len → Q () { fs with volume := v })
    (hnone : len = 0 → Q () fs)
    (hfail : ∀ v, (∀ p < a + max d len, view v p = view fs.volume p) → E { fs with volume := v })
    (hwrap : d < len → 2 ^ 64 < a + d + len → ∀ v, E { fs with volume := v }) :
    Call.Returns (onVolume (volumeMemmove vol (u64 (a + d)) a len) fs) Q E := by
  have hlt := h.bytes_lt
  by_cases hzero : len = 0
  · unfold volumeMemmove
    rw [if_pos (Or.inr hzero)]
    exact hnone hzero
  have hpos := Nat.pos_of_ne_zero hzero
  rw [u64_of_lt (hdst hpos)]
  by_cases hfits : a + d + len ≤ count * vol.blocksize
  · obtain ⟨v, hv, hview⟩ := volumeMemmove_eq h.store fs.volume hfits hin (by omega) (by omega)
    rw [onVolume_ok hv]
    exact hok hpos hfits v hview
  apply returns_onVolume
  by_cases hover : a + d < a + len
  · by_cases h64 : a + d + len ≤ 2 ^ 64
    · rw [volumeMemmove_refused h.store h.refuses fs.volume (by omega) hover h64 (by omega)]
      exact hfail _ fun _ _ => rfl
    · cases hres : volumeMemmove vol (a + d) a len fs.volume with
      | ok u v =>
          have := volumeMemmove_wrapped h.refuses h.store.blocksize_pos hlt (by omega) hover
            (by omega) hres
          omega
      | fail v => exact hwrap (by omega) (by omega) v
      | stuck => trivial
  · apply (volumeMemmove_beyond h.store h.refuses hlt fs.volume hpos
      (show a + len ≤ a + d by omega) (by omega) (by omega)).mono
    · intro _ _ hnever
      exact hnever.elim
    · intro v hcopy
      exact hfail v fun p hp => hcopy p (by omega)

end Calls

end Backing

/-! ## Moving to the end -/

section MoveToEnd

variable {vol : Volume σ} {count i : Nat} {view : σ → Bytes} {fs fs' : Fstree σ}
variable {n : FileNode}

/-- The contents of a volume after a call that is known to return. -/
theorem view_of_ok {m : Call σ Unit} {s v : σ} {c : Bytes}
    (h : ∃ s', m s = .ok () s' ∧ view s' = c) (hok : m s = .ok () v) : view v = c := by
  obtain ⟨s', hs', hview⟩ := h
  rw [hok] at hs'
  cases hs'
  exact hview

/-- The two moves and the discard of `fstree_file_move_to_end`. -/
theorem moveBehind_view (hb : Backing vol count view) {start len top : Nat} {s v₁ v₂ v₃ : σ}
    (hpos : 0 < len) (hend : start + len ≤ top)
    (h₁ : volumeMemmove vol (u64 (top * vol.blocksize)) (u64 (start * vol.blocksize))
      (u64 (len * vol.blocksize)) s = .ok () v₁)
    (h₂ : volumeMemmove vol (u64 (start * vol.blocksize))
      (u64 (u64 (start * vol.blocksize) + u64 (len * vol.blocksize)))
      (u64 (sub64 top start * vol.blocksize)) v₁ = .ok () v₂)
    (h₃ : vol.discardBlocks top len v₂ = .ok () v₃) :
    ∀ p < top * vol.blocksize, view v₃ p =
      if p < start * vol.blocksize then view s p
      else if p + len * vol.blocksize < top * vol.blocksize then
        view s (p + len * vol.blocksize)
      else view s (start * vol.blocksize + (p + len * vol.blocksize - top * vol.blocksize)) := by
  have hfit : top + len ≤ count := by
    by_contra hout
    rw [hb.refuses.discardBlocks v₂ top len (by omega)] at h₃
    cases h₃
  have hcount := hb.count_lt
  have hstop : (top + len) * vol.blocksize < 2 ^ 64 := hb.block_le hfit
  have hin : (top + len) * vol.blocksize ≤ count * vol.blocksize := Nat.mul_le_mul_right _ hfit
  have hle : (start + len) * vol.blocksize ≤ top * vol.blocksize := Nat.mul_le_mul_right _ hend
  rw [Nat.add_mul] at hstop hin hle
  have hgap : (top - start) * vol.blocksize = top * vol.blocksize - start * vol.blocksize :=
    Nat.sub_mul _ _ _
  rw [u64_of_lt (by omega), u64_of_lt (by omega), u64_of_lt (by omega)] at h₁
  rw [sub64_of_le (by omega) (by omega), hgap, u64_of_lt (by omega : start * vol.blocksize < _),
    u64_of_lt (by omega : len * vol.blocksize < _), u64_of_lt (by omega),
    u64_of_lt (by omega)] at h₂
  have hview₁ := view_of_ok (volumeMemmove_eq hb.store s (by omega) (by omega) (by omega)
    (by omega)) h₁
  have hview₂ := view_of_ok (volumeMemmove_eq hb.store v₁ (by omega) (by omega) (by omega)
    (by omega)) h₂
  have hview₃ := view_of_ok (hb.store.discardBlocks v₂ top len hfit) h₃
  intro p hp
  rw [hview₃, hview₂, hview₁]
  exact Bytes.move_behind_apply hle hp

/-- The files after the data of one was moved. -/
theorem movedFiles_relocated (hbs : 0 < vol.blocksize) (hbs' : vol.blocksize < 2 ^ 32)
    (h : LaidOut vol.blocksize fs) (hn : fs.files[i]? = some n)
    (hpos : 0 < n.stored vol.blocksize) {v : σ}
    (hview : ∀ p < fs.dataOffset * vol.blocksize, view v p =
      if p < n.startIndex * vol.blocksize then view fs.volume p
      else if p + n.stored vol.blocksize * vol.blocksize < fs.dataOffset * vol.blocksize then
        view fs.volume (p + n.stored vol.blocksize * vol.blocksize)
      else view fs.volume (n.startIndex * vol.blocksize +
        (p + n.stored vol.blocksize * vol.blocksize - fs.dataOffset * vol.blocksize))) :
    Relocated vol.blocksize view fs { fs with
      volume := v
      files := movedFiles vol.blocksize fs.dataOffset i n fs.files } where
  length := by simp [movedFiles]
  node := by
    intro j m hm
    have hmoved := (Layout.moveEnd h hbs hbs' hn hpos).2
    have hend := Nat.mul_le_mul_right vol.blocksize (h.stop_le hn hpos)
    rw [Nat.add_mul] at hend
    by_cases hji : j = i
    · subst hji
      rw [hn] at hm
      cases hm
      refine ⟨_, hmoved, ?_⟩
      intro q hq
      have hback : (fs.dataOffset - n.stored vol.blocksize) * vol.blocksize =
          fs.dataOffset * vol.blocksize - n.stored vol.blocksize * vol.blocksize :=
        Nat.sub_mul _ _ _
      rw [hback]
      change view v _ = _
      rw [hview _ (by omega), if_neg (by omega), if_neg (by omega)]
      congr 1
      omega
    · by_cases hjzero : m.stored vol.blocksize = 0
      · -- nothing to compare
        have hg : Restarts (closeBehind vol.blocksize n.startIndex (n.stored vol.blocksize)) :=
          closeBehind_restarts _ _
        have hm' : (fs.files.modify i fun n => { n with startIndex := fs.dataOffset })[j]? =
            some m := by
          rw [List.getElem?_modify_ne _ _ fun hij => hji hij.symm]
          exact hm
        obtain ⟨start, hstart⟩ := hg.getElem?_map hm'
        refine ⟨start, hstart, ?_⟩
        intro q hq
        rw [hjzero, Nat.zero_mul] at hq
        exact absurd hq (Nat.not_lt_zero q)
      have hjpos : 0 < m.stored vol.blocksize := Nat.pos_of_ne_zero hjzero
      have hapart := h.packed.apart j i hji (by rw [extentAt_eq hm]; exact hjpos)
        (by rw [extentAt_eq hn]; exact hpos)
      rw [extentAt_eq hm, extentAt_eq hn] at hapart
      have hstop := h.stop_le hm hjpos
      refine ⟨_, Layout.movedFiles_ne h hbs hbs' hn hpos hji hm hjpos, ?_⟩
      intro q hq
      have hstop' := Nat.mul_le_mul_right vol.blocksize hstop
      rw [Nat.add_mul] at hstop'
      change view v _ = _
      rcases hapart with hfront | hbehind
      · -- in front of the file that was moved
        change m.startIndex + m.stored vol.blocksize ≤ n.startIndex at hfront
        have hfront' := Nat.mul_le_mul_right vol.blocksize hfront
        rw [Nat.add_mul] at hfront'
        rw [if_neg (show ¬ m.startIndex ≥ n.startIndex by omega), hview _ (by omega),
          if_pos (by omega)]
      · -- behind it
        change n.startIndex + n.stored vol.blocksize ≤ m.startIndex at hbehind
        have hbehind' := Nat.mul_le_mul_right vol.blocksize hbehind
        rw [Nat.add_mul] at hbehind'
        rw [if_pos (show m.startIndex ≥ n.startIndex by omega), Nat.sub_mul, hview _ (by omega),
          if_neg (by omega), if_pos (by omega)]
        congr 1
        omega

theorem fileMoveToEnd_relocated (hb : Backing vol count view) (h : LaidOut vol.blocksize fs)
    (hn : fs.files[i]? = some n) :
    Call.Returns (fileMoveToEnd vol i fs)
      (fun _ => Relocated vol.blocksize view fs) fun _ => True := by
  have hbs := hb.store.blocksize_pos
  have hbs' := hb.blocksize_lt
  have hvalid := h.valid_at hn
  unfold fileMoveToEnd
  rw [Call.bind_apply, file_eq hn, Outcome.bind_ok, Call.bind_apply, Call.get_apply,
    Outcome.bind_ok]
  dsimp only
  by_cases hzero : filePhysicalSize vol.blocksize n = 0
  · rw [if_pos hzero]
    have hstored := (filePhysicalSize_eq_zero hbs hbs' hvalid).1 hzero
    refine ⟨by simp, ?_⟩
    intro j m hm
    by_cases hji : j = i
    · subst hji
      rw [hn] at hm
      cases hm
      refine ⟨fs.dataOffset, getElem?_modify_self hn, ?_⟩
      intro q hq
      rw [hstored, Nat.zero_mul] at hq
      omega
    · refine ⟨m.startIndex, ?_, fun _ _ => rfl⟩
      rw [List.getElem?_modify_ne _ _ fun hij => hji hij.symm]
      exact hm
  · rw [if_neg hzero, blockCount_filePhysicalSize hbs hbs' hvalid]
    have hpos : 0 < n.stored vol.blocksize := by
      have := (filePhysicalSize_eq_zero hbs hbs' hvalid).not.1 hzero
      omega
    by_cases hlast : n.stored vol.blocksize ≥ sub64 fs.dataOffset n.startIndex
    · rw [if_pos hlast]
      exact Relocated.refl _ _ _
    · rw [if_neg hlast]
      apply onVolume_bind fun _ => trivial
      intro _ v₁ h₁
      apply onVolume_bind fun _ => trivial
      intro _ v₂ h₂
      apply onVolume_bind fun _ => trivial
      intro _ v₃ h₃
      rw [Call.bind_apply, updateFile_apply, Outcome.bind_ok, updateFiles_apply]
      exact movedFiles_relocated hbs hbs' h hn hpos
        (moveBehind_view hb hpos (h.stop_le hn hpos) h₁ h₂ h₃)

/-- The list `fstree_file_move_to_end` leaves. -/
def endFiles (bs top i : Nat) (n : FileNode) (files : List FileNode) : List FileNode :=
  if n.stored bs = 0 then files.modify i fun n => { n with startIndex := top }
  else if n.stored bs ≥ top - n.startIndex then files
  else movedFiles bs top i n files

/-- With room for the copy the moves and the discard succeed. -/
theorem fileMoveToEnd_ok (hb : Backing vol count view) (h : LaidOut vol.blocksize fs)
    (hn : fs.files[i]? = some n) (hroom : fs.dataOffset + n.stored vol.blocksize ≤ count) :
    ∃ v, fileMoveToEnd vol i fs = .ok () { fs with
      volume := v
      files := endFiles vol.blocksize fs.dataOffset i n fs.files } := by
  have hbs := hb.store.blocksize_pos
  have hvalid := h.valid_at hn
  unfold fileMoveToEnd endFiles
  rw [Call.bind_apply, file_eq hn, Outcome.bind_ok, Call.bind_apply, Call.get_apply,
    Outcome.bind_ok]
  dsimp only
  by_cases hzero : filePhysicalSize vol.blocksize n = 0
  · rw [if_pos hzero, if_pos ((filePhysicalSize_eq_zero hbs hb.blocksize_lt hvalid).1 hzero)]
    exact ⟨fs.volume, rfl⟩
  have hstored := (filePhysicalSize_eq_zero hbs hb.blocksize_lt hvalid).not.1 hzero
  have hstop := h.stop_le hn (Nat.pos_of_ne_zero hstored)
  have hlt := h.top_lt
  rw [if_neg hzero, if_neg hstored, blockCount_filePhysicalSize hbs hb.blocksize_lt hvalid,
    sub64_of_le (show n.startIndex ≤ fs.dataOffset by omega) hlt]
  by_cases hlast : n.stored vol.blocksize ≥ fs.dataOffset - n.startIndex
  · rw [if_pos hlast, if_pos hlast]
    exact ⟨fs.volume, rfl⟩
  rw [if_neg hlast, if_neg hlast]
  have htop := hb.block_le hroom
  have hin := Nat.mul_le_mul_right vol.blocksize hroom
  have hle := Nat.mul_le_mul_right vol.blocksize hstop
  have hrest : (fs.dataOffset - n.startIndex) * vol.blocksize =
      fs.dataOffset * vol.blocksize - n.startIndex * vol.blocksize := Nat.sub_mul _ _ _
  rw [Nat.add_mul] at htop hin hle
  rw [hrest, u64_of_lt (show n.startIndex * vol.blocksize < 2 ^ 64 by omega),
    u64_of_lt (show fs.dataOffset * vol.blocksize < 2 ^ 64 by omega),
    u64_of_lt (show n.stored vol.blocksize * vol.blocksize < 2 ^ 64 by omega),
    u64_of_lt (by omega), u64_of_lt (by omega)]
  have hcopy : fs.dataOffset * vol.blocksize + n.stored vol.blocksize * vol.blocksize ≤ 2 ^ 64 :=
    Nat.le_of_lt htop
  have hfrom : n.startIndex * vol.blocksize + n.stored vol.blocksize * vol.blocksize +
      (fs.dataOffset * vol.blocksize - n.startIndex * vol.blocksize) ≤
        count * vol.blocksize := by omega
  obtain ⟨v₁, h₁, -⟩ := volumeMemmove_eq hb.store fs.volume hin (by omega) hcopy
    (show n.startIndex * vol.blocksize + _ ≤ _ by omega)
  obtain ⟨v₂, h₂, -⟩ := volumeMemmove_eq hb.store v₁
    (show n.startIndex * vol.blocksize + _ ≤ _ by omega) hfrom (by omega) (by omega)
  obtain ⟨v₃, h₃, -⟩ := hb.store.discardBlocks v₂ _ _ hroom
  refine ⟨v₃, ?_⟩
  rw [Call.bind_apply, onVolume_ok h₁, Outcome.bind_ok, Call.bind_apply, onVolume_ok h₂,
    Outcome.bind_ok, Call.bind_apply, onVolume_ok h₃, Outcome.bind_ok]
  rfl

/-- Without room for the copy, the file is at the end already or nothing but blocks behind
the data area has changed. -/
theorem fileMoveToEnd_kept (hb : Backing vol count view) (h : Housed vol.blocksize count fs)
    (hn : fs.files[i]? = some n) (P : Nat → Prop) :
    Call.Returns (fileMoveToEnd vol i fs) (fun _ _ => True)
      (FilesKept vol.blocksize count view P fs) := by
  by_cases hroom : fs.dataOffset + n.stored vol.blocksize ≤ count
  · obtain ⟨v, hok⟩ := fileMoveToEnd_ok hb h.laidOut hn hroom
    rw [hok]
    trivial
  have hbs := hb.store.blocksize_pos
  have hvalid := h.laidOut.valid_at hn
  unfold fileMoveToEnd
  rw [Call.bind_apply, file_eq hn, Outcome.bind_ok, Call.bind_apply, Call.get_apply,
    Outcome.bind_ok]
  dsimp only
  split
  · trivial
  rename_i hzero
  have hstored := (filePhysicalSize_eq_zero hbs hb.blocksize_lt hvalid).not.1 hzero
  have hstop := h.laidOut.stop_le hn (Nat.pos_of_ne_zero hstored)
  have hfits := h.fits
  rw [blockCount_filePhysicalSize hbs hb.blocksize_lt hvalid]
  split
  · trivial
  have hle := Nat.mul_le_mul_right vol.blocksize hstop
  have htop := hb.block_le hfits
  have hin := Nat.mul_le_mul_right vol.blocksize hfits
  have hout := Nat.mul_lt_mul_of_pos_right (Nat.lt_of_not_le hroom) hbs
  rw [Nat.add_mul] at hle hout
  rw [u64_of_lt (show n.startIndex * vol.blocksize < 2 ^ 64 by omega), u64_of_lt htop,
    u64_of_lt (show n.stored vol.blocksize * vol.blocksize < 2 ^ 64 by omega)]
  apply Call.Returns.bind (R := fun _ _ => False)
  · apply returns_onVolume
    apply (volumeMemmove_beyond hb.store hb.refuses hb.bytes_lt fs.volume
      (Nat.mul_pos (Nat.pos_of_ne_zero hstored) hbs) hle (by omega) hout).mono
    · intro _ _ hnever
      exact hnever
    · intro v hcopy
      exact FilesKept.behind h P hcopy
  · intro _ _ hnever
    exact hnever.elim

theorem fileMoveToEnd_spec (hb : Backing vol count view) (h : Housed vol.blocksize count fs)
    (hn : fs.files[i]? = some n) (P : Nat → Prop) :
    Call.Returns (fileMoveToEnd vol i fs)
      (fun _ fs' => Relocated vol.blocksize view fs fs' ∧ Moved vol.blocksize i n fs fs')
      (FilesKept vol.blocksize count view P fs) :=
  ((fileMoveToEnd_kept hb h hn P).and ((fileMoveToEnd_relocated hb h.laidOut hn).and
    (fileMoveToEnd_moved hb.bounded h.laidOut hn))).mono (fun _ _ hboth => hboth.2)
      fun _ hkept => hkept.1

/-- Moving the blocks behind a file down by as many as it stores keeps their order. -/
theorem Layout.sameOrder_endFiles {bs top j k : Nat} {files : List FileNode}
    (h : Layout bs top files) (hbs : 0 < bs) (hbs' : bs < 2 ^ 32) (hn : files[i]? = some n)
    (hji : j ≠ i) (hki : k ≠ i) (hj : 0 < (extentAt bs files j).len)
    (hk : 0 < (extentAt bs files k).len) :
    (extentAt bs (endFiles bs top i n files) j).start <
        (extentAt bs (endFiles bs top i n files) k).start ↔
      (extentAt bs files j).start < (extentAt bs files k).start := by
  unfold endFiles
  by_cases hstored : n.stored bs = 0
  · rw [if_pos hstored, extentAt_modify_ne hji, extentAt_modify_ne hki]
  rw [if_neg hstored]
  split
  · rfl
  have hpos := Nat.pos_of_ne_zero hstored
  have hplace : ∀ l, l ≠ i → 0 < (extentAt bs files l).len →
      ((extentAt bs files l).start < n.startIndex ∧
        (extentAt bs (movedFiles bs top i n files) l).start = (extentAt bs files l).start) ∨
      (n.startIndex + n.stored bs ≤ (extentAt bs files l).start ∧
        (extentAt bs (movedFiles bs top i n files) l).start + n.stored bs =
          (extentAt bs files l).start) := by
    intro l hli hl
    have hapart := h.packed.apart l i hli hl (by rw [extentAt_eq hn]; exact hpos)
    obtain ⟨m, hm⟩ := exists_of_extentAt_pos hl
    rw [extentAt_eq hm] at hl
    rw [extentAt_eq (h.movedFiles_ne hbs hbs' hn hpos hli hm hl)]
    rw [extentAt_eq hm, extentAt_eq hn] at hapart
    rw [extentAt_eq hm]
    unfold Extent.Apart Extent.stop FileNode.extent at *
    dsimp only at *
    split <;> omega
  have hjplace := hplace j hji hj
  have hkplace := hplace k hki hk
  omega

/-- With room for a copy of its blocks, a file is moved to the end of the data area: its
extent stops where the data area does, all files keep their bytes, and the other extents
their order. -/
theorem fileMoveToEnd_preserves (hb : Backing vol count view) (h : LaidOut vol.blocksize fs)
    (hn : fs.files[i]? = some n) (hroom : fs.dataOffset + n.stored vol.blocksize ≤ count) :
    ∃ fs', fileMoveToEnd vol i fs = .ok () fs' ∧ LaidOut vol.blocksize fs' ∧
      fs'.dataOffset = fs.dataOffset ∧
      (0 < (extentAt vol.blocksize fs.files i).len →
        (extentAt vol.blocksize fs'.files i).stop = fs'.dataOffset) ∧
      ReadsSame vol fs fs' ∧ SameOrder vol.blocksize i fs fs' := by
  obtain ⟨v, hok⟩ := fileMoveToEnd_ok hb h hn hroom
  have hfits : fs.dataOffset ≤ count := by omega
  have hspec := fileMoveToEnd_spec hb ⟨h, hfits⟩ hn fun _ => True
  rw [hok] at hspec
  obtain ⟨hrel, hmoved⟩ := hspec
  obtain ⟨start, hend⟩ := hmoved.atEnd
  refine ⟨_, hok, hmoved.layout, rfl, ?_, ?_, ?_⟩
  · intro _
    rw [extentAt_eq hend.node]
    exact hend.stop
  · exact hrel.readsSame hb.store ⟨h, hfits⟩ ⟨hmoved.layout, hfits⟩
  · intro j k hji hki hj hk
    exact Layout.sameOrder_endFiles h hb.store.blocksize_pos hb.blocksize_lt hn hji hki hj hk

/-- The first of two files, with a block half used. -/
theorem fileMoveToEnd_preserves_first :
    let fs : Fstree Bytes := ⟨fun p => UInt8.ofNat p, 3, false, [⟨6, 0, []⟩, ⟨3, 2, []⟩]⟩
    ∃ fs', fileMoveToEnd (idealVolume 4 6) 0 fs = .ok () fs' ∧ LaidOut 4 fs' ∧
      fs'.dataOffset = 3 ∧
      (0 < (extentAt 4 fs.files 0).len → (extentAt 4 fs'.files 0).stop = fs'.dataOffset) ∧
      ReadsSame (idealVolume 4 6) fs fs' ∧ SameOrder 4 0 fs fs' :=
  fileMoveToEnd_preserves (n := ⟨6, 0, []⟩) (idealVolume_backing (by decide) (by decide)
    (by decide)) (show Layout 4 3 [⟨6, 0, []⟩, ⟨3, 2, []⟩] by decide) rfl (by decide)

end MoveToEnd

/-! ## Gaps -/

section Gap

variable {vol : Volume σ} {count index size : Nat} {view : σ → Bytes} {fs : Fstree σ}

/-- The rounding of `fstree_add_gap` where it does not wrap. -/
theorem gapSize_eq {bs : Nat} (hbs : 0 < bs) (hlt : blockCount size bs * bs < 2 ^ 64) :
    gapSize bs size = blockCount size bs * bs := by
  have hdiv := Nat.div_add_mod size bs
  have hmod := Nat.mod_lt size hbs
  rw [Nat.mul_comm] at hdiv
  unfold gapSize
  unfold blockCount at hlt ⊢
  by_cases hfull : size % bs = 0
  · rw [if_pos hfull, if_neg (not_not.2 hfull)]
    omega
  · rw [if_neg hfull, Nat.succ_mul] at hlt
    rw [if_neg hfull, if_pos hfull, Nat.succ_mul, ← u64_of_lt hlt]
    congr 1
    omega

/-- What a gap of `gap` blocks in front of block `index` is. -/
structure GapAdded (vol : Volume σ) (view : σ → Bytes) (index gap : Nat)
    (fs fs' : Fstree σ) : Prop where
  layout : LaidOut vol.blocksize fs'
  zero : (view fs'.volume).slice (index * vol.blocksize) (gap * vol.blocksize) =
    List.replicate (gap * vol.blocksize) 0
  free : ∀ j, 0 < (extentAt vol.blocksize fs'.files j).len →
    (extentAt vol.blocksize fs'.files j).stop ≤ index ∨
      index + gap ≤ (extentAt vol.blocksize fs'.files j).start
  readsSame : ReadsSame vol fs fs'
  moved : ∀ j, 0 < (extentAt vol.blocksize fs.files j).len →
    extentAt vol.blocksize fs'.files j =
      ⟨if (extentAt vol.blocksize fs.files j).start ≥ index then
          (extentAt vol.blocksize fs.files j).start + gap
        else (extentAt vol.blocksize fs.files j).start,
        (extentAt vol.blocksize fs.files j).len⟩
  covers : 0 < gap → index + gap ≤ fs'.dataOffset

/-- The list `fstree_add_gap` leaves. -/
def gapFiles (top index gap : Nat) (files : List FileNode) : List FileNode :=
  if index < top then files.map (openGap index gap) else files

/-- With enough room the move and the discard succeed. -/
theorem addGap_moves (hv : BlockStore vol count view) (hlt : count * vol.blocksize < 2 ^ 64)
    (hsize : 0 < size)
    (hroom : max index fs.dataOffset + blockCount size vol.blocksize ≤ count) :
    ∃ v, addGap vol index size fs = .ok () { fs with
        volume := v
        dataOffset := max index fs.dataOffset + blockCount size vol.blocksize
        files := gapFiles fs.dataOffset index (blockCount size vol.blocksize) fs.files } ∧
      view v = ((view fs.volume).move
          (index * vol.blocksize + blockCount size vol.blocksize * vol.blocksize)
          (index * vol.blocksize) ((fs.dataOffset - index) * vol.blocksize)).clear
        (index * vol.blocksize) (blockCount size vol.blocksize * vol.blocksize) := by
  have hbs := hv.blocksize_pos
  have hcount : count < 2 ^ 64 := Nat.lt_of_le_of_lt (Nat.le_mul_of_pos_right _ hbs) hlt
  have hin := Nat.mul_le_mul_right vol.blocksize hroom
  generalize hgap : blockCount size vol.blocksize = gap at hroom hin ⊢
  have hrest : (fs.dataOffset - index) * vol.blocksize =
      fs.dataOffset * vol.blocksize - index * vol.blocksize := Nat.sub_mul _ _ _
  have hmax : (max index fs.dataOffset) * vol.blocksize =
      max (index * vol.blocksize) (fs.dataOffset * vol.blocksize) :=
    (Nat.mul_max_mul_right _ _ _).symm
  rw [Nat.add_mul, hmax] at hin
  have hbytes : gapSize vol.blocksize size = gap * vol.blocksize := by
    rw [gapSize_eq hbs (by rw [hgap]; omega), hgap]
  unfold addGap gapFiles
  rw [if_neg (Nat.ne_of_gt hsize), hbytes, Nat.mul_div_cancel _ hbs]
  dsimp only
  rw [Call.bind_apply, Call.get_apply, Outcome.bind_ok, Call.bind_apply]
  by_cases hinside : index < fs.dataOffset
  · rw [if_pos hinside, if_pos hinside, hrest, Nat.max_eq_right (Nat.le_of_lt hinside)]
    have hle := Nat.mul_le_mul_right vol.blocksize (Nat.le_of_lt hinside)
    rw [u64_of_lt (show index * vol.blocksize < 2 ^ 64 by omega), u64_of_lt (by omega),
      u64_of_lt (by omega)]
    obtain ⟨v₁, h₁, hview₁⟩ := volumeMemmove_eq hv fs.volume
      (show index * vol.blocksize + gap * vol.blocksize + (fs.dataOffset * vol.blocksize -
        index * vol.blocksize) ≤ count * vol.blocksize by omega)
      (show index * vol.blocksize + _ ≤ _ by omega) (by omega) (by omega)
    obtain ⟨v₂, h₂, hview₂⟩ := hv.discardBlocks v₁ index gap (by omega)
    refine ⟨v₂, ?_, by rw [hview₂, hview₁]⟩
    rw [Call.bind_apply, onVolume_ok h₁, Outcome.bind_ok, Call.bind_apply, updateFiles_apply,
      Outcome.bind_ok, setDataOffset_apply, Outcome.bind_ok, onVolume_ok h₂,
      u64_of_lt (by omega)]
  · rw [if_neg hinside, if_neg hinside, hrest, Nat.max_eq_left (Nat.le_of_not_lt hinside)]
    have hle := Nat.mul_le_mul_right vol.blocksize (Nat.le_of_not_lt hinside)
    obtain ⟨v, hdiscard, hview⟩ := hv.discardBlocks fs.volume index gap (by omega)
    refine ⟨v, ?_, by rw [hview, Nat.sub_eq_zero_of_le hle, Bytes.move_zero]⟩
    rw [setDataOffset_apply, Outcome.bind_ok, u64_of_lt (by omega)]
    exact onVolume_ok hdiscard

theorem addGap_ok (hb : Backing vol count view) (hsize : 0 < size)
    (hroom : max index fs.dataOffset + blockCount size vol.blocksize ≤ count) :
    ∃ v, addGap vol index size fs = .ok () { fs with
        volume := v
        dataOffset := max index fs.dataOffset + blockCount size vol.blocksize
        files := gapFiles fs.dataOffset index (blockCount size vol.blocksize) fs.files } ∧
      view v = ((view fs.volume).move
          (index * vol.blocksize + blockCount size vol.blocksize * vol.blocksize)
          (index * vol.blocksize) ((fs.dataOffset - index) * vol.blocksize)).clear
        (index * vol.blocksize) (blockCount size vol.blocksize * vol.blocksize) :=
  addGap_moves hb.store hb.bytes_lt hsize hroom

/-- A file that stores blocks moves up with the gap if it starts at or behind it. -/
theorem Layout.gapFiles_at {bs top gap j : Nat} {files : List FileNode} {m : FileNode}
    (h : Layout bs top files) (hlt : top + gap < 2 ^ 64) (hm : files[j]? = some m)
    (hpos : 0 < m.stored bs) : (gapFiles top index gap files)[j]? = some { m with
      startIndex := if m.startIndex ≥ index then m.startIndex + gap else m.startIndex } := by
  have hstop := h.stop_le hm hpos
  unfold gapFiles
  split
  · rw [List.getElem?_map, hm, Option.map_some]
    unfold Fstree.openGap
    split
    · rw [u64_of_lt (by omega)]
    · rfl
  · rw [hm, if_neg (by omega)]

theorem gapFiles_node (top index gap : Nat) {j : Nat} {files : List FileNode} {m : FileNode}
    (hm : files[j]? = some m) :
    ∃ start, (gapFiles top index gap files)[j]? = some { m with startIndex := start } := by
  unfold gapFiles
  split
  · exact (openGap_restarts index gap).getElem?_map hm
  · exact ⟨m.startIndex, hm⟩

theorem gapFiles_len (bs top index gap j : Nat) (files : List FileNode) :
    (extentAt bs (gapFiles top index gap files) j).len = (extentAt bs files j).len := by
  unfold gapFiles
  split
  · exact (openGap_restarts index gap).extentAt_map_len
  · rfl

/-- Every stored byte moves up with its file. -/
theorem gapFiles_relocated {gap : Nat} (h : LaidOut vol.blocksize fs)
    (hlt : fs.dataOffset + gap < 2 ^ 64) (hindex : ∀ n ∈ fs.files, 0 < n.stored vol.blocksize →
      index ≤ n.startIndex ∨ n.startIndex + n.stored vol.blocksize ≤ index) (top : Nat) {v : σ}
    (hview : view v = ((view fs.volume).move
        (index * vol.blocksize + gap * vol.blocksize)
        (index * vol.blocksize) ((fs.dataOffset - index) * vol.blocksize)).clear
      (index * vol.blocksize) (gap * vol.blocksize)) :
    Relocated vol.blocksize view fs { fs with
      volume := v
      dataOffset := top
      files := gapFiles fs.dataOffset index gap fs.files } where
  length := by
    unfold gapFiles
    split <;> simp
  node := by
    intro j m hm
    by_cases hpos : 0 < m.stored vol.blocksize
    · refine ⟨_, Layout.gapFiles_at h hlt hm hpos, ?_⟩
      intro q hq
      have hstop := Nat.mul_le_mul_right vol.blocksize (h.stop_le hm hpos)
      have hrest : (fs.dataOffset - index) * vol.blocksize =
          fs.dataOffset * vol.blocksize - index * vol.blocksize := Nat.sub_mul _ _ _
      rw [Nat.add_mul] at hstop
      change view v _ = _
      rw [hview, Bytes.open_gap_apply, hrest]
      rcases hindex m (List.mem_of_getElem? hm) hpos with hbehind | hfront
      · have hbehind' := Nat.mul_le_mul_right vol.blocksize hbehind
        rw [if_pos hbehind, Nat.add_mul, if_neg (by omega), if_neg (by omega),
          if_pos (by omega)]
        congr 1
        omega
      · have hfront' := Nat.mul_le_mul_right vol.blocksize hfront
        rw [Nat.add_mul] at hfront'
        rw [if_neg (show ¬ m.startIndex ≥ index by omega), if_pos (by omega)]
    · obtain ⟨start, hstart⟩ := gapFiles_node fs.dataOffset index gap hm
      refine ⟨start, hstart, ?_⟩
      intro q hq
      rw [Nat.eq_zero_of_not_pos hpos, Nat.zero_mul] at hq
      exact absurd hq (Nat.not_lt_zero q)

/-- With enough room, a gap in front of a block that is not strictly inside a file is added
and keeps all files. -/
theorem addGap_preserves (hb : Backing vol count view) (h : LaidOut vol.blocksize fs)
    (hindex : ∀ n ∈ fs.files, 0 < n.stored vol.blocksize →
      index ≤ n.startIndex ∨ n.startIndex + n.stored vol.blocksize ≤ index)
    (hroom : 0 < size → max index fs.dataOffset + blockCount size vol.blocksize ≤ count) :
    ∃ fs', addGap vol index size fs = .ok () fs' ∧
      GapAdded vol view index (blockCount size vol.blocksize) fs fs' := by
  by_cases hzero : size = 0
  · subst hzero
    refine ⟨fs, rfl, h, ?_, ?_, fun _ _ => Iff.rfl, ?_, ?_⟩
    · simp
    · intro j hj
      obtain ⟨m, hm⟩ := exists_of_extentAt_pos hj
      rw [extentAt_eq hm] at hj ⊢
      have hside := hindex m (List.mem_of_getElem? hm) hj
      rw [blockCount_zero]
      exact hside.symm
    · intro j _
      simp
    · simp
  have hsize := Nat.pos_of_ne_zero hzero
  have hroom := hroom hsize
  have hcount := hb.count_lt
  have hin := hb.block_le (Nat.le_trans (Nat.le_add_left _ _) hroom)
  have hbytes := gapSize_eq hb.store.blocksize_pos hin
  obtain ⟨v, hok, hview⟩ := addGap_ok hb hsize hroom
  have hfits : max index fs.dataOffset + gapSize vol.blocksize size / vol.blocksize < 2 ^ 64 := by
    rw [hbytes, Nat.mul_div_cancel _ hb.store.blocksize_pos]
    omega
  have hlayout := addGap_layout vol h hindex hfits
  rw [hok] at hlayout
  generalize blockCount size vol.blocksize = gap at *
  have hrel := gapFiles_relocated h (by omega) hindex (max index fs.dataOffset + gap) hview
  have hmoved : ∀ j, 0 < (extentAt vol.blocksize fs.files j).len →
      extentAt vol.blocksize (gapFiles fs.dataOffset index gap fs.files) j =
        ⟨if (extentAt vol.blocksize fs.files j).start ≥ index then
            (extentAt vol.blocksize fs.files j).start + gap
          else (extentAt vol.blocksize fs.files j).start,
          (extentAt vol.blocksize fs.files j).len⟩ := by
    intro j hj
    obtain ⟨m, hm⟩ := exists_of_extentAt_pos hj
    rw [extentAt_eq hm] at hj ⊢
    rw [extentAt_eq (Layout.gapFiles_at h (by omega) hm hj)]
    rfl
  refine ⟨_, hok, hlayout, ?_, ?_, ?_, hmoved, ?_⟩
  · apply List.ext_getElem
    · simp
    · intro q hq _
      rw [Bytes.getElem_slice, List.getElem_replicate]
      rw [Bytes.length_slice] at hq
      change view v _ = 0
      rw [hview, Bytes.open_gap_apply, if_neg (by omega), if_pos (by omega)]
  · intro j hj
    rw [gapFiles_len] at hj
    rw [hmoved j hj]
    have hside : index ≤ (extentAt vol.blocksize fs.files j).start ∨
        (extentAt vol.blocksize fs.files j).stop ≤ index := by
      obtain ⟨m, hm⟩ := exists_of_extentAt_pos hj
      rw [extentAt_eq hm] at hj ⊢
      exact hindex m (List.mem_of_getElem? hm) hj
    unfold Extent.stop at hside ⊢
    dsimp only
    split <;> omega
  · exact hrel.readsSame hb.store ⟨h, by omega⟩ ⟨hlayout, hroom⟩
  · intro _
    show index + gap ≤ max index fs.dataOffset + gap
    omega

/-- A gap between two files. -/
theorem addGap_preserves_between :
    let fs : Fstree Bytes := ⟨fun p => UInt8.ofNat p, 3, false, [⟨6, 0, []⟩, ⟨3, 2, []⟩]⟩
    ∃ fs', addGap (idealVolume 4 6) 2 5 fs = .ok () fs' ∧
      GapAdded (idealVolume 4 6) id 2 2 fs fs' :=
  addGap_preserves (idealVolume_backing (by decide) (by decide) (by decide))
    (show Layout 4 3 [⟨6, 0, []⟩, ⟨3, 2, []⟩] by decide) (by decide) (by decide)

end Gap

end ImageTool.Fstree
