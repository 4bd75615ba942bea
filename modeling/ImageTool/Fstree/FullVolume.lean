import ImageTool.Fstree.GapWrap
import ImageTool.Fstree.Invariant
import ImageTool.Fstree.TruncateLaw
import ImageTool.Fstree.WriteLaw

/-!
# When the volume is full

An operation that does not find room stops between two moves of blocks.  What it has moved by
then lies behind the data area, or nothing has been moved at all, so that the files it is not
about have their bytes.  This needs the address a move computes: where the end of a range has
no 64-bit address, `volume_memmove` starts over at the first block of the volume.  Then the
request, the files and the bytes that are moved say which files read as before.
-/

namespace ImageTool.Fstree

open ImageTool.Lib ImageTool.Image ImageTool.Util

variable {σ : Type}

/-- The files an operation must leave alone when it fails. -/
def FileOp.Spares : FileOp → Nat → Prop
  | append i _ _ => (· ≠ i)
  | write i _ _ _ => (· ≠ i)
  | truncate i _ => (· ≠ i)
  | moveToEnd _ => fun _ => True
  | addGap _ _ => fun _ => True

/-- The data of an operation is as long as its size says. -/
def FileOp.Holds : FileOp → Prop
  | append _ data size => data.Holds size
  | write _ _ data size => data.Holds size
  | _ => True

/-- The file stays within the block numbers of its regions, and the size of a gap is a word. -/
def FileOp.Sized (bs : Nat) (fs : Fstree σ) : FileOp → Prop
  | append i _ size => ∀ n, fs.files[i]? = some n → blockCount (n.size + size) bs < 2 ^ 32
  | write i offset _ size => 0 < size → ∀ n, fs.files[i]? = some n →
      blockCount (max n.size (offset + size)) bs < 2 ^ 32
  | truncate i size => ∀ n, fs.files[i]? = some n → n.size ≤ size → blockCount size bs < 2 ^ 32
  | moveToEnd _ => True
  | addGap _ size => size < 2 ^ 64

/-- A write that tears the last block of its file copies the end of it to the first block of
the volume: no other file stores other bytes there, once the files are closed up. -/
def WriteKeeps (bs count : Nat) (view : Bytes) (fs : Fstree σ) (i : Nat) (n : FileNode)
    (offset : Nat) (data : Buffer) (size : Nat) : Prop :=
  TearsWrite bs count fs n offset data size →
    ∀ j m, j ≠ i → fs.files[j]? = some m → ∀ q, m.Stores bs q →
      let p := closedStart bs n m * bs + m.byteAt bs q + (2 ^ 64 - count * bs)
      p < bs → lastByte bs fs.noSparse view fs.dataOffset n (overEnd n offset data)
        (offset + size - n.size) p = view (m.startIndex * bs + m.byteAt bs q)

/-- When an operation that fails leaves the files it is not about as they were. -/
def FileOp.Sound (bs count : Nat) (view : Bytes) (fs : Fstree σ) : FileOp → Prop
  | write i offset data size => ∀ n, fs.files[i]? = some n →
      WriteKeeps bs count view fs i n offset data size
  | addGap index size => GapKeeps bs index (gapSize bs size) view fs.dataOffset fs.files
  | _ => True

section FullVolume

variable {vol : Volume σ} {count i offset size : Nat} {view : σ → Bytes} {fs fs' : Fstree σ}
variable {n : FileNode} {data : Buffer}

theorem fileTruncate_spared (hb : Backing vol count view) (h : Housed vol.blocksize count fs)
    (hn : fs.files[i]? = some n)
    (hblocks : n.size ≤ size → blockCount size vol.blocksize < 2 ^ 32) :
    Call.Returns (fileTruncate vol i size fs) (fun _ _ => True)
      (FilesKept vol.blocksize count view (· ≠ i) fs) := by
  unfold fileTruncate
  rw [Call.bind_apply, file_eq hn, Outcome.bind_ok, Call.ite_apply, Call.ite_apply]
  split
  · rename_i hgt
    have hsum : n.size + (size - n.size) = size := Nat.add_sub_cancel' (Nat.le_of_lt hgt)
    apply (fileAppend_appended hb h hn (Buffer.holds_none (size - n.size))
      (by rw [hsum]; exact hblocks (Nat.le_of_lt hgt))).mono
    · intro _ _ _
      trivial
    · intro _ hkept
      exact hkept
  · split
    · trivial
    · apply (fileShrink_truncated hb h hn (by omega)).mono
      · intro _ _ _
        trivial
      · intro _ hnever
        exact hnever.elim

/-- The other files read as before where what was copied over them is what they stored. -/
theorem Torn.readsSame_iff {last : Nat → UInt8} (hb : Backing vol count view)
    (h : Housed vol.blocksize count fs) (ht : Torn vol.blocksize count view i n last fs fs') :
    (∀ j, j ≠ i → ∀ c, Reads vol j c fs' ↔ Reads vol j c fs) ↔
      ∀ j m, j ≠ i → fs.files[j]? = some m → ∀ q, m.Stores vol.blocksize q →
        let p := closedStart vol.blocksize n m * vol.blocksize + m.byteAt vol.blocksize q +
          (2 ^ 64 - count * vol.blocksize)
        p < vol.blocksize → last p =
          view fs.volume (m.startIndex * vol.blocksize + m.byteAt vol.blocksize q) := by
  have hbs := hb.store.blocksize_pos
  apply readsSame_all_iff (P := (· ≠ i)) ht.length
  intro j m hji hm
  have hvalid := h.laidOut.valid_at hm
  obtain ⟨start, hm', hplaced, hstart, hdata⟩ := ht.node j m hji hm
  rw [h.readsSame_iff hb.store hm hm' hplaced]
  apply forall₂_congr
  intro q hq
  rw [hdata _ (hvalid.byteAt_lt hbs hq), hstart (hvalid.stored_pos hbs hq)]
  by_cases hlow : closedStart vol.blocksize n m * vol.blocksize + m.byteAt vol.blocksize q +
      (2 ^ 64 - count * vol.blocksize) < vol.blocksize
  · rw [if_pos hlow]
    exact ⟨fun hsame _ => hsame, fun hall => hall hlow⟩
  · rw [if_neg hlow]
    exact iff_of_true rfl fun hin => absurd hin hlow

theorem FilesKept.readsSame {P : Nat → Prop} (hb : Backing vol count view)
    (h : Housed vol.blocksize count fs) (hkept : FilesKept vol.blocksize count view P fs fs') :
    ∀ j, P j → ∀ c, Reads vol j c fs' ↔ Reads vol j c fs :=
  fun _ hj _ => hkept.reads_iff hb.store h hj

/-- A write that fails. -/
theorem WriteFailed.readsSame_iff (hb : Backing vol count view)
    (h : Housed vol.blocksize count fs)
    (hfailed : WriteFailed vol.blocksize count view i n offset data size fs fs') :
    (∀ j, j ≠ i → ∀ c, Reads vol j c fs' ↔ Reads vol j c fs) ↔
      WriteKeeps vol.blocksize count (view fs.volume) fs i n offset data size := by
  unfold WriteKeeps
  by_cases htears : TearsWrite vol.blocksize count fs n offset data size
  · rw [forall_prop_of_true htears]
    exact (hfailed.1 htears).readsSame_iff hb h
  · exact iff_of_true ((hfailed.2 htears).readsSame hb h) fun hin => absurd hin htears

/-- What a failed operation leaves of the files it is not about. -/
theorem FileOp.run_spared (hb : Backing vol count view) (h : Housed vol.blocksize count fs)
    {op : FileOp} (hold : op.Holds) (hsized : op.Sized vol.blocksize fs) :
    Call.Returns (op.run vol fs) (fun _ _ => True)
      (fun fs' => (∀ j, op.Spares j → ∀ c, Reads vol j c fs' ↔ Reads vol j c fs) ↔
        op.Sound vol.blocksize count (view fs.volume) fs) := by
  have hsame : ∀ {P : Nat → Prop} {fs' : Fstree σ},
      FilesKept vol.blocksize count view P fs fs' →
        ((∀ j, P j → ∀ c, Reads vol j c fs' ↔ Reads vol j c fs) ↔ True) :=
    fun hkept => iff_of_true (hkept.readsSame hb h) trivial
  cases op with
  | append i data size =>
      apply returns_of_file rfl
      intro n hn
      apply (fileAppend_appended hb h hn hold (hsized n hn)).mono
      · intro _ _ _
        trivial
      · intro _ hkept
        exact hsame hkept
  | write i offset data size =>
      by_cases hzero : size = 0
      · subst hzero
        trivial
      · apply returns_of_file (m := fileWrite vol i offset data size) (if_neg hzero)
        intro n hn
        have hpos := Nat.pos_of_ne_zero hzero
        apply (fileWrite_done hb h hn hold hpos (hsized hpos n hn)).mono
        · intro _ _ _
          trivial
        · intro _ hfailed
          apply (hfailed.readsSame_iff hb h).trans
          constructor
          · intro hkeeps m hm
            rw [hn, Option.some.injEq] at hm
            subst hm
            exact hkeeps
          · intro hkeeps
            exact hkeeps n hn
  | truncate i size =>
      apply returns_of_file rfl
      intro n hn
      apply (fileTruncate_spared hb h hn (hsized n hn)).mono
      · intro _ _ _
        trivial
      · intro _ hkept
        exact hsame hkept
  | moveToEnd i =>
      apply returns_of_file rfl
      intro n hn
      apply (fileMoveToEnd_spec hb h hn fun _ => True).mono
      · intro _ _ _
        trivial
      · intro _ hkept
        exact hsame hkept
  | addGap index size =>
      cases hres : FileOp.run vol (.addGap index size) fs with
      | ok _ _ => trivial
      | stuck => trivial
      | fail fs' =>
          apply Iff.trans _ (addGap_fail_iff hb h hsized hres)
          exact ⟨fun hall j c => hall j trivial c, fun hall j _ c => hall j c⟩

/-- An operation that fails on a full volume keeps every file it is not about exactly if its
moves do not wrap around the last address onto other bytes of such a file. -/
theorem FileOp.run_fail_iff (hb : Backing vol count view) (h : Housed vol.blocksize count fs)
    {op : FileOp} (hold : op.Holds) (hsized : op.Sized vol.blocksize fs)
    (hfail : op.run vol fs = .fail fs') :
    (∀ j, op.Spares j → ∀ c, Reads vol j c fs' ↔ Reads vol j c fs) ↔
      op.Sound vol.blocksize count (view fs.volume) fs := by
  have hspared := FileOp.run_spared hb h hold hsized
  rw [hfail] at hspared
  exact hspared

/-- A gap that does not fit; and, on a full volume of three-byte blocks that ends two bytes
below the last address, a write behind the end of a file, and one to a region in it that copies
bytes over equal ones. -/
theorem FileOp.run_fail_full :
    let vol := idealVolume 4 4
    let fs : Fstree Bytes := ⟨fun p => UInt8.ofNat p, 2, false, [⟨4, 0, []⟩, ⟨4, 1, []⟩]⟩
    let blocks := (2 ^ 64 - 1) / 3
    let big := idealVolume 3 blocks
    let full : Bytes → Fstree Bytes := fun bytes => ⟨bytes, blocks, false,
      [⟨3, 0, []⟩, ⟨9, blocks - 2, [⟨0, 1⟩]⟩]⟩
    (∃ fs', FileOp.run vol (.addGap 1 64) fs = .fail fs' ∧
      ∀ j c, Reads vol j c fs' ↔ Reads vol j c fs) ∧
    (∃ full', FileOp.run big (.write 1 9 (some [5]) 1) (full fun p => UInt8.ofNat p) =
        .fail full' ∧
      ∀ c, Reads big 0 c full' ↔ Reads big 0 c (full fun p => UInt8.ofNat p)) ∧
    ∃ full', FileOp.run big (.write 1 0 (some [5]) 1) (full fun _ => 7) = .fail full' ∧
      ∀ c, Reads big 0 c full' ↔ Reads big 0 c (full fun _ => 7) := by
  intro vol fs blocks big full
  have hv : Backing vol 4 id := idealVolume_backing (by decide) (by decide) (by decide)
  have hbig : Backing big blocks id := idealVolume_backing (by decide) (by decide) (by decide)
  have hfs : Housed 4 4 fs := ⟨show Layout 4 2 [⟨4, 0, []⟩, ⟨4, 1, []⟩] by decide, by decide⟩
  have hfull : ∀ bytes, Housed 3 blocks (full bytes) := fun bytes =>
    ⟨show Layout 3 blocks [⟨3, 0, []⟩, ⟨9, blocks - 2, [⟨0, 1⟩]⟩] by decide +kernel,
      Nat.le_refl blocks⟩
  have hfails : ∀ (vol : Volume Bytes) (op : FileOp) (fs : Fstree Bytes),
      (match op.run vol fs with
        | .fail _ => true
        | _ => false) = true → ∃ fs', op.run vol fs = .fail fs' := by
    intro vol op fs hrun
    split at hrun
    · exact ⟨_, by assumption⟩
    · cases hrun
  refine ⟨?_, ?_, ?_⟩
  · obtain ⟨fs', hfail⟩ := hfails vol (.addGap 1 64) fs (by decide +kernel)
    have hsound : FileOp.Sound 4 4 fs.volume fs (.addGap 1 64) := by
      intro _
      rw [if_neg (by decide)]
      intro hlow
      exact absurd hlow (by decide)
    have hsized : FileOp.Sized 4 fs (.addGap 1 64) := show 64 < 2 ^ 64 by decide
    have hold : FileOp.Holds (.addGap 1 64) := trivial
    have hkept := (FileOp.run_fail_iff hv hfs hold hsized hfail).2 hsound
    exact ⟨fs', hfail, fun j => hkept j trivial⟩
  · obtain ⟨full', hfail⟩ := hfails big (.write 1 9 (some [5]) 1)
      (full fun p => UInt8.ofNat p) (by decide +kernel)
    have hsound : FileOp.Sound 3 blocks (fun p => UInt8.ofNat p) (full fun p => UInt8.ofNat p)
        (.write 1 9 (some [5]) 1) := by
      intro n hn htears
      cases hn
      exact absurd htears.2 not_tears_zero
    have hold : FileOp.Holds (.write 1 9 (some [5]) 1) := by simp [FileOp.Holds]
    have hsized : FileOp.Sized 3 (full fun p => UInt8.ofNat p) (.write 1 9 (some [5]) 1) := by
      intro _ n hn
      cases hn
      decide
    have hkept := (FileOp.run_fail_iff hbig (hfull _) hold hsized hfail).2 hsound
    exact ⟨full', hfail, hkept 0 (show 0 ≠ 1 by decide)⟩
  · obtain ⟨full', hfail⟩ := hfails big (.write 1 0 (some [5]) 1)
      (full fun _ => 7) (by decide +kernel)
    have hsound : FileOp.Sound 3 blocks (fun _ => 7) (full fun _ => 7)
        (.write 1 0 (some [5]) 1) := by
      intro n hn _ j m _ _ q _ p _
      cases hn
      exact lastByte_zero
    have hold : FileOp.Holds (.write 1 0 (some [5]) 1) := by simp [FileOp.Holds]
    have hsized : FileOp.Sized 3 (full fun _ => 7) (.write 1 0 (some [5]) 1) := by
      intro _ n hn
      cases hn
      decide
    have hkept := (FileOp.run_fail_iff hbig (hfull _) hold hsized hfail).2 hsound
    exact ⟨full', hfail, hkept 0 (show 0 ≠ 1 by decide)⟩

/-- A gap whose end has no 64-bit address moves the file behind it over the first one.  So
does a write that needs one block more on a full volume of three-byte blocks that ends two
bytes below the last address. -/
theorem addGap_over_first :
    let vol := idealVolume 4 4
    let fs : Fstree Bytes := ⟨fun p => UInt8.ofNat p, 2, false, [⟨4, 0, []⟩, ⟨4, 1, []⟩]⟩
    let blocks := (2 ^ 64 - 1) / 3
    let big := idealVolume 3 blocks
    let full : Fstree Bytes := ⟨fun p => UInt8.ofNat p, blocks, false,
      [⟨3, 0, []⟩, ⟨9, blocks - 2, [⟨0, 1⟩]⟩]⟩
    (∃ fs', Housed 4 4 fs ∧ Reads vol 0 [0, 1, 2, 3] fs ∧
      FileOp.run vol (.addGap 1 (2 ^ 64 - 4)) fs = .fail fs' ∧
      (fileRead vol 0 0 4 fs').val? = some [4, 5, 6, 7] ∧ ¬ Reads vol 0 [0, 1, 2, 3] fs') ∧
    ∃ full', Housed 3 blocks full ∧ Reads big 0 [0, 1, 2] full ∧
      FileOp.run big (.write 1 0 (some [5]) 1) full = .fail full' ∧
      (fileRead big 0 0 3 full').val? = some [253, 254, 2] ∧ ¬ Reads big 0 [0, 1, 2] full' := by
  intro vol fs blocks big full
  have hv : BlockStore vol 4 id := idealVolume_blockStore (by decide)
  have hbig : BlockStore big blocks id := idealVolume_blockStore (by decide)
  have hfs : Housed 4 4 fs := ⟨show Layout 4 2 [⟨4, 0, []⟩, ⟨4, 1, []⟩] by decide, by decide⟩
  have hfull : Housed 3 blocks full :=
    ⟨show Layout 3 blocks [⟨3, 0, []⟩, ⟨9, blocks - 2, [⟨0, 1⟩]⟩] by decide +kernel, by decide⟩
  have hgap : (match FileOp.run vol (.addGap 1 (2 ^ 64 - 4)) fs with
      | .fail fs' => (fileRead vol 0 0 4 fs').val?
      | _ => none) = some [4, 5, 6, 7] := by decide +kernel
  have hwrite : (match FileOp.run big (.write 1 0 (some [5]) 1) full with
      | .fail full' => (fileRead big 0 0 3 full').val?
      | _ => none) = some [253, 254, 2] := by decide +kernel
  constructor
  · split at hgap
    · rename_i fs' hfail
      exact ⟨fs', hfs, (reads_iff hv hfs).2 (by decide +kernel), hfail, hgap,
        fun hsame => absurd (hsame.read_eq hgap) (by decide)⟩
    · cases hgap
  · split at hwrite
    · rename_i full' hfail
      exact ⟨full', hfull, (reads_iff hbig hfull).2 (by decide +kernel), hfail, hwrite,
        fun hsame => absurd (hsame.read_eq hwrite) (by decide)⟩
    · cases hwrite

end FullVolume

end ImageTool.Fstree
