import ImageTool.Cpio.LinkCounts
import ImageTool.Image.LastWrite

/-!
# The length of an archive

The trailer is filled up from the offset behind the last block in use, and the headers of the files
without data stand in between.  So the archive ends at a multiple of 512 bytes if these headers
have such a length together.
-/

namespace ImageTool.Cpio

open ImageTool.Lib ImageTool.Image ImageTool.Util ImageTool.Fstream ImageTool.Fstree
  ImageTool.Fstree.NodeTree

section Pieces

variable {σ : Type} {vol : Volume σ} {offset maxSize : Nat} {pieces front : List (List UInt8)}
  {w w' : VolOstream σ}

/-- A stream into a volume counts what is appended to it. -/
theorem appendAll_written (hmax : maxSize < 2 ^ 64) (hw : w.written ≤ maxSize)
    (h : appendAll (volumeOstream vol offset maxSize) pieces w = .ok () w') :
    w'.written = w.written + piecesLength pieces ∧ w'.written ≤ maxSize := by
  induction pieces generalizing w with
  | nil =>
      cases h
      exact ⟨rfl, hw⟩
  | cons data pieces ih =>
      obtain ⟨_, w₁, hfirst, hrest⟩ := Outcome.of_bind_eq_ok h
      have happend : volStep vol offset maxSize (.append data) w = .ok () w₁ := hfirst
      have hstep := volStep_written hmax hw happend
      obtain ⟨hwritten, hle⟩ := ih hstep.2 hrest
      refine ⟨?_, hle⟩
      rw [hwritten, hstep.1, piecesLength_cons, ← Nat.add_assoc]
      rfl

/-- The last piece is written behind all others. -/
theorem appendAll_last {vol : Volume σ} (hbs : 0 < vol.blocksize) {data : List UInt8}
    {w w' : VolOstream (σ × Nat)} (hmax : maxSize < 2 ^ 64) (hw : w.written ≤ maxSize)
    (hpos : 0 < data.length) (hdata : NoZeroBlock blocksize (some data) data.length)
    (h : appendAll (volumeOstream (adapter (recorded vol)).volume offset maxSize)
      (front ++ [data]) w = .ok () w') :
    w'.wrapped.2 ≡ offset + w.written + piecesLength (front ++ [data]) [MOD 512] := by
  rw [appendAll_append] at h
  obtain ⟨_, w₁, hfront, hlast⟩ := Outcome.of_bind_eq_ok h
  obtain ⟨_, w₂, hdatum, hnil⟩ := Outcome.of_bind_eq_ok hlast
  cases hnil
  have hwritten := (appendAll_written hmax hw hfront).1
  have hblock : 0 < (adapter (recorded vol)).blocksize := Nat.succ_pos 3
  have hend := volOstreamAppend_last rfl hbs hblock hpos hdata hdatum
  have hsum : (adapter (recorded vol)).offset + (offset + w₁.written + data.length) =
      offset + w.written + piecesLength (front ++ [data]) := by
    have hzero : (adapter (recorded vol)).offset = 0 := rfl
    rw [hzero, hwritten, piecesLength_append, piecesLength_cons, piecesLength_nil]
    omega
  rwa [hsum] at hend

/-- What is appended last is the name of the trailer, or one zero. -/
theorem trailerPieces_last (offset : Nat) : ∃ front data,
    trailerPieces offset = front ++ [data] ∧ 0 < data.length ∧
      NoZeroBlock blocksize (some data) data.length := by
  unfold trailerPieces
  cases fillCount (u64 (offset + (trailerHeader.length + cpioTrailer.length + 1))) with
  | zero =>
      refine ⟨[trailerHeader], cstrBytes cpioTrailer (cpioTrailer.length + 1), rfl, by decide, ?_⟩
      have hname : (cstrBytes cpioTrailer (cpioTrailer.length + 1)).length = 11 := rfl
      have hall : ∀ k < 8, (((cstrBytes cpioTrailer (cpioTrailer.length + 1)).drop k).take
          blocksize).all (· == 0) = false := by decide
      intro k hk
      have hlt : k < 8 := by
        rw [hname] at hk
        exact Nat.lt_succ_of_le (Nat.le_of_add_le_add_right hk)
      change isMemoryZero 0 _ = false
      rw [isMemoryZero_eq]
      exact hall k hlt
  | succ k =>
      refine ⟨trailerHeader :: cstrBytes cpioTrailer (cpioTrailer.length + 1) ::
        List.replicate k [0], [0], ?_, Nat.one_pos, ?_⟩
      · rw [List.replicate_succ']
        rfl
      · intro k hk
        have hbig : blocksize = 4 := rfl
        have hone : ([0] : List UInt8).length = 1 := rfl
        omega

/-- The trailer ends at a multiple of 512 if it starts at the offset it is given. -/
theorem cpioWriteTrailer_last {vol : Volume σ} (hbs : 0 < vol.blocksize)
    {w w' : VolOstream (σ × Nat)} (hmax : maxSize < 2 ^ 64) (hw : w.written ≤ maxSize)
    (h : cpioWriteTrailer offset (volumeOstream (adapter (recorded vol)).volume offset maxSize) w =
      .ok () w') : w'.wrapped.2 ≡ w.written [MOD 512] := by
  obtain ⟨front, data, hsplit, hpos, hzero⟩ := trailerPieces_last offset
  have hlength := piecesLength_trailer offset
  rw [cpioWriteTrailer_eq, hsplit] at h
  have hlast := appendAll_last hbs hmax hw hpos hzero h
  rw [← hsplit, hlength] at hlast
  have hsum : offset + w.written + (121 + fillCount (u64 (offset + 121))) ≡ w.written
      [MOD 512] := by
    unfold Nat.ModEq fillCount u64
    omega
  exact hlast.trans hsum

end Pieces

/-! ## Files without data -/

namespace CpioFs

variable {σ : Type} {s s₁ s₂ s' : CpioFs σ} {n : Nat}

/-- The bytes of the headers of the files without data. -/
def zeroSizeBytes (s : CpioFs σ) : Nat :=
  (((s.tree.nodesByType .file).filter fun fit => s.physicalSize fit = 0).map fun fit =>
    ((s.entry fit fit false).map fun e => piecesLength e.pieces).getD 0).sum

/-- Sorting and moving files keep the length of headers. -/
theorem zeroSizeBytes_eq (ht : Linked s.tree) (hprepared : Prepared s s₁)
    (hsame : SameTree s₁ s₂) : s₂.zeroSizeBytes = s.zeroSizeBytes := by
  have hsize : ∀ n, s₂.physicalSize n = s.physicalSize n := by
    intro n
    rw [hsame.physicalSize, hprepared.physicalSize]
  have hlength : ∀ n, (s₂.entry n n false).map (fun e => piecesLength e.pieces) =
      (s.entry n n false).map fun e => piecesLength e.pieces := by
    intro n
    rw [hsame.entry_length, hprepared.entry_length ht]
  have hperm := hprepared.perm_byType ht .file
  rw [← hsame.tree] at hperm
  unfold zeroSizeBytes
  simp only [hsize, hlength]
  exact ((hperm.filter _).map _).sum_eq

/-- The files without data are appended one behind the other. -/
theorem appendZeroSizeFiles_written {vol : Volume σ} {offset maxSize : Nat} {files : List Nat}
    {w w' : Sink (VolOstream σ)} (hmax : maxSize < 2 ^ 64) (hw : w.stream.written ≤ maxSize)
    (h : appendZeroSizeFiles (volumeOstream vol offset maxSize) s files w = .ok () w') :
    w'.stream.written = w.stream.written +
        ((files.filter fun fit => s.physicalSize fit = 0).map fun fit =>
          ((s.entry fit fit false).map fun e => piecesLength e.pieces).getD 0).sum ∧
      w'.stream.written ≤ maxSize := by
  induction files generalizing w with
  | nil =>
      cases h
      exact ⟨rfl, hw⟩
  | cons fit files ih =>
      obtain ⟨_, w₁, hfirst, hrest⟩ := Outcome.of_bind_eq_ok h
      by_cases hsize : s.physicalSize fit = 0
      · have hkeep : (fit :: files).filter (fun fit => s.physicalSize fit = 0) =
            fit :: files.filter fun fit => s.physicalSize fit = 0 :=
          List.filter_cons_of_pos (by simp [hsize])
        rw [Call.guard_pos hsize] at hfirst
        obtain ⟨e, stream, he, hheader, rfl⟩ := writeNode_ok hfirst
        rw [cpioWriteHeader_eq] at hheader
        obtain ⟨hwritten, hle⟩ := appendAll_written hmax hw hheader
        obtain ⟨hmore, hle'⟩ := ih hle hrest
        refine ⟨?_, hle'⟩
        rw [hkeep, List.map_cons, List.sum_cons, he, Option.map_some, Option.getD_some, hmore]
        change stream.written + _ = _
        rw [hwritten, Nat.add_assoc]
      · have hskip : (fit :: files).filter (fun fit => s.physicalSize fit = 0) =
            files.filter fun fit => s.physicalSize fit = 0 :=
          List.filter_cons_of_neg (by simp [hsize])
        rw [Call.guard_neg hsize] at hfirst
        cases hfirst
        rw [hskip]
        exact ih hw hrest

theorem writeEnd_last {vol : Volume σ} (hbs : 0 < vol.blocksize) {s s' : CpioFs (σ × Nat)}
    (h : writeEnd (recorded vol) s = .ok () s') :
    s'.fstree.volume.2 ≡ s.zeroSizeBytes [MOD 512] := by
  unfold writeEnd at h
  rw [Call.bind_apply, Call.get_apply, Outcome.bind_ok] at h
  obtain ⟨w, hw, -, -, hvolume⟩ := onStream_ok h
  obtain ⟨_, w₁, hfiles, htrailer⟩ := Outcome.of_bind_eq_ok hw
  obtain ⟨stream, hstream, rfl⟩ := Outcome.of_mapState_eq_ok htrailer
  obtain ⟨hwritten, hle⟩ := appendZeroSizeFiles_written (by decide) (Nat.zero_le _) hfiles
  have hlast := cpioWriteTrailer_last hbs (by decide) hle hstream
  have hall : w₁.stream.written = s.zeroSizeBytes := hwritten.trans (Nat.zero_add _)
  rw [hall] at hlast
  rw [hvolume]
  exact hlast

/-- The archive ends where the headers of the files without data would, had they been written from
the beginning on. -/
theorem buildFormat_last {vol : Volume σ} (hbs : 0 < vol.blocksize) {s s' : CpioFs (σ × Nat)}
    (ht : Linked s.tree) (h : buildFormat (recorded vol) s = .ok () s') :
    s'.fstree.volume.2 % 512 = s.zeroSizeBytes % 512 := by
  obtain ⟨s₁, s₂, -, -, -, hprepared, hsame, -, -, -, -, hend⟩ := buildFormat_parts ht h
  have hlast := writeEnd_last hbs hend
  rwa [zeroSizeBytes_eq ht hprepared hsame] at hlast

/-- The last byte written to the volume makes the length of the archive a multiple of 512 just where
the headers of all files without data together have such a length. -/
theorem archive_length_iff {vol : Volume σ} (hbs : 0 < vol.blocksize) {s s' : CpioFs (σ × Nat)}
    (ht : Linked s.tree) (h : buildFormat (recorded vol) s = .ok () s') :
    s'.fstree.volume.2 % 512 = 0 ↔ s.zeroSizeBytes % 512 = 0 := by
  rw [buildFormat_last hbs ht h]

theorem OneFile.zeroSizeBytes (h : OneFile s) : s.zeroSizeBytes = 112 := by
  have hfilter : [1].filter (fun fit => s.physicalSize fit = 0) = [1] :=
    List.filter_cons_of_pos (decide_eq_true h.size)
  unfold CpioFs.zeroSizeBytes
  rw [h.files, hfilter, List.map_singleton, List.sum_singleton, h.file, Option.getD_some]

theorem recorded_withEmptyFile_built : ∃ s', buildFormat (recorded (idealVolume 512 2))
    (withEmptyFile (fun _ => 0, 0)) = .ok () s' :=
  buildFormat_withEmptyFile (recorded_blockStore (idealVolume_blockStore (Nat.succ_pos 511)))
    (show 2 < 2 ^ 64 by decide) (show 624 ≤ 2 * 512 by decide) _

theorem archive_length_empty_file : ∃ s', buildFormat (recorded (idealVolume 512 2))
      (withEmptyFile (fun _ => 0, 0)) = .ok () s' ∧
    (s'.fstree.volume.2 % 512 = 0 ↔
      (withEmptyFile ((fun _ => 0, 0) : Bytes × Nat)).zeroSizeBytes % 512 = 0) := by
  obtain ⟨s', h⟩ := recorded_withEmptyFile_built
  exact ⟨s', h, archive_length_iff (Nat.succ_pos 511) emptyFile_linked h⟩

/-- With a file without data named by one letter, the last block has 112 bytes. -/
theorem not_archive_length : ∃ s', buildFormat (recorded (idealVolume 512 2))
      (withEmptyFile (fun _ => 0, 0)) = .ok () s' ∧ s'.fstree.volume.2 % 512 = 112 := by
  obtain ⟨s', h⟩ := recorded_withEmptyFile_built
  refine ⟨s', h, ?_⟩
  have hlast := buildFormat_last (Nat.succ_pos 511) emptyFile_linked h
  rw [(withEmptyFile_oneFile _).zeroSizeBytes] at hlast
  exact hlast

end CpioFs

end ImageTool.Cpio
