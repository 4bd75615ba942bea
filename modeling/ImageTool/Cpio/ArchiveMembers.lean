import ImageTool.Cpio.Image

/-!
# The members of an archive

The image that `cpio_build_format` leaves is read back: one member for each node, and one for each
hard link.
-/

namespace ImageTool.Cpio

open ImageTool.Lib ImageTool.Image ImageTool.Fstream ImageTool.Fstree ImageTool.Fstree.NodeTree

/-! ## File contents -/

/-- Without sparse regions the contents of a file are what lies on the volume. -/
theorem contents_dense {bs : Nat} (view : Bytes) {n : FileNode} (h : n.sparse = []) :
    Fstree.contents bs view n = view.slice (n.startIndex * bs) n.size := by
  unfold Fstree.contents
  apply Bytes.slice_eq_iff.2
  intro p _
  have hnone : ¬ Covers n.sparse ((0 + p) / bs) := by
    rw [h]
    exact covers_nil _
  have hrank : rank n.sparse ((0 + p) / bs) = (0 + p) / bs := by
    rw [h]
    exact Nat.count_of_forall fun x _ => covers_nil x
  unfold bytesOf blockByte
  rw [if_neg hnone, hrank, Nat.zero_add, Nat.mul_comm (p / bs), Nat.div_add_mod]

/-- Without sparse regions a file stores all of its blocks. -/
theorem stored_dense {bs : Nat} {n : FileNode} (h : n.sparse = []) :
    n.stored bs = blockCount n.size bs := by
  unfold FileNode.stored FileNode.blocks
  rw [h]
  rfl

theorem blockCount_alignment (size : Nat) :
    blockCount size blocksize * blocksize = size + alignment size := by
  change blockCount size 4 * 4 = _
  unfold blockCount alignment
  split
  · omega
  · omega

namespace CpioFs

variable {σ : Type} {vol : Volume σ} {view : σ → Bytes} {count : Nat} {s s₁ : CpioFs σ}

/-! ## Members -/

/-- The data of a file. -/
def fileContent (s : CpioFs σ) (view : σ → Bytes) (fit : Nat) : List UInt8 :=
  Fstree.contents blocksize (view s.fstree.volume) (s.fileData fit)

/-- The member of a node without data outside of its entry. -/
def plainMember (s : CpioFs σ) (n : Nat) : Member :=
  (s.nodeEntry n n false).member (s.nodeEntry n n false).ownData

/-- The member of a hard link: the file it leads to, under the name of the link and without data. -/
def linkMember (s : CpioFs σ) (n : Nat) : Member := (s.nodeEntry (s.linkTarget n) n true).member []

/-- The member of a file. -/
def fileMember (s : CpioFs σ) (view : σ → Bytes) (fit : Nat) : Member :=
  (s.nodeEntry fit fit false).member (s.fileContent view fit)

/-- The size of the archive. -/
def archiveSize (s : CpioFs σ) : Nat :=
  let start := s.treeBytes.length + s.fstree.dataOffset * blocksize +
    (s.fullFiles.flatMap s.fileHeader).length
  start + (s.emptyFiles.flatMap s.fileHeader).length + piecesLength (trailerPieces start)

/-- A file with its header, as it lies in the archive. -/
def storedFile (s : CpioFs σ) (view : σ → Bytes) (fit : Nat) : Stored where
  entry := s.nodeEntry fit fit false
  data := s.fileContent view fit
  pad := (fileBlocks blocksize (view s.fstree.volume) s.fstree.files (s.place fit)).drop
    (s.fileContent view fit).length

/-- A file of the archive is what lies in its blocks. -/
theorem storedFile_bytes (hp : Packable s) {fit : Nat} (hfit : fit ∈ s.tree.nodesByType .file) :
    (s.storedFile view fit).Good ∧ (s.storedFile view fit).bytes = s.fileHeader fit ++
      fileBlocks blocksize (view s.fstree.volume) s.fstree.files (s.place fit) := by
  have hfile := hp.isFile hfit
  have hcount := hfile.lt
  obtain ⟨hdense, -⟩ := hp.fileData fit
  have hcontent : s.fileContent view fit = (view s.fstree.volume).slice
      ((s.fileData fit).startIndex * blocksize) (s.fileData fit).size := contents_dense _ hdense
  have hblocks : fileBlocks blocksize (view s.fstree.volume) s.fstree.files (s.place fit) =
      (view s.fstree.volume).slice ((s.fileData fit).startIndex * blocksize)
        ((s.fileData fit).size + alignment (s.fileData fit).size) := by
    unfold fileBlocks
    rw [hfile.extentAt]
    unfold FileNode.extent
    dsimp only
    rw [stored_dense hdense, blockCount_alignment]
  have hlength : (s.fileContent view fit).length = (s.fileData fit).size := length_contents
  have hsplit : fileBlocks blocksize (view s.fstree.volume) s.fstree.files (s.place fit) =
      s.fileContent view fit ++ (s.storedFile view fit).pad := by
    have htake : (fileBlocks blocksize (view s.fstree.volume) s.fstree.files (s.place fit)).take
        (s.fileContent view fit).length = s.fileContent view fit := by
      rw [hblocks, hlength, Bytes.take_slice (Nat.le_add_right _ _), hcontent]
    conv_lhs => rw [← List.take_append_drop (s.fileContent view fit).length
      (fileBlocks blocksize (view s.fstree.volume) s.fstree.files (s.place fit)), htake]
    rfl
  constructor
  · refine ⟨hfile.fits, ?_, ?_, (hp.fits hcount hcount).2⟩
    · have hsize : (s.nodeEntry fit fit false).size = (s.fileData fit).size := by
        have htype : (s.nodeEntry fit fit false).type = .file := hfile.type
        unfold Entry.size
        rw [htype]
        rfl
      change (s.fileContent view fit).length = (s.nodeEntry fit fit false).size
      rw [hlength, hsize]
    · change ((fileBlocks blocksize _ _ _).drop _).length =
        alignment (s.fileContent view fit).length
      rw [List.length_drop, hblocks, Bytes.length_slice, hlength]
      omega
  · rw [hfile.length_header.1, hsplit]
    rfl

/-- An entry without data outside of it. -/
theorem stored_good {e : Entry} (hfits : e.Fits) (hname : e.path ≠ cpioTrailer)
    (hdata : e.ownData.length = e.size) : (stored e).Good :=
  ⟨hfits, hdata, length_padding _, hname⟩

theorem length_ownData {e : Entry} (h : e.type = .file → e.size = 0) :
    e.ownData.length = e.size := by
  unfold Entry.ownData
  by_cases hsymlink : e.type = .symlink
  · rw [if_pos hsymlink]
    unfold Entry.size
    rw [hsymlink, List.length_append]
    rfl
  · rw [if_neg hsymlink]
    by_cases hfile : e.type = .file
    · exact (h hfile).symm
    · unfold Entry.size
      cases htype : e.type with
      | file => exact absurd htype hfile
      | symlink => exact absurd htype hsymlink
      | _ => rfl

/-- A list of places of files is one of files. -/
theorem exists_files {α β : Type} {P : α → Prop} {f : α → β} {list : List β}
    (h : ∀ b ∈ list, ∃ a, P a ∧ f a = b) : ∃ as : List α, as.map f = list ∧ ∀ a ∈ as, P a := by
  induction list with
  | nil => exact ⟨[], rfl, fun _ ha => absurd ha List.not_mem_nil⟩
  | cons b list ih =>
      rw [List.forall_mem_cons] at h
      obtain ⟨⟨a, ha, rfl⟩, hrest⟩ := h
      obtain ⟨as, rfl, has⟩ := ih hrest
      exact ⟨a :: as, rfl, List.forall_mem_cons.2 ⟨ha, has⟩⟩

/-- The files with data, in the order in which they lie. -/
theorem exists_fileRow (hp : Packable s) : ∃ files : List Nat, files.map s.place =
      fileRow blocksize s.fstree.files ∧ files.Perm s.fullFiles := by
  have hplaced : ∀ i ∈ fileRow blocksize s.fstree.files,
      ∃ fit, fit ∈ s.tree.nodesByType .file ∧ s.place fit = i := by
    intro i hi
    apply hp.place_onto
    obtain ⟨n, hn⟩ := exists_of_extentAt_pos (mem_fileRow.1 hi)
    exact (List.getElem?_eq_some_iff.1 hn).1
  obtain ⟨files, hmap, hfiles⟩ := exists_files hplaced
  refine ⟨files, hmap, ?_⟩
  have hnodup : (fileRow blocksize s.fstree.files).Nodup := rowOf_nodup List.nodup_range
  rw [← hmap] at hnodup
  have hfull : s.fullFiles.Nodup := (hp.linked.byType_nodup .file).filter _
  rw [List.perm_ext_iff_of_nodup hnodup.of_map hfull]
  intro fit
  unfold fullFiles
  rw [List.mem_filter, decide_eq_true_iff]
  constructor
  · intro hfit
    have hmem := hfiles fit hfit
    have hrow : s.place fit ∈ fileRow blocksize s.fstree.files := hmap ▸ List.mem_map_of_mem hfit
    have hpos := mem_fileRow.1 hrow
    refine ⟨hmem, ?_⟩
    rw [Ne, (hp.isFile hmem).physicalSize_eq_zero hp.layout]
    omega
  · rintro ⟨hmem, hsize⟩
    rw [Ne, (hp.isFile hmem).physicalSize_eq_zero hp.layout] at hsize
    have hrow := mem_fileRow.2 (Nat.pos_of_ne_zero hsize)
    rw [← hmap, List.mem_map] at hrow
    obtain ⟨other, hother, hplace⟩ := hrow
    rw [hp.place_inj fit hmem other (hfiles other hother) hplace.symm]
    exact hother

/-! ## The image -/

/-- What the archive holds, in the order in which it lies on the volume. -/
def storedEntries (s : CpioFs σ) (view : σ → Bytes) (files : List Nat) : List Stored :=
  s.treeEntries.map stored ++ files.map (s.storedFile view) ++
    s.emptyFiles.map fun fit => stored (s.nodeEntry fit fit false)

/-- The entry of a file without data. -/
theorem stored_empty (view : σ → Bytes) (hp : Packable s) {fit : Nat} (hfit : fit ∈ s.emptyFiles) :
    (stored (s.nodeEntry fit fit false)).Good ∧
      (stored (s.nodeEntry fit fit false)).bytes = s.fileHeader fit ∧
      s.fileContent view fit = [] := by
  obtain ⟨hmem, hsize⟩ := List.mem_filter.1 hfit
  have hfile := hp.isFile hmem
  have htype : (s.nodeEntry fit fit false).type = .file := hfile.type
  have hown : (s.nodeEntry fit fit false).ownData = [] := by
    unfold Entry.ownData
    rw [htype]
    rfl
  obtain ⟨hdense, -⟩ := hp.fileData fit
  have hstored : (s.fileData fit).stored blocksize = 0 := by
    have hzero := (hfile.physicalSize_eq_zero hp.layout).1 (of_decide_eq_true hsize)
    rw [hfile.extentAt] at hzero
    exact hzero
  rw [stored_dense hdense] at hstored
  have hempty : (s.fileData fit).size = 0 := by
    have hblocks := blockCount_alignment (s.fileData fit).size
    rw [hstored] at hblocks
    omega
  have hentry : (s.nodeEntry fit fit false).size = 0 := by
    unfold Entry.size
    rw [htype]
    exact hempty
  refine ⟨stored_good hfile.fits (hp.fits hfile.lt hfile.lt).2
    (length_ownData fun _ => hentry), ?_, ?_⟩
  · rw [hfile.length_header.1]
    unfold stored Stored.bytes
    rw [hown]
    exact List.append_nil _
  · apply List.eq_nil_of_length_eq_zero
    exact length_contents.trans hempty

/-- All entries of the archive can be read back. -/
theorem storedEntries_good {s₀ : CpioFs σ} (hprepared : Prepared s₀ s) (hp : Packable s)
    (hlinks : LinksToFiles s.tree) {files : List Nat} (hfiles : files.Perm s.fullFiles) :
    ∀ st ∈ s.storedEntries view files, st.Good := by
  intro st hst
  unfold storedEntries at hst
  rw [List.mem_append, List.mem_append, List.mem_map, List.mem_map, List.mem_map] at hst
  rcases hst with (⟨e, he, rfl⟩ | ⟨fit, hfit, rfl⟩) | ⟨fit, hfit, rfl⟩
  · obtain ⟨hfits, hname, -⟩ := hprepared.treeEntries hp hlinks e he
    apply stored_good hfits hname
    apply length_ownData
    intro htype
    -- only hard links stand for files here
    unfold CpioFs.treeEntries at he
    rw [List.mem_append, List.mem_map, List.mem_map] at he
    rcases he with ⟨n, hn, rfl⟩ | ⟨n, -, rfl⟩
    · exact absurd htype (of_decide_eq_true (List.mem_filter.1 hn).2)
    · unfold Entry.size
      rw [htype]
      rfl
  · exact (storedFile_bytes hp (List.mem_filter.1 (hfiles.mem_iff.1 hfit)).1).1
  · exact (stored_empty view hp hfit).1

theorem flatMap_storedEntries {s₀ : CpioFs σ} (hprepared : Prepared s₀ s) (hp : Packable s)
    (hlinks : LinksToFiles s.tree) {files : List Nat} (hfiles : files.Perm s.fullFiles) :
    (s.storedEntries view files).flatMap Stored.bytes = s.treeBytes ++
      (files.flatMap fun fit => s.fileHeader fit ++
        fileBlocks blocksize (view s.fstree.volume) s.fstree.files (s.place fit)) ++
      s.emptyFiles.flatMap s.fileHeader := by
  have hfull : (files.map (s.storedFile view)).flatMap Stored.bytes =
      files.flatMap fun fit => s.fileHeader fit ++
        fileBlocks blocksize (view s.fstree.volume) s.fstree.files (s.place fit) := by
    rw [List.flatMap_map]
    apply List.flatMap_congr
    intro fit hfit
    exact (storedFile_bytes hp (List.mem_filter.1 (hfiles.mem_iff.1 hfit)).1).2
  have hempty : (s.emptyFiles.map fun fit => stored (s.nodeEntry fit fit false)).flatMap
      Stored.bytes = s.emptyFiles.flatMap s.fileHeader := by
    rw [List.flatMap_map]
    apply List.flatMap_congr
    intro fit hfit
    exact (stored_empty view hp hfit).2.1
  unfold storedEntries
  rw [List.flatMap_append, List.flatMap_append, hfull, hempty, (hprepared.treeBytes hp hlinks).1]

/-- `cpio_build_format` succeeds if the archive has room, and leaves it on the volume. -/
theorem buildFormat_image (hv : BlockStore (adapter vol).volume count view)
    (hlt : count * blocksize < 2 ^ 64) (hprepared : Prepared s s₁) (hp : Packable s₁)
    (hlinks : LinksToFiles s₁.tree) (hroom : s₁.archiveSize ≤ count * blocksize) :
    ∃ (s' : CpioFs σ) (files : List Nat) (zeros : Nat), buildFormat vol s = .ok () s' ∧
      files.Perm s₁.fullFiles ∧ (view s'.fstree.volume).slice 0 s₁.archiveSize =
        (s₁.storedEntries view files).flatMap Stored.bytes ++
          (trailer ++ List.replicate zeros 0) := by
  have hinter := Full.interleaved (adapter vol).volume view hp.full hp.layout
  have htop := hinter.length
  change s₁.fstree.dataOffset * blocksize = _ at htop
  unfold archiveSize at hroom ⊢
  dsimp only at hroom ⊢
  obtain ⟨s₂, hfront, hsame₂, hinter₂⟩ := writeFront_run hv hlt hprepared hp hlinks (by omega)
  have htop₂ := hinter₂.length
  change s₂.fstree.dataOffset * blocksize = _ at htop₂
  have hoffset₂ : s₂.fstree.dataOffset * blocksize =
      s₁.treeBytes.length + s₁.fstree.dataOffset * blocksize := by
    rw [htop₂, htop, List.length_append]
    rfl
  have hfileHeader₂ : s₂.fileHeader = s₁.fileHeader := funext hsame₂.fileHeader
  obtain ⟨s₃, front, hheaders, hsame₃, hinter₃, hoffset₃, hdone, -⟩ := insertFileHeaders_run hv hlt
    (s₂.tree.nodesByType .file) (by rw [hsame₂.tree]; exact hp.linked.toIsTree)
    (by
      intro fit hfit
      rw [hsame₂.tree] at hfit
      exact hsame₂.isFile (hp.isFile hfit))
    (by
      rw [hsame₂.tree, hsame₂.place]
      exact List.Nodup.map_on hp.place_inj (hp.linked.byType_nodup .file)) hinter₂
    (fun _ _ => rfl)
    (by
      simp only [hsame₂.tree, hsame₂.physicalSize, hfileHeader₂]
      unfold fullFiles at hroom
      omega)
  simp only [hsame₂.tree, hsame₂.physicalSize, hsame₂.place, hfileHeader₂] at hoffset₃ hdone
  have hsame := hsame₂.trans hsame₃
  have hfileHeader : s₃.fileHeader = s₁.fileHeader := funext hsame.fileHeader
  have hempty : s₃.emptyFiles = s₁.emptyFiles := by
    unfold emptyFiles
    simp only [hsame.tree, hsame.physicalSize]
  have hstart : s₃.fstree.dataOffset * blocksize = s₁.treeBytes.length +
      s₁.fstree.dataOffset * blocksize + (s₁.fullFiles.flatMap s₁.fileHeader).length := by
    rw [hoffset₃, hoffset₂]
    rfl
  obtain ⟨v, es, hend, hview⟩ := writeEnd_run hv hlt (s := s₃)
    (by rw [hsame.tree]; exact hp.linked.toIsTree)
    (by
      intro fit hfit
      rw [hsame.tree] at hfit
      exact hsame.isFile (hp.isFile hfit))
    (by
      rw [hstart, hempty, hfileHeader]
      exact hroom)
  obtain ⟨files, hrow, hperm⟩ := exists_fileRow hp
  obtain ⟨zeros, hzeros⟩ := flatten_trailerPieces (s₃.fstree.dataOffset * blocksize)
  refine ⟨{ s₃ with fstree := { s₃.fstree with volume := v }, written := es }, files, zeros, ?_,
    hperm, ?_⟩
  · unfold buildFormat
    rw [Call.bind_apply, hfront, Outcome.bind_ok, Call.bind_apply, Call.get_apply, Outcome.bind_ok,
      Call.bind_apply, hheaders, Outcome.bind_ok]
    exact hend
  · -- what lies in front of the end, and the end
    have hslice := hinter₃.slice
    change (view s₃.fstree.volume).slice 0 (s₃.fstree.dataOffset * blocksize) = _ at hslice
    rw [hempty, hfileHeader] at hview
    change (view v).slice 0 _ = _
    rw [← hstart, Nat.add_assoc, piecesLength_eq, ← List.length_append, ← Bytes.slice_append,
      Nat.zero_add, hview, Bytes.slice_splice_self, Bytes.slice_splice_of_disjoint (by omega),
      hslice, hzeros, flatMap_storedEntries hprepared hp hlinks hperm, ← hrow, List.flatMap_map]
    simp only [List.append_assoc]
    congr 2
    apply List.flatMap_congr
    intro fit hfit
    obtain ⟨hmem, hsize⟩ := List.mem_filter.1 (hperm.mem_iff.1 hfit)
    rw [hdone fit hmem (of_decide_eq_true hsize)]

/-! ## Reading the image -/

/-- Every node that is no hard link has one entry under its own name. -/
theorem Prepared.nodes_perm (hprepared : Prepared s s₁) (hp : Packable s₁) {files : List Nat}
    (hfiles : files.Perm s₁.fullFiles) : (s₁.otherNodes ++ files ++ s₁.emptyFiles).Perm
      ((List.range s₁.tree.count).filter fun n => (s₁.tree.node n).type ≠ .hardLink) := by
  obtain ⟨nodes, htable, hnodup, hnodes⟩ := hprepared.table hp
  have hfull := (hp.linked.byType_nodup .file).filter fun fit => s₁.physicalSize fit ≠ 0
  have hempty := (hp.linked.byType_nodup .file).filter fun fit => s₁.physicalSize fit = 0
  have hothers : s₁.otherNodes = nodes.filter fun n => (s₁.tree.node n).type ≠ .file := by
    unfold otherNodes
    rw [htable, reduceOption_map_some]
  have hsplit : (files ++ s₁.emptyFiles).Perm (s₁.tree.nodesByType .file) := by
    have hnot : s₁.emptyFiles =
        (s₁.tree.nodesByType .file).filter fun fit => !decide (s₁.physicalSize fit ≠ 0) := by
      unfold emptyFiles
      apply List.filter_congr
      intro fit _
      rw [decide_not, Bool.not_not]
    rw [hnot]
    exact (hfiles.append_right _).trans (List.filter_append_perm _ _)
  rw [List.append_assoc]
  refine (hsplit.append_left _).trans ?_
  rw [List.perm_ext_iff_of_nodup _ (List.nodup_range.filter _)]
  · intro n
    rw [hothers, List.mem_append, List.mem_filter, List.mem_filter, hnodes, List.mem_range,
      hp.linked.mem_byType, decide_eq_true_iff, decide_eq_true_iff]
    constructor
    · rintro (⟨⟨hn, htype⟩, -⟩ | ⟨hn, htype⟩)
      · exact ⟨hn, htype⟩
      · rw [htype]
        exact ⟨hn, TreeNodeType.noConfusion⟩
    · rintro ⟨hn, htype⟩
      by_cases hfile : (s₁.tree.node n).type = .file
      · exact .inr ⟨hn, hfile⟩
      · exact .inl ⟨⟨hn, htype⟩, hfile⟩
  · rw [hothers]
    refine (hnodup.filter _).append (hp.linked.byType_nodup .file) ?_
    intro n hn hfile
    exact of_decide_eq_true (List.mem_filter.1 hn).2 ((hp.linked.mem_byType .file n).1 hfile).2

/-- The members that are read from what is stored. -/
theorem storedEntries_members (hprepared : Prepared s s₁) (hp : Packable s₁)
    (hlinks : LinksToFiles s₁.tree) {files : List Nat} :
    (s₁.storedEntries view files).map (fun st => st.entry.member st.data) =
      s₁.otherNodes.map s₁.plainMember ++ (s₁.tree.nodesByType .hardLink).map s₁.linkMember ++
        files.map (s₁.fileMember view) ++ s₁.emptyFiles.map s₁.plainMember := by
  have hlinked : ∀ n ∈ s₁.tree.nodesByType .hardLink,
      (stored (s₁.nodeEntry (s₁.linkTarget n) n true)).entry.member
        (stored (s₁.nodeEntry (s₁.linkTarget n) n true)).data = s₁.linkMember n := by
    intro n hn
    have htype : (s₁.nodeEntry (s₁.linkTarget n) n true).type = .file :=
      (hprepared.linkTarget hp hlinks n hn).2.2.2
    have hown : (s₁.nodeEntry (s₁.linkTarget n) n true).ownData = [] := by
      unfold Entry.ownData
      rw [htype]
      rfl
    unfold stored linkMember
    rw [hown]
  unfold storedEntries treeEntries
  simp only [List.map_append, List.map_map]
  congr 1
  congr 1
  congr 1
  exact List.map_congr_left hlinked

/-- What a reader of the format gets from the volume. -/
theorem buildFormat_members (hv : BlockStore vol count view) (hcount : count < 2 ^ 64)
    (hprepared : Prepared s s₁) (hp : Packable s) (hlinks : LinksToFiles s₁.tree)
    (hroom : s₁.archiveSize ≤ (adapter vol).convBlkCount count * blocksize) :
    ∃ (s' : CpioFs σ) (files : List Nat), buildFormat vol s = .ok () s' ∧
      files.Perm s₁.fullFiles ∧
      readNewc ((view s'.fstree.volume).slice 0 (count * vol.blocksize)) =
        some (s₁.otherNodes.map s₁.plainMember ++
          (s₁.tree.nodesByType .hardLink).map s₁.linkMember ++
          files.map (s₁.fileMember view) ++ s₁.emptyFiles.map s₁.plainMember) := by
  have hstore := @Adapter.blockStore _ (adapter vol) _ _ hv hcount (Nat.succ_pos 3)
    (show 4 < 2 ^ 32 by decide)
  have hwindow : (fun t : σ => (view t).window (adapter vol).offset) = view := by
    funext t p
    exact congrArg (view t) (Nat.zero_add p)
  rw [hwindow] at hstore
  have hpos : 0 < s₁.archiveSize := by
    unfold archiveSize
    dsimp only
    obtain ⟨zeros, hzeros⟩ := flatten_trailerPieces (s₁.treeBytes.length +
      s₁.fstree.dataOffset * blocksize + (s₁.fullFiles.flatMap s₁.fileHeader).length)
    rw [piecesLength_eq, hzeros, List.length_append]
    have htrailer : 0 < trailer.length := by
      unfold trailer
      rw [List.length_append, List.length_append, List.length_singleton]
      exact Nat.succ_pos _
    omega
  obtain ⟨hle, hlt⟩ := (adapter vol).window_le count (Nat.pos_of_ne_zero fun hzero => by
    rw [hzero] at hroom
    omega)
  rw [show (adapter vol).offset = 0 from rfl, Nat.zero_add] at hle hlt
  have hp₁ := hp.prepared hprepared
  obtain ⟨s', files, zeros, hrun, hperm, himage⟩ :=
    buildFormat_image hstore hlt hprepared hp₁ hlinks hroom
  refine ⟨s', files, hrun, hperm, ?_⟩
  have hinside : s₁.archiveSize ≤ count * vol.blocksize := Nat.le_trans hroom hle
  have hsplit : (view s'.fstree.volume).slice 0 (count * vol.blocksize) =
      (s₁.storedEntries view files).flatMap Stored.bytes ++ (trailer ++
        (List.replicate zeros 0 ++ (view s'.fstree.volume).slice (0 + s₁.archiveSize)
          (count * vol.blocksize - s₁.archiveSize))) := by
    have hbytes := Bytes.slice_append (view s'.fstree.volume) 0 s₁.archiveSize
      (count * vol.blocksize - s₁.archiveSize)
    rw [himage, Nat.add_sub_cancel' hinside] at hbytes
    simpa only [List.append_assoc] using hbytes.symm
  rw [hsplit, readNewc_stored (storedEntries_good hprepared hp₁ hlinks hperm),
    storedEntries_members hprepared hp₁ hlinks]

/-! ## What the members show -/

/-- The permissions leave the bits of the type alone, a device number has 32 bits, and the target
is a string. -/
structure PlainAttributes (node : TreeNode) : Prop where
  permissions : node.permissions < 2 ^ 12
  deviceNumber : node.deviceNumber < 2 ^ 32
  target : 0 ∉ node.target

/-- A reader of the format finds a node in a member, under the path of another one. -/
structure Shows (t : NodeTree) (n link : Nat) (m : Member) : Prop where
  name : (t.getPath link).map canonicalizePath = some m.name
  type : m.type = some (t.node n).type
  permissions : m.permissions = (t.node n).permissions
  uid : m.uid = (t.node n).uid
  gid : m.gid = (t.node n).gid
  mtime : m.mtime = (t.node n).mtime
  deviceNumber : (t.node n).type = .charDev ∨ (t.node n).type = .blockDev →
    m.deviceNumber = (t.node n).deviceNumber
  target : (t.node n).type = .symlink → m.target = (t.node n).target

/-- What the members of an archive show of the tree that has been packed. -/
structure MembersShow (s s₁ : CpioFs σ) (view : σ → Bytes) (files : List Nat) : Prop where
  plain : ∀ n ∈ s₁.otherNodes ++ s₁.emptyFiles, PlainAttributes (s.tree.node n) →
    Shows s.tree n n (s₁.plainMember n)
  files : ∀ n ∈ files, PlainAttributes (s.tree.node n) →
    Shows s.tree n n (s₁.fileMember view n)
  links : ∀ n ∈ s₁.tree.nodesByType .hardLink, s.tree.ChainEnds n (s₁.linkTarget n) ∧
    (PlainAttributes (s.tree.node (s₁.linkTarget n)) →
      Shows s.tree (s₁.linkTarget n) n (s₁.linkMember n))

theorem nodeEntry_shows (ht : IsTree s.tree) {n link : Nat} (hlink : link < s.tree.count)
    (htype : (s.tree.node n).type ≠ .hardLink) (hplain : PlainAttributes (s.tree.node n))
    (hardlink : Bool) {data : List UInt8}
    (hdata : (s.tree.node n).type = .symlink → data = (s.tree.node n).target ++ [0]) :
    Shows s.tree n link ((s.nodeEntry n link hardlink).member data) := by
  obtain ⟨path, hpath⟩ := exists_getPath ht hlink
  constructor
  · unfold nodeEntry
    rw [hpath]
    rfl
  · exact Entry.member_type hplain.permissions htype data
  · exact Entry.member_permissions hplain.permissions data
  · rfl
  · rfl
  · rfl
  · exact fun hdevice => Entry.member_deviceNumber hplain.deviceNumber hdevice data
  · intro hsymlink
    have hown : (s.nodeEntry n link hardlink).ownData = (s.tree.node n).target ++ [0] :=
      if_pos hsymlink
    rw [hdata hsymlink, ← hown]
    exact Entry.member_target hplain.target hsymlink

/-- Sorting changes nothing of what a member shows. -/
theorem Prepared.shows (hprepared : Prepared s s₁) (ht : Linked s.tree) {n link : Nat}
    {m : Member} (h : Shows s₁.tree n link m) : Shows s.tree n link m := by
  obtain ⟨cs, hnode⟩ := sort_node hprepared.tree n
  obtain ⟨hname, htype, hpermissions, huid, hgid, hmtime, hdevice, htarget⟩ := h
  rw [(hprepared.linked ht).2.getPath] at hname
  rw [hnode] at htype hpermissions huid hgid hmtime hdevice htarget
  exact ⟨hname, htype, hpermissions, huid, hgid, hmtime, hdevice, htarget⟩

theorem Prepared.plainAttributes (hprepared : Prepared s s₁) {n : Nat}
    (h : PlainAttributes (s.tree.node n)) : PlainAttributes (s₁.tree.node n) := by
  obtain ⟨cs, hnode⟩ := sort_node hprepared.tree n
  rw [hnode]
  exact ⟨h.permissions, h.deviceNumber, h.target⟩

/-- Sorting keeps what the links lead to. -/
theorem Prepared.linksToFiles (hprepared : Prepared s s₁) (ht : Linked s.tree)
    (hlinks : LinksToFiles s.tree) : LinksToFiles s₁.tree := by
  intro n hn m hm
  rw [(hprepared.linked ht).2.type]
  exact hlinks n ((hprepared.mem_byType ht).1 hn) m ((hprepared.chainEnds ht).1 hm)

theorem membersShow (hprepared : Prepared s s₁) (hp : Packable s) (hlinks : LinksToFiles s.tree)
    {files : List Nat} (hnodes : (s₁.otherNodes ++ files ++ s₁.emptyFiles).Perm
      ((List.range s₁.tree.count).filter fun n => (s₁.tree.node n).type ≠ .hardLink))
    (hfiles : ∀ n ∈ files, (s₁.tree.node n).type = .file) : MembersShow s s₁ view files := by
  have ht := (hprepared.linked hp.linked).1.toIsTree
  have hmem : ∀ n ∈ s₁.otherNodes ++ files ++ s₁.emptyFiles,
      n < s₁.tree.count ∧ (s₁.tree.node n).type ≠ .hardLink := by
    intro n hn
    obtain ⟨hrange, htype⟩ := List.mem_filter.1 (hnodes.mem_iff.1 hn)
    exact ⟨List.mem_range.1 hrange, of_decide_eq_true htype⟩
  constructor
  · intro n hn hplain
    have hin : n ∈ s₁.otherNodes ++ files ++ s₁.emptyFiles := by
      rw [List.mem_append] at hn
      simp only [List.mem_append]
      tauto
    obtain ⟨hlt, htype⟩ := hmem n hin
    apply hprepared.shows hp.linked
    exact nodeEntry_shows ht hlt htype (hprepared.plainAttributes hplain) false fun h => if_pos h
  · intro n hn hplain
    obtain ⟨hlt, htype⟩ := hmem n (List.mem_append_left _ (List.mem_append_right _ hn))
    apply hprepared.shows hp.linked
    apply nodeEntry_shows ht hlt htype (hprepared.plainAttributes hplain) false
    intro hsymlink
    rw [hfiles n hn] at hsymlink
    cases hsymlink
  · intro n hn
    obtain ⟨hlt, hresolved, -, htype⟩ := hprepared.linkTarget (hp.prepared hprepared)
      (hprepared.linksToFiles hp.linked hlinks) n hn
    obtain ⟨-, hends, -⟩ := resolveHardLinks_ok (hprepared.linked hp.linked).1 hprepared.links
    refine ⟨(hprepared.chainEnds hp.linked).1 ((hends n hn _).1 hresolved), ?_⟩
    intro hplain
    apply hprepared.shows hp.linked
    apply nodeEntry_shows ht hlt _ (hprepared.plainAttributes hplain) true
    · intro hsymlink
      rw [htype] at hsymlink
      cases hsymlink
    · rw [htype]
      decide

/-! ## The round trip -/

/-- A tree whose links all end at files and that fits onto the volume is packed into an archive
that a reader of the format takes apart again: each node has one member with its attributes, path
and data, and so has each hard link, with those of the file it leads to. -/
theorem buildFormat_newc (hv : BlockStore vol count view) (hcount : count < 2 ^ 64)
    (hp : Packable s) (hends : ∀ n ∈ s.tree.nodesByType .hardLink, ∃ m, s.tree.ChainEnds n m)
    (hlinks : LinksToFiles s.tree)
    (hroom : ∀ s₁, Prepared s s₁ →
      s₁.archiveSize ≤ (adapter vol).convBlkCount count * blocksize) :
    ∃ (s₁ s' : CpioFs σ) (files : List Nat), Prepared s s₁ ∧ buildFormat vol s = .ok () s' ∧
      (s₁.otherNodes ++ files ++ s₁.emptyFiles).Perm
        ((List.range s₁.tree.count).filter fun n => (s₁.tree.node n).type ≠ .hardLink) ∧
      readNewc ((view s'.fstree.volume).slice 0 (count * vol.blocksize)) =
        some (s₁.otherNodes.map s₁.plainMember ++
          (s₁.tree.nodesByType .hardLink).map s₁.linkMember ++
          files.map (s₁.fileMember view) ++ s₁.emptyFiles.map s₁.plainMember) ∧
      MembersShow s s₁ view files := by
  obtain ⟨s₁, hprepared⟩ := exists_prepared hp.linked hends
  obtain ⟨s', files, hrun, hperm, hread⟩ := buildFormat_members hv hcount hprepared hp
    (hprepared.linksToFiles hp.linked hlinks) (hroom s₁ hprepared)
  have hp₁ := hp.prepared hprepared
  have hnodes := hprepared.nodes_perm hp₁ hperm
  refine ⟨s₁, s', files, hprepared, hrun, hnodes, hread, ?_⟩
  apply membersShow hprepared hp hlinks hnodes
  intro n hn
  exact ((hp₁.linked.mem_byType .file n).1 (List.mem_filter.1 (hperm.mem_iff.1 hn)).1).2

theorem emptyFile_attributes :
    ((emptyFile.node 0).uid < 2 ^ 32 ∧ (emptyFile.node 0).gid < 2 ^ 32 ∧
      (emptyFile.node 0).mtime < 2 ^ 32 ∧ (emptyFile.node 0).target.length + 1 < 2 ^ 32) ∧
    (emptyFile.node 1).uid < 2 ^ 32 ∧ (emptyFile.node 1).gid < 2 ^ 32 ∧
      (emptyFile.node 1).mtime < 2 ^ 32 ∧ (emptyFile.node 1).target.length + 1 < 2 ^ 32 := by
  rw [emptyFile, AddOp.run_eq, mknodeAt, nodeFromPath_eq]
  decide

/-- The file `a` with five bytes in the first two blocks of the volume. -/
def withFile (data : Bytes) : CpioFs Bytes :=
  { withEmptyFile data with fstree := ⟨data, 2, true, [⟨5, 0, []⟩]⟩ }

theorem withFile_packable (data : Bytes) : Packable (withFile data) := by
  obtain ⟨hcount, hfiles, -, hpath₀, hpath₁⟩ := emptyFile_eq
  have hlt : ∀ n < (withFile data).tree.count, n = 0 ∨ n = 1 := by
    intro n hn
    have hn₂ : n < emptyFile.count := hn
    omega
  have hone : ∀ fit ∈ (withFile data).tree.nodesByType .file, fit = 1 := by
    intro fit hfit
    change fit ∈ emptyFile.nodesByType .file at hfit
    rw [hfiles] at hfit
    exact List.mem_singleton.1 hfit
  constructor
  · exact emptyFile_linked
  · have hinodes : emptyFile.inodes ≤ emptyFile.count := by
      unfold NodeTree.inodes
      refine (List.countP_le_length).trans ?_
      rw [List.length_range]
    exact hinodes.trans (by rw [hcount]; decide)
  · intro n hn
    rcases hlt n hn with rfl | rfl
    · exact emptyFile_attributes.1
    · exact emptyFile_attributes.2
  · intro n hn path hpath
    rcases hlt n hn with rfl | rfl
    · rw [show (withFile data).tree.getPath 0 = some [slash] from hpath₀] at hpath
      cases hpath
      decide
    · rw [show (withFile data).tree.getPath 1 = some [slash, 97] from hpath₁] at hpath
      cases hpath
      decide
  · intro fit _
    exact Nat.one_pos
  · intro a ha b hb _
    rw [hone a ha, hone b hb]
  · intro i hi
    refine ⟨1, ?_, ?_⟩
    · change 1 ∈ emptyFile.nodesByType .file
      rw [hfiles]
      exact List.mem_singleton.2 rfl
    · change i < 1 at hi
      change 0 = i
      omega
  · change Layout 4 2 [⟨5, 0, []⟩]
    decide
  · rfl
  · intro n hn
    rw [List.mem_singleton.1 hn]
    exact ⟨rfl, by decide⟩

/-- The headers of the root and of the file have 112 bytes each, and the trailer fills up the
archive to 512. -/
theorem withFile_prepared (data : Bytes) : ∃ s₁, Prepared (withFile data) s₁ ∧
    s₁.archiveSize = 512 := by
  obtain ⟨s, hprepared, htable⟩ := withEmptyFile_prepared data
  have hone := (withEmptyFile_oneFile data).prepared emptyFile_linked hprepared
  let s₁ : CpioFs Bytes := { s with fstree := ⟨data, 2, true, [⟨5, 0, []⟩]⟩ }
  have hwith : Prepared (withFile data) s₁ :=
    ⟨hprepared.tree, hprepared.links, hprepared.inodes, hprepared.place, rfl, hprepared.written⟩
  have hp := (withFile_packable data).prepared hwith
  have hcount : s₁.tree.count = 2 :=
    (hprepared.linked emptyFile_linked).2.count.trans emptyFile_eq.1
  have hlength : ∀ n < 2, (s.entry n n false).map (fun e => piecesLength e.pieces) = some 112 →
      (s₁.nodeEntry n n false).pieces.flatten.length = 112 := by
    intro n hn hentry
    have hsame : (s₁.entry n n false).map (fun e => piecesLength e.pieces) =
        (s.entry n n false).map fun e => piecesLength e.pieces := entry_length rfl rfl rfl rfl
    rw [hentry, entry_eq hp.linked.toIsTree (hcount ▸ hn), Option.map_some, Option.some.injEq,
      piecesLength_eq] at hsame
    exact hsame
  have htree : s₁.treeBytes.length = 112 := by
    have hothers : s₁.otherNodes = [0] := by
      unfold otherNodes
      rw [show s₁.inodes.inodeTable = [0, 1].map some from htable, reduceOption_map_some,
        List.filter_cons_of_pos, List.filter_cons_of_neg, List.filter_nil]
      · exact fun h => of_decide_eq_true h hone.file_type
      · rw [decide_eq_true_eq, show (s₁.tree.node 0).type = .dir from hone.root_type]
        decide
    have hentries : s₁.treeEntries = [s₁.nodeEntry 0 0 false] := by
      unfold treeEntries
      rw [hothers, show s₁.tree.nodesByType .hardLink = [] from hone.links]
      rfl
    unfold treeBytes
    rw [hentries, List.flatMap_singleton]
    exact hlength 0 (by decide) hone.root
  have hsize : s₁.physicalSize 1 = 5 := by
    have hplace : s₁.place = fun _ => 0 := hprepared.place
    unfold physicalSize fileData
    rw [hplace]
    rfl
  have hfiles : s₁.tree.nodesByType .file = [1] := hone.files
  have hfull : s₁.fullFiles = [1] := by
    unfold fullFiles
    rw [hfiles, List.filter_cons_of_pos, List.filter_nil]
    rw [hsize]
    decide
  have hempty : s₁.emptyFiles = [] := by
    unfold emptyFiles
    rw [hfiles, List.filter_cons_of_neg, List.filter_nil]
    rw [hsize]
    decide
  refine ⟨s₁, hwith, ?_⟩
  unfold archiveSize
  dsimp only
  rw [htree, hfull, hempty, List.flatMap_singleton, List.flatMap_nil]
  unfold fileHeader
  rw [hlength 1 (by decide) hone.file, piecesLength_trailer]
  change 112 + 2 * 4 + 112 + 0 + (121 + fillCount (u64 (112 + 2 * 4 + 112 + 121))) = 512
  decide

theorem buildFormat_newc_withFile : ∃ (s₁ s' : CpioFs Bytes) (files : List Nat),
    Prepared (withFile (fun p => UInt8.ofNat p)) s₁ ∧
    buildFormat (idealVolume 512 2) (withFile (fun p => UInt8.ofNat p)) = .ok () s' ∧
      (s₁.otherNodes ++ files ++ s₁.emptyFiles).Perm
        ((List.range s₁.tree.count).filter fun n => (s₁.tree.node n).type ≠ .hardLink) ∧
      readNewc (s'.fstree.volume.slice 0 (2 * 512)) =
        some (s₁.otherNodes.map s₁.plainMember ++
          (s₁.tree.nodesByType .hardLink).map s₁.linkMember ++
          files.map (s₁.fileMember id) ++ s₁.emptyFiles.map s₁.plainMember) ∧
      MembersShow (withFile (fun p => UInt8.ofNat p)) s₁ id files := by
  obtain ⟨s₁, hprepared, hsize⟩ := withFile_prepared (fun p => UInt8.ofNat p)
  have hroom : ∀ s₂, Prepared (withFile (fun p => UInt8.ofNat p)) s₂ →
      s₂.archiveSize ≤ (adapter (idealVolume 512 2)).convBlkCount 2 * blocksize := by
    intro s₂ hprepared₂
    rw [hprepared₂.unique hprepared, hsize]
    exact Nat.le_of_ble_eq_true rfl
  have hnone : (withFile (fun p => UInt8.ofNat p)).tree.nodesByType .hardLink = [] :=
    emptyFile_eq.2.2.1
  have hlinks : ∀ {P : Nat → Prop},
      ∀ n ∈ (withFile (fun p => UInt8.ofNat p)).tree.nodesByType .hardLink, P n := by
    intro P n hn
    rw [hnone] at hn
    exact absurd hn List.not_mem_nil
  have hbuilt := buildFormat_newc (idealVolume_blockStore (Nat.succ_pos 511))
    (show 2 < 2 ^ 64 by decide) (withFile_packable _) hlinks hlinks hroom
  exact hbuilt

end CpioFs

end ImageTool.Cpio
