import ImageTool.Cpio.Entries

/-!
# Link counts

The number of links that an entry has is the number of hard links alone, so for a regular file it is
never that of the entries of its inode.
-/

namespace ImageTool.Cpio

open ImageTool.Lib ImageTool.Image ImageTool.Fstream ImageTool.Fstree ImageTool.Fstree.NodeTree

/-- Where two lists are related, as many of the second satisfy what the first ones imply. -/
theorem countP_le_of_forall₂ {α β : Type} {R : α → β → Prop} {p : α → Bool} {q : β → Bool}
    {as : List α} {bs : List β} (h : List.Forall₂ R as bs)
    (hpq : ∀ a b, R a b → p a = true → q b = true) : as.countP p ≤ bs.countP q := by
  induction h with
  | nil => exact Nat.le_refl _
  | @cons a b as bs hab _ ih =>
      rw [List.countP_cons, List.countP_cons]
      by_cases hp : p a = true
      · rw [if_pos hp, if_pos (hpq a b hab hp)]
        exact Nat.succ_le_succ ih
      · rw [if_neg hp]
        exact Nat.le_add_right_of_le ih

namespace CpioFs

section Counts

variable {vol : Volume σ} {s s' : CpioFs σ} {f : Nat} {es : List Entry}

/-- A file has an entry of its own, and one for each link to it. -/
theorem Archive.links_lt (h : Archive s es) (hf : f ∈ s.tree.nodesByType .file) :
    (s.tree.nodesByType .hardLink).countP (fun n => s.links.resolved n = some f) <
      es.countP fun e => e.inodeNum = s.inodes.inodeNum f := by
  have hlinked : (s.tree.nodesByType .hardLink).countP (fun n => s.links.resolved n = some f) ≤
      h.linked.countP fun e => e.inodeNum = s.inodes.inodeNum f := by
    apply countP_le_of_forall₂ h.linked_entries
    rintro n e ⟨tgt, hresolved, -, he⟩ hn
    have htgt : s.links.resolved n = some f := of_decide_eq_true hn
    rw [hresolved, Option.some.injEq] at htgt
    rw [decide_eq_true_eq, he.inodeNum, htgt]
  have hself : ∀ {files : List Nat} {own : List Entry}, List.Forall₂ s.IsEntry files own →
      f ∈ files → 0 < own.countP fun e => e.inodeNum = s.inodes.inodeNum f := by
    intro files own hown hmem
    have hle := countP_le_of_forall₂ (p := fun n => n = f)
      (q := fun e => e.inodeNum = s.inodes.inodeNum f) hown (by
        intro n e he hn
        rw [decide_eq_true_eq, he.inodeNum, of_decide_eq_true hn])
    exact Nat.lt_of_lt_of_le (List.countP_pos_iff.2 ⟨f, hmem, decide_eq_true rfl⟩) hle
  have hown : 0 < h.headers.countP (fun e => e.inodeNum = s.inodes.inodeNum f) +
      h.empty.countP fun e => e.inodeNum = s.inodes.inodeNum f := by
    by_cases hsize : s.physicalSize f = 0
    · have hpos := hself h.empty_entries (List.mem_filter.2 ⟨hf, decide_eq_true hsize⟩)
      omega
    · have hpos := hself h.header_entries (List.mem_filter.2 ⟨hf, decide_eq_true hsize⟩)
      omega
  rw [h.entries_eq]
  simp only [List.countP_append]
  omega

/-- The entry of a file is in the archive. -/
theorem Archive.exists_entry (h : Archive s es) (hf : f ∈ s.tree.nodesByType .file) :
    ∃ e ∈ es, s.IsEntry f e := by
  have hself : ∀ {files : List Nat} {own : List Entry}, List.Forall₂ s.IsEntry files own →
      f ∈ files → ∃ e ∈ own, s.IsEntry f e := by
    intro files own hown hmem
    obtain ⟨i, hi, rfl⟩ := List.getElem_of_mem hmem
    have hi' : i < own.length := hown.length_eq ▸ hi
    exact ⟨own[i], List.getElem_mem hi', List.forall₂_iff_get.1 hown |>.2 i hi hi'⟩
  rw [h.entries_eq]
  simp only [List.mem_append]
  by_cases hsize : s.physicalSize f = 0
  · obtain ⟨e, he, hentry⟩ := hself h.empty_entries
      (List.mem_filter.2 ⟨hf, decide_eq_true hsize⟩)
    exact ⟨e, Or.inr he, hentry⟩
  · obtain ⟨e, he, hentry⟩ := hself h.header_entries
      (List.mem_filter.2 ⟨hf, decide_eq_true hsize⟩)
    exact ⟨e, Or.inl (Or.inr he), hentry⟩

/-- Without regular files there is no entry of one. -/
theorem Archive.no_file (h : Archive s es) (ht : Linked s.tree)
    (hresolved : ∀ n ∈ s.tree.nodesByType .hardLink, ∀ tgt,
      s.links.resolved n = some tgt → tgt < s.tree.count)
    (hnone : s.tree.nodesByType .file = []) : ∀ e ∈ es, e.type ≠ .file := by
  have hempty : ∀ {p : Nat → Bool} {own : List Entry},
      List.Forall₂ s.IsEntry ((s.tree.nodesByType .file).filter p) own → own = [] := by
    intro p own hown
    rw [hnone, List.filter_nil] at hown
    exact List.forall₂_nil_left_iff.1 hown
  intro e he
  rw [h.entries_eq, hempty h.header_entries, hempty h.empty_entries, List.append_nil,
    List.append_nil, List.mem_append] at he
  cases he with
  | inl hother => exact h.others_type e hother
  | inr hlinked =>
      obtain ⟨i, hi, rfl⟩ := List.getElem_of_mem hlinked
      have hi' : i < (s.tree.nodesByType .hardLink).length := h.linked_entries.length_eq ▸ hi
      obtain ⟨tgt, htgt, htype, -⟩ := List.forall₂_iff_get.1 h.linked_entries |>.2 i hi' hi
      have hlt := hresolved _ (List.getElem_mem hi') tgt htgt
      have hmem := (ht.mem_byType .file tgt).2 ⟨hlt, htype⟩
      rw [hnone] at hmem
      cases hmem

/-- The entry of a regular file has fewer links than there are entries of its inode. -/
theorem file_links_lt (ht : Linked s.tree) (hcount : ∀ n, s.links.linkCount n = 0)
    (hwritten : s.written = []) (h : buildFormat vol s = .ok () s')
    (hf : f ∈ s.tree.nodesByType .file) :
    ∃ e ∈ s'.written, e.type = .file ∧
      e.linkCount.toNat < s'.written.countP fun e' => e'.inodeNum = e.inodeNum := by
  obtain ⟨s₁, es, hprepared, hes, ⟨harchive⟩⟩ := buildFormat_ok ht h
  have ht₁ := (hprepared.linked ht).1
  obtain ⟨-, hresolved, hlinks⟩ := resolveHardLinks_ok ht₁ hprepared.links
  rw [hwritten, List.nil_append] at hes
  have hf₁ := (hprepared.mem_byType ht).2 hf
  obtain ⟨e, he, hentry⟩ := harchive.exists_entry hf₁
  have htype : e.type = .file := by
    rw [hentry.type]
    exact hprepared.file_type ht f hf₁
  have hlt := harchive.links_lt hf₁
  have hsame : (s₁.tree.nodesByType .hardLink).countP
      (fun n => s₁.links.resolved n = some f) = s₁.tree.linksTo f := by
    rw [linksTo]
    apply List.countP_congr
    intro n hn
    simp only [decide_eq_true_eq]
    exact hresolved n hn f
  have hnum : (s₁.links.linkCount f).toNat ≤ s₁.tree.linksTo f := by
    rw [hlinks f, hcount]
    exact Nat.le_trans (Nat.mod_le _ _) (Nat.le_of_eq (Nat.zero_add _))
  rw [hes]
  refine ⟨e, he, htype, ?_⟩
  simp only [hentry.inodeNum, hentry.linkCount]
  omega

/-- The number of links in the entry of a regular file is that of the entries of its inode, for
every one of them, just where there is no regular file: the entry of the file itself is not
counted. -/
theorem nlink_exact_iff (ht : Linked s.tree) (hcount : ∀ n, s.links.linkCount n = 0)
    (hwritten : s.written = []) (h : buildFormat vol s = .ok () s') :
    (∀ e ∈ s'.written, e.type = .file →
        e.linkCount.toNat = s'.written.countP fun e' => e'.inodeNum = e.inodeNum) ↔
      s.tree.nodesByType .file = [] := by
  constructor
  · intro hexact
    apply List.eq_nil_iff_forall_not_mem.2
    intro f hf
    obtain ⟨e, he, htype, hlt⟩ := file_links_lt ht hcount hwritten h hf
    exact Nat.ne_of_lt hlt (hexact e he htype)
  · intro hnone e he htype
    obtain ⟨s₁, es, hprepared, hes, ⟨harchive⟩⟩ := buildFormat_ok ht h
    have ht₁ := (hprepared.linked ht).1
    obtain ⟨-, hresolved, -⟩ := resolveHardLinks_ok ht₁ hprepared.links
    have hnone₁ : s₁.tree.nodesByType .file = [] := by
      apply List.eq_nil_iff_forall_not_mem.2
      intro f hf
      rw [hprepared.mem_byType ht, hnone] at hf
      cases hf
    have hlt : ∀ n ∈ s₁.tree.nodesByType .hardLink, ∀ tgt,
        s₁.links.resolved n = some tgt → tgt < s₁.tree.count := by
      intro n hn tgt htgt
      exact ht₁.chainEnds_lt ((ht₁.mem_byType .hardLink n).1 hn).1 ((hresolved n hn tgt).1 htgt)
    rw [hes, hwritten, List.nil_append] at he
    exact absurd htype (harchive.no_file ht₁ hlt hnone₁ e he)

end Counts

end CpioFs

/-! ## An archive of one empty file -/

/-- A stream that takes what fits into `room` bytes. -/
def HasRoom {τ : Type} (strm : Ostream τ) (pos : τ → Nat) (room : Nat) : Prop :=
  ∀ w data, pos w + data.length ≤ room →
    ∃ w', strm.append data w = .ok () w' ∧ pos w' = pos w + data.length

theorem nullOstream_hasRoom : HasRoom nullOstream id (2 ^ 64 - 1) := by
  intro w data hroom
  refine ⟨_, rfl, ?_⟩
  exact u64_of_lt (Nat.lt_of_le_of_lt hroom (by decide))

section Room

variable {σ τ : Type} {vol : Volume σ} {view : σ → Bytes} {count : Nat} {strm : Ostream τ}
  {pos : τ → Nat} {room : Nat}

theorem volumeOstream_hasRoom (hv : BlockStore vol count view) (hcount : count ≤ 2 ^ 64)
    {offset maxSize : Nat} (hmax : maxSize < 2 ^ 64) (hroom : room ≤ maxSize)
    (hin : offset + room ≤ count * vol.blocksize) (h64 : offset + room ≤ 2 ^ 64) :
    HasRoom (volumeOstream vol offset maxSize) VolOstream.written room := by
  intro w data hdata
  have hsize : (StreamOp.append data).size = data.length := rfl
  obtain ⟨w', hstep, hwritten, -⟩ := @volStep_ok _ _ _ _ offset maxSize w (.append data) hv hcount
    hmax (by omega) (by omega) (by omega)
  exact ⟨w', hstep, hwritten⟩

theorem HasRoom.appendAll (h : HasRoom strm pos room) {pieces : List (List UInt8)} {w : τ}
    (hroom : pos w + piecesLength pieces ≤ room) :
    ∃ w', appendAll strm pieces w = .ok () w' ∧ pos w' = pos w + piecesLength pieces := by
  induction pieces generalizing w with
  | nil => exact ⟨w, rfl, rfl⟩
  | cons data pieces ih =>
      have hlength : piecesLength (data :: pieces) = data.length + piecesLength pieces := rfl
      obtain ⟨w₁, hfirst, hpos₁⟩ := h w data (by omega)
      obtain ⟨w', hrest, hpos⟩ := @ih w₁ (by omega)
      refine ⟨w', ?_, by omega⟩
      rw [Cpio.appendAll, Call.bind_apply, hfirst]
      exact hrest

end Room

/-- A tree with an empty file `a`. -/
def emptyFile : NodeTree := ((AddOp.file [97]).run create).1

theorem emptyFile_eq : emptyFile.count = 2 ∧ emptyFile.nodesByType .file = [1] ∧
    emptyFile.nodesByType .hardLink = [] ∧ emptyFile.getPath 0 = some [slash] ∧
    emptyFile.getPath 1 = some [slash, 97] := by
  rw [emptyFile, AddOp.run_eq, mknodeAt, nodeFromPath_eq]
  exact ⟨rfl, rfl, rfl, rfl, rfl⟩

theorem emptyFile_node : (emptyFile.node 0).type = .dir ∧ (emptyFile.node 0).mtime = 0 ∧
    (emptyFile.node 1).type = .file ∧ (emptyFile.node 1).mtime = 0 := by
  rw [emptyFile, AddOp.run_eq, mknodeAt, nodeFromPath_eq]
  exact ⟨rfl, rfl, rfl, rfl⟩

theorem emptyFile_linked : Linked emptyFile := (Reachable.create.run (.file [97])).linked

namespace CpioFs

/-- What `filesystem_cpio_create` makes, and the file added to it. -/
def withEmptyFile {σ : Type} (v : σ) : CpioFs σ where
  tree := emptyFile
  place := fun _ => 0
  links := ⟨fun _ => none, fun _ => 0⟩
  inodes := ⟨fun _ => 0, 0, []⟩
  fstree := ⟨v, 0, true, [⟨0, 0, []⟩]⟩
  written := []

/-- The tree has a root and a file without data, with headers of 112 bytes each. -/
structure OneFile {σ : Type} (s : CpioFs σ) : Prop where
  root_type : (s.tree.node 0).type = .dir
  file_type : (s.tree.node 1).type = .file
  links : s.tree.nodesByType .hardLink = []
  files : s.tree.nodesByType .file = [1]
  root : (s.entry 0 0 false).map (fun e => piecesLength e.pieces) = some 112
  file : (s.entry 1 1 false).map (fun e => piecesLength e.pieces) = some 112
  size : s.physicalSize 1 = 0

section EmptyFile

variable {σ τ : Type} {vol : Volume σ} {view : σ → Bytes} {count room : Nat} {strm : Ostream τ}
  {pos : τ → Nat} {s s' : CpioFs σ} {w : Sink τ}

theorem HasRoom.writeNode (h : HasRoom strm pos room) {n link : Nat} {hardlink : Bool} {e : Entry}
    (he : s.entry n link hardlink = some e)
    (hroom : pos w.stream + piecesLength e.pieces ≤ room) :
    ∃ w', writeNode strm s n link hardlink w = .ok () w' ∧
      pos w'.stream = pos w.stream + piecesLength e.pieces := by
  obtain ⟨stream, hstream, hpos⟩ := h.appendAll hroom
  rw [← cpioWriteHeader_eq] at hstream
  unfold CpioFs.writeNode
  simp only [he, Call.bind_apply, Call.zoom_apply, hstream, Outcome.mapState_ok, Outcome.bind_ok,
    Call.modify_apply]
  refine ⟨_, rfl, ?_⟩
  split <;> exact hpos

theorem OneFile.same (h : OneFile s) (hsame : SameTree s s') : OneFile s' where
  root_type := by rw [hsame.tree, h.root_type]
  file_type := by rw [hsame.tree, h.file_type]
  links := by rw [hsame.tree, h.links]
  files := by rw [hsame.tree, h.files]
  root := (hsame.entry_length 0).trans h.root
  file := (hsame.entry_length 1).trans h.file
  size := by rw [hsame.physicalSize, h.size]

theorem OneFile.writeTree (h : OneFile s) (htable : s.inodes.inodeTable = [some 0, some 1])
    (hstrm : HasRoom strm pos room) (hroom : pos w.stream + 112 ≤ room) :
    ∃ w', writeTree strm s w = .ok () w' ∧ pos w'.stream = pos w.stream + 112 := by
  obtain ⟨e, he, hlength⟩ := Option.map_eq_some_iff.1 h.root
  rw [← hlength] at hroom
  obtain ⟨w', hwrite, hpos⟩ := HasRoom.writeNode hstrm he hroom
  have hroot : (s.tree.node 0).type ≠ .file := by
    rw [h.root_type]
    decide
  refine ⟨w', ?_, by rw [hpos, hlength]⟩
  unfold CpioFs.writeTree
  rw [Call.bind_apply, htable, h.links, writeInodes, Call.bind_apply, Call.guard_pos hroot, hwrite,
    Outcome.bind_ok, writeInodes, Call.bind_apply, Call.guard_neg (not_not.2 h.file_type)]
  rfl

theorem OneFile.writtenSize (h : OneFile s) (htable : s.inodes.inodeTable = [some 0, some 1]) :
    writtenSize CpioFs.writeTree s = .ok 112 s := by
  obtain ⟨w, hwrite, hpos⟩ := h.writeTree htable nullOstream_hasRoom
    (w := ⟨0, []⟩) (by decide)
  have hstream : w.stream = 112 := hpos
  unfold CpioFs.writtenSize
  simp only [hwrite, hstream]

/-- A stream into the adapter takes what fits onto the volume. -/
theorem adapter_hasRoom (hv : BlockStore vol count view) (hcount : count < 2 ^ 64)
    (hfits : 624 ≤ (adapter vol).convBlkCount count * blocksize) {offset maxSize : Nat}
    (hmax : maxSize < 2 ^ 64) (hroom : room ≤ maxSize) (hin : offset + room ≤ 624) :
    HasRoom (volumeOstream (adapter vol).volume offset maxSize) VolOstream.written room := by
  have hpos : 0 < (adapter vol).convBlkCount count := by
    apply Nat.pos_of_ne_zero
    intro hzero
    rw [hzero, Nat.zero_mul] at hfits
    omega
  have hwindow : 0 + (adapter vol).convBlkCount count * 4 < 2 ^ 64 :=
    ((adapter vol).window_le count hpos).2
  have hstore := @Adapter.blockStore _ (adapter vol) _ _ hv hcount (Nat.succ_pos 3)
    (show 4 < 2 ^ 32 by decide)
  exact volumeOstream_hasRoom hstore (by omega) hmax hroom (Nat.le_trans hin hfits)
    (Nat.le_trans hin (by decide))

/-- The file without data, and the trailer behind it. -/
theorem OneFile.writeEnd (h : OneFile s) (hv : BlockStore vol count view) (hcount : count < 2 ^ 64)
    (hfits : 624 ≤ (adapter vol).convBlkCount count * blocksize)
    (hoffset : s.fstree.dataOffset = 28) : ∃ s', writeEnd vol s = .ok () s' := by
  have hstart : u64 (s.fstree.dataOffset * blocksize) = 112 := by
    rw [hoffset]
    rfl
  have hstrm : HasRoom (volumeOstream (adapter vol).volume 112 0xFFFFFFFFFFFFFFFF)
      VolOstream.written 512 :=
    adapter_hasRoom hv hcount hfits (by decide) (by decide) (by decide)
  obtain ⟨e, he, hlength⟩ := Option.map_eq_some_iff.1 h.file
  have hfile : (⟨⟨s.fstree.volume, 0⟩, s.written⟩ : Sink (VolOstream σ)).stream.written +
      piecesLength e.pieces ≤ 512 := by
    rw [hlength]
    exact Nat.le_of_ble_eq_true rfl
  obtain ⟨w₁, hwrite, hpos⟩ := HasRoom.writeNode hstrm he hfile
  have hwritten : w₁.stream.written = 112 := by
    rw [hpos, hlength]
  have htrailer : w₁.stream.written + piecesLength (trailerPieces 112) ≤ 512 := by
    rw [hwritten, piecesLength_trailer]
    exact Nat.le_of_ble_eq_true rfl
  obtain ⟨stream, hstream, -⟩ := hstrm.appendAll htrailer
  rw [← cpioWriteTrailer_eq] at hstream
  unfold CpioFs.writeEnd
  rw [Call.bind_apply, Call.get_apply, Outcome.bind_ok, hstart]
  unfold CpioFs.onStream
  beta_reduce
  rw [Call.bind_apply, h.files, appendZeroSizeFiles, Call.bind_apply, Call.guard_pos h.size, hwrite,
    Outcome.bind_ok, appendZeroSizeFiles, Call.pure_apply, Outcome.bind_ok, Call.zoom_apply,
    hstream]
  exact ⟨_, rfl⟩

theorem OneFile.prepared (h : OneFile s) (ht : Linked s.tree) (hprepared : Prepared s s') :
    OneFile s' where
  root_type := by rw [(hprepared.linked ht).2.type, h.root_type]
  file_type := by rw [(hprepared.linked ht).2.type, h.file_type]
  links := by
    have hperm := hprepared.perm_byType ht .hardLink
    rw [h.links] at hperm
    exact hperm.eq_nil
  files := by
    have hperm := hprepared.perm_byType ht .file
    rw [h.files] at hperm
    exact List.perm_singleton.1 hperm
  root := (hprepared.entry_length ht 0).trans h.root
  file := (hprepared.entry_length ht 1).trans h.file
  size := by rw [hprepared.physicalSize, h.size]

/-- The headers of the root and of the file are as long as their names make them. -/
theorem withEmptyFile_oneFile (v : σ) : OneFile (withEmptyFile v) := by
  obtain ⟨-, hfiles, hlinks, hpath₀, hpath₁⟩ := emptyFile_eq
  obtain ⟨htype₀, hmtime₀, htype₁, hmtime₁⟩ := emptyFile_node
  have hentry : ∀ n path, emptyFile.getPath n = some path →
      (emptyFile.node n).type ≠ .hardLink → (emptyFile.node n).type ≠ .symlink →
      (emptyFile.node n).mtime = 0 → ∀ len,
      110 + ((cstrBytes (canonicalizePath path)
          (u32 (u32 (canonicalizePath path).length + 1))).length +
        piecesLength (paddingPieces (u32 (u32 (canonicalizePath path).length + (1 + 110))))) =
        len →
      ((withEmptyFile v).entry n n false).map (fun e => piecesLength e.pieces) = some len := by
    intro n path hpath hlink hsymlink hmtime len hlen
    have hpath' : (withEmptyFile v).tree.getPath n = some path := hpath
    unfold CpioFs.entry
    rw [hpath', Option.map_some, Option.map_some, piecesLength_plain hlink hsymlink hmtime]
    exact congrArg some hlen
  constructor
  · exact htype₀
  · exact htype₁
  · exact hlinks
  · exact hfiles
  · exact hentry 0 _ hpath₀ (by rw [htype₀]; decide) (by rw [htype₀]; decide) hmtime₀ 112
      (by decide)
  · exact hentry 1 _ hpath₁ (by rw [htype₁]; decide) (by rw [htype₁]; decide) hmtime₁ 112
      (by decide)
  · rfl

/-- Sorting, resolving and numbering the tree with an empty file. -/
theorem withEmptyFile_prepared (v : σ) : ∃ s', Prepared (withEmptyFile v) s' ∧
    s'.inodes.inodeTable = [some 0, some 1] := by
  obtain ⟨hcount, -, hlinks, -, -⟩ := emptyFile_eq
  obtain ⟨t₁, hsort, ht₁, hre⟩ := exists_sort emptyFile_linked
  have hlinks₁ : t₁.nodesByType .hardLink = [] := by
    apply List.eq_nil_iff_forall_not_mem.2
    intro i hi
    rw [ht₁.mem_byType, hre.count, hre.type, ← emptyFile_linked.mem_byType, hlinks] at hi
    cases hi
  have hresolve : resolveHardLinks ((t₁.nodesByType .hardLink).length + 1) t₁
      (withEmptyFile v).links = some ((withEmptyFile v).links, 0) := by
    rw [hlinks₁, resolveHardLinks, hlinks₁, lookupLinks]
    simp only [List.length_nil, followLinks, hlinks₁]
    rfl
  obtain ⟨list, hbelow, hnodup, hin⟩ := ht₁.exists_inodes
  have hroot : root ∉ list := (List.nodup_cons.1 hnodup).1
  have hone : list = [1] := by
    apply List.perm_singleton.1
    rw [List.perm_ext_iff_of_nodup (List.nodup_cons.1 hnodup).2 (List.nodup_singleton 1)]
    intro i
    have hmem := hin i
    rw [hre.count, hre.type, hcount, List.mem_cons] at hmem
    rw [List.mem_singleton]
    constructor
    · intro hi
      have hne : i ≠ 0 := by
        rintro rfl
        exact hroot hi
      have hlt := (hmem.1 (Or.inr hi)).1
      omega
    · rintro rfl
      have hfile : (emptyFile.node 1).type ≠ .hardLink := by
        rw [emptyFile_node.2.2.1]
        decide
      exact (hmem.2 ⟨by decide, hfile⟩).resolve_left (by decide)
  obtain ⟨inodes, hcreate, -, hnumbers⟩ :=
    ht₁.createInodeTable_eq hbelow (withEmptyFile v).inodes.inodeNum
  rw [hone] at hnumbers hnodup
  exact ⟨{ withEmptyFile v with tree := t₁, inodes := inodes },
    ⟨hsort, hresolve, hcreate, rfl, rfl, rfl⟩, (hnumbers (by decide) hnodup).2⟩

/-- The first gap of a volume that has no files on it. -/
theorem addGap_first (hv : BlockStore vol count view) (hcount : count < 2 ^ 64)
    (hfits : 624 ≤ (adapter vol).convBlkCount count * blocksize)
    (hoffset : s.fstree.dataOffset = 0) :
    ∃ s', onFstree (addGap (adapter vol).volume 0 112) s = .ok () s' ∧
      s'.fstree.dataOffset = 28 := by
  have hstore := @Adapter.blockStore _ (adapter vol) _ _ hv hcount (Nat.succ_pos 3)
    (show 4 < 2 ^ 32 by decide)
  have hblocks : 0 + 28 ≤ (adapter vol).convBlkCount count := by
    have hblock : blocksize = 4 := rfl
    rw [hblock] at hfits
    omega
  obtain ⟨v, hdiscard, -⟩ := hstore.discardBlocks s.fstree.volume 0 28 hblocks
  have hsize : gapSize (adapter vol).volume.blocksize 112 / (adapter vol).volume.blocksize =
      28 := by
    change gapSize 4 112 / 4 = 28
    decide
  have hinside : ¬ 0 < s.fstree.dataOffset := by
    rw [hoffset]
    exact Nat.lt_irrefl 0
  have hgap : addGap (adapter vol).volume 0 112 s.fstree =
      .ok () { s.fstree with volume := v, dataOffset := 28 } := by
    unfold addGap
    rw [if_neg (by decide), Call.bind_apply, Call.get_apply, Outcome.bind_ok, hsize,
      if_neg hinside, Call.bind_apply]
    exact congrArg (Outcome.mapState fun v => { s.fstree with volume := v, dataOffset := 28 })
      hdiscard
  refine ⟨_, congrArg (Outcome.mapState _) hgap, rfl⟩

/-- With room for it, the archive is built. -/
theorem buildFormat_withEmptyFile (hv : BlockStore vol count view) (hcount : count < 2 ^ 64)
    (hroom : 624 ≤ count * vol.blocksize) (v : σ) :
    ∃ s', buildFormat vol (withEmptyFile v) = .ok () s' := by
  have hfits : 624 ≤ (adapter vol).convBlkCount count * blocksize := by
    have hbytes : 624 ≤ sat64 (count * vol.blocksize) := by
      unfold sat64
      split
      · exact hroom
      · decide
    change 624 ≤ (if sat64 (count * vol.blocksize) < 0 then 0
      else (sat64 (count * vol.blocksize) - 0) / 4) * 4
    rw [if_neg (Nat.not_lt_zero _)]
    omega
  obtain ⟨s₁, hprepared, htable⟩ := withEmptyFile_prepared v
  have hone := (withEmptyFile_oneFile v).prepared emptyFile_linked hprepared
  have hstart : s₁.fstree.dataOffset = 0 := by rw [hprepared.fstree, withEmptyFile]
  obtain ⟨s₂, hgap, hoffset⟩ := addGap_first hv hcount hfits hstart
  have hsame := (addGap_ok hgap).1
  have hone₂ := hone.same hsame
  have htable₂ : s₂.inodes.inodeTable = [some 0, some 1] := by
    rw [hsame.inodes]
    exact htable
  have hstrm : HasRoom (volumeOstream (adapter vol).volume 0 112) VolOstream.written 112 :=
    adapter_hasRoom hv hcount hfits (by decide) (by decide) (by decide)
  obtain ⟨w, hwrite, -⟩ := hone₂.writeTree htable₂ hstrm
    (w := ⟨⟨s₂.fstree.volume, 0⟩, s₂.written⟩) (Nat.le_of_ble_eq_true rfl)
  have hfront : writeFront vol (withEmptyFile v) = .ok () { s₂ with
      fstree := { s₂.fstree with volume := w.stream.wrapped }
      written := w.entries } := by
    rw [hprepared.writeFront_eq, Call.bind_apply, hone.writtenSize htable, Outcome.bind_ok,
      Call.bind_apply, hgap, Outcome.bind_ok]
    unfold onStream
    rw [hwrite]
    rfl
  have hone₃ := hone₂.same (.of_files s₂ w.stream.wrapped s₂.fstree.dataOffset w.entries)
  obtain ⟨s', hend⟩ := hone₃.writeEnd hv hcount hfits hoffset
  refine ⟨s', ?_⟩
  unfold buildFormat
  rw [Call.bind_apply, hfront, Outcome.bind_ok, Call.bind_apply, Call.get_apply, Outcome.bind_ok,
    Call.bind_apply, hone₃.files, insertFileHeaders, Call.bind_apply, Call.get_apply,
    Outcome.bind_ok, Call.bind_apply, Call.guard_neg (not_not.2 hone₃.size)]
  exact hend

end EmptyFile

theorem withEmptyFile_built : ∃ s', buildFormat (idealVolume 512 2)
    (withEmptyFile (fun _ => 0)) = .ok () s' :=
  buildFormat_withEmptyFile (idealVolume_blockStore (Nat.succ_pos 511))
    (show 2 < 2 ^ 64 by decide) (show 624 ≤ 2 * 512 by decide) _

/-- The entry of a lone file counts no link. -/
theorem nlink_exact_empty_file : ∃ s', buildFormat (idealVolume 512 2)
      (withEmptyFile (fun _ => 0)) = .ok () s' ∧
    ((∀ e ∈ s'.written, e.type = .file →
        e.linkCount.toNat = s'.written.countP fun e' => e'.inodeNum = e.inodeNum) ↔
      emptyFile.nodesByType .file = []) := by
  obtain ⟨s', h⟩ := withEmptyFile_built
  exact ⟨s', h, nlink_exact_iff emptyFile_linked (fun _ => rfl) rfl h⟩

theorem not_nlink_exact : ∃ s', buildFormat (idealVolume 512 2)
      (withEmptyFile (fun _ => 0)) = .ok () s' ∧
    ∃ e ∈ s'.written, e.type = .file ∧
      e.linkCount.toNat ≠ s'.written.countP fun e' => e'.inodeNum = e.inodeNum := by
  obtain ⟨s', h⟩ := withEmptyFile_built
  have hmem : 1 ∈ (withEmptyFile (fun _ => 0 : Bytes)).tree.nodesByType .file := by
    rw [withEmptyFile, emptyFile_eq.2.1]
    exact List.mem_singleton.2 rfl
  obtain ⟨e, he, htype, hlt⟩ := file_links_lt emptyFile_linked (fun _ => rfl) rfl h hmem
  exact ⟨s', h, e, he, htype, Nat.ne_of_lt hlt⟩

end CpioFs

end ImageTool.Cpio