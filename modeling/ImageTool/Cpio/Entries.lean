import ImageTool.Cpio.Format
import ImageTool.Fstree.Layout
import ImageTool.Image.StreamRuns

/-!
# The entries of an archive

What a successful `cpio_build_format` has written: an entry for each node, and another one of the
same inode for each hard link.
-/

namespace ImageTool.Cpio

open ImageTool.Lib ImageTool.Image ImageTool.Fstream ImageTool.Fstree ImageTool.Fstree.NodeTree

namespace CpioFs

variable {σ τ α : Type}

/-- The entry of a node, whatever its path is. -/
structure IsEntry (s : CpioFs σ) (n : Nat) (e : Entry) : Prop where
  type : e.type = (s.tree.node n).type
  inodeNum : e.inodeNum = s.inodes.inodeNum n
  linkCount : e.linkCount = s.links.linkCount n

/-- Only where files lie has changed, what is on the volume, and the list of entries. -/
structure SameTree (s s' : CpioFs σ) : Prop where
  tree : s'.tree = s.tree
  place : s'.place = s.place
  links : s'.links = s.links
  inodes : s'.inodes = s.inodes
  files : ∃ g, Restarts g ∧ s'.fstree.files = s.fstree.files.map g

section Statements

variable {vol : Volume σ} {s s' s'' : CpioFs σ} {strm : Ostream τ} {w w' : Sink τ} {n link : Nat}
  {hardlink : Bool} {e : Entry}

/-! ## Single statements -/

theorem SameTree.of_files (s : CpioFs σ) (v : σ) (dataOffset : Nat) (es : List Entry) :
    SameTree s { s with
      fstree := { s.fstree with volume := v, dataOffset := dataOffset }, written := es } where
  tree := rfl
  place := rfl
  links := rfl
  inodes := rfl
  files := ⟨id, fun n => ⟨n.startIndex, rfl⟩, (List.map_id _).symm⟩

theorem SameTree.refl (s : CpioFs σ) : SameTree s s :=
  .of_files s s.fstree.volume s.fstree.dataOffset s.written

theorem SameTree.trans (h : SameTree s s') (h' : SameTree s' s'') : SameTree s s'' := by
  obtain ⟨g, hg, hfiles⟩ := h.files
  obtain ⟨g', hg', hfiles'⟩ := h'.files
  constructor
  · rw [h'.tree, h.tree]
  · rw [h'.place, h.place]
  · rw [h'.links, h.links]
  · rw [h'.inodes, h.inodes]
  · refine ⟨g' ∘ g, ?_, by rw [hfiles', hfiles, List.map_map]⟩
    intro n
    obtain ⟨start, hstart⟩ := hg n
    obtain ⟨start', hstart'⟩ := hg' (g n)
    exact ⟨start', by rw [Function.comp_apply, hstart', hstart]⟩

theorem SameTree.fileData (h : SameTree s s') (n : Nat) :
    ∃ start, s'.fileData n = { s.fileData n with startIndex := start } := by
  obtain ⟨g, hg, hfiles⟩ := h.files
  unfold CpioFs.fileData
  rw [h.place, hfiles, List.getElem?_map]
  cases s.fstree.files[s.place n]? with
  | none => exact ⟨0, rfl⟩
  | some file => exact hg file

theorem SameTree.physicalSize (h : SameTree s s') (n : Nat) :
    s'.physicalSize n = s.physicalSize n := by
  obtain ⟨start, hdata⟩ := h.fileData n
  unfold CpioFs.physicalSize
  rw [hdata]
  rfl

theorem SameTree.isEntry (h : SameTree s s') : s'.IsEntry n e ↔ s.IsEntry n e := by
  constructor
  · intro he
    constructor
    · rw [he.type, h.tree]
    · rw [he.inodeNum, h.inodes]
    · rw [he.linkCount, h.links]
  · intro he
    constructor
    · rw [he.type, h.tree]
    · rw [he.inodeNum, h.inodes]
    · rw [he.linkCount, h.links]

theorem entry_isEntry (h : s.entry n link hardlink = some e) : s.IsEntry n e := by
  obtain ⟨path, -, rfl⟩ := Option.map_eq_some_iff.1 h
  exact ⟨rfl, rfl, rfl⟩

theorem entry_length (hpath : s'.tree.getPath n = s.tree.getPath n)
    (htype : (s'.tree.node n).type = (s.tree.node n).type)
    (hmtime : (s'.tree.node n).mtime = (s.tree.node n).mtime)
    (htarget : (s'.tree.node n).target = (s.tree.node n).target) :
    (s'.entry n n false).map (fun e => piecesLength e.pieces) =
      (s.entry n n false).map fun e => piecesLength e.pieces := by
  unfold entry
  rw [hpath, Option.map_map, Option.map_map]
  congr 1
  funext path
  exact piecesLength_congr htype hmtime htarget rfl

theorem SameTree.entry_length (h : SameTree s s') (n : Nat) :
    (s'.entry n n false).map (fun e => piecesLength e.pieces) =
      (s.entry n n false).map fun e => piecesLength e.pieces := by
  apply CpioFs.entry_length
  · rw [h.tree]
  · rw [h.tree]
  · rw [h.tree]
  · rw [h.tree]

theorem writeNode_ok (h : writeNode strm s n link hardlink w = .ok () w') :
    ∃ e stream, s.entry n link hardlink = some e ∧
      cpioWriteHeader strm e w.stream = .ok () stream ∧
      w' = ⟨stream, if e.type = .hardLink then w.entries else w.entries ++ [e]⟩ := by
  unfold writeNode at h
  cases he : s.entry n link hardlink with
  | none =>
      rw [he] at h
      cases h
  | some e =>
      simp only [he] at h
      obtain ⟨_, w₁, hheader, hnote⟩ := Outcome.of_bind_eq_ok h
      obtain ⟨stream, hstream, rfl⟩ := Outcome.of_mapState_eq_ok hheader
      refine ⟨e, stream, rfl, hstream, ?_⟩
      rw [Call.modify_ok hnote]
      split <;> rfl

/-- A node that is no hard link gets one entry. -/
theorem writeNode_entries (h : writeNode strm s n link hardlink w = .ok () w')
    (htype : (s.tree.node n).type ≠ .hardLink) :
    ∃ e, w'.entries = w.entries ++ [e] ∧ s.IsEntry n e := by
  obtain ⟨e, stream, he, -, rfl⟩ := writeNode_ok h
  have hentry := entry_isEntry he
  refine ⟨e, ?_, hentry⟩
  rw [← hentry.type] at htype
  exact if_neg htype

/-! ## The loops -/

theorem writeInodes_entries {table : List (Option Nat)}
    (h : writeInodes strm s table w = .ok () w') :
    ∃ es, w'.entries = w.entries ++ es ∧ ∀ e ∈ es, e.type ≠ .file := by
  induction table generalizing w with
  | nil =>
      cases h
      exact ⟨[], (List.append_nil _).symm, fun e he => nomatch he⟩
  | cons first table ih =>
      cases first with
      | none => cases h
      | some n =>
          obtain ⟨_, w₁, hfirst, hrest⟩ := Outcome.of_bind_eq_ok h
          obtain ⟨es, hes, htypes⟩ := ih hrest
          by_cases hfile : (s.tree.node n).type = .file
          · rw [Call.guard_neg (not_not.2 hfile)] at hfirst
            cases hfirst
            exact ⟨es, hes, htypes⟩
          · rw [Call.guard_pos hfile] at hfirst
            obtain ⟨e, stream, he, -, rfl⟩ := writeNode_ok hfirst
            have htype : e.type ≠ .file := (entry_isEntry he).type ▸ hfile
            by_cases hlink : e.type = .hardLink
            · rw [if_pos hlink] at hes
              exact ⟨es, hes, htypes⟩
            · rw [if_neg hlink, List.append_assoc] at hes
              exact ⟨e :: es, hes, List.forall_mem_cons.2 ⟨htype, htypes⟩⟩

/-- Each hard link gets an entry of the file it leads to. -/
theorem writeLinks_entries {links : List Nat} (h : writeLinks strm s links w = .ok () w') :
    ∃ es, w'.entries = w.entries ++ es ∧
      List.Forall₂ (fun n e => ∃ tgt, s.links.resolved n = some tgt ∧
        (s.tree.node tgt).type = .file ∧ s.IsEntry tgt e) links es := by
  induction links generalizing w with
  | nil =>
      cases h
      exact ⟨[], (List.append_nil _).symm, .nil⟩
  | cons n links ih =>
      rw [writeLinks] at h
      cases hresolved : s.links.resolved n with
      | none =>
          rw [hresolved] at h
          cases h
      | some tgt =>
          simp only [hresolved, Call.ite_apply] at h
          split at h
          · cases h
          · rename_i hfile
            have htype := not_not.1 hfile
            obtain ⟨_, w₁, hfirst, hrest⟩ := Outcome.of_bind_eq_ok h
            have hlink : (s.tree.node tgt).type ≠ .hardLink := by
              rw [htype]
              decide
            obtain ⟨e, he, hentry⟩ := writeNode_entries hfirst hlink
            obtain ⟨es, hes, hall⟩ := ih hrest
            refine ⟨e :: es, ?_, .cons ⟨tgt, hresolved, htype, hentry⟩ hall⟩
            rw [hes, he, List.append_assoc]
            rfl

theorem writtenSize_ok {m : Ostream Nat → CpioFs σ → Call (Sink Nat) Unit} {size : Nat}
    (h : writtenSize m s = .ok size s') : s' = s := by
  unfold writtenSize at h
  split at h
  · cases h
    rfl
  · cases h
  · cases h

theorem onStream_ok {start size : Nat}
    {m : Ostream (VolOstream σ) → CpioFs σ → Call (Sink (VolOstream σ)) Unit}
    (h : onStream vol start size m s = .ok () s') :
    ∃ w, m (volumeOstream (adapter vol).volume start size) s ⟨⟨s.fstree.volume, 0⟩, s.written⟩ =
        .ok () w ∧ SameTree s s' ∧ s'.written = w.entries ∧
      s'.fstree.volume = w.stream.wrapped := by
  obtain ⟨w, hw, rfl⟩ := Outcome.of_mapState_eq_ok h
  exact ⟨w, hw, .of_files s _ _ _, rfl, rfl⟩

/-- A gap moves files. -/
theorem addGap_ok {index size : Nat}
    (h : onFstree (addGap (adapter vol).volume index size) s = .ok () s') :
    SameTree s s' ∧ s'.written = s.written := by
  obtain ⟨fs, hfs, rfl⟩ := Outcome.of_mapState_eq_ok h
  refine ⟨⟨rfl, rfl, rfl, rfl, ?_⟩, rfl⟩
  have hid : Restarts (id : FileNode → FileNode) := fun n => ⟨n.startIndex, rfl⟩
  have hself : ∃ g, Restarts g ∧ s.fstree.files = s.fstree.files.map g :=
    ⟨id, hid, (List.map_id _).symm⟩
  unfold addGap at hfs
  split at hfs
  · cases hfs
    exact hself
  · rw [Call.bind_apply, Call.get_apply, Outcome.bind_ok] at hfs
    obtain ⟨_, fs₁, hmove, hdiscard⟩ := Outcome.of_bind_eq_ok hfs
    obtain ⟨v, -, rfl⟩ := Outcome.of_mapState_eq_ok hdiscard
    rw [Call.ite_apply] at hmove
    split at hmove
    · obtain ⟨_, fs₂, hmemmove, hfiles⟩ := Outcome.of_bind_eq_ok hmove
      obtain ⟨v₂, -, rfl⟩ := Outcome.of_mapState_eq_ok hmemmove
      obtain ⟨_, fs₃, hupdate, hoffset⟩ := Outcome.of_bind_eq_ok hfiles
      have hfs₃ := Call.modify_ok hupdate
      have hfs₁ := Call.modify_ok hoffset
      subst hfs₃ hfs₁
      exact ⟨_, openGap_restarts _ _, rfl⟩
    · have hfs₁ := Call.modify_ok hmove
      subst hfs₁
      exact hself

/-- The header in front of a file. -/
theorem insertFileHeader_ok {fit : Nat} (h : insertFileHeader vol fit s = .ok () s')
    (htype : (s.tree.node fit).type = .file) :
    SameTree s s' ∧ ∃ e, s'.written = s.written ++ [e] ∧ s.IsEntry fit e := by
  obtain ⟨size, s₁, hsize, h₁⟩ := Outcome.of_bind_eq_ok h
  rw [writtenSize_ok hsize, Call.bind_apply, Call.get_apply, Outcome.bind_ok] at h₁
  obtain ⟨_, s₂, hgap, hwrite⟩ := Outcome.of_bind_eq_ok h₁
  obtain ⟨hsame, hwritten⟩ := addGap_ok hgap
  obtain ⟨w, hw, hsame', hentries, -⟩ := onStream_ok hwrite
  have hlink : (s₂.tree.node fit).type ≠ .hardLink := by
    rw [hsame.tree, htype]
    decide
  obtain ⟨e, he, hentry⟩ := writeNode_entries hw hlink
  refine ⟨hsame.trans hsame', e, ?_, hsame.isEntry.1 hentry⟩
  rw [hentries, he, hwritten]

theorem insertFileHeaders_ok {files : List Nat} (h : insertFileHeaders vol files s = .ok () s')
    (htypes : ∀ fit ∈ files, (s.tree.node fit).type = .file) :
    SameTree s s' ∧ ∃ es, s'.written = s.written ++ es ∧
      List.Forall₂ s.IsEntry (files.filter fun fit => s.physicalSize fit ≠ 0) es := by
  induction files generalizing s with
  | nil =>
      cases h
      exact ⟨.refl _, [], (List.append_nil _).symm, .nil⟩
  | cons fit files ih =>
      rw [List.forall_mem_cons] at htypes
      rw [insertFileHeaders, Call.bind_apply, Call.get_apply, Outcome.bind_ok] at h
      obtain ⟨_, s₁, hfirst, hrest⟩ := Outcome.of_bind_eq_ok h
      by_cases hsize : s.physicalSize fit = 0
      · rw [Call.guard_neg (not_not.2 hsize)] at hfirst
        cases hfirst
        have hskip : (fit :: files).filter (fun fit => s.physicalSize fit ≠ 0) =
            files.filter fun fit => s.physicalSize fit ≠ 0 :=
          List.filter_cons_of_neg (by simp [hsize])
        rw [hskip]
        exact ih hrest htypes.2
      · rw [Call.guard_pos hsize] at hfirst
        obtain ⟨hsame, e, hwritten, hentry⟩ := insertFileHeader_ok hfirst htypes.1
        have htypes₁ : ∀ fit ∈ files, (s₁.tree.node fit).type = .file := by
          rw [hsame.tree]
          exact htypes.2
        obtain ⟨hsame', es, hes, hall⟩ := ih hrest htypes₁
        have hkeep : (fit :: files).filter (fun fit => s.physicalSize fit ≠ 0) =
            fit :: files.filter fun fit => s.physicalSize fit ≠ 0 :=
          List.filter_cons_of_pos (by simp [hsize])
        simp only [hsame.physicalSize] at hall
        rw [hkeep]
        refine ⟨hsame.trans hsame', e :: es, ?_, .cons hentry ?_⟩
        · rw [hes, hwritten, List.append_assoc]
          rfl
        · exact hall.imp fun _ _ => hsame.isEntry.1

theorem appendZeroSizeFiles_entries {files : List Nat}
    (h : appendZeroSizeFiles strm s files w = .ok () w')
    (htypes : ∀ fit ∈ files, (s.tree.node fit).type = .file) :
    ∃ es, w'.entries = w.entries ++ es ∧
      List.Forall₂ s.IsEntry (files.filter fun fit => s.physicalSize fit = 0) es := by
  induction files generalizing w with
  | nil =>
      cases h
      exact ⟨[], (List.append_nil _).symm, .nil⟩
  | cons fit files ih =>
      rw [List.forall_mem_cons] at htypes
      obtain ⟨_, w₁, hfirst, hrest⟩ := Outcome.of_bind_eq_ok h
      obtain ⟨es, hes, hall⟩ := ih hrest htypes.2
      by_cases hsize : s.physicalSize fit = 0
      · have hkeep : (fit :: files).filter (fun fit => s.physicalSize fit = 0) =
            fit :: files.filter fun fit => s.physicalSize fit = 0 :=
          List.filter_cons_of_pos (by simp [hsize])
        have hlink : (s.tree.node fit).type ≠ .hardLink := by
          rw [htypes.1]
          decide
        rw [Call.guard_pos hsize] at hfirst
        obtain ⟨e, he, hentry⟩ := writeNode_entries hfirst hlink
        rw [hkeep]
        refine ⟨e :: es, ?_, .cons hentry hall⟩
        rw [hes, he, List.append_assoc]
        rfl
      · have hskip : (fit :: files).filter (fun fit => s.physicalSize fit = 0) =
            files.filter fun fit => s.physicalSize fit = 0 :=
          List.filter_cons_of_neg (by simp [hsize])
        rw [Call.guard_neg hsize] at hfirst
        cases hfirst
        rw [hskip]
        exact ⟨es, hes, hall⟩

/-! ## The whole call -/

/-- The tree is sorted, its links are resolved and its inodes numbered. -/
structure Prepared (s s' : CpioFs σ) : Prop where
  tree : s.tree.sort = some s'.tree
  links : resolveHardLinks ((s'.tree.nodesByType .hardLink).length + 1) s'.tree s.links =
    some (s'.links, 0)
  inodes : s'.tree.createInodeTable s.inodes.inodeNum = some s'.inodes
  place : s'.place = s.place
  fstree : s'.fstree = s.fstree
  written : s'.written = s.written

theorem resolveLinks_ok (h : resolveLinks s = .ok () s') : ∃ links,
    resolveHardLinks ((s.tree.nodesByType .hardLink).length + 1) s.tree s.links =
      some (links, 0) ∧ s' = { s with links := links } := by
  unfold resolveLinks at h
  split at h
  · cases h
  · rename_i links ret hresolve
    split at h
    · rename_i hret
      cases h
      rw [hret] at hresolve
      exact ⟨links, hresolve, rfl⟩
    · cases h

/-- What is written first: the nodes that are no files, and the hard links. -/
theorem writeFront_ok (h : writeFront vol s = .ok () s') :
    ∃ s₁, Prepared s s₁ ∧ SameTree s₁ s' ∧ ∃ others linked,
      s'.written = s.written ++ (others ++ linked) ∧ (∀ e ∈ others, e.type ≠ .file) ∧
      List.Forall₂ (fun n e => ∃ tgt, s₁.links.resolved n = some tgt ∧
        (s₁.tree.node tgt).type = .file ∧ s₁.IsEntry tgt e)
        (s₁.tree.nodesByType .hardLink) linked := by
  obtain ⟨_, t₁, hsort, h₁⟩ := Outcome.of_bind_eq_ok h
  obtain ⟨_, t₂, hresolve, h₂⟩ := Outcome.of_bind_eq_ok h₁
  obtain ⟨_, t₃, hnumber, h₃⟩ := Outcome.of_bind_eq_ok h₂
  obtain ⟨size, t₄, hsize, h₄⟩ := Outcome.of_bind_eq_ok h₃
  obtain ⟨_, t₅, hgap, hwrite⟩ := Outcome.of_bind_eq_ok h₄
  have hprepared : Prepared s t₃ := by
    obtain ⟨links, hlinks, rfl⟩ := resolveLinks_ok hresolve
    unfold sortTree at hsort
    split at hsort
    · rename_i tree htree
      cases hsort
      unfold numberInodes at hnumber
      split at hnumber
      · rename_i inodes hinodes
        cases hnumber
        exact ⟨htree, hlinks, hinodes, rfl, rfl, rfl⟩
      · cases hnumber
    · cases hsort
  rw [writtenSize_ok hsize] at hgap
  obtain ⟨hsame, hwritten⟩ := addGap_ok hgap
  obtain ⟨w, hw, hsame', hentries, -⟩ := onStream_ok hwrite
  obtain ⟨_, w₁, hinodes, hlinks⟩ := Outcome.of_bind_eq_ok hw
  obtain ⟨others, hothers, htypes⟩ := writeInodes_entries hinodes
  obtain ⟨linked, hlinked, hall⟩ := writeLinks_entries hlinks
  refine ⟨t₃, hprepared, hsame.trans hsame', others, linked, ?_, htypes, ?_⟩
  · rw [hentries, hlinked, hothers, hwritten, hprepared.written, List.append_assoc]
  · simp only [hsame.tree, hsame.links, hsame.isEntry] at hall
    exact hall

/-- What is written last: the files without data. -/
theorem writeEnd_ok (h : writeEnd vol s = .ok () s')
    (htypes : ∀ fit ∈ s.tree.nodesByType .file, (s.tree.node fit).type = .file) :
    SameTree s s' ∧ ∃ es, s'.written = s.written ++ es ∧
      List.Forall₂ s.IsEntry
        ((s.tree.nodesByType .file).filter fun fit => s.physicalSize fit = 0) es := by
  unfold writeEnd at h
  rw [Call.bind_apply, Call.get_apply, Outcome.bind_ok] at h
  obtain ⟨w, hw, hsame, hentries, -⟩ := onStream_ok h
  obtain ⟨_, w₁, hfiles, htrailer⟩ := Outcome.of_bind_eq_ok hw
  obtain ⟨stream, -, rfl⟩ := Outcome.of_mapState_eq_ok htrailer
  obtain ⟨es, hes, hall⟩ := appendZeroSizeFiles_entries hfiles htypes
  exact ⟨hsame, es, hentries.trans hes, hall⟩

/-- The entries of an archive. -/
structure Archive (s : CpioFs σ) (entries : List Entry) where
  others : List Entry
  linked : List Entry
  headers : List Entry
  empty : List Entry
  entries_eq : entries = others ++ linked ++ headers ++ empty
  others_type : ∀ e ∈ others, e.type ≠ .file
  linked_entries : List.Forall₂ (fun n e => ∃ tgt, s.links.resolved n = some tgt ∧
    (s.tree.node tgt).type = .file ∧ s.IsEntry tgt e) (s.tree.nodesByType .hardLink) linked
  header_entries : List.Forall₂ s.IsEntry
    ((s.tree.nodesByType .file).filter fun fit => s.physicalSize fit ≠ 0) headers
  empty_entries : List.Forall₂ s.IsEntry
    ((s.tree.nodesByType .file).filter fun fit => s.physicalSize fit = 0) empty

theorem Prepared.linked (h : Prepared s s') (ht : Linked s.tree) :
    Linked s'.tree ∧ Reordered s.tree s'.tree := by
  obtain ⟨t, hsort, hlinked, hre⟩ := exists_sort ht
  rw [h.tree] at hsort
  cases hsort
  exact ⟨hlinked, hre⟩

theorem Prepared.chainEnds (h : Prepared s s') (ht : Linked s.tree) {m : Nat} :
    s'.tree.ChainEnds n m ↔ s.tree.ChainEnds n m := sort_chainEnds ht h.tree

theorem Prepared.mem_byType (h : Prepared s s') (ht : Linked s.tree) {type : TreeNodeType} :
    n ∈ s'.tree.nodesByType type ↔ n ∈ s.tree.nodesByType type := by
  obtain ⟨ht', hre⟩ := h.linked ht
  rw [ht'.mem_byType, ht.mem_byType, hre.count, hre.type]

theorem Prepared.perm_byType (h : Prepared s s') (ht : Linked s.tree) (type : TreeNodeType) :
    (s'.tree.nodesByType type).Perm (s.tree.nodesByType type) := by
  have ht' := (h.linked ht).1
  rw [List.perm_ext_iff_of_nodup (ht'.byType_nodup _) (ht.byType_nodup _)]
  exact fun _ => h.mem_byType ht

theorem Prepared.file_type (h : Prepared s s') (ht : Linked s.tree) :
    ∀ fit ∈ s'.tree.nodesByType .file, (s'.tree.node fit).type = .file :=
  fun fit hfit => (((h.linked ht).1.mem_byType .file fit).1 hfit).2

theorem Prepared.physicalSize (h : Prepared s s') (n : Nat) :
    s'.physicalSize n = s.physicalSize n := by
  unfold CpioFs.physicalSize CpioFs.fileData
  rw [h.place, h.fstree]

/-- Sorting keeps the length of headers. -/
theorem Prepared.entry_length (h : Prepared s s') (ht : Linked s.tree) (n : Nat) :
    (s'.entry n n false).map (fun e => piecesLength e.pieces) =
      (s.entry n n false).map fun e => piecesLength e.pieces := by
  obtain ⟨cs, hnode⟩ := sort_node h.tree n
  apply CpioFs.entry_length
  · rw [(h.linked ht).2.getPath]
  · rw [hnode]
  · rw [hnode]
  · rw [hnode]

/-- If all chains of links end then there is nothing in front of writing that fails. -/
theorem exists_prepared (ht : Linked s.tree)
    (hends : ∀ n ∈ s.tree.nodesByType .hardLink, ∃ m, s.tree.ChainEnds n m) :
    ∃ s', Prepared s s' := by
  obtain ⟨tree, hsort, htree, hre⟩ := exists_sort ht
  have hends' : ∀ n ∈ tree.nodesByType .hardLink, ∃ m, tree.ChainEnds n m := by
    intro n hn
    rw [htree.mem_byType, hre.count, hre.type, ← ht.mem_byType] at hn
    obtain ⟨m, hm⟩ := hends n hn
    exact ⟨m, (sort_chainEnds ht hsort).2 hm⟩
  obtain ⟨links, ret, hresolve, hret, -⟩ :=
    resolveHardLinks_ends htree (htree.targetsExist hends') s.links
  obtain ⟨inodes, hinodes, -⟩ := htree.toIsTree.exists_createInodeTable s.inodes.inodeNum
  refine ⟨{ s with tree := tree, links := links, inodes := inodes }, ?_⟩
  refine ⟨hsort, ?_, hinodes, rfl, rfl, rfl⟩
  rw [hresolve _ (Nat.lt_succ_self _), hret.2 hends']

theorem Prepared.unique {s₁ s₂ : CpioFs σ} (h : Prepared s s₁) (h' : Prepared s s₂) :
    s₁ = s₂ := by
  obtain ⟨tree, place, links, inodes, fstree, written⟩ := s₁
  obtain ⟨tree', place', links', inodes', fstree', written'⟩ := s₂
  obtain rfl : tree = tree' := Option.some.inj (h.tree.symm.trans h'.tree)
  obtain rfl : links = links' := (Prod.mk.inj (Option.some.inj (h.links.symm.trans h'.links))).1
  obtain rfl : inodes = inodes' := Option.some.inj (h.inodes.symm.trans h'.inodes)
  obtain rfl : place = place' := h.place.trans h'.place.symm
  obtain rfl : fstree = fstree' := h.fstree.trans h'.fstree.symm
  obtain rfl : written = written' := h.written.trans h'.written.symm
  rfl

/-- What is left to do at the front of an archive. -/
theorem Prepared.writeFront_eq (h : Prepared s s') : writeFront vol s = (do
    let size ← writtenSize writeTree
    onFstree (addGap (adapter vol).volume 0 size)
    onStream vol 0 size writeTree : Call (CpioFs σ) Unit) s' := by
  have hsorted : sortTree s = .ok () { s with tree := s'.tree } := by
    unfold sortTree
    simp only [h.tree]
  have hresolved : resolveLinks { s with tree := s'.tree } =
      .ok () { s with tree := s'.tree, links := s'.links } := by
    unfold resolveLinks
    simp only [h.links, if_true]
  have hnumbered : numberInodes { s with tree := s'.tree, links := s'.links } = .ok () s' := by
    unfold numberInodes
    simp only [h.inodes, ← h.place, ← h.fstree, ← h.written]
  unfold writeFront
  rw [Call.bind_apply, hsorted, Outcome.bind_ok, Call.bind_apply, hresolved, Outcome.bind_ok,
    Call.bind_apply, hnumbered, Outcome.bind_ok]

/-- What is written in front of the files without data. -/
theorem buildFormat_parts (ht : Linked s.tree) (h : buildFormat vol s = .ok () s') :
    ∃ s₁ s₂ others linked headers, Prepared s s₁ ∧ SameTree s₁ s₂ ∧
      s₂.written = s.written ++ (others ++ linked ++ headers) ∧
      (∀ e ∈ others, e.type ≠ .file) ∧
      List.Forall₂ (fun n e => ∃ tgt, s₁.links.resolved n = some tgt ∧
        (s₁.tree.node tgt).type = .file ∧ s₁.IsEntry tgt e)
        (s₁.tree.nodesByType .hardLink) linked ∧
      List.Forall₂ s₁.IsEntry
        ((s₁.tree.nodesByType .file).filter fun fit => s₁.physicalSize fit ≠ 0) headers ∧
      writeEnd vol s₂ = .ok () s' := by
  obtain ⟨_, t₁, hfront, h₁⟩ := Outcome.of_bind_eq_ok h
  rw [Call.bind_apply, Call.get_apply, Outcome.bind_ok] at h₁
  obtain ⟨_, s₂, hheaders, hend⟩ := Outcome.of_bind_eq_ok h₁
  obtain ⟨s₁, hprepared, hsame₁, others, linked, hwritten₁, hothers, hlinked⟩ :=
    writeFront_ok hfront
  have hfiles : ∀ fit ∈ t₁.tree.nodesByType .file, (t₁.tree.node fit).type = .file := by
    rw [hsame₁.tree]
    exact hprepared.file_type ht
  obtain ⟨hsame₂, headers, hwritten₂, hheader⟩ := insertFileHeaders_ok hheaders hfiles
  simp only [hsame₁.tree, hsame₁.physicalSize] at hheader
  refine ⟨s₁, s₂, others, linked, headers, hprepared, hsame₁.trans hsame₂, ?_, hothers, hlinked,
    hheader.imp fun _ _ => hsame₁.isEntry.1, hend⟩
  rw [hwritten₂, hwritten₁, List.append_assoc]

theorem buildFormat_ok (ht : Linked s.tree) (h : buildFormat vol s = .ok () s') :
    ∃ s₁ es, Prepared s s₁ ∧ s'.written = s.written ++ es ∧ Nonempty (Archive s₁ es) := by
  obtain ⟨s₁, s₂, others, linked, headers, hprepared, hsame, hwritten, hothers, hlinked, hheader,
    hend⟩ := buildFormat_parts ht h
  have hfiles : ∀ fit ∈ s₂.tree.nodesByType .file, (s₂.tree.node fit).type = .file := by
    rw [hsame.tree]
    exact hprepared.file_type ht
  obtain ⟨-, empty, hwritten', hempty⟩ := writeEnd_ok hend hfiles
  simp only [hsame.tree, hsame.physicalSize] at hempty
  refine ⟨s₁, others ++ linked ++ headers ++ empty, hprepared, ?_,
    ⟨others, linked, headers, empty, rfl, hothers, hlinked, hheader,
      hempty.imp fun _ _ => hsame.isEntry.1⟩⟩
  rw [hwritten', hwritten, List.append_assoc]

end Statements

end CpioFs

end ImageTool.Cpio
