import ImageTool.Cpio.Entries
import ImageTool.Cpio.LinkCounts
import ImageTool.Cpio.Newc
import ImageTool.Fstree.Interleave

/-!
# The archive on the volume

What `cpio_build_format` leaves on the volume, byte by byte: the entries of everything that is no
file, those of the hard links, each file behind its header in the order in which the files lie, the
files without data and the trailer.  A reader of the format finds one member for each of them.
-/

namespace ImageTool.Cpio

open ImageTool.Lib ImageTool.Image ImageTool.Fstream ImageTool.Fstree ImageTool.Fstree.NodeTree

/-! ## Streams -/

section Streams

variable {σ : Type} {vol : Volume σ} {view : σ → Bytes} {count offset maxSize : Nat}
  {pieces : List (List UInt8)}

theorem appendAll_eq_runStream (pieces : List (List UInt8)) :
    appendAll (volumeOstream vol offset maxSize) pieces =
      runStream (volStep vol offset maxSize) (pieces.map StreamOp.append) := by
  induction pieces with
  | nil => rfl
  | cons data pieces ih =>
      rw [appendAll, List.map_cons, runStream, ih]
      rfl

theorem piecesLength_eq (pieces : List (List UInt8)) :
    piecesLength pieces = pieces.flatten.length := by
  rw [piecesLength, List.length_flatten]

theorem contents_append (pieces : List (List UInt8)) :
    Fstream.contents (pieces.map StreamOp.append) = pieces.flatten := by
  unfold Fstream.contents
  rw [List.flatMap_map]
  exact List.flatMap_id

theorem totalSize_append (pieces : List (List UInt8)) :
    totalSize (pieces.map StreamOp.append) = piecesLength pieces := by
  unfold totalSize piecesLength
  rw [List.map_map]
  rfl

/-- What is appended to a stream into a volume shows there, one piece behind the other. -/
theorem appendAll_shows (hv : BlockStore vol count view) (hcount : count ≤ 2 ^ 64)
    (hmax : maxSize < 2 ^ 64) (hroom : piecesLength pieces ≤ maxSize)
    (hin : offset + piecesLength pieces ≤ count * vol.blocksize)
    (h64 : offset + piecesLength pieces ≤ 2 ^ 64) (v : σ) :
    ∃ w, appendAll (volumeOstream vol offset maxSize) pieces ⟨v, 0⟩ = .ok () w ∧
      view w.wrapped = (view v).splice offset pieces.flatten := by
  rw [← totalSize_append] at hroom hin h64
  obtain ⟨w, hok, -, hview⟩ := volStream_shows hv hcount hmax hroom hin h64 v
  rw [contents_append] at hview
  exact ⟨w, by rw [appendAll_eq_runStream, hok], hview⟩

end Streams

namespace CpioFs

variable {σ τ : Type}

/-! ## What is written -/

/-- `entry` of a node whose path can be printed. -/
def nodeEntry (s : CpioFs σ) (n link : Nat) (hardlink : Bool) : Entry where
  type := (s.tree.node n).type
  permissions := (s.tree.node n).permissions
  inodeNum := s.inodes.inodeNum n
  uid := (s.tree.node n).uid
  gid := (s.tree.node n).gid
  linkCount := s.links.linkCount n
  mtime := (s.tree.node n).mtime
  fileSize := (s.fileData n).size
  deviceNumber := (s.tree.node n).deviceNumber
  target := (s.tree.node n).target
  path := canonicalizePath ((s.tree.getPath link).getD [])
  hardlink := hardlink

/-- The nodes that `write_tree` writes first. -/
def otherNodes (s : CpioFs σ) : List Nat :=
  s.inodes.inodeTable.reduceOption.filter fun n => (s.tree.node n).type ≠ .file

/-- The node a hard link has been resolved to. -/
def linkTarget (s : CpioFs σ) (n : Nat) : Nat := (s.links.resolved n).getD 0

/-- The entries of `write_tree`. -/
def treeEntries (s : CpioFs σ) : List Entry :=
  s.otherNodes.map (fun n => s.nodeEntry n n false) ++
    (s.tree.nodesByType .hardLink).map fun n => s.nodeEntry (s.linkTarget n) n true

/-- The files without data. -/
def emptyFiles (s : CpioFs σ) : List Nat :=
  (s.tree.nodesByType .file).filter fun fit => s.physicalSize fit = 0

/-- The files with data. -/
def fullFiles (s : CpioFs σ) : List Nat :=
  (s.tree.nodesByType .file).filter fun fit => s.physicalSize fit ≠ 0

/-- The header of a file. -/
def fileHeader (s : CpioFs σ) (fit : Nat) : List UInt8 := (s.nodeEntry fit fit false).pieces.flatten

section Run

variable {vol : Volume σ} {s s' s₁ : CpioFs σ} {strm : Ostream τ} {w : Sink τ} {stream : τ}
  {n link : Nat} {hardlink : Bool} {e : Entry}

theorem exists_getPath {t : NodeTree} (h : IsTree t) (hn : n < t.count) :
    ∃ path, t.getPath n = some path := by
  obtain ⟨path, hpath⟩ := h.exists_pathPrint hn
  have hprint := pathPrint_mono (show n + 1 ≤ t.count by omega) hpath
  unfold NodeTree.getPath
  cases (t.node n).parent with
  | none => exact ⟨_, rfl⟩
  | some p =>
      rw [pathLength_eq, hprint]
      exact ⟨path, if_pos (Nat.le_refl _)⟩

theorem entry_eq (h : IsTree s.tree) (hlink : link < s.tree.count) :
    s.entry n link hardlink = some (s.nodeEntry n link hardlink) := by
  obtain ⟨path, hpath⟩ := exists_getPath h hlink
  unfold entry nodeEntry
  rw [hpath]
  rfl

/-- Where files lie does not show in entries. -/
theorem SameTree.nodeEntry (h : SameTree s s') (n link : Nat) (hardlink : Bool) :
    s'.nodeEntry n link hardlink = s.nodeEntry n link hardlink := by
  obtain ⟨start, hdata⟩ := h.fileData n
  unfold CpioFs.nodeEntry
  rw [h.tree, h.inodes, h.links, hdata]

theorem writeNode_run (he : s.entry n link hardlink = some e) (htype : e.type ≠ .hardLink)
    (h : appendAll strm e.pieces w.stream = .ok () stream) :
    writeNode strm s n link hardlink w = .ok () ⟨stream, w.entries ++ [e]⟩ := by
  rw [← cpioWriteHeader_eq] at h
  unfold writeNode
  simp only [he, Call.bind_apply, Call.zoom_apply, h, Outcome.mapState_ok, Outcome.bind_ok,
    Call.modify_apply, if_neg htype]

/-- The pieces of one entry and of those behind it. -/
theorem appendAll_cons {es : List Entry}
    (h : appendAll strm ((e :: es).flatMap Entry.pieces) w.stream = .ok () stream) :
    ∃ t, appendAll strm e.pieces w.stream = .ok () t ∧
      appendAll strm (es.flatMap Entry.pieces) t = .ok () stream := by
  rw [List.flatMap_cons, appendAll_append] at h
  obtain ⟨_, t, hfirst, hrest⟩ := Outcome.of_bind_eq_ok h
  exact ⟨t, hfirst, hrest⟩

theorem writeInodes_run (ht : IsTree s.tree) (nodes : List Nat)
    (hnodes : ∀ n ∈ nodes, n < s.tree.count ∧ (s.tree.node n).type ≠ .hardLink)
    (h : appendAll strm (((nodes.filter fun n => (s.tree.node n).type ≠ .file).map fun n =>
      s.nodeEntry n n false).flatMap Entry.pieces) w.stream = .ok () stream) :
    writeInodes strm s (nodes.map some) w = .ok () ⟨stream, w.entries ++
      (nodes.filter fun n => (s.tree.node n).type ≠ .file).map fun n => s.nodeEntry n n false⟩ := by
  induction nodes generalizing w with
  | nil =>
      cases h
      rw [List.map_nil, List.filter_nil, List.map_nil, List.append_nil]
      rfl
  | cons n nodes ih =>
      rw [List.forall_mem_cons] at hnodes
      rw [List.map_cons, writeInodes, Call.bind_apply]
      by_cases hfile : (s.tree.node n).type = .file
      · rw [List.filter_cons_of_neg (by simp [hfile])] at h ⊢
        rw [Call.guard_neg (not_not.2 hfile)]
        exact ih hnodes.2 h
      · rw [List.filter_cons_of_pos (by simp [hfile]), List.map_cons] at h ⊢
        obtain ⟨t, hfirst, hrest⟩ := appendAll_cons h
        rw [Call.guard_pos hfile, writeNode_run (entry_eq ht hnodes.1.1) hnodes.1.2 hfirst,
          Outcome.bind_ok, ih hnodes.2 hrest, List.append_assoc]
        rfl

theorem writeLinks_run (ht : IsTree s.tree) (links : List Nat)
    (hlinks : ∀ n ∈ links, n < s.tree.count ∧ s.links.resolved n = some (s.linkTarget n) ∧
      (s.tree.node (s.linkTarget n)).type = .file)
    (h : appendAll strm ((links.map fun n =>
      s.nodeEntry (s.linkTarget n) n true).flatMap Entry.pieces) w.stream = .ok () stream) :
    writeLinks strm s links w = .ok () ⟨stream, w.entries ++
      links.map fun n => s.nodeEntry (s.linkTarget n) n true⟩ := by
  induction links generalizing w with
  | nil =>
      cases h
      rw [List.map_nil, List.append_nil]
      rfl
  | cons n links ih =>
      rw [List.forall_mem_cons] at hlinks
      obtain ⟨⟨hn, hresolved, htype⟩, hrest⟩ := hlinks
      rw [List.map_cons] at h ⊢
      obtain ⟨t, hfirst, hlast⟩ := appendAll_cons h
      have hfile : (s.nodeEntry (s.linkTarget n) n true).type ≠ .hardLink := by
        change (s.tree.node (s.linkTarget n)).type ≠ .hardLink
        rw [htype]
        decide
      rw [writeLinks, hresolved]
      simp only
      rw [if_neg (not_not.2 htype), Call.bind_apply, writeNode_run (entry_eq ht hn) hfile hfirst,
        Outcome.bind_ok, ih hrest hlast, List.append_assoc]
      rfl

theorem appendZeroSizeFiles_run (ht : IsTree s.tree) {files : List Nat}
    (hfiles : ∀ fit ∈ files, fit < s.tree.count ∧ (s.tree.node fit).type = .file)
    (h : appendAll strm (((files.filter fun fit => s.physicalSize fit = 0).map fun fit =>
      s.nodeEntry fit fit false).flatMap Entry.pieces) w.stream = .ok () stream) :
    appendZeroSizeFiles strm s files w = .ok () ⟨stream, w.entries ++
      (files.filter fun fit => s.physicalSize fit = 0).map fun fit =>
        s.nodeEntry fit fit false⟩ := by
  induction files generalizing w with
  | nil =>
      cases h
      rw [List.filter_nil, List.map_nil, List.append_nil]
      rfl
  | cons fit files ih =>
      rw [List.forall_mem_cons] at hfiles
      rw [appendZeroSizeFiles, Call.bind_apply]
      by_cases hsize : s.physicalSize fit = 0
      · rw [List.filter_cons_of_pos (by simp [hsize]), List.map_cons] at h ⊢
        obtain ⟨t, hfirst, hrest⟩ := appendAll_cons h
        have hfile : (s.nodeEntry fit fit false).type ≠ .hardLink := by
          change (s.tree.node fit).type ≠ .hardLink
          rw [hfiles.1.2]
          decide
        rw [Call.guard_pos hsize, writeNode_run (entry_eq ht hfiles.1.1) hfile hfirst,
          Outcome.bind_ok, ih hfiles.2 hrest, List.append_assoc]
        rfl
      · rw [List.filter_cons_of_neg (by simp [hsize])] at h ⊢
        rw [Call.guard_neg hsize]
        exact ih hfiles.2 h

/-! ## Writing into gaps -/

variable {view : σ → Bytes} {count : Nat} {order : List Nat} {front body : Nat → List UInt8}
  {lead : List UInt8}

theorem writtenSize_run {m : Ostream Nat → CpioFs σ → Call (Sink Nat) Unit}
    {pieces : List (List UInt8)} (hlt : piecesLength pieces < 2 ^ 64)
    (hm : ∀ stream, appendAll nullOstream pieces 0 = .ok () stream →
      ∃ es, m nullOstream s ⟨0, []⟩ = .ok () ⟨stream, es⟩) :
    writtenSize m s = .ok (piecesLength pieces) s := by
  have hroom : id 0 + piecesLength pieces ≤ 2 ^ 64 - 1 := by
    change 0 + piecesLength pieces ≤ 2 ^ 64 - 1
    omega
  obtain ⟨stream, hrun, hpos⟩ := nullOstream_hasRoom.appendAll hroom
  obtain ⟨es, hes⟩ := hm stream hrun
  have hstream : stream = piecesLength pieces := hpos.trans (Nat.zero_add _)
  unfold writtenSize
  rw [hes, hstream]

/-- Pieces are written to a place where they fit. -/
theorem onStream_run (hv : BlockStore (adapter vol).volume count view)
    (hlt : count * blocksize < 2 ^ 64) (s : CpioFs σ) (start size : Nat)
    (pieces : List (List UInt8)) (m : Ostream (VolOstream σ) → CpioFs σ →
      Call (Sink (VolOstream σ)) Unit) (hsize : size < 2 ^ 64) (hroom : piecesLength pieces ≤ size)
    (hin : start + piecesLength pieces ≤ count * blocksize)
    (hm : ∀ stream, appendAll (volumeOstream (adapter vol).volume start size) pieces
        ⟨s.fstree.volume, 0⟩ = .ok () stream →
      ∃ es, m (volumeOstream (adapter vol).volume start size) s ⟨⟨s.fstree.volume, 0⟩, s.written⟩ =
        .ok () ⟨stream, es⟩) :
    ∃ v es, onStream vol start size m s = .ok () { s with
        fstree := { s.fstree with volume := v }, written := es } ∧
      view v = (view s.fstree.volume).splice start pieces.flatten := by
  have hbytes : count * 4 < 2 ^ 64 := hlt
  have hcount : count ≤ 2 ^ 64 := by omega
  obtain ⟨stream, hrun, hview⟩ := appendAll_shows hv hcount hsize hroom hin (by omega)
    s.fstree.volume
  obtain ⟨es, hes⟩ := hm stream hrun
  refine ⟨stream.wrapped, es, ?_, hview⟩
  unfold onStream
  rw [hes]
  rfl

/-- What is left of a gap that is as large as what is written into it. -/
theorem filled_blocks {data : List UInt8} (hdata : data.length % blocksize = 0) :
    blockCount data.length blocksize * blocksize = data.length ∧
      filled data (blockCount data.length blocksize * blocksize) = data := by
  have hfour : data.length % 4 = 0 := hdata
  have hlength : blockCount data.length blocksize * blocksize = data.length := by
    unfold blockCount
    rw [if_pos hdata]
    change data.length / 4 * 4 = data.length
    omega
  refine ⟨hlength, ?_⟩
  unfold filled
  rw [hlength, Nat.sub_self]
  exact List.append_nil _

theorem sameTree_gap {fs' : Fstree σ}
    (hopened : ∃ g, Restarts g ∧ fs'.files = s.fstree.files.map g) (v : σ) (es : List Entry) :
    SameTree s { s with fstree := { fs' with volume := v }, written := es } :=
  ⟨rfl, rfl, rfl, rfl, hopened⟩

/-- A tree and its files that fit into an archive of this format. -/
structure Packable (s : CpioFs σ) : Prop where
  linked : Linked s.tree
  inodes : s.tree.inodes ≤ 2 ^ 32
  attributes : ∀ n < s.tree.count, (s.tree.node n).uid < 2 ^ 32 ∧ (s.tree.node n).gid < 2 ^ 32 ∧
    (s.tree.node n).mtime < 2 ^ 32 ∧ (s.tree.node n).target.length + 1 < 2 ^ 32
  paths : ∀ n < s.tree.count, ∀ path, s.tree.getPath n = some path →
    (canonicalizePath path).length + 111 < 2 ^ 32 ∧ canonicalizePath path ≠ cpioTrailer
  place_lt : ∀ fit ∈ s.tree.nodesByType .file, s.place fit < s.fstree.files.length
  place_inj : ∀ a ∈ s.tree.nodesByType .file, ∀ b ∈ s.tree.nodesByType .file,
    s.place a = s.place b → a = b
  place_onto : ∀ i < s.fstree.files.length, ∃ fit ∈ s.tree.nodesByType .file, s.place fit = i
  layout : LaidOut blocksize s.fstree
  full : Full blocksize s.fstree
  dense : ∀ n ∈ s.fstree.files, n.sparse = [] ∧ n.size < 2 ^ 32

theorem Packable.fileData (h : Packable s) (n : Nat) :
    (s.fileData n).sparse = [] ∧ (s.fileData n).size < 2 ^ 32 := by
  unfold CpioFs.fileData
  cases hfile : s.fstree.files[s.place n]? with
  | none => exact ⟨rfl, by decide⟩
  | some file => exact h.dense file (List.mem_of_getElem? hfile)

theorem Packable.fits (h : Packable s) (hn : n < s.tree.count) (hlink : link < s.tree.count) :
    (s.nodeEntry n link hardlink).Fits ∧ (s.nodeEntry n link hardlink).path ≠ cpioTrailer := by
  obtain ⟨huid, hgid, hmtime, htarget⟩ := h.attributes n hn
  obtain ⟨path, hpath⟩ := exists_getPath h.linked.toIsTree hlink
  obtain ⟨hlength, htrailer⟩ := h.paths link hlink path hpath
  have hname : (s.nodeEntry n link hardlink).path = canonicalizePath path := by
    unfold nodeEntry
    rw [hpath]
    rfl
  have hsize : (s.nodeEntry n link hardlink).size < 2 ^ 32 := by
    unfold Entry.size
    split
    · split
      · decide
      · exact (h.fileData n).2
    · exact htarget
    · decide
  rw [← hname] at hlength htrailer
  exact ⟨⟨huid, hgid, hmtime, hsize, hlength, htarget⟩, htrailer⟩

/-- The tree that is packed has the attributes of the one it is sorted from. -/
theorem Packable.prepared (h : Packable s) (hprepared : Prepared s s₁) : Packable s₁ := by
  obtain ⟨hlinked, hre⟩ := hprepared.linked h.linked
  have hmem : ∀ fit, fit ∈ s₁.tree.nodesByType .file ↔ fit ∈ s.tree.nodesByType .file :=
    fun fit => hprepared.mem_byType h.linked
  constructor
  · exact hlinked
  · have hsame : s₁.tree.inodes = s.tree.inodes := by
      unfold NodeTree.inodes
      simp only [hre.count, hre.type]
    rw [hsame]
    exact h.inodes
  · intro n hn
    obtain ⟨cs, hnode⟩ := sort_node hprepared.tree n
    rw [hnode]
    exact h.attributes n (hre.count ▸ hn)
  · intro n hn path hpath
    rw [hre.getPath] at hpath
    exact h.paths n (hre.count ▸ hn) path hpath
  · intro fit hfit
    rw [hprepared.place, hprepared.fstree]
    exact h.place_lt fit ((hmem fit).1 hfit)
  · intro a ha b hb hab
    rw [hprepared.place] at hab
    exact h.place_inj a ((hmem a).1 ha) b ((hmem b).1 hb) hab
  · intro i hi
    rw [hprepared.fstree] at hi
    obtain ⟨fit, hfit, hplace⟩ := h.place_onto i hi
    refine ⟨fit, (hmem fit).2 hfit, ?_⟩
    rw [hprepared.place, hplace]
  · rw [hprepared.fstree]
    exact h.layout
  · rw [hprepared.fstree]
    exact h.full
  · rw [hprepared.fstree]
    exact h.dense

/-- What stands in front of the files. -/
def treeBytes (s : CpioFs σ) : List UInt8 := (s.treeEntries.flatMap Entry.pieces).flatten

/-- An entry with what it is filled up with. -/
def stored (e : Entry) : Stored := ⟨e, e.ownData, padding e.ownData.length⟩

theorem flatten_flatMap_pieces {es : List Entry}
    (h : ∀ e ∈ es, e.Fits ∧ e.type ≠ .hardLink) :
    (es.flatMap Entry.pieces).flatten = (es.map stored).flatMap Stored.bytes := by
  induction es with
  | nil => rfl
  | cons e es ih =>
      rw [List.forall_mem_cons] at h
      rw [List.flatMap_cons, List.flatten_append, ih h.2, h.1.1.pieces h.1.2, List.map_cons,
        List.flatMap_cons]
      rfl

/-- The bytes of an entry are a multiple of four. -/
theorem length_stored (st : Stored) (hfits : st.entry.Fits)
    (hpad : st.pad.length = alignment st.data.length) : st.bytes.length % 4 = 0 := by
  have hheader := hfits.length_header
  unfold Stored.bytes Entry.head
  simp only [List.length_append, List.length_singleton, length_padding, hpad]
  unfold alignment
  omega

theorem length_flatMap_stored {entries : List Stored}
    (h : ∀ st ∈ entries, st.entry.Fits ∧ st.pad.length = alignment st.data.length) :
    (entries.flatMap Stored.bytes).length % 4 = 0 := by
  induction entries with
  | nil => rfl
  | cons st entries ih =>
      rw [List.forall_mem_cons] at h
      have hfirst := length_stored st h.1.1 h.1.2
      have hrest := ih h.2
      rw [List.flatMap_cons, List.length_append]
      omega

/-- The inode table names the nodes that are no hard links. -/
theorem Prepared.table (hprepared : Prepared s s₁) (hp : Packable s₁) : ∃ nodes : List Nat,
    s₁.inodes.inodeTable = nodes.map some ∧ nodes.Nodup ∧
      ∀ i, i ∈ nodes ↔ i < s₁.tree.count ∧ (s₁.tree.node i).type ≠ .hardLink := by
  obtain ⟨list, hlist, hnodup, hin⟩ := hp.linked.toIsTree.exists_inodes
  have hlength := length_inodes hnodup hin
  obtain ⟨table, hcreate, -, htable⟩ := hp.linked.toIsTree.createInodeTable_eq hlist
    s.inodes.inodeNum
  rw [hprepared.inodes] at hcreate
  cases hcreate
  exact ⟨root :: list, (htable (hlength.trans_le hp.inodes) hnodup).2, hnodup, hin⟩

theorem reduceOption_map_some {α : Type} (list : List α) : (list.map some).reduceOption = list := by
  unfold List.reduceOption
  rw [List.filterMap_map]
  exact List.filterMap_some

/-- Each hard link leads to a file. -/
def LinksToFiles (t : NodeTree) : Prop :=
  ∀ n ∈ t.nodesByType .hardLink, ∀ m, t.ChainEnds n m → (t.node m).type = .file

theorem Prepared.linkTarget (hprepared : Prepared s s₁) (hp : Packable s₁)
    (hlinks : LinksToFiles s₁.tree) : ∀ n ∈ s₁.tree.nodesByType .hardLink,
      n < s₁.tree.count ∧ s₁.links.resolved n = some (s₁.linkTarget n) ∧
        s₁.linkTarget n < s₁.tree.count ∧ (s₁.tree.node (s₁.linkTarget n)).type = .file := by
  intro n hn
  obtain ⟨hends, hresolved, -⟩ := resolveHardLinks_ok hp.linked hprepared.links
  obtain ⟨m, hm⟩ := hends n hn
  have hlink := (hresolved n hn m).2 hm
  have hcount := ((hp.linked.mem_byType .hardLink n).1 hn).1
  have htarget : s₁.linkTarget n = m := by
    unfold CpioFs.linkTarget
    rw [hlink]
    rfl
  rw [htarget]
  exact ⟨hcount, hlink, hp.linked.chainEnds_lt hcount hm, hlinks n hn m hm⟩

/-- Everything in front of the files fits into its fields. -/
theorem Prepared.treeEntries (hprepared : Prepared s s₁) (hp : Packable s₁)
    (hlinks : LinksToFiles s₁.tree) : ∀ e ∈ s₁.treeEntries,
      e.Fits ∧ e.path ≠ cpioTrailer ∧ e.type ≠ .hardLink := by
  obtain ⟨nodes, htable, -, hnodes⟩ := hprepared.table hp
  intro e he
  unfold CpioFs.treeEntries CpioFs.otherNodes at he
  rw [htable, reduceOption_map_some, List.mem_append, List.mem_map, List.mem_map] at he
  rcases he with ⟨n, hn, rfl⟩ | ⟨n, hn, rfl⟩
  · obtain ⟨hcount, htype⟩ := (hnodes n).1 (List.mem_filter.1 hn).1
    have hfits := @Packable.fits _ _ n n false hp hcount hcount
    exact ⟨hfits.1, hfits.2, htype⟩
  · obtain ⟨hcount, -, htarget, htype⟩ := hprepared.linkTarget hp hlinks n hn
    have hfits := @Packable.fits _ _ (s₁.linkTarget n) n true hp htarget hcount
    refine ⟨hfits.1, hfits.2, ?_⟩
    change (s₁.tree.node (s₁.linkTarget n)).type ≠ .hardLink
    rw [htype]
    decide

theorem Prepared.treeBytes (hprepared : Prepared s s₁) (hp : Packable s₁)
    (hlinks : LinksToFiles s₁.tree) :
    s₁.treeBytes = (s₁.treeEntries.map stored).flatMap Stored.bytes ∧
      s₁.treeBytes.length % blocksize = 0 := by
  have hall := hprepared.treeEntries hp hlinks
  have hbytes : s₁.treeBytes = (s₁.treeEntries.map stored).flatMap Stored.bytes :=
    flatten_flatMap_pieces fun e he => ⟨(hall e he).1, (hall e he).2.2⟩
  refine ⟨hbytes, ?_⟩
  rw [hbytes]
  apply length_flatMap_stored
  intro st hst
  obtain ⟨e, he, rfl⟩ := List.mem_map.1 hst
  exact ⟨(hall e he).1, length_padding _⟩

theorem writeTree_run (hprepared : Prepared s s₁) (hp : Packable s₁)
    (hlinks : LinksToFiles s₁.tree) {s₂ : CpioFs σ} (hsame : SameTree s₁ s₂)
    (h : appendAll strm (s₁.treeEntries.flatMap Entry.pieces) w.stream = .ok () stream) :
    writeTree strm s₂ w = .ok () ⟨stream, w.entries ++ s₁.treeEntries⟩ := by
  obtain ⟨nodes, htable, -, hnodes⟩ := hprepared.table hp
  have htargets := hprepared.linkTarget hp hlinks
  have ht : IsTree s₂.tree := by
    rw [hsame.tree]
    exact hp.linked.toIsTree
  have htarget : ∀ n, s₂.linkTarget n = s₁.linkTarget n := by
    intro n
    unfold CpioFs.linkTarget
    rw [hsame.links]
  unfold CpioFs.treeEntries CpioFs.otherNodes at h ⊢
  rw [htable, reduceOption_map_some] at h ⊢
  rw [List.flatMap_append, appendAll_append] at h
  obtain ⟨_, t, hfirst, hlast⟩ := Outcome.of_bind_eq_ok h
  unfold writeTree
  rw [hsame.inodes, htable, hsame.tree, Call.bind_apply]
  have hothers : writeInodes strm s₂ (nodes.map some) w = .ok () ⟨t, w.entries ++
      (nodes.filter fun n => (s₂.tree.node n).type ≠ .file).map fun n =>
        s₂.nodeEntry n n false⟩ := by
    apply writeInodes_run ht nodes
    · rw [hsame.tree]
      exact fun n hn => (hnodes n).1 hn
    · simp only [hsame.tree, hsame.nodeEntry]
      exact hfirst
  simp only [hsame.tree, hsame.nodeEntry] at hothers
  have hlinked : ∀ es, writeLinks strm s₂ (s₁.tree.nodesByType .hardLink) ⟨t, es⟩ =
      .ok () ⟨stream, es ++ (s₁.tree.nodesByType .hardLink).map fun n =>
        s₂.nodeEntry (s₂.linkTarget n) n true⟩ := by
    intro es
    apply writeLinks_run ht
    · intro n hn
      obtain ⟨hcount, hresolved, -, htype⟩ := htargets n hn
      rw [hsame.tree, hsame.links, htarget]
      exact ⟨hcount, hresolved, htype⟩
    · simp only [htarget, hsame.nodeEntry]
      exact hlast
  simp only [hsame.nodeEntry, htarget] at hlinked
  rw [hothers, Outcome.bind_ok, hlinked, List.append_assoc]

/-- The front of the archive. -/
theorem writeFront_run (hv : BlockStore (adapter vol).volume count view)
    (hlt : count * blocksize < 2 ^ 64) (hprepared : Prepared s s₁) (hp : Packable s₁)
    (hlinks : LinksToFiles s₁.tree)
    (hroom : s₁.treeBytes.length + s₁.fstree.dataOffset * blocksize ≤ count * blocksize) :
    ∃ s₂, writeFront vol s = .ok () s₂ ∧ SameTree s₁ s₂ ∧
      Interleaved (adapter vol).volume view s₁.treeBytes (fileRow blocksize s₁.fstree.files)
        (fun _ => []) (fileBlocks blocksize (view s₁.fstree.volume) s₁.fstree.files)
        s₂.fstree := by
  have hbytes := (hprepared.treeBytes hp hlinks).2
  obtain ⟨hlength, hfilled⟩ := filled_blocks hbytes
  have hpieces : piecesLength (s₁.treeEntries.flatMap Entry.pieces) = s₁.treeBytes.length :=
    piecesLength_eq _
  have hsize : writtenSize writeTree s₁ = .ok s₁.treeBytes.length s₁ := by
    rw [← hpieces]
    apply writtenSize_run
    · omega
    · intro stream hrun
      exact ⟨_, writeTree_run (w := ⟨0, []⟩) hprepared hp hlinks (.refl s₁) hrun⟩
  obtain ⟨fs', hgap, hopened, hfill⟩ := addGap_lead hv hlt
    (Full.interleaved (adapter vol).volume view hp.full hp.layout) s₁.treeBytes.length (by
      apply Nat.le_of_mul_le_mul_right _ (show 0 < blocksize from Nat.succ_pos 3)
      change (_ + blockCount s₁.treeBytes.length blocksize) * blocksize ≤ _
      rw [Nat.add_mul, hlength]
      omega)
  have hsame := sameTree_gap hopened.files fs'.volume s₁.written
  obtain ⟨v, es, hstream, hview⟩ := onStream_run hv hlt { s₁ with fstree := fs' } 0
    s₁.treeBytes.length (s₁.treeEntries.flatMap Entry.pieces) writeTree (by omega)
    (Nat.le_of_eq hpieces) (by omega) (by
      intro stream hrun
      exact ⟨_, writeTree_run hprepared hp hlinks hsame
        (w := (⟨⟨fs'.volume, 0⟩, s₁.written⟩ : Sink (VolOstream σ))) hrun⟩)
  refine ⟨_, ?_, sameTree_gap hopened.files v es, ?_⟩
  · rw [hprepared.writeFront_eq, Call.bind_apply, hsize, Outcome.bind_ok, Call.bind_apply]
    change ((addGap (adapter vol).volume 0 s₁.treeBytes.length s₁.fstree).mapState _).bind _ = _
    rw [hgap]
    exact hstream
  · have hdone := hfill v s₁.treeBytes (Nat.le_of_eq hlength.symm) hview
    change Interleaved _ _ (filled _ (blockCount s₁.treeBytes.length blocksize * blocksize)) _ _ _ _
      at hdone
    rw [hfilled] at hdone
    exact hdone

/-! ## Files -/

/-- What the loops over the files need to know about one of them. -/
structure IsFile (s : CpioFs σ) (fit : Nat) : Prop where
  lt : fit < s.tree.count
  type : (s.tree.node fit).type = .file
  place_lt : s.place fit < s.fstree.files.length
  fits : (s.nodeEntry fit fit false).Fits

theorem SameTree.isFile (h : SameTree s s') {fit : Nat} (hfit : s.IsFile fit) : s'.IsFile fit := by
  obtain ⟨g, -, hfiles⟩ := h.files
  constructor
  · rw [h.tree]
    exact hfit.lt
  · rw [h.tree]
    exact hfit.type
  · rw [h.place, hfiles, List.length_map]
    exact hfit.place_lt
  · rw [h.nodeEntry]
    exact hfit.fits

theorem Packable.isFile (hp : Packable s) {fit : Nat} (hfit : fit ∈ s.tree.nodesByType .file) :
    s.IsFile fit := by
  obtain ⟨hcount, htype⟩ := (hp.linked.mem_byType .file fit).1 hfit
  exact ⟨hcount, htype, hp.place_lt fit hfit, (hp.fits hcount hcount).1⟩

theorem SameTree.fileHeader (h : SameTree s s') (fit : Nat) :
    s'.fileHeader fit = s.fileHeader fit := by
  unfold CpioFs.fileHeader
  rw [h.nodeEntry]

theorem IsFile.extentAt {fit : Nat} (h : s.IsFile fit) :
    extentAt blocksize s.fstree.files (s.place fit) = (s.fileData fit).extent blocksize := by
  have hget := List.getElem?_eq_getElem h.place_lt
  rw [extentAt_eq hget]
  unfold CpioFs.fileData
  rw [hget]
  rfl

/-- A file without data stores nothing. -/
theorem IsFile.physicalSize_eq_zero {fit : Nat} (h : s.IsFile fit)
    (hlayout : LaidOut blocksize s.fstree) :
    s.physicalSize fit = 0 ↔ (Fstree.extentAt blocksize s.fstree.files (s.place fit)).len = 0 := by
  have hget := List.getElem?_eq_getElem h.place_lt
  have hvalid := hlayout.valid_at hget
  rw [h.extentAt]
  unfold CpioFs.physicalSize CpioFs.fileData
  rw [hget]
  exact filePhysicalSize_eq_zero (by decide) (by decide) hvalid

theorem IsFile.length_header {fit : Nat} (h : s.IsFile fit) :
    s.fileHeader fit = (s.nodeEntry fit fit false).head ∧
      (s.fileHeader fit).length % blocksize = 0 := by
  have htype : (s.nodeEntry fit fit false).type = .file := h.type
  have hown : (s.nodeEntry fit fit false).ownData = [] := by
    unfold Entry.ownData
    rw [htype]
    rfl
  have hhead : s.fileHeader fit = (s.nodeEntry fit fit false).head := by
    unfold CpioFs.fileHeader
    rw [h.fits.pieces (by rw [htype]; decide), hown]
    exact List.append_nil _
  have hlength := length_stored ⟨s.nodeEntry fit fit false, [], []⟩ h.fits
    (show 0 = alignment 0 by decide)
  refine ⟨hhead, ?_⟩
  rw [hhead]
  rw [show (Stored.mk (s.nodeEntry fit fit false) [] []).bytes =
    (s.nodeEntry fit fit false).head ++ [] from rfl, List.append_nil] at hlength
  exact hlength

/-- The header of one file. -/
theorem insertFileHeader_run (hv : BlockStore (adapter vol).volume count view)
    (hlt : count * blocksize < 2 ^ 64) {fit : Nat} (ht : IsTree s.tree) (hfit : s.IsFile fit)
    (h : Interleaved (adapter vol).volume view lead order front body s.fstree)
    (hsize : s.physicalSize fit ≠ 0) (hempty : front (s.place fit) = [])
    (hroom : s.fstree.dataOffset * blocksize + (s.fileHeader fit).length ≤ count * blocksize) :
    ∃ s₁, insertFileHeader vol fit s = .ok () s₁ ∧ SameTree s s₁ ∧
      Interleaved (adapter vol).volume view lead order
        (Function.update front (s.place fit) (s.fileHeader fit)) body s₁.fstree ∧
      s₁.fstree.dataOffset * blocksize =
        s.fstree.dataOffset * blocksize + (s.fileHeader fit).length := by
  obtain ⟨hlength, hfilled⟩ := filled_blocks hfit.length_header.2
  have hpieces : piecesLength (s.nodeEntry fit fit false).pieces = (s.fileHeader fit).length :=
    piecesLength_eq _
  have hlink : (s.nodeEntry fit fit false).type ≠ .hardLink := by
    change (s.tree.node fit).type ≠ .hardLink
    rw [hfit.type]
    decide
  have hstored : 0 < (Fstree.extentAt blocksize s.fstree.files (s.place fit)).len :=
    Nat.pos_of_ne_zero ((hfit.physicalSize_eq_zero h.layout).not.1 hsize)
  have hmem := (h.stored (s.place fit)).2 hstored
  have hbounds := h.lined.bounds hmem
  have hstart : (s.fileData fit).startIndex =
      (Fstree.extentAt blocksize s.fstree.files (s.place fit)).start := by
    rw [hfit.extentAt]
    rfl
  have hwritten : writtenSize (fun strm s => writeNode strm s fit fit false) s =
      .ok (s.fileHeader fit).length s := by
    rw [← hpieces]
    apply writtenSize_run
    · omega
    · intro stream hrun
      exact ⟨_, writeNode_run (entry_eq ht hfit.lt) hlink (w := ⟨0, []⟩) hrun⟩
  obtain ⟨fs', hgap, hopened, hfill⟩ := addGap_front hv hlt h hmem hempty
    (s.fileHeader fit).length (by
      apply Nat.le_of_mul_le_mul_right _ (show 0 < blocksize from Nat.succ_pos 3)
      change (_ + blockCount (s.fileHeader fit).length blocksize) * blocksize ≤ _
      rw [Nat.add_mul, hlength]
      exact hroom)
  have hsame := sameTree_gap hopened.files fs'.volume s.written
  have hplace : (Fstree.extentAt blocksize s.fstree.files (s.place fit)).start * blocksize +
      (s.fileHeader fit).length ≤ count * blocksize := by
    have hend := hbounds.2
    change _ ≤ s.fstree.dataOffset * blocksize at hend
    change (Fstree.extentAt blocksize s.fstree.files (s.place fit)).start * blocksize +
      (Fstree.extentAt blocksize s.fstree.files (s.place fit)).len * blocksize ≤ _ at hend
    omega
  obtain ⟨v, es, hstream, hview⟩ := onStream_run hv hlt { s with fstree := fs' }
    ((Fstree.extentAt blocksize s.fstree.files (s.place fit)).start * blocksize)
    (s.fileHeader fit).length (s.nodeEntry fit fit false).pieces
    (fun strm s => writeNode strm s fit fit false) (by omega) (Nat.le_of_eq hpieces)
    (by rw [hpieces]; exact hplace) (by
      intro stream hrun
      refine ⟨_, writeNode_run (e := s.nodeEntry fit fit false) ?_ hlink
        (w := (⟨⟨fs'.volume, 0⟩, s.written⟩ : Sink (VolOstream σ))) hrun⟩
      rw [← hsame.nodeEntry]
      exact entry_eq ht hfit.lt)
  refine ⟨_, ?_, sameTree_gap hopened.files v es, ?_, ?_⟩
  · unfold insertFileHeader
    rw [Call.bind_apply, hwritten, Outcome.bind_ok, Call.bind_apply, Call.get_apply,
      Outcome.bind_ok, Call.bind_apply, hstart, u64_of_lt (by omega)]
    change ((addGap (adapter vol).volume _ _ s.fstree).mapState _).bind _ = _
    change addGap (adapter vol).volume
      (Fstree.extentAt blocksize s.fstree.files (s.place fit)).start _ _ = _ at hgap
    rw [hgap]
    exact hstream
  · have hdone := hfill v (s.fileHeader fit) (Nat.le_of_eq hlength.symm) hview
    change Interleaved _ _ _ _ (Function.update _ _
      (filled _ (blockCount (s.fileHeader fit).length blocksize * blocksize))) _ _ at hdone
    rw [hfilled] at hdone
    exact hdone
  · change fs'.dataOffset * blocksize = _
    rw [hopened.dataOffset, Nat.add_mul]
    exact congrArg _ hlength

/-- The headers of the files. -/
theorem insertFileHeaders_run (hv : BlockStore (adapter vol).volume count view)
    (hlt : count * blocksize < 2 ^ 64) (files : List Nat) (ht : IsTree s.tree)
    (hfiles : ∀ fit ∈ files, s.IsFile fit) (hnodup : (files.map s.place).Nodup)
    (h : Interleaved (adapter vol).volume view lead order front body s.fstree)
    (hempty : ∀ fit ∈ files, front (s.place fit) = [])
    (hroom : s.fstree.dataOffset * blocksize +
      ((files.filter fun fit => s.physicalSize fit ≠ 0).flatMap s.fileHeader).length ≤
        count * blocksize) :
    ∃ s₁ front', insertFileHeaders vol files s = .ok () s₁ ∧ SameTree s s₁ ∧
      Interleaved (adapter vol).volume view lead order front' body s₁.fstree ∧
      s₁.fstree.dataOffset * blocksize = s.fstree.dataOffset * blocksize +
        ((files.filter fun fit => s.physicalSize fit ≠ 0).flatMap s.fileHeader).length ∧
      (∀ fit ∈ files, s.physicalSize fit ≠ 0 → front' (s.place fit) = s.fileHeader fit) ∧
      ∀ i, i ∉ files.map s.place → front' i = front i := by
  induction files generalizing s front with
  | nil =>
      exact ⟨s, front, rfl, .refl s, h, rfl, fun _ hfit => absurd hfit List.not_mem_nil,
        fun _ _ => rfl⟩
  | cons fit files ih =>
      rw [List.forall_mem_cons] at hfiles hempty
      rw [List.map_cons, List.nodup_cons] at hnodup
      unfold insertFileHeaders
      rw [Call.bind_apply, Call.get_apply, Outcome.bind_ok, Call.bind_apply]
      by_cases hsize : s.physicalSize fit ≠ 0
      · rw [List.filter_cons_of_pos (by simpa using hsize), List.flatMap_cons,
          List.length_append] at hroom
        obtain ⟨s₁, hrun, hsame, hdone, hoffset⟩ := insertFileHeader_run hv hlt ht hfiles.1 h hsize
          hempty.1 (by omega)
        have hheader : s₁.fileHeader = s.fileHeader := funext hsame.fileHeader
        obtain ⟨s₂, front', hrest, hsame₂, hdone₂, hoffset₂, hheaders, hother⟩ := ih (s := s₁)
          (by rw [hsame.tree]; exact ht) (fun f hf => hsame.isFile (hfiles.2 f hf))
          (by rw [hsame.place]; exact hnodup.2) hdone
          (by
            intro f hf
            have hne : s.place f ≠ s.place fit :=
              fun heq => hnodup.1 (heq ▸ List.mem_map_of_mem hf)
            rw [hsame.place, Function.update_of_ne hne]
            exact hempty.2 f hf)
          (by
            simp only [hsame.physicalSize, hheader]
            omega)
        simp only [hsame.physicalSize, hsame.place, hheader] at hoffset₂ hheaders hother
        refine ⟨s₂, front', ?_, hsame.trans hsame₂, hdone₂, ?_, ?_, ?_⟩
        · rw [Call.guard_pos hsize, hrun]
          exact hrest
        · rw [List.filter_cons_of_pos (by simpa using hsize), List.flatMap_cons,
            List.length_append, hoffset₂, hoffset, Nat.add_assoc]
        · rw [List.forall_mem_cons]
          refine ⟨fun _ => ?_, hheaders⟩
          rw [hother _ hnodup.1, Function.update_self]
        · intro i hi
          rw [List.map_cons, List.mem_cons, not_or] at hi
          rw [hother i hi.2, Function.update_of_ne hi.1]
      · rw [List.filter_cons_of_neg (by simpa using hsize)] at hroom
        obtain ⟨s₂, front', hrest, hsame₂, hdone₂, hoffset₂, hheaders, hother⟩ := ih ht hfiles.2
          hnodup.2 h hempty.2 hroom
        refine ⟨s₂, front', ?_, hsame₂, hdone₂, ?_, ?_, ?_⟩
        · rw [Call.guard_neg hsize]
          exact hrest
        · rw [List.filter_cons_of_neg (by simpa using hsize), hoffset₂]
        · rw [List.forall_mem_cons]
          exact ⟨fun hne => absurd hne hsize, hheaders⟩
        · intro i hi
          rw [List.map_cons, List.mem_cons, not_or] at hi
          exact hother i hi.2

/-! ## The end -/

theorem writeEnd_run (hv : BlockStore (adapter vol).volume count view)
    (hlt : count * blocksize < 2 ^ 64) (ht : IsTree s.tree)
    (hfiles : ∀ fit ∈ s.tree.nodesByType .file, s.IsFile fit)
    (hroom : s.fstree.dataOffset * blocksize + (s.emptyFiles.flatMap s.fileHeader).length +
      piecesLength (trailerPieces (s.fstree.dataOffset * blocksize)) ≤ count * blocksize) :
    ∃ v es, writeEnd vol s = .ok () { s with
        fstree := { s.fstree with volume := v }, written := es } ∧
      view v = (view s.fstree.volume).splice (s.fstree.dataOffset * blocksize)
        (s.emptyFiles.flatMap s.fileHeader ++
          (trailerPieces (s.fstree.dataOffset * blocksize)).flatten) := by
  have hflatten : ∀ files : List Nat, ((files.map fun fit =>
      s.nodeEntry fit fit false).flatMap Entry.pieces).flatten = files.flatMap s.fileHeader := by
    intro files
    induction files with
    | nil => rfl
    | cons fit files ih =>
        rw [List.map_cons, List.flatMap_cons, List.flatten_append, ih, List.flatMap_cons]
        rfl
  have hlength : piecesLength ((s.emptyFiles.map fun fit =>
      s.nodeEntry fit fit false).flatMap Entry.pieces) =
        (s.emptyFiles.flatMap s.fileHeader).length := by
    rw [piecesLength_eq, hflatten]
  generalize hstart : s.fstree.dataOffset * blocksize = start at hroom ⊢
  obtain ⟨v, es, hstream, hview⟩ := onStream_run hv hlt s start 0xFFFFFFFFFFFFFFFF
    ((s.emptyFiles.map fun fit => s.nodeEntry fit fit false).flatMap Entry.pieces ++
      trailerPieces start)
    (fun strm s => do
      appendZeroSizeFiles strm s (s.tree.nodesByType .file)
      Call.zoom Sink.stream (fun w stream => { w with stream := stream })
        (cpioWriteTrailer start strm))
    (by decide) (by rw [piecesLength_append, hlength]; omega)
    (by rw [piecesLength_append, hlength]; omega) (by
      intro stream hrun
      rw [appendAll_append] at hrun
      obtain ⟨_, t, hempty, htrailer⟩ := Outcome.of_bind_eq_ok hrun
      have hzero := appendZeroSizeFiles_run (s := s) ht
        (w := (⟨⟨s.fstree.volume, 0⟩, s.written⟩ : Sink (VolOstream σ)))
        (fun fit hfit => ⟨(hfiles fit hfit).lt, (hfiles fit hfit).type⟩) hempty
      rw [← cpioWriteTrailer_eq] at htrailer
      refine ⟨s.written ++ s.emptyFiles.map fun fit => s.nodeEntry fit fit false, ?_⟩
      rw [Call.bind_apply, hzero, Outcome.bind_ok, Call.zoom_apply, htrailer]
      rfl)
  rw [List.flatten_append, hflatten] at hview
  refine ⟨v, es, ?_, hview⟩
  unfold writeEnd
  rw [Call.bind_apply, Call.get_apply, Outcome.bind_ok, hstart, u64_of_lt (by omega)]
  exact hstream

end Run

end CpioFs

end ImageTool.Cpio
