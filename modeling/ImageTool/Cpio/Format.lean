import ImageTool.Cpio.Header
import ImageTool.Image.BlocksizeAdapter
import ImageTool.Image.VolumeOstream
import ImageTool.Fstree.Files
import ImageTool.Fstree.HardLinks
import ImageTool.Fstree.InodeTable

/-!
# Building a cpio archive

`cpio_build_format`.  The files lie on an adapter with blocks of four bytes.  In front of them room
is made for the entries of everything else and of the hard links, and in front of each file for its
own header.  Files without data and the trailer follow behind the last block in use.

The entries written to the volume are kept in a list next to it, which nothing reads.
-/

namespace ImageTool.Cpio

open ImageTool.Lib ImageTool.Image ImageTool.Fstream ImageTool.Fstree ImageTool.Fstree.NodeTree

/-- `filesystem_t` of a cpio archive and the tree it points to; `place` is where the list of files
has a file node. -/
structure CpioFs (σ : Type) where
  tree : NodeTree
  place : Nat → Nat
  links : LinkState
  inodes : InodeTable
  fstree : Fstree σ
  written : List Entry

/-- The state of a stream, and the entries written to it. -/
structure Sink (τ : Type) where
  stream : τ
  entries : List Entry

/-- The blocks of the adapter. -/
def blocksize : Nat := 4

/-- The adapter `filesystem_cpio_create` makes. -/
def adapter {σ : Type} (vol : Volume σ) : Adapter σ := ⟨vol, blocksize, 0⟩

namespace CpioFs

variable {σ τ α : Type}

/-- A call on the tree. -/
def onFstree (m : Call (Fstree σ) α) : Call (CpioFs σ) α :=
  Call.zoom CpioFs.fstree (fun s fs => { s with fstree := fs }) m

/-- The `data.file` of a node. -/
def fileData (s : CpioFs σ) (n : Nat) : FileNode := (s.fstree.files[s.place n]?).getD ⟨0, 0, []⟩

/-- `fstree_file_physical_size`. -/
def physicalSize (s : CpioFs σ) (n : Nat) : Nat := filePhysicalSize blocksize (s.fileData n)

/-- What `cpio_write_header` sees of a node under the parent and the name of `link`. -/
def entry (s : CpioFs σ) (n link : Nat) (hardlink : Bool) : Option Entry :=
  (s.tree.getPath link).map fun path =>
    { type := (s.tree.node n).type
      permissions := (s.tree.node n).permissions
      inodeNum := s.inodes.inodeNum n
      uid := (s.tree.node n).uid
      gid := (s.tree.node n).gid
      linkCount := s.links.linkCount n
      mtime := (s.tree.node n).mtime
      fileSize := (s.fileData n).size
      deviceNumber := (s.tree.node n).deviceNumber
      target := (s.tree.node n).target
      path := canonicalizePath path
      hardlink := hardlink }

/-! ## Entries -/

/-- `cpio_write_header` for a node. -/
def writeNode (strm : Ostream τ) (s : CpioFs σ) (n link : Nat) (hardlink : Bool) :
    Call (Sink τ) Unit :=
  match s.entry n link hardlink with
  | none => Call.stuck
  | some e => do
      Call.zoom Sink.stream (fun w stream => { w with stream := stream }) (cpioWriteHeader strm e)
      Call.modify fun w =>
        if e.type = .hardLink then w else { w with entries := w.entries ++ [e] }

/-- The first loop of `write_tree`. -/
def writeInodes (strm : Ostream τ) (s : CpioFs σ) : List (Option Nat) → Call (Sink τ) Unit
  | [] => pure ()
  | none :: _ => Call.stuck
  | some n :: table => do
      Call.guard ((s.tree.node n).type ≠ .file) (writeNode strm s n n false)
      writeInodes strm s table

/-- The second loop of `write_tree`. -/
def writeLinks (strm : Ostream τ) (s : CpioFs σ) : List Nat → Call (Sink τ) Unit
  | [] => pure ()
  | n :: links =>
      match s.links.resolved n with
      | none => Call.stuck
      | some tgt =>
          if (s.tree.node tgt).type ≠ .file then Call.fail
          else do
            writeNode strm s tgt n true
            writeLinks strm s links

/-- `write_tree`. -/
def writeTree (strm : Ostream τ) (s : CpioFs σ) : Call (Sink τ) Unit := do
  writeInodes strm s s.inodes.inodeTable
  writeLinks strm s (s.tree.nodesByType .hardLink)

/-- The bytes that a function writes, found by writing them to a null stream. -/
def writtenSize (m : Ostream Nat → CpioFs σ → Call (Sink Nat) Unit) : Call (CpioFs σ) Nat :=
  fun s =>
    match m nullOstream s ⟨0, []⟩ with
    | .ok _ w => .ok w.stream s
    | .fail _ => .fail s
    | .stuck => .stuck

/-- Write to a stream into the volume. -/
def onStream (vol : Volume σ) (start size : Nat)
    (m : Ostream (VolOstream σ) → CpioFs σ → Call (Sink (VolOstream σ)) Unit) :
    Call (CpioFs σ) Unit := fun s =>
  (m (volumeOstream (adapter vol).volume start size) s ⟨⟨s.fstree.volume, 0⟩, s.written⟩).mapState
    fun w => { s with
      fstree := { s.fstree with volume := w.stream.wrapped }
      written := w.entries }

/-- One turn of the loop of `insert_file_headers`. -/
def insertFileHeader (vol : Volume σ) (fit : Nat) : Call (CpioFs σ) Unit := do
  let size ← writtenSize fun strm s => writeNode strm s fit fit false
  let s ← Call.get
  let start := u64 ((s.fileData fit).startIndex * blocksize)
  onFstree (addGap (adapter vol).volume (s.fileData fit).startIndex size)
  onStream vol start size fun strm s => writeNode strm s fit fit false

/-- `insert_file_headers`. -/
def insertFileHeaders (vol : Volume σ) : List Nat → Call (CpioFs σ) Unit
  | [] => pure ()
  | fit :: files => do
      let s ← Call.get
      Call.guard (s.physicalSize fit ≠ 0) (insertFileHeader vol fit)
      insertFileHeaders vol files

/-- `append_zero_size_files`. -/
def appendZeroSizeFiles (strm : Ostream τ) (s : CpioFs σ) : List Nat → Call (Sink τ) Unit
  | [] => pure ()
  | fit :: files => do
      Call.guard (s.physicalSize fit = 0) (writeNode strm s fit fit false)
      appendZeroSizeFiles strm s files

/-! ## The archive -/

/-- `fstree_sort`. -/
def sortTree : Call (CpioFs σ) Unit := fun s =>
  match s.tree.sort with
  | some tree => .ok () { s with tree := tree }
  | none => .stuck

/-- `fstree_resolve_hard_links`; its loop has at most one round for each link, and a last one. -/
def resolveLinks : Call (CpioFs σ) Unit := fun s =>
  match resolveHardLinks ((s.tree.nodesByType .hardLink).length + 1) s.tree s.links with
  | none => .stuck
  | some (links, ret) =>
      if ret = 0 then .ok () { s with links := links } else .fail { s with links := links }

/-- `fstree_create_inode_table`. -/
def numberInodes : Call (CpioFs σ) Unit := fun s =>
  match s.tree.createInodeTable s.inodes.inodeNum with
  | some inodes => .ok () { s with inodes := inodes }
  | none => .stuck

/-- `cpio_build_format` up to the headers in front of files. -/
def writeFront (vol : Volume σ) : Call (CpioFs σ) Unit := do
  sortTree
  resolveLinks
  numberInodes
  let size ← writtenSize writeTree
  onFstree (addGap (adapter vol).volume 0 size)
  onStream vol 0 size writeTree

/-- The end of `cpio_build_format`: what follows behind the last block in use. -/
def writeEnd (vol : Volume σ) : Call (CpioFs σ) Unit := do
  let s ← Call.get
  let start := u64 (s.fstree.dataOffset * blocksize)
  onStream vol start 0xFFFFFFFFFFFFFFFF fun strm s => do
    appendZeroSizeFiles strm s (s.tree.nodesByType .file)
    Call.zoom Sink.stream (fun w stream => { w with stream := stream })
      (cpioWriteTrailer start strm)

/-- `cpio_build_format`. -/
def buildFormat (vol : Volume σ) : Call (CpioFs σ) Unit := do
  writeFront vol
  let s ← Call.get
  insertFileHeaders vol (s.tree.nodesByType .file)
  writeEnd vol

end CpioFs

end ImageTool.Cpio
