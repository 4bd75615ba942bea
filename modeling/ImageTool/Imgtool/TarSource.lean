import ImageTool.Tar.ReadHeader
import ImageTool.Imgtool.SparseMember
import ImageTool.Imgtool.FileSource
import ImageTool.Fstree.CanonicalizePath

/-!
# Tar archives as file sources

`get_next_record` of a tar file source skips what the stream over the last file has left of its
record, reads headers up to one it can hand out, and for a regular file hands out a stream over the
record.  The stream shares the archive and the counters of the source, and no other record is
handed out before it has been dropped.
-/

namespace ImageTool.Imgtool

open ImageTool.Lib ImageTool.Fstream ImageTool.Fstree ImageTool.Tar

/-- `file_source_tar_t`. -/
structure TarSource (ω : Type) extends FileSourceTar ω where
  lockedByFile : Bool

namespace TarSource

variable {ω : Type} (wrapped : Call (Istream ω) Unit)

/-- A call on the archive. -/
def onArchive {α : Type} (m : Call (Istream ω) α) : Call (TarSource ω) α :=
  Call.zoom (fun s => s.tarStream) (fun s strm => { s with tarStream := strm }) m

/-- `file_bytes_left` is skipped. -/
def skipLeft : Call (TarSource ω) Unit := fun s =>
  if s.fileBytesLeft > 0 then
    (onArchive (Istream.skip wrapped s.fileBytesLeft) s).bind fun _ s =>
      .ok () { s with fileBytesLeft := 0 }
  else .ok () s

/-- The name of a header after `fstree_canonicalize_path`. -/
def canonicalName (hdr : TarHeaderDecoded) : TarHeaderDecoded :=
  { hdr with name := hdr.name.map canonicalizePath }

/-- Records that are not handed out. -/
def skipped (hdr : TarHeaderDecoded) : Bool :=
  hdr.name.getD [] == [] || hdr.unknownRecord || !mapAccepted hdr.sparse hdr.recordSize

/-- The type of a record. -/
def recordType (hdr : TarHeaderDecoded) : Option FileSourceType :=
  if hdr.isHardLink then some .hardLink
  else
    match hdr.mode &&& fileTypeMask with
    | 0o060000 => some .blockDev
    | 0o020000 => some .charDev
    | 0o100000 => some .file
    | 0o120000 => some .symlink
    | 0o040000 => some .dir
    | 0o010000 => some .fifo
    | 0o140000 => some .socket
    | _ => none

/-- The headers `get_next_record` reads, up to one it can hand out. -/
def nextHeader : Nat → Call (Istream ω) (Option (FileSourceType × TarHeaderDecoded))
  | 0 => Call.stuck
  | fuel + 1 => do
      match ← readHeader wrapped (fuel + 1) with
      | none => pure none
      | some hdr =>
          if skipped (canonicalName hdr) then do
            skipEntry wrapped hdr.recordSize
            nextHeader fuel
          else
            match recordType hdr with
            | none => nextHeader fuel
            | some type => pure (some (type, canonicalName hdr))

/-- The record that is handed out. -/
def recordOf (type : FileSourceType) (hdr : TarHeaderDecoded) : FileSourceRecord where
  type := type
  permissions := hdr.mode &&& 0o7777
  uid := hdr.uid
  gid := hdr.gid
  devno := u32 hdr.rdev
  ctime := (hdr.mtime % 2 ^ 64).toNat
  mtime := (hdr.mtime % 2 ^ 64).toNat
  size := hdr.actualSize
  fullPath := hdr.name.getD []
  linkTarget := hdr.linkTarget

/-- The size of a record with its padding. -/
def paddedSize (recordSize : Nat) : Nat :=
  if recordSize % 512 ≠ 0 then u64 (recordSize + (512 - recordSize % 512)) else recordSize

/-- The next header that can be handed out, behind what is left of the last record. -/
def findNext (fuel : Nat) : Call (TarSource ω) (Option (FileSourceType × TarHeaderDecoded)) := do
  skipLeft wrapped
  onArchive (nextHeader wrapped fuel)

/-- A record is handed out.  With one for a regular file comes the map for the stream over it. -/
def handOut (streamOut : Bool) : Option (FileSourceType × TarHeaderDecoded) →
    Call (TarSource ω) (Option (FileSourceRecord × Option (List SparseRegion)))
  | none => pure none
  | some (type, hdr) => do
      let regular := streamOut && hdr.mode &&& fileTypeMask == modeRegular
      Call.modify fun s => { s with
        apparentFileSize := hdr.actualSize
        fileBytesLeft := paddedSize hdr.recordSize
        lockedByFile := regular }
      pure (some (recordOf type hdr, if regular then some hdr.sparse else none))

/-- `get_next_record`, which returns nothing for 1. -/
def getNextRecord (fuel : Nat) (streamOut : Bool) :
    Call (TarSource ω) (Option (FileSourceRecord × Option (List SparseRegion))) := do
  let s ← Call.get
  if s.lockedByFile then Call.fail
  else do
    let found ← findNext wrapped fuel
    handOut streamOut found

/-- `file_source_tar_create`, with the stream it has found. -/
def create (tarStream : Istream ω) : TarSource ω := ⟨⟨tarStream, 0, 0⟩, false⟩

/-- `tar_istream_destroy`: the archive and the counters are as the stream leaves them. -/
def dropped (strm : Istream (TarIstream ω)) : TarSource ω := ⟨strm.inner.tar, false⟩

end TarSource

end ImageTool.Imgtool
