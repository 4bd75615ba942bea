import ImageTool.Tar.NumberFormat
import ImageTool.Tar.PaxHeader
import ImageTool.Tar.SparseMapNew
import ImageTool.Tar.SparseMapOld
import ImageTool.Imgtool.ListingLine

/-!
# Headers of an archive

`read_header` reads blocks of 512 bytes until it has one that stands for a file.  Blocks in front
of it may set a name, a link target or a whole PAX header; two zero blocks in a row are the end of
the archive.
-/

namespace ImageTool.Tar

open ImageTool.Lib ImageTool.Fstream ImageTool.Imgtool

/-! ## Fields -/

/-- `tar_header_decoded_t`: what a PAX header sets, and the rest of `sb`. -/
structure TarHeaderDecoded extends DecodedHeader where
  mode : Nat
  rdev : Nat
  unknownRecord : Bool
  isHardLink : Bool

/-- The header `clear_header` leaves. -/
def TarHeaderDecoded.blank : TarHeaderDecoded := ⟨DecodedHeader.blank, 0, 0, false, false⟩

/-- A field of `tar_header_t`. -/
def headerField (hdr : List UInt8) (offset size : Nat) : List UInt8 := (hdr.drop offset).take size

/-- `name`. -/
def nameField (hdr : List UInt8) : List UInt8 := headerField hdr 0 100

/-- `mode`. -/
def modeField (hdr : List UInt8) : List UInt8 := headerField hdr 100 8

/-- `uid`. -/
def uidField (hdr : List UInt8) : List UInt8 := headerField hdr 108 8

/-- `gid`. -/
def gidField (hdr : List UInt8) : List UInt8 := headerField hdr 116 8

/-- `size`. -/
def sizeField (hdr : List UInt8) : List UInt8 := headerField hdr 124 12

/-- `mtime`. -/
def mtimeField (hdr : List UInt8) : List UInt8 := headerField hdr 136 12

/-- `chksum`. -/
def chksumField (hdr : List UInt8) : List UInt8 := headerField hdr 148 8

/-- `typeflag`. -/
def typeflag (hdr : List UInt8) : UInt8 := hdr.getD 156 0

/-- `linkname`. -/
def linknameField (hdr : List UInt8) : List UInt8 := headerField hdr 157 100

/-- `magic`. -/
def magicField (hdr : List UInt8) : List UInt8 := headerField hdr 257 6

/-- `version`. -/
def versionField (hdr : List UInt8) : List UInt8 := headerField hdr 263 2

/-- `devmajor`. -/
def devmajorField (hdr : List UInt8) : List UInt8 := headerField hdr 329 8

/-- `devminor`. -/
def devminorField (hdr : List UInt8) : List UInt8 := headerField hdr 337 8

/-- `tail.posix.prefix`. -/
def prefixField (hdr : List UInt8) : List UInt8 := headerField hdr 345 155

/-- `tail.gnu.realsize`. -/
def realsizeField (hdr : List UInt8) : List UInt8 := headerField hdr 483 12

/-! ## Checks -/

/-- `is_zero_block`. -/
def isZeroBlock (hdr : List UInt8) : Bool :=
  hdr.head? == some 0 && hdr.take (hdr.length - 1) == hdr.tail

/-- The versions `check_version` knows. -/
inductive TarVersion where
  | v7Unix
  | prePosix
  | posix
  deriving DecidableEq

/-- `check_version`. -/
def checkVersion (hdr : List UInt8) : Option TarVersion :=
  if magicField hdr = List.replicate 6 0 ∧ versionField hdr = List.replicate 2 0 then some .v7Unix
  else if magicField hdr = ascii "ustar" ++ [0] ∧ versionField hdr = ascii "00" then some .posix
  else if magicField hdr = ascii "ustar " ∧ versionField hdr = ascii " " ++ [0] then some .prePosix
  else none

/-- `get_checksum`. -/
def getChecksum (hdr : List UInt8) : Nat :=
  ((hdr.take 148 ++ List.replicate 8 0x20 ++ hdr.drop 156).map UInt8.toNat).sum

/-- `is_checksum_valid`. -/
def isChecksumValid (hdr : List UInt8) : Bool :=
  readOctal (chksumField hdr) == some (getChecksum hdr)

/-! ## Decoding a header -/

/-- `S_IFMT`. -/
def fileTypeMask : Nat := 0o170000

/-- `S_IFREG`. -/
def modeRegular : Nat := 0o100000

/-- `major` of a device number. -/
def devMajor (dev : Nat) : Nat := u32 (dev >>> 8 &&& 0xFFF ||| dev >>> 32 &&& 0xFFFFF000)

/-- `minor` of a device number. -/
def devMinor (dev : Nat) : Nat := u32 (dev &&& 0xFF ||| dev >>> 12 &&& 0xFFFFFF00)

/-- The name `decode_header` sets. -/
def decodeName (hdr : List UInt8) (version : TarVersion) : List UInt8 :=
  if (prefixField hdr).headD 0 ≠ 0 ∧ version = .posix then
    cString (prefixField hdr) ++ 0x2F :: cString (nameField hdr)
  else cString (nameField hdr)

/-- What `decode_header` makes of the type flag. -/
def decodeType (flag : UInt8) (out : TarHeaderDecoded) : TarHeaderDecoded :=
  if flag = 0 ∨ flag = 0x30 ∨ flag = 0x53 then { out with mode := out.mode ||| modeRegular }
  else if flag = 0x31 then { out with isHardLink := true }
  else if flag = 0x32 then { out with mode := 0o120000 ||| 0o777 }
  else if flag = 0x33 then { out with mode := out.mode ||| 0o020000 }
  else if flag = 0x34 then { out with mode := out.mode ||| 0o060000 }
  else if flag = 0x35 then { out with mode := out.mode ||| 0o040000 }
  else if flag = 0x36 then { out with mode := out.mode ||| 0o010000 }
  else { out with unknownRecord := true }

/-- `PAX_DEV_MAJ`. -/
def flagDevMaj : Nat := 0x008

/-- `PAX_DEV_MIN`. -/
def flagDevMin : Nat := 0x010

/-- A field of the header is read, unless the PAX header has set it. -/
def unlessSet (setByPax flag : Nat) (field : List UInt8)
    (set : TarHeaderDecoded → Nat → TarHeaderDecoded) (out : TarHeaderDecoded) :
    Option TarHeaderDecoded :=
  if setByPax &&& flag = 0 then (readNumber field).map (set out) else some out

/-- `decode_header`. -/
def decodeHeader (hdr : List UInt8) (setByPax : Nat) (out : TarHeaderDecoded)
    (version : TarVersion) : Option TarHeaderDecoded := do
  let out := if setByPax &&& flagName = 0 then { out with name := some (decodeName hdr version) }
    else out
  let out ← unlessSet setByPax flagSize (sizeField hdr)
    (fun out field => { out with recordSize := field }) out
  let out ← unlessSet setByPax flagUid (uidField hdr)
    (fun out field => { out with uid := u32 field }) out
  let out ← unlessSet setByPax flagGid (gidField hdr)
    (fun out field => { out with gid := u32 field }) out
  let out ← unlessSet setByPax flagDevMaj (devmajorField hdr)
    (fun out field => { out with rdev := makedev (u32 field) (devMinor out.rdev) }) out
  let out ← unlessSet setByPax flagDevMin (devminorField hdr)
    (fun out field => { out with rdev := makedev (devMajor out.rdev) (u32 field) }) out
  let out ← unlessSet setByPax flagMtime (mtimeField hdr)
    (fun out field => { out with mtime := decodeMtime field }) out
  let field ← readOctal (modeField hdr)
  let out := { out with mode := field &&& 0o7777 }
  let out := if (typeflag hdr = 0x31 ∨ typeflag hdr = 0x32) ∧ setByPax &&& flagSlinkTarget = 0 then
      { out with linkTarget := some (cString (linknameField hdr)) }
    else out
  some (decodeType (typeflag hdr) { out with unknownRecord := false })

/-! ## Reading a header -/

section Reader

variable {ι : Type} (callback : Call (Istream ι) Unit)

/-- A pure step, which may fail. -/
def orFail {σ α : Type} (found : Option α) : Call σ α :=
  match found with
  | some a => pure a
  | none => Call.fail

/-- A call whose result is not looked at. -/
def regardless {σ : Type} (m : Call σ Unit) : Call σ Unit := fun s =>
  match m s with
  | .ok _ s | .fail s => .ok () s
  | .stuck => .stuck

/-- `skip_entry`. -/
def skipEntry (size : Nat) : Call (Istream ι) Unit :=
  Istream.skip callback (if size % 512 ≠ 0 then u64 (size + 512 - size % 512) else size)

/-- `read_pax_header` on a cleared header: the header, and what is set of it. -/
def paxHeader (size : Nat) : Call (Istream ι) (DecodedHeader × Nat) := fun strm =>
  match readPaxHeader callback size ⟨strm, DecodedHeader.blank, 0⟩ with
  | .ok _ s => .ok (s.out, s.setByPax) s.fp
  | .fail s => .fail s.fp
  | .stuck => .stuck

/-- `read_gnu_new_sparse`: the map, and the size of the record behind it. -/
def newSparse (recordSize : Nat) : Call (Istream ι) (List SparseRegion × Nat) := fun strm =>
  match readGnuNewSparse callback ⟨strm, recordSize⟩ with
  | .ok map r => .ok (map, r.recordSize) r.fp
  | .fail r => .fail r.fp
  | .stuck => .stuck

/-- The largest size of a record that is read into memory: `TAR_MAX_SYMLINK_LEN`,
`TAR_MAX_PATH_LEN` and `TAR_MAX_PAX_LEN`. -/
def tarMaxLen : Nat := 65536

/-- The size of a record that is read into memory. -/
def memorySize (hdr : List UInt8) : Call (Istream ι) Nat := do
  let size ← orFail (readNumber (sizeField hdr))
  if size < 1 ∨ size > tarMaxLen then Call.fail else pure size

/-- What the loop of `read_header` ends with: the block, its version, and what the blocks in front
of it have set. -/
structure FileHeader where
  hdr : List UInt8
  version : TarVersion
  out : TarHeaderDecoded
  setByPax : Nat

/-- The header of a sparse file in the old format. -/
def oldSparse (fuel : Nat) (hdr : List UInt8) (out : TarHeaderDecoded) :
    Call (Istream ι) TarHeaderDecoded := do
  let sparse ← readGnuOldSparse callback fuel hdr
  if sparse = [] then Call.fail
  else do
    let size ← orFail (readNumber (realsizeField hdr))
    pure { out with sparse := sparse, actualSize := size }

/-- The loop of `read_header`, which ends with nothing at the end of the archive. -/
def headerLoop : Nat → Bool → TarHeaderDecoded → Nat → Call (Istream ι) (Option FileHeader)
  | 0, _, _, _ => Call.stuck
  | fuel + 1, prevWasZero, out, setByPax => do
      let hdr ← Istream.read callback 512
      if hdr.length < 512 then pure none
      else if isZeroBlock hdr then
        if prevWasZero then pure none else headerLoop fuel true out setByPax
      else
        match checkVersion hdr with
        | none => Call.fail
        | some version =>
            if !isChecksumValid hdr then Call.fail
            -- `TAR_TYPE_GNU_SLINK`, `TAR_TYPE_GNU_PATH`
            else if typeflag hdr = 0x4B then do
              let size ← memorySize hdr
              let target ← recordToMemory callback size
              headerLoop fuel false { out with linkTarget := some (cString target) }
                (setByPax ||| flagSlinkTarget)
            else if typeflag hdr = 0x4C then do
              let size ← memorySize hdr
              let name ← recordToMemory callback size
              headerLoop fuel false { out with name := some (cString name) }
                (setByPax ||| flagName)
            -- `TAR_TYPE_PAX_GLOBAL`
            else if typeflag hdr = 0x67 then do
              let size ← orFail (readNumber (sizeField hdr))
              regardless (skipEntry callback size)
              headerLoop fuel false out setByPax
            -- `TAR_TYPE_PAX`
            else if typeflag hdr = 0x78 then do
              let size ← memorySize hdr
              let pax ← paxHeader callback size
              headerLoop fuel false { TarHeaderDecoded.blank with toDecodedHeader := pax.1 } pax.2
            -- `TAR_TYPE_GNU_SPARSE`
            else if typeflag hdr = 0x53 then do
              let out ← oldSparse callback fuel hdr out
              pure (some ⟨hdr, version, out, setByPax⟩)
            else pure (some ⟨hdr, version, out, setByPax⟩)

/-- A map in the GNU 1.0 format behind the header. -/
def withNewSparse (setByPax : Nat) (out : TarHeaderDecoded) :
    Call (Istream ι) TarHeaderDecoded :=
  if setByPax &&& flagSparseGnu1X ≠ 0 then do
    let map ← newSparse callback out.recordSize
    if map.1 = [] then Call.fail else pure { out with sparse := map.1, recordSize := map.2 }
  else pure out

/-- A file without a map is as large as its record. -/
def sized (out : TarHeaderDecoded) : TarHeaderDecoded :=
  if out.sparse = [] then { out with actualSize := out.recordSize } else out

/-- `read_header`, which returns nothing for 1. -/
def readHeader (fuel : Nat) : Call (Istream ι) (Option TarHeaderDecoded) := do
  match ← headerLoop callback fuel false TarHeaderDecoded.blank 0 with
  | none => pure none
  | some found => do
      let out ← orFail (decodeHeader found.hdr found.setByPax found.out found.version)
      let out ← withNewSparse callback found.setByPax out
      pure (some (sized out))

end Reader

end ImageTool.Tar
