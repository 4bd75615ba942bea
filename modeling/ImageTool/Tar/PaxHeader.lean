import ImageTool.Lib.CString
import ImageTool.Imgtool.TarIstream
import ImageTool.Tar.NumberFormat

/-!
# PAX headers

A PAX header is a run of records `length key=value`, each with a newline at its end.
`read_pax_header` reads all of it into memory, goes over the records and puts a NUL behind each
key and each value on its way.
-/

namespace ImageTool.Tar

open ImageTool.Lib ImageTool.Fstream ImageTool.Imgtool

/-- The characters of a string. -/
def ascii (s : String) : List UInt8 := s.toList.map fun c => UInt8.ofNat c.toNat

/-! ## The decoded header -/

/-- `tar_xattr_t`. -/
structure Xattr where
  key : List UInt8
  value : List UInt8
  deriving DecidableEq

/-- What a PAX header sets of `tar_header_decoded_t`. -/
structure DecodedHeader where
  uid : Nat
  gid : Nat
  name : Option (List UInt8)
  linkTarget : Option (List UInt8)
  sparse : List SparseRegion
  actualSize : Nat
  recordSize : Nat
  xattr : List Xattr
  mtime : Int

/-- The header that is cleared before it is decoded. -/
def DecodedHeader.blank : DecodedHeader := ⟨0, 0, none, none, [], 0, 0, [], 0⟩

/-- `PAX_SIZE`. -/
def flagSize : Nat := 0x001

/-- `PAX_UID`. -/
def flagUid : Nat := 0x002

/-- `PAX_GID`. -/
def flagGid : Nat := 0x004

/-- `PAX_NAME`. -/
def flagName : Nat := 0x020

/-- `PAX_SLINK_TARGET`. -/
def flagSlinkTarget : Nat := 0x040

/-- `PAX_MTIME`. -/
def flagMtime : Nat := 0x100

/-- `PAX_SPARSE_SIZE`. -/
def flagSparseSize : Nat := 0x400

/-- `PAX_SPARSE_GNU_1_X`. -/
def flagSparseGnu1X : Nat := 0x800

/-! ## Values -/

/-- `convert` of a character in base 64. -/
def base64Digit (c : UInt8) : Nat :=
  if 0x41 ≤ c ∧ c ≤ 0x5A then c.toNat - 0x41
  else if 0x61 ≤ c ∧ c ≤ 0x7A then c.toNat - 0x61 + 26
  else if 0x30 ≤ c ∧ c ≤ 0x39 then c.toNat - 0x30 + 52
  else if c = 0x2B then 62
  else if c = 0x2F ∨ c = 0x2D then 63
  else 0

/-- The characters `base64_decode` stops at. -/
def base64Stops (c : UInt8) : Bool := c == 0x3D || c == 0x5F || c == 0

/-- The bytes of a group of `diff` characters. -/
def base64Group (group : List UInt8) : List UInt8 :=
  let value := group.foldl (fun value c => (value <<< 6) ||| base64Digit c) 0
  let value := value <<< (6 * (4 - group.length))
  [UInt8.ofNat (value >>> 16), UInt8.ofNat (value >>> 8), UInt8.ofNat value].take
    (group.length * 3 / 4)

/-- The characters of the next group: four, or those in front of the first one the loop stops
at. -/
def base64Next (value : List UInt8) : List UInt8 :=
  (value.take 4).takeWhile fun c => !base64Stops c

theorem length_base64Next_le (value : List UInt8) : (base64Next value).length ≤ value.length :=
  Nat.le_trans (List.takeWhile_prefix _).length_le (List.length_take_le' _ _)

/-- `base64_decode`, which writes no byte in front of one it has yet to read. -/
def base64Decode (value : List UInt8) : List UInt8 :=
  if (base64Next value).length < 2 then []
  else if (base64Next value).length < 4 then base64Group (base64Next value)
  else base64Group (base64Next value) ++ base64Decode (value.drop 4)
  termination_by value.length
  decreasing_by
    have hle := length_base64Next_le value
    rw [List.length_drop]
    omega

/-- `isxdigit`. -/
def isHexDigit (c : UInt8) : Bool :=
  (0x30 ≤ c && c ≤ 0x39) || (0x41 ≤ c && c ≤ 0x46) || (0x61 ≤ c && c ≤ 0x66)

/-- `xdigit`. -/
def hexDigit (c : UInt8) : Nat :=
  if 0x41 ≤ c ∧ c ≤ 0x5A then c.toNat - 0x41 + 10
  else if 0x61 ≤ c ∧ c ≤ 0x7A then c.toNat - 0x61 + 10
  else c.toNat - 0x30

/-- `urldecode`: the bytes that are put out. -/
def urldecode : List UInt8 → List UInt8
  | 0x25 :: a :: b :: str =>
      if isHexDigit a ∧ isHexDigit b then
        UInt8.ofNat ((hexDigit a <<< 4) ||| hexDigit b) :: urldecode str
      else 0x25 :: urldecode (a :: b :: str)
  | c :: str => c :: urldecode str
  | [] => []

/-- A round of the loop of `read_sparse_map`: the entry, and what is behind it. -/
def sparseMapEntry (line : List UInt8) : Option (SparseRegion × List UInt8) :=
  match paxReadDecimal line, line.dropWhile (isDigitOf 10) with
  | some offset, 0x2C :: rest =>
      (paxReadDecimal rest).map fun count => (⟨offset, count⟩, rest.dropWhile (isDigitOf 10))
  | _, _ => none

/-- The loop of `read_sparse_map`, with the number of entries it may have. -/
def sparseMapLoop : Nat → List UInt8 → List SparseRegion → Option (List SparseRegion)
  | 0, _, _ => none
  | n + 1, line, list =>
      match sparseMapEntry line with
      | none => none
      | some (ent, 0x2C :: rest) => sparseMapLoop n rest (list ++ [ent])
      | some (ent, _) => some (list ++ [ent])

/-- `read_sparse_map`.  Each entry has a comma. -/
def readSparseMap (line : List UInt8) : Option (List SparseRegion) :=
  sparseMapLoop (line.length + 1) line []

/-! ## Fields -/

/-- The type of a field of `pax_handler_t`, with its function. -/
inductive PaxCallback where
  | sint (cb : DecodedHeader → Int → DecodedHeader)
  | uint (cb : DecodedHeader → Nat → DecodedHeader)
  | string (cb : DecodedHeader → List UInt8 → DecodedHeader)
  | prefixedXattr (cb : DecodedHeader → Xattr → DecodedHeader)
  | ignore

/-- `pax_handler_t`. -/
structure PaxHandler where
  name : List UInt8
  flag : Nat
  cb : PaxCallback

/-- `pax_uid`. -/
def paxUid (out : DecodedHeader) (id : Nat) : DecodedHeader := { out with uid := u32 id }

/-- `pax_gid`. -/
def paxGid (out : DecodedHeader) (id : Nat) : DecodedHeader := { out with gid := u32 id }

/-- `pax_size`. -/
def paxSize (out : DecodedHeader) (size : Nat) : DecodedHeader := { out with recordSize := size }

/-- `pax_mtime`. -/
def paxMtime (out : DecodedHeader) (mtime : Int) : DecodedHeader := { out with mtime := mtime }

/-- `pax_rsize`. -/
def paxRsize (out : DecodedHeader) (size : Nat) : DecodedHeader := { out with actualSize := size }

/-- `pax_path`. -/
def paxPath (out : DecodedHeader) (path : List UInt8) : DecodedHeader :=
  { out with name := some path }

/-- `pax_slink`. -/
def paxSlink (out : DecodedHeader) (path : List UInt8) : DecodedHeader :=
  { out with linkTarget := some path }

/-- `pax_xattr_schily`. -/
def paxXattrSchily (out : DecodedHeader) (xattr : Xattr) : DecodedHeader :=
  { out with xattr := xattr :: out.xattr }

/-- `pax_xattr_libarchive`.  The key ends at the first NUL that is decoded. -/
def paxXattrLibarchive (out : DecodedHeader) (xattr : Xattr) : DecodedHeader :=
  { out with
    xattr := ⟨cString (urldecode xattr.key), base64Decode xattr.value⟩ :: out.xattr }

/-- `pax_fields`. -/
def paxFields : List PaxHandler :=
  [⟨ascii "uid", flagUid, .uint paxUid⟩,
    ⟨ascii "gid", flagGid, .uint paxGid⟩,
    ⟨ascii "path", flagName, .string paxPath⟩,
    ⟨ascii "size", flagSize, .uint paxSize⟩,
    ⟨ascii "linkpath", flagSlinkTarget, .string paxSlink⟩,
    ⟨ascii "mtime", flagMtime, .sint paxMtime⟩,
    ⟨ascii "GNU.sparse.name", flagName, .string paxPath⟩,
    ⟨ascii "GNU.sparse.size", flagSparseSize, .uint paxRsize⟩,
    ⟨ascii "GNU.sparse.realsize", flagSparseSize, .uint paxRsize⟩,
    ⟨ascii "GNU.sparse.major", flagSparseGnu1X, .ignore⟩,
    ⟨ascii "GNU.sparse.minor", flagSparseGnu1X, .ignore⟩,
    ⟨ascii "SCHILY.xattr", 0, .prefixedXattr paxXattrSchily⟩,
    ⟨ascii "LIBARCHIVE.xattr", 0, .prefixedXattr paxXattrLibarchive⟩]

/-- Whether a field is the one for a key. -/
def PaxHandler.handles (field : PaxHandler) (key : List UInt8) : Bool :=
  match field.cb with
  | .prefixedXattr _ => (field.name ++ [0x2E]).isPrefixOf key
  | _ => key == field.name

/-- `find_handler`. -/
def findHandler (key : List UInt8) : Option PaxHandler := paxFields.find? (·.handles key)

/-- `mkxattr`. -/
def mkxattr (key value : List UInt8) : Xattr := ⟨key, value⟩

/-- `apply_handler`, for a value with the string `text` and the bytes `value`.  The negation is one
in two's complement. -/
def applyHandler (out : DecodedHeader) (field : PaxHandler) (key text value : List UInt8) :
    Option DecodedHeader :=
  match field.cb with
  | .sint cb =>
      match text with
      | 0x2D :: rest => (paxReadDecimal rest).map fun uval : Nat => cb out (int64 (-int64 uval))
      | _ => (paxReadDecimal text).map fun uval : Nat => cb out (int64 uval)
  | .uint cb => (paxReadDecimal text).map (cb out)
  | .string cb => some (cb out text)
  | .prefixedXattr cb => some (cb out (mkxattr (key.drop (field.name.length + 1)) value))
  | .ignore => some out

/-! ## Records -/

/-- What `read_pax_header` keeps from record to record: the header and the flags it sets, the last
offset, and whether `sparse_last` is the last entry of the list. -/
structure PaxState where
  out : DecodedHeader
  setByPax : Nat
  offset : Nat
  sparseLast : Bool

/-- `GNU.sparse.map`. -/
def keyMap : List UInt8 := ascii "GNU.sparse.map"

/-- `GNU.sparse.offset`. -/
def keyOffset : List UInt8 := ascii "GNU.sparse.offset"

/-- `GNU.sparse.numbytes`. -/
def keyNumbytes : List UInt8 := ascii "GNU.sparse.numbytes"

/-- An entry behind the last one, or the first one of a new list. -/
def addSparse (s : PaxState) (sparse : SparseRegion) : PaxState :=
  { s with
    out := { s.out with
      sparse := if s.sparseLast then s.out.sparse ++ [sparse] else [sparse] }
    sparseLast := true }

/-- What is done with a key and a value.  Where it fails the caller clears the header. -/
def handleRecord (s : PaxState) (key text value : List UInt8) : Option PaxState :=
  match findHandler key with
  | some field => (applyHandler s.out field key text value).map fun out =>
      { s with out := out, setByPax := s.setByPax ||| field.flag }
  | none =>
      if key = keyMap then
        (readSparseMap text).map fun map =>
          { s with out := { s.out with sparse := map }, sparseLast := false }
      else if key = keyOffset then
        (paxReadDecimal text).map fun offset => { s with offset := offset }
      else if key = keyNumbytes then
        (paxReadDecimal text).map fun numBytes => addSparse s ⟨s.offset, numBytes⟩
      else some s

/-- The buffer with the header, and the state. -/
structure PaxReader where
  buffer : List UInt8
  state : PaxState

/-- `LONG_MIN` and `LONG_MAX` are the limits of what `strtol` returns. -/
def clampLong (n : Int) : Int := max (-2 ^ 63) (min n (2 ^ 63 - 1))

/-- `strtol` in base 10: the number, and how many characters it is made of. -/
def strtol (text : List UInt8) : Int × Nat :=
  let blanks := text.takeWhile isSpace
  let rest := text.drop blanks.length
  let sign := rest.take 1 |>.filter fun c => c = 0x2B ∨ c = 0x2D
  let digits := (rest.drop sign.length).takeWhile (isDigitOf 10)
  if digits = [] then (0, 0)
  else
    (clampLong (if sign = [0x2D] then -(digitsValue 10 digits : Int) else digitsValue 10 digits),
      blanks.length + sign.length + digits.length)

/-- A byte of the buffer is overwritten. -/
def store (i : Nat) (c : UInt8) : Call PaxReader Unit := do
  let r ← Call.get
  if i < r.buffer.length then Call.modify fun r => { r with buffer := r.buffer.set i c }
  else Call.stuck

/-- The length of the record at `line`, and the position behind it.  The record is cut off with a
NUL. -/
def recordLength (line : Nat) : Call PaxReader (Nat × Nat) := do
  let r ← Call.get
  let text ← Call.within (cstrAt r.buffer line)
  let c ← Call.within r.buffer[line + (strtol text).2]?
  if (strtol text).2 = 0 ∨ isSpace c = false ∨ (strtol text).1 ≤ 0 then Call.fail
  else if (strtol text).1 > ((r.buffer.length - 1 - line : Nat) : Int) then Call.fail
  else do
    store (line + (strtol text).1.toNat - 1) 0
    pure ((strtol text).1.toNat, line + (strtol text).2)

/-- The loop over white space, up to the end of the header. -/
def skipSpaces (buffer : List UInt8) (ptr : Nat) : Nat :=
  ptr + (((buffer.drop ptr).take (buffer.length - 1 - ptr)).takeWhile isSpace).length

/-- A NUL or an equals sign. -/
def endsKey (c : UInt8) : Bool := c == 0 || c == 0x3D

/-- The positions of the key and of the value in a record of length `len`.  The key is cut off
with a NUL. -/
def recordKey (line len ptr : Nat) : Call PaxReader (Nat × Nat) := do
  let r ← Call.get
  let key := skipSpaces r.buffer ptr
  if key ≥ r.buffer.length - 1 ∨ key - line ≥ len then Call.fail
  else do
    let ptr ← Call.within (findAt endsKey r.buffer key)
    if ptr = key ∨ r.buffer[ptr]? ≠ some 0x3D then Call.fail
    else do
      store ptr 0
      pure (key, ptr + 1)

/-- The key and the value are handled.  Of the value, both the string and the bytes are read. -/
def recordValue (line len key value : Nat) : Call PaxReader Unit := do
  let r ← Call.get
  let name ← Call.within (cstrAt r.buffer key)
  let text ← Call.within (cstrAt r.buffer value)
  let bytes ← Call.within (bytesAt r.buffer value (sub64 len (value - line + 1)))
  match handleRecord r.state name text bytes with
  | none => Call.fail
  | some state => Call.modify fun r => { r with state := state }

/-- A round of the loop of `read_pax_header`: the length of the record at `line`. -/
def readRecord (line : Nat) : Call PaxReader Nat := do
  let record ← recordLength line
  let entry ← recordKey line record.1 record.2
  recordValue line record.1 entry.1 entry.2
  pure record.1

/-- The loop of `read_pax_header`, from `line` on. -/
def paxLoop : Nat → Nat → Call PaxReader Unit
  | 0, _ => Call.stuck
  | fuel + 1, line => do
      let r ← Call.get
      if line < r.buffer.length - 1 then do
        let len ← readRecord line
        paxLoop fuel (line + len)
      else pure ()

/-- The state `read_pax_header` begins with. -/
def paxStart (out : DecodedHeader) (setByPax : Nat) : PaxState := ⟨out, setByPax, 0, false⟩

/-! ## The whole header -/

/-- What `read_pax_header` uses: the stream, the header and the flags. -/
structure PaxSource (ι : Type) where
  fp : Istream ι
  out : DecodedHeader
  setByPax : Nat

section Source

variable {ι : Type} (callback : Call (Istream ι) Unit)

/-- `skip_padding`. -/
def skipPadding (size : Nat) : Call (Istream ι) Unit :=
  if size % 512 ≠ 0 then Istream.skip callback (512 - size % 512) else pure ()

/-- `record_to_memory`. -/
def recordToMemory (size : Nat) : Call (Istream ι) (List UInt8) := do
  let data ← Istream.read callback size
  if data.length < size then Call.fail
  else do
    skipPadding callback size
    pure (data ++ [0])

/-- `read_pax_header`. -/
def readPaxHeader (entsize : Nat) : Call (PaxSource ι) Unit := do
  let buffer ← Call.zoom PaxSource.fp (fun s fp => { s with fp := fp })
    (recordToMemory callback entsize)
  let s ← Call.get
  match paxLoop (entsize + 1) 0 ⟨buffer, paxStart s.out s.setByPax⟩ with
  | .ok _ r => Call.modify fun s => { s with out := r.state.out, setByPax := r.state.setByPax }
  | .fail _ => Call.fail
  | .stuck => Call.stuck

end Source

end ImageTool.Tar
