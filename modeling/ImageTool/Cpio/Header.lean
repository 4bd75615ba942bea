import ImageTool.Fstree.Tree
import ImageTool.Fstream.OstreamXfrm
import ImageTool.Tar.ReadHeader

/-!
# Cpio headers

An entry of a cpio archive is a header of numbers in hexadecimal, the path, and for a symbolic
link the target.  Header and path together are filled up to a multiple of four bytes, and so is
the target.  The trailer is a header with a name of its own, filled up so that the archive ends at
a multiple of 512 bytes.
-/

namespace ImageTool.Cpio

open ImageTool.Lib ImageTool.Fstream ImageTool.Fstree ImageTool.Tar

/-! ## Numbers -/

/-- A digit of a number in hexadecimal. -/
def hexDigit (d : Nat) : UInt8 := UInt8.ofNat (if d < 10 then 48 + d else 55 + d)

/-- `%0*X`: the digits of a number with zeros in front. -/
def hexText (width n : Nat) : List UInt8 :=
  List.leftpad width 48 ((Nat.digits 16 n).map hexDigit).reverse

theorem length_hexText (width n : Nat) :
    (hexText width n).length = max width (Nat.digits 16 n).length := by
  simp only [hexText, List.leftpad, List.length_append, List.length_replicate, List.length_reverse,
    List.length_map]
  omega

theorem length_hexText_u32 (n : Nat) : (hexText 8 (u32 n)).length = 8 := by
  have hdigits : (Nat.digits 16 (u32 n)).length ≤ 8 :=
    (Nat.digits_length_le_iff (by decide) _).2 (u32_lt n)
  rw [length_hexText]
  omega

/-! ## Entries -/

/-- What `cpio_write_header` sees of a node.  The path is canonical. -/
structure Entry where
  type : TreeNodeType
  permissions : Nat
  inodeNum : UInt32
  uid : Nat
  gid : Nat
  linkCount : UInt32
  mtime : Nat
  fileSize : Nat
  deviceNumber : Nat
  target : List UInt8
  path : List UInt8
  hardlink : Bool
  deriving DecidableEq

/-- `cpio_magic`. -/
def cpioMagic : List UInt8 := [48, 55, 48, 55, 48, 49]

/-- `cpio_trailer`. -/
def cpioTrailer : List UInt8 := [84, 82, 65, 73, 76, 69, 82, 33, 33, 33]

/-- The header as `snprintf` prints it. -/
def printHeader (inodeNum mode uid gid linkCount mtime size devMajor devMinor rdevMajor rdevMinor
    namesize : Nat) : List UInt8 :=
  cpioMagic ++ hexText 8 (u32 inodeNum) ++ hexText 8 (u32 mode) ++ hexText 8 (u32 uid) ++
    hexText 8 (u32 gid) ++ hexText 8 (u32 linkCount) ++ hexText 8 (u64 mtime) ++
    hexText 8 (u32 size) ++ hexText 8 (u32 devMajor) ++ hexText 8 (u32 devMinor) ++
    hexText 8 (u32 rdevMajor) ++ hexText 8 (u32 rdevMinor) ++ hexText 8 (u32 namesize) ++
    hexText 8 0

/-- Only the time of modification can take more than its eight digits. -/
theorem length_printHeader (inodeNum mode uid gid linkCount mtime size devMajor devMinor rdevMajor
    rdevMinor namesize : Nat) :
    (printHeader inodeNum mode uid gid linkCount mtime size devMajor devMinor rdevMajor rdevMinor
      namesize).length = 102 + (hexText 8 (u64 mtime)).length := by
  have hzero : (hexText 8 0).length = 8 := length_hexText_u32 0
  simp only [printHeader, List.length_append, length_hexText_u32, hzero]
  have hmagic : cpioMagic.length = 6 := rfl
  omega

namespace Entry

/-- The bits of `mode` for the type of a node. -/
def fileType : TreeNodeType → Nat
  | .dir => 0o040000
  | .file => 0o100000
  | .fifo => 0o010000
  | .socket => 0o140000
  | .charDev => 0o020000
  | .blockDev => 0o060000
  | .symlink => 0o120000
  | .hardLink => 0

/-- `mode`. -/
def mode (e : Entry) : Nat := e.permissions % 2 ^ 16 ||| fileType e.type

/-- `size`. -/
def size (e : Entry) : Nat :=
  match e.type with
  | .file => if e.hardlink then 0 else e.fileSize
  | .symlink => e.target.length + 1
  | _ => 0

/-- `dev_major` and `dev_minor`. -/
def device (e : Entry) : Nat × Nat :=
  match e.type with
  | .charDev | .blockDev => (devMajor e.deviceNumber, devMinor e.deviceNumber)
  | _ => (0, 0)

/-- `pathlen`. -/
def pathlen (e : Entry) : Nat := u32 e.path.length

/-- The header of an entry. -/
def header (e : Entry) : List UInt8 :=
  printHeader e.inodeNum.toNat e.mode e.uid e.gid e.linkCount.toNat e.mtime e.size 3 1
    e.device.1 e.device.2 (e.pathlen + 1)

end Entry

/-- What is appended so that the next thing starts at a multiple of four. -/
def padding (n : Nat) : List UInt8 := if n % 4 = 0 then [] else List.replicate (4 - n % 4) 0

section Write

variable {τ : Type}

/-- Append the padding behind `n` bytes, if there is any. -/
def appendPadding (strm : Ostream τ) (n : Nat) : Call τ Unit :=
  Call.guard (n % 4 ≠ 0) (strm.append (padding n))

/-- The first `n` bytes of a string with its terminating zero. -/
def cstrBytes (s : List UInt8) (n : Nat) : List UInt8 := (s ++ [0]).take n

/-- `cpio_write_header`. -/
def cpioWriteHeader (strm : Ostream τ) (e : Entry) : Call τ Unit :=
  if e.type = .hardLink then pure ()
  else do
    strm.append e.header
    strm.append (cstrBytes e.path (u32 (e.pathlen + 1)))
    appendPadding strm (u32 (e.pathlen + (1 + 110)))
    Call.guard (e.type = .symlink) (do
      let pathlen := u32 (e.target.length + 1)
      strm.append (cstrBytes e.target pathlen)
      appendPadding strm pathlen)

/-- The header of the trailer. -/
def trailerHeader : List UInt8 :=
  printHeader 0 0 0 0 1 0 0 0 0 0 0 (cpioTrailer.length + 1)

/-- The loop of `cpio_write_trailer`; the first argument bounds the number of rounds. -/
def fillLoop (strm : Ostream τ) : Nat → Nat → Call τ Unit
  | 0, offset => if offset % 512 = 0 then pure () else Call.stuck
  | fuel + 1, offset =>
      if offset % 512 = 0 then pure ()
      else do
        strm.append [0]
        fillLoop strm fuel (u64 (offset + 1))

/-- `cpio_write_trailer`. -/
def cpioWriteTrailer (offset : Nat) (strm : Ostream τ) : Call τ Unit := do
  strm.append trailerHeader
  strm.append (cstrBytes cpioTrailer (cpioTrailer.length + 1))
  fillLoop strm 512 (u64 (offset + (trailerHeader.length + cpioTrailer.length + 1)))

/-! ## What is appended -/

/-- Append one thing after the other. -/
def appendAll (strm : Ostream τ) : List (List UInt8) → Call τ Unit
  | [] => pure ()
  | data :: rest => do
      strm.append data
      appendAll strm rest

/-- The padding behind `n` bytes. -/
def paddingPieces (n : Nat) : List (List UInt8) := if n % 4 ≠ 0 then [padding n] else []

/-- What `cpio_write_header` appends. -/
def Entry.pieces (e : Entry) : List (List UInt8) :=
  if e.type = .hardLink then []
  else
    e.header :: cstrBytes e.path (u32 (e.pathlen + 1)) ::
      (paddingPieces (u32 (e.pathlen + (1 + 110))) ++
        if e.type = .symlink then
          cstrBytes e.target (u32 (e.target.length + 1)) ::
            paddingPieces (u32 (e.target.length + 1))
        else [])

/-- The number of zeros up to the next multiple of 512. -/
def fillCount (offset : Nat) : Nat := (512 - offset % 512) % 512

/-- What `cpio_write_trailer` appends. -/
def trailerPieces (offset : Nat) : List (List UInt8) :=
  trailerHeader :: cstrBytes cpioTrailer (cpioTrailer.length + 1) ::
    List.replicate
      (fillCount (u64 (offset + (trailerHeader.length + cpioTrailer.length + 1)))) [0]

/-- The bytes of some pieces. -/
def piecesLength (pieces : List (List UInt8)) : Nat := (pieces.map List.length).sum

variable {strm : Ostream τ}

@[simp] theorem piecesLength_nil : piecesLength [] = 0 := rfl

@[simp] theorem piecesLength_cons (data : List UInt8) (pieces : List (List UInt8)) :
    piecesLength (data :: pieces) = data.length + piecesLength pieces := rfl

theorem piecesLength_append (front back : List (List UInt8)) :
    piecesLength (front ++ back) = piecesLength front + piecesLength back := by
  unfold piecesLength
  rw [List.map_append, List.sum_append]

theorem appendAll_append (front back : List (List UInt8)) (w : τ) :
    appendAll strm (front ++ back) w =
      (appendAll strm front w).bind fun _ w => appendAll strm back w := by
  induction front generalizing w with
  | nil => rfl
  | cons data front ih =>
      rw [List.cons_append, appendAll, appendAll, Call.bind_apply, Call.bind_apply]
      cases strm.append data w with
      | ok _ w => exact ih w
      | fail w => rfl
      | stuck => rfl

theorem appendPadding_eq (n : Nat) : appendPadding strm n = appendAll strm (paddingPieces n) := by
  funext w
  unfold appendPadding paddingPieces
  by_cases hpad : n % 4 ≠ 0
  · rw [Call.guard_pos hpad, if_pos hpad, appendAll, Call.bind_apply]
    cases strm.append (padding n) w with
    | ok _ w => rfl
    | fail w => rfl
    | stuck => rfl
  · rw [Call.guard_neg hpad, if_neg hpad]
    rfl

theorem cpioWriteHeader_eq (e : Entry) : cpioWriteHeader strm e = appendAll strm e.pieces := by
  funext w
  unfold cpioWriteHeader Entry.pieces
  by_cases hlink : e.type = .hardLink
  · rw [if_pos hlink, if_pos hlink]
    rfl
  · rw [if_neg hlink, if_neg hlink, appendAll, Call.bind_apply, Call.bind_apply]
    cases strm.append e.header w with
    | fail w => rfl
    | stuck => rfl
    | ok _ w =>
        rw [Outcome.bind_ok, Outcome.bind_ok, appendAll, Call.bind_apply, Call.bind_apply]
        cases strm.append (cstrBytes e.path (u32 (e.pathlen + 1))) w with
        | fail w => rfl
        | stuck => rfl
        | ok _ w =>
            rw [Outcome.bind_ok, Outcome.bind_ok, appendAll_append, Call.bind_apply,
              appendPadding_eq]
            by_cases hsymlink : e.type = .symlink
            · rw [if_pos hsymlink, Call.guard_pos hsymlink]
              simp only [appendPadding_eq]
              rfl
            · rw [if_neg hsymlink, Call.guard_neg hsymlink]
              rfl

/-- Each round brings the offset closer to a multiple of 512. -/
theorem fillLoop_eq {fuel offset : Nat} (hfuel : fillCount offset ≤ fuel) :
    fillLoop strm fuel offset = appendAll strm (List.replicate (fillCount offset) [0]) := by
  induction fuel generalizing offset with
  | zero =>
      have hcount : fillCount offset = 0 := Nat.le_zero.1 hfuel
      have hend : offset % 512 = 0 := by
        unfold fillCount at hcount
        omega
      rw [fillLoop, if_pos hend, hcount]
      rfl
  | succ fuel ih =>
      rw [fillLoop]
      by_cases hend : offset % 512 = 0
      · have hcount : fillCount offset = 0 := by
          unfold fillCount
          omega
        rw [if_pos hend, hcount]
        rfl
      · have hcount : fillCount offset = fillCount (u64 (offset + 1)) + 1 := by
          unfold fillCount u64
          omega
        rw [if_neg hend, hcount, List.replicate_succ, appendAll, ih (by omega)]

theorem cpioWriteTrailer_eq (offset : Nat) :
    cpioWriteTrailer offset strm = appendAll strm (trailerPieces offset) := by
  have hfill : ∀ offset, fillCount offset ≤ 512 := by
    intro offset
    unfold fillCount
    omega
  unfold cpioWriteTrailer trailerPieces
  rw [fillLoop_eq (hfill _), appendAll, appendAll]

theorem length_trailerHeader : trailerHeader.length = 110 := by
  have hzero : (hexText 8 (u64 0)).length = 8 := length_hexText_u32 0
  rw [trailerHeader, length_printHeader, hzero]

/-- Numbers other than the time of modification have the same number of digits in all headers. -/
theorem piecesLength_congr {e e' : Entry} (htype : e.type = e'.type) (hmtime : e.mtime = e'.mtime)
    (htarget : e.target = e'.target) (hpath : e.path = e'.path) :
    piecesLength e.pieces = piecesLength e'.pieces := by
  have hlen : e.pathlen = e'.pathlen := by
    unfold Entry.pathlen
    rw [hpath]
  have hheader : e.header.length = e'.header.length := by
    unfold Entry.header
    rw [length_printHeader, length_printHeader, hmtime]
  unfold Entry.pieces
  rw [htype, hlen, hpath, htarget]
  split
  · rfl
  · rw [piecesLength_cons, piecesLength_cons, hheader]
    rfl

/-- The header, the path and their padding, with a time of at most eight digits. -/
theorem piecesLength_plain {e : Entry} (hlink : e.type ≠ .hardLink) (hsymlink : e.type ≠ .symlink)
    (hmtime : e.mtime = 0) : piecesLength e.pieces =
      110 + ((cstrBytes e.path (u32 (e.pathlen + 1))).length +
        piecesLength (paddingPieces (u32 (e.pathlen + (1 + 110))))) := by
  have hzero : (hexText 8 (u64 0)).length = 8 := length_hexText_u32 0
  have hheader : e.header.length = 110 := by
    unfold Entry.header
    rw [length_printHeader, hmtime, hzero]
  unfold Entry.pieces
  rw [if_neg hlink, if_neg hsymlink, List.append_nil, piecesLength_cons, piecesLength_cons,
    hheader]

theorem piecesLength_trailer (offset : Nat) :
    piecesLength (trailerPieces offset) = 121 + fillCount (u64 (offset + 121)) := by
  have hname : (cstrBytes cpioTrailer (cpioTrailer.length + 1)).length = 11 := rfl
  have hheader : trailerHeader.length + cpioTrailer.length + 1 = 121 := by
    rw [length_trailerHeader]
    rfl
  have hzeros : ∀ k, piecesLength (List.replicate k [0]) = k := by
    intro k
    unfold piecesLength
    rw [List.map_replicate, List.sum_replicate]
    simp
  rw [trailerPieces, piecesLength_cons, piecesLength_cons, length_trailerHeader, hname, hzeros,
    ← length_trailerHeader, hheader, length_trailerHeader]
  omega

end Write

end ImageTool.Cpio
