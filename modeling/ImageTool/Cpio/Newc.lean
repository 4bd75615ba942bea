import ImageTool.Cpio.Header

/-!
# Reading a cpio archive

A reader of the SVR4 format without a checksum, written down from the format and not from the
program: a header of 110 bytes, the name with a zero behind it, and the data, name and data each
filled up to a multiple of four bytes; an entry with the name of the trailer is the last one.  It
gives back what `cpio_write_header` has been given.
-/

namespace ImageTool.Cpio

open ImageTool.Lib ImageTool.Fstream ImageTool.Fstree ImageTool.Tar

/-! ## Numbers -/

/-- The value of a digit in hexadecimal. -/
def hexValue (c : UInt8) : Option Nat :=
  if 48 ≤ c.toNat ∧ c.toNat < 58 then some (c.toNat - 48)
  else if 65 ≤ c.toNat ∧ c.toNat < 71 then some (c.toNat - 55)
  else if 97 ≤ c.toNat ∧ c.toNat < 103 then some (c.toNat - 87)
  else none

/-- The value of a number in hexadecimal. -/
def hexNumber (cs : List UInt8) : Option Nat :=
  (cs.mapM hexValue).map fun digits => Nat.ofDigits 16 digits.reverse

/-- So many numbers of eight digits. -/
def hexFields : Nat → List UInt8 → Option (List Nat)
  | 0, _ => some []
  | k + 1, cs =>
      match hexNumber (cs.take 8), hexFields k (cs.drop 8) with
      | some n, some fields => some (n :: fields)
      | _, _ => none

theorem hexValue_hexDigit : ∀ d < 16, hexValue (hexDigit d) = some d := by decide

theorem mapM_hexValue {digits : List Nat} (h : ∀ d ∈ digits, d < 16) :
    (digits.map hexDigit).mapM hexValue = some digits := by
  induction digits with
  | nil => rfl
  | cons d digits ih =>
      rw [List.forall_mem_cons] at h
      rw [List.map_cons, List.mapM_cons, hexValue_hexDigit d h.1, ih h.2]
      rfl

/-- A number that is printed is read back. -/
theorem hexNumber_hexText (width n : Nat) : hexNumber (hexText width n) = some n := by
  have hzeros : ∀ k, List.replicate k (48 : UInt8) = (List.replicate k 0).map hexDigit := by
    intro k
    rw [List.map_replicate]
    rfl
  have htext : hexText width n =
      ((Nat.digits 16 n ++ List.replicate (width - (Nat.digits 16 n).length) 0).reverse).map
        hexDigit := by
    unfold hexText List.leftpad
    rw [hzeros, List.reverse_append, List.map_append, List.reverse_replicate, List.map_reverse,
      List.length_reverse, List.length_map]
  have hdigits : ∀ d ∈ (Nat.digits 16 n ++
      List.replicate (width - (Nat.digits 16 n).length) 0).reverse, d < 16 := by
    intro d hd
    rw [List.mem_reverse, List.mem_append] at hd
    rcases hd with hd | hd
    · exact Nat.digits_lt_base (by decide) hd
    · rw [List.eq_of_mem_replicate hd]
      decide
  unfold hexNumber
  rw [htext, mapM_hexValue hdigits, Option.map_some, List.reverse_reverse,
    Nat.ofDigits_append_replicate_zero, Nat.ofDigits_digits]

theorem hexFields_flatMap {ns : List Nat} (h : ∀ n ∈ ns, (hexText 8 n).length = 8)
    (rest : List UInt8) :
    hexFields ns.length (ns.flatMap (hexText 8) ++ rest) = some ns := by
  induction ns with
  | nil => rfl
  | cons n ns ih =>
      rw [List.forall_mem_cons] at h
      rw [List.flatMap_cons, List.append_assoc, List.length_cons, hexFields,
        List.take_left' h.1, List.drop_left' h.1, hexNumber_hexText, ih h.2]

/-! ## Members -/

/-- A file of an archive. -/
structure Member where
  ino : Nat
  mode : Nat
  uid : Nat
  gid : Nat
  nlink : Nat
  mtime : Nat
  devMajor : Nat
  devMinor : Nat
  rdevMajor : Nat
  rdevMinor : Nat
  name : List UInt8
  data : List UInt8
  deriving DecidableEq

/-- The type of a file, in the upper bits of its mode. -/
def Member.type (m : Member) : Option TreeNodeType :=
  match m.mode / 2 ^ 12 with
  | 1 => some .fifo
  | 2 => some .charDev
  | 4 => some .dir
  | 6 => some .blockDev
  | 8 => some .file
  | 10 => some .symlink
  | 12 => some .socket
  | _ => none

/-- The permissions, in the lower bits of the mode. -/
def Member.permissions (m : Member) : Nat := m.mode % 2 ^ 12

/-- The number of a device: the lower byte of the minor number, the major number, and the rest of
the minor number. -/
def Member.deviceNumber (m : Member) : Nat :=
  m.rdevMinor % 2 ^ 8 + m.rdevMajor * 2 ^ 8 + m.rdevMinor / 2 ^ 8 * 2 ^ 20

/-- The target of a symbolic link: its data are a string. -/
def Member.target (m : Member) : List UInt8 := m.data.takeWhile (· ≠ 0)

/-- The bytes from `n` on to the next multiple of four. -/
def alignment (n : Nat) : Nat := (4 - n % 4) % 4

/-- The member at the beginning, and what follows behind it. -/
def readMember (cs : List UInt8) : Option (Member × List UInt8) :=
  if cs.take 6 ≠ cpioMagic then none
  else
    match hexFields 13 (cs.drop 6) with
    | some [ino, mode, uid, gid, nlink, mtime, filesize, devMajor, devMinor, rdevMajor, rdevMinor,
        namesize, _] =>
        let name := (cs.drop 110).take namesize
        let behind := cs.drop (110 + namesize + alignment (110 + namesize))
        let next := behind.drop (filesize + alignment filesize)
        -- all of the member is there, and the name ends with its zero
        if name.getLast? = some 0 ∧ filesize + alignment filesize ≤ behind.length then
          some (⟨ino, mode, uid, gid, nlink, mtime, devMajor, devMinor, rdevMajor, rdevMinor,
            name.dropLast, behind.take filesize⟩, next)
        else none
    | _ => none

/-- The members up to the trailer; the first argument bounds their number. -/
def membersLoop : Nat → List UInt8 → Option (List Member)
  | 0, _ => none
  | fuel + 1, cs =>
      match readMember cs with
      | none => none
      | some (m, next) =>
          if m.name = cpioTrailer then some []
          else (membersLoop fuel next).map (m :: ·)

/-- The members of an archive.  None of them is without a header. -/
def readNewc (cs : List UInt8) : Option (List Member) := membersLoop (cs.length + 1) cs

/-! ## Entries that are written -/

/-- The numbers of an entry fit into their fields, and its path is a string. -/
structure Entry.Fits (e : Entry) : Prop where
  uid : e.uid < 2 ^ 32
  gid : e.gid < 2 ^ 32
  mtime : e.mtime < 2 ^ 32
  size : e.size < 2 ^ 32
  path : e.path.length + 111 < 2 ^ 32
  target : e.target.length + 1 < 2 ^ 32

/-- The member an entry is meant to be. -/
def Entry.member (e : Entry) (data : List UInt8) : Member where
  ino := e.inodeNum.toNat
  mode := e.mode
  uid := e.uid
  gid := e.gid
  nlink := e.linkCount.toNat
  mtime := e.mtime
  devMajor := 3
  devMinor := 1
  rdevMajor := e.device.1
  rdevMinor := e.device.2
  name := e.path
  data := data

/-- What of an entry stands in front of its data. -/
def Entry.head (e : Entry) : List UInt8 :=
  e.header ++ (e.path ++ [0] ++ padding (e.path.length + 111))

/-- Data with its padding. -/
def padded (data : List UInt8) : List UInt8 := data ++ padding data.length

/-- The data that `cpio_write_header` itself writes. -/
def Entry.ownData (e : Entry) : List UInt8 := if e.type = .symlink then e.target ++ [0] else []

theorem length_padding (n : Nat) : (padding n).length = alignment n := by
  unfold padding alignment
  split
  · rename_i hzero
    rw [hzero]
    rfl
  · rw [List.length_replicate]
    omega

theorem flatten_paddingPieces (n : Nat) : (paddingPieces n).flatten = padding n := by
  unfold paddingPieces padding
  by_cases hzero : n % 4 = 0
  · rw [if_neg (not_not.2 hzero), if_pos hzero]
    rfl
  · rw [if_pos hzero, if_neg hzero]
    exact List.append_nil _

theorem cstrBytes_all (s : List UInt8) : cstrBytes s (s.length + 1) = s ++ [0] := by
  unfold cstrBytes
  exact List.take_of_length_le (by simp)

namespace Entry

variable {e : Entry}

theorem Fits.pieces (h : e.Fits) (htype : e.type ≠ .hardLink) :
    e.pieces.flatten = e.head ++ padded e.ownData := by
  have hpath := h.path
  have htarget := h.target
  have hlen : e.pathlen = e.path.length := u32_of_lt (by omega)
  have hhead : e.pathlen + (1 + 110) = e.path.length + 111 := by
    rw [hlen]
  unfold Entry.pieces Entry.head Entry.ownData padded
  rw [if_neg htype, List.flatten_cons, List.flatten_cons, List.flatten_append,
    flatten_paddingPieces, hhead, hlen, u32_of_lt hpath, u32_of_lt (by omega), cstrBytes_all]
  by_cases hsymlink : e.type = .symlink
  · rw [if_pos hsymlink, if_pos hsymlink, u32_of_lt htarget, cstrBytes_all, List.flatten_cons,
      flatten_paddingPieces, List.length_append, List.length_singleton]
    simp only [List.append_assoc]
  · rw [if_neg hsymlink, if_neg hsymlink]
    simp only [List.append_assoc, List.flatten_nil, List.nil_append]
    rfl

theorem mode_lt (e : Entry) : e.mode < 2 ^ 32 := by
  have hperm : e.permissions % 2 ^ 16 < 2 ^ 32 :=
    Nat.lt_of_lt_of_le (Nat.mod_lt _ (by decide)) (by decide)
  have htype : fileType e.type < 2 ^ 32 := by
    cases e.type <;> decide
  exact Nat.or_lt_two_pow hperm htype

theorem device_lt (e : Entry) : e.device.1 < 2 ^ 32 ∧ e.device.2 < 2 ^ 32 := by
  unfold device
  split
  · exact ⟨u32_lt _, u32_lt _⟩
  · exact ⟨u32_lt _, u32_lt _⟩
  · exact ⟨by decide, by decide⟩

/-- The numbers of a header. -/
theorem Fits.header (h : e.Fits) : e.header = cpioMagic ++
    [e.inodeNum.toNat, e.mode, e.uid, e.gid, e.linkCount.toNat, e.mtime, e.size, 3, 1,
      e.device.1, e.device.2, e.path.length + 1, 0].flatMap (hexText 8) := by
  have hpath := h.path
  have hmtime := h.mtime
  have hthree : u32 3 = 3 := rfl
  have hone : u32 1 = 1 := rfl
  unfold Entry.header printHeader pathlen
  rw [hthree, hone, u32_of_lt e.inodeNum.toNat_lt, u32_of_lt e.mode_lt, u32_of_lt h.uid,
    u32_of_lt h.gid, u32_of_lt e.linkCount.toNat_lt, u64_of_lt (by omega), u32_of_lt h.size,
    u32_of_lt e.device_lt.1, u32_of_lt e.device_lt.2,
    u32_of_lt (show e.path.length < 2 ^ 32 by omega),
    u32_of_lt (show e.path.length + 1 < 2 ^ 32 by omega)]
  simp only [List.flatMap_cons, List.flatMap_nil, List.append_assoc, List.append_nil]

/-- The numbers of a header all have eight digits. -/
theorem Fits.fields (h : e.Fits) : ∀ n ∈ [e.inodeNum.toNat, e.mode, e.uid, e.gid,
    e.linkCount.toNat, e.mtime, e.size, 3, 1, e.device.1, e.device.2, e.path.length + 1, 0],
    (hexText 8 n).length = 8 := by
  have hpath := h.path
  have hall : ∀ n < 2 ^ 32, (hexText 8 n).length = 8 := by
    intro n hn
    rw [← u32_of_lt hn]
    exact length_hexText_u32 n
  intro n hn
  apply hall
  simp only [List.mem_cons, List.not_mem_nil, or_false] at hn
  have hino := e.inodeNum.toNat_lt
  have hlinks := e.linkCount.toNat_lt
  have hmode := e.mode_lt
  have hdevice := e.device_lt
  have huid := h.uid
  have hgid := h.gid
  have hmtime := h.mtime
  have hsize := h.size
  rcases hn with rfl | rfl | rfl | rfl | rfl | rfl | rfl | rfl | rfl | rfl | rfl | rfl | rfl <;>
    omega

theorem Fits.length_header (h : e.Fits) : e.header.length = 110 := by
  have hmtime : (hexText 8 (u64 e.mtime)).length = 8 := by
    have hlt := h.mtime
    rw [u64_of_lt (by omega), ← u32_of_lt hlt]
    exact length_hexText_u32 _
  unfold Entry.header
  rw [length_printHeader, hmtime]

/-- An entry and its data are read back, whatever they are filled up with. -/
theorem Fits.readMember (h : e.Fits) {data pad : List UInt8} (hdata : data.length = e.size)
    (hpad : pad.length = alignment data.length) (rest : List UInt8) :
    readMember (e.head ++ (data ++ pad) ++ rest) = some (e.member data, rest) := by
  have hheader := h.length_header
  have hshape : e.head ++ (data ++ pad) ++ rest = e.header ++ ((e.path ++ [0]) ++
      (padding (e.path.length + 111) ++ (data ++ (pad ++ rest)))) := by
    unfold head
    simp only [List.append_assoc]
  have hfields : hexFields 13 ((e.head ++ (data ++ pad) ++ rest).drop 6) = some
      [e.inodeNum.toNat, e.mode, e.uid, e.gid, e.linkCount.toNat, e.mtime, e.size, 3, 1,
        e.device.1, e.device.2, e.path.length + 1, 0] := by
    rw [hshape, h.header, List.append_assoc, List.drop_left' (show cpioMagic.length = 6 from rfl)]
    exact hexFields_flatMap h.fields _
  have hmagic : (e.head ++ (data ++ pad) ++ rest).take 6 = cpioMagic := by
    rw [hshape, h.header, List.append_assoc]
    exact List.take_left' rfl
  have hname : ((e.head ++ (data ++ pad) ++ rest).drop 110).take (e.path.length + 1) =
      e.path ++ [0] := by
    rw [hshape, List.drop_left' hheader]
    exact List.take_left' (by simp)
  have hbehind : (e.head ++ (data ++ pad) ++ rest).drop (110 + (e.path.length + 1) +
      alignment (110 + (e.path.length + 1))) = data ++ (pad ++ rest) := by
    have hsum : 110 + (e.path.length + 1) = e.path.length + 111 := by omega
    rw [hshape, hsum, ← length_padding, ← List.append_assoc, ← List.append_assoc]
    apply List.drop_left'
    simp only [List.length_append, List.length_singleton]
    omega
  have hnext : (data ++ (pad ++ rest)).drop (e.size + alignment e.size) = rest := by
    rw [← hdata, ← hpad, ← List.append_assoc]
    exact List.drop_left' (by rw [List.length_append])
  have hall : e.size + alignment e.size ≤ (data ++ (pad ++ rest)).length := by
    rw [← hdata, ← hpad]
    simp only [List.length_append]
    omega
  unfold Cpio.readMember
  rw [if_neg (not_not.2 hmagic), hfields]
  dsimp only
  rw [hname, hbehind, hnext, List.getLast?_concat, if_pos ⟨rfl, hall⟩, List.dropLast_concat,
    List.take_left' hdata]
  rfl

end Entry

/-! ## What a member says of its file -/

theorem devMajor_of_lt {dev : Nat} (h : dev < 2 ^ 32) : devMajor dev = dev / 2 ^ 8 % 2 ^ 12 := by
  have hhigh : dev >>> 32 = 0 := by
    rw [Nat.shiftRight_eq_div_pow, Nat.div_eq_of_lt h]
  have hlow : dev >>> 8 &&& 0xFFF = dev / 2 ^ 8 % 2 ^ 12 := by
    rw [Nat.shiftRight_eq_div_pow]
    exact Nat.and_two_pow_sub_one_eq_mod _ 12
  unfold devMajor
  rw [hhigh, hlow, Nat.zero_and, Nat.or_zero, u32_of_lt]
  omega

theorem devMinor_of_lt {dev : Nat} (h : dev < 2 ^ 32) :
    devMinor dev = dev % 2 ^ 8 + dev / 2 ^ 20 * 2 ^ 8 := by
  have hlow : dev &&& 0xFF = dev % 2 ^ 8 := Nat.and_two_pow_sub_one_eq_mod _ 8
  have hhigh : dev >>> 12 &&& 0xFFFFFF00 = 2 ^ 8 * (dev / 2 ^ 20) := by
    apply Nat.eq_of_testBit_eq
    intro i
    have hmask : 0xFFFFFF00 = 2 ^ 8 * (2 ^ 24 - 1) := rfl
    rw [hmask, Nat.testBit_and, Nat.testBit_shiftRight, Nat.testBit_two_pow_mul,
      Nat.testBit_two_pow_mul, Nat.testBit_two_pow_sub_one, Nat.testBit_div_two_pow]
    by_cases hi : 8 ≤ i
    · have hsum : 12 + i = i - 8 + 20 := by
        omega
      rw [hsum]
      by_cases hlt : i - 8 < 24
      · simp [hi, hlt]
      · have hzero : dev.testBit (i - 8 + 20) = false := by
          apply Nat.testBit_lt_two_pow
          exact h.trans_le (Nat.pow_le_pow_right (by decide) (by omega))
        simp [hlt, hzero]
    · simp [hi]
  unfold devMinor
  rw [hlow, hhigh, Nat.or_comm, ← Nat.two_pow_add_eq_or_of_lt (Nat.mod_lt _ (by decide)),
    u32_of_lt]
  · omega
  · omega

namespace Entry

variable {e : Entry}

/-- The bits of type and permissions do not meet. -/
theorem mode_of_lt (h : e.permissions < 2 ^ 12) :
    e.mode = 2 ^ 12 * (fileType e.type / 2 ^ 12) + e.permissions := by
  have htype : fileType e.type = 2 ^ 12 * (fileType e.type / 2 ^ 12) := by
    cases e.type <;> rfl
  unfold mode
  rw [Nat.mod_eq_of_lt (h.trans (by decide)), Nat.or_comm, Nat.two_pow_add_eq_or_of_lt h, ← htype]

theorem member_type (h : e.permissions < 2 ^ 12) (htype : e.type ≠ .hardLink)
    (data : List UInt8) : (e.member data).type = some e.type := by
  have hmode : (e.member data).mode / 2 ^ 12 = fileType e.type / 2 ^ 12 := by
    rw [show (e.member data).mode = e.mode from rfl, mode_of_lt h]
    omega
  unfold Member.type
  rw [hmode]
  cases hcase : e.type with
  | hardLink => exact absurd hcase htype
  | _ => rfl

theorem member_permissions (h : e.permissions < 2 ^ 12) (data : List UInt8) :
    (e.member data).permissions = e.permissions := by
  unfold Member.permissions
  rw [show (e.member data).mode = e.mode from rfl, mode_of_lt h, Nat.mul_add_mod,
    Nat.mod_eq_of_lt h]

theorem member_deviceNumber (h : e.deviceNumber < 2 ^ 32)
    (htype : e.type = .charDev ∨ e.type = .blockDev) (data : List UInt8) :
    (e.member data).deviceNumber = e.deviceNumber := by
  have hdevice : e.device = (devMajor e.deviceNumber, devMinor e.deviceNumber) := by
    unfold device
    rcases htype with htype | htype
    · rw [htype]
    · rw [htype]
  unfold Member.deviceNumber
  rw [show (e.member data).rdevMajor = e.device.1 from rfl,
    show (e.member data).rdevMinor = e.device.2 from rfl, hdevice]
  dsimp only
  rw [devMajor_of_lt h, devMinor_of_lt h]
  omega

theorem member_target (h : 0 ∉ e.target) (htype : e.type = .symlink) :
    (e.member e.ownData).target = e.target := by
  unfold Member.target
  rw [show (e.member e.ownData).data = e.ownData from rfl, ownData, if_pos htype,
    List.takeWhile_append_of_pos]
  · exact List.append_nil _
  · intro c hc
    exact decide_eq_true fun hzero => h (hzero ▸ hc)

end Entry

/-! ## Archives -/

/-- What stands at the end of an archive. -/
def trailer : List UInt8 := trailerHeader ++ (cpioTrailer ++ [0])

theorem flatten_trailerPieces (offset : Nat) : ∃ zeros,
    (trailerPieces offset).flatten = trailer ++ List.replicate zeros 0 := by
  refine ⟨fillCount (u64 (offset + (trailerHeader.length + cpioTrailer.length + 1))), ?_⟩
  unfold trailerPieces trailer
  rw [List.flatten_cons, List.flatten_cons, cstrBytes_all, List.flatten_replicate_singleton,
    List.append_assoc, List.append_assoc, List.append_assoc]

theorem readMember_trailer (rest : List UInt8) :
    (readMember (trailer ++ rest)).map (fun found => found.1.name) = some cpioTrailer := by
  have hheader : trailerHeader =
      cpioMagic ++ [0, 0, 0, 0, 1, 0, 0, 0, 0, 0, 0, 11, 0].flatMap (hexText 8) := by
    unfold trailerHeader printHeader
    simp only [List.flatMap_cons, List.flatMap_nil, List.append_assoc, List.append_nil]
    rfl
  have hfields : hexFields 13 ((trailer ++ rest).drop 6) =
      some [0, 0, 0, 0, 1, 0, 0, 0, 0, 0, 0, 11, 0] := by
    unfold trailer
    rw [hheader, List.append_assoc, List.append_assoc,
      List.drop_left' (show cpioMagic.length = 6 from rfl)]
    refine @hexFields_flatMap [0, 0, 0, 0, 1, 0, 0, 0, 0, 0, 0, 11, 0] ?_ _
    intro n hn
    have hlt : n < 2 ^ 32 := by
      simp only [List.mem_cons, List.not_mem_nil, or_false] at hn
      omega
    rw [← u32_of_lt hlt]
    exact length_hexText_u32 n
  have hmagic : (trailer ++ rest).take 6 = cpioMagic := by
    unfold trailer
    rw [hheader, List.append_assoc, List.append_assoc]
    exact List.take_left' rfl
  have hname : ((trailer ++ rest).drop 110).take 11 = cpioTrailer ++ [0] := by
    unfold trailer
    rw [List.append_assoc, List.drop_left' length_trailerHeader]
    exact List.take_left' rfl
  unfold readMember
  rw [if_neg (not_not.2 hmagic), hfields]
  dsimp only
  rw [hname, List.getLast?_concat, if_pos ⟨rfl, Nat.zero_le _⟩, List.dropLast_concat]
  rfl

/-- What an archive holds of an entry: the data and what it is filled up with. -/
structure Stored where
  entry : Entry
  data : List UInt8
  pad : List UInt8

namespace Stored

/-- The bytes of an archive. -/
def bytes (s : Stored) : List UInt8 := s.entry.head ++ (s.data ++ s.pad)

/-- The entry can be read back, and is not taken for the trailer. -/
structure Good (s : Stored) : Prop where
  fits : s.entry.Fits
  data : s.data.length = s.entry.size
  pad : s.pad.length = alignment s.data.length
  name : s.entry.path ≠ cpioTrailer

end Stored

/-- The entries of an archive are read back up to the trailer. -/
theorem membersLoop_stored {entries : List Stored} (h : ∀ s ∈ entries, s.Good) (fuel : Nat)
    (hfuel : entries.length < fuel) (rest : List UInt8) :
    membersLoop fuel (entries.flatMap Stored.bytes ++ (trailer ++ rest)) =
      some (entries.map fun s => s.entry.member s.data) := by
  induction entries generalizing fuel with
  | nil =>
      obtain ⟨fuel, rfl⟩ := Nat.exists_eq_succ_of_ne_zero (Nat.ne_of_gt hfuel)
      obtain ⟨found, hread, hname⟩ := Option.map_eq_some_iff.1 (readMember_trailer rest)
      rw [List.flatMap_nil, List.nil_append, membersLoop, hread]
      exact if_pos hname
  | cons s entries ih =>
      rw [List.forall_mem_cons] at h
      rw [List.length_cons] at hfuel
      obtain ⟨fuel, rfl⟩ := Nat.exists_eq_succ_of_ne_zero (Nat.ne_of_gt (Nat.zero_lt_of_lt hfuel))
      have hread : readMember (s.bytes ++ (entries.flatMap Stored.bytes ++ (trailer ++ rest))) =
          some (s.entry.member s.data, entries.flatMap Stored.bytes ++ (trailer ++ rest)) :=
        h.1.fits.readMember h.1.data h.1.pad _
      have hname : ¬ (s.entry.member s.data).name = cpioTrailer := h.1.name
      rw [List.flatMap_cons, List.append_assoc, membersLoop, hread]
      dsimp only
      rw [if_neg hname, ih h.2 fuel (by omega), Option.map_some, List.map_cons]

theorem Stored.bytes_pos (s : Stored) : 0 < s.bytes.length := by
  have hheader : 0 < s.entry.header.length := by
    unfold Entry.header
    rw [length_printHeader]
    omega
  unfold Stored.bytes Entry.head
  simp only [List.length_append]
  omega

/-- An archive is read back, and nothing behind its trailer matters. -/
theorem readNewc_stored {entries : List Stored} (h : ∀ s ∈ entries, s.Good) (rest : List UInt8) :
    readNewc (entries.flatMap Stored.bytes ++ (trailer ++ rest)) =
      some (entries.map fun s => s.entry.member s.data) := by
  apply membersLoop_stored h
  have hcount : ∀ entries : List Stored,
      entries.length ≤ (entries.flatMap Stored.bytes).length := by
    intro entries
    induction entries with
    | nil => exact Nat.le_refl _
    | cons s entries ih =>
        have hpos := s.bytes_pos
        rw [List.flatMap_cons, List.length_append, List.length_cons]
        omega
  have hle := hcount entries
  rw [List.length_append]
  omega

end ImageTool.Cpio
