import ImageTool.Imgtool.FileSource
import ImageTool.Lib.Reader
import ImageTool.Lib.Word

/-!
# Entries of a file listing

The lines of a listing are kept in a packed form: the type, the widths of the owners and a
short name share two bytes, a longer name and a target have a byte for the length.
-/

namespace ImageTool.Imgtool

open ImageTool.Lib

/-- The value of a type. -/
def FileSourceType.code : FileSourceType → Nat
  | .dir => 0
  | .file => 1
  | .fifo => 2
  | .socket => 3
  | .charDev => 4
  | .blockDev => 5
  | .symlink => 6
  | .hardLink => 7

/-- The type of a value, of which the last three bits are used. -/
def FileSourceType.ofCode (code : Nat) : FileSourceType :=
  match code &&& 7 with
  | 0 => .dir
  | 1 => .file
  | 2 => .fifo
  | 3 => .socket
  | 4 => .charDev
  | 5 => .blockDev
  | 6 => .symlink
  | _ => .hardLink

/-- What `add_line` makes of a line. -/
structure ListingEntry where
  type : FileSourceType
  uid : Nat
  gid : Nat
  mode : Nat
  name : List UInt8
  target : Option (List UInt8)
  devno : Nat
  deriving DecidableEq

/-- The last eight bits. -/
def byteOf (n : Nat) : UInt8 := UInt8.ofNat n

/-- `store_u32`. -/
def storeU32 (value : Nat) : Nat → List UInt8
  | 3 => [byteOf (value >>> 24), byteOf (value >>> 16), byteOf (value >>> 8), byteOf value]
  | 2 => [byteOf (value >>> 8), byteOf value]
  | _ => [byteOf value]

/-- `load_u32`. -/
def loadU32 : Nat → Reader Nat
  | 3 => do
      let a ← Reader.byte
      let b ← Reader.byte
      let c ← Reader.byte
      let d ← Reader.byte
      pure (a.toNat <<< 24 ||| b.toNat <<< 16 ||| c.toNat <<< 8 ||| d.toNat)
  | 2 => do
      let c ← Reader.byte
      let d ← Reader.byte
      pure (c.toNat <<< 8 ||| d.toNat)
  | _ => do
      let d ← Reader.byte
      pure d.toNat

/-- The code for the width of an owner. -/
def widthCode (id : Nat) : Nat :=
  if id ≤ 0x0F then 0 else if id ≤ 0xFF then 1 else if id ≤ 0xFFFF then 2 else 3

/-- The number of bytes `get_encoded_size` reckons with for an owner. -/
def widthOf (id : Nat) : Nat := if id ≤ 0xFF then 1 else if id ≤ 0xFFFF then 2 else 4

/-- What `get_encoded_size` reckons with for the end of an entry. -/
def extraSize (e : ListingEntry) : Nat :=
  match e.type with
  | .charDev | .blockDev => 4
  | .symlink | .hardLink | .file => 1 + (e.target.getD []).length
  | _ => 0

/-- `get_encoded_size`. -/
def getEncodedSize (e : ListingEntry) : Nat :=
  let namelen := e.name.length
  2 + (if namelen > 31 then 1 else 0) + namelen +
    (if e.type ≠ .hardLink ∧ e.type ≠ .symlink then 1 else 0) +
    (if e.type ≠ .hardLink then
      if e.uid ≤ 0x0F ∧ e.gid ≤ 0x0F then 1 else widthOf e.uid + widthOf e.gid
    else 0) + extraSize e

/-- The owners as `encode_entry` writes them. -/
def encodeOwner (uid gid : Nat) : List UInt8 :=
  if widthCode uid = 0 ∧ widthCode gid = 0 then [byteOf (uid <<< 4 ||| gid)]
  else storeU32 uid (widthCode uid) ++ storeU32 gid (widthCode gid)

/-- The end of an entry as `encode_entry` writes it. -/
def encodeExtra (e : ListingEntry) : List UInt8 :=
  match e.type with
  | .charDev | .blockDev => storeU32 e.devno 3
  | .symlink | .hardLink =>
      byteOf ((e.target.getD []).length + 255) :: e.target.getD []
  | .file =>
      match e.target with
      | none => [0]
      | some target => byteOf target.length :: target
  | _ => []

/-- `encode_entry`. -/
def encodeEntry (e : ListingEntry) : List UInt8 :=
  [byteOf (e.type.code &&& 0x07 ||| if e.name.length ≤ 31 then e.name.length <<< 3 else 0)] ++
  ([byteOf (widthCode e.uid <<< 6 ||| widthCode e.gid <<< 4 ||| e.mode >>> 8 &&& 0x0F)] ++
  ((if e.type ≠ .hardLink ∧ e.type ≠ .symlink then [byteOf e.mode] else []) ++
  ((if e.type ≠ .hardLink then encodeOwner e.uid e.gid else []) ++
  ((if e.name.length > 31 then [byteOf (e.name.length - 32)] else []) ++
  (e.name ++ encodeExtra e)))))

/-- The permissions as `get_next_record` reads them; `b` is the second byte of the entry. -/
def loadPermissions (type : FileSourceType) (b : UInt8) : Reader Nat :=
  match type with
  | .hardLink => pure 0o777
  | .symlink => pure (0o777 ||| (b.toNat &&& 0x0E) <<< 8)
  | _ => do
      let c ← Reader.byte
      pure ((b.toNat &&& 0x0F) <<< 8 ||| c.toNat)

/-- The owners as `get_next_record` reads them. -/
def loadOwner (type : FileSourceType) (ul gl : Nat) : Reader (Nat × Nat) :=
  if type = .hardLink then pure (0, 0)
  else if ul = 0 ∧ gl = 0 then do
    let b ← Reader.byte
    pure (b.toNat >>> 4 &&& 0x0F, b.toNat &&& 0x0F)
  else do
    let uid ← loadU32 ul
    let gid ← loadU32 gl
    pure (uid, gid)

/-- The length of the name, which has a byte of its own where the first one says 0. -/
def loadNameLength (namelen : Nat) : Reader Nat :=
  if namelen = 0 then do
    let b ← Reader.byte
    pure (32 + b.toNat)
  else pure namelen

/-- The end of an entry as `get_next_record` reads it, without a stream to be returned: the
device number and the target of a link. -/
def loadExtra : FileSourceType → Reader (Nat × Option (List UInt8))
  | .charDev | .blockDev => do
      let devno ← loadU32 3
      pure (devno, none)
  | .symlink | .hardLink => do
      let b ← Reader.byte
      let target ← Reader.string (b.toNat + 1)
      pure (0, some target)
  | .file => do
      let b ← Reader.byte
      Reader.skip b.toNat
      pure (0, none)
  | _ => pure (0, none)

/-- What `get_next_record` makes of an entry. -/
def decodeEntry : Reader FileSourceRecord := do
  let a ← Reader.byte
  let b ← Reader.byte
  let type := FileSourceType.ofCode a.toNat
  let permissions ← loadPermissions type b
  let owner ← loadOwner type (b.toNat >>> 6 &&& 0x03) (b.toNat >>> 4 &&& 0x03)
  let namelen ← loadNameLength (a.toNat >>> 3 &&& 0x1F)
  let name ← Reader.string namelen
  let extra ← loadExtra type
  pure
    { type := type
      permissions := permissions
      uid := owner.1
      gid := owner.2
      devno := extra.1
      ctime := 0
      mtime := 0
      size := 0
      fullPath := name
      linkTarget := extra.2 }

/-! ## What is written can be read -/

/-- An entry `add_line` can make, with lengths that fit into their fields. -/
structure ListingEntry.Fits (e : ListingEntry) : Prop where
  uid : e.uid < 2 ^ 32
  gid : e.gid < 2 ^ 32
  mode : e.mode < 2 ^ 12
  devno : e.devno < 2 ^ 32
  nameNonempty : e.name ≠ []
  nameLength : e.name.length ≤ 287
  nameString : 0 ∉ e.name
  targetString : ∀ target, e.target = some target → 0 ∉ target
  link : e.type = .symlink ∨ e.type = .hardLink → ∃ target, e.target = some target ∧
    target ≠ [] ∧ target.length ≤ 256
  file : e.type = .file → ∀ target, e.target = some target → target.length ≤ 255

/-- The record of an entry. -/
def ListingEntry.record (e : ListingEntry) : FileSourceRecord where
  type := e.type
  permissions :=
    match e.type with
    | .hardLink => 0o777
    | .symlink => 0o777 ||| e.mode &&& 0o7000
    | _ => e.mode
  uid := if e.type = .hardLink then 0 else e.uid
  gid := if e.type = .hardLink then 0 else e.gid
  devno := if e.type = .charDev ∨ e.type = .blockDev then e.devno else 0
  ctime := 0
  mtime := 0
  size := 0
  fullPath := e.name
  linkTarget := if e.type = .symlink ∨ e.type = .hardLink then e.target else none

theorem toNat_byteOf (n : Nat) : (byteOf n).toNat = n % 2 ^ 8 := rfl

theorem shiftLeft_or (a : Nat) {b i : Nat} (hb : b < 2 ^ i) : a <<< i ||| b = a * 2 ^ i + b := by
  rw [← Nat.shiftLeft_add_eq_or_of_lt hb, Nat.shiftLeft_eq]

theorem reads_loadU32_three {value : Nat} (h : value < 2 ^ 32) :
    Reader.Reads (loadU32 3) (storeU32 value 3) value := by
  have hvalue : (byteOf (value >>> 24)).toNat <<< 24 ||| (byteOf (value >>> 16)).toNat <<< 16 |||
      (byteOf (value >>> 8)).toNat <<< 8 ||| (byteOf value).toNat = value := by
    have hd := UInt8.toNat_lt (byteOf value)
    have hc := UInt8.toNat_lt (byteOf (value >>> 8))
    have hb := UInt8.toNat_lt (byteOf (value >>> 16))
    rw [Nat.or_assoc, Nat.or_assoc, shiftLeft_or ((byteOf (value >>> 8)).toNat) hd,
      shiftLeft_or ((byteOf (value >>> 16)).toNat) (by omega),
      shiftLeft_or ((byteOf (value >>> 24)).toNat) (by omega)]
    simp only [toNat_byteOf, Nat.shiftRight_eq_div_pow]
    omega
  exact .byte_bind (.byte_bind (.byte_bind (.byte_bind (.pure_of_eq hvalue))))

theorem reads_loadU32_two {value : Nat} (h : value < 2 ^ 16) :
    Reader.Reads (loadU32 2) (storeU32 value 2) value := by
  have hvalue : (byteOf (value >>> 8)).toNat <<< 8 ||| (byteOf value).toNat = value := by
    rw [shiftLeft_or _ (UInt8.toNat_lt _)]
    simp only [toNat_byteOf, Nat.shiftRight_eq_div_pow]
    omega
  exact .byte_bind (.byte_bind (.pure_of_eq hvalue))

theorem reads_loadU32_one {value : Nat} (h : value < 2 ^ 8) :
    Reader.Reads (do
      let d ← Reader.byte
      pure d.toNat) [byteOf value] value := by
  have hvalue : (byteOf value).toNat = value := by
    rw [toNat_byteOf, Nat.mod_eq_of_lt h]
  exact .byte_bind (.pure_of_eq hvalue)

/-- An owner is read with the width it is written with. -/
theorem reads_loadU32 {id : Nat} (h : id < 2 ^ 32) :
    Reader.Reads (loadU32 (widthCode id)) (storeU32 id (widthCode id)) id := by
  unfold widthCode
  split
  · exact reads_loadU32_one (by omega)
  · split
    · exact reads_loadU32_one (by omega)
    · split
      · exact reads_loadU32_two (by omega)
      · exact reads_loadU32_three h

theorem widthCode_lt (id : Nat) : widthCode id < 4 := by
  unfold widthCode
  split
  · decide
  · split
    · decide
    · split <;> decide

theorem widthCode_eq_zero {id : Nat} : widthCode id = 0 ↔ id ≤ 0x0F := by
  unfold widthCode
  split
  · simp [*]
  · split
    · simp [*]
    · split <;> simp [*]

theorem firstByte {code namelen : Nat} (hcode : code < 8) (hname : namelen < 32) :
    (byteOf (code &&& 0x07 ||| namelen <<< 3)).toNat &&& 7 = code ∧
      (byteOf (code &&& 0x07 ||| namelen <<< 3)).toNat >>> 3 &&& 0x1F = namelen := by
  have hall : ∀ code < 8, ∀ namelen < 32,
      (byteOf (code &&& 0x07 ||| namelen <<< 3)).toNat &&& 7 = code ∧
        (byteOf (code &&& 0x07 ||| namelen <<< 3)).toNat >>> 3 &&& 0x1F = namelen := by
    decide +kernel
  exact hall code hcode namelen hname

theorem secondByte {ul gl high : Nat} (hul : ul < 4) (hgl : gl < 4) (hhigh : high < 16) :
    (byteOf (ul <<< 6 ||| gl <<< 4 ||| high)).toNat >>> 6 &&& 0x03 = ul ∧
      (byteOf (ul <<< 6 ||| gl <<< 4 ||| high)).toNat >>> 4 &&& 0x03 = gl ∧
        (byteOf (ul <<< 6 ||| gl <<< 4 ||| high)).toNat &&& 0x0F = high := by
  have hall : ∀ ul < 4, ∀ gl < 4, ∀ high < 16,
      (byteOf (ul <<< 6 ||| gl <<< 4 ||| high)).toNat >>> 6 &&& 0x03 = ul ∧
        (byteOf (ul <<< 6 ||| gl <<< 4 ||| high)).toNat >>> 4 &&& 0x03 = gl ∧
          (byteOf (ul <<< 6 ||| gl <<< 4 ||| high)).toNat &&& 0x0F = high := by
    decide +kernel
  exact hall ul hul gl hgl high hhigh

theorem ownerByte {uid gid : Nat} (huid : uid ≤ 0x0F) (hgid : gid ≤ 0x0F) :
    (byteOf (uid <<< 4 ||| gid)).toNat >>> 4 &&& 0x0F = uid ∧
      (byteOf (uid <<< 4 ||| gid)).toNat &&& 0x0F = gid := by
  have hall : ∀ uid < 16, ∀ gid < 16,
      (byteOf (uid <<< 4 ||| gid)).toNat >>> 4 &&& 0x0F = uid ∧
        (byteOf (uid <<< 4 ||| gid)).toNat &&& 0x0F = gid := by
    decide +kernel
  exact hall uid (Nat.lt_succ_of_le huid) gid (Nat.lt_succ_of_le hgid)

theorem code_lt (type : FileSourceType) : type.code < 8 := by
  cases type <;> decide

theorem ofCode_code (type : FileSourceType) {n : Nat} (h : n &&& 7 = type.code) :
    FileSourceType.ofCode n = type := by
  unfold FileSourceType.ofCode
  rw [h]
  cases type <;> rfl

variable {e : ListingEntry}

theorem reads_loadOwner (huid : e.uid < 2 ^ 32) (hgid : e.gid < 2 ^ 32) :
    Reader.Reads (loadOwner e.type (widthCode e.uid) (widthCode e.gid))
      (if e.type ≠ .hardLink then encodeOwner e.uid e.gid else [])
      (e.record.uid, e.record.gid) := by
  unfold loadOwner ListingEntry.record
  dsimp only
  by_cases hlink : e.type = .hardLink
  · rw [if_pos hlink, if_neg (not_not.2 hlink), if_pos hlink, if_pos hlink]
    exact .pure _
  · rw [if_neg hlink, if_pos hlink, if_neg hlink, if_neg hlink]
    unfold encodeOwner
    by_cases hsmall : widthCode e.uid = 0 ∧ widthCode e.gid = 0
    · rw [if_pos hsmall, if_pos hsmall]
      have hbyte := ownerByte (widthCode_eq_zero.1 hsmall.1) (widthCode_eq_zero.1 hsmall.2)
      exact .byte_bind (.pure_of_eq (Prod.ext hbyte.1 hbyte.2))
    · rw [if_neg hsmall, if_neg hsmall]
      exact (reads_loadU32 huid).bind ((reads_loadU32 hgid).bind_pure _)

theorem reads_loadNameLength (hne : e.name ≠ []) (hlen : e.name.length ≤ 287) :
    Reader.Reads (loadNameLength (if e.name.length ≤ 31 then e.name.length else 0))
      (if e.name.length > 31 then [byteOf (e.name.length - 32)] else []) e.name.length := by
  have hpos := List.length_pos_iff.2 hne
  unfold loadNameLength
  by_cases hshort : e.name.length ≤ 31
  · rw [if_pos hshort, if_neg (Nat.ne_of_gt hpos), if_neg (Nat.not_lt.2 hshort)]
    exact .pure _
  · rw [if_neg hshort, if_pos rfl, if_pos (Nat.lt_of_not_le hshort)]
    have hlength : 32 + (byteOf (e.name.length - 32)).toNat = e.name.length := by
      rw [toNat_byteOf]
      omega
    exact .byte_bind (.pure_of_eq hlength)

theorem mode_low {mode : Nat} (h : mode < 2 ^ 12) :
    (mode >>> 8 &&& 0x0F) <<< 8 ||| (byteOf mode).toNat = mode := by
  rw [shiftLeft_or _ (UInt8.toNat_lt _), toNat_byteOf, Nat.shiftRight_eq_div_pow,
    Nat.and_two_pow_sub_one_eq_mod _ 4]
  omega

/-- Of the mode of a symlink the upper three bits are kept. -/
theorem mode_high (mode : Nat) : (mode >>> 8 &&& 0x0E) <<< 8 = mode &&& 0o7000 := by
  have hmask : (0o7000 : Nat) = 0x0E <<< 8 := rfl
  apply Nat.eq_of_testBit_eq
  intro i
  rw [hmask, Nat.testBit_shiftLeft, Nat.testBit_and, Nat.testBit_and, Nat.testBit_shiftRight,
    Nat.testBit_shiftLeft]
  by_cases hi : 8 ≤ i
  · rw [Nat.add_sub_cancel' hi]
    simp [hi]
  · simp [hi]

theorem reads_loadPermissions {b : UInt8} (hmode : e.mode < 2 ^ 12)
    (hb : b.toNat &&& 0x0F = e.mode >>> 8 &&& 0x0F) :
    Reader.Reads (loadPermissions e.type b)
      (if e.type ≠ .hardLink ∧ e.type ≠ .symlink then [byteOf e.mode] else [])
      e.record.permissions := by
  have hlow := mode_low hmode
  have hhigh : 0o777 ||| (b.toNat &&& 0x0E) <<< 8 = 0o777 ||| e.mode &&& 0o7000 := by
    have hmask : b.toNat &&& 0x0E = e.mode >>> 8 &&& 0x0E := by
      have hand := congrArg (· &&& 0x0E) hb
      simp only [Nat.and_assoc] at hand
      exact hand
    rw [hmask, mode_high]
  rw [← hb] at hlow
  unfold ListingEntry.record loadPermissions
  cases e.type with
  | hardLink => exact .pure _
  | symlink => exact .pure_of_eq hhigh
  | dir => exact .byte_bind (.pure_of_eq hlow)
  | file => exact .byte_bind (.pure_of_eq hlow)
  | fifo => exact .byte_bind (.pure_of_eq hlow)
  | socket => exact .byte_bind (.pure_of_eq hlow)
  | charDev => exact .byte_bind (.pure_of_eq hlow)
  | blockDev => exact .byte_bind (.pure_of_eq hlow)

theorem reads_linkTarget {target : List UInt8} (hne : target ≠ []) (hlen : target.length ≤ 256)
    (hstring : 0 ∉ target) :
    Reader.Reads (do
      let b ← Reader.byte
      let target ← Reader.string (b.toNat + 1)
      pure (0, some target)) (byteOf (target.length + 255) :: target) (0, some target) := by
  have hpos := List.length_pos_iff.2 hne
  have hlength : (byteOf (target.length + 255)).toNat + 1 = target.length := by
    rw [toNat_byteOf]
    omega
  have hstring' := (Reader.reads_string hstring).bind_pure fun target => ((0 : Nat), some target)
  rw [← hlength] at hstring'
  exact .byte_bind hstring'

theorem reads_loadExtra (h : e.Fits) :
    Reader.Reads (loadExtra e.type) (encodeExtra e) (e.record.devno, e.record.linkTarget) := by
  have hdev : Reader.Reads (do
      let devno ← loadU32 3
      pure (devno, none)) (storeU32 e.devno 3) (e.devno, (none : Option (List UInt8))) :=
    (reads_loadU32_three h.devno).bind_pure fun devno => (devno, none)
  have hlink := h.link
  have hfile := h.file
  unfold encodeExtra loadExtra ListingEntry.record
  cases htype : e.type with
  | dir => exact .pure _
  | fifo => exact .pure _
  | socket => exact .pure _
  | charDev => exact hdev
  | blockDev => exact hdev
  | symlink =>
      obtain ⟨target, htarget, hne, hlen⟩ := hlink (Or.inl htype)
      rw [htarget]
      exact reads_linkTarget hne hlen (h.targetString target htarget)
  | hardLink =>
      obtain ⟨target, htarget, hne, hlen⟩ := hlink (Or.inr htype)
      rw [htarget]
      exact reads_linkTarget hne hlen (h.targetString target htarget)
  | file =>
      cases htarget : e.target with
      | none => exact .byte_bind ((Reader.reads_skip []).bind_pure _)
      | some target =>
          have hlength : (byteOf target.length).toNat = target.length := by
            have hlen := hfile htype target htarget
            rw [toNat_byteOf]
            omega
          have hskip := (Reader.reads_skip target).bind_pure
            fun _ => ((0 : Nat), (none : Option (List UInt8)))
          rw [← hlength] at hskip
          exact .byte_bind hskip

/-- An entry is read as its record. -/
theorem reads_decodeEntry (h : e.Fits) :
    Reader.Reads decodeEntry (encodeEntry e) e.record := by
  have hname : (if e.name.length ≤ 31 then e.name.length else 0) < 32 := by
    split
    · exact Nat.lt_succ_of_le ‹_›
    · decide
  have hshift : (if e.name.length ≤ 31 then e.name.length <<< 3 else 0) =
      (if e.name.length ≤ 31 then e.name.length else 0) <<< 3 := by
    split <;> rfl
  have hhigh : e.mode >>> 8 &&& 0x0F < 16 := Nat.lt_succ_of_le Nat.and_le_right
  obtain ⟨hcode, hlength⟩ := firstByte (code_lt e.type) hname
  obtain ⟨hul, hgl, hmode⟩ := secondByte (widthCode_lt e.uid) (widthCode_lt e.gid) hhigh
  have hpermissions := reads_loadPermissions h.mode hmode
  have howner := reads_loadOwner h.uid h.gid
  have hnameLength := reads_loadNameLength h.nameNonempty h.nameLength
  have hextra := reads_loadExtra h
  unfold encodeEntry decodeEntry
  rw [hshift]
  apply Reader.Reads.byte_bind
  apply Reader.Reads.byte_bind
  rw [ofCode_code e.type hcode, hlength, hul, hgl]
  apply hpermissions.bind
  apply howner.bind
  apply hnameLength.bind
  apply (Reader.reads_string h.nameString).bind
  exact hextra.bind_pure _

theorem length_storeU32 (id : Nat) : (storeU32 id (widthCode id)).length = widthOf id := by
  unfold widthCode widthOf
  split
  · rw [if_pos (by omega)]
    rfl
  · split
    · rfl
    · split <;> rfl

theorem length_encodeOwner (uid gid : Nat) : (encodeOwner uid gid).length =
    if uid ≤ 0x0F ∧ gid ≤ 0x0F then 1 else widthOf uid + widthOf gid := by
  have hsmall : widthCode uid = 0 ∧ widthCode gid = 0 ↔ uid ≤ 0x0F ∧ gid ≤ 0x0F :=
    and_congr widthCode_eq_zero widthCode_eq_zero
  unfold encodeOwner
  rw [apply_ite List.length, List.length_append, length_storeU32, length_storeU32]
  exact if_congr hsmall rfl rfl

theorem length_encodeExtra (e : ListingEntry) : (encodeExtra e).length = extraSize e := by
  unfold encodeExtra extraSize
  cases e.type with
  | file =>
      cases e.target with
      | none => rfl
      | some target => exact Nat.add_comm ..
  | symlink => exact Nat.add_comm ..
  | hardLink => exact Nat.add_comm ..
  | dir => rfl
  | fifo => rfl
  | socket => rfl
  | charDev => rfl
  | blockDev => rfl

/-- The size reckoned with is the one written. -/
theorem length_encodeEntry (e : ListingEntry) : (encodeEntry e).length = getEncodedSize e := by
  have howner := length_encodeOwner e.uid e.gid
  have hextra := length_encodeExtra e
  unfold encodeEntry getEncodedSize
  rw [← hextra]
  dsimp only
  rw [← howner]
  simp only [List.length_append, apply_ite List.length, List.length_singleton, List.length_nil]
  omega

end ImageTool.Imgtool
