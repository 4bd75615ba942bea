import ImageTool.Fat.Dirent

/-!
# Directories read by the VFAT rules

`decodeDirectory` reads a directory: entries in descending order with one checksum make a long
name, and an entry without one has the name its short name stands for.
-/

namespace ImageTool.Fat

open ImageTool.Lib ImageTool.Fstream

/-- An entry of a directory. -/
structure DirEntry where
  name : List Nat
  directory : Bool
  size : Nat
  cluster : Nat
  deriving DecidableEq

/-- A long name that is being read, from the entry with number `ordinal` on. -/
structure LongName where
  ordinal : Nat
  checksum : Nat
  chars : List Nat

/-- The checksum of a short name: rotate to the right and add. -/
def vfatChecksum (shortname : List UInt8) : Nat :=
  shortname.foldl (fun sum c => (sum / 2 + sum % 2 * 128 + c.toNat) % 256) 0

/-- Characters of two bytes. -/
def wideChars : List UInt8 → List Nat
  | lo :: hi :: rest => ofLittleEndian [lo, hi] :: wideChars rest
  | _ => []

/-- The characters of an entry for a long name. -/
def entryChars (e : List UInt8) : List Nat :=
  wideChars ((e.drop 1).take 10 ++ (e.drop 14).take 12 ++ (e.drop 28).take 4)

/-- Read an entry for a long name: the last one of a name starts it, the others follow in
descending order with the same checksum. -/
def readLong (pending : Option LongName) (e : List UInt8) : Option LongName :=
  let seq := (e.getD 0 0).toNat
  let checksum := (e.getD 13 0).toNat
  if seq / 64 % 2 = 1 then some ⟨seq % 64, checksum, entryChars e⟩
  else
    match pending with
    | some l =>
        if l.ordinal = seq % 64 + 1 ∧ l.checksum = checksum then
          some ⟨seq % 64, checksum, entryChars e ++ l.chars⟩
        else none
    | none => none

/-- The name of an entry: a complete long name that goes with the short name, otherwise the
short name. -/
def readName (pending : Option LongName) (shortname : List UInt8) : List Nat :=
  match pending with
  | some l =>
      if l.ordinal = 1 ∧ l.checksum = vfatChecksum shortname then l.chars.takeWhile (· ≠ 0)
      else (decodeShortname shortname).map UInt8.toNat
  | none => (decodeShortname shortname).map UInt8.toNat

/-- Read an entry that is not for a long name. -/
def readShort (pending : Option LongName) (e : List UInt8) : DirEntry where
  name := readName pending (e.take 11)
  directory := e.getD 11 0 &&& 0x10 != 0
  size := ofLittleEndian ((e.drop 28).take 4)
  cluster := ofLittleEndian ((e.drop 20).take 2) * 2 ^ 16 + ofLittleEndian ((e.drop 26).take 2)

/-- Read entries one after the other. -/
def decodeEntries : Option LongName → List (List UInt8) → List DirEntry
  | _, [] => []
  | pending, e :: es =>
      if e.getD 11 0 = 0x0F then decodeEntries (readLong pending e) es
      else readShort pending e :: decodeEntries none es

/-- Read a directory. -/
def decodeDirectory (bytes : List UInt8) : List DirEntry := decodeEntries none (records 32 bytes)

/-! ## Single entries -/

theorem wideChars_replicate (k : Nat) :
    wideChars (List.replicate (2 * k) 0xFF) = List.replicate k 0xFFFF := by
  induction k with
  | zero => rfl
  | succ k ih =>
      rw [show 2 * (k + 1) = 2 * k + 1 + 1 by omega, List.replicate_succ, List.replicate_succ,
        wideChars, ih, List.replicate_succ]
      rfl

theorem wideChars_flatMap (part rest : List UInt8) :
    wideChars ((part.flatMap fun c => littleEndian 2 c.toNat) ++ rest) =
      part.map UInt8.toNat ++ wideChars rest := by
  induction part with
  | nil => rfl
  | cons c part ih =>
      have hc : ofLittleEndian (littleEndian 2 c.toNat) = c.toNat := by
        have hlt := c.toNat_lt
        rw [ofLittleEndian_littleEndian]
        omega
      rw [List.flatMap_cons, List.append_assoc, List.map_cons, List.cons_append, ← ih]
      conv_rhs => rw [← hc]
      rfl

/-- The characters of a part of a name. -/
theorem wideChars_nameParts {part : List UInt8} :
    wideChars (nameParts part) =
      part.map UInt8.toNat ++ List.replicate (13 - part.length) 0xFFFF := by
  unfold nameParts
  rw [wideChars_flatMap, show 26 - 2 * part.length = 2 * (13 - part.length) by omega,
    wideChars_replicate]

section LongDirEnt

variable {seqNumber checksum : UInt8} {part : List UInt8}

theorem getD_longDirEnt_zero : (longDirEnt seqNumber checksum part).getD 0 0 = seqNumber := by
  simp [longDirEnt]

theorem getD_longDirEnt_attrib (h : part.length ≤ 13) :
    (longDirEnt seqNumber checksum part).getD 11 0 = dirEntLfn := by
  have hlen := length_nameParts h
  simp [longDirEnt, hlen]

theorem getD_longDirEnt_checksum (h : part.length ≤ 13) :
    (longDirEnt seqNumber checksum part).getD 13 0 = checksum := by
  have hlen := length_nameParts h
  simp [longDirEnt, hlen]

theorem entryChars_longDirEnt (h : part.length ≤ 13) :
    entryChars (longDirEnt seqNumber checksum part) =
      part.map UInt8.toNat ++ List.replicate (13 - part.length) 0xFFFF := by
  have hlen := length_nameParts h
  have hfirst : ((longDirEnt seqNumber checksum part).drop 1).take 10 =
      (nameParts part).take 10 := by
    simp [longDirEnt, hlen]
  have hsecond : ((longDirEnt seqNumber checksum part).drop 14).take 12 =
      ((nameParts part).drop 10).take 12 := by
    simp [longDirEnt, List.take_append, List.drop_append, hlen]
  have hthird : ((longDirEnt seqNumber checksum part).drop 28).take 4 =
      (nameParts part).drop 22 := by
    simp [longDirEnt, List.drop_append, List.drop_eq_nil_of_le, List.take_of_length_le, hlen]
  unfold entryChars
  rw [hfirst, hsecond, hthird, ← wideChars_nameParts]
  have hrest : (nameParts part).drop 22 = ((nameParts part).drop 10).drop 12 := by
    rw [List.drop_drop]
  rw [hrest, List.append_assoc, List.take_append_drop, List.take_append_drop]

end LongDirEnt

section DirEnt

variable {name : List UInt8} {flags : UInt8} {ctime mtime cluster size : Nat}

theorem take_dirEnt (h : name.length = 11) :
    (dirEnt name flags ctime mtime cluster size).take 11 = name := by
  simp [dirEnt, h]

theorem getD_dirEnt_flags (h : name.length = 11) :
    (dirEnt name flags ctime mtime cluster size).getD 11 0 = flags := by
  simp [dirEnt, h]

/-- The fields of an entry are read back. -/
theorem readShort_dirEnt (h : name.length = 11) (pending : Option LongName) :
    readShort pending (dirEnt name flags ctime mtime cluster size) =
      ⟨readName pending name, flags &&& 0x10 != 0, u32 size, u32 cluster⟩ := by
  have hsize : ((dirEnt name flags ctime mtime cluster size).drop 28).take 4 =
      littleEndian 4 size := by
    simp [dirEnt, List.drop_append, List.drop_eq_nil_of_le, List.take_of_length_le, h]
  have hhigh : ((dirEnt name flags ctime mtime cluster size).drop 20).take 2 =
      littleEndian 2 (cluster >>> 16) := by
    simp [dirEnt, List.drop_append, List.drop_eq_nil_of_le, h]
  have hlow : ((dirEnt name flags ctime mtime cluster size).drop 26).take 2 =
      littleEndian 2 cluster := by
    simp [dirEnt, List.drop_append, List.drop_eq_nil_of_le, h]
  have hcluster : (cluster >>> 16) % 256 ^ 2 * 2 ^ 16 + cluster % 256 ^ 2 = u32 cluster := by
    rw [Nat.shiftRight_eq_div_pow]
    unfold u32
    omega
  unfold readShort
  rw [take_dirEnt h, getD_dirEnt_flags h, hsize, hhigh, hlow, ofLittleEndian_littleEndian,
    ofLittleEndian_littleEndian, ofLittleEndian_littleEndian, hcluster]
  rfl

end DirEnt

/-- The checksum is the one of the VFAT rules. -/
theorem toNat_shortNameChecksum {shortname : List UInt8} (h : shortname.length = 11) :
    (shortNameChecksum shortname).toNat = vfatChecksum shortname := by
  have hbyte : ∀ k < 256, (((UInt8.ofNat k &&& 1) <<< 7) + (UInt8.ofNat k >>> 1)).toNat =
      k / 2 + k % 2 * 128 := by
    decide +kernel
  have hrotate : ∀ sum : UInt8, (((sum &&& 1) <<< 7) + (sum >>> 1)).toNat =
      sum.toNat / 2 + sum.toNat % 2 * 128 := by
    intro sum
    have hsum := hbyte sum.toNat sum.toNat_lt
    rwa [UInt8.ofNat_toNat] at hsum
  have hfold : ∀ (cs : List UInt8) (start : UInt8),
      (cs.foldl (fun (sum c : UInt8) => ((sum &&& 1) <<< 7) + (sum >>> 1) + c) start).toNat =
        cs.foldl (fun sum c => (sum / 2 + sum % 2 * 128 + c.toNat) % 256) start.toNat := by
    intro cs
    induction cs with
    | nil => exact fun _ => rfl
    | cons c cs ih =>
        intro start
        rw [List.foldl_cons, List.foldl_cons, ih, UInt8.toNat_add, hrotate]
  unfold shortNameChecksum vfatChecksum
  rw [List.take_of_length_le (Nat.le_of_eq h), hfold]
  rfl

/-! ## Long names -/

theorem longCount_bounds (name : List UInt8) :
    name.length + 1 ≤ longCount name * 13 ∧ longCount name * 13 < name.length + 14 := by
  unfold longCount fatCharPerLongEnt
  dsimp only
  split <;> omega

section LongName

variable {name shortname : List UInt8} {count n : Nat}

/-- The flag of the last entry is not part of the numbers of the others. -/
theorem toNat_seqNumber_of_ne (hne : n + 1 ≠ count) (hn : n < 64) :
    (UInt8.ofNat (n + 1) ||| if n + 1 = count then seqNumberLastFlag else 0).toNat = n + 1 := by
  rw [if_neg hne, UInt8.or_zero, UInt8.toNat_ofNat']
  omega

theorem toNat_seqNumber_of_eq (heq : n + 1 = count) (hn : n < 63) :
    (UInt8.ofNat (n + 1) ||| if n + 1 = count then seqNumberLastFlag else 0).toNat = n + 65 := by
  have hall : ∀ k < 63, (UInt8.ofNat (k + 1) ||| seqNumberLastFlag).toNat = k + 65 := by
    decide +kernel
  rw [if_pos heq, hall n hn]

theorem toNat_seqNumber_63 :
    (UInt8.ofNat (63 + 1) ||| if 63 + 1 = count then seqNumberLastFlag else 0).toNat = 64 := by
  split <;> rfl

theorem length_part_le (name : List UInt8) (n : Nat) :
    (((name ++ [0]).drop (n * fatCharPerLongEnt)).take fatCharPerLongEnt).length ≤ 13 := by
  rw [List.length_take]
  exact Nat.min_le_left _ _

/-- An entry for a long name leads to the next one. -/
theorem decodeEntries_longEntry (pending : Option LongName) (es : List (List UInt8)) :
    decodeEntries pending (longEntry name shortname count n :: es) =
      decodeEntries (readLong pending (longEntry name shortname count n)) es := by
  have hattrib : (longEntry name shortname count n).getD 11 0 = 0x0F :=
    getD_longDirEnt_attrib (length_part_le name n)
  rw [decodeEntries, if_pos hattrib]

theorem getD_longEntry_zero : (longEntry name shortname count n).getD 0 0 =
    (UInt8.ofNat (n + 1) ||| if n + 1 = count then seqNumberLastFlag else 0) :=
  getD_longDirEnt_zero

theorem getD_longEntry_checksum (hlen : shortname.length = 11) :
    ((longEntry name shortname count n).getD 13 0).toNat = vfatChecksum shortname := by
  rw [← toNat_shortNameChecksum hlen]
  exact congrArg UInt8.toNat (getD_longDirEnt_checksum (length_part_le name n))

/-- The first entry that is read starts a long name. -/
theorem readLong_last (hlen : shortname.length = 11) (heq : n + 1 = count) (hn : n < 63)
    (pending : Option LongName) :
    readLong pending (longEntry name shortname count n) =
      some ⟨n + 1, vfatChecksum shortname, entryChars (longEntry name shortname count n)⟩ := by
  unfold readLong
  rw [getD_longEntry_zero, toNat_seqNumber_of_eq heq hn, getD_longEntry_checksum hlen]
  dsimp only
  rw [if_pos (by omega), show (n + 65) % 64 = n + 1 by omega]

/-- The others are put in front of it. -/
theorem readLong_next (hlen : shortname.length = 11) (hlt : n + 1 < count) (hn : n < 63)
    (chars : List Nat) :
    readLong (some ⟨n + 2, vfatChecksum shortname, chars⟩) (longEntry name shortname count n) =
      some ⟨n + 1, vfatChecksum shortname,
        entryChars (longEntry name shortname count n) ++ chars⟩ := by
  unfold readLong
  rw [getD_longEntry_zero, toNat_seqNumber_of_ne (by omega) (by omega),
    getD_longEntry_checksum hlen]
  dsimp only
  rw [if_neg (by omega), if_pos (by omega), show (n + 1) % 64 = n + 1 by omega]

theorem readLong_orphan (hne : n + 1 ≠ count) (hn : n < 63) {pending : Option LongName}
    (hpending : ∀ l ∈ pending, l.ordinal = 0) :
    readLong pending (longEntry name shortname count n) = none := by
  unfold readLong
  rw [getD_longEntry_zero, toNat_seqNumber_of_ne hne (by omega)]
  dsimp only
  rw [if_neg (by omega)]
  cases pending with
  | none => rfl
  | some l =>
      have hl := hpending l rfl
      dsimp only
      rw [if_neg (by omega)]

/-- The characters of a long name from an entry on, with what fills the last entry. -/
def charsFrom (name : List UInt8) (n : Nat) : List Nat :=
  ((name ++ [0]).drop (n * 13)).map UInt8.toNat ++
    List.replicate (longCount name * 13 - (name.length + 1)) 0xFFFF

theorem entryChars_longEntry : entryChars (longEntry name shortname count n) =
    (((name ++ [0]).drop (n * 13)).take 13).map UInt8.toNat ++
      List.replicate (13 - (((name ++ [0]).drop (n * 13)).take 13).length) 0xFFFF :=
  entryChars_longDirEnt (length_part_le name n)

theorem entryChars_last (heq : n + 1 = longCount name) :
    entryChars (longEntry name shortname count n) = charsFrom name n := by
  have hbounds := longCount_bounds name
  have hall : ((name ++ [0]).drop (n * 13)).take 13 = (name ++ [0]).drop (n * 13) := by
    apply List.take_of_length_le
    simp
    omega
  have hfill : 13 - ((name ++ [0]).drop (n * 13)).length =
      longCount name * 13 - (name.length + 1) := by
    simp
    omega
  rw [entryChars_longEntry, hall, hfill]
  rfl

theorem entryChars_append_charsFrom (hlt : n + 1 < longCount name) :
    entryChars (longEntry name shortname count n) ++ charsFrom name (n + 1) =
      charsFrom name n := by
  have hbounds := longCount_bounds name
  have hfull : (((name ++ [0]).drop (n * 13)).take 13).length = 13 := by
    simp
    omega
  unfold charsFrom
  rw [entryChars_longEntry, hfull, Nat.sub_self, List.replicate_zero, List.append_nil,
    ← List.append_assoc, ← List.map_append, Nat.succ_mul, ← List.drop_drop,
    List.take_append_drop]

/-- At most 63 entries are put together. -/
theorem decodeEntries_longEntries (hlen : shortname.length = 11) (hcount : longCount name ≤ 63)
    (hlt : n + 1 ≤ longCount name) (es : List (List UInt8)) :
    decodeEntries (some ⟨n + 1, vfatChecksum shortname, charsFrom name n⟩)
        (longEntries name shortname (longCount name) n ++ es) =
      decodeEntries (some ⟨1, vfatChecksum shortname, charsFrom name 0⟩) es := by
  induction n with
  | zero => rfl
  | succ n ih =>
      rw [longEntries, List.cons_append, decodeEntries_longEntry,
        readLong_next hlen (by omega) (by omega), entryChars_append_charsFrom (by omega),
        ih (by omega)]

theorem decodeEntries_allLongEntries (hlen : shortname.length = 11)
    (hcount : longCount name ≤ 63) (es : List (List UInt8)) :
    decodeEntries none (longEntries name shortname (longCount name) (longCount name) ++ es) =
      decodeEntries (some ⟨1, vfatChecksum shortname, charsFrom name 0⟩) es := by
  have hbounds := longCount_bounds name
  obtain ⟨m, hm⟩ : ∃ m, longCount name = m + 1 := ⟨longCount name - 1, by omega⟩
  have hrest := decodeEntries_longEntries hlen hcount (Nat.le_of_eq hm.symm) es
  rw [hm] at hrest ⊢
  rw [longEntries, List.cons_append, decodeEntries_longEntry, readLong_last hlen rfl (by omega),
    entryChars_last hm.symm, hrest]

/-- Entries without the one that starts them are passed over. -/
theorem decodeEntries_orphans (hcount : 64 ≤ count) (hn : n ≤ 63) (es : List (List UInt8)) :
    decodeEntries none (longEntries name shortname count n ++ es) = decodeEntries none es := by
  induction n with
  | zero => rfl
  | succ n ih =>
      rw [longEntries, List.cons_append, decodeEntries_longEntry,
        readLong_orphan (by omega) (by omega) (by simp), ih (by omega)]

/-- The entry with number 64 has the number 0 in its six bits: the name is lost. -/
theorem decodeEntries_lost (hlen : shortname.length = 11) (hcount : 64 ≤ count) (hn : 64 ≤ n)
    (pending : Option LongName) (es : List (List UInt8)) :
    decodeEntries pending (longEntries name shortname count n ++ es) = decodeEntries none es := by
  induction n, hn using Nat.le_induction generalizing pending with
  | base =>
      have hstart : readLong pending (longEntry name shortname count 63) =
          some ⟨0, vfatChecksum shortname, entryChars (longEntry name shortname count 63)⟩ := by
        unfold readLong
        rw [getD_longEntry_zero, toNat_seqNumber_63, getD_longEntry_checksum hlen]
        rfl
      rw [longEntries, List.cons_append, decodeEntries_longEntry, hstart, longEntries,
        List.cons_append, decodeEntries_longEntry, readLong_orphan (by omega) (by omega) (by simp),
        decodeEntries_orphans hcount (by omega)]
  | succ n hn ih =>
      rw [longEntries, List.cons_append, decodeEntries_longEntry, ih]

end LongName

/-! ## Children -/

/-- The entry a child should have. -/
def Child.entry (fs : FsParameters) (n : Child) : DirEntry :=
  ⟨n.name.map UInt8.toNat, n.data.directory, n.data.size, n.data.cluster fs⟩

/-- The name that is read for a child. -/
def nameRead (name : List UInt8) (conv : Conversion) (shortname : List UInt8) : List UInt8 :=
  if conv ≠ .same ∧ longCount name ≤ 63 then name else decodeShortname shortname

/-- The dot entries that are read. -/
def Directory.dots (fs : FsParameters) (d : Directory) : List DirEntry :=
  match d.place with
  | .root => []
  | place =>
      [⟨[0x2E], true, 0, u32 (d.start / fs.clusterBytes + clusterOffset)⟩,
        ⟨[0x2E, 0x2E], true, 0, u32 (parentCluster fs place)⟩]

/-- What a child must be like to be read back, where `list` has the short names that are taken:
size and cluster have 32 bits, a name that loses its end would have a short name that is taken, and
no name has more than 63 long entries. -/
structure Kept (fs : FsParameters) (list : List (List UInt8)) (n : Child) : Prop where
  size : n.data.size < 2 ^ 32
  cluster : n.data.cluster fs < 2 ^ 32
  short : LosesEnd n.name → pad 11 (trimmed n.name) ∈ list
  long : n.name.length ≤ 818

theorem keptFields_iff {fs : FsParameters} {list : List (List UInt8)} {n : Child} :
    Kept fs list n ↔ n.data.size < 2 ^ 32 ∧ n.data.cluster fs < 2 ^ 32 ∧
      (LosesEnd n.name → ∃ short ∈ list, short = pad 11 (trimmed n.name)) ∧
        n.name.length ≤ 818 := by
  rw [exists_eq_right]
  exact ⟨fun ⟨hsize, hcluster, hshort, hlong⟩ => ⟨hsize, hcluster, hshort, hlong⟩,
    fun ⟨hsize, hcluster, hshort, hlong⟩ => ⟨hsize, hcluster, hshort, hlong⟩⟩

instance (fs : FsParameters) (list : List (List UInt8)) (n : Child) : Decidable (Kept fs list n) :=
  letI : Decidable (∃ short ∈ list, short = pad 11 (trimmed n.name)) := List.decidableBEx _ list
  decidable_of_iff _ keptFields_iff.symm

/-- All children are kept, where `list` has the short names that are taken. -/
def AllKept (fs : FsParameters) : List (List UInt8) → List Child → Prop
  | _, [] => True
  | list, it :: rest =>
      Kept fs list it ∧ AllKept fs ((chooseShortname list it.name).2 :: list) rest

instance AllKept.decidable (fs : FsParameters) : ∀ list children, Decidable (AllKept fs list children)
  | _, [] => isTrue trivial
  | list, it :: rest =>
      have := AllKept.decidable fs ((chooseShortname list it.name).2 :: list) rest
      inferInstanceAs (Decidable (Kept fs list it ∧ _))

/-- A long name that is complete. -/
theorem readName_charsFrom {name shortname : List UInt8} (hzero : 0 ∉ name) :
    readName (some ⟨1, vfatChecksum shortname, charsFrom name 0⟩) shortname =
      name.map UInt8.toNat := by
  have hname : ∀ c ∈ name.map UInt8.toNat, decide (c ≠ 0) = true := by
    intro c hc
    obtain ⟨b, hb, rfl⟩ := List.mem_map.1 hc
    have hne : b ≠ 0 := fun h => hzero (h ▸ hb)
    simpa [← UInt8.toNat_inj] using hne
  unfold readName charsFrom
  dsimp only
  rw [if_pos ⟨rfl, rfl⟩, Nat.zero_mul, List.drop_zero, List.map_append, List.append_assoc,
    List.takeWhile_append_of_pos hname]
  simp

theorem directory_flag (b : Bool) :
    ((if b then dirEntDirectory else 0) &&& 0x10 != 0) = b := by
  cases b <;> rfl

theorem flags_ne (b : Bool) : (if b then dirEntDirectory else 0) ≠ (0x0F : UInt8) := by
  cases b <;> decide

/-- The entries of a child are read as one entry. -/
theorem decodeEntries_childEntries {fs : FsParameters} {n : Child} {conv : Conversion}
    {shortname : List UInt8} (hlen : shortname.length = 11) (es : List (List UInt8)) :
    decodeEntries none (childEntries fs n conv shortname ++ es) =
      ⟨(nameRead n.name conv shortname).map UInt8.toNat, n.data.directory, u32 n.data.size,
        u32 (n.data.cluster fs)⟩ :: decodeEntries none es := by
  have hshort : ∀ pending, decodeEntries pending (shortEntry fs n shortname :: es) =
      ⟨readName pending shortname, n.data.directory, u32 n.data.size,
        u32 (n.data.cluster fs)⟩ :: decodeEntries none es := by
    intro pending
    unfold shortEntry
    rw [decodeEntries, getD_dirEnt_flags hlen, if_neg (flags_ne _), readShort_dirEnt hlen,
      directory_flag]
    simp [u32]
  unfold childEntries nameRead
  rw [List.append_assoc, List.singleton_append]
  by_cases hsame : conv = .same
  · rw [if_pos hsame, if_neg (by simp [hsame]), List.nil_append, hshort]
    rfl
  rw [if_neg hsame]
  by_cases hcount : longCount n.name ≤ 63
  · rw [if_pos ⟨hsame, hcount⟩, decodeEntries_allLongEntries hlen hcount, hshort,
      readName_charsFrom n.terminated]
  · rw [if_neg fun h => hcount h.2, decodeEntries_lost hlen (by omega) (by omega), hshort]
    rfl

theorem u32_eq_self_iff {n : Nat} : u32 n = n ↔ n < 2 ^ 32 :=
  ⟨fun h => h ▸ u32_lt n, u32_of_lt⟩

/-- A name that its short name stands for is read without dots and blanks at its end. -/
theorem decodeShortname_chosen {list : List (List UInt8)} {name shortname : List UInt8}
    (hne : name ≠ []) (h : chooseShortname list name = (.same, shortname)) :
    decodeShortname shortname = trimmed name := by
  have hcases := shortnameLoop_cases list name 1000000 1
  change (chooseShortname list name).1 = _ ∨ ∃ g, 1 ≤ g ∧ chooseShortname list name = _ at hcases
  rw [h] at hcases
  rcases hcases with herr | ⟨g, hg, heq⟩
  · cases herr
  · have hgen : g ≤ 1 := gen_le_one_of_same (congrArg Prod.fst heq.symm)
    obtain rfl : g = 1 := by omega
    exact decodeShortname_same hne heq.symm

/-- Of a name that is converted there is something left without the dots and blanks at its end. -/
theorem trimmed_ne_nil_of_chosen {list : List (List UInt8)} {name shortname : List UInt8}
    {conv : Conversion} (hne : name ≠ []) (h : chooseShortname list name = (conv, shortname))
    (hconv : conv ≠ .error) : trimmed name ≠ [] := by
  have hhead : ¬ (name.head? = some blank ∨ name.head? = some dot) := by
    intro hhead
    apply hconv
    have hstuck : ∀ gen, mkShortname name gen = (.error, List.replicate 11 blank) :=
      fun gen => if_pos hhead
    rcases shortnameLoop_cases list name 1000000 1 with herr | ⟨g, -, heq⟩
    · exact (congrArg Prod.fst h).symm.trans herr
    · exact (congrArg Prod.fst h).symm.trans (congrArg Prod.fst (heq.trans (hstuck g)))
  exact trimmed_ne_nil (fun hb => hhead (Or.inl hb)) (fun hd => hhead (Or.inr hd)) hne

/-- Which names come back. -/
theorem nameRead_eq_iff {list : List (List UInt8)} {name shortname : List UInt8}
    {conv : Conversion} (hne : name ≠ []) (h : chooseShortname list name = (conv, shortname))
    (hconv : conv ≠ .error) :
    nameRead name conv shortname = name ↔
      (LosesEnd name → pad 11 (trimmed name) ∈ list) ∧ name.length ≤ 818 := by
  have hbounds := longCount_bounds name
  have hsame : conv = .same ↔ (mkShortname name 1).1 = .same ∧ (mkShortname name 1).2 ∉ list := by
    rw [← chooseShortname_same_iff, h]
  unfold nameRead
  by_cases hconvSame : conv = .same
  · obtain ⟨hfirst, hfree⟩ := hsame.1 hconvSame
    subst hconvSame
    have hread := decodeShortname_chosen hne h
    rw [if_neg (by simp), hread]
    constructor
    · intro htrim
      have hlength := length_decodeShortname_le shortname
      rw [hread, htrim] at hlength
      exact ⟨fun hloses => absurd htrim hloses.ends, by omega⟩
    · rintro ⟨hshort, -⟩
      by_contra hends
      have hloses := losesEnd_of_same hne (Prod.ext hfirst rfl) hends
      rw [hloses.mkShortname_eq (trimmed_ne_nil_of_chosen hne h hconv)] at hfree
      exact hfree (hshort hloses)
  have hshort : LosesEnd name → pad 11 (trimmed name) ∈ list := by
    intro hloses
    have hmade := hloses.mkShortname_eq (trimmed_ne_nil_of_chosen hne h hconv)
    by_contra hfree
    exact hconvSame (hsame.2 (by rw [hmade]; exact ⟨rfl, hfree⟩))
  by_cases hcount : longCount name ≤ 63
  · rw [if_pos ⟨hconvSame, hcount⟩]
    exact iff_of_true rfl ⟨hshort, by omega⟩
  · rw [if_neg fun hc => hcount hc.2]
    apply iff_of_false
    · intro heq
      have hle := length_decodeShortname_le shortname
      rw [heq] at hle
      omega
    · rintro ⟨-, hlong⟩
      omega

theorem kept_iff {fs : FsParameters} {n : Child} {list : List (List UInt8)}
    {conv : Conversion} {shortname : List UInt8}
    (h : chooseShortname list n.name = (conv, shortname)) (hconv : conv ≠ .error) :
    (⟨(nameRead n.name conv shortname).map UInt8.toNat, n.data.directory, u32 n.data.size,
        u32 (n.data.cluster fs)⟩ : DirEntry) = n.entry fs ↔ Kept fs list n := by
  have hmap := List.map_injective_iff.2 fun (a b : UInt8) => UInt8.toNat_inj.1
  unfold Child.entry
  rw [DirEntry.mk.injEq, hmap.eq_iff, nameRead_eq_iff n.named h hconv, u32_eq_self_iff,
    u32_eq_self_iff, keptFields_iff, exists_eq_right]
  tauto

/-- The children are read back exactly where all of them are kept. -/
theorem Emits.decode_iff {fs : FsParameters} {list : List (List UInt8)} {children : List Child}
    {es : List (List UInt8)} (h : Emits fs list children es) :
    decodeEntries none es = children.map (Child.entry fs) ↔ AllKept fs list children := by
  induction h with
  | nil list => simp [decodeEntries, AllKept]
  | cons chosen converted stored tail ih =>
      rw [decodeEntries_childEntries (length_chooseShortname chosen converted), List.map_cons,
        List.cons_eq_cons, ih, kept_iff chosen converted, AllKept, chosen]

theorem decodeEntries_dotEntries (fs : FsParameters) (d : Directory) (es : List (List UInt8)) :
    decodeEntries none (dotEntries fs d ++ es) = d.dots fs ++ decodeEntries none es := by
  have hread : ∀ {name : List UInt8} (cluster : Nat) (es : List (List UInt8)),
      name.length = 11 → decodeEntries none (dirEnt name dirEntDirectory 0 0 cluster 0 :: es) =
        ⟨readName none name, true, 0, u32 cluster⟩ :: decodeEntries none es := by
    intro name cluster es hname
    rw [decodeEntries, getD_dirEnt_flags hname, if_neg (by decide), readShort_dirEnt hname]
    rfl
  have hdot : readName none (dot :: List.replicate 10 blank) = [0x2E] := by decide
  have hdotdot : readName none (dot :: dot :: List.replicate 9 blank) = [0x2E, 0x2E] := by decide
  unfold dotEntries Directory.dots
  cases d.place with
  | root => rfl
  | inRoot =>
      simp only [List.cons_append, List.nil_append]
      rw [hread _ _ (by simp), hread _ _ (by simp), hdot, hdotdot]
      simp [u32]
  | below parentStart =>
      simp only [List.cons_append, List.nil_append]
      rw [hread _ _ (by simp), hread _ _ (by simp), hdot, hdotdot]
      simp [u32]

/-- The entries of a directory that has been serialized are read as its children, behind the dot
entries, exactly where all children are kept. -/
theorem decodeDirectory_serialize_iff {ω : Type} {strm : Ostream ω} {received : ω → List UInt8}
    (hstrm : Collects strm received) {fs : FsParameters} {d : Directory} {w w' : ω}
    (h : serializeDirectory strm fs d w = .ok () w') :
    ∃ emitted, received w' = received w ++ emitted ∧
      (decodeDirectory emitted = d.dots fs ++ d.children.map (Child.entry fs) ↔
        AllKept fs [] d.children) := by
  obtain ⟨es, hes, hw'⟩ := serializeDirectory_ok hstrm h
  refine ⟨_, hw', ?_⟩
  have hlen : ∀ e ∈ dotEntries fs d ++ es, e.length = 32 := by
    intro e he
    rcases List.mem_append.1 he with he | he
    · exact length_of_mem_dotEntries he
    · exact hes.length_eq e he
  unfold decodeDirectory
  rw [records_flatten (by decide) hlen, decodeEntries_dotEntries, List.append_cancel_left_eq,
    hes.decode_iff]

/-- A file of five bytes in cluster 5. -/
def fileNamed (name : List UInt8) (named : name ≠ []) (terminated : 0 ∉ name) : Child :=
  ⟨name, .file 3 5, 0, 0, named, terminated⟩

/-- A directory with names that are short names, names that differ in case only, a name that would
lose its end if the short name were not taken, and one of three long entries. -/
def mixedDirectory : Directory where
  place := .inRoot
  start := 4096
  children :=
    [⟨"DOCS".toList.map fun c => UInt8.ofNat c.toNat, .dir 8192 96, 0, 0, by decide, by decide⟩,
      fileNamed ("A.TXT".toList.map fun c => UInt8.ofNat c.toNat) (by decide) (by decide),
      fileNamed ("readme".toList.map fun c => UInt8.ofNat c.toNat) (by decide) (by decide),
      fileNamed ("Readme".toList.map fun c => UInt8.ofNat c.toNat) (by decide) (by decide),
      fileNamed ("README.".toList.map fun c => UInt8.ofNat c.toNat) (by decide) (by decide),
      fileNamed ("a name of more than two entries..".toList.map fun c => UInt8.ofNat c.toNat)
        (by decide) (by decide)]

theorem decodeDirectory_serialize_mixed :
    ∃ emitted, serializeDirectory collecting ⟨8, 516, 264192⟩ mixedDirectory [] = .ok () emitted ∧
      decodeDirectory emitted = mixedDirectory.dots ⟨8, 516, 264192⟩ ++
        mixedDirectory.children.map (Child.entry ⟨8, 516, 264192⟩) := by
  have hstrm : Collects collecting id := by
    intro w data w' h
    cases h
    rfl
  have hval : (serializeDirectory collecting ⟨8, 516, 264192⟩ mixedDirectory []).val? = some () :=
    rfl
  obtain ⟨w, hrun⟩ := Outcome.exists_ok hval
  obtain ⟨emitted, hemitted, hiff⟩ := decodeDirectory_serialize_iff hstrm hrun
  obtain rfl : w = emitted := hemitted
  exact ⟨w, hrun, hiff.2 (by decide +kernel)⟩

/-- A file `FOO.` is read as `FOO`. -/
theorem serializeDirectory_trailing_dot :
    serializeDirectory collecting ⟨8, 516, 264192⟩
        ⟨.root, 0, [fileNamed [0x46, 0x4F, 0x4F, 0x2E] (by decide) (by decide)]⟩ [] =
      .ok () [0x46, 0x4F, 0x4F, 0x20, 0x20, 0x20, 0x20, 0x20, 0x20, 0x20, 0x20, 0, 0, 0, 0, 0,
        0x21, 0, 0x21, 0, 0, 0, 0, 0, 0x21, 0, 5, 0, 5, 0, 0, 0] ∧
    decodeDirectory [0x46, 0x4F, 0x4F, 0x20, 0x20, 0x20, 0x20, 0x20, 0x20, 0x20, 0x20, 0, 0, 0,
        0, 0, 0x21, 0, 0x21, 0, 0, 0, 0, 0, 0x21, 0, 5, 0, 5, 0, 0, 0] ≠
      [(fileNamed [0x46, 0x4F, 0x4F, 0x2E] (by decide) (by decide)).entry ⟨8, 516, 264192⟩] :=
  ⟨rfl, by decide⟩

end ImageTool.Fat
