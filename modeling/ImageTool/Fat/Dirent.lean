import ImageTool.Fstream.OstreamXfrm
import ImageTool.Lib.LittleEndian
import ImageTool.Fat.Parameters
import ImageTool.Fat.Shortname

/-!
# Directory entries

`fatfs_serialize_directory` writes an entry of 32 bytes for each child of a directory, with
entries for a long name in front where the short name is said not to be the name.
-/

namespace ImageTool.Fat

open ImageTool.Lib ImageTool.Fstream

/-! ## Time stamps -/

/-- `MSDOS_EPOCH`. -/
def msdosEpoch : Int := 315532800

/-- `MSDOS_MAX_TS`. -/
def msdosMaxTs : Int := 4102444799

/-- `is_leap_year`. -/
def isLeapYear (year : Nat) : Bool := year % 4 == 0 && (year % 100 != 0 || year % 400 == 0)

/-- `mdays`. -/
def mdays : List Nat := [31, 28, 31, 30, 31, 30, 31, 31, 30, 31, 30, 31]

/-- The loop over the years: the year and the days that are left. -/
def yearLoop : Nat → Nat → Nat → Nat × Nat
  | 0, days, year => (year, days)
  | n + 1, days, year =>
      let daysInYear := if isLeapYear year then 366 else 365
      if days < daysInYear then (year, days) else yearLoop n (days - daysInYear) (year + 1)

/-- The loop over the months: the month and the days that are left. -/
def monthLoop (year : Nat) : List Nat → Nat → Nat → Nat × Nat
  | [], month, days => (month, days)
  | m :: ms, month, days =>
      let daysInMonth := if month = 2 ∧ isLeapYear year then m + 1 else m
      if days < daysInMonth then (month, days)
      else monthLoop year ms (month + 1) (days - daysInMonth)

/-- `fatfs_convert_timestamp`. -/
def convertTimestamp (timestamp : Int) : Nat :=
  let timestamp := if timestamp < msdosEpoch then 0 else timestamp - msdosEpoch
  let timestamp := (if timestamp > msdosMaxTs then msdosMaxTs else timestamp).toNat
  let days := timestamp / 86400
  let secs := timestamp % 86400
  let (year, days) := yearLoop (days + 1) days 1980
  let (month, days) := monthLoop year mdays 1 days
  ((secs % 60 / 2) &&& 0x1F) ||| (((secs % 3600 / 60) <<< 5) &&& 0x7E0) |||
    (((secs / 3600) <<< 11) &&& 0xF800) ||| (((days + 1) <<< 16) &&& 0x1F0000) |||
    ((month <<< 21) &&& 0x1E00000) ||| (((year - 1980) <<< 25) &&& 0xFE000000)

/-! ## Nodes -/

/-- The part of `tree_node_t` that depends on the type. -/
inductive NodeData where
  | dir (start size : Nat)
  | file (startIndex size : Nat)
  | other
  deriving DecidableEq

/-- A child of a directory. -/
structure Child where
  name : List UInt8
  data : NodeData
  ctime : Int
  mtime : Int
  named : name ≠ []
  terminated : 0 ∉ name

/-- Where a directory is: the root, a child of it, or below a directory that starts somewhere. -/
inductive Place where
  | root
  | inRoot
  | below (parentStart : Nat)
  deriving DecidableEq

/-- A directory node. -/
structure Directory where
  place : Place
  start : Nat
  children : List Child

/-! ## Entries -/

/-- `FAT_CHAR_PER_LONG_ENT`. -/
def fatCharPerLongEnt : Nat := 13

/-- `SEQ_NUMBER_LAST_FLAG`. -/
def seqNumberLastFlag : UInt8 := 0x40

/-- `CLUSTER_OFFSET`. -/
def clusterOffset : Nat := 2

/-- `DIR_ENT_DIRECTORY`. -/
def dirEntDirectory : UInt8 := 0x10

/-- `DIR_ENT_LFN`. -/
def dirEntLfn : UInt8 := 0x0F

/-- `is_non_ascii`. -/
def isNonAscii (name : List UInt8) : Bool := name.any fun c => c &&& 0x80 != 0

/-- `short_name_checksum`. -/
def shortNameChecksum (shortname : List UInt8) : UInt8 :=
  (shortname.take 11).foldl (fun sum c => ((sum &&& 1) <<< 7) + (sum >>> 1) + c) 0

/-- The bytes of a cluster. -/
def FsParameters.clusterBytes (fs : FsParameters) : Nat := u32 (sectorSize * fs.secsPerCluster)

/-- `get_cluster_index`. -/
def getClusterIndex {ω : Type} (fs : FsParameters) (location : Nat) : Call ω Nat :=
  if fs.clusterBytes = 0 then Call.stuck
  else pure (u32 (location / fs.clusterBytes + clusterOffset))

/-- `fatfs_dir_ent_t`. -/
def dirEnt (name : List UInt8) (flags : UInt8) (ctime mtime cluster size : Nat) : List UInt8 :=
  name ++ [flags, 0, 0] ++ littleEndian 2 ctime ++ littleEndian 2 (ctime >>> 16) ++
    littleEndian 2 (mtime >>> 16) ++ littleEndian 2 (cluster >>> 16) ++ littleEndian 2 mtime ++
    littleEndian 2 (mtime >>> 16) ++ littleEndian 2 cluster ++ littleEndian 4 size

/-- The three parts of the name in `fatfs_long_dir_ent_t`: the characters of `part`, then bytes
0xFF. -/
def nameParts (part : List UInt8) : List UInt8 :=
  (part.flatMap fun c => littleEndian 2 c.toNat) ++ List.replicate (26 - 2 * part.length) 0xFF

/-- `fatfs_long_dir_ent_t`. -/
def longDirEnt (seqNumber checksum : UInt8) (part : List UInt8) : List UInt8 :=
  [seqNumber] ++ (nameParts part).take 10 ++ [dirEntLfn, 0, checksum] ++
    ((nameParts part).drop 10).take 12 ++ [0, 0] ++ (nameParts part).drop 22

/-- The entry with number `n + 1` of the `count` entries for a long name. -/
def longEntry (name shortname : List UInt8) (count n : Nat) : List UInt8 :=
  longDirEnt (UInt8.ofNat (n + 1) ||| if n + 1 = count then seqNumberLastFlag else 0)
    (shortNameChecksum shortname)
    (((name ++ [0]).drop (n * fatCharPerLongEnt)).take fatCharPerLongEnt)

/-- The number of entries for a long name. -/
def longCount (name : List UInt8) : Nat :=
  let len := name.length + 1
  len / fatCharPerLongEnt + if len % fatCharPerLongEnt ≠ 0 then 1 else 0

section Write

variable {ω : Type} (strm : Ostream ω) (fs : FsParameters)

/-- The location, the size and the flags of a node. -/
def location (data : NodeData) : Call ω (Nat × Nat × UInt8) :=
  match data with
  | .dir start size => do
      let location ← getClusterIndex fs start
      pure (location, u32 size, dirEntDirectory)
  | .file startIndex size => pure (u32 (u32 startIndex + clusterOffset), u32 size, 0)
  | .other => Call.fail

/-- `write_short_entry`. -/
def writeShortEntry (n : Child) (shortname : List UInt8) : Call ω Unit := do
  let (location, size, flags) ← location fs n.data
  strm.append (dirEnt shortname flags (convertTimestamp n.ctime) (convertTimestamp n.mtime)
    location size)

/-- The loop of `write_long_entry` over the `n` entries that are left. -/
def longEntryLoop (name shortname : List UInt8) (count : Nat) : Nat → Call ω Unit
  | 0 => pure ()
  | n + 1 => do
      strm.append (longEntry name shortname count n)
      longEntryLoop name shortname count n

/-- `write_long_entry`. -/
def writeLongEntry (name shortname : List UInt8) : Call ω Unit :=
  longEntryLoop strm name shortname (longCount name) (longCount name)

/-- `init_directory`. -/
def initDirectory (d : Directory) : Call ω Unit :=
  match d.place with
  | .root => pure ()
  | place => do
      let location ← getClusterIndex fs d.start
      strm.append (dirEnt (dot :: List.replicate 10 blank) dirEntDirectory 0 0 location 0)
      let location ← match place with
        | .below parentStart => getClusterIndex fs parentStart
        | _ => pure 0
      strm.append (dirEnt (dot :: dot :: List.replicate 9 blank) dirEntDirectory 0 0 location 0)

/-- The loop of `fatfs_serialize_directory`. -/
def serializeChildren : List (List UInt8) → List Child → Call ω Unit
  | _, [] => pure ()
  | list, it :: rest =>
      if isNonAscii it.name then Call.fail
      else
        let (conv, shortname) := chooseShortname list it.name
        if conv = .error then Call.fail
        else do
          Call.guard (conv = .ok ∨ conv = .suffixed) (writeLongEntry strm it.name shortname)
          writeShortEntry strm fs it shortname
          serializeChildren (shortname :: list) rest

/-- `fatfs_serialize_directory`. -/
def serializeDirectory (d : Directory) : Call ω Unit := do
  initDirectory strm fs d
  serializeChildren strm fs [] d.children

end Write

/-! ## What is written -/

namespace NodeData

/-- Whether a node is a directory. -/
def directory : NodeData → Bool
  | .dir _ _ => true
  | _ => false

/-- The size of a node. -/
def size : NodeData → Nat
  | .dir _ size => size
  | .file _ size => size
  | .other => 0

/-- The cluster a node starts in. -/
def cluster (fs : FsParameters) : NodeData → Nat
  | .dir start _ => start / fs.clusterBytes + clusterOffset
  | .file startIndex _ => startIndex + clusterOffset
  | .other => 0

end NodeData

/-- The entries with the numbers up to `n` of the `count` entries for a long name. -/
def longEntries (name shortname : List UInt8) (count : Nat) : Nat → List (List UInt8)
  | 0 => []
  | n + 1 => longEntry name shortname count n :: longEntries name shortname count n

/-- The last entry of a child. -/
def shortEntry (fs : FsParameters) (n : Child) (shortname : List UInt8) : List UInt8 :=
  dirEnt shortname (if n.data.directory then dirEntDirectory else 0) (convertTimestamp n.ctime)
    (convertTimestamp n.mtime) (u32 (n.data.cluster fs)) (u32 n.data.size)

/-- The entries of a child with a short name. -/
def childEntries (fs : FsParameters) (n : Child) (conv : Conversion) (shortname : List UInt8) :
    List (List UInt8) :=
  (if conv = .same then []
    else longEntries n.name shortname (longCount n.name) (longCount n.name)) ++
    [shortEntry fs n shortname]

/-- The entries of the children, where `list` has the short names that are taken. -/
inductive Emits (fs : FsParameters) : List (List UInt8) → List Child → List (List UInt8) → Prop
  | nil (list : List (List UInt8)) : Emits fs list [] []
  | cons {list : List (List UInt8)} {it : Child} {rest : List Child} {conv : Conversion}
      {shortname : List UInt8} {es : List (List UInt8)}
      (chosen : chooseShortname list it.name = (conv, shortname)) (converted : conv ≠ .error)
      (stored : it.data ≠ .other) (tail : Emits fs (shortname :: list) rest es) :
      Emits fs list (it :: rest) (childEntries fs it conv shortname ++ es)

/-- `received` shows all that has been appended to a stream. -/
def Collects {ω : Type} (strm : Ostream ω) (received : ω → List UInt8) : Prop :=
  ∀ w data w', strm.append data w = .ok () w' → received w' = received w ++ data

section Write

variable {ω : Type} {strm : Ostream ω} {received : ω → List UInt8} {fs : FsParameters} {w w' : ω}

theorem getClusterIndex_ok {start index : Nat} (h : getClusterIndex fs start w = .ok index w') :
    index = u32 (start / fs.clusterBytes + clusterOffset) ∧ w' = w := by
  unfold getClusterIndex at h
  split at h
  · cases h
  · cases h
    exact ⟨rfl, rfl⟩

theorem location_ok {data : NodeData} {index size : Nat} {flags : UInt8}
    (h : location fs data w = .ok (index, size, flags) w') :
    data ≠ .other ∧ index = u32 (data.cluster fs) ∧ size = u32 data.size ∧
      flags = (if data.directory then dirEntDirectory else 0) ∧ w' = w := by
  cases data with
  | dir start n =>
      obtain ⟨index', w₁, hindex, hpure⟩ := Outcome.of_bind_eq_ok h
      obtain ⟨rfl, rfl⟩ := getClusterIndex_ok hindex
      cases hpure
      simp [NodeData.cluster, NodeData.size, NodeData.directory]
  | file startIndex n =>
      cases h
      simp [NodeData.cluster, NodeData.size, NodeData.directory, u32]
  | other => cases h

theorem writeShortEntry_ok (hstrm : Collects strm received) {n : Child} {shortname : List UInt8}
    (h : writeShortEntry strm fs n shortname w = .ok () w') :
    n.data ≠ .other ∧ received w' = received w ++ shortEntry fs n shortname := by
  obtain ⟨⟨index, size, flags⟩, w₁, hloc, happend⟩ := Outcome.of_bind_eq_ok h
  obtain ⟨hdata, rfl, rfl, rfl, rfl⟩ := location_ok hloc
  exact ⟨hdata, hstrm _ _ _ happend⟩

theorem longEntryLoop_ok (hstrm : Collects strm received) {name shortname : List UInt8}
    {count n : Nat} (h : longEntryLoop strm name shortname count n w = .ok () w') :
    received w' = received w ++ (longEntries name shortname count n).flatten := by
  induction n generalizing w with
  | zero =>
      cases h
      simp [longEntries]
  | succ n ih =>
      obtain ⟨_, w₁, happend, hrest⟩ := Outcome.of_bind_eq_ok h
      rw [ih hrest, hstrm _ _ _ happend, longEntries, List.flatten_cons, List.append_assoc]

/-- What has been written when the loop over the children ends. -/
theorem serializeChildren_ok (hstrm : Collects strm received) {list : List (List UInt8)}
    {children : List Child} (h : serializeChildren strm fs list children w = .ok () w') :
    ∃ es, Emits fs list children es ∧ received w' = received w ++ es.flatten := by
  induction children generalizing list w with
  | nil =>
      cases h
      exact ⟨[], .nil list, by simp⟩
  | cons it rest ih =>
      unfold serializeChildren at h
      split at h
      · cases h
      cases hchosen : chooseShortname list it.name with
      | mk conv shortname =>
          rw [hchosen] at h
          dsimp only at h
          split at h
          · cases h
          rename_i hconv
          obtain ⟨_, w₁, hlong, h⟩ := Outcome.of_bind_eq_ok h
          obtain ⟨_, w₂, hshort, h⟩ := Outcome.of_bind_eq_ok h
          obtain ⟨hdata, hw₂⟩ := writeShortEntry_ok hstrm hshort
          obtain ⟨es, hes, hw'⟩ := ih h
          refine ⟨_, .cons hchosen hconv hdata hes, ?_⟩
          rw [hw', hw₂]
          unfold childEntries
          cases conv with
          | error => exact absurd rfl hconv
          | same =>
              rw [Call.guard_neg (by simp)] at hlong
              cases hlong
              simp
          | ok =>
              rw [Call.guard_pos (Or.inl rfl)] at hlong
              rw [longEntryLoop_ok hstrm hlong]
              simp
          | suffixed =>
              rw [Call.guard_pos (Or.inr rfl)] at hlong
              rw [longEntryLoop_ok hstrm hlong]
              simp

/-- The cluster the dot-dot entry names. -/
def parentCluster (fs : FsParameters) : Place → Nat
  | .below parentStart => parentStart / fs.clusterBytes + clusterOffset
  | _ => 0

/-- The dot entries. -/
def dotEntries (fs : FsParameters) (d : Directory) : List (List UInt8) :=
  match d.place with
  | .root => []
  | place =>
      [dirEnt (dot :: List.replicate 10 blank) dirEntDirectory 0 0
          (u32 (d.start / fs.clusterBytes + clusterOffset)) 0,
        dirEnt (dot :: dot :: List.replicate 9 blank) dirEntDirectory 0 0
          (u32 (parentCluster fs place)) 0]

theorem initDirectory_ok (hstrm : Collects strm received) {d : Directory}
    (h : initDirectory strm fs d w = .ok () w') :
    received w' = received w ++ (dotEntries fs d).flatten := by
  unfold initDirectory at h
  unfold dotEntries
  cases hplace : d.place with
  | root =>
      rw [hplace] at h
      cases h
      simp
  | inRoot =>
      rw [hplace] at h
      obtain ⟨index, w₁, hindex, hrest⟩ := Outcome.of_bind_eq_ok h
      obtain ⟨rfl, rfl⟩ := getClusterIndex_ok hindex
      obtain ⟨_, w₂, hdot, hdotdot⟩ := Outcome.of_bind_eq_ok hrest
      rw [hstrm _ _ _ hdotdot, hstrm _ _ _ hdot]
      simp [parentCluster, u32]
  | below parentStart =>
      rw [hplace] at h
      obtain ⟨index, w₁, hindex, hrest⟩ := Outcome.of_bind_eq_ok h
      obtain ⟨rfl, rfl⟩ := getClusterIndex_ok hindex
      obtain ⟨_, w₂, hdot, hrest'⟩ := Outcome.of_bind_eq_ok hrest
      obtain ⟨parent, w₃, hparent, hdotdot⟩ := Outcome.of_bind_eq_ok hrest'
      obtain ⟨rfl, rfl⟩ := getClusterIndex_ok hparent
      rw [hstrm _ _ _ hdotdot, hstrm _ _ _ hdot]
      simp [parentCluster]

/-- What a directory that has been serialized consists of. -/
theorem serializeDirectory_ok (hstrm : Collects strm received) {d : Directory}
    (h : serializeDirectory strm fs d w = .ok () w') :
    ∃ es, Emits fs [] d.children es ∧
      received w' = received w ++ (dotEntries fs d ++ es).flatten := by
  obtain ⟨_, w₁, hinit, hrest⟩ := Outcome.of_bind_eq_ok h
  obtain ⟨es, hes, hw'⟩ := serializeChildren_ok hstrm hrest
  refine ⟨es, hes, ?_⟩
  rw [hw', initDirectory_ok hstrm hinit, List.flatten_append, List.append_assoc]

end Write

/-! ## Entries have 32 bytes -/

theorem length_dirEnt {name : List UInt8} (hname : name.length = 11) (flags : UInt8)
    (ctime mtime cluster size : Nat) :
    (dirEnt name flags ctime mtime cluster size).length = 32 := by
  simp [dirEnt, hname]

theorem length_nameParts {part : List UInt8} (h : part.length ≤ 13) :
    (nameParts part).length = 26 := by
  simp [nameParts]
  omega

theorem length_longDirEnt (seqNumber checksum : UInt8) {part : List UInt8}
    (h : part.length ≤ 13) : (longDirEnt seqNumber checksum part).length = 32 := by
  simp [longDirEnt, length_nameParts h]

theorem length_longEntry (name shortname : List UInt8) (count n : Nat) :
    (longEntry name shortname count n).length = 32 := by
  apply length_longDirEnt
  rw [List.length_take]
  exact Nat.min_le_left _ _

theorem length_of_mem_longEntries {name shortname : List UInt8} {count n : Nat}
    {e : List UInt8} (h : e ∈ longEntries name shortname count n) : e.length = 32 := by
  induction n with
  | zero => cases h
  | succ n ih =>
      rcases List.mem_cons.1 h with rfl | h
      · exact length_longEntry _ _ _ _
      · exact ih h

/-- A name that is converted has a short name of eleven characters. -/
theorem length_chooseShortname {list : List (List UInt8)} {name shortname : List UInt8}
    {conv : Conversion} (h : chooseShortname list name = (conv, shortname))
    (hconv : conv ≠ .error) : shortname.length = 11 := by
  have hcases := shortnameLoop_cases list name 1000000 1
  change (chooseShortname list name).1 = _ ∨ ∃ g, 1 ≤ g ∧ chooseShortname list name = _ at hcases
  rw [h] at hcases
  rcases hcases with herr | ⟨g, -, heq⟩
  · exact absurd herr hconv
  · have hlen := length_mkShortname name g
    rwa [← heq] at hlen

theorem Emits.length_eq {fs : FsParameters} {list : List (List UInt8)} {children : List Child}
    {es : List (List UInt8)} (h : Emits fs list children es) : ∀ e ∈ es, e.length = 32 := by
  induction h with
  | nil list => simp
  | cons chosen converted stored tail ih =>
      intro e he
      rcases List.mem_append.1 he with he | he
      · rcases List.mem_append.1 he with he | he
        · split at he
          · cases he
          · exact length_of_mem_longEntries he
        · rw [List.mem_singleton.1 he]
          exact length_dirEnt (length_chooseShortname chosen converted) _ _ _ _ _
      · exact ih e he

theorem length_of_mem_dotEntries {fs : FsParameters} {d : Directory} {e : List UInt8}
    (h : e ∈ dotEntries fs d) : e.length = 32 := by
  unfold dotEntries at h
  split at h
  · cases h
  · rcases List.mem_pair.1 h with rfl | rfl
    · exact length_dirEnt (by simp) _ _ _ _ _
    · exact length_dirEnt (by simp) _ _ _ _ _

end ImageTool.Fat
