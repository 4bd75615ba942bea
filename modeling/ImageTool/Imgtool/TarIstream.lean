import ImageTool.Fstream.FileIstream
import ImageTool.Fstream.Operations
import ImageTool.Lib.Word

/-!
# The contents of a member of an archive

A member of a tar archive that is a sparse file comes with a map of the regions that hold
data; the archive has the data of the regions only, one after another.
-/

namespace ImageTool.Imgtool

open ImageTool.Lib ImageTool.Fstream

/-- `sparse_map_t`. -/
structure SparseRegion where
  offset : Nat
  count : Nat

/-- What a stream over a member uses of `file_source_tar_t`. -/
structure FileSourceTar (ω : Type) where
  tarStream : Istream ω
  apparentFileSize : Nat
  fileBytesLeft : Nat

/-- The fields of `tar_istream_t` behind the stream. -/
structure TarIstream (ω : Type) where
  sparse : List SparseRegion
  offset : Nat
  tar : FileSourceTar ω

namespace TarIstream

variable {ω : Type} (wrapped : Call (Istream ω) Unit)

/-- `sizeof(ts->buffer)`. -/
def bufferSize : Nat := 1024

/-- The number of zero bytes written for a gap before the next region.  It is kept in an
`int32_t`. -/
def zeroCount (gap diff : Nat) : Nat :=
  if 2 ^ 31 ≤ gap % 2 ^ 32 ∨ diff < gap % 2 ^ 32 then diff else gap % 2 ^ 32

/-- Bytes that have been written to the buffer. -/
def supply (strm : Istream (TarIstream ω)) (bytes : List UInt8) : Istream (TarIstream ω) :=
  { strm with
    buffer := strm.buffer ++ bytes
    inner := { strm.inner with
      offset := strm.inner.offset + bytes.length
      tar := { strm.inner.tar with
        apparentFileSize := strm.inner.tar.apparentFileSize - bytes.length } } }

/-- The archive has been read. -/
def withArchive (strm : Istream (TarIstream ω)) (tarStream : Istream ω) :
    Istream (TarIstream ω) :=
  { strm with inner := { strm.inner with tar := { strm.inner.tar with
    tarStream := tarStream } } }

/-- `istream_read` on the archive. -/
def readData (diff : Nat) : Call (Istream (TarIstream ω)) (List UInt8) :=
  Call.zoom (fun strm => strm.inner.tar.tarStream) withArchive (Istream.read wrapped diff)

/-- The bytes are no longer left in the archive. -/
def takeOff (strm : Istream (TarIstream ω)) (n : Nat) : Istream (TarIstream ω) :=
  { strm with inner := { strm.inner with tar := { strm.inner.tar with
    fileBytesLeft := sub64 strm.inner.tar.fileBytesLeft n } } }

/-- The end of a round: at most `diff` bytes are copied before the loop goes on. -/
def copyData (loop : Call (Istream (TarIstream ω)) Unit) (diff : Nat) :
    Call (Istream (TarIstream ω)) Unit := fun strm =>
  (readData wrapped diff strm).bind fun bytes strm =>
    if bytes.length = 0 then .ok () { strm with eof := true }
    else loop (takeOff (supply strm bytes) bytes.length)

/-- The loop of `tar_istream_precache`. -/
def precacheLoop : Nat → Call (Istream (TarIstream ω)) Unit
  | 0 => Call.stuck
  | fuel + 1 => fun strm =>
      if strm.buffer.length < bufferSize then
        let diff := min (bufferSize - strm.buffer.length) strm.inner.tar.apparentFileSize
        if diff = 0 then .ok () { strm with eof := true }
        else
          match strm.inner.sparse with
          | [] => copyData wrapped (precacheLoop fuel) diff strm
          | region :: old =>
              if region.offset > strm.inner.offset then
                let ret := zeroCount (region.offset - strm.inner.offset) diff
                precacheLoop fuel (supply strm (List.replicate ret 0))
              else
                let available := strm.inner.offset - region.offset
                if region.count > available then
                  copyData wrapped (precacheLoop fuel) (min diff (region.count - available)) strm
                else precacheLoop fuel { strm with inner := { strm.inner with sparse := old } }
      else .ok () strm

/-- `tar_istream_precache`.  A round of its loop writes to the buffer, goes on to the next
region, or is repeated for ever. -/
def precache : Call (Istream (TarIstream ω)) Unit := fun strm =>
  precacheLoop wrapped (bufferSize + strm.inner.sparse.length + 1)
    { strm with buffer := [], bufferOffset := 0 }

/-- `tar_istream_create`. -/
def create (tar : FileSourceTar ω) (sparse : List SparseRegion) : Istream (TarIstream ω) :=
  ⟨[], 0, false, sparse, 0, tar⟩

/-! ## The contents of a sparse file -/

/-- The contents behind an offset: the data of the regions, and zero bytes elsewhere.  They
end early where the archive does. -/
def expand : List SparseRegion → Nat → Nat → List UInt8 → List UInt8
  | [], _, left, _ => List.replicate left 0
  | region :: map, offset, left, data =>
      let hole := min (region.offset - offset) left
      let want := min (region.offset + region.count - (offset + hole)) (left - hole)
      List.replicate hole 0 ++ (data.take want ++
        if data.length < want then []
        else expand map (offset + hole + want) (left - hole - want) (data.drop want))

/-- The contents of a member of the given size.  Without a map they are the data. -/
def fileContents (map : List SparseRegion) (offset left : Nat) (data : List UInt8) :
    List UInt8 :=
  if map = [] then data.take left else expand map offset left data

/-- The end of the last region. -/
def mapEnd : List SparseRegion → Nat
  | [] => 0
  | [region] => region.offset + region.count
  | _ :: region :: map => mapEnd (region :: map)

/-- The gaps before the regions fit into 32 bits. -/
def GapsFit : Nat → List SparseRegion → Prop
  | _, [] => True
  | offset, region :: map =>
      region.offset - offset < 2 ^ 32 ∧ GapsFit (region.offset + region.count) map

variable {wrapped} {tholds : Istream ω → List UInt8 → Prop}
variable {strm : Istream (TarIstream ω)} {rest data : List UInt8}
variable {region : SparseRegion} {map : List SparseRegion} {offset left n : Nat}

-- the equations of the function are derived here, once for all of the lemmas
attribute [local simp] expand

theorem expand_zero (map : List SparseRegion) (offset : Nat) (data : List UInt8) :
    expand map offset 0 data = [] := by
  induction map generalizing offset data with
  | nil => rfl
  | cons region map ih =>
      unfold expand
      simp only [Nat.min_zero, Nat.sub_zero, ih, List.replicate_zero, List.take_zero,
        ite_self, List.append_nil]

theorem expand_gap (data : List UInt8) (hn : n ≤ region.offset - offset) (hleft : n ≤ left) :
    expand (region :: map) offset left data =
      List.replicate n 0 ++ expand (region :: map) (offset + n) (left - n) data := by
  obtain ⟨hole, hhole'⟩ : ∃ hole, min (region.offset - (offset + n)) (left - n) = hole :=
    ⟨_, rfl⟩
  have hhole : min (region.offset - offset) left = n + hole := by omega
  unfold expand
  rw [hhole, hhole']
  dsimp only
  rw [List.replicate_add, List.append_assoc, Nat.sub_add_eq left, Nat.add_assoc offset n]

theorem expand_data (hin : region.offset ≤ offset)
    (hn : n ≤ region.offset + region.count - offset) (hleft : n ≤ left)
    (hdata : n ≤ data.length) :
    expand (region :: map) offset left data =
      data.take n ++ expand (region :: map) (offset + n) (left - n) (data.drop n) := by
  have hhole : min (region.offset - offset) left = 0 := by omega
  have hhole' : min (region.offset - (offset + n)) (left - n) = 0 := by omega
  obtain ⟨want, hwant'⟩ : ∃ want,
      min (region.offset + region.count - (offset + n)) (left - n) = want := ⟨_, rfl⟩
  have hwant : min (region.offset + region.count - offset) left = n + want := by omega
  have hshort : data.length < n + want ↔ (data.drop n).length < want := by
    rw [List.length_drop]
    omega
  unfold expand
  rw [hhole, hhole']
  dsimp only
  rw [Nat.add_zero, Nat.add_zero, Nat.sub_zero, Nat.sub_zero, hwant, hwant',
    List.replicate_zero, List.nil_append, List.nil_append, List.take_add, List.append_assoc,
    List.drop_drop, Nat.sub_add_eq left, Nat.add_assoc offset n, if_congr hshort rfl rfl]

theorem expand_noData (hin : region.offset ≤ offset)
    (hlt : offset < region.offset + region.count) (hleft : 0 < left) :
    expand (region :: map) offset left [] = [] := by
  have hhole : min (region.offset - offset) left = 0 := by omega
  unfold expand
  rw [hhole]
  dsimp only
  rw [Nat.add_zero, Nat.sub_zero, List.take_nil, if_pos]
  · rfl
  · rw [List.length_nil]
    omega

theorem expand_next (data : List UInt8) (hend : region.offset + region.count ≤ offset) :
    expand (region :: map) offset left data = expand map offset left data := by
  have hhole : min (region.offset - offset) left = 0 := by omega
  have hwant : min (region.offset + region.count - (offset + 0)) (left - 0) = 0 := by omega
  rw [expand, hhole, hwant]
  rfl

theorem GapsFit.mono {offset' : Nat} (h : GapsFit offset map) (hle : offset ≤ offset') :
    GapsFit offset' map := by
  cases map with
  | nil => trivial
  | cons region map => exact ⟨by have := h.1; omega, h.2⟩

/-- What a stream over a member has yet to read, with the bytes of the archive ahead. -/
def ahead (strm : Istream (TarIstream ω)) (data : List UInt8) : List UInt8 :=
  fileContents strm.inner.sparse strm.inner.offset strm.inner.tar.apparentFileSize data

/-- What a stream over a member has yet to deliver, where its map reaches the size of the
member and has no gap too long for the loop. -/
structure Holds (tholds : Istream ω → List UInt8 → Prop) (strm : Istream (TarIstream ω))
    (rest : List UInt8) : Prop where
  archive : ∃ data, tholds strm.inner.tar.tarStream data ∧ rest = strm.unread ++ ahead strm data ∧
    (strm.eof = true → ahead strm data = [])
  reaches : strm.inner.sparse = [] ∨
    strm.inner.offset + strm.inner.tar.apparentFileSize ≤ mapEnd strm.inner.sparse
  gaps : GapsFit strm.inner.offset strm.inner.sparse

theorem fileContents_zero (map : List SparseRegion) (offset : Nat) (data : List UInt8) :
    fileContents map offset 0 data = [] := by
  unfold fileContents
  split
  · exact List.take_zero
  · exact expand_zero ..

/-- Bytes have been written to the buffer that were ahead. -/
theorem Holds.of_supply {strm' : Istream (TarIstream ω)} {bytes data' : List UInt8}
    (hrest : rest = strm.unread ++ ahead strm data) (hahead : ahead strm data =
      bytes ++ ahead strm' data') (hoff : strm.bufferOffset = 0)
    (hoff' : strm'.bufferOffset = 0) (hbuffer : strm'.buffer = strm.buffer ++ bytes)
    (heof : strm'.eof = false) (harchive : tholds strm'.inner.tar.tarStream data')
    (hreaches : strm'.inner.sparse = [] ∨
      strm'.inner.offset + strm'.inner.tar.apparentFileSize ≤ mapEnd strm'.inner.sparse)
    (hgaps : GapsFit strm'.inner.offset strm'.inner.sparse) : Holds tholds strm' rest := by
  refine ⟨⟨data', harchive, ?_, ?_⟩, hreaches, hgaps⟩
  · unfold Istream.unread at hrest ⊢
    rw [hrest, hahead, hoff, hoff', hbuffer, List.drop_zero, List.drop_zero, List.append_assoc]
  · intro htrue
    rw [heof] at htrue
    cases htrue

theorem zeroCount_eq {gap diff : Nat} (hgap : gap < 2 ^ 32) (hdiff : diff < 2 ^ 31) :
    zeroCount gap diff = min gap diff := by
  unfold zeroCount
  rw [Nat.mod_eq_of_lt hgap]
  split <;> omega

/-- Where a round of the loop goes on from, with more in the buffer. -/
structure Goes (tholds : Istream ω → List UInt8 → Prop) (strm strm' : Istream (TarIstream ω))
    (rest : List UInt8) : Prop where
  holds : Holds tholds strm' rest
  offset : strm'.bufferOffset = 0
  eof : strm'.eof = false
  sparse : strm'.inner.sparse = strm.inner.sparse
  grows : strm.buffer.length < strm'.buffer.length
  bounded : strm'.buffer.length ≤ bufferSize

theorem copyData_eq (loop : Call (Istream (TarIstream ω)) Unit) {diff : Nat}
    {bytes : List UInt8} {tarStream : Istream ω}
    (hread : Istream.read wrapped diff strm.inner.tar.tarStream = .ok bytes tarStream) :
    copyData wrapped loop diff strm =
      if bytes.length = 0 then .ok () { withArchive strm tarStream with eof := true }
      else loop (takeOff (supply (withArchive strm tarStream) bytes) bytes.length) := by
  change ((Istream.read wrapped diff strm.inner.tar.tarStream).mapState _).bind _ = _
  rw [hread]
  rfl

/-- What a round copies are the next bytes ahead, or nothing is ahead any more. -/
theorem copyData_holds (hw : Istream.Refills wrapped tholds)
    (loop : Call (Istream (TarIstream ω)) Unit) {diff : Nat} (h : Holds tholds strm rest)
    (hoff : strm.bufferOffset = 0) (heof : strm.eof = false) (hpos : 0 < diff)
    (hroom : diff ≤ bufferSize - strm.buffer.length)
    (hleft : diff ≤ strm.inner.tar.apparentFileSize)
    (hstep : ∀ data n, n ≤ diff → n ≤ data.length → ahead strm data = data.take n ++
      fileContents strm.inner.sparse (strm.inner.offset + n)
        (strm.inner.tar.apparentFileSize - n) (data.drop n))
    (hnone : ahead strm [] = []) :
    (∃ strm', copyData wrapped loop diff strm = .ok () strm' ∧ Holds tholds strm' rest ∧
      strm'.bufferOffset = 0 ∧ (strm'.buffer = [] → rest = [])) ∨
    ∃ strm', copyData wrapped loop diff strm = loop strm' ∧ Goes tholds strm strm' rest := by
  obtain ⟨data, harchive, hrest, _⟩ := h.archive
  obtain ⟨tarStream, hread, harchive'⟩ := hw.read diff harchive
  have hlimit : min diff Istream.readLimit = diff := by
    apply Nat.min_eq_left
    have hsize : bufferSize ≤ Istream.readLimit := by decide
    omega
  rw [hlimit] at hread harchive'
  rw [copyData_eq loop hread]
  by_cases hnil : (data.take diff).length = 0
  · left
    rw [if_pos hnil]
    have hempty : data = [] := by
      rw [List.length_take] at hnil
      apply List.length_eq_zero_iff.1
      omega
    subst hempty
    rw [List.drop_nil] at harchive'
    refine ⟨_, rfl, ⟨⟨[], harchive', hrest, fun _ => hnone⟩, h.reaches, h.gaps⟩, hoff, ?_⟩
    intro hbuffer
    change strm.buffer = [] at hbuffer
    rw [hrest, hnone, List.append_nil]
    unfold Istream.unread
    rw [hbuffer]
    exact List.drop_nil
  · right
    rw [if_neg hnil]
    have hlen := List.length_take_le diff data
    have hle : (data.take diff).length ≤ data.length := by
      rw [List.length_take]
      exact Nat.min_le_right ..
    have hahead := hstep data (data.take diff).length hlen hle
    have htaken : data.take (data.take diff).length = data.take diff := by
      rw [List.length_take, ← List.take_take, List.take_length]
    have hdropped : data.drop (data.take diff).length = data.drop diff := by
      rw [List.length_take]
      rcases Nat.le_total diff data.length with hshort | hlong
      · rw [Nat.min_eq_left hshort]
      · rw [Nat.min_eq_right hlong, List.drop_length, List.drop_eq_nil_of_le hlong]
    rw [htaken, hdropped] at hahead
    refine ⟨_, rfl, ?_, hoff, heof, rfl, ?_, ?_⟩
    · refine Holds.of_supply hrest hahead hoff hoff rfl heof harchive' ?_ ?_
      · rcases h.reaches with hplain | hreaches
        · exact Or.inl hplain
        · right
          change strm.inner.offset + (data.take diff).length +
            (strm.inner.tar.apparentFileSize - (data.take diff).length) ≤
              mapEnd strm.inner.sparse
          omega
      · exact h.gaps.mono (Nat.le_add_right ..)
    · change _ < (strm.buffer ++ data.take diff).length
      rw [List.length_append]
      omega
    · change (strm.buffer ++ data.take diff).length ≤ bufferSize
      rw [List.length_append]
      omega

section Rounds

-- the equations of the loop are derived here, once for all of the lemmas
attribute [local simp] precacheLoop

/-- The room a round of the loop has. -/
def room (strm : Istream (TarIstream ω)) : Nat :=
  min (bufferSize - strm.buffer.length) strm.inner.tar.apparentFileSize

variable (fuel : Nat) (hfull : strm.buffer.length < bufferSize)

include hfull

theorem precacheLoop_done (hroom : room strm = 0) :
    precacheLoop wrapped (fuel + 1) strm = .ok () { strm with eof := true } := by
  unfold room at hroom
  simp only [precacheLoop, if_pos hfull, if_pos hroom]

theorem precacheLoop_plain (hroom : room strm ≠ 0) (hsparse : strm.inner.sparse = []) :
    precacheLoop wrapped (fuel + 1) strm =
      copyData wrapped (precacheLoop wrapped fuel) (room strm) strm := by
  unfold room at hroom ⊢
  simp only [precacheLoop, if_pos hfull, if_neg hroom, hsparse]

theorem precacheLoop_gap (hroom : room strm ≠ 0) (hsparse : strm.inner.sparse = region :: map)
    (hgap : region.offset > strm.inner.offset) :
    precacheLoop wrapped (fuel + 1) strm = precacheLoop wrapped fuel (supply strm
      (List.replicate (zeroCount (region.offset - strm.inner.offset) (room strm)) 0)) := by
  unfold room at hroom ⊢
  simp only [precacheLoop, if_pos hfull, if_neg hroom, hsparse, if_pos hgap]

theorem precacheLoop_region (hroom : room strm ≠ 0)
    (hsparse : strm.inner.sparse = region :: map) (hin : region.offset ≤ strm.inner.offset)
    (hcount : region.count > strm.inner.offset - region.offset) :
    precacheLoop wrapped (fuel + 1) strm = copyData wrapped (precacheLoop wrapped fuel)
      (min (room strm) (region.count - (strm.inner.offset - region.offset))) strm := by
  unfold room at hroom ⊢
  simp only [precacheLoop, if_pos hfull, if_neg hroom, hsparse, if_neg (Nat.not_lt.2 hin),
    if_pos hcount]

theorem precacheLoop_next (hroom : room strm ≠ 0)
    (hsparse : strm.inner.sparse = region :: map) (hin : region.offset ≤ strm.inner.offset)
    (hcount : region.count ≤ strm.inner.offset - region.offset) :
    precacheLoop wrapped (fuel + 1) strm =
      precacheLoop wrapped fuel { strm with inner := { strm.inner with sparse := map } } := by
  unfold room at hroom
  simp only [precacheLoop, if_pos hfull, if_neg hroom, hsparse, if_neg (Nat.not_lt.2 hin),
    if_neg (Nat.not_lt.2 hcount)]

end Rounds

theorem unread_of_offset (hoff : strm.bufferOffset = 0) : strm.unread = strm.buffer := by
  unfold Istream.unread
  rw [hoff, List.drop_zero]

/-- A gap: the next bytes are zero. -/
theorem Holds.gap (h : Holds tholds strm rest) (hoff : strm.bufferOffset = 0)
    (heof : strm.eof = false) (hfull : strm.buffer.length < bufferSize)
    (hroom : room strm ≠ 0) (hsparse : strm.inner.sparse = region :: map)
    (hgap : region.offset > strm.inner.offset) :
    Goes tholds strm (supply strm
      (List.replicate (zeroCount (region.offset - strm.inner.offset) (room strm)) 0)) rest := by
  obtain ⟨data, harchive, hrest, _⟩ := h.archive
  have hgaps := h.gaps
  have hle : room strm ≤ bufferSize := Nat.le_trans (Nat.min_le_left ..) (Nat.sub_le ..)
  have hsize : bufferSize < 2 ^ 31 := by decide
  rw [hsparse] at hgaps
  rw [zeroCount_eq hgaps.1 (Nat.lt_of_le_of_lt hle hsize)]
  obtain ⟨n, hn⟩ : ∃ n, min (region.offset - strm.inner.offset) (room strm) = n := ⟨_, rfl⟩
  rw [hn]
  unfold room at hn hroom
  have hahead : ahead strm data = List.replicate n 0 ++
      ahead (supply strm (List.replicate n 0)) data := by
    unfold ahead supply fileContents
    dsimp only
    rw [hsparse, if_neg (List.cons_ne_nil _ _), if_neg (List.cons_ne_nil _ _),
      List.length_replicate]
    exact expand_gap data (by omega) (by omega)
  refine ⟨Holds.of_supply hrest hahead hoff hoff rfl heof harchive ?_ ?_, hoff, heof, rfl, ?_, ?_⟩
  · rcases h.reaches with hplain | hreaches
    · exact Or.inl hplain
    · right
      change strm.inner.offset + (List.replicate n (0 : UInt8)).length +
        (strm.inner.tar.apparentFileSize - (List.replicate n (0 : UInt8)).length) ≤
          mapEnd strm.inner.sparse
      rw [List.length_replicate]
      omega
  · exact h.gaps.mono (Nat.le_add_right ..)
  · change _ < (strm.buffer ++ List.replicate n 0).length
    rw [List.length_append, List.length_replicate]
    omega
  · change (strm.buffer ++ List.replicate n 0).length ≤ bufferSize
    rw [List.length_append, List.length_replicate]
    omega

/-- The region has been read: the map goes on, unless the member ends with it. -/
theorem Holds.next (h : Holds tholds strm rest) (hroom : room strm ≠ 0)
    (heof : strm.eof = false) (hsparse : strm.inner.sparse = region :: map)
    (hin : region.offset ≤ strm.inner.offset)
    (hcount : region.count ≤ strm.inner.offset - region.offset) :
    Holds tholds { strm with inner := { strm.inner with sparse := map } } rest := by
  obtain ⟨data, harchive, hrest, _⟩ := h.archive
  have hend : region.offset + region.count ≤ strm.inner.offset := by omega
  have hgaps := h.gaps
  have hreaches := h.reaches
  rw [hsparse] at hgaps hreaches
  have hleft : 0 < strm.inner.tar.apparentFileSize := by
    unfold room at hroom
    omega
  have hmore : strm.inner.offset + strm.inner.tar.apparentFileSize ≤ mapEnd map := by
    rcases hreaches with hnil | hreaches
    · cases hnil
    · cases map with
      | nil =>
          change _ ≤ region.offset + region.count at hreaches
          omega
      | cons region' map => exact hreaches
  have hne : map ≠ [] := by
    rintro rfl
    change _ ≤ 0 at hmore
    omega
  have hahead : ahead strm data =
      ahead { strm with inner := { strm.inner with sparse := map } } data := by
    unfold ahead fileContents
    dsimp only
    rw [hsparse, if_neg (List.cons_ne_nil _ _), if_neg hne]
    exact expand_next data hend
  refine ⟨⟨data, harchive, hahead ▸ hrest, ?_⟩, Or.inr hmore, hgaps.2.mono hend⟩
  intro htrue
  rw [heof] at htrue
  cases htrue

theorem ahead_plain (hsparse : strm.inner.sparse = []) (data : List UInt8) (n : Nat)
    (hn : n ≤ room strm) (_ : n ≤ data.length) :
    ahead strm data = data.take n ++ fileContents strm.inner.sparse (strm.inner.offset + n)
      (strm.inner.tar.apparentFileSize - n) (data.drop n) := by
  unfold room at hn
  unfold ahead fileContents
  rw [hsparse, if_pos rfl, if_pos rfl, ← List.take_add, Nat.add_sub_cancel' (by omega)]

theorem ahead_plain_nil (hsparse : strm.inner.sparse = []) : ahead strm [] = [] := by
  unfold ahead fileContents
  rw [hsparse, if_pos rfl, List.take_nil]

theorem ahead_region (hsparse : strm.inner.sparse = region :: map)
    (hin : region.offset ≤ strm.inner.offset) (data : List UInt8) (n : Nat)
    (hn : n ≤ min (room strm) (region.count - (strm.inner.offset - region.offset)))
    (hdata : n ≤ data.length) :
    ahead strm data = data.take n ++ fileContents strm.inner.sparse (strm.inner.offset + n)
      (strm.inner.tar.apparentFileSize - n) (data.drop n) := by
  unfold room at hn
  unfold ahead fileContents
  rw [hsparse, if_neg (List.cons_ne_nil _ _), if_neg (List.cons_ne_nil _ _)]
  exact expand_data hin (by omega) (by omega) hdata

theorem ahead_region_nil (hroom : 0 < room strm) (hsparse : strm.inner.sparse = region :: map)
    (hin : region.offset ≤ strm.inner.offset)
    (hcount : strm.inner.offset - region.offset < region.count) : ahead strm [] = [] := by
  unfold room at hroom
  unfold ahead fileContents
  rw [hsparse, if_neg (List.cons_ne_nil _ _)]
  exact expand_noData hin (by omega) (by omega)

/-- The loop fills the buffer, or reaches the end of the member. -/
theorem precacheLoop_holds (hw : Istream.Refills wrapped tholds) (fuel : Nat)
    (h : Holds tholds strm rest) (hoff : strm.bufferOffset = 0) (heof : strm.eof = false)
    (hle : strm.buffer.length ≤ bufferSize)
    (hfuel : bufferSize + strm.inner.sparse.length < fuel + strm.buffer.length) :
    ∃ strm', precacheLoop wrapped fuel strm = .ok () strm' ∧ Holds tholds strm' rest ∧
      strm'.bufferOffset = 0 ∧ (strm'.buffer = [] → rest = []) := by
  induction fuel generalizing strm with
  | zero => omega
  | succ fuel ih =>
      have hgoes : ∀ strm', Goes tholds strm strm' rest →
          ∃ strm'', precacheLoop wrapped fuel strm' = .ok () strm'' ∧ Holds tholds strm'' rest ∧
            strm''.bufferOffset = 0 ∧ (strm''.buffer = [] → rest = []) := by
        intro strm' hgoes
        apply ih hgoes.holds hgoes.offset hgoes.eof hgoes.bounded
        have hgrows := hgoes.grows
        rw [hgoes.sparse]
        omega
      by_cases hfull : strm.buffer.length < bufferSize
      · by_cases hroom : room strm = 0
        · rw [precacheLoop_done fuel hfull hroom]
          have hleft : strm.inner.tar.apparentFileSize = 0 := by
            unfold room at hroom
            omega
          have hnone : ∀ data, ahead strm data = [] := by
            intro data
            unfold ahead
            rw [hleft]
            exact fileContents_zero ..
          obtain ⟨data, harchive, hrest, _⟩ := h.archive
          refine ⟨_, rfl, ⟨⟨data, harchive, hrest, fun _ => hnone data⟩, h.reaches, h.gaps⟩,
            hoff, ?_⟩
          intro hbuffer
          change strm.buffer = [] at hbuffer
          rw [hrest, hnone, List.append_nil, unread_of_offset hoff, hbuffer]
        · have hpos := Nat.pos_of_ne_zero hroom
          cases hsparse : strm.inner.sparse with
          | nil =>
              rw [precacheLoop_plain fuel hfull hroom hsparse]
              have hcopy := copyData_holds hw (precacheLoop wrapped fuel) h hoff heof hpos
                (Nat.min_le_left ..) (Nat.min_le_right ..) (ahead_plain hsparse)
                (ahead_plain_nil hsparse)
              rcases hcopy with hdone | ⟨strm', hloop, hmore⟩
              · exact hdone
              · rw [hloop]
                exact hgoes strm' hmore
          | cons region old =>
              rcases Nat.lt_or_ge strm.inner.offset region.offset with hgap | hin
              · rw [precacheLoop_gap fuel hfull hroom hsparse hgap]
                exact hgoes _ (h.gap hoff heof hfull hroom hsparse hgap)
              · rcases Nat.lt_or_ge (strm.inner.offset - region.offset) region.count with
                  hcount | hcount
                · rw [precacheLoop_region fuel hfull hroom hsparse hin hcount]
                  have hcopy := copyData_holds hw (precacheLoop wrapped fuel) h hoff heof
                    (Nat.lt_min.2 ⟨hpos, Nat.sub_pos_of_lt hcount⟩)
                    (Nat.le_trans (Nat.min_le_left ..) (Nat.min_le_left ..))
                    (Nat.le_trans (Nat.min_le_left ..) (Nat.min_le_right ..))
                    (ahead_region hsparse hin) (ahead_region_nil hpos hsparse hin hcount)
                  rcases hcopy with hdone | ⟨strm', hloop, hmore⟩
                  · exact hdone
                  · rw [hloop]
                    exact hgoes strm' hmore
                · rw [precacheLoop_next fuel hfull hroom hsparse hin hcount]
                  apply ih (h.next hroom heof hsparse hin hcount) hoff heof hle
                  change bufferSize + old.length < fuel + strm.buffer.length
                  rw [hsparse, List.length_cons] at hfuel
                  omega
      · refine ⟨strm, ?_, h, hoff, ?_⟩
        · rw [precacheLoop]
          exact if_neg hfull
        · intro hbuffer
          rw [hbuffer] at hfull
          exact absurd (by decide) hfull

/-- The stream can be asked for more once its bytes are used up, or its end is known. -/
theorem precache_holds (hw : Istream.Refills wrapped tholds) (h : Holds tholds strm rest)
    (hready : strm.UsedUp) :
    ∃ strm', Istream.precache (precache wrapped) strm = .ok () strm' ∧
      Holds tholds strm' rest ∧ strm'.bufferOffset = 0 ∧ (strm'.buffer = [] → rest = []) := by
  rw [Istream.precache, Istream.compact_eq]
  have hcompact : Holds tholds { strm with buffer := strm.unread, bufferOffset := 0 } rest :=
    ⟨h.archive, h.reaches, h.gaps⟩
  cases heof : strm.eof with
  | true =>
      rw [if_pos rfl]
      refine ⟨_, rfl, heof ▸ hcompact, rfl, ?_⟩
      intro hbuffer
      change strm.unread = [] at hbuffer
      obtain ⟨data, _, hrest, hnone⟩ := h.archive
      rw [hrest, hbuffer, hnone heof]
      rfl
  | false =>
      have hnil : strm.unread = [] := by
        rcases hready with hnil | htrue
        · exact hnil
        · rw [heof] at htrue
          cases htrue
      rw [if_neg Bool.false_ne_true, hnil]
      rw [hnil, heof] at hcompact
      exact precacheLoop_holds hw _ hcompact rfl rfl (Nat.zero_le _) (Nat.lt_succ_self _)

/-- A stream over a member serves every operation that asks for more only when its bytes
are used up. -/
theorem serves (hw : Istream.Refills wrapped tholds) :
    Istream.Serves (precache wrapped) (Holds tholds) Istream.UsedUp where
  unread strm rest h := by
    obtain ⟨data, _, hrest, _⟩ := h.archive
    rw [hrest]
    exact List.prefix_append ..
  consume strm rest n h hn := by
    obtain ⟨data, harchive, hrest, hnone⟩ := h.archive
    refine ⟨⟨data, harchive, ?_, hnone⟩, h.reaches, h.gaps⟩
    rw [hrest, List.drop_append_of_le_length hn]
    change strm.unread.drop n ++ _ = strm.buffer.drop (strm.bufferOffset + n) ++ _
    unfold Istream.unread
    rw [List.drop_drop]
    rfl
  refill strm rest h hempty := precache_holds hw h (Or.inl hempty)
  precache strm rest h hready := precache_holds hw h hready

theorem create_holds {tar : FileSourceTar ω} (harchive : tholds tar.tarStream data)
    (hreaches : map = [] ∨ tar.apparentFileSize ≤ mapEnd map) (hgaps : GapsFit 0 map) :
    Holds tholds (create tar map) (fileContents map 0 tar.apparentFileSize data) := by
  refine ⟨⟨data, harchive, rfl, nofun⟩, ?_, hgaps⟩
  change map = [] ∨ 0 + tar.apparentFileSize ≤ mapEnd map
  rwa [Nat.zero_add]

end TarIstream

/-! ## Both kinds of stream -/

/-- Any operations in any order deliver the content of a file from its beginning on and
without a gap.  So they do for a member of an archive, if its map reaches the size of the
member, no gap is too long for the loop, and the stream is asked for more only when its
bytes are used up or its end is known. -/
theorem operations_deliver (ops : List Operation) (fuel : Nat) :
    (∀ (content : List UInt8) (answers : List ReadAnswer),
      ReadAnswer.error ∉ answers → content.length < fuel → ∃ replies strm' rest,
        Istream.operateAll FileIstream.precache fuel ops (FileIstream.openFd content answers) =
          some (replies, strm') ∧ Istream.Transcript content ops replies rest) ∧
    ∀ (ω : Type) (wrapped : Call (Istream ω) Unit) (tholds : Istream ω → List UInt8 → Prop)
      (tar : FileSourceTar ω) (map : List SparseRegion) (data : List UInt8),
      Istream.Refills wrapped tholds → tholds tar.tarStream data →
      (map = [] ∨ tar.apparentFileSize ≤ TarIstream.mapEnd map) → TarIstream.GapsFit 0 map →
      (TarIstream.fileContents map 0 tar.apparentFileSize data).length < fuel →
      Along (Istream.operate (TarIstream.precache wrapped) fuel)
        (Istream.AskedIn (TarIstream.precache wrapped) fuel Istream.UsedUp) ops
        (TarIstream.create tar map) →
      ∃ replies strm' rest,
        Istream.operateAll (TarIstream.precache wrapped) fuel ops (TarIstream.create tar map) =
          some (replies, strm') ∧
        Istream.Transcript (TarIstream.fileContents map 0 tar.apparentFileSize data) ops replies
          rest := by
  constructor
  · intro content answers hanswers hfuel
    obtain ⟨replies, strm', rest, hall, -, htranscript⟩ := FileIstream.carries.serves.operateAll ops
      (FileIstream.openFd_holds hanswers) hfuel (Istream.along_true ops _)
    exact ⟨replies, strm', rest, hall, htranscript⟩
  · intro ω wrapped tholds tar map data hw harchive hreaches hgaps hfuel hasked
    obtain ⟨replies, strm', rest, hall, -, htranscript⟩ := (TarIstream.serves hw).operateAll ops
      (TarIstream.create_holds harchive hreaches hgaps) hfuel hasked
    exact ⟨replies, strm', rest, hall, htranscript⟩

/-- Two lines of a file, and of a member with a gap between its two regions. -/
theorem operations_deliver_lines :
    (∃ replies strm' rest, Istream.operateAll FileIstream.precache 4
      [.precache, .getLine ⟨true, true, true⟩ 0, .read 2] (FileIstream.openFd [65, 10, 66] []) =
        some (replies, strm') ∧ Istream.Transcript [65, 10, 66]
          [.precache, .getLine ⟨true, true, true⟩ 0, .read 2] replies rest) ∧
    ∃ replies strm' rest, Istream.operateAll (TarIstream.precache FileIstream.precache) 8
      [.read 1, .skip 2, .getLine ⟨true, true, true⟩ 0]
      (TarIstream.create ⟨FileIstream.openFd [65, 66] [], 4, 512⟩ [⟨0, 1⟩, ⟨3, 1⟩]) =
        some (replies, strm') ∧
      Istream.Transcript (TarIstream.fileContents [⟨0, 1⟩, ⟨3, 1⟩] 0 4 [65, 66])
        [.read 1, .skip 2, .getLine ⟨true, true, true⟩ 0] replies rest :=
  ⟨(operations_deliver [.precache, .getLine ⟨true, true, true⟩ 0, .read 2] 4).1 [65, 10, 66] []
      List.not_mem_nil (by decide),
    (operations_deliver [.read 1, .skip 2, .getLine ⟨true, true, true⟩ 0] 8).2 FileIstream
      FileIstream.precache FileIstream.Holds ⟨FileIstream.openFd [65, 66] [], 4, 512⟩
      [⟨0, 1⟩, ⟨3, 1⟩] [65, 66] FileIstream.carries.refills
      (FileIstream.openFd_holds List.not_mem_nil) (Or.inr (by decide))
      ⟨by decide, by decide, trivial⟩ (by decide)
      (by decide +kernel)⟩

/-- A member of 1024 bytes fills the buffer without its end being known: asked for more after
one byte, the stream drops the other 1023. -/
theorem precache_drops :
    (Istream.operateAll (TarIstream.precache FileIstream.precache) 1025
      [.read 1, .precache, .read 1]
      (TarIstream.create ⟨FileIstream.openFd (List.replicate 1024 65) [], 1024, 1024⟩ [])).map
        Prod.fst = some [.data [65], .done, .data []] ∧
      ∀ rest, ¬ Istream.Transcript
        (TarIstream.fileContents [] 0 1024 (List.replicate 1024 65))
        [.read 1, .precache, .read 1] [.data [65], .done, .data []] rest := by
  constructor
  · decide +kernel
  · intro rest h
    obtain ⟨content, hcontent⟩ :
      ∃ content, TarIstream.fileContents [] 0 1024 (List.replicate 1024 65) = content := ⟨_, rfl⟩
    have hlen : content.length = 1024 := by
      rw [← hcontent]
      decide +kernel
    rw [hcontent] at h
    cases h with
    | cons hread hmore =>
        cases hread with
        | read _ =>
            cases hmore with
            | cons hprecache hmore =>
                cases hprecache with
                | precache =>
                    cases hmore with
                    | cons hread _ =>
                        cases hread with
                        | read hend =>
                            rcases hend with hfull | ⟨_, rfl⟩
                            · exact absurd hfull (by decide)
                            · exact absurd hlen (by decide)

end ImageTool.Imgtool
