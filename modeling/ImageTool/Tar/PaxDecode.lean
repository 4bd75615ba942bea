import ImageTool.Tar.PaxFields
import ImageTool.Fstream.FileIstream

/-!
# Decoding PAX headers

A header of well formed records sets each field to the last value there is for it, and its
sparse list to the entries behind the last map.
-/

namespace ImageTool.Tar

open ImageTool.Lib ImageTool.Fstream ImageTool.Imgtool

/-! ## What a header says -/

/-- The value of the last pair with one of the keys. -/
def lastValue (keys : List (List UInt8)) (pairs : List PaxPair) : Option (List UInt8) :=
  ((pairs.filter fun pair => pair.key ∈ keys).getLast?).map PaxPair.value

/-- The entries of the numbers of bytes, each at the offset in front of it. -/
def regions : Nat → List PaxPair → List SparseRegion
  | _, [] => []
  | offset, pair :: pairs =>
      if pair.key = keyOffset then regions (number pair.value) pairs
      else if pair.key = keyNumbytes then ⟨offset, number pair.value⟩ :: regions offset pairs
      else regions offset pairs

/-- The offset behind some pairs. -/
def offsetAfter (offset : Nat) (pairs : List PaxPair) : Nat :=
  ((lastValue [keyOffset] pairs).map number).getD offset

/-- A list, unless there are entries to take its place. -/
def replaced (before entries : List SparseRegion) : List SparseRegion :=
  if entries = [] then before else entries

/-- A header that has been decoded, with the flags, from what they were before. -/
structure Decodes (pairs : List PaxPair) (before after : DecodedHeader)
    (setBefore setAfter : Nat) : Prop where
  uid : after.uid = ((lastValue [ascii "uid"] pairs).map number).getD before.uid
  gid : after.gid = ((lastValue [ascii "gid"] pairs).map number).getD before.gid
  recordSize : after.recordSize = ((lastValue [ascii "size"] pairs).map number).getD
    before.recordSize
  actualSize : after.actualSize =
    ((lastValue [ascii "GNU.sparse.size", ascii "GNU.sparse.realsize"] pairs).map number).getD
      before.actualSize
  mtime : after.mtime = ((lastValue [ascii "mtime"] pairs).map signedNumber).getD before.mtime
  name : after.name = (lastValue [ascii "path", ascii "GNU.sparse.name"] pairs).or before.name
  linkTarget : after.linkTarget = (lastValue [ascii "linkpath"] pairs).or before.linkTarget
  xattr : after.xattr = (pairs.filterMap xattrOf).reverse ++ before.xattr
  flags : ∀ i, setAfter.testBit i = (setBefore.testBit i ||
    pairs.any fun pair => (presence pair.key).testBit i)
  sparse : (∀ pair ∈ pairs, pair.key ≠ keyMap) →
    after.sparse = replaced before.sparse (regions 0 pairs)
  map : ∀ front value back map, pairs = front ++ ⟨keyMap, value⟩ :: back → IsSparseMap value map →
    (∀ pair ∈ back, pair.key ≠ keyMap) →
      after.sparse = replaced map (regions (offsetAfter 0 front) back)

/-! ## All pairs, one after the other -/

/-- The state after some pairs. -/
def appliedAll (s : PaxState) (pairs : List PaxPair) : PaxState := pairs.foldl applied s

section Pairs

variable {s : PaxState} {pairs : List PaxPair}

theorem lastValue_cons (keys : List (List UInt8)) (pair : PaxPair) (pairs : List PaxPair) :
    lastValue keys (pair :: pairs) =
      (lastValue keys pairs).or (if pair.key ∈ keys then some pair.value else none) := by
  unfold lastValue
  rw [List.filter_cons]
  by_cases hkey : pair.key ∈ keys
  · rw [if_pos (by simpa using hkey), if_pos hkey, List.getLast?_cons]
    cases (pairs.filter fun pair => pair.key ∈ keys).getLast? <;> rfl
  · rw [if_neg (by simpa using hkey), if_neg hkey, Option.or_none]

theorem getD_lastValue_cons {α : Type} (keys : List (List UInt8)) (f : List UInt8 → α)
    (pair : PaxPair) (pairs : List PaxPair) (a : α) :
    ((lastValue keys (pair :: pairs)).map f).getD a =
      ((lastValue keys pairs).map f).getD (setBy keys f pair a) := by
  rw [lastValue_cons, setBy]
  cases lastValue keys pairs with
  | some value => rfl
  | none => split <;> rfl

/-- A field that each pair sets by its key has the last value in the end. -/
theorem appliedAll_setBy {α : Type} {field : PaxState → α} {keys : List (List UInt8)}
    {f : List UInt8 → α} (h : ∀ s pair, field (applied s pair) = setBy keys f pair (field s))
    (s : PaxState) (pairs : List PaxPair) :
    field (appliedAll s pairs) = ((lastValue keys pairs).map f).getD (field s) := by
  unfold appliedAll
  induction pairs generalizing s with
  | nil => rfl
  | cons pair pairs ih => rw [List.foldl_cons, ih, h, getD_lastValue_cons]

theorem appliedAll_offset (s : PaxState) (pairs : List PaxPair) :
    (appliedAll s pairs).offset = offsetAfter s.offset pairs :=
  appliedAll_setBy (fun _ _ => rfl) s pairs

theorem getD_map_some (value before : Option (List UInt8)) :
    (value.map some).getD before = value.or before := by
  cases value <;> rfl

/-- Attributes are collected in front of each other. -/
theorem appliedAll_xattr (s : PaxState) (pairs : List PaxPair) :
    (appliedAll s pairs).out.xattr = (pairs.filterMap xattrOf).reverse ++ s.out.xattr := by
  unfold appliedAll
  induction pairs generalizing s with
  | nil => rfl
  | cons pair pairs ih =>
      rw [List.foldl_cons, ih, List.filterMap_cons]
      change _ ++ ((xattrOf pair).toList ++ s.out.xattr) = _
      cases xattrOf pair with
      | none => rfl
      | some x =>
          change _ ++ ([x] ++ s.out.xattr) = (x :: pairs.filterMap xattrOf).reverse ++ s.out.xattr
          rw [List.reverse_cons, List.append_assoc]

theorem appliedAll_flags (s : PaxState) (pairs : List PaxPair) (i : Nat) :
    (appliedAll s pairs).setByPax.testBit i =
      (s.setByPax.testBit i || pairs.any fun pair => (presence pair.key).testBit i) := by
  unfold appliedAll
  induction pairs generalizing s with
  | nil => exact (Bool.or_false _).symm
  | cons pair pairs ih =>
      rw [List.foldl_cons, ih, List.any_cons]
      change ((s.setByPax ||| presence pair.key).testBit i || _) = _
      rw [Nat.testBit_or, Bool.or_assoc]

/-- The entries go behind the last one, or take the place of the list. -/
theorem appliedAll_sparse (hpairs : ∀ pair ∈ pairs, pair.key ≠ keyMap) :
    (appliedAll s pairs).out.sparse =
      if s.sparseLast then s.out.sparse ++ regions s.offset pairs
      else replaced s.out.sparse (regions s.offset pairs) := by
  unfold appliedAll
  induction pairs generalizing s with
  | nil =>
      rw [regions, List.append_nil, replaced, if_pos rfl, ite_self]
      rfl
  | cons pair pairs ih =>
      have hmap := hpairs pair List.mem_cons_self
      have hnext := @ih (applied s pair) fun later hlater =>
        hpairs later (List.mem_cons_of_mem _ hlater)
      rw [List.foldl_cons, hnext, regions]
      have hsparse : (applied s pair).out.sparse = if pair.key = keyNumbytes then
          (if s.sparseLast then s.out.sparse else []) ++ [⟨s.offset, number pair.value⟩]
          else s.out.sparse := if_neg hmap
      have hlast : (applied s pair).sparseLast =
          if pair.key = keyNumbytes then true else s.sparseLast := if_neg hmap
      have hoffset : (applied s pair).offset =
          if pair.key = keyOffset then number pair.value else s.offset :=
        if_congr List.mem_singleton rfl rfl
      rw [hsparse, hlast, hoffset]
      by_cases hkey : pair.key = keyOffset
      · have hbytes : pair.key ≠ keyNumbytes := by
          rw [hkey]
          decide
        rw [if_neg hbytes, if_neg hbytes, if_pos hkey, if_pos hkey]
      · rw [if_neg hkey, if_neg hkey]
        by_cases hbytes : pair.key = keyNumbytes
        · rw [if_pos hbytes, if_pos hbytes, if_pos hbytes, if_pos rfl, List.append_assoc,
            List.singleton_append, replaced, if_neg (List.cons_ne_nil _ _)]
          split <;> rfl
        · rw [if_neg hbytes, if_neg hbytes, if_neg hbytes]

/-- A map is a new list, with no last entry of its own. -/
theorem appliedAll_map {front back : List PaxPair} {value : List UInt8} {map : List SparseRegion}
    (hvalue : IsSparseMap value map) (hback : ∀ pair ∈ back, pair.key ≠ keyMap) :
    (appliedAll s (front ++ ⟨keyMap, value⟩ :: back)).out.sparse =
      replaced map (regions (offsetAfter s.offset front) back) := by
  have hsplit : appliedAll s (front ++ ⟨keyMap, value⟩ :: back) =
      appliedAll (applied (appliedAll s front) ⟨keyMap, value⟩) back := by
    rw [appliedAll, List.foldl_append, List.foldl_cons]
    rfl
  have hsparse : (applied (appliedAll s front) ⟨keyMap, value⟩).out.sparse = map := by
    change (readSparseMap value).getD [] = map
    rw [readSparseMap_of_isSparseMap hvalue]
    rfl
  have hoffset : (applied (appliedAll s front) ⟨keyMap, value⟩).offset =
      offsetAfter s.offset front := appliedAll_offset s front
  rw [hsplit, appliedAll_sparse hback, if_neg (by exact Bool.false_ne_true), hsparse, hoffset]

end Pairs

theorem decodes_appliedAll (out : DecodedHeader) (setByPax : Nat) (pairs : List PaxPair) :
    Decodes pairs out (appliedAll (paxStart out setByPax) pairs).out setByPax
      (appliedAll (paxStart out setByPax) pairs).setByPax where
  uid := @appliedAll_setBy _ (fun s => s.out.uid) _ _ (fun _ _ => rfl) _ _
  gid := @appliedAll_setBy _ (fun s => s.out.gid) _ _ (fun _ _ => rfl) _ _
  recordSize := @appliedAll_setBy _ (fun s => s.out.recordSize) _ _ (fun _ _ => rfl) _ _
  actualSize := @appliedAll_setBy _ (fun s => s.out.actualSize) _ _ (fun _ _ => rfl) _ _
  mtime := @appliedAll_setBy _ (fun s => s.out.mtime) _ _ (fun _ _ => rfl) _ _
  name := by
    rw [← getD_map_some]
    exact @appliedAll_setBy _ (fun s => s.out.name) _ _ (fun _ _ => rfl) _ _
  linkTarget := by
    rw [← getD_map_some]
    exact @appliedAll_setBy _ (fun s => s.out.linkTarget) _ _ (fun _ _ => rfl) _ _
  xattr := appliedAll_xattr _ _
  flags := appliedAll_flags _ _
  sparse := fun hpairs => appliedAll_sparse hpairs
  map := by
    rintro front value back map rfl hvalue hback
    exact appliedAll_map hvalue hback

/-! ## The loop and the stream -/

theorem handleRecords_applied {records : List PaxRecord} (s : PaxState)
    (h : ∀ record ∈ records, record.Fits) :
    handleRecords s records = some (appliedAll s (records.map PaxRecord.toPaxPair)) := by
  induction records generalizing s with
  | nil => rfl
  | cons record records ih =>
      have hfirst := handleRecord_applied (s := s) (h record List.mem_cons_self)
      rw [handleRecords, List.foldlM_cons, hfirst]
      exact ih _ fun later hlater => h later (List.mem_cons_of_mem _ hlater)

theorem exists_paxRecords (pairs : List PaxPair) :
    ∃ records : List PaxRecord, records.map PaxRecord.toPaxPair = pairs := by
  induction pairs with
  | nil => exact ⟨[], rfl⟩
  | cons pair pairs ih =>
      obtain ⟨records, hrecords⟩ := ih
      obtain ⟨record, hrecord⟩ := exists_paxRecord pair
      exact ⟨record :: records, by rw [List.map_cons, hrecords, hrecord]⟩

/-- The bytes behind a record up to the next block. -/
def paddingSize (size : Nat) : Nat := if size % 512 ≠ 0 then 512 - size % 512 else 0

section Stream

variable {ι : Type} {callback : Call (Istream ι) Unit} {holds : Istream ι → List UInt8 → Prop}
variable {strm : Istream ι} {rest : List UInt8}

theorem skipPadding_eq (h : Istream.Refills callback holds) (size : Nat) (hold : holds strm rest) :
    ∃ strm', holds strm' (rest.drop (paddingSize size)) ∧ skipPadding callback size strm =
      if paddingSize size ≤ rest.length then .ok () strm' else .fail strm' := by
  unfold skipPadding paddingSize
  split
  · exact h.skip _ hold
  · exact ⟨strm, hold, (if_pos (Nat.zero_le _)).symm⟩

/-- A record is read with its padding. -/
theorem recordToMemory_ok (h : Istream.Refills callback holds) {size : Nat}
    (hold : holds strm rest) (hlimit : size ≤ Istream.readLimit)
    (hrest : size + paddingSize size ≤ rest.length) :
    ∃ strm', recordToMemory callback size strm = .ok (rest.take size ++ [0]) strm' ∧
      holds strm' (rest.drop (size + paddingSize size)) := by
  obtain ⟨strm₁, hread, hold₁⟩ := h.read size hold
  obtain ⟨strm₂, hold₂, hskip⟩ := skipPadding_eq h size hold₁
  rw [Nat.min_eq_left hlimit] at hread hold₁ hold₂ hskip
  rw [if_pos (by rw [List.length_drop]; omega)] at hskip
  rw [List.drop_drop] at hold₂
  refine ⟨strm₂, ?_, hold₂⟩
  unfold recordToMemory
  rw [Call.bind_apply, hread, Outcome.bind_ok, if_neg (by rw [List.length_take]; omega),
    Call.bind_apply, hskip]
  rfl

/-- What is read into memory has the size that is asked for. -/
theorem recordToMemory_ends (h : Istream.Refills callback holds) (size : Nat)
    (hold : holds strm rest) :
    Call.Ends (recordToMemory callback size strm)
      (fun buffer _ => ∃ data, data.length = size ∧ buffer = data ++ [0]) fun _ => True := by
  obtain ⟨strm₁, hread, hold₁⟩ := h.read size hold
  obtain ⟨strm₂, -, hskip⟩ := skipPadding_eq h size hold₁
  have hle : (rest.take (min size Istream.readLimit)).length ≤ size := by
    rw [List.length_take]
    omega
  unfold recordToMemory
  rw [Call.bind_apply, hread, Outcome.bind_ok]
  by_cases hshort : (rest.take (min size Istream.readLimit)).length < size
  · rw [if_pos hshort]
    trivial
  · rw [if_neg hshort, Call.bind_apply, hskip]
    split
    · exact ⟨_, by omega, rfl⟩
    · trivial

/-- The header is read to its end, whatever it holds. -/
theorem readPaxHeader_ne_stuck (h : Istream.Refills callback holds) (entsize : Nat)
    (hold : holds strm rest) (out : DecodedHeader) (setByPax : Nat) :
    readPaxHeader callback entsize ⟨strm, out, setByPax⟩ ≠ .stuck := by
  have hends := recordToMemory_ends h entsize hold
  unfold readPaxHeader
  rw [Call.bind_apply, Call.zoom_apply]
  cases hread : recordToMemory callback entsize strm with
  | stuck =>
      rw [hread] at hends
      exact hends.elim
  | fail strm' => exact nofun
  | ok buffer strm' =>
      rw [hread] at hends
      obtain ⟨data, rfl, rfl⟩ := hends
      have hloop := @paxLoop_ends data.length 0 ⟨data ++ [0], paxStart out setByPax⟩
        (data.length + 1) (terminated_append data) (by omega)
      rw [Outcome.mapState_ok, Outcome.bind_ok, Call.bind_apply, Call.get_apply, Outcome.bind_ok]
      cases hres : paxLoop (data.length + 1) 0 ⟨data ++ [0], paxStart out setByPax⟩ with
      | stuck => exact absurd hres hloop.ne_stuck
      | ok u r => exact nofun
      | fail r => exact nofun

/-- A header of records that fit is decoded, and the stream goes on behind its padding. -/
theorem readPaxHeader_ok (h : Istream.Refills callback holds) {records : List PaxRecord}
    (hkeys : ∀ record ∈ records, PlainKey record.key) (hfits : ∀ record ∈ records, record.Fits)
    (hlimit : (paxBytes records).length ≤ Istream.readLimit) {padding : List UInt8}
    (hpadding : padding.length = paddingSize (paxBytes records).length)
    (hold : holds strm (paxBytes records ++ (padding ++ rest))) (out : DecodedHeader)
    (setByPax : Nat) :
    ∃ s', readPaxHeader callback (paxBytes records).length ⟨strm, out, setByPax⟩ = .ok () s' ∧
      holds s'.fp rest ∧
      Decodes (records.map PaxRecord.toPaxPair) out s'.out setByPax s'.setByPax := by
  obtain ⟨strm', hread, hold'⟩ := recordToMemory_ok h hold hlimit (by
    simp only [List.length_append]
    omega)
  have hrest : (paxBytes records ++ (padding ++ rest)).drop
      ((paxBytes records).length + paddingSize (paxBytes records).length) = rest := by
    rw [← hpadding, ← List.append_assoc, List.drop_left' List.length_append]
  rw [hrest] at hold'
  rw [List.take_left' rfl] at hread
  have hlong : Istream.readLimit < 2 ^ 63 := by decide
  obtain ⟨buffer, hloop⟩ := @paxLoop_records records ((paxBytes records).length + 1) []
    (paxStart out setByPax) _ hkeys (by omega) (Nat.lt_succ_self _)
    (handleRecords_applied _ hfits)
  refine ⟨⟨strm', (appliedAll (paxStart out setByPax) (records.map PaxRecord.toPaxPair)).out,
    (appliedAll (paxStart out setByPax) (records.map PaxRecord.toPaxPair)).setByPax⟩, ?_, hold',
    decodes_appliedAll out setByPax _⟩
  unfold readPaxHeader
  rw [Call.bind_apply, Call.zoom_apply, hread, Outcome.mapState_ok, Outcome.bind_ok,
    Call.bind_apply, Call.get_apply, Outcome.bind_ok]
  rw [List.length_nil, List.nil_append] at hloop
  rw [hloop]
  rfl

/-- Every list of pairs has records.  Those of plain keys with values that fit are decoded, each
field to the last value for it, and no other header makes the reader leave its buffer or go on
without an end. -/
theorem readPaxHeader_decodes (h : Istream.Refills callback holds) :
    (∀ pairs : List PaxPair, ∃ records : List PaxRecord,
        records.map PaxRecord.toPaxPair = pairs) ∧
      (∀ (records : List PaxRecord) (strm : Istream ι) (padding rest : List UInt8)
          (out : DecodedHeader) (setByPax : Nat),
        (∀ record ∈ records, PlainKey record.key) → (∀ record ∈ records, record.Fits) →
        (paxBytes records).length ≤ Istream.readLimit →
        padding.length = paddingSize (paxBytes records).length →
        holds strm (paxBytes records ++ (padding ++ rest)) →
        ∃ s', readPaxHeader callback (paxBytes records).length ⟨strm, out, setByPax⟩ = .ok () s' ∧
          holds s'.fp rest ∧
          Decodes (records.map PaxRecord.toPaxPair) out s'.out setByPax s'.setByPax) ∧
      (∀ (strm : Istream ι) (rest : List UInt8) (entsize : Nat) (out : DecodedHeader)
          (setByPax : Nat),
        holds strm rest → readPaxHeader callback entsize ⟨strm, out, setByPax⟩ ≠ .stuck) ∧
      ∀ (bytes : List UInt8) (out : DecodedHeader) (setByPax : Nat),
        paxLoop (bytes.length + 1) 0 ⟨bytes ++ [0], paxStart out setByPax⟩ ≠ .stuck := by
  refine ⟨exists_paxRecords, ?_, ?_, ?_⟩
  · intro records strm padding rest out setByPax hkeys hfits hlimit hpadding hold
    exact readPaxHeader_ok h hkeys hfits hlimit hpadding hold out setByPax
  · intro strm rest entsize out setByPax hold
    exact readPaxHeader_ne_stuck h entsize hold out setByPax
  · intro bytes out setByPax
    exact (@paxLoop_ends bytes.length 0 ⟨bytes ++ [0], paxStart out setByPax⟩ (bytes.length + 1)
      (terminated_append bytes) (Nat.lt_succ_self _)).ne_stuck

end Stream

/-- The records of a sparse file with an attribute; the second user ID takes the place of the
first one. -/
def sparseRecords : List PaxRecord :=
  [⟨⟨ascii "uid", ascii "42"⟩, 9, by decide⟩, ⟨⟨ascii "path", ascii "a/b"⟩, 12, by decide⟩,
    ⟨⟨keyOffset, ascii "0"⟩, 23, by decide⟩, ⟨⟨keyNumbytes, ascii "4"⟩, 25, by decide⟩,
    ⟨⟨keyOffset, ascii "512"⟩, 25, by decide⟩,
    ⟨⟨ascii "SCHILY.xattr.user.x", [0, 255]⟩, 26, by decide⟩,
    ⟨⟨keyNumbytes, ascii "8"⟩, 25, by decide⟩, ⟨⟨ascii "uid", ascii "1000"⟩, 12, by decide⟩]

theorem sparseRecords_fit : ∀ record ∈ sparseRecords, record.Fits := by
  have hnumbers : ∀ record ∈ sparseRecords,
      (xattrOf record.toPaxPair = none → 0 ∉ record.value) ∧ number record.value < 2 ^ 32 ∧
        record.key ≠ ascii "mtime" ∧ record.key ≠ keyMap := by decide
  intro record hrecord
  obtain ⟨hnul, hnumber, hmtime, hmap⟩ := hnumbers record hrecord
  exact PaxPair.fits_of_number hnul hnumber hmtime hmap

theorem paxBytes_sparseRecords_length : (paxBytes sparseRecords).length = 157 := by decide +kernel

theorem readPaxHeader_sparse :
    ∃ s', readPaxHeader FileIstream.precache (paxBytes sparseRecords).length
        ⟨FileIstream.openFd (paxBytes sparseRecords ++ (List.replicate 355 0 ++ [7])) [],
          DecodedHeader.blank, 0⟩ = .ok () s' ∧
      FileIstream.Holds s'.fp [7] ∧
      Decodes (sparseRecords.map PaxRecord.toPaxPair) DecodedHeader.blank s'.out 0 s'.setByPax ∧
      s'.out.uid = 1000 ∧ s'.out.sparse = [⟨0, 4⟩, ⟨512, 8⟩] ∧
      s'.out.xattr = [⟨ascii "user.x", [0, 255]⟩] := by
  obtain ⟨s', hread, hrest, hdecodes⟩ :=
    (readPaxHeader_decodes FileIstream.carries.refills).2.1 sparseRecords _ (List.replicate 355 0)
      [7] DecodedHeader.blank 0 (by decide) sparseRecords_fit
      (paxBytes_sparseRecords_length.trans_le (by decide))
      (by rw [List.length_replicate, paxBytes_sparseRecords_length]; rfl)
      (FileIstream.openFd_holds List.not_mem_nil)
  exact ⟨s', hread, hrest, hdecodes, hdecodes.uid, hdecodes.sparse (by decide), hdecodes.xattr⟩

/-- A key with a blank in front of it. -/
def blankRecord : PaxRecord := ⟨⟨ascii " uid", ascii "5"⟩, 9, by decide⟩

/-- An attribute in base 64. -/
def base64Record : PaxRecord := ⟨⟨ascii "LIBARCHIVE.xattr.a", ascii "QQ=="⟩, 27, by decide⟩

theorem blankRecord_fits : blankRecord.Fits :=
  PaxPair.fits_of_number (by decide) (by decide) (by decide) (by decide)

theorem base64Record_fits : base64Record.Fits :=
  PaxPair.fits_of_number (by decide) (by decide) (by decide) (by decide)

/-- A blank in front of a key is not part of it, and not every attribute is kept as it is. -/
theorem not_decodes_every_pair :
    (¬ ∀ records : List PaxRecord, (∀ record ∈ records, record.Fits) → ∃ buffer s',
      paxLoop ((paxBytes records).length + 1) 0 ⟨paxBytes records ++ [0], paxStart .blank 0⟩ =
        .ok () ⟨buffer, s'⟩ ∧
      Decodes (records.map PaxRecord.toPaxPair) .blank s'.out 0 s'.setByPax) ∧
    ¬ ∀ records : List PaxRecord, (∀ record ∈ records, PlainKey record.key) →
      (∀ record ∈ records, record.Fits) → ∃ buffer s',
      paxLoop ((paxBytes records).length + 1) 0 ⟨paxBytes records ++ [0], paxStart .blank 0⟩ =
        .ok () ⟨buffer, s'⟩ ∧
      s'.out.xattr.map Xattr.value =
        ((records.filter fun record => (xattrOf record.toPaxPair).isSome).map
          fun record => record.value).reverse := by
  constructor
  · intro h
    obtain ⟨buffer, s', hloop, hdecodes⟩ := h [blankRecord] fun record hrecord => by
      rw [List.mem_singleton.1 hrecord]
      exact blankRecord_fits
    have huid : (paxLoop ((paxBytes [blankRecord]).length + 1) 0
        ⟨paxBytes [blankRecord] ++ [0], paxStart .blank 0⟩).state?.map (·.state.out.uid) =
          some 5 := rfl
    rw [hloop] at huid
    have hfive : s'.out.uid = 5 := Option.some.inj huid
    have hkept := hdecodes.uid
    rw [hfive] at hkept
    exact absurd hkept (by decide)
  · intro h
    have hkeys : ∀ record ∈ [base64Record], PlainKey record.key := by decide
    have hfits : ∀ record ∈ [base64Record], record.Fits := by
      intro record hrecord
      rw [List.mem_singleton.1 hrecord]
      exact base64Record_fits
    obtain ⟨buffer, s', hloop, hvalues⟩ := h [base64Record] hkeys hfits
    obtain ⟨buffer', hrun⟩ := @paxLoop_records [base64Record] ((paxBytes [base64Record]).length + 1)
      [] (paxStart .blank 0) _ hkeys (by decide) (Nat.lt_succ_self _)
      (handleRecords_applied _ hfits)
    rw [List.length_nil, List.nil_append, hloop] at hrun
    injection hrun with _ hstate
    injection hstate with _ hstate
    rw [hstate, appliedAll_xattr] at hvalues
    have hdecoded : base64Decode (ascii "QQ==") = [65] := by
      rw [base64Decode]
      decide
    change [base64Decode (ascii "QQ==")] = [ascii "QQ=="] at hvalues
    rw [hdecoded] at hvalues
    exact absurd hvalues (by decide)

end ImageTool.Tar
