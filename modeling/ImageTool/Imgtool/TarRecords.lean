import ImageTool.Imgtool.MemberLedger
import ImageTool.Imgtool.TarSource
import ImageTool.Tar.HeaderAgreement
import ImageTool.Tar.HeaderEnds

/-!
# The records of an archive

Two sources that count the same way to the next header, from different places of one archive, hand
out the same record and go on from there alike.
-/

namespace ImageTool.Imgtool

open ImageTool.Lib ImageTool.Fstream ImageTool.Tar

namespace TarSource

variable {ω : Type} {wrapped : Call (Istream ω) Unit} {tholds : Istream ω → List UInt8 → Prop}

/-! ## One record -/

theorem agree_nextHeader (hw : Istream.Refills wrapped tholds) (fuel : Nat) :
    Call.Agree (SameContent tholds) (nextHeader wrapped fuel) (nextHeader wrapped fuel) := by
  induction fuel with
  | zero => exact .stuck
  | succ fuel ih =>
      refine (agree_readHeader hw (fuel + 1)).bind fun found => ?_
      cases found with
      | none => exact .pure none
      | some hdr =>
          refine .ite ((agree_skipEntry hw hdr.recordSize).bind fun _ => ih) ?_
          cases recordType hdr with
          | none => exact ih
          | some type => exact .pure _

/-- What the search for a header leaves: with a header, less is ahead than before. -/
def SearchLeaves (tholds : Istream ω → List UInt8 → Prop) (n : Nat)
    (found : Option (FileSourceType × TarHeaderDecoded)) (strm : Istream ω) : Prop :=
  Ahead tholds n strm ∧ ∀ entry, found = some entry →
    SizeFits entry.2.toDecodedHeader ∧ 0 < n ∧ Ahead tholds (n - 1) strm

theorem SearchLeaves.mono {m n : Nat} {found : Option (FileSourceType × TarHeaderDecoded)}
    {strm : Istream ω} (h : SearchLeaves tholds m found strm) (hle : m ≤ n) :
    SearchLeaves tholds n found strm := by
  refine ⟨h.1.mono hle, fun entry hentry => ?_⟩
  obtain ⟨hsize, hpos, hahead⟩ := h.2 entry hentry
  exact ⟨hsize, by omega, hahead.mono (by omega)⟩

theorem nextHeader_ends (hw : Istream.Refills wrapped tholds) {fuel n : Nat} {strm : Istream ω}
    (hahead : Ahead tholds n strm) (hfuel : n < fuel) :
    Call.Ends (nextHeader wrapped fuel strm) (SearchLeaves tholds n) (Ahead tholds n) := by
  induction fuel generalizing n strm with
  | zero => omega
  | succ fuel ih =>
      refine (readHeader_ends hw hahead hfuel).bind (fun found strm₁ hleaves => ?_)
        fun _ hend => hend
      cases found with
      | none => exact ⟨hleaves.1, nofun⟩
      | some hdr =>
          obtain ⟨hfits, hpos, hless⟩ := hleaves.2 hdr rfl
          have hagain : ∀ strm', Ahead tholds (n - 1) strm' →
              Call.Ends (nextHeader wrapped fuel strm') (SearchLeaves tholds n)
                (Ahead tholds n) := fun strm' hless' =>
            (ih hless' (by omega)).mono (fun _ _ hend => hend.mono (Nat.sub_le ..))
              fun _ hend => hend.mono (Nat.sub_le ..)
          dsimp only
          split
          · exact ((safe_skip hw _).ends hless).bind (fun _ strm' hs => hagain strm' hs)
              fun _ hend => hend.mono (Nat.sub_le ..)
          · cases recordType hdr with
            | none => exact hagain strm₁ hless
            | some type =>
                refine ⟨hleaves.1, fun entry hentry => ?_⟩
                cases hentry
                exact ⟨hfits, hpos, hless⟩

/-- Two sources from which the same record comes next: neither is locked, and for both the next
header is at the same place of an archive, one counting from here and one from there. -/
def Alike (tholds : Istream ω → List UInt8 → Prop) (s s' : TarSource ω) : Prop :=
  s.lockedByFile = false ∧ s'.lockedByFile = false ∧ ∃ (archive : List UInt8) (k k' : Nat),
    k ≤ archive.length ∧ k' ≤ archive.length ∧ tholds s.tarStream (archive.drop k) ∧
      tholds s'.tarStream (archive.drop k') ∧ s.fileBytesLeft + k = s'.fileBytesLeft + k'

/-- The archives of two sources have the same content ahead. -/
def SameArchive (tholds : Istream ω → List UInt8 → Prop) (s s' : TarSource ω) : Prop :=
  SameContent tholds s.tarStream s'.tarStream

/-- What is left of the record is skipped, where the archive has so much. -/
theorem skipLeft_eq (hw : Istream.Refills wrapped tholds) {s : TarSource ω}
    {archive : List UInt8} {k : Nat} (hk : k ≤ archive.length)
    (hstream : tholds s.tarStream (archive.drop k)) :
    ∃ strm left, tholds strm (archive.drop (s.fileBytesLeft + k)) ∧ skipLeft wrapped s =
      if s.fileBytesLeft + k ≤ archive.length then
        .ok () { s with tarStream := strm, fileBytesLeft := left }
      else .fail { s with tarStream := strm, fileBytesLeft := left } := by
  unfold skipLeft
  by_cases hleft : s.fileBytesLeft > 0
  · obtain ⟨strm, hstrm, hskip⟩ := hw.skip s.fileBytesLeft hstream
    rw [List.drop_drop, Nat.add_comm k] at hstrm
    rw [List.length_drop] at hskip
    rw [if_pos hleft, onArchive, Call.zoom_apply, hskip]
    by_cases hroom : s.fileBytesLeft ≤ archive.length - k
    · refine ⟨strm, 0, hstrm, ?_⟩
      rw [if_pos hroom, if_pos (by omega)]
      rfl
    · refine ⟨strm, s.fileBytesLeft, hstrm, ?_⟩
      rw [if_neg hroom, if_neg (by omega)]
      rfl
  · have hzero : s.fileBytesLeft = 0 := by omega
    refine ⟨s.tarStream, s.fileBytesLeft, ?_, ?_⟩
    · rwa [hzero, Nat.zero_add]
    · rw [if_neg hleft, if_pos (by omega)]

/-- From like sources the same header is found. -/
theorem Alike.findNext (hw : Istream.Refills wrapped tholds) (fuel : Nat) {s s' : TarSource ω}
    (h : Alike tholds s s') :
    (findNext wrapped fuel s).Agree (SameArchive tholds) (findNext wrapped fuel s') := by
  obtain ⟨-, -, archive, k, k', hk, hk', hstream, hstream', hplace⟩ := h
  obtain ⟨strm, left, hstrm, hskip⟩ := skipLeft_eq hw hk hstream
  obtain ⟨strm', left', hstrm', hskip'⟩ := skipLeft_eq hw hk' hstream'
  rw [← hplace] at hstrm' hskip'
  have hskipped : (skipLeft wrapped s).Agree (SameArchive tholds) (skipLeft wrapped s') := by
    rw [hskip, hskip']
    split
    · exact ⟨rfl, _, hstrm, hstrm'⟩
    · exact ⟨_, hstrm, hstrm'⟩
  refine hskipped.bind fun _ t t' htt => ?_
  exact (agree_nextHeader hw fuel).zoom (fun _ _ hst => hst) (fun _ _ _ _ _ hpq => hpq) t t' htt

/-- Two sources have just handed out the same record. -/
structure SameRecord (tholds : Istream ω → List UInt8 → Prop) (s s' : TarSource ω) : Prop where
  archive : SameArchive tholds s s'
  apparentFileSize : s.apparentFileSize = s'.apparentFileSize
  fileBytesLeft : s.fileBytesLeft = s'.fileBytesLeft
  lockedByFile : s.lockedByFile = s'.lockedByFile

/-- Without a stream both go on from behind the header. -/
theorem SameRecord.alike {s s' : TarSource ω} (h : SameRecord tholds s s')
    (hlocked : s.lockedByFile = false) : Alike tholds s s' := by
  obtain ⟨rest, hstream, hstream'⟩ := h.archive
  have hlocked' : s'.lockedByFile = false := h.lockedByFile ▸ hlocked
  refine ⟨hlocked, hlocked', rest, 0, 0, Nat.zero_le _, Nat.zero_le _, hstream, hstream', ?_⟩
  rw [h.fileBytesLeft]

/-- A stream that counts what it takes leaves the place of the next header as it was. -/
theorem SameRecord.dropped {s s' : TarSource ω} {strm : Istream (TarIstream ω)}
    (h : SameRecord tholds s s') (map : List SparseRegion)
    (hcounted : ∀ archive, tholds s.tarStream archive →
      TarIstream.Counted tholds s.toFileSourceTar archive strm) :
    Alike tholds (dropped strm) (dropped (TarIstream.create s'.toFileSourceTar map)) := by
  obtain ⟨rest, hstream, hstream'⟩ := h.archive
  obtain ⟨k, hk, hleft, hcount⟩ := hcounted rest hstream
  refine ⟨rfl, rfl, rest, k, 0, hk, Nat.zero_le _, hleft, hstream', ?_⟩
  exact hcount.trans h.fileBytesLeft

section Next

variable {fuel : Nat} {s s' t : TarSource ω} {record : FileSourceRecord}
variable {map : Option (List SparseRegion)}

theorem getNextRecord_eq (hlocked : s.lockedByFile = false) (streamOut : Bool) :
    getNextRecord wrapped fuel streamOut s =
      (findNext wrapped fuel s).bind (handOut streamOut) := by
  unfold getNextRecord
  rw [Call.bind_apply, Call.get_apply, Outcome.bind_ok, hlocked]
  rfl

theorem Alike.ok_some (hw : Istream.Refills wrapped tholds) (h : Alike tholds s s')
    (hnext : getNextRecord wrapped fuel true s = .ok (some (record, map)) t) :
    ∃ t', getNextRecord wrapped fuel true s' = .ok (some (record, map)) t' ∧
      SameRecord tholds t t' := by
  have hagree := h.findNext hw fuel
  rw [getNextRecord_eq h.1] at hnext
  rw [getNextRecord_eq h.2.1]
  obtain ⟨found, u, hfound, hout⟩ := Outcome.of_bind_eq_ok hnext
  rw [hfound] at hagree
  obtain ⟨u', hfound', harchive⟩ := hagree.ok_left
  rw [hfound', Outcome.bind_ok]
  cases found with
  | none => cases hout
  | some entry =>
      cases hout
      exact ⟨_, rfl, harchive, rfl, rfl, rfl⟩

theorem Alike.ok_none (hw : Istream.Refills wrapped tholds) (h : Alike tholds s s')
    (hnext : getNextRecord wrapped fuel true s = .ok none t) :
    ∃ t', getNextRecord wrapped fuel true s' = .ok none t' := by
  have hagree := h.findNext hw fuel
  rw [getNextRecord_eq h.1] at hnext
  rw [getNextRecord_eq h.2.1]
  obtain ⟨found, u, hfound, hout⟩ := Outcome.of_bind_eq_ok hnext
  rw [hfound] at hagree
  obtain ⟨u', hfound', -⟩ := hagree.ok_left
  rw [hfound', Outcome.bind_ok]
  cases found with
  | none => exact ⟨u', rfl⟩
  | some entry => cases hout

theorem Alike.fail (hw : Istream.Refills wrapped tholds) (h : Alike tholds s s')
    (hnext : getNextRecord wrapped fuel true s = .fail t) :
    ∃ t', getNextRecord wrapped fuel true s' = .fail t' := by
  have hagree := h.findNext hw fuel
  rw [getNextRecord_eq h.1] at hnext
  rw [getNextRecord_eq h.2.1]
  cases hfound : TarSource.findNext wrapped fuel s with
  | stuck =>
      rw [hfound] at hnext
      cases hnext
  | ok found u =>
      rw [hfound] at hnext
      cases found with
      | none => cases hnext
      | some entry => cases hnext
  | fail u =>
      rw [hfound] at hagree
      obtain ⟨u', hfound', -⟩ := hagree.fail_left
      rw [hfound']
      exact ⟨u', rfl⟩

end Next

theorem paddedSize_lt {recordSize : Nat} (h : recordSize < 2 ^ 64) :
    paddedSize recordSize < 2 ^ 64 := by
  unfold paddedSize
  split
  · exact u64_lt _
  · exact h

/-- With a record, less of the archive is ahead than before. -/
def RecordLeaves (tholds : Istream ω → List UInt8 → Prop) (n : Nat)
    (item : Option (FileSourceRecord × Option (List SparseRegion))) (t : TarSource ω) : Prop :=
  ∀ record map, item = some (record, map) → t.fileBytesLeft < 2 ^ 64 ∧
    t.lockedByFile = map.isSome ∧ 0 < n ∧ Ahead tholds (n - 1) t.tarStream

theorem skipLeft_ends (hw : Istream.Refills wrapped tholds) {n : Nat} {s : TarSource ω}
    (hahead : Ahead tholds n s.tarStream) :
    Call.Ends (skipLeft wrapped s) (fun _ t => Ahead tholds n t.tarStream) fun _ => True := by
  unfold skipLeft
  split
  · have hskip := (safe_skip hw s.fileBytesLeft).ends hahead
    rw [onArchive, Call.zoom_apply]
    cases hres : Istream.skip wrapped s.fileBytesLeft s.tarStream with
    | ok a strm =>
        rw [hres] at hskip
        exact hskip
    | fail strm => trivial
    | stuck =>
        rw [hres] at hskip
        exact hskip.elim
  · exact hahead

theorem getNextRecord_ends (hw : Istream.Refills wrapped tholds) {fuel n : Nat} {s : TarSource ω}
    (hlocked : s.lockedByFile = false) (hahead : Ahead tholds n s.tarStream) (hfuel : n < fuel) :
    Call.Ends (getNextRecord wrapped fuel true s) (RecordLeaves tholds n) fun _ => True := by
  rw [getNextRecord_eq hlocked]
  unfold findNext
  rw [Call.bind_apply]
  have hfind : Call.Ends ((skipLeft wrapped s).bind fun _ => onArchive (nextHeader wrapped fuel))
      (fun found t => SearchLeaves tholds n found t.tarStream) fun _ => True := by
    refine (skipLeft_ends hw hahead).bind (fun _ t ht => ?_) fun _ _ => trivial
    have hends := nextHeader_ends hw ht hfuel
    rw [onArchive, Call.zoom_apply]
    cases hres : nextHeader wrapped fuel t.tarStream with
    | ok found strm =>
        rw [hres] at hends
        exact hends
    | fail strm => trivial
    | stuck =>
        rw [hres] at hends
        exact hends.elim
  refine hfind.bind (fun found t hleaves => ?_) fun _ _ => trivial
  cases found with
  | none => exact nofun
  | some entry =>
      obtain ⟨type, hdr⟩ := entry
      obtain ⟨hfits, hpos, hless⟩ := hleaves.2 _ rfl
      intro record map hitem
      cases hitem
      refine ⟨paddedSize_lt hfits, ?_, hpos, hless⟩
      dsimp only
      split <;> simp_all

/-- What a record that is handed out leaves. -/
theorem getNextRecord_leaves (hw : Istream.Refills wrapped tholds) {fuel n : Nat}
    {s t : TarSource ω} {record : FileSourceRecord} {map : Option (List SparseRegion)}
    (hlocked : s.lockedByFile = false) (hahead : Ahead tholds n s.tarStream) (hfuel : n < fuel)
    (hnext : getNextRecord wrapped fuel true s = .ok (some (record, map)) t) :
    t.fileBytesLeft < 2 ^ 64 ∧ t.lockedByFile = map.isSome ∧ 0 < n ∧
      Ahead tholds (n - 1) t.tarStream := by
  have hends := getNextRecord_ends hw hlocked hahead hfuel
  rw [hnext] at hends
  exact hends record map rfl

end TarSource

end ImageTool.Imgtool
