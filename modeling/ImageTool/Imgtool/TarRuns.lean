import ImageTool.Imgtool.TarRecords

/-!
# What is read of the streams

A consumer draws one record after another and reads as much as it likes of the streams that come
with them.  The source then goes on from a place in the archive that depends on what has been
read, and still hands out the same records, as long as `file_bytes_left` tells it how far the next
header is.
-/

namespace ImageTool.Imgtool

open ImageTool.Lib ImageTool.Fstream ImageTool.Tar

namespace TarSource

variable {ω : Type} {wrapped : Call (Istream ω) Unit} {tholds : Istream ω → List UInt8 → Prop}

/-! ## Runs -/

/-- A run of a consumer up to the end of the archive or a failure: the records it draws and the
last result.  `uses` says how it may leave a stream. -/
inductive Yields (wrapped : Call (Istream ω) Unit) (fuel : Nat)
    (uses : Istream (TarIstream ω) → Istream (TarIstream ω) → Prop) :
    TarSource ω → List FileSourceRecord → Int → Prop
  | failed {s s' : TarSource ω} : getNextRecord wrapped fuel true s = .fail s' →
      Yields wrapped fuel uses s [] (-1)
  | finished {s s' : TarSource ω} : getNextRecord wrapped fuel true s = .ok none s' →
      Yields wrapped fuel uses s [] 1
  | other {s s' : TarSource ω} {record records code} :
      getNextRecord wrapped fuel true s = .ok (some (record, none)) s' →
      Yields wrapped fuel uses s' records code →
      Yields wrapped fuel uses s (record :: records) code
  | file {s s' : TarSource ω} {record map strm records code} :
      getNextRecord wrapped fuel true s = .ok (some (record, some map)) s' →
      uses (TarIstream.create s'.toFileSourceTar map) strm →
      Yields wrapped fuel uses (dropped strm) records code →
      Yields wrapped fuel uses s (record :: records) code

/-- In a run of a consumer a stream over a record with the map is created. -/
inductive Hands (wrapped : Call (Istream ω) Unit) (fuel : Nat)
    (uses : Istream (TarIstream ω) → Istream (TarIstream ω) → Prop) :
    TarSource ω → FileSourceTar ω → List SparseRegion → Prop
  | here {s s' : TarSource ω} {record map} :
      getNextRecord wrapped fuel true s = .ok (some (record, some map)) s' →
      Hands wrapped fuel uses s s'.toFileSourceTar map
  | other {s s' : TarSource ω} {record tar map} :
      getNextRecord wrapped fuel true s = .ok (some (record, none)) s' →
      Hands wrapped fuel uses s' tar map → Hands wrapped fuel uses s tar map
  | file {s s' : TarSource ω} {record map strm tar map'} :
      getNextRecord wrapped fuel true s = .ok (some (record, some map)) s' →
      uses (TarIstream.create s'.toFileSourceTar map) strm →
      Hands wrapped fuel uses (dropped strm) tar map' → Hands wrapped fuel uses s tar map'

section Runs

variable {fuel n : Nat} {s s' : TarSource ω} {records records' : List FileSourceRecord}
variable {code code' : Int} {tar : FileSourceTar ω} {map : List SparseRegion}
variable {uses : Istream (TarIstream ω) → Istream (TarIstream ω) → Prop}

/-- Of the archive a stream leaves a part. -/
theorem Called.ahead (hw : Istream.Refills wrapped tholds) {strm : Istream (TarIstream ω)}
    (hahead : Ahead tholds n tar.tarStream)
    (h : TarIstream.Called wrapped (TarIstream.create tar map) strm) :
    Ahead tholds n strm.inner.tar.tarStream := by
  obtain ⟨archive, hstream, hle⟩ := hahead
  have hstart : tholds (TarIstream.create tar map).inner.tar.tarStream archive := hstream
  obtain ⟨archive', bytes, hleft, hruns⟩ := h.runs hw hstart
  obtain ⟨k, -, hrest⟩ := hruns.archive
  have hrest' : archive' = archive.drop k := hrest
  refine ⟨archive', hleft, ?_⟩
  rw [hrest', List.length_drop]
  omega

/-- Every consumer comes to the end of the archive or to a failure. -/
theorem exists_yields (hw : Istream.Refills wrapped tholds)
    (hcalled : ∀ strm strm', uses strm strm' → TarIstream.Called wrapped strm strm')
    (huses : ∀ tar map, ∃ strm, uses (TarIstream.create tar map) strm)
    (hlocked : s.lockedByFile = false) (hahead : Ahead tholds n s.tarStream) (hfuel : n < fuel) :
    ∃ records code, Yields wrapped fuel uses s records code := by
  induction n using Nat.strongRecOn generalizing s with
  | ind n ih =>
      cases hnext : getNextRecord wrapped fuel true s with
      | stuck =>
          have hends := getNextRecord_ends hw hlocked hahead hfuel
          rw [hnext] at hends
          exact hends.elim
      | fail t => exact ⟨[], -1, .failed hnext⟩
      | ok item t =>
          rcases item with _ | ⟨record, map⟩
          · exact ⟨[], 1, .finished hnext⟩
          · obtain ⟨-, hstate, hpos, hless⟩ := getNextRecord_leaves hw hlocked hahead hfuel hnext
            cases map with
            | none =>
                obtain ⟨records, code, hyields⟩ := ih (n - 1) (by omega) hstate hless (by omega)
                exact ⟨record :: records, code, .other hnext hyields⟩
            | some map =>
                obtain ⟨strm, hstrm⟩ := huses t.toFileSourceTar map
                have hleft := Called.ahead hw hless (hcalled _ _ hstrm)
                have hopen : (dropped strm).lockedByFile = false := rfl
                obtain ⟨records, code, hyields⟩ := ih (n - 1) (by omega) hopen hleft (by omega)
                exact ⟨record :: records, code, .file hnext hstrm hyields⟩

/-- A consumer that drops every stream unread has no choice. -/
theorem Yields.unique (h : Yields wrapped fuel Eq s records code)
    (h' : Yields wrapped fuel Eq s records' code') : records' = records ∧ code' = code := by
  induction h generalizing records' code' with
  | failed hnext => cases h' <;> simp_all
  | finished hnext => cases h' <;> simp_all
  | other hnext _ ih =>
      cases h' with
      | other hnext' hrest =>
          rw [hnext] at hnext'
          cases hnext'
          obtain ⟨rfl, rfl⟩ := ih hrest
          exact ⟨rfl, rfl⟩
      | _ => simp_all
  | file hnext hdrop _ ih =>
      cases h' with
      | file hnext' hdrop' hrest =>
          rw [hnext] at hnext'
          cases hnext'
          subst hdrop hdrop'
          obtain ⟨rfl, rfl⟩ := ih hrest
          exact ⟨rfl, rfl⟩
      | _ => simp_all

end Runs

/-- A stream over a record can be read to its end, and takes no more than the record for that,
where `count` bytes of the archive are ahead. -/
structure Fits (map : List SparseRegion) (tar : FileSourceTar ω) (count : Nat) : Prop where
  reached : ¬ Member.Blocked map 0 tar.apparentFileSize count
  within : min (demand map 0 tar.apparentFileSize) count ≤ tar.fileBytesLeft

/-- All streams do that which are created when each is dropped unread. -/
def AllFit (wrapped : Call (Istream ω) Unit) (tholds : Istream ω → List UInt8 → Prop) (fuel : Nat)
    (s : TarSource ω) : Prop :=
  ∀ tar map archive, Hands wrapped fuel Eq s tar map → tholds tar.tarStream archive →
    Fits map tar archive.length

/-- What is read of the streams cannot be seen: the records and the last result are those of the
run that drops every stream unread, every call on a stream returns, and `file_bytes_left` is what
has not been taken of the record. -/
structure Unseen (wrapped : Call (Istream ω) Unit) (tholds : Istream ω → List UInt8 → Prop)
    (fuel : Nat) (s : TarSource ω) : Prop where
  same : ∃ records code, Yields wrapped fuel Eq s records code ∧ ∀ records' code',
    Yields wrapped fuel (TarIstream.Called wrapped) s records' code' →
      records' = records ∧ code' = code
  returns : ∀ tar map strm, Hands wrapped fuel (TarIstream.Called wrapped) s tar map →
    TarIstream.Called wrapped (TarIstream.create tar map) strm → strm.eof = false →
      TarIstream.precache wrapped strm ≠ .stuck
  counted : ∀ tar map archive strm, Hands wrapped fuel (TarIstream.Called wrapped) s tar map →
    tholds tar.tarStream archive → TarIstream.Called wrapped (TarIstream.create tar map) strm →
      TarIstream.Counted tholds tar archive strm

section Fitting

variable {fuel n : Nat} {s s' t : TarSource ω} {records : List FileSourceRecord} {code : Int}
variable {record : FileSourceRecord} {tar : FileSourceTar ω} {map : List SparseRegion}
variable {archive : List UInt8} {strm : Istream (TarIstream ω)}

theorem AllFit.here (h : AllFit wrapped tholds fuel s)
    (hnext : getNextRecord wrapped fuel true s = .ok (some (record, some map)) t) :
    ∀ archive, tholds t.tarStream archive → Fits map t.toFileSourceTar archive.length :=
  fun archive hstream => h t.toFileSourceTar map archive (.here hnext) hstream

theorem AllFit.other (h : AllFit wrapped tholds fuel s)
    (hnext : getNextRecord wrapped fuel true s = .ok (some (record, none)) t) :
    AllFit wrapped tholds fuel t :=
  fun tar map archive hhands hstream => h tar map archive (.other hnext hhands) hstream

theorem AllFit.file (h : AllFit wrapped tholds fuel s)
    (hnext : getNextRecord wrapped fuel true s = .ok (some (record, some map)) t) :
    AllFit wrapped tholds fuel (dropped (TarIstream.create t.toFileSourceTar map)) :=
  fun tar map' archive hhands hstream => h tar map' archive (.file hnext rfl hhands) hstream

/-- Whether a stream fits is seen on either of two sources with the same record. -/
theorem SameRecord.fits (hw : Istream.Refills wrapped tholds) (h : SameRecord tholds t s')
    (hfits : ∀ archive, tholds s'.tarStream archive → Fits map s'.toFileSourceTar archive.length) :
    ∀ archive, tholds t.tarStream archive → Fits map t.toFileSourceTar archive.length := by
  intro archive hstream
  obtain ⟨rest, hrest, hrest'⟩ := h.archive
  obtain rfl := hw.unique hstream hrest
  obtain ⟨hreached, hwithin⟩ := hfits archive hrest'
  rw [← h.apparentFileSize] at hreached hwithin
  rw [← h.fileBytesLeft] at hwithin
  exact ⟨hreached, hwithin⟩

/-- A stream that fits counts what it takes. -/
theorem Fits.counted (hw : Istream.Refills wrapped tholds) (hlt : tar.fileBytesLeft < 2 ^ 64)
    (hstream : tholds tar.tarStream archive) (h : Fits map tar archive.length)
    (hcalled : TarIstream.Called wrapped (TarIstream.create tar map) strm) :
    TarIstream.Counted tholds tar archive strm :=
  (TarIstream.counted_iff hw hstream hlt h.reached).2 h.within strm hcalled

/-- What comes next from a source that was read, beside the one where nothing was. -/
theorem Alike.next (hw : Istream.Refills wrapped tholds) {map : Option (List SparseRegion)}
    (h : Alike tholds s s') (hahead : Ahead tholds n s'.tarStream) (hfuel : n < fuel)
    (hnext : getNextRecord wrapped fuel true s = .ok (some (record, map)) t) :
    ∃ t', getNextRecord wrapped fuel true s' = .ok (some (record, map)) t' ∧
      SameRecord tholds t t' ∧ t.fileBytesLeft < 2 ^ 64 ∧ t.lockedByFile = map.isSome ∧
      ∃ m < fuel, Ahead tholds m t'.tarStream := by
  obtain ⟨t', hnext', hsame⟩ := h.ok_some hw hnext
  obtain ⟨hlt, hlocked, -, hless⟩ := getNextRecord_leaves hw h.2.1 hahead hfuel hnext'
  refine ⟨t', hnext', hsame, ?_, hsame.lockedByFile.trans hlocked, n - 1, by omega, hless⟩
  rw [hsame.fileBytesLeft]
  exact hlt

/-- A consumer that reads draws the records of the one that does not. -/
theorem Alike.yields (hw : Istream.Refills wrapped tholds)
    (h : Yields wrapped fuel (TarIstream.Called wrapped) s records code)
    (halike : Alike tholds s s') (hahead : Ahead tholds n s'.tarStream) (hfuel : n < fuel)
    (hfit : AllFit wrapped tholds fuel s') : Yields wrapped fuel Eq s' records code := by
  induction h generalizing s' n with
  | failed hnext =>
      obtain ⟨t', hnext'⟩ := halike.fail hw hnext
      exact .failed hnext'
  | finished hnext =>
      obtain ⟨t', hnext'⟩ := halike.ok_none hw hnext
      exact .finished hnext'
  | other hnext _ ih =>
      obtain ⟨t', hnext', hsame, -, hlocked, m, hm, hless⟩ := halike.next hw hahead hfuel hnext
      exact .other hnext' (ih (hsame.alike hlocked) hless hm (hfit.other hnext'))
  | @file _ _ _ map _ _ _ hnext hcalled _ ih =>
      obtain ⟨t', hnext', hsame, hlt, -, m, hm, hless⟩ := halike.next hw hahead hfuel hnext
      have hfits := hsame.fits hw (hfit.here hnext')
      have halike' := hsame.dropped map fun archive hstream =>
        (hfits archive hstream).counted hw hlt hstream hcalled
      exact .file hnext' rfl (ih halike' hless hm (hfit.file hnext'))

/-- All streams that are created fit. -/
theorem Alike.hands (hw : Istream.Refills wrapped tholds)
    (h : Hands wrapped fuel (TarIstream.Called wrapped) s tar map)
    (halike : Alike tholds s s') (hahead : Ahead tholds n s'.tarStream) (hfuel : n < fuel)
    (hfit : AllFit wrapped tholds fuel s') : tar.fileBytesLeft < 2 ^ 64 ∧
      ∃ archive, tholds tar.tarStream archive ∧ Fits map tar archive.length := by
  induction h generalizing s' n with
  | here hnext =>
      obtain ⟨t', hnext', hsame, hlt, -⟩ := halike.next hw hahead hfuel hnext
      obtain ⟨rest, hrest, -⟩ := hsame.archive
      exact ⟨hlt, rest, hrest, hsame.fits hw (hfit.here hnext') rest hrest⟩
  | other hnext _ ih =>
      obtain ⟨t', hnext', hsame, -, hlocked, m, hm, hless⟩ := halike.next hw hahead hfuel hnext
      exact ih (hsame.alike hlocked) hless hm (hfit.other hnext')
  | @file _ _ _ map _ _ _ hnext hcalled _ ih =>
      obtain ⟨t', hnext', hsame, hlt, -, m, hm, hless⟩ := halike.next hw hahead hfuel hnext
      have hfits := hsame.fits hw (hfit.here hnext')
      have halike' := hsame.dropped map fun archive hstream =>
        (hfits archive hstream).counted hw hlt hstream hcalled
      exact ih halike' hless hm (hfit.file hnext')

/-- Dropping every stream unread is one way to read them. -/
theorem Hands.called (h : Hands wrapped fuel Eq s tar map) :
    Hands wrapped fuel (TarIstream.Called wrapped) s tar map := by
  induction h with
  | here hnext => exact .here hnext
  | other hnext _ ih => exact .other hnext ih
  | file hnext hdrop _ ih =>
      subst hdrop
      exact .file hnext .refl ih

theorem Hands.lt (hw : Istream.Refills wrapped tholds) (h : Hands wrapped fuel Eq s tar map)
    (hlocked : s.lockedByFile = false) (hahead : Ahead tholds n s.tarStream) (hfuel : n < fuel) :
    tar.fileBytesLeft < 2 ^ 64 := by
  induction h generalizing n with
  | here hnext => exact (getNextRecord_leaves hw hlocked hahead hfuel hnext).1
  | other hnext _ ih =>
      obtain ⟨-, hstate, -, hless⟩ := getNextRecord_leaves hw hlocked hahead hfuel hnext
      exact ih hstate hless (by omega)
  | file hnext hdrop _ ih =>
      subst hdrop
      obtain ⟨-, -, -, hless⟩ := getNextRecord_leaves hw hlocked hahead hfuel hnext
      exact ih rfl hless (by omega)

end Fitting

theorem Alike.refl {archive : List UInt8} {strm : Istream ω} (hstream : tholds strm archive) :
    Alike tholds (create strm) (create strm) :=
  ⟨rfl, rfl, archive, 0, 0, Nat.zero_le _, Nat.zero_le _, hstream, hstream, rfl⟩

/-- Where nothing is seen of what is read, every stream fits. -/
theorem Unseen.allFit (hw : Istream.Refills wrapped tholds) {fuel : Nat} {strm : Istream ω}
    {archive : List UInt8} (hstream : tholds strm archive) (hfuel : archive.length < fuel)
    (h : Unseen wrapped tholds fuel (create strm)) :
    AllFit wrapped tholds fuel (create strm) := by
  intro tar map rest hhands hrest
  have hahead : Ahead tholds archive.length (create strm).tarStream :=
    ⟨archive, hstream, Nat.le_refl _⟩
  have hreached : ¬ Member.Blocked map 0 tar.apparentFileSize rest.length := by
    intro hblocked
    obtain ⟨u, hcalled, heof, hstuck⟩ :=
      TarIstream.exists_stuck hw (t := TarIstream.create tar map) hrest .refl rfl hblocked
    exact h.returns tar map u hhands.called hcalled heof hstuck
  constructor
  · exact hreached
  · apply (TarIstream.counted_iff hw hrest (hhands.lt hw rfl hahead hfuel) hreached).1
    intro u hcalled
    exact h.counted tar map rest u hhands.called hrest hcalled

/-- What is read of the streams of an archive cannot be seen in its records if and only if, when
each is dropped unread, every stream could be read to its end with no more than its record. -/
theorem unseen_iff (hw : Istream.Refills wrapped tholds) {fuel : Nat} {strm : Istream ω}
    {archive : List UInt8} (hstream : tholds strm archive) (hfuel : archive.length < fuel) :
    Unseen wrapped tholds fuel (create strm) ↔ AllFit wrapped tholds fuel (create strm) := by
  have hahead : Ahead tholds archive.length (create strm).tarStream :=
    ⟨archive, hstream, Nat.le_refl _⟩
  constructor
  · exact Unseen.allFit hw hstream hfuel
  · intro hfit
    have halike : Alike tholds (create strm) (create strm) := .refl hstream
    constructor
    · have hdropped : ∃ records code, Yields wrapped fuel Eq (create strm) records code :=
        exists_yields hw (fun strm strm' hdrop => hdrop ▸ .refl) (fun tar map => ⟨_, rfl⟩) rfl
          hahead hfuel
      obtain ⟨records, code, hyields⟩ := hdropped
      refine ⟨records, code, hyields, fun records' code' h => ?_⟩
      exact hyields.unique (halike.yields hw h hahead hfuel hfit)
    · intro tar map u hhands hcalled heof
      obtain ⟨-, rest, hrest, hfits⟩ := halike.hands hw hhands hahead hfuel hfit
      exact hcalled.returns hw hrest hfits.reached heof
    · intro tar map rest u hhands hrest hcalled
      obtain ⟨hlt, rest', hrest', hfits⟩ := halike.hands hw hhands hahead hfuel hfit
      obtain rfl := hw.unique hrest hrest'
      exact hfits.counted hw hlt hrest hcalled

/-! ## A file behind the end of its map -/

/-- A text in a field of `n` bytes. -/
def padded (n : Nat) (text : List UInt8) : List UInt8 := text ++ List.replicate (n - text.length) 0

/-- The header of a sparse file `a` of 512 bytes, with a single region of no bytes at its start. -/
def hollowHeader : List UInt8 :=
  padded 100 (ascii "a") ++ padded 8 (ascii "0000644") ++ padded 8 (ascii "0000000") ++
    padded 8 (ascii "0000000") ++ padded 12 (ascii "00000000000") ++
    padded 12 (ascii "00000000000") ++ padded 8 (ascii "012422") ++ ascii "S" ++ padded 100 [] ++
    padded 72 (ascii "ustar  ") ++ padded 8 (ascii "0000000") ++ padded 8 (ascii "0000000") ++
    padded 41 [] ++ padded 12 (ascii "00000000000") ++ padded 12 (ascii "00000000000") ++
    padded 73 [] ++ padded 12 (ascii "00000001000") ++ padded 17 []

/-- The file in front of the two blocks that end an archive. -/
def hollowArchive : List UInt8 := hollowHeader ++ List.replicate 1024 0

theorem unseen_hollow_iff :
    Unseen FileIstream.precache FileIstream.Holds 1537
        (create (FileIstream.openFd hollowArchive [])) ↔
      AllFit FileIstream.precache FileIstream.Holds 1537
        (create (FileIstream.openFd hollowArchive [])) :=
  unseen_iff FileIstream.carries.refills (FileIstream.openFd_holds List.not_mem_nil)
    (by decide +kernel)

/-- The file is handed out, with 512 bytes to be read and none in its record. -/
theorem hollow_next : ∃ record s',
    getNextRecord FileIstream.precache 1537 true (create (FileIstream.openFd hollowArchive [])) =
      .ok (some (record, some [⟨0, 0⟩])) s' ∧
    s'.apparentFileSize = 512 ∧ s'.fileBytesLeft = 0 ∧
    ∃ rest, FileIstream.Holds s'.tarStream rest ∧ rest.length = 1024 := by
  have hval : (getNextRecord FileIstream.precache 1537 true
        (create (FileIstream.openFd hollowArchive []))).val?.map (fun found =>
          (found.bind Prod.snd).map fun map => map.map fun region =>
            (region.offset, region.count)) = some (some [(0, 0)]) := by decide +kernel
  have hstate : (getNextRecord FileIstream.precache 1537 true
        (create (FileIstream.openFd hollowArchive []))).state?.map (fun s =>
          (s.apparentFileSize, s.fileBytesLeft,
            (s.tarStream.unread ++ s.tarStream.inner.rest).length, s.tarStream.eof,
            decide (s.tarStream.buffer.length ≤ bufsz), s.tarStream.inner.answers.length)) =
      some (512, 0, 1024, false, true, 0) := by decide +kernel
  obtain ⟨found, hfound, hmap⟩ := Option.map_eq_some_iff.1 hval
  obtain ⟨s', hs'⟩ := Outcome.exists_ok hfound
  rw [hs'] at hstate
  simp only [Outcome.state?, Option.map_some, Option.some.injEq, Prod.mk.injEq,
    decide_eq_true_eq] at hstate
  obtain ⟨hsize, hleft, hrest, heof, hbuffer, hanswers⟩ := hstate
  obtain ⟨map, hsnd, hregions⟩ := Option.map_eq_some_iff.1 hmap
  obtain ⟨⟨record, handed⟩, rfl, hhanded⟩ := Option.bind_eq_some_iff.1 hsnd
  have hone : map = [⟨0, 0⟩] := by
    obtain ⟨region, hregion, hpair⟩ := List.map_eq_singleton_iff.1 hregions
    cases region
    simp only [Prod.mk.injEq] at hpair
    obtain ⟨rfl, rfl⟩ := hpair
    exact hregion
  rw [hone] at hhanded
  change handed = some [⟨0, 0⟩] at hhanded
  rw [hhanded] at hs'
  have hanswered : ReadAnswer.error ∉ s'.tarStream.inner.answers := by
    rw [List.length_eq_zero_iff.1 hanswers]
    exact List.not_mem_nil
  exact ⟨record, s', hs', hsize, hleft, _, ⟨rfl, heof, hbuffer, hanswered⟩, hrest⟩

/-- The stream over the file takes the blocks behind it. -/
theorem not_unseen_hollow :
    ¬ Unseen FileIstream.precache FileIstream.Holds 1537
      (create (FileIstream.openFd hollowArchive [])) := by
  intro hunseen
  have hlength : hollowArchive.length < 1537 := by decide +kernel
  obtain ⟨record, s', hnext, hsize, hleft, rest, hrest, hcount⟩ := hollow_next
  have hfits := (hunseen.allFit FileIstream.carries.refills
    (FileIstream.openFd_holds List.not_mem_nil) hlength).here hnext rest hrest
  have hwithin := hfits.within
  rw [hsize, hleft, hcount] at hwithin
  exact absurd hwithin (by decide)

end TarSource

end ImageTool.Imgtool
