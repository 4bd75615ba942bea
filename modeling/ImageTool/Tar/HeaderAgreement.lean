import ImageTool.Lib.Agreement
import ImageTool.Tar.ReadHeader

/-!
# A header depends on the content of its stream

How far the buffer of a stream is filled, and what of it has been handed out, cannot be seen in
what `read_header` returns.  Whatever has been read or skipped in front of it, two streams with the
same content ahead lead to the same header, and have the same content ahead behind it.
-/

namespace ImageTool.Tar

open ImageTool.Lib ImageTool.Fstream ImageTool.Imgtool

/-- Two streams have the same content ahead. -/
def SameContent {ι : Type} (holds : Istream ι → List UInt8 → Prop) (strm strm' : Istream ι) :
    Prop := ∃ rest, holds strm rest ∧ holds strm' rest

theorem agree_orFail {σ τ α : Type} {R : σ → τ → Prop} (found : Option α) :
    Call.Agree R (orFail found) (orFail found) := by
  cases found with
  | none => exact .fail
  | some a => exact .pure a

theorem agree_regardless {σ τ : Type} {R : σ → τ → Prop} {m : Call σ Unit} {m' : Call τ Unit}
    (hm : Call.Agree R m m') : Call.Agree R (regardless m) (regardless m') := by
  intro s t hst
  have h := hm s t hst
  unfold regardless
  cases hs : m s with
  | ok a s' =>
      rw [hs] at h
      obtain ⟨t', ht, hst'⟩ := h.ok_left
      rw [ht]
      exact ⟨rfl, hst'⟩
  | fail s' =>
      rw [hs] at h
      obtain ⟨t', ht, hst'⟩ := h.fail_left
      rw [ht]
      exact ⟨rfl, hst'⟩
  | stuck =>
      rw [hs] at h
      rw [h.stuck_left]
      trivial

section Content

variable {ι : Type} {callback : Call (Istream ι) Unit} {holds : Istream ι → List UInt8 → Prop}
variable (h : Istream.Refills callback holds)

include h

/-! ## Reading and skipping -/

theorem agree_read (size : Nat) :
    Call.Agree (SameContent holds) (Istream.read callback size) (Istream.read callback size) := by
  rintro strm strm' ⟨rest, hold, hold'⟩
  obtain ⟨strm₁, hread, hold₁⟩ := h.read size hold
  obtain ⟨strm₁', hread', hold₁'⟩ := h.read size hold'
  rw [hread, hread']
  exact ⟨rfl, _, hold₁, hold₁'⟩

theorem agree_skip (size : Nat) :
    Call.Agree (SameContent holds) (Istream.skip callback size) (Istream.skip callback size) := by
  rintro strm strm' ⟨rest, hold, hold'⟩
  obtain ⟨strm₁, hold₁, hskip⟩ := h.skip size hold
  obtain ⟨strm₁', hold₁', hskip'⟩ := h.skip size hold'
  rw [hskip, hskip']
  split
  · exact ⟨rfl, _, hold₁, hold₁'⟩
  · exact ⟨_, hold₁, hold₁'⟩

theorem agree_skipEntry (size : Nat) :
    Call.Agree (SameContent holds) (skipEntry callback size) (skipEntry callback size) :=
  agree_skip h _

theorem agree_recordToMemory (size : Nat) :
    Call.Agree (SameContent holds) (recordToMemory callback size)
      (recordToMemory callback size) := by
  have hpadding : Call.Agree (SameContent holds) (skipPadding callback size)
      (skipPadding callback size) := .ite (agree_skip h _) (.pure ())
  exact (agree_read h size).bind fun data => .ite .fail (hpadding.bind fun _ => .pure _)

/-! ## A PAX header -/

/-- The streams have the same content ahead, and the headers are the same. -/
def SameSource (holds : Istream ι → List UInt8 → Prop) (s s' : PaxSource ι) : Prop :=
  SameContent holds s.fp s'.fp ∧ s.out = s'.out ∧ s.setByPax = s'.setByPax

theorem agree_readPaxHeader (size : Nat) :
    Call.Agree (SameSource holds) (readPaxHeader callback size) (readPaxHeader callback size) := by
  refine Call.Agree.bind ((agree_recordToMemory h size).zoom (fun s s' hss => hss.1)
    fun s s' fp fp' hss hfp => ⟨hfp, hss.2⟩) fun buffer => .get_bind ?_
  rintro ⟨fp, out, setByPax⟩ ⟨fp', out', setByPax'⟩ hss
  obtain ⟨hfp, rfl, rfl⟩ := hss
  dsimp only
  cases paxLoop (size + 1) 0 ⟨buffer, paxStart out setByPax⟩ with
  | ok a r => exact ⟨rfl, hfp, rfl, rfl⟩
  | fail r => exact ⟨hfp, rfl, rfl⟩
  | stuck => trivial

theorem agree_paxHeader (size : Nat) :
    Call.Agree (SameContent holds) (paxHeader callback size) (paxHeader callback size) := by
  intro strm strm' hss
  have hagree := agree_readPaxHeader h size ⟨strm, DecodedHeader.blank, 0⟩
    ⟨strm', DecodedHeader.blank, 0⟩ ⟨hss, rfl, rfl⟩
  unfold paxHeader
  cases hs : readPaxHeader callback size ⟨strm, DecodedHeader.blank, 0⟩ with
  | ok a s =>
      rw [hs] at hagree
      obtain ⟨t, ht, hfp, hout, hset⟩ := hagree.ok_left
      rw [ht]
      exact ⟨by rw [hout, hset], hfp⟩
  | fail s =>
      rw [hs] at hagree
      obtain ⟨t, ht, hfp, -⟩ := hagree.fail_left
      rw [ht]
      exact hfp
  | stuck =>
      rw [hs] at hagree
      rw [hagree.stuck_left]
      trivial

/-! ## Sparse maps -/

/-- The streams have the same content ahead, and the records are of the same size. -/
def SameReader (holds : Istream ι → List UInt8 → Prop) (r r' : SparseReader ι) : Prop :=
  SameContent holds r.fp r'.fp ∧ r.recordSize = r'.recordSize

theorem agree_readBlock :
    Call.Agree (SameReader holds) (readBlock callback) (readBlock callback) :=
  .bind ((agree_read h blockSize).zoom (fun _ _ hrr => hrr.1)
    fun _ _ _ _ hrr hfp => ⟨hfp, hrr.2⟩) fun _ => .ite .fail (.pure _)

omit h in
theorem agree_takeOffBlock :
    Call.Agree (SameReader holds) (takeOffBlock : Call (SparseReader ι) Unit) takeOffBlock :=
  .modify fun _ _ hrr => ⟨hrr.1, congrArg (sub64 · blockSize) hrr.2⟩

omit h in
theorem agree_decodeAt (window : List UInt8) (diff : Nat) :
    Call.Agree (SameReader holds) (decodeAt window diff : Call (SparseReader ι) (Nat × Nat))
      (decodeAt window diff) := by
  unfold decodeAt
  refine .ite .stuck ?_
  cases decode (window.drop diff) with
  | none => exact .fail
  | some found => exact .pure found

omit h in
/-- Both records are too small for another block, or neither is. -/
theorem agree_ifBlock {α : Type} {m : Call (SparseReader ι) α}
    (hm : Call.Agree (SameReader holds) m m) :
    Call.Agree (SameReader holds)
      (do let r ← Call.get; if r.recordSize < blockSize then Call.fail else m)
      (do let r ← Call.get; if r.recordSize < blockSize then Call.fail else m) := by
  refine .get_bind fun r r' hrr => ?_
  rw [hrr.2]
  exact Call.Agree.ite .fail hm r r' hrr

theorem agree_nextNumber (cur : Cursor) :
    Call.Agree (SameReader holds) (nextNumber callback cur) (nextNumber callback cur) := by
  refine (agree_decodeAt _ _).bind fun found => .ite (.pure _) (agree_ifBlock ?_)
  refine (agree_readBlock h).bind fun block => (agree_decodeAt _ _).bind fun found => ?_
  exact .ite .fail (.ite .stuck (agree_takeOffBlock.bind fun _ => .pure _))

theorem agree_mapLoop (n i : Nat) (cur : Cursor) (list : List SparseRegion) :
    Call.Agree (SameReader holds) (mapLoop callback n i cur list)
      (mapLoop callback n i cur list) := by
  induction n generalizing i cur list with
  | zero => exact .pure list
  | succ n ih => exact (agree_nextNumber h cur).bind fun next => ih _ _ _

theorem agree_readGnuNewSparse :
    Call.Agree (SameReader holds) (readGnuNewSparse callback) (readGnuNewSparse callback) := by
  refine agree_ifBlock ((agree_readBlock h).bind fun block => ?_)
  refine (agree_decodeAt _ _).bind fun found => .ite .fail (agree_takeOffBlock.bind fun _ => ?_)
  exact .ite .fail (agree_mapLoop h _ _ _ _)

theorem agree_newSparse (recordSize : Nat) :
    Call.Agree (SameContent holds) (newSparse callback recordSize)
      (newSparse callback recordSize) := by
  intro strm strm' hss
  have hagree := agree_readGnuNewSparse h ⟨strm, recordSize⟩ ⟨strm', recordSize⟩ ⟨hss, rfl⟩
  unfold newSparse
  cases hs : readGnuNewSparse callback ⟨strm, recordSize⟩ with
  | ok map r =>
      rw [hs] at hagree
      obtain ⟨r', hr', hfp, hsize⟩ := hagree.ok_left
      rw [hr']
      exact ⟨by rw [hsize], hfp⟩
  | fail r =>
      rw [hs] at hagree
      obtain ⟨r', hr', hfp, -⟩ := hagree.fail_left
      rw [hr']
      exact hfp
  | stuck =>
      rw [hs] at hagree
      rw [hagree.stuck_left]
      trivial

theorem agree_extensionLoop (fuel : Nat) (list : List SparseRegion) :
    Call.Agree (SameContent holds) (extensionLoop callback fuel list)
      (extensionLoop callback fuel list) := by
  induction fuel generalizing list with
  | zero => exact .stuck
  | succ fuel ih =>
      refine (agree_read h gnuSparseSize).bind fun sph => .ite .fail ?_
      cases entryLoop (blockEntries sph) list with
      | none => exact .fail
      | some list => exact .ite (.pure list) (ih list)

theorem agree_readGnuOldSparse (fuel : Nat) (hdr : List UInt8) :
    Call.Agree (SameContent holds) (readGnuOldSparse callback fuel hdr)
      (readGnuOldSparse callback fuel hdr) := by
  unfold readGnuOldSparse
  cases entryLoop (headerEntries hdr) [] with
  | none => exact .fail
  | some list => exact .ite (.pure list) (agree_extensionLoop h fuel list)

/-! ## The header -/

theorem agree_oldSparse (fuel : Nat) (hdr : List UInt8) (out : TarHeaderDecoded) :
    Call.Agree (SameContent holds) (oldSparse callback fuel hdr out)
      (oldSparse callback fuel hdr out) :=
  (agree_readGnuOldSparse h fuel hdr).bind fun _ => .ite .fail
    ((agree_orFail _).bind fun _ => .pure _)

omit h in
theorem agree_memorySize (hdr : List UInt8) :
    Call.Agree (SameContent holds) (memorySize hdr) (memorySize hdr) :=
  (agree_orFail _).bind fun _ => .ite .fail (.pure _)

theorem agree_headerLoop (fuel : Nat) (prevWasZero : Bool) (out : TarHeaderDecoded)
    (setByPax : Nat) :
    Call.Agree (SameContent holds) (headerLoop callback fuel prevWasZero out setByPax)
      (headerLoop callback fuel prevWasZero out setByPax) := by
  induction fuel generalizing prevWasZero out setByPax with
  | zero => exact .stuck
  | succ fuel ih =>
      refine (agree_read h 512).bind fun hdr => .ite (.pure none) ?_
      refine .ite (.ite (.pure none) (ih _ _ _)) ?_
      cases checkVersion hdr with
      | none => exact .fail
      | some version =>
          refine .ite .fail (.ite ?_ (.ite ?_ (.ite ?_ (.ite ?_ (.ite ?_ (.pure _))))))
          · exact (agree_memorySize hdr).bind fun size =>
              (agree_recordToMemory h size).bind fun _ => ih _ _ _
          · exact (agree_memorySize hdr).bind fun size =>
              (agree_recordToMemory h size).bind fun _ => ih _ _ _
          · exact (agree_orFail _).bind fun size =>
              (agree_regardless (agree_skipEntry h size)).bind fun _ => ih _ _ _
          · exact (agree_memorySize hdr).bind fun size =>
              (agree_paxHeader h size).bind fun _ => ih _ _ _
          · exact (agree_oldSparse h fuel hdr out).bind fun _ => .pure _

/-- Two streams with the same content ahead lead to the same header, and have the same content
ahead behind it. -/
theorem agree_readHeader (fuel : Nat) :
    Call.Agree (SameContent holds) (readHeader callback fuel) (readHeader callback fuel) := by
  refine (agree_headerLoop h _ _ _ _).bind fun found => ?_
  cases found with
  | none => exact .pure none
  | some found =>
      refine (agree_orFail _).bind fun out => Call.Agree.bind ?_ fun out => .pure _
      exact .ite ((agree_newSparse h _).bind fun map => .ite .fail (.pure _)) (.pure out)

end Content

end ImageTool.Tar
