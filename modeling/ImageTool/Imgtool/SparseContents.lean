import ImageTool.Imgtool.SparseMember

/-!
# The contents of a sparse member

For a map that has passed the check of `get_next_record` the contents are the data of the record
at the regions and zero bytes everywhere else.  They are delivered, with nothing taken behind the
record, if and only if the last region ends with the member and no gap is too long.
-/

namespace ImageTool.Imgtool

open ImageTool.Lib ImageTool.Fstream

/-! ## Accepted maps -/

/-- The regions are behind one another, from an offset on. -/
def OrderedFrom : Nat → List SparseRegion → Prop
  | _, [] => True
  | offset, region :: map =>
      offset ≤ region.offset ∧ OrderedFrom (region.offset + region.count) map

/-- The bytes in the regions. -/
def mapCount (map : List SparseRegion) : Nat := (map.map SparseRegion.count).sum

@[simp] theorem mapCount_nil : mapCount [] = 0 := rfl

@[simp] theorem mapCount_cons (region : SparseRegion) (map : List SparseRegion) :
    mapCount (region :: map) = region.count + mapCount map := by
  simp [mapCount]

/-! ## Holes -/

/-- The bytes in the gaps from an offset on. -/
def holes : List SparseRegion → Nat → Nat
  | [], _ => 0
  | region :: map, offset =>
      (region.offset - offset) + holes map (max (region.offset + region.count)
        (max region.offset offset))

/-- Where the regions end, from an offset on. -/
def regionsEnd : List SparseRegion → Nat → Nat
  | [], offset => offset
  | region :: map, offset =>
      regionsEnd map (max (region.offset + region.count) (max region.offset offset))

theorem le_regionsEnd (map : List SparseRegion) (offset : Nat) :
    offset + holes map offset ≤ regionsEnd map offset := by
  induction map generalizing offset with
  | nil => simp [holes, regionsEnd]
  | cons region map ih =>
      have hrest := ih (max (region.offset + region.count) (max region.offset offset))
      rw [holes, regionsEnd]
      omega

section Ordered

variable {map : List SparseRegion} {offset : Nat} (h : OrderedFrom offset map)

include h

theorem regionsEnd_eq (hmap : map ≠ []) : regionsEnd map offset = TarIstream.mapEnd map := by
  induction map generalizing offset with
  | nil => exact absurd rfl hmap
  | cons region map ih =>
      have hle := h.1
      have hmax : max (region.offset + region.count) (max region.offset offset) =
          region.offset + region.count := by omega
      rw [regionsEnd, hmax]
      cases map with
      | nil => rfl
      | cons region' map => exact ih h.2 (List.cons_ne_nil _ _)

/-- Gaps and regions make up the map. -/
theorem holes_add_mapCount : offset + holes map offset + mapCount map = regionsEnd map offset := by
  induction map generalizing offset with
  | nil => simp [holes, regionsEnd]
  | cons region map ih =>
      have hle := h.1
      have hmax : max (region.offset + region.count) (max region.offset offset) =
          region.offset + region.count := by omega
      have hrest := ih h.2
      rw [holes, regionsEnd, hmax, mapCount_cons]
      omega

end Ordered

theorem regionsEnd_zero {map : List SparseRegion} (h : OrderedFrom 0 map) :
    regionsEnd map 0 = TarIstream.mapEnd map := by
  cases map with
  | nil => rfl
  | cons region map => exact regionsEnd_eq h (List.cons_ne_nil _ _)

namespace Member

variable {m m' : Member} {bytes : List UInt8}

/-- Every byte that is poured out is one of a gap or one of the archive. -/
theorem Pours.holes (h : Pours m bytes m') :
    bytes.length + holes m'.map m'.offset + m'.archive.length =
      holes m.map m.offset + m.archive.length := by
  cases h with
  | @gap region map offset left archive n hole _ _ low =>
      have hmax : max (region.offset + region.count) (max region.offset (offset + n)) =
          max (region.offset + region.count) (max region.offset offset) := by omega
      dsimp only [Imgtool.holes]
      rw [hmax, List.length_replicate]
      omega
  | @data region map offset left archive n inside _ _ room has =>
      have hmax : max (region.offset + region.count) (max region.offset (offset + n)) =
          max (region.offset + region.count) (max region.offset offset) := by omega
      dsimp only [Imgtool.holes]
      rw [hmax, List.length_take, List.length_drop]
      omega
  | @next region map offset left archive done _ =>
      have hmax : max (region.offset + region.count) (max region.offset offset) = offset := by omega
      dsimp only [Imgtool.holes]
      rw [hmax, List.length_nil]
      omega
  | plain _ _ has =>
      dsimp only [Imgtool.holes]
      rw [List.length_take, List.length_drop]
      omega

theorem Runs.holes (h : Runs m bytes m') :
    bytes.length + holes m'.map m'.offset + m'.archive.length =
      holes m.map m.offset + m.archive.length := by
  induction h with
  | refl m => simp
  | step hpour _ ih =>
      have hfirst := hpour.holes
      rw [List.length_append]
      omega

/-- The map goes on ending within the member. -/
theorem Pours.inside (h : Pours m bytes m') (hend : regionsEnd m.map m.offset ≤ m.offset + m.left) :
    regionsEnd m'.map m'.offset ≤ m'.offset + m'.left := by
  cases h with
  | @gap region map offset left archive n hole _ le low =>
      have hmax : max (region.offset + region.count) (max region.offset (offset + n)) =
          max (region.offset + region.count) (max region.offset offset) := by omega
      dsimp only [regionsEnd] at hend ⊢
      rw [hmax]
      omega
  | @data region map offset left archive n inside _ le room has =>
      have hmax : max (region.offset + region.count) (max region.offset (offset + n)) =
          max (region.offset + region.count) (max region.offset offset) := by omega
      dsimp only [regionsEnd] at hend ⊢
      rw [hmax]
      omega
  | @next region map offset left archive done _ =>
      have hmax : max (region.offset + region.count) (max region.offset offset) = offset := by omega
      dsimp only [regionsEnd] at hend ⊢
      rwa [hmax] at hend
  | plain => exact Nat.le_add_right ..

theorem Runs.inside (h : Runs m bytes m') (hend : regionsEnd m.map m.offset ≤ m.offset + m.left) :
    regionsEnd m'.map m'.offset ≤ m'.offset + m'.left := by
  induction h with
  | refl m => exact hend
  | step hpour _ ih => exact ih (hpour.inside hend)

end Member

namespace TarIstream

open Member

variable {map : List SparseRegion} {offset left : Nat} {data more : List UInt8}

/-! ## The contents -/

/-- With the data of all regions nothing behind them matters. -/
theorem expand_append (hordered : OrderedFrom offset map) (hcount : mapCount map ≤ data.length)
    (hleft : regionsEnd map offset ≤ offset + left) :
    expand map offset left (data ++ more) = expand map offset left data := by
  induction map generalizing offset left data with
  | nil => rfl
  | cons region map ih =>
      have hle := hordered.1
      have hmax : max (region.offset + region.count) (max region.offset offset) =
          region.offset + region.count := by omega
      have hrest := le_regionsEnd map (region.offset + region.count)
      rw [mapCount_cons] at hcount
      rw [regionsEnd, hmax] at hleft
      have hhole : min (region.offset - offset) left = region.offset - offset := by omega
      have hstart : offset + (region.offset - offset) = region.offset := by omega
      have hwant : min (region.offset + region.count - region.offset)
          (left - (region.offset - offset)) = region.count := by omega
      rw [expand, expand, hhole, hstart, hwant, List.take_append_of_le_length (by omega),
        List.drop_append_of_le_length (by omega), if_neg (by rw [List.length_append]; omega),
        if_neg (by omega), ih hordered.2 (by rw [List.length_drop]; omega) (by omega)]

/-- The contents have the size of the member. -/
theorem length_expand (hordered : OrderedFrom offset map) (hcount : mapCount map ≤ data.length)
    (hleft : regionsEnd map offset ≤ offset + left) :
    (expand map offset left data).length = left := by
  induction map generalizing offset left data with
  | nil => exact List.length_replicate
  | cons region map ih =>
      have hle := hordered.1
      have hmax : max (region.offset + region.count) (max region.offset offset) =
          region.offset + region.count := by omega
      have hrest := le_regionsEnd map (region.offset + region.count)
      rw [mapCount_cons] at hcount
      rw [regionsEnd, hmax] at hleft
      have hhole : min (region.offset - offset) left = region.offset - offset := by omega
      have hstart : offset + (region.offset - offset) = region.offset := by omega
      have hwant : min (region.offset + region.count - region.offset)
          (left - (region.offset - offset)) = region.count := by omega
      rw [expand, hhole, hstart, hwant, if_neg (by omega), List.length_append, List.length_append,
        List.length_replicate, List.length_take,
        ih hordered.2 (by rw [List.length_drop]; omega) (by omega)]
      omega

/-- In a complete record every gap is reached. -/
theorem gapsFit_of_not_blocked (hordered : OrderedFrom offset map) {count : Nat}
    (hcount : mapCount map ≤ count) (hleft : regionsEnd map offset ≤ offset + left)
    (h : ¬ Blocked map offset left count) : GapsFit offset map := by
  induction map generalizing offset left count with
  | nil => trivial
  | cons region map ih =>
      have hle := hordered.1
      have hmax : max (region.offset + region.count) (max region.offset offset) =
          region.offset + region.count := by omega
      have hstart : max region.offset offset = region.offset := by omega
      have hrest := le_regionsEnd map (region.offset + region.count)
      rw [mapCount_cons] at hcount
      rw [regionsEnd, hmax] at hleft
      rw [Blocked] at h
      by_cases hlong : 2 ^ 32 ≤ region.offset - offset
      · rw [if_pos hlong] at h
        omega
      · rw [if_neg hlong, hstart] at h
        dsimp only at h
        rw [Nat.add_sub_cancel_left] at h
        refine ⟨by omega, ?_⟩
        exact ih hordered.2 (by omega) (by omega) fun hblocked => h ⟨by omega, hblocked⟩

/-! ## Reading to the end -/

section Reading

variable {ω : Type} {wrapped : Call (Istream ω) Unit} {tholds : Istream ω → List UInt8 → Prop}
variable {strm strm' strm₁ : Istream (TarIstream ω)} {archive archive' archive₁ : List UInt8}
variable {out : List UInt8}

/-- `out` has been read: what the machine has poured out is that and the bytes that have not been
handed out yet. -/
structure Reads (wrapped : Call (Istream ω) Unit) (tholds : Istream ω → List UInt8 → Prop)
    (strm : Istream (TarIstream ω)) (archive out : List UInt8) (strm' : Istream (TarIstream ω))
    (archive' : List UInt8) : Prop where
  stream : tholds strm'.inner.tar.tarStream archive'
  poured : ∃ bytes, strm.unread ++ bytes = out ++ strm'.unread ∧
    Runs (memberOf strm archive) bytes (memberOf strm' archive')
  called : Called wrapped strm strm'

theorem Reads.refl (harchive : tholds strm.inner.tar.tarStream archive) :
    Reads wrapped tholds strm archive [] strm archive :=
  ⟨harchive, ⟨[], List.append_nil _, .refl _⟩, .refl⟩

theorem Reads.trans {out' : List UInt8} (h : Reads wrapped tholds strm archive out strm₁ archive₁)
    (h' : Reads wrapped tholds strm₁ archive₁ out' strm' archive') :
    Reads wrapped tholds strm archive (out ++ out') strm' archive' := by
  obtain ⟨bytes, hbytes, hruns⟩ := h.poured
  obtain ⟨bytes', hbytes', hruns'⟩ := h'.poured
  refine ⟨h'.stream, ⟨bytes ++ bytes', ?_, hruns.trans hruns'⟩, h.called.trans h'.called⟩
  rw [← List.append_assoc, hbytes, List.append_assoc, hbytes', List.append_assoc]

/-- Bytes of the buffer are handed out. -/
theorem reads_consume (harchive : tholds strm.inner.tar.tarStream archive) (n : Nat) :
    Reads wrapped tholds strm archive (strm.unread.take n) (strm.consume n) archive := by
  refine ⟨harchive, ⟨[], ?_, .refl _⟩, .readers .refl rfl rfl⟩
  have hunread : (strm.consume n).unread = strm.unread.drop n := by
    unfold Istream.unread
    rw [List.drop_drop]
    rfl
  rw [hunread, List.take_append_drop, List.append_nil]

theorem reads_refill (hw : Istream.Refills wrapped tholds)
    (harchive : tholds strm.inner.tar.tarStream archive)
    (h : Istream.refill (precache wrapped) strm = .ok () strm') :
    ∃ archive', Reads wrapped tholds strm archive [] strm' archive' := by
  unfold Istream.refill at h
  split at h
  · rename_i hused
    rw [Istream.precache, Istream.compact_eq, Istream.unread_eq_nil.2 hused] at h
    split at h
    · cases h
      refine ⟨archive, harchive, ⟨[], ?_, .refl _⟩, .readers .refl rfl rfl⟩
      rw [Istream.unread_eq_nil.2 hused]
      rfl
    · rename_i heof
      rw [Bool.not_eq_true] at heof
      have hcalled : Called wrapped strm { strm with buffer := [], bufferOffset := 0 } :=
        .readers .refl rfl rfl
      rcases precache_cases hw (by exact harchive) heof with
        hstuck | ⟨u, archive', bytes, hok, hdone⟩
      · rw [hstuck] at h
        cases h
      · have hcall := h
        rw [hok] at h
        cases h
        have hunread : strm'.unread = bytes := by
          rw [unread_of_offset hdone.offset, hdone.buffer]
          rfl
        refine ⟨archive', hdone.stream, ⟨bytes, ?_, hdone.runs⟩, hcalled.precache heof hcall⟩
        rw [Istream.unread_eq_nil.2 hused, hunread]
  · cases h
    exact ⟨archive, .refl harchive⟩

theorem reads_readLoop (hw : Istream.Refills wrapped tholds) {fuel size : Nat}
    (harchive : tholds strm.inner.tar.tarStream archive)
    (h : Istream.readLoop (precache wrapped) fuel size strm = .ok out strm') :
    ∃ archive', Reads wrapped tholds strm archive out strm' archive' := by
  induction fuel generalizing size strm archive out strm' with
  | zero =>
      cases size with
      | zero =>
          cases h
          exact ⟨archive, .refl harchive⟩
      | succ size => cases h
  | succ fuel ih =>
      cases size with
      | zero =>
          cases h
          exact ⟨archive, .refl harchive⟩
      | succ size =>
          obtain ⟨_, strm₁, hrefill, _⟩ := Outcome.of_bind_eq_ok h
          obtain ⟨archive₁, hreads⟩ := reads_refill hw harchive hrefill
          rw [Istream.readLoop_succ fuel size hrefill] at h
          split at h
          · cases h
            exact ⟨archive₁, hreads⟩
          · obtain ⟨more, strm₂, hmore, hdata⟩ := Outcome.of_bind_eq_ok h
            have hstream : tholds (strm₁.consume (min (strm₁.buffer.length - strm₁.bufferOffset)
                (size + 1))).inner.tar.tarStream archive₁ := hreads.stream
            obtain ⟨archive', hrest⟩ := ih hstream hmore
            cases hdata
            exact ⟨archive', hreads.trans ((reads_consume hreads.stream _).trans hrest)⟩

/-- Reading to the end is a run of the machine. -/
theorem reads_drained (hw : Istream.Refills wrapped tholds) {sizes : Nat → Nat}
    (harchive : tholds strm.inner.tar.tarStream archive)
    (h : Istream.Drained (precache wrapped) strm sizes out) :
    ∃ strm' archive', Reads wrapped tholds strm archive out strm' archive' := by
  induction h generalizing archive with
  | done hread =>
      obtain ⟨archive', hreads⟩ := reads_readLoop hw harchive hread
      exact ⟨_, archive', hreads⟩
  | more hread _ _ ih =>
      obtain ⟨archive₁, hreads⟩ := reads_readLoop hw harchive hread
      obtain ⟨strm', archive', hrest⟩ := ih hreads.stream
      exact ⟨strm', archive', hreads.trans hrest⟩

end Reading

/-! ## When the contents are delivered -/

section Delivered

variable {ω : Type} {wrapped : Call (Istream ω) Unit} {tholds : Istream ω → List UInt8 → Prop}
variable {tar : FileSourceTar ω}

/-- Reading to the end delivers the contents of the member, and no state of a run has taken a byte
from behind the record. -/
def ReadsMember (wrapped : Call (Istream ω) Unit) (tholds : Istream ω → List UInt8 → Prop)
    (tar : FileSourceTar ω) (map : List SparseRegion) (data more : List UInt8) : Prop :=
  (∀ sizes : Nat → Nat, (∀ i, 0 < sizes i) → Istream.Drained (precache wrapped) (create tar map)
      sizes (expand map 0 tar.apparentFileSize data)) ∧
    ∀ strm, Called wrapped (create tar map) strm → ∃ k ≤ data.length,
      tholds strm.inner.tar.tarStream ((data ++ more).drop k)

/-- A run that stays within the map takes no byte from behind the record. -/
theorem taken_le (hw : Istream.Refills wrapped tholds) {strm : Istream (TarIstream ω)}
    (harchive : tholds tar.tarStream (data ++ more)) (hordered : OrderedFrom 0 map)
    (hcount : mapCount map = data.length) (hend : mapEnd map = tar.apparentFileSize)
    (hcalled : Called wrapped (create tar map) strm) :
    ∃ k ≤ data.length, tholds strm.inner.tar.tarStream ((data ++ more).drop k) := by
  obtain ⟨archive', bytes, hstream, hruns⟩ := hcalled.runs hw harchive
  obtain ⟨k, hk, harchive'⟩ := hruns.archive
  change archive' = (data ++ more).drop k at harchive'
  change k ≤ (data ++ more).length at hk
  have hmap := holes_add_mapCount hordered
  rw [regionsEnd_zero hordered] at hmap
  have hinside := hruns.inside (by
    change regionsEnd map 0 ≤ 0 + tar.apparentFileSize
    rw [regionsEnd_zero hordered]
    omega)
  have hreach := le_regionsEnd strm.inner.sparse strm.inner.offset
  have hlength := hruns.length
  have hholes := hruns.holes
  change regionsEnd strm.inner.sparse strm.inner.offset ≤
    strm.inner.offset + strm.inner.tar.apparentFileSize at hinside
  change bytes.length + strm.inner.tar.apparentFileSize = tar.apparentFileSize at hlength
  change bytes.length + holes strm.inner.sparse strm.inner.offset + archive'.length =
    holes map 0 + (data ++ more).length at hholes
  rw [harchive', List.length_drop] at hholes
  exact ⟨k, by omega, harchive' ▸ hstream⟩

/-- A member that is read as it should be ends with its last region, and every gap is left. -/
theorem ReadsMember.reaches (hw : Istream.Refills wrapped tholds)
    (harchive : tholds tar.tarStream (data ++ more)) (hordered : OrderedFrom 0 map)
    (hcount : mapCount map = data.length) (hend : mapEnd map ≤ tar.apparentFileSize)
    (h : ReadsMember wrapped tholds tar map data more) :
    mapEnd map = tar.apparentFileSize ∧ GapsFit 0 map := by
  obtain ⟨hdrained, htaken⟩ := h
  have hmap := holes_add_mapCount hordered
  rw [regionsEnd_zero hordered, Nat.zero_add] at hmap
  have hinside : regionsEnd map 0 ≤ 0 + tar.apparentFileSize := by
    rw [regionsEnd_zero hordered]
    omega
  have hstart : tholds (create tar map).inner.tar.tarStream (data ++ more) := harchive
  obtain ⟨strm, archive', hreads⟩ :=
    reads_drained hw hstart (hdrained (fun _ => 1) fun _ => Nat.one_pos)
  obtain ⟨bytes, hbytes, hruns⟩ := hreads.poured
  obtain ⟨k, hk, hstream⟩ := htaken strm hreads.called
  have harchive' : archive' = (data ++ more).drop k := hw.unique hreads.stream hstream
  have hsize := congrArg List.length hbytes
  rw [show (create tar map).unread = [] from rfl, List.nil_append, List.length_append,
    length_expand hordered (Nat.le_of_eq hcount) hinside] at hsize
  have hlength := hruns.length
  change bytes.length + strm.inner.tar.apparentFileSize = tar.apparentFileSize at hlength
  have hholes := hruns.holes
  change bytes.length + holes strm.inner.sparse strm.inner.offset + archive'.length =
    holes map 0 + (data ++ more).length at hholes
  rw [harchive', List.length_drop, List.length_append] at hholes
  -- Nothing of the size is left, so the machine has not stopped on the way.
  have hleft : strm.inner.tar.apparentFileSize = 0 := by omega
  have hstops : ¬ Stops (memberOf (create tar map) (data ++ more)) := by
    rw [hruns.stops_iff]
    unfold Stops memberOf
    dsimp only
    rw [hleft]
    exact not_blocked_zero _ _ _
  refine ⟨by omega, gapsFit_of_not_blocked hordered ?_ hinside hstops⟩
  change mapCount map ≤ (data ++ more).length
  rw [hcount, List.length_append]
  exact Nat.le_add_right ..

/-- A sparse member is read as it should be if and only if its last region ends with it and no gap
is too long. -/
theorem readsMember_iff (hw : Istream.Refills wrapped tholds)
    (harchive : tholds tar.tarStream (data ++ more)) (hordered : OrderedFrom 0 map)
    (hcount : mapCount map = data.length) (hend : mapEnd map ≤ tar.apparentFileSize) :
    ReadsMember wrapped tholds tar map data more ↔
      mapEnd map = tar.apparentFileSize ∧ GapsFit 0 map := by
  refine ⟨ReadsMember.reaches hw harchive hordered hcount hend, ?_⟩
  rintro ⟨hreaches, hgaps⟩
  refine ⟨fun sizes hsizes => ?_, fun strm => taken_le hw harchive hordered hcount hreaches⟩
  have hcreated := create_holds harchive (.inr (Nat.le_of_eq hreaches.symm)) hgaps
  have hcontents : fileContents map 0 tar.apparentFileSize (data ++ more) =
      expand map 0 tar.apparentFileSize data := by
    unfold fileContents
    split
    · rename_i hnil
      subst hnil
      rw [← hreaches]
      rfl
    · apply expand_append hordered (Nat.le_of_eq hcount)
      rw [regionsEnd_zero hordered]
      omega
  rw [hcontents] at hcreated
  exact (serves hw).toRefills.drained hcreated sizes hsizes

/-- The archive goes on behind the record with a byte of its own. -/
theorem readsMember_gap :
    ReadsMember FileIstream.precache FileIstream.Holds
        ⟨FileIstream.openFd [65, 66, 67] [], 4, 512⟩ [⟨0, 1⟩, ⟨3, 1⟩] [65, 66] [67] ↔
      mapEnd [⟨0, 1⟩, ⟨3, 1⟩] = 4 ∧ GapsFit 0 [⟨0, 1⟩, ⟨3, 1⟩] :=
  readsMember_iff FileIstream.carries.refills (FileIstream.openFd_holds List.not_mem_nil)
    (show OrderedFrom 0 [⟨0, 1⟩, ⟨3, 1⟩] from ⟨by decide, by decide, trivial⟩) (by decide)
    (by decide)

/-- A hole at the end of a member is filled from the archive. -/
theorem not_readsMember_trailing :
    mapAccepted [⟨0, 1⟩] [(65 : UInt8)].length = true ∧ mapEnd [⟨0, 1⟩] ≤ 2 ∧
      ¬ ReadsMember FileIstream.precache FileIstream.Holds
        ⟨FileIstream.openFd [65, 66] [], 2, 512⟩ [⟨0, 1⟩] [65] [66] := by
  refine ⟨by decide, by decide, fun hreads => ?_⟩
  have hordered : OrderedFrom 0 [⟨0, 1⟩] := ⟨by decide, trivial⟩
  have hends := hreads.reaches FileIstream.carries.refills
    (FileIstream.openFd_holds List.not_mem_nil) hordered (by decide) (by decide)
  exact absurd hends.1 (by decide)

end Delivered

end TarIstream

end ImageTool.Imgtool
