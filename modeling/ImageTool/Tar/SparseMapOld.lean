import ImageTool.Imgtool.TarIstream
import ImageTool.Lib.LittleEndian
import ImageTool.Tar.NumberFormat
import Mathlib.Data.List.TakeWhile

/-!
# Sparse maps in the header

The old GNU format has four regions in the header of a member and 21 in every block behind it that
is chained to it.  `read_gnu_old_sparse` ends with a block at the first region that does not begin
with a digit, and goes on with the next block.
-/

namespace ImageTool.Tar

open ImageTool.Lib ImageTool.Fstream ImageTool.Imgtool

/-! ## The reader -/

/-- The size of a region: two fields of 12 bytes, `offset` and `numbytes`. -/
def entrySize : Nat := 24

/-- `sizeof(gnu_sparse_t)`. -/
def gnuSparseSize : Nat := 512

/-- `sparse` of the header. -/
def headerEntries (hdr : List UInt8) : List (List UInt8) :=
  records entrySize ((hdr.drop 386).take (4 * entrySize))

/-- `isextended` of the header. -/
def headerExtended (hdr : List UInt8) : UInt8 := hdr.getD 482 0

/-- `sparse` of `gnu_sparse_t`. -/
def blockEntries (sph : List UInt8) : List (List UInt8) :=
  records entrySize (sph.take (21 * entrySize))

/-- `isextended` of `gnu_sparse_t`. -/
def blockExtended (sph : List UInt8) : UInt8 := sph.getD 504 0

/-- The field `offset` of a region. -/
def offsetField (e : List UInt8) : List UInt8 := e.take 12

/-- The field `numbytes` of a region. -/
def numbytesField (e : List UInt8) : List UInt8 := (e.drop 12).take 12

/-- `isdigit` of the first byte of a field. -/
def firstIsDigit (field : List UInt8) : Bool := isDigitOf 10 (field.headD 0)

/-- The loop of `read_gnu_old_sparse` over the regions of the header or of a block. -/
def entryLoop : List (List UInt8) → List SparseRegion → Option (List SparseRegion)
  | [], list => some list
  | e :: es, list =>
      if !firstIsDigit (offsetField e) then some list
      else if !firstIsDigit (numbytesField e) then some list
      else do
        let off ← readOctal (offsetField e)
        let sz ← readOctal (numbytesField e)
        entryLoop es (list ++ [⟨off, sz⟩])

section Reader

variable {ι : Type} (callback : Call (Istream ι) Unit)

/-- The loop of `read_gnu_old_sparse` over the blocks, of which it reads at most `fuel`. -/
def extensionLoop : Nat → List SparseRegion → Call (Istream ι) (List SparseRegion)
  | 0, _ => Call.stuck
  | fuel + 1, list => do
      let sph ← Istream.read callback gnuSparseSize
      if sph.length < gnuSparseSize then Call.fail
      else
        match entryLoop (blockEntries sph) list with
        | none => Call.fail
        | some list =>
            if blockExtended sph = 0 then pure list else extensionLoop fuel list

/-- `read_gnu_old_sparse`. -/
def readGnuOldSparse (fuel : Nat) (hdr : List UInt8) : Call (Istream ι) (List SparseRegion) :=
  match entryLoop (headerEntries hdr) [] with
  | none => Call.fail
  | some list => if headerExtended hdr = 0 then pure list else extensionLoop callback fuel list

end Reader

/-! ## Stored maps -/

/-- A number in a field: digits, with blanks in front, or base 256. -/
structure StoresNumber (field : List UInt8) (n : Nat) : Prop where
  size : field.length = 12
  read : readNumber field = some n
  number : field.headD 0 &&& 0x80 ≠ 0 ∨ isDigitOf 8 ((field.dropWhile isSpace).headD 0) = true

/-- The fields of a region. -/
structure StoresRegion (e : List UInt8) (region : SparseRegion) : Prop where
  size : e.length = entrySize
  offset : StoresNumber (offsetField e) region.offset
  numbytes : StoresNumber (numbytesField e) region.count

/-- The regions of a block with room for `n`, of which the unused ones are zero. -/
def stored (n : Nat) (es : List (List UInt8)) : List (List UInt8) :=
  es.take n ++ List.replicate (n - es.length) (List.replicate entrySize 0)

/-- The blocks behind a header, with the regions in them. -/
inductive StoresBlocks : List (List UInt8) → List (List UInt8) → Prop
  | nil : StoresBlocks [] []
  | cons {sph : List UInt8} {blocks es : List (List UInt8)} (size : sph.length = gnuSparseSize)
      (entries : blockEntries sph = stored 21 es) (chained : blockExtended sph ≠ 0 ↔ blocks ≠ [])
      (more : StoresBlocks blocks (es.drop 21)) : StoresBlocks (sph :: blocks) es

/-- A header and the blocks behind it, with the regions in them. -/
structure StoresMap (hdr : List UInt8) (blocks es : List (List UInt8)) : Prop where
  entries : headerEntries hdr = stored 4 es
  chained : headerExtended hdr ≠ 0 ↔ blocks ≠ []
  more : StoresBlocks blocks (es.drop 4)

/-- Both fields of a region begin with a digit. -/
def Plain (e : List UInt8) : Bool :=
  firstIsDigit (offsetField e) && firstIsDigit (numbytesField e)

/-- The region that is read from two fields. -/
def regionOf (e : List UInt8) : SparseRegion :=
  ⟨(readNumber (offsetField e)).getD 0, (readNumber (numbytesField e)).getD 0⟩

theorem StoresRegion.regionOf_eq {e : List UInt8} {region : SparseRegion}
    (h : StoresRegion e region) : regionOf e = region := by
  rw [regionOf, h.offset.read, h.numbytes.read]
  rfl

theorem map_regionOf {es : List (List UInt8)} {regions : List SparseRegion}
    (h : List.Forall₂ StoresRegion es regions) : es.map regionOf = regions := by
  induction h with
  | nil => rfl
  | cons he _ ih => rw [List.map_cons, he.regionOf_eq, ih]

/-- A field that begins with a digit is octal. -/
theorem StoresNumber.readOctal_eq {field : List UInt8} {n : Nat} (h : StoresNumber field n)
    (hdigit : firstIsDigit field = true) : readOctal field = some n := by
  have hplain : field.headD 0 &&& 0x80 = 0 := by
    have hrange : 48 ≤ (field.headD 0).toNat ∧ (field.headD 0).toNat < 58 := by
      rw [firstIsDigit, isDigitOf, Bool.and_eq_true, decide_eq_true_eq, decide_eq_true_eq] at hdigit
      exact hdigit
    rw [← UInt8.ofNat_toNat (x := field.headD 0)]
    generalize (field.headD 0).toNat = m at hrange
    obtain ⟨hlo, hhi⟩ := hrange
    interval_cases m <;> decide
  have hread := h.read
  rwa [readNumber, if_neg (not_not.2 hplain)] at hread

/-- Of the regions in a block those in front of the first one that does not begin with digits are
read. -/
theorem entryLoop_eq {es : List (List UInt8)} {regions : List SparseRegion}
    (h : List.Forall₂ StoresRegion es regions) (k : Nat) (list : List SparseRegion) :
    entryLoop (es ++ List.replicate k (List.replicate entrySize 0)) list =
      some (list ++ (es.takeWhile Plain).map regionOf) := by
  induction h generalizing list with
  | nil =>
      cases k with
      | zero => simp [entryLoop]
      | succ k =>
          have hzero : firstIsDigit (offsetField (List.replicate entrySize 0)) = false := by
            decide
          rw [List.nil_append, List.replicate_succ, entryLoop, hzero]
          simp
  | @cons e region es regions he hes ih =>
      rw [List.cons_append, entryLoop]
      by_cases hoffset : firstIsDigit (offsetField e) = true
      · by_cases hnumbytes : firstIsDigit (numbytesField e) = true
        · have hplain : Plain e = true := by simp [Plain, hoffset, hnumbytes]
          have hoff := he.offset.readOctal_eq hoffset
          have hsz := he.numbytes.readOctal_eq hnumbytes
          rw [List.takeWhile_cons_of_pos hplain, List.map_cons, he.regionOf_eq, hoffset, hnumbytes,
            hoff, hsz]
          simp [ih]
        · have hplain : ¬ Plain e = true := by simp [Plain, hnumbytes]
          rw [List.takeWhile_cons_of_neg hplain]
          simp [hoffset, hnumbytes]
      · have hplain : ¬ Plain e = true := by simp [Plain, hoffset]
        rw [List.takeWhile_cons_of_neg hplain]
        simp [hoffset]

/-! ## What is read -/

/-- The regions that are read from `n` blocks. -/
def takenBlocks : Nat → List (List UInt8) → List (List UInt8)
  | 0, _ => []
  | n + 1, es => (es.take 21).takeWhile Plain ++ takenBlocks n (es.drop 21)

/-- The regions that are read from a header and `n` blocks. -/
def taken (n : Nat) (es : List (List UInt8)) : List (List UInt8) :=
  (es.take 4).takeWhile Plain ++ takenBlocks n (es.drop 4)

theorem length_takeWhile_le {α : Type} (p : α → Bool) (as : List α) :
    (as.takeWhile p).length ≤ as.length := (List.takeWhile_prefix p).length_le

theorem length_takenBlocks_le (n : Nat) (es : List (List UInt8)) :
    (takenBlocks n es).length ≤ es.length := by
  induction n generalizing es with
  | zero => simp [takenBlocks]
  | succ n ih =>
      have hfirst := length_takeWhile_le Plain (es.take 21)
      have hrest := ih (es.drop 21)
      rw [List.length_take] at hfirst
      rw [List.length_drop] at hrest
      rw [takenBlocks, List.length_append]
      omega

/-- Where all regions of a block are read, they are plain. -/
theorem forall_plain_of_length {es : List (List UInt8)}
    (h : (es.takeWhile Plain).length = es.length) : ∀ e ∈ es, Plain e = true :=
  List.takeWhile_eq_self_iff.1 ((List.takeWhile_prefix Plain).eq_of_length h)

theorem forall_plain_of_takenBlocks {n : Nat} {es : List (List UInt8)}
    (h : (takenBlocks n es).length = es.length) : ∀ e ∈ es, Plain e = true := by
  induction n generalizing es with
  | zero =>
      have hnil : es = [] := List.length_eq_zero_iff.1 (by simpa [takenBlocks] using h.symm)
      simp [hnil]
  | succ n ih =>
      have hfirst := length_takeWhile_le Plain (es.take 21)
      have hrest := length_takenBlocks_le n (es.drop 21)
      rw [takenBlocks, List.length_append] at h
      rw [List.length_take] at hfirst
      rw [List.length_drop] at hrest
      rw [← List.take_append_drop 21 es, List.forall_mem_append]
      exact ⟨forall_plain_of_length (by rw [List.length_take]; omega),
        ih (by rw [List.length_drop]; omega)⟩

theorem takenBlocks_of_plain {blocks es : List (List UInt8)} (h : StoresBlocks blocks es)
    (hplain : ∀ e ∈ es, Plain e = true) : takenBlocks blocks.length es = es := by
  induction h with
  | nil => rfl
  | @cons sph blocks es _ _ _ _ ih =>
      rw [← List.take_append_drop 21 es, List.forall_mem_append] at hplain
      rw [List.length_cons, takenBlocks, List.takeWhile_eq_self_iff.2 hplain.1, ih hplain.2,
        List.take_append_drop]

/-- Nothing is read from regions of which the first one is not plain. -/
theorem takeWhile_take_eq_nil_iff {n : Nat} (hn : 0 < n) {es : List (List UInt8)} :
    (es.take n).takeWhile Plain = [] ↔ ∀ e ∈ es[0]?, ¬ Plain e = true := by
  obtain ⟨m, rfl⟩ := Nat.exists_eq_succ_of_ne_zero hn.ne'
  cases es with
  | nil => simp
  | cons e es =>
      by_cases hplain : Plain e = true <;> simp [hplain]

theorem takenBlocks_eq_nil_iff {blocks es : List (List UInt8)} (h : StoresBlocks blocks es) :
    takenBlocks blocks.length es = [] ↔ ∀ k, ∀ e ∈ es[21 * k]?, ¬ Plain e = true := by
  induction h with
  | nil => simp [takenBlocks]
  | @cons sph blocks es _ _ _ _ ih =>
      rw [List.length_cons, takenBlocks, List.append_eq_nil_iff,
        takeWhile_take_eq_nil_iff (by decide), ih]
      constructor
      · rintro ⟨hfirst, hrest⟩ k
        cases k with
        | zero => exact hfirst
        | succ k =>
            have hk := hrest k
            rwa [List.getElem?_drop, show 21 + 21 * k = 21 * (k + 1) by ring] at hk
      · intro hall
        refine ⟨hall 0, fun k => ?_⟩
        rw [List.getElem?_drop, show 21 + 21 * k = 21 * (k + 1) by ring]
        exact hall (k + 1)

/-- In the header and in every block the first region is not plain. -/
def NonePlain (es : List (List UInt8)) : Prop :=
  (∀ e ∈ es[0]?, ¬ Plain e = true) ∧ ∀ k, ∀ e ∈ es[4 + 21 * k]?, ¬ Plain e = true

section Run

variable {ι : Type} {callback : Call (Istream ι) Unit} {holds : Istream ι → List UInt8 → Prop}
variable {hdr rest : List UInt8} {blocks es : List (List UInt8)} {regions : List SparseRegion}
variable {strm : Istream ι} {fuel : Nat}

/-- All blocks are read, and of each the regions in front of one that is not plain. -/
theorem extensionLoop_ok (h : Istream.Refills callback holds) (hstores : StoresBlocks blocks es)
    (hblocks : blocks ≠ []) (hregions : List.Forall₂ StoresRegion es regions)
    (hhold : holds strm (blocks.flatten ++ rest)) (hfuel : blocks.length ≤ fuel)
    (list : List SparseRegion) :
    ∃ strm', extensionLoop callback fuel list strm =
        .ok (list ++ (takenBlocks blocks.length es).map regionOf) strm' ∧ holds strm' rest := by
  induction hstores generalizing regions strm fuel list with
  | nil => exact absurd rfl hblocks
  | @cons sph blocks es hsize hentries hchained hmore ih =>
      obtain ⟨fuel, rfl⟩ := Nat.exists_eq_succ_of_ne_zero
        (show fuel ≠ 0 by rw [List.length_cons] at hfuel; omega)
      obtain ⟨strm₁, hread, hhold₁⟩ := h.read gnuSparseSize hhold
      rw [show min gnuSparseSize Istream.readLimit = gnuSparseSize from rfl, List.flatten_cons,
        List.append_assoc] at hread hhold₁
      rw [List.take_left' hsize] at hread
      rw [List.drop_left' hsize] at hhold₁
      have hloop := entryLoop_eq (List.forall₂_take 21 hregions) (21 - es.length) list
      rw [extensionLoop, Call.bind_apply, hread, Outcome.bind_ok, if_neg (by omega), hentries,
        stored,
        hloop]
      dsimp only
      rw [List.length_cons, takenBlocks, List.map_append, ← List.append_assoc]
      by_cases hlast : blocks = []
      · subst hlast
        rw [if_pos (by simpa using hchained), Call.pure_apply]
        exact ⟨strm₁, by simp [takenBlocks], by simpa using hhold₁⟩
      · rw [if_neg (hchained.2 hlast)]
        exact ih hlast (List.forall₂_drop 21 hregions) hhold₁
          (by rw [List.length_cons] at hfuel; omega) _

theorem readGnuOldSparse_ok (h : Istream.Refills callback holds) (hstores : StoresMap hdr blocks es)
    (hregions : List.Forall₂ StoresRegion es regions)
    (hhold : holds strm (blocks.flatten ++ rest)) (hfuel : blocks.length ≤ fuel) :
    ∃ strm', readGnuOldSparse callback fuel hdr strm =
        .ok ((taken blocks.length es).map regionOf) strm' ∧ holds strm' rest := by
  have hloop := entryLoop_eq (List.forall₂_take 4 hregions) (4 - es.length) []
  rw [readGnuOldSparse, hstores.entries, stored, hloop]
  dsimp only
  rw [List.nil_append, taken, List.map_append]
  by_cases hlast : blocks = []
  · subst hlast
    rw [if_pos (by simpa using hstores.chained), Call.pure_apply]
    exact ⟨strm, by simp [takenBlocks], by simpa using hhold⟩
  · rw [if_neg (hstores.chained.2 hlast)]
    exact extensionLoop_ok h hstores.more hlast (List.forall₂_drop 4 hregions) hhold hfuel _

/-- The stored list is returned and the blocks have been read, or an error is reported, for which
the empty list stands as well. -/
def ReadsBack (holds : Istream ι → List UInt8 → Prop) (regions : List SparseRegion)
    (rest : List UInt8) (o : Outcome (Istream ι) (List SparseRegion)) : Prop :=
  match o with
  | .ok list strm => list = regions ∧ holds strm rest ∨ list = []
  | .fail _ => True
  | .stuck => False

/-- A stored map is read as it is or refused if and only if the fields of all regions begin with a
digit, or nothing is read at all. -/
theorem readGnuOldSparse_iff (h : Istream.Refills callback holds)
    (hstores : StoresMap hdr blocks es) (hregions : List.Forall₂ StoresRegion es regions)
    (hhold : holds strm (blocks.flatten ++ rest)) (hfuel : blocks.length ≤ fuel) :
    ReadsBack holds regions rest (readGnuOldSparse callback fuel hdr strm) ↔
      (∀ e ∈ es, Plain e = true) ∨ NonePlain es := by
  obtain ⟨strm', hread, hhold'⟩ := readGnuOldSparse_ok h hstores hregions hhold hfuel
  have hnil : taken blocks.length es = [] ↔ NonePlain es := by
    rw [taken, List.append_eq_nil_iff, takeWhile_take_eq_nil_iff (by decide),
      takenBlocks_eq_nil_iff hstores.more]
    simp only [List.getElem?_drop, NonePlain]
  rw [hread, ReadsBack, List.map_eq_nil_iff, hnil, ← map_regionOf hregions]
  refine or_congr_left' fun _ => ⟨?_, ?_⟩
  · rintro ⟨hall, -⟩
    have hlength := congrArg List.length hall
    have hfirst := length_takeWhile_le Plain (es.take 4)
    have hmore := length_takenBlocks_le blocks.length (es.drop 4)
    rw [List.length_map, List.length_map, taken, List.length_append] at hlength
    rw [List.length_take] at hfirst
    rw [List.length_drop] at hmore
    rw [← List.take_append_drop 4 es, List.forall_mem_append]
    exact ⟨forall_plain_of_length (by rw [List.length_take]; omega),
      forall_plain_of_takenBlocks (n := blocks.length) (by rw [List.length_drop]; omega)⟩
  · intro hplain
    rw [← List.take_append_drop 4 es, List.forall_mem_append] at hplain
    rw [taken, List.takeWhile_eq_self_iff.2 hplain.1, takenBlocks_of_plain hstores.more hplain.2,
      List.take_append_drop]
    exact ⟨rfl, hhold'⟩

end Run

/-! ## Written maps -/

section Written

variable {n : Nat} {es : List (List UInt8)} (hes : ∀ e ∈ es, e.length = entrySize)

theorem length_stored : (stored n es).length = n := by
  simp [stored]
  omega

include hes

theorem size_stored : ∀ e ∈ stored n es, e.length = entrySize := by
  intro e he
  rw [stored, List.mem_append] at he
  rcases he with htake | hzero
  · exact hes e (List.mem_of_mem_take htake)
  · rw [List.eq_of_mem_replicate hzero, List.length_replicate]

theorem length_flatten_stored : (stored n es).flatten.length = n * entrySize := by
  rw [List.length_flatten, List.map_congr_left (size_stored hes), List.map_const', length_stored]
  exact List.sum_replicate_nat

/-- The regions are read back from the front of what is written. -/
theorem records_stored (tail : List UInt8) :
    records entrySize (((stored n es).flatten ++ tail).take (n * entrySize)) = stored n es := by
  rw [List.take_left' (length_flatten_stored hes), records_flatten (by decide) (size_stored hes)]

/-- What comes behind them. -/
theorem getD_stored (tail : List UInt8) :
    ((stored n es).flatten ++ tail).getD (n * entrySize) 0 = tail.getD 0 0 := by
  have hlength := length_flatten_stored (n := n) hes
  rw [List.getD_eq_getElem?_getD, List.getElem?_append_right hlength.le, hlength, Nat.sub_self,
    List.getD_eq_getElem?_getD]

end Written

/-- The regions of a header of which the other fields are empty. -/
def headerOf (es : List (List UInt8)) : List UInt8 :=
  List.replicate 386 0 ++ (stored 4 es).flatten ++ List.replicate 30 0

/-- A header with a block behind it. -/
def extendedHeader (es : List (List UInt8)) : List UInt8 :=
  List.replicate 386 0 ++ (stored 4 es).flatten ++ 1 :: List.replicate 29 0

/-- The last block. -/
def lastExtension (es : List (List UInt8)) : List UInt8 :=
  (stored 21 es).flatten ++ List.replicate 8 0

theorem headerEntries_stored {es : List (List UInt8)} (hes : ∀ e ∈ es, e.length = entrySize)
    (tail : List UInt8) :
    headerEntries (List.replicate 386 0 ++ (stored 4 es).flatten ++ tail) = stored 4 es := by
  rw [headerEntries, List.append_assoc, List.drop_left' List.length_replicate]
  exact records_stored hes tail

theorem headerExtended_stored {es : List (List UInt8)} (hes : ∀ e ∈ es, e.length = entrySize)
    (tail : List UInt8) :
    headerExtended (List.replicate 386 0 ++ (stored 4 es).flatten ++ tail) = tail.getD 0 0 := by
  rw [headerExtended, List.append_assoc, List.getD_eq_getElem?_getD,
    List.getElem?_append_right (List.length_replicate.trans_le (by decide)),
    List.length_replicate, ← List.getD_eq_getElem?_getD]
  exact getD_stored hes tail

theorem headerOf_stores {es : List (List UInt8)} (hes : ∀ e ∈ es, e.length = entrySize)
    (hcount : es.length ≤ 4) : StoresMap (headerOf es) [] es where
  entries := headerEntries_stored hes _
  chained := by
    have hflag : headerExtended (headerOf es) = 0 := headerExtended_stored hes _
    simp [hflag]
  more := by
    rw [List.drop_of_length_le hcount]
    exact .nil

theorem extendedHeader_stores {es : List (List UInt8)} (hes : ∀ e ∈ es, e.length = entrySize)
    (hcount : es.length ≤ 25) :
    StoresMap (extendedHeader es) [lastExtension (es.drop 4)] es where
  entries := headerEntries_stored hes _
  chained := by
    have hflag : headerExtended (extendedHeader es) = 1 := headerExtended_stored hes _
    simp [hflag]
  more := by
    have hmore : ∀ e ∈ es.drop 4, e.length = entrySize :=
      fun e he => hes e (List.mem_of_mem_drop he)
    refine .cons ?_ (records_stored hmore _) ?_ ?_
    · rw [lastExtension, List.length_append, length_flatten_stored hmore, List.length_replicate]
      rfl
    · have hflag : blockExtended (lastExtension (es.drop 4)) = 0 := getD_stored hmore _
      simp [hflag]
    · rw [List.drop_drop, List.drop_of_length_le hcount]
      exact .nil

/-- A region written as the writer of headers does. -/
def writtenRegion (region : SparseRegion) : List UInt8 :=
  writeNumber region.offset 12 ++ writeNumber region.count 12

theorem storesNumber_iff {field : List UInt8} {n : Nat} : StoresNumber field n ↔
    field.length = 12 ∧ readNumber field = some n ∧ (field.headD 0 &&& 0x80 ≠ 0 ∨
      isDigitOf 8 ((field.dropWhile isSpace).headD 0) = true) :=
  ⟨fun ⟨hsize, hread, hnumber⟩ => ⟨hsize, hread, hnumber⟩,
    fun ⟨hsize, hread, hnumber⟩ => ⟨hsize, hread, hnumber⟩⟩

instance (field : List UInt8) (n : Nat) : Decidable (StoresNumber field n) :=
  decidable_of_iff _ storesNumber_iff.symm

theorem storesRegion_iff {e : List UInt8} {region : SparseRegion} : StoresRegion e region ↔
    e.length = entrySize ∧ StoresNumber (offsetField e) region.offset ∧
      StoresNumber (numbytesField e) region.count :=
  ⟨fun ⟨hsize, hoffset, hnumbytes⟩ => ⟨hsize, hoffset, hnumbytes⟩,
    fun ⟨hsize, hoffset, hnumbytes⟩ => ⟨hsize, hoffset, hnumbytes⟩⟩

instance (e : List UInt8) (region : SparseRegion) : Decidable (StoresRegion e region) :=
  decidable_of_iff _ storesRegion_iff.symm

/-- Seven regions, three of them behind the header. -/
def sevenRegions : List SparseRegion := (List.range 7).map fun i => ⟨8192 * i, 512⟩

theorem readGnuOldSparse_seven :
    ReadsBack FileIstream.Holds sevenRegions [65]
      (readGnuOldSparse FileIstream.precache 1 (extendedHeader (sevenRegions.map writtenRegion))
        (FileIstream.openFd
          ([lastExtension ((sevenRegions.map writtenRegion).drop 4)].flatten ++ [65]) [])) := by
  have hregions : ∀ region ∈ sevenRegions, StoresRegion (writtenRegion region) region := by decide
  have hplain : ∀ e ∈ sevenRegions.map writtenRegion, Plain e = true := by decide
  have hstores : StoresMap (extendedHeader (sevenRegions.map writtenRegion))
      [lastExtension ((sevenRegions.map writtenRegion).drop 4)] (sevenRegions.map writtenRegion) :=
    extendedHeader_stores (by decide) (by decide)
  rw [readGnuOldSparse_iff FileIstream.carries.refills hstores
    (List.forall₂_map_left_iff.2 (List.forall₂_same.2 hregions))
    (FileIstream.openFd_holds List.not_mem_nil) (Nat.le_refl 1)]
  exact .inl hplain

/-- A second region from `2 ^ 36` on is not read. -/
theorem readGnuOldSparse_cuts :
    StoresMap (headerOf [writtenRegion ⟨0, 512⟩, writtenRegion ⟨2 ^ 36, 512⟩]) []
        [writtenRegion ⟨0, 512⟩, writtenRegion ⟨2 ^ 36, 512⟩] ∧
      List.Forall₂ StoresRegion [writtenRegion ⟨0, 512⟩, writtenRegion ⟨2 ^ 36, 512⟩]
        [⟨0, 512⟩, ⟨2 ^ 36, 512⟩] ∧
      ¬ ReadsBack FileIstream.Holds [⟨0, 512⟩, ⟨2 ^ 36, 512⟩] []
        (readGnuOldSparse FileIstream.precache 0
          (headerOf [writtenRegion ⟨0, 512⟩, writtenRegion ⟨2 ^ 36, 512⟩])
          (FileIstream.openFd [] [])) := by
  have hstores : StoresMap (headerOf [writtenRegion ⟨0, 512⟩, writtenRegion ⟨2 ^ 36, 512⟩]) []
      [writtenRegion ⟨0, 512⟩, writtenRegion ⟨2 ^ 36, 512⟩] :=
    headerOf_stores (by decide) (by decide)
  have hregions : List.Forall₂ StoresRegion
      [writtenRegion ⟨0, 512⟩, writtenRegion ⟨2 ^ 36, 512⟩] [⟨0, 512⟩, ⟨2 ^ 36, 512⟩] :=
    .cons (by decide) (.cons (by decide) .nil)
  have hhold : FileIstream.Holds (FileIstream.openFd [] [])
    (([] : List (List UInt8)).flatten ++ []) :=
    FileIstream.openFd_holds List.not_mem_nil
  obtain ⟨strm', hread, -⟩ := readGnuOldSparse_ok FileIstream.carries.refills hstores hregions
    hhold (Nat.le_refl 0)
  have hlist : (taken 0 [writtenRegion ⟨0, 512⟩, writtenRegion ⟨2 ^ 36, 512⟩]).map regionOf =
      [⟨0, 512⟩] := by rfl
  refine ⟨hstores, hregions, ?_⟩
  rw [hread, List.length_nil, hlist, ReadsBack]
  simp

end ImageTool.Tar
