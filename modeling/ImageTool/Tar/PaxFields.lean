import ImageTool.Tar.PaxRecords
import Mathlib.Data.List.TakeWhile

/-!
# What the pairs of a PAX header say

The fields a pair sets, by its key alone, and what `read_pax_header` does with a pair whose value
fits.
-/

namespace ImageTool.Tar

open ImageTool.Lib ImageTool.Fstream ImageTool.Imgtool

/-! ## Values -/

/-- The number at the front of a value. -/
def number (value : List UInt8) : Nat := digitsValue 10 (decimalRun value)

/-- The number at the front of a value, with its sign. -/
def signedNumber : List UInt8 → Int
  | 0x2D :: value => -(number value : Int)
  | value => number value

/-- The attribute of a pair.  The older format has no code for special characters. -/
def xattrOf (pair : PaxPair) : Option Xattr :=
  if (ascii "SCHILY.xattr.").isPrefixOf pair.key then some ⟨pair.key.drop 13, pair.value⟩
  else if (ascii "LIBARCHIVE.xattr.").isPrefixOf pair.key then
    some ⟨cString (urldecode (pair.key.drop 17)), base64Decode pair.value⟩
  else none

/-- The text of a sparse map, with a comma behind each number but the last. -/
def sparseMapText : List (List UInt8 × List UInt8) → List UInt8
  | [] => []
  | [entry] => entry.1 ++ 0x2C :: entry.2
  | entry :: next :: entries =>
      entry.1 ++ 0x2C :: (entry.2 ++ 0x2C :: sparseMapText (next :: entries))

/-- The entries of a sparse map. -/
def sparseMapEntries (entries : List (List UInt8 × List UInt8)) : List SparseRegion :=
  entries.map fun entry => ⟨number entry.1, number entry.2⟩

/-- Digits of a number that fits into 64 bits. -/
structure FittingDigits (digits : List UInt8) : Prop where
  all : ∀ c ∈ digits, isDigitOf 10 c = true
  fits : number digits < 2 ^ 64

/-- A text that is a sparse map. -/
def IsSparseMap (value : List UInt8) (map : List SparseRegion) : Prop :=
  ∃ entries, entries ≠ [] ∧ value = sparseMapText entries ∧ map = sparseMapEntries entries ∧
    ∀ entry ∈ entries, FittingDigits entry.1 ∧ FittingDigits entry.2

/-- A pair whose value fits: only attributes have NULs, and numbers fit into their fields. -/
structure PaxPair.Fits (pair : PaxPair) : Prop where
  no_nul : xattrOf pair = none → 0 ∉ pair.value
  short : pair.key ∈ [ascii "uid", ascii "gid"] → number pair.value < 2 ^ 32
  long : pair.key ∈ [ascii "size", ascii "GNU.sparse.size", ascii "GNU.sparse.realsize", keyOffset,
    keyNumbytes] → number pair.value < 2 ^ 64
  mtime : pair.key = ascii "mtime" → -2 ^ 63 ≤ signedNumber pair.value ∧
    signedNumber pair.value < 2 ^ 63
  map : pair.key = keyMap → ∃ map, IsSparseMap pair.value map

/-- A pair without a time or a map fits if the number at its front does. -/
theorem PaxPair.fits_of_number {pair : PaxPair} (hnul : xattrOf pair = none → 0 ∉ pair.value)
    (hnumber : number pair.value < 2 ^ 32) (hmtime : pair.key ≠ ascii "mtime")
    (hmap : pair.key ≠ keyMap) : pair.Fits where
  no_nul := hnul
  short _ := hnumber
  long _ := Nat.lt_trans hnumber (by decide)
  mtime hkey := absurd hkey hmtime
  map hkey := absurd hkey hmap

/-- The fields of a header that are present once a key was read. -/
def presentFields : List (List UInt8 × Nat) :=
  [(ascii "path", flagName), (ascii "GNU.sparse.name", flagName),
    (ascii "linkpath", flagSlinkTarget), (ascii "size", flagSize), (ascii "uid", flagUid),
    (ascii "gid", flagGid), (ascii "mtime", flagMtime), (ascii "GNU.sparse.size", flagSparseSize),
    (ascii "GNU.sparse.realsize", flagSparseSize), (ascii "GNU.sparse.major", flagSparseGnu1X),
    (ascii "GNU.sparse.minor", flagSparseGnu1X)]

/-- The flag of the field with a key. -/
def presence (key : List UInt8) : Nat := (presentFields.lookup key).getD 0

/-- What a pair does to the sparse list. -/
def applySparse (s : PaxState) (pair : PaxPair) : List SparseRegion :=
  if pair.key = keyMap then (readSparseMap pair.value).getD []
  else if pair.key = keyNumbytes then
    (if s.sparseLast then s.out.sparse else []) ++ [⟨s.offset, number pair.value⟩]
  else s.out.sparse

/-- Comparing two keys byte by byte tells whether they are equal. -/
instance lawfulBEq_key : LawfulBEq (List UInt8) := inferInstance

/-- A field that the pairs with one of the keys set. -/
def setBy {α : Type} (keys : List (List UInt8)) (f : List UInt8 → α) (pair : PaxPair) (a : α) : α :=
  if pair.key ∈ keys then f pair.value else a

/-- The state after a pair, field by field. -/
def applied (s : PaxState) (pair : PaxPair) : PaxState where
  out :=
    { uid := setBy [ascii "uid"] number pair s.out.uid
      gid := setBy [ascii "gid"] number pair s.out.gid
      name := setBy [ascii "path", ascii "GNU.sparse.name"] some pair s.out.name
      linkTarget := setBy [ascii "linkpath"] some pair s.out.linkTarget
      sparse := applySparse s pair
      actualSize := setBy [ascii "GNU.sparse.size", ascii "GNU.sparse.realsize"] number pair
        s.out.actualSize
      recordSize := setBy [ascii "size"] number pair s.out.recordSize
      xattr := (xattrOf pair).toList ++ s.out.xattr
      mtime := setBy [ascii "mtime"] signedNumber pair s.out.mtime }
  setByPax := s.setByPax ||| presence pair.key
  offset := setBy [keyOffset] number pair s.offset
  sparseLast :=
    if pair.key = keyMap then false else if pair.key = keyNumbytes then true else s.sparseLast

/-! ## Numbers -/

theorem paxReadDecimal_of_lt {str : List UInt8} (h : number str < 2 ^ 64) :
    paxReadDecimal str = some (number str) := by
  rw [(paxReadDecimal_eq_iff str).2 (.inl h)]
  exact if_pos h

theorem takeWhile_digits {digits : List UInt8} (h : ∀ c ∈ digits, isDigitOf 10 c = true)
    {c : UInt8} (hc : isDigitOf 10 c = false) (rest : List UInt8) :
    (digits ++ c :: rest).takeWhile (isDigitOf 10) = digits := by
  rw [List.takeWhile_append_of_pos h, List.takeWhile_cons_of_neg (by simp [hc]), List.append_nil]

theorem number_of_digits {digits : List UInt8} (h : ∀ c ∈ digits, isDigitOf 10 c = true) :
    number digits = digitsValue 10 digits := by
  rw [number, decimalRun, List.takeWhile_eq_self_iff.2 h]

/-- A number with something else behind it. -/
theorem number_append {digits : List UInt8} (h : ∀ c ∈ digits, isDigitOf 10 c = true)
    {c : UInt8} (hc : isDigitOf 10 c = false) (rest : List UInt8) :
    number (digits ++ c :: rest) = number digits := by
  rw [number_of_digits h, number, decimalRun, takeWhile_digits h hc]

theorem dropWhile_digits {digits : List UInt8} (h : ∀ c ∈ digits, isDigitOf 10 c = true)
    {c : UInt8} (hc : isDigitOf 10 c = false) (rest : List UInt8) :
    (digits ++ c :: rest).dropWhile (isDigitOf 10) = c :: rest := by
  rw [List.dropWhile_append_of_pos h, List.dropWhile_cons_of_neg (by simp [hc])]

/-! ## Sparse maps -/

/-- An entry in front of whatever does not go on with its second number. -/
theorem sparseMapEntry_append {entry : List UInt8 × List UInt8} (hoffset : FittingDigits entry.1)
    (hcount : FittingDigits entry.2) {rest : List UInt8}
    (hrest : rest = [] ∨ ∃ more, rest = 0x2C :: more) :
    sparseMapEntry (entry.1 ++ 0x2C :: (entry.2 ++ rest)) =
      some (⟨number entry.1, number entry.2⟩, rest) := by
  have hcomma : isDigitOf 10 0x2C = false := by decide
  have hfirst : number (entry.1 ++ 0x2C :: (entry.2 ++ rest)) = number entry.1 :=
    number_append hoffset.all hcomma _
  have hsecond : number (entry.2 ++ rest) = number entry.2 ∧
      (entry.2 ++ rest).dropWhile (isDigitOf 10) = rest := by
    rcases hrest with rfl | ⟨more, rfl⟩
    · rw [List.append_nil]
      exact ⟨rfl, List.dropWhile_eq_nil_iff.2 hcount.all⟩
    · exact ⟨number_append hcount.all hcomma _, dropWhile_digits hcount.all hcomma _⟩
  have hfits := hoffset.fits
  have hfits' := hcount.fits
  rw [← hfirst] at hfits
  rw [← hsecond.1] at hfits'
  rw [sparseMapEntry, paxReadDecimal_of_lt hfits, dropWhile_digits hoffset.all hcomma]
  change (paxReadDecimal (entry.2 ++ rest)).map _ = _
  rw [paxReadDecimal_of_lt hfits', hsecond.1, hsecond.2, hfirst]
  rfl

theorem sparseMapLoop_text {entries : List (List UInt8 × List UInt8)} (hne : entries ≠ [])
    (hdigits : ∀ entry ∈ entries, FittingDigits entry.1 ∧ FittingDigits entry.2) {n : Nat}
    (hn : entries.length ≤ n) (list : List SparseRegion) :
    sparseMapLoop n (sparseMapText entries) list = some (list ++ sparseMapEntries entries) := by
  induction entries generalizing n list with
  | nil => exact absurd rfl hne
  | cons entry entries ih =>
      obtain ⟨n, rfl⟩ : ∃ k, n = k + 1 := Nat.exists_eq_add_one_of_ne_zero (by
        rw [List.length_cons] at hn
        omega)
      obtain ⟨hoffset, hcount⟩ := hdigits entry List.mem_cons_self
      cases entries with
      | nil =>
          have hentry := sparseMapEntry_append hoffset hcount (.inl rfl)
          rw [List.append_nil] at hentry
          rw [sparseMapText, sparseMapLoop, hentry]
          rfl
      | cons next entries =>
          have hentry := sparseMapEntry_append hoffset hcount
            (.inr ⟨sparseMapText (next :: entries), rfl⟩)
          rw [sparseMapText, sparseMapLoop, hentry]
          change sparseMapLoop n (sparseMapText (next :: entries)) (list ++ [_]) = _
          rw [ih (List.cons_ne_nil _ _)
            (fun later hlater => hdigits later (List.mem_cons_of_mem _ hlater))
            (Nat.le_of_succ_le_succ hn), List.append_assoc]
          rfl

theorem length_le_length_sparseMapText (entries : List (List UInt8 × List UInt8)) :
    entries.length ≤ (sparseMapText entries).length + 1 := by
  induction entries with
  | nil => exact Nat.zero_le _
  | cons entry entries ih =>
      cases entries with
      | nil => exact Nat.le_add_left ..
      | cons next entries =>
          simp only [sparseMapText, List.length_append, List.length_cons] at ih ⊢
          omega

/-- `read_sparse_map` gives the entries of a text that is a map. -/
theorem readSparseMap_of_isSparseMap {value : List UInt8} {map : List SparseRegion}
    (h : IsSparseMap value map) : readSparseMap value = some map := by
  obtain ⟨entries, hne, rfl, rfl, hdigits⟩ := h
  exact sparseMapLoop_text hne hdigits (length_le_length_sparseMapText entries) []

/-! ## A pair -/

variable {s : PaxState} {pair : PaxPair}

theorem cString_of_not_mem {value : List UInt8} (h : 0 ∉ value) : cString value = value := by
  have htake := takeWhile_ne_zero h []
  rwa [List.append_nil, List.takeWhile_nil, List.append_nil] at htake

theorem applyHandler_uint {out : DecodedHeader} {name key text : List UInt8} {flag : Nat}
    {cb : DecodedHeader → Nat → DecodedHeader} (bytes : List UInt8) (h : number text < 2 ^ 64) :
    applyHandler out ⟨name, flag, .uint cb⟩ key text bytes = some (cb out (number text)) := by
  unfold applyHandler
  dsimp only
  rw [paxReadDecimal_of_lt h]
  rfl

theorem applyHandler_sint {out : DecodedHeader} {name key text : List UInt8} {flag : Nat}
    {cb : DecodedHeader → Int → DecodedHeader} (bytes : List UInt8)
    (hlo : -2 ^ 63 ≤ signedNumber text) (hhi : signedNumber text < 2 ^ 63) :
    applyHandler out ⟨name, flag, .sint cb⟩ key text bytes = some (cb out (signedNumber text)) := by
  unfold applyHandler
  dsimp only
  split
  · rename_i rest
    change -2 ^ 63 ≤ -(number rest : Int) at hlo
    have hneg : int64 (-int64 (number rest)) = -(number rest : Int) := by
      by_cases hmin : number rest = 2 ^ 63
      · rw [hmin]
        decide
      · rw [int64_of_range (n := (number rest : Int)) (by omega) (by omega)]
        exact int64_of_range (by omega) (by omega)
    rw [paxReadDecimal_of_lt (by omega), Option.map_some, hneg]
    rfl
  · rename_i hplain
    have hsigned : signedNumber text = number text := by
      unfold signedNumber
      split
      · exact (hplain _ rfl).elim
      · rfl
    rw [hsigned] at hhi ⊢
    rw [paxReadDecimal_of_lt (by omega), Option.map_some, int64_of_range (by omega) hhi]

theorem handleRecord_of_find {key : List UInt8} {field : PaxHandler}
    (h : findHandler key = some field) (text bytes : List UInt8) :
    handleRecord s key text bytes = (applyHandler s.out field key text bytes).map fun out =>
      { s with out := out, setByPax := s.setByPax ||| field.flag } := by
  rw [handleRecord, h]

/-- The keys of `pax_fields` without those of attributes, and of the sparse list. -/
def knownKeys : List (List UInt8) :=
  [ascii "uid", ascii "gid", ascii "path", ascii "size", ascii "linkpath", ascii "mtime",
    ascii "GNU.sparse.name", ascii "GNU.sparse.size", ascii "GNU.sparse.realsize",
    ascii "GNU.sparse.major", ascii "GNU.sparse.minor", keyMap, keyOffset, keyNumbytes]

/-- An attribute is put in front of the list. -/
theorem handleRecord_xattr {x : Xattr} (h : xattrOf pair = some x) (text : List UInt8) :
    handleRecord s pair.key text pair.value = some (applied s pair) := by
  obtain ⟨key, value⟩ := pair
  unfold xattrOf at h
  split at h
  · rename_i hprefix
    obtain ⟨rest, rfl⟩ := List.isPrefixOf_iff_prefix.1 hprefix
    rw [handleRecord_of_find rfl]
    rfl
  · split at h
    · rename_i hprefix
      obtain ⟨rest, rfl⟩ := List.isPrefixOf_iff_prefix.1 hprefix
      rw [handleRecord_of_find rfl]
      rfl
    · cases h

/-- A field is the one for a known key or for attributes. -/
theorem field_cases {field : PaxHandler} (h : field ∈ paxFields) :
    field.name ∈ knownKeys ∧ (∀ key, field.handles key = true → key = field.name) ∨
      ∀ key value, field.handles key = true → xattrOf ⟨key, value⟩ ≠ none := by
  have hschily : ∀ key value, (ascii "SCHILY.xattr.").isPrefixOf key = true →
      xattrOf ⟨key, value⟩ ≠ none := by
    intro key value hprefix
    rw [xattrOf, if_pos hprefix]
    exact nofun
  have hlibarchive : ∀ key value, (ascii "LIBARCHIVE.xattr.").isPrefixOf key = true →
      xattrOf ⟨key, value⟩ ≠ none := by
    intro key value hprefix
    unfold xattrOf
    split
    · exact nofun
    · exact nofun
  have hnamed : ∀ field ∈ paxFields.take 11, field.name ∈ knownKeys ∧
      ∀ key, field.handles key = (key == field.name) := by
    simp [paxFields, knownKeys, PaxHandler.handles]
  have hattributes : ∀ field ∈ paxFields.drop 11, field = ⟨ascii "SCHILY.xattr", 0,
      .prefixedXattr paxXattrSchily⟩ ∨ field = ⟨ascii "LIBARCHIVE.xattr", 0,
        .prefixedXattr paxXattrLibarchive⟩ := by
    simp [paxFields]
  rw [← List.take_append_drop 11 paxFields, List.mem_append] at h
  rcases h with hfirst | hlast
  · obtain ⟨hname, hhandles⟩ := hnamed field hfirst
    refine .inl ⟨hname, fun key hkey => ?_⟩
    rw [hhandles] at hkey
    exact eq_of_beq hkey
  · rcases hattributes field hlast with rfl | rfl
    · exact .inr hschily
    · exact .inr hlibarchive

theorem presentFields_known : ∀ field ∈ presentFields, field.1 ∈ knownKeys := by
  decide

/-- A key that has no meaning changes nothing. -/
theorem handleRecord_unknown (hkey : pair.key ∉ knownKeys) (hxattr : xattrOf pair = none)
    (text : List UInt8) : handleRecord s pair.key text pair.value = some (applied s pair) := by
  obtain ⟨key, value⟩ := pair
  have hfind : findHandler key = none := by
    rw [findHandler, List.find?_eq_none]
    intro field hfield hhandles
    rcases field_cases hfield with ⟨hname, heq⟩ | hxattrs
    · rw [← heq key hhandles] at hname
      exact hkey hname
    · exact hxattrs key value hhandles hxattr
  have hpresence : presence key = 0 := by
    have hnone : presentFields.lookup key = none := by
      rw [List.lookup_eq_none_iff]
      rintro ⟨name, flag⟩ hmem
      rw [bne_iff_ne]
      rintro rfl
      exact hkey (presentFields_known _ hmem)
    rw [presence, hnone]
    rfl
  simp only [knownKeys, List.mem_cons, List.not_mem_nil, or_false, not_or] at hkey
  unfold handleRecord applied applySparse setBy
  rw [hfind]
  simp [*]

/-- A number for one of the fields of 64 bits. -/
theorem handleRecord_uint {key value : List UInt8} {field : PaxHandler}
    {cb : DecodedHeader → Nat → DecodedHeader} (h : number value < 2 ^ 64)
    (hfind : findHandler key = some field) (hcb : field.cb = .uint cb) :
    handleRecord s key value value =
      some { s with out := cb s.out (number value), setByPax := s.setByPax ||| field.flag } := by
  obtain ⟨name, flag, callback⟩ := field
  cases hcb
  rw [handleRecord_of_find hfind, applyHandler_uint _ h]
  rfl

theorem handleRecord_map {value : List UInt8} {map : List SparseRegion}
    (h : IsSparseMap value map) :
    handleRecord s keyMap value value = some (applied s ⟨keyMap, value⟩) := by
  have hread := readSparseMap_of_isSparseMap h
  have happlied : applied s ⟨keyMap, value⟩ =
      { s with
        out := { s.out with sparse := (readSparseMap value).getD [] }
        setByPax := s.setByPax ||| 0
        sparseLast := false } := rfl
  change (readSparseMap value).map _ = _
  rw [happlied, hread, Nat.or_zero]
  rfl

theorem handleRecord_offset {value : List UInt8} (h : number value < 2 ^ 64) :
    handleRecord s keyOffset value value = some (applied s ⟨keyOffset, value⟩) := by
  have happlied : applied s ⟨keyOffset, value⟩ =
      { s with setByPax := s.setByPax ||| 0, offset := number value } := rfl
  change (paxReadDecimal value).map _ = _
  rw [happlied, paxReadDecimal_of_lt h, Nat.or_zero]
  rfl

theorem handleRecord_numbytes {value : List UInt8} (h : number value < 2 ^ 64) :
    handleRecord s keyNumbytes value value = some (applied s ⟨keyNumbytes, value⟩) := by
  have happlied : applied s ⟨keyNumbytes, value⟩ =
      { s with
        out := { s.out with
          sparse := (if s.sparseLast then s.out.sparse else []) ++ [⟨s.offset, number value⟩] }
        setByPax := s.setByPax ||| 0
        sparseLast := true } := rfl
  change (paxReadDecimal value).map _ = _
  rw [happlied, paxReadDecimal_of_lt h, Nat.or_zero, Option.map_some, addSparse]
  split <;> rfl

theorem handleRecord_known (h : pair.Fits) (hknown : pair.key ∈ knownKeys) :
    handleRecord s pair.key pair.value pair.value = some (applied s pair) := by
  obtain ⟨key, value⟩ := pair
  obtain ⟨-, hshort, hlong, hmtime, hmap⟩ := h
  have hu32 : key ∈ [ascii "uid", ascii "gid"] → u32 (number value) = number value :=
    fun hkey => u32_of_lt (hshort hkey)
  have hbound : key ∈ [ascii "uid", ascii "gid"] → number value < 2 ^ 64 :=
    fun hkey => Nat.lt_trans (hshort hkey) (by decide)
  simp only [knownKeys, List.mem_cons, List.not_mem_nil, or_false] at hknown
  rcases hknown with rfl | rfl | rfl | rfl | rfl | rfl | rfl | rfl | rfl | rfl | rfl | rfl | rfl |
    rfl
  · rw [handleRecord_uint (hbound (by simp)) rfl rfl, paxUid, hu32 (by simp)]
    rfl
  · rw [handleRecord_uint (hbound (by simp)) rfl rfl, paxGid, hu32 (by simp)]
    rfl
  · rw [handleRecord_of_find rfl]
    rfl
  · rw [handleRecord_uint (hlong (by simp)) rfl rfl]
    rfl
  · rw [handleRecord_of_find rfl]
    rfl
  · obtain ⟨hlo, hhi⟩ := hmtime rfl
    rw [handleRecord_of_find rfl, applyHandler_sint _ hlo hhi]
    rfl
  · rw [handleRecord_of_find rfl]
    rfl
  · rw [handleRecord_uint (hlong (by simp)) rfl rfl]
    rfl
  · rw [handleRecord_uint (hlong (by simp)) rfl rfl]
    rfl
  · rw [handleRecord_of_find rfl]
    rfl
  · rw [handleRecord_of_find rfl]
    rfl
  · obtain ⟨map, hvalue⟩ := hmap rfl
    exact handleRecord_map hvalue
  · exact handleRecord_offset (hlong (by simp))
  · exact handleRecord_numbytes (hlong (by simp))

/-- A pair that fits is handled. -/
theorem handleRecord_applied (h : pair.Fits) :
    handleRecord s pair.key (cString pair.value) pair.value = some (applied s pair) := by
  by_cases hxattr : xattrOf pair = none
  · by_cases hknown : pair.key ∈ knownKeys
    · rw [cString_of_not_mem (h.no_nul hxattr)]
      exact handleRecord_known h hknown
    · exact handleRecord_unknown hknown hxattr _
  · obtain ⟨x, hx⟩ := Option.ne_none_iff_exists'.1 hxattr
    exact handleRecord_xattr hx _

end ImageTool.Tar
