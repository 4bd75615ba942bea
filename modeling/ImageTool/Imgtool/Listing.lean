import ImageTool.Imgtool.ListingLine
import ImageTool.Lib.Call
import Mathlib.Data.List.Forall2

/-!
# A file listing as a file source

Entries are stored in a chain of pools of a fixed size, each in the first pool with room
for it, and read back pool by pool.
-/

namespace ImageTool.Imgtool

open ImageTool.Lib

/-- The size of the buffer of a pool. -/
def poolSize : Nat := 1024

/-- `pool_t`: the bytes of the buffer that are in use. -/
structure Pool where
  buffer : List UInt8
  fits : buffer.length ≤ poolSize

/-- What a listing has besides the directory its files are in. -/
structure Listing where
  offset : Nat
  poolList : List Pool

/-- An entry with lengths that fit into their fields. -/
structure ListingEntry.Short (e : ListingEntry) : Prop where
  nameNonempty : e.name ≠ []
  nameLength : e.name.length ≤ 287
  target : ∀ target, e.target = some target → target.length ≤ 256
  file : e.type = .file → ∀ target, e.target = some target → target.length ≤ 255

theorem ListingEntry.Parsed.fits {e : ListingEntry} (h : e.Parsed) (hshort : e.Short) :
    e.Fits where
  uid := h.uid
  gid := h.gid
  mode := h.mode
  devno := h.devno
  nameNonempty := hshort.nameNonempty
  nameLength := hshort.nameLength
  nameString := h.name
  targetString := h.target
  link hlink := by
    obtain ⟨target, htarget, hne⟩ := h.link hlink
    exact ⟨target, htarget, hne, hshort.target target htarget⟩
  file := hshort.file

/-- Such an entry is shorter than a pool. -/
theorem ListingEntry.Short.size_le {e : ListingEntry} (h : e.Short) :
    getEncodedSize e ≤ 557 := by
  have hname := h.nameLength
  have htarget : (e.target.getD []).length ≤ 256 := by
    cases htarget : e.target with
    | none => exact Nat.zero_le _
    | some target => exact h.target target htarget
  have hwidth : ∀ id, widthOf id ≤ 4 := by
    intro id
    unfold widthOf
    split
    · decide
    · split <;> decide
  have huid := hwidth e.uid
  have hgid := hwidth e.gid
  have hextra : extraSize e ≤ 257 := by
    unfold extraSize
    cases e.type with
    | symlink => exact Nat.add_le_add_left htarget 1
    | hardLink => exact Nat.add_le_add_left htarget 1
    | file => exact Nat.add_le_add_left htarget 1
    | dir => exact Nat.zero_le _
    | fifo => exact Nat.zero_le _
    | socket => exact Nat.zero_le _
    | charDev => exact Nat.le_of_ble_eq_true rfl
    | blockDev => exact Nat.le_of_ble_eq_true rfl
  have howner : (if e.type ≠ .hardLink then
      if e.uid ≤ 0x0F ∧ e.gid ≤ 0x0F then 1 else widthOf e.uid + widthOf e.gid else 0) ≤ 8 := by
    split
    · split
      · decide
      · omega
    · decide
  have hmode : (if e.type ≠ .hardLink ∧ e.type ≠ .symlink then 1 else 0) ≤ 1 := by
    split <;> decide
  have hlong : (if e.name.length > 31 then 1 else 0) ≤ 1 := by
    split <;> decide
  unfold getEncodedSize
  dsimp only
  omega

namespace Listing

/-- A new pool. -/
def emptyPool : Pool := ⟨[], Nat.zero_le _⟩

/-- `get_pool`: which pool to use, and the list it is in. -/
def getPool (size : Nat) : List Pool → Nat × List Pool
  | [] => (0, [emptyPool])
  | p :: pools =>
      if poolSize - p.buffer.length ≥ size then (0, p :: pools)
      else ((getPool size pools).1 + 1, p :: (getPool size pools).2)

/-- Write behind the bytes in use, unless that is past the end of the buffer. -/
def write (p : Pool) (bytes : List UInt8) : Option Pool :=
  if h : (p.buffer ++ bytes).length ≤ poolSize then some ⟨p.buffer ++ bytes, h⟩ else none

/-- The end of `add_line`. -/
def addEntry (e : ListingEntry) : Call Listing Unit := fun listing =>
  let pool := getPool (getEncodedSize e) listing.poolList
  match (pool.2[pool.1]?).bind fun p => write p (encodeEntry e) with
  | none => .stuck
  | some p => .ok () { listing with poolList := pool.2.set pool.1 p }

/-- `add_line`. -/
def addLine (line : List UInt8) : Call Listing Unit :=
  match parseLine line with
  | .error _ => Call.fail
  | .ok e => addEntry e

/-- `add_line`, line after line. -/
def addLines : List (List UInt8) → Call Listing Unit
  | [] => pure ()
  | line :: lines => do
      addLine line
      addLines lines

/-- The pool an offset into all of them is in, and the offset into that one. -/
def findPool : Nat → List Pool → Option (Pool × Nat)
  | _, [] => none
  | offset, p :: pools =>
      if offset < p.buffer.length then some (p, offset)
      else findPool (offset - p.buffer.length) pools

/-- `get_next_record`, without a stream to be returned; the end answers `none`. -/
def getNextRecord : Call Listing (Option FileSourceRecord) := fun listing =>
  match findPool listing.offset listing.poolList with
  | none => .ok none listing
  | some (p, offset) =>
      match decodeEntry (p.buffer ++ List.replicate (poolSize - p.buffer.length) 0) offset with
      | none => .stuck
      | some (record, offset') =>
          .ok (some record) { listing with offset := listing.offset + (offset' - offset) }

/-- Records until the end. -/
def drain : Nat → Call Listing (List FileSourceRecord)
  | 0 => Call.stuck
  | fuel + 1 => do
      match ← getNextRecord with
      | none => pure []
      | some record => do
          let records ← drain fuel
          pure (record :: records)

/-- `file_source_listing_create`. -/
def create : Listing := ⟨0, []⟩

/-! ## Which entry is where -/

/-- The bytes of some entries. -/
def encodeAll (group : List ListingEntry) : List UInt8 := group.flatMap encodeEntry

/-- Entries by the pool they are in, with one more of them: it goes to the first pool that
has room for it. -/
def place (e : ListingEntry) : List (List ListingEntry) → List (List ListingEntry)
  | [] => [[e]]
  | group :: groups =>
      if (encodeAll group).length + getEncodedSize e ≤ poolSize then (group ++ [e]) :: groups
      else group :: place e groups

/-- The entries of some lines by the pool they are in. -/
def placeAll (entries : List ListingEntry) : List (List ListingEntry) :=
  entries.foldl (fun groups e => place e groups) []

/-- The pools hold these entries. -/
def Holds (pools : List Pool) (groups : List (List ListingEntry)) : Prop :=
  pools.map Pool.buffer = groups.map encodeAll

theorem holds_cons {p : Pool} {pools : List Pool} {group : List ListingEntry}
    {groups : List (List ListingEntry)} :
    Holds (p :: pools) (group :: groups) ↔ p.buffer = encodeAll group ∧ Holds pools groups :=
  List.cons_eq_cons

theorem encodeAll_append (group group' : List ListingEntry) :
    encodeAll (group ++ group') = encodeAll group ++ encodeAll group' := List.flatMap_append

theorem encodeAll_singleton (e : ListingEntry) : encodeAll [e] = encodeEntry e := by
  unfold encodeAll
  rw [List.flatMap_singleton]

theorem place_perm (e : ListingEntry) (groups : List (List ListingEntry)) :
    (place e groups).flatten.Perm (e :: groups.flatten) := by
  induction groups with
  | nil => exact .refl _
  | cons group groups ih =>
      unfold place
      split
      · rw [List.flatten_cons, List.flatten_cons, List.append_assoc]
        exact List.perm_middle
      · rw [List.flatten_cons, List.flatten_cons]
        exact (ih.append_left group).trans List.perm_middle

/-- Every entry is in one pool. -/
theorem placeAll_perm (entries : List ListingEntry) :
    (placeAll entries).flatten.Perm entries := by
  have hgroups : ∀ groups, (entries.foldl (fun groups e => place e groups) groups).flatten.Perm
      (entries ++ groups.flatten) := by
    induction entries with
    | nil => exact fun groups => .refl _
    | cons e entries ih =>
        intro groups
        have hplace := (place_perm e groups).append_left entries
        exact (ih (place e groups)).trans (hplace.trans List.perm_middle)
  have hnil := hgroups []
  rwa [List.flatten_nil, List.append_nil] at hnil

/-- Entries that fit into one pool stay in order. -/
theorem placeAll_inOrder {entries : List ListingEntry}
    (h : (encodeAll entries).length ≤ poolSize) : (placeAll entries).flatten = entries := by
  have hgroup : ∀ group, (encodeAll (group ++ entries)).length ≤ poolSize →
      entries.foldl (fun groups e => place e groups) [group] = [group ++ entries] := by
    clear h
    induction entries with
    | nil =>
        intro group _
        rw [List.append_nil]
        rfl
    | cons e entries ih =>
        intro group hlen
        have hassoc : group ++ e :: entries = group ++ [e] ++ entries := by
          rw [List.append_assoc]
          rfl
        rw [hassoc] at hlen ⊢
        have hfirst : (encodeAll group).length + getEncodedSize e ≤ poolSize := by
          rw [encodeAll_append, encodeAll_append, encodeAll_singleton, List.length_append,
            List.length_append, length_encodeEntry] at hlen
          omega
        rw [List.foldl_cons, place, if_pos hfirst]
        exact ih (group ++ [e]) hlen
  cases entries with
  | nil => rfl
  | cons e entries =>
      have hplaced := hgroup [] h
      rw [List.nil_append] at hplaced
      change (entries.foldl (fun groups e => place e groups) [[e]]).flatten = _
      have hfirst : (encodeAll []).length + getEncodedSize e ≤ poolSize := by
        have hlen := h
        rw [← List.singleton_append, encodeAll_append, encodeAll_singleton, List.length_append,
          length_encodeEntry] at hlen
        exact Nat.le_trans (Nat.le_of_eq (Nat.zero_add _)) (Nat.le_trans (Nat.le_add_right ..) hlen)
      rw [List.foldl_cons, place, if_pos hfirst] at hplaced
      change (entries.foldl (fun groups e => place e groups) [[] ++ [e]]).flatten = _
      rw [hplaced, List.flatten_singleton]

/-! ## Storing entries -/

/-- An entry as short as its pool is written to the first pool with room. -/
theorem write_getPool {e : ListingEntry} (hsize : getEncodedSize e ≤ poolSize)
    {pools : List Pool} {groups : List (List ListingEntry)} (h : Holds pools groups) :
    ∃ p p', (getPool (getEncodedSize e) pools).2[(getPool (getEncodedSize e) pools).1]? =
        some p ∧ write p (encodeEntry e) = some p' ∧
      Holds ((getPool (getEncodedSize e) pools).2.set (getPool (getEncodedSize e) pools).1 p')
        (place e groups) := by
  induction pools generalizing groups with
  | nil =>
      obtain rfl : groups = [] := by
        cases groups with
        | nil => rfl
        | cons group groups => cases h
      have hfits : ([] ++ encodeEntry e).length ≤ poolSize := by
        rw [List.nil_append, length_encodeEntry]
        exact hsize
      refine ⟨emptyPool, ⟨[] ++ encodeEntry e, hfits⟩, rfl, dif_pos hfits, ?_⟩
      exact holds_cons.2 ⟨(encodeAll_singleton e).symm, rfl⟩
  | cons p pools ih =>
      cases groups with
      | nil => cases h
      | cons group groups =>
          obtain ⟨hbuffer, hpools⟩ := holds_cons.1 h
          have hroom : poolSize - p.buffer.length ≥ getEncodedSize e ↔
              (encodeAll group).length + getEncodedSize e ≤ poolSize := by
            have hfits := p.fits
            rw [← hbuffer]
            omega
          unfold getPool place
          by_cases hplace : (encodeAll group).length + getEncodedSize e ≤ poolSize
          · rw [if_pos hplace, if_pos (hroom.2 hplace)]
            have hfits : (p.buffer ++ encodeEntry e).length ≤ poolSize := by
              rw [List.length_append, length_encodeEntry, hbuffer]
              exact hplace
            refine ⟨p, ⟨p.buffer ++ encodeEntry e, hfits⟩, rfl, dif_pos hfits, ?_⟩
            apply holds_cons.2
            refine ⟨?_, hpools⟩
            rw [encodeAll_append, encodeAll_singleton, ← hbuffer]
          · rw [if_neg hplace, if_neg (mt hroom.1 hplace)]
            obtain ⟨q, q', hget, hwrite, hholds⟩ := ih hpools
            exact ⟨q, q', hget, hwrite, holds_cons.2 ⟨hbuffer, hholds⟩⟩

theorem addEntry_holds {e : ListingEntry} (hsize : getEncodedSize e ≤ poolSize)
    {listing : Listing} {groups : List (List ListingEntry)} (h : Holds listing.poolList groups) :
    ∃ pools, addEntry e listing = .ok () { listing with poolList := pools } ∧
      Holds pools (place e groups) := by
  obtain ⟨p, p', hget, hwrite, hholds⟩ := write_getPool hsize h
  refine ⟨_, ?_, hholds⟩
  unfold addEntry
  simp only [hget, Option.bind_some, hwrite]

/-- No entry is written past the end of its pool, and each is where it is placed. -/
theorem addLines_holds {lines : List (List UInt8)} {entries : List ListingEntry}
    (hlines : List.Forall₂ (fun line e => parseLine line = .ok e) lines entries)
    (hshort : ∀ e ∈ entries, e.Short) (listing : Listing) {groups : List (List ListingEntry)}
    (h : Holds listing.poolList groups) :
    ∃ pools, addLines lines listing = .ok () { listing with poolList := pools } ∧
      Holds pools (entries.foldl (fun groups e => place e groups) groups) := by
  induction hlines generalizing listing groups with
  | nil => exact ⟨listing.poolList, rfl, h⟩
  | @cons line e lines entries hline _ ih =>
      have hsize : getEncodedSize e ≤ poolSize :=
        Nat.le_trans (hshort e List.mem_cons_self).size_le (by decide)
      obtain ⟨pools, hadd, hplaced⟩ := addEntry_holds hsize h
      obtain ⟨pools', hmore, hholds⟩ :=
        ih (fun e he => hshort e (List.mem_cons_of_mem _ he)) { listing with poolList := pools }
          hplaced
      refine ⟨pools', ?_, hholds⟩
      have haddLine : addLine line listing = .ok () { listing with poolList := pools } := by
        unfold addLine
        rw [hline]
        exact hadd
      change (addLine line listing).bind _ = _
      rw [haddLine]
      exact hmore

/-! ## Reading them back -/

theorem length_encodeEntry_pos (e : ListingEntry) : 0 < (encodeEntry e).length := by
  unfold encodeEntry
  exact Nat.zero_lt_succ _

/-- The offset behind some of the entries is that of the next one. -/
theorem findPool_next {pools : List Pool} {groups : List (List ListingEntry)}
    (h : Holds pools groups) {passed rest : List ListingEntry} {e : ListingEntry}
    (hall : groups.flatten = passed ++ e :: rest) :
    ∃ p offset more, findPool (encodeAll passed).length pools = some (p, offset) ∧
      p.buffer.drop offset = encodeEntry e ++ more ∧ offset ≤ p.buffer.length := by
  induction groups generalizing pools passed with
  | nil => cases passed <;> cases hall
  | cons group groups ih =>
      cases pools with
      | nil => cases h
      | cons p pools =>
          obtain ⟨hbuffer, hpools⟩ := holds_cons.1 h
          have hbehind : ∀ passed', passed = group ++ passed' →
              groups.flatten = passed' ++ e :: rest → ∃ q offset more,
                findPool (encodeAll passed).length (p :: pools) = some (q, offset) ∧
                  q.buffer.drop offset = encodeEntry e ++ more ∧ offset ≤ q.buffer.length := by
            intro passed' hpassed hrest
            obtain ⟨q, offset, more, hfind, hdrop, hle⟩ := ih hpools hrest
            refine ⟨q, offset, more, ?_, hdrop, hle⟩
            have hlen : (encodeAll passed).length =
                p.buffer.length + (encodeAll passed').length := by
              rw [hpassed, encodeAll_append, List.length_append, hbuffer]
            rw [findPool, hlen, if_neg (Nat.not_lt.2 (Nat.le_add_right ..)),
              Nat.add_sub_cancel_left]
            exact hfind
          rw [List.flatten_cons] at hall
          rcases List.append_eq_append_iff.1 hall with ⟨passed', hpassed, hrest⟩ | hinside
          · exact hbehind passed' hpassed hrest
          · obtain ⟨group', hgroup, hrest⟩ := hinside
            cases group' with
            | nil =>
                apply hbehind [] _ hrest.symm
                rw [hgroup, List.append_nil, List.append_nil]
            | cons e' group' =>
                cases hrest
                have hsplit : p.buffer =
                    encodeAll passed ++ (encodeEntry e ++ encodeAll group') := by
                  rw [hbuffer, hgroup, encodeAll_append]
                  rfl
                have hpos := length_encodeEntry_pos e
                have hlen := congrArg List.length hsplit
                rw [List.length_append, List.length_append] at hlen
                refine ⟨p, (encodeAll passed).length, encodeAll group', ?_, ?_, by omega⟩
                · rw [findPool, if_pos (by omega)]
                · rw [hsplit, List.drop_left]

/-- The offset behind all entries is that of the end. -/
theorem findPool_end {pools : List Pool} {groups : List (List ListingEntry)}
    (h : Holds pools groups) : findPool (encodeAll groups.flatten).length pools = none := by
  induction groups generalizing pools with
  | nil =>
      obtain rfl : pools = [] := by
        cases pools with
        | nil => rfl
        | cons p pools => cases h
      rfl
  | cons group groups ih =>
      cases pools with
      | nil => cases h
      | cons p pools =>
          obtain ⟨hbuffer, hpools⟩ := holds_cons.1 h
          rw [List.flatten_cons, encodeAll_append, List.length_append, ← hbuffer, findPool,
            if_neg (Nat.not_lt.2 (Nat.le_add_right ..)), Nat.add_sub_cancel_left]
          exact ih hpools

theorem getNextRecord_next {listing : Listing} {groups : List (List ListingEntry)}
    (h : Holds listing.poolList groups) {passed rest : List ListingEntry} {e : ListingEntry}
    (hall : groups.flatten = passed ++ e :: rest) (he : e.Fits)
    (hoffset : listing.offset = (encodeAll passed).length) :
    getNextRecord listing = .ok (some e.record)
      { listing with offset := (encodeAll (passed ++ [e])).length } := by
  obtain ⟨p, offset, more, hfind, hdrop, hle⟩ := findPool_next h hall
  have hread := reads_decodeEntry he
    (p.buffer ++ List.replicate (poolSize - p.buffer.length) 0) offset
    (more ++ List.replicate (poolSize - p.buffer.length) 0) (by
      rw [List.drop_append_of_le_length hle, hdrop, List.append_assoc])
  have hnext : listing.offset + (offset + (encodeEntry e).length - offset) =
      (encodeAll (passed ++ [e])).length := by
    rw [Nat.add_sub_cancel_left, encodeAll_append, encodeAll_singleton, List.length_append, hoffset]
  unfold getNextRecord
  rw [hoffset, hfind]
  dsimp only
  rw [hread, ← hoffset]
  dsimp only
  rw [hnext]

theorem getNextRecord_end {listing : Listing} {groups : List (List ListingEntry)}
    (h : Holds listing.poolList groups)
    (hoffset : listing.offset = (encodeAll groups.flatten).length) :
    getNextRecord listing = .ok none listing := by
  unfold getNextRecord
  rw [hoffset, findPool_end h]

theorem drain_holds {groups : List (List ListingEntry)} (rest passed : List ListingEntry)
    (fuel : Nat) (hfuel : rest.length < fuel) (listing : Listing)
    (h : Holds listing.poolList groups) (hall : groups.flatten = passed ++ rest)
    (hfits : ∀ e ∈ rest, e.Fits) (hoffset : listing.offset = (encodeAll passed).length) :
    ∃ listing', drain fuel listing = .ok (rest.map ListingEntry.record) listing' := by
  induction rest generalizing passed fuel listing with
  | nil =>
      obtain ⟨fuel, rfl⟩ := Nat.exists_eq_succ_of_ne_zero (Nat.ne_of_gt hfuel)
      rw [List.append_nil] at hall
      rw [← hall] at hoffset
      refine ⟨listing, ?_⟩
      change (getNextRecord listing).bind _ = _
      rw [getNextRecord_end h hoffset]
      rfl
  | cons e rest ih =>
      obtain ⟨fuel, rfl⟩ := Nat.exists_eq_succ_of_ne_zero (Nat.ne_of_gt (Nat.lt_of_le_of_lt
        (Nat.zero_le _) hfuel))
      have hnext := getNextRecord_next h hall (hfits e List.mem_cons_self) hoffset
      have hall' : groups.flatten = (passed ++ [e]) ++ rest := by
        rw [hall, List.append_assoc]
        rfl
      obtain ⟨listing', hdrain⟩ := ih (passed ++ [e]) fuel (Nat.lt_of_succ_lt_succ hfuel)
        { listing with offset := (encodeAll (passed ++ [e])).length } h hall'
        (fun e he => hfits e (List.mem_cons_of_mem _ he)) rfl
      refine ⟨listing', ?_⟩
      change (getNextRecord listing).bind _ = _
      rw [hnext]
      change (drain fuel _).bind _ = _
      rw [hdrain]
      rfl

/-- Of lines that are accepted, with lengths that fit, no entry is written past the end of
its pool, and draining the listing yields one record for each: pool by pool, where an entry
is in the first pool that had room for it, and in the order of the lines within a pool. -/
theorem drain_addLines (lines : List (List UInt8)) (entries : List ListingEntry)
    (hstring : ∀ line ∈ lines, 0 ∉ line)
    (hlines : List.Forall₂ (fun line e => parseLine line = .ok e) lines entries)
    (hshort : ∀ e ∈ entries, e.Short) (fuel : Nat) (hfuel : entries.length < fuel) :
    (∃ listing listing', addLines lines create = .ok () listing ∧
      drain fuel listing = .ok ((placeAll entries).flatten.map ListingEntry.record) listing') ∧
    (placeAll entries).flatten.Perm entries ∧
    ((encodeAll entries).length ≤ poolSize → (placeAll entries).flatten = entries) := by
  have hparsed : ∀ e ∈ entries, e.Parsed := by
    clear hshort hfuel
    induction hlines with
    | nil => exact nofun
    | @cons line e lines entries hline _ ih =>
        intro e' he'
        rcases List.mem_cons.1 he' with rfl | he'
        · exact parseLine_parsed hline (hstring line List.mem_cons_self)
        · exact ih (fun line hline => hstring line (List.mem_cons_of_mem _ hline)) e' he'
  have hperm := placeAll_perm entries
  have hnone : Holds create.poolList [] := rfl
  obtain ⟨pools, hadd, hholds⟩ := addLines_holds hlines hshort create hnone
  have hfits : ∀ e ∈ (placeAll entries).flatten, e.Fits := by
    intro e he
    have hmem := hperm.mem_iff.1 he
    exact (hparsed e hmem).fits (hshort e hmem)
  obtain ⟨listing', hdrain⟩ := drain_holds (placeAll entries).flatten [] fuel
    (by rwa [hperm.length_eq]) { create with poolList := pools } hholds rfl hfits rfl
  exact ⟨⟨_, listing', hadd, hdrain⟩, hperm, placeAll_inOrder⟩

/-- A line of each of five kinds. -/
def fiveLines : List (List UInt8) :=
  [ascii "dir /usr 0755 0 0", ascii "file usr/hello 0644 1000 20 hello.txt",
    ascii "nod dev/console 0600 0 5 c 5 1", ascii "slink /bin 0777 0 20 usr",
    ascii "link usr/hi 0644 0 0 usr/hello"]

/-- What they say. -/
def fiveEntries : List ListingEntry :=
  [⟨.dir, 0, 0, 0o755, ascii "usr", none, 0⟩,
    ⟨.file, 1000, 20, 0o644, ascii "usr/hello", some (ascii "hello.txt"), 0⟩,
    ⟨.charDev, 0, 5, 0o600, ascii "dev/console", none, 1281⟩,
    ⟨.symlink, 0, 20, 0o777, ascii "bin", some (ascii "usr"), 0⟩,
    ⟨.hardLink, 0, 0, 0o644, ascii "usr/hi", some (ascii "usr/hello"), 0⟩]

theorem drain_addLines_five :
    ∃ listing listing', addLines fiveLines create = .ok () listing ∧
      drain 6 listing = .ok (fiveEntries.map ListingEntry.record) listing' := by
  have hshort : ∀ e ∈ fiveEntries, e.Short := by
    have htarget : ∀ e ∈ fiveEntries, ∀ target, e.target = some target → target.length ≤ 255 := by
      simp only [fiveEntries, List.forall_mem_cons, Option.some.injEq, forall_eq', reduceCtorEq,
        false_implies, implies_true, true_and]
      decide
    intro e he
    refine ⟨?_, ?_, fun target h => Nat.le_succ_of_le (htarget e he target h),
      fun _ => htarget e he⟩
    · revert e
      decide
    · revert e
      decide
  obtain ⟨hdrain, -, horder⟩ := drain_addLines fiveLines fiveEntries (by decide)
    (.cons rfl (.cons rfl (.cons rfl (.cons rfl (.cons rfl .nil))))) hshort 6 (by decide)
  rw [horder (by decide)] at hdrain
  exact hdrain

/-- A line for a directory. -/
def dirLine (name : List UInt8) : List UInt8 := ascii "dir " ++ name ++ ascii " 0755 0 0"

/-- The fifth of five lines fits into the first pool and the fourth does not: it is read
before the fourth.  Of a name of 288 bytes 32 are read back, and of a target of 257 bytes
one.  A name of 1100 bytes is written past the end of the pool. -/
theorem addLines_limits :
    (((addLines ([97, 98, 99, 100].map (fun c => dirLine (List.replicate 280 c)) ++
        [dirLine [101]]) create).bind fun _ => drain 6).val?.map fun records =>
      records.map fun record => record.fullPath.head?) =
        some [some 97, some 98, some 99, some 101, some 100] ∧
    (((addLines [dirLine (List.replicate 288 97)] create).bind fun _ => getNextRecord).val?.map
      fun record => record.map fun record => record.fullPath.length) = some (some 32) ∧
    (((addLines [ascii "slink a 0777 0 0 " ++ List.replicate 257 98] create).bind fun _ =>
      getNextRecord).val?.map fun record => record.map fun record => record.linkTarget) =
        some (some (some [98])) ∧
    (parseLine (dirLine (List.replicate 1100 97))).toOption.isSome = true ∧
      (addLines [dirLine (List.replicate 1100 97)] create).state?.isNone = true := by
  decide +kernel

end Listing

end ImageTool.Imgtool
