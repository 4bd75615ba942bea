import ImageTool.Lib.Numeral
import ImageTool.Imgtool.TarIstream
import Mathlib.Data.List.TakeWhile

/-!
# Sparse maps in front of the data

A map in the GNU 1.0 format is a run of decimal numbers, each with a newline behind it, in blocks
of 512 bytes.  `read_gnu_new_sparse` keeps one block and a cursor; for a number that goes on in
the next block it decodes again over both.
-/

namespace ImageTool.Tar

open ImageTool.Lib ImageTool.Fstream ImageTool.Imgtool

/-! ## The reader -/

/-- `TAR_MAX_SPARSE_ENT`. -/
def tarMaxSparseEnt : Nat := 65536

/-- The size of a block. -/
def blockSize : Nat := 512

/-- The loop of `decode` over the digits: the number and what is behind it. -/
def digitLoop : List UInt8 → Nat → Option (Nat × List UInt8)
  | [], out => some (out, [])
  | c :: str, out =>
      if isDigitOf 10 c then
        if out * 10 ≥ 2 ^ 64 then none
        else if out * 10 + digitValue c ≥ 2 ^ 64 then none
        else digitLoop str (out * 10 + digitValue c)
      else some (out, c :: str)

/-- `decode`, of the bytes there are, or nothing for -1: the number of bytes that have been used,
which is 0 where the number may go on, and the number. -/
def decode (str : List UInt8) : Option (Nat × Nat) :=
  match digitLoop str 0 with
  | none => none
  | some (out, rest) =>
      let count := str.length - rest.length
      if count = 0 ∨ count = str.length then some (0, out)
      else if rest.head? = some newline then some (count + 1, out)
      else none

/-- What `read_gnu_new_sparse` uses: the stream, and `record_size` of the header. -/
structure SparseReader (ι : Type) where
  fp : Istream ι
  recordSize : Nat

/-- The cursor in the block that has been read last. -/
structure Cursor where
  buffer : List UInt8
  diff : Nat

section Reader

variable {ι : Type} (callback : Call (Istream ι) Unit)

/-- A block is read, which has to be complete. -/
def readBlock : Call (SparseReader ι) (List UInt8) := do
  let block ← Call.zoom SparseReader.fp (fun r fp => { r with fp := fp })
    (Istream.read callback blockSize)
  if block.length < blockSize then Call.fail else pure block

/-- `record_size -= 512`. -/
def takeOffBlock : Call (SparseReader ι) Unit :=
  Call.modify fun r => { r with recordSize := sub64 r.recordSize blockSize }

/-- `decode` from the cursor to the end of the window; a cursor behind it is an invalid pointer. -/
def decodeAt (window : List UInt8) (diff : Nat) : Call (SparseReader ι) (Nat × Nat) :=
  if diff > window.length then Call.stuck
  else
    match decode (window.drop diff) with
    | none => Call.fail
    | some found => pure found

/-- The number at the cursor, decoded over two blocks. -/
def decodeAgain (cur : Cursor) : Call (SparseReader ι) (Nat × Cursor) := do
  let r ← Call.get
  if r.recordSize < blockSize then Call.fail
  else do
    let block ← readBlock callback
    let found ← decodeAt (cur.buffer ++ block) cur.diff
    if found.1 = 0 then Call.fail
    else if cur.diff + found.1 < blockSize then Call.stuck
    else do
      takeOffBlock
      pure (found.2, ⟨block, cur.diff + found.1 - blockSize⟩)

/-- The number at the cursor. -/
def nextNumber (cur : Cursor) : Call (SparseReader ι) (Nat × Cursor) := do
  let found ← decodeAt cur.buffer cur.diff
  if found.1 > 0 then pure (found.2, ⟨cur.buffer, cur.diff + found.1⟩)
  else decodeAgain callback cur

/-- A number with the index `i` is stored. -/
def storeNumber (list : List SparseRegion) (i value : Nat) : List SparseRegion :=
  if i &&& 0x01 = 0 then list ++ [⟨value, 0⟩]
  else list.modify (list.length - 1) fun ent => { ent with count := value }

/-- The loop of `read_gnu_new_sparse`, with `n` numbers to come. -/
def mapLoop : Nat → Nat → Cursor → List SparseRegion → Call (SparseReader ι) (List SparseRegion)
  | 0, _, _, list => pure list
  | n + 1, i, cur, list => do
      let next ← nextNumber callback cur
      mapLoop n (i + 1) next.2 (storeNumber list i next.1)

/-- `read_gnu_new_sparse`. -/
def readGnuNewSparse : Call (SparseReader ι) (List SparseRegion) := do
  let r ← Call.get
  if r.recordSize < blockSize then Call.fail
  else do
    let block ← readBlock callback
    let found ← decodeAt block 0
    if found.1 = 0 then Call.fail
    else do
      takeOffBlock
      if found.2 = 0 ∨ found.2 > tarMaxSparseEnt then Call.fail
      else mapLoop callback (found.2 * 2) 0 ⟨block, found.1⟩ []

end Reader

/-! ## Numbers with a newline -/

/-- A number of the map. -/
def line (n : Nat) : List UInt8 := numeral 10 n ++ [newline]

/-- The numbers of a map. -/
def mapNumbers (map : List SparseRegion) : List Nat :=
  map.flatMap fun ent => [ent.offset, ent.count]

/-- A map in the GNU 1.0 format. -/
def mapText (map : List SparseRegion) : List UInt8 :=
  line map.length ++ (mapNumbers map).flatMap line

theorem digitLoop_eq (str : List UInt8) (out : Nat) :
    digitLoop str out =
      (boundedValue 10 (2 ^ 64) (str.takeWhile (isDigitOf 10)) out).map
        fun n => (n, str.dropWhile (isDigitOf 10)) := by
  induction str generalizing out with
  | nil => simp [digitLoop, boundedValue]
  | cons c str ih =>
      rw [digitLoop, List.takeWhile_cons, List.dropWhile_cons]
      by_cases hdigit : isDigitOf 10 c = true
      · simp only [hdigit, if_true, boundedValue]
        by_cases hsum : out * 10 + digitValue c < 2 ^ 64
        · rw [if_neg (by omega), if_neg (by omega), if_pos hsum, ih]
        · rw [if_neg hsum]
          split
          · rfl
          · rw [if_pos (by omega)]
            rfl
      · simp [hdigit, boundedValue]

section Decode

variable {n : Nat} (hn : n < 2 ^ 64)

include hn

theorem digitLoop_digits {ds : List UInt8} (hds : ∀ c ∈ ds, isDigitOf 10 c = true)
    (hvalue : digitsValue 10 ds ≤ n) (more : List UInt8)
    (hmore : more.takeWhile (isDigitOf 10) = []) :
    digitLoop (ds ++ more) 0 = some (digitsValue 10 ds, more) := by
  have hdrop : more.dropWhile (isDigitOf 10) = more := by
    have happend := List.takeWhile_append_dropWhile (p := isDigitOf 10) (l := more)
    rwa [hmore, List.nil_append] at happend
  rw [digitLoop_eq, List.takeWhile_append_of_pos hds, List.dropWhile_append_of_pos hds, hmore,
    hdrop,
    List.append_nil, boundedValue_eq (by decide) (by decide)]
  change Option.map _ (if digitsValue 10 ds < 2 ^ 64 then some (digitsValue 10 ds) else none) = _
  rw [if_pos (by omega)]
  rfl

/-- A complete number is decoded. -/
theorem decode_line (more : List UInt8) :
    decode (line n ++ more) = some ((line n).length, n) := by
  have hdigits : ∀ c ∈ numeral 10 n, isDigitOf 10 c = true :=
    fun c hc => isDigitOf_of_mem_numeral (by decide) (by decide) hc
  have hvalue : digitsValue 10 (numeral 10 n) = n := digitsValue_numeral (by decide) (by decide) n
  have hloop := digitLoop_digits hn hdigits (Nat.le_of_eq hvalue) (newline :: more) (by
    rw [List.takeWhile_cons_of_neg]
    decide)
  have hlength := List.length_pos_iff.2 (numeral_ne_nil 10 n)
  have hstr : line n ++ more = numeral 10 n ++ newline :: more := by simp [line]
  rw [hvalue] at hloop
  rw [decode, hstr, hloop]
  dsimp only
  rw [List.length_append, List.length_cons, Nat.add_sub_cancel, if_neg (by omega), if_pos (by simp)]
  simp [line]

/-- The beginning of a number may go on. -/
theorem decode_prefix {ds : List UInt8} (h : ds <+: numeral 10 n) :
    ∃ out, decode ds = some (0, out) := by
  have hdigits : ∀ c ∈ ds, isDigitOf 10 c = true :=
    fun c hc => isDigitOf_of_mem_numeral (by decide) (by decide) (h.subset hc)
  have hvalue : digitsValue 10 ds ≤ n := by
    obtain ⟨es, hes⟩ := h
    have hsum := digitsValue_append 10 ds es
    have hmul := Nat.le_mul_of_pos_right (digitsValue 10 ds)
      (show 0 < 10 ^ es.length from Nat.pow_pos (by decide))
    rw [hes, digitsValue_numeral (by decide) (by decide)] at hsum
    omega
  have hloop := digitLoop_digits hn hdigits hvalue [] rfl
  rw [List.append_nil] at hloop
  refine ⟨digitsValue 10 ds, ?_⟩
  rw [decode, hloop]
  dsimp only
  rw [if_pos (.inr (by simp))]

end Decode

/-! ## Reading a map -/

section Map

variable {ι : Type} {callback : Call (Istream ι) Unit} {holds : Istream ι → List UInt8 → Prop}

theorem readBlock_ok (h : Istream.Refills callback holds) {r : SparseReader ι} {bytes : List UInt8}
    (hold : holds r.fp bytes) (hlength : blockSize ≤ bytes.length) :
    ∃ fp, readBlock callback r = .ok (bytes.take blockSize) { r with fp := fp } ∧
      holds fp (bytes.drop blockSize) := by
  obtain ⟨fp, hread, hold'⟩ := h.read blockSize hold
  rw [show min blockSize Istream.readLimit = blockSize from rfl] at hread hold'
  refine ⟨fp, ?_, hold'⟩
  have htake : (bytes.take blockSize).length = blockSize := by
    rw [List.length_take, Nat.min_eq_left hlength]
  rw [readBlock, Call.bind_apply, Call.zoom_apply, hread, Outcome.mapState_ok, Outcome.bind_ok,
    if_neg (by omega), Call.pure_apply]

theorem decodeAt_eq {window : List UInt8} {diff : Nat} {found : Nat × Nat} (r : SparseReader ι)
    (hdiff : diff ≤ window.length) (h : decode (window.drop diff) = some found) :
    decodeAt window diff r = .ok found r := by
  rw [decodeAt, if_neg (by omega), h]
  rfl

/-- The cursor is in front of `text`, a part of which is still in the stream, and with all of it
read `size` bytes of the record are left, and `rest` in the stream. -/
structure Reading (holds : Istream ι → List UInt8 → Prop) (rest : List UInt8) (size : Nat)
    (cur : Cursor) (r : SparseReader ι) (text : List UInt8) : Prop where
  buffer : cur.buffer.length = blockSize
  inside : cur.diff ≤ blockSize
  ahead : ∃ ahead, cur.buffer.drop cur.diff ++ ahead = text ∧ holds r.fp (ahead ++ rest) ∧
    blockSize ∣ ahead.length ∧ r.recordSize = size + ahead.length
  range : r.recordSize < 2 ^ 64

variable {rest text : List UInt8} {size n : Nat} {cur : Cursor} {r : SparseReader ι}

/-- With a number in the next block, too, it is decoded over both. -/
theorem decodeAgain_ok (h : Istream.Refills callback holds) (hn : n < 2 ^ 64)
    (hread : Reading holds rest size cur r (line n ++ text))
    (hpart : cur.buffer.drop cur.diff <+: numeral 10 n) :
    ∃ cur' r', decodeAgain callback cur r = .ok (n, cur') r' ∧
      Reading holds rest size cur' r' text := by
  obtain ⟨ahead, htext, hold, ⟨k, hk⟩, hsize⟩ := hread.ahead
  have hbs : blockSize = 512 := rfl
  have hbuffer := hread.buffer
  have hinside := hread.inside
  have hrange := hread.range
  have hlast := hpart.length_le
  have hline : (line n).length = (numeral 10 n).length + 1 := by simp [line]
  have hshort : (numeral 10 n).length ≤ 20 := length_numeral_le (by decide) (by decide) (by omega)
  have hlengths := congrArg List.length htext
  rw [List.length_append, List.length_append, List.length_drop] at hlengths
  rw [List.length_drop] at hlast
  have hblock : blockSize ≤ ahead.length := by
    have hpos : k ≠ 0 := by
      rintro rfl
      omega
    rw [hk]
    exact Nat.le_mul_of_pos_right _ (Nat.pos_of_ne_zero hpos)
  obtain ⟨fp, hblockRead, hold'⟩ :=
    readBlock_ok h hold (by rw [List.length_append]; omega)
  rw [List.take_append_of_le_length hblock] at hblockRead
  rw [List.drop_append_of_le_length hblock] at hold'
  have htake : (ahead.take blockSize).length = blockSize := by
    rw [List.length_take, Nat.min_eq_left hblock]
  have hwindow : (cur.buffer ++ ahead.take blockSize).drop cur.diff =
      line n ++ text.take (blockSize - cur.diff + blockSize - (line n).length) := by
    have hle : (line n).length ≤ blockSize - cur.diff + blockSize := by omega
    have hwhole := congrArg (List.take (blockSize - cur.diff + blockSize)) htext
    rwa [List.take_append, List.take_append,
      List.take_of_length_le (by rw [List.length_drop]; omega),
      List.take_of_length_le hle, List.length_drop, hbuffer, Nat.add_sub_cancel_left,
      ← List.drop_append_of_le_length (by omega)] at hwhole
  have hdecode := decodeAt_eq ⟨fp, r.recordSize⟩
    (show cur.diff ≤ (cur.buffer ++ ahead.take blockSize).length by
      rw [List.length_append]
      omega)
    (by rw [hwindow]; exact decode_line hn _)
  have hsub : sub64 r.recordSize blockSize = r.recordSize - blockSize :=
    sub64_of_le (by omega) hrange
  refine ⟨⟨ahead.take blockSize, cur.diff + (line n).length - blockSize⟩,
    ⟨fp, r.recordSize - blockSize⟩, ?_, ?_⟩
  · rw [decodeAgain, Call.bind_apply, Call.get_apply, Outcome.bind_ok, if_neg (by omega),
      Call.bind_apply, hblockRead, Outcome.bind_ok, Call.bind_apply, hdecode, Outcome.bind_ok,
      if_neg (by dsimp only; omega), if_neg (by dsimp only; omega), Call.bind_apply, takeOffBlock,
      Call.modify_apply, Outcome.bind_ok, Call.pure_apply, hsub]
  · refine ⟨htake, ?_, ⟨ahead.drop blockSize, ?_, hold', ?_, ?_⟩, ?_⟩
    · dsimp only
      omega
    · have hrest := congrArg (List.drop (line n).length) htext
      rw [List.drop_left, List.drop_append,
        List.drop_of_length_le (by rw [List.length_drop]; omega),
        List.nil_append, List.length_drop, hbuffer] at hrest
      have hdiff : cur.diff + (line n).length - blockSize =
          (line n).length - (blockSize - cur.diff) := by omega
      dsimp only
      rw [← List.drop_append_of_le_length (by omega), List.take_append_drop, ← hrest, hdiff]
    · rw [List.length_drop]
      exact Nat.dvd_sub ⟨k, hk⟩ (Nat.dvd_refl _)
    · dsimp only
      rw [List.length_drop]
      omega
    · dsimp only
      omega

/-- A number is read, whether it ends in the block or not. -/
theorem nextNumber_ok (h : Istream.Refills callback holds) (hn : n < 2 ^ 64)
    (hread : Reading holds rest size cur r (line n ++ text)) :
    ∃ cur' r', nextNumber callback cur r = .ok (n, cur') r' ∧
      Reading holds rest size cur' r' text := by
  obtain ⟨ahead, htext, hold, hblocks, hsize⟩ := hread.ahead
  have hbuffer := hread.buffer
  have hinside := hread.inside
  have hline : (line n).length = (numeral 10 n).length + 1 := by simp [line]
  by_cases hends : (line n).length ≤ (cur.buffer.drop cur.diff).length
  · -- The newline is in the block.
    have hsplit : cur.buffer.drop cur.diff =
        line n ++ (cur.buffer.drop cur.diff).drop (line n).length := by
      have hfirst := congrArg (List.take (line n).length) htext
      rw [List.take_left, List.take_append_of_le_length hends] at hfirst
      conv_lhs => rw [← List.take_append_drop (line n).length (cur.buffer.drop cur.diff), hfirst]
    have hdecode := decodeAt_eq r (show cur.diff ≤ cur.buffer.length by omega)
      (by rw [hsplit]; exact decode_line hn _)
    have hrest := congrArg (List.drop (line n).length) htext
    rw [List.drop_left, List.drop_append_of_le_length hends, List.drop_drop] at hrest
    rw [List.length_drop] at hends
    refine ⟨⟨cur.buffer, cur.diff + (line n).length⟩, r, ?_, hbuffer, ?_,
      ⟨ahead, hrest, hold, hblocks, hsize⟩, hread.range⟩
    · rw [nextNumber, Call.bind_apply, hdecode, Outcome.bind_ok, if_pos (by dsimp only; omega),
        Call.pure_apply]
    · dsimp only
      omega
  · have hpart : cur.buffer.drop cur.diff <+: numeral 10 n := by
      have hprefix : cur.buffer.drop cur.diff <+: numeral 10 n ++ newline :: text := by
        refine ⟨ahead, ?_⟩
        rw [htext, line, List.append_assoc, List.singleton_append]
      exact List.prefix_of_prefix_length_le hprefix (List.prefix_append ..) (by omega)
    obtain ⟨out, hdecode⟩ := decode_prefix hn hpart
    obtain ⟨cur', r', hagain, hread'⟩ := decodeAgain_ok h hn hread hpart
    refine ⟨cur', r', ?_, hread'⟩
    rw [nextNumber, Call.bind_apply, decodeAt_eq r (by omega) hdecode, Outcome.bind_ok,
      if_neg (Nat.lt_irrefl 0), hagain]

theorem modify_length_append {α : Type} (f : α → α) (list : List α) (x : α) :
    (list ++ [x]).modify list.length f = list ++ [f x] := by
  induction list with
  | nil => rfl
  | cons a list ih => simp [ih]

/-- The two numbers of an entry make an entry. -/
theorem storeNumber_storeNumber (list : List SparseRegion) {i : Nat} (hi : i % 2 = 0)
    (ent : SparseRegion) :
    storeNumber (storeNumber list i ent.offset) (i + 1) ent.count = list ++ [ent] := by
  unfold storeNumber
  rw [Nat.and_one_is_mod, Nat.and_one_is_mod, if_pos hi, if_neg (by omega)]
  simp [modify_length_append]

/-- The numbers of a map are read into the list. -/
theorem mapLoop_ok (h : Istream.Refills callback holds) {map : List SparseRegion}
    (hmap : ∀ ent ∈ map, ent.offset < 2 ^ 64 ∧ ent.count < 2 ^ 64) {i : Nat} (hi : i % 2 = 0)
    (list : List SparseRegion)
    (hread : Reading holds rest size cur r ((mapNumbers map).flatMap line ++ text)) :
    ∃ cur' r', mapLoop callback (map.length * 2) i cur list r = .ok (list ++ map) r' ∧
      Reading holds rest size cur' r' text := by
  induction map generalizing cur r list i with
  | nil => exact ⟨cur, r, by simp [mapLoop], hread⟩
  | cons ent map ih =>
      obtain ⟨hoffset, hcount⟩ := hmap ent List.mem_cons_self
      have hnumbers : (mapNumbers (ent :: map)).flatMap line ++ text =
          line ent.offset ++ (line ent.count ++ ((mapNumbers map).flatMap line ++ text)) := by
        simp [mapNumbers]
      rw [hnumbers] at hread
      obtain ⟨cur₁, r₁, hfirst, hread₁⟩ := nextNumber_ok h hoffset hread
      obtain ⟨cur₂, r₂, hsecond, hread₂⟩ := nextNumber_ok h hcount hread₁
      obtain ⟨cur', r', hloop, hread'⟩ :=
        ih (fun ent' hent' => hmap ent' (List.mem_cons_of_mem _ hent')) (i := i + 1 + 1) (by omega)
          (list ++ [ent]) hread₂
      refine ⟨cur', r', ?_, hread'⟩
      rw [List.length_cons, Nat.succ_mul, mapLoop, Call.bind_apply, hfirst, Outcome.bind_ok,
        mapLoop,
        Call.bind_apply, hsecond, Outcome.bind_ok, storeNumber_storeNumber list hi, hloop,
        List.append_assoc, List.singleton_append]

/-- A map and what fills its last block up are read, and nothing behind them. -/
theorem readGnuNewSparse_ok (h : Istream.Refills callback holds) {map : List SparseRegion}
    {pad : List UInt8} {strm : Istream ι} {recordSize : Nat}
    (hmap : ∀ ent ∈ map, ent.offset < 2 ^ 64 ∧ ent.count < 2 ^ 64) (hpos : 1 ≤ map.length)
    (hmax : map.length ≤ tarMaxSparseEnt) (hpad : pad.length < blockSize)
    (hblocks : blockSize ∣ (mapText map ++ pad).length)
    (hhold : holds strm (mapText map ++ pad ++ rest))
    (hsize : (mapText map ++ pad).length ≤ recordSize) (hrange : recordSize < 2 ^ 64) :
    ∃ fp, readGnuNewSparse callback ⟨strm, recordSize⟩ =
        .ok map ⟨fp, recordSize - (mapText map ++ pad).length⟩ ∧ holds fp rest := by
  have hbs : blockSize = 512 := rfl
  have hmax' : map.length ≤ 65536 := hmax
  have htext : mapText map ++ pad = line map.length ++ ((mapNumbers map).flatMap line ++ pad) := by
    rw [mapText, List.append_assoc]
  have hline : (line map.length).length = (numeral 10 map.length).length + 1 := by simp [line]
  have hshort : (numeral 10 map.length).length ≤ 5 :=
    length_numeral_le (by decide) (by decide) (by omega)
  generalize mapText map ++ pad = full at *
  have hfirst : blockSize ≤ full.length := by
    obtain ⟨k, hk⟩ := hblocks
    have hlength := congrArg List.length htext
    have hk' : k ≠ 0 := by
      rintro rfl
      rw [List.length_append] at hlength
      omega
    rw [hk]
    exact Nat.le_mul_of_pos_right _ (Nat.pos_of_ne_zero hk')
  have hlengths := congrArg List.length htext
  rw [List.length_append] at hlengths
  obtain ⟨fp, hread, hhold'⟩ := readBlock_ok (r := ⟨strm, recordSize⟩) h hhold
    (by rw [List.length_append]; omega)
  rw [List.take_append_of_le_length hfirst] at hread
  rw [List.drop_append_of_le_length hfirst] at hhold'
  have hblock : full.take blockSize =
      line map.length ++ ((mapNumbers map).flatMap line ++ pad).take
        (blockSize - (line map.length).length) := by
    rw [htext, List.take_append, List.take_of_length_le (by omega)]
  have hfound : decode ((full.take blockSize).drop 0) =
      some ((line map.length).length, map.length) := by
    rw [List.drop_zero, hblock]
    exact decode_line (by omega) _
  have hdecode := decodeAt_eq (⟨fp, recordSize⟩ : SparseReader ι) (Nat.zero_le _) hfound
  have hsub : sub64 recordSize blockSize = recordSize - blockSize := sub64_of_le (by omega) hrange
  have htake : (full.take blockSize).length = blockSize := by
    rw [List.length_take, Nat.min_eq_left hfirst]
  have hahead : (full.take blockSize).drop (line map.length).length ++ full.drop blockSize =
      (mapNumbers map).flatMap line ++ pad := by
    rw [← List.drop_append_of_le_length (by omega), List.take_append_drop, htext, List.drop_left]
  have hreading : Reading holds rest (recordSize - full.length)
      ⟨full.take blockSize, (line map.length).length⟩ ⟨fp, recordSize - blockSize⟩
      ((mapNumbers map).flatMap line ++ pad) := by
    refine ⟨htake, by dsimp only; omega, ⟨full.drop blockSize, hahead, hhold', ?_, ?_⟩, ?_⟩
    · rw [List.length_drop]
      exact Nat.dvd_sub hblocks (Nat.dvd_refl _)
    · dsimp only
      rw [List.length_drop]
      omega
    · dsimp only
      omega
  obtain ⟨cur', r', hloop, hreading'⟩ := mapLoop_ok h hmap (Nat.zero_mod 2) [] hreading
  obtain ⟨ahead, hrest, hhold'', ⟨k, hk⟩, hleft⟩ := hreading'.ahead
  have hnil : ahead = [] := by
    have hlast := congrArg List.length hrest
    rw [List.length_append] at hlast
    have hk' : k = 0 := by
      by_contra hne
      have hmul := Nat.le_mul_of_pos_right blockSize (Nat.pos_of_ne_zero hne)
      omega
    rw [hk', Nat.mul_zero] at hk
    exact List.length_eq_zero_iff.1 hk
  subst hnil
  obtain ⟨fp', left⟩ := r'
  obtain rfl : left = recordSize - full.length := hleft
  refine ⟨fp', ?_, hhold''⟩
  rw [readGnuNewSparse, Call.bind_apply, Call.get_apply, Outcome.bind_ok,
    if_neg (by dsimp only; omega), Call.bind_apply, hread, Outcome.bind_ok, Call.bind_apply,
    hdecode,
    Outcome.bind_ok, if_neg (by dsimp only; omega), Call.bind_apply, takeOffBlock,
    Call.modify_apply,
    Outcome.bind_ok, hsub, if_neg (by dsimp only; rw [tarMaxSparseEnt]; omega), hloop,
    List.nil_append]

end Map

/-! ## Arbitrary bytes -/

/-- What `decode` has used: nothing, if there are no digits or nothing but digits, or the digits
and a newline. -/
theorem decode_some {str : List UInt8} {found : Nat × Nat} (h : decode str = some found) :
    found.1 = 0 ∧ (str.takeWhile (isDigitOf 10) = [] ∨ str.takeWhile (isDigitOf 10) = str) ∨
      found.1 = (str.takeWhile (isDigitOf 10)).length + 1 ∧ found.1 ≤ str.length ∧
        str.takeWhile (isDigitOf 10) ≠ [] := by
  rw [decode, digitLoop_eq] at h
  cases hrun : boundedValue 10 (2 ^ 64) (str.takeWhile (isDigitOf 10)) 0 with
  | none =>
      rw [hrun] at h
      cases h
  | some out =>
      have hsplit := congrArg List.length
        (List.takeWhile_append_dropWhile (p := isDigitOf 10) (l := str))
      rw [List.length_append] at hsplit
      have hcount : str.length - (str.dropWhile (isDigitOf 10)).length =
          (str.takeWhile (isDigitOf 10)).length := by omega
      simp only [hrun, Option.map_some, hcount] at h
      split at h
      · rename_i hends
        cases h
        refine .inl ⟨rfl, hends.imp List.length_eq_zero_iff.1 fun hall => ?_⟩
        exact (List.takeWhile_prefix _).eq_of_length hall
      · rename_i hends
        rw [not_or] at hends
        split at h
        · cases h
          exact .inr ⟨rfl, by dsimp only; omega, fun hnil => hends.1 (by rw [hnil]; rfl)⟩
        · cases h

/-- Where a number may go on and is decoded again over more bytes, it ends behind the bytes it
began with. -/
theorem decode_again {str more : List UInt8} {first found : Nat × Nat} (h : decode str = some first)
    (hfirst : first.1 = 0) (hagain : decode (str ++ more) = some found) (hfound : found.1 ≠ 0) :
    str.length < found.1 ∧ found.1 ≤ (str ++ more).length := by
  rcases decode_some hagain with ⟨hzero, -⟩ | ⟨hcount, hle, hdigits⟩
  · exact absurd hzero hfound
  · refine ⟨?_, hle⟩
    rcases decode_some h with ⟨-, hnone | hall⟩ | ⟨hused, -⟩
    · cases str with
      | nil => exact Nat.pos_of_ne_zero hfound
      | cons c str =>
          have hc : isDigitOf 10 c = false := by
            by_contra hdigit
            rw [List.takeWhile_cons_of_pos (by simpa using hdigit)] at hnone
            cases hnone
          rw [List.cons_append, List.takeWhile_cons_of_neg (by simp [hc])] at hdigits
          exact absurd rfl hdigits
    · have hrun : (str ++ more).takeWhile (isDigitOf 10) =
          str ++ more.takeWhile (isDigitOf 10) := by
        exact List.takeWhile_append_of_pos (List.takeWhile_eq_self_iff.1 hall)
      rw [hcount, hrun, List.length_append]
      omega
    · omega

section Bounds

variable {ι : Type} {callback : Call (Istream ι) Unit} {P : Istream ι → Prop}

/-- The stream is as it was, and blocks have been taken off the size. -/
def TakenOff (P : Istream ι → Prop) (recordSize : Nat) (r : SparseReader ι) : Prop :=
  P r.fp ∧ ∃ k, r.recordSize + k * blockSize = recordSize

/-- A cursor in the block. -/
def Inside (cur : Cursor) : Prop := cur.buffer.length = blockSize ∧ cur.diff ≤ blockSize

theorem readBlock_ends (hread : Call.Safe P (Istream.read callback blockSize)) {r : SparseReader ι}
    (h : P r.fp) :
    Call.Ends (readBlock callback r)
      (fun block r' => block.length = blockSize ∧ P r'.fp ∧ r'.recordSize = r.recordSize)
      (fun r' => P r'.fp ∧ r'.recordSize = r.recordSize) := by
  have hends := hread.ends h
  rw [readBlock, Call.bind_apply, Call.zoom_apply]
  cases hres : Istream.read callback blockSize r.fp with
  | ok block fp =>
      have hle := Istream.length_read_le hres
      rw [hres] at hends
      rw [Outcome.mapState_ok, Outcome.bind_ok]
      by_cases hshort : block.length < blockSize
      · rw [if_pos hshort]
        exact ⟨hends, rfl⟩
      · rw [if_neg hshort]
        exact ⟨by omega, hends, rfl⟩
  | fail fp =>
      rw [hres] at hends
      exact ⟨hends, rfl⟩
  | stuck =>
      rw [hres] at hends
      exact hends.elim

theorem decodeAt_ends {window : List UInt8} {diff : Nat} (r : SparseReader ι)
    (hdiff : diff ≤ window.length) :
    Call.Ends (decodeAt window diff r)
      (fun found r' => r' = r ∧ decode (window.drop diff) = some found) (fun r' => r' = r) := by
  rw [decodeAt, if_neg (by omega)]
  cases hfound : decode (window.drop diff) with
  | none => rfl
  | some found => exact ⟨rfl, rfl⟩

theorem takeOffBlock_takenOff {recordSize : Nat} {r : SparseReader ι}
    (h : TakenOff P recordSize r) (hrange : recordSize < 2 ^ 64)
    (hsize : blockSize ≤ r.recordSize) :
    TakenOff P recordSize { r with recordSize := sub64 r.recordSize blockSize } := by
  obtain ⟨hfp, k, hk⟩ := h
  refine ⟨hfp, k + 1, ?_⟩
  dsimp only
  rw [sub64_of_le hsize (by omega), Nat.succ_mul]
  omega

/-- Decoding again stays in the window of two blocks, and leaves the cursor in the second. -/
theorem decodeAgain_ends (hread : Call.Safe P (Istream.read callback blockSize)) {recordSize : Nat}
    (hrange : recordSize < 2 ^ 64) {cur : Cursor} {r : SparseReader ι} (hcur : Inside cur)
    (h : TakenOff P recordSize r) {first : Nat × Nat}
    (hfirst : decode (cur.buffer.drop cur.diff) = some first) (hzero : first.1 = 0) :
    Call.Ends (decodeAgain callback cur r)
      (fun next r' => Inside next.2 ∧ TakenOff P recordSize r') (TakenOff P recordSize) := by
  obtain ⟨hbuffer, hinside⟩ := hcur
  rw [decodeAgain, Call.bind_apply, Call.get_apply, Outcome.bind_ok]
  by_cases hsize : r.recordSize < blockSize
  · rw [if_pos hsize]
    exact h
  · rw [if_neg hsize, Call.bind_apply]
    refine (readBlock_ends hread h.1).bind ?_ fun r' ⟨hfp, hsame⟩ => ⟨hfp, hsame ▸ h.2⟩
    rintro block r₁ ⟨hblock, hfp, hsame⟩
    have h₁ : TakenOff P recordSize r₁ := ⟨hfp, hsame ▸ h.2⟩
    rw [Call.bind_apply]
    refine (decodeAt_ends r₁ (by rw [List.length_append]; omega)).bind ?_ fun r' hr' => hr' ▸ h₁
    rintro found r₂ ⟨rfl, hfound⟩
    by_cases hnone : found.1 = 0
    · rw [if_pos hnone]
      exact h₁
    · rw [List.drop_append_of_le_length (by omega)] at hfound
      obtain ⟨hbehind, hle⟩ := decode_again hfirst hzero hfound hnone
      rw [List.length_append] at hle
      rw [List.length_drop] at hbehind hle
      rw [if_neg hnone, if_neg (by omega), Call.bind_apply, takeOffBlock, Call.modify_apply,
        Outcome.bind_ok, Call.pure_apply]
      exact ⟨⟨hblock, by dsimp only; omega⟩, takeOffBlock_takenOff h₁ hrange (by omega)⟩

theorem nextNumber_ends (hread : Call.Safe P (Istream.read callback blockSize)) {recordSize : Nat}
    (hrange : recordSize < 2 ^ 64) {cur : Cursor} {r : SparseReader ι} (hcur : Inside cur)
    (h : TakenOff P recordSize r) :
    Call.Ends (nextNumber callback cur r)
      (fun next r' => Inside next.2 ∧ TakenOff P recordSize r') (TakenOff P recordSize) := by
  rw [nextNumber, Call.bind_apply]
  refine (decodeAt_ends r (by rw [hcur.1]; exact hcur.2)).bind ?_ fun r' hr' => hr' ▸ h
  rintro found r' ⟨rfl, hfound⟩
  by_cases hnumber : found.1 > 0
  · rw [if_pos hnumber, Call.pure_apply]
    refine ⟨⟨hcur.1, ?_⟩, h⟩
    have hle : found.1 ≤ (cur.buffer.drop cur.diff).length := by
      rcases decode_some hfound with ⟨hzero, -⟩ | ⟨-, hle, -⟩
      · omega
      · exact hle
    rw [List.length_drop, hcur.1] at hle
    dsimp only
    omega
  · rw [if_neg hnumber]
    exact decodeAgain_ends hread hrange hcur h hfound (by omega)

theorem mapLoop_ends (hread : Call.Safe P (Istream.read callback blockSize)) {recordSize : Nat}
    (hrange : recordSize < 2 ^ 64) (n i : Nat) {cur : Cursor} {r : SparseReader ι}
    (list : List SparseRegion) (hcur : Inside cur) (h : TakenOff P recordSize r) :
    Call.Ends (mapLoop callback n i cur list r) (fun _ => TakenOff P recordSize)
      (TakenOff P recordSize) := by
  induction n generalizing i cur r list with
  | zero => exact h
  | succ n ih =>
      rw [mapLoop, Call.bind_apply]
      exact (nextNumber_ends hread hrange hcur h).bind
        (fun next r' ⟨hcur', h'⟩ => ih (i + 1) _ hcur' h') fun _ h' => h'

/-- Whatever the stream holds, the reader returns, and takes whole blocks off the size. -/
theorem readGnuNewSparse_ends (hread : Call.Safe P (Istream.read callback blockSize))
    {r : SparseReader ι} (hrange : r.recordSize < 2 ^ 64) (h : P r.fp) :
    Call.Ends (readGnuNewSparse callback r) (fun _ => TakenOff P r.recordSize)
      (TakenOff P r.recordSize) := by
  have hstart : TakenOff P r.recordSize r := ⟨h, 0, by omega⟩
  rw [readGnuNewSparse, Call.bind_apply, Call.get_apply, Outcome.bind_ok]
  by_cases hsize : r.recordSize < blockSize
  · rw [if_pos hsize]
    exact hstart
  · rw [if_neg hsize, Call.bind_apply]
    refine (readBlock_ends hread h).bind ?_ fun r' ⟨hfp, hsame⟩ => ⟨hfp, 0, by omega⟩
    rintro block r₁ ⟨hblock, hfp, hsame⟩
    have h₁ : TakenOff P r.recordSize r₁ := ⟨hfp, 0, by omega⟩
    rw [Call.bind_apply]
    refine (decodeAt_ends r₁ (Nat.zero_le _)).bind ?_ fun r' hr' => hr' ▸ h₁
    rintro found r₂ ⟨rfl, hfound⟩
    by_cases hnone : found.1 = 0
    · rw [if_pos hnone]
      exact h₁
    · have h₂ := takeOffBlock_takenOff h₁ hrange (by omega)
      rw [if_neg hnone, Call.bind_apply, takeOffBlock, Call.modify_apply, Outcome.bind_ok]
      split
      · exact h₂
      · apply mapLoop_ends hread hrange _ _ _ _ h₂
        refine ⟨hblock, ?_⟩
        rcases decode_some hfound with ⟨hzero, -⟩ | ⟨-, hle, -⟩
        · exact absurd hzero hnone
        · rwa [List.drop_zero, hblock] at hle

/-- A map of up to `TAR_MAX_SPARSE_ENT` entries, filled up to whole blocks, is read from a stream
as it is, with nothing taken behind it and as many bytes off the size of the record.  Whatever the
stream holds, the reader returns: it does not leave its window, and the size does not go below 0. -/
theorem readGnuNewSparse_spec {holds : Istream ι → List UInt8 → Prop}
    (h : Istream.Refills callback holds) (hread : Call.Safe P (Istream.read callback blockSize))
    {map : List SparseRegion} {pad rest : List UInt8} {strm : Istream ι} {recordSize : Nat}
    (hmap : ∀ ent ∈ map, ent.offset < 2 ^ 64 ∧ ent.count < 2 ^ 64) (hpos : 1 ≤ map.length)
    (hmax : map.length ≤ tarMaxSparseEnt) (hpad : pad.length < blockSize)
    (hblocks : blockSize ∣ (mapText map ++ pad).length)
    (hhold : holds strm (mapText map ++ pad ++ rest))
    (hsize : (mapText map ++ pad).length ≤ recordSize) (hrange : recordSize < 2 ^ 64)
    {r : SparseReader ι} (hr : r.recordSize < 2 ^ 64) (hfp : P r.fp) :
    (∃ fp, readGnuNewSparse callback ⟨strm, recordSize⟩ =
        .ok map ⟨fp, recordSize - (mapText map ++ pad).length⟩ ∧ holds fp rest) ∧
      Call.Ends (readGnuNewSparse callback r) (fun _ => TakenOff P r.recordSize)
        (TakenOff P r.recordSize) :=
  ⟨readGnuNewSparse_ok h hmap hpos hmax hpad hblocks hhold hsize hrange,
    readGnuNewSparse_ends hread hr hfp⟩

end Bounds

/-- A map of 45 regions; the number of a region in it goes on in the second block. -/
def longMap : List SparseRegion := (List.range 45).map fun i => ⟨1000000 + 8192 * i, 4096⟩

theorem length_mapText_longMap : (mapText longMap).length = 588 := by decide +kernel

/-- That map, and a stream without a map. -/
theorem readGnuNewSparse_longMap :
    (∃ fp, readGnuNewSparse FileIstream.precache
        ⟨FileIstream.openFd (mapText longMap ++ List.replicate 436 0 ++ [65]) [], 1029⟩ =
          .ok longMap ⟨fp, 1029 - (mapText longMap ++ List.replicate 436 0).length⟩ ∧
        FileIstream.Holds fp [65]) ∧
      Call.Ends
        (readGnuNewSparse FileIstream.precache ⟨FileIstream.openFd (List.replicate 600 57) [], 600⟩)
        (fun _ => TakenOff (fun strm => ∃ rest, FileIstream.Holds strm rest) 600)
        (TakenOff (fun strm => ∃ rest, FileIstream.Holds strm rest) 600) := by
  have hlength : (mapText longMap ++ List.replicate 436 0).length = 1024 := by
    rw [List.length_append, List.length_replicate, length_mapText_longMap]
  exact readGnuNewSparse_spec FileIstream.carries.refills
    (FileIstream.carries.refills.safe_read blockSize) (by decide) (by decide) (by decide)
    (by rw [List.length_replicate]; decide) (by rw [hlength]; decide)
    (FileIstream.openFd_holds List.not_mem_nil) (by rw [hlength]; decide) (by decide) (by decide)
    ⟨_, FileIstream.openFd_holds List.not_mem_nil⟩

end ImageTool.Tar
