import ImageTool.Tar.PaxBounds

/-!
# PAX records

A record as it is written, with the number of all its bytes in front, and what the loop makes of
it: the key and the value are handled and the position moves on to the next record.
-/

namespace ImageTool.Tar

open ImageTool.Lib ImageTool.Fstream

/-- A key and a value. -/
structure PaxPair where
  key : List UInt8
  value : List UInt8

/-- A pair with the length of its record, which counts its own digits, the blank, the equals sign
and the newline. -/
structure PaxRecord extends PaxPair where
  length : Nat
  counts : length = (numeral 10 length).length + key.length + value.length + 3

/-- A record as it is written. -/
def PaxRecord.bytes (record : PaxRecord) : List UInt8 :=
  numeral 10 record.length ++ 32 :: (record.key ++ 0x3D :: (record.value ++ [newline]))

/-- A key that can be told from what stands around it. -/
structure PlainKey (key : List UInt8) : Prop where
  no_nul : 0 ∉ key
  no_equals : 0x3D ∉ key
  first : ∃ c rest, key = c :: rest ∧ isSpace c = false

theorem plainKey_iff {key : List UInt8} :
    PlainKey key ↔ 0 ∉ key ∧ 0x3D ∉ key ∧ key.head?.map isSpace = some false := by
  constructor
  · rintro ⟨hnul, hequals, c, rest, rfl, hspace⟩
    exact ⟨hnul, hequals, congrArg some hspace⟩
  · rintro ⟨hnul, hequals, hfirst⟩
    obtain ⟨c, hc, hspace⟩ := Option.map_eq_some_iff.1 hfirst
    exact ⟨hnul, hequals, c, key.tail, (List.cons_head?_tail hc).symm, hspace⟩

instance (key : List UInt8) : Decidable (PlainKey key) := decidable_of_iff _ plainKey_iff.symm

theorem PaxRecord.length_bytes (record : PaxRecord) : record.bytes.length = record.length := by
  have hcounts := record.counts
  simp only [PaxRecord.bytes, List.length_append, List.length_cons, List.length_nil]
  omega

/-- Every pair has a record. -/
theorem exists_paxRecord (pair : PaxPair) : ∃ record : PaxRecord, record.toPaxPair = pair := by
  obtain ⟨length, hlength⟩ := @exists_eq_length_numeral_add 10 (by decide)
    (pair.key.length + pair.value.length + 3)
  exact ⟨⟨pair, length, by omega⟩, rfl⟩

/-! ## The number in front -/

theorem plain_of_isDigitOf {c : UInt8} (h : isDigitOf 10 c = true) :
    isSpace c = false ∧ c ≠ 0x2B ∧ c ≠ 0x2D ∧ c ≠ 0 := by
  have hrange : 48 ≤ c.toNat ∧ c.toNat < 58 := by simpa [isDigitOf] using h
  rw [← UInt8.ofNat_toNat (x := c)]
  generalize c.toNat = n at hrange
  obtain ⟨hlo, hhi⟩ := hrange
  interval_cases n <;> decide

/-- `strtol` reads digits up to the first other character. -/
theorem strtol_digits {digits : List UInt8} (hne : digits ≠ [])
    (hdigits : ∀ c ∈ digits, isDigitOf 10 c = true) {c : UInt8} (hc : isDigitOf 10 c = false)
    (rest : List UInt8) :
    strtol (digits ++ c :: rest) = (clampLong (digitsValue 10 digits), digits.length) := by
  have hrun : (digits ++ c :: rest).takeWhile (isDigitOf 10) = digits := by
    rw [List.takeWhile_append_of_pos hdigits, List.takeWhile_cons_of_neg (by simp [hc]),
      List.append_nil]
  obtain ⟨d, ds, rfl⟩ := List.exists_cons_of_ne_nil hne
  obtain ⟨hspace, hplus, hminus, -⟩ := plain_of_isDigitOf (hdigits d List.mem_cons_self)
  have hblanks : (d :: ds ++ c :: rest).takeWhile isSpace = [] := by
    rw [List.cons_append, List.takeWhile_cons_of_neg (by simp [hspace])]
  have hsign : List.filter (fun c => decide (c = 0x2B ∨ c = 0x2D))
      ((d :: ds ++ c :: rest).take 1) = [] := by
    simp [hplus, hminus]
  unfold strtol
  dsimp only
  rw [hblanks, List.length_nil, List.drop_zero, hsign, List.length_nil, List.drop_zero, hrun,
    if_neg hne, if_neg (by decide), Nat.zero_add]

/-! ## A record in the buffer -/

section Record

variable {record : PaxRecord} {front back : List UInt8} {line : Nat} {r : PaxReader}

/-- The key and the value, with what is in front of the value and behind it. -/
def PaxRecord.entry (record : PaxRecord) (equals ending : UInt8) : List UInt8 :=
  record.key ++ equals :: (record.value ++ [ending])

/-- The buffer with a record in it, and the bytes it is cut off with. -/
def around (front : List UInt8) (record : PaxRecord) (equals ending : UInt8)
    (back : List UInt8) : List UInt8 :=
  front ++ (numeral 10 record.length ++ 32 :: (record.entry equals ending ++ back))

theorem bytes_around (front : List UInt8) (record : PaxRecord) (back : List UInt8) :
    front ++ (record.bytes ++ back) = around front record 0x3D newline back := by
  simp [PaxRecord.bytes, PaxRecord.entry, around]

theorem length_entry (record : PaxRecord) (equals ending : UInt8) :
    (numeral 10 record.length).length + 1 + (record.entry equals ending).length =
      record.length := by
  have hcounts := record.counts
  simp only [PaxRecord.entry, List.length_append, List.length_cons, List.length_nil]
  omega

theorem length_around (front : List UInt8) (record : PaxRecord) (equals ending : UInt8)
    (back : List UInt8) :
    (around front record equals ending back).length =
      front.length + record.length + back.length := by
  have hlength := length_entry record equals ending
  simp only [around, List.length_append, List.length_cons]
  omega

theorem set_around_ending (h : line = front.length + record.length - 1) (equals ending c : UInt8) :
    (around front record equals ending back).set line c = around front record equals c back := by
  have hsplit : ∀ d, around front record equals d back =
      (front ++ (numeral 10 record.length ++ 32 :: (record.key ++ equals :: record.value))) ++
        d :: back := by
    intro d
    simp [around, PaxRecord.entry]
  rw [hsplit ending, hsplit c]
  apply set_middle
  have hcounts := record.counts
  simp only [List.length_append, List.length_cons]
  omega

theorem set_around_equals
    (h : line = front.length + (numeral 10 record.length).length + 1 + record.key.length)
    (equals ending c : UInt8) :
    (around front record equals ending back).set line c = around front record c ending back := by
  have hsplit : ∀ d, around front record d ending back =
      (front ++ (numeral 10 record.length ++ 32 :: record.key)) ++
        d :: (record.value ++ ending :: back) := by
    intro d
    simp [around, PaxRecord.entry]
  rw [hsplit equals, hsplit c]
  apply set_middle
  simp only [List.length_append, List.length_cons]
  omega

theorem recordLength_record (hbuffer : r.buffer = around front record 0x3D newline back)
    (hline : front.length = line) (hback : 0 ∈ back) (hlong : record.length < 2 ^ 63) :
    recordLength line r = .ok (record.length, line + (numeral 10 record.length).length)
      { r with buffer := around front record 0x3D 0 back } := by
  have hdigits : ∀ c ∈ numeral 10 record.length, isDigitOf 10 c = true :=
    fun c hc => isDigitOf_of_mem_numeral (by decide) (by decide) hc
  have hnul : 0 ∉ numeral 10 record.length :=
    fun hmem => (plain_of_isDigitOf (hdigits 0 hmem)).2.2.2 rfl
  have hrest : 0 ∈ record.entry 0x3D newline ++ back := List.mem_append_right _ hback
  have htext : ∃ rest, cstrAt r.buffer line = some (numeral 10 record.length ++ 32 :: rest) := by
    refine ⟨(record.entry 0x3D newline ++ back).takeWhile (· != 0), ?_⟩
    rw [hbuffer, around, cstrAt_append hline hnul (List.mem_cons_of_mem _ hrest)]
    rfl
  obtain ⟨rest, htext⟩ := htext
  have hstrtol : strtol (numeral 10 record.length ++ 32 :: rest) =
      ((record.length : Int), (numeral 10 record.length).length) := by
    rw [strtol_digits (numeral_ne_nil _ _) hdigits (by decide), digitsValue_numeral (by decide)
      (by decide)]
    congr 1
    unfold clampLong
    omega
  have hat : r.buffer[line + (numeral 10 record.length).length]? = some 32 := by
    rw [hbuffer, around, ← List.append_assoc]
    exact getElem?_middle (by rw [List.length_append, hline])
  have hpos : 0 < record.length := by
    have hcounts := record.counts
    omega
  have hdigit : (numeral 10 record.length).length ≠ 0 := by
    simpa using numeral_ne_nil 10 record.length
  have hspace : back.length ≠ 0 := by
    intro hzero
    rw [List.length_eq_zero_iff] at hzero
    rw [hzero] at hback
    cases hback
  have hlength := length_around front record 0x3D newline back
  rw [← hbuffer] at hlength
  unfold recordLength
  rw [Call.bind_apply, Call.get_apply, Outcome.bind_ok, htext, Call.within_some, Call.bind_apply,
    Call.pure_apply, Outcome.bind_ok, hstrtol, hat, Call.within_some, Call.bind_apply,
    Call.pure_apply, Outcome.bind_ok, if_neg, if_neg (by omega), Call.bind_apply,
    store_of_lt (by omega), Outcome.bind_ok, Call.pure_apply, hbuffer, Int.toNat_natCast,
    set_around_ending (by omega)]
  simp only [not_or]
  exact ⟨hdigit, by decide, by omega⟩

/-- The blank is skipped, and nothing of the key. -/
theorem skipSpaces_around (hkey : PlainKey record.key) (hline : front.length = line)
    (equals ending : UInt8) (hback : back ≠ []) :
    skipSpaces (around front record equals ending back)
      (line + (numeral 10 record.length).length) =
        line + (numeral 10 record.length).length + 1 := by
  obtain ⟨c, rest, hcons, hspace⟩ := hkey.first
  have hlength := length_around front record equals ending back
  have hentry := length_entry record equals ending
  have hdrop : (around front record equals ending back).drop
      (line + (numeral 10 record.length).length) =
        32 :: c :: (rest ++ equals :: (record.value ++ [ending]) ++ back) := by
    rw [around, ← List.append_assoc,
      List.drop_left' (by rw [List.length_append, hline]), PaxRecord.entry, hcons]
    rfl
  have hback' : 0 < back.length := List.length_pos_iff.2 hback
  have hentry' : 2 ≤ (record.entry equals ending).length := by
    simp only [PaxRecord.entry, List.length_append, List.length_cons]
    omega
  obtain ⟨k, hk⟩ : ∃ k, (around front record equals ending back).length - 1 -
      (line + (numeral 10 record.length).length) = k + 2 :=
    ⟨(around front record equals ending back).length - 1 -
      (line + (numeral 10 record.length).length) - 2, by omega⟩
  rw [skipSpaces, hdrop, hk, List.take_succ_cons, List.take_succ_cons,
    List.takeWhile_cons_of_pos (by decide), List.takeWhile_cons_of_neg (by simp [hspace])]
  rfl

theorem recordKey_record (hbuffer : r.buffer = around front record 0x3D 0 back)
    (hkey : PlainKey record.key) (hline : front.length = line) (hback : back ≠ []) :
    recordKey line record.length (line + (numeral 10 record.length).length) r =
      .ok (line + (numeral 10 record.length).length + 1,
          line + (numeral 10 record.length).length + 1 + record.key.length + 1)
        { r with buffer := around front record 0 0 back } := by
  have hskip := skipSpaces_around hkey hline 0x3D 0 hback
  have hsplit : around front record 0x3D 0 back = (front ++ (numeral 10 record.length ++ [32])) ++
      (record.key ++ 0x3D :: (record.value ++ 0 :: back)) := by
    simp [around, PaxRecord.entry]
  have hfront : (front ++ (numeral 10 record.length ++ [32])).length =
      line + (numeral 10 record.length).length + 1 := by
    simp only [List.length_append, List.length_cons, List.length_nil, hline]
    omega
  have hends : ∀ c ∈ record.key, endsKey c = false := by
    intro c hc
    have hnul : c ≠ 0 := by
      rintro rfl
      exact hkey.no_nul hc
    have hequals : c ≠ 0x3D := by
      rintro rfl
      exact hkey.no_equals hc
    simp [endsKey, hnul, hequals]
  have hpos : 0 < record.key.length := by
    obtain ⟨c, rest, hcons, -⟩ := hkey.first
    rw [hcons]
    exact Nat.succ_pos _
  have hfind : findAt endsKey r.buffer (line + (numeral 10 record.length).length + 1) =
      some (line + (numeral 10 record.length).length + 1 + record.key.length) := by
    rw [hbuffer, hsplit]
    exact findAt_middle hfront hends (by decide) _
  have hat : r.buffer[line + (numeral 10 record.length).length + 1 + record.key.length]? =
      some 0x3D := by
    rw [hbuffer, hsplit, ← List.append_assoc]
    exact getElem?_middle (by rw [List.length_append, hfront])
  have hlength := length_around front record 0x3D 0 back
  have hcounts := record.counts
  have hback' : 0 < back.length := List.length_pos_iff.2 hback
  rw [← hbuffer] at hlength hskip
  unfold recordKey
  rw [Call.bind_apply, Call.get_apply, Outcome.bind_ok, hskip, if_neg (by omega), hfind,
    Call.within_some, Call.bind_apply, Call.pure_apply, Outcome.bind_ok, if_neg, Call.bind_apply,
    store_of_lt (by omega), Outcome.bind_ok, Call.pure_apply, hbuffer,
    set_around_equals (by omega)]
  simp only [not_or, hat]
  exact ⟨by omega, not_not.2 rfl⟩

theorem recordValue_record {state : PaxState} (hbuffer : r.buffer = around front record 0 0 back)
    (hkey : PlainKey record.key) (hline : front.length = line) (hlong : record.length < 2 ^ 63)
    (hstate : handleRecord r.state record.key (cString record.value) record.value = some state) :
    recordValue line record.length (line + (numeral 10 record.length).length + 1)
        (line + (numeral 10 record.length).length + 1 + record.key.length + 1) r =
      .ok () { r with state := state } := by
  have hsplit : around front record 0 0 back = (front ++ (numeral 10 record.length ++ [32])) ++
      (record.key ++ 0 :: (record.value ++ 0 :: back)) := by
    simp [around, PaxRecord.entry]
  have hsplit' : around front record 0 0 back =
      (front ++ (numeral 10 record.length ++ 32 :: (record.key ++ [0]))) ++
        (record.value ++ 0 :: back) := by
    simp [around, PaxRecord.entry]
  have hfront : (front ++ (numeral 10 record.length ++ [32])).length =
      line + (numeral 10 record.length).length + 1 := by
    simp only [List.length_append, List.length_cons, List.length_nil, hline]
    omega
  have hfront' : (front ++ (numeral 10 record.length ++ 32 :: (record.key ++ [0]))).length =
      line + (numeral 10 record.length).length + 1 + record.key.length + 1 := by
    simp only [List.length_append, List.length_cons, List.length_nil, hline]
    omega
  have hname : cstrAt r.buffer (line + (numeral 10 record.length).length + 1) =
      some record.key := by
    rw [hbuffer, hsplit, cstrAt_append hfront hkey.no_nul List.mem_cons_self]
    simp
  have htext : cstrAt r.buffer
      (line + (numeral 10 record.length).length + 1 + record.key.length + 1) =
        some (cString record.value) := by
    rw [hbuffer, hsplit']
    exact cstrAt_middle hfront' _ _
  have hcounts := record.counts
  have hsize : sub64 record.length
      (line + (numeral 10 record.length).length + 1 + record.key.length + 1 - line + 1) =
        record.value.length := by
    rw [sub64_of_le (by omega) (by omega)]
    omega
  have hbytes : bytesAt r.buffer
      (line + (numeral 10 record.length).length + 1 + record.key.length + 1)
      record.value.length = some record.value := by
    rw [hbuffer, hsplit']
    exact bytesAt_middle hfront' rfl _
  unfold recordValue
  rw [Call.bind_apply, Call.get_apply, Outcome.bind_ok, hname, Call.within_some, Call.bind_apply,
    Call.pure_apply, Outcome.bind_ok, htext, Call.within_some, Call.bind_apply, Call.pure_apply,
    Outcome.bind_ok, hsize, hbytes, Call.within_some, Call.bind_apply, Call.pure_apply,
    Outcome.bind_ok, hstate]
  rfl

/-- A round of the loop over a record. -/
theorem readRecord_record {state : PaxState} (hbuffer : r.buffer = front ++ (record.bytes ++ back))
    (hkey : PlainKey record.key) (hline : front.length = line) (hback : 0 ∈ back)
    (hlong : record.length < 2 ^ 63)
    (hstate : handleRecord r.state record.key (cString record.value) record.value = some state) :
    readRecord line r = .ok record.length ⟨around front record 0 0 back, state⟩ := by
  have hne : back ≠ [] := List.ne_nil_of_mem hback
  rw [bytes_around] at hbuffer
  unfold readRecord
  rw [Call.bind_apply, recordLength_record hbuffer hline hback hlong, Outcome.bind_ok,
    Call.bind_apply]
  dsimp only
  rw [recordKey_record rfl hkey hline hne, Outcome.bind_ok, Call.bind_apply]
  dsimp only
  have hvalue := recordValue_record (r := ⟨around front record 0 0 back, r.state⟩) rfl hkey hline
    hlong hstate
  rw [hvalue]
  rfl

end Record

/-! ## All records -/

/-- What the records do, one after the other. -/
def handleRecords (state : PaxState) (records : List PaxRecord) : Option PaxState :=
  records.foldlM (fun state record =>
    handleRecord state record.key (cString record.value) record.value) state

/-- The records as they are written. -/
def paxBytes (records : List PaxRecord) : List UInt8 := records.flatMap PaxRecord.bytes

/-- The loop over records handles each of them, in their order. -/
theorem paxLoop_records {records : List PaxRecord} {fuel : Nat} {front : List UInt8}
    {state state' : PaxState} (hkeys : ∀ record ∈ records, PlainKey record.key)
    (hlong : (paxBytes records).length < 2 ^ 63) (hfuel : (paxBytes records).length < fuel)
    (hstate : handleRecords state records = some state') :
    ∃ buffer, paxLoop fuel front.length ⟨front ++ (paxBytes records ++ [0]), state⟩ =
      .ok () ⟨buffer, state'⟩ := by
  induction records generalizing fuel front state with
  | nil =>
      obtain ⟨fuel, rfl⟩ := Nat.exists_eq_add_one_of_ne_zero
        (Nat.ne_of_gt (Nat.zero_lt_of_lt hfuel))
      cases hstate
      refine ⟨front ++ [0], ?_⟩
      rw [paxLoop, Call.bind_apply, Call.get_apply, Outcome.bind_ok, if_neg (by simp [paxBytes])]
      rfl
  | cons record records ih =>
      obtain ⟨fuel, rfl⟩ := Nat.exists_eq_add_one_of_ne_zero
        (Nat.ne_of_gt (Nat.zero_lt_of_lt hfuel))
      rw [handleRecords, List.foldlM_cons, Option.bind_eq_bind, Option.bind_eq_some_iff] at hstate
      obtain ⟨next, hnext, hrest⟩ := hstate
      have hlength : (paxBytes (record :: records)).length =
          record.length + (paxBytes records).length := by
        rw [paxBytes, List.flatMap_cons, List.length_append, record.length_bytes]
        rfl
      have hcounts := record.counts
      have hread : readRecord front.length ⟨front ++ (paxBytes (record :: records) ++ [0]), state⟩ =
          .ok record.length ⟨around front record 0 0 (paxBytes records ++ [0]), next⟩ :=
        readRecord_record (by simp [paxBytes]) (hkeys record List.mem_cons_self) rfl
          (List.mem_append_right _ List.mem_cons_self) (by omega) hnext
      have hsplit : around front record 0 0 (paxBytes records ++ [0]) =
          (front ++ (numeral 10 record.length ++ 32 :: record.entry 0 0)) ++
            (paxBytes records ++ [0]) := by
        simp [around]
      have hfront : (front ++ (numeral 10 record.length ++ 32 :: record.entry 0 0)).length =
          front.length + record.length := by
        have hentry := length_entry record 0 0
        simp only [List.length_append, List.length_cons]
        omega
      rw [paxLoop, Call.bind_apply, Call.get_apply, Outcome.bind_ok, if_pos, Call.bind_apply, hread,
        Outcome.bind_ok, hsplit, ← hfront]
      · exact ih (fun later hlater => hkeys later (List.mem_cons_of_mem _ hlater)) (by omega)
          (by omega) hrest
      · simp only [List.length_append, List.length_cons, List.length_nil]
        omega

end ImageTool.Tar
