import ImageTool.Fstree.CanonicalizeInPlace
import ImageTool.Tar.PaxFields
import ImageTool.Tar.XattrEncoding

/-!
# Decoding attributes in place

Key and value of an attribute stand in one allocation, each with a NUL behind it, and are decoded
where they stand.  A decoder is given the field it may write to, its terminator included: a store
outside of it, an access outside of the memory and a loop that does not end are `none`.
-/

namespace ImageTool.Tar

open ImageTool.Lib ImageTool.Fstream
open Fstree (getElem?_unread)

/-- The positions of a field, up to its terminator. -/
structure Field where
  first : Nat
  last : Nat

/-- A store to a field. -/
def Field.store (field : Field) (mem : List UInt8) (i : Nat) (c : UInt8) : Option (List UInt8) :=
  if field.first ≤ i ∧ i ≤ field.last then Fstree.InPlace.store mem i c else none

/-! ## The key -/

/-- The first half of a turn of `urldecode`: the byte to be written, and the position behind what
it was read from. -/
def nextDecoded (mem : List UInt8) (x : UInt8) (inp : Nat) : Option (UInt8 × Nat) :=
  if x = 0x25 then do
    let a ← mem[inp]?
    if isHexDigit a then do
      let b ← mem[inp + 1]?
      if isHexDigit b then
        some (UInt8.ofNat ((hexDigit a <<< 4) ||| hexDigit b), inp + 2)
      else some (x, inp)
    else some (x, inp)
  else some (x, inp)

/-- The loop of `urldecode` with the NUL behind it. -/
def urldecodeLoop (field : Field) : Nat → List UInt8 → Nat → Nat → Option (List UInt8)
  | 0, _, _, _ => none
  | fuel + 1, mem, out, inp => do
      let x ← mem[inp]?
      if x = 0 then field.store mem out 0
      else do
        let (x, inp) ← nextDecoded mem x (inp + 1)
        let mem ← field.store mem out x
        urldecodeLoop field fuel mem (out + 1) inp

/-- `urldecode`. -/
def urldecodeInPlace (field : Field) (mem : List UInt8) : Option (List UInt8) :=
  urldecodeLoop field mem.length mem field.first field.first

/-! ## The value -/

/-- The inner loop of `base64_decode`, with `4 - diff` for the turns it has left: the position and
the length that is left, and `diff` and the value of the group. -/
def base64ReadLoop (mem : List UInt8) : Nat → Nat → Nat → Nat → Option (Nat × Nat × Nat × Nat)
  | 0, inp, len, value => some (inp, len, 4, value)
  | n + 1, inp, len, value =>
      if len = 0 then some (inp, 0, 4 - (n + 1), value)
      else do
        let c ← mem[inp]?
        if base64Stops c then some (inp, 0, 4 - (n + 1), value)
        else base64ReadLoop mem n (inp + 1) (len - 1) ((value <<< 6) ||| base64Digit c)

/-- The `switch` of `base64_decode`, each case of which falls through to the next one. -/
def storeGroup (field : Field) (mem : List UInt8) (out diff value : Nat) :
    Option (List UInt8) := do
  let mem ← if diff = 4 then field.store mem (out + 2) (UInt8.ofNat value) else some mem
  let mem ← if 3 ≤ diff then field.store mem (out + 1) (UInt8.ofNat (value >>> 8)) else some mem
  field.store mem out (UInt8.ofNat (value >>> 16))

/-- The outer loop of `base64_decode`: the memory and `out`. -/
def base64Loop (field : Field) : Nat → List UInt8 → Nat → Nat → Nat → Option (List UInt8 × Nat)
  | 0, _, _, _, _ => none
  | fuel + 1, mem, out, inp, len =>
      if len = 0 then some (mem, out)
      else do
        let (inp, len, diff, value) ← base64ReadLoop mem 4 inp len 0
        if diff < 2 then some (mem, out)
        else do
          let mem ← storeGroup field mem out diff (value <<< (6 * (4 - diff)))
          base64Loop field fuel mem (out + diff * 3 / 4) inp len

/-- `base64_decode`: the memory, and what it returns. -/
def base64DecodeInPlace (field : Field) (mem : List UInt8) (len : Nat) :
    Option (List UInt8 × Nat) := do
  let (mem, out) ← base64Loop field (len + 1) mem field.first field.first len
  let mem ← field.store mem out 0
  some (mem, out - field.first)

/-! ## The attribute -/

/-- `tar_xattr_t`, with the positions of its pointers. -/
structure XattrBuffer where
  key : Nat
  value : Nat
  valueLen : Nat

/-- What `mkxattr` puts into `data`. -/
def xattrData (key value : List UInt8) : List UInt8 := cString key ++ 0 :: (value ++ [0])

/-- `mkxattr`, with the position of `data`. -/
def mkxattrAt (data : Nat) (key value : List UInt8) : XattrBuffer :=
  ⟨data, data + (cString key).length + 1, value.length⟩

/-- The key with its terminator. -/
def XattrBuffer.keyField (xattr : XattrBuffer) : Field := ⟨xattr.key, xattr.value - 1⟩

/-- The value with its terminator. -/
def XattrBuffer.valueField (xattr : XattrBuffer) : Field :=
  ⟨xattr.value, xattr.value + xattr.valueLen⟩

/-- `pax_xattr_libarchive` on the memory that holds the attribute. -/
def paxXattrLibarchiveInPlace (mem : List UInt8) (xattr : XattrBuffer) :
    Option (List UInt8 × XattrBuffer) := do
  let mem ← urldecodeInPlace xattr.keyField mem
  let (mem, valueLen) ← base64DecodeInPlace xattr.valueField mem xattr.valueLen
  some (mem, { xattr with valueLen := valueLen })

section Key

variable {field : Field} {out gap text back : List UInt8} {c : UInt8} {dst inp fuel : Nat}

theorem Field.store_gap (hgap : gap ≠ []) (hdst : out.length = dst) (hfirst : field.first ≤ dst)
    (hlast : dst ≤ field.last) (back : List UInt8) (c : UInt8) :
    field.store (out ++ (gap ++ back)) dst c = some ((out ++ [c]) ++ (gap.tail ++ back)) := by
  rw [Field.store, if_pos ⟨hfirst, hlast⟩, Fstree.store_gap hgap hdst]

/-- The decoded text of a field begins its contents, and the field keeps its length and its
terminator. -/
def Decoded (decoded : List UInt8) (length : Nat) (contents : List UInt8) : Prop :=
  contents.length = length ∧ decoded ++ [0] <+: contents ++ [0]

theorem Decoded.cons {decoded contents : List UInt8} {length : Nat}
    (h : Decoded decoded length contents) (c : UInt8) :
    Decoded (c :: decoded) (length + 1) (c :: contents) :=
  ⟨by rw [List.length_cons, h.1], (List.cons_prefix_cons).2 ⟨rfl, h.2⟩⟩

/-- The terminator is written at the front of what is left of the field. -/
theorem store_terminator (hdst : out.length = dst) (hfirst : field.first ≤ dst)
    (hlast : dst + gap.length ≤ field.last) (back : List UInt8) :
    ∃ contents, Decoded [] gap.length contents ∧
      field.store (out ++ (gap ++ 0 :: back)) dst 0 = some (out ++ (contents ++ 0 :: back)) := by
  have hstore := @Field.store_gap field out (gap ++ [0]) dst (by simp) hdst hfirst (by omega) back 0
  rw [List.append_assoc, List.singleton_append] at hstore
  cases gap with
  | nil => exact ⟨[], ⟨rfl, List.prefix_refl _⟩, by simpa using hstore⟩
  | cons g gap =>
      refine ⟨0 :: gap, ⟨rfl, ?_⟩, by simpa using hstore⟩
      simp

/-- A percent sign without two hex digits behind it is taken as it is. -/
theorem urldecode_percent
    (h : ∀ a b rest, text = a :: b :: rest → ¬ (isHexDigit a = true ∧ isHexDigit b = true)) :
    urldecode (0x25 :: text) = 0x25 :: urldecode text := by
  cases text with
  | nil => rfl
  | cons a text =>
      cases text with
      | nil => rfl
      | cons b rest => rw [urldecode, if_neg (h a b rest rfl)]

section NextDecoded

variable {mem : List UInt8} {a b : UInt8}

theorem nextDecoded_plain (hc : c ≠ 0x25) : nextDecoded mem c inp = some (c, inp) := by
  rw [nextDecoded, if_neg hc]

theorem nextDecoded_first (hat : mem[inp]? = some a) (ha : isHexDigit a = false) :
    nextDecoded mem 0x25 inp = some (0x25, inp) := by
  rw [nextDecoded, if_pos rfl, hat]
  simp [ha]

theorem nextDecoded_second (hat : mem[inp]? = some a) (hat' : mem[inp + 1]? = some b)
    (hb : isHexDigit b = false) : nextDecoded mem 0x25 inp = some (0x25, inp) := by
  rw [nextDecoded, if_pos rfl, hat, hat']
  simp [hb]

theorem nextDecoded_both (hat : mem[inp]? = some a) (hat' : mem[inp + 1]? = some b)
    (ha : isHexDigit a = true) (hb : isHexDigit b = true) :
    nextDecoded mem 0x25 inp = some (UInt8.ofNat (16 * hexDigit a + hexDigit b), inp + 2) := by
  rw [nextDecoded, if_pos rfl, hat, hat', ← hexDigit_or hb]
  simp [ha, hb]

end NextDecoded

/-- What a turn of `urldecode` reads is the front of the text that is left. -/
theorem nextDecoded_eq (hinp : out.length + gap.length = inp) (c : UInt8) (text back : List UInt8) :
    ∃ x run rest, c :: text = run ++ rest ∧ run ≠ [] ∧
      urldecode (c :: text) = x :: urldecode rest ∧
      nextDecoded (out ++ (gap ++ (c :: text ++ 0 :: back))) c (inp + 1) =
        some (x, inp + run.length) := by
  have hplain : urldecode (c :: text) = c :: urldecode text →
      nextDecoded (out ++ (gap ++ (c :: text ++ 0 :: back))) c (inp + 1) = some (c, inp + 1) →
      ∃ x run rest, c :: text = run ++ rest ∧ run ≠ [] ∧
        urldecode (c :: text) = x :: urldecode rest ∧
        nextDecoded (out ++ (gap ++ (c :: text ++ 0 :: back))) c (inp + 1) =
          some (x, inp + run.length) :=
    fun hdecode hnext => ⟨c, [c], text, rfl, by simp, hdecode, hnext⟩
  by_cases hc : c = 0x25
  · subst hc
    have hread : ∀ k, (out ++ (gap ++ (0x25 :: text ++ 0 :: back)))[inp + k]? =
        (0x25 :: text ++ 0 :: back)[k]? := by
      intro k
      rw [← List.append_assoc, List.getElem?_append_right (by simp; omega)]
      congr 1
      simp
      omega
    have hat := hread 1
    have hat' := hread 2
    cases text with
    | nil => exact hplain (urldecode_percent (by simp)) (nextDecoded_first hat rfl)
    | cons a text =>
        cases ha : isHexDigit a with
        | false =>
            refine hplain (urldecode_percent ?_) (nextDecoded_first hat ha)
            rintro a' b rest heq ⟨ha', -⟩
            cases heq
            rw [ha] at ha'
            cases ha'
        | true =>
            cases text with
            | nil =>
                exact hplain (urldecode_percent (by simp)) (nextDecoded_second hat hat' rfl)
            | cons b rest =>
                cases hb : isHexDigit b with
                | false =>
                    refine hplain (urldecode_percent ?_) (nextDecoded_second hat hat' hb)
                    rintro a' b' rest' heq ⟨-, hb'⟩
                    cases heq
                    rw [hb] at hb'
                    cases hb'
                | true =>
                    exact ⟨UInt8.ofNat (16 * hexDigit a + hexDigit b), [0x25, a, b], rest, rfl,
                      by simp, urldecode_escaped ha hb rest, nextDecoded_both hat hat' ha hb⟩
  · exact hplain (urldecode_plain hc text) (nextDecoded_plain hc)

theorem urldecodeLoop_eq (htext : 0 ∉ text) (hfuel : text.length < fuel)
    (hdst : out.length = dst) (hinp : out.length + gap.length = inp)
    (hfirst : field.first ≤ dst) (hlast : inp + text.length ≤ field.last) (back : List UInt8) :
    ∃ contents, Decoded (urldecode text) (gap.length + text.length) contents ∧
      urldecodeLoop field fuel (out ++ (gap ++ (text ++ 0 :: back))) dst inp =
        some (out ++ (contents ++ 0 :: back)) := by
  induction fuel generalizing out gap text dst inp with
  | zero => exact absurd hfuel (Nat.not_lt_zero _)
  | succ fuel ih =>
      cases text with
      | nil =>
          have hend := @store_terminator field out gap dst hdst hfirst
            (by rw [List.length_nil] at hlast; omega) back
          obtain ⟨contents, hcontents, hstore⟩ := hend
          have hat := getElem?_unread hinp 0 back
          refine ⟨contents, hcontents, ?_⟩
          rw [List.nil_append, urldecodeLoop, hat]
          exact hstore
      | cons c text =>
          obtain ⟨x, run, rest, hsplit, hrun, hdecode, hnext⟩ :=
            nextDecoded_eq hinp c text back
          have hc : c ≠ 0 := by
            rintro rfl
            exact htext List.mem_cons_self
          have hat : (out ++ (gap ++ (c :: text ++ 0 :: back)))[inp]? = some c :=
            getElem?_unread hinp c (text ++ 0 :: back)
          have hlen := congrArg List.length hsplit
          rw [List.length_append] at hlen
          have hpos := List.length_pos_iff.2 hrun
          have hgap : gap ++ run ≠ [] := by simp [hrun]
          have hstore := @Field.store_gap field out (gap ++ run) dst hgap hdst hfirst (by omega)
            (rest ++ 0 :: back) x
          have hbuffer : out ++ (gap ++ (c :: text ++ 0 :: back)) =
              out ++ (gap ++ run ++ (rest ++ 0 :: back)) := by
            rw [hsplit]
            simp
          have hgap' : (gap ++ run).tail.length = gap.length + run.length - 1 := by simp
          have hrest : 0 ∉ rest := fun hmem =>
            htext (by rw [hsplit]; exact List.mem_append_right _ hmem)
          obtain ⟨contents, hcontents, hloop⟩ := @ih (out ++ [x]) (gap ++ run).tail rest (dst + 1)
            (inp + run.length) hrest (by omega) (by simp [hdst])
            (by rw [List.length_append, List.length_singleton, hgap']; omega) (by omega) (by omega)
          refine ⟨x :: contents, ?_, ?_⟩
          · have hcons := hcontents.cons x
            rw [hgap'] at hcons
            rw [hdecode, hlen]
            have hsum : gap.length + run.length - 1 + rest.length + 1 =
                gap.length + (run.length + rest.length) := by omega
            rwa [hsum] at hcons
          · rw [urldecodeLoop, hat]
            simp only [Option.bind_eq_bind, Option.bind_some, if_neg hc, hnext]
            rw [hbuffer, hstore, Option.bind_some, hloop]
            simp

/-- The key is decoded within its field. -/
theorem urldecodeInPlace_eq (htext : 0 ∉ text) (hfirst : out.length = field.first)
    (hlast : field.first + text.length ≤ field.last) (back : List UInt8) :
    ∃ contents, Decoded (urldecode text) text.length contents ∧
      urldecodeInPlace field (out ++ (text ++ 0 :: back)) =
        some (out ++ (contents ++ 0 :: back)) := by
  have hfuel : text.length < (out ++ (text ++ 0 :: back)).length := by
    simp
    omega
  have hloop := @urldecodeLoop_eq field out [] text field.first field.first _ htext hfuel hfirst
    hfirst (Nat.le_refl _) hlast back
  rw [List.length_nil, Nat.zero_add] at hloop
  exact hloop

end Key

section Value

variable {field : Field} {out gap value back : List UInt8} {dst inp fuel n : Nat}

/-- The inner loop reads the characters in front of the first one it stops at, four at most. -/
theorem base64ReadLoop_eq (hn : n ≤ 4) (hinp : out.length = inp) (acc : Nat) (back : List UInt8) :
    base64ReadLoop (out ++ (value ++ back)) n inp value.length acc =
      some (inp + ((value.take n).takeWhile fun c => !base64Stops c).length,
        if ((value.take n).takeWhile fun c => !base64Stops c).length < n then 0
          else value.length - n,
        4 - n + ((value.take n).takeWhile fun c => !base64Stops c).length,
        ((value.take n).takeWhile fun c => !base64Stops c).foldl
          (fun value c => (value <<< 6) ||| base64Digit c) acc) := by
  induction n generalizing out value inp acc with
  | zero => simp [base64ReadLoop]
  | succ n ih =>
      cases value with
      | nil => simp [base64ReadLoop]
      | cons c value =>
          have hat : (out ++ (c :: value ++ back))[inp]? = some c := getElem?_middle hinp
          rw [base64ReadLoop, if_neg (by simp), hat, List.take_succ_cons]
          cases hc : base64Stops c with
          | true => simp [hc]
          | false =>
              have hnext := @ih (out ++ [c]) value (inp + 1) (by omega) (by simp [hinp])
                ((acc <<< 6) ||| base64Digit c)
              rw [List.append_assoc, List.singleton_append] at hnext
              rw [List.takeWhile_cons_of_pos (by simp [hc])]
              simp only [Option.bind_eq_bind, Option.bind_some, List.cons_append, List.length_cons,
                Nat.add_sub_cancel, List.foldl_cons, Nat.add_lt_add_iff_right]
              rw [if_neg (by simp [hc]), hnext]
              simp
              omega

theorem Field.store_middle {c d : UInt8} (hdst : out.length = dst) (hfirst : field.first ≤ dst)
    (hlast : dst ≤ field.last) :
    field.store (out ++ c :: back) dst d = some (out ++ d :: back) := by
  have hstore := @Field.store_gap field out [c] dst (by simp) hdst hfirst hlast back d
  simpa using hstore

/-- The bytes of a group are written from the last one to the first. -/
theorem storeGroup_eq {diff acc : Nat} (htwo : 2 ≤ diff) (hfour : diff ≤ 4)
    (hgap : diff ≤ gap.length) (hdst : out.length = dst) (hfirst : field.first ≤ dst)
    (hlast : dst + gap.length ≤ field.last) (back : List UInt8) :
    storeGroup field (out ++ (gap ++ back)) dst diff acc =
      some (out ++ ([UInt8.ofNat (acc >>> 16), UInt8.ofNat (acc >>> 8), UInt8.ofNat acc].take
        (diff * 3 / 4) ++ (gap.drop (diff * 3 / 4) ++ back))) := by
  match gap, hgap with
  | [], hgap => exact absurd hgap (by simp; omega)
  | [g], hgap => exact absurd hgap (by simp; omega)
  | g :: h :: gap, hgap =>
      simp only [List.length_cons] at hlast
      have hsecond : ∀ (gap : List UInt8) (d : UInt8),
          field.store (out ++ (g :: h :: gap ++ back)) (dst + 1) d =
            some (out ++ (g :: d :: gap ++ back)) := by
        intro gap d
        have hstore := @Field.store_middle field (out ++ [g]) (gap ++ back) (dst + 1) h d
          (by simp [hdst]) (by omega) (by omega)
        simpa using hstore
      have hhead : ∀ (gap : List UInt8) (d : UInt8), field.store (out ++ (g :: gap ++ back)) dst d =
          some (out ++ (d :: gap ++ back)) := by
        intro gap d
        exact @Field.store_middle field out (gap ++ back) dst g d hdst hfirst (by omega)
      unfold storeGroup
      rcases (by omega : diff = 2 ∨ diff = 3 ∨ diff = 4) with rfl | rfl | rfl
      · simp only [Option.bind_eq_bind]
        rw [if_neg (by decide), Option.bind_some, if_neg (by decide), Option.bind_some, hhead]
        rfl
      · simp only [Option.bind_eq_bind]
        rw [if_neg (by decide), Option.bind_some, if_pos (by decide), hsecond, Option.bind_some,
          hhead]
        rfl
      · cases gap with
        | nil => exact absurd hgap (by simp)
        | cons k gap =>
            have hstore := @Field.store_middle field (out ++ [g, h]) (gap ++ back) (dst + 2) k
              (UInt8.ofNat acc) (by simp [hdst]) (by omega) (by simp at hlast; omega)
            have hthird : field.store (out ++ (g :: h :: k :: gap ++ back)) (dst + 2)
                (UInt8.ofNat acc) = some (out ++ (g :: h :: UInt8.ofNat acc :: gap ++ back)) := by
              simpa using hstore
            simp only [Option.bind_eq_bind]
            rw [if_pos trivial, hthird, Option.bind_some, if_pos (by decide), hsecond,
              Option.bind_some,
              hhead]
            rfl

theorem length_base64Group {group : List UInt8} (hfour : group.length ≤ 4) :
    (base64Group group).length = group.length * 3 / 4 := by
  unfold base64Group
  simp
  omega

/-- The bytes of a group are stored at the front of the gap and the group. -/
theorem storeGroup_group {group : List UInt8} (htwo : 2 ≤ group.length) (hfour : group.length ≤ 4)
    (hdst : out.length = dst) (hfirst : field.first ≤ dst)
    (hlast : dst + gap.length + group.length ≤ field.last) (back : List UInt8) :
    storeGroup field (out ++ (gap ++ (group ++ back))) dst group.length
        (group.foldl (fun value c => (value <<< 6) ||| base64Digit c) 0 <<<
          (6 * (4 - group.length))) =
      some (out ++
        (base64Group group ++ ((gap ++ group).drop (group.length * 3 / 4) ++ back))) := by
  rw [← List.append_assoc gap, storeGroup_eq htwo hfour (by simp) hdst hfirst
    (by rw [List.length_append]; omega)]
  rfl

/-- The decoded groups stand behind one another, and a gap in front of the terminator. -/
theorem base64Loop_eq (hfuel : value.length < fuel) (hdst : out.length = dst)
    (hinp : out.length + gap.length = inp) (hfirst : field.first ≤ dst)
    (hlast : inp + value.length ≤ field.last) (back : List UInt8) :
    ∃ gap' : List UInt8,
      gap'.length + (base64Decode value).length = gap.length + value.length ∧
      base64Loop field fuel (out ++ (gap ++ (value ++ back))) dst inp value.length =
        some (out ++ (base64Decode value ++ (gap' ++ back)),
          dst + (base64Decode value).length) := by
  induction fuel generalizing out gap value dst inp with
  | zero => exact absurd hfuel (Nat.not_lt_zero _)
  | succ fuel ih =>
      by_cases hnil : value = []
      · subst hnil
        refine ⟨gap, ?_, ?_⟩
        · rw [base64Decode]
          rfl
        · rw [base64Loop, base64Decode]
          simp [base64Next]
      · have hpos := List.length_pos_iff.2 hnil
        have hread := @base64ReadLoop_eq (out ++ gap) value inp 4 (Nat.le_refl _)
          (by simp [hinp]) 0 back
        change _ = some (inp + (base64Next value).length,
          if (base64Next value).length < 4 then 0 else value.length - 4,
          4 - 4 + (base64Next value).length, (base64Next value).foldl
            (fun value c => (value <<< 6) ||| base64Digit c) 0) at hread
        rw [List.append_assoc, Nat.sub_self, Nat.zero_add] at hread
        have hfront : base64Next value <+: value :=
          (List.takeWhile_prefix _).trans (List.take_prefix _ _)
        have hfour : (base64Next value).length ≤ 4 :=
          Nat.le_trans (List.takeWhile_prefix _).length_le (List.length_take_le _ _)
        obtain ⟨rest, hrest⟩ := hfront
        have hlength := congrArg List.length hrest
        rw [List.length_append] at hlength
        have hdecode := base64Decode.eq_1 value
        rw [base64Loop, if_neg (by omega), hread]
        simp only [Option.bind_eq_bind, Option.bind_some]
        by_cases htwo : (base64Next value).length < 2
        · rw [if_pos htwo] at hdecode ⊢
          rw [hdecode]
          exact ⟨gap ++ value, by simp, by simp⟩
        · rw [if_neg htwo] at hdecode ⊢
          generalize base64Next value = group at *
          subst hrest
          have hsize := length_base64Group hfour
          have hgap : ((gap ++ group).drop (group.length * 3 / 4)).length =
              gap.length + group.length - group.length * 3 / 4 := by simp
          rw [List.append_assoc group, storeGroup_group (by omega) hfour hdst hfirst (by omega),
            Option.bind_some]
          by_cases hlast' : group.length < 4
          · -- the length is zero behind a last group
            rw [if_pos hlast'] at hdecode ⊢
            obtain ⟨fuel, rfl⟩ : ∃ k, fuel = k + 1 := ⟨fuel - 1, by omega⟩
            refine ⟨(gap ++ group).drop (group.length * 3 / 4) ++ rest, ?_, ?_⟩
            · rw [hdecode, hsize, List.length_append, List.length_append, hgap]
              omega
            · rw [base64Loop, if_pos rfl, hdecode, hsize, List.append_assoc _ rest]
          · have hrest : (group ++ rest).drop 4 = rest := List.drop_left' (by omega)
            rw [if_neg hlast', hrest] at hdecode
            obtain ⟨gap', hgap', hloop⟩ := @ih (out ++ base64Group group)
              ((gap ++ group).drop (group.length * 3 / 4)) rest (dst + group.length * 3 / 4)
              (inp + group.length) (by omega) (by rw [List.length_append, hsize, hdst])
              (by rw [List.length_append, hsize, hgap]; omega) (by omega)
              (by rw [List.length_append] at hlast; omega)
            have hlen : (group ++ rest).length - 4 = rest.length := by
              rw [List.length_append]
              omega
            refine ⟨gap', ?_, ?_⟩
            · rw [hgap] at hgap'
              rw [hdecode, List.length_append, List.length_append, hsize]
              omega
            · rw [if_neg hlast', hlen, ← List.append_assoc out, hloop, hdecode, List.length_append,
                hsize]
              simp only [List.append_assoc, Nat.add_assoc]

/-- The value is decoded within its field. -/
theorem base64DecodeInPlace_eq (hfirst : out.length = field.first)
    (hlast : field.first + value.length ≤ field.last) (back : List UInt8) :
    ∃ contents, contents.length = value.length ∧ base64Decode value <+: contents ∧
      base64DecodeInPlace field (out ++ (value ++ 0 :: back)) value.length =
        some (out ++ (contents ++ 0 :: back), (base64Decode value).length) := by
  have hloop := @base64Loop_eq field out [] value field.first field.first _
    (Nat.lt_succ_self value.length) hfirst hfirst (Nat.le_refl _) hlast (0 :: back)
  obtain ⟨gap, hgap, hloop⟩ := hloop
  rw [List.length_nil, Nat.zero_add] at hgap
  have hend := @store_terminator field (out ++ base64Decode value) gap
    (field.first + (base64Decode value).length) (by rw [List.length_append, hfirst]) (by omega)
    (by omega) back
  obtain ⟨rest, hrest, hstore⟩ := hend
  refine ⟨base64Decode value ++ rest, ?_, List.prefix_append _ _, ?_⟩
  · rw [List.length_append, hrest.1]
    omega
  · rw [List.append_assoc] at hstore
    unfold base64DecodeInPlace
    rw [List.nil_append] at hloop
    rw [hloop]
    simp only [Option.bind_eq_bind, Option.bind_some, hstore, Nat.add_sub_cancel_left]
    simp

end Value

section Attribute

theorem cString_of_prefix {decoded contents : List UInt8}
    (h : decoded ++ [0] <+: contents ++ [0]) : cString (contents ++ [0]) = cString decoded := by
  obtain ⟨rest, hrest⟩ := h
  unfold cString
  rw [← hrest, List.append_assoc, List.singleton_append, takeWhile_nul]

theorem notMem_cString (text : List UInt8) : 0 ∉ cString text := by
  intro hmem
  have h := List.mem_takeWhile_imp hmem
  cases h

/-- What `pax_xattr_libarchive` leaves in the memory: key and value decoded at the front of their
fields, and all that is behind a field, its terminator included, as it was. -/
theorem paxXattrLibarchiveInPlace_eq (before key value behind : List UInt8) :
    ∃ keyField valueField : List UInt8,
      paxXattrLibarchiveInPlace (before ++ (xattrData key value ++ behind))
          (mkxattrAt before.length key value) =
        some (before ++ (keyField ++ 0 :: (valueField ++ 0 :: behind)),
          { mkxattrAt before.length key value with valueLen := (base64Decode value).length }) ∧
      keyField.length = (cString key).length ∧ valueField.length = value.length ∧
      cString (keyField ++ [0]) = cString (urldecode (cString key)) ∧
      base64Decode value <+: valueField := by
  have hkey := @urldecodeInPlace_eq (mkxattrAt before.length key value).keyField before
    (cString key)
    (notMem_cString key) rfl (by simp [XattrBuffer.keyField, mkxattrAt]) (value ++ 0 :: behind)
  obtain ⟨keyField, hdecoded, hkey⟩ := hkey
  have hvalue := @base64DecodeInPlace_eq (mkxattrAt before.length key value).valueField
    (before ++ (keyField ++ [0])) value
    (by simp [XattrBuffer.valueField, mkxattrAt, hdecoded.1, Nat.add_assoc])
    (by simp [XattrBuffer.valueField, mkxattrAt]) behind
  obtain ⟨valueField, hlength, hfront, hvalue⟩ := hvalue
  have hdata : before ++ (xattrData key value ++ behind) =
      before ++ (cString key ++ 0 :: (value ++ 0 :: behind)) := by
    simp [xattrData]
  refine ⟨keyField, valueField, ?_, hdecoded.1, hlength, cString_of_prefix hdecoded.2,
    hfront⟩
  simp only [List.append_assoc, List.singleton_append] at hvalue
  unfold paxXattrLibarchiveInPlace
  rw [hdata, hkey]
  simp only [Option.bind_eq_bind, Option.bind_some]
  change (base64DecodeInPlace _ _ value.length).bind _ = _
  rw [hvalue]
  rfl

variable {before key value behind keyField valueField : List UInt8}

/-- The key is read from the front of its field. -/
theorem cstrAt_keyField (back : List UInt8) :
    cstrAt (before ++ (keyField ++ 0 :: back)) before.length =
      some (cString (keyField ++ [0])) := by
  rw [cstrAt_middle rfl, cString, takeWhile_nul]

theorem bytesAt_valueField (hkey : keyField.length = (cString key).length)
    (hfront : value <+: valueField) (data : List UInt8) (back : List UInt8) :
    bytesAt (before ++ (keyField ++ 0 :: (valueField ++ back)))
      (mkxattrAt before.length key data).value value.length = some value := by
  obtain ⟨rest, rfl⟩ := hfront
  have hat := @bytesAt_middle value (before ++ (keyField ++ [0])) (before.length +
    (cString key).length + 1) value.length (by simp [hkey, Nat.add_assoc]) rfl (rest ++ back)
  simpa [mkxattrAt] using hat

/-- Every attribute is decoded without an access outside of its fields, and nothing behind them is
changed.  An encoded key and an encoded value come back as they were. -/
theorem attribute_decoded_in_place (before keyText valueText behind : List UInt8) :
    ∃ keyField valueField mem xattr,
      paxXattrLibarchiveInPlace (before ++ (xattrData keyText valueText ++ behind))
        (mkxattrAt before.length keyText valueText) = some (mem, xattr) ∧
      mem = before ++ (keyField ++ 0 :: (valueField ++ 0 :: behind)) ∧
      keyField.length = (cString keyText).length ∧ valueField.length = valueText.length ∧
      ∀ key value, 0 ∉ key → PercentEncodes key keyText → Base64Encodes value valueText →
        cstrAt mem xattr.key = some key ∧ xattr.valueLen = value.length ∧
          bytesAt mem xattr.value xattr.valueLen = some value := by
  obtain ⟨keyField, valueField, hrun, hkey, hvalue, hdecoded, hfront⟩ :=
    paxXattrLibarchiveInPlace_eq before keyText valueText behind
  refine ⟨keyField, valueField, _, _, hrun, rfl, hkey, hvalue, ?_⟩
  intro key value hnul hkeyText hvalueText
  have htext : cString keyText = keyText := cString_of_not_mem hkeyText.no_nul
  rw [htext, urldecode_of_encodes hkeyText, cString_of_not_mem hnul] at hdecoded
  have hbytes := @bytesAt_valueField before keyText _ keyField valueField hkey hfront valueText
    (0 :: behind)
  rw [base64Decode_of_encodes hvalueText] at hbytes ⊢
  refine ⟨?_, rfl, hbytes⟩
  rw [← hdecoded]
  exact cstrAt_keyField _

/-- The key `a=` and the value `A`. -/
theorem attribute_decoded_in_place_escaped :
    ∃ mem xattr, paxXattrLibarchiveInPlace
        ([7] ++ (xattrData [0x61, 0x25, 0x33, 0x64] [0x51, 0x51, 0x3D, 0x3D] ++ [9]))
        (mkxattrAt 1 [0x61, 0x25, 0x33, 0x64] [0x51, 0x51, 0x3D, 0x3D]) = some (mem, xattr) ∧
      cstrAt mem xattr.key = some [0x61, 0x3D] ∧ bytesAt mem xattr.value 1 = some [0x41] := by
  obtain ⟨keyField, valueField, mem, xattr, hrun, -, -, -, hdecoded⟩ :=
    attribute_decoded_in_place [7] [0x61, 0x25, 0x33, 0x64] [0x51, 0x51, 0x3D, 0x3D] [9]
  have hkey : PercentEncodes [0x61, 0x3D] [0x61, 0x25, 0x33, 0x64] :=
    .cons (.plain (by decide) (by decide))
      (.cons (.escaped (a := 0x33) (b := 0x64) rfl rfl) .nil)
  have hvalue : Base64Encodes [0x41] [0x51, 0x51, 0x3D, 0x3D] := Or.inr (by decide)
  obtain ⟨hk, hlen, hv⟩ := hdecoded [0x61, 0x3D] [0x41] (by decide) hkey hvalue
  rw [hlen] at hv
  exact ⟨mem, xattr, hrun, hk, hv⟩

end Attribute

end ImageTool.Tar
