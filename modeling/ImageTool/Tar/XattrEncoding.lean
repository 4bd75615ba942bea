import ImageTool.Tar.PaxHeader

/-!
# Encoded attributes

In a `LIBARCHIVE.xattr` record the key is percent-encoded and the value is in base 64.  The
functions that decode them give back what was encoded.
-/

namespace ImageTool.Tar

/-! ## Keys -/

/-- A byte and how it may be written: as it is, or as two hex digits behind a percent sign. -/
inductive PercentByte : UInt8 → List UInt8 → Prop where
  | plain {c : UInt8} (hc : c ≠ 0x25) (hnul : c ≠ 0) : PercentByte c [c]
  | escaped {a b : UInt8} (ha : isHexDigit a = true) (hb : isHexDigit b = true) :
      PercentByte (UInt8.ofNat (16 * hexDigit a + hexDigit b)) [0x25, a, b]

/-- A key and a percent-encoding of it. -/
inductive PercentEncodes : List UInt8 → List UInt8 → Prop where
  | nil : PercentEncodes [] []
  | cons {c : UInt8} {key text rest : List UInt8} (hc : PercentByte c text)
      (h : PercentEncodes key rest) : PercentEncodes (c :: key) (text ++ rest)

theorem hexDigit_lt {c : UInt8} (h : isHexDigit c = true) : hexDigit c < 16 := by
  simp only [isHexDigit, Bool.or_eq_true, Bool.and_eq_true, decide_eq_true_eq,
    UInt8.le_iff_toNat_le, UInt8.reduceToNat] at h
  unfold hexDigit
  simp only [UInt8.le_iff_toNat_le, UInt8.reduceToNat]
  grind

theorem hexDigit_or {a b : UInt8} (hb : isHexDigit b = true) :
    (hexDigit a <<< 4) ||| hexDigit b = 16 * hexDigit a + hexDigit b := by
  rw [Nat.shiftLeft_eq, Nat.mul_comm]
  exact (Nat.two_pow_add_eq_or_of_lt (hexDigit_lt hb) (hexDigit a)).symm

theorem urldecode_plain {c : UInt8} (hc : c ≠ 0x25) (str : List UInt8) :
    urldecode (c :: str) = c :: urldecode str := by
  rw [urldecode]
  rintro a b rest rfl
  exact absurd rfl hc

theorem urldecode_escaped {a b : UInt8} (ha : isHexDigit a = true) (hb : isHexDigit b = true)
    (str : List UInt8) : urldecode (0x25 :: a :: b :: str) =
      UInt8.ofNat (16 * hexDigit a + hexDigit b) :: urldecode str := by
  rw [urldecode, if_pos ⟨ha, hb⟩, hexDigit_or hb]

/-- Every percent-encoding of a key is decoded to the key. -/
theorem urldecode_of_encodes {key text : List UInt8} (h : PercentEncodes key text) :
    urldecode text = key := by
  induction h with
  | nil => rfl
  | cons hc h ih =>
      cases hc with
      | plain hc hnul => rw [List.singleton_append, urldecode_plain hc, ih]
      | escaped ha hb =>
          simp only [List.cons_append, List.nil_append]
          rw [urldecode_escaped ha hb, ih]

/-- A percent-encoding has no NUL. -/
theorem PercentEncodes.no_nul {key text : List UInt8} (h : PercentEncodes key text) :
    0 ∉ text := by
  induction h with
  | nil => simp
  | cons hc h ih =>
      cases hc with
      | plain hc hnul => simp [ih, hnul.symm]
      | @escaped a b ha hb =>
          have hnot : ∀ c : UInt8, isHexDigit c = true → 0 ≠ c := by
            rintro c hc rfl
            cases hc
          simp [ih, hnot a ha, hnot b hb]

/-! ## Values -/

/-- The characters of base 64. -/
def base64Char (n : Nat) : UInt8 :=
  if n < 26 then UInt8.ofNat (0x41 + n)
  else if n < 52 then UInt8.ofNat (0x61 + (n - 26))
  else if n < 62 then UInt8.ofNat (0x30 + (n - 52))
  else if n = 62 then 0x2B
  else 0x2F

/-- Base 64 without padding: six bits a character, the last ones filled up with zeros. -/
def base64Encode : List UInt8 → List UInt8
  | [] => []
  | [a] => [base64Char (a.toNat / 4), base64Char (a.toNat % 4 * 16)]
  | [a, b] =>
      [base64Char (a.toNat / 4), base64Char (a.toNat % 4 * 16 + b.toNat / 16),
        base64Char (b.toNat % 16 * 4)]
  | a :: b :: c :: rest =>
      base64Char (a.toNat / 4) :: base64Char (a.toNat % 4 * 16 + b.toNat / 16) ::
        base64Char (b.toNat % 16 * 4 + c.toNat / 64) :: base64Char (c.toNat % 64) ::
          base64Encode rest

/-- The padding that fills the last group up to four characters. -/
def base64Padding (value : List UInt8) : List UInt8 :=
  List.replicate ((3 - value.length % 3) % 3) 0x3D

/-- A value and its text in base 64, with or without padding. -/
def Base64Encodes (value text : List UInt8) : Prop :=
  text = base64Encode value ∨ text = base64Encode value ++ base64Padding value

theorem base64Char_table : ∀ n < 64,
    base64Digit (base64Char n) = n ∧ base64Stops (base64Char n) = false := by
  decide

/-- A group is a number in base 64. -/
theorem foldl_group {ds : List Nat} (hds : ∀ d ∈ ds, d < 64) (value : Nat) :
    (ds.map base64Char).foldl (fun value c => (value <<< 6) ||| base64Digit c) value =
      ds.foldl (fun value d => value * 64 + d) value := by
  induction ds generalizing value with
  | nil => rfl
  | cons d ds ih =>
      have hd := hds d List.mem_cons_self
      have hor : (value <<< 6) ||| d = value * 64 + d := by
        rw [Nat.shiftLeft_eq, Nat.mul_comm]
        exact (Nat.two_pow_add_eq_or_of_lt hd value).symm.trans (by omega)
      rw [List.map_cons, List.foldl_cons, List.foldl_cons, (base64Char_table d hd).1, hor,
        ih fun e he => hds e (List.mem_cons_of_mem d he)]

/-- What may stand behind a text in base 64: nothing, or a character `base64_decode` stops at. -/
def Base64Ends (rest : List UInt8) : Prop := rest.head?.all base64Stops = true

theorem base64Next_group {ds : List Nat} (hds : ∀ d ∈ ds, d < 64) (hlength : ds.length ≤ 4)
    {rest : List UInt8} (hrest : ds.length = 4 ∨ Base64Ends rest) :
    base64Next (ds.map base64Char ++ rest) = ds.map base64Char := by
  have hkeep : ∀ c ∈ ds.map base64Char, (!base64Stops c) = true := by
    intro c hc
    obtain ⟨d, hd, rfl⟩ := List.mem_map.1 hc
    rw [(base64Char_table d (hds d hd)).2]
    rfl
  have hbehind : (rest.take (4 - ds.length)).takeWhile (fun c => !base64Stops c) = [] := by
    cases hrest with
    | inl hfour => simp [hfour]
    | inr hends =>
        cases rest with
        | nil => simp
        | cons c rest =>
            have hc : base64Stops c = true := hends
            cases 4 - ds.length with
            | zero => rfl
            | succ n => rw [List.take_succ_cons, List.takeWhile_cons_of_neg (by simp [hc])]
  unfold base64Next
  rw [List.take_append, List.length_map, List.take_of_length_le (by simpa using hlength),
    List.takeWhile_append_of_pos hkeep, hbehind, List.append_nil]

section Decode

variable {ds : List Nat} {value rest : List UInt8}

/-- A last group. -/
theorem base64Decode_last (hds : ∀ d ∈ ds, d < 64) (hlength : ds.length < 4)
    (htwo : 2 ≤ ds.length) (hrest : Base64Ends rest) :
    base64Decode (ds.map base64Char ++ rest) = base64Group (ds.map base64Char) := by
  rw [base64Decode, base64Next_group hds (by omega) (Or.inr hrest), List.length_map,
    if_neg (by omega), if_pos hlength]

/-- A whole group, and what is behind it. -/
theorem base64Decode_group (hds : ∀ d ∈ ds, d < 64) (hlength : ds.length = 4) :
    base64Decode (ds.map base64Char ++ rest) =
      base64Group (ds.map base64Char) ++ base64Decode rest := by
  rw [base64Decode, base64Next_group hds (by omega) (Or.inl hlength), List.length_map,
    if_neg (by omega), if_neg (by omega), List.drop_left' (by simpa using hlength)]

theorem base64Group_eq (hds : ∀ d ∈ ds, d < 64) :
    base64Group (ds.map base64Char) =
      [UInt8.ofNat
          (ds.foldl (fun value d => value * 64 + d) 0 * 2 ^ (6 * (4 - ds.length)) / 2 ^ 16),
        UInt8.ofNat
          (ds.foldl (fun value d => value * 64 + d) 0 * 2 ^ (6 * (4 - ds.length)) / 2 ^ 8),
        UInt8.ofNat (ds.foldl (fun value d => value * 64 + d) 0 * 2 ^ (6 * (4 - ds.length)))].take
          (ds.length * 3 / 4) := by
  unfold base64Group
  rw [foldl_group hds, List.length_map]
  simp only [Nat.shiftLeft_eq, Nat.shiftRight_eq_div_pow]

theorem ofNat_eq_of_mod {n : Nat} {a : UInt8} (h : n % 256 = a.toNat) : UInt8.ofNat n = a := by
  rw [← UInt8.toNat_inj, UInt8.toNat_ofNat']
  exact h

/-- A text in base 64 is decoded to its value, whatever stops it. -/
theorem base64Decode_encode (value : List UInt8) (hrest : Base64Ends rest) :
    base64Decode (base64Encode value ++ rest) = value := by
  induction value using base64Encode.induct with
  | case1 =>
      have hnone : ∀ d ∈ ([] : List Nat), d < 64 := fun d hd => nomatch hd
      have hnext := base64Next_group hnone (Nat.zero_le 4) (Or.inr hrest)
      rw [List.map_nil, List.nil_append] at hnext
      rw [base64Encode, List.nil_append, base64Decode, hnext]
      rfl
  | case2 a =>
      have ha := a.toNat_lt
      have hds : ∀ d ∈ [a.toNat / 4, a.toNat % 4 * 16], d < 64 := by
        simp
        omega
      have hlast := base64Decode_last hds (by simp) (by simp) hrest
      rw [base64Group_eq hds] at hlast
      refine hlast.trans ?_
      simp only [List.foldl_cons, List.foldl_nil, List.length_cons, List.length_nil]
      change [_] = [a]
      rw [ofNat_eq_of_mod (a := a) (by omega)]
  | case3 a b =>
      have ha := a.toNat_lt
      have hb := b.toNat_lt
      have hds : ∀ d ∈ [a.toNat / 4, a.toNat % 4 * 16 + b.toNat / 16, b.toNat % 16 * 4],
          d < 64 := by
        simp
        omega
      have hlast := base64Decode_last hds (by simp) (by simp) hrest
      rw [base64Group_eq hds] at hlast
      refine hlast.trans ?_
      simp only [List.foldl_cons, List.foldl_nil, List.length_cons, List.length_nil]
      change [_, _] = [a, b]
      rw [ofNat_eq_of_mod (a := a) (by omega), ofNat_eq_of_mod (a := b) (by omega)]
  | case4 a b c value ih =>
      have ha := a.toNat_lt
      have hb := b.toNat_lt
      have hc := c.toNat_lt
      have hds : ∀ d ∈ [a.toNat / 4, a.toNat % 4 * 16 + b.toNat / 16,
          b.toNat % 16 * 4 + c.toNat / 64, c.toNat % 64], d < 64 := by
        simp
        omega
      have hgroup := @base64Decode_group _ (base64Encode value ++ rest) hds rfl
      rw [base64Group_eq hds, ih] at hgroup
      refine hgroup.trans ?_
      simp only [List.foldl_cons, List.foldl_nil, List.length_cons, List.length_nil]
      change [_, _, _] ++ value = _
      rw [ofNat_eq_of_mod (a := a) (by omega), ofNat_eq_of_mod (a := b) (by omega),
        ofNat_eq_of_mod (a := c) (by omega)]
      rfl

/-- Standard base 64, with or without padding, is decoded to the value. -/
theorem base64Decode_of_encodes {text : List UInt8} (h : Base64Encodes value text) :
    base64Decode text = value := by
  cases h with
  | inl hplain =>
      have hdecode := @base64Decode_encode [] value rfl
      rwa [List.append_nil, ← hplain] at hdecode
  | inr hpadded =>
      have hends : Base64Ends (base64Padding value) := by
        unfold Base64Ends base64Padding
        cases (3 - value.length % 3) % 3 <;> rfl
      rw [hpadded]
      exact base64Decode_encode value hends

end Decode

end ImageTool.Tar
