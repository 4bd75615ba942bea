import ImageTool.Gcfg.DecNum
import Mathlib.Data.Rat.Defs
import Mathlib.Algebra.Order.Field.Rat
import Mathlib.Tactic.FieldSimp
import Mathlib.Tactic.Ring

/-!
# Number literals

An integer part, a fraction and an exponent are all read by `gcfg_dec_num`.  What they stand for
is compared with the value of the literal as it is written.
-/

namespace ImageTool.Gcfg

open ImageTool.Lib

/-- `gcfg_number_t`. -/
structure Number where
  sign : Int
  integer : Nat
  fraction : Nat
  fractionDigits : Nat
  exponent : Int
  deriving DecidableEq

/-- What `gcfg_parse_number` does behind the integer part. -/
def parseFraction (input : List UInt8) : Except Report ((Nat × Nat) × List UInt8) :=
  if input.headD 0 = 46 then do
    let i := (literal input.tail).length
    let (temp, input) ← decNum input.tail 0xFFFFFFFF
    .ok ((temp % 2 ^ 32, i % 2 ^ 16), input)
  else .ok ((0, 0), input)

/-- What `gcfg_parse_number` does behind the fraction. -/
def parseExponent (input : List UInt8) : Except Report (Int × List UInt8) :=
  if input.headD 0 = 101 ∨ input.headD 0 = 69 then do
    let next := input.tail.headD 0
    let i : Int := if next = 45 then -1 else 1
    let input := input.drop (if next = 45 ∨ next = 43 then 2 else 1)
    let (temp, input) ← decNum input 0x7FFF
    .ok (Int.bmod (temp * i) (2 ^ 16), input)
  else if input.headD 0 = 37 then .ok (-2, input.tail)
  else .ok (0, input)

/-- `gcfg_parse_number`. -/
def parseNumber (input : List UInt8) : Except Report (Number × List UInt8) := do
  let sign : Int := if input.headD 0 = 45 then -1 else 1
  let input := if input.headD 0 = 43 ∨ input.headD 0 = 45 then input.tail else input
  let (temp, input) ← decNum input 0xFFFFFFFF
  let ((fraction, fractionDigits), input) ← parseFraction input
  let (exponent, input) ← parseExponent input
  .ok (⟨sign, temp % 2 ^ 32, fraction, fractionDigits, exponent⟩, input)

/-- The number that is stored, as `gcfg_number_to_double` takes it. -/
def Number.value (num : Number) : ℚ :=
  num.sign * (num.integer + num.fraction / 10 ^ num.fractionDigits) * 10 ^ num.exponent

/-! ## Literals -/

/-- One or more digits of a number that is not above a limit. -/
structure Digits (limit : Nat) where
  bytes : List UInt8
  isDigit_of_mem : ∀ c ∈ bytes, isDigit c = true
  ne_nil : bytes ≠ []
  value_le : digitsValue 10 bytes ≤ limit

/-- Digits without superfluous leading zeros. -/
structure Whole (limit : Nat) extends Digits limit where
  not_leadingZero : ¬ LeadingZero bytes

/-- The sign of a literal or of an exponent. -/
inductive Sign where
  | plus
  | minus

/-- What stands behind the digits of a literal. -/
inductive Suffix where
  | nothing
  | percent
  | exponent (e : Bool) (sign : Option Sign) (power : Whole 0x7FFF)

/-- A literal. -/
structure NumberLiteral where
  sign : Option Sign
  integer : Whole 0xFFFFFFFF
  fraction : Option (Digits 0xFFFFFFFF)
  suffix : Suffix

def Sign.text : Option Sign → List UInt8
  | none => []
  | some .plus => [43]
  | some .minus => [45]

def Sign.factor : Option Sign → Int
  | some .minus => -1
  | _ => 1

def Suffix.text : Suffix → List UInt8
  | .nothing => []
  | .percent => [37]
  | .exponent e sign power => (if e then 101 else 69) :: (Sign.text sign ++ power.bytes)

/-- The power of ten: a percent sign divides by a hundred. -/
def Suffix.power : Suffix → Int
  | .nothing => 0
  | .percent => -2
  | .exponent _ sign power => Sign.factor sign * digitsValue 10 power.bytes

/-- What stands behind a suffix does not go on with it. -/
def Suffix.StopsAt : Suffix → List UInt8 → Prop
  | .nothing, rest => isDigit (rest.headD 0) = false ∧ rest.headD 0 ∉ [101, 69, 37]
  | .percent, _ => True
  | .exponent .., rest => isDigit (rest.headD 0) = false

namespace NumberLiteral

/-- The digits behind the point. -/
def fractionBytes (lit : NumberLiteral) : List UInt8 :=
  match lit.fraction with
  | none => []
  | some fraction => fraction.bytes

def fractionText (lit : NumberLiteral) : List UInt8 :=
  match lit.fraction with
  | none => []
  | some fraction => 46 :: fraction.bytes

def text (lit : NumberLiteral) : List UInt8 :=
  Sign.text lit.sign ++ (lit.integer.bytes ++ (lit.fractionText ++ lit.suffix.text))

/-- All digits are those of one number, and the point says where its units stand. -/
def value (lit : NumberLiteral) : ℚ :=
  Sign.factor lit.sign *
    (digitsValue 10 (lit.integer.bytes ++ lit.fractionBytes) / 10 ^ lit.fractionBytes.length) *
      10 ^ lit.suffix.power

/-- What stands behind a literal does not go on with it. -/
def StopsAt (lit : NumberLiteral) (rest : List UInt8) : Prop :=
  lit.suffix.StopsAt rest ∧ (lit.fraction = none → (lit.suffix.text ++ rest).headD 0 ≠ 46)

end NumberLiteral

section Parts

variable {bytes rest : List UInt8} {limit : Nat}

theorem literal_append (hdigits : ∀ c ∈ bytes, isDigit c = true)
    (hrest : isDigit (rest.headD 0) = false) :
    literal (bytes ++ rest) = bytes ∧ behind (bytes ++ rest) = rest := by
  induction bytes with
  | nil => exact ⟨literal_eq_nil hrest, behind_eq_self hrest⟩
  | cons c bytes ih =>
      have hc : isDigit c = true := hdigits c List.mem_cons_self
      have ih := ih fun d hd => hdigits d (List.mem_cons_of_mem c hd)
      constructor
      · rw [List.cons_append, literal_of_digit hc, ih.1]
      · rw [List.cons_append, behind_of_digit hc, ih.2]

/-- `gcfg_dec_num` reads the digits of a part of a literal, and no more. -/
theorem decNum_whole (part : Whole limit) (hlimit : limit < 2 ^ 64) (hnine : 9 ≤ limit)
    (hrest : isDigit (rest.headD 0) = false) :
    decNum (part.bytes ++ rest) limit = .ok (digitsValue 10 part.bytes, rest) := by
  have hsplit := literal_append part.isDigit_of_mem hrest
  have hne : literal (part.bytes ++ rest) ≠ [] := by
    rw [hsplit.1]
    exact part.ne_nil
  have hzero : ¬ LeadingZero (literal (part.bytes ++ rest)) := by
    rw [hsplit.1]
    exact part.not_leadingZero
  rw [decNum_eq hlimit hnine hne hzero, hsplit.1, hsplit.2, if_pos part.value_le]

theorem length_le_of_not_leadingZero (part : Digits limit) (hzero : ¬ LeadingZero part.bytes)
    {k : Nat} (hlimit : limit < 10 ^ k) : part.bytes.length ≤ k + 1 := by
  cases hbytes : part.bytes with
  | nil => simp
  | cons c bytes =>
      cases hrest : bytes with
      | nil => simp
      | cons d ds =>
          -- the first digit counts, so the others are no more than the limit has
          have hc : isDigit c = true := part.isDigit_of_mem c (by simp [hbytes])
          have hpos : 1 ≤ digitValue c := by
            by_contra hnot
            have hc48 : c = 48 := by
              simp only [isDigit, isDigitOf, Bool.and_eq_true, decide_eq_true_eq] at hc
              unfold digitValue at hnot
              exact UInt8.toNat_inj.1 (show c.toNat = 48 by omega)
            exact hzero ⟨d, ds, by rw [hbytes, hrest, hc48]⟩
          have hvalue := part.value_le
          rw [hbytes, digitsValue_cons, hrest] at hvalue
          have hpow : 10 ^ (d :: ds).length ≤ digitValue c * 10 ^ (d :: ds).length :=
            Nat.le_mul_of_pos_left _ hpos
          have hlt : 10 ^ (d :: ds).length < 10 ^ k := by omega
          have hlen := (Nat.pow_lt_pow_iff_right (by decide)).1 hlt
          simp only [List.length_cons] at hlen ⊢
          omega

end Parts

section Literal

variable {rest : List UInt8} {suffix : Suffix} {lit : NumberLiteral}

theorem Suffix.not_digit (h : suffix.StopsAt rest) :
    isDigit ((suffix.text ++ rest).headD 0) = false := by
  cases suffix with
  | nothing => exact h.1
  | percent => rfl
  | exponent e sign power => cases e <;> rfl

theorem not_digit_sign {c : UInt8} (hc : isDigit c = true) : c ≠ 43 ∧ c ≠ 45 ∧ c ≠ 46 := by
  refine ⟨?_, ?_, ?_⟩
  all_goals
    rintro rfl
    cases hc

theorem Digits.exists_cons {limit : Nat} (part : Digits limit) :
    ∃ c bytes, part.bytes = c :: bytes ∧ isDigit c = true := by
  cases hbytes : part.bytes with
  | nil => exact absurd hbytes part.ne_nil
  | cons c bytes => exact ⟨c, bytes, rfl, part.isDigit_of_mem c (by simp [hbytes])⟩

theorem Sign.factor_eq (sign : Option Sign) : Sign.factor sign = 1 ∨ Sign.factor sign = -1 := by
  cases sign with
  | none => exact Or.inl rfl
  | some sign => cases sign <;> decide

/-- An exponent fits the type it is stored in, with either sign. -/
theorem bmod_mul_factor {n : Nat} (hn : n ≤ 0x7FFF) (sign : Option Sign) :
    Int.bmod (n * Sign.factor sign) (2 ^ 16) = Sign.factor sign * n := by
  rw [Int.mul_comm]
  cases Sign.factor_eq sign with
  | inl hplus =>
      rw [hplus]
      exact Int.bmod_eq_of_le (by omega) (by omega)
  | inr hminus =>
      rw [hminus]
      exact Int.bmod_eq_of_le (by omega) (by omega)

theorem parseExponent_text (h : suffix.StopsAt rest) :
    parseExponent (suffix.text ++ rest) = .ok (suffix.power, rest) := by
  cases suffix with
  | nothing =>
      have hhead := h.2
      simp only [List.mem_cons, List.not_mem_nil, or_false, not_or] at hhead
      unfold parseExponent
      rw [Suffix.text, List.nil_append, if_neg (not_or.2 ⟨hhead.1, hhead.2.1⟩),
        if_neg hhead.2.2]
      rfl
  | percent => rfl
  | exponent e sign power =>
      have hnum := decNum_whole power (by decide) (by decide) h
      have hpower := bmod_mul_factor power.value_le sign
      obtain ⟨c, bytes, hbytes, hc⟩ := power.exists_cons
      have hne := not_digit_sign hc
      rw [hbytes] at hnum
      unfold parseExponent
      rw [Suffix.text, Suffix.power, ← hpower, List.cons_append, List.headD_cons,
        if_pos (by cases e <;> simp), List.tail_cons, List.append_assoc, hbytes]
      cases sign with
      | none =>
          have hnext : (Sign.text none ++ (c :: bytes ++ rest)).headD 0 = c := rfl
          simp only [hnext]
          rw [if_neg hne.2.1, if_neg (by simp [hne])]
          simp only [List.drop_succ_cons, List.drop_zero, Sign.text, List.nil_append]
          rw [hnum]
          rfl
      | some sign => 
          cases sign with
          | plus =>
              show (do
                let (temp, input) ← decNum (c :: bytes ++ rest) 0x7FFF
                _) = _
              rw [hnum]
              rfl
          | minus => 
              show (do
                let (temp, input) ← decNum (c :: bytes ++ rest) 0x7FFF
                _) = _
              rw [hnum]
              rfl

theorem parseFraction_none (h : (suffix.text ++ rest).headD 0 ≠ 46) :
    parseFraction (suffix.text ++ rest) = .ok ((0, 0), suffix.text ++ rest) := by
  unfold parseFraction
  rw [if_neg h]

theorem parseFraction_some (fraction : Digits 0xFFFFFFFF) (hsuffix : suffix.StopsAt rest)
    (hzero : ¬ LeadingZero fraction.bytes) :
    parseFraction (46 :: (fraction.bytes ++ (suffix.text ++ rest))) =
      .ok ((digitsValue 10 fraction.bytes, fraction.bytes.length), suffix.text ++ rest) := by
  have hnum := decNum_whole ⟨fraction, hzero⟩ (by decide) (by decide) (suffix.not_digit hsuffix)
  have hsplit := literal_append fraction.isDigit_of_mem (suffix.not_digit hsuffix)
  have hlen := length_le_of_not_leadingZero fraction hzero (show 0xFFFFFFFF < 10 ^ 10 by decide)
  have hle := fraction.value_le
  unfold parseFraction
  rw [List.headD_cons, if_pos rfl, List.tail_cons, hnum, hsplit.1]
  simp only [bind, Except.bind]
  rw [Nat.mod_eq_of_lt (by omega), Nat.mod_eq_of_lt (by omega)]

theorem parseFraction_leadingZero (fraction : Digits 0xFFFFFFFF) (hsuffix : suffix.StopsAt rest)
    (hzero : LeadingZero fraction.bytes) :
    parseFraction (46 :: (fraction.bytes ++ (suffix.text ++ rest))) =
      .error ⟨"numbers must not use leading zeros", []⟩ := by
  have hsplit := literal_append fraction.isDigit_of_mem (suffix.not_digit hsuffix)
  have hlead : LeadingZero (literal (fraction.bytes ++ (suffix.text ++ rest))) := by
    rw [hsplit.1]
    exact hzero
  unfold parseFraction
  rw [List.headD_cons, if_pos rfl, List.tail_cons, decNum_leadingZero hlead]
  rfl

/-- A sign in front of a digit is read and skipped. -/
theorem sign_text {c : UInt8} (hc : isDigit c = true) (sign : Option Sign) (bytes : List UInt8) :
    (if (Sign.text sign ++ c :: bytes).headD 0 = 45 then -1 else 1) = Sign.factor sign ∧
      (if (Sign.text sign ++ c :: bytes).headD 0 = 43 ∨ (Sign.text sign ++ c :: bytes).headD 0 = 45
        then (Sign.text sign ++ c :: bytes).tail
        else Sign.text sign ++ c :: bytes) = c :: bytes := by
  have hne := not_digit_sign hc
  cases sign with
  | none => simp [Sign.text, Sign.factor, hne]
  | some sign => cases sign <;> simp [Sign.text, Sign.factor]

/-- What `gcfg_parse_number` does once the sign and the integer part are read. -/
theorem parseNumber_eq (lit : NumberLiteral) (h : lit.StopsAt rest) :
    parseNumber (lit.text ++ rest) = (do
      let ((fraction, fractionDigits), input) ←
        parseFraction (lit.fractionText ++ (lit.suffix.text ++ rest))
      let (exponent, input) ← parseExponent input
      .ok (⟨Sign.factor lit.sign, digitsValue 10 lit.integer.bytes, fraction, fractionDigits,
        exponent⟩, input)) := by
  have hbehind : isDigit ((lit.fractionText ++ (lit.suffix.text ++ rest)).headD 0) = false := by
    unfold NumberLiteral.fractionText
    cases lit.fraction with
    | none => exact lit.suffix.not_digit h.1
    | some fraction => rfl
  have hnum := decNum_whole lit.integer (by decide) (by decide) hbehind
  have hle := lit.integer.value_le
  have hmod : digitsValue 10 lit.integer.bytes % 2 ^ 32 = digitsValue 10 lit.integer.bytes :=
    Nat.mod_eq_of_lt (by omega)
  obtain ⟨c, bytes, hbytes, hc⟩ := lit.integer.exists_cons
  have hsign := sign_text hc lit.sign (bytes ++ (lit.fractionText ++ (lit.suffix.text ++ rest)))
  rw [hbytes, List.cons_append] at hnum
  unfold parseNumber NumberLiteral.text
  rw [List.append_assoc, List.append_assoc, List.append_assoc, hbytes, List.cons_append, hsign.1,
    hsign.2, ← hbytes]
  simp only [hnum, bind, Except.bind]
  rw [← hbytes, hmod]

/-- The value that is stored is the one the digits of both parts have together. -/
theorem value_eq (lit : NumberLiteral) {fraction fractionDigits : Nat}
    (hfraction : fraction = digitsValue 10 lit.fractionBytes)
    (hdigits : fractionDigits = lit.fractionBytes.length) :
    Number.value ⟨Sign.factor lit.sign, digitsValue 10 lit.integer.bytes, fraction, fractionDigits,
      lit.suffix.power⟩ = lit.value := by
  have hpow : (10 : ℚ) ^ lit.fractionBytes.length ≠ 0 := by positivity
  unfold Number.value NumberLiteral.value
  rw [digitsValue_append, hfraction, hdigits]
  push_cast
  rw [add_div, mul_div_assoc, div_self hpow, mul_one]

/-- A literal is accepted with its exact value unless its fraction starts with a superfluous
zero. -/
theorem parseNumber_literal_iff (lit : NumberLiteral) (rest : List UInt8) (h : lit.StopsAt rest) :
    (∃ num, parseNumber (lit.text ++ rest) = .ok (num, rest) ∧ num.value = lit.value) ↔
      ¬ LeadingZero lit.fractionBytes := by
  have hread := parseNumber_eq lit h
  have hexp := parseExponent_text h.1
  have hvalue := @value_eq lit
  have htext : lit.fractionText = match lit.fraction with
    | none => []
    | some fraction => 46 :: fraction.bytes := rfl
  cases hlit : lit.fraction with
  | none =>
      have hbytes : lit.fractionBytes = [] := by
        unfold NumberLiteral.fractionBytes
        rw [hlit]
      have hfraction := parseFraction_none (h.2 hlit)
      rw [htext, hlit, List.nil_append, hfraction] at hread
      rw [hbytes] at hvalue ⊢
      simp only [bind, Except.bind, hexp] at hread
      have hzero : ¬ LeadingZero [] := by
        rintro ⟨d, ds, heq⟩
        cases heq
      exact ⟨fun _ => hzero, fun _ => ⟨_, hread, hvalue rfl rfl⟩⟩
  | some fraction =>
      have hbytes : lit.fractionBytes = fraction.bytes := by
        unfold NumberLiteral.fractionBytes
        rw [hlit]
      rw [htext, hlit, List.cons_append] at hread
      rw [hbytes] at hvalue ⊢
      constructor
      · intro haccepted hzero
        obtain ⟨num, hnum, -⟩ := haccepted
        rw [hread, parseFraction_leadingZero fraction h.1 hzero] at hnum
        cases hnum
      · intro hzero
        rw [parseFraction_some fraction h.1 hzero] at hread
        simp only [bind, Except.bind, hexp] at hread
        exact ⟨_, hread, hvalue rfl rfl⟩

/-- The literal `13.37`. -/
def thirteenThirtySeven : NumberLiteral where
  sign := none
  integer := ⟨⟨[49, 51], by simp [isDigit, isDigitOf], by simp, by decide⟩,
    by rintro ⟨d, ds, h⟩; cases h⟩
  fraction := some ⟨[51, 55], by simp [isDigit, isDigitOf], by simp, by decide⟩
  suffix := .nothing

theorem parseNumber_thirteenThirtySeven :
    ¬ LeadingZero thirteenThirtySeven.fractionBytes ∧
      ∃ num, parseNumber (thirteenThirtySeven.text ++ []) = .ok (num, []) ∧
        num.value = thirteenThirtySeven.value := by
  have hzero : ¬ LeadingZero thirteenThirtySeven.fractionBytes := by
    rintro ⟨d, ds, h⟩
    cases h
  have hstop : thirteenThirtySeven.StopsAt [] := ⟨⟨rfl, by decide⟩, fun h => nomatch h⟩
  exact ⟨hzero, (parseNumber_literal_iff thirteenThirtySeven [] hstop).2 hzero⟩

/-- The literal `13.05`. -/
def thirteenZeroFive : NumberLiteral where
  sign := none
  integer := ⟨⟨[49, 51], by simp [isDigit, isDigitOf], by simp, by decide⟩,
    by rintro ⟨d, ds, h⟩; cases h⟩
  fraction := some ⟨[48, 53], by simp [isDigit, isDigitOf], by simp, by decide⟩
  suffix := .nothing

/-- It is refused. -/
theorem parseNumber_thirteenZeroFive :
    parseNumber thirteenZeroFive.text = .error ⟨"numbers must not use leading zeros", []⟩ ∧
      ¬ ∃ num rest, parseNumber thirteenZeroFive.text = .ok (num, rest) ∧
        num.value = thirteenZeroFive.value := by
  have herror : parseNumber thirteenZeroFive.text =
      .error ⟨"numbers must not use leading zeros", []⟩ := by rfl
  refine ⟨herror, ?_⟩
  rintro ⟨num, rest, hok, -⟩
  rw [herror] at hok
  cases hok

end Literal

end ImageTool.Gcfg
