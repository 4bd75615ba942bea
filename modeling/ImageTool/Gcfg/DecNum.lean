import ImageTool.Lib.Numeral
import ImageTool.Lib.Word
import Mathlib.Data.List.TakeWhile

/-!
# Decimal numbers

A number is read digit by digit with a limit, and a size has a unit behind it.  A string is the
list of its bytes; behind the last one stands the terminating zero, which is no digit.
-/

namespace ImageTool.Gcfg

open ImageTool.Lib

/-- What `report_error` is given: the format, and the first bytes of the string it shows. -/
structure Report where
  format : String
  shown : List UInt8
  deriving DecidableEq

/-- A decimal digit. -/
def isDigit (c : UInt8) : Bool := isDigitOf 10 c

/-- The loop of `gcfg_dec_num`: the number and the rest of the string. -/
def decLoop (start : List UInt8) (max : Nat) : List UInt8 → Nat → Except Report (Nat × List UInt8)
  | [], out => .ok (out, [])
  | c :: str, out =>
      if isDigit c then
        let x := digitValue c
        if out > max / 10 ∨ u64 (out * 10) > sub64 max x then
          .error ⟨"numeric overflow in '%.6s...'", start.take 6⟩
        else decLoop start max str (u64 (out * 10 + x))
      else .ok (out, c :: str)

/-- `gcfg_dec_num`. -/
def decNum (str : List UInt8) (max : Nat) : Except Report (Nat × List UInt8) :=
  if !isDigit (str.headD 0) then .error ⟨"expected digit instead of '%.6s...", str.take 6⟩
  else if str.headD 0 = 48 ∧ isDigit (str.tail.headD 0) then
    .error ⟨"numbers must not use leading zeros", []⟩
  else decLoop str max str 0

/-- The shift of a unit, if there is one. -/
def unitShift (c : UInt8) : Option Nat :=
  if c = 107 ∨ c = 75 then some 10
  else if c = 109 ∨ c = 77 then some 20
  else if c = 103 ∨ c = 71 then some 30
  else if c = 116 ∨ c = 84 then some 40
  else none

/-- `gcfg_parse_size`. -/
def parseSize (str : List UInt8) : Except Report (Nat × List UInt8) := do
  let (ret, rest) ← decNum str (2 ^ 64 - 1)
  let shift := (unitShift (rest.headD 0)).getD 0
  let rest := if (unitShift (rest.headD 0)).isSome then rest.tail else rest
  if ret > (2 ^ 64 - 1) >>> shift then .error ⟨"numeric overflow in %.6s...", str.take 6⟩
  else .ok (u64 (ret <<< shift), rest)

/-! ## The literal -/

/-- The digits a string starts with. -/
def literal (str : List UInt8) : List UInt8 := str.takeWhile isDigit

/-- What stands behind them. -/
def behind (str : List UInt8) : List UInt8 := str.dropWhile isDigit

/-- More than one digit, and the first one is zero. -/
def LeadingZero (digits : List UInt8) : Prop := ∃ d ds, digits = 48 :: d :: ds

section Read

variable {start str rest : List UInt8} {max out value x : Nat} {c d : UInt8}

@[simp] theorem literal_nil : literal [] = [] := rfl

@[simp] theorem behind_nil : behind [] = [] := rfl

theorem literal_of_digit (hc : isDigit c = true) : literal (c :: str) = c :: literal str :=
  List.takeWhile_cons_of_pos hc

theorem behind_of_digit (hc : isDigit c = true) : behind (c :: str) = behind str :=
  List.dropWhile_cons_of_pos hc

theorem literal_of_not_digit (hc : isDigit c = false) : literal (c :: str) = [] :=
  List.takeWhile_cons_of_neg (by simp [hc])

theorem behind_of_not_digit (hc : isDigit c = false) : behind (c :: str) = c :: str :=
  List.dropWhile_cons_of_neg (by simp [hc])

theorem literal_eq_nil (h : isDigit (str.headD 0) = false) : literal str = [] := by
  cases str with
  | nil => rfl
  | cons c str => exact literal_of_not_digit h

theorem behind_eq_self (h : isDigit (str.headD 0) = false) : behind str = str := by
  cases str with
  | nil => rfl
  | cons c str => exact behind_of_not_digit h

theorem digitValue_le (hc : isDigit c = true) : digitValue c ≤ 9 := by
  simp only [isDigit, isDigitOf, Bool.and_eq_true, decide_eq_true_eq] at hc
  unfold digitValue
  omega

/-- The test in front of a digit is that of the number behind it. -/
theorem overflow_iff (hmax : max < 2 ^ 64) (hx : x ≤ max) :
    (out > max / 10 ∨ u64 (out * 10) > sub64 max x) ↔ max < out * 10 + x := by
  rw [sub64_of_le hx hmax]
  by_cases hbig : out > max / 10
  · simp only [hbig, true_or, true_iff]
    omega
  · rw [u64_of_lt (by omega)]
    omega

/-- With a limit that no digit is above, the loop reads all digits or reports an overflow. -/
theorem decLoop_eq (hmax : max < 2 ^ 64) (hnine : 9 ≤ max) (hout : out ≤ max) :
    decLoop start max str out =
      if digitsValueFrom 10 out (literal str) ≤ max then
        .ok (digitsValueFrom 10 out (literal str), behind str)
      else .error ⟨"numeric overflow in '%.6s...'", start.take 6⟩ := by
  induction str generalizing out with
  | nil =>
      rw [literal_nil, digitsValueFrom_nil, if_pos hout]
      rfl
  | cons c str ih =>
      unfold decLoop
      cases hc : isDigit c with
      | false =>
          rw [literal_of_not_digit hc, behind_of_not_digit hc, digitsValueFrom_nil, if_pos hout]
          rfl
      | true =>
          have hx : digitValue c ≤ max := Nat.le_trans (digitValue_le hc) hnine
          rw [literal_of_digit hc, behind_of_digit hc, digitsValueFrom_cons, if_pos rfl]
          dsimp only
          by_cases hover : max < out * 10 + digitValue c
          · have hle := le_digitsValueFrom (show 0 < 10 by decide) (out * 10 + digitValue c)
              (literal str)
            rw [if_pos ((overflow_iff hmax hx).2 hover), if_neg (by omega)]
          · rw [if_neg (fun htest => hover ((overflow_iff hmax hx).1 htest)),
              u64_of_lt (by omega), ih (by omega)]

theorem leadingZero_iff : LeadingZero (literal str) ↔
    str.headD 0 = 48 ∧ isDigit (str.tail.headD 0) = true := by
  unfold LeadingZero
  cases str with
  | nil => simp
  | cons c str =>
      simp only [List.headD_cons, List.tail_cons]
      constructor
      · rintro ⟨d, ds, hlit⟩
        cases hc : isDigit c with
        | false =>
            rw [literal_of_not_digit hc] at hlit
            cases hlit
        | true =>
            rw [literal_of_digit hc, List.cons.injEq] at hlit
            refine ⟨hlit.1, ?_⟩
            by_contra hnot
            rw [literal_eq_nil (Bool.eq_false_iff.2 hnot)] at hlit
            cases hlit.2
      · rintro ⟨rfl, hd⟩
        cases str with
        | nil => cases hd
        | cons d str =>
            have hd' : isDigit d = true := hd
            have hlit : literal (48 :: d :: str) = 48 :: d :: literal str := by
              rw [literal_of_digit (by decide), literal_of_digit hd']
            exact ⟨d, literal str, hlit⟩

/-- `gcfg_dec_num` accepts a number that has no leading zero and is not above the limit. -/
theorem decNum_eq (hmax : max < 2 ^ 64) (hnine : 9 ≤ max) (hdigit : literal str ≠ [])
    (hzero : ¬ LeadingZero (literal str)) :
    decNum str max =
      if digitsValue 10 (literal str) ≤ max then .ok (digitsValue 10 (literal str), behind str)
      else .error ⟨"numeric overflow in '%.6s...'", str.take 6⟩ := by
  have hhead : isDigit (str.headD 0) = true := by
    by_contra hnot
    exact hdigit (literal_eq_nil (Bool.eq_false_iff.2 hnot))
  unfold decNum
  rw [hhead, if_neg (by decide), if_neg (fun h => hzero (leadingZero_iff.2 h)),
    decLoop_eq hmax hnine (Nat.zero_le max)]
  rfl

theorem decNum_leadingZero (hzero : LeadingZero (literal str)) :
    decNum str max = .error ⟨"numbers must not use leading zeros", []⟩ := by
  have h := leadingZero_iff.1 hzero
  have hhead : isDigit (str.headD 0) = true := by
    rw [h.1]
    rfl
  unfold decNum
  rw [hhead, if_neg (by decide), if_pos h]

/-- What is accepted starts with digits, and has no leading zero. -/
theorem decNum_ok (h : decNum str max = .ok (value, rest)) :
    literal str ≠ [] ∧ ¬ LeadingZero (literal str) ∧ decLoop str max str 0 = .ok (value, rest) := by
  unfold decNum at h
  split at h
  · cases h
  rename_i hhead
  split at h
  · cases h
  rename_i hzero
  refine ⟨?_, fun hlead => hzero (leadingZero_iff.1 hlead), h⟩
  intro hnil
  cases str with
  | nil => exact hhead rfl
  | cons c str =>
      cases hc : isDigit c with
      | false => exact hhead (by simp [hc])
      | true =>
          rw [literal_of_digit hc] at hnil
          cases hnil

end Read

/-! ## Exact numbers -/

/-- A number that is returned is the one that was written, and not above the limit. -/
def DecExact (str : List UInt8) (max : Nat) : Prop :=
  ∀ value rest, decNum str max = .ok (value, rest) →
    literal str ≠ [] ∧ value = digitsValue 10 (literal str) ∧ rest = behind str ∧ value ≤ max

/-- The factor of a unit. -/
def unitFactor (c : UInt8) : Nat :=
  match unitShift c with
  | some shift => 2 ^ shift
  | none => 1

/-- A size that is returned is the number that was written times its unit, and has 64 bits. -/
def SizeExact (str : List UInt8) : Prop :=
  ∀ value rest, parseSize str = .ok (value, rest) →
    literal str ≠ [] ∧
      value = digitsValue 10 (literal str) * unitFactor ((behind str).headD 0) ∧
      value < 2 ^ 64 ∧
      rest = if (unitShift ((behind str).headD 0)).isSome then (behind str).tail else behind str

/-- A number of one digit that is above the limit. -/
def OverLimitDigit (str : List UInt8) (max : Nat) : Prop :=
  ∃ d, literal str = [d] ∧ max < digitValue d

section Exact

variable {str rest : List UInt8} {max value : Nat} {d : UInt8}

/-- With a limit below nine the first digit is not tested. -/
theorem decLoop_first (hd : isDigit d = true) (start : List UInt8) :
    decLoop start max (d :: str) 0 = decLoop start max str (digitValue d) := by
  have hle := digitValue_le hd
  rw [decLoop, if_pos hd]
  dsimp only
  rw [if_neg (by simp), Nat.zero_mul, Nat.zero_add, u64_of_lt (by omega)]

/-- With a limit below nine a number that is accepted has one digit. -/
theorem decNum_small (hsmall : max < 9) (h : decNum str max = .ok (value, rest)) :
    ∃ d, literal str = [d] ∧ value = digitValue d ∧ rest = behind str := by
  obtain ⟨hne, hzero, hloop⟩ := decNum_ok h
  cases str with
  | nil => exact absurd rfl hne
  | cons d str =>
      have hd : isDigit d = true := by
        by_contra hnot
        exact hne (literal_of_not_digit (Bool.eq_false_iff.2 hnot))
      rw [decLoop_first hd] at hloop
      rw [literal_of_digit hd, behind_of_digit hd]
      cases str with
      | nil =>
          cases hloop
          exact ⟨d, rfl, rfl, rfl⟩
      | cons e str =>
          rw [decLoop] at hloop
          cases he : isDigit e with
          | false =>
              rw [he, if_neg (by decide)] at hloop
              cases hloop
              exact ⟨d, by rw [literal_of_not_digit he], rfl, (behind_of_not_digit he).symm⟩
          | true =>
              -- the second digit is refused because the first one is not zero
              have hpos : 0 < digitValue d := by
                by_contra hnot
                have hd48 : d = 48 := by
                  simp only [isDigit, isDigitOf, Bool.and_eq_true, decide_eq_true_eq] at hd
                  unfold digitValue at hnot
                  exact UInt8.toNat_inj.1 (show d.toNat = 48 by omega)
                apply hzero
                rw [literal_of_digit hd, literal_of_digit he, hd48]
                exact ⟨e, literal str, rfl⟩
              rw [he, if_pos rfl] at hloop
              dsimp only at hloop
              rw [if_pos (Or.inl (by omega))] at hloop
              cases hloop

theorem decExact_iff (hmax : max < 2 ^ 64) : DecExact str max ↔ ¬ OverLimitDigit str max := by
  by_cases hnine : 9 ≤ max
  · have hexact : DecExact str max := by
      intro value rest h
      obtain ⟨hne, hzero, -⟩ := decNum_ok h
      rw [decNum_eq hmax hnine hne hzero] at h
      split at h
      · rename_i hle
        cases h
        exact ⟨hne, rfl, rfl, hle⟩
      · cases h
    have hlimit : ¬ OverLimitDigit str max := by
      rintro ⟨d, hlit, hover⟩
      have hd : isDigit d = true := by
        have hmem : d ∈ literal str := by simp [hlit]
        exact List.mem_takeWhile_imp hmem
      have hle := digitValue_le hd
      omega
    exact ⟨fun _ => hlimit, fun _ => hexact⟩
  · constructor
    · rintro hexact ⟨d, hlit, hover⟩
      have hstr : str = d :: behind str := by
        have hsplit : literal str ++ behind str = str := List.takeWhile_append_dropWhile
        rw [hlit] at hsplit
        exact hsplit.symm
      have hd : isDigit d = true := by
        have hmem : d ∈ literal str := by simp [hlit]
        exact List.mem_takeWhile_imp hmem
      have hrest : isDigit ((behind str).headD 0) = false := by
        by_contra hnot
        cases hbehind : behind str with
        | nil =>
            rw [hbehind] at hnot
            exact hnot rfl
        | cons e rest =>
            rw [hbehind, List.headD_cons, Bool.not_eq_false] at hnot
            rw [hstr, hbehind, literal_of_digit hd, literal_of_digit hnot] at hlit
            cases hlit
      have hok : decNum str max = .ok (digitValue d, behind str) := by
        rw [hstr]
        unfold decNum
        rw [List.headD_cons, List.tail_cons, hd, if_neg (by decide), if_neg (by rw [hrest]; simp),
          decLoop_first hd, behind_of_digit hd, behind_eq_self hrest]
        cases hbehind : behind str with
        | nil => rfl
        | cons e rest =>
            rw [hbehind] at hrest
            rw [decLoop, if_neg (by simpa using hrest)]
      have hle := (hexact _ _ hok).2.2.2
      omega
    · intro hlimit value rest h
      obtain ⟨d, hlit, hvalue, hrest⟩ := decNum_small (by omega) h
      have hle : digitValue d ≤ max := by
        by_contra hover
        exact hlimit ⟨d, hlit, by omega⟩
      refine ⟨by simp [hlit], ?_, hrest, by omega⟩
      rw [hlit, hvalue, digitsValue_cons, digitsValue_nil, List.length_nil, Nat.pow_zero,
        Nat.mul_one, Nat.add_zero]

theorem unitFactor_eq (c : UInt8) : unitFactor c = 2 ^ (unitShift c).getD 0 := by
  unfold unitFactor
  cases unitShift c <;> rfl

/-- Scaling is tested before it is done. -/
theorem parseSize_exact (str : List UInt8) : SizeExact str := by
  intro value rest h
  unfold parseSize at h
  have hnot : ¬ OverLimitDigit str (2 ^ 64 - 1) := by
    rintro ⟨d, hlit, hover⟩
    have hmem : d ∈ literal str := by simp [hlit]
    have hd : isDigit d = true := List.mem_takeWhile_imp hmem
    have hle := digitValue_le hd
    omega
  cases hnum : decNum str (2 ^ 64 - 1) with
  | error e =>
      rw [hnum] at h
      cases h
  | ok r =>
      obtain ⟨ret, behind'⟩ := r
      obtain ⟨hne, hret, hbehind, hle⟩ := (decExact_iff (by decide)).2 hnot ret behind' hnum
      rw [hnum] at h
      simp only [bind, Except.bind] at h
      rw [hbehind] at h
      split at h
      · cases h
      rename_i htest
      cases h
      rw [unitFactor_eq, hret]
      rw [hret, Nat.shiftRight_eq_div_pow] at htest
      have hfits : digitsValue 10 (literal str) *
          2 ^ (unitShift ((behind str).headD 0)).getD 0 < 2 ^ 64 := by
        have hmul := Nat.mul_le_of_le_div _ _ _ (Nat.le_of_not_lt htest)
        omega
      rw [Nat.shiftLeft_eq, u64_of_lt hfits]
      exact ⟨hne, rfl, hfits, rfl⟩

/-- Numbers are exact or refused, unless one digit is above a limit below nine; sizes are exact or
refused. -/
theorem exact_or_refused_iff (str : List UInt8) (max : UInt64) :
    DecExact str max.toNat ∧ SizeExact str ↔ ¬ OverLimitDigit str max.toNat := by
  rw [decExact_iff max.toNat_lt, and_iff_left (parseSize_exact str)]

/-- With the limit five the number seven is returned. -/
theorem not_exact_seven : decNum [55] 5 = .ok (7, []) ∧ ¬ DecExact [55] 5 := by
  have hok : decNum [55] 5 = .ok (7, []) := by rfl
  refine ⟨hok, ?_⟩
  intro h
  have hle := (h 7 [] hok).2.2.2
  omega

end Exact

end ImageTool.Gcfg
