import ImageTool.Gcfg.StringGrammar
import ImageTool.Lib.Bytes
import Mathlib.Logic.Relation

/-!
# Reading a quoted string

`gcfg_parse_string` on the memory that holds the line and the output buffer, which may be one
and the same.  The loop over the digits of an escape does not count them, so an escape takes all
the hex digits behind it.
-/

namespace ImageTool.Gcfg

open Lib Lib.Bytes

/-- What `gcfg_parse_string` reports. -/
inductive StringError where
  | start
  | esc
  | eol
  | cp
  deriving DecidableEq

/-- The text of the report. -/
def StringError.message : StringError → String
  | .start => "expected string starting with '\"'"
  | .esc => "unknown escape sequence in string"
  | .eol => "expected '\"' before end of line"
  | .cp => "invalid unicode code point in string"

/-- The memory, `in` and `dst`. -/
structure ParseState where
  mem : Bytes
  input : Nat
  dst : Nat

/-- How a turn of the loop ends. -/
inductive Turn where
  | again (s : ParseState)
  | done (mem : Bytes) (ret : Except StringError Nat)

/-- `cp <<= 4; cp |= gcfg_xdigit(c)`. -/
def pushDigit (cp : UInt32) (c : UInt8) : UInt32 :=
  (cp <<< 4) ||| UInt32.ofNat (xdigit c).toNat

/-- The loop over the digits of an escape; the number bounds it. -/
def digitLoop (mem : Bytes) : Nat → Nat → Nat → UInt32 → Option (Nat × UInt32)
  | 0, _, _, _ => none
  | fuel + 1, i, input, cp =>
      if i < 6 ∧ xdigit (mem input) ≥ 0 then
        -- the source does not increment `i`
        digitLoop mem fuel i (input + 1) (pushDigit cp (mem input))
      else some (input, cp)

namespace ParseState

/-- Bytes are stored at `dst`, and `in` is moved. -/
def put (s : ParseState) (bytes : List UInt8) (input : Nat) : ParseState :=
  ⟨s.mem.splice s.dst bytes, input, s.dst + bytes.length⟩

/-- One turn of the loop of `gcfg_parse_string`; the number bounds the loop over the digits. -/
def turn (fuel : Nat) (s : ParseState) : Option Turn :=
  if s.mem s.input = quote then some (.done (s.mem.splice s.dst [0]) (.ok (s.input + 1)))
  else if s.mem s.input = 0 then some (.done s.mem (.error .eol))
  else if s.mem s.input = backslash then
    match letterEscape (s.mem (s.input + 1)) with
    | some c => some (.again (s.put [c] (s.input + 2)))
    | none =>
        if IsUnicodeLetter (s.mem (s.input + 1)) then
          if s.mem (s.input + 2) ≠ plus then some (.done s.mem (.error .esc))
          else do
            let (input, cp) ← digitLoop s.mem fuel 0 (s.input + 3) 0
            if !isValidCp cp then some (.done s.mem (.error .cp))
            else some (.again (s.put (encodeUtf8 cp) input))
        else some (.done s.mem (.error .esc))
  else some (.again (s.put [s.mem s.input] (s.input + 1)))

/-- The loop of `gcfg_parse_string`; the number bounds it. -/
def loop : Nat → ParseState → Option (Bytes × Except StringError Nat)
  | 0, _ => none
  | fuel + 1, s =>
      match s.turn (fuel + 1) with
      | none => none
      | some (.done mem ret) => some (mem, ret)
      | some (.again s) => loop fuel s

/-- A turn of the loop leads from one state to another one. -/
def Step (s s' : ParseState) : Prop := ∃ fuel, s.turn fuel = some (.again s')

end ParseState

/-- `gcfg_parse_string`; the number bounds its loops. -/
def parseString (fuel : Nat) (mem : Bytes) (input out : Nat) :
    Option (Bytes × Except StringError Nat) :=
  if mem input ≠ quote then some (mem, .error .start)
  else ParseState.loop fuel ⟨mem, input + 1, out⟩

/-! ## Lines in memory -/

/-- A line stands in memory, with a NUL behind it. -/
def HoldsLine (mem : Bytes) : Nat → List UInt8 → Prop
  | i, [] => mem i = 0
  | i, c :: line => mem i = c ∧ c ≠ 0 ∧ HoldsLine mem (i + 1) line

section Lines

variable {mem mem' : Bytes} {i : Nat} {line front : List UInt8}

theorem HoldsLine.congr (h : HoldsLine mem i line)
    (heq : ∀ p, i ≤ p → p ≤ i + line.length → mem' p = mem p) : HoldsLine mem' i line := by
  induction line generalizing i with
  | nil => exact (heq i (Nat.le_refl i) (Nat.le_refl i)).trans h
  | cons c line ih =>
      obtain ⟨hc, hzero, hline⟩ := h
      have hlength : (c :: line).length = line.length + 1 := rfl
      refine ⟨(heq i (Nat.le_refl i) (Nat.le_add_right ..)).trans hc, hzero, ih hline ?_⟩
      intro p hp hp'
      exact heq p (by omega) (by omega)

theorem HoldsLine.drop (h : HoldsLine mem i (front ++ line)) :
    HoldsLine mem (i + front.length) line := by
  induction front generalizing i with
  | nil => exact h
  | cons c front ih =>
      have hrest := ih h.2.2
      have heq : i + 1 + front.length = i + (c :: front).length := by
        rw [List.length_cons]
        omega
      rwa [heq] at hrest

end Lines

/-! ## The digits of an escape -/

/-- The value that the loop over some digits computes. -/
def codeCp (digits : List UInt8) : UInt32 := digits.foldl pushDigit 0

/-- The reading that the source has: all the digits, and 32 bits of their value. -/
def readAll (digits : List UInt8) : Option (List UInt8) :=
  if isValidCp (codeCp digits) then some (encodeUtf8 (codeCp digits)) else none

theorem toNat_pushDigit (cp : UInt32) (c : UInt8) :
    (pushDigit cp c).toNat = (16 * cp.toNat + (xdigit c).toNat) % 2 ^ 32 := by
  have hlt := xdigit_lt c
  have hdigit : (xdigit c).toNat < 16 := by omega
  unfold pushDigit
  have hvalue : (UInt32.ofNat (xdigit c).toNat).toNat = (xdigit c).toNat := by
    rw [UInt32.toNat_ofNat']
    exact Nat.mod_eq_of_lt (by omega)
  have hshift : (cp <<< 4).toNat = 2 ^ 4 * (cp.toNat % 2 ^ 28) := by
    rw [UInt32.toNat_shiftLeft]
    change cp.toNat <<< 4 % 2 ^ 32 = _
    rw [Nat.shiftLeft_eq]
    omega
  rw [UInt32.toNat_or, hvalue, hshift, ← Nat.two_pow_add_eq_or_of_lt hdigit]
  omega

theorem toNat_codeCp (digits : List UInt8) :
    (codeCp digits).toNat = hexValue digits % 2 ^ 32 := by
  unfold codeCp hexValue
  have hfold : ∀ (digits : List UInt8) (cp : UInt32) (v : Nat), cp.toNat = v % 2 ^ 32 →
      (digits.foldl pushDigit cp).toNat =
        digits.foldl (fun v c => 16 * v + (xdigit c).toNat) v % 2 ^ 32 := by
    intro digits
    induction digits with
    | nil => exact fun cp v h => h
    | cons c digits ih =>
        intro cp v h
        rw [List.foldl_cons, List.foldl_cons]
        apply ih
        rw [toNat_pushDigit, h]
        omega
  exact hfold digits 0 0 rfl

/-- The loop takes all the hex digits. -/
theorem digitLoop_spec {mem : Bytes} {line : List UInt8} {fuel input : Nat} (cp : UInt32)
    (h : HoldsLine mem input line) (hfuel : line.length < fuel) :
    digitLoop mem fuel 0 input cp =
      some (input + (line.takeWhile fun d => decide (IsHex d)).length,
        (line.takeWhile fun d => decide (IsHex d)).foldl pushDigit cp) := by
  induction line generalizing fuel input cp with
  | nil =>
      cases fuel with
      | zero => omega
      | succ fuel =>
          have hzero : mem input = 0 := h
          have hnot : ¬ (0 < 6 ∧ xdigit (mem input) ≥ 0) := by
            rw [hzero]
            decide
          rw [digitLoop, if_neg hnot]
          rfl
  | cons c line ih =>
      obtain ⟨hc, -, hline⟩ := h
      cases fuel with
      | zero => omega
      | succ fuel =>
          rw [digitLoop, hc]
          by_cases hhex : IsHex c
          · have htake : (c :: line).takeWhile (fun d => decide (IsHex d)) =
                c :: line.takeWhile fun d => decide (IsHex d) :=
              List.takeWhile_cons_of_pos (by simpa using hhex)
            rw [if_pos ⟨by omega, hhex⟩, ih _ hline (by simpa using hfuel), htake,
              List.length_cons, List.foldl_cons]
            congr 2
            omega
          · have htake : (c :: line).takeWhile (fun d => decide (IsHex d)) = [] :=
              List.takeWhile_cons_of_neg (by simpa using hhex)
            rw [if_neg (fun hand => hhex hand.2), htake]
            rfl

/-! ## The output stays behind the input -/

section Behind

variable {fuel input input' i : Nat} {mem : Bytes} {cp cp' : UInt32} {s s' : ParseState}

theorem digitLoop_le (h : digitLoop mem fuel i input cp = some (input', cp')) :
    input' = input ∧ cp' = cp ∨ input < input' := by
  induction fuel generalizing input cp with
  | zero => cases h
  | succ fuel ih =>
      rw [digitLoop] at h
      split at h
      · rcases ih h with ⟨rfl, -⟩ | hlt
        · exact Or.inr (Nat.lt_succ_self _)
        · exact Or.inr (Nat.lt_of_succ_lt hlt)
      · cases h
        exact Or.inl ⟨rfl, rfl⟩

theorem length_encodeUtf8_le (cp : UInt32) : (encodeUtf8 cp).length ≤ 4 := by
  rw [length_encodeUtf8]
  grind

/-- The bytes that a turn stores are fewer than those it has taken from the input. -/
theorem turn_put (h : s.turn fuel = some (.again s')) :
    ∃ bytes input', s' = s.put bytes input' ∧ s.input + bytes.length ≤ input' := by
  unfold ParseState.turn at h
  split at h
  · cases h
  split at h
  · cases h
  split at h
  · split at h
    · cases h
      exact ⟨_, _, rfl, by simp⟩
    split at h
    · split at h
      · cases h
      · rw [Option.bind_eq_bind, Option.bind_eq_some_iff] at h
        obtain ⟨⟨input', cp⟩, hdigits, h⟩ := h
        simp only at h
        split at h
        · cases h
        · cases h
          refine ⟨_, _, rfl, ?_⟩
          -- without a digit, one byte is stored
          rcases digitLoop_le hdigits with ⟨rfl, rfl⟩ | hlt
          · have hone : (encodeUtf8 0).length = 1 := rfl
            omega
          · have hle := length_encodeUtf8_le cp
            omega
    · cases h
  · cases h
    exact ⟨_, _, rfl, Nat.le_refl _⟩

/-- The output never reaches input that has not been read. -/
theorem step_behind (h : ParseState.Step s s') (hbehind : s.dst < s.input) :
    s'.dst < s'.input ∧ s.input ≤ s'.input ∧ ∀ p, s'.input ≤ p → s'.mem p = s.mem p := by
  obtain ⟨fuel, hturn⟩ := h
  obtain ⟨bytes, input', rfl, hle⟩ := turn_put hturn
  refine ⟨?_, ?_, ?_⟩
  · change s.dst + bytes.length < input'
    omega
  · change s.input ≤ input'
    omega
  · intro p hp
    change input' ≤ p at hp
    exact splice_apply_of_ge (by omega)

theorem reaches_behind (h : Relation.ReflTransGen ParseState.Step s s')
    (hbehind : s.dst < s.input) :
    s'.dst < s'.input ∧ ∀ p, s'.input ≤ p → s'.mem p = s.mem p := by
  induction h with
  | refl => exact ⟨hbehind, fun _ _ => rfl⟩
  | tail _ hstep ih =>
      obtain ⟨hdst, hle, hmem⟩ := step_behind hstep ih.1
      refine ⟨hdst, ?_⟩
      intro p hp
      rw [hmem p hp]
      exact ih.2 p (by omega)

end Behind

/-! ## The loop -/

section Loop

variable {fuel input' : Nat} {s : ParseState} {line line' bytes : List UInt8}

/-- The loop ends as the reading of the line that the source has says. -/
def Ends (s : ParseState) (line : List UInt8) (r : Option (Bytes × Except StringError Nat)) :
    Prop :=
  match decodeWith readAll line with
  | some (out, rest) => ∃ pos, pos + rest.length = s.input + line.length ∧
      r = some (s.mem.splice s.dst (out ++ [0]), .ok pos)
  | none => ∃ mem e, r = some (mem, .error e)

/-- The output is behind the input, or behind the end of the line. -/
def Placed (s : ParseState) (line : List UInt8) : Prop :=
  s.dst < s.input ∨ s.input + line.length < s.dst

theorem loop_done {mem : Bytes} {e : StringError} (hturn : s.turn (fuel + 1) =
    some (.done mem (.error e))) (hdecode : decodeWith readAll line = none) :
    Ends s line (s.loop (fuel + 1)) := by
  unfold Ends
  rw [hdecode]
  refine ⟨mem, e, ?_⟩
  rw [ParseState.loop, hturn]

/-- A turn that stores bytes, and the loop over the rest of the line. -/
theorem loop_again (hline : HoldsLine s.mem s.input line) (hplace : Placed s line)
    (hturn : s.turn (fuel + 1) = some (.again (s.put bytes input')))
    (hdecode : decodeWith readAll line =
      (decodeWith readAll line').map fun p => (bytes ++ p.1, p.2))
    (hsuffix : ∃ front, line = front ++ line' ∧ input' = s.input + front.length)
    (hloop : HoldsLine (s.put bytes input').mem input' line' → Placed (s.put bytes input') line' →
      Ends (s.put bytes input') line' (ParseState.loop fuel (s.put bytes input'))) :
    Ends s line (s.loop (fuel + 1)) := by
  obtain ⟨front, rfl, rfl⟩ := hsuffix
  obtain ⟨bytes', input', hput, hle⟩ := turn_put hturn
  have hinput : s.input + front.length = input' := congrArg ParseState.input hput
  have hdst : s.dst + bytes.length = s.dst + bytes'.length := congrArg ParseState.dst hput
  have hlength : (front ++ line').length = front.length + line'.length := List.length_append
  unfold Placed at hplace
  rw [hlength] at hplace
  have hplace' : Placed (s.put bytes (s.input + front.length)) line' := by
    change s.dst + bytes.length < s.input + front.length ∨
      s.input + front.length + line'.length < s.dst + bytes.length
    omega
  have hline' : HoldsLine (s.put bytes (s.input + front.length)).mem (s.input + front.length)
      line' := by
    refine hline.drop.congr ?_
    intro p hp hp'
    change s.mem.splice s.dst bytes p = s.mem p
    rcases hplace with hlt | hlt
    · exact splice_apply_of_ge (by omega)
    · exact splice_apply_of_lt (by omega)
  have hends := hloop hline' hplace'
  unfold Ends at hends ⊢
  have hstep : s.loop (fuel + 1) = ParseState.loop fuel (s.put bytes (s.input + front.length)) := by
    rw [ParseState.loop, hturn]
  rw [hstep, hdecode]
  cases hrest : decodeWith readAll line' with
  | none =>
      rw [hrest] at hends
      exact hends
  | some p =>
      rw [hrest] at hends
      obtain ⟨pos, hpos, hret⟩ := hends
      refine ⟨pos, ?_, ?_⟩
      · rw [hlength, hpos]
        exact Nat.add_assoc ..
      · have hmem : (s.put bytes (s.input + front.length)).mem.splice
            (s.put bytes (s.input + front.length)).dst (p.1 ++ [0]) =
            s.mem.splice s.dst (bytes ++ p.1 ++ [0]) := by
          rw [List.append_assoc]
          exact splice_splice_append ..
        rw [hret, hmem]

theorem turn_backslash {e : UInt8} (hslash : s.mem s.input = backslash)
    (he : s.mem (s.input + 1) = e) : s.turn fuel =
      match letterEscape e with
      | some c => some (.again (s.put [c] (s.input + 2)))
      | none =>
          if IsUnicodeLetter e then
            if s.mem (s.input + 2) ≠ plus then some (.done s.mem (.error .esc))
            else (digitLoop s.mem fuel 0 (s.input + 3) 0).bind fun p =>
              if !isValidCp p.2 then some (.done s.mem (.error .cp))
              else some (.again (s.put (encodeUtf8 p.2) p.1))
          else some (.done s.mem (.error .esc)) := by
  rw [ParseState.turn, hslash, he]
  rw [if_neg backslash_ne_quote, if_neg (by decide), if_pos rfl]
  rfl

/-- A code without its plus sign is no escape. -/
theorem turn_noPlus {e : UInt8} (hslash : s.mem s.input = backslash)
    (he : s.mem (s.input + 1) = e) (hletter : letterEscape e = none) (hunicode : IsUnicodeLetter e)
    (hplus : s.mem (s.input + 2) ≠ plus) : s.turn fuel = some (.done s.mem (.error .esc)) := by
  rw [turn_backslash hslash he, hletter]
  simp only
  rw [if_pos hunicode, if_pos hplus]

/-- The digits of a code are stored as the code point they are, if that is one. -/
theorem turn_unicode {e : UInt8} (hline : HoldsLine s.mem s.input (backslash :: e :: plus :: line))
    (hletter : letterEscape e = none) (hunicode : IsUnicodeLetter e)
    (hfuel : line.length < fuel) : s.turn fuel =
      let digits := line.takeWhile fun d => decide (IsHex d)
      if isValidCp (codeCp digits) = true then
        some (.again (s.put (encodeUtf8 (codeCp digits)) (s.input + 3 + digits.length)))
      else some (.done s.mem (.error .cp)) := by
  obtain ⟨hslash, -, he, -, hp, -, hdigits⟩ := hline
  have hplus : ¬ s.mem (s.input + 2) ≠ plus := not_not.2 hp
  have hloop : digitLoop s.mem fuel 0 (s.input + 3) 0 =
      some (s.input + 3 + (line.takeWhile fun d => decide (IsHex d)).length,
        codeCp (line.takeWhile fun d => decide (IsHex d))) :=
    digitLoop_spec 0 hdigits hfuel
  rw [turn_backslash hslash he, hletter]
  simp only
  rw [if_pos hunicode, if_neg hplus, hloop, Option.bind_some]
  by_cases hvalid : isValidCp (codeCp (line.takeWhile fun d => decide (IsHex d))) = true
  · rw [if_pos hvalid, if_neg (by simp [hvalid])]
  · rw [if_neg hvalid, if_pos (by simp [hvalid])]

/-- The loop ends within as many turns as the line has bytes, and one more. -/
theorem loop_ends (hline : HoldsLine s.mem s.input line) (hplace : Placed s line)
    (hfuel : line.length ≤ fuel) : Ends s line (s.loop (fuel + 1)) := by
  induction line using pieces.induct generalizing s fuel with
  | case1 =>
      have hzero : s.mem s.input = 0 := hline
      have hturn : s.turn (fuel + 1) = some (.done s.mem (.error .eol)) := by
        rw [ParseState.turn, hzero]
        rfl
      exact loop_done hturn (decodeWith_of_none pieces_nil)
  | case2 line =>
      have hturn : s.turn (fuel + 1) =
          some (.done (s.mem.splice s.dst [0]) (.ok (s.input + 1))) := by
        rw [ParseState.turn, if_pos hline.1]
      unfold Ends
      rw [decodeWith_quote]
      refine ⟨s.input + 1, ?_, ?_⟩
      · rw [List.length_cons]
        omega
      · rw [ParseState.loop, hturn]
        rfl
  | case3 hne =>
      obtain ⟨hslash, -, hzero⟩ := hline
      have hturn : s.turn (fuel + 1) = some (.done s.mem (.error .esc)) :=
        turn_backslash hslash hzero
      exact loop_done hturn (decodeWith_of_none pieces_backslash_nil)
  | case4 e line c hletter hne ih =>
      have hturn : s.turn (fuel + 1) = some (.again (s.put [c] (s.input + 2))) := by
        rw [turn_backslash hline.1 hline.2.2.1, hletter]
      simp only [List.length_cons] at hfuel
      cases fuel with
      | zero => omega
      | succ fuel =>
          exact loop_again hline hplace hturn (decodeWith_letter hletter)
            ⟨[backslash, e], rfl, rfl⟩ fun hline' hplace' => ih hline' hplace' (by omega)
  | case5 e hletter hunicode hne =>
      obtain ⟨hslash, -, he, -, hzero⟩ := hline
      have hplus : s.mem (s.input + 2) ≠ plus := by
        rw [show s.mem (s.input + 2) = 0 from hzero]
        decide
      exact loop_done (turn_noPlus hslash he hletter hunicode hplus)
        (decodeWith_of_none (pieces_noPlus hunicode (by simp)))
  | case6 e hletter hunicode line hne ih =>
      simp only [List.length_cons] at hfuel
      have hturn := turn_unicode hline hletter hunicode (show line.length < fuel + 1 by omega)
      have hdecode := @decodeWith_unicode readAll line e hunicode
      have hwhole := List.takeWhile_append_dropWhile (p := fun d => decide (IsHex d)) (l := line)
      have hsuffix := (List.dropWhile_suffix (l := line) fun d => decide (IsHex d)).length_le
      dsimp only at hturn
      by_cases hvalid : isValidCp (codeCp (line.takeWhile fun d => decide (IsHex d))) = true
      · rw [if_pos hvalid] at hturn
        rw [readAll, if_pos hvalid] at hdecode
        cases fuel with
        | zero => omega
        | succ fuel =>
            refine loop_again hline hplace hturn hdecode
              ⟨backslash :: e :: plus :: line.takeWhile fun d => decide (IsHex d), ?_, ?_⟩
              fun hline' hplace' => ih hline' hplace' (by omega)
            · rw [List.cons_append, List.cons_append, List.cons_append, hwhole]
            · simp only [List.length_cons]
              omega
      · rw [if_neg hvalid] at hturn
        rw [readAll, if_neg hvalid] at hdecode
        exact loop_done hturn hdecode
  | case7 e hletter hunicode p line hplus hne =>
      obtain ⟨hslash, -, he, -, hp, -, -⟩ := hline
      have hplus' : s.mem (s.input + 2) ≠ plus := by
        rw [show s.mem (s.input + 2) = p from hp]
        exact hplus
      exact loop_done (turn_noPlus hslash he hletter hunicode hplus')
        (decodeWith_of_none (pieces_noPlus hunicode (by simpa using hplus)))
  | case8 e line hletter hunicode hne =>
      have hturn : s.turn (fuel + 1) = some (.done s.mem (.error .esc)) := by
        rw [turn_backslash hline.1 hline.2.2.1, hletter]
        simp only
        rw [if_neg hunicode]
      exact loop_done hturn (decodeWith_of_none (pieces_unknown hletter hunicode))
  | case9 c line hquote hbackslash ih =>
      have hturn : s.turn (fuel + 1) = some (.again (s.put [c] (s.input + 1))) := by
        rw [ParseState.turn, hline.1, if_neg hquote, if_neg hline.2.1, if_neg hbackslash]
      simp only [List.length_cons] at hfuel
      cases fuel with
      | zero => omega
      | succ fuel =>
          exact loop_again hline hplace hturn (decodeWith_plain hquote hbackslash)
            ⟨[c], rfl, rfl⟩ fun hline' hplace' => ih hline' hplace' (by omega)

end Loop

end ImageTool.Gcfg
