import ImageTool.Gcfg.CodePoint
import Mathlib.Data.List.TakeWhile

/-!
# Quoted strings

The grammar of what stands between double quotes, and the pieces that a line is made of
whatever the limit on the digits of an escape is.
-/

namespace ImageTool.Gcfg

/-- `'"'`. -/
def quote : UInt8 := 34

/-- `'\\'`. -/
def backslash : UInt8 := 92

/-- `'+'`. -/
def plus : UInt8 := 43

/-- What a one-letter escape stands for. -/
def letterEscape (c : UInt8) : Option UInt8 :=
  if c = 98 then some 8
  else if c = 116 then some 9
  else if c = 110 then some 10
  else if c = 114 then some 13
  else if c = backslash then some backslash
  else if c = quote then some quote
  else none

/-- `'u'` or `'U'`. -/
def IsUnicodeLetter (c : UInt8) : Prop := c = 117 ∨ c = 85

instance (c : UInt8) : Decidable (IsUnicodeLetter c) := inferInstanceAs (Decidable (_ ∨ _))

/-- What stands between the quotes, and the bytes it stands for.  An escape has at most six hex
digits, as many as there are, and no fewer than `least`. -/
inductive StringBody (least : Nat) : List UInt8 → List UInt8 → Prop
  | nil : StringBody least [] []
  | plain {c : UInt8} {body out : List UInt8} (hquote : c ≠ quote) (hbackslash : c ≠ backslash)
      (hbody : StringBody least body out) : StringBody least (c :: body) (c :: out)
  | letter {e c : UInt8} {body out : List UInt8} (hletter : letterEscape e = some c)
      (hbody : StringBody least body out) :
      StringBody least (backslash :: e :: body) (c :: out)
  | unicode {u : UInt8} {digits body out : List UInt8} (hletter : IsUnicodeLetter u)
      (hhex : ∀ d ∈ digits, IsHex d) (hleast : least ≤ digits.length)
      (hmost : digits.length ≤ 6)
      (hmaximal : digits.length = 6 ∨ ∀ c, body.head? = some c → ¬ IsHex c)
      (hvalid : ValidCodePoint (hexValue digits)) (hbody : StringBody least body out) :
      StringBody least (backslash :: u :: plus :: (digits ++ body))
        (utf8 (hexValue digits) ++ out)

/-! ## Pieces -/

/-- A piece of a string: a byte, or a Unicode escape with all the hex digits behind it. -/
inductive Piece where
  | byte (c : UInt8)
  | unicode (digits : List UInt8)
  deriving DecidableEq

/-- The pieces up to the closing quote, and what is behind it. -/
def pieces : List UInt8 → Option (List Piece × List UInt8)
  | [] => none
  | c :: line =>
      if c = quote then some ([], line)
      else if c = backslash then
        match line with
        | [] => none
        | e :: line =>
            match letterEscape e with
            | some b => (pieces line).map fun p => (.byte b :: p.1, p.2)
            | none =>
                if IsUnicodeLetter e then
                  match line with
                  | [] => none
                  | p :: line =>
                      if p = plus then
                        (pieces (line.dropWhile fun d => decide (IsHex d))).map fun p =>
                          (.unicode (line.takeWhile fun d => decide (IsHex d)) :: p.1, p.2)
                      else none
                else none
      else (pieces line).map fun p => (.byte c :: p.1, p.2)
termination_by line => line.length
decreasing_by
  · simp only [List.length_cons]
    omega
  · have hle := (List.dropWhile_suffix (l := line) fun d => decide (IsHex d)).length_le
    simp only [List.length_cons]
    omega
  · simp only [List.length_cons]
    omega

/-- The bytes of a piece, for a reading of the digits of an escape. -/
def Piece.read (digitsRead : List UInt8 → Option (List UInt8)) : Piece → Option (List UInt8)
  | .byte c => some [c]
  | .unicode digits => digitsRead digits

/-- The bytes of a line up to the closing quote, and what is behind it. -/
def decodeWith (digitsRead : List UInt8 → Option (List UInt8)) (line : List UInt8) :
    Option (List UInt8 × List UInt8) := do
  let (ps, rest) ← pieces line
  let outs ← ps.mapM (Piece.read digitsRead)
  some (outs.flatten, rest)

/-- The reading that the grammar has: six digits at most, and more of them are bytes. -/
def readSix (least : Nat) (digits : List UInt8) : Option (List UInt8) :=
  if least ≤ (digits.take 6).length ∧ ValidCodePoint (hexValue (digits.take 6)) then
    some (utf8 (hexValue (digits.take 6)) ++ digits.drop 6)
  else none

/-! ## The pieces of a line -/

section Pieces

variable {line rest digits : List UInt8} {ps : List Piece} {c e : UInt8}

@[simp] theorem pieces_nil : pieces [] = none := by rw [pieces]

@[simp] theorem pieces_quote : pieces (quote :: line) = some ([], line) := by
  rw [pieces.eq_def]
  simp

theorem pieces_plain (hquote : c ≠ quote) (hbackslash : c ≠ backslash) :
    pieces (c :: line) = (pieces line).map fun p => (.byte c :: p.1, p.2) := by
  rw [pieces.eq_def]
  simp [hquote, hbackslash]

theorem backslash_ne_quote : backslash ≠ quote := by decide

@[simp] theorem pieces_backslash_nil : pieces [backslash] = none := by
  rw [pieces.eq_def]
  simp [backslash_ne_quote]

theorem pieces_letter (hletter : letterEscape e = some c) :
    pieces (backslash :: e :: line) = (pieces line).map fun p => (.byte c :: p.1, p.2) := by
  rw [pieces.eq_def]
  simp [backslash_ne_quote, hletter]

theorem letterEscape_unicode (hletter : IsUnicodeLetter e) : letterEscape e = none := by
  rcases hletter with rfl | rfl <;> rfl

theorem pieces_unicode (hletter : IsUnicodeLetter e) :
    pieces (backslash :: e :: plus :: line) =
      (pieces (line.dropWhile fun d => decide (IsHex d))).map fun p =>
        (.unicode (line.takeWhile fun d => decide (IsHex d)) :: p.1, p.2) := by
  rw [pieces.eq_def]
  simp [backslash_ne_quote, letterEscape_unicode hletter, hletter]

theorem pieces_noPlus (hletter : IsUnicodeLetter e) (hplus : line.head? ≠ some plus) :
    pieces (backslash :: e :: line) = none := by
  rw [pieces.eq_def]
  cases line with
  | nil => simp [backslash_ne_quote, letterEscape_unicode hletter]
  | cons p line =>
      have hne : p ≠ plus := by simpa using hplus
      simp [backslash_ne_quote, letterEscape_unicode hletter, hne]

theorem pieces_unknown (hletter : letterEscape e = none) (hunicode : ¬ IsUnicodeLetter e) :
    pieces (backslash :: e :: line) = none := by
  rw [pieces.eq_def]
  simp [backslash_ne_quote, hletter, hunicode]

theorem isHex_ne (h : IsHex c) : c ≠ quote ∧ c ≠ backslash := by
  rw [isHex_iff] at h
  constructor
  · rintro rfl
    exact absurd h (by decide)
  · rintro rfl
    exact absurd h (by decide)

theorem mem_of_map_cons {piece other : Piece}
    (h : ((pieces line).map fun p => (piece :: p.1, p.2)) = some (ps, rest))
    (hmem : other ∈ ps) :
    other = piece ∨ ∃ ps', pieces line = some (ps', rest) ∧ other ∈ ps' := by
  rw [Option.map_eq_some_iff] at h
  obtain ⟨p, hp, heq⟩ := h
  cases heq
  exact (List.mem_cons.1 hmem).imp_right fun hin => ⟨p.1, hp, hin⟩

theorem isHex_of_mem_takeWhile (line : List UInt8) :
    ∀ d ∈ line.takeWhile fun d => decide (IsHex d), IsHex d := by
  intro d hd
  have hhex := List.mem_takeWhile_imp hd
  exact of_decide_eq_true hhex

/-- The digits of a piece are hex digits. -/
theorem isHex_of_mem_pieces (h : pieces line = some (ps, rest)) (hmem : .unicode digits ∈ ps) :
    ∀ d ∈ digits, IsHex d := by
  induction line using pieces.induct generalizing ps with
  | case1 => simp at h
  | case2 line =>
      rw [pieces_quote] at h
      cases h
      simp at hmem
  | case3 hne => simp at h
  | case4 e line c hletter hne ih =>
      rw [pieces_letter hletter] at h
      rcases mem_of_map_cons h hmem with heq | ⟨ps', hps', hin⟩
      · cases heq
      · exact ih hps' hin
  | case5 e hletter hunicode hne =>
      rw [pieces_noPlus hunicode (by simp)] at h
      cases h
  | case6 e hletter hunicode line hne ih =>
      rw [pieces_unicode hunicode] at h
      rcases mem_of_map_cons h hmem with heq | ⟨ps', hps', hin⟩
      · cases heq
        exact isHex_of_mem_takeWhile line
      · exact ih hps' hin
  | case7 e hletter hunicode p line hplus hne =>
      rw [pieces_noPlus hunicode (by simpa using hplus)] at h
      cases h
  | case8 e line hletter hunicode hne =>
      rw [pieces_unknown hletter hunicode] at h
      cases h
  | case9 c line hquote hbackslash ih =>
      rw [pieces_plain hquote hbackslash] at h
      rcases mem_of_map_cons h hmem with heq | ⟨ps', hps', hin⟩
      · cases heq
      · exact ih hps' hin

end Pieces

/-! ## Reading the pieces -/

section Reading

variable {read : List UInt8 → Option (List UInt8)} {line line' rest out : List UInt8} {c e : UInt8}

theorem decodeWith_of_none (h : pieces line = none) : decodeWith read line = none := by
  rw [decodeWith, h]
  rfl

theorem decodeWith_cons {piece : Piece}
    (h : pieces line = (pieces line').map fun p => (piece :: p.1, p.2)) :
    decodeWith read line = (piece.read read).bind fun x =>
      (decodeWith read line').map fun p => (x ++ p.1, p.2) := by
  unfold decodeWith
  rw [h]
  cases pieces line' with
  | none => cases piece.read read <;> rfl
  | some p =>
      simp only [Option.map_some, Option.bind_eq_bind, Option.bind_some, List.mapM_cons]
      cases piece.read read with
      | none => rfl
      | some x => cases p.1.mapM (Piece.read read) <;> rfl

@[simp] theorem decodeWith_quote : decodeWith read (quote :: line) = some ([], line) := by
  rw [decodeWith, pieces_quote]
  rfl

theorem decodeWith_plain (hquote : c ≠ quote) (hbackslash : c ≠ backslash) :
    decodeWith read (c :: line) = (decodeWith read line).map fun p => (c :: p.1, p.2) :=
  decodeWith_cons (pieces_plain hquote hbackslash)

theorem decodeWith_letter (hletter : letterEscape e = some c) :
    decodeWith read (backslash :: e :: line) =
      (decodeWith read line).map fun p => (c :: p.1, p.2) :=
  decodeWith_cons (pieces_letter hletter)

theorem decodeWith_unicode (hletter : IsUnicodeLetter e) :
    decodeWith read (backslash :: e :: plus :: line) =
      (read (line.takeWhile fun d => decide (IsHex d))).bind fun x =>
        (decodeWith read (line.dropWhile fun d => decide (IsHex d))).map fun p =>
          (x ++ p.1, p.2) :=
  decodeWith_cons (pieces_unicode hletter)

/-- Hex digits stand for themselves outside of escapes. -/
theorem decodeWith_hex {digits : List UInt8} (h : ∀ d ∈ digits, IsHex d) :
    decodeWith read (digits ++ line) =
      (decodeWith read line).map fun p => (digits ++ p.1, p.2) := by
  induction digits with
  | nil =>
      rw [List.nil_append]
      cases decodeWith read line <;> rfl
  | cons d digits ih =>
      rw [List.forall_mem_cons] at h
      have hne := isHex_ne h.1
      rw [List.cons_append, decodeWith_plain hne.1 hne.2, ih h.2]
      cases decodeWith read line <;> rfl

end Reading

/-! ## The grammar -/

section Grammar

variable {least : Nat} {line rest body out digits : List UInt8}

theorem StringBody.hex (h : StringBody least body out) (hdigits : ∀ d ∈ digits, IsHex d) :
    StringBody least (digits ++ body) (digits ++ out) := by
  induction digits with
  | nil => exact h
  | cons d digits ih =>
      rw [List.forall_mem_cons] at hdigits
      have hne := isHex_ne hdigits.1
      exact StringBody.plain hne.1 hne.2 (ih hdigits.2)

/-- Six digits are read, and those behind them stand for themselves. -/
theorem readSix_append {more : List UInt8} (hleast : least ≤ digits.length)
    (hmost : digits.length ≤ 6) (hvalid : ValidCodePoint (hexValue digits))
    (hsix : digits.length = 6 ∨ more = []) :
    readSix least (digits ++ more) = some (utf8 (hexValue digits) ++ more) := by
  have htake : (digits ++ more).take 6 = digits ∧ (digits ++ more).drop 6 = more := by
    rcases hsix with hlength | rfl
    · exact ⟨List.take_left' hlength, List.drop_left' hlength⟩
    · rw [List.append_nil]
      exact ⟨List.take_of_length_le hmost, List.drop_eq_nil_of_le hmost⟩
  rw [readSix, htake.1, htake.2, if_pos ⟨hleast, hvalid⟩]

theorem StringBody.decode (h : StringBody least body out) (rest : List UInt8) :
    decodeWith (readSix least) (body ++ quote :: rest) = some (out, rest) := by
  induction h with
  | nil => exact decodeWith_quote
  | plain hquote hbackslash hbody ih =>
      rw [List.cons_append, decodeWith_plain hquote hbackslash, ih]
      rfl
  | letter hletter hbody ih =>
      rw [List.cons_append, List.cons_append, decodeWith_letter hletter, ih]
      rfl
  | @unicode u digits body out hletter hhex hleast hmost hmaximal hvalid hbody ih =>
      have hdecide : ∀ d ∈ digits, decide (IsHex d) = true := fun d hd => decide_eq_true (hhex d hd)
      have hmore := isHex_of_mem_takeWhile (body ++ quote :: rest)
      have hsplit := List.takeWhile_append_dropWhile (p := fun d => decide (IsHex d))
        (l := body ++ quote :: rest)
      -- more hex digits follow only where the escape has six of them
      have hsix : digits.length = 6 ∨
          (body ++ quote :: rest).takeWhile (fun d => decide (IsHex d)) = [] := by
        refine hmaximal.imp_right ?_
        intro hhead
        cases body with
        | nil => rfl
        | cons c body =>
            have hc : ¬ IsHex c := hhead c rfl
            rw [List.cons_append, List.takeWhile_cons_of_neg (by simpa using hc)]
      have hread := readSix_append hleast hmost hvalid hsix
      have hline : backslash :: u :: plus :: (digits ++ body) ++ quote :: rest =
          backslash :: u :: plus :: (digits ++ (body ++ quote :: rest)) := by
        simp
      rw [← hsplit, decodeWith_hex hmore, Option.map_eq_some_iff] at ih
      obtain ⟨p, hp, heq⟩ := ih
      cases heq
      rw [hline, decodeWith_unicode hletter, List.takeWhile_append_of_pos hdecide,
        List.dropWhile_append_of_pos hdecide, hread, hp]
      simp

theorem exists_stringBody (h : decodeWith (readSix least) line = some (out, rest)) :
    ∃ body, line = body ++ quote :: rest ∧ StringBody least body out := by
  induction line using pieces.induct generalizing out with
  | case1 =>
      rw [decodeWith_of_none pieces_nil] at h
      cases h
  | case2 line =>
      rw [decodeWith_quote] at h
      cases h
      exact ⟨[], rfl, StringBody.nil⟩
  | case3 hne => 
      rw [decodeWith_of_none pieces_backslash_nil] at h
      cases h
  | case4 e line c hletter hne ih =>
      rw [decodeWith_letter hletter, Option.map_eq_some_iff] at h
      obtain ⟨p, hp, heq⟩ := h
      cases heq
      obtain ⟨body, rfl, hbody⟩ := ih hp
      exact ⟨backslash :: e :: body, rfl, hbody.letter hletter⟩
  | case5 e hletter hunicode hne =>
      rw [decodeWith_of_none (pieces_noPlus hunicode (by simp))] at h
      cases h
  | case6 e hletter hunicode line hne ih =>
      rw [decodeWith_unicode hunicode, Option.bind_eq_some_iff] at h
      obtain ⟨x, hread, hrest⟩ := h
      rw [Option.map_eq_some_iff] at hrest
      obtain ⟨p, hp, heq⟩ := hrest
      cases heq
      obtain ⟨body, hsplit, hbody⟩ := ih hp
      have hhex := isHex_of_mem_takeWhile line
      have hwhole := List.takeWhile_append_dropWhile (p := fun d => decide (IsHex d)) (l := line)
      have hhead : ∀ c, body.head? = some c → ¬ IsHex c := by
        intro c hc
        have hnot := List.head?_dropWhile_not (fun d => decide (IsHex d)) line
        rw [hsplit, List.head?_append, hc] at hnot
        simpa using hnot
      generalize line.takeWhile (fun d => decide (IsHex d)) = digits at hread hhex hwhole
      rw [readSix] at hread
      split at hread
      · rename_i hvalid
        cases hread
        rw [hsplit] at hwhole
        have htake : ∀ d ∈ digits.take 6, IsHex d := fun d hd => hhex d (List.mem_of_mem_take hd)
        have hdrop : ∀ d ∈ digits.drop 6, IsHex d := fun d hd => hhex d (List.mem_of_mem_drop hd)
        have hmaximal : (digits.take 6).length = 6 ∨
            ∀ c, (digits.drop 6 ++ body).head? = some c → ¬ IsHex c := by
          by_cases hlong : 6 ≤ digits.length
          · exact Or.inl (by rw [List.length_take]; omega)
          · rw [List.drop_eq_nil_of_le (by omega), List.nil_append]
            exact Or.inr hhead
        have hbody' := StringBody.unicode hunicode htake hvalid.1 (List.length_take_le ..) hmaximal
          hvalid.2 (hbody.hex hdrop)
        rw [← List.append_assoc, List.take_append_drop, ← List.append_assoc] at hbody'
        refine ⟨backslash :: e :: plus :: (digits ++ body), ?_, hbody'⟩
        rw [← hwhole]
        simp
      · cases hread
  | case7 e hletter hunicode p line hplus hne =>
      rw [decodeWith_of_none (pieces_noPlus hunicode (by simpa using hplus))] at h
      cases h
  | case8 e line hletter hunicode hne =>
      rw [decodeWith_of_none (pieces_unknown hletter hunicode)] at h
      cases h
  | case9 c line hquote hbackslash ih =>
      rw [decodeWith_plain hquote hbackslash, Option.map_eq_some_iff] at h
      obtain ⟨p, hp, heq⟩ := h
      cases heq
      obtain ⟨body, rfl, hbody⟩ := ih hp
      exact ⟨c :: body, rfl, hbody.plain hquote hbackslash⟩

end Grammar

end ImageTool.Gcfg
