import ImageTool.Gcfg.ParseString
import Mathlib.Data.List.Induction
import Mathlib.Tactic.Ring

/-!
# Escapes with more than six digits

The grammar reads six hex digits of an escape at most; the source reads them all.  The two
readings of a line are compared piece by piece: an escape with more digits never stands for the
same bytes in both.
-/

namespace ImageTool.Gcfg

open Lib Lib.Bytes

section Values

variable {digits more x y : List UInt8} {least : Nat}

theorem hexValue_append (digits more : List UInt8) :
    hexValue (digits ++ more) = hexValue digits * 16 ^ more.length + hexValue more := by
  induction more using List.reverseRecOn with
  | nil => simp
  | append_singleton more c ih =>
      rw [← List.append_assoc, hexValue_concat, hexValue_concat, ih, List.length_append,
        List.length_singleton, Nat.pow_succ]
      ring

theorem hexValue_lt (digits : List UInt8) : hexValue digits < 16 ^ digits.length := by
  induction digits using List.reverseRecOn with
  | nil => simp
  | append_singleton digits c ih =>
      have hlt := xdigit_lt c
      rw [hexValue_concat, List.length_append, List.length_singleton, Nat.pow_succ]
      omega

/-- Up to six digits are read alike. -/
theorem readAll_eq_readSix (hleast : least ≤ digits.length) (hmost : digits.length ≤ 6) :
    readAll digits = readSix least digits := by
  have hlt := hexValue_lt digits
  have hpow : 16 ^ digits.length ≤ 16 ^ 6 := Nat.pow_le_pow_right (by decide) hmost
  have hvalue : (codeCp digits).toNat = hexValue digits := by
    rw [toNat_codeCp]
    omega
  have hvalid := isValidCp_iff (codeCp digits)
  rw [hvalue] at hvalid
  rw [readAll, readSix, List.take_of_length_le hmost, List.drop_eq_nil_of_le hmost,
    List.append_nil]
  by_cases h : ValidCodePoint (hexValue digits)
  · have hvalid' : ValidCodePoint (codeCp digits).toNat := by rwa [hvalue]
    rw [if_pos (hvalid.2 h), if_pos ⟨hleast, h⟩, encodeUtf8_eq hvalid', hvalue]
  · rw [if_neg (fun hcp => h (hvalid.1 hcp)), if_neg (fun hand => h hand.2)]

theorem length_utf8 {n : Nat} (h : ValidCodePoint n) : (utf8 n).length =
    if 0x10000 ≤ n then 4 else if 0x800 ≤ n then 3 else if 0x80 ≤ n then 2 else 1 := by
  have hsmall : n < 2 ^ 32 := by
    unfold ValidCodePoint at h
    omega
  have hvalue : (UInt32.ofNat n).toNat = n := by
    rw [UInt32.toNat_ofNat', Nat.mod_eq_of_lt hsmall]
  have hlength := length_encodeUtf8 (UInt32.ofNat n)
  rw [encodeUtf8_eq (by rwa [hvalue]), hvalue] at hlength
  exact hlength

theorem length_utf8_pos {n : Nat} (h : ValidCodePoint n) : 0 < (utf8 n).length := by
  rw [length_utf8 h]
  split_ifs <;> omega

theorem readSix_eq_some (h : readSix least digits = some y) :
    least ≤ (digits.take 6).length ∧ ValidCodePoint (hexValue (digits.take 6)) ∧
      y = utf8 (hexValue (digits.take 6)) ++ digits.drop 6 := by
  rw [readSix] at h
  split at h
  · rename_i hcond
    cases h
    exact ⟨hcond.1, hcond.2, rfl⟩
  · cases h

theorem readAll_eq_some (h : readAll digits = some x) : x = encodeUtf8 (codeCp digits) := by
  rw [readAll] at h
  split at h
  · cases h
    rfl
  · cases h

/-- All the digits together never stand for more bytes than six of them and the rest. -/
theorem length_readAll_le (hall : readAll digits = some x) (hsix : readSix least digits = some y) :
    x.length ≤ y.length := by
  obtain ⟨hleast, hvalid, rfl⟩ := readSix_eq_some hsix
  have hx := readAll_eq_some hall
  have htake : (digits.take 6).length ≤ digits.length := List.length_take_le' ..
  by_cases hmost : digits.length ≤ 6
  · have heq := @readAll_eq_readSix digits least (by omega) hmost
    rw [heq, hsix] at hall
    cases hall
    exact Nat.le_refl _
  · have hvalue : hexValue digits =
        hexValue (digits.take 6) * 16 ^ (digits.drop 6).length + hexValue (digits.drop 6) := by
      rw [← hexValue_append, List.take_append_drop]
    have hlt := hexValue_lt (digits.drop 6)
    have hlength := length_encodeUtf8 (codeCp digits)
    have hdrop : (digits.drop 6).length = digits.length - 6 := List.length_drop
    have hle := length_encodeUtf8_le (codeCp digits)
    rw [toNat_codeCp, hvalue] at hlength
    rw [hx, List.length_append, length_utf8 hvalid]
    have hmax := hvalid.1
    generalize hexValue (digits.take 6) = v at hlength hmax ⊢
    generalize (digits.drop 6).length = k at hlength hlt hdrop ⊢
    generalize hexValue (digits.drop 6) = w at hlength hlt
    -- one, two or three more digits make a code point at most so much larger
    have hcases : k = 1 ∨ k = 2 ∨ k = 3 ∨ 4 ≤ k := by omega
    rcases hcases with rfl | rfl | rfl | hk
    · split_ifs at hlength ⊢ <;> omega
    · split_ifs at hlength ⊢ <;> omega
    · split_ifs at hlength ⊢ <;> omega
    · split_ifs <;> omega

/-- With more than six digits, the bytes differ. -/
theorem length_le_six_of_eq (hhex : ∀ d ∈ digits, IsHex d) (hall : readAll digits = some x)
    (hsix : readSix least digits = some x) : digits.length ≤ 6 := by
  obtain ⟨-, hvalid, hy⟩ := readSix_eq_some hsix
  have hx := readAll_eq_some hall
  by_contra hmany
  have hdrop : digits.drop 6 ≠ [] := by
    rw [← List.length_pos_iff, List.length_drop]
    omega
  -- the last byte is a digit in the one reading, and part of a character in the other one
  have hlast := List.dropLast_append_getLast hdrop
  have hdigit : IsHex ((digits.drop 6).getLast hdrop) :=
    hhex _ (List.mem_of_mem_drop (List.getLast_mem hdrop))
  rw [← hlast, ← List.append_assoc] at hy
  rw [hx] at hy
  have hutf8 : utf8 (hexValue (digits.take 6)) ++ (digits.drop 6).dropLast ≠ [] := by
    intro hnil
    have hpos := length_utf8_pos hvalid
    rw [(List.append_eq_nil_iff.1 hnil).1] at hpos
    exact Nat.lt_irrefl 0 hpos
  have hlarge := getLast_encodeUtf8 hy hutf8
  rw [isHex_iff] at hdigit
  omega

end Values

section Readings

variable {least : Nat} {ps : List Piece} {outs outs' : List (List UInt8)}
  {read : List UInt8 → Option (List UInt8)} {line : List UInt8}

theorem mapM_eq_none_iff {α β : Type} {f : α → Option β} {list : List α} :
    list.mapM f = none ↔ ∃ a ∈ list, f a = none := by
  induction list with
  | nil => simp
  | cons a list ih =>
      rw [List.mapM_cons, List.exists_mem_cons_iff, ← ih]
      cases f a with
      | none => simp
      | some b => cases list.mapM f <;> simp

theorem mapM_read_eq_none : ps.mapM (Piece.read read) = none ↔
    ∃ digits, Piece.unicode digits ∈ ps ∧ read digits = none := by
  rw [mapM_eq_none_iff]
  constructor
  · intro h
    obtain ⟨piece, hmem, hread⟩ := h
    cases piece with
    | byte c => cases hread
    | unicode digits => exact ⟨digits, hmem, hread⟩
  · intro h
    obtain ⟨digits, hmem, hread⟩ := h
    exact ⟨.unicode digits, hmem, hread⟩

/-- The bytes of a string that both readings accept. -/
theorem read_cons {piece : Piece} (h : (piece :: ps).mapM (Piece.read read) = some outs) :
    ∃ x outs', piece.read read = some x ∧ ps.mapM (Piece.read read) = some outs' ∧
      outs = x :: outs' := by
  rw [List.mapM_cons] at h
  simp only [Option.bind_eq_bind, Option.bind_eq_some_iff, Option.pure_def,
    Option.some.injEq] at h
  obtain ⟨x, hx, outs', houts', heq⟩ := h
  exact ⟨x, outs', hx, houts', heq.symm⟩

theorem length_read_le {piece : Piece} {x y : List UInt8} (hall : piece.read readAll = some x)
    (hsix : piece.read (readSix least) = some y) : x.length ≤ y.length := by
  cases piece with
  | byte c =>
      cases hall
      cases hsix
      exact Nat.le_refl _
  | unicode digits => exact length_readAll_le hall hsix

theorem length_flatten_le (hall : ps.mapM (Piece.read readAll) = some outs)
    (hsix : ps.mapM (Piece.read (readSix least)) = some outs') :
    outs.flatten.length ≤ outs'.flatten.length := by
  induction ps generalizing outs outs' with
  | nil =>
      cases hall
      exact Nat.zero_le _
  | cons piece ps ih =>
      obtain ⟨x, more, hx, hmore, rfl⟩ := read_cons hall
      obtain ⟨y, more', hy, hmore', rfl⟩ := read_cons hsix
      have hfirst := length_read_le hx hy
      have hrest := ih hmore hmore'
      rw [List.flatten_cons, List.flatten_cons, List.length_append, List.length_append]
      omega

/-- Where both readings give the same bytes, no escape has more than six digits. -/
theorem length_le_six (hhex : ∀ digits, Piece.unicode digits ∈ ps → ∀ d ∈ digits, IsHex d)
    (hall : ps.mapM (Piece.read readAll) = some outs)
    (hsix : ps.mapM (Piece.read (readSix least)) = some outs')
    (heq : outs.flatten = outs'.flatten) :
    ∀ digits, Piece.unicode digits ∈ ps → digits.length ≤ 6 := by
  induction ps generalizing outs outs' with
  | nil => simp
  | cons piece ps ih =>
      obtain ⟨x, more, hx, hmore, rfl⟩ := read_cons hall
      obtain ⟨y, more', hy, hmore', rfl⟩ := read_cons hsix
      have hfirst := length_read_le hx hy
      have hrest := length_flatten_le hmore hmore'
      rw [List.flatten_cons, List.flatten_cons] at heq
      have hlength := congrArg List.length heq
      rw [List.length_append, List.length_append] at hlength
      obtain ⟨hxy, hflatten⟩ := List.append_inj heq (by omega)
      intro digits hmem
      rcases List.mem_cons.1 hmem with rfl | hin
      · rw [← hxy] at hy
        exact length_le_six_of_eq (hhex digits hmem) hx hy
      · exact ih (fun digits hd => hhex digits (List.mem_cons_of_mem _ hd)) hmore hmore' hflatten
          digits hin

theorem mapM_read_congr (h : ∀ digits, Piece.unicode digits ∈ ps →
    least ≤ digits.length ∧ digits.length ≤ 6) :
    ps.mapM (Piece.read readAll) = ps.mapM (Piece.read (readSix least)) := by
  induction ps with
  | nil => rfl
  | cons piece ps ih =>
      have hpiece : piece.read readAll = piece.read (readSix least) := by
        cases piece with
        | byte c => rfl
        | unicode digits =>
            obtain ⟨hleast, hmost⟩ := h digits (List.mem_cons_self ..)
            exact readAll_eq_readSix hleast hmost
      rw [List.mapM_cons, List.mapM_cons, hpiece,
        ih fun digits hin => h digits (List.mem_cons_of_mem _ hin)]

/-- The condition for the source to read a line as the grammar does: it is not made of pieces
up to a closing quote; or none of its escapes has more than six digits, or fewer than the least
number; or one of them has a value that is no code point with all its digits, in 32 bits, and
one of them with six digits. -/
def SameReading (least : Nat) (line : List UInt8) : Prop :=
  ∀ ps rest, pieces line = some (ps, rest) →
    (∀ digits, Piece.unicode digits ∈ ps → least ≤ digits.length ∧ digits.length ≤ 6) ∨
    (∃ digits, Piece.unicode digits ∈ ps ∧ ¬ ValidCodePoint (hexValue digits % 2 ^ 32)) ∧
      ∃ digits, Piece.unicode digits ∈ ps ∧
        ¬ (least ≤ (digits.take 6).length ∧ ValidCodePoint (hexValue (digits.take 6)))

theorem readAll_eq_none (digits : List UInt8) :
    readAll digits = none ↔ ¬ ValidCodePoint (hexValue digits % 2 ^ 32) := by
  rw [readAll, ← toNat_codeCp, ← isValidCp_iff]
  split <;> simp_all

theorem readSix_eq_none (least : Nat) (digits : List UInt8) : readSix least digits = none ↔
    ¬ (least ≤ (digits.take 6).length ∧ ValidCodePoint (hexValue (digits.take 6))) := by
  rw [readSix]
  split <;> simp_all

theorem decode_iff : decodeWith readAll line = decodeWith (readSix least) line ↔
    SameReading least line := by
  unfold SameReading
  simp only [← readAll_eq_none, ← readSix_eq_none, ← mapM_read_eq_none]
  cases hpieces : pieces line with
  | none =>
      rw [decodeWith_of_none hpieces, decodeWith_of_none hpieces]
      simp
  | some p =>
      obtain ⟨ps, rest⟩ := p
      have hhex := fun digits => @isHex_of_mem_pieces line rest digits ps hpieces
      have hdecode : ∀ read, decodeWith read line =
          (ps.mapM (Piece.read read)).map fun outs => (outs.flatten, rest) := by
        intro read
        simp only [decodeWith, hpieces, Option.bind_eq_bind, Option.bind_some]
        cases ps.mapM (Piece.read read) <;> rfl
      rw [hdecode, hdecode]
      simp only [Option.some.injEq, Prod.mk.injEq]
      constructor
      · intro heq ps' rest' hp
        obtain ⟨rfl, rfl⟩ := hp
        cases hall : ps.mapM (Piece.read readAll) with
        | none =>
            rw [hall] at heq
            exact Or.inr ⟨rfl, Option.map_eq_none_iff.1 heq.symm⟩
        | some outs =>
            cases hsix : ps.mapM (Piece.read (readSix least)) with
            | none =>
                rw [hall, hsix] at heq
                cases heq
            | some outs' =>
                rw [hall, hsix, Option.map_some, Option.map_some] at heq
                have hflatten : outs.flatten = outs'.flatten :=
                  congrArg Prod.fst (Option.some.inj heq)
                have hsome : ps.mapM (Piece.read (readSix least)) ≠ none := by
                  rw [hsix]
                  exact Option.some_ne_none outs'
                rw [Ne, mapM_read_eq_none, not_exists] at hsome
                refine Or.inl fun digits hmem => ⟨?_, ?_⟩
                · have hread := Option.ne_none_iff_exists'.1 fun hnone => hsome digits ⟨hmem, hnone⟩
                  obtain ⟨x, hx⟩ := hread
                  exact Nat.le_trans (readSix_eq_some hx).1 (List.length_take_le' ..)
                · exact length_le_six hhex hall hsix hflatten digits hmem
      · intro h
        rcases h ps rest ⟨rfl, rfl⟩ with hshort | ⟨hall, hsix⟩
        · rw [mapM_read_congr hshort]
        · rw [hall, hsix]

end Readings

/-! ## Where the source reads a line as the grammar does -/

section Decoded

variable {least : Nat} {line body : List UInt8}

/-- What `gcfg_parse_string` should do with a line, wherever the line and the output stand:
accept the strings of the grammar, with the position behind the closing quote and their bytes and
a NUL in the output; reject all else; and not store into input that is still to be read. -/
structure ReadsString (least : Nat) (line : List UInt8) : Prop where
  accepts : ∀ (mem : Bytes) (input out fuel : Nat), HoldsLine mem input line →
    (out ≤ input ∨ input + line.length < out) → line.length < fuel →
    ∀ body bytes rest, line = quote :: (body ++ quote :: rest) → StringBody least body bytes →
      parseString fuel mem input out =
        some (mem.splice out (bytes ++ [0]), .ok (input + body.length + 2))
  rejects : ∀ (mem : Bytes) (input out fuel : Nat), HoldsLine mem input line →
    (out ≤ input ∨ input + line.length < out) → line.length < fuel →
    (¬ ∃ body bytes rest, line = quote :: (body ++ quote :: rest) ∧ StringBody least body bytes) →
      ∃ mem' e, parseString fuel mem input out = some (mem', .error e)
  unread : ∀ (mem : Bytes) (input out : Nat), out ≤ input → ∀ s,
    Relation.ReflTransGen ParseState.Step ⟨mem, input + 1, out⟩ s →
      ∀ p, s.input ≤ p → s.mem p = mem p

theorem parseString_ends {mem : Bytes} {input out fuel : Nat}
    (hline : HoldsLine mem input (quote :: body))
    (hplace : out ≤ input ∨ input + (quote :: body).length < out)
    (hfuel : (quote :: body).length < fuel) :
    Ends ⟨mem, input + 1, out⟩ body (parseString fuel mem input out) := by
  rw [List.length_cons] at hplace hfuel
  have hplaced : Placed ⟨mem, input + 1, out⟩ body := by
    change out < input + 1 ∨ input + 1 + body.length < out
    omega
  cases fuel with
  | zero => omega
  | succ fuel =>
      rw [parseString, if_neg (not_not.2 hline.1)]
      exact loop_ends hline.2.2 hplaced (by omega)

theorem decodeWith_rest {read : List UInt8 → Option (List UInt8)} {out rest : List UInt8}
    (h : decodeWith read line = some (out, rest)) : ∃ ps, pieces line = some (ps, rest) := by
  unfold decodeWith at h
  cases hpieces : pieces line with
  | none =>
      rw [hpieces] at h
      cases h
  | some p =>
      rw [hpieces] at h
      simp only [Option.bind_eq_bind, Option.bind_some, Option.bind_eq_some_iff,
        Option.some.injEq, Prod.mk.injEq] at h
      obtain ⟨outs, _, _, rfl⟩ := h
      exact ⟨p.1, rfl⟩

/-- A NUL behind some bytes shows how many they are where the memory has none. -/
theorem splice_nul_inj {mem : Bytes} {out : Nat} (hmem : ∀ p, out ≤ p → mem p ≠ 0)
    {xs ys : List UInt8} (h : mem.splice out (xs ++ [0]) = mem.splice out (ys ++ [0])) :
    xs = ys := by
  have hshort : ∀ {xs ys : List UInt8},
      mem.splice out (xs ++ [0]) = mem.splice out (ys ++ [0]) → ys.length ≤ xs.length := by
    intro xs ys h
    by_contra hlt
    have hat := congrFun h (out + ys.length)
    rw [splice_apply_of_ge (by simp; omega), splice_apply_of_mem (by omega) (by simp)] at hat
    refine hmem _ (Nat.le_add_right ..) (hat.trans ?_)
    simp
  have hlength : xs.length = ys.length := Nat.le_antisymm (hshort h.symm) (hshort h)
  have hxs := slice_splice_self mem out (xs ++ [0])
  rw [h, List.length_append, hlength, ← List.length_append, slice_splice_self] at hxs
  exact (List.append_cancel_right hxs).symm

/-- A line at the beginning of a memory without any other NUL. -/
def lineMemory (line : List UInt8) : Bytes := fun p =>
  if p < line.length then line.getD p 0 else if p = line.length then 0 else 1

theorem holdsLine_lineMemory (h : 0 ∉ line) : HoldsLine (lineMemory line) 0 line := by
  have hrest : ∀ (rest front : List UInt8), line = front ++ rest →
      HoldsLine (lineMemory line) front.length rest := by
    intro rest
    induction rest with
    | nil =>
        intro front hsplit
        rw [List.append_nil] at hsplit
        change lineMemory line front.length = 0
        rw [lineMemory, hsplit, if_neg (Nat.lt_irrefl _), if_pos rfl]
    | cons c rest ih =>
        intro front hsplit
        have hmore := ih (front ++ [c]) (by simpa using hsplit)
        rw [List.length_append, List.length_singleton] at hmore
        refine ⟨?_, ?_, hmore⟩
        · have hlt : front.length < line.length := by
            rw [hsplit, List.length_append, List.length_cons]
            omega
          rw [lineMemory, if_pos hlt, hsplit]
          simp
        · rintro rfl
          exact h (by simp [hsplit])
  exact hrest line [] rfl

theorem lineMemory_ne {p : Nat} (hp : line.length + 1 ≤ p) : lineMemory line p ≠ 0 := by
  rw [lineMemory, if_neg (by omega), if_neg (by omega)]
  decide

theorem readsString_of_sameReading
    (h : ∀ body, line = quote :: body → SameReading least body) : ReadsString least line where
  accepts mem input out fuel hline hplace hfuel body bytes rest hsplit hbody := by
    subst hsplit
    have hdecode := hbody.decode rest
    rw [← decode_iff.2 (h _ rfl)] at hdecode
    have hends := parseString_ends hline hplace hfuel
    unfold Ends at hends
    rw [hdecode] at hends
    obtain ⟨pos, hpos, hret⟩ := hends
    simp only [List.length_append, List.length_cons] at hpos
    have heq : pos = input + body.length + 2 := by omega
    rw [hret, heq]
  rejects mem input out fuel hline hplace hfuel hnot := by
    by_cases hquote : ∃ body, line = quote :: body
    · obtain ⟨body, rfl⟩ := hquote
      have hends := parseString_ends hline hplace hfuel
      unfold Ends at hends
      rw [decode_iff.2 (h body rfl)] at hends
      cases hdecode : decodeWith (readSix least) body with
      | none =>
          rw [hdecode] at hends
          exact hends
      | some p =>
          obtain ⟨body', rfl, hbody⟩ := exists_stringBody hdecode
          exact absurd ⟨body', p.1, p.2, rfl, hbody⟩ hnot
    · have hfirst : mem input ≠ quote := by
        cases line with
        | nil =>
            rw [show mem input = 0 from hline]
            decide
        | cons c body =>
            rw [hline.1]
            rintro rfl
            exact hquote ⟨body, rfl⟩
      exact ⟨mem, .start, if_pos hfirst⟩
  unread mem input out hout s hs p hp := by
    have hbehind := reaches_behind hs (show out < input + 1 by omega)
    exact hbehind.2 p hp

/-- A line that the source reads as the grammar does is read alike, byte for byte. -/
theorem decode_eq_of_readsString (hline : 0 ∉ quote :: body)
    (h : ReadsString least (quote :: body)) :
    decodeWith readAll body = decodeWith (readSix least) body := by
  have hmem := holdsLine_lineMemory hline
  have hplace : (quote :: body).length + 1 ≤ 0 ∨
      0 + (quote :: body).length < (quote :: body).length + 1 := by omega
  have hends : Ends ⟨lineMemory (quote :: body), 0 + 1, (quote :: body).length + 1⟩ body
      (parseString ((quote :: body).length + 1) (lineMemory (quote :: body)) 0
        ((quote :: body).length + 1)) := parseString_ends hmem hplace (Nat.lt_succ_self _)
  unfold Ends at hends
  cases hsix : decodeWith (readSix least) body with
  | none =>
      have hnot : ¬ ∃ body' bytes rest, quote :: body = quote :: (body' ++ quote :: rest) ∧
          StringBody least body' bytes := by
        rintro ⟨body', bytes, rest, hsplit, hbody⟩
        cases hsplit
        rw [hbody.decode rest] at hsix
        cases hsix
      obtain ⟨mem', e, hret⟩ := h.rejects _ _ _ _ hmem hplace (Nat.lt_succ_self _) hnot
      cases hall : decodeWith readAll body with
      | none => rfl
      | some q =>
          rw [hall, hret] at hends
          obtain ⟨pos, _, hok⟩ := hends
          cases hok
  | some p =>
      obtain ⟨body', hsplit, hbody⟩ := exists_stringBody hsix
      have hret := h.accepts _ _ _ _ hmem hplace (Nat.lt_succ_self _) body' p.1 p.2
        (congrArg (List.cons quote) hsplit) hbody
      cases hall : decodeWith readAll body with
      | none =>
          rw [hall, hret] at hends
          obtain ⟨mem', e, herror⟩ := hends
          cases herror
      | some q =>
          rw [hall, hret] at hends
          obtain ⟨pos, _, hok⟩ := hends
          have hbytes := splice_nul_inj (fun p hp => lineMemory_ne hp)
            (congrArg Prod.fst (Option.some.inj hok))
          obtain ⟨ps, hp⟩ := decodeWith_rest hsix
          obtain ⟨qs, hq⟩ := decodeWith_rest hall
          rw [hp] at hq
          have hrest : p.2 = q.2 := (Prod.mk.inj (Option.some.inj hq)).2
          rw [Prod.ext hbytes hrest]

/-- The source reads a line as the grammar does if and only if the condition holds. -/
theorem readsString_iff (least : Nat) (line : List UInt8) (hline : 0 ∉ line) :
    ReadsString least line ↔ ∀ body, line = quote :: body → SameReading least body := by
  constructor
  · intro h body hbody
    subst hbody
    exact decode_iff.1 (decode_eq_of_readsString hline h)
  · exact readsString_of_sameReading

/-- An escape with four digits. -/
theorem readsString_iff_four_digits :
    ReadsString 0 [34, 92, 85, 43, 48, 48, 65, 53, 34] ↔
      ∀ body, [34, 92, 85, 43, 48, 48, 65, 53, 34] = quote :: body → SameReading 0 body :=
  readsString_iff 0 _ (by decide)

/-- An escape with seven digits: the grammar has the letter A and a 1, the source stores the two
bytes of another character. -/
theorem not_readsString_seven_digits :
    StringBody 1 [92, 117, 43, 48, 48, 48, 48, 52, 49, 49] [65, 49] ∧
      (parseString 13 (lineMemory [34, 92, 117, 43, 48, 48, 48, 48, 52, 49, 49, 34]) 0 13).map
        (fun r => r.1.slice 13 3) = some [0xD0, 0x91, 0] ∧
      ∀ least ≤ 1, ¬ ReadsString least [34, 92, 117, 43, 48, 48, 48, 48, 52, 49, 49, 34] := by
  have hbody : ∀ least ≤ 1,
      StringBody least [92, 117, 43, 48, 48, 48, 48, 52, 49, 49] [65, 49] := by
    intro least hleast
    have hplain : StringBody least [49] [49] :=
      StringBody.plain (by decide) (by decide) StringBody.nil
    have hdigits : least ≤ [48, 48, 48, 48, 52, 49].length := Nat.le_trans hleast (by decide)
    have hhex : ∀ d ∈ [48, 48, 48, 48, 52, (49 : UInt8)], IsHex d := by simp [isHex_iff]
    have hescape : StringBody least (backslash :: 117 :: plus :: ([48, 48, 48, 48, 52, 49] ++ [49]))
        (utf8 (hexValue [48, 48, 48, 48, 52, 49]) ++ [49]) :=
      hplain.unicode (by decide) hhex hdigits (by decide) (by decide) (by decide)
    exact hescape
  have hret : (parseString 13 (lineMemory [34, 92, 117, 43, 48, 48, 48, 48, 52, 49, 49, 34]) 0
      13).map (fun r => r.1.slice 13 3) = some [0xD0, 0x91, 0] := by decide +kernel
  refine ⟨hbody 1 (Nat.le_refl 1), hret, ?_⟩
  intro least hleast h
  have hline : 0 ∉ [34, 92, 117, 43, 48, 48, 48, 48, 52, 49, 49, (34 : UInt8)] := by decide
  have haccepts := h.accepts _ 0 13 13 (holdsLine_lineMemory hline) (Or.inr (by decide)) (by decide)
    _ _ [] rfl (hbody least hleast)
  rw [haccepts, Option.map_some, Option.some.injEq] at hret
  exact absurd hret (by decide +kernel)

end Decoded

end ImageTool.Gcfg
