import ImageTool.Tar.PaxHeader

/-!
# PAX headers that come from anywhere

No access of the loop over the records leaves the buffer and the NUL behind it, whatever bytes
there are, and each round takes off at least one of them.
-/

namespace ImageTool.Tar

open ImageTool.Lib ImageTool.Fstream

variable {n line len ptr key value : Nat} {r : PaxReader}

/-! ## Accesses -/

theorem store_of_lt {i : Nat} {c : UInt8} (h : i < r.buffer.length) :
    store i c r = .ok () { r with buffer := r.buffer.set i c } := by
  unfold store
  rw [Call.bind_apply, Call.get_apply, Outcome.bind_ok, if_pos h]
  rfl

/-- The number `strtol` has read ends within the string. -/
theorem strtol_used_le (text : List UInt8) : (strtol text).2 ≤ text.length := by
  unfold strtol
  dsimp only
  split
  · exact Nat.zero_le _
  · have hblanks := (List.takeWhile_prefix (l := text) isSpace).length_le
    generalize (text.takeWhile isSpace).length = b at *
    have hsign : (List.filter (fun c => decide (c = 0x2B ∨ c = 0x2D))
        ((text.drop b).take 1)).length ≤ (text.drop b).length :=
      Nat.le_trans (List.length_filter_le _ _) (List.length_take_le' _ _)
    generalize List.filter (fun c => decide (c = 0x2B ∨ c = 0x2D)) ((text.drop b).take 1) =
      sign at *
    have hdigits := (List.takeWhile_prefix (l := (text.drop b).drop sign.length)
      (isDigitOf 10)).length_le
    rw [List.length_drop] at hsign
    rw [List.length_drop, List.length_drop] at hdigits
    omega

theorem strtol_le (text : List UInt8) : (strtol text).1 ≤ 2 ^ 63 - 1 := by
  unfold strtol clampLong
  dsimp only
  split
  · decide
  · exact Int.max_le.2 ⟨by decide, Int.min_le_right ..⟩

/-! ## One record -/

/-- A record of length `len`, cut off with a NUL. -/
structure CutOff (n line len : Nat) (r : PaxReader) : Prop where
  terminated : Terminated n r.buffer
  pos : 0 < len
  within : line + len ≤ n
  fits : len < 2 ^ 64
  cut : r.buffer[line + len - 1]? = some 0

theorem recordLength_ends (h : Terminated n r.buffer) (hline : line < n) :
    Call.Ends (recordLength line r) (fun found r' => CutOff n line found.1 r' ∧ line ≤ found.2)
      fun _ => True := by
  obtain ⟨text, htext, hlength⟩ := exists_cstrAt h.last (Nat.le_of_lt hline)
  have hused := strtol_used_le text
  have hlong := strtol_le text
  have hbuffer := h.length
  have hat : line + (strtol text).2 < r.buffer.length := by omega
  unfold recordLength
  rw [Call.bind_apply, Call.get_apply, Outcome.bind_ok, htext, Call.within_some, Call.bind_apply,
    Call.pure_apply, Outcome.bind_ok, List.getElem?_eq_getElem hat, Call.within_some,
    Call.bind_apply, Call.pure_apply, Outcome.bind_ok]
  by_cases hmalformed : (strtol text).2 = 0 ∨ isSpace r.buffer[line + (strtol text).2] = false ∨
      (strtol text).1 ≤ 0
  · rw [if_pos hmalformed]
    trivial
  · rw [if_neg hmalformed]
    by_cases hover : (strtol text).1 > ((r.buffer.length - 1 - line : Nat) : Int)
    · rw [if_pos hover]
      trivial
    · rw [if_neg hover, Call.bind_apply, store_of_lt (by omega), Outcome.bind_ok]
      refine ⟨⟨h.set _, ?_, ?_, ?_, ?_⟩, Nat.le_add_right ..⟩
      · omega
      · omega
      · omega
      · rw [List.getElem?_set_self (by omega)]

theorem le_skipSpaces (buffer : List UInt8) (ptr : Nat) : ptr ≤ skipSpaces buffer ptr :=
  Nat.le_add_right ..

/-- The key and the value lie in front of the NUL the record is cut off with. -/
theorem recordKey_ends (h : CutOff n line len r) (hptr : line ≤ ptr) :
    Call.Ends (recordKey line len ptr r)
      (fun found r' => CutOff n line len r' ∧ found.1 < line + len ∧ line < found.2 ∧
        found.2 < line + len) fun _ => True := by
  have hskip := le_skipSpaces r.buffer ptr
  unfold recordKey
  rw [Call.bind_apply, Call.get_apply, Outcome.bind_ok]
  generalize skipSpaces r.buffer ptr = key at *
  by_cases hmalformed : key ≥ r.buffer.length - 1 ∨ key - line ≥ len
  · rw [if_pos hmalformed]
    trivial
  · have hkey : key ≤ line + len - 1 := by omega
    obtain ⟨j, c, hfind, hc, -, hle, hge⟩ :=
      exists_findAt (p := endsKey) h.cut (by decide) hkey
    rw [if_neg hmalformed, hfind, Call.within_some, Call.bind_apply, Call.pure_apply,
      Outcome.bind_ok]
    by_cases hequals : j = key ∨ r.buffer[j]? ≠ some 0x3D
    · rw [if_pos hequals]
      trivial
    · have hbefore : j ≠ line + len - 1 := by
        intro hj
        rw [hj, h.cut] at hequals
        exact hequals (.inr (by decide))
      have hpos := h.pos
      have hwithin := h.within
      have hlength := h.terminated.length
      rw [if_neg hequals, Call.bind_apply, store_of_lt (by omega), Outcome.bind_ok]
      refine ⟨⟨h.terminated.set j, hpos, hwithin, h.fits, ?_⟩, ?_, ?_, ?_⟩
      · rw [List.getElem?_set_ne hbefore, h.cut]
      · omega
      · omega
      · omega

theorem recordValue_ends (h : CutOff n line len r) (hkey : key < line + len)
    (hvalue : line < value) (hend : value < line + len) :
    Call.Ends (recordValue line len key value r) (fun _ r' => CutOff n line len r')
      fun _ => True := by
  obtain ⟨name, hname, -⟩ := exists_cstrAt h.cut (i := key) (by omega)
  obtain ⟨text, htext, -⟩ := exists_cstrAt h.cut (i := value) (by omega)
  have hwithin := h.within
  have hlength := h.terminated.length
  have hbytes : bytesAt r.buffer value (sub64 len (value - line + 1)) =
      some ((r.buffer.drop value).take (sub64 len (value - line + 1))) := by
    rw [sub64_of_le (by omega) h.fits]
    exact if_pos (by omega)
  unfold recordValue
  rw [Call.bind_apply, Call.get_apply, Outcome.bind_ok, hname, Call.within_some, Call.bind_apply,
    Call.pure_apply, Outcome.bind_ok, htext, Call.within_some, Call.bind_apply, Call.pure_apply,
    Outcome.bind_ok, hbytes, Call.within_some, Call.bind_apply, Call.pure_apply, Outcome.bind_ok]
  cases handleRecord r.state name text
      ((r.buffer.drop value).take (sub64 len (value - line + 1))) with
  | none => trivial
  | some state => exact ⟨h.terminated, h.pos, h.within, h.fits, h.cut⟩

theorem readRecord_ends (h : Terminated n r.buffer) (hline : line < n) :
    Call.Ends (readRecord line r)
      (fun len r' => Terminated n r'.buffer ∧ 0 < len ∧ line + len ≤ n) fun _ => True := by
  unfold readRecord
  rw [Call.bind_apply]
  refine (recordLength_ends h hline).bind ?_ fun _ _ => trivial
  intro record r₁ ⟨hcut, hptr⟩
  rw [Call.bind_apply]
  refine (recordKey_ends hcut hptr).bind ?_ fun _ _ => trivial
  intro entry r₂ ⟨hcut, hkey, hvalue, hend⟩
  rw [Call.bind_apply]
  refine (recordValue_ends hcut hkey hvalue hend).bind ?_ fun _ _ => trivial
  intro _ r₃ hcut
  exact ⟨hcut.terminated, hcut.pos, hcut.within⟩

/-! ## The loop -/

/-- The loop returns, and the buffer has kept its length and its NUL. -/
theorem paxLoop_ends {fuel : Nat} (h : Terminated n r.buffer) (hfuel : n - line < fuel) :
    Call.Ends (paxLoop fuel line r) (fun _ r' => Terminated n r'.buffer) fun _ => True := by
  induction fuel generalizing line r with
  | zero => omega
  | succ fuel ih =>
      have hlength := h.length
      rw [paxLoop, Call.bind_apply, Call.get_apply, Outcome.bind_ok]
      by_cases hline : line < r.buffer.length - 1
      · rw [if_pos hline, Call.bind_apply]
        refine (readRecord_ends h (by omega)).bind ?_ fun _ _ => trivial
        intro len r₁ ⟨hnext, hpos, hle⟩
        exact ih hnext (by omega)
      · rw [if_neg hline]
        exact h

/-- Bytes with a NUL behind them. -/
theorem terminated_append (bytes : List UInt8) : Terminated bytes.length (bytes ++ [0]) :=
  ⟨List.length_append, getElem?_middle rfl⟩

end ImageTool.Tar
