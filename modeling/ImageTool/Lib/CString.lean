import ImageTool.Lib.Call

/-!
# Buffers with C strings

Reading a C string takes the bytes up to the first NUL.  Where a buffer has none from a position
on, the reader leaves the buffer: the string there is `none`, and `within` makes such an access a
stuck call.
-/

namespace ImageTool.Lib

/-- The C string at a position of a buffer. -/
def cstrAt (buffer : List UInt8) (i : Nat) : Option (List UInt8) :=
  if 0 ∈ buffer.drop i then some ((buffer.drop i).takeWhile (· != 0)) else none

/-- `n` bytes at a position of a buffer. -/
def bytesAt (buffer : List UInt8) (i n : Nat) : Option (List UInt8) :=
  if i + n ≤ buffer.length then some ((buffer.drop i).take n) else none

/-- The position of the first byte with a property, from a position on. -/
def findAt (p : UInt8 → Bool) (buffer : List UInt8) (i : Nat) : Option Nat :=
  ((buffer.drop i).findIdx? p).map (i + ·)

/-- An access to a buffer, which has to be within it. -/
def Call.within {σ α : Type} (access : Option α) : Call σ α :=
  match access with
  | some a => pure a
  | none => Call.stuck

@[simp] theorem Call.within_some {σ α : Type} (a : α) :
    (Call.within (some a) : Call σ α) = pure a := rfl

/-- A buffer of `n` bytes and a NUL behind them. -/
structure Terminated (n : Nat) (buffer : List UInt8) : Prop where
  length : buffer.length = n + 1
  last : buffer[n]? = some 0

variable {buffer text front back : List UInt8} {c d : UInt8} {i n : Nat}

/-! ## Parts of a buffer -/

theorem getElem?_middle (h : front.length = i) : (front ++ c :: back)[i]? = some c := by
  rw [List.getElem?_append_right (Nat.le_of_eq h), h, Nat.sub_self]
  rfl

theorem set_middle (h : front.length = i) :
    (front ++ c :: back).set i d = front ++ d :: back := by
  rw [List.set_append_right _ _ (Nat.le_of_eq h), h, Nat.sub_self]
  rfl

theorem takeWhile_ne_zero (h : 0 ∉ text) (back : List UInt8) :
    (text ++ back).takeWhile (· != 0) = text ++ back.takeWhile (· != 0) := by
  apply List.takeWhile_append_of_pos
  intro c hc
  rw [bne_iff_ne]
  rintro rfl
  exact h hc

/-- A string ends at the first NUL, of its own or behind it. -/
theorem takeWhile_nul (text back : List UInt8) :
    (text ++ 0 :: back).takeWhile (· != 0) = text.takeWhile (· != 0) := by
  induction text with
  | nil => rfl
  | cons c text ih => rw [List.cons_append, List.takeWhile_cons, List.takeWhile_cons, ih]

/-- Text in front of bytes with a NUL somewhere. -/
theorem cstrAt_append (h : front.length = i) (htext : 0 ∉ text) (hback : 0 ∈ back) :
    cstrAt (front ++ (text ++ back)) i = some (text ++ back.takeWhile (· != 0)) := by
  unfold cstrAt
  rw [List.drop_left' h, if_pos (List.mem_append_right _ hback), takeWhile_ne_zero htext]

theorem cstrAt_middle (h : front.length = i) (text back : List UInt8) :
    cstrAt (front ++ (text ++ 0 :: back)) i = some (text.takeWhile (· != 0)) := by
  unfold cstrAt
  rw [List.drop_left' h, if_pos (List.mem_append_right _ List.mem_cons_self), takeWhile_nul]

theorem bytesAt_middle (h : front.length = i) (htext : text.length = n) (back : List UInt8) :
    bytesAt (front ++ (text ++ back)) i n = some text := by
  unfold bytesAt
  rw [List.drop_left' h, List.take_left' htext, if_pos]
  rw [List.length_append, List.length_append]
  omega

theorem findAt_middle {p : UInt8 → Bool} (h : front.length = i) (htext : ∀ c ∈ text, p c = false)
    (hc : p c = true) (back : List UInt8) :
    findAt p (front ++ (text ++ c :: back)) i = some (i + text.length) := by
  have hfind : (text ++ c :: back).findIdx? p = some text.length := by
    rw [List.findIdx?_append, List.findIdx?_eq_none_iff.2 htext, List.findIdx?_cons, hc]
    simp
  unfold findAt
  rw [List.drop_left' h, hfind]
  rfl

/-! ## A buffer with a NUL at its end -/

theorem length_takeWhile_le_of_getElem? {p : UInt8 → Bool} {cs : List UInt8} {k : Nat}
    (h : cs[k]? = some c) (hc : p c = false) : (cs.takeWhile p).length ≤ k := by
  induction cs generalizing k with
  | nil => exact Nat.zero_le _
  | cons x cs ih =>
      rw [List.takeWhile_cons]
      split
      · rename_i hx
        cases k with
        | zero =>
            cases h
            rw [hc] at hx
            cases hx
        | succ k =>
            rw [List.length_cons]
            exact Nat.succ_le_succ (ih h)
      · exact Nat.zero_le _

/-- A string ends at the first NUL behind its position. -/
theorem exists_cstrAt {m : Nat} (hm : buffer[m]? = some 0) (hi : i ≤ m) :
    ∃ text, cstrAt buffer i = some text ∧ i + text.length ≤ m := by
  have hat : (buffer.drop i)[m - i]? = some 0 := by
    rw [List.getElem?_drop, Nat.add_sub_cancel' hi, hm]
  have hlength := length_takeWhile_le_of_getElem? (p := (· != 0)) hat (by decide)
  exact ⟨_, if_pos (List.mem_of_getElem? hat), by omega⟩

/-- A byte with the property is found no later than one that is known. -/
theorem exists_findAt {p : UInt8 → Bool} {m : Nat} (hm : buffer[m]? = some c) (hc : p c = true)
    (hi : i ≤ m) : ∃ j b, findAt p buffer i = some j ∧ buffer[j]? = some b ∧ p b = true ∧
      i ≤ j ∧ j ≤ m := by
  have hat : (buffer.drop i)[m - i]? = some c := by
    rw [List.getElem?_drop, Nat.add_sub_cancel' hi, hm]
  have hsome : ((buffer.drop i).findIdx? p).isSome = true := by
    rw [List.findIdx?_isSome, List.any_eq_true]
    exact ⟨c, List.mem_of_getElem? hat, hc⟩
  obtain ⟨j, hj⟩ := Option.isSome_iff_exists.1 hsome
  obtain ⟨hlt, hp, hbefore⟩ := List.findIdx?_eq_some_iff_getElem.1 hj
  refine ⟨i + j, (buffer.drop i)[j], ?_, ?_, hp, Nat.le_add_right .., ?_⟩
  · rw [findAt, hj]
    rfl
  · rw [← List.getElem?_drop, List.getElem?_eq_getElem hlt]
  · rcases Nat.lt_or_ge (m - i) j with hless | hge
    · obtain ⟨hlt', heq⟩ := List.getElem?_eq_some_iff.1 hat
      have hnot := hbefore (m - i) hless
      rw [heq, hc] at hnot
      exact absurd rfl hnot
    · omega

theorem Terminated.set (h : Terminated n buffer) (i : Nat) : Terminated n (buffer.set i 0) := by
  have hlength := h.length
  refine ⟨by rw [List.length_set, hlength], ?_⟩
  rw [List.getElem?_set]
  split
  · rw [if_pos (by omega)]
  · exact h.last

end ImageTool.Lib
