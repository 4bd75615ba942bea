import Mathlib.Data.List.Basic

/-!
# Flat byte stores

The contents of a disk as a function from byte addresses to bytes, with the four
ways the source changes one: splice data in, clear a range, move a range and
read a range back.  The lemmas say how the operations compose; a block device
that acts on its contents only through them is then verified without looking
inside the functions again.
-/

namespace ImageTool.Lib

/-- Byte contents, addressed from 0. -/
abbrev Bytes := Nat → UInt8

namespace Bytes

/-- The `n` bytes from address `off` on. -/
def slice (f : Bytes) (off n : Nat) : List UInt8 :=
  (List.range n).map fun i => f (off + i)

/-- Overwrite the bytes from `off` on with `data`. -/
def splice (f : Bytes) (off : Nat) (data : List UInt8) : Bytes :=
  fun p => if off ≤ p ∧ p < off + data.length then data.getD (p - off) 0 else f p

/-- Clear `n` bytes from `off` on. -/
def clear (f : Bytes) (off n : Nat) : Bytes :=
  fun p => if off ≤ p ∧ p < off + n then 0 else f p

/-- Copy `n` bytes from `src` to `dst`; the ranges may overlap. -/
def move (f : Bytes) (dst src n : Nat) : Bytes :=
  fun p => if dst ≤ p ∧ p < dst + n then f (src + (p - dst)) else f p

@[simp] theorem length_slice (f : Bytes) (off n : Nat) :
    (slice f off n).length = n := by simp [slice]

@[simp] theorem slice_zero (f : Bytes) (off : Nat) : slice f off 0 = [] := rfl

theorem getElem_slice (f : Bytes) (off n i : Nat) (h : i < (slice f off n).length) :
    (slice f off n)[i] = f (off + i) := by simp [slice]

theorem getD_slice {f : Bytes} {off n i : Nat} (h : i < n) :
    (slice f off n).getD i 0 = f (off + i) := by
  simp [slice, List.getD_eq_getElem?_getD, h]

theorem slice_append (f : Bytes) (off m n : Nat) :
    slice f off m ++ slice f (off + m) n = slice f off (m + n) := by
  simp [slice, List.range_add, Nat.add_assoc]

theorem take_slice {f : Bytes} {off n k : Nat} (h : k ≤ n) :
    (slice f off n).take k = slice f off k := by
  rw [← Nat.add_sub_cancel' h, ← slice_append, List.take_left' (length_slice _ _ _)]

theorem drop_slice (f : Bytes) (off n k : Nat) :
    (slice f off n).drop k = slice f (off + k) (n - k) := by
  apply List.ext_getElem
  · simp
  · intro i _ _
    simp [getElem_slice, Nat.add_assoc]

theorem slice_congr {f g : Bytes} {off n : Nat}
    (h : ∀ p, off ≤ p → p < off + n → f p = g p) :
    slice f off n = slice g off n := by
  apply List.map_congr_left
  intro i hi
  have := List.mem_range.mp hi
  exact h (off + i) (by omega) (by omega)

theorem slice_eq_iff {f g : Bytes} {a b n : Nat} :
    slice f a n = slice g b n ↔ ∀ i < n, f (a + i) = g (b + i) := by
  simp [slice, List.map_inj_left]

/-! ## Splicing -/

@[simp] theorem splice_nil (f : Bytes) (off : Nat) : splice f off [] = f := by
  funext p; simp only [splice, List.length_nil, Nat.add_zero]
  rw [if_neg (by omega)]

theorem splice_apply_of_mem {f : Bytes} {off p : Nat} {data : List UInt8}
    (h : off ≤ p) (h' : p < off + data.length) :
    splice f off data p = data.getD (p - off) 0 := if_pos ⟨h, h'⟩

theorem splice_apply_of_lt {f : Bytes} {off p : Nat} {data : List UInt8}
    (h : p < off) : splice f off data p = f p := if_neg (by omega)

theorem splice_apply_of_ge {f : Bytes} {off p : Nat} {data : List UInt8}
    (h : off + data.length ≤ p) : splice f off data p = f p := if_neg (by omega)

/-- Splicing two adjacent pieces is splicing their concatenation. -/
theorem splice_splice_append (f : Bytes) (off : Nat) (xs ys : List UInt8) :
    splice (splice f off xs) (off + xs.length) ys = splice f off (xs ++ ys) := by
  funext p
  simp only [splice, List.length_append, List.getD_eq_getElem?_getD]
  by_cases h1 : off ≤ p ∧ p < off + xs.length
  · rw [if_neg (by omega), if_pos h1, if_pos (by omega),
      List.getElem?_append_left (by omega)]
  · by_cases h2 : off + xs.length ≤ p ∧ p < off + xs.length + ys.length
    · rw [if_pos h2, if_pos (by omega), List.getElem?_append_right (by omega)]
      congr 2
      omega
    · rw [if_neg h2, if_neg h1, if_neg (by omega)]

theorem slice_splice_self (f : Bytes) (off : Nat) (data : List UInt8) :
    slice (splice f off data) off data.length = data := by
  apply List.ext_getElem (by simp)
  intro i h1 h2
  rw [getElem_slice, splice_apply_of_mem (by omega) (by omega)]
  simp [List.getD_eq_getElem?_getD, h2]

theorem slice_splice_of_disjoint {f : Bytes} {off a n : Nat} {data : List UInt8}
    (h : a + n ≤ off ∨ off + data.length ≤ a) :
    slice (splice f off data) a n = slice f a n := by
  apply slice_congr
  intro p hp hp'
  rcases h with h | h
  · exact splice_apply_of_lt (by omega)
  · exact splice_apply_of_ge (by omega)

/-- A write inside a range. -/
theorem slice_splice_inside {f : Bytes} {off n : Nat} {data : List UInt8}
    (h : off + data.length ≤ n) : slice (splice f off data) 0 n =
      (slice f 0 n).take off ++ data ++ (slice f 0 n).drop (off + data.length) := by
  have hsplit : n = off + data.length + (n - (off + data.length)) := by omega
  rw [take_slice (by omega), drop_slice]
  conv_lhs => rw [hsplit]
  rw [← slice_append, ← slice_append, Nat.zero_add, Nat.zero_add, slice_splice_self,
    slice_splice_of_disjoint (by omega), slice_splice_of_disjoint (by omega)]

/-! ## Clearing -/

theorem clear_eq_splice (f : Bytes) (off n : Nat) :
    clear f off n = splice f off (List.replicate n 0) := by
  funext p
  simp only [clear, splice, List.length_replicate]
  split
  · rename_i h
    have hlt : p - off < n := by omega
    simp [List.getD_eq_getElem?_getD, hlt]
  · rfl

@[simp] theorem clear_zero (f : Bytes) (off : Nat) : clear f off 0 = f := by
  rw [clear_eq_splice]; simp

theorem clear_clear_append (f : Bytes) (off m n : Nat) :
    clear (clear f off m) (off + m) n = clear f off (m + n) := by
  have := splice_splice_append f off (List.replicate m 0) (List.replicate n 0)
  simpa [clear_eq_splice, List.replicate_append_replicate] using this

theorem clear_clear_self (f : Bytes) (off n : Nat) :
    clear (clear f off n) off n = clear f off n := by
  funext p
  simp only [clear]
  split
  · rfl
  · rfl

theorem clear_apply_of_lt {f : Bytes} {off n p : Nat} (h : p < off) :
    clear f off n p = f p := if_neg (by omega)

theorem clear_apply_of_ge {f : Bytes} {off n p : Nat} (h : off + n ≤ p) :
    clear f off n p = f p := if_neg (by omega)

/-! ## Moving -/

theorem move_apply_of_mem {f : Bytes} {dst src n p : Nat} (h : dst ≤ p)
    (h' : p < dst + n) : move f dst src n p = f (src + (p - dst)) := if_pos ⟨h, h'⟩

theorem move_apply_of_lt {f : Bytes} {dst src n p : Nat} (h : p < dst) :
    move f dst src n p = f p := if_neg (by omega)

theorem move_apply_of_ge {f : Bytes} {dst src n p : Nat} (h : dst + n ≤ p) :
    move f dst src n p = f p := if_neg (by omega)

@[simp] theorem move_zero (f : Bytes) (dst src : Nat) : move f dst src 0 = f := by
  funext p; exact if_neg (by omega)

@[simp] theorem move_self (f : Bytes) (a n : Nat) : move f a a n = f := by
  funext p
  simp only [move]
  split
  · congr 1; omega
  · rfl

theorem move_eq_splice (f : Bytes) (dst src n : Nat) :
    move f dst src n = splice f dst (slice f src n) := by
  funext p
  simp only [move, splice, length_slice]
  split
  · rw [getD_slice (by omega)]
  · rfl

/-- Moving a range front to back in two pieces, when no byte of the second piece
is overwritten by moving the first. -/
theorem move_move_forward {f : Bytes} {dst src m n : Nat}
    (h : dst ≤ src ∨ src + (m + n) ≤ dst) :
    move (move f dst src m) (dst + m) (src + m) n = move f dst src (m + n) := by
  funext p
  simp only [move]
  by_cases h2 : dst + m ≤ p ∧ p < dst + m + n
  · rw [if_pos h2, if_neg (by omega), if_pos (by omega)]
    congr 1; omega
  · rw [if_neg h2]
    by_cases h1 : dst ≤ p ∧ p < dst + m
    · rw [if_pos h1, if_pos (by omega)]
    · rw [if_neg h1, if_neg (by omega)]

/-- Moving a range back to front in two pieces. -/
theorem move_move_backward {f : Bytes} {dst src m n : Nat} (h : src ≤ dst) :
    move (move f (dst + m) (src + m) n) dst src m = move f dst src (m + n) := by
  funext p
  simp only [move]
  by_cases h1 : dst ≤ p ∧ p < dst + m
  · rw [if_pos h1, if_neg (by omega), if_pos (by omega)]
  · rw [if_neg h1]
    by_cases h2 : dst + m ≤ p ∧ p < dst + m + n
    · rw [if_pos h2, if_pos (by omega)]
      congr 1; omega
    · rw [if_neg h2, if_neg (by omega)]

/-- Moving `m` bytes up by `n` and clearing the gap. -/
theorem open_gap_apply {f : Bytes} {a n m p : Nat} :
    clear (move f (a + n) a m) a n p =
      if p < a then f p else if p < a + n then 0
      else if p < a + n + m then f (p - n) else f p := by
  simp only [clear, move]
  by_cases hfront : p < a
  · rw [if_pos hfront, if_neg (by omega), if_neg (by omega)]
  rw [if_neg hfront]
  by_cases hgap : p < a + n
  · rw [if_pos hgap, if_pos (by omega)]
  rw [if_neg hgap, if_neg (by omega)]
  by_cases hin : p < a + n + m
  · rw [if_pos hin, if_pos (by omega), show a + (p - (a + n)) = p - n by omega]
  · rw [if_neg hin, if_neg (by omega)]

/-- Moving `n` bytes from `a` behind `top` and closing the gap. -/
theorem move_behind_apply {f : Bytes} {a n top p : Nat} (ha : a + n ≤ top) (hp : p < top) :
    clear (move (move f top a n) a (a + n) (top - a)) top n p =
      if p < a then f p else if p + n < top then f (p + n) else f (a + (p + n - top)) := by
  rw [clear_apply_of_lt hp]
  split
  · rename_i hfront
    rw [move_apply_of_lt hfront, move_apply_of_lt hp]
  · rename_i hbehind
    rw [move_apply_of_mem (by omega) (by omega), show a + n + (p - a) = p + n by omega]
    split
    · rename_i hin
      exact move_apply_of_lt hin
    · rename_i hout
      exact move_apply_of_mem (by omega) (by omega)

/-- Moving what lies behind `a + n` down by `n` and clearing the end. -/
theorem close_gap_apply {f : Bytes} {a n top p : Nat} (h : a + n ≤ top) :
    clear (move f a (a + n) (top - (a + n))) (top - n) n p =
      if p < a then f p else if p + n < top then f (p + n) else if p < top then 0 else f p := by
  simp only [clear, move]
  by_cases hfront : p < a
  · rw [if_pos hfront, if_neg (by omega), if_neg (by omega)]
  rw [if_neg hfront]
  by_cases hin : p + n < top
  · rw [if_pos hin, if_neg (by omega), if_pos (by omega), show a + n + (p - a) = p + n by omega]
  rw [if_neg hin]
  by_cases hend : p < top
  · rw [if_pos hend, if_pos (by omega)]
  · rw [if_neg hend, if_neg (by omega), if_neg (by omega)]

/-! ## Windows -/

/-- The contents seen from address `o` on. -/
def window (f : Bytes) (o : Nat) : Bytes := fun p => f (o + p)

/-- Put changed window contents back. -/
def embed (f : Bytes) (o : Nat) (w : Bytes) : Bytes :=
  fun p => if p < o then f p else w (p - o)

@[simp] theorem embed_window (f : Bytes) (o : Nat) : embed f o (window f o) = f := by
  funext p
  simp only [embed, window]
  split
  · rfl
  · congr 1; omega

@[simp] theorem window_embed (f : Bytes) (o : Nat) (w : Bytes) :
    window (embed f o w) o = w := by
  funext p
  simp only [embed, window]
  rw [if_neg (by omega)]
  congr 1; omega

theorem slice_window (f : Bytes) (o a n : Nat) :
    slice (window f o) a n = slice f (o + a) n := by
  simp [slice, window, Nat.add_assoc]

theorem window_splice (f : Bytes) (o a : Nat) (data : List UInt8) :
    window (splice f (o + a) data) o = splice (window f o) a data := by
  funext p
  simp only [window, splice]
  by_cases h : a ≤ p ∧ p < a + data.length
  · rw [if_pos h, if_pos (by omega)]; congr 1; omega
  · rw [if_neg h, if_neg (by omega)]

theorem window_clear (f : Bytes) (o a n : Nat) :
    window (clear f (o + a) n) o = clear (window f o) a n := by
  rw [clear_eq_splice, clear_eq_splice, window_splice]

theorem window_move (f : Bytes) (o dst src n : Nat) :
    window (move f (o + dst) (o + src) n) o = move (window f o) dst src n := by
  rw [move_eq_splice, move_eq_splice, window_splice, slice_window]

theorem embed_splice (f : Bytes) (o a : Nat) (data : List UInt8) :
    embed f o (splice (window f o) a data) = splice f (o + a) data := by
  funext p
  rw [← window_splice]
  by_cases h : p < o
  · rw [splice_apply_of_lt (by omega)]
    exact if_pos h
  · simp only [embed, window, h, ↓reduceIte]
    congr 1; omega

theorem embed_clear (f : Bytes) (o a n : Nat) :
    embed f o (clear (window f o) a n) = clear f (o + a) n := by
  rw [clear_eq_splice, clear_eq_splice, embed_splice]

theorem embed_move (f : Bytes) (o dst src n : Nat) :
    embed f o (move (window f o) dst src n) = move f (o + dst) (o + src) n := by
  rw [move_eq_splice, move_eq_splice, embed_splice, slice_window]

/-! ## Agreeing contents -/

/-- The first `n` bytes are the same. -/
def AgreeBelow (n : Nat) (f g : Bytes) : Prop := ∀ p < n, f p = g p

namespace AgreeBelow

variable {n : Nat} {f g : Bytes}

theorem splice (h : AgreeBelow n f g) (off : Nat) (data : List UInt8) :
    AgreeBelow n (f.splice off data) (g.splice off data) := by
  intro p hp
  simp only [Bytes.splice, h p hp]

theorem clear (h : AgreeBelow n f g) (off m : Nat) :
    AgreeBelow n (f.clear off m) (g.clear off m) := by
  intro p hp
  simp only [Bytes.clear, h p hp]

theorem move (h : AgreeBelow n f g) {dst src m : Nat} (hsrc : src + m ≤ n) :
    AgreeBelow n (f.move dst src m) (g.move dst src m) := by
  intro p hp
  simp only [Bytes.move]
  by_cases hmem : dst ≤ p ∧ p < dst + m
  · rw [if_pos hmem, if_pos hmem, h _ (by omega)]
  · rw [if_neg hmem, if_neg hmem, h p hp]

theorem slice (h : AgreeBelow n f g) {off m : Nat} (hend : off + m ≤ n) :
    f.slice off m = g.slice off m :=
  slice_congr fun p _ hp => h p (by omega)

/-- A splice outside a window. -/
theorem window_splice {o : Nat} (h : AgreeBelow n (f.window o) g) {a : Nat}
    {data : List UInt8} (hout : a + data.length ≤ o ∨ o + n ≤ a) :
    AgreeBelow n ((f.splice a data).window o) g := by
  intro p hp
  rw [← h p hp]
  exact if_neg (by omega)

end AgreeBelow

/-- The first `n` bytes, and zeros behind. -/
def cut (n : Nat) (f : Bytes) : Bytes := fun p => if p < n then f p else 0

theorem cut_apply_of_lt {n p : Nat} (f : Bytes) (h : p < n) : f.cut n p = f p := if_pos h

theorem cut_apply_of_ge {n p : Nat} (f : Bytes) (h : n ≤ p) : f.cut n p = 0 :=
  if_neg (by omega)

theorem cut_eq_self {n : Nat} {f : Bytes} (h : ∀ p, n ≤ p → f p = 0) : f.cut n = f := by
  funext p
  by_cases hp : p < n
  · rw [cut_apply_of_lt f hp]
  · rw [cut_apply_of_ge f (by omega), h p (by omega)]

/-- Zeros behind the cut may as well be kept. -/
theorem cut_eq_cut {m n : Nat} {f : Bytes} (hmn : m ≤ n)
    (h : ∀ p, m ≤ p → p < n → f p = 0) : f.cut m = f.cut n := by
  funext p
  by_cases hm : p < m
  · rw [cut_apply_of_lt f hm, cut_apply_of_lt f (by omega)]
  · by_cases hn : p < n
    · rw [cut_apply_of_ge f (by omega), cut_apply_of_lt f hn, h p (by omega) hn]
    · rw [cut_apply_of_ge f (by omega), cut_apply_of_ge f (by omega)]

/-- Splicing the next bytes in moves the cut. -/
theorem cut_splice_slice (f : Bytes) (m n : Nat) :
    (f.cut m).splice m (f.slice m n) = f.cut (m + n) := by
  funext p
  by_cases hm : p < m
  · rw [splice_apply_of_lt hm, cut_apply_of_lt f hm, cut_apply_of_lt f (by omega)]
  · by_cases hn : p < m + n
    · rw [splice_apply_of_mem (by omega) (by simpa using hn), getD_slice (by omega),
        cut_apply_of_lt f hn]
      congr 1
      omega
    · rw [splice_apply_of_ge (by simp; omega), cut_apply_of_ge f (by omega),
        cut_apply_of_ge f (by omega)]

theorem slice_cut {m n off : Nat} (f : Bytes) (h : off + n ≤ m) :
    (f.cut m).slice off n = f.slice off n :=
  slice_congr fun _ _ hp => cut_apply_of_lt f (by omega)

/-- Zeros read as zeros. -/
theorem slice_eq_zeros {f : Bytes} {off n : Nat} (h : ∀ p, off ≤ p → p < off + n → f p = 0) :
    f.slice off n = List.replicate n 0 := by
  apply List.ext_getElem
  · simp
  · intro i hi _
    rw [getElem_slice, List.getElem_replicate]
    exact h _ (by omega) (by simp at hi; omega)

/-- Zeros that are cleared stay as they are. -/
theorem clear_eq_self {f : Bytes} {off n : Nat} (h : ∀ p, off ≤ p → p < off + n → f p = 0) :
    f.clear off n = f := by
  funext p
  simp only [clear]
  split
  · rename_i hmem
    exact (h p hmem.1 hmem.2).symm
  · rfl

/-- Zeros that are moved clear their destination. -/
theorem move_eq_clear {f : Bytes} {dst src n : Nat}
    (h : ∀ p, src ≤ p → p < src + n → f p = 0) : f.move dst src n = f.clear dst n := by
  funext p
  simp only [move, clear]
  split
  · rename_i hmem
    exact h _ (by omega) (by omega)
  · rfl

end Bytes

/-! ## Buffers -/

/-- A buffer argument: `none` is `NULL`, which the block devices of the source
read as that many zero bytes. -/
abbrev Buffer := Option (List UInt8)

namespace Buffer

/-- The `size` bytes a call takes from its buffer. -/
def bytes (data : Buffer) (size : Nat) : List UInt8 :=
  match data with
  | none => List.replicate size 0
  | some l => l.take size

/-- The buffer holds at least `size` bytes. -/
def Holds (data : Buffer) (size : Nat) : Prop :=
  ∀ l, data = some l → size ≤ l.length

/-- `data + n`, with `NULL` staying `NULL`. -/
def advance (data : Buffer) (n : Nat) : Buffer := data.map (List.drop n)

@[simp] theorem bytes_zero (data : Buffer) : data.bytes 0 = [] := by
  cases data <;> rfl

theorem length_bytes {data : Buffer} {size : Nat} (h : data.Holds size) :
    (data.bytes size).length = size := by
  cases data with
  | none => simp [bytes]
  | some l => simp [bytes, h l rfl]

@[simp] theorem holds_none (size : Nat) : Holds none size := by
  intro l hl; cases hl

@[simp] theorem holds_some (l : List UInt8) (size : Nat) :
    Holds (some l) size ↔ size ≤ l.length := by
  constructor
  · intro h; exact h l rfl
  · intro h l' hl'; cases hl'; exact h

theorem Holds.advance {data : Buffer} {m n : Nat} (h : data.Holds (m + n)) :
    (data.advance m).Holds n := by
  cases data with
  | none => exact holds_none n
  | some l =>
      have := (holds_some l (m + n)).1 h
      simp only [Buffer.advance, Option.map_some, holds_some, List.length_drop]
      omega

theorem Holds.mono {data : Buffer} {m n : Nat} (h : data.Holds n) (hmn : m ≤ n) :
    data.Holds m := fun l hl => Nat.le_trans hmn (h l hl)

/-- Taking a buffer in two pieces. -/
theorem bytes_append_advance (data : Buffer) (m n : Nat) :
    data.bytes m ++ (data.advance m).bytes n = data.bytes (m + n) := by
  cases data with
  | none => simp [bytes, advance, List.replicate_append_replicate]
  | some l => simp [bytes, advance, List.take_add]

end Buffer

end ImageTool.Lib
