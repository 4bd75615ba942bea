import Mathlib.Data.List.TakeWhile

/-!
# Reading from a buffer

A reader goes through a buffer by an offset and fails where it would read past the end.
`Reads` says what bytes a reader expects and what it makes of them, wherever they stand.
-/

namespace ImageTool.Lib

/-- A reader of a buffer: from an offset to a value and the offset behind it. -/
def Reader (α : Type) := List UInt8 → Nat → Option (α × Nat)

namespace Reader

variable {α β : Type}

instance : Monad Reader where
  pure a := fun _ offset => some (a, offset)
  bind r f := fun buffer offset =>
    match r buffer offset with
    | some (a, offset) => f a buffer offset
    | none => none

/-- The byte at the offset. -/
def byte : Reader UInt8 := fun buffer offset =>
  match buffer[offset]? with
  | some b => some (b, offset + 1)
  | none => none

/-- The string of at most `n` bytes at the offset, which ends before a zero byte. -/
def string (n : Nat) : Reader (List UInt8) := fun buffer offset =>
  let s := ((buffer.drop offset).take n).takeWhile (· != 0)
  if s.length < n ∧ buffer.length ≤ offset + s.length then none else some (s, offset + n)

/-- Go on by `n` bytes. -/
def skip (n : Nat) : Reader Unit := fun _ offset => some ((), offset + n)

/-- Wherever the bytes stand in a buffer, the reader makes `a` of them. -/
def Reads (r : Reader α) (bytes : List UInt8) (a : α) : Prop :=
  ∀ buffer offset rest, buffer.drop offset = bytes ++ rest →
    r buffer offset = some (a, offset + bytes.length)

theorem Reads.pure (a : α) : Reads (Pure.pure a) [] a := fun _ _ _ _ => rfl

theorem Reads.bind {r : Reader α} {f : α → Reader β} {bytes bytes' : List UInt8} {a : α} {b : β}
    (h : Reads r bytes a) (hf : Reads (f a) bytes' b) : Reads (r >>= f) (bytes ++ bytes') b := by
  intro buffer offset rest hat
  have hfirst := h buffer offset (bytes' ++ rest) (by rw [hat, List.append_assoc])
  have hnext : buffer.drop (offset + bytes.length) = bytes' ++ rest := by
    rw [← List.drop_drop, hat, List.append_assoc, List.drop_left]
  have hsecond := hf buffer (offset + bytes.length) rest hnext
  change (match r buffer offset with
    | some (a, offset) => f a buffer offset
    | none => none) = _
  rw [hfirst, List.length_append, ← Nat.add_assoc]
  exact hsecond

theorem reads_byte (b : UInt8) : Reads byte [b] b := by
  intro buffer offset rest hat
  have hget : buffer[offset]? = some b := by
    have hhead := congrArg List.head? hat
    rwa [List.head?_drop] at hhead
  unfold byte
  rw [hget]
  rfl

theorem Reads.byte_bind {f : UInt8 → Reader β} {bytes : List UInt8} {b : UInt8} {a : β}
    (h : Reads (f b) bytes a) : Reads (byte >>= f) (b :: bytes) a := (reads_byte b).bind h

theorem Reads.bind_pure {r : Reader α} {bytes : List UInt8} {a : α} (f : α → β)
    (h : Reads r bytes a) : Reads (r >>= fun a => Pure.pure (f a)) bytes (f a) := by
  have hread : Reads (r >>= fun a => Pure.pure (f a)) (bytes ++ []) (f a) :=
    h.bind (Reads.pure (f a))
  rwa [List.append_nil] at hread

theorem Reads.pure_of_eq {a b : α} (h : a = b) : Reads (Pure.pure a) [] b := h ▸ .pure a

theorem reads_string {s : List UInt8} (h : 0 ∉ s) : Reads (string s.length) s s := by
  intro buffer offset rest hat
  have hall : s.takeWhile (· != 0) = s := by
    apply List.takeWhile_eq_self_iff.2
    intro b hb
    exact bne_iff_ne.2 fun hzero => h (hzero ▸ hb)
  unfold string
  rw [hat, List.take_left]
  dsimp only
  rw [hall, if_neg fun hshort => Nat.lt_irrefl _ hshort.1]

theorem reads_skip (bytes : List UInt8) : Reads (skip bytes.length) bytes () :=
  fun _ _ _ _ => rfl

end Reader

end ImageTool.Lib
