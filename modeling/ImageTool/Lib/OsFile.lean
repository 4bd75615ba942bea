import ImageTool.Lib.Bytes

/-!
# Files of the operating system

A regular file as its size and its bytes, with the calls a program makes on an
open descriptor.  Bytes behind the end are kept at 0, so that extending a file
shows zeros without touching its contents.
-/

namespace ImageTool.Lib

/-- A file; what lies behind its end reads as zero once the file grows. -/
structure OsFile where
  size : Nat
  data : Bytes
  zero_behind : ∀ p, size ≤ p → data p = 0

namespace OsFile

/-- The empty file. -/
def empty : OsFile := ⟨0, fun _ => 0, fun _ _ => rfl⟩

/-- `pread`: the bytes of the range that the file has. -/
def pread (f : OsFile) (off n : Nat) : List UInt8 :=
  f.data.slice off (min n (f.size - off))

/-- `pwrite`: all bytes are written; writing none leaves the size alone. -/
def pwrite (f : OsFile) (off : Nat) (data : List UInt8) : OsFile where
  size := if data = [] then f.size else max f.size (off + data.length)
  data := f.data.splice off data
  zero_behind := by
    intro p hp
    split at hp
    · rename_i h
      rw [h, Bytes.splice_nil]
      exact f.zero_behind p hp
    · rw [Bytes.splice_apply_of_ge (by omega)]
      exact f.zero_behind p (by omega)

/-- `ftruncate`. -/
def ftruncate (f : OsFile) (n : Nat) : OsFile where
  size := n
  data := fun p => if p < n then f.data p else 0
  zero_behind := fun _ hp => if_neg (Nat.not_lt.2 hp)

/-- `fallocate` with `FALLOC_FL_PUNCH_HOLE | FALLOC_FL_KEEP_SIZE`. -/
def punchHole (f : OsFile) (off n : Nat) : OsFile where
  size := f.size
  data := f.data.clear off n
  zero_behind := by
    intro p hp
    simp only [Bytes.clear]
    split
    · rfl
    · exact f.zero_behind p hp

@[simp] theorem empty_size : empty.size = 0 := rfl

@[simp] theorem empty_data (p : Nat) : empty.data p = 0 := rfl

@[simp] theorem pwrite_data (f : OsFile) (off : Nat) (data : List UInt8) :
    (f.pwrite off data).data = f.data.splice off data := rfl

@[simp] theorem punchHole_size (f : OsFile) (off n : Nat) :
    (f.punchHole off n).size = f.size := rfl

@[simp] theorem punchHole_data (f : OsFile) (off n : Nat) :
    (f.punchHole off n).data = f.data.clear off n := rfl

@[simp] theorem ftruncate_size (f : OsFile) (n : Nat) : (f.ftruncate n).size = n := rfl

theorem ftruncate_data (f : OsFile) (n p : Nat) :
    (f.ftruncate n).data p = if p < n then f.data p else 0 := rfl

@[simp] theorem pwrite_nil (f : OsFile) (off : Nat) : f.pwrite off [] = f := by
  cases f
  simp [pwrite]

theorem pwrite_size_of_ne {f : OsFile} {off : Nat} {data : List UInt8}
    (h : 0 < data.length) :
    (f.pwrite off data).size = max f.size (off + data.length) :=
  if_neg (List.length_pos_iff.1 h)

theorem le_pwrite_size (f : OsFile) (off : Nat) (data : List UInt8) :
    f.size ≤ (f.pwrite off data).size := by
  simp only [pwrite]
  split
  · exact Nat.le_refl _
  · exact Nat.le_max_left _ _

theorem pwrite_size_le {f : OsFile} {off n : Nat} {data : List UInt8}
    (hf : f.size ≤ n) (h : off + data.length ≤ n) : (f.pwrite off data).size ≤ n := by
  simp only [pwrite]
  split
  · exact hf
  · exact Nat.max_le.2 ⟨hf, h⟩

theorem pread_eq {f : OsFile} {off n : Nat} (h : off + n ≤ f.size) :
    f.pread off n = f.data.slice off n := by
  rw [pread, Nat.min_eq_left (by omega)]

@[simp] theorem length_pread (f : OsFile) (off n : Nat) :
    (f.pread off n).length = min n (f.size - off) := by simp [pread]

/-- Cutting a file behind its last byte that is not 0 keeps its contents. -/
theorem ftruncate_data_of_zero {f : OsFile} {n : Nat}
    (h : ∀ p, n ≤ p → f.data p = 0) : (f.ftruncate n).data = f.data := by
  funext p
  rw [ftruncate_data]
  split
  · rfl
  · exact (h p (by omega)).symm

end OsFile

end ImageTool.Lib
