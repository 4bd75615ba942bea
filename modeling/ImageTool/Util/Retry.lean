import ImageTool.Lib.OsFile

/-!
# `read_retry` and `write_retry`

Loops around `pread` and `pwrite` that go on after a short transfer.  A read that
meets the end of the file fails.
-/

namespace ImageTool.Util

open ImageTool.Lib

/-- The loop of `read_retry`; every round reads at least one byte. -/
def readRetryLoop (f : OsFile) : Nat → Nat → Nat → Option (List UInt8)
  | 0, _, size => if size = 0 then some [] else none
  | fuel + 1, offset, size =>
      if size = 0 then some [] else
        let data := f.pread offset size
        if data.length = 0 then none
        else (readRetryLoop f fuel (offset + data.length) (size - data.length)).map
          (data ++ ·)

/-- `read_retry`. -/
def readRetry (f : OsFile) (offset size : Nat) : Option (List UInt8) :=
  readRetryLoop f size offset size

/-- The loop of `write_retry`. -/
def writeRetryLoop : Nat → OsFile → Nat → List UInt8 → OsFile
  | 0, f, _, _ => f
  | fuel + 1, f, offset, data =>
      if data.length = 0 then f else
        let ret := data.length
        writeRetryLoop fuel (f.pwrite offset data) (offset + ret) (data.drop ret)

/-- `write_retry`. -/
def writeRetry (f : OsFile) (offset : Nat) (data : List UInt8) : OsFile :=
  writeRetryLoop data.length f offset data

@[simp] theorem readRetry_zero (f : OsFile) (offset : Nat) :
    readRetry f offset 0 = some [] := rfl

/-- A range inside the file is read in one round. -/
theorem readRetry_eq {f : OsFile} {offset size : Nat} (h : offset + size ≤ f.size) :
    readRetry f offset size = some (f.data.slice offset size) := by
  unfold readRetry
  cases size with
  | zero => rfl
  | succ n =>
      have hread : f.pread offset (n + 1) = f.data.slice offset (n + 1) :=
        OsFile.pread_eq h
      simp only [readRetryLoop, Nat.succ_ne_zero, if_false, hread, Bytes.length_slice,
        Nat.sub_self]
      cases n with
      | zero => simp [readRetryLoop]
      | succ m => simp [readRetryLoop]

/-- Writing is one `pwrite`. -/
theorem writeRetry_eq (f : OsFile) (offset : Nat) (data : List UInt8) :
    writeRetry f offset data = if data = [] then f else f.pwrite offset data := by
  unfold writeRetry
  cases data with
  | nil => rfl
  | cons b l =>
      simp only [List.length_cons, writeRetryLoop, Nat.succ_ne_zero, if_false,
        List.drop_succ_cons, List.drop_length, reduceCtorEq]
      cases l with
      | nil => rfl
      | cons c l => simp [writeRetryLoop]

@[simp] theorem writeRetry_data (f : OsFile) (offset : Nat) (data : List UInt8) :
    (writeRetry f offset data).data = f.data.splice offset data := by
  rw [writeRetry_eq]
  split
  · rename_i h
    rw [h, Bytes.splice_nil]
  · rfl

theorem writeRetry_size_le {f : OsFile} {offset n : Nat} {data : List UInt8}
    (hf : f.size ≤ n) (h : offset + data.length ≤ n) :
    (writeRetry f offset data).size ≤ n := by
  rw [writeRetry_eq]
  split
  · exact hf
  · exact OsFile.pwrite_size_le hf h

end ImageTool.Util
