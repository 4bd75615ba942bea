import ImageTool.Fstream.GetLine
import ImageTool.Imgtool.DirectoryTree
import ImageTool.Imgtool.FileSource
import ImageTool.Lib.Call
import ImageTool.Lib.CString
import ImageTool.Lib.Word

/-!
# The directory source

`get_next_record` of a directory source keeps a stack of open directories.  An answer takes the
next entry of the top one, leaves directories that have none left, and enters the directory it
answers with.
-/

namespace ImageTool.Imgtool.Directory

open ImageTool.Lib ImageTool.Fstream ImageTool.Fstree

/-- A `DIR *`: the directory, and what `readdir` has yet to return. -/
structure DirStream where
  all : Entries
  rest : Entries

/-- `dir_level_t`, with the name it prints. -/
structure DirLevel where
  dirrd : DirStream
  name : List UInt8

/-- `readdir`: the name of the next entry. -/
def readdir (dirrd : DirStream) : Option (List UInt8 × DirStream) :=
  match dirrd.rest with
  | .nil => none
  | .dot rest => some ([dot], ⟨dirrd.all, rest⟩)
  | .dotdot rest => some ([dot, dot], ⟨dirrd.all, rest⟩)
  | .leaf name _ _ rest => some (name, ⟨dirrd.all, rest⟩)
  | .dir name _ _ rest => some (name, ⟨dirrd.all, rest⟩)

/-! ## Paths -/

/-- `memcpy` to a buffer. -/
def copyTo (out : List UInt8) (start : Nat) (bytes : List UInt8) : Option (List UInt8) :=
  if start + bytes.length ≤ out.length then
    some (out.take start ++ bytes ++ out.drop (start + bytes.length))
  else none

/-- The last loop of `full_path`, from the top of the stack on. -/
def fullPathLoop : List DirLevel → List UInt8 → Nat → Option (List UInt8)
  | [], out, _ => some out
  | it :: next, out, len =>
      if it.name.length > 0 then do
        let len := len - it.name.length
        let out ← copyTo out len it.name
        fullPathLoop next out len
      else fullPathLoop next out len

/-- `full_path`.  A copy that leaves the buffer is `none`. -/
def fullPath (stack : List DirLevel) (fname : List UInt8) : Option (List UInt8) := do
  let len := fname.length + (stack.map fun it => it.name.length).sum
  let out := List.replicate (len + 1) 0
  let len := len - fname.length
  let out ← copyTo out len (fname ++ [0])
  fullPathLoop stack out len

/-! ## Symlinks -/

/-- `readlinkat`: the front of the target, as much of it as the buffer takes. -/
def readlinkat (target : List UInt8) (bufsiz : Nat) : List UInt8 := target.take bufsiz

/-- The loop of `readlink_full`; the first argument bounds the number of rounds. -/
def readlinkLoop (target : List UInt8) : Nat → Nat → Option (List UInt8)
  | 0, _ => none
  | fuel + 1, size =>
      let buffer := readlinkat target (size - 1)
      if buffer.length ≥ size - 1 then readlinkLoop target fuel (size * 2)
      else some (buffer ++ [0])

/-- `readlink_full`.  A loop that does not end is `none`. -/
def readlinkFull (target : List UInt8) : Option (List UInt8) :=
  readlinkLoop target (target.length + 1) 32

/-! ## Records -/

/-- `S_IFMT` of a file, as a type of a record. -/
def Leaf.type : Leaf → FileSourceType
  | .blockDev => .blockDev
  | .charDev => .charDev
  | .file _ => .file
  | .symlink _ => .symlink
  | .fifo => .fifo
  | .socket => .socket

/-- A time as it is stored. -/
def time64 (t : Int) : Nat := (t % 2 ^ 64).toNat

/-- What every record gets from `struct stat`. -/
def baseRecord (type : FileSourceType) (sb : Stat) (path : List UInt8) : FileSourceRecord where
  type := type
  permissions := sb.permissions % 2 ^ 16
  uid := u32 sb.uid
  gid := u32 sb.gid
  devno := u32 sb.rdev
  ctime := time64 sb.ctime
  mtime := time64 sb.mtime
  size := 0
  fullPath := path
  linkTarget := none

/-- `create_entry`. -/
def createEntry (stack : List DirLevel) (name : List UInt8) (found : Found) :
    Option FileSourceRecord := do
  let path ← fullPath stack name
  match found with
  | .dir sb _ => some (baseRecord .dir sb (cString path))
  | .leaf sb (.file _) =>
      some { baseRecord .file sb (cString path) with size := u64 sb.size }
  | .leaf sb (.symlink target) => do
      let linkTarget ← readlinkFull target
      some { baseRecord .symlink sb (cString path) with linkTarget := some (cString linkTarget) }
  | .leaf sb file => some (baseRecord file.type sb (cString path))

/-! ## The traversal -/

/-- The stack of a source, its top first. -/
abbrev SourceDir := List DirLevel

/-- The loop of `get_next_record`; the first argument bounds the number of rounds. -/
def nextEntry : Nat → SourceDir → Option (Option (List UInt8) × SourceDir)
  | 0, _ => none
  | _ + 1, [] => some (none, [])
  | fuel + 1, top :: next =>
      match readdir top.dirrd with
      | none => nextEntry fuel next
      | some (name, dirrd) =>
          if name = [dot] ∨ name = [dot, dot] then nextEntry fuel ({ top with dirrd } :: next)
          else some (some name, { top with dirrd } :: next)

/-- How often the loop can turn. -/
def Entries.length : Entries → Nat
  | .nil => 0
  | .dot rest => rest.length + 1
  | .dotdot rest => rest.length + 1
  | .leaf _ _ _ rest => rest.length + 1
  | .dir _ _ _ rest => rest.length + 1

def stackLength (stack : SourceDir) : Nat :=
  (stack.map fun level => level.dirrd.rest.length + 1).sum

/-- `push_dir`, with the directory that `openat` has opened. -/
def pushDir (stack : SourceDir) (name : List UInt8) (below : Entries) : SourceDir :=
  ⟨⟨below, below⟩, name ++ [slash]⟩ :: stack

/-- `get_next_record`, with a record and a stream; the end answers `none`. -/
def getNextRecord : Call SourceDir (Option (SourceItem (List UInt8))) := fun dir =>
  match nextEntry (stackLength dir + 1) dir with
  | none => .stuck
  | some (none, dir) => .ok none dir
  | some (some _, []) => .stuck
  | some (some name, top :: next) =>
      match top.dirrd.all.lookup name with
      | none => .fail (top :: next)
      | some found =>
          match createEntry (top :: next) name found with
          | none => .stuck
          | some record =>
              match found with
              | .leaf _ (.file data) => .ok (some (record, some data)) (top :: next)
              | .leaf _ _ => .ok (some (record, none)) (top :: next)
              | .dir _ below => .ok (some (record, none)) (pushDir (top :: next) name below)

/-- Records until the end. -/
def drain : Nat → Call SourceDir (List (SourceItem (List UInt8)))
  | 0 => Call.stuck
  | fuel + 1 => do
      match ← getNextRecord with
      | none => pure []
      | some item => do
          let items ← drain fuel
          pure (item :: items)

/-- `file_source_directory_create`. -/
def create (root : Entries) : SourceDir := [⟨⟨root, root⟩, []⟩]

/-! ## Paths and targets -/

section Text

variable {stack : SourceDir} {name fname target : List UInt8} {path : List (List UInt8)}

theorem copyTo_middle {front old bytes back : List UInt8} {start : Nat}
    (hstart : front.length = start) (hlength : old.length = bytes.length) :
    copyTo (front ++ old ++ back) start bytes = some (front ++ bytes ++ back) := by
  have htake : (front ++ old ++ back).take start = front := by
    rw [List.append_assoc, List.take_left' hstart]
  have hdrop : (front ++ old ++ back).drop (start + bytes.length) = back :=
    List.drop_left' (by rw [List.length_append, hstart, hlength])
  unfold copyTo
  rw [if_pos, htake, hdrop]
  rw [List.length_append, List.length_append]
  omega

/-- The names of the stack are put in front of one another. -/
theorem fullPathLoop_eq (stack : SourceDir) (back : List UInt8) :
    fullPathLoop stack
        (List.replicate (stack.map fun it => it.name.length).sum 0 ++ back)
        (stack.map fun it => it.name.length).sum =
      some (stack.reverse.flatMap DirLevel.name ++ back) := by
  induction stack generalizing back with
  | nil => rfl
  | cons it next ih =>
      rw [List.map_cons, List.sum_cons, fullPathLoop]
      by_cases hname : it.name.length > 0
      · have hzeros : List.replicate (it.name.length + (next.map fun it => it.name.length).sum) 0 =
            List.replicate (next.map fun it => it.name.length).sum (0 : UInt8) ++
              List.replicate it.name.length 0 := by
          rw [List.replicate_append_replicate, Nat.add_comm]
        have hcopy := @copyTo_middle
          (List.replicate (next.map fun it => it.name.length).sum 0)
          (List.replicate it.name.length 0) it.name back _ List.length_replicate
          List.length_replicate
        have hloop := ih (it.name ++ back)
        rw [if_pos hname, Nat.add_sub_cancel_left, hzeros]
        simp only [hcopy, Option.bind_eq_bind, Option.bind_some]
        rw [List.append_assoc, hloop]
        simp
      · have hnil : it.name = [] := List.length_eq_zero_iff.1 (by omega)
        have hloop := ih back
        rw [if_neg hname, hnil, List.length_nil, Nat.zero_add, hloop]
        simp [hnil]

theorem fullPath_eq (stack : SourceDir) (fname : List UInt8) :
    fullPath stack fname = some (stack.reverse.flatMap DirLevel.name ++ (fname ++ [0])) := by
  have hlen : fname.length + (stack.map fun it => it.name.length).sum - fname.length =
      (stack.map fun it => it.name.length).sum := Nat.add_sub_cancel_left ..
  have hzeros : List.replicate (fname.length + (stack.map fun it => it.name.length).sum + 1) 0 =
      List.replicate (stack.map fun it => it.name.length).sum (0 : UInt8) ++
        List.replicate (fname ++ [0]).length 0 ++ [] := by
    rw [List.append_nil, List.replicate_append_replicate, List.length_append]
    congr 1
    simp
    omega
  unfold fullPath
  simp only [Option.bind_eq_bind, hlen]
  rw [hzeros, copyTo_middle List.length_replicate List.length_replicate, Option.bind_some,
    List.append_nil, fullPathLoop_eq]

/-- The buffer is doubled until the whole target is in it. -/
theorem readlinkLoop_eq {fuel size : Nat} (hsize : 2 ≤ size) (hpos : 0 < fuel)
    (hfuel : target.length + 2 < fuel + size) :
    readlinkLoop target fuel size = some (target ++ [0]) := by
  induction fuel generalizing size with
  | zero => exact absurd hpos (Nat.lt_irrefl 0)
  | succ fuel ih =>
      rw [readlinkLoop, readlinkat, List.length_take]
      by_cases hfull : min (size - 1) target.length ≥ size - 1
      · rw [if_pos hfull]
        exact ih (by omega) (by omega) (by omega)
      · rw [if_neg hfull, List.take_of_length_le (by omega)]

theorem readlinkFull_eq (target : List UInt8) : readlinkFull target = some (target ++ [0]) :=
  readlinkLoop_eq (by decide) (Nat.succ_pos _) (by omega)

end Text

end ImageTool.Imgtool.Directory
