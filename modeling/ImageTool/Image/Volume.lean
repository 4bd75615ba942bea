import ImageTool.Lib.Call
import ImageTool.Lib.Word
import ImageTool.Lib.Bytes

/-!
# Volumes

`Volume σ` is the method table of `volume_t`: a block device whose operations act
on a state `σ`.  Everything above this module reaches a volume only through the
table, as the source does.

`BlockStore vol count view` says that a volume is an array of `count` blocks whose
flat contents are `view`: in-range operations succeed and act on the contents as
`Bytes.slice`, `splice`, `move` and `clear` do.  The ideal volume satisfies it by
definition and the block size adapter inherits it; the functions that work on
arbitrary byte ranges are verified against this interface once.
-/

namespace ImageTool.Image

open ImageTool.Lib

/-- The method table of `volume_t`. -/
structure Volume (σ : Type) where
  blocksize : Nat
  getMinBlockCount : σ → Nat
  getMaxBlockCount : σ → Nat
  getBlockCount : σ → Nat
  truncate (size : Nat) : Call σ Unit
  readBlock (index : Nat) : Call σ (List UInt8)
  readPartialBlock (index offset size : Nat) : Call σ (List UInt8)
  writeBlock (index : Nat) (buffer : Buffer) : Call σ Unit
  writePartialBlock (index : Nat) (buffer : Buffer) (offset size : Nat) : Call σ Unit
  moveBlock (src dst : Nat) : Call σ Unit
  moveBlockPartial (src dst srcOffset dstOffset size : Nat) : Call σ Unit
  discardBlocks (index count : Nat) : Call σ Unit
  commit : Call σ Unit

/-- A volume that behaves as an array of `count` blocks with contents `view`. -/
structure BlockStore {σ : Type} (vol : Volume σ) (count : Nat) (view : σ → Bytes) :
    Prop where
  blocksize_pos : 0 < vol.blocksize
  maxBlockCount : ∀ s, vol.getMaxBlockCount s = count
  readBlock : ∀ s i, i < count →
    vol.readBlock i s =
      .ok ((view s).slice (i * vol.blocksize) vol.blocksize) s
  readPartialBlock : ∀ s i off n, i < count → off + n ≤ vol.blocksize →
    vol.readPartialBlock i off n s =
      .ok ((view s).slice (i * vol.blocksize + off) n) s
  writeBlock : ∀ s i (b : Buffer), i < count → b.Holds vol.blocksize →
    ∃ s', vol.writeBlock i b s = .ok () s' ∧
      view s' = (view s).splice (i * vol.blocksize) (b.bytes vol.blocksize)
  writePartialBlock : ∀ s i (b : Buffer) off n, i < count →
    off + n ≤ vol.blocksize → b.Holds n →
    ∃ s', vol.writePartialBlock i b off n s = .ok () s' ∧
      view s' = (view s).splice (i * vol.blocksize + off) (b.bytes n)
  moveBlock : ∀ s i j, i < count → j < count →
    ∃ s', vol.moveBlock i j s = .ok () s' ∧
      view s' = (view s).move (j * vol.blocksize) (i * vol.blocksize) vol.blocksize
  moveBlockPartial : ∀ s i j so d n, i < count → j < count →
    so + n ≤ vol.blocksize → d + n ≤ vol.blocksize →
    ∃ s', vol.moveBlockPartial i j so d n s = .ok () s' ∧
      view s' =
        (view s).move (j * vol.blocksize + d) (i * vol.blocksize + so) n
  discardBlocks : ∀ s i n, i + n ≤ count →
    ∃ s', vol.discardBlocks i n s = .ok () s' ∧
      view s' = (view s).clear (i * vol.blocksize) (n * vol.blocksize)
  commit : ∀ s, ∃ s', vol.commit s = .ok () s' ∧ view s' = view s

/-- Operations that leave the array fail and change nothing. -/
structure RefusesOutside {σ : Type} (vol : Volume σ) (count : Nat) : Prop where
  readPartialBlock : ∀ s i off n, count ≤ i →
    vol.readPartialBlock i off n s = .fail s
  writeBlock : ∀ s i b, count ≤ i → vol.writeBlock i b s = .fail s
  writePartialBlock : ∀ s i b off n, count ≤ i →
    vol.writePartialBlock i b off n s = .fail s
  moveBlock : ∀ s i j, count ≤ i ∨ count ≤ j → vol.moveBlock i j s = .fail s
  moveBlockPartial : ∀ s i j so d n, count ≤ i ∨ count ≤ j →
    vol.moveBlockPartial i j so d n s = .fail s
  discardBlocks : ∀ s i n, count < i + n → vol.discardBlocks i n s = .fail s

/-- A property of the state that no operation on the data of a volume breaks. -/
structure Volume.Keeps {σ : Type} (vol : Volume σ) (P : σ → Prop) : Prop where
  readBlock : ∀ i, (vol.readBlock i).Keeps P
  readPartialBlock : ∀ i off n, (vol.readPartialBlock i off n).Keeps P
  writeBlock : ∀ i b, (vol.writeBlock i b).Keeps P
  writePartialBlock : ∀ i b off n, (vol.writePartialBlock i b off n).Keeps P
  moveBlock : ∀ i j, (vol.moveBlock i j).Keeps P
  moveBlockPartial : ∀ i j so d n, (vol.moveBlockPartial i j so d n).Keeps P
  discardBlocks : ∀ i n, (vol.discardBlocks i n).Keeps P
  commit : vol.commit.Keeps P

/-! ## The ideal volume -/

/-- An array of `count` blocks whose operations fail without effect when they
leave the array. -/
def idealVolume (blocksize count : Nat) : Volume Bytes where
  blocksize := blocksize
  getMinBlockCount _ := count
  getMaxBlockCount _ := count
  getBlockCount _ := count
  truncate size s := if blockCount size blocksize ≤ count then .ok () s else .fail s
  readBlock i s :=
    if i < count then .ok (s.slice (i * blocksize) blocksize) s else .fail s
  readPartialBlock i off n s :=
    if i < count ∧ off + n ≤ blocksize then
      .ok (s.slice (i * blocksize + off) n) s
    else .fail s
  writeBlock i b s :=
    if i < count then .ok () (s.splice (i * blocksize) (b.bytes blocksize))
    else .fail s
  writePartialBlock i b off n s :=
    if i < count ∧ off + n ≤ blocksize then
      .ok () (s.splice (i * blocksize + off) (b.bytes n))
    else .fail s
  moveBlock i j s :=
    if i < count ∧ j < count then
      .ok () (s.move (j * blocksize) (i * blocksize) blocksize)
    else .fail s
  moveBlockPartial i j so d n s :=
    if i < count ∧ j < count ∧ so + n ≤ blocksize ∧ d + n ≤ blocksize then
      .ok () (s.move (j * blocksize + d) (i * blocksize + so) n)
    else .fail s
  discardBlocks i n s :=
    if i + n ≤ count then .ok () (s.clear (i * blocksize) (n * blocksize))
    else .fail s
  commit s := .ok () s

variable {blocksize count : Nat}

@[simp] theorem idealVolume_blocksize :
    (idealVolume blocksize count).blocksize = blocksize := rfl

section

variable (i j n off a b : Nat) (data : Buffer) (s : Bytes)

@[simp] theorem idealVolume_readBlock :
    (idealVolume blocksize count).readBlock i s =
      if i < count then .ok (s.slice (i * blocksize) blocksize) s else .fail s := rfl

@[simp] theorem idealVolume_readPartialBlock :
    (idealVolume blocksize count).readPartialBlock i off n s =
      if i < count ∧ off + n ≤ blocksize then
        .ok (s.slice (i * blocksize + off) n) s
      else .fail s := rfl

@[simp] theorem idealVolume_writeBlock :
    (idealVolume blocksize count).writeBlock i data s =
      if i < count then
        .ok () (s.splice (i * blocksize) (data.bytes blocksize))
      else .fail s := rfl

@[simp] theorem idealVolume_writePartialBlock :
    (idealVolume blocksize count).writePartialBlock i data off n s =
      if i < count ∧ off + n ≤ blocksize then
        .ok () (s.splice (i * blocksize + off) (data.bytes n))
      else .fail s := rfl

@[simp] theorem idealVolume_moveBlock :
    (idealVolume blocksize count).moveBlock i j s =
      if i < count ∧ j < count then
        .ok () (s.move (j * blocksize) (i * blocksize) blocksize)
      else .fail s := rfl

@[simp] theorem idealVolume_moveBlockPartial :
    (idealVolume blocksize count).moveBlockPartial i j a b n s =
      if i < count ∧ j < count ∧ a + n ≤ blocksize ∧ b + n ≤ blocksize then
        .ok () (s.move (j * blocksize + b) (i * blocksize + a) n)
      else .fail s := rfl

@[simp] theorem idealVolume_discardBlocks :
    (idealVolume blocksize count).discardBlocks i n s =
      if i + n ≤ count then .ok () (s.clear (i * blocksize) (n * blocksize))
      else .fail s := rfl

@[simp] theorem idealVolume_commit :
    (idealVolume blocksize count).commit s = .ok () s := rfl

end

theorem idealVolume_blockStore (hbs : 0 < blocksize) :
    BlockStore (idealVolume blocksize count) count id where
  blocksize_pos := hbs
  maxBlockCount _ := rfl
  readBlock _ _ hi := if_pos hi
  readPartialBlock _ _ _ _ hi hn := if_pos ⟨hi, hn⟩
  writeBlock _ _ _ hi _ := ⟨_, if_pos hi, rfl⟩
  writePartialBlock _ _ _ _ _ hi hn _ := ⟨_, if_pos ⟨hi, hn⟩, rfl⟩
  moveBlock _ _ _ hi hj := ⟨_, if_pos ⟨hi, hj⟩, rfl⟩
  moveBlockPartial _ _ _ _ _ _ hi hj hs hd := ⟨_, if_pos ⟨hi, hj, hs, hd⟩, rfl⟩
  discardBlocks _ _ _ h := ⟨_, if_pos h, rfl⟩
  commit s := ⟨s, rfl, rfl⟩

theorem idealVolume_refusesOutside :
    RefusesOutside (idealVolume blocksize count) count where
  readPartialBlock _ _ _ _ h := if_neg (by omega)
  writeBlock _ _ _ h := if_neg (by omega)
  writePartialBlock _ _ _ _ _ h := if_neg (by omega)
  moveBlock _ _ _ h := if_neg (by omega)
  moveBlockPartial _ _ _ _ _ _ h := if_neg (by omega)
  discardBlocks _ _ _ h := if_neg (by omega)

end ImageTool.Image
