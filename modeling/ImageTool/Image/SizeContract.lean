import ImageTool.Image.BlocksizeAdapter

/-!
# The order of a volume's block counts

`volume.h` gives a volume three sizes: a minimum that it always has, the current number of
blocks, and a maximum it can grow to.  `Volume.InOrder` is their order.  A volume satisfies
the contract from a state on if they are in order in every state its operations lead to.

The block size adapter has no counts of its own.  It converts those of the wrapped volume,
which keeps their order, and every operation of its is a few operations on the wrapped
volume.  So it satisfies the contract wherever the wrapped volume does.
-/

namespace ImageTool.Image

open ImageTool.Lib

variable {σ : Type}

/-! ## Operations and the states they lead to -/

/-- The operations of the `volume_t` table that change the volume or read from it. -/
inductive VolumeOp where
  | block (op : BlockOp)
  | truncate (size : Nat)

/-- Carry an operation out; only reads return bytes. -/
def VolumeOp.run (vol : Volume σ) : VolumeOp → Call σ (List UInt8)
  | block op => op.run vol
  | truncate size => do vol.truncate size; pure []

namespace Volume

/-- The states that operations on a volume lead to. -/
def Reaches (vol : Volume σ) : σ → σ → Prop :=
  Run (fun (op : VolumeOp) s => (op.run vol s).state?) fun _ _ => True

/-- The minimum, the current number of blocks and the maximum are in order. -/
def InOrder (vol : Volume σ) (s : σ) : Prop :=
  vol.getMinBlockCount s ≤ vol.getBlockCount s ∧ vol.getBlockCount s ≤ vol.getMaxBlockCount s

/-- The contract of `volume.h`, from a state on. -/
def SatisfiesContract (vol : Volume σ) (start : σ) : Prop :=
  ∀ s, vol.Reaches start s → vol.InOrder s

/-- A property that no operation of a volume breaks. -/
structure KeepsAll (vol : Volume σ) (P : σ → Prop) : Prop extends vol.Keeps P where
  truncate : ∀ size, (vol.truncate size).Keeps P

end Volume

/-- A call that leaves only states with the property behind keeps it. -/
theorem keeps_of_state {α : Type} {P : σ → Prop} {m : Call σ α}
    (h : ∀ s s', P s → (m s).state? = some s' → P s') : m.Keeps P := by
  intro s hs
  cases hres : m s with
  | ok a s' => exact h s s' hs (by rw [hres]; rfl)
  | fail s' => exact h s s' hs (by rw [hres]; rfl)
  | stuck => trivial

/-- The same for a call that is followed by nothing but a returned value. -/
private theorem keeps_of_bind_pure {α β : Type} {P : σ → Prop} {m : Call σ α} {b : β}
    (h : (do let _ ← m; pure b : Call σ β).Keeps P) : m.Keeps P := by
  intro s hs
  have hbind := h s hs
  rw [Call.bind_apply] at hbind
  cases hres : m s with
  | ok a s' =>
      rw [hres] at hbind
      exact hbind
  | fail s' =>
      rw [hres] at hbind
      exact hbind
  | stuck => trivial

/-- Being reached is kept by every operation. -/
theorem Volume.reaches_keepsAll (vol : Volume σ) (start : σ) :
    vol.KeepsAll (vol.Reaches start) := by
  have hop : ∀ op : VolumeOp, (op.run vol).Keeps (vol.Reaches start) := fun op =>
    keeps_of_state fun _ _ hs hstep => Run.tail op hs trivial hstep
  exact {
    readBlock := fun i => hop (.block (.read i))
    readPartialBlock := fun i off n => hop (.block (.readPartial i off n))
    writeBlock := fun i b => keeps_of_bind_pure (hop (.block (.write i b)))
    writePartialBlock := fun i b off n =>
      keeps_of_bind_pure (hop (.block (.writePartial i b off n)))
    moveBlock := fun i j => keeps_of_bind_pure (hop (.block (.move i j)))
    moveBlockPartial := fun i j a b n =>
      keeps_of_bind_pure (hop (.block (.movePartial i j a b n)))
    discardBlocks := fun i n => keeps_of_bind_pure (hop (.block (.discard i n)))
    commit := keeps_of_bind_pure (hop (.block .commit))
    truncate := fun size => keeps_of_bind_pure (hop (.truncate size)) }

/-- What every operation keeps holds in every state they lead to. -/
theorem Volume.KeepsAll.reaches {vol : Volume σ} {P : σ → Prop} (hk : vol.KeepsAll P)
    {start s : σ} (hstart : P start) (h : vol.Reaches start s) : P s := by
  refine Run.invariant h hstart fun t op u ht _ hop => ?_
  cases op with
  | truncate size => exact (hk.truncate size t ht).bind_pure.state hop
  | block op =>
      cases op with
      | read i => exact (hk.readBlock i t ht).state hop
      | readPartial i off n => exact (hk.readPartialBlock i off n t ht).state hop
      | write i b => exact (hk.writeBlock i b t ht).bind_pure.state hop
      | writePartial i b off n => exact (hk.writePartialBlock i b off n t ht).bind_pure.state hop
      | move i j => exact (hk.moveBlock i j t ht).bind_pure.state hop
      | movePartial i j a b n =>
          exact (hk.moveBlockPartial i j a b n t ht).bind_pure.state hop
      | discard i n => exact (hk.discardBlocks i n t ht).bind_pure.state hop
      | commit => exact Call.Returns.state (Call.Returns.bind_pure (hk.commit t ht)) hop

/-! ## The block size adapter -/

namespace Adapter

variable {ad : Adapter σ} {P : σ → Prop}

private theorem checkBounds_keeps (i off n : Nat) : (ad.checkBounds i off n).Keeps P := by
  intro s hs
  unfold checkBounds
  split
  · exact hs
  · exact hs

theorem readPartialBlock_keeps (hk : ad.wrapped.Keeps P) (i off n : Nat) :
    (ad.readPartialBlock i off n).Keeps P :=
  Call.Keeps.bind (checkBounds_keeps _ _ _) fun _ => volumeRead_keeps hk _ _

theorem writePartialBlock_keeps (hk : ad.wrapped.Keeps P) (i : Nat) (b : Buffer)
    (off n : Nat) : (ad.writePartialBlock i b off n).Keeps P :=
  Call.Keeps.bind (checkBounds_keeps _ _ _) fun _ => volumeWrite_keeps hk _ _ _

theorem discardBlocks_keeps (hk : ad.wrapped.Keeps P) (i n : Nat) :
    (ad.discardBlocks i n).Keeps P := by
  intro s hs
  unfold discardBlocks
  dsimp only
  split
  · exact hs
  · exact volumeWrite_keeps hk _ _ _ s hs

theorem truncate_keeps (hk : ad.wrapped.KeepsAll P) (size : Nat) :
    (ad.truncate size).Keeps P := by
  intro s hs
  unfold truncate
  dsimp only
  split
  · exact hs
  · exact hk.truncate _ s hs

/-- What every operation of the wrapped volume keeps, those of the adapter keep. -/
theorem volume_keepsAll (hk : ad.wrapped.KeepsAll P) : ad.volume.KeepsAll P where
  readBlock _ := readPartialBlock_keeps hk.toKeeps _ _ _
  readPartialBlock := readPartialBlock_keeps hk.toKeeps
  writeBlock _ _ := writePartialBlock_keeps hk.toKeeps _ _ _ _
  writePartialBlock := writePartialBlock_keeps hk.toKeeps
  moveBlock _ _ := volumeMemmove_keeps hk.toKeeps _ _ _
  moveBlockPartial _ _ _ _ _ :=
    Call.Keeps.bind (readPartialBlock_keeps hk.toKeeps _ _ _) fun _ =>
      writePartialBlock_keeps hk.toKeeps _ _ _ _
  discardBlocks := discardBlocks_keeps hk.toKeeps
  commit := hk.commit
  truncate := truncate_keeps hk

/-- The converted counts are in order where those of the wrapped volume are. -/
theorem inOrder {s : σ} (h : ad.wrapped.InOrder s) : ad.volume.InOrder s :=
  ⟨ad.convBlkCount_mono h.1, ad.convBlkCount_mono h.2⟩

/-- An adapter reaches only states that the wrapped volume reaches. -/
theorem wrapped_reaches {start s : σ} (h : ad.volume.Reaches start s) :
    ad.wrapped.Reaches start s :=
  (volume_keepsAll (ad.wrapped.reaches_keepsAll start)).reaches Run.refl h

/-- The adapter satisfies the contract where the wrapped volume does. -/
theorem satisfiesContract {start : σ} (h : ad.wrapped.SatisfiesContract start) :
    ad.volume.SatisfiesContract start :=
  fun s hs => inOrder (h s (wrapped_reaches hs))

end Adapter

end ImageTool.Image
