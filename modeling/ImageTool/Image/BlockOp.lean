import ImageTool.Image.Volume
import ImageTool.Lib.Run

/-!
# Block operations as data

The data operations of the `volume_t` table as an inductive type, so that a
sequence of them can be run on two volumes and the results compared.
-/

namespace ImageTool.Image

open ImageTool.Lib

/-- A data operation on a volume. -/
inductive BlockOp where
  | read (index : Nat)
  | readPartial (index offset size : Nat)
  | write (index : Nat) (buffer : Buffer)
  | writePartial (index : Nat) (buffer : Buffer) (offset size : Nat)
  | move (src dst : Nat)
  | movePartial (src dst srcOffset dstOffset size : Nat)
  | discard (index count : Nat)
  | commit

namespace BlockOp

variable {σ : Type}

/-- Carry an operation out; only reads return bytes. -/
def run (vol : Volume σ) : BlockOp → Call σ (List UInt8)
  | read i => vol.readBlock i
  | readPartial i off n => vol.readPartialBlock i off n
  | write i b => do vol.writeBlock i b; pure []
  | writePartial i b off n => do vol.writePartialBlock i b off n; pure []
  | move i j => do vol.moveBlock i j; pure []
  | movePartial i j a b n => do vol.moveBlockPartial i j a b n; pure []
  | discard i n => do vol.discardBlocks i n; pure []
  | commit => do vol.commit; pure []

/-- The contract of `volume.h`: partial operations stay inside a block and
buffers hold the bytes an operation takes from them. -/
def Fits (blocksize : Nat) : BlockOp → Prop
  | read _ => True
  | readPartial _ off n => off + n ≤ blocksize
  | write _ b => b.Holds blocksize
  | writePartial _ b off n => off + n ≤ blocksize ∧ b.Holds n
  | move _ _ => True
  | movePartial _ _ a b n => a + n ≤ blocksize ∧ b + n ≤ blocksize
  | discard _ _ => True
  | commit => True

/-- All blocks an operation names lie below `max`. -/
def InRange (max : Nat) : BlockOp → Prop
  | read i => i < max
  | readPartial i _ _ => i < max
  | write i _ => i < max
  | writePartial i _ _ _ => i < max
  | move i j => i < max ∧ j < max
  | movePartial i j _ _ _ => i < max ∧ j < max
  | discard i n => i + n ≤ max
  | commit => True

instance (max : Nat) (op : BlockOp) : Decidable (op.InRange max) := by
  cases op <;> unfold InRange <;> infer_instance

/-- The blocks whose contents an operation may change. -/
def Targets : BlockOp → Nat → Prop
  | read _, _ => False
  | readPartial _ _ _, _ => False
  | write i _, b => b = i
  | writePartial i _ _ _, b => b = i
  | move _ j, b => b = j
  | movePartial _ j _ _ _, b => b = j
  | discard i n, b => i ≤ b ∧ b < i + n
  | commit, _ => False

/-- A discard is cut off behind the last block. -/
def clip (max : Nat) : BlockOp → BlockOp
  | discard i n => discard (min i max) (min n (max - i))
  | op => op

/-- Discards are the operations that are cut off instead of refused. -/
def IsDiscard : BlockOp → Prop
  | discard _ _ => True
  | _ => False

theorem clip_of_not_isDiscard {max : Nat} {op : BlockOp} (h : ¬ op.IsDiscard) :
    op.clip max = op := by
  cases op with
  | discard i n => exact absurd trivial h
  | _ => rfl

theorem fits_clip {bs max : Nat} {op : BlockOp} (h : op.Fits bs) :
    (op.clip max).Fits bs := by
  cases op <;> exact h

theorem targets_clip {max b : Nat} {op : BlockOp} (h : (op.clip max).Targets b) :
    op.Targets b := by
  cases op with
  | discard i n =>
      simp only [clip, Targets] at h ⊢
      omega
  | _ => exact h

/-! ## Behaviour on the ideal volume -/

section Ideal

variable {bs max : Nat}

/-- The bytes of block `b`. -/
def InBlock (bs b p : Nat) : Prop := b * bs ≤ p ∧ p < (b + 1) * bs

private theorem inBlock_of_mem {b off n p : Nat} (hn : off + n ≤ bs)
    (h : b * bs + off ≤ p) (h' : p < b * bs + off + n) : InBlock bs b p := by
  constructor
  · omega
  · rw [Nat.add_mul, Nat.one_mul]; omega

private theorem inBlock_div {p : Nat} (hbs : 0 < bs) : InBlock bs (p / bs) p :=
  ⟨Nat.div_mul_le_self p bs, Nat.lt_mul_of_div_lt (Nat.lt_succ_self _) hbs⟩

private theorem splice_of_not_inBlock {w : Bytes} {data : List UInt8} {b off p : Nat}
    (hn : off + data.length ≤ bs) (hp : ¬ InBlock bs b p) :
    w.splice (b * bs + off) data p = w p :=
  if_neg fun h => hp (inBlock_of_mem hn h.1 h.2)

/-- An operation changes only bytes of the blocks it targets. -/
theorem run_idealVolume_frame (hbs : 0 < bs) {op : BlockOp} (hfits : op.Fits bs)
    {w w' : Bytes} (hrun : (op.run (idealVolume bs max) w).state? = some w') {p : Nat}
    (hp : ∀ b < max, op.Targets b → ¬ InBlock bs b p) : w' p = w p := by
  cases op with
  | read i =>
      simp only [run, idealVolume_readBlock] at hrun
      split at hrun <;> cases hrun <;> rfl
  | readPartial i off n =>
      simp only [run, idealVolume_readPartialBlock] at hrun
      split at hrun <;> cases hrun <;> rfl
  | write i b =>
      simp only [run, Call.bind_apply, idealVolume_writeBlock] at hrun
      split at hrun
      · rename_i hi
        cases hrun
        have hlen : 0 + (b.bytes bs).length ≤ bs := by
          rw [Buffer.length_bytes hfits, Nat.zero_add]
        exact splice_of_not_inBlock hlen (hp i hi rfl)
      · cases hrun; rfl
  | writePartial i b off n =>
      simp only [run, Call.bind_apply, idealVolume_writePartialBlock] at hrun
      split at hrun
      · rename_i hi
        cases hrun
        have hlen : off + (b.bytes n).length ≤ bs := by
          rw [Buffer.length_bytes hfits.2]; exact hi.2
        exact splice_of_not_inBlock hlen (hp i hi.1 rfl)
      · cases hrun; rfl
  | move i j =>
      simp only [run, Call.bind_apply, idealVolume_moveBlock] at hrun
      split at hrun
      · rename_i h
        cases hrun
        rw [Bytes.move_eq_splice]
        have hlen : 0 + (w.slice (i * bs) bs).length ≤ bs := by simp
        exact splice_of_not_inBlock hlen (hp j h.2 rfl)
      · cases hrun; rfl
  | movePartial i j a b n =>
      simp only [run, Call.bind_apply, idealVolume_moveBlockPartial] at hrun
      split at hrun
      · rename_i h
        cases hrun
        rw [Bytes.move_eq_splice]
        have hlen : b + (w.slice (i * bs + a) n).length ≤ bs := by simpa using h.2.2.2
        exact splice_of_not_inBlock hlen (hp j h.2.1 rfl)
      · cases hrun; rfl
  | discard i n =>
      simp only [run, Call.bind_apply, idealVolume_discardBlocks] at hrun
      split at hrun
      · rename_i h
        cases hrun
        refine if_neg fun hmem => ?_
        have hlo : i ≤ p / bs := (Nat.le_div_iff_mul_le hbs).2 hmem.1
        have hhi : p / bs < i + n := by
          rw [Nat.div_lt_iff_lt_mul hbs, Nat.add_mul]
          exact hmem.2
        exact hp (p / bs) (by omega) ⟨hlo, hhi⟩ (inBlock_div hbs)
      · cases hrun; rfl
  | commit =>
      simp only [run, Call.bind_apply, idealVolume_commit] at hrun
      cases hrun; rfl

/-- An operation that leaves the array fails and changes nothing. -/
theorem run_idealVolume_outside {op : BlockOp} (h : ¬ op.InRange max) (w : Bytes) :
    op.run (idealVolume bs max) w = .fail w := by
  have hro : RefusesOutside (idealVolume bs max) max := idealVolume_refusesOutside
  cases op with
  | read i => exact if_neg h
  | readPartial i off n => exact hro.readPartialBlock w i off n (Nat.le_of_not_lt h)
  | write i b =>
      rw [run, Call.bind_apply, hro.writeBlock w i b (Nat.le_of_not_lt h),
        Outcome.bind_fail]
  | writePartial i b off n =>
      rw [run, Call.bind_apply, hro.writePartialBlock w i b off n (Nat.le_of_not_lt h),
        Outcome.bind_fail]
  | move i j =>
      have hij : max ≤ i ∨ max ≤ j := by simp only [InRange] at h; omega
      rw [run, Call.bind_apply, hro.moveBlock w i j hij, Outcome.bind_fail]
  | movePartial i j a b n =>
      have hij : max ≤ i ∨ max ≤ j := by simp only [InRange] at h; omega
      rw [run, Call.bind_apply, hro.moveBlockPartial w i j a b n hij, Outcome.bind_fail]
  | discard i n =>
      rw [run, Call.bind_apply, hro.discardBlocks w i n (Nat.lt_of_not_le h),
        Outcome.bind_fail]
  | commit => exact absurd trivial h

end Ideal

end BlockOp

end ImageTool.Image
