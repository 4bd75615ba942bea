import Mathlib.Data.List.Basic

/-!
# Transducers

What the stream wrappers know of a codec.  A codec is a step function over a state; its
contract relates each step to the output that is still to come.
-/

namespace ImageTool.Fstream

/-- `XFRM_STREAM_FLUSH`. -/
inductive XfrmFlush where
  | none
  | sync
  | full
  deriving DecidableEq

/-- `XFRM_STREAM_RESULT`. -/
inductive XfrmRet where
  | error
  | ok
  | end
  | bufferFull
  deriving DecidableEq

theorem XfrmRet.ok_or_end {ret : XfrmRet} (herror : ret ≠ .error) (hfull : ret ≠ .bufferFull) :
    ret = .ok ∨ ret = .end := by
  cases ret with
  | error => exact absurd rfl herror
  | ok => exact Or.inl rfl
  | «end» => exact Or.inr rfl
  | bufferFull => exact absurd rfl hfull

/-- What `process_data` returns: the result, the number of bytes it has read, what it has
written, and the state it leaves. -/
structure XfrmResult (τ : Type) where
  ret : XfrmRet
  inRead : Nat
  out : List UInt8
  state : τ

/-- `process_data`, over the state, the input, the room for output and the flush mode. -/
abbrev ProcessData (τ : Type) := τ → List UInt8 → Nat → XfrmFlush → XfrmResult τ

/-- Input that is offered out of all that is still to come. -/
structure Offered (chunk rest : List UInt8) (mode : XfrmFlush) : Prop where
  isPrefix : chunk <+: rest
  nonempty : chunk = [] → rest = []
  full : mode = .full → chunk = rest
  notSync : mode ≠ .sync

/-- An incremental transducer.  `output` is what it will write, from a state and the
input still to come; `valid` holds of the states and inputs it is made for. -/
structure Codec (τ : Type) where
  process : ProcessData τ
  output : τ → List UInt8 → List UInt8
  valid : τ → List UInt8 → Prop
  inRead_le : ∀ s rest chunk room mode, valid s rest → Offered chunk rest mode →
    (process s chunk room mode).inRead ≤ chunk.length
  out_le : ∀ s rest chunk room mode, valid s rest → Offered chunk rest mode →
    (process s chunk room mode).out.length ≤ room
  emits : ∀ s rest chunk room mode, valid s rest → Offered chunk rest mode →
    output s rest = (process s chunk room mode).out ++
      output (process s chunk room mode).state (rest.drop (process s chunk room mode).inRead)
  keeps : ∀ s rest chunk room mode, valid s rest → Offered chunk rest mode →
    valid (process s chunk room mode).state (rest.drop (process s chunk room mode).inRead)
  progress : ∀ s rest chunk room mode, valid s rest → Offered chunk rest mode →
    chunk ≠ [] → 0 < room → (process s chunk room mode).ret ≠ .end →
    0 < (process s chunk room mode).inRead ∨ (process s chunk room mode).out ≠ []
  noError : ∀ s rest chunk room mode, valid s rest → Offered chunk rest mode →
    (process s chunk room mode).ret ≠ .error

/-- A decoder reports the end exactly when it has written everything. -/
structure Decoder (τ : Type) extends Codec τ where
  ends : ∀ s rest chunk room mode, valid s rest → Offered chunk rest mode →
    ((process s chunk room mode).ret = .end ↔
      output (process s chunk room mode).state
        (rest.drop (process s chunk room mode).inRead) = [])

/-- An encoder reports the end on a full flush, once it has written everything. -/
structure Encoder (τ : Type) extends Codec τ where
  ends : ∀ s rest chunk room mode, valid s rest → Offered chunk rest mode →
    ((process s chunk room mode).ret = .end ↔ mode = .full ∧
      output (process s chunk room mode).state
        (rest.drop (process s chunk room mode).inRead) = [])

end ImageTool.Fstream
