import ImageTool.Image.Access
import ImageTool.Fstream.OstreamXfrm

/-!
# Output streams into a volume

`volume_ostream_create` makes a stream that writes to a part of a volume and refuses what does
not fit there.
-/

namespace ImageTool.Image

open ImageTool.Lib ImageTool.Fstream

/-- The volume and the counter of `vol_ostream_t`. -/
structure VolOstream (σ : Type) where
  wrapped : σ
  written : Nat

variable {σ : Type}

/-- `vol_ostream_append`. -/
def volOstreamAppend (vol : Volume σ) (offset maxSize : Nat) (data : List UInt8) :
    Call (VolOstream σ) Unit := fun s =>
  if data.length = 0 then .ok () s
  else if s.written ≥ maxSize ∨ data.length > maxSize - s.written then .fail s
  else ((volumeWrite vol (u64 (offset + s.written)) (some data) data.length s.wrapped).mapState
    fun v => { s with wrapped := v }).bind fun _ s =>
      .ok () { s with written := u64 (s.written + data.length) }

/-- `volume_ostream_create`. -/
def volumeOstream (vol : Volume σ) (offset maxSize : Nat) : Ostream (VolOstream σ) where
  append := volOstreamAppend vol offset maxSize
  flush := pure ()

end ImageTool.Image
