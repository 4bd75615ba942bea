import ImageTool.Fstream.FileOstream
import ImageTool.Image.VolumeOstream

/-!
# Runs of output streams

A volume stream writes at the offset behind what it has written and takes zeros as a buffer that
is `NULL`.  With file streams, it leaves what it has been given.
-/

namespace ImageTool.Image

open ImageTool.Lib ImageTool.Fstream

variable {σ : Type}

/-- `vol_ostream_append` with a buffer that may be `NULL`. -/
def volOstreamAppendBuffer (vol : Volume σ) (offset maxSize : Nat) (data : Buffer) (size : Nat) :
    Call (VolOstream σ) Unit := fun s =>
  if size = 0 then .ok () s
  else if s.written ≥ maxSize ∨ size > maxSize - s.written then .fail s
  else ((volumeWrite vol (u64 (offset + s.written)) data size s.wrapped).mapState
    fun v => { s with wrapped := v }).bind fun _ s =>
      .ok () { s with written := u64 (s.written + size) }

/-- `vol_ostream_append_sparse`. -/
def volOstreamAppendSparse (vol : Volume σ) (offset maxSize size : Nat) :
    Call (VolOstream σ) Unit := volOstreamAppendBuffer vol offset maxSize none size

/-- A call on a stream of `volume_ostream_create`. -/
def volStep (vol : Volume σ) (offset maxSize : Nat) : StreamOp → Call (VolOstream σ) Unit
  | .append data => volOstreamAppend vol offset maxSize data
  | .appendSparse size => volOstreamAppendSparse vol offset maxSize size
  | .flush => pure ()

/-- The buffer a call appends. -/
def opBuffer : StreamOp → Buffer
  | .append data => some data
  | _ => none

section Volume

variable {vol : Volume σ} {view : σ → Bytes} {count offset maxSize : Nat} {s s' : VolOstream σ}
  {op : StreamOp} {ops : List StreamOp}

/-- Every call appends a buffer, if only an empty one. -/
theorem volStep_eq (vol : Volume σ) (offset maxSize : Nat) (op : StreamOp) :
    volStep vol offset maxSize op =
      volOstreamAppendBuffer vol offset maxSize (opBuffer op) op.size := by
  cases op <;> rfl

theorem opBuffer_holds (op : StreamOp) : (opBuffer op).Holds op.size ∧
    (opBuffer op).bytes op.size = op.bytes := by
  cases op with
  | append data => simp [opBuffer, StreamOp.size, StreamOp.bytes, Buffer.bytes]
  | appendSparse size => simp [opBuffer, StreamOp.size, StreamOp.bytes, Buffer.bytes]
  | flush => simp [opBuffer, StreamOp.size, StreamOp.bytes, Buffer.bytes]

/-- An append with room for it writes behind what has been written. -/
theorem volStep_ok (hv : BlockStore vol count view) (hcount : count ≤ 2 ^ 64)
    (hmax : maxSize < 2 ^ 64) (hroom : s.written + op.size ≤ maxSize)
    (hin : offset + s.written + op.size ≤ count * vol.blocksize)
    (h64 : offset + s.written + op.size ≤ 2 ^ 64) :
    ∃ s', volStep vol offset maxSize op s = .ok () s' ∧ s'.written = s.written + op.size ∧
      view s'.wrapped = (view s.wrapped).splice (offset + s.written) op.bytes := by
  obtain ⟨hold, hbytes⟩ := opBuffer_holds op
  rw [volStep_eq]
  unfold volOstreamAppendBuffer
  by_cases hsize : op.size = 0
  · have hnil : op.bytes = [] := List.length_eq_zero_iff.1 (by rw [op.length_bytes, hsize])
    rw [if_pos hsize, hnil, hsize]
    exact ⟨s, rfl, rfl, by rw [Bytes.splice_nil]⟩
  · obtain ⟨v, hwrite, hview⟩ := volumeWrite_eq hv hcount s.wrapped hold hin
    rw [if_neg hsize, if_neg (by omega), u64_of_lt (by omega), hwrite, ← hbytes]
    refine ⟨_, rfl, ?_, hview⟩
    change u64 (s.written + op.size) = _
    exact u64_of_lt (by omega)

/-- An append that succeeds had room. -/
theorem volStep_written (hmax : maxSize < 2 ^ 64) (hs : s.written ≤ maxSize)
    (h : volStep vol offset maxSize op s = .ok () s') :
    s'.written = s.written + op.size ∧ s'.written ≤ maxSize := by
  rw [volStep_eq] at h
  unfold volOstreamAppendBuffer at h
  by_cases hsize : op.size = 0
  · rw [if_pos hsize] at h
    cases h
    exact ⟨by omega, hs⟩
  · rw [if_neg hsize] at h
    by_cases hfull : s.written ≥ maxSize ∨ op.size > maxSize - s.written
    · rw [if_pos hfull] at h
      cases h
    · rw [if_neg hfull] at h
      obtain ⟨_, t, hwrite, hlast⟩ := Outcome.of_bind_eq_ok h
      obtain ⟨v, -, rfl⟩ := Outcome.of_mapState_eq_ok hwrite
      cases hlast
      change u64 (s.written + op.size) = _ ∧ u64 (s.written + op.size) ≤ _
      rw [u64_of_lt (by omega)]
      omega

theorem runStream_written (hmax : maxSize < 2 ^ 64) (hs : s.written ≤ maxSize)
    (h : runStream (volStep vol offset maxSize) ops s = .ok () s') :
    s'.written = s.written + totalSize ops ∧ s'.written ≤ maxSize := by
  induction ops generalizing s with
  | nil =>
      cases h
      exact ⟨rfl, hs⟩
  | cons op ops ih =>
      rw [runStream, Call.bind_apply] at h
      obtain ⟨_, t, hstep, hrest⟩ := Outcome.of_bind_eq_ok h
      have ht := volStep_written hmax hs hstep
      have hrun := ih ht.2 hrest
      rw [totalSize_cons]
      omega

/-- An append without room fails and leaves everything as it was. -/
theorem volStep_full (hsize : op.size ≠ 0) (hfull : maxSize < s.written + op.size) :
    volStep vol offset maxSize op s = .fail s := by
  rw [volStep_eq]
  unfold volOstreamAppendBuffer
  rw [if_neg hsize, if_pos (by omega)]

/-- A run with room leaves what it has been given on the volume, and nothing else. -/
theorem volStream_shows (hv : BlockStore vol count view) (hcount : count ≤ 2 ^ 64)
    (hmax : maxSize < 2 ^ 64) (hroom : totalSize ops ≤ maxSize)
    (hin : offset + totalSize ops ≤ count * vol.blocksize)
    (h64 : offset + totalSize ops ≤ 2 ^ 64) (v : σ) :
    ∃ s, runStream (volStep vol offset maxSize) ops ⟨v, 0⟩ = .ok () s ∧
      s.written = totalSize ops ∧ view s.wrapped = (view v).splice offset (contents ops) := by
  have hstep : ∀ op (t : VolOstream σ) done,
      (t.written = done.length ∧ view t.wrapped = (view v).splice offset done) →
      done.length + op.size ≤ totalSize ops →
      ∃ t', volStep vol offset maxSize op t = .ok () t' ∧
        (t'.written = (done ++ op.bytes).length ∧
          view t'.wrapped = (view v).splice offset (done ++ op.bytes)) := by
    intro op t done ht hle
    obtain ⟨t', hok, hwritten, hview⟩ := @volStep_ok σ vol view count offset maxSize t op hv hcount
      hmax (by omega) (by omega) (by omega)
    refine ⟨t', hok, ?_, ?_⟩
    · rw [List.length_append, op.length_bytes, hwritten, ht.1]
    · rw [hview, ht.1, ht.2, Bytes.splice_splice_append]
  have hfresh : (VolOstream.mk v 0).written = ([] : List UInt8).length ∧
      view (VolOstream.mk v 0).wrapped = (view v).splice offset [] :=
    ⟨rfl, by rw [Bytes.splice_nil]⟩
  obtain ⟨s, hok, hwritten, hview⟩ := runStream_eq hstep ops hfresh (by simp)
  rw [List.nil_append] at hwritten hview
  exact ⟨s, hok, by rw [hwritten, length_contents], hview⟩

end Volume

section Streams

variable {vol : Volume σ} {view : σ → Bytes} {count : Nat}

/-- Output streams write what they are given: to a file as long as its size is an `off_t`, and to
a part of a volume.  What goes beyond the part is refused. -/
theorem streams_write (hv : BlockStore vol count view) (hcount : count ≤ 2 ^ 64)
    (offset : Nat) {maxSize : Nat} (hmax : maxSize < 2 ^ 64) (ops : List StreamOp) :
    (∀ sparse replies, totalSize ops < 2 ^ 63 →
      ∃ s, runStream (fileStep sparse) (ops ++ [.flush]) (openedFile replies) = .ok () s ∧
        Shows s.fd.file (contents ops)) ∧
    (∀ v, totalSize ops ≤ maxSize → offset + totalSize ops ≤ count * vol.blocksize →
      offset + totalSize ops ≤ 2 ^ 64 →
      ∃ s, runStream (volStep vol offset maxSize) (ops ++ [.flush]) ⟨v, 0⟩ = .ok () s ∧
        view s.wrapped = (view v).splice offset (contents ops)) ∧
    ∀ v s op, runStream (volStep vol offset maxSize) ops ⟨v, 0⟩ = .ok () s →
      maxSize < totalSize ops + op.size → volStep vol offset maxSize op s = .fail s := by
  refine ⟨?_, ?_, ?_⟩
  · intro sparse replies htotal
    exact fileStream_shows sparse replies ops (Nat.le_sub_one_of_lt htotal)
  · intro v hroom hin h64
    obtain ⟨s, hok, -, hview⟩ := volStream_shows hv hcount hmax hroom hin h64 v
    refine ⟨s, ?_, hview⟩
    rw [runStream_append, hok]
    rfl
  · intro v s op hrun hfull
    have hwritten := runStream_written hmax (Nat.zero_le maxSize) hrun
    dsimp only at hwritten
    exact volStep_full (by omega) (by omega)

/-- Zeros around one byte, on a file and on an ideal volume. -/
theorem streams_write_seven :
    (∃ s, runStream (fileStep true) ([.appendSparse 3, .flush, .append [7]] ++ [.flush])
        (openedFile [.interrupted]) = .ok () s ∧ Shows s.fd.file [0, 0, 0, 7]) ∧
    ∃ s, runStream (volStep (idealVolume 4 2) 2 4)
        ([.appendSparse 3, .flush, .append [7]] ++ [.flush]) ⟨fun _ => 1, 0⟩ = .ok () s ∧
      s.wrapped = Bytes.splice (fun _ => 1) 2 [0, 0, 0, 7] := by
  have hv : BlockStore (idealVolume 4 2) 2 id := idealVolume_blockStore (by decide)
  have h := streams_write hv (by decide) 2
    (show 4 < 2 ^ 64 by decide) [.appendSparse 3, .flush, .append [7]]
  exact ⟨h.1 true [.interrupted] (by decide),
    h.2.1 (fun _ => 1) (by decide) (by decide) (by decide)⟩

/-- Zeros that no `off_t` counts are lost, with success; whether the stream is sparse or not, no
file shows them. -/
theorem sparse_wraps :
    runStream (fileStep true) [.appendSparse (2 ^ 63), .flush] (openedFile []) =
      .ok () ⟨⟨.empty, 0, []⟩, -2 ^ 63, -2 ^ 63⟩ ∧
    ∀ sparse s, runStream (fileStep sparse) [.appendSparse (2 ^ 63), .flush] (openedFile []) =
      .ok () s → ¬ Shows s.fd.file (contents [.appendSparse (2 ^ 63)]) := by
  have hwrap : off64 (0 + (2 ^ 63 : Nat)) = -2 ^ 63 := by decide
  constructor
  · have hsparse : fileStep true (.appendSparse (2 ^ 63)) (openedFile []) =
        .ok () ⟨⟨.empty, 0, []⟩, -2 ^ 63, -2 ^ 63⟩ := by
      change Outcome.ok () (FileOstream.mk ⟨.empty, 0, []⟩ (off64 (0 + (2 ^ 63 : Nat)))
        (off64 (0 + (2 ^ 63 : Nat)))) = _
      rw [hwrap]
    rw [runStream, Call.bind_apply, hsparse, Outcome.bind_ok]
    rfl
  · intro sparse s hrun
    have hlarge : offMax < (contents [.appendSparse (2 ^ 63)]).length := by
      rw [length_contents]
      exact Nat.lt_succ_self _
    exact not_shows_of_large hlarge hrun

end Streams

end ImageTool.Image
