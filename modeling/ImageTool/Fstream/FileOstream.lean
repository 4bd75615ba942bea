import ImageTool.Lib.Call
import ImageTool.Lib.OsFile
import Mathlib.Algebra.Order.Ring.Nat
import Mathlib.Data.List.GetD

/-!
# File streams for output

A file stream counts zeros that are to come and turns them into a seek when data follows, or into
a change of the length when it is flushed.  Without support for this, zeros are written in chunks.
-/

namespace ImageTool.Fstream

open ImageTool.Lib

/-! ## Calls on streams -/

/-- A call on an output stream. -/
inductive StreamOp where
  | append (data : List UInt8)
  | appendSparse (size : Nat)
  | flush

/-- The bytes a call stands for. -/
def StreamOp.bytes : StreamOp → List UInt8
  | .append data => data
  | .appendSparse size => List.replicate size 0
  | .flush => []

/-- How many they are. -/
def StreamOp.size : StreamOp → Nat
  | .append data => data.length
  | .appendSparse size => size
  | .flush => 0

/-- What a stream has been given. -/
def contents (ops : List StreamOp) : List UInt8 := ops.flatMap StreamOp.bytes

/-- How much that is. -/
def totalSize (ops : List StreamOp) : Nat := (ops.map StreamOp.size).sum

/-- Calls one after another, up to the first one that fails. -/
def runStream {σ : Type} (step : StreamOp → Call σ Unit) : List StreamOp → Call σ Unit
  | [] => pure ()
  | op :: ops => do
      step op
      runStream step ops

/-- `append_sparse_fallback`. -/
def appendSparseFallback {σ : Type} (append : List UInt8 → Call σ Unit) (size : Nat) :
    Call σ Unit :=
  if size = 0 then pure ()
  else do
    let diff := if size < 512 then size else 512
    append (List.replicate diff 0)
    appendSparseFallback append (size - diff)
  termination_by size
  decreasing_by
    split <;> omega

/-! ## Descriptors -/

/-- An answer of `write` other than that all has been written: fewer bytes, one at least, or an
interruption. -/
inductive WriteReply where
  | short (more : Nat)
  | interrupted

/-- What a call of `write` ends with. -/
inductive WriteResult where
  | wrote (ret : Nat)
  | eintr
  | error

/-- The greatest `off_t`. -/
def offMax : Nat := 2 ^ 63 - 1

/-- An open file with its position, and the answers `write` has yet to give. -/
structure Descriptor where
  file : OsFile
  pos : Nat
  replies : List WriteReply

namespace Descriptor

/-- The first `ret` bytes are written, those that a file can have. -/
def put (fd : Descriptor) (replies : List WriteReply) (data : List UInt8) (ret : Nat) :
    WriteResult × Descriptor :=
  let data := data.take (min ret (offMax - fd.pos))
  (.wrote data.length, ⟨fd.file.pwrite fd.pos data, fd.pos + data.length, replies⟩)

/-- `write`. -/
def write (fd : Descriptor) (data : List UInt8) : WriteResult × Descriptor :=
  if offMax ≤ fd.pos then (.error, fd)
  else
    match fd.replies with
    | [] => fd.put [] data data.length
    | .short more :: replies => fd.put replies data (more + 1)
    | .interrupted :: replies => (.eintr, { fd with replies := replies })

/-- `lseek` with `SEEK_CUR`. -/
def lseekCur (fd : Descriptor) (off : Int) : Option Descriptor :=
  if 0 ≤ fd.pos + off ∧ fd.pos + off ≤ offMax then some { fd with pos := (fd.pos + off).toNat }
  else none

/-- `ftruncate`. -/
def ftruncate (fd : Descriptor) (length : Int) : Option Descriptor :=
  if 0 ≤ length ∧ length ≤ offMax then some { fd with file := fd.file.ftruncate length.toNat }
  else none

end Descriptor

/-! ## The stream -/

/-- `file_ostream_t`. -/
structure FileOstream where
  fd : Descriptor
  sparseCount : Int
  size : Int

/-- An `off_t` a sum is stored in. -/
def off64 (x : Int) : Int := Int.bmod x (2 ^ 64)

/-- The loop of `file_append`; the first argument bounds the number of rounds. -/
def fileWriteLoop : Nat → List UInt8 → Call FileOstream Unit
  | 0, data => if data.length = 0 then pure () else Call.stuck
  | fuel + 1, data => fun s =>
      if data.length = 0 then .ok () s
      else
        match s.fd.write data with
        | (.wrote ret, fd) =>
            if ret = 0 then .fail { s with fd := fd }
            else fileWriteLoop fuel (data.drop ret)
              { s with fd := fd, size := off64 (s.size + ret) }
        | (.eintr, fd) => fileWriteLoop fuel data { s with fd := fd }
        | (.error, fd) => .fail { s with fd := fd }

/-- `file_append`. -/
def fileAppend (data : List UInt8) : Call FileOstream Unit := fun s =>
  if data.length = 0 then .ok () s
  else if s.sparseCount > 0 then
    match s.fd.lseekCur s.sparseCount with
    | none => .fail s
    | some fd => fileWriteLoop (data.length + fd.replies.length) data
        { s with fd := fd, sparseCount := 0 }
  else fileWriteLoop (data.length + s.fd.replies.length) data s

/-- `file_append_sparse`. -/
def fileAppendSparse (size : Nat) : Call FileOstream Unit :=
  Call.modify fun s =>
    { s with sparseCount := off64 (s.sparseCount + size), size := off64 (s.size + size) }

/-- `file_flush`. -/
def fileFlush : Call FileOstream Unit := fun s =>
  if s.sparseCount > 0 then
    match s.fd.ftruncate s.size with
    | none => .fail s
    | some fd => .ok () { s with fd := fd }
  else .ok () s

/-- A call on a stream that `ostream_open_file` has opened with or without
`OSTREAM_OPEN_SPARSE`. -/
def fileStep (sparse : Bool) : StreamOp → Call FileOstream Unit
  | .append data => fileAppend data
  | .appendSparse size =>
      if sparse then fileAppendSparse size else appendSparseFallback fileAppend size
  | .flush => fileFlush

/-- `ostream_open_file`: the file is new, or has been cut. -/
def openedFile (replies : List WriteReply) : FileOstream := ⟨⟨.empty, 0, replies⟩, 0, 0⟩

/-- A file has this length and these bytes. -/
def Shows (file : OsFile) (data : List UInt8) : Prop :=
  file.size = data.length ∧ file.data.slice 0 file.size = data

/-! ## Consistency -/

/-- The data that comes next belongs at the position of the file. -/
structure Ready (s : FileOstream) (done : List UInt8) : Prop where
  size : s.size = done.length
  count : s.sparseCount = 0
  pos : s.fd.pos = done.length
  file_size : s.fd.file.size ≤ done.length
  data : ∀ p, s.fd.file.data p = done.getD p 0

/-- The zeros that are counted are the ones the file does not have yet. -/
structure Consistent (s : FileOstream) (done : List UInt8) : Prop where
  size : s.size = done.length
  count_nonneg : 0 ≤ s.sparseCount
  pos : s.fd.pos + s.sparseCount = done.length
  file_size : s.fd.file.size ≤ done.length
  reached : s.sparseCount = 0 → s.fd.file.size = done.length
  data : ∀ p, s.fd.file.data p = done.getD p 0

section File

variable {s : FileOstream} {done data : List UInt8}

theorem off64_of_le {x : Int} (h : 0 ≤ x) (hmax : x ≤ offMax) : off64 x = x := by
  unfold offMax at hmax
  unfold off64
  exact Int.bmod_eq_of_le (by omega) (by omega)

theorem getD_append_replicate (done : List UInt8) (n p : Nat) :
    (done ++ List.replicate n 0).getD p 0 = done.getD p 0 := by
  simp only [List.getD_eq_getElem?_getD, List.getElem?_append]
  split
  · rfl
  · rw [List.getElem?_eq_none (l := done) (by omega), List.getElem?_replicate]
    split <;> rfl

theorem splice_getD {f : Bytes} (hf : ∀ p, f p = done.getD p 0) (data : List UInt8) (p : Nat) :
    f.splice done.length data p = (done ++ data).getD p 0 := by
  rcases Nat.lt_or_ge p done.length with hlt | hge
  · rw [Bytes.splice_apply_of_lt hlt, hf, List.getD_append _ _ _ _ hlt]
  · rw [List.getD_append_right _ _ _ _ hge]
    rcases Nat.lt_or_ge p (done.length + data.length) with hin | hout
    · rw [Bytes.splice_apply_of_mem hge hin]
    · rw [Bytes.splice_apply_of_ge hout, hf, List.getD_eq_default _ _ hge,
        List.getD_eq_default _ _ (by omega)]

/-- A call of `write` that writes something. -/
theorem Ready.put (h : Ready s done) {ret : Nat} (hret : 0 < ret) (hdata : 0 < data.length)
    (hmax : done.length + data.length ≤ offMax) (replies : List WriteReply) :
    ∃ n fd, s.fd.put replies data ret = (.wrote n, fd) ∧ 0 < n ∧ n = min ret data.length ∧
      fd.replies = replies ∧
      Ready { s with fd := fd, size := off64 (s.size + n) } (done ++ data.take n) ∧
      fd.file.size = done.length + n := by
  have hpos := h.pos
  have hsize := h.file_size
  have hlen : (data.take (min ret (offMax - s.fd.pos))).length = min ret data.length := by
    rw [List.length_take]
    omega
  have htake : data.take (min ret (offMax - s.fd.pos)) = data.take (min ret data.length) := by
    rw [← List.take_length (l := data.take (min ret (offMax - s.fd.pos))), List.take_take, hlen]
    congr 1
    omega
  have hfile : (s.fd.file.pwrite s.fd.pos (data.take (min ret data.length))).size =
      done.length + min ret data.length := by
    rw [OsFile.pwrite_size_of_ne (by rw [List.length_take]; omega), List.length_take]
    omega
  refine ⟨min ret data.length, ⟨s.fd.file.pwrite s.fd.pos (data.take (min ret data.length)),
    s.fd.pos + min ret data.length, replies⟩, ?_, by omega, rfl, rfl,
    ⟨?_, h.count, ?_, ?_, ?_⟩, hfile⟩
  · unfold Descriptor.put
    dsimp only
    rw [hlen, htake]
  · dsimp only
    rw [h.size, off64_of_le (by omega) (by omega)]
    simp
  · simp [hpos]
  · rw [hfile]
    simp
  · intro p
    rw [OsFile.pwrite_data, hpos]
    exact splice_getD h.data _ p

theorem fileWriteLoop_wrote {fuel ret : Nat} {fd : Descriptor} (hdata : data.length ≠ 0)
    (hwrite : s.fd.write data = (.wrote ret, fd)) (hret : ret ≠ 0) :
    fileWriteLoop (fuel + 1) data s = fileWriteLoop fuel (data.drop ret)
      { s with fd := fd, size := off64 (s.size + ret) } := by
  simp only [fileWriteLoop, hdata, hwrite, hret, if_false]

theorem fileWriteLoop_eintr {fuel : Nat} {fd : Descriptor} (hdata : data.length ≠ 0)
    (hwrite : s.fd.write data = (.eintr, fd)) :
    fileWriteLoop (fuel + 1) data s = fileWriteLoop fuel data { s with fd := fd } := by
  simp only [fileWriteLoop, hdata, hwrite, if_false]

/-- Short writes and interruptions do not change what is written in the end. -/
theorem fileWriteLoop_eq {fuel : Nat} (hfuel : data.length + s.fd.replies.length ≤ fuel)
    (h : Ready s done) (hmax : done.length + data.length ≤ offMax) :
    ∃ s', fileWriteLoop fuel data s = .ok () s' ∧ Ready s' (done ++ data) ∧
      (data.length = 0 → s' = s) ∧
      (0 < data.length → s'.fd.file.size = done.length + data.length) := by
  induction fuel generalizing s done data with
  | zero =>
      have hnil : data = [] := List.length_eq_zero_iff.1 (by omega)
      subst hnil
      exact ⟨s, rfl, by rwa [List.append_nil], fun _ => rfl, fun h => absurd h (by simp)⟩
  | succ fuel ih =>
      by_cases hdata : data.length = 0
      · have hnil := List.length_eq_zero_iff.1 hdata
        subst hnil
        exact ⟨s, rfl, by rwa [List.append_nil], fun _ => rfl, fun h => absurd h (by simp)⟩
      · have hpos := h.pos
        have hput : ∀ replies ret, 0 < ret → replies.length ≤ s.fd.replies.length →
            s.fd.write data = s.fd.put replies data ret →
            ∃ s', fileWriteLoop (fuel + 1) data s = .ok () s' ∧ Ready s' (done ++ data) ∧
              (data.length = 0 → s' = s) ∧
              (0 < data.length → s'.fd.file.size = done.length + data.length) := by
          intro replies ret hret hle hwrite
          obtain ⟨n, fd, hfd, hpos', hn, hleft, hready, hfile⟩ :=
            h.put hret (Nat.pos_of_ne_zero hdata) hmax replies
          have hdrop : (data.drop n).length = data.length - n := List.length_drop
          have htake : (data.take n).length = n := by
            rw [List.length_take]
            omega
          obtain ⟨s', hloop, hready', hsame, hsize⟩ := @ih _ (done ++ data.take n) (data.drop n)
            (by rw [hdrop]; dsimp only; rw [hleft]; omega) hready
            (by rw [List.length_append, htake, hdrop]; omega)
          rw [List.append_assoc, List.take_append_drop] at hready'
          rw [List.length_append, htake, hdrop] at hsize
          refine ⟨s', ?_, hready', fun h0 => absurd h0 hdata, fun _ => ?_⟩
          · rw [fileWriteLoop_wrote hdata (by rw [hwrite, hfd]) (by omega), hloop]
          · by_cases hall : n = data.length
            · rw [hsame (by omega), ← hall]
              exact hfile
            · have hsize' := hsize (by omega)
              omega
        cases hreplies : s.fd.replies with
        | nil =>
            apply hput [] data.length (by omega) (by simp)
            rw [Descriptor.write, if_neg (by omega), hreplies]
        | cons reply replies =>
            cases reply with
            | short more =>
                apply hput replies (more + 1) (by omega) (by simp [hreplies])
                rw [Descriptor.write, if_neg (by omega), hreplies]
            | interrupted =>
                have hwrite : s.fd.write data = (.eintr, { s.fd with replies := replies }) := by
                  rw [Descriptor.write, if_neg (by omega), hreplies]
                have hready : Ready { s with fd := { s.fd with replies := replies } } done :=
                  ⟨h.size, h.count, h.pos, h.file_size, h.data⟩
                rw [hreplies, List.length_cons] at hfuel
                obtain ⟨s', hloop, hready', -, hsize⟩ := ih (by dsimp only; omega) hready hmax
                refine ⟨s', ?_, hready', fun h0 => absurd h0 hdata, hsize⟩
                rw [fileWriteLoop_eintr hdata hwrite, hloop]

theorem Consistent.fileAppend (h : Consistent s done) (hmax : done.length + data.length ≤ offMax) :
    ∃ s', fileAppend data s = .ok () s' ∧ Consistent s' (done ++ data) := by
  have hpos := h.pos
  by_cases hdata : data.length = 0
  · have hnil := List.length_eq_zero_iff.1 hdata
    subst hnil
    exact ⟨s, rfl, by rwa [List.append_nil]⟩
  · have hloop : ∀ t : FileOstream, Ready t done →
        ∃ s', fileWriteLoop (data.length + t.fd.replies.length) data t = .ok () s' ∧
          Consistent s' (done ++ data) := by
      intro t ht
      obtain ⟨s', hok, hready, -, hsize⟩ := fileWriteLoop_eq (Nat.le_refl _) ht hmax
      refine ⟨s', hok, ⟨hready.size, ?_, ?_, hready.file_size, ?_, hready.data⟩⟩
      · exact Int.le_of_eq hready.count.symm
      · rw [hready.count, hready.pos]
        simp
      · intro _
        rw [hsize (Nat.pos_of_ne_zero hdata), List.length_append]
    unfold Fstream.fileAppend
    rw [if_neg hdata]
    by_cases hcount : s.sparseCount > 0
    · have hseek : s.fd.lseekCur s.sparseCount = some { s.fd with pos := done.length } := by
        have hto : (s.fd.pos + s.sparseCount).toNat = done.length := by omega
        rw [Descriptor.lseekCur, if_pos (by omega), hto]
      rw [if_pos hcount, hseek]
      exact hloop ⟨{ s.fd with pos := done.length }, 0, s.size⟩
        ⟨h.size, rfl, rfl, h.file_size, h.data⟩
    · have hzero : s.sparseCount = 0 := by
        have hnonneg := h.count_nonneg
        omega
      rw [if_neg hcount]
      exact hloop s ⟨h.size, hzero, by omega, h.file_size, h.data⟩

theorem Consistent.fileAppendSparse (h : Consistent s done) {size : Nat}
    (hmax : done.length + size ≤ offMax) :
    ∃ s', fileAppendSparse size s = .ok () s' ∧ Consistent s' (done ++ List.replicate size 0) := by
  have hpos := h.pos
  have hnonneg := h.count_nonneg
  have hcount : off64 (s.sparseCount + size) = s.sparseCount + size :=
    off64_of_le (by omega) (by omega)
  have hsize : off64 (s.size + size) = s.size + size := by
    rw [h.size]
    exact off64_of_le (by omega) (by omega)
  have hok : Fstream.fileAppendSparse size s =
      .ok () ⟨s.fd, s.sparseCount + size, s.size + size⟩ := by
    unfold Fstream.fileAppendSparse
    rw [Call.modify_apply, hcount, hsize]
  have hfile := h.file_size
  refine ⟨_, hok, ⟨?_, ?_, ?_, ?_, ?_, ?_⟩⟩
  · simp [h.size]
  · exact Int.add_nonneg hnonneg (Int.natCast_nonneg size)
  · simp
    omega
  · simp
    omega
  · intro hzero
    dsimp only at hzero ⊢
    rw [h.reached (by omega), List.length_append, List.length_replicate]
    omega
  · intro p
    rw [getD_append_replicate]
    exact h.data p

/-- Zeros in chunks, on a stream that keeps what it is given. -/
theorem appendSparseFallback_eq {σ : Type} {append : List UInt8 → Call σ Unit}
    {I : σ → List UInt8 → Prop} {limit : Nat}
    (happend : ∀ t done data, I t done → done.length + data.length ≤ limit →
      ∃ t', append data t = .ok () t' ∧ I t' (done ++ data))
    (size : Nat) {t : σ} (h : I t done) (hmax : done.length + size ≤ limit) :
    ∃ t', appendSparseFallback append size t = .ok () t' ∧
      I t' (done ++ List.replicate size 0) := by
  induction size using Nat.strongRecOn generalizing t done with
  | _ size ih =>
      rw [appendSparseFallback]
      by_cases hsize : size = 0
      · subst hsize
        exact ⟨t, rfl, by simpa using h⟩
      · rw [if_neg hsize]
        generalize hdiff : (if size < 512 then size else 512) = diff
        have hle : diff ≤ size ∧ 0 < diff := by
          split at hdiff <;> omega
        obtain ⟨t', hok, ht'⟩ := happend t done (List.replicate diff 0) h
          (by rw [List.length_replicate]; omega)
        obtain ⟨t'', hok', ht''⟩ := ih (size - diff) (by omega) ht'
          (by rw [List.length_append, List.length_replicate]; omega)
        refine ⟨t'', ?_, ?_⟩
        · rw [Call.bind_apply, hok, Outcome.bind_ok, hok']
        · rwa [List.append_assoc, List.replicate_append_replicate,
            Nat.add_sub_cancel' hle.1] at ht''

theorem Consistent.fileFlush (h : Consistent s done) (hmax : done.length ≤ offMax) :
    ∃ s', fileFlush s = .ok () s' ∧ Consistent s' done ∧ s'.fd.file.size = done.length := by
  have hnonneg := h.count_nonneg
  unfold Fstream.fileFlush
  by_cases hcount : s.sparseCount > 0
  · have hcut : s.fd.ftruncate s.size =
        some { s.fd with file := s.fd.file.ftruncate done.length } := by
      rw [Descriptor.ftruncate, h.size, if_pos (by omega), Int.toNat_natCast]
    rw [if_pos hcount, hcut]
    refine ⟨_, rfl, ⟨h.size, h.count_nonneg, h.pos, Nat.le_refl _, fun _ => rfl, ?_⟩, rfl⟩
    intro p
    dsimp only
    rw [OsFile.ftruncate_data]
    split
    · exact h.data p
    · exact (List.getD_eq_default _ _ (by omega)).symm
  · rw [if_neg hcount]
    exact ⟨s, rfl, h, h.reached (by omega)⟩

end File

/-! ## Runs -/

@[simp] theorem StreamOp.length_bytes (op : StreamOp) : op.bytes.length = op.size := by
  cases op <;> simp [bytes, size]

@[simp] theorem contents_cons (op : StreamOp) (ops : List StreamOp) :
    contents (op :: ops) = op.bytes ++ contents ops := rfl

@[simp] theorem totalSize_cons (op : StreamOp) (ops : List StreamOp) :
    totalSize (op :: ops) = op.size + totalSize ops := rfl

theorem length_contents (ops : List StreamOp) : (contents ops).length = totalSize ops := by
  induction ops with
  | nil => rfl
  | cons op ops ih => rw [contents_cons, List.length_append, ih, op.length_bytes, totalSize_cons]

section Run

variable {σ : Type} {step : StreamOp → Call σ Unit}

theorem runStream_append (ops ops' : List StreamOp) (t : σ) :
    runStream step (ops ++ ops') t = (runStream step ops t).bind fun _ => runStream step ops' := by
  induction ops generalizing t with
  | nil => rfl
  | cons op ops ih =>
      rw [List.cons_append, runStream, runStream, Call.bind_apply, Call.bind_apply]
      cases step op t with
      | ok a t' => exact ih t'
      | fail t' => rfl
      | stuck => rfl

/-- A run keeps what every call keeps. -/
theorem runStream_eq {I : σ → List UInt8 → Prop} {limit : Nat}
    (hstep : ∀ op t done, I t done → done.length + op.size ≤ limit →
      ∃ t', step op t = .ok () t' ∧ I t' (done ++ op.bytes))
    (ops : List StreamOp) {t : σ} {done : List UInt8} (h : I t done)
    (hmax : done.length + totalSize ops ≤ limit) :
    ∃ t', runStream step ops t = .ok () t' ∧ I t' (done ++ contents ops) := by
  induction ops generalizing t done with
  | nil => exact ⟨t, rfl, by simpa [contents] using h⟩
  | cons op ops ih =>
      rw [totalSize_cons] at hmax
      obtain ⟨t', hok, ht'⟩ := hstep op t done h (by omega)
      obtain ⟨t'', hok', ht''⟩ := ih ht' (by rw [List.length_append, op.length_bytes]; omega)
      refine ⟨t'', ?_, ?_⟩
      · rw [runStream, Call.bind_apply, hok, Outcome.bind_ok, hok']
      · rwa [contents_cons, ← List.append_assoc]

end Run

theorem Consistent.fileStep {s : FileOstream} {done : List UInt8} (h : Consistent s done)
    (sparse : Bool) (op : StreamOp) (hmax : done.length + op.size ≤ offMax) :
    ∃ s', fileStep sparse op s = .ok () s' ∧ Consistent s' (done ++ op.bytes) := by
  cases op with
  | append data => exact h.fileAppend hmax
  | appendSparse size =>
      cases sparse with
      | true => exact h.fileAppendSparse hmax
      | false =>
          exact appendSparseFallback_eq (fun t done data ht hdata => ht.fileAppend hdata) size h
            hmax
  | flush =>
      obtain ⟨s', hok, hs', -⟩ := h.fileFlush hmax
      exact ⟨s', hok, by simpa [StreamOp.bytes] using hs'⟩

theorem consistent_openedFile (replies : List WriteReply) :
    Consistent (openedFile replies) [] :=
  ⟨rfl, Int.le_refl _, rfl, Nat.le_refl _, fun _ => rfl, fun _ => rfl⟩

/-- Behind a last flush a file shows what the stream has been given. -/
theorem fileStream_shows (sparse : Bool) (replies : List WriteReply) (ops : List StreamOp)
    (hmax : totalSize ops ≤ offMax) :
    ∃ s, runStream (fileStep sparse) (ops ++ [.flush]) (openedFile replies) = .ok () s ∧
      Shows s.fd.file (contents ops) := by
  obtain ⟨s, hok, hs⟩ := runStream_eq (fun op t done ht => ht.fileStep sparse op) ops
    (consistent_openedFile replies) (by simpa using hmax)
  rw [List.nil_append] at hs
  obtain ⟨s', hok', hs', hsize⟩ := hs.fileFlush (by rw [length_contents]; exact hmax)
  refine ⟨s', ?_, hsize, ?_⟩
  · rw [runStream_append, hok, Outcome.bind_ok, runStream, Call.bind_apply]
    change (fileFlush s).bind _ = _
    rw [hok']
    rfl
  · rw [hsize]
    apply List.ext_getElem
    · simp
    · intro i hi hi'
      rw [Bytes.getElem_slice, Nat.zero_add, hs'.data, List.getD_eq_getElem _ _ hi']

/-! ## Sizes -/

/-- Position and size are an `off_t`. -/
def Descriptor.InRange (fd : Descriptor) : Prop := fd.pos ≤ offMax ∧ fd.file.size ≤ offMax

section Sizes

variable {fd : Descriptor}

theorem Descriptor.InRange.put (h : fd.InRange) (replies : List WriteReply) (data : List UInt8)
    (ret : Nat) : (fd.put replies data ret).2.InRange := by
  obtain ⟨hpos, hsize⟩ := h
  have hlength : (data.take (min ret (offMax - fd.pos))).length ≤ offMax - fd.pos :=
    (List.length_take_le _ _).trans (Nat.min_le_right _ _)
  unfold Descriptor.put
  constructor
  · dsimp only
    omega
  · dsimp only
    unfold OsFile.pwrite
    dsimp only
    split
    · exact hsize
    · omega

theorem Descriptor.InRange.write (h : fd.InRange) (data : List UInt8) :
    (fd.write data).2.InRange := by
  unfold Descriptor.write
  split
  · exact h
  · split
    · exact h.put _ _ _
    · exact h.put _ _ _
    · exact h

theorem Descriptor.InRange.lseekCur {fd' : Descriptor} {off : Int} (h : fd.InRange)
    (hseek : fd.lseekCur off = some fd') : fd'.InRange := by
  unfold Descriptor.lseekCur at hseek
  split at hseek
  · rename_i hin
    cases hseek
    exact ⟨by dsimp only; omega, h.2⟩
  · cases hseek

theorem Descriptor.InRange.ftruncate {fd' : Descriptor} {length : Int} (h : fd.InRange)
    (hcut : fd.ftruncate length = some fd') : fd'.InRange := by
  unfold Descriptor.ftruncate at hcut
  split at hcut
  · rename_i hin
    cases hcut
    refine ⟨h.1, ?_⟩
    change length.toNat ≤ offMax
    omega
  · cases hcut

theorem keeps_fileWriteLoop (fuel : Nat) (data : List UInt8) :
    Call.Keeps (fun s : FileOstream => s.fd.InRange) (fileWriteLoop fuel data) := by
  induction fuel generalizing data with
  | zero => exact Call.Keeps.ite (.pure _) .stuck
  | succ fuel ih =>
      intro s hs
      have hwrite := hs.write data
      rw [fileWriteLoop]
      split
      · exact hs
      · dsimp only
        split
        · rename_i ret fd hfd
          rw [hfd] at hwrite
          split
          · exact hwrite
          · exact ih _ _ hwrite
        · rename_i fd hfd
          rw [hfd] at hwrite
          exact ih _ _ hwrite
        · rename_i fd hfd
          rw [hfd] at hwrite
          exact hwrite

theorem keeps_fileAppend (data : List UInt8) :
    Call.Keeps (fun s : FileOstream => s.fd.InRange) (fileAppend data) := by
  intro s hs
  unfold fileAppend
  split
  · exact hs
  · split
    · split
      · exact hs
      · rename_i fd hseek
        exact keeps_fileWriteLoop _ _ _ (hs.lseekCur hseek)
    · exact keeps_fileWriteLoop _ _ _ hs

theorem keeps_appendSparseFallback {σ : Type} {P : σ → Prop} {append : List UInt8 → Call σ Unit}
    (h : ∀ data, Call.Keeps P (append data)) (size : Nat) :
    Call.Keeps P (appendSparseFallback append size) := by
  induction size using Nat.strongRecOn with
  | _ size ih =>
      rw [appendSparseFallback]
      by_cases hsize : size = 0
      · rw [if_pos hsize]
        exact .pure _
      · rw [if_neg hsize]
        refine .bind (h _) fun _ => ih _ ?_
        split <;> omega

theorem keeps_fileStep (sparse : Bool) (op : StreamOp) :
    Call.Keeps (fun s : FileOstream => s.fd.InRange) (fileStep sparse op) := by
  cases op with
  | append data => exact keeps_fileAppend data
  | appendSparse size =>
      cases sparse with
      | true => exact fun _ hs => hs
      | false => exact keeps_appendSparseFallback keeps_fileAppend size
  | flush =>
      intro s hs
      change Call.Returns (fileFlush s) _ _
      unfold fileFlush
      split
      · split
        · exact hs
        · rename_i fd hcut
          exact hs.ftruncate hcut
      · exact hs

theorem keeps_runStream {σ : Type} {P : σ → Prop} {step : StreamOp → Call σ Unit}
    (h : ∀ op, Call.Keeps P (step op)) (ops : List StreamOp) :
    Call.Keeps P (runStream step ops) := by
  induction ops with
  | nil => exact .pure _
  | cons op ops ih => exact .bind (h op) fun _ => ih

/-- What no `off_t` counts is in no file. -/
theorem not_shows_of_large {sparse : Bool} {replies : List WriteReply} {ops : List StreamOp}
    {s : FileOstream} {data : List UInt8} (hlarge : offMax < data.length)
    (h : runStream (fileStep sparse) ops (openedFile replies) = .ok () s) :
    ¬ Shows s.fd.file data := by
  intro hshows
  have hrange : (openedFile replies).fd.InRange := ⟨Nat.zero_le _, Nat.zero_le _⟩
  have hkept := keeps_runStream (keeps_fileStep sparse) ops _ hrange
  rw [h] at hkept
  exact absurd hlarge (Nat.not_lt.2 (hshows.1 ▸ hkept.2))

end Sizes

end ImageTool.Fstream
