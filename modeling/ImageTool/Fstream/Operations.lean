import ImageTool.Fstream.GetLine
import ImageTool.Lib.Run

/-!
# Interleaved operations on a stream

The four ways of taking bytes out of a stream, in any order and of any sizes.
-/

namespace ImageTool.Fstream

open ImageTool.Lib

/-- What can be asked of a stream. -/
inductive Operation where
  | read (size : Nat)
  | skip (size : Nat)
  | precache
  | getLine (flags : LineFlags) (lineNum : Nat)

/-- What a stream answers. -/
inductive Reply where
  | data (bytes : List UInt8)
  | done
  | failed
  | line (out : Option (List UInt8)) (lineNum : Nat)
  deriving DecidableEq

namespace Istream

variable {ι : Type} (callback : Call (Istream ι) Unit) (fuel : Nat)

/-- One operation. -/
def operate : Operation → Call (Istream ι) Reply
  | .read size => do
      let bytes ← read callback size
      pure (.data bytes)
  | .skip size => do
      skip callback size
      pure .done
  | .precache => do
      precache callback
      pure .done
  | .getLine flags lineNum => do
      let out ← getLine callback fuel flags lineNum
      pure (.line out.1 out.2)

/-- The operations in turn, also after one that fails; `none` when one does not return. -/
def operateAll : List Operation → Istream ι → Option (List Reply × Istream ι)
  | [], strm => some ([], strm)
  | op :: ops, strm =>
      match operate callback fuel op strm with
      | .ok reply strm' => (operateAll ops strm').map fun out => (reply :: out.1, out.2)
      | .fail strm' => (operateAll ops strm').map fun out => (.failed :: out.1, out.2)
      | .stuck => none

/-- No byte is unread, or the end is known. -/
def UsedUp (strm : Istream ι) : Prop := strm.unread = [] ∨ strm.eof = true

instance : DecidablePred (UsedUp (ι := ι)) := fun strm =>
  inferInstanceAs (Decidable (strm.unread = [] ∨ strm.eof = true))

/-- Every state in which an operation calls `istream_precache` has `Q`.  A read and a skip call it
where the buffer is used up, and nowhere else. -/
def AskedIn (Q : Istream ι → Prop) (strm : Istream ι) : Operation → Prop
  | .read _ => True
  | .skip _ => True
  | .precache => Q strm
  | .getLine flags _ => AskedInLine callback Q flags fuel [] strm

instance (Q : Istream ι → Prop) [DecidablePred Q] (strm : Istream ι) (op : Operation) :
    Decidable (AskedIn callback fuel Q strm op) := by
  cases op <;> unfold AskedIn <;> infer_instance

/-! ## What the operations take out of the stream -/

/-- An operation takes `chunk` out of `chunk ++ rest`.  Only where nothing is left does it
report the end: a read by returning less than it was asked for, a skip by failing, and
`istream_get_line` by returning no line. -/
inductive Delivers : Operation → Reply → List UInt8 → List UInt8 → Prop where
  | read {size bytes rest} : bytes.length = min size readLimit ∨
      bytes.length < min size readLimit ∧ rest = [] → Delivers (.read size) (.data bytes) bytes rest
  | skip {size chunk rest} : chunk.length = size → Delivers (.skip size) .done chunk rest
  | skipFailed {size chunk} : chunk.length < size → Delivers (.skip size) .failed chunk []
  | precache {rest} : Delivers .precache .done [] rest
  | getLine {flags lineNum chunk rest out n} : TakesLine flags chunk rest out n →
      Delivers (.getLine flags lineNum) (.line out (lineNum + n)) chunk rest

/-- The operations and their replies take the content of a stream apart, from its beginning
on and without a gap, up to what is left. -/
inductive Transcript : List UInt8 → List Operation → List Reply → List UInt8 → Prop where
  | nil {rest} : Transcript rest [] [] rest
  | cons {op reply chunk rest ops replies rest'} : Delivers op reply chunk rest →
      Transcript rest ops replies rest' →
      Transcript (chunk ++ rest) (op :: ops) (reply :: replies) rest'

variable {callback} {fuel} {holds : Istream ι → List UInt8 → Prop} {Q : Istream ι → Prop}
variable {strm : Istream ι} {rest : List UInt8}

/-- An operation that returns: its reply, or a failure. -/
def Operates (callback : Call (Istream ι) Unit) (fuel : Nat) (op : Operation)
    (strm : Istream ι) (reply : Reply) (strm' : Istream ι) : Prop :=
  operate callback fuel op strm = .ok reply strm' ∨
    operate callback fuel op strm = .fail strm' ∧ reply = .failed

theorem Serves.operate (h : Serves callback holds Q) (op : Operation) (hold : holds strm rest)
    (hfuel : rest.length < fuel) (hasked : AskedIn callback fuel Q strm op) :
    ∃ reply strm' chunk rest', rest = chunk ++ rest' ∧
      Operates callback fuel op strm reply strm' ∧ holds strm' rest' ∧
        Delivers op reply chunk rest' := by
  cases op with
  | read size =>
      obtain ⟨strm', hread, hold'⟩ := h.toRefills.read size hold
      refine ⟨.data (rest.take (min size readLimit)), strm', _, _,
        (List.take_append_drop ..).symm, Or.inl ?_, hold', .read ?_⟩
      · change (Istream.read callback size strm).bind _ = _
        rw [hread]
        rfl
      · rw [List.length_take]
        rcases Nat.lt_or_ge rest.length (min size readLimit) with hlt | hle
        · right
          exact ⟨by omega, List.drop_eq_nil_of_le (Nat.le_of_lt hlt)⟩
        · exact Or.inl (Nat.min_eq_left hle)
  | skip size =>
      obtain ⟨strm', hold', hskip⟩ := h.toRefills.skip size hold
      by_cases hle : size ≤ rest.length
      · refine ⟨.done, strm', _, _, (List.take_append_drop size rest).symm, Or.inl ?_, hold',
          .skip (List.length_take_of_le hle)⟩
        change (Istream.skip callback size strm).bind _ = _
        rw [hskip, if_pos hle]
        rfl
      · have hnil : rest.drop size = [] := List.drop_eq_nil_of_le (Nat.le_of_not_le hle)
        rw [hnil] at hold'
        refine ⟨.failed, strm', rest, [], (List.append_nil rest).symm, Or.inr ⟨?_, rfl⟩, hold',
          .skipFailed (Nat.lt_of_not_le hle)⟩
        change (Istream.skip callback size strm).bind _ = _
        rw [hskip, if_neg hle]
        rfl
  | precache =>
      obtain ⟨strm', hcall, hold', -, -⟩ := h.precache strm rest hold hasked
      refine ⟨.done, strm', [], rest, rfl, Or.inl ?_, hold', .precache⟩
      change (Istream.precache callback strm).bind _ = _
      rw [hcall]
      rfl
  | getLine flags lineNum =>
      obtain ⟨out, n, strm', chunk, rest', hchunk, hloop, hold', htakes⟩ :=
        h.getLineLoop flags fuel [] lineNum hold List.not_mem_nil hfuel hasked
      refine ⟨.line out (lineNum + n), strm', chunk, rest', hchunk, Or.inl ?_, hold',
        .getLine htakes⟩
      change (Istream.getLineLoop callback flags fuel [] lineNum strm).bind _ = _
      rw [hloop]
      rfl

theorem Operates.state {op : Operation} {reply : Reply} {strm' : Istream ι}
    (h : Operates callback fuel op strm reply strm') :
    (Istream.operate callback fuel op strm).state? = some strm' := by
  rcases h with hok | ⟨hfail, -⟩
  · rw [hok]
    rfl
  · rw [hfail]
    rfl

theorem operateAll_cons {op : Operation} {ops : List Operation} {reply : Reply}
    {strm' : Istream ι} (h : Operates callback fuel op strm reply strm') :
    operateAll callback fuel (op :: ops) strm =
      (operateAll callback fuel ops strm').map fun out => (reply :: out.1, out.2) := by
  rw [operateAll]
  rcases h with hok | ⟨hfail, rfl⟩
  · rw [hok]
  · rw [hfail]

/-- Any operations on a stream that serves them deliver what it holds. -/
theorem Serves.operateAll (h : Serves callback holds Q) (ops : List Operation)
    (hold : holds strm rest) (hfuel : rest.length < fuel)
    (hasked : Along (Istream.operate callback fuel) (AskedIn callback fuel Q) ops strm) :
    ∃ replies strm' rest', operateAll callback fuel ops strm = some (replies, strm') ∧
      holds strm' rest' ∧ Transcript rest ops replies rest' := by
  induction ops generalizing strm rest with
  | nil => exact ⟨[], strm, rest, rfl, hold, .nil⟩
  | cons op ops ih =>
      obtain ⟨hfirst, hlater⟩ := hasked
      obtain ⟨reply, strm₁, chunk, rest₁, rfl, hop, hold₁, hdelivers⟩ :=
        h.operate op hold hfuel hfirst
      have hshort : rest₁.length < fuel := by
        rw [List.length_append] at hfuel
        omega
      rw [hop.state] at hlater
      obtain ⟨replies, strm', rest', hsome, hold', hrest⟩ := ih hold₁ hshort hlater
      refine ⟨reply :: replies, strm', rest', ?_, hold', .cons hdelivers hrest⟩
      rw [operateAll_cons hop, hsome]
      rfl

/-- Where a stream may be asked for more at any time, all states do. -/
theorem along_true (ops : List Operation) (strm : Istream ι) :
    Along (Istream.operate callback fuel) (AskedIn callback fuel fun _ => True) ops strm := by
  refine Along.of_forall (fun op _ strm => ?_) strm
  cases op with
  | getLine flags lineNum => exact askedInLine_true flags fuel []
  | _ => trivial

end Istream

end ImageTool.Fstream
