import ImageTool.Fstream.Istream

/-!
# File streams

An input stream over an open file.  A call of `read` may return fewer bytes than it was
asked for, or be interrupted; which calls do is up to the system.
-/

namespace ImageTool.Fstream

open ImageTool.Lib

/-- How the system serves a call of `read`: with at most so many bytes after the first
one, with `EINTR`, or with another error. -/
inductive ReadAnswer where
  | short (more : Nat)
  | eintr
  | error
  deriving DecidableEq

/-- What a call of `read` returns. -/
inductive ReadResult where
  | data (bytes : List UInt8)
  | eintr
  | error

/-- The fields of `file_istream_t` behind the stream: the file descriptor stands for the
bytes it has yet to deliver and for the answers of the system; calls beyond them are served
in full. -/
structure FileIstream where
  rest : List UInt8
  answers : List ReadAnswer
  eof : Bool

namespace FileIstream

/-- `read(file->fd, ..., n)`. -/
def sysRead (file : FileIstream) (n : Nat) : ReadResult × FileIstream :=
  match file.answers with
  | [] => (.data (file.rest.take n), { file with rest := file.rest.drop n })
  | .short more :: answers =>
      (.data (file.rest.take (min n (more + 1))),
        { file with rest := file.rest.drop (min n (more + 1)), answers := answers })
  | .eintr :: answers => (.eintr, { file with answers := answers })
  | .error :: answers => (.error, { file with answers := answers })

/-- The loop of `file_precache`. -/
def precacheLoop : Nat → Call (Istream FileIstream) Unit
  | 0 => Call.stuck
  | fuel + 1 => fun strm =>
      if strm.buffer.length < bufsz then
        match strm.inner.sysRead (bufsz - strm.buffer.length) with
        | (.data [], file) => .ok () { strm with inner := { file with eof := true } }
        | (.data (b :: bytes), file) =>
            precacheLoop fuel { strm with buffer := strm.buffer ++ b :: bytes, inner := file }
        | (.eintr, file) => precacheLoop fuel { strm with inner := file }
        | (.error, file) => .fail { strm with inner := file }
      else .ok () strm

/-- `file_precache`.  A round of its loop reads a byte or uses up an answer. -/
def precache : Call (Istream FileIstream) Unit := fun strm =>
  precacheLoop (bufsz + strm.inner.answers.length + 1) strm

/-- `istream_open_fd`. -/
def openFd (content : List UInt8) (answers : List ReadAnswer) : Istream FileIstream :=
  ⟨[], 0, false, content, answers, false⟩

/-- What a file stream has yet to deliver, as long as the file can be read. -/
structure Holds (strm : Istream FileIstream) (rest : List UInt8) : Prop where
  rest : rest = strm.unread ++ strm.inner.rest
  eof : strm.eof = false
  length : strm.buffer.length ≤ bufsz
  answers : ReadAnswer.error ∉ strm.inner.answers

theorem openFd_holds {content : List UInt8} {answers : List ReadAnswer}
    (h : ReadAnswer.error ∉ answers) : Holds (openFd content answers) content :=
  ⟨rfl, rfl, Nat.zero_le _, h⟩

/-- What a call of `read` leaves: it takes the next bytes, or is interrupted. -/
theorem sysRead_cases (file : FileIstream) {n : Nat} (hn : 0 < n)
    (h : ReadAnswer.error ∉ file.answers) :
    (∃ m file', 0 < m ∧ m ≤ n ∧ file.sysRead n = (.data (file.rest.take m), file') ∧
      file'.rest = file.rest.drop m ∧ file'.answers.length ≤ file.answers.length ∧
      ReadAnswer.error ∉ file'.answers) ∨
    ∃ file', file.sysRead n = (.eintr, file') ∧ file'.rest = file.rest ∧
      file'.answers.length < file.answers.length ∧ ReadAnswer.error ∉ file'.answers := by
  unfold sysRead
  cases hanswers : file.answers with
  | nil =>
      rw [hanswers] at h
      exact Or.inl ⟨n, _, hn, Nat.le_refl n, rfl, rfl, Nat.le_refl _, h⟩
  | cons answer answers =>
      rw [hanswers, List.mem_cons, not_or] at h
      cases answer with
      | short more =>
          exact Or.inl ⟨min n (more + 1), _, by omega, Nat.min_le_left .., rfl, rfl,
            Nat.le_succ _, h.2⟩
      | eintr => exact Or.inr ⟨_, rfl, rfl, Nat.lt_succ_self _, h.2⟩
      | error => exact absurd rfl h.1

/-- The buffer is filled as far as the file goes. -/
theorem precacheLoop_holds (fuel : Nat) (strm : Istream FileIstream) (rest : List UInt8)
    (h : Holds strm rest) (hoff : strm.bufferOffset = 0)
    (hfuel : bufsz + strm.inner.answers.length < fuel + strm.buffer.length) :
    ∃ strm', precacheLoop fuel strm = .ok () strm' ∧ Holds strm' rest ∧
      strm'.bufferOffset = 0 ∧ (strm'.buffer = [] → rest = []) := by
  induction fuel generalizing strm with
  | zero =>
      have hlen := h.length
      omega
  | succ fuel ih =>
      have hunread : strm.unread = strm.buffer := by
        unfold Istream.unread
        rw [hoff, List.drop_zero]
      by_cases hfull : strm.buffer.length < bufsz
      · rcases sysRead_cases strm.inner (Nat.sub_pos_of_lt hfull) h.answers with
          ⟨m, file', hm, hmn, hread, hrest, hanswers, hno⟩ | ⟨file', hread, hrest, hanswers, hno⟩
        · cases htaken : strm.inner.rest.take m with
          | nil =>
              have hend : strm.inner.rest = [] :=
                (List.take_eq_nil_iff.1 htaken).resolve_left (by omega)
              rw [htaken] at hread
              refine ⟨{ strm with inner := { file' with eof := true } }, ?_, ?_, hoff, ?_⟩
              · rw [precacheLoop]
                simp only [if_pos hfull, hread]
              · refine ⟨?_, h.eof, h.length, hno⟩
                change rest = strm.unread ++ file'.rest
                rw [h.rest, hrest, hend, List.drop_nil]
              · intro hnil
                rw [h.rest, hunread, hend, List.append_nil]
                exact hnil
          | cons b bytes =>
              rw [htaken] at hread
              have hlen := congrArg List.length htaken
              rw [List.length_take, List.length_cons] at hlen
              have hgrown : (strm.buffer ++ b :: bytes).length =
                  strm.buffer.length + (bytes.length + 1) := List.length_append
              obtain ⟨strm', hloop, hholds, hoff', hempty⟩ :=
                ih { strm with buffer := strm.buffer ++ b :: bytes, inner := file' }
                  ⟨by
                    change rest = (strm.buffer ++ b :: bytes).drop strm.bufferOffset ++ file'.rest
                    rw [h.rest, hunread, hoff, List.drop_zero, hrest, ← htaken,
                      List.append_assoc, List.take_append_drop], h.eof, by
                    change (strm.buffer ++ b :: bytes).length ≤ bufsz
                    omega, hno⟩ hoff (by
                    change bufsz + file'.answers.length < fuel + (strm.buffer ++ b :: bytes).length
                    omega)
              refine ⟨strm', ?_, hholds, hoff', hempty⟩
              rw [precacheLoop]
              simp only [if_pos hfull, hread]
              exact hloop
        · obtain ⟨strm', hloop, hholds, hoff', hempty⟩ := ih { strm with inner := file' }
            ⟨by
              change rest = strm.unread ++ file'.rest
              rw [h.rest, hrest], h.eof, h.length, hno⟩ hoff (by
              change bufsz + file'.answers.length < fuel + strm.buffer.length
              omega)
          refine ⟨strm', ?_, hholds, hoff', hempty⟩
          rw [precacheLoop]
          simp only [if_pos hfull, hread]
          exact hloop
      · refine ⟨strm, ?_, h, hoff, ?_⟩
        · rw [precacheLoop]
          exact if_neg hfull
        · intro hnil
          rw [hnil] at hfull
          exact absurd (by decide) hfull

/-- A file stream delivers the bytes of the file. -/
theorem carries : Istream.Carries precache Holds where
  unread strm rest h := by
    rw [h.rest]
    exact List.prefix_append ..
  consume strm rest n h hn := by
    refine ⟨?_, h.eof, h.length, h.answers⟩
    rw [h.rest, List.drop_append_of_le_length hn]
    change strm.unread.drop n ++ _ = strm.buffer.drop (strm.bufferOffset + n) ++ _
    unfold Istream.unread
    rw [List.drop_drop]
    rfl
  precache strm rest h := by
    have hunread : Holds { strm with buffer := strm.unread, bufferOffset := 0 } rest := by
      refine ⟨h.rest, h.eof, ?_, h.answers⟩
      have hlen := h.length
      change strm.unread.length ≤ bufsz
      rw [Istream.length_unread]
      omega
    rw [Istream.precache, Istream.compact_eq, if_neg (by
      rw [h.eof]
      exact Bool.false_ne_true)]
    apply precacheLoop_holds _ _ rest hunread rfl
    change bufsz + strm.inner.answers.length <
      bufsz + strm.inner.answers.length + 1 + strm.unread.length
    omega
  eof strm rest h heof := by
    rw [h.eof] at heof
    cases heof

end FileIstream

end ImageTool.Fstream
