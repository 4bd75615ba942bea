import ImageTool.Fstream.GetLine
import Mathlib.Algebra.Order.Ring.Nat
import Mathlib.Data.List.TakeWhile

/-!
# The lines of a stream

A stream hands its bytes to `istream_get_line` in fills of the buffer.  The lines are those of the
bytes however the fills are cut, but for one place: a carriage return is kept where a buffer
without a newline ends with it and the next one begins with its newline.
-/

namespace ImageTool.Fstream

open ImageTool.Lib

/-! ## The lines of a text -/

/-- The lines of a text: what is between the newlines, without the carriage return directly before
one.  Behind the last newline there is a line if there are bytes. -/
def textLines (text : List UInt8) : List (List UInt8) :=
  (text.splitOn newline).dropLast.map dropReturn ++
    (text.splitOn newline).getLast?.toList.filter (· ≠ [])

/-- What is returned of the lines, one after another. -/
def LineFlags.returned (flags : LineFlags) (lines : List (List UInt8)) : List (List UInt8) :=
  (lines.filter fun line => ¬ flags.skips line).map (trim flags)

variable {flags : LineFlags} {line unread raw rest : List UInt8} {fills : List (List UInt8)}

@[simp] theorem textLines_nil : textLines [] = [] := rfl

theorem textLines_last (hraw : newline ∉ raw) (hne : raw ≠ []) : textLines raw = [raw] := by
  unfold textLines
  rw [List.splitOn_eq_singleton hraw]
  simp [hne]

theorem textLines_line (hraw : newline ∉ raw) (rest : List UInt8) :
    textLines (raw ++ newline :: rest) = dropReturn raw :: textLines rest := by
  have hsplit : (raw ++ newline :: rest).splitOn newline = raw :: rest.splitOn newline := by
    rw [List.splitOn_append_cons_of_beq _ _ (beq_self_eq_true _), List.splitOn_eq_singleton hraw]
    rfl
  have hrest : rest.splitOn newline ≠ [] := List.splitOn_ne_nil _ _
  unfold textLines
  rw [hsplit, List.dropLast_cons_of_ne_nil hrest, List.map_cons, List.cons_append,
    List.getLast?_cons_of_ne_nil hrest]

theorem LineFlags.returned_skip {lines : List (List UInt8)} (h : flags.skips line) :
    flags.returned (line :: lines) = flags.returned lines := by
  unfold returned
  rw [List.filter_cons_of_neg (by simpa using h)]

theorem LineFlags.returned_line {lines : List (List UInt8)} (h : ¬ flags.skips line) :
    flags.returned (line :: lines) = trim flags line :: flags.returned lines := by
  unfold returned
  rw [List.filter_cons_of_pos (by simpa using h), List.map_cons]

@[simp] theorem LineFlags.returned_nil : flags.returned [] = [] := rfl

/-! ## A stream in fills -/

/-- The fills that are left for a buffer: one that is empty is not filled with nothing. -/
def pending (buffer : List UInt8) (fills : List (List UInt8)) : List (List UInt8) :=
  if buffer = [] then fills.dropWhile List.isEmpty else fills

/-- The callback of a stream that comes in the given fills. -/
def fillBuffer : Call (Istream (List (List UInt8))) Unit := fun strm =>
  match pending strm.buffer strm.inner with
  | [] => .ok () { strm with eof := true, inner := [] }
  | fill :: fills => .ok () { strm with buffer := strm.buffer ++ fill, inner := fills }

/-- The stream before its first fill. -/
def inFills (fills : List (List UInt8)) : Istream (List (List UInt8)) := ⟨[], 0, false, fills⟩

theorem inFills_eof {fills : List (List UInt8)} (h : (inFills fills).eof = true) :
    (inFills fills).inner = [] :=
  absurd h Bool.false_ne_true

/-- Calls of `istream_get_line` up to the one that finds the end, and the lines they return. -/
inductive GetsLines {ι : Type} (callback : Call (Istream ι) Unit) (flags : LineFlags) :
    Istream ι → List (List UInt8) → Prop where
  | atEnd {strm strm' fuel n n'} :
      Istream.getLine callback fuel flags n strm = .ok (none, n') strm' →
      GetsLines callback flags strm []
  | line {strm strm' fuel n n' line lines} :
      Istream.getLine callback fuel flags n strm = .ok (some line, n') strm' →
      GetsLines callback flags strm' lines → GetsLines callback flags strm (line :: lines)

/-- What the loop makes of the fills: the lines before they are trimmed, with a part of a line
collected and bytes unread. -/
def linesRead : List UInt8 → List UInt8 → List (List UInt8) → List (List UInt8)
  | line, unread, [] => textLines (line ++ unread)
  | line, unread, fill :: fills =>
      let buffer := unread ++ fill
      let i := buffer.findIdx (· == newline)
      if i < buffer.length then
        (line ++ dropReturn (buffer.take i)) :: linesRead [] (buffer.drop (i + 1)) fills
      else linesRead (line ++ buffer) [] fills

/-- The carriage return at the end of what has been collected would be seen in the line. -/
def LineFlags.Shows (flags : LineFlags) (line : List UInt8) : Prop :=
  line.getLast? = some carriageReturn ∧ flags.rtrim = false ∧
    ¬ (flags.ltrim = true ∧ Fstream.ltrim line = [])

/-- No buffer begins with the newline of a carriage return that has been collected already and
would be seen. -/
def NoneTorn (flags : LineFlags) : List UInt8 → List UInt8 → List (List UInt8) → Prop
  | _, _, [] => True
  | line, unread, fill :: fills =>
      let buffer := unread ++ fill
      let i := buffer.findIdx (· == newline)
      if i < buffer.length then
        (i = 0 → ¬ flags.Shows line) ∧ NoneTorn flags [] (buffer.drop (i + 1)) fills
      else NoneTorn flags (line ++ buffer) [] fills

/-! ## The carriage return of a line -/

theorem cString_eq (h : 0 ∉ line) : cString line = line := by
  apply List.takeWhile_eq_self_iff.2
  intro b hb
  simp only [bne_iff_ne, ne_eq]
  rintro rfl
  exact h hb

theorem isSpace_carriageReturn : isSpace carriageReturn = true := by decide

theorem rtrim_return (line : List UInt8) : rtrim (line ++ [carriageReturn]) = rtrim line := by
  unfold rtrim
  rw [List.reverse_append, List.reverse_singleton, List.singleton_append,
    List.dropWhile_cons_of_pos isSpace_carriageReturn]

theorem ltrim_return (line : List UInt8) :
    ltrim (line ++ [carriageReturn]) =
      if ltrim line = [] then [] else ltrim line ++ [carriageReturn] := by
  unfold ltrim
  rw [List.dropWhile_append, List.dropWhile_cons_of_pos isSpace_carriageReturn, List.dropWhile_nil]
  exact if_congr List.isEmpty_iff rfl rfl

/-- A carriage return that is not seen makes no difference. -/
theorem trim_dropReturn (hnul : 0 ∉ line) (h : ¬ flags.Shows line) :
    trim flags line = trim flags (dropReturn line) := by
  unfold dropReturn
  split
  · rename_i hlast
    obtain ⟨text, rfl⟩ : ∃ text, line = text ++ [carriageReturn] :=
      ⟨line.dropLast, (List.dropLast_append_getLast? _ hlast).symm⟩
    rw [List.dropLast_concat]
    have htext : 0 ∉ text := fun hmem => hnul (List.mem_append_left _ hmem)
    unfold trim
    rw [cString_eq hnul, cString_eq htext]
    dsimp only
    rw [ltrim_return]
    unfold LineFlags.Shows at h
    rw [ltrim_return] at h
    cases hr : flags.rtrim <;> cases hl : flags.ltrim <;> by_cases hspace : ltrim text = [] <;>
      simp_all [rtrim_return]
  · rfl

/-- A carriage return that is seen is the last byte of what is returned. -/
theorem trim_shows (hnul : 0 ∉ line) (h : flags.Shows line) :
    trim flags line = trim flags (dropReturn line) ++ [carriageReturn] := by
  obtain ⟨hlast, hr, hspace⟩ := h
  obtain ⟨text, rfl⟩ : ∃ text, line = text ++ [carriageReturn] :=
    ⟨line.dropLast, (List.dropLast_append_getLast? _ hlast).symm⟩
  have htext : 0 ∉ text := fun hmem => hnul (List.mem_append_left _ hmem)
  unfold dropReturn trim
  rw [if_pos hlast, List.dropLast_concat, cString_eq hnul, cString_eq htext]
  dsimp only
  rw [ltrim_return] at hspace ⊢
  rw [hr]
  cases hl : flags.ltrim with
  | false => rfl
  | true =>
      rw [hl] at hspace
      have hne : ltrim text ≠ [] := fun hnil => hspace ⟨rfl, if_pos hnil⟩
      rw [if_neg hne]
      rfl

/-! ## What the stream has -/

namespace Fills

/-- What the stream has yet to deliver. -/
def Holds (strm : Istream (List (List UInt8))) (rest : List UInt8) : Prop :=
  rest = strm.unread ++ strm.inner.flatten ∧ (strm.eof = true → strm.inner = [])

theorem pending_eq_nil {buffer : List UInt8} (h : pending buffer fills = []) :
    fills.flatten = [] := by
  unfold pending at h
  split at h
  · rw [List.flatten_eq_nil_iff]
    intro fill hfill
    exact List.isEmpty_iff.1 (List.dropWhile_eq_nil_iff.1 h fill hfill)
  · rw [h]
    rfl

/-- The next fill puts bytes into an empty buffer. -/
theorem append_ne_nil {buffer fill : List UInt8} {more : List (List UInt8)}
    (h : pending buffer fills = fill :: more) : buffer ++ fill ≠ [] := by
  unfold pending at h
  intro hnil
  obtain ⟨hbuffer, hfill⟩ := List.append_eq_nil_iff.1 hnil
  rw [if_pos hbuffer] at h
  have hhead := List.head?_dropWhile_not List.isEmpty fills
  rw [h, hfill] at hhead
  cases hhead

theorem flatten_pending (buffer : List UInt8) (fills : List (List UInt8)) :
    (pending buffer fills).flatten = fills.flatten := by
  unfold pending
  split
  · induction fills with
    | nil => rfl
    | cons fill fills ih =>
        rw [List.dropWhile_cons]
        split
        · rename_i hempty
          rw [ih, List.isEmpty_iff.1 hempty]
          rfl
        · rfl
  · rfl

/-- Asked for more, the stream puts the next fill behind the unread bytes. -/
structure Refilled (strm strm' : Istream (List (List UInt8))) : Prop where
  offset : strm'.bufferOffset = 0
  eof : strm'.eof = true → strm'.inner = []
  buffer : strm'.buffer = strm.unread ∧ strm'.inner = [] ∧ pending strm.unread strm.inner = [] ∨
    ∃ fill, strm'.buffer = strm.unread ++ fill ∧
      pending strm.unread strm.inner = fill :: strm'.inner

theorem precache_refilled {strm : Istream (List (List UInt8))}
    (heof : strm.eof = true → strm.inner = []) :
    ∃ strm', Istream.precache fillBuffer strm = .ok () strm' ∧ Refilled strm strm' := by
  rw [Istream.precache, Istream.compact_eq]
  by_cases htrue : strm.eof = true
  · rw [if_pos htrue]
    have hpending : pending strm.unread strm.inner = [] := by
      rw [heof htrue]
      unfold pending
      split <;> rfl
    exact ⟨_, rfl, rfl, heof, .inl ⟨rfl, heof htrue, hpending⟩⟩
  · rw [if_neg htrue, fillBuffer]
    cases hpending : pending strm.unread strm.inner with
    | nil =>
        exact ⟨_, rfl, rfl, fun _ => rfl, .inl ⟨rfl, rfl, hpending⟩⟩
    | cons fill fills =>
        exact ⟨_, rfl, rfl, fun h => absurd h htrue, .inr ⟨fill, rfl, hpending⟩⟩

/-- The buffer is empty at the end only. -/
theorem Refilled.inner_eq_nil {strm strm' : Istream (List (List UInt8))} (h : Refilled strm strm')
    (hnil : strm'.buffer = []) : strm'.inner = [] := by
  rcases h.buffer with ⟨-, hinner, -⟩ | ⟨fill, hbuffer, hpending⟩
  · exact hinner
  · rw [hbuffer] at hnil
    exact absurd hnil (append_ne_nil hpending)

theorem carries : Istream.Carries fillBuffer Holds where
  unread strm rest h := by
    rw [h.1]
    exact List.prefix_append ..
  consume strm rest n h hn := by
    refine ⟨?_, h.2⟩
    rw [h.1, List.drop_append_of_le_length hn]
    unfold Istream.unread
    rw [List.drop_drop]
    rfl
  precache strm rest h := by
    obtain ⟨strm', hcall, hrefilled⟩ := precache_refilled h.2
    have hunread : strm'.unread = strm'.buffer := by
      unfold Istream.unread
      rw [hrefilled.offset, List.drop_zero]
    have hflatten := flatten_pending strm.unread strm.inner
    refine ⟨strm', hcall, ⟨?_, hrefilled.eof⟩, hrefilled.offset, ?_⟩
    · rw [h.1, hunread]
      rcases hrefilled.buffer with ⟨hbuffer, hinner, hpending⟩ | ⟨fill, hbuffer, hpending⟩
      · rw [hbuffer, hinner, pending_eq_nil hpending]
        rfl
      · rw [hpending, List.flatten_cons] at hflatten
        rw [hbuffer, List.append_assoc, hflatten]
    · intro hnil
      rcases hrefilled.buffer with ⟨hbuffer, hinner, hpending⟩ | ⟨fill, hbuffer, hpending⟩
      · rw [h.1, ← hbuffer, hnil, pending_eq_nil hpending]
        rfl
      · rw [hbuffer] at hnil
        exact absurd hnil (append_ne_nil hpending)
  eof strm rest h heof := by
    rw [h.1, h.2 heof, List.flatten_nil, List.append_nil]

/-! ## What is read -/

theorem not_lt_findIdx : ¬ ([] : List UInt8).findIdx (· == newline) < ([] : List UInt8).length :=
  Nat.lt_irrefl _

theorem linesRead_pending (line unread : List UInt8) (fills : List (List UInt8)) :
    linesRead line unread (pending unread fills) = linesRead line unread fills := by
  unfold pending
  split
  · rename_i hnil
    subst hnil
    induction fills with
    | nil => rfl
    | cons fill fills ih =>
        rw [List.dropWhile_cons]
        split
        · rename_i hempty
          rw [List.isEmpty_iff.1 hempty, ih, linesRead, List.append_nil, if_neg not_lt_findIdx,
            List.append_nil]
        · rfl
  · rfl

theorem linesRead_end (line : List UInt8) : linesRead line [] [[]] = textLines line := by
  rw [linesRead, List.append_nil, if_neg not_lt_findIdx, linesRead, List.append_nil,
    List.append_nil]

/-- Where nothing has been collected, or nothing is unread, a refill is the next fill. -/
theorem linesRead_refilled {strm strm' : Istream (List (List UInt8))} (h : Refilled strm strm')
    (hpart : line = [] ∨ strm.unread = []) :
    linesRead line strm.unread strm.inner = linesRead line [] (strm'.buffer :: strm'.inner) := by
  rcases h.buffer with ⟨hbuffer, hinner, hpending⟩ | ⟨fill, hbuffer, hpending⟩
  · rw [← linesRead_pending, hpending, hbuffer, hinner, linesRead, linesRead, List.nil_append]
    split
    · rename_i hfound
      have hnil : line = [] := by
        rcases hpart with hnil | hnil
        · exact hnil
        · rw [hnil] at hfound
          exact absurd hfound not_lt_findIdx
      have htext := textLines_line (Istream.findIdx_newline strm.unread).1
        (strm.unread.drop (strm.unread.findIdx (· == newline) + 1))
      rw [← (Istream.findIdx_newline strm.unread).2 hfound] at htext
      rw [hnil, List.nil_append, htext, linesRead]
      rfl
    · rw [linesRead, List.append_nil]
  · rw [← linesRead_pending, hpending, hbuffer, linesRead, linesRead, List.nil_append]

/-- The loop returns the first line that is not passed over. -/
theorem getLineLoop_lines (fuel : Nat) (line : List UInt8) (lineNum : Nat)
    {strm : Istream (List (List UInt8))} (heof : strm.eof = true → strm.inner = [])
    (hline : newline ∉ line) (hpart : line = [] ∨ strm.unread = []) :
    Istream.getLineLoop fillBuffer flags fuel line lineNum strm = .stuck ∨
      ∃ out n strm', Istream.getLineLoop fillBuffer flags fuel line lineNum strm =
          .ok (out, n) strm' ∧ (strm'.eof = true → strm'.inner = []) ∧
        flags.returned (linesRead line strm.unread strm.inner) = out.elim [] fun text =>
          text :: flags.returned (linesRead [] strm'.unread strm'.inner) := by
  induction fuel generalizing line lineNum strm with
  | zero => exact .inl rfl
  | succ fuel ih =>
      obtain ⟨strm₁, hcall, hrefilled⟩ := precache_refilled heof
      rw [Istream.getLineLoop_succ flags fuel line lineNum hcall,
        linesRead_refilled hrefilled hpart]
      by_cases hnil : strm₁.buffer.length = 0
      · have hbuffer := List.length_eq_zero_iff.1 hnil
        have hinner := hrefilled.inner_eq_nil hbuffer
        have hunread : strm₁.unread = [] := List.drop_of_length_le (by omega)
        rw [if_pos hnil, hbuffer, hinner, linesRead_end]
        right
        by_cases hskip : line.length = 0 ∨ flags.skips line
        · rw [if_pos hskip]
          refine ⟨none, lineNum, strm₁, rfl, hrefilled.eof, ?_⟩
          rcases hskip with hzero | hskips
          · rw [List.length_eq_zero_iff.1 hzero]
            rfl
          · by_cases hempty : line = []
            · rw [hempty]
              rfl
            · rw [textLines_last hline hempty, LineFlags.returned_skip hskips]
              rfl
        · rw [if_neg hskip]
          rw [not_or, List.length_eq_zero_iff] at hskip
          refine ⟨_, _, strm₁, rfl, hrefilled.eof, ?_⟩
          rw [textLines_last hline hskip.1, LineFlags.returned_line hskip.2, hunread, hinner]
          rfl
      · have hnone := (Istream.findIdx_newline strm₁.buffer).1
        obtain ⟨i, hi⟩ : ∃ i, strm₁.buffer.findIdx (· == newline) = i := ⟨_, rfl⟩
        rw [if_neg hnil, linesRead, List.nil_append]
        rw [hi] at hnone ⊢
        by_cases hfound : i < strm₁.buffer.length
        · rw [if_pos hfound, if_pos hfound]
          have hunread : ({ strm₁ with bufferOffset := i + 1 } : Istream _).unread =
              strm₁.buffer.drop (i + 1) := rfl
          by_cases hskip : flags.skips (line ++ dropReturn (strm₁.buffer.take i))
          · rw [if_pos hskip, LineFlags.returned_skip hskip, ← hunread]
            exact ih [] (lineNum + 1) hrefilled.eof List.not_mem_nil (.inl rfl)
          · rw [if_neg hskip, LineFlags.returned_line hskip, ← hunread]
            exact .inr ⟨_, _, _, rfl, hrefilled.eof, rfl⟩
        · rw [if_neg hfound, if_neg hfound]
          have hle : i ≤ strm₁.buffer.length := hi ▸ List.findIdx_le_length
          have htake : strm₁.buffer.take i = strm₁.buffer :=
            List.take_of_length_le (Nat.le_of_not_lt hfound)
          have hunread : ({ strm₁ with bufferOffset := i } : Istream _).unread = [] :=
            List.drop_of_length_le (Nat.le_of_not_lt hfound)
          rw [htake] at hnone ⊢
          have hmore := ih (line ++ strm₁.buffer) lineNum (by exact hrefilled.eof)
            (List.not_mem_append hline hnone) (.inr hunread)
          rwa [hunread] at hmore

/-- With enough rounds of its loop a call returns. -/
theorem exists_line {strm : Istream (List (List UInt8))}
    (heof : strm.eof = true → strm.inner = []) :
    ∃ fuel out n strm', Istream.getLine fillBuffer fuel flags 0 strm = .ok (out, n) strm' ∧
      (strm'.eof = true → strm'.inner = []) ∧
      flags.returned (linesRead [] strm.unread strm.inner) = out.elim [] fun text =>
        text :: flags.returned (linesRead [] strm'.unread strm'.inner) := by
  have hold : Holds strm (strm.unread ++ strm.inner.flatten) := ⟨rfl, heof⟩
  obtain ⟨fuel, hfuel⟩ : ∃ fuel, (strm.unread ++ strm.inner.flatten).length < fuel :=
    ⟨_, Nat.lt_succ_self _⟩
  obtain ⟨out, n, strm', chunk, rest', -, hok, -, -⟩ := carries.serves.getLineLoop flags fuel [] 0
    hold List.not_mem_nil hfuel (Istream.askedInLine_true flags fuel [])
  rcases getLineLoop_lines fuel [] 0 heof List.not_mem_nil (.inl rfl) with hstuck | hreturns
  · rw [hok] at hstuck
    cases hstuck
  · exact ⟨fuel, hreturns⟩

/-- Calls of `istream_get_line` return the lines that are read. -/
theorem getsLines_iff_read {strm : Istream (List (List UInt8))} {lines : List (List UInt8)}
    (heof : strm.eof = true → strm.inner = []) :
    GetsLines fillBuffer flags strm lines ↔
      lines = flags.returned (linesRead [] strm.unread strm.inner) := by
  constructor
  · intro h
    induction h with
    | @atEnd strm strm' fuel n n' hget =>
        change Istream.getLineLoop fillBuffer flags fuel [] n strm = _ at hget
        rcases getLineLoop_lines fuel [] n heof List.not_mem_nil (.inl rfl) with
          hstuck | ⟨out, m, strm₁, hok, _, hlines⟩
        · rw [hget] at hstuck
          cases hstuck
        · rw [hget] at hok
          cases hok
          exact hlines.symm
    | @line strm strm' fuel n n' line lines hget _ ih =>
        change Istream.getLineLoop fillBuffer flags fuel [] n strm = _ at hget
        rcases getLineLoop_lines fuel [] n heof List.not_mem_nil (.inl rfl) with
          hstuck | ⟨out, m, strm₁, hok, heof', hlines⟩
        · rw [hget] at hstuck
          cases hstuck
        · rw [hget] at hok
          cases hok
          rw [hlines, ih heof']
          rfl
  · intro hlines
    induction lines generalizing strm with
    | nil =>
        obtain ⟨fuel, out, n, strm', hok, _, hreturned⟩ := @exists_line flags strm heof
        rw [← hlines] at hreturned
        cases out with
        | none => exact .atEnd hok
        | some text => cases hreturned
    | cons line lines ih =>
        obtain ⟨fuel, out, n, strm', hok, heof', hreturned⟩ := @exists_line flags strm heof
        rw [← hlines] at hreturned
        cases out with
        | none => cases hreturned
        | some text =>
            obtain ⟨rfl, hrest⟩ := List.cons.inj hreturned
            exact .line hok (ih heof' hrest)

end Fills

/-! ## Where the lines are those of the text -/

/-- How long the lines are that are returned. -/
def linesSize (lines : List (List UInt8)) : Nat := (lines.map fun line => line.length + 1).sum

section Torn

variable {lines lines' : List (List UInt8)}

theorem size_returned_cons (line : List UInt8) (lines : List (List UInt8)) :
    linesSize (flags.returned (line :: lines)) =
      linesSize (flags.returned lines) +
        if flags.skips line then 0 else (trim flags line).length + 1 := by
  split
  · rename_i hskip
    rw [LineFlags.returned_skip hskip, Nat.add_zero]
  · rename_i hskip
    rw [LineFlags.returned_line hskip, linesSize, linesSize, List.map_cons, List.sum_cons,
      Nat.add_comm]

theorem skips_congr {line line' : List UInt8} (h : trim flags line = trim flags line') :
    flags.skips line ↔ flags.skips line' := by
  unfold LineFlags.skips
  rw [h]

theorem returned_cons_congr {line line' : List UInt8} (h : trim flags line = trim flags line') :
    flags.returned (line :: lines) = flags.returned (line' :: lines') ↔
      flags.returned lines = flags.returned lines' := by
  have hskips := skips_congr h
  by_cases hskip : flags.skips line
  · rw [LineFlags.returned_skip hskip, LineFlags.returned_skip (hskips.1 hskip)]
  · rw [LineFlags.returned_line hskip, LineFlags.returned_line (fun h' => hskip (hskips.2 h')), h,
      List.cons.injEq, and_iff_right rfl]

/-- A carriage return that is kept makes a line longer, if it is seen. -/
theorem size_dropReturn (hnul : 0 ∉ line)
    (h : linesSize (flags.returned lines') ≤ linesSize (flags.returned lines)) :
    linesSize (flags.returned (dropReturn line :: lines')) ≤
        linesSize (flags.returned (line :: lines)) ∧
      (flags.Shows line → linesSize (flags.returned (dropReturn line :: lines')) <
        linesSize (flags.returned (line :: lines))) := by
  rw [size_returned_cons, size_returned_cons]
  by_cases hshows : flags.Shows line
  · have htrim := trim_shows hnul hshows
    have hskip : ¬ flags.skips line := by
      rintro ⟨hnil, -⟩
      rw [htrim] at hnil
      exact absurd hnil (List.append_ne_nil_of_right_ne_nil _ (List.cons_ne_nil _ _))
    rw [if_neg hskip, htrim, List.length_append, List.length_singleton]
    split <;> omega
  · have htrim := trim_dropReturn hnul hshows
    rw [if_congr (skips_congr htrim) rfl rfl, htrim]
    exact ⟨Nat.add_le_add_right h _, fun hyes => absurd hyes hshows⟩

theorem dropReturn_append {part : List UInt8} (hpart : part ≠ []) (line : List UInt8) :
    dropReturn (line ++ part) = line ++ dropReturn part := by
  unfold dropReturn
  rw [List.getLast?_append_of_ne_nil _ hpart]
  split
  · exact List.dropLast_append_of_ne_nil hpart
  · rfl

/-- The lines that are read, with carriage returns kept, are those of the text if and only if none
of these is seen. -/
theorem linesRead_textLines (flags : LineFlags) (hline : newline ∉ line)
    (hnul : 0 ∉ line ++ (unread ++ fills.flatten)) :
    linesSize (flags.returned (textLines (line ++ (unread ++ fills.flatten)))) ≤
        linesSize (flags.returned (linesRead line unread fills)) ∧
      (flags.returned (linesRead line unread fills) =
          flags.returned (textLines (line ++ (unread ++ fills.flatten))) ↔
        NoneTorn flags line unread fills) := by
  induction fills generalizing line unread with
  | nil =>
      rw [List.flatten_nil, List.append_nil, linesRead]
      exact ⟨Nat.le_refl _, iff_of_true rfl trivial⟩
  | cons fill fills ih =>
      rw [List.flatten_cons, ← List.append_assoc unread] at hnul ⊢
      rw [linesRead, NoneTorn]
      obtain ⟨buffer, hbuffer⟩ : ∃ buffer, unread ++ fill = buffer := ⟨_, rfl⟩
      obtain ⟨hnone, hsplit⟩ := Istream.findIdx_newline buffer
      obtain ⟨i, hi⟩ : ∃ i, buffer.findIdx (· == newline) = i := ⟨_, rfl⟩
      rw [hbuffer] at hnul ⊢
      rw [hi] at hnone hsplit ⊢
      by_cases hfound : i < buffer.length
      · rw [if_pos hfound, if_pos hfound]
        have htext : line ++ (buffer ++ fills.flatten) =
            (line ++ buffer.take i) ++ newline :: (buffer.drop (i + 1) ++ fills.flatten) := by
          rw [List.append_assoc line, ← List.cons_append, ← List.append_assoc (buffer.take i),
            ← hsplit hfound]
        rw [htext] at hnul ⊢
        rw [textLines_line (List.not_mem_append hline hnone)]
        rw [List.mem_append, List.mem_cons, not_or, not_or] at hnul
        have hnil : newline ∉ ([] : List UInt8) := List.not_mem_nil
        obtain ⟨hle, hiff⟩ := ih hnil hnul.2.2
        rw [List.nil_append] at hle hiff
        rcases Nat.eq_zero_or_pos i with hzero | hpos
        · -- All of the line has been collected before its newline is found.
          subst hzero
          rw [List.take_zero, List.append_nil] at hnul ⊢
          obtain ⟨hsize, hlonger⟩ := size_dropReturn hnul.1 hle
          have hcollected : line ++ dropReturn [] = line := List.append_nil _
          rw [hcollected]
          refine ⟨hsize, ?_⟩
          by_cases hshows : flags.Shows line
          · refine iff_of_false (fun heq => ?_) fun htorn => htorn.1 rfl hshows
            have hlt := hlonger hshows
            rw [heq] at hlt
            exact Nat.lt_irrefl _ hlt
          · rw [returned_cons_congr (trim_dropReturn hnul.1 hshows), hiff]
            exact (and_iff_right fun _ => hshows).symm
        · have hne : buffer.take i ≠ [] := by
            intro hnil
            rcases List.take_eq_nil_iff.1 hnil with hzero | hempty
            · omega
            · rw [hempty] at hfound
              exact Nat.not_lt_zero _ hfound
          rw [dropReturn_append hne, returned_cons_congr rfl, hiff, size_returned_cons,
            size_returned_cons]
          exact ⟨Nat.add_le_add_right hle _, (and_iff_right fun hzero => by omega).symm⟩
      · rw [if_neg hfound, if_neg hfound]
        rw [List.take_of_length_le (Nat.le_of_not_lt hfound)] at hnone
        have htext : line ++ (buffer ++ fills.flatten) =
            (line ++ buffer) ++ ([] ++ fills.flatten) := by
          rw [List.append_assoc, List.nil_append]
        rw [htext] at hnul ⊢
        exact ih (List.not_mem_append hline hnone) hnul

end Torn

/-- Whatever fills a text without NUL comes in, repeated calls of `istream_get_line` return its
lines if and only if no carriage return that would be seen ends a buffer without a newline, with
the newline at the beginning of the next one. -/
theorem getsLines_iff (flags : LineFlags) (hnul : 0 ∉ fills.flatten) :
    GetsLines fillBuffer flags (inFills fills) (flags.returned (textLines fills.flatten)) ↔
      NoneTorn flags [] [] fills := by
  rw [Fills.getsLines_iff_read inFills_eof, eq_comm]
  exact (linesRead_textLines flags List.not_mem_nil hnul).2

/-- A line in two fills, cut before its carriage return. -/
theorem getsLines_two :
    GetsLines fillBuffer ⟨false, false, false⟩ (inFills [[97], [13, 10]])
        (LineFlags.returned ⟨false, false, false⟩ (textLines [[97], [13, 10]].flatten)) ↔
      NoneTorn ⟨false, false, false⟩ [] [] [[97], [13, 10]] :=
  getsLines_iff _ (by decide)

/-- The same line, cut behind its carriage return. -/
theorem not_getsLines_torn :
    ¬ GetsLines fillBuffer ⟨false, false, false⟩ (inFills [[97, 13], [10]])
      (LineFlags.returned ⟨false, false, false⟩ (textLines [[97, 13], [10]].flatten)) := by
  rw [Fills.getsLines_iff_read inFills_eof]
  decide

end ImageTool.Fstream
