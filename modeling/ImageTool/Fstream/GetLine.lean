import ImageTool.Fstream.Istream

/-!
# Reading a stream line by line

A line may begin in one buffer and end in another one, and lines that are empty can be
passed over.
-/

namespace ImageTool.Fstream

open ImageTool.Lib

/-- `isspace`, in the C locale. -/
def isSpace (b : UInt8) : Bool := b == 32 || (9 ≤ b && b ≤ 13)

/-- `'\\n'`. -/
def newline : UInt8 := 10

/-- `'\\r'`. -/
def carriageReturn : UInt8 := 13

/-- The flags `ISTREAM_LINE_LTRIM`, `ISTREAM_LINE_RTRIM` and `ISTREAM_LINE_SKIP_EMPTY`. -/
structure LineFlags where
  ltrim : Bool
  rtrim : Bool
  skipEmpty : Bool

/-- A buffer as a C string. -/
def cString (buffer : List UInt8) : List UInt8 := buffer.takeWhile (· != 0)

/-- `ltrim`. -/
def ltrim (line : List UInt8) : List UInt8 := line.dropWhile isSpace

/-- `rtrim`. -/
def rtrim (line : List UInt8) : List UInt8 := (line.reverse.dropWhile isSpace).reverse

/-- `trim`. -/
def trim (flags : LineFlags) (buffer : List UInt8) : List UInt8 :=
  let line := cString buffer
  let line := if flags.ltrim then ltrim line else line
  if flags.rtrim then rtrim line else line

/-- The carriage return before a newline is dropped, where the buffer holds both. -/
def dropReturn (line : List UInt8) : List UInt8 :=
  if line.getLast? = some carriageReturn then line.dropLast else line

/-- A line that `ISTREAM_LINE_SKIP_EMPTY` passes over. -/
def LineFlags.skips (flags : LineFlags) (buffer : List UInt8) : Prop :=
  trim flags buffer = [] ∧ flags.skipEmpty = true

instance (flags : LineFlags) (buffer : List UInt8) : Decidable (flags.skips buffer) :=
  inferInstanceAs (Decidable (_ ∧ _))

namespace Istream

variable {ι : Type} (callback : Call (Istream ι) Unit)

/-- The loop of `istream_get_line`, with what has been collected of a line.  It returns the
line, if there is one, and the line number. -/
def getLineLoop (flags : LineFlags) :
    Nat → List UInt8 → Nat → Call (Istream ι) (Option (List UInt8) × Nat)
  | 0, _, _ => Call.stuck
  | fuel + 1, line, lineNum => fun strm =>
      (precache callback strm).bind fun _ strm =>
        if strm.buffer.length = 0 then
          if line.length = 0 ∨ flags.skips line then .ok (none, lineNum) strm
          else .ok (some (trim flags line), lineNum) strm
        else
          let i := strm.buffer.findIdx (· == newline)
          if i < strm.buffer.length then
            let strm' := { strm with bufferOffset := i + 1 }
            let line := line ++ dropReturn (strm.buffer.take i)
            if flags.skips line then getLineLoop flags fuel [] (lineNum + 1) strm'
            else .ok (some (trim flags line), lineNum) strm'
          else
            getLineLoop flags fuel (line ++ strm.buffer.take i) lineNum
              { strm with bufferOffset := i }

/-- `istream_get_line`. -/
def getLine (fuel : Nat) (flags : LineFlags) (lineNum : Nat) :
    Call (Istream ι) (Option (List UInt8) × Nat) :=
  getLineLoop callback flags fuel [] lineNum

/-! ## What is taken out of the stream -/

/-- What a line consists of before its newline; the text is without a carriage return at
the end, or with one when the buffer ended there. -/
def TextOf (raw text : List UInt8) : Prop := text = raw ∨ raw = text ++ [carriageReturn]

/-- A line taken from `chunk ++ rest`, of which `rest` is left; the numbers count the lines
that have been passed over. -/
inductive TakesLine (flags : LineFlags) :
    List UInt8 → List UInt8 → Option (List UInt8) → Nat → Prop where
  | atEnd : TakesLine flags [] [] none 0
  | last {raw} : newline ∉ raw → ¬ flags.skips raw → raw ≠ [] →
      TakesLine flags raw [] (some (trim flags raw)) 0
  | lastEmpty {raw} : newline ∉ raw → flags.skips raw → TakesLine flags raw [] none 0
  | line {raw text rest} : newline ∉ raw → TextOf raw text → ¬ flags.skips text →
      TakesLine flags (raw ++ [newline]) rest (some (trim flags text)) 0
  | skip {raw text chunk rest out n} : newline ∉ raw → TextOf raw text → flags.skips text →
      TakesLine flags chunk rest out n →
      TakesLine flags (raw ++ newline :: chunk) rest out (n + 1)

/-- Every state in which the loop of `istream_get_line` calls `istream_precache` has `Q`. -/
def AskedInLine (callback : Call (Istream ι) Unit) (Q : Istream ι → Prop) (flags : LineFlags) :
    Nat → List UInt8 → Istream ι → Prop
  | 0, _, _ => True
  | fuel + 1, line, strm => Q strm ∧
      match precache callback strm with
      | .ok _ strm =>
          let i := strm.buffer.findIdx (· == newline)
          if i < strm.buffer.length then
            flags.skips (line ++ dropReturn (strm.buffer.take i)) →
              AskedInLine callback Q flags fuel [] { strm with bufferOffset := i + 1 }
          else
            strm.buffer ≠ [] → AskedInLine callback Q flags fuel (line ++ strm.buffer.take i)
              { strm with bufferOffset := i }
      | _ => True

instance AskedInLine.decidable (callback : Call (Istream ι) Unit) (Q : Istream ι → Prop)
    [DecidablePred Q] (flags : LineFlags) :
    ∀ fuel line strm, Decidable (AskedInLine callback Q flags fuel line strm)
  | 0, _, _ => isTrue trivial
  | fuel + 1, line, strm => by
      have hrest := AskedInLine.decidable callback Q flags fuel
      unfold AskedInLine
      cases precache callback strm <;> infer_instance

/-- A stream that serves every operation that asks it for more where `Q` holds. -/
structure Serves (callback : Call (Istream ι) Unit) (holds : Istream ι → List UInt8 → Prop)
    (Q : Istream ι → Prop) : Prop extends Refills callback holds where
  precache : ∀ strm rest, holds strm rest → Q strm →
    ∃ strm', Istream.precache callback strm = .ok () strm' ∧ holds strm' rest ∧
      strm'.bufferOffset = 0 ∧ (strm'.buffer = [] → rest = [])

variable {callback} {holds : Istream ι → List UInt8 → Prop} {Q : Istream ι → Prop}
variable {strm : Istream ι} {rest : List UInt8}

theorem Carries.serves (h : Carries callback holds) : Serves callback holds fun _ => True :=
  ⟨h.refills, fun strm rest hold _ => h.precache strm rest hold⟩

theorem askedInLine_true (flags : LineFlags) (fuel : Nat) (line : List UInt8) :
    AskedInLine callback (fun _ => True) flags fuel line strm := by
  induction fuel generalizing line strm with
  | zero => trivial
  | succ fuel ih =>
      refine ⟨trivial, ?_⟩
      cases precache callback strm with
      | ok _ strm' =>
          dsimp only
          split
          · exact fun _ => ih _
          · exact fun _ => ih _
      | fail _ => trivial
      | stuck => trivial

theorem textOf_dropReturn (line raw : List UInt8) :
    TextOf (line ++ raw) (line ++ dropReturn raw) := by
  unfold dropReturn
  split
  · rename_i hlast
    right
    rw [List.append_assoc, List.dropLast_append_getLast? _ hlast]
  · exact Or.inl rfl

/-- What the buffer begins with: a line, or no newline at all. -/
theorem findIdx_newline (buffer : List UInt8) :
    newline ∉ buffer.take (buffer.findIdx (· == newline)) ∧
      (buffer.findIdx (· == newline) < buffer.length →
        buffer = buffer.take (buffer.findIdx (· == newline)) ++
          newline :: buffer.drop (buffer.findIdx (· == newline) + 1)) := by
  induction buffer with
  | nil => exact ⟨List.not_mem_nil, fun h => absurd h (Nat.lt_irrefl _)⟩
  | cons b buffer ih =>
      by_cases hb : b = newline
      · have hidx : (b :: buffer).findIdx (· == newline) = 0 := by
          rw [List.findIdx_cons, hb]
          rfl
        rw [hidx, hb]
        exact ⟨List.not_mem_nil, fun _ => rfl⟩
      · have hidx : (b :: buffer).findIdx (· == newline) =
            buffer.findIdx (· == newline) + 1 := by
          rw [List.findIdx_cons, beq_false_of_ne hb]
          rfl
        rw [hidx, List.take_succ_cons, List.drop_succ_cons, List.length_cons]
        constructor
        · rw [List.mem_cons, not_or]
          exact ⟨Ne.symm hb, ih.1⟩
        · intro hlt
          rw [List.cons_append, ← ih.2 (Nat.lt_of_succ_lt_succ hlt)]

theorem getLineLoop_succ {strm₁ : Istream ι} (flags : LineFlags) (fuel : Nat)
    (line : List UInt8) (lineNum : Nat) (h : precache callback strm = .ok () strm₁) :
    getLineLoop callback flags (fuel + 1) line lineNum strm =
      if strm₁.buffer.length = 0 then
        if line.length = 0 ∨ flags.skips line then .ok (none, lineNum) strm₁
        else .ok (some (trim flags line), lineNum) strm₁
      else if strm₁.buffer.findIdx (· == newline) < strm₁.buffer.length then
        if flags.skips (line ++ dropReturn
            (strm₁.buffer.take (strm₁.buffer.findIdx (· == newline)))) then
          getLineLoop callback flags fuel [] (lineNum + 1)
            { strm₁ with bufferOffset := strm₁.buffer.findIdx (· == newline) + 1 }
        else .ok (some (trim flags (line ++ dropReturn
            (strm₁.buffer.take (strm₁.buffer.findIdx (· == newline))))), lineNum)
          { strm₁ with bufferOffset := strm₁.buffer.findIdx (· == newline) + 1 }
      else getLineLoop callback flags fuel
        (line ++ strm₁.buffer.take (strm₁.buffer.findIdx (· == newline))) lineNum
        { strm₁ with bufferOffset := strm₁.buffer.findIdx (· == newline) } := by
  change (precache callback strm).bind _ = _
  rw [h]
  rfl

/-- A fresh buffer of which the first bytes are handed out. -/
theorem Serves.advance (h : Serves callback holds Q) (hold : holds strm rest)
    (hoff : strm.bufferOffset = 0) {n : Nat} (hn : n ≤ strm.buffer.length) :
    holds { strm with bufferOffset := n } (rest.drop n) := by
  have hlen := length_unread strm
  have hconsumed := h.consume strm rest n hold (by omega)
  unfold Istream.consume at hconsumed
  rwa [hoff, Nat.zero_add] at hconsumed

theorem split_newline {buffer more : List UInt8} {i : Nat} (hmore : buffer ++ more = rest)
    (hsplit : buffer = buffer.take i ++ newline :: buffer.drop (i + 1)) :
    rest = buffer.take i ++ newline :: rest.drop (i + 1) := by
  have hlt : i + 1 ≤ buffer.length := by
    have hlen := congrArg List.length hsplit
    rw [List.length_append, List.length_cons, List.length_take, List.length_drop] at hlen
    omega
  have hdrop : rest.drop (i + 1) = buffer.drop (i + 1) ++ more := by
    rw [← hmore, List.drop_append_of_le_length hlt]
  rw [hdrop, ← List.cons_append, ← List.append_assoc, ← hsplit, hmore]

/-- With part of a line collected: the loop takes the rest of the line, and the lines it
passes over, out of the stream. -/
theorem Serves.getLineLoop (h : Serves callback holds Q) (flags : LineFlags) (fuel : Nat)
    (line : List UInt8) (lineNum : Nat) (hold : holds strm rest) (hline : newline ∉ line)
    (hfuel : rest.length < fuel) (hasked : AskedInLine callback Q flags fuel line strm) :
    ∃ out n strm' chunk rest', rest = chunk ++ rest' ∧
      Istream.getLineLoop callback flags fuel line lineNum strm = .ok (out, lineNum + n) strm' ∧
      holds strm' rest' ∧ TakesLine flags (line ++ chunk) rest' out n := by
  induction fuel generalizing line lineNum strm rest with
  | zero => exact absurd hfuel (Nat.not_lt_zero _)
  | succ fuel ih =>
      obtain ⟨hready, hlater⟩ := hasked
      obtain ⟨strm₁, hcall, hold₁, hoff, hempty⟩ := h.precache strm rest hold hready
      rw [getLineLoop_succ flags fuel line lineNum hcall]
      rw [hcall] at hlater
      dsimp only at hlater
      obtain ⟨i, hi⟩ : ∃ i, strm₁.buffer.findIdx (· == newline) = i := ⟨_, rfl⟩
      obtain ⟨hnone, hsplit⟩ := findIdx_newline strm₁.buffer
      obtain ⟨more, hmore⟩ := h.unread strm₁ rest hold₁
      have hunread : strm₁.unread = strm₁.buffer := by
        unfold Istream.unread
        rw [hoff, List.drop_zero]
      rw [hi] at hnone hsplit hlater ⊢
      rw [hunread] at hmore
      have hpart : newline ∉ line ++ strm₁.buffer.take i := by
        rw [List.mem_append, not_or]
        exact ⟨hline, hnone⟩
      by_cases hnil : strm₁.buffer.length = 0
      · rw [if_pos hnil]
        obtain rfl := hempty (List.length_eq_zero_iff.1 hnil)
        by_cases hskip : line.length = 0 ∨ flags.skips line
        · rw [if_pos hskip]
          refine ⟨none, 0, strm₁, [], [], rfl, rfl, hold₁, ?_⟩
          rw [List.append_nil]
          rcases hskip with hzero | hskips
          · rw [List.length_eq_zero_iff.1 hzero]
            exact .atEnd
          · exact .lastEmpty hline hskips
        · rw [if_neg hskip]
          rw [not_or] at hskip
          refine ⟨_, 0, strm₁, [], [], rfl, rfl, hold₁, ?_⟩
          rw [List.append_nil]
          exact .last hline hskip.2 fun hzero => hskip.1 (congrArg List.length hzero)
      · rw [if_neg hnil]
        by_cases hfound : i < strm₁.buffer.length
        · rw [if_pos hfound]
          rw [if_pos hfound] at hlater
          have hold₂ := h.advance hold₁ hoff (Nat.succ_le_of_lt hfound)
          have htext := textOf_dropReturn line (strm₁.buffer.take i)
          have hrest := split_newline hmore (hsplit hfound)
          by_cases hskip : flags.skips (line ++ dropReturn (strm₁.buffer.take i))
          · rw [if_pos hskip]
            have hshort : (rest.drop (i + 1)).length < fuel := by
              have hlen := congrArg List.length hmore
              rw [List.length_append] at hlen
              rw [List.length_drop]
              omega
            obtain ⟨out, n, strm', chunk, rest', hchunk, hloop, hold', htakes⟩ :=
              ih [] (lineNum + 1) hold₂ List.not_mem_nil hshort (hlater hskip)
            refine ⟨out, n + 1, strm', strm₁.buffer.take i ++ newline :: chunk, rest', ?_, ?_,
              hold', ?_⟩
            · rw [List.append_assoc, List.cons_append, ← hchunk]
              exact hrest
            · rw [hloop, Nat.add_right_comm, Nat.add_assoc]
            · rw [← List.append_assoc]
              exact .skip hpart htext hskip htakes
          · rw [if_neg hskip]
            refine ⟨_, 0, _, strm₁.buffer.take i ++ [newline], rest.drop (i + 1), ?_, rfl, hold₂, ?_⟩
            · rw [List.append_assoc]
              exact hrest
            · rw [← List.append_assoc]
              exact .line hpart htext hskip
        · rw [if_neg hfound]
          rw [if_neg hfound] at hlater
          have hall : strm₁.buffer.take i = strm₁.buffer :=
            List.take_of_length_le (Nat.le_of_not_lt hfound)
          have hle : i ≤ strm₁.buffer.length := by
            rw [← hi]
            exact List.findIdx_le_length
          have hidx : i = strm₁.buffer.length := Nat.le_antisymm hle (Nat.le_of_not_lt hfound)
          have hold₂ := h.advance hold₁ hoff hle
          have hdrop : rest.drop i = more := by
            rw [hidx, ← hmore, List.drop_left]
          have hshort : more.length < fuel := by
            have hlen := congrArg List.length hmore
            rw [List.length_append] at hlen
            omega
          rw [hdrop] at hold₂
          have hbuffer : strm₁.buffer ≠ [] := fun h => hnil (congrArg List.length h)
          obtain ⟨out, n, strm', chunk, rest', hchunk, hloop, hold', htakes⟩ :=
            ih (line ++ strm₁.buffer.take i) lineNum hold₂ hpart hshort (hlater hbuffer)
          refine ⟨out, n, strm', strm₁.buffer ++ chunk, rest', ?_, hloop, hold', ?_⟩
          · rw [List.append_assoc, ← hchunk, hmore]
          · rw [List.append_assoc, hall] at htakes
            exact htakes

end Istream

end ImageTool.Fstream
