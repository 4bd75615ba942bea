import ImageTool.Fstream.Istream
import ImageTool.Fstream.Xfrm
import ImageTool.Lib.Word

/-!
# Compressing streams

An output stream that collects what is appended to it in blocks and hands these to a
codec.  What the codec writes goes to another output stream.
-/

namespace ImageTool.Fstream

open ImageTool.Lib

/-- `ostream_t`. -/
structure Ostream (ω : Type) where
  append : List UInt8 → Call ω Unit
  flush : Call ω Unit

/-- `null_ostream_t`: the bytes written. -/
def nullOstream : Ostream Nat where
  append data := Call.modify fun written => u64 (written + data.length)
  flush := pure ()

/-- A stream that takes whatever is appended to it; `received` is what it has been given. -/
def Ostream.Takes {ω : Type} (strm : Ostream ω) (received : ω → List UInt8) : Prop :=
  ∀ w data, ∃ w', strm.append data w = .ok () w' ∧ received w' = received w ++ data

/-- `memmove` of `n` bytes from the offset `src` to the front of a buffer. -/
def memmoveFront (buffer : List UInt8) (src n : Nat) : List UInt8 :=
  (buffer.drop src).take n ++ buffer.drop n

/-- `ostream_xfrm_t`.  Of the input buffer, the first `inbuf_used` bytes. -/
structure OstreamXfrm (τ ω : Type) where
  wrapped : ω
  xfrm : τ
  inbuf : List UInt8

namespace OstreamXfrm

variable {τ ω : Type}

/-- What `flush_xfrm` leaves in the input buffer of which `inDiff` bytes have been read. -/
def leftover (inbuf : List UInt8) (inDiff : Nat) : List UInt8 :=
  (if inDiff < inbuf.length then memmoveFront inbuf inDiff (inbuf.length - inbuf.length)
    else inbuf).take (inbuf.length - inDiff)

/-- A call on the wrapped stream. -/
def onWrapped (m : Call ω Unit) : Call (OstreamXfrm τ ω) Unit :=
  Call.zoom OstreamXfrm.wrapped (fun comp w => { comp with wrapped := w }) m

variable (process : ProcessData τ) (strm : Ostream ω)

/-- `flush_xfrm`. -/
def flushXfrm (mode : XfrmFlush) : Call (OstreamXfrm τ ω) Unit := fun comp =>
  let r := process comp.xfrm comp.inbuf bufsz mode
  if r.ret ≠ .ok ∧ r.ret ≠ .end then .fail { comp with xfrm := r.state }
  else (onWrapped (strm.append r.out) { comp with xfrm := r.state }).bind fun _ comp =>
    .ok () { comp with inbuf := leftover comp.inbuf r.inRead }

/-- The start of a round of `comp_append`. -/
def makeRoom : Call (OstreamXfrm τ ω) Unit := fun comp =>
  if comp.inbuf.length ≥ bufsz then flushXfrm process strm .none comp else .ok () comp

/-- The loop of `comp_append`. -/
def appendLoop : Nat → List UInt8 → Call (OstreamXfrm τ ω) Unit
  | _, [] => pure ()
  | 0, _ :: _ => Call.stuck
  | fuel + 1, data@(_ :: _) => fun comp =>
      (makeRoom process strm comp).bind fun _ comp =>
        let diff := min (bufsz - comp.inbuf.length) data.length
        appendLoop fuel (data.drop diff) { comp with inbuf := comp.inbuf ++ data.take diff }

/-- `comp_append`, call after call. -/
def appends (fuel : Nat) : List (List UInt8) → Call (OstreamXfrm τ ω) Unit
  | [] => pure ()
  | data :: pieces => do
      appendLoop process strm fuel data
      appends fuel pieces

/-- What `comp_flush` does before it flushes the wrapped stream. -/
def drain : Call (OstreamXfrm τ ω) Unit := fun comp =>
  if 0 < comp.inbuf.length then flushXfrm process strm .full comp else .ok () comp

/-- `comp_flush`. -/
def compFlush : Call (OstreamXfrm τ ω) Unit := do
  drain process strm
  onWrapped strm.flush

/-- `ostream_xfrm_create`. -/
def create (w : ω) (xfrm : τ) : OstreamXfrm τ ω := ⟨w, xfrm, []⟩

/-! ## The calls of the codec -/

/-- A call for a full block, while more than the block is to come. -/
def blockCall (s : τ) (rest : List UInt8) : XfrmResult τ :=
  process s (rest.take bufsz) bufsz .none

/-- The states of the codec between two blocks, with the input still to come. -/
inductive Blocks (s₀ : τ) (content : List UInt8) : τ → List UInt8 → Prop where
  | start : Blocks s₀ content s₀ content
  | next {s rest} : Blocks s₀ content s rest → bufsz < rest.length →
      Blocks s₀ content (blockCall process s rest).state
        (rest.drop (blockCall process s rest).inRead)

/-- After every block the unread bytes are those at the front of the buffer. -/
def KeepsUnread (s₀ : τ) (content : List UInt8) : Prop :=
  ∀ s rest, Blocks process s₀ content s rest → bufsz < rest.length →
    leftover (rest.take bufsz) (blockCall process s rest).inRead =
      (rest.take bufsz).drop (blockCall process s rest).inRead

/-- No block makes the codec say that its output buffer is full. -/
def Accepts (s₀ : τ) (content : List UInt8) : Prop :=
  ∀ s rest, Blocks process s₀ content s rest → bufsz < rest.length →
    (blockCall process s rest).ret ≠ .bufferFull

/-- The one call for what remains ends; without input there is nothing to be written. -/
def Finishes (X : Encoder τ) (s₀ : τ) (content : List UInt8) : Prop :=
  ∀ s rest, Blocks X.process s₀ content s rest → rest.length ≤ bufsz →
    if rest = [] then X.output s [] = [] else (X.process s rest bufsz .full).ret = .end

/-- The calls return, and before the wrapped stream is flushed it has received all that
the codec makes of what has been appended. -/
def Delivered (X : Encoder τ) (strm : Ostream ω) (received : ω → List UInt8) (s₀ : τ) (w₀ : ω)
    (pieces : List (List UInt8)) : Prop :=
  ∃ enough, ∀ fuel ≥ enough, ∃ comp comp',
    appends X.process strm fuel pieces (create w₀ s₀) = .ok () comp ∧
      drain X.process strm comp = .ok () comp' ∧
        received comp'.wrapped = received w₀ ++ X.output s₀ pieces.flatten

variable {process strm} {X : Encoder τ} {received : ω → List UInt8} {s₀ : τ} {w₀ : ω}
variable {content remaining : List UInt8} {comp : OstreamXfrm τ ω}

theorem leftover_eq (inbuf : List UInt8) (inDiff : Nat) :
    leftover inbuf inDiff = inbuf.take (inbuf.length - inDiff) := by
  unfold leftover memmoveFront
  rw [Nat.sub_self, List.take_zero, List.nil_append, List.drop_zero, ite_self]

theorem Blocks.ahead {s : τ} {rest : List UInt8} (h : Blocks process s₀ content s rest) :
    s = s₀ ∧ rest = content ∨ bufsz < content.length ∧
      Blocks process (blockCall process s₀ content).state
        (content.drop (blockCall process s₀ content).inRead) s rest := by
  induction h with
  | start => exact Or.inl ⟨rfl, rfl⟩
  | next _ hlt ih =>
      right
      rcases ih with ⟨rfl, rfl⟩ | ⟨hmore, hahead⟩
      · exact ⟨hlt, .start⟩
      · exact ⟨hmore, .next hahead hlt⟩

theorem Blocks.length_le {s : τ} {rest : List UInt8} (h : Blocks process s₀ content s rest) :
    rest.length ≤ content.length := by
  induction h with
  | start => exact Nat.le_refl _
  | next _ _ ih =>
      rw [List.length_drop]
      exact Nat.le_trans (Nat.sub_le ..) ih

/-- Where a run stands: what the codec has been given and what it has written, against the
input that is still to come.  Every call before this point has been for a full block. -/
structure Stands (X : Encoder τ) (received : ω → List UInt8) (s₀ : τ) (w₀ : ω)
    (content : List UInt8) (comp : OstreamXfrm τ ω) (remaining : List UInt8) : Prop where
  valid : X.valid comp.xfrm (comp.inbuf ++ remaining)
  inbuf_le : comp.inbuf.length ≤ bufsz
  reached : Blocks X.process s₀ content comp.xfrm (comp.inbuf ++ remaining)
  written : received comp.wrapped ++ X.output comp.xfrm (comp.inbuf ++ remaining) =
    received w₀ ++ X.output s₀ content
  past : ∀ s rest, Blocks X.process s₀ content s rest →
    bufsz < rest.length ∧ (blockCall X.process s rest).ret ≠ .bufferFull ∨
      Blocks X.process comp.xfrm (comp.inbuf ++ remaining) s rest

theorem create_stands (hvalid : X.valid s₀ content) :
    Stands X received s₀ w₀ content (create w₀ s₀) content :=
  ⟨hvalid, Nat.zero_le _, .start, rfl, fun _ _ h => Or.inr h⟩

/-- The call of the wrapped stream returns, and what is left is at the front. -/
theorem flushXfrm_ok (htakes : strm.Takes received) {mode : XfrmFlush} {r : XfrmResult τ}
    (hr : process comp.xfrm comp.inbuf bufsz mode = r) (hok : r.ret = .ok ∨ r.ret = .end) :
    ∃ w, flushXfrm process strm mode comp = .ok () ⟨w, r.state, leftover comp.inbuf r.inRead⟩ ∧
      received w = received comp.wrapped ++ r.out := by
  obtain ⟨w, happend, hreceived⟩ := htakes comp.wrapped r.out
  refine ⟨w, ?_, hreceived⟩
  have hret : ¬ (r.ret ≠ .ok ∧ r.ret ≠ .end) := by
    rintro ⟨hok', hend⟩
    exact hok.elim hok' hend
  simp only [flushXfrm, hr, if_neg hret, onWrapped, Call.zoom_apply, happend]
  rfl

theorem flushXfrm_fail {mode : XfrmFlush}
    (h : (process comp.xfrm comp.inbuf bufsz mode).ret = .bufferFull) :
    ∃ comp', flushXfrm process strm mode comp = .fail comp' := by
  refine ⟨{ comp with xfrm := (process comp.xfrm comp.inbuf bufsz mode).state }, ?_⟩
  simp only [flushXfrm, h]
  rfl

/-- A full buffer is what the codec may be given of the input. -/
theorem offered_full (hfull : comp.inbuf.length = bufsz) :
    Offered comp.inbuf (comp.inbuf ++ remaining) .none := by
  refine ⟨List.prefix_append .., ?_, XfrmFlush.noConfusion, XfrmFlush.noConfusion⟩
  intro hnil
  rw [hnil] at hfull
  cases hfull

/-- A full block is flushed: the run stands again, and something has been read or written. -/
theorem Stands.block (htakes : strm.Takes received)
    (hkeep : KeepsUnread X.process s₀ content)
    (h : Stands X received s₀ w₀ content comp remaining)
    (hfull : comp.inbuf.length = bufsz) (hne : remaining ≠ []) :
    (∃ comp', flushXfrm X.process strm .none comp = .fail comp') ∧
        ¬ Accepts X.process s₀ content ∨
      ∃ comp', flushXfrm X.process strm .none comp = .ok () comp' ∧
        Stands X received s₀ w₀ content comp' remaining ∧
        comp'.inbuf.length + (X.output comp'.xfrm (comp'.inbuf ++ remaining)).length <
          comp.inbuf.length + (X.output comp.xfrm (comp.inbuf ++ remaining)).length := by
  have htake : (comp.inbuf ++ remaining).take bufsz = comp.inbuf := by
    rw [← hfull, List.take_left]
  have hlt : bufsz < (comp.inbuf ++ remaining).length := by
    rw [List.length_append, hfull]
    exact Nat.lt_add_of_pos_right (List.length_pos_iff.2 hne)
  have hcall : X.process comp.xfrm comp.inbuf bufsz .none =
      blockCall X.process comp.xfrm (comp.inbuf ++ remaining) := by
    unfold blockCall
    rw [htake]
  have hinbuf : comp.inbuf ≠ [] := by
    intro hnil
    rw [hnil] at hfull
    cases hfull
  have hoffered : Offered comp.inbuf (comp.inbuf ++ remaining) .none := offered_full hfull
  have hleft := hkeep _ _ h.reached hlt
  have hread := X.inRead_le _ _ _ bufsz _ h.valid hoffered
  have hkeeps := X.keeps _ _ _ bufsz _ h.valid hoffered
  have hemits := X.emits _ _ _ bufsz _ h.valid hoffered
  have hends := X.ends _ _ _ bufsz _ h.valid hoffered
  have hnoError := X.noError _ _ _ bufsz _ h.valid hoffered
  have hprogress := X.progress _ _ _ bufsz _ h.valid hoffered hinbuf (by decide)
  have hnext : Blocks X.process s₀ content _ _ := .next h.reached hlt
  have haccepted := fun haccepts : Accepts X.process s₀ content => haccepts _ _ h.reached hlt
  rw [htake] at hleft
  rw [← hcall] at hleft hnext haccepted
  obtain ⟨r, hr⟩ : ∃ r, X.process comp.xfrm comp.inbuf bufsz .none = r := ⟨_, rfl⟩
  rw [hr] at hleft hread hkeeps hemits hends hnoError hprogress hnext haccepted
  rw [List.drop_append_of_le_length hread] at hkeeps hemits hnext
  have hnotEnd : r.ret ≠ .end := by
    intro hend
    exact XfrmFlush.noConfusion (hends.1 hend).1
  by_cases hbf : r.ret = .bufferFull
  · left
    rw [← hr] at hbf
    exact ⟨flushXfrm_fail hbf, fun haccepts => haccepted haccepts (hr ▸ hbf)⟩
  · right
    obtain ⟨w, hflush, hreceived⟩ := flushXfrm_ok htakes hr (XfrmRet.ok_or_end hnoError hbf)
    rw [hleft] at hflush
    refine ⟨⟨w, r.state, comp.inbuf.drop r.inRead⟩, hflush, ?_, ?_⟩
    · refine ⟨hkeeps, ?_, hnext, ?_, ?_⟩
      · rw [List.length_drop]
        exact Nat.le_trans (Nat.sub_le ..) h.inbuf_le
      · rw [← h.written, hemits, ← List.append_assoc, hreceived]
      · intro s rest hblocks
        rcases h.past s rest hblocks with hbefore | hahead
        · exact Or.inl hbefore
        · rcases hahead.ahead with ⟨rfl, rfl⟩ | ⟨_, hmore⟩
          · rw [← hcall, hr]
            exact Or.inl ⟨hlt, hbf⟩
          · rw [← hcall, hr, List.drop_append_of_le_length hread] at hmore
            exact Or.inr hmore
    · rw [hemits, List.length_append]
      change (comp.inbuf.drop r.inRead).length +
        (X.output r.state (comp.inbuf.drop r.inRead ++ remaining)).length < _
      rw [List.length_drop]
      rcases hprogress hnotEnd with hsome | hwrote
      · omega
      · have hpos := List.length_pos_iff.2 hwrote
        omega

/-- Data is copied into the buffer. -/
theorem Stands.copy {data : List UInt8}
    (h : Stands X received s₀ w₀ content comp (data ++ remaining)) {n : Nat}
    (hn : n ≤ bufsz - comp.inbuf.length) :
    Stands X received s₀ w₀ content { comp with inbuf := comp.inbuf ++ data.take n }
      (data.drop n ++ remaining) := by
  have hall : comp.inbuf ++ data.take n ++ (data.drop n ++ remaining) =
      comp.inbuf ++ (data ++ remaining) := by
    rw [List.append_assoc, ← List.append_assoc (data.take n), List.take_append_drop]
  have hle := h.inbuf_le
  constructor
  · exact hall.symm ▸ h.valid
  · change (comp.inbuf ++ data.take n).length ≤ bufsz
    rw [List.length_append, List.length_take]
    omega
  · exact hall.symm ▸ h.reached
  · exact hall.symm ▸ h.written
  · exact hall.symm ▸ h.past

/-- Afterwards there is room in the buffer, and the rounds left are fewer. -/
theorem Stands.makeRoom (htakes : strm.Takes received)
    (hkeep : KeepsUnread X.process s₀ content)
    (h : Stands X received s₀ w₀ content comp remaining) (hne : remaining ≠ []) :
    (∃ comp', makeRoom X.process strm comp = .fail comp') ∧
        ¬ Accepts X.process s₀ content ∨
      ∃ comp', makeRoom X.process strm comp = .ok () comp' ∧
        Stands X received s₀ w₀ content comp' remaining ∧
        (comp'.inbuf.length + (X.output comp'.xfrm (comp'.inbuf ++ remaining)).length <
            comp.inbuf.length + (X.output comp.xfrm (comp.inbuf ++ remaining)).length ∨
          comp' = comp ∧ comp.inbuf.length < bufsz) := by
  unfold OstreamXfrm.makeRoom
  split
  · rename_i hge
    rcases h.block htakes hkeep (Nat.le_antisymm h.inbuf_le hge) hne with hfail | hok
    · exact Or.inl hfail
    · obtain ⟨comp', hflush, hstands, hless⟩ := hok
      exact Or.inr ⟨comp', hflush, hstands, Or.inl hless⟩
  · rename_i hlt
    exact Or.inr ⟨comp, rfl, h, Or.inr ⟨rfl, Nat.lt_of_not_le hlt⟩⟩

/-- A bound on the rounds that appending `data` takes. -/
def rounds (X : Encoder τ) (comp : OstreamXfrm τ ω) (data remaining : List UInt8) : Nat :=
  2 * data.length + comp.inbuf.length +
    (X.output comp.xfrm (comp.inbuf ++ (data ++ remaining))).length

theorem appendLoop_succ (fuel : Nat) {data : List UInt8} (hdata : data ≠ []) :
    appendLoop process strm (fuel + 1) data comp =
      (makeRoom process strm comp).bind fun _ comp =>
        appendLoop process strm fuel
          (data.drop (min (bufsz - comp.inbuf.length) data.length))
          { comp with inbuf := comp.inbuf ++
              data.take (min (bufsz - comp.inbuf.length) data.length) } := by
  cases data with
  | nil => exact absurd rfl hdata
  | cons b data => rfl

theorem Stands.appendLoop (htakes : strm.Takes received)
    (hkeep : KeepsUnread X.process s₀ content) (fuel : Nat) {data : List UInt8}
    (h : Stands X received s₀ w₀ content comp (data ++ remaining))
    (hfuel : rounds X comp data remaining ≤ fuel) :
    (∃ comp', appendLoop X.process strm fuel data comp = .fail comp') ∧
        ¬ Accepts X.process s₀ content ∨
      ∃ comp', appendLoop X.process strm fuel data comp = .ok () comp' ∧
        Stands X received s₀ w₀ content comp' remaining := by
  induction fuel generalizing comp data with
  | zero =>
      have hnil : data = [] := by
        unfold rounds at hfuel
        apply List.length_eq_zero_iff.1
        omega
      subst hnil
      exact Or.inr ⟨comp, rfl, h⟩
  | succ fuel ih =>
      by_cases hdata : data = []
      · subst hdata
        exact Or.inr ⟨comp, rfl, h⟩
      · rw [appendLoop_succ fuel hdata]
        have hne : data ++ remaining ≠ [] := by
          intro hnil
          exact hdata (List.append_eq_nil_iff.1 hnil).1
        rcases h.makeRoom htakes hkeep hne with ⟨⟨comp', hfail⟩, haccepts⟩ | hok
        · rw [hfail]
          exact Or.inl ⟨⟨comp', rfl⟩, haccepts⟩
        · obtain ⟨comp₁, hroom, hstands, hless⟩ := hok
          rw [hroom]
          have hcopy := hstands.copy
            (Nat.min_le_left (bufsz - comp₁.inbuf.length) data.length)
          apply ih hcopy
          have hpos := List.length_pos_iff.2 hdata
          have hle := hstands.inbuf_le
          unfold rounds at hfuel ⊢
          rw [List.length_drop]
          change _ + (comp₁.inbuf ++ data.take _).length + (X.output comp₁.xfrm
            (comp₁.inbuf ++ data.take _ ++ (data.drop _ ++ remaining))).length ≤ fuel
          rw [List.append_assoc, ← List.append_assoc (data.take _), List.take_append_drop,
            List.length_append, List.length_take]
          rcases hless with hflushed | ⟨rfl, hlt⟩
          · omega
          · omega

/-- A bound on the rounds that holds at any time of a run. -/
theorem Stands.rounds_le {data : List UInt8}
    (h : Stands X received s₀ w₀ content comp (data ++ remaining)) :
    rounds X comp data remaining ≤
      2 * content.length + (received w₀).length + (X.output s₀ content).length := by
  have hrest := h.reached.length_le
  have hwritten := congrArg List.length h.written
  rw [List.length_append, List.length_append] at hrest hwritten
  unfold rounds
  omega

theorem Stands.appends (htakes : strm.Takes received)
    (hkeep : KeepsUnread X.process s₀ content) (fuel : Nat)
    (hfuel : 2 * content.length + (received w₀).length + (X.output s₀ content).length ≤ fuel)
    {pieces : List (List UInt8)} (h : Stands X received s₀ w₀ content comp pieces.flatten) :
    (∃ comp', appends X.process strm fuel pieces comp = .fail comp') ∧
        ¬ Accepts X.process s₀ content ∨
      ∃ comp', appends X.process strm fuel pieces comp = .ok () comp' ∧
        Stands X received s₀ w₀ content comp' [] := by
  induction pieces generalizing comp with
  | nil => exact Or.inr ⟨comp, rfl, h⟩
  | cons data pieces ih =>
      rw [List.flatten_cons] at h
      change (∃ comp', (OstreamXfrm.appendLoop X.process strm fuel data comp).bind _ =
        .fail comp') ∧ _ ∨ ∃ comp',
          (OstreamXfrm.appendLoop X.process strm fuel data comp).bind _ = .ok () comp' ∧ _
      rcases h.appendLoop htakes hkeep fuel (Nat.le_trans h.rounds_le hfuel) with
        ⟨⟨comp', hfail⟩, haccepts⟩ | ⟨comp', hok, hstands⟩
      · rw [hfail]
        exact Or.inl ⟨⟨comp', rfl⟩, haccepts⟩
      · rw [hok]
        exact ih hstands

/-- Behind the last block there is one state only. -/
theorem Stands.last (h : Stands X received s₀ w₀ content comp []) {s : τ} {rest : List UInt8}
    (hblocks : Blocks X.process s₀ content s rest) :
    bufsz < rest.length ∧ (blockCall X.process s rest).ret ≠ .bufferFull ∨
      s = comp.xfrm ∧ rest = comp.inbuf := by
  rcases h.past s rest hblocks with hbefore | hahead
  · exact Or.inl hbefore
  · rw [List.append_nil] at hahead
    rcases hahead.ahead with heq | ⟨hlt, _⟩
    · exact Or.inr heq
    · exact absurd hlt (Nat.not_lt.2 h.inbuf_le)

theorem Stands.accepts (h : Stands X received s₀ w₀ content comp []) :
    Accepts X.process s₀ content := by
  intro s rest hblocks hlt
  rcases h.last hblocks with ⟨_, hret⟩ | ⟨rfl, rfl⟩
  · exact hret
  · exact absurd hlt (Nat.not_lt.2 h.inbuf_le)

theorem Stands.finishes_iff (h : Stands X received s₀ w₀ content comp []) :
    Finishes X s₀ content ↔ if comp.inbuf = [] then X.output comp.xfrm [] = []
      else (X.process comp.xfrm comp.inbuf bufsz .full).ret = .end := by
  constructor
  · intro hfinishes
    have hreached := h.reached
    rw [List.append_nil] at hreached
    exact hfinishes _ _ hreached h.inbuf_le
  · intro hlast s rest hblocks hle
    rcases h.last hblocks with ⟨hlt, _⟩ | ⟨rfl, rfl⟩
    · exact absurd hlt (Nat.not_lt.2 hle)
    · exact hlast

/-- Once all has been appended, what is delivered depends on one more call. -/
theorem Stands.drain (htakes : strm.Takes received)
    (h : Stands X received s₀ w₀ content comp []) :
    (∃ comp', drain X.process strm comp = .ok () comp' ∧
      received comp'.wrapped = received w₀ ++ X.output s₀ content) ↔
        Finishes X s₀ content := by
  rw [h.finishes_iff, ← h.written, List.append_nil]
  by_cases hnil : comp.inbuf = []
  · have hdrain : OstreamXfrm.drain X.process strm comp = .ok () comp := by
      unfold OstreamXfrm.drain
      rw [hnil]
      rfl
    rw [if_pos hnil, hdrain, hnil]
    constructor
    · rintro ⟨comp', hok, hall⟩
      cases hok
      exact List.self_eq_append_right.1 hall
    · intro hnone
      exact ⟨comp, rfl, List.self_eq_append_right.2 hnone⟩
  · have hdrain : OstreamXfrm.drain X.process strm comp =
        flushXfrm X.process strm .full comp := by
      unfold OstreamXfrm.drain
      rw [if_pos (List.length_pos_iff.2 hnil)]
    have hvalid := h.valid
    rw [List.append_nil] at hvalid
    have hoffered : Offered comp.inbuf comp.inbuf .full :=
      ⟨List.prefix_rfl, id, fun _ => rfl, XfrmFlush.noConfusion⟩
    have hemits := X.emits _ _ _ bufsz _ hvalid hoffered
    have hends := X.ends _ _ _ bufsz _ hvalid hoffered
    have hnoError := X.noError _ _ _ bufsz _ hvalid hoffered
    obtain ⟨r, hr⟩ : ∃ r, X.process comp.xfrm comp.inbuf bufsz .full = r := ⟨_, rfl⟩
    rw [hr] at hemits hends hnoError
    rw [if_neg hnil, hdrain, hr, hends, hemits]
    by_cases hbf : r.ret = .bufferFull
    · obtain ⟨comp', hfail⟩ : ∃ comp', flushXfrm X.process strm .full comp = .fail comp' :=
        flushXfrm_fail (hr.symm ▸ hbf)
      rw [hfail]
      constructor
      · rintro ⟨_, hok, _⟩
        cases hok
      · intro hall
        have hend := hends.2 hall
        rw [hbf] at hend
        cases hend
    · obtain ⟨w, hflush, hreceived⟩ := flushXfrm_ok htakes hr (XfrmRet.ok_or_end hnoError hbf)
      rw [hflush]
      constructor
      · rintro ⟨comp', hcomp, hall⟩
        cases hcomp
        rw [hreceived, ← List.append_assoc] at hall
        exact ⟨rfl, List.self_eq_append_right.1 hall⟩
      · rintro ⟨_, hnone⟩
        refine ⟨_, rfl, ?_⟩
        rw [hnone, List.append_nil]
        exact hreceived

/-- When the blocks leave their unread bytes at the front of the buffer, however the data
is split: all is delivered exactly when no block fills the output buffer and the one
call for what remains ends. -/
theorem delivered_iff (X : Encoder τ) (strm : Ostream ω) (received : ω → List UInt8)
    (htakes : strm.Takes received) (s₀ : τ) (w₀ : ω) (pieces : List (List UInt8))
    (hvalid : X.valid s₀ pieces.flatten) (hkeep : KeepsUnread X.process s₀ pieces.flatten) :
    Delivered X strm received s₀ w₀ pieces ↔
      Accepts X.process s₀ pieces.flatten ∧ Finishes X s₀ pieces.flatten := by
  have hstart : Stands X received s₀ w₀ pieces.flatten (create w₀ s₀) pieces.flatten :=
    create_stands hvalid
  constructor
  · rintro ⟨enough, hruns⟩
    obtain ⟨comp, comp', happends, hdrain, hall⟩ := hruns (max enough _) (Nat.le_max_left ..)
    rcases hstart.appends htakes hkeep _ (Nat.le_max_right enough _) with
      ⟨⟨_, hfail⟩, _⟩ | ⟨comp₁, hok, hstands⟩
    · rw [hfail] at happends
      cases happends
    · rw [hok] at happends
      cases happends
      exact ⟨hstands.accepts, (hstands.drain htakes).1 ⟨comp', hdrain, hall⟩⟩
  · rintro ⟨haccepts, hfinishes⟩
    refine ⟨2 * pieces.flatten.length + (received w₀).length +
      (X.output s₀ pieces.flatten).length, ?_⟩
    intro fuel hfuel
    rcases hstart.appends htakes hkeep fuel hfuel with ⟨_, hnot⟩ | ⟨comp, hok, hstands⟩
    · exact absurd haccepts hnot
    · obtain ⟨comp', hdrain, hall⟩ := (hstands.drain htakes).2 hfinishes
      exact ⟨comp, comp', hok, hdrain, hall⟩

end OstreamXfrm

/-! ## A codec that writes one byte a call -/

/-- A stream that keeps what it is given. -/
def collecting : Ostream (List UInt8) where
  append data := Call.modify (· ++ data)
  flush := pure ()

theorem collecting_takes : collecting.Takes id := fun w data => ⟨w ++ data, rfl, rfl⟩

/-- A codec that changes nothing.  It reads all of its input and writes one byte of what
it holds back. -/
def oneByOne : Encoder (List UInt8) where
  process s chunk room mode :=
    { ret := if mode = .full ∧ (s ++ chunk).drop (min 1 room) = [] then .end else .ok
      inRead := chunk.length
      out := (s ++ chunk).take (min 1 room)
      state := (s ++ chunk).drop (min 1 room) }
  output s rest := s ++ rest
  valid _ _ := True
  inRead_le _ _ _ _ _ _ _ := Nat.le_refl _
  out_le _ _ _ _ _ _ _ := by
    rw [List.length_take]
    omega
  emits s rest chunk room mode _ hoffered := by
    obtain ⟨more, rfl⟩ := hoffered.isPrefix
    rw [List.drop_left, ← List.append_assoc, ← List.append_assoc, List.take_append_drop]
  keeps _ _ _ _ _ _ _ := trivial
  progress _ _ _ _ _ _ _ hchunk _ _ := Or.inl (List.length_pos_iff.2 hchunk)
  noError s rest chunk room mode _ _ := by
    dsimp only
    split <;> exact XfrmRet.noConfusion
  ends s rest chunk room mode _ hoffered := by
    dsimp only
    by_cases hfull : mode = .full
    · rw [hoffered.full hfull, List.drop_length, List.append_nil]
      split <;> simp_all
    · rw [if_neg fun h => hfull h.1]
      simp [hfull]

theorem oneByOne_keepsUnread (s₀ content : List UInt8) :
    OstreamXfrm.KeepsUnread oneByOne.process s₀ content := by
  intro s rest _ _
  change OstreamXfrm.leftover (rest.take bufsz) (rest.take bufsz).length =
    (rest.take bufsz).drop (rest.take bufsz).length
  rw [OstreamXfrm.leftover_eq, Nat.sub_self, List.take_zero, List.drop_length]

theorem oneByOne_delivered :
    OstreamXfrm.Delivered oneByOne collecting id [] [] [[1]] ↔
      OstreamXfrm.Accepts oneByOne.process [] [1] ∧ OstreamXfrm.Finishes oneByOne [] [1] :=
  OstreamXfrm.delivered_iff oneByOne collecting id collecting_takes [] [] [[1]] trivial
    (oneByOne_keepsUnread [] [1])

/-- The second byte stays in the codec: the wrapped stream is flushed without it. -/
theorem oneByOne_loses :
    oneByOne.valid [] [1, 2] ∧ collecting.Takes id ∧
      ¬ OstreamXfrm.Delivered oneByOne collecting id [] [] [[1, 2]] := by
  refine ⟨trivial, collecting_takes, ?_⟩
  rintro ⟨enough, hruns⟩
  obtain ⟨comp, comp', happends, hdrain, hall⟩ := hruns (enough + 2) (Nat.le_add_right ..)
  cases happends
  cases hdrain
  cases hall

end ImageTool.Fstream
