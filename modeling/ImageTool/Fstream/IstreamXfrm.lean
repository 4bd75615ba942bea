import ImageTool.Fstream.FileIstream
import ImageTool.Fstream.Xfrm

/-!
# Decompressing streams

An input stream over another one that hands the bytes to a codec.
-/

namespace ImageTool.Fstream

open ImageTool.Lib

section IstreamXfrm

variable {τ ω : Type}

/-- `istream_xfrm_t`: the fields of the stream, then the codec and the wrapped stream. -/
abbrev IstreamXfrm (τ ω : Type) := Istream (τ × Istream ω)

namespace IstreamXfrm

/-- What a call of `process_data` has written and read is accounted for. -/
def account (base : IstreamXfrm τ ω) (w : Istream ω) (r : XfrmResult τ) : IstreamXfrm τ ω :=
  ⟨base.buffer ++ r.out, base.bufferOffset, base.eof, r.state, w.consume r.inRead⟩

/-- The loop of `precache`.  Every round but the last one writes to the buffer. -/
def precacheLoop (process : ProcessData τ) (wrapped : Call (Istream ω) Unit) :
    Nat → XfrmFlush → Call (IstreamXfrm τ ω) Unit
  | 0, _ => Call.stuck
  | fuel + 1, mode => fun base =>
      match Istream.precache wrapped base.inner.2 with
      | .stuck => .stuck
      | .fail w => .fail { base with inner := (base.inner.1, w) }
      | .ok _ w =>
          let mode := if w.eof then .full else mode
          let r := process base.inner.1 w.buffer (bufsz - base.buffer.length) mode
          if r.ret = .error then .fail { base with inner := (r.state, w) }
          else if r.ret = .end then .ok () { base.account w r with eof := true }
          else if r.ret ≠ .ok ∨ r.out.length = 0 then .ok () (base.account w r)
          else precacheLoop process wrapped fuel mode (base.account w r)

/-- `precache`. -/
def precache (process : ProcessData τ) (wrapped : Call (Istream ω) Unit) :
    Call (IstreamXfrm τ ω) Unit :=
  precacheLoop process wrapped (bufsz + 1) .none

/-- `istream_xfrm_create`. -/
def create (strm : Istream ω) (xfrm : τ) : IstreamXfrm τ ω := ⟨[], 0, false, (xfrm, strm)⟩

/-! ## The calls of the codec -/

/-- The flush mode once the wrapped stream has been asked. -/
def modeOf (w : Istream ω) (mode : XfrmFlush) : XfrmFlush := if w.eof then .full else mode

/-- A call of `process_data` with `used` bytes in the output buffer. -/
def call (process : ProcessData τ) (s : τ) (w : Istream ω) (used : Nat) (mode : XfrmFlush) :
    XfrmResult τ :=
  process s w.buffer (bufsz - used) (modeOf w mode)

/-- The calls a reader who reads on causes: the state of the codec, the wrapped stream
before it is asked, how much of the output buffer is used, and the flush mode so far. -/
inductive Calls (process : ProcessData τ) (wrapped : Call (Istream ω) Unit) (s₀ : τ)
    (w₀ : Istream ω) : τ → Istream ω → Nat → XfrmFlush → Prop where
  | start : Calls process wrapped s₀ w₀ s₀ w₀ 0 .none
  | again {s w w' used mode} : Calls process wrapped s₀ w₀ s w used mode →
      Istream.precache wrapped w = .ok () w' → (call process s w' used mode).ret = .ok →
      (call process s w' used mode).out ≠ [] →
      Calls process wrapped s₀ w₀ (call process s w' used mode).state
        (w'.consume (call process s w' used mode).inRead)
        (used + (call process s w' used mode).out.length) (modeOf w' mode)
  | next {s w w' used mode} : Calls process wrapped s₀ w₀ s w used mode →
      Istream.precache wrapped w = .ok () w' → (call process s w' used mode).ret ≠ .end →
      ((call process s w' used mode).ret ≠ .ok ∨ (call process s w' used mode).out = []) →
      0 < used + (call process s w' used mode).out.length →
      Calls process wrapped s₀ w₀ (call process s w' used mode).state
        (w'.consume (call process s w' used mode).inRead) 0 .none

/-- Every call that finds the output buffer empty writes something or ends. -/
def NeverStalls (process : ProcessData τ) (wrapped : Call (Istream ω) Unit) (s₀ : τ)
    (w₀ : Istream ω) : Prop :=
  ∀ s w w' mode, Calls process wrapped s₀ w₀ s w 0 mode →
    Istream.precache wrapped w = .ok () w' →
    (call process s w' 0 mode).ret = .end ∨ (call process s w' 0 mode).out ≠ []

variable {X : Decoder τ} {wrapped : Call (Istream ω) Unit}
variable {wholds : Istream ω → List UInt8 → Prop} {s₀ : τ} {w₀ : Istream ω}

theorem precacheLoop_succ {process : ProcessData τ} {base : IstreamXfrm τ ω} {w : Istream ω}
    (fuel : Nat) (mode : XfrmFlush)
    (hw : Istream.precache wrapped base.inner.2 = .ok () w) {r : XfrmResult τ}
    (hr : call process base.inner.1 w base.buffer.length mode = r) :
    precacheLoop process wrapped (fuel + 1) mode base =
      if r.ret = .error then .fail { base with inner := (r.state, w) }
      else if r.ret = .end then .ok () { base.account w r with eof := true }
      else if r.ret ≠ .ok ∨ r.out.length = 0 then .ok () (base.account w r)
      else precacheLoop process wrapped fuel (modeOf w mode) (base.account w r) := by
  subst hr
  simp only [precacheLoop, hw]
  rfl

/-- Where the loop stands: what the wrapped stream holds, and that the flush mode is set
only when it has ended. -/
structure Stands (X : Decoder τ) (wholds : Istream ω → List UInt8 → Prop) (s : τ)
    (w : Istream ω) (mode : XfrmFlush) (content : List UInt8) : Prop where
  holds : wholds w content
  valid : X.valid s content
  full : mode = .full → w.eof = true
  notSync : mode ≠ .sync

/-- One call, against the contract of the codec. -/
structure Advances (X : Decoder τ) (wholds : Istream ω → List UInt8 → Prop) (s : τ)
    (w' : Istream ω) (used : Nat) (mode : XfrmFlush) (content : List UInt8) : Prop where
  noError : (call X.process s w' used mode).ret ≠ .error
  out_le : (call X.process s w' used mode).out.length ≤ bufsz - used
  output : X.output s content = (call X.process s w' used mode).out ++
    X.output (call X.process s w' used mode).state
      (content.drop (call X.process s w' used mode).inRead)
  ends : (call X.process s w' used mode).ret = .end ↔
    X.output (call X.process s w' used mode).state
      (content.drop (call X.process s w' used mode).inRead) = []
  again : Stands X wholds (call X.process s w' used mode).state
    (w'.consume (call X.process s w' used mode).inRead) (modeOf w' mode)
    (content.drop (call X.process s w' used mode).inRead)
  next : Stands X wholds (call X.process s w' used mode).state
    (w'.consume (call X.process s w' used mode).inRead) .none
    (content.drop (call X.process s w' used mode).inRead)

theorem Stands.advance (hw : Istream.Carries wrapped wholds) {s : τ} {w : Istream ω}
    {mode : XfrmFlush} {content : List UInt8} (h : Stands X wholds s w mode content)
    (used : Nat) : ∃ w', Istream.precache wrapped w = .ok () w' ∧
      Advances X wholds s w' used mode content := by
  obtain ⟨w', hcall, hold', hoff, hempty⟩ := hw.precache w content h.holds
  have hbuffer : w'.unread = w'.buffer := by
    unfold Istream.unread
    rw [hoff, List.drop_zero]
  have hkeep : w.eof = true → w'.eof = true := by
    intro heof
    unfold Istream.precache at hcall
    rw [Istream.compact_eq] at hcall
    rw [if_pos heof] at hcall
    cases hcall
    exact heof
  have heof : modeOf w' mode = .full → w'.eof = true := by
    unfold modeOf
    intro hfull
    split at hfull
    · assumption
    · exact hkeep (h.full hfull)
  have hsync : modeOf w' mode ≠ .sync := by
    unfold modeOf
    split
    · exact XfrmFlush.noConfusion
    · exact h.notSync
  have hoffered : Offered w'.buffer content (modeOf w' mode) := by
    refine ⟨hbuffer ▸ hw.unread w' content hold', hempty, ?_, hsync⟩
    intro hfull
    rw [← hbuffer]
    exact hw.eof w' content hold' (heof hfull)
  have hread := X.inRead_le s content w'.buffer (bufsz - used) (modeOf w' mode) h.valid hoffered
  have hold'' := hw.consume w' content (call X.process s w' used mode).inRead hold'
    (hbuffer.symm ▸ hread)
  have hvalid := X.keeps s content w'.buffer (bufsz - used) (modeOf w' mode) h.valid hoffered
  refine ⟨w', hcall, ?_⟩
  constructor
  · exact X.noError s content w'.buffer _ _ h.valid hoffered
  · exact X.out_le s content w'.buffer _ _ h.valid hoffered
  · exact X.emits s content w'.buffer _ _ h.valid hoffered
  · exact X.ends s content w'.buffer _ _ h.valid hoffered
  · exact ⟨hold'', hvalid, heof, hsync⟩
  · exact ⟨hold'', hvalid, XfrmFlush.noConfusion, XfrmFlush.noConfusion⟩

/-! ## A codec that never stalls -/

/-- What the wrapper has yet to deliver if the codec never stalls. -/
def Holds (X : Decoder τ) (wrapped : Call (Istream ω) Unit)
    (wholds : Istream ω → List UInt8 → Prop) (s₀ : τ) (w₀ : Istream ω)
    (base : IstreamXfrm τ ω) (rest : List UInt8) : Prop :=
  ∃ content, Stands X wholds base.inner.1 base.inner.2 .none content ∧
    rest = base.unread ++ X.output base.inner.1 content ∧
    (base.eof = true → X.output base.inner.1 content = []) ∧
    (base.eof = false → Calls X.process wrapped s₀ w₀ base.inner.1 base.inner.2 0 .none)

theorem unread_zero {base : IstreamXfrm τ ω} (h : base.bufferOffset = 0) :
    base.unread = base.buffer := by
  unfold Istream.unread
  rw [h, List.drop_zero]

/-- The loop leaves a buffer that is not empty, or nothing is left. -/
theorem precacheLoop_holds (hw : Istream.Carries wrapped wholds)
    (hstall : NeverStalls X.process wrapped s₀ w₀) (fuel : Nat) (mode : XfrmFlush)
    (base : IstreamXfrm τ ω) (content : List UInt8) (heof : base.eof = false)
    (hoff : base.bufferOffset = 0) (hlen : base.buffer.length ≤ bufsz)
    (hfuel : bufsz < fuel + base.buffer.length)
    (hstands : Stands X wholds base.inner.1 base.inner.2 mode content)
    (hcalls : Calls X.process wrapped s₀ w₀ base.inner.1 base.inner.2 base.buffer.length mode) :
    ∃ base', precacheLoop X.process wrapped fuel mode base = .ok () base' ∧
      Holds X wrapped wholds s₀ w₀ base' (base.buffer ++ X.output base.inner.1 content) ∧
      base'.bufferOffset = 0 ∧
      (base'.buffer = [] → base.buffer ++ X.output base.inner.1 content = []) := by
  induction fuel generalizing mode base content with
  | zero => omega
  | succ fuel ih =>
      obtain ⟨w', hcall, hadv⟩ := hstands.advance hw base.buffer.length
      obtain ⟨r, hr⟩ : ∃ r, call X.process base.inner.1 w' base.buffer.length mode = r :=
        ⟨_, rfl⟩
      rw [precacheLoop_succ fuel mode hcall hr, if_neg (hr ▸ hadv.noError)]
      have hnext : Stands X wholds r.state (w'.consume r.inRead) .none
          (content.drop r.inRead) := hr ▸ hadv.next
      have houtput : X.output base.inner.1 content = r.out ++
          X.output r.state (content.drop r.inRead) := hr ▸ hadv.output
      have hunread : (base.account w' r).unread = base.buffer ++ r.out := unread_zero hoff
      have hrest : base.buffer ++ X.output base.inner.1 content = (base.account w' r).unread ++
          X.output r.state (content.drop r.inRead) := by
        rw [hunread, houtput, List.append_assoc]
      by_cases hend : r.ret = .end
      · rw [if_pos hend]
        have hnil : X.output r.state (content.drop r.inRead) = [] :=
          (hr ▸ hadv.ends : r.ret = .end ↔ _).1 hend
        refine ⟨_, rfl, ⟨content.drop r.inRead, hnext, hrest, fun _ => hnil, nofun⟩, hoff, ?_⟩
        intro hempty
        rw [hrest, hnil, hunread, List.append_nil]
        exact hempty
      · rw [if_neg hend]
        by_cases hstop : r.ret ≠ .ok ∨ r.out.length = 0
        · rw [if_pos hstop]
          -- the buffer cannot be empty: the call would have stalled
          have hpos : 0 < base.buffer.length + r.out.length := by
            rcases Nat.eq_zero_or_pos base.buffer.length with hzero | hpos
            · rw [hzero] at hcalls hr ⊢
              have hwrote := hstall _ _ w' mode hcalls hcall
              rw [hr] at hwrote
              have hne := List.length_pos_iff.2 (hwrote.resolve_left hend)
              omega
            · omega
          have hreached : Calls X.process wrapped s₀ w₀ r.state (w'.consume r.inRead) 0 .none := by
            subst hr
            exact Calls.next hcalls hcall hend (hstop.imp_right List.length_eq_zero_iff.1) hpos
          refine ⟨_, rfl, ⟨content.drop r.inRead, hnext, hrest, ?_, fun _ => hreached⟩, hoff, ?_⟩
          · intro htrue
            change base.eof = true at htrue
            rw [heof] at htrue
            cases htrue
          · intro hempty
            have hzero := congrArg List.length hempty
            change (base.buffer ++ r.out).length = 0 at hzero
            rw [List.length_append] at hzero
            omega
        · rw [if_neg hstop]
          rw [not_or, not_not] at hstop
          obtain ⟨hok, hwrote⟩ := hstop
          have hroom : r.out.length ≤ bufsz - base.buffer.length := hr ▸ hadv.out_le
          have hgrown : (base.account w' r).buffer.length = base.buffer.length + r.out.length :=
            List.length_append
          have hreached : Calls X.process wrapped s₀ w₀ r.state (w'.consume r.inRead)
              (base.account w' r).buffer.length (modeOf w' mode) := by
            rw [hgrown]
            subst hr
            exact Calls.again hcalls hcall hok fun hnil => hwrote (List.length_eq_zero_iff.2 hnil)
          obtain ⟨base', hloop, hholds, hoff', hempty⟩ :=
            ih (modeOf w' mode) (base.account w' r) (content.drop r.inRead) heof hoff
              (by omega) (by omega) (hr ▸ hadv.again) hreached
          have heq : (base.account w' r).buffer ++ X.output r.state (content.drop r.inRead) =
              base.buffer ++ X.output base.inner.1 content := by
            rw [houtput, ← List.append_assoc]
            rfl
          change Holds X wrapped wholds s₀ w₀ base'
            ((base.account w' r).buffer ++ X.output r.state (content.drop r.inRead)) at hholds
          change base'.buffer = [] →
            (base.account w' r).buffer ++ X.output r.state (content.drop r.inRead) = [] at hempty
          rw [heq] at hholds hempty
          exact ⟨base', hloop, hholds, hoff', hempty⟩

/-- A codec that never stalls makes the wrapper a stream of the codec's output. -/
theorem refills_of_neverStalls (hw : Istream.Carries wrapped wholds)
    (hstall : NeverStalls X.process wrapped s₀ w₀) :
    Istream.Refills (precache X.process wrapped) (Holds X wrapped wholds s₀ w₀) where
  unread base rest h := by
    obtain ⟨content, _, rfl, _⟩ := h
    exact List.prefix_append ..
  consume base rest n h hn := by
    obtain ⟨content, hstands, rfl, hend, hcalls⟩ := h
    refine ⟨content, hstands, ?_, hend, hcalls⟩
    rw [List.drop_append_of_le_length hn]
    change base.unread.drop n ++ _ = base.buffer.drop (base.bufferOffset + n) ++ _
    unfold Istream.unread
    rw [List.drop_drop]
    rfl
  refill base rest h hempty := by
    obtain ⟨content, hstands, rfl, hend, hcalls⟩ := h
    rw [Istream.precache, Istream.compact_eq, hempty, List.nil_append]
    cases heof : base.eof with
    | true =>
        refine ⟨_, if_pos rfl, ⟨content, hstands, rfl, ?_, ?_⟩, rfl, fun _ => hend heof⟩
        · exact fun _ => hend heof
        · intro hfalse
          exact Bool.noConfusion hfalse
    | false =>
        obtain ⟨base', hloop, hholds, hoff, hnil⟩ := precacheLoop_holds hw hstall (bufsz + 1)
          .none ⟨[], 0, false, base.inner⟩ content rfl rfl (Nat.zero_le _) (Nat.lt_succ_self _)
          hstands (hcalls heof)
        exact ⟨base', (if_neg Bool.false_ne_true).trans hloop, hholds, hoff, hnil⟩

/-! ## A codec that stalls -/

/-- Reads of one byte each. -/
def ones : Nat → Nat := fun _ => 1

theorem read_one_congr {callback : Call (IstreamXfrm τ ω) Unit} {base base' : IstreamXfrm τ ω}
    (h : Istream.refill callback base = Istream.refill callback base') :
    Istream.read callback 1 base = Istream.read callback 1 base' := by
  change (Istream.refill callback base).bind _ = (Istream.refill callback base').bind _
  rw [h]

theorem drained_congr {callback : Call (IstreamXfrm τ ω) Unit} {base base' : IstreamXfrm τ ω}
    {out : List UInt8} (hread : Istream.read callback 1 base = Istream.read callback 1 base')
    (h : Istream.Drained callback base' ones out) : Istream.Drained callback base ones out := by
  cases h with
  | done hdone => exact .done (hread.trans hdone)
  | more hmore hdata hrest => exact .more (hread.trans hmore) hdata hrest

/-- Reading what is in the buffer byte by byte. -/
theorem drained_buffer {callback : Call (IstreamXfrm τ ω) Unit} {base : IstreamXfrm τ ω}
    {out : List UInt8}
    (h : Istream.Drained callback { base with bufferOffset := base.buffer.length } ones out)
    (hoff : base.bufferOffset ≤ base.buffer.length) :
    Istream.Drained callback base ones (base.unread ++ out) := by
  induction hn : base.buffer.length - base.bufferOffset generalizing base with
  | zero =>
      have heq : base.bufferOffset = base.buffer.length := by omega
      have hnil : base.unread = [] := Istream.unread_eq_nil.2 (Nat.le_of_eq heq.symm)
      rw [hnil, List.nil_append]
      rw [← heq] at h
      exact h
  | succ n ih =>
      have hlt : base.bufferOffset < base.buffer.length := by omega
      have hunread : base.unread =
          base.buffer[base.bufferOffset] :: (base.consume 1).unread :=
        List.drop_eq_getElem_cons hlt
      have hread : Istream.read callback (ones 0) base =
          .ok [base.buffer[base.bufferOffset]] (base.consume 1) := by
        have hrefill : Istream.refill callback base = .ok () base :=
          if_neg (Nat.not_le.2 hlt)
        have hmin : min (base.buffer.length - base.bufferOffset) 1 = 1 := by omega
        change Istream.readLoop callback 1 1 base = _
        rw [Istream.readLoop_succ 0 0 hrefill, if_neg (by omega), hmin, hunread]
        rfl
      have hleft : (base.consume 1).buffer.length - (base.consume 1).bufferOffset = n := by
        change base.buffer.length - (base.bufferOffset + 1) = n
        omega
      have hrest : Istream.Drained callback (base.consume 1) ones
          ((base.consume 1).unread ++ out) := ih h hlt hleft
      rw [hunread]
      change Istream.Drained callback base ones
        ([base.buffer[base.bufferOffset]] ++ ((base.consume 1).unread ++ out))
      exact .more hread (List.cons_ne_nil _ _) hrest

theorem refill_ready {callback : Call (IstreamXfrm τ ω) Unit} {base : IstreamXfrm τ ω}
    (hoff : base.bufferOffset = 0) (hne : base.buffer ≠ []) :
    Istream.refill callback base = .ok () base := by
  apply if_neg
  rw [hoff]
  exact Nat.not_le.2 (List.length_pos_iff.2 hne)

theorem refill_used {process : ProcessData τ} {base : IstreamXfrm τ ω} (heof : base.eof = false)
    (hused : base.bufferOffset = base.buffer.length) :
    Istream.refill (precache process wrapped) base =
      precacheLoop process wrapped (bufsz + 1) .none ⟨[], 0, false, base.inner⟩ := by
  have hnil : base.unread = [] := Istream.unread_eq_nil.2 (Nat.le_of_eq hused.symm)
  unfold Istream.refill
  rw [if_pos (Nat.le_of_eq hused.symm), Istream.precache, Istream.compact_eq, hnil, heof]
  rfl

theorem precacheLoop_offset {process : ProcessData τ} {fuel : Nat} {mode : XfrmFlush}
    {base base' : IstreamXfrm τ ω}
    (h : precacheLoop process wrapped fuel mode base = .ok () base') :
    base'.bufferOffset = base.bufferOffset := by
  induction fuel generalizing mode base with
  | zero => cases h
  | succ fuel ih =>
      cases hw : Istream.precache wrapped base.inner.2 with
      | stuck =>
          simp only [precacheLoop, hw] at h
          cases h
      | fail w =>
          simp only [precacheLoop, hw] at h
          cases h
      | ok _ w =>
          rw [precacheLoop_succ fuel mode hw rfl] at h
          split at h
          · cases h
          split at h
          · cases h
            rfl
          split at h
          · cases h
            rfl
          · have hrest := ih h
            exact hrest

/-- Byte by byte, a reader gets to each call: `sofar` is what he has read when the round of
the call begins, and the rest of the round decides what he reads next. -/
structure Reached (X : Decoder τ) (wrapped : Call (Istream ω) Unit)
    (wholds : Istream ω → List UInt8 → Prop) (start base : IstreamXfrm τ ω) (mode : XfrmFlush)
    (fuel : Nat) (sofar content all : List UInt8) : Prop where
  stands : Stands X wholds base.inner.1 base.inner.2 mode content
  eof : base.eof = false
  offset : base.bufferOffset = 0
  length : base.buffer.length ≤ bufsz
  room : bufsz < fuel + base.buffer.length
  output : all = sofar ++ (base.buffer ++ X.output base.inner.1 content)
  goesOn : ∀ base' out, precacheLoop X.process wrapped fuel mode base = .ok () base' →
    base'.buffer ≠ [] → Istream.Drained (precache X.process wrapped) base' ones out →
    Istream.Drained (precache X.process wrapped) start ones (sofar ++ out)
  stops : ∀ base', precacheLoop X.process wrapped fuel mode base = .ok () base' →
    base'.buffer = [] → Istream.Drained (precache X.process wrapped) start ones sofar

/-- A round that begins with a used up buffer. -/
theorem Reached.ofUsed (used : IstreamXfrm τ ω) {start : IstreamXfrm τ ω}
    {sofar content all : List UInt8}
    (hstands : Stands X wholds used.inner.1 used.inner.2 .none content)
    (heof : used.eof = false) (hused : used.bufferOffset = used.buffer.length)
    (hall : all = sofar ++ X.output used.inner.1 content)
    (hstart : ∀ out, Istream.Drained (precache X.process wrapped) used ones out →
      Istream.Drained (precache X.process wrapped) start ones (sofar ++ out)) :
    Reached X wrapped wholds start ⟨[], 0, false, used.inner⟩ .none (bufsz + 1) sofar content
      all := by
  have hrefill : Istream.refill (precache X.process wrapped) used =
      precacheLoop X.process wrapped (bufsz + 1) .none ⟨[], 0, false, used.inner⟩ :=
    refill_used heof hused
  refine ⟨hstands, rfl, rfl, Nat.zero_le _, Nat.lt_succ_self _, hall, ?_, ?_⟩
  · intro base' out hloop hne hdrained
    apply hstart
    apply drained_congr _ hdrained
    apply read_one_congr
    rw [hrefill, hloop, refill_ready (precacheLoop_offset hloop) hne]
  · intro base' hloop hnil
    have hread : Istream.read (precache X.process wrapped) (ones 0) used = .ok [] base' := by
      change Istream.readLoop (precache X.process wrapped) 1 1 used = _
      rw [Istream.readLoop_succ 0 0 (hrefill.trans hloop)]
      exact if_pos (congrArg List.length hnil)
    have hdone := hstart [] (.done hread)
    rwa [List.append_nil] at hdone

section Round

variable {start base : IstreamXfrm τ ω} {mode : XfrmFlush} {fuel : Nat}
variable {sofar content all : List UInt8} {w' : Istream ω} {r : XfrmResult τ}

theorem Reached.exists_fuel
    (h : Reached X wrapped wholds start base mode fuel sofar content all) :
    ∃ n, fuel = n + 1 := by
  have hroom := h.room
  have hlength := h.length
  exact ⟨fuel - 1, by omega⟩

theorem Reached.advances (hw : Istream.Carries wrapped wholds)
    (h : Reached X wrapped wholds start base mode fuel sofar content all)
    (hcall : Istream.precache wrapped base.inner.2 = .ok () w') :
    Advances X wholds base.inner.1 w' base.buffer.length mode content := by
  obtain ⟨w'', hcall', hadv⟩ := h.stands.advance hw base.buffer.length
  cases hcall.symm.trans hcall'
  exact hadv

theorem Reached.output_eq (hw : Istream.Carries wrapped wholds)
    (h : Reached X wrapped wholds start base mode fuel sofar content all)
    (hcall : Istream.precache wrapped base.inner.2 = .ok () w')
    (hr : call X.process base.inner.1 w' base.buffer.length mode = r) :
    all = sofar ++ ((base.account w' r).buffer ++
      X.output r.state (content.drop r.inRead)) := by
  have houtput : X.output base.inner.1 content =
      r.out ++ X.output r.state (content.drop r.inRead) := hr ▸ (h.advances hw hcall).output
  rw [h.output, houtput, ← List.append_assoc base.buffer]
  rfl

/-- The round goes on. -/
theorem Reached.again (hw : Istream.Carries wrapped wholds)
    (h : Reached X wrapped wholds start base mode fuel sofar content all)
    (hcall : Istream.precache wrapped base.inner.2 = .ok () w')
    (hr : call X.process base.inner.1 w' base.buffer.length mode = r) (hok : r.ret = .ok)
    (hwrote : r.out ≠ []) : ∃ fuel', Reached X wrapped wholds start (base.account w' r)
      (modeOf w' mode) fuel' sofar (content.drop r.inRead) all := by
  obtain ⟨fuel, rfl⟩ := h.exists_fuel
  have hadv := h.advances hw hcall
  have hroom : r.out.length ≤ bufsz - base.buffer.length := hr ▸ hadv.out_le
  have hpos : 0 < r.out.length := List.length_pos_iff.2 hwrote
  have hgrown : (base.account w' r).buffer.length = base.buffer.length + r.out.length :=
    List.length_append
  have hfuel := h.room
  have hloop : precacheLoop X.process wrapped (fuel + 1) mode base =
      precacheLoop X.process wrapped fuel (modeOf w' mode) (base.account w' r) := by
    rw [precacheLoop_succ fuel mode hcall hr, hok, if_neg XfrmRet.noConfusion,
      if_neg XfrmRet.noConfusion, if_neg]
    intro hstop
    rcases hstop with hne | hzero
    · exact hne rfl
    · omega
  refine ⟨fuel, ?_⟩
  constructor
  · exact hr ▸ hadv.again
  · exact h.eof
  · exact h.offset
  · omega
  · omega
  · exact h.output_eq hw hcall hr
  · exact fun base' out hend => h.goesOn base' out (hloop.trans hend)
  · exact fun base' hend => h.stops base' (hloop.trans hend)

/-- The round ends. -/
theorem Reached.loop_eq (hw : Istream.Carries wrapped wholds)
    (h : Reached X wrapped wholds start base mode fuel sofar content all)
    (hcall : Istream.precache wrapped base.inner.2 = .ok () w')
    (hr : call X.process base.inner.1 w' base.buffer.length mode = r) (hend : r.ret ≠ .end)
    (hstop : r.ret ≠ .ok ∨ r.out = []) :
    precacheLoop X.process wrapped fuel mode base = .ok () (base.account w' r) := by
  obtain ⟨fuel, rfl⟩ := h.exists_fuel
  have hnoError : r.ret ≠ .error := hr ▸ (h.advances hw hcall).noError
  rw [precacheLoop_succ fuel mode hcall hr, if_neg hnoError, if_neg hend, if_pos]
  exact hstop.imp_right (congrArg List.length)

/-- The next round, when there was something to read. -/
theorem Reached.next (hw : Istream.Carries wrapped wholds)
    (h : Reached X wrapped wholds start base mode fuel sofar content all)
    (hcall : Istream.precache wrapped base.inner.2 = .ok () w')
    (hr : call X.process base.inner.1 w' base.buffer.length mode = r) (hend : r.ret ≠ .end)
    (hstop : r.ret ≠ .ok ∨ r.out = []) (hpos : 0 < base.buffer.length + r.out.length) :
    Reached X wrapped wholds start ⟨[], 0, false, (base.account w' r).inner⟩ .none (bufsz + 1)
      (sofar ++ (base.account w' r).buffer) (content.drop r.inRead) all := by
  have hloop := h.loop_eq hw hcall hr hend hstop
  have hne : (base.account w' r).buffer ≠ [] := by
    apply List.length_pos_iff.1
    change 0 < (base.buffer ++ r.out).length
    rwa [List.length_append]
  have hoff : (base.account w' r).bufferOffset = 0 := h.offset
  have hstands : Stands X wholds r.state (w'.consume r.inRead) .none (content.drop r.inRead) :=
    hr ▸ (h.advances hw hcall).next
  apply Reached.ofUsed { base.account w' r with
    bufferOffset := (base.account w' r).buffer.length } hstands h.eof rfl
  · rw [List.append_assoc]
    exact h.output_eq hw hcall hr
  · intro out hdrained
    have hbytes := drained_buffer hdrained (Nat.le_trans (Nat.le_of_eq hoff) (Nat.zero_le _))
    rw [unread_zero hoff] at hbytes
    rw [List.append_assoc]
    exact h.goesOn _ _ hloop hne hbytes

end Round

theorem Calls.reached (hw : Istream.Carries wrapped wholds) {content : List UInt8}
    (hold : wholds w₀ content) (hvalid : X.valid s₀ content) {s : τ} {w : Istream ω} {used : Nat}
    {mode : XfrmFlush} (h : Calls X.process wrapped s₀ w₀ s w used mode) :
    ∃ base fuel sofar content', base.inner = (s, w) ∧ base.buffer.length = used ∧
      Reached X wrapped wholds (create w₀ s₀) base mode fuel sofar content'
        (X.output s₀ content) := by
  induction h with
  | start =>
      have hstands : Stands X wholds s₀ w₀ .none content :=
        ⟨hold, hvalid, XfrmFlush.noConfusion, XfrmFlush.noConfusion⟩
      have hreached : Reached X wrapped wholds (create w₀ s₀) ⟨[], 0, false, (s₀, w₀)⟩ .none
          (bufsz + 1) [] content (X.output s₀ content) :=
        Reached.ofUsed (create w₀ s₀) hstands rfl rfl rfl fun out hdrained => hdrained
      exact ⟨_, _, _, _, rfl, rfl, hreached⟩
  | again _ hcall hok hwrote ih =>
      obtain ⟨base, fuel, sofar, content', hinner, rfl, hreached⟩ := ih
      obtain ⟨rfl, rfl⟩ : _ = base.inner.1 ∧ _ = base.inner.2 := Prod.ext_iff.1 hinner.symm
      obtain ⟨fuel', hagain⟩ := hreached.again hw hcall rfl hok hwrote
      exact ⟨_, fuel', sofar, _, rfl, List.length_append, hagain⟩
  | next _ hcall hend hstop hpos ih =>
      obtain ⟨base, fuel, sofar, content', hinner, rfl, hreached⟩ := ih
      obtain ⟨rfl, rfl⟩ : _ = base.inner.1 ∧ _ = base.inner.2 := Prod.ext_iff.1 hinner.symm
      exact ⟨_, _, _, _, rfl, rfl, hreached.next hw hcall rfl hend hstop hpos⟩

/-- A reader who reads byte by byte meets a call that stalls as the end of the stream. -/
theorem neverStalls_of_drained (hw : Istream.Carries wrapped wholds) {content : List UInt8}
    (hold : wholds w₀ content) (hvalid : X.valid s₀ content)
    (h : Istream.Drained (precache X.process wrapped) (create w₀ s₀) ones
      (X.output s₀ content)) : NeverStalls X.process wrapped s₀ w₀ := by
  intro s w w' mode hcalls hcall
  obtain ⟨base, fuel, sofar, content', hinner, hlen, hreached⟩ := hcalls.reached hw hold hvalid
  obtain ⟨rfl, rfl⟩ : s = base.inner.1 ∧ w = base.inner.2 := Prod.ext_iff.1 hinner.symm
  have hempty : base.buffer = [] := List.length_eq_zero_iff.1 hlen
  by_contra hstall
  rw [not_or, not_not] at hstall
  obtain ⟨hend, hnil⟩ := hstall
  obtain ⟨r, hr⟩ : ∃ r, call X.process base.inner.1 w' 0 mode = r := ⟨_, rfl⟩
  rw [hr] at hend hnil
  rw [← hlen] at hr
  have hbuffer : (base.account w' r).buffer = [] := by
    change base.buffer ++ r.out = []
    rw [hempty, hnil]
    rfl
  have hstops := hreached.stops _ (hreached.loop_eq hw hcall hr hend (Or.inr hnil)) hbuffer
  have hall := hreached.output_eq hw hcall hr
  have hsofar := h.unique hstops
  rw [hsofar, hbuffer, List.nil_append] at hall
  -- nothing would be left, so the call would have reported the end
  have hleft : X.output r.state (content'.drop r.inRead) = [] := List.self_eq_append_right.1 hall
  exact hend ((hr ▸ (hreached.advances hw hcall).ends : r.ret = .end ↔ _).2 hleft)

/-- Reads of any sizes until one returns 0 yield the whole output of the codec exactly when
no call that finds the output buffer empty writes nothing without having ended. -/
theorem drained_iff_neverStalls (X : Decoder τ) (wrapped : Call (Istream ω) Unit)
    (wholds : Istream ω → List UInt8 → Prop) (hw : Istream.Carries wrapped wholds) (s₀ : τ)
    (w₀ : Istream ω) (content : List UInt8) (hold : wholds w₀ content)
    (hvalid : X.valid s₀ content) :
    (∀ sizes : Nat → Nat, (∀ i, 0 < sizes i) →
      Istream.Drained (precache X.process wrapped) (create w₀ s₀) sizes (X.output s₀ content)) ↔
      NeverStalls X.process wrapped s₀ w₀ := by
  constructor
  · intro h
    exact neverStalls_of_drained hw hold hvalid (h ones fun _ => Nat.one_pos)
  · intro hstall sizes hpos
    have hstands : Stands X wholds s₀ w₀ .none content :=
      ⟨hold, hvalid, XfrmFlush.noConfusion, XfrmFlush.noConfusion⟩
    have hholds : Holds X wrapped wholds s₀ w₀ (create w₀ s₀) (X.output s₀ content) :=
      ⟨content, hstands, rfl, nofun, fun _ => .start⟩
    exact (refills_of_neverStalls hw hstall).drained hholds sizes hpos

end IstreamXfrm

end IstreamXfrm

/-! ## A codec that swallows input first -/

/-- A codec for a fixed output: it swallows some bytes of its input before it writes.  The
state is the number of bytes to swallow and the output to be written. -/
def swallowing : Decoder (Nat × List UInt8) where
  process s chunk room _ :=
    if 0 < min s.1 chunk.length then
      ⟨if s.2 = [] then .end else .ok, min s.1 chunk.length, [],
        (s.1 - min s.1 chunk.length, s.2)⟩
    else ⟨if s.2.drop room = [] then .end else .ok, 0, s.2.take room, (s.1, s.2.drop room)⟩
  output s _ := s.2
  valid _ _ := True
  inRead_le s rest chunk room mode _ _ := by
    split
    · exact Nat.min_le_right ..
    · exact Nat.zero_le _
  out_le s rest chunk room mode _ _ := by
    split
    · exact Nat.zero_le _
    · exact List.length_take_le ..
  emits s rest chunk room mode _ _ := by
    split
    · rfl
    · exact (List.take_append_drop ..).symm
  keeps _ _ _ _ _ _ _ := trivial
  progress s rest chunk room mode _ _ hchunk hroom hend := by
    split
    · exact Or.inl ‹_›
    · rename_i hnone
      rw [if_neg hnone] at hend
      right
      intro hnil
      rcases List.take_eq_nil_iff.1 hnil with hzero | hempty
      · omega
      · rw [hempty, List.drop_nil] at hend
        exact hend rfl
  noError s rest chunk room mode _ _ := by
    split
    · dsimp only
      split <;> exact XfrmRet.noConfusion
    · dsimp only
      split <;> exact XfrmRet.noConfusion
  ends s rest chunk room mode _ _ := by
    split
    · dsimp only
      split <;> simp [*]
    · dsimp only
      split <;> simp [*]

/-- The first call swallows the only byte and writes nothing: the read returns 0, and the
output is lost. -/
theorem swallowing_truncated :
    FileIstream.Holds (FileIstream.openFd [0] []) [0] ∧ swallowing.valid (1, [7]) [0] ∧
      swallowing.output (1, [7]) [0] = [7] ∧
      Istream.Drained (IstreamXfrm.precache swallowing.process FileIstream.precache)
        (IstreamXfrm.create (FileIstream.openFd [0] []) (1, [7])) (fun _ => 1) [] :=
  ⟨FileIstream.openFd_holds List.not_mem_nil, trivial, rfl, .done rfl⟩

/-- Without bytes to swallow the codec never stalls. -/
theorem swallowing_drained :
    (∀ sizes : Nat → Nat, (∀ i, 0 < sizes i) →
      Istream.Drained (IstreamXfrm.precache swallowing.process FileIstream.precache)
        (IstreamXfrm.create (FileIstream.openFd [0] []) (0, [7])) sizes [7]) ↔
      IstreamXfrm.NeverStalls swallowing.process FileIstream.precache (0, [7])
        (FileIstream.openFd [0] []) :=
  IstreamXfrm.drained_iff_neverStalls swallowing FileIstream.precache FileIstream.Holds
    FileIstream.carries (0, [7]) (FileIstream.openFd [0] []) [0]
    (FileIstream.openFd_holds List.not_mem_nil) trivial

end ImageTool.Fstream
