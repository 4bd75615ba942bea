import ImageTool.Lib.Call
import Mathlib.Data.List.Basic

/-!
# Input streams

A stream has a buffer, of which a part has been handed out already, and a callback that
fills it.  The state of an implementation follows the fields all streams have.
-/

namespace ImageTool.Fstream

open ImageTool.Lib

/-- `BUFSZ`. -/
def bufsz : Nat := 262144

/-- `istream_t`.  Of the buffer, the first `buffer_used` bytes. -/
structure Istream (ι : Type) where
  buffer : List UInt8
  bufferOffset : Nat
  eof : Bool
  inner : ι

namespace Istream

variable {ι : Type}

/-- What the buffer holds and has not been handed out. -/
def unread (strm : Istream ι) : List UInt8 := strm.buffer.drop strm.bufferOffset

/-- `buffer_offset += n`. -/
def consume (strm : Istream ι) (n : Nat) : Istream ι :=
  { strm with bufferOffset := strm.bufferOffset + n }

/-- Unread bytes are moved to the front of the buffer. -/
def compact (strm : Istream ι) : Istream ι :=
  if strm.bufferOffset ≥ strm.buffer.length then { strm with buffer := [], bufferOffset := 0 }
  else if 0 < strm.bufferOffset then
    { strm with buffer := strm.buffer.drop strm.bufferOffset, bufferOffset := 0 }
  else strm

variable (callback : Call (Istream ι) Unit)

/-- `istream_precache`. -/
def precache : Call (Istream ι) Unit := fun strm =>
  if strm.compact.eof then .ok () strm.compact else callback strm.compact

/-- The `istream_precache` of a reader whose buffer is used up. -/
def refill : Call (Istream ι) Unit := fun strm =>
  if strm.bufferOffset ≥ strm.buffer.length then precache callback strm else .ok () strm

/-- The loop of `istream_read`; every round but the last hands out a byte. -/
def readLoop : Nat → Nat → Call (Istream ι) (List UInt8)
  | _, 0 => pure []
  | 0, _ + 1 => Call.stuck
  | fuel + 1, size + 1 => fun strm =>
      (refill callback strm).bind fun _ strm =>
        if strm.buffer.length = 0 then .ok [] strm
        else
          let diff := min (strm.buffer.length - strm.bufferOffset) (size + 1)
          (readLoop fuel (size + 1 - diff) (strm.consume diff)).bind fun data strm' =>
            .ok (strm.unread.take diff ++ data) strm'

/-- The largest size of one read. -/
def readLimit : Nat := 0x7FFFFFFF

/-- `istream_read`; the bytes returned stand for their number. -/
def read (size : Nat) : Call (Istream ι) (List UInt8) :=
  readLoop callback (min size readLimit) (min size readLimit)

/-- The loop of `istream_skip`. -/
def skipLoop : Nat → Nat → Call (Istream ι) Unit
  | _, 0 => pure ()
  | 0, _ + 1 => Call.stuck
  | fuel + 1, size + 1 => fun strm =>
      (refill callback strm).bind fun _ strm =>
        if strm.buffer.length = 0 then .fail strm
        else
          let diff := min (strm.buffer.length - strm.bufferOffset) (size + 1)
          skipLoop fuel (size + 1 - diff) (strm.consume diff)

/-- `istream_skip`. -/
def skip (size : Nat) : Call (Istream ι) Unit := skipLoop callback size size

/-! ## What a stream has yet to deliver -/

/-- A stream that can be read and skipped: `holds` relates its states to the bytes it has
yet to deliver. -/
structure Refills (holds : Istream ι → List UInt8 → Prop) : Prop where
  unread : ∀ strm rest, holds strm rest → strm.unread <+: rest
  consume : ∀ strm rest n, holds strm rest → n ≤ strm.unread.length →
    holds (strm.consume n) (rest.drop n)
  refill : ∀ strm rest, holds strm rest → strm.unread = [] → ∃ strm',
    precache callback strm = .ok () strm' ∧ holds strm' rest ∧ strm'.bufferOffset = 0 ∧
      (strm'.buffer = [] → rest = [])

/-- A stream that moreover can be asked for more at any time. -/
structure Carries (holds : Istream ι → List UInt8 → Prop) : Prop where
  unread : ∀ strm rest, holds strm rest → strm.unread <+: rest
  consume : ∀ strm rest n, holds strm rest → n ≤ strm.unread.length →
    holds (strm.consume n) (rest.drop n)
  precache : ∀ strm rest, holds strm rest → ∃ strm', precache callback strm = .ok () strm' ∧
    holds strm' rest ∧ strm'.bufferOffset = 0 ∧ (strm'.buffer = [] → rest = [])
  eof : ∀ strm rest, holds strm rest → strm.eof = true → strm.unread = rest

variable {callback} {holds : Istream ι → List UInt8 → Prop} {strm : Istream ι}
variable {rest : List UInt8}

theorem Carries.refills (h : Carries callback holds) : Refills callback holds :=
  ⟨h.unread, h.consume, fun strm rest hold _ => h.precache strm rest hold⟩

theorem unread_eq_nil : strm.unread = [] ↔ strm.bufferOffset ≥ strm.buffer.length :=
  List.drop_eq_nil_iff

theorem compact_eq (strm : Istream ι) :
    strm.compact = { strm with buffer := strm.unread, bufferOffset := 0 } := by
  unfold compact
  split
  · rename_i hused
    rw [unread_eq_nil.2 hused]
  · split
    · rfl
    · rename_i hoff
      have hzero : strm.bufferOffset = 0 := by omega
      cases strm
      cases hzero
      rfl

/-- After a refill there are unread bytes, or nothing is left. -/
theorem Refills.ready (h : Refills callback holds) (hold : holds strm rest) :
    ∃ strm', Istream.refill callback strm = .ok () strm' ∧ holds strm' rest ∧
      (strm'.buffer.length = 0 ∧ rest = [] ∨
        0 < strm'.buffer.length ∧ strm'.bufferOffset < strm'.buffer.length) := by
  unfold Istream.refill
  split
  · rename_i hused
    obtain ⟨strm', hcall, hold', hoff, hempty⟩ :=
      h.refill strm rest hold (unread_eq_nil.2 hused)
    refine ⟨strm', hcall, hold', ?_⟩
    rcases Nat.eq_zero_or_pos strm'.buffer.length with hzero | hpos
    · exact Or.inl ⟨hzero, hempty (List.length_eq_zero_iff.1 hzero)⟩
    · exact Or.inr ⟨hpos, by omega⟩
  · exact ⟨strm, rfl, hold, Or.inr ⟨by omega, by omega⟩⟩

theorem length_unread (strm : Istream ι) :
    strm.unread.length = strm.buffer.length - strm.bufferOffset := List.length_drop

/-- Taking bytes out of the buffer and then out of what remains. -/
theorem take_unread_append (h : strm.unread <+: rest) {diff size : Nat}
    (hdiff : diff ≤ strm.unread.length) (hle : diff ≤ size) :
    strm.unread.take diff ++ (rest.drop diff).take (size - diff) = rest.take size := by
  have htake : strm.unread.take diff = rest.take diff := by
    obtain ⟨more, rfl⟩ := h
    rw [List.take_append_of_le_length hdiff]
  rw [htake, ← List.take_add, Nat.add_sub_cancel' hle]

theorem readLoop_succ {strm₁ : Istream ι} (fuel size : Nat)
    (hrefill : Istream.refill callback strm = .ok () strm₁) :
    readLoop callback (fuel + 1) (size + 1) strm =
      if strm₁.buffer.length = 0 then .ok [] strm₁
      else
        (readLoop callback fuel
          (size + 1 - min (strm₁.buffer.length - strm₁.bufferOffset) (size + 1))
          (strm₁.consume (min (strm₁.buffer.length - strm₁.bufferOffset) (size + 1)))).bind
          fun data strm' => .ok (strm₁.unread.take
            (min (strm₁.buffer.length - strm₁.bufferOffset) (size + 1)) ++ data) strm' := by
  change (Istream.refill callback strm).bind _ = _
  rw [hrefill]
  rfl

/-- A read hands out no more bytes than it is asked for. -/
theorem length_readLoop_le {fuel size : Nat} {strm strm' : Istream ι} {data : List UInt8}
    (h : readLoop callback fuel size strm = .ok data strm') : data.length ≤ size := by
  induction fuel generalizing size strm data strm' with
  | zero =>
      cases size with
      | zero =>
          cases h
          exact Nat.zero_le _
      | succ size => cases h
  | succ fuel ih =>
      cases size with
      | zero =>
          cases h
          exact Nat.zero_le _
      | succ size =>
          obtain ⟨_, strm₁, hrefill, _⟩ := Outcome.of_bind_eq_ok h
          rw [readLoop_succ fuel size hrefill] at h
          split at h
          · cases h
            exact Nat.zero_le _
          · obtain ⟨more, strm₂, hmore, hdata⟩ := Outcome.of_bind_eq_ok h
            have hlength := ih hmore
            cases hdata
            rw [List.length_append, List.length_take]
            omega

theorem length_read_le {size : Nat} {strm strm' : Istream ι} {data : List UInt8}
    (h : read callback size strm = .ok data strm') : data.length ≤ size :=
  Nat.le_trans (length_readLoop_le h) (Nat.min_le_left ..)

theorem skipLoop_succ {strm₁ : Istream ι} (fuel size : Nat)
    (hrefill : Istream.refill callback strm = .ok () strm₁) :
    skipLoop callback (fuel + 1) (size + 1) strm =
      if strm₁.buffer.length = 0 then .fail strm₁
      else
        skipLoop callback fuel
          (size + 1 - min (strm₁.buffer.length - strm₁.bufferOffset) (size + 1))
          (strm₁.consume (min (strm₁.buffer.length - strm₁.bufferOffset) (size + 1))) := by
  change (Istream.refill callback strm).bind _ = _
  rw [hrefill]
  rfl

theorem Refills.readLoop (h : Refills callback holds) (fuel size : Nat) (hfuel : size ≤ fuel)
    (hold : holds strm rest) : ∃ strm', Istream.readLoop callback fuel size strm =
      .ok (rest.take size) strm' ∧ holds strm' (rest.drop size) := by
  induction fuel generalizing size strm rest with
  | zero =>
      obtain rfl : size = 0 := by omega
      exact ⟨strm, rfl, hold⟩
  | succ fuel ih =>
      cases size with
      | zero => exact ⟨strm, rfl, hold⟩
      | succ size =>
          obtain ⟨strm₁, hrefill, hold₁, hcases⟩ := h.ready hold
          rw [readLoop_succ fuel size hrefill]
          rcases hcases with ⟨hzero, rfl⟩ | ⟨hpos, hoff⟩
          · rw [if_pos hzero]
            exact ⟨strm₁, rfl, hold₁⟩
          · rw [if_neg (Nat.ne_of_gt hpos)]
            have hlen := length_unread strm₁
            have hdiff : min (strm₁.buffer.length - strm₁.bufferOffset) (size + 1) ≤
                strm₁.unread.length := by omega
            obtain ⟨strm₂, hmore, hold₂⟩ :=
              ih (size + 1 - min (strm₁.buffer.length - strm₁.bufferOffset) (size + 1))
                (by omega) (h.consume strm₁ rest _ hold₁ hdiff)
            refine ⟨strm₂, ?_, ?_⟩
            · rw [hmore]
              change Outcome.ok (strm₁.unread.take _ ++ _) strm₂ = _
              rw [take_unread_append (h.unread strm₁ rest hold₁) hdiff (Nat.min_le_right ..)]
            · rwa [List.drop_drop, Nat.add_sub_cancel' (Nat.min_le_right ..)] at hold₂

/-- A read hands out the next bytes there are. -/
theorem Refills.read (h : Refills callback holds) (size : Nat) (hold : holds strm rest) :
    ∃ strm', Istream.read callback size strm = .ok (rest.take (min size readLimit)) strm' ∧
      holds strm' (rest.drop (min size readLimit)) :=
  h.readLoop _ _ (Nat.le_refl _) hold

theorem Refills.safe_read (h : Refills callback holds) (size : Nat) :
    Call.Safe (fun strm => ∃ rest, holds strm rest) (Istream.read callback size) := by
  constructor
  · rintro strm ⟨rest, hold⟩
    obtain ⟨strm', hread, hold'⟩ := h.read size hold
    rw [hread]
    exact ⟨_, hold'⟩
  · rintro strm ⟨rest, hold⟩
    obtain ⟨strm', hread, -⟩ := h.read size hold
    rw [hread]
    exact nofun

/-- Skipping fails at the end, and has then skipped all there was. -/
theorem Refills.skipLoop (h : Refills callback holds) (fuel size : Nat) (hfuel : size ≤ fuel)
    (hold : holds strm rest) : ∃ strm', holds strm' (rest.drop size) ∧
      Istream.skipLoop callback fuel size strm =
        if size ≤ rest.length then .ok () strm' else .fail strm' := by
  induction fuel generalizing size strm rest with
  | zero =>
      obtain rfl : size = 0 := by omega
      exact ⟨strm, hold, rfl⟩
  | succ fuel ih =>
      cases size with
      | zero => exact ⟨strm, hold, (if_pos (Nat.zero_le _)).symm⟩
      | succ size =>
          obtain ⟨strm₁, hrefill, hold₁, hcases⟩ := h.ready hold
          rw [skipLoop_succ fuel size hrefill]
          rcases hcases with ⟨hzero, rfl⟩ | ⟨hpos, hoff⟩
          · rw [if_pos hzero]
            exact ⟨strm₁, hold₁, rfl⟩
          · rw [if_neg (Nat.ne_of_gt hpos)]
            have hlen := length_unread strm₁
            have hrest := (h.unread strm₁ rest hold₁).length_le
            have hdiff : min (strm₁.buffer.length - strm₁.bufferOffset) (size + 1) ≤
                strm₁.unread.length := by omega
            obtain ⟨strm₂, hold₂, hmore⟩ :=
              ih (size + 1 - min (strm₁.buffer.length - strm₁.bufferOffset) (size + 1))
                (by omega) (h.consume strm₁ rest _ hold₁ hdiff)
            refine ⟨strm₂, ?_, ?_⟩
            · rwa [List.drop_drop, Nat.add_sub_cancel' (Nat.min_le_right ..)] at hold₂
            · rw [hmore, List.length_drop]
              apply if_congr _ rfl rfl
              omega

theorem Refills.skip (h : Refills callback holds) (size : Nat) (hold : holds strm rest) :
    ∃ strm', holds strm' (rest.drop size) ∧ Istream.skip callback size strm =
      if size ≤ rest.length then .ok () strm' else .fail strm' :=
  h.skipLoop _ _ (Nat.le_refl _) hold

/-! ## Reading until a read returns 0 -/

/-- Reads of the given sizes until one returns 0, and the bytes they have handed out. -/
inductive Drained (callback : Call (Istream ι) Unit) :
    Istream ι → (Nat → Nat) → List UInt8 → Prop where
  | done {strm sizes strm'} : read callback (sizes 0) strm = .ok [] strm' →
      Drained callback strm sizes []
  | more {strm sizes data strm' rest} : read callback (sizes 0) strm = .ok data strm' →
      data ≠ [] → Drained callback strm' (fun i => sizes (i + 1)) rest →
      Drained callback strm sizes (data ++ rest)

theorem Drained.unique {sizes : Nat → Nat} {out out' : List UInt8}
    (h : Drained callback strm sizes out) (h' : Drained callback strm sizes out') :
    out = out' := by
  induction h generalizing out' with
  | done hread =>
      cases h' with
      | done _ => rfl
      | more hread' hdata _ =>
          rw [hread] at hread'
          cases hread'
          exact absurd rfl hdata
  | more hread hdata _ ih =>
      cases h' with
      | done hread' =>
          rw [hread] at hread'
          cases hread'
          exact absurd rfl hdata
      | more hread' _ hrest =>
          rw [hread] at hread'
          cases hread'
          rw [ih hrest]

/-- Reads of any sizes deliver what the stream holds. -/
theorem Refills.drained (h : Refills callback holds) (hold : holds strm rest)
    (sizes : Nat → Nat) (hpos : ∀ i, 0 < sizes i) : Drained callback strm sizes rest := by
  induction hn : rest.length using Nat.strongRecOn generalizing strm rest sizes with
  | ind n ih =>
      obtain ⟨strm', hread, hold'⟩ := h.read (sizes 0) hold
      have hsize : 0 < min (sizes 0) readLimit := Nat.lt_min.2 ⟨hpos 0, by decide⟩
      cases rest with
      | nil =>
          rw [List.take_nil] at hread
          exact .done hread
      | cons b rest =>
          have hlen : ((b :: rest).drop (min (sizes 0) readLimit)).length < n := by
            rw [List.length_drop, List.length_cons]
            rw [List.length_cons] at hn
            omega
          have hmore := ih _ hlen hold' (fun i => sizes (i + 1)) (fun i => hpos (i + 1)) rfl
          have hdata : (b :: rest).take (min (sizes 0) readLimit) ≠ [] := by
            intro hnil
            rcases List.take_eq_nil_iff.1 hnil with hzero | hnil
            · omega
            · cases hnil
          have hdrained := Drained.more hread hdata hmore
          rwa [List.take_append_drop] at hdrained

/-- A state of a stream that can be read holds one thing only. -/
theorem Refills.unique {rest' : List UInt8} (h : Refills callback holds) (hold : holds strm rest)
    (hold' : holds strm rest') : rest = rest' :=
  (h.drained hold (fun _ => 1) fun _ => Nat.one_pos).unique
    (h.drained hold' (fun _ => 1) fun _ => Nat.one_pos)

end Istream

end ImageTool.Fstream
