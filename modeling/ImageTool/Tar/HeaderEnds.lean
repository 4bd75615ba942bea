import ImageTool.Tar.PaxDecode
import ImageTool.Tar.ReadHeader

/-!
# Reading a header ends

Every round of the loop of `read_header` but the last reads a whole block, and so does every other
reader it calls.  Whatever the content of the stream is, the loop ends before it has read all of
it, and the sizes it hands out have 64 bits.
-/

namespace ImageTool.Tar

open ImageTool.Lib ImageTool.Fstream ImageTool.Imgtool

/-- At most `n` bytes are ahead. -/
def Ahead {ι : Type} (holds : Istream ι → List UInt8 → Prop) (n : Nat) (strm : Istream ι) : Prop :=
  ∃ rest, holds strm rest ∧ rest.length ≤ n

/-! ## Sizes -/

/-- What a function of a field of `pax_fields` does to the size of the record. -/
def PaxCallback.KeepsSize : PaxCallback → Prop
  | .sint cb => ∀ out n, (cb out n).recordSize = out.recordSize
  | .uint cb => ∀ out n, (cb out n).recordSize = out.recordSize ∨ (cb out n).recordSize = n
  | .string cb => ∀ out s, (cb out s).recordSize = out.recordSize
  | .prefixedXattr cb => ∀ out x, (cb out x).recordSize = out.recordSize
  | .ignore => True

theorem paxFields_keepsSize : ∀ field ∈ paxFields, field.cb.KeepsSize := by
  intro field hfield
  simp only [paxFields, List.mem_cons, List.not_mem_nil, or_false] at hfield
  rcases hfield with rfl | rfl | rfl | rfl | rfl | rfl | rfl | rfl | rfl | rfl | rfl | rfl | rfl
  · exact fun _ _ => .inl rfl
  · exact fun _ _ => .inl rfl
  · exact fun _ _ => rfl
  · exact fun _ _ => .inr rfl
  · exact fun _ _ => rfl
  · exact fun _ _ => rfl
  · exact fun _ _ => rfl
  · exact fun _ _ => .inl rfl
  · exact fun _ _ => .inl rfl
  · trivial
  · trivial
  · exact fun _ _ => rfl
  · exact fun _ _ => rfl

/-- The size of the record has 64 bits. -/
def SizeFits (out : DecodedHeader) : Prop := out.recordSize < 2 ^ 64

theorem applyHandler_sizeFits {out out' : DecodedHeader} {field : PaxHandler}
    {key text value : List UInt8} (hcb : field.cb.KeepsSize) (hout : SizeFits out)
    (h : applyHandler out field key text value = some out') : SizeFits out' := by
  unfold applyHandler at h
  unfold SizeFits at hout ⊢
  cases hfield : field.cb with
  | sint cb =>
      rw [hfield] at hcb h
      dsimp only at h
      split at h
      · obtain ⟨n, -, rfl⟩ := Option.map_eq_some_iff.1 h
        rwa [hcb]
      · obtain ⟨n, -, rfl⟩ := Option.map_eq_some_iff.1 h
        rwa [hcb]
  | uint cb =>
      rw [hfield] at hcb h
      obtain ⟨n, hn, rfl⟩ := Option.map_eq_some_iff.1 h
      rcases hcb out n with hsame | hset
      · rwa [hsame]
      · rw [hset]
        exact paxReadDecimal_lt hn
  | string cb =>
      rw [hfield] at hcb h
      cases h
      rwa [hcb]
  | prefixedXattr cb =>
      rw [hfield] at hcb h
      cases h
      rwa [hcb]
  | ignore =>
      rw [hfield] at h
      cases h
      exact hout

theorem handleRecord_sizeFits {s s' : PaxState} {key text value : List UInt8}
    (hs : SizeFits s.out) (h : handleRecord s key text value = some s') : SizeFits s'.out := by
  unfold handleRecord at h
  split at h
  · rename_i field hfind
    obtain ⟨out, hout, rfl⟩ := Option.map_eq_some_iff.1 h
    exact applyHandler_sizeFits (paxFields_keepsSize _ (List.mem_of_find?_eq_some hfind)) hs hout
  · split at h
    · obtain ⟨map, -, rfl⟩ := Option.map_eq_some_iff.1 h
      exact hs
    · split at h
      · obtain ⟨offset, -, rfl⟩ := Option.map_eq_some_iff.1 h
        exact hs
      · split at h
        · obtain ⟨numBytes, -, rfl⟩ := Option.map_eq_some_iff.1 h
          exact hs
        · cases h
          exact hs

theorem keeps_within {σ α : Type} {P : σ → Prop} (access : Option α) :
    Call.Keeps P (Call.within access) := by
  cases access with
  | none => exact .stuck
  | some a => exact .pure a

theorem keeps_get {σ : Type} {P : σ → Prop} : Call.Keeps P (Call.get : Call σ σ) :=
  fun _ hs => hs

theorem keeps_store (i : Nat) (c : UInt8) :
    Call.Keeps (fun r : PaxReader => SizeFits r.state.out) (store i c) :=
  keeps_get.bind fun _ => .ite (fun _ hr => hr) .stuck

theorem keeps_recordValue (line len key value : Nat) :
    Call.Keeps (fun r : PaxReader => SizeFits r.state.out) (recordValue line len key value) := by
  intro r hr
  unfold recordValue
  rw [Call.bind_apply, Call.get_apply, Outcome.bind_ok]
  refine ((keeps_within _).bind fun name => (keeps_within _).bind fun text =>
    (keeps_within _).bind fun bytes => ?_) r hr
  cases hhandle : handleRecord r.state name text bytes with
  | none => exact .fail
  | some state => exact fun _ _ => handleRecord_sizeFits hr hhandle

theorem keeps_readRecord (line : Nat) :
    Call.Keeps (fun r : PaxReader => SizeFits r.state.out) (readRecord line) := by
  refine Call.Keeps.bind ?_ fun record => .bind ?_ fun entry => .bind ?_ fun _ => .pure _
  · refine keeps_get.bind fun r => (keeps_within _).bind fun text =>
      (keeps_within _).bind fun c => ?_
    exact .ite .fail (.ite .fail ((keeps_store _ _).bind fun _ => .pure _))
  · refine keeps_get.bind fun r => .ite .fail ((keeps_within _).bind fun ptr => ?_)
    exact .ite .fail ((keeps_store _ _).bind fun _ => .pure _)
  · exact keeps_recordValue _ _ _ _

theorem keeps_paxLoop (fuel line : Nat) :
    Call.Keeps (fun r : PaxReader => SizeFits r.state.out) (paxLoop fuel line) := by
  induction fuel generalizing line with
  | zero => exact .stuck
  | succ fuel ih =>
      exact keeps_get.bind fun _ => .ite ((keeps_readRecord line).bind fun len => ih _) (.pure ())

/-! ## The readers of a header -/

section Ends

variable {ι : Type} {callback : Call (Istream ι) Unit} {holds : Istream ι → List UInt8 → Prop}
variable {n : Nat}

theorem Ahead.mono {m : Nat} {strm : Istream ι} (hahead : Ahead holds m strm) (hle : m ≤ n) :
    Ahead holds n strm := by
  obtain ⟨rest, hold, hlen⟩ := hahead
  exact ⟨rest, hold, Nat.le_trans hlen hle⟩

variable (h : Istream.Refills callback holds)

include h

theorem safe_read (size : Nat) : Call.Safe (Ahead holds n) (Istream.read callback size) := by
  constructor
  · rintro strm ⟨rest, hold, hlen⟩
    obtain ⟨strm', hread, hold'⟩ := h.read size hold
    rw [hread]
    exact ⟨_, hold', by rw [List.length_drop]; omega⟩
  · rintro strm ⟨rest, hold, -⟩
    obtain ⟨strm', hread, -⟩ := h.read size hold
    rw [hread]
    exact nofun

theorem safe_skip (size : Nat) : Call.Safe (Ahead holds n) (Istream.skip callback size) := by
  have hends : ∀ strm, Ahead holds n strm → ∃ strm', Ahead holds n strm' ∧
      (Istream.skip callback size strm = .ok () strm' ∨
        Istream.skip callback size strm = .fail strm') := by
    rintro strm ⟨rest, hold, hlen⟩
    obtain ⟨strm', hold', hskip⟩ := h.skip size hold
    refine ⟨strm', ⟨_, hold', by rw [List.length_drop]; omega⟩, ?_⟩
    rw [hskip]
    split
    · exact .inl rfl
    · exact .inr rfl
  constructor
  · intro strm hahead
    obtain ⟨strm', hahead', hok | hfail⟩ := hends strm hahead
    · rw [hok]
      exact hahead'
    · rw [hfail]
      exact hahead'
  · intro strm hahead
    obtain ⟨strm', -, hok | hfail⟩ := hends strm hahead
    · rw [hok]
      exact nofun
    · rw [hfail]
      exact nofun

theorem safe_recordToMemory (size : Nat) :
    Call.Safe (Ahead holds n) (recordToMemory callback size) := by
  have hpadding : Call.Safe (Ahead holds n) (skipPadding callback size) :=
    .ite (safe_skip h _) (.pure ())
  exact (safe_read h size).bind fun data => .ite .fail (hpadding.bind fun _ => .pure _)

theorem paxHeader_ends (size : Nat) {strm : Istream ι} (hahead : Ahead holds n strm) :
    Call.Ends (paxHeader callback size strm)
      (fun pax strm' => Ahead holds n strm' ∧ SizeFits pax.1) (Ahead holds n) := by
  have hahead' := (safe_recordToMemory h size).ends hahead
  obtain ⟨rest, hold, -⟩ := hahead
  have hbuffer := recordToMemory_ends h size hold
  unfold paxHeader readPaxHeader
  rw [Call.bind_apply, Call.zoom_apply]
  cases hread : recordToMemory callback size strm with
  | stuck =>
      rw [hread] at hbuffer
      exact hbuffer.elim
  | fail strm' =>
      rw [hread] at hahead'
      exact hahead'
  | ok buffer strm' =>
      rw [hread] at hbuffer hahead'
      obtain ⟨data, rfl, rfl⟩ := hbuffer
      have hends := @paxLoop_ends data.length 0 ⟨data ++ [0], paxStart DecodedHeader.blank 0⟩
        (data.length + 1) (terminated_append data) (by omega)
      have hkeeps := keeps_paxLoop (data.length + 1) 0
        ⟨data ++ [0], paxStart DecodedHeader.blank 0⟩ (Nat.two_pow_pos 64)
      rw [Outcome.mapState_ok, Outcome.bind_ok, Call.bind_apply, Call.get_apply, Outcome.bind_ok]
      cases hres : paxLoop (data.length + 1) 0
          ⟨data ++ [0], paxStart DecodedHeader.blank 0⟩ with
      | stuck => exact absurd hres hends.ne_stuck
      | ok u r =>
          rw [hres] at hkeeps
          exact ⟨hahead', hkeeps⟩
      | fail r => exact hahead'

theorem newSparse_ends {recordSize : Nat} (hsize : recordSize < 2 ^ 64) {strm : Istream ι}
    (hahead : Ahead holds n strm) :
    Call.Ends (newSparse callback recordSize strm)
      (fun map strm' => Ahead holds n strm' ∧ map.2 < 2 ^ 64) (Ahead holds n) := by
  have hends := readGnuNewSparse_ends (safe_read h blockSize) (r := ⟨strm, recordSize⟩) hsize hahead
  unfold newSparse
  cases hres : readGnuNewSparse callback ⟨strm, recordSize⟩ with
  | stuck =>
      rw [hres] at hends
      exact hends.elim
  | ok map r =>
      rw [hres] at hends
      obtain ⟨hfp, k, hk⟩ := hends
      dsimp only at hk
      exact ⟨hfp, by dsimp only; omega⟩
  | fail r =>
      rw [hres] at hends
      exact hends.1

/-- A block is read as a whole, or the stream has come to its end. -/
theorem read_block {size : Nat} (hlimit : size ≤ Istream.readLimit) {strm : Istream ι}
    (hahead : Ahead holds n strm) : ∃ block strm', Istream.read callback size strm =
      .ok block strm' ∧ Ahead holds n strm' ∧
        (size ≤ block.length → size ≤ n ∧ Ahead holds (n - size) strm') := by
  obtain ⟨rest, hold, hlen⟩ := hahead
  obtain ⟨strm', hread, hold'⟩ := h.read size hold
  rw [Nat.min_eq_left hlimit] at hread hold'
  have hdrop : (rest.drop size).length = rest.length - size := List.length_drop
  refine ⟨_, strm', hread, ⟨_, hold', by omega⟩, fun hfull => ?_⟩
  rw [List.length_take] at hfull
  exact ⟨by omega, _, hold', by omega⟩

theorem extensionLoop_ends {fuel : Nat} (list : List SparseRegion) {strm : Istream ι}
    (hahead : Ahead holds n strm) (hfuel : n < fuel) :
    Call.Ends (extensionLoop callback fuel list strm) (fun _ => Ahead holds n)
      (Ahead holds n) := by
  induction fuel generalizing n list strm with
  | zero => omega
  | succ fuel ih =>
      obtain ⟨sph, strm', hread, hahead', hfull⟩ :=
        read_block h (show gnuSparseSize ≤ Istream.readLimit by decide) hahead
      unfold extensionLoop
      rw [Call.bind_apply, hread, Outcome.bind_ok]
      by_cases hshort : sph.length < gnuSparseSize
      · rw [if_pos hshort]
        exact hahead'
      · rw [if_neg hshort]
        obtain ⟨hle, hless⟩ := hfull (Nat.le_of_not_lt hshort)
        cases entryLoop (blockEntries sph) list with
        | none => exact hahead'
        | some list =>
            dsimp only
            split
            · exact hahead'
            · have hpos : 0 < gnuSparseSize := by decide
              exact (ih list hless (by omega)).mono (fun _ _ hend => hend.mono (Nat.sub_le ..))
                fun _ hend => hend.mono (Nat.sub_le ..)

theorem oldSparse_ends {fuel : Nat} (hdr : List UInt8) (out : TarHeaderDecoded)
    {strm : Istream ι} (hahead : Ahead holds n strm) (hfuel : n < fuel) :
    Call.Ends (oldSparse callback fuel hdr out strm)
      (fun out' strm' => Ahead holds n strm' ∧ out'.recordSize = out.recordSize)
      (Ahead holds n) := by
  have hmap : Call.Ends (readGnuOldSparse callback fuel hdr strm) (fun _ => Ahead holds n)
      (Ahead holds n) := by
    unfold readGnuOldSparse
    cases entryLoop (headerEntries hdr) [] with
    | none => exact hahead
    | some list =>
        dsimp only
        split
        · exact hahead
        · exact extensionLoop_ends h list hahead hfuel
  unfold oldSparse
  refine hmap.bind (fun sparse strm' hahead' => ?_) fun _ hend => hend
  by_cases hnil : sparse = []
  · rw [if_pos hnil]
    exact hahead'
  · rw [if_neg hnil]
    cases readNumber (realsizeField hdr) with
    | none => exact hahead'
    | some size => exact ⟨hahead', rfl⟩

omit h in
theorem memorySize_ends (hdr : List UInt8) {strm : Istream ι} (hahead : Ahead holds n strm) :
    Call.Ends (memorySize hdr strm) (fun _ => Ahead holds n) (Ahead holds n) := by
  unfold memorySize
  cases readNumber (sizeField hdr) with
  | none => exact hahead
  | some size =>
      change Call.Ends ((if size < 1 ∨ size > tarMaxLen then Call.fail else pure size) strm) _ _
      split
      · exact hahead
      · exact hahead

theorem regardless_ends (size : Nat) {strm : Istream ι} (hahead : Ahead holds n strm) :
    Call.Ends (regardless (skipEntry callback size) strm) (fun _ => Ahead holds n)
      (Ahead holds n) := by
  have hends := (safe_skip h (if size % 512 ≠ 0 then u64 (size + 512 - size % 512)
    else size)).ends hahead
  unfold regardless skipEntry
  cases hskip : Istream.skip callback (if size % 512 ≠ 0 then u64 (size + 512 - size % 512)
      else size) strm with
  | ok a strm' =>
      rw [hskip] at hends
      exact hends
  | fail strm' =>
      rw [hskip] at hends
      exact hends
  | stuck =>
      rw [hskip] at hends
      exact hends

/-- What the loop of `read_header` leaves: with a header, less is ahead than before. -/
def LoopLeaves (holds : Istream ι → List UInt8 → Prop) (n : Nat) (found : Option FileHeader)
    (strm : Istream ι) : Prop :=
  Ahead holds n strm ∧ ∀ file, found = some file →
    SizeFits file.out.toDecodedHeader ∧ 0 < n ∧ Ahead holds (n - 1) strm

omit h in
theorem LoopLeaves.mono {m : Nat} {found : Option FileHeader} {strm : Istream ι}
    (hleaves : LoopLeaves holds m found strm) (hle : m ≤ n) : LoopLeaves holds n found strm := by
  refine ⟨hleaves.1.mono hle, fun file hfile => ?_⟩
  obtain ⟨hsize, hpos, hahead⟩ := hleaves.2 file hfile
  exact ⟨hsize, by omega, hahead.mono (by omega)⟩

theorem headerLoop_ends {fuel : Nat} (prevWasZero : Bool) {out : TarHeaderDecoded}
    (setByPax : Nat) {strm : Istream ι} (hout : SizeFits out.toDecodedHeader)
    (hahead : Ahead holds n strm) (hfuel : n < fuel) :
    Call.Ends (headerLoop callback fuel prevWasZero out setByPax strm) (LoopLeaves holds n)
      (Ahead holds n) := by
  induction fuel generalizing n prevWasZero out setByPax strm with
  | zero => omega
  | succ fuel ih =>
      obtain ⟨hdr, strm₁, hread, hahead₁, hfull⟩ :=
        read_block h (show 512 ≤ Istream.readLimit by decide) hahead
      unfold headerLoop
      rw [Call.bind_apply, hread, Outcome.bind_ok]
      by_cases hshort : hdr.length < 512
      · rw [if_pos hshort]
        exact ⟨hahead₁, nofun⟩
      · rw [if_neg hshort]
        obtain ⟨hle, hless⟩ := hfull (Nat.le_of_not_lt hshort)
        have hagain : ∀ {prevWasZero out setByPax strm'}, SizeFits out.toDecodedHeader →
            Ahead holds (n - 512) strm' →
            Call.Ends (headerLoop callback fuel prevWasZero out setByPax strm')
              (LoopLeaves holds n) (Ahead holds n) := fun hout' hless' =>
          (ih _ _ hout' hless' (by omega)).mono (fun _ _ hend => hend.mono (Nat.sub_le ..))
            fun _ hend => hend.mono (Nat.sub_le ..)
        have hfound : ∀ {file strm'}, SizeFits file.out.toDecodedHeader →
            Ahead holds (n - 512) strm' → LoopLeaves holds n (some file) strm' := by
          intro file strm' hfits hless'
          refine ⟨hless'.mono (Nat.sub_le ..), fun file' hfile => ?_⟩
          cases hfile
          exact ⟨hfits, by omega, hless'.mono (by omega)⟩
        have hshorter : ∀ strm', Ahead holds (n - 512) strm' → Ahead holds n strm' :=
          fun _ hless' => hless'.mono (Nat.sub_le ..)
        split
        · split
          · exact ⟨hahead₁, nofun⟩
          · exact hagain hout hless
        · cases checkVersion hdr with
          | none => exact hahead₁
          | some version =>
              dsimp only
              split
              · exact hahead₁
              split
              · exact (memorySize_ends hdr hless).bind (fun size _ hs =>
                  ((safe_recordToMemory h size).ends hs).bind (fun _ _ hs' => hagain hout hs')
                    hshorter) hshorter
              split
              · exact (memorySize_ends hdr hless).bind (fun size _ hs =>
                  ((safe_recordToMemory h size).ends hs).bind (fun _ _ hs' => hagain hout hs')
                    hshorter) hshorter
              split
              · cases readNumber (sizeField hdr) with
                | none => exact hahead₁
                | some size =>
                    exact (regardless_ends h size hless).bind (fun _ _ hs => hagain hout hs)
                      hshorter
              split
              · exact (memorySize_ends hdr hless).bind (fun size _ hs =>
                  (paxHeader_ends h size hs).bind (fun _ _ hs' => hagain hs'.2 hs'.1)
                    hshorter) hshorter
              split
              · refine (oldSparse_ends h hdr out hless (by omega)).bind (fun out' _ hs => ?_)
                  hshorter
                refine hfound ?_ hs.1
                unfold SizeFits at hout ⊢
                rw [hs.2]
                exact hout
              · exact hfound hout hless

omit h in
theorem unlessSet_sizeFits {setByPax flag : Nat} {field : List UInt8}
    {set : TarHeaderDecoded → Nat → TarHeaderDecoded} {out out' : TarHeaderDecoded}
    (hread : unlessSet setByPax flag field set out = some out')
    (hout : SizeFits out.toDecodedHeader)
    (hset : ∀ out n, (set out n).recordSize = out.recordSize ∨ (set out n).recordSize = n) :
    SizeFits out'.toDecodedHeader := by
  unfold unlessSet at hread
  unfold SizeFits at hout ⊢
  split at hread
  · obtain ⟨n, hn, rfl⟩ := Option.map_eq_some_iff.1 hread
    rcases hset out n with hsame | hnew
    · rwa [hsame]
    · rw [hnew]
      exact readNumber_lt hn
  · cases hread
    exact hout

omit h in
theorem decodeType_recordSize (flag : UInt8) (out : TarHeaderDecoded) :
    (decodeType flag out).recordSize = out.recordSize := by
  unfold decodeType
  repeat' split
  all_goals rfl

omit h in
theorem decodeHeader_sizeFits {hdr : List UInt8} {setByPax : Nat} {out out' : TarHeaderDecoded}
    {version : TarVersion} (hout : SizeFits out.toDecodedHeader)
    (hread : decodeHeader hdr setByPax out version = some out') :
    SizeFits out'.toDecodedHeader := by
  unfold decodeHeader at hread
  obtain ⟨out₁, h₁, hread⟩ := Option.bind_eq_some_iff.1 hread
  obtain ⟨out₂, h₂, hread⟩ := Option.bind_eq_some_iff.1 hread
  obtain ⟨out₃, h₃, hread⟩ := Option.bind_eq_some_iff.1 hread
  obtain ⟨out₄, h₄, hread⟩ := Option.bind_eq_some_iff.1 hread
  obtain ⟨out₅, h₅, hread⟩ := Option.bind_eq_some_iff.1 hread
  obtain ⟨out₆, h₆, hread⟩ := Option.bind_eq_some_iff.1 hread
  obtain ⟨field, -, hread⟩ := Option.bind_eq_some_iff.1 hread
  have hstart : SizeFits (if setByPax &&& flagName = 0 then
      { out with name := some (decodeName hdr version) } else out).toDecodedHeader := by
    split
    · exact hout
    · exact hout
  have hfits₁ := unlessSet_sizeFits h₁ hstart fun _ _ => .inr rfl
  have hfits₂ := unlessSet_sizeFits h₂ hfits₁ fun _ _ => .inl rfl
  have hfits₃ := unlessSet_sizeFits h₃ hfits₂ fun _ _ => .inl rfl
  have hfits₄ := unlessSet_sizeFits h₄ hfits₃ fun _ _ => .inl rfl
  have hfits₅ := unlessSet_sizeFits h₅ hfits₄ fun _ _ => .inl rfl
  have hfits₆ := unlessSet_sizeFits h₆ hfits₅ fun _ _ => .inl rfl
  cases hread
  unfold SizeFits at hfits₆ ⊢
  rw [decodeType_recordSize]
  dsimp only
  split
  · exact hfits₆
  · exact hfits₆

/-- What `read_header` leaves: with a header, less is ahead than before. -/
def HeaderLeaves (holds : Istream ι → List UInt8 → Prop) (n : Nat)
    (found : Option TarHeaderDecoded) (strm : Istream ι) : Prop :=
  Ahead holds n strm ∧ ∀ hdr, found = some hdr →
    SizeFits hdr.toDecodedHeader ∧ 0 < n ∧ Ahead holds (n - 1) strm

theorem withNewSparse_ends (setByPax : Nat) {out : TarHeaderDecoded} {strm : Istream ι}
    (hout : SizeFits out.toDecodedHeader) (hahead : Ahead holds n strm) :
    Call.Ends (withNewSparse callback setByPax out strm)
      (fun out' strm' => SizeFits out'.toDecodedHeader ∧ Ahead holds n strm') (Ahead holds n) := by
  unfold withNewSparse
  split
  · refine (newSparse_ends h hout hahead).bind (fun map strm' hmap => ?_) fun _ hend => hend
    by_cases hnil : map.1 = []
    · rw [if_pos hnil]
      exact hmap.1
    · rw [if_neg hnil]
      exact ⟨hmap.2, hmap.1⟩
  · exact ⟨hout, hahead⟩

/-- With more fuel than bytes ahead, reading a header ends. -/
theorem readHeader_ends {fuel : Nat} {strm : Istream ι} (hahead : Ahead holds n strm)
    (hfuel : n < fuel) :
    Call.Ends (readHeader callback fuel strm) (HeaderLeaves holds n) (Ahead holds n) := by
  have hblank : SizeFits TarHeaderDecoded.blank.toDecodedHeader := Nat.two_pow_pos 64
  refine (headerLoop_ends h false 0 hblank hahead hfuel).bind (fun found strm' hleaves => ?_)
    fun _ hend => hend
  cases found with
  | none => exact ⟨hleaves.1, nofun⟩
  | some file =>
      obtain ⟨hfits, hpos, hless⟩ := hleaves.2 file rfl
      have hshorter : ∀ strm', Ahead holds (n - 1) strm' → Ahead holds n strm' :=
        fun _ hend => hend.mono (Nat.sub_le ..)
      dsimp only
      cases hdecode : decodeHeader file.hdr file.setByPax file.out file.version with
      | none => exact hleaves.1
      | some out =>
          have hout := decodeHeader_sizeFits hfits hdecode
          refine (withNewSparse_ends h file.setByPax hout hless).bind (fun out' strm₂ hout' => ?_)
            hshorter
          refine ⟨hshorter _ hout'.2, fun hdr hhdr => ?_⟩
          cases hhdr
          refine ⟨?_, hpos, hout'.2⟩
          unfold sized
          split
          · exact hout'.1
          · exact hout'.1

end Ends

end ImageTool.Tar
