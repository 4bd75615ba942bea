import ImageTool.Imgtool.SparseContents

/-!
# What a stream takes from the archive

A stream over a record takes the data of the regions from the archive, and behind the last region
whatever is left of the size.  `file_bytes_left` counts it down from the size of the record, in 64
bits and with nothing that keeps it above zero.
-/

namespace ImageTool.Imgtool

open ImageTool.Lib ImageTool.Fstream

/-- The bytes of the archive that reading to the end takes, where it has so many. -/
def demand : List SparseRegion → Nat → Nat → Nat
  | [], _, left => left
  | region :: map, offset, left =>
      let hole := min (region.offset - offset) left
      let want := min (region.offset + region.count - (offset + hole)) (left - hole)
      want + demand map (offset + hole + want) (left - hole - want)

theorem demand_zero (map : List SparseRegion) (offset : Nat) : demand map offset 0 = 0 := by
  induction map generalizing offset with
  | nil => rfl
  | cons region map ih =>
      unfold demand
      simp only [Nat.min_zero, Nat.sub_zero, Nat.add_zero, ih]

theorem demand_gap {region : SparseRegion} {map : List SparseRegion} {offset left n : Nat}
    (hgap : n ≤ region.offset - offset) (hleft : n ≤ left) :
    demand (region :: map) offset left = demand (region :: map) (offset + n) (left - n) := by
  obtain ⟨hole, hhole'⟩ : ∃ hole, min (region.offset - (offset + n)) (left - n) = hole :=
    ⟨_, rfl⟩
  have hhole : min (region.offset - offset) left = n + hole := by omega
  unfold demand
  rw [hhole, hhole']
  dsimp only
  rw [Nat.sub_add_eq left, Nat.add_assoc offset n]

theorem demand_data {region : SparseRegion} {map : List SparseRegion} {offset left n : Nat}
    (hin : region.offset ≤ offset) (hroom : offset + n ≤ region.offset + region.count)
    (hleft : n ≤ left) :
    demand (region :: map) offset left =
      n + demand (region :: map) (offset + n) (left - n) := by
  have hhole : min (region.offset - offset) left = 0 := by omega
  have hhole' : min (region.offset - (offset + n)) (left - n) = 0 := by omega
  obtain ⟨want, hwant'⟩ : ∃ want,
      min (region.offset + region.count - (offset + n)) (left - n) = want := ⟨_, rfl⟩
  have hwant : min (region.offset + region.count - offset) left = n + want := by omega
  unfold demand
  rw [hhole, hhole']
  dsimp only
  rw [Nat.add_zero, Nat.add_zero, Nat.sub_zero, Nat.sub_zero, hwant, hwant', Nat.sub_add_eq left,
    Nat.add_assoc offset n, Nat.add_assoc n]

theorem demand_next {region : SparseRegion} {map : List SparseRegion} {offset left : Nat}
    (hdone : region.offset + region.count ≤ offset) :
    demand (region :: map) offset left = demand map offset left := by
  have hhole : min (region.offset - offset) left = 0 := by omega
  have hwant : min (region.offset + region.count - (offset + 0)) (left - 0) = 0 := by omega
  rw [demand, hhole, hwant, Nat.zero_add]
  rfl

namespace Member

variable {m m' : Member} {bytes : List UInt8}

/-- What reading to the end takes from the archive of a machine. -/
def demanded (m : Member) : Nat := demand m.map m.offset m.left

/-- What a round takes is no longer demanded. -/
theorem Pours.demanded (h : Pours m bytes m') :
    m.demanded + m'.archive.length = m.archive.length + m'.demanded := by
  cases h with
  | gap hole pos le low =>
      unfold Member.demanded
      rw [demand_gap (Nat.le_trans low (Nat.mod_le ..)) le]
      dsimp only
      omega
  | data inside pos le room has =>
      unfold Member.demanded
      rw [demand_data inside room le]
      dsimp only
      rw [List.length_drop]
      omega
  | next done pos =>
      unfold Member.demanded
      rw [demand_next done]
      dsimp only
      omega
  | plain pos le has =>
      unfold Member.demanded demand
      dsimp only
      rw [List.length_drop]
      omega

theorem Runs.demanded (h : Runs m bytes m') :
    m.demanded + m'.archive.length = m.archive.length + m'.demanded := by
  induction h with
  | refl m => omega
  | step hpour _ ih =>
      have hround := hpour.demanded
      omega

end Member

namespace TarIstream

open Member

variable {ω : Type} {wrapped : Call (Istream ω) Unit} {tholds : Istream ω → List UInt8 → Prop}
variable {strm : Istream (TarIstream ω)} {archive : List UInt8} {start : Nat}

/-- What has been taken from the archive is taken off `file_bytes_left`, in 64 bits. -/
def Ledger (tholds : Istream ω → List UInt8 → Prop) (archive : List UInt8) (start : Nat)
    (strm : Istream (TarIstream ω)) : Prop :=
  ∃ k ≤ archive.length, tholds strm.inner.tar.tarStream (archive.drop k) ∧
    (strm.inner.tar.fileBytesLeft + k) % 2 ^ 64 = start % 2 ^ 64 ∧
    strm.inner.tar.fileBytesLeft < 2 ^ 64

theorem sub64_add_mod (a n : Nat) : (sub64 a n + n) % 2 ^ 64 = a % 2 ^ 64 := by
  unfold sub64 u64
  omega

/-- Only the state of the source matters. -/
theorem Ledger.inner {strm' : Istream (TarIstream ω)} (h : Ledger tholds archive start strm)
    (hstream : strm'.inner.tar.tarStream = strm.inner.tar.tarStream)
    (hleft : strm'.inner.tar.fileBytesLeft = strm.inner.tar.fileBytesLeft) :
    Ledger tholds archive start strm' := by
  unfold Ledger
  rw [hstream, hleft]
  exact h

/-- A round that copies from the archive. -/
theorem copyData_ledger (hw : Istream.Refills wrapped tholds)
    {loop : Call (Istream (TarIstream ω)) Unit}
    (hloop : Call.Keeps (Ledger tholds archive start) loop)
    {diff : Nat} (hdiff : diff ≤ bufferSize) (h : Ledger tholds archive start strm) :
    Call.Returns (copyData wrapped loop diff strm) (fun _ => Ledger tholds archive start)
      (Ledger tholds archive start) := by
  obtain ⟨k, hk, hstream, hcount, hlt⟩ := h
  have hsize : bufferSize = 1024 := rfl
  have hlimit : min diff Istream.readLimit = diff := by
    have hread : bufferSize ≤ Istream.readLimit := by decide
    omega
  obtain ⟨tarStream, hread, hstream'⟩ := hw.read diff hstream
  rw [hlimit] at hread hstream'
  rw [copyData_eq loop hread]
  have hlength : ((archive.drop k).take diff).length = min diff (archive.length - k) := by
    rw [List.length_take, List.length_drop]
  have hrest : (archive.drop k).drop diff =
      archive.drop (k + ((archive.drop k).take diff).length) := by
    rw [List.drop_drop, hlength]
    rcases Nat.le_total diff (archive.length - k) with hle | hge
    · rw [Nat.min_eq_left hle]
    · rw [Nat.min_eq_right hge, List.drop_eq_nil_of_le (by omega),
        List.drop_eq_nil_of_le (by omega)]
  rw [hrest] at hstream'
  generalize (archive.drop k).take diff = bytes at *
  have hledger : Ledger tholds archive start
      (takeOff (supply (withArchive strm tarStream) bytes) bytes.length) := by
    refine ⟨k + bytes.length, by omega, hstream', ?_, u64_lt _⟩
    change (sub64 strm.inner.tar.fileBytesLeft bytes.length + (k + bytes.length)) % 2 ^ 64 = _
    have hsub := sub64_add_mod strm.inner.tar.fileBytesLeft bytes.length
    omega
  split
  · rename_i hzero
    refine ⟨k, hk, ?_, hcount, hlt⟩
    rw [hzero] at hstream'
    exact hstream'
  · exact hloop _ hledger

theorem precacheLoop_ledger (hw : Istream.Refills wrapped tholds) (fuel : Nat) :
    Call.Keeps (Ledger tholds archive start) (precacheLoop wrapped fuel) := by
  induction fuel with
  | zero => exact fun _ _ => trivial
  | succ fuel ih =>
      intro strm h
      have hroom_le : room strm ≤ bufferSize := Nat.le_trans (Nat.min_le_left ..) (Nat.sub_le ..)
      by_cases hfull : strm.buffer.length < bufferSize
      · by_cases hroom : room strm = 0
        · rw [precacheLoop_done fuel hfull hroom]
          exact h.inner rfl rfl
        · cases hsparse : strm.inner.sparse with
          | nil =>
              rw [precacheLoop_plain fuel hfull hroom hsparse]
              exact copyData_ledger hw ih hroom_le h
          | cons region map =>
              rcases Nat.lt_or_ge strm.inner.offset region.offset with hgap | hin
              · rw [precacheLoop_gap fuel hfull hroom hsparse hgap]
                exact ih _ (h.inner rfl rfl)
              · rcases Nat.lt_or_ge (strm.inner.offset - region.offset) region.count with
                  hcount | hcount
                · rw [precacheLoop_region fuel hfull hroom hsparse hin hcount]
                  exact copyData_ledger hw ih (Nat.le_trans (Nat.min_le_left ..) hroom_le) h
                · rw [precacheLoop_next fuel hfull hroom hsparse hin hcount]
                  exact ih _ (h.inner rfl rfl)
      · have hsame : precacheLoop wrapped (fuel + 1) strm = .ok () strm := by
          rw [precacheLoop]
          exact if_neg hfull
        rw [hsame]
        exact h

/-- The ledger of every state of a run. -/
theorem Called.ledger (hw : Istream.Refills wrapped tholds) {t : Istream (TarIstream ω)}
    (h : Called wrapped strm t) (hledger : Ledger tholds archive start strm) :
    Ledger tholds archive start t := by
  induction h with
  | refl => exact hledger
  | readers _ hinner _ ih => exact ih.inner (by rw [hinner]) (by rw [hinner])
  | @precache t t' _ _ hcall ih =>
      have hkeeps : Call.Returns (TarIstream.precache wrapped t)
          (fun _ => Ledger tholds archive start) (Ledger tholds archive start) :=
        precacheLoop_ledger hw _ _ (ih.inner rfl rfl)
      rw [hcall] at hkeeps
      exact hkeeps

/-- Where the machine does not stop, the stream can be read to its end. -/
theorem exists_ended (hw : Istream.Refills wrapped tholds) {t : Istream (TarIstream ω)}
    (harchive : tholds t.inner.tar.tarStream archive) (h : Called wrapped strm t)
    (heof : t.eof = false) (hstops : ¬ Stops (memberOf t archive)) :
    ∃ u archive' bytes, Called wrapped strm u ∧ tholds u.inner.tar.tarStream archive' ∧
      Runs (memberOf t archive) bytes (memberOf u archive') ∧ Ended (memberOf u archive') := by
  induction hleft : t.inner.tar.apparentFileSize using Nat.strongRecOn generalizing t archive with
  | ind left ih =>
      rcases precache_cases hw harchive heof with hstuck | ⟨t', archive₁, bytes, hok, hdone⟩
      · exact absurd hstuck (precache_returns hw harchive heof hstops)
      · have hcalled := h.precache heof hok
        cases heof' : t'.eof with
        | true => exact ⟨t', archive₁, bytes, hcalled, hdone.stream, hdone.runs, hdone.ended heof'⟩
        | false =>
            have hfull := hdone.full heof'
            have hlength := hdone.runs.length
            rw [hdone.buffer, List.nil_append] at hfull
            change bytes.length + t'.inner.tar.apparentFileSize =
              t.inner.tar.apparentFileSize at hlength
            have hsize : 0 < bufferSize := by decide
            obtain ⟨u, archive', more, hu, hstream, hruns, hended⟩ := ih _ (by omega) hdone.stream
              hcalled heof' (fun hstops' => hstops (hdone.runs.stops_iff.2 hstops')) rfl
            exact ⟨u, archive', bytes ++ more, hu, hstream, hdone.runs.trans hruns, hended⟩

/-- At the end all is taken that is demanded, or all there is. -/
theorem ended_demanded {m : Member} (h : Ended m) : m.demanded = 0 ∨ m.archive = [] := by
  rcases h with hleft | ⟨hnone, -⟩
  · left
    unfold demanded
    rw [hleft, demand_zero]
  · exact .inr hnone

/-- `file_bytes_left` is what has not been taken of the record. -/
def Counted (tholds : Istream ω → List UInt8 → Prop) (tar : FileSourceTar ω)
    (archive : List UInt8) (strm : Istream (TarIstream ω)) : Prop :=
  ∃ k ≤ archive.length, tholds strm.inner.tar.tarStream (archive.drop k) ∧
    strm.inner.tar.fileBytesLeft + k = tar.fileBytesLeft

/-- Where every call returns, `file_bytes_left` does not go below zero in any run if and only if
the bytes that reading to the end takes are at most those of the record. -/
theorem counted_iff (hw : Istream.Refills wrapped tholds) {tar : FileSourceTar ω}
    {map : List SparseRegion} (harchive : tholds tar.tarStream archive)
    (hlt : tar.fileBytesLeft < 2 ^ 64)
    (hreturns : ¬ Blocked map 0 tar.apparentFileSize archive.length) :
    (∀ strm, Called wrapped (create tar map) strm → Counted tholds tar archive strm) ↔
      min (demand map 0 tar.apparentFileSize) archive.length ≤ tar.fileBytesLeft := by
  have hstart : tholds (create tar map).inner.tar.tarStream archive := harchive
  constructor
  · intro hcounted
    have hopened : Called wrapped (create tar map) (create tar map) := .refl
    obtain ⟨u, archive', bytes, hu, hstream, hruns, hended⟩ :=
      exists_ended hw hstart hopened rfl hreturns
    obtain ⟨k, hk, hstream', hcount⟩ := hcounted u hu
    have hsame := congrArg List.length (hw.unique hstream hstream')
    rw [List.length_drop] at hsame
    have htaken := hruns.demanded
    change demand map 0 tar.apparentFileSize + archive'.length =
      archive.length + (memberOf u archive').demanded at htaken
    rcases ended_demanded hended with hnone | hnone
    · omega
    · change archive' = [] at hnone
      rw [hnone, List.length_nil] at hsame
      omega
  · intro hwithin strm hcalled
    have hledger : Ledger tholds archive tar.fileBytesLeft (create tar map) :=
      ⟨0, Nat.zero_le _, harchive, rfl, hlt⟩
    obtain ⟨k, hk, hstream, hcount, hlt'⟩ := hcalled.ledger hw hledger
    obtain ⟨archive', bytes, hstream', hruns⟩ := hcalled.runs hw hstart
    have hsame := congrArg List.length (hw.unique hstream' hstream)
    rw [List.length_drop] at hsame
    have htaken := hruns.demanded
    change demand map 0 tar.apparentFileSize + archive'.length =
      archive.length + (memberOf strm archive').demanded at htaken
    exact ⟨k, hk, hstream, by omega⟩

end TarIstream

end ImageTool.Imgtool
