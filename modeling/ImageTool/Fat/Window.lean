import ImageTool.Image.Access
import ImageTool.Fat.Parameters

/-!
# The FAT writer

`fatfs_build_fats` writes both copies of the FAT through a window of 4096 bytes.  Where the FAT
is larger, the window slides by half its size.  `Written` says what a writer stands for: the
table up to the window on the volume, the table up to the next entry in the window, and zeros
behind either.
-/

namespace ImageTool.Fat

open ImageTool.Lib ImageTool.Image

/-- `FAT_WINDOW_SIZE`. -/
def fatWindowSize : Nat := 4096

/-- The volume and the buffer of `fatfs_build_fats`. -/
structure FatWriter (σ : Type) where
  volume : σ
  window : Bytes
  windowOffset : Nat

/-- The bytes allocated for the window. -/
def windowBytes (fatsize : Nat) : Nat :=
  if fatsize < fatWindowSize then fatWindowSize else fatsize

namespace FatWriter

variable {σ : Type}

/-- `volume_write` of the first bytes of the window. -/
def writeWindow (vol : Volume σ) (fatsize offset size : Nat) : Call (FatWriter σ) Unit :=
  fun s =>
    if size ≤ windowBytes fatsize then
      (volumeWrite vol offset (some (s.window.slice 0 size)) size s.volume).mapState
        fun v => { s with volume := v }
    else .stuck

/-- `memmove` to the start of the window. -/
def moveToStart (fatsize src size : Nat) : Call (FatWriter σ) Unit := fun s =>
  if src + size ≤ windowBytes fatsize then .ok () { s with window := s.window.move 0 src size }
  else .stuck

/-- `memset` of bytes of the window to zero. -/
def clearWindow (fatsize offset size : Nat) : Call (FatWriter σ) Unit := fun s =>
  if offset + size ≤ windowBytes fatsize then
    .ok () { s with window := s.window.clear offset size }
  else .stuck

theorem moveToStart_apply {fatsize src size : Nat} (h : src + size ≤ windowBytes fatsize)
    (s : FatWriter σ) : moveToStart fatsize src size s =
      .ok () { s with window := s.window.move 0 src size } := if_pos h

theorem clearWindow_apply {fatsize offset size : Nat} (h : offset + size ≤ windowBytes fatsize)
    (s : FatWriter σ) : clearWindow fatsize offset size s =
      .ok () { s with window := s.window.clear offset size } := if_pos h

/-- The bytes of an entry. -/
def entryBytes (next : Nat) : List UInt8 :=
  [UInt8.ofNat (next &&& 0xFF), UInt8.ofNat ((next >>> 8) &&& 0xFF),
    UInt8.ofNat ((next >>> 16) &&& 0xFF), UInt8.ofNat ((next >>> 24) &&& 0xFF)]

/-- The assignments to four bytes of the window. -/
def putEntry (fatsize offset next : Nat) : Call (FatWriter σ) Unit := fun s =>
  if offset + 4 ≤ windowBytes fatsize then
    .ok () { s with window := s.window.splice offset (entryBytes next) }
  else .stuck

/-- `slide_window`; the result is the new `next_wr_offset`. -/
def slideWindow (vol : Volume σ) (fatsize nextWrOffset : Nat) : Call (FatWriter σ) Nat :=
  if fatsize ≤ fatWindowSize then pure nextWrOffset
  else if nextWrOffset ≤ fatWindowSize / 2 then pure nextWrOffset
  else do
    let s ← Call.get
    let offset := u64 (fat32FatStart + s.windowOffset)
    let diff := fatWindowSize / 2
    writeWindow vol fatsize offset diff
    writeWindow vol fatsize (u64 (offset + fatsize)) diff
    moveToStart fatsize diff (sub64 nextWrOffset diff)
    Call.modify fun s => { s with windowOffset := u64 (s.windowOffset + diff) }
    clearWindow fatsize (sub64 nextWrOffset diff)
      (sub64 fatWindowSize (sub64 nextWrOffset diff))
    pure (sub64 nextWrOffset diff)

/-- `flush_window`. -/
def flushWindow (vol : Volume σ) (fatsize : Nat) : Call (FatWriter σ) Unit := do
  let s ← Call.get
  let offset := u64 (fat32FatStart + s.windowOffset)
  let size := sub64 fatsize s.windowOffset
  let size := if size > fatWindowSize then fatWindowSize else size
  writeWindow vol fatsize offset size
  writeWindow vol fatsize (u64 (offset + fatsize)) size

/-- The loop of `write_cluster_chain_32` from cluster `i` of the chain on. -/
def chainLoop (vol : Volume σ) (fatsize index count : Nat) :
    Nat → Nat → Nat → Call (FatWriter σ) Unit
  | 0, _, _ => pure ()
  | n + 1, i, fatOffset => do
      let fatOffset ← slideWindow vol fatsize fatOffset
      let next := if i + 1 < count then u32 (index + i + 1) else 0xFFFFFFFF
      putEntry fatsize fatOffset (next &&& 0x0FFFFFFF)
      chainLoop vol fatsize index count n (i + 1) (u64 (fatOffset + 4))

/-- `write_cluster_chain_32`. -/
def writeClusterChain32 (vol : Volume σ) (fatsize index count : Nat) :
    Call (FatWriter σ) Unit := do
  let s ← Call.get
  chainLoop vol fatsize index count count 0 (sub64 (u64 (index * 4)) s.windowOffset)

/-- The loops over the directories and the files. -/
def writeChains (vol : Volume σ) (fatsize : Nat) :
    List (Nat × Nat) → Call (FatWriter σ) Unit
  | [] => pure ()
  | (index, count) :: chains => do
      writeClusterChain32 vol fatsize index count
      writeChains vol fatsize chains

/-- The window with the two reserved entries. -/
def initialWindow : Bytes :=
  Bytes.splice (fun _ => 0) 0 [0xF0, 0xFF, 0xFF, 0x0F, 0xFF, 0xFF, 0xFF, 0x0F]

/-- Write through a new window. -/
def withWindow (m : Call (FatWriter σ) Unit) : Call σ Unit := fun v =>
  (m ⟨v, initialWindow, 0⟩).mapState FatWriter.volume

end FatWriter

/-- `fatfs_build_fats`, for the cluster chains of the directories and files. -/
def buildFats {σ : Type} (vol : Volume σ) (fatsize : Nat) (chains : List (Nat × Nat)) :
    Call σ Unit := do
  volumeWrite vol fat32FatStart none fatsize
  FatWriter.withWindow do
    FatWriter.writeChains vol fatsize chains
    FatWriter.flushWindow vol fatsize

/-! ## The table -/

/-- The entry of cluster `k`: a link, an end mark, or 0 for a cluster of no chain. -/
def chainEntry : List (Nat × Nat) → Nat → Nat
  | [], _ => 0
  | (index, count) :: chains, k =>
      if index ≤ k ∧ k < index + count then
        if k + 1 < index + count then (k + 1) % 2 ^ 28 else 0x0FFFFFFF
      else chainEntry chains k

/-- The entries of the FAT, the two reserved ones in front. -/
def fatEntry (chains : List (Nat × Nat)) (k : Nat) : Nat :=
  if k = 0 then 0x0FFFFFF0 else if k = 1 then 0x0FFFFFFF else chainEntry chains k

/-- The bytes of a FAT with these entries. -/
def fatTable (entry : Nat → Nat) : Bytes := fun x =>
  (FatWriter.entryBytes (entry (x / 4))).getD (x % 4) 0

/-- Chains in ascending order, each with fewer than eight free clusters in front; `next` is the
first cluster behind the chains before.  A chain of no clusters is none. -/
def Spaced (next : Nat) : List (Nat × Nat) → Prop
  | [] => True
  | (index, count) :: chains =>
      if count = 0 then Spaced next chains
      else next ≤ index ∧ index < next + 8 ∧ Spaced (index + count) chains

@[simp] theorem length_entryBytes (next : Nat) : (FatWriter.entryBytes next).length = 4 := rfl

theorem slice_fatTable (entry : Nat → Nat) (k : Nat) :
    (fatTable entry).slice (4 * k) 4 = FatWriter.entryBytes (entry k) := by
  apply List.ext_getElem
  · simp
  · intro i hi _
    have hlt : i < 4 := by simpa using hi
    rw [Bytes.getElem_slice, fatTable, show (4 * k + i) / 4 = k by omega,
      show (4 * k + i) % 4 = i by omega, List.getD_eq_getElem?_getD,
      List.getElem?_eq_getElem (by simpa using hlt), Option.getD_some]

theorem fatTable_eq_zero {entry : Nat → Nat} {x : Nat} (h : entry (x / 4) = 0) :
    fatTable entry x = 0 := by
  have hall : ∀ i < 4, (FatWriter.entryBytes 0).getD i 0 = 0 := by decide
  unfold fatTable
  rw [h]
  exact hall _ (Nat.mod_lt _ (by decide))

theorem chainEntry_of_lt {next : Nat} {chains : List (Nat × Nat)} (h : Spaced next chains)
    {k : Nat} (hk : k < next) : chainEntry chains k = 0 := by
  induction chains generalizing next with
  | nil => rfl
  | cons c cs ih =>
      obtain ⟨index, count⟩ := c
      unfold Spaced at h
      unfold chainEntry
      by_cases hzero : count = 0
      · rw [if_pos hzero] at h
        rw [if_neg (by omega)]
        exact ih h hk
      · rw [if_neg hzero] at h
        rw [if_neg (by omega)]
        exact ih h.2.2 (by omega)

/-! ## What a writer stands for -/

/-- All entries in front of `e` are written, and the next one is at most `lead` bytes behind the
start of the window. -/
structure Written {σ : Type} (view : σ → Bytes) (fatsize : Nat) (table before : Bytes)
    (e lead : Nat) (s : FatWriter σ) : Prop where
  first : Bytes.AgreeBelow fatsize ((view s.volume).window fat32FatStart)
    (table.cut s.windowOffset)
  second : Bytes.AgreeBelow fatsize ((view s.volume).window (fat32FatStart + fatsize))
    (table.cut s.windowOffset)
  window : Bytes.AgreeBelow fatWindowSize s.window
    ((table.cut (4 * e)).window s.windowOffset)
  offset_le : s.windowOffset ≤ 4 * e
  inside : s.windowOffset ≤ fatsize
  small : fatsize ≤ fatWindowSize → s.windowOffset = 0
  lead_le : fatWindowSize < fatsize → 4 * e ≤ s.windowOffset + lead
  outside : ∀ x, x < fat32FatStart ∨ fat32FatStart + 2 * fatsize ≤ x →
    view s.volume x = before x

section Writer

variable {σ : Type} {vol : Volume σ} {count fatsize : Nat} {view : σ → Bytes}
  {table before : Bytes} {e lead : Nat} {s : FatWriter σ}

theorem le_windowBytes (fatsize : Nat) : fatWindowSize ≤ windowBytes fatsize := by
  unfold windowBytes
  split <;> omega

/-- Free entries may be left out. -/
theorem Written.gap (h : Written view fatsize table before e lead s) {e' : Nat} (he : e ≤ e')
    (hzero : ∀ x, 4 * e ≤ x → x < 4 * e' → table x = 0) :
    Written view fatsize table before e' (lead + 4 * (e' - e)) s where
  first := h.first
  second := h.second
  window := by
    rw [← Bytes.cut_eq_cut (by omega) hzero]
    exact h.window
  offset_le := by
    have hle := h.offset_le
    omega
  inside := h.inside
  small := h.small
  lead_le := by
    intro hlarge
    have hle := h.lead_le hlarge
    omega
  outside := h.outside

/-- Writing the next entry. -/
theorem Written.put (h : Written view fatsize table before e 2048 s)
    (hin : 4 * e + 4 ≤ fatsize) {next : Nat}
    (hnext : FatWriter.entryBytes next = table.slice (4 * e) 4) :
    ∃ s', FatWriter.putEntry fatsize (4 * e - s.windowOffset) next s = .ok () s' ∧
      s'.windowOffset = s.windowOffset ∧
      Written view fatsize table before (e + 1) 2052 s' := by
  have hoff := h.offset_le
  have hwin : fatWindowSize = 4096 := rfl
  have hbytes := le_windowBytes fatsize
  have hroom : 4 * e - s.windowOffset + 4 ≤ fatWindowSize := by
    by_cases hsmall : fatsize ≤ fatWindowSize
    · have hzero := h.small hsmall
      omega
    · have hle := h.lead_le (by omega)
      omega
  unfold FatWriter.putEntry
  rw [if_pos (by omega)]
  refine ⟨_, rfl, rfl, ⟨h.first, h.second, ?_, ?_, h.inside, h.small, ?_, h.outside⟩⟩
  · show Bytes.AgreeBelow fatWindowSize (s.window.splice (4 * e - s.windowOffset) _) _
    have hcut : (table.cut (4 * (e + 1))).window s.windowOffset =
        ((table.cut (4 * e)).window s.windowOffset).splice (4 * e - s.windowOffset)
          (table.slice (4 * e) 4) := by
      rw [← Bytes.window_splice, show s.windowOffset + (4 * e - s.windowOffset) = 4 * e by omega,
        Bytes.cut_splice_slice]
      rfl
    rw [hcut, hnext]
    exact h.window.splice _ _
  · show s.windowOffset ≤ 4 * (e + 1)
    omega
  · intro hlarge
    have hle := h.lead_le hlarge
    show 4 * (e + 1) ≤ s.windowOffset + 2052
    omega

/-- The value written for cluster `k` of a chain. -/
theorem chain_value (index n i : Nat) :
    ((if i + 1 < n then u32 (index + i + 1) else 0xFFFFFFFF) &&& 0x0FFFFFFF) =
      if index + i + 1 < index + n then (index + i + 1) % 2 ^ 28 else 0x0FFFFFFF := by
  have hmask : ∀ x : Nat, x &&& 0x0FFFFFFF = x % 2 ^ 28 := by
    intro x
    rw [show (0x0FFFFFFF : Nat) = 2 ^ 28 - 1 by rfl, Nat.and_two_pow_sub_one_eq_mod]
  rw [hmask]
  by_cases hlast : i + 1 < n
  · rw [if_pos hlast, if_pos (by omega)]
    unfold u32
    omega
  · rw [if_neg hlast, if_neg (by omega)]
    rfl

variable (hv : BlockStore vol count view) (hcount : count ≤ 2 ^ 64)
  (h64 : fat32FatStart + 2 * fatsize < 2 ^ 64)
  (hsize : fat32FatStart + 2 * fatsize ≤ count * vol.blocksize)

section

include hv hcount

theorem FatWriter.writeWindow_eq {offset size : Nat} (hend : offset + size ≤ count * vol.blocksize)
    (hwindow : size ≤ fatWindowSize) (s : FatWriter σ) :
    ∃ v, FatWriter.writeWindow vol fatsize offset size s = .ok () { s with volume := v } ∧
      view v = (view s.volume).splice offset (s.window.slice 0 size) := by
  obtain ⟨v, hwrite, hview⟩ := volumeWrite_eq hv hcount s.volume
    (show Buffer.Holds (some (s.window.slice 0 size)) size by simp) hend
  refine ⟨v, ?_, ?_⟩
  · unfold FatWriter.writeWindow
    rw [if_pos (Nat.le_trans hwindow (le_windowBytes fatsize)), hwrite]
    rfl
  · rw [hview]
    congr 1
    exact List.take_of_length_le (by simp)

end

include hv hcount h64 hsize

/-- Writing the start of the window to both copies. -/
theorem Written.writes (h : Written view fatsize table before e lead s) (size : Nat)
    (hend : s.windowOffset + size ≤ fatsize) (hwindow : size ≤ fatWindowSize)
    (hdata : s.window.slice 0 size = table.slice s.windowOffset size) :
    ∃ v v', FatWriter.writeWindow vol fatsize (u64 (fat32FatStart + s.windowOffset)) size s =
        .ok () { s with volume := v } ∧
      FatWriter.writeWindow vol fatsize
          (u64 (u64 (fat32FatStart + s.windowOffset) + fatsize)) size { s with volume := v } =
        .ok () { s with volume := v' } ∧
      Bytes.AgreeBelow fatsize ((view v').window fat32FatStart)
        (table.cut (s.windowOffset + size)) ∧
      Bytes.AgreeBelow fatsize ((view v').window (fat32FatStart + fatsize))
        (table.cut (s.windowOffset + size)) ∧
      ∀ x, x < fat32FatStart ∨ fat32FatStart + 2 * fatsize ≤ x → view v' x = before x := by
  rw [u64_of_lt (show fat32FatStart + s.windowOffset < 2 ^ 64 by omega),
    u64_of_lt (show fat32FatStart + s.windowOffset + fatsize < 2 ^ 64 by omega)]
  obtain ⟨v, hwrite, hview⟩ := FatWriter.writeWindow_eq hv hcount
    (show fat32FatStart + s.windowOffset + size ≤ count * vol.blocksize by omega) hwindow s
  obtain ⟨v', hwrite', hview'⟩ := FatWriter.writeWindow_eq hv hcount
    (show fat32FatStart + s.windowOffset + fatsize + size ≤ count * vol.blocksize by omega)
    hwindow { s with volume := v }
  have hlen : (table.slice s.windowOffset size).length = size := Bytes.length_slice _ _ _
  rw [hdata] at hview
  rw [show ({ s with volume := v } : FatWriter σ).window = s.window from rfl, hdata] at hview'
  refine ⟨v, v', hwrite, hwrite', ?_, ?_, ?_⟩
  · have hfirst : Bytes.AgreeBelow fatsize ((view v).window fat32FatStart)
        (table.cut (s.windowOffset + size)) := by
      rw [hview, Bytes.window_splice, ← Bytes.cut_splice_slice]
      exact h.first.splice _ _
    rw [hview']
    exact hfirst.window_splice (by omega)
  · have hsecond : Bytes.AgreeBelow fatsize ((view v).window (fat32FatStart + fatsize))
        (table.cut s.windowOffset) := by
      rw [hview]
      exact h.second.window_splice (by omega)
    rw [hview', show fat32FatStart + s.windowOffset + fatsize =
      fat32FatStart + fatsize + s.windowOffset by omega, Bytes.window_splice,
      ← Bytes.cut_splice_slice]
    exact hsecond.splice _ _
  · intro x hx
    have hout : view v' x = view s.volume x := by
      rw [hview', hview]
      rcases hx with hx | hx
      · rw [Bytes.splice_apply_of_lt (by omega), Bytes.splice_apply_of_lt (by omega)]
      · rw [Bytes.splice_apply_of_ge (by omega), Bytes.splice_apply_of_ge (by omega)]
    rw [hout]
    exact h.outside x hx

/-- Sliding the window makes room for the next entry. -/
theorem Written.slide (h : Written view fatsize table before e lead s) (hlead : lead ≤ 2080)
    (hin : 4 * e + 4 ≤ fatsize) :
    ∃ s', FatWriter.slideWindow vol fatsize (4 * e - s.windowOffset) s =
        .ok (4 * e - s'.windowOffset) s' ∧
      Written view fatsize table before e 2048 s' := by
  have hoff := h.offset_le
  have hhalf : fatWindowSize / 2 = 2048 := rfl
  have hwin : fatWindowSize = 4096 := rfl
  have hbytes := le_windowBytes fatsize
  unfold FatWriter.slideWindow
  by_cases hsmall : fatsize ≤ fatWindowSize
  · rw [if_pos hsmall]
    exact ⟨s, rfl, ⟨h.first, h.second, h.window, hoff, h.inside, h.small, by omega, h.outside⟩⟩
  have hlarge : fatWindowSize < fatsize := by omega
  have hle := h.lead_le hlarge
  rw [if_neg hsmall, hhalf]
  by_cases hroom : 4 * e - s.windowOffset ≤ 2048
  · rw [if_pos hroom]
    exact ⟨s, rfl, ⟨h.first, h.second, h.window, hoff, h.inside, h.small, by omega, h.outside⟩⟩
  have hdata : s.window.slice 0 2048 = table.slice s.windowOffset 2048 := by
    rw [h.window.slice (by omega), Bytes.slice_window, Nat.add_zero,
      Bytes.slice_cut _ (by omega)]
  obtain ⟨v, v', hwrite, hwrite', hfirst, hsecond, houtside⟩ :=
    h.writes hv hcount h64 hsize 2048 (by omega) (by omega) hdata
  have hnext : sub64 (4 * e - s.windowOffset) 2048 = 4 * e - s.windowOffset - 2048 :=
    sub64_of_le (by omega) (by omega)
  have hrest : sub64 4096 (4 * e - s.windowOffset - 2048) =
      4096 - (4 * e - s.windowOffset - 2048) := sub64_of_le (by omega) (by omega)
  have hoffset : u64 (s.windowOffset + 2048) = s.windowOffset + 2048 := u64_of_lt (by omega)
  have hmove : 2048 + (4 * e - s.windowOffset - 2048) ≤ windowBytes fatsize := by omega
  have hclear : 4 * e - s.windowOffset - 2048 + (4096 - (4 * e - s.windowOffset - 2048)) ≤
      windowBytes fatsize := by omega
  -- what was moved to the start, and zeros behind it
  have hwindow : Bytes.AgreeBelow fatWindowSize
      ((s.window.move 0 2048 (4 * e - s.windowOffset - 2048)).clear
        (4 * e - s.windowOffset - 2048) (4096 - (4 * e - s.windowOffset - 2048)))
      ((table.cut (4 * e)).window (s.windowOffset + 2048)) := by
    intro x hx
    rw [hwin] at hx
    by_cases hkept : x < 4 * e - s.windowOffset - 2048
    · rw [Bytes.clear_apply_of_lt hkept, Bytes.move_apply_of_mem (Nat.zero_le x) (by omega),
        Nat.sub_zero, h.window _ (by omega)]
      unfold Bytes.window
      rw [Nat.add_assoc]
    · unfold Bytes.window
      rw [Bytes.cut_apply_of_ge _ (by omega)]
      exact if_pos (by omega)
  rw [if_neg hroom, Call.bind_apply, Call.get_apply, Outcome.bind_ok, Call.bind_apply, hwrite,
    Outcome.bind_ok, Call.bind_apply, hwrite', Outcome.bind_ok,
    hnext, hwin, hrest]
  refine ⟨⟨v', (s.window.move 0 2048 (4 * e - s.windowOffset - 2048)).clear
    (4 * e - s.windowOffset - 2048) (4096 - (4 * e - s.windowOffset - 2048)),
    s.windowOffset + 2048⟩, ?_, ?_⟩
  · rw [Call.bind_apply, FatWriter.moveToStart_apply hmove, Outcome.bind_ok, Call.bind_apply,
      Call.modify_apply, Outcome.bind_ok, Call.bind_apply, FatWriter.clearWindow_apply hclear,
      Outcome.bind_ok, Call.pure_apply, hoffset, Nat.sub_sub]
  · refine ⟨hfirst, hsecond, ?_, show s.windowOffset + 2048 ≤ 4 * e by omega,
      show s.windowOffset + 2048 ≤ fatsize by omega, fun hle => absurd hle hsmall,
        fun _ => show 4 * e ≤ s.windowOffset + 2048 + 2048 by omega,
      houtside⟩
    dsimp only
    exact hwindow

/-- The loop over the clusters of a chain. -/
theorem Written.chainLoop {index n : Nat} (hin : 4 * (index + n) ≤ fatsize)
    (hentries : ∀ k, index ≤ k → k < index + n → table.slice (4 * k) 4 =
      FatWriter.entryBytes (if k + 1 < index + n then (k + 1) % 2 ^ 28 else 0x0FFFFFFF))
    (m : Nat) {i : Nat} (hi : i + m = n) {lead : Nat} (hlead : lead ≤ 2080) {s : FatWriter σ}
    (h : Written view fatsize table before (index + i) lead s) :
    ∃ s', FatWriter.chainLoop vol fatsize index n m i (4 * (index + i) - s.windowOffset) s =
        .ok () s' ∧
      Written view fatsize table before (index + n) (if m = 0 then lead else 2052) s' := by
  induction m generalizing i lead s with
  | zero =>
      obtain rfl : i = n := by omega
      exact ⟨s, rfl, h⟩
  | succ m ih =>
      obtain ⟨s₁, hslide, h₁⟩ := h.slide hv hcount h64 hsize hlead (by omega)
      have hvalue := chain_value index n i
      obtain ⟨s₂, hput, hoff, h₂⟩ := h₁.put (by omega)
        (hentries (index + i) (by omega) (by omega)).symm
      obtain ⟨s', hloop, h'⟩ := ih (i := i + 1) (by omega) (by decide) h₂
      have hoff₁ := h₁.offset_le
      refine ⟨s', ?_, ?_⟩
      · unfold FatWriter.chainLoop
        rw [Call.bind_apply, hslide, Outcome.bind_ok, hvalue, Call.bind_apply, hput,
          Outcome.bind_ok, u64_of_lt (by omega), ← hloop, hoff]
        congr 1
        omega
      · rw [if_neg (Nat.succ_ne_zero m)]
        split at h' <;> exact h'

/-- The loops over all chains. -/
theorem Written.chains {entry : Nat → Nat} {chains : List (Nat × Nat)} {next : Nat}
    (hspaced : Spaced next chains)
    (hin : ∀ c ∈ chains, c.2 ≠ 0 → 4 * (c.1 + c.2) ≤ fatsize)
    (hentry : ∀ k, next ≤ k → entry k = chainEntry chains k) {s : FatWriter σ}
    (h : Written view fatsize (fatTable entry) before next 2052 s) :
    ∃ e s', FatWriter.writeChains vol fatsize chains s = .ok () s' ∧
      Written view fatsize (fatTable entry) before e 2052 s' ∧
      ∀ k, e ≤ k → entry k = 0 := by
  induction chains generalizing next s with
  | nil => exact ⟨next, s, rfl, h, hentry⟩
  | cons c cs ih =>
      obtain ⟨index, n⟩ := c
      unfold Spaced at hspaced
      unfold FatWriter.writeChains FatWriter.writeClusterChain32
      rw [Call.bind_apply, Call.bind_apply, Call.get_apply, Outcome.bind_ok]
      by_cases hzero : n = 0
      · subst hzero
        rw [if_pos rfl] at hspaced
        refine ih hspaced (fun c hc => hin c (List.mem_cons_of_mem _ hc)) ?_ h
        intro k hk
        rw [hentry k hk, chainEntry, if_neg (by omega)]
      rw [if_neg hzero] at hspaced
      obtain ⟨hle, hgap, hrest⟩ := hspaced
      have hend := hin (index, n) List.mem_cons_self hzero
      -- the clusters between the chains are free
      have hfree : ∀ k, next ≤ k → k < index → entry k = 0 := by
        intro k hk hlt
        rw [hentry k hk, chainEntry, if_neg (by omega)]
        exact chainEntry_of_lt hrest (by omega)
      have hat : Written view fatsize (fatTable entry) before index
          (2052 + 4 * (index - next)) s :=
        h.gap hle fun x hx hlt => fatTable_eq_zero (hfree _ (by omega) (by omega))
      have hchain : ∀ k, index ≤ k → k < index + n → (fatTable entry).slice (4 * k) 4 =
          FatWriter.entryBytes (if k + 1 < index + n then (k + 1) % 2 ^ 28
            else 0x0FFFFFFF) := by
        intro k hk hlt
        rw [slice_fatTable, hentry k (by omega), chainEntry, if_pos ⟨hk, hlt⟩]
      obtain ⟨s₁, hloop, h₁⟩ := Written.chainLoop hv hcount h64 hsize hend hchain n (Nat.zero_add n)
        (show 2052 + 4 * (index - next) ≤ 2080 by omega) hat
      have hoff := hat.offset_le
      have hstart : sub64 (u64 (index * 4)) s.windowOffset = 4 * index - s.windowOffset := by
        rw [u64_of_lt (by omega), sub64_of_le (by omega) (by omega), Nat.mul_comm]
      rw [if_neg hzero] at h₁
      rw [hstart]
      change ∃ e s', (FatWriter.chainLoop vol fatsize index n n 0
        (4 * (index + 0) - s.windowOffset) s).bind _ = _ ∧ _
      rw [hloop, Outcome.bind_ok]
      refine ih hrest (fun c hc => hin c (List.mem_cons_of_mem _ hc)) ?_ h₁
      intro k hk
      rw [hentry k (by omega), chainEntry, if_neg (by omega)]

/-- Flushing the window completes both copies. -/
theorem Written.flush (h : Written view fatsize table before e 2052 s)
    (hzero : ∀ x, 4 * e ≤ x → table x = 0) :
    ∃ s', FatWriter.flushWindow vol fatsize s = .ok () s' ∧
      Bytes.AgreeBelow fatsize ((view s'.volume).window fat32FatStart) table ∧
      Bytes.AgreeBelow fatsize ((view s'.volume).window (fat32FatStart + fatsize)) table ∧
      ∀ x, x < fat32FatStart ∨ fat32FatStart + 2 * fatsize ≤ x →
        view s'.volume x = before x := by
  have hwin : fatWindowSize = 4096 := rfl
  have hoff := h.inside
  have hcut : table.cut (4 * e) = table := Bytes.cut_eq_self hzero
  have hdata : s.window.slice 0 (min (fatsize - s.windowOffset) 4096) =
      table.slice s.windowOffset (min (fatsize - s.windowOffset) 4096) := by
    rw [h.window.slice (by omega), hcut, Bytes.slice_window, Nat.add_zero]
  obtain ⟨v, v', hwrite, hwrite', hfirst, hsecond, houtside⟩ := h.writes hv hcount h64 hsize
    (min (fatsize - s.windowOffset) 4096) (by omega) (by omega) hdata
  -- behind what is written nothing is left
  have hdone : ∀ {f : Bytes}, Bytes.AgreeBelow fatsize f
      (table.cut (s.windowOffset + min (fatsize - s.windowOffset) 4096)) →
      Bytes.AgreeBelow fatsize f table := by
    intro f hf x hx
    rw [hf x hx]
    by_cases hlt : x < s.windowOffset + min (fatsize - s.windowOffset) 4096
    · exact Bytes.cut_apply_of_lt _ hlt
    · have hle := h.lead_le (by omega)
      rw [Bytes.cut_apply_of_ge _ (by omega), hzero x (by omega)]
  refine ⟨{ s with volume := v' }, ?_, hdone hfirst, hdone hsecond, houtside⟩
  have hclip : (if sub64 fatsize s.windowOffset > fatWindowSize then fatWindowSize
      else sub64 fatsize s.windowOffset) = min (fatsize - s.windowOffset) 4096 := by
    rw [sub64_of_le hoff (by omega), hwin]
    split <;> omega
  unfold FatWriter.flushWindow
  rw [Call.bind_apply, Call.get_apply, Outcome.bind_ok, hclip, Call.bind_apply, hwrite,
    Outcome.bind_ok]
  exact hwrite'

/-- Writing the chains through the window leaves two copies of the table, where both areas were
zero before, and nothing else changes. -/
theorem buildFats_eq_table {chains : List (Nat × Nat)} (hspaced : Spaced 2 chains)
    (hin : ∀ c ∈ chains, c.2 ≠ 0 → 4 * (c.1 + c.2) ≤ fatsize) {v : σ}
    (hzero : ∀ x, fat32FatStart ≤ x → x < fat32FatStart + 2 * fatsize → view v x = 0) :
    ∃ v', buildFats vol fatsize chains v = .ok () v' ∧
      (∀ x < fatsize, view v' (fat32FatStart + x) = fatTable (fatEntry chains) x ∧
        view v' (fat32FatStart + fatsize + x) = fatTable (fatEntry chains) x) ∧
      ∀ x, x < fat32FatStart ∨ fat32FatStart + 2 * fatsize ≤ x → view v' x = view v x := by
  obtain ⟨v₁, hwrite, hview⟩ := volumeWrite_eq hv hcount v (Buffer.holds_none fatsize)
    (show fat32FatStart + fatsize ≤ count * vol.blocksize by omega)
  have hclear : view v₁ = view v := by
    rw [hview]
    exact (Bytes.clear_eq_splice _ _ _).symm.trans
      (Bytes.clear_eq_self fun x hx hlt => hzero x hx (by omega))
  have hinit : Written view fatsize (fatTable (fatEntry chains)) (view v) 2 2052
      ⟨v₁, FatWriter.initialWindow, 0⟩ := by
    have hcut : (fatTable (fatEntry chains)).cut 0 = fun _ => 0 := by
      funext x
      exact Bytes.cut_apply_of_ge _ (Nat.zero_le x)
    refine ⟨?_, ?_, ?_, Nat.zero_le _, Nat.zero_le _, fun _ => rfl, fun _ => by omega, ?_⟩
    · show Bytes.AgreeBelow fatsize ((view v₁).window _) ((fatTable (fatEntry chains)).cut 0)
      rw [hcut, hclear]
      exact fun x hx => hzero _ (by omega) (by omega)
    · show Bytes.AgreeBelow fatsize ((view v₁).window _) ((fatTable (fatEntry chains)).cut 0)
      rw [hcut, hclear]
      exact fun x hx => hzero _ (by omega) (by omega)
    · have hreserved : (fatTable (fatEntry chains)).slice 0 8 =
          [0xF0, 0xFF, 0xFF, 0x0F, 0xFF, 0xFF, 0xFF, 0x0F] := by
        rw [← Bytes.slice_append _ 0 4 4, slice_fatTable _ 0, Nat.zero_add,
          show (4 : Nat) = 4 * 1 from rfl, slice_fatTable _ 1,
          show fatEntry chains 0 = 0x0FFFFFF0 from rfl,
          show fatEntry chains 1 = 0x0FFFFFFF from rfl]
        decide
      have hwindow : FatWriter.initialWindow =
          ((fatTable (fatEntry chains)).cut 8).window 0 := by
        have hsplice := Bytes.cut_splice_slice (fatTable (fatEntry chains)) 0 8
        rw [hcut, hreserved, Nat.zero_add] at hsplice
        rw [← hsplice]
        funext x
        exact congrArg _ (Nat.zero_add x).symm
      rw [hwindow]
      exact fun _ _ => rfl
    · intro x _
      exact congrFun hclear x
  obtain ⟨e, s, hchains, hs, hfree⟩ := hinit.chains hv hcount h64 hsize hspaced hin fun k hk => by
    rw [fatEntry, if_neg (by omega), if_neg (by omega)]
  obtain ⟨s', hflush, hfirst, hsecond, houtside⟩ := hs.flush hv hcount h64 hsize
    fun x hx => fatTable_eq_zero (hfree _ (by omega))
  refine ⟨s'.volume, ?_, fun x hx => ⟨hfirst x hx, ?_⟩, houtside⟩
  · unfold buildFats
    rw [Call.bind_apply, hwrite, Outcome.bind_ok]
    unfold FatWriter.withWindow
    rw [Call.bind_apply, hchains, Outcome.bind_ok, hflush]
    rfl
  · exact hsecond x hx

end Writer

/-- A table of three windows: two chains lie in the first one, one chain is empty, and two chains
run on into the next window. -/
theorem buildFats_eq_table_windows : ∃ v', buildFats (idealVolume sectorSize 80) 12288
      [(2, 1), (4, 2), (0, 0), (12, 1200), (1217, 900)] (fun _ => 0) = .ok () v' ∧
    (∀ x < 12288, v' (fat32FatStart + x) =
        fatTable (fatEntry [(2, 1), (4, 2), (0, 0), (12, 1200), (1217, 900)]) x ∧
      v' (fat32FatStart + 12288 + x) =
        fatTable (fatEntry [(2, 1), (4, 2), (0, 0), (12, 1200), (1217, 900)]) x) ∧
    ∀ x, x < fat32FatStart ∨ fat32FatStart + 2 * 12288 ≤ x → v' x = 0 :=
  buildFats_eq_table (show BlockStore (idealVolume sectorSize 80) 80 id from
      idealVolume_blockStore (by decide)) (by decide) (by decide) (by decide)
    (by simp [Spaced]) (by decide) fun _ _ _ => rfl

end ImageTool.Fat
