import ImageTool.Mbr.Flags

/-!
# The partition table on the disk

`mbr_disk_commit` writes the table into sector 0.  `decodeEntry` reads a header entry
back, and a committed partition that ends within the first `2 ^ 32` sectors is described
by its entry.  The cylinder, head and sector fields give a sector of the first 1023
cylinders, and the overflow marker for every sector behind them, also for those of
cylinder 1023.
-/

namespace ImageTool.Mbr

open ImageTool.Lib ImageTool.Image

/-! ## Decoding -/

/-- A cylinder, head and sector address. -/
structure Chs where
  cylinder : Nat
  head : Nat
  sector : Nat
  deriving DecidableEq

namespace Chs

/-- The three bytes of a header entry. -/
def decode (b₀ b₁ b₂ : UInt8) : Chs :=
  { cylinder := b₁.toNat / 64 * 256 + b₂.toNat
    head := b₀.toNat
    sector := b₁.toNat % 64 }

/-- The sector meant, with 63 sectors per track and 254 heads per cylinder. -/
def lba (c : Chs) : Nat := (c.cylinder * 254 + c.head) * 63 + (c.sector - 1)

/-- An address of the geometry. -/
def Valid (c : Chs) : Prop :=
  c.cylinder < 1024 ∧ c.head < 254 ∧ 1 ≤ c.sector ∧ c.sector ≤ 63

/-- What stands in for a sector without an address. -/
def overflow : Chs := ⟨1023, 254, 63⟩

/-- The number of sectors that have an address. -/
def representable : Nat := 63 * 254 * 1024

/-- The address of a sector, or the marker for sectors from `limit` on. -/
def Names (c : Chs) (limit sector : Nat) : Prop :=
  if sector < limit then c.Valid ∧ c.lba = sector else c = overflow

instance (c : Chs) : Decidable c.Valid := by unfold Valid; infer_instance

instance (c : Chs) (limit sector : Nat) : Decidable (c.Names limit sector) := by
  unfold Names
  infer_instance

end Chs

/-- A header entry. -/
structure Entry where
  flags : UInt8
  first : Chs
  type : UInt8
  last : Chs
  lba : Nat
  count : Nat
  deriving DecidableEq

/-- A 32-bit value from its bytes. -/
def ofLe32 (b₀ b₁ b₂ b₃ : UInt8) : Nat :=
  b₀.toNat + 2 ^ 8 * b₁.toNat + 2 ^ 16 * b₂.toNat + 2 ^ 24 * b₃.toNat

/-- The sixteen bytes of a header entry. -/
def decodeEntry : List UInt8 → Option Entry
  | [flags, f₀, f₁, f₂, type, l₀, l₁, l₂, a₀, a₁, a₂, a₃, n₀, n₁, n₂, n₃] =>
      some { flags := flags, first := Chs.decode f₀ f₁ f₂, type := type,
             last := Chs.decode l₀ l₁ l₂, lba := ofLe32 a₀ a₁ a₂ a₃,
             count := ofLe32 n₀ n₁ n₂ n₃ }
  | _ => none

/-- The bytes of entry `i` in sector 0. -/
def entryBytes (sector : List UInt8) (i : Nat) : List UInt8 :=
  (sector.drop (446 + 16 * i)).take 16

/-- The last sector of a partition; that of an empty one is its first. -/
def Part.last (p : Part) : Nat :=
  if 0 < p.blkCount then p.index + p.blkCount - 1 else p.index

/-- An entry says what the table says of a partition; `limit` is the number of sectors
that get an address. -/
structure Entry.Describes (limit : Nat) (e : Entry) (p : Part) : Prop where
  lba : e.lba = p.index
  count : e.count = p.blkCount
  type : e.type.toNat = ((p.flags >>> 20) &&& 0xFF).toNat
  boot : e.flags = if p.flags &&& flagBootable ≠ 0 then 0x80 else 0
  first : e.first.Names limit p.index
  last : e.last.Names limit p.last

/-! ## Round trips -/

theorem ofLe32_le32 {n : Nat} (h : n < 2 ^ 32) :
    ofLe32 (UInt8.ofNat n) (UInt8.ofNat (n / 2 ^ 8)) (UInt8.ofNat (n / 2 ^ 16))
      (UInt8.ofNat (n / 2 ^ 24)) = n := by
  simp only [ofLe32, UInt8.toNat_ofNat']
  omega

/-- The high bits of the cylinder and the sector share a byte. -/
private theorem packed_toNat {c s : Nat} (hc : c < 1024) (hs : s < 64) :
    (UInt8.ofNat (((c >>> 2) &&& 0xC0) ||| (s &&& 0x3F))).toNat = c / 256 * 64 + s := by
  have hmask : ∀ x < 256, x &&& 0xC0 = 2 ^ 6 * (x / 64) := by decide +kernel
  have hhigh : (c >>> 2) &&& 0xC0 = 2 ^ 6 * (c / 256) := by
    rw [Nat.shiftRight_eq_div_pow, hmask (c / 2 ^ 2) (by omega), Nat.div_div_eq_div_mul]
  have hlow : s &&& 0x3F = s := by
    rw [show (0x3F : Nat) = 2 ^ 6 - 1 by rfl, Nat.and_two_pow_sub_one_eq_mod]
    omega
  rw [hhigh, hlow, ← Nat.two_pow_add_eq_or_of_lt (i := 6) hs]
  simp only [UInt8.toNat_ofNat']
  omega

/-- The address of a sector in front of `MAX_CHS`, and the marker behind. -/
theorem decode_lbaToChs {lba : Nat} {b₀ b₁ b₂ : UInt8}
    (h : Disk.lbaToChs lba = [b₀, b₁, b₂]) : (Chs.decode b₀ b₁ b₂).Names Disk.maxChs lba := by
  unfold Chs.Names
  by_cases hlt : lba < Disk.maxChs
  · have hbound : lba < 63 * 254 * 1023 := hlt
    rw [if_pos hlt]
    unfold Disk.lbaToChs at h
    rw [if_neg (by omega)] at h
    simp only [List.cons.injEq, and_true] at h
    obtain ⟨h₀, h₁, h₂⟩ := h
    have hc : lba / (254 * 63) < 1024 := by omega
    have hs : 1 + lba % 63 < 64 := by omega
    have hhead : b₀.toNat = lba / 63 % 254 := by
      rw [← h₀, UInt8.toNat_ofNat']
      omega
    have hpacked : b₁.toNat = lba / (254 * 63) / 256 * 64 + (1 + lba % 63) := by
      rw [← h₁, packed_toNat hc hs]
    have hlow : b₂.toNat = lba / (254 * 63) % 256 := by
      rw [← h₂, show (0xFF : Nat) = 2 ^ 8 - 1 by rfl, Nat.and_two_pow_sub_one_eq_mod,
        UInt8.toNat_ofNat']
      omega
    simp only [Chs.Valid, Chs.lba, Chs.decode, hhead, hpacked, hlow]
    omega
  · rw [if_neg hlt]
    unfold Disk.lbaToChs at h
    rw [if_pos (by omega)] at h
    simp only [List.cons.injEq, and_true] at h
    obtain ⟨h₀, h₁, h₂⟩ := h
    subst h₀ h₁ h₂
    decide

theorem length_headerEntry (p : Part) : (Disk.headerEntry p).length = 16 := by
  simp [Disk.headerEntry, Disk.lbaToChs, Disk.le32]

/-- The entry of a partition within the first `2 ^ 32` sectors describes it. -/
theorem decodeEntry_headerEntry {p : Part} (hlt : p.index < 2 ^ 32)
    (hend : p.index + p.blkCount ≤ 2 ^ 32) (hcount : p.blkCount < 2 ^ 32) :
    ∃ e, decodeEntry (Disk.headerEntry p) = some e ∧ e.Describes Disk.maxChs p := by
  have hlast : (if p.blkCount > 0 then u32 (p.index + p.blkCount + (2 ^ 32 - 1))
      else p.index) = p.last := by
    unfold Part.last u32
    split
    · omega
    · rfl
  unfold Disk.headerEntry
  dsimp only
  rw [u32_of_lt hlt, u32_of_lt hcount, hlast]
  refine ⟨_, rfl, ⟨ofLe32_le32 hlt, ofLe32_le32 hcount, ?_, rfl, decode_lbaToChs rfl,
    decode_lbaToChs rfl⟩⟩
  have hmask : ((p.flags >>> 20) &&& 0xFF).toNat < 256 := by
    rw [BitVec.toNat_and]
    exact Nat.and_lt_two_pow _ (by decide : (0xFF : BitVec 64).toNat < 2 ^ 8)
  rw [UInt8.toNat_ofNat', Nat.mod_eq_of_lt hmask]

/-! ## The sector -/

/-- Piece `i` of a list made of pieces of one length. -/
theorem take_drop_flatten {α : Type} {n : Nat} {pieces : List (List α)} (rest : List α)
    (hlen : ∀ l ∈ pieces, l.length = n) {i : Nat} {l : List α} (hi : pieces[i]? = some l) :
    ((pieces.flatten ++ rest).drop (n * i)).take n = l := by
  induction pieces generalizing i with
  | nil => cases hi
  | cons x xs ih =>
      have hx : x.length = n := hlen x (by simp)
      cases i with
      | zero =>
          obtain rfl : x = l := by simpa using hi
          simp [← hx]
      | succ i =>
          have hsucc : n * (i + 1) = x.length + n * i := by rw [hx, Nat.mul_succ, Nat.add_comm]
          rw [hsucc, List.flatten_cons, List.append_assoc, ← List.drop_drop, List.drop_left]
          exact ih (fun l hl => hlen l (by simp [hl])) (by simpa using hi)

/-- The partitions and the unused entries fill the table. -/
theorem length_header {parts : List Part} (h : parts.length ≤ maxPartitions) :
    (Disk.header parts).length = sectorSize := by
  have hsum : (parts.map Disk.headerEntry).flatten.length = 16 * parts.length := by
    induction parts with
    | nil => rfl
    | cons p ps ih =>
        have hps := ih (by simp at h; omega)
        simp only [List.map_cons, List.flatten_cons, List.length_append, length_headerEntry,
          List.length_cons, hps]
        omega
  have h4 : parts.length ≤ 4 := h
  simp only [Disk.header, List.length_append, List.length_replicate, hsum, maxPartitions,
    sectorSize, List.length_cons, List.length_nil]
  omega

theorem entryBytes_header {parts : List Part} {i : Nat} {p : Part}
    (hp : parts[i]? = some p) : entryBytes (Disk.header parts) i = Disk.headerEntry p := by
  have hlen : ∀ l ∈ parts.map Disk.headerEntry, l.length = 16 := by
    intro l hl
    obtain ⟨q, -, rfl⟩ := List.mem_map.1 hl
    exact length_headerEntry q
  unfold entryBytes Disk.header
  rw [List.append_assoc, List.append_assoc, ← List.drop_drop,
    List.drop_left' (List.length_replicate ..)]
  exact take_drop_flatten _ hlen (by rw [List.getElem?_map, hp]; rfl)

/-- Behind the partitions the table is zero. -/
theorem entryBytes_header_unused {parts : List Part} {i : Nat} (hi : parts.length ≤ i)
    (hmax : i < maxPartitions) :
    entryBytes (Disk.header parts) i = List.replicate 16 0 := by
  have hlen : ∀ l ∈ parts.map Disk.headerEntry ++
      List.replicate (maxPartitions - parts.length) (List.replicate 16 0), l.length = 16 := by
    intro l hl
    rcases List.mem_append.1 hl with hl | hl
    · obtain ⟨q, -, rfl⟩ := List.mem_map.1 hl
      exact length_headerEntry q
    · rw [List.eq_of_mem_replicate hl, List.length_replicate]
  have hzero : List.replicate (16 * (maxPartitions - parts.length)) (0 : UInt8) =
      (List.replicate (maxPartitions - parts.length) (List.replicate 16 0)).flatten := by
    rw [List.flatten_replicate_replicate, Nat.mul_comm]
  unfold entryBytes Disk.header
  rw [hzero, ← List.flatten_append, List.append_assoc, ← List.drop_drop,
    List.drop_left' (List.length_replicate ..)]
  apply take_drop_flatten _ hlen
  rw [List.getElem?_append_right (by simpa using hi), List.getElem?_replicate,
    if_pos (by simp; omega)]

/-! ## What a commit writes -/

namespace Disk

variable {σ : Type} {vol : Volume σ}

/-- Where a commit succeeds, sector 0 holds the header of the table it leaves. -/
theorem commit_readBlock {count : Nat} {view : σ → Bytes} (hv : BlockStore vol count view)
    (hbs : vol.blocksize = sectorSize) (hcount : 0 < count) {d d' : Disk σ}
    (hd : d.parts.length ≤ maxPartitions) (hok : commit vol d = .ok () d') :
    vol.readBlock 0 d'.volume = .ok (header d'.parts) d'.volume ∧
      d'.parts.length ≤ maxPartitions := by
  have hsmall : d'.parts.length ≤ maxPartitions := by
    have hflags : Call.Returns (commit vol d) (fun _ => Flagged (d.parts.map Part.flags)) _ :=
      commit_flagged d rfl
    rw [hok] at hflags
    have hlen := congrArg List.length (show d'.parts.map Part.flags = _ from hflags)
    rw [List.length_map, List.length_map] at hlen
    rwa [hlen]
  refine ⟨?_, hsmall⟩
  unfold commit at hok
  rw [Call.bind_apply, Call.get_apply, Outcome.bind_ok, Call.bind_apply] at hok
  obtain ⟨_, d₁, hshrink, hok⟩ := Outcome.of_bind_eq_ok hok
  rw [Call.bind_apply] at hok
  obtain ⟨_, d₂, hexpand, hok⟩ := Outcome.of_bind_eq_ok hok
  rw [Call.bind_apply, Call.get_apply, Outcome.bind_ok, Call.bind_apply] at hok
  obtain ⟨_, d₃, hwrite, hcommit⟩ := Outcome.of_bind_eq_ok hok
  have hparts : ∀ {m : Call σ Unit} {a b : Disk σ}, onVolume m a = .ok () b →
      b.parts = a.parts ∧ m a.volume = .ok () b.volume := by
    intro m a b h
    unfold onVolume at h
    rw [Call.zoom_apply] at h
    cases hm : m a.volume with
    | ok u v =>
        rw [hm] at h
        cases h
        exact ⟨rfl, rfl⟩
    | fail v => rw [hm] at h; cases h
    | stuck => rw [hm] at h; cases h
  obtain ⟨hp₃, hw⟩ := hparts hwrite
  obtain ⟨hp', hc⟩ := hparts hcommit
  have hsize : (header d₂.parts).length = sectorSize := by
    apply length_header
    rw [← hp₃, ← hp']
    exact hsmall
  have hholds : Buffer.Holds (some (header d₂.parts)) vol.blocksize := by
    simp [hbs, hsize]
  obtain ⟨v₁, hw', hview⟩ := hv.writeBlock d₂.volume 0 _ hcount hholds
  obtain ⟨v₂, hc', hview'⟩ := hv.commit d₃.volume
  rw [hw] at hw'
  rw [hc] at hc'
  cases hw'
  cases hc'
  rw [hv.readBlock _ _ hcount, hview', hview, hp', hp₃, hbs, Nat.zero_mul]
  have hbytes : Buffer.bytes (some (header d₂.parts)) sectorSize = header d₂.parts :=
    List.take_of_length_le (Nat.le_of_eq hsize)
  rw [hbytes, ← hsize, Bytes.slice_splice_self]

/-- After a successful commit sector 0 describes every partition within the first
`2 ^ 32` sectors, with a cylinder, head and sector address for the sectors in front of
`MAX_CHS`, and is zero in the unused entries. -/
theorem commit_describes {count : Nat} {view : σ → Bytes} (hv : BlockStore vol count view)
    (hbs : vol.blocksize = sectorSize) (hcount : 0 < count) {v : σ} {d d' : Disk σ}
    (hd : Reached vol v d) (hok : commit vol d = .ok () d') :
    ∃ sector, vol.readBlock 0 d'.volume = .ok sector d'.volume ∧
      (∀ i p, d'.parts[i]? = some p → p.index < 2 ^ 32 → p.blkCount < 2 ^ 32 →
        p.index + p.blkCount ≤ 2 ^ 32 →
        ∃ e, decodeEntry (entryBytes sector i) = some e ∧ e.Describes maxChs p) ∧
      ∀ i, d'.parts.length ≤ i → i < maxPartitions →
        entryBytes sector i = List.replicate 16 0 := by
  obtain ⟨hread, hsmall⟩ := commit_readBlock hv hbs hcount hd.length_le hok
  refine ⟨header d'.parts, hread, ?_, ?_⟩
  · intro i p hp hlt hcount hend
    rw [entryBytes_header hp]
    exact decodeEntry_headerEntry hlt hend hcount
  · intro i hi hmax
    exact entryBytes_header_unused hi hmax

/-! ### Disks with unused partitions -/

theorem clearBlocks_idealVolume (bs : Nat) {count : Nat} (h64 : count < 2 ^ 64) {index n : Nat}
    (h : index + n ≤ count) (s : Bytes) :
    ∃ s', clearBlocks (idealVolume bs count) index n s = .ok () s' := by
  induction n generalizing index s with
  | zero => exact ⟨s, rfl⟩
  | succ n ih =>
      unfold clearBlocks
      rw [Call.bind_apply, idealVolume_writeBlock, if_pos (by omega), Outcome.bind_ok,
        u64_of_lt (by omega)]
      exact ih (by omega) _

/-- A partition that fits is put behind the others. -/
theorem createPartition_idealVolume (bs : Nat) {count : Nat} (h64 : count < 2 ^ 64)
    (n : Nat) (flags : BitVec 64) (parts : List Part) (s : Bytes)
    (hfull : parts.length ≠ maxPartitions)
    (hfits : nextFree parts + u64 (roundUp n) ≤ count) :
    ∃ s', createPartition (idealVolume bs count) n flags ⟨s, parts⟩ =
      .ok () ⟨s', (if flags &&& flagFill ≠ 0 then parts.map Part.clearFill else parts) ++
        [⟨nextFree parts, u64 (roundUp n), u64 (roundUp n), 0, flags⟩]⟩ := by
  obtain ⟨s', hs'⟩ := clearBlocks_idealVolume bs h64 hfits s
  refine ⟨s', ?_⟩
  unfold createPartition
  rw [Call.bind_apply, Call.get_apply, Outcome.bind_ok, if_neg hfull, Call.bind_apply]
  unfold onVolume
  rw [Call.zoom_apply, hs', Outcome.mapState_ok, Outcome.bind_ok, Call.modify_apply]

/-- A partition that a commit leaves as it is. -/
def Settled (p : Part) : Prop :=
  clampDiff p (p.blkCount - p.blkUsed) = 0 ∧ p.fills = false

instance (p : Part) : Decidable (Settled p) := by unfold Settled; infer_instance

theorem shrinkToFit_settled {d : Disk σ} {i : Nat} {p : Part} (hp : d.parts[i]? = some p)
    (h : clampDiff p (p.blkCount - p.blkUsed) = 0) : shrinkToFit vol i d = .ok () d := by
  unfold shrinkToFit
  rw [Call.bind_apply, part_apply hp, Outcome.bind_ok]
  split
  · rfl
  · unfold shrinkPartition
    rw [Call.bind_apply, part_apply hp, Outcome.bind_ok]
    dsimp only
    rw [if_pos h]
    rfl

theorem applyExpandPolicy_skip {d : Disk σ} {i : Nat} {p : Part}
    (hp : d.parts[i]? = some p) (h : p.fills = false) :
    applyExpandPolicy vol i d = .ok () d := by
  unfold applyExpandPolicy
  rw [Call.bind_apply, part_apply hp, Outcome.bind_ok, if_pos (by simp [h])]
  rfl

theorem eachPart_settled {f : Nat → Call (Disk σ) Unit} {d : Disk σ} {i n : Nat}
    (h : ∀ j, i ≤ j → j < i + n → f j d = .ok () d) : eachPart f i n d = .ok () d := by
  induction n generalizing i with
  | zero => rfl
  | succ n ih =>
      unfold eachPart
      rw [Call.bind_apply, h i (Nat.le_refl i) (by omega), Outcome.bind_ok]
      exact ih fun j hj hjn => h j (by omega) (by omega)

/-- Where no partition is to be resized, a commit writes the header. -/
theorem commit_idealVolume (bs : Nat) {count : Nat} (hcount : 0 < count) (s : Bytes)
    (parts : List Part) (h : ∀ p ∈ parts, Settled p) :
    commit (idealVolume bs count) ⟨s, parts⟩ =
      .ok () ⟨s.splice (0 * bs) (Buffer.bytes (some (header parts)) bs), parts⟩ := by
  have hget : ∀ j, j < parts.length → ∃ p, parts[j]? = some p ∧ Settled p := by
    intro j hj
    exact ⟨parts[j], List.getElem?_eq_getElem hj, h _ (List.getElem_mem hj)⟩
  have hshrink : eachPart (shrinkToFit (idealVolume bs count)) 0 parts.length ⟨s, parts⟩ =
      .ok () ⟨s, parts⟩ := by
    apply eachPart_settled
    intro j _ hj
    obtain ⟨p, hp, hset⟩ := hget j (by omega)
    exact shrinkToFit_settled hp hset.1
  have hexpand : eachPart (applyExpandPolicy (idealVolume bs count)) 0 parts.length
      ⟨s, parts⟩ = .ok () ⟨s, parts⟩ := by
    apply eachPart_settled
    intro j _ hj
    obtain ⟨p, hp, hset⟩ := hget j (by omega)
    exact applyExpandPolicy_skip hp hset.2
  unfold commit
  rw [Call.bind_apply, Call.get_apply, Outcome.bind_ok, Call.bind_apply, hshrink,
    Outcome.bind_ok, Call.bind_apply, hexpand, Outcome.bind_ok, Call.bind_apply,
    Call.get_apply, Outcome.bind_ok, Call.bind_apply]
  unfold onVolume
  rw [Call.zoom_apply, idealVolume_writeBlock, if_pos hcount]
  rfl

/-- One partition of a mebibyte, as it is committed. -/
theorem commit_describes_first :
    ∃ d d' sector, Reached (idealVolume sectorSize 4096) (fun _ => 0) d ∧
      commit (idealVolume sectorSize 4096) d = .ok () d' ∧
      (idealVolume sectorSize 4096).readBlock 0 d'.volume = .ok sector d'.volume ∧
      (∃ e, decodeEntry (entryBytes sector 0) = some e ∧
        e.Describes maxChs ⟨2048, 2048, 2048, 0, 0⟩) ∧
      entryBytes sector 3 = List.replicate 16 0 := by
  obtain ⟨s, hcreate⟩ := createPartition_idealVolume sectorSize
    (show 4096 < 2 ^ 64 by decide) 2048 0 [] (fun _ => 0) (by decide) (by decide)
  have hreached := (Reached.empty fun _ => 0).create hcreate
  have hok := commit_idealVolume sectorSize (show 0 < 4096 by decide) s
    [⟨2048, 2048, 2048, 0, 0⟩] (by decide)
  obtain ⟨sector, hread, hused, hunused⟩ := commit_describes
    (show BlockStore (idealVolume sectorSize 4096) 4096 id from
      idealVolume_blockStore (by decide)) rfl (by decide) hreached hok
  exact ⟨_, _, sector, hreached, hok, hread,
    hused 0 _ rfl (by decide) (by decide) (by decide),
    hunused 3 (by show 1 ≤ 3; decide) (by decide)⟩

/-- A partition behind one of 7993 mebibytes starts in cylinder 1023, which has addresses,
but its entry holds the marker. -/
theorem commit_cylinder_1023 :
    ∃ d d' sector, Reached (idealVolume sectorSize (7995 * 2048)) (fun _ => 0) d ∧
      commit (idealVolume sectorSize (7995 * 2048)) d = .ok () d' ∧
      (idealVolume sectorSize (7995 * 2048)).readBlock 0 d'.volume = .ok sector d'.volume ∧
      ∃ p e, d'.parts[1]? = some p ∧ p.index < Chs.representable ∧
        decodeEntry (entryBytes sector 1) = some e ∧ e.first = Chs.overflow ∧
        ¬ e.Describes Chs.representable p := by
  obtain ⟨s, hfirst⟩ := createPartition_idealVolume sectorSize
    (show 7995 * 2048 < 2 ^ 64 by decide) (7993 * 2048) 0 [] (fun _ => 0) (by decide)
    (by decide)
  obtain ⟨s', hsecond⟩ := createPartition_idealVolume sectorSize
    (show 7995 * 2048 < 2 ^ 64 by decide) 2048 0 [⟨2048, 7993 * 2048, 7993 * 2048, 0, 0⟩] s
    (by decide) (by decide)
  have hreached := ((Reached.empty fun _ => 0).create hfirst).create hsecond
  have hok := commit_idealVolume sectorSize (show 0 < 7995 * 2048 by decide) s'
    [⟨2048, 7993 * 2048, 7993 * 2048, 0, 0⟩, ⟨7994 * 2048, 2048, 2048, 0, 0⟩] (by decide)
  obtain ⟨hread, -⟩ := commit_readBlock
    (show BlockStore (idealVolume sectorSize (7995 * 2048)) (7995 * 2048) id from
      idealVolume_blockStore (by decide)) rfl (by decide) hreached.length_le hok
  obtain ⟨e, he, hdesc⟩ := decodeEntry_headerEntry (p := ⟨7994 * 2048, 2048, 2048, 0, 0⟩)
    (by decide) (by decide) (by decide)
  have hmarker : e.first = Chs.overflow := by
    have hnames := hdesc.first
    unfold Chs.Names at hnames
    rwa [if_neg (by decide)] at hnames
  refine ⟨_, _, _, hreached, hok, hread, ⟨7994 * 2048, 2048, 2048, 0, 0⟩, e, rfl, by decide,
    ?_, hmarker, ?_⟩
  · rw [entryBytes_header (p := ⟨7994 * 2048, 2048, 2048, 0, 0⟩) rfl]
    exact he
  · intro h
    have hnames := h.first
    rw [hmarker] at hnames
    revert hnames
    decide

end Disk

end ImageTool.Mbr
