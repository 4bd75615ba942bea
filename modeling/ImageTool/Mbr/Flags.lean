import ImageTool.Lib.Run
import ImageTool.Mbr.Disk
import ImageTool.Mbr.Resize

/-!
# The flags of the partitions

Only creating a partition and setting flags touch the flags in the table.  What these two
keep of the list of flags holds in every state of a disk (`Reached.flags`): there are at
most four partitions, and at most one of them fills the disk.
-/

namespace ImageTool.Mbr

open ImageTool.Lib ImageTool.Image

namespace Disk

variable {σ : Type} {vol : Volume σ}

/-- The disks that operations on an empty one lead to. -/
def Reached (vol : Volume σ) (v : σ) : Disk σ → Prop :=
  Run (fun op d => (DiskOp.run vol op d).state?) (fun _ _ => True) (create v)

theorem Reached.empty (v : σ) : Reached vol v ⟨v, []⟩ := Run.refl

theorem Reached.step {v : σ} {d d' : Disk σ} (hd : Reached vol v d) (op : DiskOp)
    (h : (op.run vol d).state? = some d') : Reached vol v d' := Run.tail op hd trivial h

theorem Reached.create {v : σ} {d d' : Disk σ} (hd : Reached vol v d) {n : Nat}
    {flags : BitVec 64} (h : createPartition vol n flags d = .ok () d') :
    Reached vol v d' := by
  refine hd.step (.create n flags) ?_
  show ((createPartition vol n flags d).bind _).state? = some d'
  rw [h]
  rfl

/-! ## Operations that leave the flags alone -/

/-- The table has the flags `fl`. -/
def Flagged (fl : List (BitVec 64)) (d : Disk σ) : Prop := d.parts.map Part.flags = fl

section Flagged

variable {fl : List (BitVec 64)}

theorem part_flagged (i : Nat) : (part i : Call (Disk σ) Part).Keeps (Flagged fl) := by
  intro d hd
  unfold part
  cases d.parts[i]? with
  | none => trivial
  | some p => exact hd

theorem onVolume_flagged {α : Type} (m : Call σ α) : (onVolume m).Keeps (Flagged fl) := by
  intro d hd
  unfold onVolume
  rw [Call.zoom_apply]
  cases m d.volume with
  | ok a v => exact hd
  | fail v => exact hd
  | stuck => trivial

theorem get_flagged : (Call.get : Call (Disk σ) (Disk σ)).Keeps (Flagged fl) :=
  fun _ hd => hd

theorem guard_flagged {c : Prop} [Decidable c] {m : Call (Disk σ) Unit}
    (hm : m.Keeps (Flagged fl)) : (Call.guard c m).Keeps (Flagged fl) :=
  Call.Keeps.ite hm (Call.Keeps.pure ())

theorem update_flagged (i : Nat) {f : Part → Part} (hf : ∀ p, (f p).flags = p.flags) :
    (update i f : Call (Disk σ) Unit).Keeps (Flagged fl) := by
  intro d hd
  show (d.parts.modify i f).map Part.flags = fl
  rw [← hd]
  apply List.ext_getElem?
  intro k
  rw [List.getElem?_map, List.getElem?_modify, List.getElem?_map, Option.map_eq_map,
    Option.map_map]
  congr 1
  funext p
  show (if i = k then f p else p).flags = p.flags
  split
  · exact hf p
  · rfl

theorem updateUsed_flagged (i used : Nat) :
    (update i fun q => { q with blkUsed := used } : Call (Disk σ) Unit).Keeps (Flagged fl) :=
  update_flagged i fun _ => rfl

theorem map_flagged {f : Part → Part} (hf : ∀ p, (f p).flags = p.flags) :
    (Call.modify fun d : Disk σ => { d with parts := d.parts.map f }).Keeps (Flagged fl) := by
  intro d hd
  show (d.parts.map f).map Part.flags = fl
  rw [← hd, List.map_map]
  exact List.map_congr_left fun p _ => hf p

theorem shiftDown_flags (start diff : Nat) (p : Part) :
    (shiftDown start diff p).flags = p.flags := by
  unfold shiftDown
  split <;> rfl

theorem shiftUp_flags (start diff : Nat) (p : Part) :
    (shiftUp start diff p).flags = p.flags := by
  unfold shiftUp
  split <;> rfl

theorem shrinkPartition_flagged (i diff : Nat) :
    (shrinkPartition vol i diff).Keeps (Flagged fl) :=
  (part_flagged i).bind fun p => Call.Keeps.ite (Call.Keeps.pure ()) <|
    get_flagged.bind fun _ => (onVolume_flagged _).bind fun _ =>
      (map_flagged (shiftDown_flags p.index _)).bind fun _ => update_flagged i fun _ => rfl

theorem shrinkToFit_flagged (i : Nat) : (shrinkToFit vol i).Keeps (Flagged fl) :=
  (part_flagged i).bind fun _ =>
    Call.Keeps.ite (Call.Keeps.pure ()) (shrinkPartition_flagged i _)

theorem shrinkBehind_flagged (start i n : Nat) :
    (shrinkBehind vol start i n).Keeps (Flagged fl) := by
  induction n generalizing i with
  | zero => exact Call.Keeps.pure ()
  | succ n ih =>
      exact (part_flagged i).bind fun _ => (guard_flagged (shrinkToFit_flagged i)).bind
        fun _ => ih (i + 1)

theorem growPartition_flagged (i diff : Nat) :
    (growPartition vol i diff).Keeps (Flagged fl) :=
  (part_flagged i).bind fun p => get_flagged.bind fun _ =>
    (shrinkBehind_flagged _ _ _).bind fun _ => get_flagged.bind fun _ =>
      (onVolume_flagged _).bind fun _ => (onVolume_flagged _).bind fun _ =>
        (map_flagged (shiftUp_flags p.index _)).bind fun _ => update_flagged i fun _ => rfl

theorem applyExpandPolicy_flagged (i : Nat) :
    (applyExpandPolicy vol i).Keeps (Flagged fl) :=
  (part_flagged i).bind fun _ => Call.Keeps.ite (Call.Keeps.pure ()) <|
    get_flagged.bind fun _ =>
      Call.Keeps.ite (Call.Keeps.pure ()) (growPartition_flagged i _)

theorem partReadPartialBlock_flagged (i index offset size : Nat) :
    (partReadPartialBlock vol i index offset size).Keeps (Flagged fl) :=
  (part_flagged i).bind fun _ => Call.Keeps.ite
    (Call.Keeps.ite Call.Keeps.fail (Call.Keeps.pure _)) (onVolume_flagged _)

theorem partWritePartialBlock_flagged (i index : Nat) (b : Buffer) (offset size : Nat) :
    (partWritePartialBlock vol i index b offset size).Keeps (Flagged fl) :=
  (part_flagged i).bind fun _ =>
    (guard_flagged (Call.Keeps.ite Call.Keeps.fail (growPartition_flagged i _))).bind
      fun _ => (guard_flagged (updateUsed_flagged i _)).bind fun _ =>
        onVolume_flagged _

theorem partDiscardBlocks_flagged (i index count : Nat) :
    (partDiscardBlocks vol i index count).Keeps (Flagged fl) :=
  (part_flagged i).bind fun _ => Call.Keeps.ite (Call.Keeps.pure ()) <|
    Call.Keeps.ite (Call.Keeps.pure ()) <|
      (guard_flagged (updateUsed_flagged i _)).bind fun _ => onVolume_flagged _

theorem partMoveBlockPartial_flagged (i src dst a b n : Nat) :
    (partMoveBlockPartial vol i src dst a b n).Keeps (Flagged fl) :=
  (part_flagged i).bind fun _ => Call.Keeps.ite Call.Keeps.fail <|
    Call.Keeps.ite (Call.Keeps.pure ()) <|
      Call.Keeps.ite (partDiscardBlocks_flagged i _ _) <|
        (guard_flagged (growPartition_flagged i _)).bind fun _ =>
          (guard_flagged (updateUsed_flagged i _)).bind fun _ =>
            Call.Keeps.ite (onVolume_flagged _) (onVolume_flagged _)

theorem partTruncate_flagged (i size : Nat) :
    (partTruncate vol i size).Keeps (Flagged fl) :=
  (part_flagged i).bind fun _ => Call.Keeps.ite (Call.Keeps.pure ()) <|
    Call.Keeps.ite (Call.Keeps.pure ()) <|
      (Call.Keeps.ite (shrinkPartition_flagged i _) (growPartition_flagged i _)).bind
        fun _ => update_flagged i fun _ => rfl

theorem partSetBaseBlockCount_flagged (i size : Nat) :
    (partSetBaseBlockCount vol i size).Keeps (Flagged fl) :=
  (part_flagged i).bind fun _ => (Call.Keeps.ite (growPartition_flagged i _)
    (guard_flagged (shrinkPartition_flagged i _))).bind
      fun _ => update_flagged i fun _ => rfl

theorem eachPart_flagged {f : Nat → Call (Disk σ) Unit}
    (hf : ∀ i, (f i).Keeps (Flagged fl)) (i n : Nat) :
    (eachPart f i n).Keeps (Flagged fl) := by
  induction n generalizing i with
  | zero => exact Call.Keeps.pure ()
  | succ n ih => exact (hf i).bind fun _ => ih (i + 1)

theorem commit_flagged : (commit vol).Keeps (Flagged fl) :=
  get_flagged.bind fun _ => (eachPart_flagged shrinkToFit_flagged _ _).bind fun _ =>
    (eachPart_flagged applyExpandPolicy_flagged _ _).bind fun _ =>
      get_flagged.bind fun _ => (onVolume_flagged _).bind fun _ => onVolume_flagged _

theorem block_flagged (i : Nat) (op : BlockOp) :
    (op.run (partition vol i)).Keeps (Flagged fl) := by
  cases op with
  | read index => exact partReadPartialBlock_flagged i index 0 _
  | readPartial index off n => exact partReadPartialBlock_flagged i index off n
  | write index b =>
      exact (partWritePartialBlock_flagged i index b 0 _).bind fun _ => Call.Keeps.pure _
  | writePartial index b off n =>
      exact (partWritePartialBlock_flagged i index b off n).bind fun _ => Call.Keeps.pure _
  | move a b =>
      exact (partMoveBlockPartial_flagged i a b 0 0 _).bind fun _ => Call.Keeps.pure _
  | movePartial a b so d n =>
      exact (partMoveBlockPartial_flagged i a b so d n).bind fun _ => Call.Keeps.pure _
  | discard index n =>
      exact (partDiscardBlocks_flagged i index n).bind fun _ => Call.Keeps.pure _
  | commit => exact (Call.Keeps.pure ()).bind fun _ => Call.Keeps.pure _

end Flagged

/-! ## Operations on the flags -/

/-- What the flags of all partitions become when one of them gets `flags`. -/
def makeRoom (flags : BitVec 64) (fl : List (BitVec 64)) : List (BitVec 64) :=
  if flags &&& flagFill ≠ 0 then fl.map (· &&& ~~~flagFill) else fl

theorem map_clearFill (flags : BitVec 64) (parts : List Part) :
    (if flags &&& flagFill ≠ 0 then parts.map Part.clearFill else parts).map Part.flags =
      makeRoom flags (parts.map Part.flags) := by
  unfold makeRoom
  split
  · rw [List.map_map, List.map_map]
    rfl
  · rfl

theorem map_flags_setFlags (parts : List Part) (i : Nat) (flags : BitVec 64) :
    (setFlags parts i flags).map Part.flags =
      (makeRoom flags (parts.map Part.flags)).set i flags := by
  unfold setFlags
  rw [← map_clearFill]
  generalize (if flags &&& flagFill ≠ 0 then parts.map Part.clearFill else parts) = ps
  apply List.ext_getElem?
  intro k
  rw [List.getElem?_map, List.getElem?_modify, List.getElem?_set, List.getElem?_map,
    Option.map_eq_map, Option.map_map, List.length_map]
  by_cases hik : i = k
  · subst hik
    by_cases hlt : i < ps.length
    · simp [hlt]
    · simp [hlt]
  · simp [hik, Function.comp_def]

/-- A new partition is the last one, or nothing happens to the table. -/
theorem createPartition_flags (n : Nat) (flags : BitVec 64) (d : Disk σ) :
    Call.Returns (createPartition vol n flags d)
      (fun _ d' => d.parts.length ≠ maxPartitions ∧
        d'.parts.map Part.flags = makeRoom flags (d.parts.map Part.flags) ++ [flags])
      (fun d' => d'.parts = d.parts) := by
  unfold createPartition
  rw [Call.bind_apply, Call.get_apply, Outcome.bind_ok]
  by_cases hfull : d.parts.length = maxPartitions
  · rw [if_pos hfull]
    rfl
  · rw [if_neg hfull, Call.bind_apply]
    unfold onVolume
    rw [Call.zoom_apply]
    cases clearBlocks vol (nextFree d.parts) (u64 (roundUp n)) d.volume with
    | ok u v =>
        refine ⟨hfull, ?_⟩
        show (_ ++ [_] : List Part).map Part.flags = _
        rw [List.map_append, map_clearFill]
        rfl
    | fail v => rfl
    | stuck => trivial

/-- What creating a partition and setting flags keep of the flags holds on every disk. -/
theorem Reached.flags {P : List (BitVec 64) → Prop} (hnil : P [])
    (hcreate : ∀ fl flags, P fl → fl.length ≠ maxPartitions →
      P (makeRoom flags fl ++ [flags]))
    (hset : ∀ fl i flags, P fl → P ((makeRoom flags fl).set i flags)) {v : σ} {d : Disk σ}
    (h : Reached vol v d) : P (d.parts.map Part.flags) := by
  refine h.invariant (I := fun d => P (d.parts.map Part.flags)) hnil ?_
  intro t op u ht _ hstep
  have hkeep : ∀ {m : Call (Disk σ) Unit}, m.Keeps (Flagged (t.parts.map Part.flags)) →
      ((m t).bind fun _ => (pure [] : Call (Disk σ) (List UInt8))).state? = some u →
      P (u.parts.map Part.flags) := by
    intro m hm hu
    have hflags : u.parts.map Part.flags = t.parts.map Part.flags :=
      Call.Returns.state (Call.Returns.bind_pure (hm t rfl)) hu
    rw [hflags]
    exact ht
  cases op with
  | create n flags =>
      refine Call.Returns.state (I := fun u => P (u.parts.map Part.flags))
        (Call.Returns.bind_pure ((createPartition_flags n flags t).mono ?_ ?_)) hstep
      · rintro _ t' ⟨hfull, hflags⟩
        rw [hflags]
        exact hcreate _ _ ht (by rwa [List.length_map])
      · intro t' hparts
        rw [hparts]
        exact ht
  | block i op =>
      have hflags : u.parts.map Part.flags = t.parts.map Part.flags :=
        Call.Returns.state (block_flagged i op t rfl) hstep
      rw [hflags]
      exact ht
  | truncate i size => exact hkeep (partTruncate_flagged i size) hstep
  | setBaseBlockCount i size => exact hkeep (partSetBaseBlockCount_flagged i size) hstep
  | setFlags i flags =>
      have hstep' : ((partSetFlags i flags t).bind fun _ =>
          (pure [] : Call (Disk σ) (List UInt8))).state? = some u := hstep
      rw [partSetFlags_eq] at hstep'
      cases hstep'
      show P ((setFlags t.parts i flags).map Part.flags)
      rw [map_flags_setFlags]
      exact hset _ i flags ht
  | commit => exact hkeep commit_flagged hstep

theorem length_makeRoom (flags : BitVec 64) (fl : List (BitVec 64)) :
    (makeRoom flags fl).length = fl.length := by
  unfold makeRoom
  split
  · rw [List.length_map]
  · rfl

/-- There are at most four partitions. -/
theorem Reached.length_le {v : σ} {d : Disk σ} (h : Reached vol v d) :
    d.parts.length ≤ maxPartitions := by
  have hlen := h.flags (P := fun fl => fl.length ≤ maxPartitions) (Nat.zero_le _)
    (fun fl flags hfl hne => by
      rw [List.length_append, length_makeRoom]
      exact Nat.lt_of_le_of_ne hfl hne)
    (fun fl i flags hfl => by
      rw [List.length_set, length_makeRoom]
      exact hfl)
  rwa [List.length_map] at hlen

/-- At most one of the flags says that the partition fills the disk. -/
def OneFills (fl : List (BitVec 64)) : Prop :=
  ∀ (i j : Nat) (a b : BitVec 64), fl[i]? = some a → fl[j]? = some b →
    a &&& flagFill ≠ 0 → b &&& flagFill ≠ 0 → i = j

/-- Where room has been made for a partition that fills the disk, no other one does. -/
theorem makeRoom_fills {flags : BitVec 64} {fl : List (BitVec 64)}
    (h : flags &&& flagFill ≠ 0) {i : Nat} {a : BitVec 64}
    (ha : (makeRoom flags fl)[i]? = some a) : a &&& flagFill = 0 := by
  unfold makeRoom at ha
  rw [if_pos h, List.getElem?_map] at ha
  obtain ⟨b, -, rfl⟩ := Option.map_eq_some_iff.1 ha
  rw [BitVec.and_assoc, show ~~~flagFill &&& flagFill = 0#64 by decide]
  exact BitVec.and_zero

theorem OneFills.makeRoom {fl : List (BitVec 64)} (h : OneFills fl) (flags : BitVec 64) :
    OneFills (makeRoom flags fl) := by
  by_cases hfill : flags &&& flagFill ≠ 0
  · intro i j a b ha _ hfa _
    exact absurd (makeRoom_fills hfill ha) hfa
  · unfold Disk.makeRoom
    rw [if_neg hfill]
    exact h

/-- New flags for one slot, after room has been made for them. -/
theorem OneFills.of_slot {fl : List (BitVec 64)} (h : OneFills fl) (flags : BitVec 64)
    (i : Nat) {fl' : List (BitVec 64)} (hother : ∀ k a, k ≠ i → fl'[k]? = some a →
      (Disk.makeRoom flags fl)[k]? = some a)
    (hslot : ∀ a, fl'[i]? = some a → a = flags) : OneFills fl' := by
  intro k l a b ha hb hfa hfb
  by_cases hk : k = i
  · by_cases hl : l = i
    · rw [hk, hl]
    · subst hk
      rw [hslot a ha] at hfa
      exact absurd (makeRoom_fills hfa (hother l b hl hb)) hfb
  · by_cases hl : l = i
    · subst hl
      rw [hslot b hb] at hfb
      exact absurd (makeRoom_fills hfb (hother k a hk ha)) hfa
    · exact h.makeRoom flags k l a b (hother k a hk ha) (hother l b hl hb) hfa hfb

/-- At most one partition fills the disk. -/
theorem Reached.oneFills {v : σ} {d : Disk σ} (h : Reached vol v d) :
    OneFills (d.parts.map Part.flags) := by
  apply h.flags
  · intro i j a b ha
    cases ha
  · intro fl flags hfl _
    apply hfl.of_slot flags (makeRoom flags fl).length
    · intro k a hk ha
      rwa [List.getElem?_append_left] at ha
      have hlt := (List.getElem?_eq_some_iff.1 ha).1
      simp at hlt
      omega
    · intro a ha
      simpa using ha.symm
  · intro fl i flags hfl
    apply hfl.of_slot flags i
    · intro k a hk ha
      rwa [List.getElem?_set_ne (Ne.symm hk)] at ha
    · intro a ha
      rw [List.getElem?_set] at ha
      simp only [if_true] at ha
      split at ha
      · exact (Option.some.inj ha).symm
      · cases ha

theorem Reached.oneFill {v : σ} {d : Disk σ} (h : Reached vol v d) : OneFill d.parts := by
  intro i j p q hp hq hfp hfq
  refine h.oneFills i j p.flags q.flags ?_ ?_ ?_ ?_
  · rw [List.getElem?_map, hp]
    rfl
  · rw [List.getElem?_map, hq]
    rfl
  · simpa [Part.fills] using hfp
  · simpa [Part.fills] using hfq

end Disk

end ImageTool.Mbr
