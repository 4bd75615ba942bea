import ImageTool.Image.Truncation
import ImageTool.Mbr.Header
import ImageTool.Util.Reflect

/-!
# Properties of partitions and of the file volume

What `object_get_property` returns after `object_set_property`.  A partition keeps its
properties in bits of its flags.  The type is the exception: the setter shifts a value
that is shifted already, so it stores no type at all and every type but 0 is lost.
-/

namespace ImageTool.Mbr

open ImageTool.Lib ImageTool.Image ImageTool.Util

/-! ## The meta objects -/

/-- The flag functions of `partition_t`. -/
structure Partition (σ : Type) where
  getFlags : Call σ (BitVec 64)
  setFlags (flags : BitVec 64) : Call σ Unit

variable {σ : Type}

/-- A flag switched on or off. -/
def switch (flags mask : BitVec 64) (on : Bool) : BitVec 64 :=
  if on then flags ||| mask else flags &&& ~~~mask

/-- Set a flag from the boolean member of a value. -/
def setFlag (part : Partition σ) (flags mask : BitVec 64) (value : PropertyValue) :
    Call σ Unit :=
  match value.boolean with
  | some on => part.setFlags (switch flags mask on)
  | none => Call.stuck

/-- `part_set_property`. -/
def partSetProperty (part : Partition σ) (i : Nat) (value : PropertyValue) :
    Call σ Unit := do
  let flags ← part.getFlags
  match i with
  | 0 => setFlag part flags flagGrow value
  | 1 => setFlag part flags flagFill value
  | _ => Call.fail

/-- `part_get_property`. -/
def partGetProperty (part : Partition σ) (i : Nat) : Call σ PropertyValue := do
  let flags ← part.getFlags
  match i with
  | 0 => pure (.bool (flags &&& flagGrow != 0))
  | 1 => pure (.bool (flags &&& flagFill != 0))
  | _ => Call.fail

/-- `partition_meta`. -/
def partitionMeta (part : Partition σ) : MetaObject σ where
  desc := [{ type := .bool, name := "grow" }, { type := .bool, name := "fill" }]
  setProperty := partSetProperty part
  getProperty := partGetProperty part

/-- `mbr_types`, with the values of `MBR_PARTITION_FLAGS`. -/
def mbrTypes : List (String × BitVec 32) :=
  [("LinuxSwap", 0x08200000), ("Linux", 0x08300000), ("FreeBSD", 0x0A500000),
    ("OpenBSD", 0x0A600000), ("NetBSD", 0x0A900000), ("BSDI", 0x0B700000),
    ("Minix", 0x08100000), ("UnixWare", 0x06300000)]

/-- The bits of the flags that hold the partition type. -/
def typeMask : BitVec 64 := 0x0FF00000

/-- `mbr_part_set_property`. -/
def mbrPartSetProperty (part : Partition σ) (i : Nat) (value : PropertyValue) :
    Call σ Unit := do
  let flags ← part.getFlags
  match i with
  | 0 =>
      match value with
      | .enum ival =>
          if ival &&& ~~~0x0FF00000 ≠ 0 then Call.fail
          else part.setFlags ((flags &&& ~~~typeMask) ||| (ival.signExtend 64 <<< 20))
      | _ => Call.fail
  | 1 => setFlag part flags flagBootable value
  | _ => Call.fail

/-- `mbr_part_get_property`. -/
def mbrPartGetProperty (part : Partition σ) (i : Nat) : Call σ PropertyValue := do
  let flags ← part.getFlags
  match i with
  | 0 => pure (.enum (((flags >>> 20) &&& 0xFF).setWidth 32))
  | 1 => pure (.bool (flags &&& flagBootable != 0))
  | _ => Call.fail

/-- `mbr_part_meta`. -/
def mbrPartMeta (part : Partition σ) : MetaObject σ where
  desc := [{ type := .enum, name := "type", enumEnt := mbrTypes },
    { type := .bool, name := "bootable" }]
  setProperty := mbrPartSetProperty part
  getProperty := mbrPartGetProperty part

/-- The flag functions of the MBR partition in slot `i`. -/
def slot (i : Nat) : Partition (Disk σ) where
  getFlags := do
    let p ← Disk.part i
    pure p.flags
  setFlags := Disk.partSetFlags i

/-- What an MBR partition reflects. -/
def partChain (i : Nat) : List (MetaObject (Disk σ)) :=
  [mbrPartMeta (slot i), partitionMeta (slot i)]

/-- `set_property` of the file volume. -/
def fileSetProperty (blocksize i : Nat) (value : PropertyValue) : Call FileVolume Unit :=
  match i with
  | 0 =>
      match value with
      | .u64Size n => FileVolume.setProperty blocksize .minSize n
      | _ => Call.fail
  | 1 =>
      match value with
      | .u64Size n => FileVolume.setProperty blocksize .maxSize n
      | _ => Call.fail
  | _ => Call.fail

/-- `get_property` of the file volume. -/
def fileGetProperty (blocksize i : Nat) : Call FileVolume PropertyValue := do
  let s ← Call.get
  match i with
  | 0 => pure (.u64Size (u64 (blocksize * s.minBlockCount)))
  | 1 => pure (.u64Size (u64 (blocksize * s.maxBlockCount)))
  | _ => Call.fail

/-- `file_volume_meta`, which has no parent. -/
def fileChain (blocksize : Nat) : List (MetaObject FileVolume) :=
  [{ desc := [{ type := .u64Size, name := "minsize" }, { type := .u64Size, name := "maxsize" }]
     setProperty := fileSetProperty blocksize
     getProperty := fileGetProperty blocksize }]

/-! ## Properties as functions of the flags -/

/-- What is read of the flags at a global index of a partition. -/
def flagProperty (flags : BitVec 64) : Nat → Option PropertyValue
  | 0 => some (.enum (((flags >>> 20) &&& 0xFF).setWidth 32))
  | 1 => some (.bool (flags &&& flagBootable != 0))
  | 2 => some (.bool (flags &&& flagGrow != 0))
  | 3 => some (.bool (flags &&& flagFill != 0))
  | _ => none

/-- The flags that a value leads to at a global index. -/
def storedFlags (flags : BitVec 64) : Nat → PropertyValue → Option (BitVec 64)
  | 0, .enum ival =>
      if ival &&& ~~~0x0FF00000 ≠ 0 then none
      else some ((flags &&& ~~~typeMask) ||| (ival.signExtend 64 <<< 20))
  | 1, .bool on => some (switch flags flagBootable on)
  | 2, .bool on => some (switch flags flagGrow on)
  | 3, .bool on => some (switch flags flagFill on)
  | _, _ => none

/-- The value of a property of a partition. -/
def partProperty (d : Disk σ) (i idx : Nat) : Option PropertyValue :=
  (objectGetProperty (partChain i) idx d).val?

/-- No property has an index behind the last one. -/
theorem metaFromPropertyIndex_partChain (i idx : Nat) :
    metaFromPropertyIndex (partChain i : List (MetaObject (Disk σ))) (idx + 4) = none := by
  show (if idx + 4 < 2 then _ else if idx + 4 - 2 < 2 then _ else none) = none
  rw [if_neg (by omega), if_neg (by omega)]

theorem slot_getFlags {α : Type} {d : Disk σ} {i : Nat} {p : Part}
    (hp : d.parts[i]? = some p) (f : BitVec 64 → Call (Disk σ) α) :
    ((slot i).getFlags >>= f) d = f p.flags d := by
  show ((Disk.part i d).bind _).bind f = f p.flags d
  rw [Disk.part_apply hp]
  rfl

theorem slot_getFlags_none {α : Type} {d : Disk σ} {i : Nat} (hp : d.parts[i]? = none)
    (f : BitVec 64 → Call (Disk σ) α) : ((slot i).getFlags >>= f) d = .stuck := by
  show ((Disk.part i d).bind _).bind f = .stuck
  rw [show Disk.part i d = .stuck by simp [Disk.part, hp]]
  rfl

theorem partProperty_eq (d : Disk σ) (i idx : Nat) :
    partProperty d i idx = (d.parts.map Part.flags)[i]?.bind (flagProperty · idx) := by
  rw [List.getElem?_map]
  unfold partProperty
  have hmbr : ∀ j : Fin 2, (mbrPartGetProperty (slot i) j d).val? =
      (d.parts[i]?.map Part.flags).bind (flagProperty · j) := by
    intro j
    unfold mbrPartGetProperty
    cases hp : d.parts[i]? with
    | none => rw [slot_getFlags_none hp]; rfl
    | some p =>
        rw [slot_getFlags hp]
        match j with
        | 0 => rfl
        | 1 => rfl
  have hpart : ∀ j : Fin 2, (partGetProperty (slot i) j d).val? =
      (d.parts[i]?.map Part.flags).bind (flagProperty · (j + 2)) := by
    intro j
    unfold partGetProperty
    cases hp : d.parts[i]? with
    | none => rw [slot_getFlags_none hp]; rfl
    | some p =>
        rw [slot_getFlags hp]
        match j with
        | 0 => rfl
        | 1 => rfl
  match idx with
  | 0 => exact hmbr 0
  | 1 => exact hmbr 1
  | 2 => exact hpart 0
  | 3 => exact hpart 1
  | idx + 4 =>
      unfold objectGetProperty
      rw [metaFromPropertyIndex_partChain]
      cases d.parts[i]? <;> rfl

/-- A value that is accepted leads to new flags, and nothing else. -/
theorem set_part_eq {d d' : Disk σ} {i idx : Nat} {p : Part} {value : PropertyValue}
    (hp : d.parts[i]? = some p)
    (hok : objectSetProperty (partChain i) idx value d = .ok () d') :
    ∃ flags, storedFlags p.flags idx value = some flags ∧
      d' = { d with parts := setFlags d.parts i flags } := by
  have hstore : ∀ flags, Disk.partSetFlags i flags d = .ok () d' →
      d' = { d with parts := setFlags d.parts i flags } := by
    intro flags h
    rw [Disk.partSetFlags_eq] at h
    cases h
    rfl
  have hflag : ∀ mask, setFlag (slot i) p.flags mask value d = .ok () d' →
      ∃ on, value = .bool on ∧
        d' = { d with parts := setFlags d.parts i (switch p.flags mask on) } := by
    intro mask h
    cases value with
    | bool on => exact ⟨on, rfl, hstore _ h⟩
    | _ => cases h
  match idx with
  | 0 =>
      change mbrPartSetProperty (slot i) 0 value d = .ok () d' at hok
      unfold mbrPartSetProperty at hok
      rw [slot_getFlags hp] at hok
      cases value with
      | enum ival =>
          change (if ival &&& ~~~0x0FF00000 ≠ 0 then Call.fail else Disk.partSetFlags i _) d =
            .ok () d' at hok
          by_cases hmask : ival &&& ~~~0x0FF00000 ≠ 0
          · rw [if_pos hmask] at hok
            cases hok
          · rw [if_neg hmask] at hok
            exact ⟨_, if_neg hmask, hstore _ hok⟩
      | _ => cases hok
  | 1 =>
      change mbrPartSetProperty (slot i) 1 value d = .ok () d' at hok
      unfold mbrPartSetProperty at hok
      rw [slot_getFlags hp] at hok
      obtain ⟨on, rfl, hd'⟩ := hflag flagBootable hok
      exact ⟨_, rfl, hd'⟩
  | 2 =>
      change partSetProperty (slot i) 0 value d = .ok () d' at hok
      unfold partSetProperty at hok
      rw [slot_getFlags hp] at hok
      obtain ⟨on, rfl, hd'⟩ := hflag flagGrow hok
      exact ⟨_, rfl, hd'⟩
  | 3 =>
      change partSetProperty (slot i) 1 value d = .ok () d' at hok
      unfold partSetProperty at hok
      rw [slot_getFlags hp] at hok
      obtain ⟨on, rfl, hd'⟩ := hflag flagFill hok
      exact ⟨_, rfl, hd'⟩
  | idx + 4 =>
      unfold objectSetProperty at hok
      rw [metaFromPropertyIndex_partChain] at hok
      cases hok

/-! ## Bits -/

/-- The bits of the flags that a property is stored in. -/
def propertyMask : Nat → BitVec 64
  | 0 => typeMask
  | 1 => flagBootable
  | 2 => flagGrow
  | 3 => flagFill
  | _ => 0

/-- A property is a function of its bits. -/
theorem flagProperty_congr {a b : BitVec 64} {idx : Nat}
    (h : a &&& propertyMask idx = b &&& propertyMask idx) :
    flagProperty a idx = flagProperty b idx := by
  match idx with
  | 0 =>
      have hshift : ∀ x : BitVec 64,
          (x >>> 20) &&& (0xFF : BitVec 64) = (x &&& typeMask) >>> 20 := by
        intro x
        rw [BitVec.ushiftRight_and_distrib]
        rfl
      have h' : a &&& typeMask = b &&& typeMask := h
      simp only [flagProperty, hshift, h']
  | 1 | 2 | 3 =>
      simp only [propertyMask] at h
      simp only [flagProperty, h]
  | idx + 4 => rfl

/-- Switching a flag leaves the bits outside its mask alone. -/
theorem switch_and {mask m : BitVec 64} (h : mask &&& m = 0#64) (flags : BitVec 64) (on : Bool) :
    switch flags mask on &&& m = flags &&& m := by
  have hnot : ~~~mask &&& m = m := by
    apply BitVec.eq_of_getLsbD_eq
    intro i hi
    have hbit := congrArg (fun x : BitVec 64 => x.getLsbD i) h
    simp only [BitVec.getLsbD_and, BitVec.getLsbD_not, BitVec.getLsbD_zero] at hbit ⊢
    cases hm : mask.getLsbD i <;> cases hm' : m.getLsbD i <;> simp_all
  unfold switch
  cases on with
  | true => rw [if_pos rfl, BitVec.and_or_distrib_right, h, BitVec.or_zero]
  | false => rw [if_neg (by decide), BitVec.and_assoc, hnot]

/-- A flag reads as it was switched. -/
theorem switch_and_self {mask : BitVec 64} (h : mask ≠ 0) (flags : BitVec 64) (on : Bool) :
    (switch flags mask on &&& mask != 0) = on := by
  unfold switch
  cases on with
  | true =>
      have hself : (flags ||| mask) &&& mask = mask := by
        apply BitVec.eq_of_getLsbD_eq
        intro i hi
        simp only [BitVec.getLsbD_and, BitVec.getLsbD_or]
        cases flags.getLsbD i <;> cases mask.getLsbD i <;> rfl
      rw [if_pos rfl, hself]
      simpa using h
  | false =>
      have hself : flags &&& ~~~mask &&& mask = 0#64 := by
        apply BitVec.eq_of_getLsbD_eq
        intro i hi
        simp only [BitVec.getLsbD_and, BitVec.getLsbD_not, BitVec.getLsbD_zero]
        cases flags.getLsbD i <;> cases mask.getLsbD i <;> simp
      rw [if_neg (by decide), hself]
      rfl

/-- A type that is shifted up once more has no bit among the lowest forty. -/
theorem shifted_type_and {ival : BitVec 32} (h : ival &&& ~~~0x0FF00000 = 0#32)
    {m : BitVec 64} (hm : m.toNat < 2 ^ 40) : (ival.signExtend 64 <<< 20) &&& m = 0#64 := by
  apply BitVec.eq_of_getLsbD_eq
  intro i hi
  simp only [BitVec.getLsbD_and, BitVec.getLsbD_shiftLeft, BitVec.getLsbD_zero]
  by_cases h40 : i < 40
  · by_cases h20 : i < 20
    · simp [h20]
    · have hbit := congrArg (fun x : BitVec 32 => x.getLsbD (i - 20)) h
      have hlow : (~~~(0x0FF00000 : BitVec 32)).getLsbD (i - 20) = true := by
        have hall : ∀ k : Fin 20, (~~~(0x0FF00000 : BitVec 32)).getLsbD k = true := by decide
        exact hall ⟨i - 20, by omega⟩
      simp only [BitVec.getLsbD_and, hlow, Bool.and_true, BitVec.getLsbD_zero] at hbit
      rw [BitVec.getLsbD_signExtend, if_pos (by omega), hbit]
      simp
  · have hhigh : m.getLsbD i = false := by
      exact Nat.testBit_lt_two_pow
        (Nat.lt_of_lt_of_le hm (Nat.pow_le_pow_right (by decide) (by omega)))
    rw [hhigh, Bool.and_false]

theorem storedFlags_type {flags flags' : BitVec 64} {ival : BitVec 32}
    (h : storedFlags flags 0 (.enum ival) = some flags') :
    ival &&& ~~~0x0FF00000 = 0#32 ∧
      flags' = (flags &&& ~~~typeMask) ||| (ival.signExtend 64 <<< 20) := by
  change (if ival &&& ~~~0x0FF00000 ≠ 0 then none else some _) = some flags' at h
  by_cases hmask : ival &&& ~~~0x0FF00000 ≠ 0
  · rw [if_pos hmask] at h
    cases h
  · rw [if_neg hmask] at h
    exact ⟨not_not.1 hmask, (Option.some.inj h).symm⟩

/-- The stored flags differ only in the bits of the property, types apart. -/
theorem storedFlags_and {flags flags' : BitVec 64} {idx : Nat} {value : PropertyValue}
    (h : storedFlags flags idx value = some flags') {m : BitVec 64} (hm : m.toNat < 2 ^ 40)
    (hdisj : propertyMask idx &&& m = 0#64) : flags' &&& m = flags &&& m := by
  match idx, value with
  | 0, .enum ival =>
      obtain ⟨hmask, rfl⟩ := storedFlags_type h
      have hclear : flags &&& ~~~typeMask &&& m = flags &&& m := switch_and hdisj flags false
      rw [BitVec.and_or_distrib_right, hclear, shifted_type_and hmask hm, BitVec.or_zero]
  | 1, .bool on | 2, .bool on | 3, .bool on =>
      cases h
      exact switch_and hdisj flags on

/-- Setting a property leaves the other ones as they are. -/
theorem flagProperty_stored_other {flags flags' : BitVec 64} {idx : Nat}
    {value : PropertyValue} (h : storedFlags flags idx value = some flags') {j : Nat}
    (hj : j ≠ idx) : flagProperty flags' j = flagProperty flags j := by
  apply flagProperty_congr
  apply storedFlags_and h
  · match j with
    | 0 | 1 | 2 | 3 => decide
    | _ + 4 => exact (by decide : (0 : BitVec 64).toNat < 2 ^ 40)
  · match idx, j with
    | 0, 1 | 0, 2 | 0, 3 | 1, 0 | 1, 2 | 1, 3 | 2, 0 | 2, 1 | 2, 3 | 3, 0 | 3, 1 | 3, 2 =>
        decide
    | idx, j + 4 => exact BitVec.and_zero
    | idx + 4, j => exact BitVec.zero_and
    | 0, 0 | 1, 1 | 2, 2 | 3, 3 => exact absurd rfl hj

/-- A property reads as it was set, except for types other than 0. -/
theorem flagProperty_stored {flags flags' : BitVec 64} {idx : Nat} {value : PropertyValue}
    (h : storedFlags flags idx value = some flags') :
    flagProperty flags' idx = some value ↔ ¬ (idx = 0 ∧ value ≠ .enum 0) := by
  match idx, value with
  | 0, .enum ival =>
      obtain ⟨hmask, rfl⟩ := storedFlags_type h
      have hclear : ((flags &&& ~~~typeMask) ||| (ival.signExtend 64 <<< 20)) &&&
          propertyMask 0 = 0 &&& propertyMask 0 := by
        show _ &&& typeMask = 0 &&& typeMask
        rw [BitVec.and_or_distrib_right, shifted_type_and hmask (by decide),
          BitVec.and_assoc, show ~~~typeMask &&& typeMask = 0#64 by decide]
        simp
      rw [flagProperty_congr hclear, show flagProperty 0 0 = some (.enum 0) from rfl,
        Option.some.injEq, eq_comm]
      simp
  | 1, .bool on | 2, .bool on | 3, .bool on =>
      cases h
      simp only [flagProperty]
      rw [switch_and_self (by decide)]
      simp

/-- The index of the fill flag of a partition. -/
def fillIndex : Nat := 3

/-- Taking the fill flag off changes nothing but that property. -/
theorem flagProperty_clear (flags : BitVec 64) (j : Nat) :
    flagProperty (flags &&& ~~~flagFill) j =
      if j = fillIndex then some (.bool false) else flagProperty flags j := by
  have hstored : storedFlags flags fillIndex (.bool false) = some (flags &&& ~~~flagFill) := rfl
  by_cases hj : j = fillIndex
  · subst hj
    rw [if_pos rfl]
    exact (flagProperty_stored hstored).2 (by simp [fillIndex])
  · rw [if_neg hj]
    exact flagProperty_stored_other hstored hj

/-- The fill flag as it is set. -/
theorem stored_fills {flags flags' : BitVec 64} {value : PropertyValue}
    (h : storedFlags flags fillIndex value = some flags') :
    value = .bool true ↔ flags' &&& flagFill ≠ 0 := by
  have hsame := (flagProperty_stored h).2 (by simp [fillIndex])
  change some (PropertyValue.bool (flags' &&& flagFill != 0)) = some value at hsame
  rw [← Option.some.inj hsame]
  simp

/-- The fill flag where another property is set. -/
theorem stored_fills_other {flags flags' : BitVec 64} {idx : Nat} {value : PropertyValue}
    (h : storedFlags flags idx value = some flags') (hidx : idx ≠ fillIndex) :
    flags' &&& flagFill = flags &&& flagFill := by
  apply storedFlags_and h (by decide)
  match idx with
  | 0 | 1 | 2 => decide
  | 3 => exact absurd rfl hidx
  | _ + 4 => exact BitVec.zero_and

/-- What another partition, which does not fill the disk where this one already does, reads
after room has been made for the new flags of this one. -/
theorem flagProperty_makeRoom {flags flags' other : BitVec 64} {idx : Nat}
    {value : PropertyValue} (h : storedFlags flags idx value = some flags')
    (hother : flags &&& flagFill ≠ 0 → other &&& flagFill = 0) (j : Nat) :
    flagProperty (if flags' &&& flagFill ≠ 0 then other &&& ~~~flagFill else other) j =
      if idx = fillIndex ∧ value = .bool true ∧ j = fillIndex then some (.bool false)
      else flagProperty other j := by
  by_cases hfill : flags' &&& flagFill ≠ 0
  · rw [if_pos hfill, flagProperty_clear]
    by_cases hj : j = fillIndex
    · rw [if_pos hj]
      by_cases hidx : idx = fillIndex
      · subst hidx
        rw [if_pos ⟨rfl, (stored_fills h).2 hfill, hj⟩]
      · rw [stored_fills_other h hidx] at hfill
        rw [if_neg (by simp [hidx]), hj]
        show _ = some (PropertyValue.bool (other &&& flagFill != 0))
        rw [hother hfill]
        rfl
    · rw [if_neg hj, if_neg (by simp [hj])]
  · rw [if_neg hfill, if_neg]
    rintro ⟨hidx, hvalue, -⟩
    subst hidx
    exact hfill ((stored_fills h).1 hvalue)

/-! ## Setting and getting -/

/-- What setting property `idx` of partition `i` to `value` should do: it reads as it was
set, nothing else changes, but that a partition that is to fill the disk takes that from the
others. -/
structure PartSetGet (d d' : Disk σ) (i idx : Nat) (value : PropertyValue) : Prop where
  same : partProperty d' i idx = some value
  other : ∀ j, j ≠ idx → partProperty d' i j = partProperty d i j
  elsewhere : ∀ k j, k ≠ i → partProperty d' k j =
    if idx = fillIndex ∧ value = .bool true ∧ j = fillIndex then
      (partProperty d k j).map fun _ => .bool false
    else partProperty d k j

/-- A partition does what setting a property should do, unless that is a type other
than 0. -/
theorem partSetGet_iff {vol : Volume σ} {v : σ} {d d' : Disk σ}
    (hd : Disk.Reached vol v d) {i idx : Nat} {p : Part} (hp : d.parts[i]? = some p)
    {value : PropertyValue} (hok : objectSetProperty (partChain i) idx value d = .ok () d') :
    PartSetGet d d' i idx value ↔ ¬ (idx = 0 ∧ value ≠ .enum 0) := by
  obtain ⟨flags, hstored, rfl⟩ := set_part_eq hp hok
  have hflags : (d.parts.map Part.flags)[i]? = some p.flags := by
    rw [List.getElem?_map, hp]
    rfl
  have hlt : i < (d.parts.map Part.flags).length := (List.getElem?_eq_some_iff.1 hflags).1
  have hone := hd.oneFills
  have hself : ∀ j, partProperty { d with parts := setFlags d.parts i flags } i j =
      flagProperty flags j := by
    intro j
    rw [partProperty_eq, Disk.map_flags_setFlags, List.getElem?_set_self
      (by rw [Disk.length_makeRoom]; exact hlt)]
    rfl
  constructor
  · intro h
    have hsame := h.same
    rw [hself] at hsame
    exact (flagProperty_stored hstored).1 hsame
  · intro h
    refine ⟨?_, ?_, ?_⟩
    · rw [hself]
      exact (flagProperty_stored hstored).2 h
    · intro j hj
      rw [hself, partProperty_eq, hflags]
      exact flagProperty_stored_other hstored hj
    · intro k j hk
      rw [partProperty_eq, partProperty_eq, Disk.map_flags_setFlags,
        List.getElem?_set_ne (Ne.symm hk)]
      have hroom : ∀ fl : List (BitVec 64), (Disk.makeRoom flags fl)[k]? =
          fl[k]?.map fun other => if flags &&& flagFill ≠ 0 then other &&& ~~~flagFill
            else other := by
        intro fl
        unfold Disk.makeRoom
        split
        · rw [List.getElem?_map]
        · rw [Option.map_id']
      rw [hroom]
      cases hother : (d.parts.map Part.flags)[k]? with
      | none => simp
      | some other =>
          have hnot : p.flags &&& flagFill ≠ 0 → other &&& flagFill = 0 := by
            intro hfill
            by_contra hne
            exact hk (hone k i other p.flags hother hflags hne hfill)
          show flagProperty _ j = if _ then (flagProperty other j).map _ else _
          rw [flagProperty_makeRoom hstored hnot]
          by_cases hj : j = fillIndex
          · subst hj
            rfl
          · rw [if_neg (by simp [hj]), if_neg (by simp [hj])]
            rfl

/-! ## The limits of the file volume -/

/-- The value of a property of a file volume. -/
def fileProperty (blocksize : Nat) (s : FileVolume) (idx : Nat) : Option PropertyValue :=
  (objectGetProperty (fileChain blocksize) idx s).val?

/-- A size rounded to blocks, a minimum up and a maximum down, and clamped to the other
limit. -/
def settledSize (blocksize : Nat) (s : FileVolume) (idx size : Nat) : Nat :=
  if idx = 0 then min (blockCount size blocksize) s.maxBlockCount * blocksize
  else max (size / blocksize) s.minBlockCount * blocksize

/-- What setting a limit of the file volume should do. -/
structure FileSetGet (blocksize : Nat) (s s' : FileVolume) (idx size : Nat) : Prop where
  same : fileProperty blocksize s' idx =
    some (.u64Size (settledSize blocksize s idx size))
  other : ∀ j, j ≠ idx → ¬ (idx = 0 ∧ j = 1) → ¬ (idx = 1 ∧ j = 0) →
    fileProperty blocksize s' j = fileProperty blocksize s j

theorem metaFromPropertyIndex_fileChain (blocksize idx : Nat) :
    metaFromPropertyIndex (fileChain blocksize) (idx + 2) = none := by
  show (if idx + 2 < 2 then _ else none) = none
  rw [if_neg (by omega)]

theorem fileProperty_behind (blocksize : Nat) (s : FileVolume) (idx : Nat) :
    fileProperty blocksize s (idx + 2) = none := by
  unfold fileProperty objectGetProperty
  rw [metaFromPropertyIndex_fileChain]
  rfl

/-- The file volume does what setting a limit should do exactly where the rounded and
clamped size is a 64-bit value. -/
theorem fileSetGet_iff {blocksize : Nat} {s s' : FileVolume} {idx size : Nat}
    (hok : objectSetProperty (fileChain blocksize) idx (.u64Size size) s = .ok () s') :
    FileSetGet blocksize s s' idx size ↔ settledSize blocksize s idx size < 2 ^ 64 := by
  have hsame : fileProperty blocksize s' idx =
      some (.u64Size (u64 (settledSize blocksize s idx size))) := by
    match idx with
    | 0 =>
        change FileVolume.setProperty blocksize .minSize size s = .ok () s' at hok
        cases hok
        have hlimit : (if blockCount size blocksize > s.maxBlockCount then s.maxBlockCount
            else blockCount size blocksize) =
            min (blockCount size blocksize) s.maxBlockCount := by
          split <;> omega
        show some (PropertyValue.u64Size (u64 (blocksize * if _ then _ else _))) = _
        rw [hlimit, Nat.mul_comm]
        rfl
    | 1 =>
        change FileVolume.setProperty blocksize .maxSize size s = .ok () s' at hok
        cases hok
        have hlimit : (if size / blocksize < s.minBlockCount then s.minBlockCount
            else size / blocksize) = max (size / blocksize) s.minBlockCount := by
          split <;> omega
        show some (PropertyValue.u64Size (u64 (blocksize * if _ then _ else _))) = _
        rw [hlimit, Nat.mul_comm]
        rfl
    | idx + 2 =>
        unfold objectSetProperty at hok
        rw [metaFromPropertyIndex_fileChain] at hok
        cases hok
  constructor
  · intro h
    have heq := hsame.symm.trans h.same
    rw [Option.some.injEq, PropertyValue.u64Size.injEq] at heq
    rw [← heq]
    exact u64_lt _
  · intro h
    refine ⟨by rw [hsame, u64_of_lt h], ?_⟩
    intro j hj h01 h10
    match j with
    | 0 =>
        match idx with
        | 0 => exact absurd rfl hj
        | 1 => exact absurd ⟨rfl, rfl⟩ h10
        | idx + 2 => rw [fileProperty_behind] at hsame; cases hsame
    | 1 =>
        match idx with
        | 0 => exact absurd ⟨rfl, rfl⟩ h01
        | 1 => exact absurd rfl hj
        | idx + 2 => rw [fileProperty_behind] at hsame; cases hsame
    | j + 2 => rw [fileProperty_behind, fileProperty_behind]

/-- Over every value of a property's type that is accepted, in every state a disk or a file
volume can get into: a partition does what setting the property should do exactly if that is
not a type other than 0, and a file volume exactly if the rounded and clamped size is a
64-bit value. -/
theorem setProperty_getProperty {σ : Type} (vol : Volume σ) (v : σ) (blocksize : Nat)
    (file : OsFile) (maxSize : Nat) :
    (∀ (d d' : Disk σ) (i idx : Nat) (p : Part) (value : PropertyValue),
        Disk.Reached vol v d → d.parts[i]? = some p →
        Declared (partChain i : List (MetaObject (Disk σ))) idx value →
        objectSetProperty (partChain i) idx value d = .ok () d' →
        (PartSetGet d d' i idx value ↔ ¬ (idx = 0 ∧ value ≠ .enum 0))) ∧
      ∀ (s s' : FileVolume) (idx size : Nat), FileVolume.Reached blocksize file maxSize s →
        Declared (fileChain blocksize) idx (.u64Size size) →
        objectSetProperty (fileChain blocksize) idx (.u64Size size) s = .ok () s' →
        (FileSetGet blocksize s s' idx size ↔ settledSize blocksize s idx size < 2 ^ 64) := by
  constructor
  · intro d d' i idx p value hd hp _ hok
    exact partSetGet_iff hd hp hok
  · intro s s' idx size _ _ hok
    exact fileSetGet_iff hok

/-- A bootable flag and a maximum of 8192 bytes read as they were set. -/
theorem setProperty_getProperty_settled :
    (∃ d d' : Disk Bytes, Disk.Reached (idealVolume sectorSize 4096) (fun _ => 0) d ∧
      objectSetProperty (partChain 0) 1 (.bool true) d = .ok () d' ∧
      PartSetGet d d' 0 1 (.bool true)) ∧
    ∃ s s', FileVolume.Reached 4096 OsFile.empty 65536 s ∧
      objectSetProperty (fileChain 4096) 1 (.u64Size 8192) s = .ok () s' ∧
      FileSetGet 4096 s s' 1 8192 := by
  obtain ⟨v, hcreate⟩ := Disk.createPartition_idealVolume sectorSize
    (show 4096 < 2 ^ 64 by decide) 2048 0 [] (fun _ => 0) (by decide) (by decide)
  have hreached := (Disk.Reached.empty fun _ => 0).create hcreate
  have hfile : FileVolume.Reached 4096 OsFile.empty 65536
      (FileVolume.fromFd 4096 OsFile.empty 65536) := Run.refl
  have hlaw := setProperty_getProperty (idealVolume sectorSize 4096) (fun _ => 0) 4096
    OsFile.empty 65536
  exact ⟨⟨_, _, hreached, rfl,
      (hlaw.1 _ _ 0 1 _ (.bool true) hreached rfl rfl rfl).2 (by simp)⟩,
    ⟨_, _, hfile, rfl, (hlaw.2 _ _ 1 8192 hfile rfl rfl).2 (by decide)⟩⟩

/-- A partition that is made a Linux partition reads type 0. -/
theorem set_linux_type :
    ∃ d d' : Disk Bytes, Disk.Reached (idealVolume sectorSize 4096) (fun _ => 0) d ∧
      ("Linux", 0x08300000) ∈ mbrTypes ∧
      objectSetProperty (partChain 0) 0 (.enum 0x08300000) d = .ok () d' ∧
      partProperty d' 0 0 = some (.enum 0) ∧
      ¬ PartSetGet d d' 0 0 (.enum 0x08300000) := by
  obtain ⟨v, hcreate⟩ := Disk.createPartition_idealVolume sectorSize
    (show 4096 < 2 ^ 64 by decide) 2048 0 [] (fun _ => 0) (by decide) (by decide)
  refine ⟨_, _, (Disk.Reached.empty fun _ => 0).create hcreate, by decide, rfl, rfl, ?_⟩
  intro h
  exact absurd h.same (by
    show some (PropertyValue.enum 0) ≠ some (PropertyValue.enum 0x08300000)
    decide)

end ImageTool.Mbr
