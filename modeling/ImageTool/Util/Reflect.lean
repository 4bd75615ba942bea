import ImageTool.Lib.Call

/-!
# Reflected properties

An object describes its properties through a chain of meta objects, its own and those it
is derived from.  A property index counts through the chain; every meta object numbers
its own properties from zero.
-/

namespace ImageTool.Util

open ImageTool.Lib

/-- `PROPERTY_TYPE`. -/
inductive PropertyType where
  | none
  | string
  | bool
  | u32Number
  | u64Number
  | u64Size
  | enum
  deriving DecidableEq

/-- `property_value_t`: the type tag and the member of the union that goes with it. -/
inductive PropertyValue where
  | none
  | string (s : String)
  | bool (b : Bool)
  | u32Number (n : Nat)
  | u64Number (n : Nat)
  | u64Size (n : Nat)
  | enum (ival : BitVec 32)
  deriving DecidableEq

namespace PropertyValue

def type : PropertyValue → PropertyType
  | none => .none
  | string _ => .string
  | bool _ => .bool
  | u32Number _ => .u32Number
  | u64Number _ => .u64Number
  | u64Size _ => .u64Size
  | enum _ => .enum

/-- `value.boolean`, where that is the member that was stored. -/
def boolean : PropertyValue → Option Bool
  | bool b => some b
  | _ => Option.none

end PropertyValue

/-- `property_desc_t`. -/
structure PropertyDesc where
  type : PropertyType
  name : String
  enumEnt : List (String × BitVec 32) := []
  deriving DecidableEq

/-- `meta_object_t`, for objects with state `σ`. -/
structure MetaObject (σ : Type) where
  desc : List PropertyDesc
  setProperty (i : Nat) (value : PropertyValue) : Call σ Unit
  getProperty (i : Nat) : Call σ PropertyValue

variable {σ : Type}

/-- `get_property_count`. -/
def MetaObject.propertyCount (m : MetaObject σ) : Nat := m.desc.length

/-- `meta_from_property_index`: the meta object in charge and its own index. -/
def metaFromPropertyIndex : List (MetaObject σ) → Nat → Option (MetaObject σ × Nat)
  | [], _ => none
  | m :: parents, idx =>
      if idx < m.propertyCount then some (m, idx)
      else metaFromPropertyIndex parents (idx - m.propertyCount)

/-- `object_get_property_desc`. -/
def objectGetPropertyDesc (chain : List (MetaObject σ)) (idx : Nat) : Option PropertyDesc :=
  match metaFromPropertyIndex chain idx with
  | some (m, i) => m.desc[i]?
  | none => none

/-- `object_get_property`. -/
def objectGetProperty (chain : List (MetaObject σ)) (idx : Nat) : Call σ PropertyValue :=
  match metaFromPropertyIndex chain idx with
  | some (m, i) => m.getProperty i
  | none => Call.fail

/-- `object_set_property`. -/
def objectSetProperty (chain : List (MetaObject σ)) (idx : Nat) (value : PropertyValue) :
    Call σ Unit :=
  match metaFromPropertyIndex chain idx with
  | some (m, i) => m.setProperty i value
  | none => Call.fail

/-- The value is of the type that the property is declared with. -/
def Declared (chain : List (MetaObject σ)) (idx : Nat) (value : PropertyValue) : Prop :=
  (objectGetPropertyDesc chain idx).map PropertyDesc.type = some value.type

instance (chain : List (MetaObject σ)) (idx : Nat) (value : PropertyValue) :
    Decidable (Declared chain idx value) := by
  unfold Declared
  infer_instance

end ImageTool.Util
