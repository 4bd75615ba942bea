import Mathlib.Data.List.Basic

/-!
# Canonical paths

Paths are lists of bytes without the terminating zero.  Empty components and single
dots are removed, double dots are not.
-/

namespace ImageTool.Fstree

/-- `'/'`. -/
def slash : UInt8 := 0x2f

/-- `'.'`. -/
def dot : UInt8 := 0x2e

/-- The loop of `normalize_slashes` behind the leading slashes: of some slashes in a row
the last one is kept, unless the path ends there. -/
def collapseSlashes : List UInt8 → List UInt8
  | [] => []
  | c :: src =>
      if c = slash then
        if src = [] ∨ src.head? = some slash then collapseSlashes src
        else c :: collapseSlashes src
      else c :: collapseSlashes src

/-- `normalize_slashes`. -/
def normalizeSlashes (filename : List UInt8) : List UInt8 :=
  collapseSlashes (filename.dropWhile (· = slash))

/-- The loops of `fstree_canonicalize_path`; `start` holds at the start of a component. -/
def removeDots : Bool → List UInt8 → List UInt8
  | _, [] => []
  | true, [c] => if c = dot then [] else [c]
  | true, c :: d :: src =>
      if c = dot ∧ d = slash then removeDots true src
      else c :: removeDots (decide (c = slash)) (d :: src)
  | false, c :: src => c :: removeDots (decide (c = slash)) src

/-- `fstree_canonicalize_path`. -/
def canonicalizePath (path : List UInt8) : List UInt8 :=
  normalizeSlashes (removeDots true (normalizeSlashes path))

end ImageTool.Fstree
