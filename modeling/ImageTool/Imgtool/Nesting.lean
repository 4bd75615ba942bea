import ImageTool.Imgtool.SourceProducers

/-!
# What a nest of sources should hand out, and what it does

A nest of sources is a finite tree.  It should hand out the records of its leaves in
order, less those a filter removes.  A mount group with two or more sources loses the
first one; whether that shows depends on the filters around the group.
-/

namespace ImageTool.Imgtool

open ImageTool.Lib

section Nestings

variable {σ : Type} (fnmatch : List UInt8 → List UInt8 → Bool)

/-- The sources nested in one source, in order, each with its address and with what is
nested in it. -/
inductive Nesting (σ : Type) where
  | nil
  | leaf (p : Nat) (items : List (SourceItem σ)) (rest : Nesting σ)
  | container (p : Nat) (kind : Kind) (nested rest : Nesting σ)

namespace Nesting

/-- The number of sources. -/
def length : Nesting σ → Nat
  | nil => 0
  | leaf _ _ rest => rest.length + 1
  | container _ _ _ rest => rest.length + 1

/-- All addresses. -/
def ptrs : Nesting σ → List Nat
  | nil => []
  | leaf p _ rest => p :: rest.ptrs
  | container p _ nested rest => p :: (nested.ptrs ++ rest.ptrs)

end Nesting

/-- What a source of some kind lets through. -/
def Kind.passes : Kind → SourceItem σ → Bool
  | .filter rules, item => allowed fnmatch rules item
  | _, _ => true

/-- What the sources should hand out. -/
def expected : Nesting σ → List (SourceItem σ)
  | .nil => []
  | .leaf _ items rest => items ++ expected rest
  | .container _ kind nested rest =>
      (expected nested).filter (kind.passes fnmatch) ++ expected rest

/-- A mount group loses the first of two or more sources. -/
def Kind.losesFirst : Kind → Nesting σ → Bool
  | .mountGroup, nested => decide (2 ≤ nested.length)
  | _, _ => false

/-- What the sources hand out; `lost` says that the first one is lost. -/
def delivered : Bool → Nesting σ → List (SourceItem σ)
  | _, .nil => []
  | lost, .leaf _ items rest => (if lost then [] else items) ++ delivered false rest
  | lost, .container _ kind nested rest =>
      (if lost then [] else
        (delivered (kind.losesFirst nested) nested).filter (kind.passes fnmatch)) ++
      delivered false rest

/-- No source that is lost has an item that gets past all filters around it: `pass`
stands for the filters further out. -/
def Lossless : (SourceItem σ → Bool) → Bool → Nesting σ → Prop
  | _, _, .nil => True
  | pass, lost, .leaf _ items rest =>
      (lost = true → ∀ item ∈ items, pass item = false) ∧ Lossless pass false rest
  | pass, lost, .container _ kind nested rest =>
      (if lost then ∀ item ∈ expected fnmatch nested,
          (kind.passes fnmatch item && pass item) = false
        else Lossless (fun item => kind.passes fnmatch item && pass item)
          (kind.losesFirst nested) nested) ∧
      Lossless pass false rest

variable {fnmatch}

theorem delivered_sublist (lost : Bool) (n : Nesting σ) :
    (delivered fnmatch lost n).Sublist (expected fnmatch n) := by
  induction n generalizing lost with
  | nil => exact List.Sublist.refl _
  | leaf p items rest ih =>
      rw [delivered, expected]
      apply List.Sublist.append _ (ih false)
      cases lost with
      | true => exact List.nil_sublist _
      | false => exact List.Sublist.refl _
  | container p kind nested rest ihn ihr =>
      rw [delivered, expected]
      apply List.Sublist.append _ (ihr false)
      cases lost with
      | true => exact List.nil_sublist _
      | false => exact (ihn _).filter _

/-- Two sublists make up the whole only if both are whole. -/
theorem append_eq_append_iff_of_sublist {α : Type} {a a' b b' : List α} (ha : a.Sublist a')
    (hb : b.Sublist b') : a ++ b = a' ++ b' ↔ a = a' ∧ b = b' := by
  constructor
  · intro h
    have hlen := congrArg List.length h
    rw [List.length_append, List.length_append] at hlen
    have hla := ha.length_le
    have hlb := hb.length_le
    exact ⟨ha.eq_of_length (by omega), hb.eq_of_length (by omega)⟩
  · intro h
    rw [h.1, h.2]

/-- Past the filters around it, a nest hands out all it should exactly when no lost
source shows. -/
theorem delivered_eq_iff (pass : SourceItem σ → Bool) (lost : Bool) (n : Nesting σ) :
    (delivered fnmatch lost n).filter pass = (expected fnmatch n).filter pass ↔
      Lossless fnmatch pass lost n := by
  induction n generalizing pass lost with
  | nil => simp [delivered, expected, Lossless]
  | leaf p items rest ih =>
      rw [delivered, expected, Lossless, List.filter_append, List.filter_append,
        append_eq_append_iff_of_sublist _ ((delivered_sublist false rest).filter pass), ih]
      · apply and_congr_left'
        cases lost with
        | true =>
            rw [if_pos rfl, List.filter_nil, eq_comm, List.filter_eq_nil_iff]
            simp
        | false => simp
      · apply List.Sublist.filter
        cases lost with
        | true => exact List.nil_sublist _
        | false => exact List.Sublist.refl _
  | container p kind nested rest ihn ihr =>
      rw [delivered, expected, Lossless, List.filter_append, List.filter_append,
        append_eq_append_iff_of_sublist _ ((delivered_sublist false rest).filter pass), ihr]
      · apply and_congr_left'
        cases lost with
        | true =>
            rw [if_pos rfl, if_pos rfl, List.filter_nil, List.filter_filter, eq_comm,
              List.filter_eq_nil_iff]
            simp only [Bool.and_comm, Bool.not_eq_true]
        | false =>
            rw [if_neg Bool.false_ne_true, if_neg Bool.false_ne_true, List.filter_filter,
              List.filter_filter, ← ihn]
            simp only [Bool.and_comm]
      · apply List.Sublist.filter
        cases lost with
        | true => exact List.nil_sublist _
        | false => exact (delivered_sublist _ nested).filter _

end Nestings

end ImageTool.Imgtool
