import Mathlib.Data.Set.Lattice
import Mathlib.Data.List.Pairwise

/-!
# Objects that hand out items one at a time

A producer is an object on a heap of linked objects that hands out a finite list of
items and reports the end from then on.  It owns part of the heap: nothing else it
hands out depends on, and its calls change nothing else.  Producers that own disjoint
parts can be combined into larger ones.
-/

namespace ImageTool.Lib

/-- Objects by address. -/
abbrev Heap (Obj : Type) := Nat → Option Obj

/-- The function that asks the object at an address for its next item; it answers
`none` at the end.  The first argument bounds the nesting of calls. -/
abbrev NextItem (Obj Item : Type) := Nat → Heap Obj → Nat → Option (Option Item × Heap Obj)

section Producer

variable {Obj Item : Type}

/-- With enough room for nested calls the call returns. -/
def Asks (next : NextItem Obj Item) (heap : Heap Obj) (p : Nat) (ret : Option Item)
    (heap' : Heap Obj) : Prop :=
  ∃ n, ∀ fuel, n ≤ fuel → next fuel heap p = some (ret, heap')

theorem Asks.succ {next : NextItem Obj Item} {heap heap' : Heap Obj} {p : Nat}
    {ret : Option Item} {n : Nat}
    (h : ∀ fuel, n ≤ fuel → next (fuel + 1) heap p = some (ret, heap')) :
    Asks next heap p ret heap' := by
  refine ⟨n + 1, ?_⟩
  intro fuel hfuel
  cases fuel with
  | zero => omega
  | succ fuel => exact h fuel (by omega)

/-- Ask until the end is reported. -/
def drain (next : NextItem Obj Item) : Nat → Heap Obj → Nat → Option (List Item × Heap Obj)
  | 0, _, _ => none
  | fuel + 1, heap, p =>
      match next fuel heap p with
      | none => none
      | some (none, heap) => some ([], heap)
      | some (some item, heap) =>
          (drain next fuel heap p).map fun (items, heap) => (item :: items, heap)

/-- An object, what it owns, and what it has yet to hand out. -/
structure Producer (next : NextItem Obj Item) where
  ptr : Nat
  owned : Set Nat
  holds : Heap Obj → List Item → Prop
  frame : ∀ heap heap' items, (∀ q ∈ owned, heap' q = heap q) → holds heap items →
    holds heap' items
  step : ∀ heap items, holds heap items → ∃ heap', Asks next heap ptr items.head? heap' ∧
    holds heap' items.tail ∧ ∀ q, q ∉ owned → heap' q = heap q

variable {next : NextItem Obj Item} {heap heap' : Heap Obj} {items : List Item}

/-- Draining a producer yields what it holds. -/
theorem Producer.drain_eq (P : Producer next) (h : P.holds heap items) :
    ∃ heap' n, P.holds heap' [] ∧
      ∀ fuel, n ≤ fuel → drain next fuel heap P.ptr = some (items, heap') := by
  induction items generalizing heap with
  | nil =>
      obtain ⟨heap', ⟨n, hask⟩, hend, _⟩ := P.step heap [] h
      refine ⟨heap', n + 1, hend, ?_⟩
      intro fuel hfuel
      cases fuel with
      | zero => omega
      | succ fuel =>
          have hcall := hask fuel (by omega)
          rw [List.head?_nil] at hcall
          rw [drain, hcall]
  | cons item items ih =>
      obtain ⟨heap₁, ⟨n₁, hask⟩, hrest, _⟩ := P.step heap (item :: items) h
      obtain ⟨heap₂, n₂, hend, hdrain⟩ := ih hrest
      refine ⟨heap₂, n₁ + n₂ + 1, hend, ?_⟩
      intro fuel hfuel
      cases fuel with
      | zero => omega
      | succ fuel =>
          have hcall := hask fuel (by omega)
          have hmore := hdrain fuel (by omega)
          rw [List.head?_cons] at hcall
          rw [drain, hcall]
          change (drain next fuel heap₁ P.ptr).map _ = _
          rw [hmore]
          rfl

/-! ## Several producers -/

/-- The addresses some producers own. -/
def ownedBy (Ps : List (Producer next)) : Set Nat := {q | ∃ P ∈ Ps, q ∈ P.owned}

/-- No address has two owners. -/
def Separate (Ps : List (Producer next)) : Prop :=
  Ps.Pairwise fun P Q => ∀ q ∈ P.owned, q ∉ Q.owned

/-- What some producers hold, one after the other. -/
def AllHold : List (Producer next) → Heap Obj → List Item → Prop
  | [], _, items => items = []
  | P :: Ps, heap, items => ∃ front back, items = front ++ back ∧ P.holds heap front ∧
      AllHold Ps heap back

theorem AllHold.frame {Ps : List (Producer next)} (h : AllHold Ps heap items)
    (hsame : ∀ q ∈ ownedBy Ps, heap' q = heap q) : AllHold Ps heap' items := by
  induction Ps generalizing items with
  | nil => exact h
  | cons P Ps ih =>
      obtain ⟨front, back, hitems, hfront, hback⟩ := h
      have hfirst : P.holds heap' front :=
        P.frame heap heap' front (fun q hq => hsame q ⟨P, List.mem_cons_self .., hq⟩) hfront
      have hrest : AllHold Ps heap' back := ih hback fun q hq => by
        obtain ⟨Q, hQ, hown⟩ := hq
        exact hsame q ⟨Q, List.mem_cons_of_mem _ hQ, hown⟩
      exact ⟨front, back, hitems, hfirst, hrest⟩

/-- What the first of some separate producers changes, the others do not own. -/
theorem Separate.head_frame {P : Producer next} {Ps : List (Producer next)}
    (h : Separate (P :: Ps)) (hsame : ∀ q, q ∉ P.owned → heap' q = heap q) :
    ∀ q ∈ ownedBy Ps, heap' q = heap q := by
  intro q hq
  obtain ⟨Q, hQ, hown⟩ := hq
  apply hsame q
  intro hP
  exact (List.pairwise_cons.1 h).1 Q hQ q hP hown

end Producer

end ImageTool.Lib
