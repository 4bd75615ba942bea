/-!
# Sets under assignments

Operations that put indices into a set and take them out again.  Whether an index is in the set
after a sequence of them is what it was assigned last; operations that assign nothing do not
matter.
-/

namespace ImageTool.Lib

variable {σ Op ι : Type} [DecidableEq ι]

/-- The value an operation assigns to an index. -/
def assigned (assigns : Op → Option (ι × Bool)) (op : Op) (i : ι) : Option Bool :=
  match assigns op with
  | some (j, value) => if j = i then some value else none
  | none => none

/-- The value that a sequence of operations assigns last to an index. -/
def lastAssigned (assigns : Op → Option (ι × Bool)) (i : ι) : List Op → Option Bool
  | [] => none
  | op :: ops => (lastAssigned assigns i ops).or (assigned assigns op i)

section Assigned

variable {assigns : Op → Option (ι × Bool)} {op : Op} {i j : ι} {value : Bool}

theorem assigned_of_none (h : assigns op = none) : assigned assigns op i = none := by
  rw [assigned, h]

theorem assigned_of_some (h : assigns op = some (j, value)) :
    assigned assigns op i = if j = i then some value else none := by
  rw [assigned, h]

end Assigned

/-- A step function on states that show a set.  An operation that is allowed keeps the invariant,
and changes the set at the index it assigns and nowhere else. -/
structure ShowsSet (step : σ → Op → σ) (assigns : Op → Option (ι × Bool)) (mem : σ → ι → Prop)
    (Inv : σ → Prop) (Allowed : Op → Prop) : Prop where
  keeps : ∀ s op, Allowed op → Inv s → Inv (step s op)
  mem_step : ∀ s op i, Allowed op → Inv s →
    (mem (step s op) i ↔ (assigned assigns op i).elim (mem s i) (· = true))

/-- After a sequence of operations an index is in the set if and only if it was put there last;
an index that nothing was assigned to is where it was. -/
theorem ShowsSet.run {step : σ → Op → σ} {assigns : Op → Option (ι × Bool)} {mem : σ → ι → Prop}
    {Inv : σ → Prop} {Allowed : Op → Prop} (h : ShowsSet step assigns mem Inv Allowed)
    (ops : List Op) (hops : ∀ op ∈ ops, Allowed op) {s : σ} (hs : Inv s) :
    Inv (ops.foldl step s) ∧
      ∀ i, mem (ops.foldl step s) i ↔ (lastAssigned assigns i ops).elim (mem s i) (· = true) := by
  induction ops generalizing s with
  | nil => exact ⟨hs, fun i => Iff.rfl⟩
  | cons op ops ih =>
      have hop : Allowed op := hops op List.mem_cons_self
      have hrest : ∀ op' ∈ ops, Allowed op' := fun op' hop' =>
        hops op' (List.mem_cons_of_mem _ hop')
      have hkept : Inv (step s op) := h.keeps s op hop hs
      have hrun := ih hrest hkept
      rw [List.foldl_cons]
      constructor
      · exact hrun.1
      · intro i
        rw [hrun.2 i, lastAssigned]
        cases hlast : lastAssigned assigns i ops with
        | none =>
            rw [Option.none_or, Option.elim_none]
            exact h.mem_step s op i hop hs
        | some value => simp

end ImageTool.Lib
