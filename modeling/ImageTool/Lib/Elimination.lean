import Mathlib.Logic.Relation
import Mathlib.Data.List.Basic
import Mathlib.Data.Finset.Max

/-!
# Taking elements off a list in dependency order

`Elim E rem out left` is a run of the simplest elimination there is: as long as it
lasts, the first element of `rem` that waits for no other remaining element is taken
off and put behind `out`; `left` is what remains.  `E c p` says that `p` waits for
`c`.

Elements leave in the order of `E`.  Because the search always starts at the front,
more holds: a front part of the list that waits for nothing behind it leaves before
everything behind it, whether or not `E` relates the two (`Elim.front`).
-/

namespace ImageTool.Lib

variable {α : Type*} {E : α → α → Prop}

/-- Some remaining element has to leave before `p`. -/
def Waits (E : α → α → Prop) (rem : List α) (p : α) : Prop := ∃ c ∈ rem, E c p

/-- Elements taken off a list, and what is left of it. -/
inductive Elim (E : α → α → Prop) : List α → List α → List α → Prop
  | refl (rem : List α) : Elim E rem [] rem
  | step {pre post out left : List α} {x : α}
      (hpre : ∀ p ∈ pre, Waits E (pre ++ x :: post) p)
      (hx : ¬ Waits E (pre ++ x :: post) x)
      (hrest : Elim E (pre ++ post) out left) : Elim E (pre ++ x :: post) (x :: out) left

namespace Elim

variable {rem out left : List α}

theorem perm (h : Elim E rem out left) : (out ++ left).Perm rem := by
  induction h with
  | refl rem => exact List.Perm.refl rem
  | step hpre hx hrest ih => exact (ih.cons _).trans List.perm_middle.symm

theorem mem_of_mem (h : Elim E rem out left) {x : α} (hx : x ∈ out) : x ∈ rem :=
  h.perm.mem_iff.1 (List.mem_append_left left hx)

theorem nodup (h : Elim E rem out left) (hrem : rem.Nodup) : out.Nodup :=
  (h.perm.nodup_iff.2 hrem).of_append_left

variable [DecidableEq α]

private theorem idxOf_lt_cons {x a b : α} {l : List α} (hb : b ≠ x)
    (h : a ≠ x → l.idxOf a < l.idxOf b) : (x :: l).idxOf a < (x :: l).idxOf b := by
  rw [List.idxOf_cons_ne l (fun hxb => hb hxb.symm)]
  by_cases ha : a = x
  · subst ha
    rw [List.idxOf_cons_self]
    exact Nat.succ_pos _
  · rw [List.idxOf_cons_ne l (fun hxa => ha hxa.symm)]
    exact Nat.succ_lt_succ (h ha)

/-- An element leaves behind those it waits for. -/
theorem lt_of_edge (h : Elim E rem out left) {c p : α} (hedge : E c p) (hc : c ∈ rem)
    (hp : p ∈ out) : out.idxOf c < out.idxOf p := by
  induction h with
  | refl rem => cases hp
  | step hpre hx hrest ih =>
      rename_i pre post out left x
      have hpx : p ≠ x := by
        rintro rfl
        exact hx ⟨c, hc, hedge⟩
      apply idxOf_lt_cons hpx
      intro hcx
      apply ih
      · have hmem : c ∈ pre ∨ c = x ∨ c ∈ post := by simpa using hc
        rw [List.mem_append]
        exact hmem.imp_right fun h => h.resolve_left hcx
      · exact (List.mem_cons.1 hp).resolve_left hpx

/-- Among finitely many elements one waits for no other. -/
theorem exists_free (rank : α → Nat) (hrank : ∀ c p, E c p → rank p < rank c)
    (hrem : rem ≠ []) : ∃ x ∈ rem, ¬ Waits E rem x := by
  obtain ⟨x, hx, hmax⟩ := Finset.exists_max_image rem.toFinset rank
    (List.toFinset_nonempty_iff rem |>.2 hrem)
  refine ⟨x, List.mem_toFinset.1 hx, ?_⟩
  rintro ⟨c, hc, hedge⟩
  have hle := hmax c (List.mem_toFinset.2 hc)
  have hlt := hrank c x hedge
  omega

/-- A front part that waits for nothing behind it leaves first. -/
theorem front (h : Elim E rem out left) (rank : α → Nat)
    (hrank : ∀ c p, E c p → rank p < rank c) {fst snd : List α} (hrem : rem = fst ++ snd)
    (hnodup : rem.Nodup) (hclosed : ∀ c p, E c p → p ∈ fst → c ∈ rem → c ∈ fst) {a b : α}
    (ha : a ∈ fst) (hb : b ∈ snd) (hout : b ∈ out) : out.idxOf a < out.idxOf b := by
  induction h generalizing fst with
  | refl rem => cases hout
  | step hpre hx hrest ih =>
      rename_i pre post out left x
      have hne : fst ≠ [] := by
        rintro rfl
        cases ha
      obtain ⟨y, hy, hfree⟩ := exists_free rank hrank hne
      have hdisj : ∀ z ∈ fst, z ∉ snd := by
        rw [hrem] at hnodup
        exact fun z hz hz' => (List.disjoint_of_nodup_append hnodup) hz hz'
      -- the element taken off belongs to the front part
      rcases List.append_eq_append_iff.1 hrem with ⟨f, hfst, hsnd⟩ | ⟨f, hpre', hsnd⟩
      · cases f with
        | nil =>
            rw [List.append_nil] at hfst
            exfalso
            obtain ⟨c, hc, hedge⟩ := hpre y (hfst ▸ hy)
            exact hfree ⟨c, hclosed c y hedge hy hc, hedge⟩
        | cons z f =>
            obtain ⟨hxz, hpost⟩ := List.cons.inj hsnd
            change post = f ++ snd at hpost
            subst hxz hfst hpost
            have hbx : b ≠ x := by
              rintro rfl
              exact hdisj b (by simp) hb
            obtain ⟨hxnew, hnodup'⟩ := List.nodup_cons.1 (List.nodup_middle.1 hnodup)
            have hmid : ∀ c l, c ∈ pre ++ x :: l ↔ c = x ∨ c ∈ pre ++ l := by
              intro c l
              simp only [List.mem_append, List.mem_cons]
              tauto
            apply idxOf_lt_cons hbx
            intro hax
            refine ih (List.append_assoc pre f snd).symm hnodup' ?_
              (((hmid a f).1 ha).resolve_left hax) ((List.mem_cons.1 hout).resolve_left hbx)
            intro c p hedge hp hc
            have hcx : c ≠ x := by
              rintro rfl
              exact hxnew hc
            have hcfst := hclosed c p hedge ((hmid p f).2 (Or.inr hp))
              ((hmid c (f ++ snd)).2 (Or.inr hc))
            exact ((hmid c f).1 hcfst).resolve_left hcx
      · exfalso
        obtain ⟨c, hc, hedge⟩ := hpre y (by rw [hpre']; exact List.mem_append_left _ hy)
        exact hfree ⟨c, hclosed c y hedge hy hc, hedge⟩

/-- Where everything leaves, nothing waits for itself over any number of steps. -/
theorem acyclic (h : Elim E rem out []) (hmem : ∀ c p, E c p → c ∈ rem ∧ p ∈ rem)
    (k : α) : ¬ Relation.TransGen E k k := by
  have hall : ∀ x ∈ rem, x ∈ out := by
    intro x hx
    have hmem := h.perm.mem_iff.2 hx
    rwa [List.append_nil] at hmem
  have hlt : ∀ a b, Relation.TransGen E a b → out.idxOf a < out.idxOf b := by
    intro a b hab
    induction hab with
    | single hedge =>
        exact h.lt_of_edge hedge (hmem _ _ hedge).1 (hall _ (hmem _ _ hedge).2)
    | tail _ hedge ih =>
        exact Nat.lt_trans ih (h.lt_of_edge hedge (hmem _ _ hedge).1
          (hall _ (hmem _ _ hedge).2))
  exact fun hcycle => Nat.lt_irrefl _ (hlt k k hcycle)

end Elim

end ImageTool.Lib
