import Mathlib.Data.List.Nodup
import Mathlib.Logic.Function.Basic

/-!
# Linked lists

Things that are linked by a pointer each, up to a null pointer.  What a program does to such
a list is said by the list alone: which pointers count, how a list is cut and joined.
-/

namespace ImageTool.Lib

variable {α : Type} {next next' : α → Option α} {head mid : Option α} {a : α}
  {list list' front back : List α}

/-- The things from a pointer on. -/
def Chain (next : α → Option α) : Option α → List α → Prop
  | head, [] => head = none
  | head, a :: list => head = some a ∧ Chain next (next a) list

@[simp] theorem chain_nil : Chain next head [] ↔ head = none := Iff.rfl

@[simp] theorem chain_cons :
    Chain next head (a :: list) ↔ head = some a ∧ Chain next (next a) list := Iff.rfl

theorem Chain.head_eq (h : Chain next head list) : head = list.head? := by
  cases list with
  | nil => exact h
  | cons a list => exact h.1

/-- A chain from a null pointer is empty. -/
theorem chain_none : Chain next none list ↔ list = [] := by
  cases list with
  | nil => simp
  | cons a list => simp

/-- A chain from a thing starts with it. -/
theorem chain_some : Chain next (some a) list ↔
    ∃ back, list = a :: back ∧ Chain next (next a) back := by
  cases list with
  | nil => simp
  | cons b list =>
      rw [chain_cons]
      constructor
      · intro h
        cases h.1
        exact ⟨list, rfl, h.2⟩
      · intro h
        obtain ⟨back, heq, hback⟩ := h
        cases heq
        exact ⟨rfl, hback⟩

/-- Only the pointers of the things in a chain matter. -/
theorem Chain.congr (h : Chain next head list) (heq : ∀ a ∈ list, next' a = next a) :
    Chain next' head list := by
  induction list generalizing head with
  | nil => exact h
  | cons a list ih =>
      rw [List.forall_mem_cons] at heq
      have hrest : Chain next' (next a) list := ih h.2 heq.2
      rw [← heq.1] at hrest
      exact ⟨h.1, hrest⟩

/-- A pointer leads to one list. -/
theorem Chain.unique (h : Chain next head list) (h' : Chain next head list') : list = list' := by
  induction list generalizing head list' with
  | nil =>
      rw [chain_nil] at h
      rw [h, chain_none] at h'
      exact h'.symm
  | cons a list ih =>
      rw [chain_cons] at h
      rw [h.1, chain_some] at h'
      obtain ⟨back, heq, hback⟩ := h'
      rw [heq, ih h.2 hback]

/-- What is behind some things is a chain. -/
theorem Chain.behind (h : Chain next head (front ++ a :: back)) : Chain next (next a) back := by
  induction front generalizing head with
  | nil => exact h.2
  | cons b front ih => exact ih h.2

/-- A chain that ends meets nothing twice. -/
theorem Chain.nodup (h : Chain next head list) : list.Nodup := by
  induction list generalizing head with
  | nil => exact List.nodup_nil
  | cons a list ih =>
      refine List.nodup_cons.2 ⟨?_, ih h.2⟩
      intro hmem
      obtain ⟨front, back, hsplit⟩ := List.append_of_mem hmem
      have hrest : Chain next (next a) (front ++ a :: back) := hsplit ▸ h.2
      have heq : front ++ a :: back = back := hrest.unique hrest.behind
      have hlength := congrArg List.length heq
      simp at hlength
      omega

section Linking

variable [DecidableEq α]

/-- A pointer outside a chain does not count. -/
theorem Chain.update (h : Chain next head list) (ha : a ∉ list) :
    Chain (Function.update next a mid) head list := by
  refine h.congr ?_
  intro c hc
  have hne : c ≠ a := by
    intro heq
    rw [heq] at hc
    exact ha hc
  exact Function.update_of_ne hne ..

/-- A pointer decides what stands behind its thing. -/
theorem Chain.relink (h : Chain next head (front ++ a :: back)) (ha : a ∉ front)
    (hlist : Chain next mid list) (hnot : a ∉ list) :
    Chain (Function.update next a mid) head (front ++ a :: list) := by
  induction front generalizing head with
  | nil =>
      refine ⟨h.1, ?_⟩
      rw [Function.update_self]
      exact hlist.update hnot
  | cons b front ih =>
      rw [List.mem_cons, not_or] at ha
      refine ⟨h.1, ?_⟩
      rw [Function.update_of_ne (Ne.symm ha.1)]
      exact ih h.2 ha.2

/-- Cut a chain behind one of its things. -/
theorem Chain.cut (h : Chain next head (front ++ a :: back)) :
    Chain (Function.update next a none) head (front ++ [a]) ∧
      Chain (Function.update next a none) (next a) back := by
  have hnodup := h.nodup
  rw [List.nodup_append] at hnodup
  obtain ⟨_, hback, hdisjoint⟩ := hnodup
  have hfront : a ∉ front := by
    intro hmem
    exact hdisjoint a hmem a (List.mem_cons_self ..) rfl
  exact ⟨h.relink hfront rfl List.not_mem_nil, h.behind.update (List.nodup_cons.1 hback).1⟩

/-- Join two chains. -/
theorem Chain.join (h : Chain next head (front ++ [a])) (hlist : Chain next mid list)
    (hnodup : (front ++ [a] ++ list).Nodup) :
    Chain (Function.update next a mid) head (front ++ [a] ++ list) := by
  rw [List.append_assoc, List.singleton_append] at hnodup ⊢
  rw [List.nodup_append] at hnodup
  obtain ⟨_, hback, hdisjoint⟩ := hnodup
  have hfront : a ∉ front := by
    intro hmem
    exact hdisjoint a hmem a (List.mem_cons_self ..) rfl
  exact h.relink hfront hlist (List.nodup_cons.1 hback).1

/-- Put a thing behind a chain. -/
theorem Chain.concat (h : Chain next head (front ++ [a])) {b : α} (hb : b ∉ front ++ [a]) :
    Chain (Function.update (Function.update next a (some b)) b none) head
      (front ++ [a] ++ [b]) := by
  have hne : a ≠ b := by
    intro heq
    rw [heq] at hb
    exact hb (by simp)
  rw [Function.update_comm hne]
  have hend : Chain (Function.update next b none) (some b) [b] := ⟨rfl, Function.update_self ..⟩
  have hnodup : (front ++ [a] ++ [b]).Nodup := by
    rw [List.nodup_append_comm]
    exact List.nodup_cons.2 ⟨hb, h.nodup⟩
  exact (h.update hb).join hend hnodup

end Linking

end ImageTool.Lib
