import Mathlib.Data.Nat.Basic

/-!
# Extents packed on a line

A family of extents, each a start and a length, below a common end.  Empty extents
may lie anywhere.  The lemmas are the ways in which an allocator that keeps no free
list rearranges them: cut one off, let the last one grow or shrink, move one behind
all others, close the hole a shorter one leaves, and open a gap.
-/

namespace ImageTool.Lib

/-- A run of blocks. -/
structure Extent where
  start : Nat
  len : Nat

namespace Extent

/-- The first block behind an extent. -/
def stop (e : Extent) : Nat := e.start + e.len

/-- One extent lies in front of the other. -/
def Apart (a b : Extent) : Prop := a.stop ≤ b.start ∨ b.stop ≤ a.start

instance (a b : Extent) : Decidable (a.Apart b) := inferInstanceAs (Decidable (_ ∨ _))

end Extent

/-- Non-empty extents that are pairwise apart and end at or below `top`. -/
structure Packed {ι : Type*} (top : Nat) (e : ι → Extent) : Prop where
  stop_le : ∀ i, 0 < (e i).len → (e i).stop ≤ top
  apart : ∀ i j, i ≠ j → 0 < (e i).len → 0 < (e j).len → (e i).Apart (e j)

namespace Packed

variable {ι : Type*} {top : Nat} {e e' : ι → Extent} {k : ι}

theorem mono {top' : Nat} (h : Packed top e) (htop : top ≤ top') : Packed top' e :=
  ⟨fun i hi => Nat.le_trans (h.stop_le i hi) htop, h.apart⟩

/-- Extents that have become smaller where they are. -/
theorem shorten (h : Packed top e)
    (hsub : ∀ i, 0 < (e' i).len → (e' i).start = (e i).start ∧ (e' i).len ≤ (e i).len) :
    Packed top e' where
  stop_le := by
    intro i hi
    obtain ⟨hstart, hlen⟩ := hsub i hi
    have hstop := h.stop_le i (by omega)
    unfold Extent.stop at *
    omega
  apart := by
    intro i j hij hi hj
    obtain ⟨hstarti, hleni⟩ := hsub i hi
    obtain ⟨hstartj, hlenj⟩ := hsub j hj
    have hapart := h.apart i j hij (by omega) (by omega)
    unfold Extent.Apart Extent.stop at *
    omega

/-- All other extents lie in front of one that ends at the top. -/
theorem stop_le_last (h : Packed top e) (hlast : (e k).stop = top) {i : ι} (hi : i ≠ k)
    (hpos : 0 < (e i).len) : (e i).stop ≤ (e k).start := by
  have hstop := h.stop_le i hpos
  rcases Nat.eq_zero_or_pos (e k).len with hzero | hk
  · unfold Extent.stop at *
    omega
  · have hapart := h.apart i k hi hpos hk
    unfold Extent.Apart Extent.stop at *
    omega

/-- The extent that ends at the top can take any length. -/
theorem resizeLast (h : Packed top e) (hlast : (e k).stop = top) {top' : Nat}
    (hk : 0 < (e' k).len → (e' k).start = (e k).start)
    (hother : ∀ i, i ≠ k → e' i = e i)
    (htop : (e k).start + (e' k).len ≤ top') : Packed top' e' where
  stop_le := by
    intro i hi
    by_cases hik : i = k
    · subst hik
      have hstart := hk hi
      unfold Extent.stop
      omega
    · rw [hother i hik] at hi ⊢
      have hstop := h.stop_le_last hlast hik hi
      omega
  apart := by
    intro i j hij hi hj
    have hfront : ∀ m, m ≠ k → 0 < (e' m).len → 0 < (e' k).len →
        (e' m).stop ≤ (e' k).start := by
      intro m hmk hm hkpos
      rw [hk hkpos]
      rw [hother m hmk] at hm ⊢
      exact h.stop_le_last hlast hmk hm
    by_cases hik : i = k
    · subst hik
      exact Or.inr (hfront j (fun h => hij h.symm) hj hi)
    · by_cases hjk : j = k
      · subst hjk
        exact Or.inl (hfront i hik hi hj)
      · rw [hother i hik, hother j hjk] at *
        exact h.apart i j hij hi hj

/-- Moving an extent to the top and closing the hole it leaves. -/
theorem moveLast (h : Packed top e) (hpos : 0 < (e k).len)
    (hk : (e' k).start = top - (e k).len ∧ (e' k).len = (e k).len)
    (hother : ∀ i, i ≠ k → (e' i).len = (e i).len ∧ (0 < (e i).len → (e' i).start =
      if (e i).start ≥ (e k).start then (e i).start - (e k).len else (e i).start)) :
    Packed top e' := by
  have hktop := h.stop_le k hpos
  -- where the others are afterwards
  have hplace : ∀ i, i ≠ k → 0 < (e i).len →
      ((e i).stop ≤ (e k).start ∧ (e' i).start = (e i).start) ∨
        ((e k).stop ≤ (e i).start ∧ (e' i).start + (e k).len = (e i).start) := by
    intro i hik hi
    have hapart := h.apart i k hik hi hpos
    have hstart := (hother i hik).2 hi
    unfold Extent.Apart Extent.stop at *
    split at hstart <;> omega
  refine ⟨?_, ?_⟩
  · intro i hi
    by_cases hik : i = k
    · subst hik
      unfold Extent.stop at *
      omega
    · have hlen := (hother i hik).1
      have hstop := h.stop_le i (by omega)
      have := hplace i hik (by omega)
      unfold Extent.stop at *
      omega
  · intro i j hij hi hj
    have hfront : ∀ m, m ≠ k → 0 < (e' m).len → (e' m).stop ≤ (e' k).start := by
      intro m hmk hm
      have hlen := (hother m hmk).1
      have hstop := h.stop_le m (by omega)
      have := hplace m hmk (by omega)
      unfold Extent.stop at *
      omega
    by_cases hik : i = k
    · subst hik
      exact Or.inr (hfront j (fun h => hij h.symm) hj)
    · by_cases hjk : j = k
      · subst hjk
        exact Or.inl (hfront i hik hi)
      · have hleni := (hother i hik).1
        have hlenj := (hother j hjk).1
        have hapart := h.apart i j hij (by omega) (by omega)
        have hi' := hplace i hik (by omega)
        have hj' := hplace j hjk (by omega)
        unfold Extent.Apart Extent.stop at *
        omega

/-- Cutting `d` blocks off the end of an extent and closing the hole. -/
theorem cut (h : Packed top e) {d : Nat} (hd : d ≤ (e k).len) (hpos : 0 < (e k).len)
    (hk : (e' k).start = (e k).start ∧ (e' k).len = (e k).len - d)
    (hother : ∀ i, i ≠ k → (e' i).len = (e i).len ∧ (0 < (e i).len → (e' i).start =
      if (e i).start > (e k).start then (e i).start - d else (e i).start)) :
    Packed (top - d) e' := by
  have hktop := h.stop_le k hpos
  have hplace : ∀ i, i ≠ k → 0 < (e i).len →
      ((e i).stop ≤ (e k).start ∧ (e' i).start = (e i).start) ∨
        ((e k).stop ≤ (e i).start ∧ (e' i).start + d = (e i).start) := by
    intro i hik hi
    have hapart := h.apart i k hik hi hpos
    have hstart := (hother i hik).2 hi
    unfold Extent.Apart Extent.stop at *
    split at hstart <;> omega
  refine ⟨?_, ?_⟩
  · intro i hi
    by_cases hik : i = k
    · subst hik
      unfold Extent.stop at *
      omega
    · have hlen := (hother i hik).1
      have hstop := h.stop_le i (by omega)
      have := hplace i hik (by omega)
      unfold Extent.stop at *
      omega
  · intro i j hij hi hj
    have hapartk : ∀ m, m ≠ k → 0 < (e' m).len → (e' m).Apart (e' k) := by
      intro m hmk hm
      have hlen := (hother m hmk).1
      have := hplace m hmk (by omega)
      unfold Extent.Apart Extent.stop at *
      omega
    by_cases hik : i = k
    · subst hik
      exact (hapartk j (fun h => hij h.symm) hj).symm
    · by_cases hjk : j = k
      · subst hjk
        exact hapartk i hik hi
      · have hleni := (hother i hik).1
        have hlenj := (hother j hjk).1
        have hapart := h.apart i j hij (by omega) (by omega)
        have hi' := hplace i hik (by omega)
        have hj' := hplace j hjk (by omega)
        unfold Extent.Apart Extent.stop at *
        omega

/-- Opening a gap of `d` blocks in front of block `x`, which is not strictly inside an
extent. -/
theorem gap (h : Packed top e) {x d : Nat}
    (hx : ∀ i, 0 < (e i).len → x ≤ (e i).start ∨ (e i).stop ≤ x)
    (hlen : ∀ i, (e' i).len = (e i).len)
    (hstart : ∀ i, 0 < (e i).len → (e' i).start =
      if (e i).start ≥ x then (e i).start + d else (e i).start) :
    Packed (top + d) e' where
  stop_le := by
    intro i hi
    have hleni := hlen i
    have hstop := h.stop_le i (by omega)
    have hi' := hstart i (by omega)
    unfold Extent.stop at *
    split at hi' <;> omega
  apart := by
    intro i j hij hi hj
    have hleni := hlen i
    have hlenj := hlen j
    have hapart := h.apart i j hij (by omega) (by omega)
    have hi' := hstart i (by omega)
    have hj' := hstart j (by omega)
    have hxi := hx i (by omega)
    have hxj := hx j (by omega)
    unfold Extent.Apart Extent.stop at *
    split at hi' <;> split at hj' <;> omega

end Packed

end ImageTool.Lib
