import Mathlib.Data.Nat.Count

/-!
# The first step that finds no room

Steps `0, 1, 2, ...` take a place or give one back, or neither, where `count` places are
there and `top` of them are taken.  The first step that wants a place and finds none is told by
counting; the lemmas follow it when the first of the steps has been made.
-/

namespace ImageTool.Lib

/-- Each `x` with `grows x` takes a place and each with `shrinks x` gives one back, and `x` is
the first to find all `count` places taken. -/
def FirstFull (grows shrinks : Nat → Prop) [DecidablePred grows] [DecidablePred shrinks]
    (top count x : Nat) : Prop :=
  grows x ∧ count + Nat.count shrinks x ≤ top + Nat.count grows x ∧
    ∀ y < x, grows y → top + Nat.count grows y < count + Nat.count shrinks y

section FirstFull

variable {grows shrinks grows' shrinks' : Nat → Prop} [DecidablePred grows]
variable [DecidablePred shrinks] [DecidablePred grows'] [DecidablePred shrinks']
variable {b x top top' count added removed : Nat}

theorem count_low {P : Nat → Prop} [DecidablePred P] (h : ∀ x < b, ¬ P x) :
    Nat.count P b = 0 := Nat.count_iff_forall_not.2 fun x hx => h x hx

/-- All but the first. -/
theorem count_drop {P P' : Nat → Prop} [DecidablePred P] [DecidablePred P']
    (hrest : ∀ x, P' x ↔ x ≠ b ∧ P x) (x : Nat) :
    Nat.count P x = Nat.count P' x + if b < x ∧ P b then 1 else 0 := by
  induction x with
  | zero => simp
  | succ x ih =>
      rw [Nat.count_succ, Nat.count_succ, ih]
      simp only [hrest]
      by_cases hx : x = b
      · subst hx
        by_cases hp : P x <;> simp [hp]
      · have hlt : b < x + 1 ↔ b < x := by omega
        simp only [hlt, ne_eq, hx, not_false_eq_true, true_and]
        omega

theorem count_congr {P Q : Nat → Prop} [DecidablePred P] [DecidablePred Q]
    (h : ∀ y < x, P y ↔ Q y) : Nat.count P x = Nat.count Q x :=
  Nat.le_antisymm (Nat.count_mono_left fun y hy => (h y hy).1)
    (Nat.count_mono_left fun y hy => (h y hy).2)

/-- None of them lies behind `b`. -/
theorem count_high {P : Nat → Prop} [DecidablePred P] (h : ∀ x, P x → x < b) (hle : b ≤ x) :
    Nat.count P x = Nat.count P b := by
  obtain ⟨d, rfl⟩ := Nat.exists_eq_add_of_le hle
  have hzero : Nat.count (fun y => P (b + y)) d = 0 := by
    apply count_low
    intro y _ hy
    have := h _ hy
    omega
  rw [Nat.count_add, hzero, Nat.add_zero]

/-- Steps of two kinds. -/
theorem count_or {P Q R : Nat → Prop} [DecidablePred P] [DecidablePred Q] [DecidablePred R]
    (h : ∀ x, P x ↔ Q x ∨ R x) (hne : ∀ x, Q x → ¬ R x) (x : Nat) :
    Nat.count P x = Nat.count Q x + Nat.count R x := by
  induction x with
  | zero => simp
  | succ x ih =>
      rw [Nat.count_succ, Nat.count_succ, Nat.count_succ, ih]
      simp only [h]
      by_cases hq : Q x
      · simp only [hq, hne x hq, true_or, if_true, if_false]
        omega
      · simp only [hq, false_or, if_false]
        omega

theorem firstFull_congr (hgrows : ∀ y, grows y ↔ grows' y)
    (hshrinks : ∀ y, shrinks y ↔ shrinks' y) :
    FirstFull grows shrinks top count x ↔ FirstFull grows' shrinks' top count x := by
  have hcount := fun z => count_congr (x := z) fun y _ => hgrows y
  have hcount' := fun z => count_congr (x := z) fun y _ => hshrinks y
  unfold FirstFull
  simp only [hgrows, hcount, hcount']

/-- No room at the first step. -/
theorem firstFull_here (hlow : ∀ y < b, ¬ grows y ∧ ¬ shrinks y) (hb : grows b)
    (hfull : count ≤ top) : FirstFull grows shrinks top count x ↔ x = b := by
  have hgrows := count_low fun y hy => (hlow y hy).1
  have hshrinks := count_low fun y hy => (hlow y hy).2
  unfold FirstFull
  constructor
  · intro hx
    obtain ⟨hx, _, hfirst⟩ := hx
    rcases Nat.lt_trichotomy x b with hlt | heq | hgt
    · exact absurd hx (hlow x hlt).1
    · exact heq
    · have hroom := hfirst b hgt hb
      omega
  · rintro rfl
    refine ⟨hb, by omega, ?_⟩
    intro y hy hg
    exact absurd hg (hlow y hy).1

/-- Room at the first step. -/
theorem firstFull_next (hgrows : ∀ y, grows' y ↔ y ≠ b ∧ grows y)
    (hshrinks : ∀ y, shrinks' y ↔ y ≠ b ∧ shrinks y)
    (hlow : ∀ y < b, ¬ grows y ∧ ¬ shrinks y) (hadded : added = if grows b then 1 else 0)
    (hremoved : removed = if shrinks b then 1 else 0) (htop : top' + removed = top + added)
    (hroom : grows b → top < count) :
    FirstFull grows shrinks top count x ↔ FirstFull grows' shrinks' top' count x := by
  have hzero := count_low fun y hy => (hlow y hy).1
  have hzero' := count_low fun y hy => (hlow y hy).2
  have hcount : ∀ y, b < y → Nat.count grows y = Nat.count grows' y + added := by
    intro y hy
    rw [count_drop hgrows y, hadded]
    simp [hy]
  have hcount' : ∀ y, b < y → Nat.count shrinks y = Nat.count shrinks' y + removed := by
    intro y hy
    rw [count_drop hshrinks y, hremoved]
    simp [hy]
  unfold FirstFull
  rcases Nat.lt_trichotomy x b with hlt | rfl | hgt
  · exact iff_of_false (fun h => (hlow x hlt).1 h.1)
      fun h => (hlow x hlt).1 ((hgrows x).1 h.1).2
  · apply iff_of_false
    · intro h
      have := hroom h.1
      have := h.2.1
      omega
    · intro h
      exact ((hgrows x).1 h.1).1 rfl
  have hsame : grows' x ↔ grows x := by
    rw [hgrows]
    exact and_iff_right (by omega)
  have hfirst : (∀ y < x, grows y → top + Nat.count grows y < count + Nat.count shrinks y) ↔
      ∀ y < x, grows' y → top' + Nat.count grows' y < count + Nat.count shrinks' y := by
    constructor
    · intro h y hy hg
      obtain ⟨hne, hg⟩ := (hgrows y).1 hg
      have hby : b < y := by
        by_contra hle
        exact (hlow y (by omega)).1 hg
      have hlt := h y hy hg
      rw [hcount y hby, hcount' y hby] at hlt
      omega
    · intro h y hy hg
      by_cases hyb : y = b
      · subst hyb
        have := hroom hg
        omega
      have hby : b < y := by
        by_contra hle
        exact (hlow y (by omega)).1 hg
      have hlt := h y hy ((hgrows y).2 ⟨hyb, hg⟩)
      rw [hcount y hby, hcount' y hby]
      omega
  have hfull : count + Nat.count shrinks x ≤ top + Nat.count grows x ↔
      count + Nat.count shrinks' x ≤ top' + Nat.count grows' x := by
    rw [hcount x hgt, hcount' x hgt]
    omega
  rw [hsame, hfirst, hfull]

end FirstFull

end ImageTool.Lib
