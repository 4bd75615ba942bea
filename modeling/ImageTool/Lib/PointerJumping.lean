import Mathlib.Logic.Function.Basic
import Mathlib.Logic.Relation
import Mathlib.Data.List.Nodup

/-!
# Pointer jumping

Things of which some are links to other ones.  A pass over the links lets each one that points to
a link point to where that one points.  Chains that end get shorter, those that go round never
do.
-/

namespace ImageTool.Lib.PointerJumping

section Chains

variable {α : Type} (isLink : α → Bool) (next : α → α)

/-- A chain of so many links ends at something that is none. -/
def EndsIn : Nat → α → α → Prop
  | 0, n, m => n = m ∧ isLink n = false
  | k + 1, n, m => isLink n = true ∧ EndsIn k (next n) m

/-- A chain of links ends at something that is none. -/
def EndsAt (n m : α) : Prop := ∃ k, EndsIn isLink next k n m

/-- Something is reached over one or more links. -/
def Leads : α → α → Prop := Relation.TransGen fun n m => isLink n = true ∧ m = next n

variable {isLink next} {n m q : α} {k : Nat}

theorem EndsAt.self (h : isLink n = false) : EndsAt isLink next n n := ⟨0, rfl, h⟩

/-- A link whose chain ends does not lead to itself. -/
theorem EndsIn.next_ne (h : EndsIn isLink next k n m) (hn : isLink n = true) : next n ≠ n := by
  intro heq
  induction k with
  | zero => exact absurd (hn.symm.trans h.2) (by decide)
  | succ k ih => exact ih (heq ▸ h.2)

/-- Only what links lead to matters for their chains. -/
theorem EndsIn.congr {isLink' : α → Bool} {next' : α → α} (hlink : ∀ a, isLink' a = isLink a)
    (hnext : ∀ a, isLink a = true → next' a = next a) :
    EndsIn isLink' next' k n m ↔ EndsIn isLink next k n m := by
  induction k generalizing n with
  | zero => rw [EndsIn, EndsIn, hlink]
  | succ k ih =>
      rw [EndsIn, EndsIn, hlink, ih]
      exact and_congr_right fun h => by rw [hnext n h]

theorem EndsIn.unique {j : Nat} {m' : α} (h : EndsIn isLink next k n m)
    (h' : EndsIn isLink next j n m') : m = m' := by
  induction k generalizing n j with
  | zero =>
      obtain ⟨rfl, hn⟩ := h
      cases j with
      | zero => exact h'.1
      | succ j => exact absurd (hn.symm.trans h'.1) (by decide)
  | succ k ih =>
      cases j with
      | zero => exact absurd (h'.2.symm.trans h.1) (by decide)
      | succ j => exact ih h.2 h'.2

theorem EndsAt.unique {m' : α} (h : EndsAt isLink next n m) (h' : EndsAt isLink next n m') :
    m = m' := by
  obtain ⟨k, hk⟩ := h
  obtain ⟨j, hj⟩ := h'
  exact hk.unique hj

/-- Further on along a chain the rest of it is shorter. -/
theorem Leads.endsIn (hlead : Leads isLink next n q) (h : EndsIn isLink next k n m) :
    ∃ j, j < k ∧ EndsIn isLink next j q m := by
  induction hlead with
  | single hstep =>
      cases k with
      | zero => exact absurd (h.2.symm.trans hstep.1) (by decide)
      | succ k => exact ⟨k, Nat.lt_succ_self k, hstep.2 ▸ h.2⟩
  | tail _ hstep ih =>
      obtain ⟨j, hj, hrest⟩ := ih
      cases j with
      | zero => exact absurd (hrest.2.symm.trans hstep.1) (by decide)
      | succ j => exact ⟨j, by omega, hstep.2 ▸ hrest.2⟩

theorem Leads.endsAt_of (hlead : Leads isLink next n q) (h : EndsAt isLink next q m) :
    EndsAt isLink next n m := by
  induction hlead using Relation.TransGen.head_induction_on with
  | single hstep =>
      obtain ⟨k, hk⟩ := h
      exact ⟨k + 1, hstep.1, hstep.2 ▸ hk⟩
  | head hstep _ ih =>
      obtain ⟨k, hk⟩ := ih
      exact ⟨k + 1, hstep.1, hstep.2 ▸ hk⟩

/-- Chains have the same ends from further on. -/
theorem Leads.endsAt_iff (hlead : Leads isLink next n q) :
    EndsAt isLink next n m ↔ EndsAt isLink next q m := by
  constructor
  · rintro ⟨k, hk⟩
    obtain ⟨j, -, hj⟩ := hlead.endsIn hk
    exact ⟨j, hj⟩
  · exact hlead.endsAt_of

/-- What a thing that is none leads to is its own end. -/
theorem Leads.endsAt (hlead : Leads isLink next n q) (hq : isLink q = false) :
    EndsAt isLink next n q := hlead.endsAt_of (EndsAt.self hq)

end Chains

section Jumping

variable {α : Type} [DecidableEq α] (isLink : α → Bool) {next : α → α}

/-- One link is moved on. -/
def jump (p : α → α) (n : α) : α → α :=
  if isLink (p n) then Function.update p n (p (p n)) else p

/-- Each link is moved on once. -/
def pass (list : List α) (p : α → α) : α → α := list.foldl (jump isLink) p

/-- The pointers of the links lead along their chains. -/
def Chases (next p : α → α) : Prop := ∀ n, isLink n = true → Leads isLink next n (p n)

variable {isLink} {p : α → α} {n m : α} {list : List α}

theorem jump_of_ne (h : m ≠ n) : jump isLink p n m = p m := by
  rw [jump]
  split
  · exact Function.update_of_ne h ..
  · rfl

theorem jump_self : jump isLink p n n = if isLink (p n) then p (p n) else p n := by
  rw [jump]
  split
  · exact Function.update_self ..
  · rfl

/-- A pointer to something that is no link stays. -/
theorem jump_of_notLink (h : isLink (p m) = false) : jump isLink p n m = p m := by
  by_cases hm : m = n
  · rw [hm] at h ⊢
    rw [jump_self, if_neg (by simp [h])]
  · exact jump_of_ne hm

theorem chases_jump (h : Chases isLink next p) : Chases isLink next (jump isLink p n) := by
  intro m hm
  by_cases hmn : m = n
  · subst hmn
    rw [jump_self]
    split
    · rename_i hp
      exact (h m hm).trans (h (p m) hp)
    · exact h m hm
  · rw [jump_of_ne hmn]
    exact h m hm

theorem pass_cons : pass isLink (n :: list) p = pass isLink list (jump isLink p n) := rfl

theorem pass_of_notMem (h : m ∉ list) : pass isLink list p m = p m := by
  induction list generalizing p with
  | nil => rfl
  | cons n list ih =>
      rw [List.mem_cons, not_or] at h
      rw [pass_cons, ih h.2, jump_of_ne h.1]

theorem pass_of_notLink (h : isLink (p m) = false) : pass isLink list p m = p m := by
  induction list generalizing p with
  | nil => rfl
  | cons n list ih =>
      have hjump : jump isLink p n m = p m := jump_of_notLink h
      rw [pass_cons, ih (by rw [hjump, h]), hjump]

theorem chases_pass (h : Chases isLink next p) : Chases isLink next (pass isLink list p) := by
  induction list generalizing p with
  | nil => exact h
  | cons n list ih => exact ih (chases_jump h)

/-- A link that is one link away from the end of its chain is moved there. -/
theorem pass_of_near (hn : n ∈ list) (hq : isLink (p (p n)) = false) :
    isLink (pass isLink list p n) = false := by
  induction list generalizing p with
  | nil => cases hn
  | cons c list ih =>
      rw [pass_cons]
      by_cases hp : isLink (p n) = false
      · have hjump : jump isLink p c n = p n := jump_of_notLink hp
        rw [pass_of_notLink (by rw [hjump, hp]), hjump, hp]
      · have hlink : isLink (p n) = true := by simpa using hp
        by_cases hc : n = c
        · subst hc
          have hjump : jump isLink p n n = p (p n) := by
            rw [jump_self, if_pos hlink]
          rw [pass_of_notLink (by rw [hjump, hq]), hjump, hq]
        · have hn' := (List.mem_cons.1 hn).resolve_left hc
          have hjump : jump isLink p c n = p n := jump_of_ne hc
          apply ih hn'
          rw [hjump, jump_of_notLink hq, hq]

/-- As long as a link whose chain ends points to a link, a pass moves some link to the end of its
chain. -/
theorem exists_resolved (h : Chases isLink next p) (hlist : ∀ n, isLink n = true → n ∈ list)
    (hlink : isLink n = true) (hp : isLink (p n) = true) (hend : EndsAt isLink next n m) :
    ∃ c ∈ list, isLink (p c) = true ∧ isLink (pass isLink list p c) = false := by
  obtain ⟨k, hk⟩ := hend
  induction k using Nat.strongRecOn generalizing n with
  | ind k ih =>
      by_cases hq : isLink (p (p n)) = false
      · exact ⟨n, hlist n hlink, hp, pass_of_near (hlist n hlink) hq⟩
      · obtain ⟨j, hj, hrest⟩ := (h n hlink).endsIn hk
        exact ih j hj hp (by simpa using hq) hrest

/-- How many of some links point to a link. -/
def pending (isLink : α → Bool) (list : List α) (p : α → α) : Nat :=
  list.countP fun n => isLink (p n)

/-- How many links a pass moves to the end of their chain. -/
def moved (isLink : α → Bool) (list : List α) (p : α → α) : Nat :=
  list.countP fun n => isLink (p n) && !isLink (pass isLink list p n)

theorem pending_pass_cons (hn : n ∉ list) :
    pending isLink (n :: list) (pass isLink (n :: list) p) =
      (if isLink (jump isLink p n n) then 1 else 0) +
        pending isLink list (pass isLink list (jump isLink p n)) := by
  rw [pending, List.countP_cons, pass_cons, pass_of_notMem hn, Nat.add_comm, pending]

theorem moved_cons (hn : n ∉ list) :
    moved isLink (n :: list) p =
      (if isLink (p n) && !isLink (jump isLink p n n) then 1 else 0) +
        moved isLink list (jump isLink p n) := by
  have hrest : list.countP (fun c => isLink (p c) &&
        !isLink (pass isLink list (jump isLink p n) c)) = moved isLink list (jump isLink p n) := by
    apply List.countP_congr
    intro c hc
    have hne : c ≠ n := fun heq => hn (heq ▸ hc)
    rw [jump_of_ne hne]
  rw [moved, List.countP_cons, pass_cons, pass_of_notMem hn, hrest, Nat.add_comm]

/-- A pass leaves those links pending that it has not moved to the end of their chain. -/
theorem pending_pass : pending isLink list (pass isLink list p) + moved isLink list p =
    pending isLink list p := by
  have hlater : ∀ c, isLink (pass isLink list p c) = true → isLink (p c) = true := by
    intro c hc
    by_contra hp
    rw [pass_of_notLink (by simpa using hp)] at hc
    exact hp hc
  have hcount : ∀ cs : List α, cs.countP (fun c => isLink (pass isLink list p c)) +
      cs.countP (fun c => isLink (p c) && !isLink (pass isLink list p c)) =
        cs.countP fun c => isLink (p c) := by
    intro cs
    induction cs with
    | nil => rfl
    | cons c cs ih =>
        have hc := hlater c
        rw [List.countP_cons, List.countP_cons, List.countP_cons, ← ih]
        cases hnew : isLink (pass isLink list p c) with
        | false =>
            simp only [Bool.not_false, Bool.and_true, Bool.false_eq_true, if_false]
            omega
        | true =>
            simp only [hc hnew, Bool.not_true, Bool.and_false, Bool.false_eq_true, if_false,
              if_true]
            omega
  exact hcount list

end Jumping

end ImageTool.Lib.PointerJumping
