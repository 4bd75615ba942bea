/-!
# Calls that succeed, fail or get stuck

A C function of the source returns 0 or -1 and may have changed its arguments
either way.  `Call σ α` is such a function over a state `σ`: it ends in `ok`
with a value, in `fail` with the state it leaves behind, or in `stuck`, which
stands for undefined behaviour (an access through an invalid pointer) and for a
loop that never ends: no state is reached after it.

`Triple P m Q E` is the Hoare triple with one postcondition for each way of
returning.  It promises nothing about a stuck call; theorems that promise that a
call returns say `m s = .ok a s'` instead.
-/

namespace ImageTool.Lib

/-- How a call ends. -/
inductive Outcome (σ α : Type) where
  | ok (val : α) (state : σ)
  | fail (state : σ)
  | stuck

/-- A function of the source, acting on a state `σ`. -/
def Call (σ α : Type) := σ → Outcome σ α

namespace Outcome

variable {σ τ α β : Type}

/-- Continue after a successful call. -/
def bind : Outcome σ α → (α → Call σ β) → Outcome σ β
  | .ok a s, f => f a s
  | .fail s, _ => .fail s
  | .stuck, _ => .stuck

@[simp] theorem bind_ok (a : α) (s : σ) (f : α → Call σ β) :
    (Outcome.ok a s).bind f = f a s := rfl

@[simp] theorem bind_fail (s : σ) (f : α → Call σ β) :
    (Outcome.fail s : Outcome σ α).bind f = .fail s := rfl

@[simp] theorem bind_stuck (f : α → Call σ β) :
    (Outcome.stuck : Outcome σ α).bind f = .stuck := rfl

/-- Both parts of a sequence that succeeds have succeeded. -/
theorem of_bind_eq_ok {β : Type} {o : Outcome σ α} {f : α → Call σ β} {b : β} {s' : σ}
    (h : o.bind f = .ok b s') : ∃ a s, o = .ok a s ∧ f a s = .ok b s' := by
  cases o with
  | ok a s => exact ⟨a, s, rfl, h⟩
  | fail s => cases h
  | stuck => cases h

theorem bind_eq_ok {o : Outcome σ α} {f : α → Call σ β} {b : β} {s' : σ} :
    o.bind f = .ok b s' ↔ ∃ a s, o = .ok a s ∧ f a s = .ok b s' := by
  constructor
  · exact of_bind_eq_ok
  · rintro ⟨a, s, rfl, h⟩
    exact h

/-- The value a successful call returns. -/
def val? : Outcome σ α → Option α
  | .ok a _ => some a
  | .fail _ | .stuck => none

theorem of_bind_val? {β : Type} {o : Outcome σ α} {f : α → Call σ β} {b : β}
    (h : (o.bind f).val? = some b) : ∃ a s, o = .ok a s ∧ (f a s).val? = some b := by
  cases o with
  | ok a s => exact ⟨a, s, rfl, h⟩
  | fail s => cases h
  | stuck => cases h

theorem exists_ok {o : Outcome σ α} {a : α} (h : o.val? = some a) : ∃ s, o = .ok a s := by
  cases o with
  | ok b s =>
      rw [val?, Option.some.injEq] at h
      exact ⟨s, by rw [h]⟩
  | fail s => cases h
  | stuck => cases h

/-- The state left behind by a call that returns. -/
def state? : Outcome σ α → Option σ
  | .ok _ s => some s
  | .fail s => some s
  | .stuck => none

theorem eq_ok {o : Outcome σ α} {a : α} {s : σ} (hstate : o.state? = some s)
    (hval : o.val? = some a) : o = .ok a s := by
  obtain ⟨t, rfl⟩ := exists_ok hval
  cases hstate
  rfl

theorem eq_fail {o : Outcome σ α} {s : σ} (hstate : o.state? = some s) (hval : o.val? = none) :
    o = .fail s := by
  cases o with
  | ok a t => cases hval
  | fail t =>
      cases hstate
      rfl
  | stuck => cases hstate

/-- Change the state an outcome carries. -/
def mapState (f : σ → τ) : Outcome σ α → Outcome τ α
  | .ok a s => .ok a (f s)
  | .fail s => .fail (f s)
  | .stuck => .stuck

@[simp] theorem mapState_ok (f : σ → τ) (a : α) (s : σ) :
    (Outcome.ok a s).mapState f = .ok a (f s) := rfl

@[simp] theorem mapState_fail (f : σ → τ) (s : σ) :
    (Outcome.fail s : Outcome σ α).mapState f = .fail (f s) := rfl

theorem of_mapState_eq_ok {f : σ → τ} {o : Outcome σ α} {a : α} {t : τ}
    (h : o.mapState f = .ok a t) : ∃ s, o = .ok a s ∧ t = f s := by
  cases o with
  | ok b s =>
      cases h
      exact ⟨s, rfl, rfl⟩
  | fail s => cases h
  | stuck => cases h

end Outcome

namespace Call

variable {σ τ α β : Type}

instance : Monad (Call σ) where
  pure a := fun s => .ok a s
  bind m f := fun s => (m s).bind f

@[simp] theorem pure_apply (a : α) (s : σ) :
    (pure a : Call σ α) s = .ok a s := rfl

@[simp] theorem bind_apply (m : Call σ α) (f : α → Call σ β) (s : σ) :
    (m >>= f) s = (m s).bind f := rfl

/-- Return -1. -/
def fail : Call σ α := fun s => .fail s

/-- Undefined behaviour. -/
def stuck : Call σ α := fun _ => .stuck

/-- The current state. -/
def get : Call σ σ := fun s => .ok s s

/-- Assign to the state. -/
def modify (f : σ → σ) : Call σ Unit := fun s => .ok () (f s)

/-- A statement under a condition. -/
def guard (c : Prop) [Decidable c] (m : Call σ Unit) : Call σ Unit :=
  if c then m else pure ()

/-- Run a call on a part of the state, such as an object held by a pointer. -/
def zoom (part : σ → τ) (put : σ → τ → σ) (m : Call τ α) : Call σ α :=
  fun s => (m (part s)).mapState (put s)

@[simp] theorem fail_apply (s : σ) : (fail : Call σ α) s = .fail s := rfl

@[simp] theorem stuck_apply (s : σ) : (stuck : Call σ α) s = .stuck := rfl

@[simp] theorem get_apply (s : σ) : (get : Call σ σ) s = .ok s s := rfl

@[simp] theorem modify_apply (f : σ → σ) (s : σ) :
    modify f s = .ok () (f s) := rfl

theorem pure_ok {a b : α} {s s' : σ} (h : (pure a : Call σ α) s = .ok b s') : b = a ∧ s' = s := by
  cases h
  exact ⟨rfl, rfl⟩

theorem modify_ok {f : σ → σ} {a : Unit} {s s' : σ} (h : modify f s = .ok a s') : s' = f s := by
  cases h
  rfl

theorem guard_pos {c : Prop} [Decidable c] (h : c) (m : Call σ Unit) : guard c m = m :=
  if_pos h

theorem guard_neg {c : Prop} [Decidable c] (h : ¬ c) (m : Call σ Unit) :
    guard c m = pure () := if_neg h

@[simp] theorem zoom_apply (part : σ → τ) (put : σ → τ → σ) (m : Call τ α) (s : σ) :
    zoom part put m s = (m (part s)).mapState (put s) := rfl

theorem ite_apply (c : Prop) [Decidable c] (m n : Call σ α) (s : σ) :
    (if c then m else n) s = if c then m s else n s := by
  split <;> rfl

/-! ## Triples -/

/-- What a call that returns has established: `Q` on success, `E` on failure. -/
def Returns (o : Outcome σ α) (Q : α → σ → Prop) (E : σ → Prop) : Prop :=
  match o with
  | .ok a s => Q a s
  | .fail s => E s
  | .stuck => True

@[simp] theorem returns_ok {a : α} {s : σ} {Q : α → σ → Prop} {E : σ → Prop} :
    Returns (.ok a s) Q E ↔ Q a s := Iff.rfl

@[simp] theorem returns_fail {s : σ} {Q : α → σ → Prop} {E : σ → Prop} :
    Returns (.fail s : Outcome σ α) Q E ↔ E s := Iff.rfl

@[simp] theorem returns_stuck {Q : α → σ → Prop} {E : σ → Prop} :
    Returns (.stuck : Outcome σ α) Q E ↔ True := Iff.rfl

theorem Returns.mono {o : Outcome σ α} {Q R : α → σ → Prop} {E F : σ → Prop}
    (h : Returns o Q E) (hQ : ∀ a s, Q a s → R a s) (hE : ∀ s, E s → F s) :
    Returns o R F := by
  cases o with
  | ok a s => exact hQ a s h
  | fail s => exact hE s h
  | stuck => trivial

theorem Returns.bind {o : Outcome σ α} {f : α → Call σ β}
    {R : α → σ → Prop} {Q : β → σ → Prop} {E : σ → Prop}
    (h : Returns o R E) (hf : ∀ a s, R a s → Returns (f a s) Q E) :
    Returns (o.bind f) Q E := by
  cases o with
  | ok a s => exact hf a s h
  | fail s => exact h
  | stuck => trivial

theorem Returns.and {o : Outcome σ α} {Q R : α → σ → Prop} {E F : σ → Prop}
    (h : Returns o Q E) (h' : Returns o R F) :
    Returns o (fun a s => Q a s ∧ R a s) (fun s => E s ∧ F s) := by
  cases o with
  | ok a s => exact ⟨h, h'⟩
  | fail s => exact ⟨h, h'⟩
  | stuck => trivial

/-- A property of every way of returning holds of the state left behind. -/
theorem Returns.state {o : Outcome σ α} {I : σ → Prop} (h : Returns o (fun _ => I) I)
    {s : σ} (hs : o.state? = some s) : I s := by
  cases o with
  | ok a t => cases hs; exact h
  | fail t => cases hs; exact h
  | stuck => cases hs

theorem Returns.guard {c : Prop} [Decidable c] {m : Call σ Unit} {s : σ}
    {Q : Unit → σ → Prop} {E : σ → Prop} (hm : c → Returns (m s) Q E)
    (hskip : ¬ c → Q () s) : Returns (Call.guard c m s) Q E := by
  by_cases h : c
  · rw [guard_pos h]; exact hm h
  · rw [guard_neg h]; exact hskip h

/-- A value returned at the end changes nothing. -/
theorem Returns.bind_pure {m : Call σ α} {b : β} {s : σ} {Q E : σ → Prop}
    (h : Returns (m s) (fun _ => Q) E) :
    Returns ((do let _ ← m; pure b : Call σ β) s) (fun _ => Q) E :=
  h.bind fun _ _ hq => hq

/-- A call that returns, and what it has established. -/
def Ends (o : Outcome σ α) (Q : α → σ → Prop) (E : σ → Prop) : Prop :=
  match o with
  | .ok a s => Q a s
  | .fail s => E s
  | .stuck => False

@[simp] theorem ends_ok {a : α} {s : σ} {Q : α → σ → Prop} {E : σ → Prop} :
    Ends (.ok a s) Q E ↔ Q a s := Iff.rfl

@[simp] theorem ends_fail {s : σ} {Q : α → σ → Prop} {E : σ → Prop} :
    Ends (.fail s : Outcome σ α) Q E ↔ E s := Iff.rfl

theorem Ends.bind {o : Outcome σ α} {f : α → Call σ β} {R : α → σ → Prop} {Q : β → σ → Prop}
    {E F : σ → Prop} (h : Ends o R F) (hf : ∀ a s, R a s → Ends (f a s) Q E)
    (hfail : ∀ s, F s → E s) : Ends (o.bind f) Q E := by
  cases o with
  | ok a s => exact hf a s h
  | fail s => exact hfail s h
  | stuck => exact h.elim

theorem Ends.mono {o : Outcome σ α} {Q R : α → σ → Prop} {E F : σ → Prop} (h : Ends o Q E)
    (hQ : ∀ a s, Q a s → R a s) (hE : ∀ s, E s → F s) : Ends o R F := by
  cases o with
  | ok a s => exact hQ a s h
  | fail s => exact hE s h
  | stuck => exact h.elim

theorem Ends.ne_stuck {o : Outcome σ α} {Q : α → σ → Prop} {E : σ → Prop} (h : Ends o Q E) :
    o ≠ .stuck := by
  rintro rfl
  exact h

/-- The Hoare triple of a call. -/
def Triple (P : σ → Prop) (m : Call σ α) (Q : α → σ → Prop) (E : σ → Prop) :
    Prop :=
  ∀ s, P s → Returns (m s) Q E

theorem Triple.bind {P : σ → Prop} {m : Call σ α} {f : α → Call σ β}
    {R : α → σ → Prop} {Q : β → σ → Prop} {E : σ → Prop}
    (hm : Triple P m R E) (hf : ∀ a, Triple (R a) (f a) Q E) :
    Triple P (m >>= f) Q E :=
  fun s hs => (hm s hs).bind fun a s' ha => hf a s' ha

/-- A call after which a property of the state still holds, however it returns. -/
def Keeps (P : σ → Prop) (m : Call σ α) : Prop := Triple P m (fun _ => P) P

theorem Keeps.pure {P : σ → Prop} (a : α) : Keeps P (pure a) := fun _ hs => hs

theorem Keeps.fail {P : σ → Prop} : Keeps P (Call.fail : Call σ α) := fun _ hs => hs

theorem Keeps.stuck {P : σ → Prop} : Keeps P (Call.stuck : Call σ α) :=
  fun _ _ => trivial

theorem Keeps.bind {P : σ → Prop} {m : Call σ α} {f : α → Call σ β}
    (hm : Keeps P m) (hf : ∀ a, Keeps P (f a)) : Keeps P (m >>= f) :=
  Triple.bind hm hf

theorem Keeps.ite {P : σ → Prop} {c : Prop} [Decidable c] {m n : Call σ α}
    (hm : Keeps P m) (hn : Keeps P n) : Keeps P (if c then m else n) := by
  split
  · exact hm
  · exact hn

/-- A call that returns from every state with property `P`, which then holds again. -/
structure Safe (P : σ → Prop) (m : Call σ α) : Prop where
  keeps : Keeps P m
  ne_stuck : ∀ s, P s → m s ≠ .stuck

theorem Safe.ends {P : σ → Prop} {m : Call σ α} (h : Safe P m) {s : σ} (hs : P s) :
    Ends (m s) (fun _ => P) P := by
  have hkeeps := h.keeps s hs
  have hreturns := h.ne_stuck s hs
  cases hres : m s with
  | ok a s' =>
      rw [hres] at hkeeps
      exact hkeeps
  | fail s' =>
      rw [hres] at hkeeps
      exact hkeeps
  | stuck => exact absurd hres hreturns

theorem Safe.pure {P : σ → Prop} (a : α) : Safe P (pure a) :=
  ⟨Keeps.pure a, fun _ _ => by simp⟩

theorem Safe.fail {P : σ → Prop} : Safe P (Call.fail : Call σ α) :=
  ⟨Keeps.fail, fun _ _ => by simp⟩

theorem Safe.modify {P : σ → Prop} {f : σ → σ} (h : ∀ s, P s → P (f s)) :
    Safe P (Call.modify f) := ⟨h, fun _ _ => by simp⟩

theorem Safe.get {P : σ → Prop} : Safe P (Call.get : Call σ σ) :=
  ⟨fun _ hs => hs, fun _ _ => by simp⟩

theorem Safe.bind {P : σ → Prop} {m : Call σ α} {f : α → Call σ β}
    (hm : Safe P m) (hf : ∀ a, Safe P (f a)) : Safe P (m >>= f) := by
  refine ⟨Keeps.bind hm.keeps fun a => (hf a).keeps, fun s hs => ?_⟩
  have hkeeps := hm.keeps s hs
  have hreturns := hm.ne_stuck s hs
  rw [bind_apply]
  cases hres : m s with
  | ok a s' =>
      rw [hres] at hkeeps
      exact (hf a).ne_stuck s' hkeeps
  | fail s' => simp
  | stuck => exact absurd hres hreturns

theorem Safe.ite {P : σ → Prop} {c : Prop} [Decidable c] {m n : Call σ α}
    (hm : Safe P m) (hn : Safe P n) : Safe P (if c then m else n) := by
  split
  · exact hm
  · exact hn

end Call

end ImageTool.Lib
