import ImageTool.Lib.Call

/-!
# Calls that agree

Two runs of a call from related states agree where they end in the same way, with the same answer
and in related states again.  What a relation does not say about a state cannot be seen in an
answer then.
-/

namespace ImageTool.Lib

namespace Outcome

variable {σ τ α β : Type} {R : σ → τ → Prop}

/-- The same end, with the same answer and related states. -/
def Agree (R : σ → τ → Prop) : Outcome σ α → Outcome τ α → Prop
  | .ok a s, .ok b t => a = b ∧ R s t
  | .fail s, .fail t => R s t
  | .stuck, .stuck => True
  | .ok _ _, .fail _ | .ok _ _, .stuck | .fail _, .ok _ _ | .fail _, .stuck | .stuck, .ok _ _
  | .stuck, .fail _ => False

/-- The other run of a call that succeeds. -/
theorem Agree.ok_left {o' : Outcome τ α} {a : α} {s : σ} (h : Agree R (.ok a s) o') :
    ∃ t, o' = .ok a t ∧ R s t := by
  cases o' with
  | ok b t =>
      obtain ⟨rfl, hst⟩ := h
      exact ⟨t, rfl, hst⟩
  | fail t => exact h.elim
  | stuck => exact h.elim

theorem Agree.fail_left {o' : Outcome τ α} {s : σ} (h : Agree R (.fail s) o') :
    ∃ t, o' = .fail t ∧ R s t := by
  cases o' with
  | ok b t => exact h.elim
  | fail t => exact ⟨t, rfl, h⟩
  | stuck => exact h.elim

theorem Agree.stuck_left {o' : Outcome τ α} (h : Agree R (.stuck : Outcome σ α) o') :
    o' = .stuck := by
  cases o' with
  | ok b t => exact h.elim
  | fail t => exact h.elim
  | stuck => rfl

theorem Agree.bind {o : Outcome σ α} {o' : Outcome τ α} {f : α → Call σ β} {f' : α → Call τ β}
    (h : Agree R o o') (hf : ∀ a s t, R s t → Agree R (f a s) (f' a t)) :
    Agree R (o.bind f) (o'.bind f') := by
  cases o with
  | ok a s =>
      obtain ⟨t, rfl, hst⟩ := h.ok_left
      exact hf a s t hst
  | fail s =>
      obtain ⟨t, rfl, hst⟩ := h.fail_left
      exact hst
  | stuck =>
      obtain rfl := h.stuck_left
      trivial

theorem Agree.mapState {σ' τ' : Type} {R' : σ' → τ' → Prop} {o : Outcome σ α} {o' : Outcome τ α}
    {f : σ → σ'} {g : τ → τ'} (h : Agree R o o') (hfg : ∀ s t, R s t → R' (f s) (g t)) :
    Agree R' (o.mapState f) (o'.mapState g) := by
  cases o with
  | ok a s =>
      obtain ⟨t, rfl, hst⟩ := h.ok_left
      exact ⟨rfl, hfg s t hst⟩
  | fail s =>
      obtain ⟨t, rfl, hst⟩ := h.fail_left
      exact hfg s t hst
  | stuck =>
      obtain rfl := h.stuck_left
      trivial

end Outcome

namespace Call

variable {σ τ σ' τ' α β : Type} {R : σ → τ → Prop}

/-- Both calls agree from related states. -/
def Agree (R : σ → τ → Prop) (m : Call σ α) (m' : Call τ α) : Prop :=
  ∀ s t, R s t → (m s).Agree R (m' t)

theorem Agree.pure (a : α) : Agree R (pure a : Call σ α) (pure a : Call τ α) :=
  fun _ _ hst => ⟨rfl, hst⟩

theorem Agree.fail : Agree R (Call.fail : Call σ α) (Call.fail : Call τ α) :=
  fun _ _ hst => hst

theorem Agree.stuck : Agree R (Call.stuck : Call σ α) (Call.stuck : Call τ α) :=
  fun _ _ _ => trivial

theorem Agree.modify {f : σ → σ} {g : τ → τ} (h : ∀ s t, R s t → R (f s) (g t)) :
    Agree R (Call.modify f) (Call.modify g) := fun s t hst => ⟨rfl, h s t hst⟩

theorem Agree.bind {m : Call σ α} {m' : Call τ α} {f : α → Call σ β} {f' : α → Call τ β}
    (hm : Agree R m m') (hf : ∀ a, Agree R (f a) (f' a)) : Agree R (m >>= f) (m' >>= f') :=
  fun s t hst => (hm s t hst).bind fun a s' t' hst' => hf a s' t' hst'

/-- The states themselves are related only, so what is done with them has to agree. -/
theorem Agree.get_bind {f : σ → Call σ β} {f' : τ → Call τ β}
    (h : ∀ s t, R s t → (f s s).Agree R (f' t t)) :
    Agree R (Call.get >>= f) (Call.get >>= f') := h

theorem Agree.ite {c : Prop} [Decidable c] {m n : Call σ α} {m' n' : Call τ α}
    (hm : Agree R m m') (hn : Agree R n n') :
    Agree R (if c then m else n) (if c then m' else n') := by
  split
  · exact hm
  · exact hn

theorem Agree.zoom {R' : σ' → τ' → Prop} {part : σ' → σ} {put : σ' → σ → σ'} {part' : τ' → τ}
    {put' : τ' → τ → τ'} {m : Call σ α} {m' : Call τ α} (hm : Agree R m m')
    (hpart : ∀ s t, R' s t → R (part s) (part' t))
    (hput : ∀ s t p q, R' s t → R p q → R' (put s p) (put' t q)) :
    Agree R' (Call.zoom part put m) (Call.zoom part' put' m') := fun s t hst =>
  (hm _ _ (hpart s t hst)).mapState fun p q hpq => hput s t p q hst hpq

end Call

end ImageTool.Lib
