import ImageTool.Lib.Call

/-!
# Runs of a system

Two ways to speak about a sequence of operations.  `runAll` carries a list of
operations out, past failures, and collects what each returned; two systems with
equal `runAll` cannot be told apart by a caller.  `Run step Cond s t` says that
`t` is reached from `s` by steps that each met a condition on the state before
them; `Run.invariant` is the induction over such runs.
-/

namespace ImageTool.Lib

variable {σ Op α : Type}

/-- What a sequence of operations returns (`none` for a failure) and the state it
leaves; there is no state behind a stuck operation. -/
def runAll (step : Op → Call σ α) : List Op → σ → List (Option α) × Option σ
  | [], s => ([], some s)
  | op :: ops, s =>
      match step op s with
      | .ok a s' => (some a :: (runAll step ops s').1, (runAll step ops s').2)
      | .fail s' => (none :: (runAll step ops s').1, (runAll step ops s').2)
      | .stuck => ([], none)

-- the equations of the function are derived here, once for all of the lemmas
attribute [local simp] runAll

/-- Systems that agree on every operation of a sequence in every state agree on
the sequence. -/
theorem runAll_congr {step step' : Op → Call σ α} (ops : List Op)
    (h : ∀ op ∈ ops, ∀ s, step op s = step' op s) (s : σ) :
    runAll step ops s = runAll step' ops s := by
  induction ops generalizing s with
  | nil => rfl
  | cons op ops ih =>
      have ih' : ∀ t, runAll step ops t = runAll step' ops t :=
        fun t => ih (fun o ho => h o (by simp [ho])) t
      simp only [runAll, h op (by simp) s]
      cases step' op s with
      | ok a s' => simp only [ih']
      | fail s' => simp only [ih']
      | stuck => rfl

/-- A relation between a state and every state an operation can leave carries
over to sequences. -/
theorem runAll_rel {step : Op → Call σ α} {R : σ → σ → Prop}
    (hrefl : ∀ s, R s s) (htrans : ∀ s t u, R s t → R t u → R s u)
    (ops : List Op)
    (h : ∀ op ∈ ops, ∀ s t, (step op s).state? = some t → R s t) (s t : σ)
    (hrun : (runAll step ops s).2 = some t) : R s t := by
  induction ops generalizing s with
  | nil =>
      simp only [runAll, Option.some.injEq] at hrun
      exact hrun ▸ hrefl s
  | cons op ops ih =>
      have ih' := ih (fun o ho => h o (by simp [ho]))
      have hop := h op (by simp) s
      simp only [runAll] at hrun
      cases hres : step op s with
      | ok a s' =>
          rw [hres] at hrun hop
          exact htrans _ _ _ (hop s' rfl) (ih' s' hrun)
      | fail s' =>
          rw [hres] at hrun hop
          exact htrans _ _ _ (hop s' rfl) (ih' s' hrun)
      | stuck => rw [hres] at hrun; cases hrun

/-- Every operation of a sequence meets a condition on the state it is carried out
in. -/
def Along (step : Op → Call σ α) (Cond : σ → Op → Prop) : List Op → σ → Prop
  | [], _ => True
  | op :: ops, s => Cond s op ∧
      match (step op s).state? with
      | some t => Along step Cond ops t
      | none => True

/-- A condition on the operations alone can be added to one on the states. -/
theorem Along.and_forall {step : Op → Call σ α} {Cond : σ → Op → Prop} {P : Op → Prop}
    {ops : List Op} {s : σ} (hP : ∀ op ∈ ops, P op) (h : Along step Cond ops s) :
    Along step (fun s op => P op ∧ Cond s op) ops s := by
  induction ops generalizing s with
  | nil => trivial
  | cons op ops ih =>
      obtain ⟨hop, hrest⟩ := h
      refine ⟨⟨hP op (by simp), hop⟩, ?_⟩
      cases hres : (step op s).state? with
      | none => trivial
      | some t =>
          rw [hres] at hrest
          exact ih (fun o ho => hP o (by simp [ho])) hrest

instance Along.decidable {step : Op → Call σ α} {Cond : σ → Op → Prop}
    [∀ s op, Decidable (Cond s op)] : ∀ ops s, Decidable (Along step Cond ops s)
  | [], _ => isTrue trivial
  | op :: ops, s =>
      have : Decidable (match (step op s).state? with
          | some t => Along step Cond ops t
          | none => True) :=
        match (step op s).state? with
        | some t => Along.decidable ops t
        | none => isTrue trivial
      inferInstanceAs (Decidable (Cond s op ∧ _))

/-- What the operations of a sequence meet in every state holds along it. -/
theorem Along.of_forall {step : Op → Call σ α} {Cond : σ → Op → Prop} {ops : List Op}
    (h : ∀ op ∈ ops, ∀ s, Cond s op) (s : σ) : Along step Cond ops s := by
  induction ops generalizing s with
  | nil => trivial
  | cons op ops ih =>
      refine ⟨h op (by simp) s, ?_⟩
      cases (step op s).state? with
      | none => trivial
      | some t => exact ih (fun o ho => h o (by simp [ho])) t

/-- No operation of a sequence gets stuck if the condition keeps each of them from
it. -/
theorem runAll_returns {step : Op → Call σ α} {Cond : σ → Op → Prop}
    (hstep : ∀ s op, Cond s op → step op s ≠ .stuck) {ops : List Op} {s : σ}
    (h : Along step Cond ops s) : ∃ t, (runAll step ops s).2 = some t := by
  induction ops generalizing s with
  | nil => exact ⟨s, rfl⟩
  | cons op ops ih =>
      obtain ⟨hop, hrest⟩ := h
      have hreturns := hstep s op hop
      simp only [runAll]
      cases hres : step op s with
      | ok a s' =>
          rw [hres] at hrest
          exact ih hrest
      | fail s' =>
          rw [hres] at hrest
          exact ih hrest
      | stuck => exact absurd hres hreturns

/-- A relation kept by every pair of steps that meet the condition makes two
systems indistinguishable along sequences that meet it, and no operation of such
a sequence fails. -/
theorem runAll_simulation {τ : Type} {step : Op → Call σ α} {step' : Op → Call τ α}
    {Cond : σ → Op → Prop} {R : σ → τ → Prop}
    (hstep : ∀ s t op, R s t → Cond s op →
      ∃ a s' t', step op s = .ok a s' ∧ step' op t = .ok a t' ∧ R s' t')
    (ops : List Op) (s : σ) (t : τ) (hrel : R s t) (hcond : Along step Cond ops s) :
    (runAll step ops s).1 = (runAll step' ops t).1 ∧ none ∉ (runAll step ops s).1 ∧
      ∃ s' t', (runAll step ops s).2 = some s' ∧ (runAll step' ops t).2 = some t' ∧
        R s' t' := by
  induction ops generalizing s t with
  | nil => exact ⟨rfl, by simp [runAll], s, t, rfl, rfl, hrel⟩
  | cons op ops ih =>
      obtain ⟨hop, hrest⟩ := hcond
      obtain ⟨a, s', t', hs, ht, hrel'⟩ := hstep s t op hrel hop
      rw [hs] at hrest
      obtain ⟨hval, hnone, hfinal⟩ := ih s' t' hrel' hrest
      simp only [runAll, hs, ht]
      refine ⟨by rw [hval], ?_, hfinal⟩
      simp [hnone]

/-- States reached by steps that met `Cond` in the state before them. -/
inductive Run (step : Op → σ → Option σ) (Cond : σ → Op → Prop) (s : σ) : σ → Prop
  | refl : Run step Cond s s
  | tail {t u : σ} (op : Op) : Run step Cond s t → Cond t op →
      step op t = some u → Run step Cond s u

/-- What holds initially and is preserved by every step that meets the condition
holds in every state a run reaches. -/
theorem Run.invariant {step : Op → σ → Option σ} {Cond : σ → Op → Prop}
    {I : σ → Prop} {s t : σ} (hrun : Run step Cond s t) (hs : I s)
    (hstep : ∀ t op u, I t → Cond t op → step op t = some u → I u) : I t := by
  induction hrun with
  | refl => exact hs
  | tail op _ hcond hop ih => exact hstep _ op _ ih hcond hop

theorem Run.head {step : Op → σ → Option σ} {Cond : σ → Op → Prop} {s t u : σ} {op : Op}
    (hcond : Cond s op) (hop : step op s = some t) (hrun : Run step Cond t u) :
    Run step Cond s u := by
  induction hrun with
  | refl => exact Run.tail op Run.refl hcond hop
  | tail op' _ hcond' hop' ih => exact Run.tail op' ih hcond' hop'

/-- A sequence whose operations meet the condition is a run to the state it leaves. -/
theorem Along.run {step : Op → Call σ α} {Cond : σ → Op → Prop} {ops : List Op} {s t : σ}
    (h : Along step Cond ops s) (hend : (runAll step ops s).2 = some t) :
    Run (fun op s => (step op s).state?) Cond s t := by
  induction ops generalizing s with
  | nil =>
      cases hend
      exact Run.refl
  | cons op ops ih =>
      obtain ⟨hop, hrest⟩ := h
      simp only [runAll] at hend
      cases hres : step op s with
      | ok a u =>
          rw [hres] at hend hrest
          exact Run.head hop (by rw [hres]; rfl) (ih hrest hend)
      | fail u =>
          rw [hres] at hend hrest
          exact Run.head hop (by rw [hres]; rfl) (ih hrest hend)
      | stuck =>
          rw [hres] at hend
          cases hend

end ImageTool.Lib
