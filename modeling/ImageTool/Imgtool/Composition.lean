import ImageTool.Imgtool.Nesting
import Mathlib.Data.List.Nodup

/-!
# The composition law of file sources

What building leaves on the heap, and what the outermost source then hands out.
-/

namespace ImageTool.Imgtool

open ImageTool.Lib

section Heap

variable {σ : Type}

/-- The source at `p` has the aggregate at `a` for itself. -/
def Owns (heap : Heap (Source σ)) (p a : Nat) : Prop :=
  (∃ rules, heap p = some (.filter true (some a) rules)) ∨
    heap p = some (.mountGroup (some a) true)

/-- A source that turns into an aggregate when the second one is nested in it: `wrap`
is the source around what it wraps, `list` what the aggregate then lists. -/
def Lazy (heap : Heap (Source σ)) (p : Nat) (wrap : Bool → Option Nat → Source σ)
    (list : List Nat → List Nat) : List Nat → Prop
  | [] => heap p = some (wrap false none)
  | [c] => heap p = some (wrap false (some c))
  | c :: d :: cs => ∃ a, heap p = some (wrap true (some a)) ∧
      heap a = some (.aggregate (list (c :: d :: cs)) (list (c :: d :: cs)))

/-- What the aggregate of a mount group lists. -/
def withoutFirst : List Nat → List Nat
  | _ :: d :: cs => d :: d :: cs
  | cs => cs

/-- The source at an address is what has been asked for. -/
def Shape (heap : Heap (Source σ)) (p : Nat) : Node σ → Prop
  | .leaf items => heap p = some (.leaf items)
  | .container .aggregate cs => heap p = some (.aggregate cs cs)
  | .container (.filter rules) cs => Lazy heap p (fun b src => .filter b src rules) id cs
  | .container .mountGroup cs => Lazy heap p (fun b src => .mountGroup src b) withoutFirst cs

/-- The invariant of building. -/
structure Reflects (heap : Heap (Source σ)) (nest : Nat → Option (Node σ)) : Prop where
  shape : ∀ p node, nest p = some node → Shape heap p node
  allocated : ∀ p a, Owns heap p a → heap a ≠ none
  hidden : ∀ p a, Owns heap p a → nest a = none
  owner : ∀ p p' a, Owns heap p a → Owns heap p' a → p = p'

variable {heap heap' : Heap (Source σ)} {p : Nat} {node : Node σ}

theorem Shape.isSome (h : Shape heap p node) : heap p ≠ none := by
  intro hnone
  cases node with
  | leaf items => simp [Shape, hnone] at h
  | container kind cs =>
      cases kind with
      | aggregate => simp [Shape, hnone] at h
      | filter rules =>
          cases cs with
          | nil => simp [Shape, Lazy, hnone] at h
          | cons c cs => cases cs <;> simp [Shape, Lazy, hnone] at h
      | mountGroup =>
          cases cs with
          | nil => simp [Shape, Lazy, hnone] at h
          | cons c cs => cases cs <;> simp [Shape, Lazy, hnone] at h

/-- The shape depends on the source itself and on the aggregate it owns. -/
theorem Shape.frame (h : Shape heap p node) (hp : heap' p = heap p)
    (howned : ∀ a, Owns heap p a → heap' a = heap a) : Shape heap' p node := by
  cases node with
  | leaf items => exact hp.trans h
  | container kind cs =>
      cases kind with
      | aggregate => exact hp.trans h
      | filter rules =>
          cases cs with
          | nil => exact hp.trans h
          | cons c cs =>
              cases cs with
              | nil => exact hp.trans h
              | cons d cs =>
                  obtain ⟨a, hwrap, hagg⟩ := h
                  exact ⟨a, hp.trans hwrap, (howned a (Or.inl ⟨rules, hwrap⟩)).trans hagg⟩
      | mountGroup =>
          cases cs with
          | nil => exact hp.trans h
          | cons c cs =>
              cases cs with
              | nil => exact hp.trans h
              | cons d cs =>
                  obtain ⟨a, hwrap, hagg⟩ := h
                  exact ⟨a, hp.trans hwrap, (howned a (Or.inr hwrap)).trans hagg⟩

theorem owns_filter {b : Bool} {src : Option Nat} {rules : List Rule} {a : Nat}
    (hp : heap p = some (.filter b src rules)) : Owns heap p a ↔ b = true ∧ src = some a := by
  rw [Owns, hp]
  simp

theorem owns_mountGroup {b : Bool} {src : Option Nat} {a : Nat}
    (hp : heap p = some (.mountGroup src b)) : Owns heap p a ↔ b = true ∧ src = some a := by
  rw [Owns, hp]
  simp [and_comm]

theorem not_owns_aggregate {list it : List Nat} {a : Nat}
    (hp : heap p = some (.aggregate list it)) : ¬ Owns heap p a := by
  rw [Owns, hp]
  simp

/-- What a step does to one source. -/
structure Replaces (heap heap' : Heap (Source σ)) (p : Nat) (node : Node σ) : Prop where
  shape : Shape heap' p node
  frame : ∀ q, q ≠ p → ¬ Owns heap' p q → heap' q = heap q
  owned : ∀ a, Owns heap' p a → a ≠ p ∧ (∃ list it, heap' a = some (.aggregate list it)) ∧
    (Owns heap p a ∨ heap a = none)

/-- A step on one source keeps the invariant. -/
theorem Reflects.replace {nest : Nat → Option (Node σ)} (h : Reflects heap nest)
    (hp : nest p ≠ none ∨ heap p = none) (hrep : Replaces heap heap' p node) :
    Reflects heap' (Function.update nest p (some node)) := by
  -- what another source owns is neither this one nor owned by it
  have hapart : ∀ q a, q ≠ p → Owns heap q a → heap' a = heap a ∧ a ≠ p := by
    intro q a hq hown
    have hap : a ≠ p := by
      intro heq
      rcases hp with hp | hp
      · exact hp (heq ▸ h.hidden q a hown)
      · exact h.allocated q a hown (heq ▸ hp)
    refine ⟨hrep.frame a hap ?_, hap⟩
    intro hown'
    rcases (hrep.owned a hown').2.2 with hold | hnone
    · exact hq (h.owner q p a hown hold)
    · exact h.allocated q a hown hnone
  have hothers : ∀ q a, q ≠ p → Owns heap' q a → Owns heap q a := by
    intro q a hq hown
    have hsame : heap' q = heap q := by
      apply hrep.frame q hq
      intro hown'
      obtain ⟨list, it, hagg⟩ := (hrep.owned q hown').2.1
      exact not_owns_aggregate hagg hown
    rwa [Owns, hsame] at hown
  have hfresh : ∀ a, Owns heap' p a → nest a = none := by
    intro a hown
    rcases (hrep.owned a hown).2.2 with hold | hnone
    · exact h.hidden p a hold
    · cases hnest : nest a with
      | none => rfl
      | some node' => exact absurd hnone (h.shape a node' hnest).isSome
  constructor
  · intro q node' hnest
    by_cases hq : q = p
    · subst hq
      rw [Function.update_self] at hnest
      cases hnest
      exact hrep.shape
    · rw [Function.update_of_ne hq] at hnest
      apply (h.shape q node' hnest).frame
      · apply hrep.frame q hq
        intro hown
        rw [hfresh q hown] at hnest
        cases hnest
      · intro a hown
        exact (hapart q a hq hown).1
  · intro q a hown
    by_cases hq : q = p
    · subst hq
      obtain ⟨list, it, hagg⟩ := (hrep.owned a hown).2.1
      rw [hagg]
      exact Option.some_ne_none _
    · have hold := hothers q a hq hown
      rw [(hapart q a hq hold).1]
      exact h.allocated q a hold
  · intro q a hown
    by_cases hq : q = p
    · subst hq
      rw [Function.update_of_ne (hrep.owned a hown).1]
      exact hfresh a hown
    · have hold := hothers q a hq hown
      rw [Function.update_of_ne (hapart q a hq hold).2]
      exact h.hidden q a hold
  · have hmixed : ∀ q a, q ≠ p → Owns heap' p a → Owns heap q a → False := by
      intro q a hq hown hold
      rcases (hrep.owned a hown).2.2 with hold' | hnone
      · exact hq (h.owner q p a hold hold')
      · exact h.allocated q a hold hnone
    intro q q' a hown hown'
    by_cases hq : q = p
    · by_cases hq' : q' = p
      · rw [hq, hq']
      · subst hq
        exact absurd (hothers q' a hq' hown') (hmixed q' a hq' hown)
    · by_cases hq' : q' = p
      · subst hq'
        exact absurd (hothers q a hq hown) (hmixed q a hq hown')
      · exact h.owner q q' a (hothers q a hq hown) (hothers q' a hq' hown')

/-! ## The steps -/

theorem create_replaces {source : Source σ} (h : node.create = some source) :
    Replaces heap (Function.update heap p (some source)) p node := by
  have hshape : Shape (Function.update heap p (some source)) p node ∧
      ∀ a, ¬ Owns (Function.update heap p (some source)) p a := by
    unfold Node.create at h
    split at h
    · cases h
      exact ⟨Function.update_self .., fun a => by simp [Owns]⟩
    · cases h
      exact ⟨Function.update_self .., fun a => by simp [Owns]⟩
    · cases h
      exact ⟨Function.update_self .., fun a => by simp [Owns]⟩
    · cases h
      exact ⟨Function.update_self .., fun a => by simp [Owns]⟩
    · cases h
  exact ⟨hshape.1, fun q hq _ => Function.update_of_ne hq .., fun a hown =>
    absurd hown (hshape.2 a)⟩

theorem addRule_replaces {rules : List Rule} {cs : List Nat} {rule : Rule}
    (h : Shape heap p (.container (.filter rules) cs))
    (hheap : addGlobRule heap p rule = some heap') :
    Replaces heap heap' p (.container (.filter (rules ++ [rule])) cs) := by
  -- whatever the filter wraps, only its rules change
  have hkey : ∀ b src, heap p = some (.filter b src rules) →
      heap' = Function.update heap p (some (.filter b src (rules ++ [rule]))) := by
    intro b src hp
    rw [addGlobRule, hp] at hheap
    exact (Option.some.inj hheap).symm
  have hplain : ∀ src, heap p = some (.filter false src rules) →
      heap' p = some (.filter false src (rules ++ [rule])) ∧
      (∀ q, q ≠ p → heap' q = heap q) ∧ ∀ a, ¬ Owns heap' p a := by
    intro src hp
    rw [hkey false src hp]
    exact ⟨Function.update_self .., fun q hq => Function.update_of_ne hq ..,
      fun a => by simp [Owns]⟩
  match cs, h with
  | [], h =>
      obtain ⟨hshape, hframe, hown⟩ := hplain none h
      exact ⟨hshape, fun q hq _ => hframe q hq, fun a ha => absurd ha (hown a)⟩
  | [c], h =>
      obtain ⟨hshape, hframe, hown⟩ := hplain (some c) h
      exact ⟨hshape, fun q hq _ => hframe q hq, fun a ha => absurd ha (hown a)⟩
  | c :: d :: cs, h =>
      obtain ⟨a, hwrap, hagg⟩ := h
      have hap : a ≠ p := by
        intro heq
        rw [heq, hwrap] at hagg
        cases hagg
      have hp' : heap' p = some (.filter true (some a) (rules ++ [rule])) := by
        rw [hkey true (some a) hwrap, Function.update_self]
      have hframe : ∀ q, q ≠ p → heap' q = heap q := by
        intro q hq
        rw [hkey true (some a) hwrap, Function.update_of_ne hq]
      refine ⟨⟨a, hp', (hframe a hap).trans hagg⟩, fun q hq _ => hframe q hq, ?_⟩
      intro a' hown
      cases ((owns_filter hp').1 hown).2
      exact ⟨hap, ⟨_, _, (hframe a hap).trans hagg⟩, Or.inl (Or.inl ⟨rules, hwrap⟩)⟩

/-- One more source nested in one that turns into an aggregate lazily.  The steps are
those of `add_nested`: nothing wrapped yet, one source wrapped, an aggregate wrapped. -/
theorem lazy_replaces {wrap : Bool → Option Nat → Source σ} {list : List Nat → List Nat}
    {cs : List Nat} {c fresh : Nat} (hlazy : Lazy heap p wrap list cs)
    (hfresh : heap fresh = none) (hp : heap p ≠ none)
    (howns : ∀ (heap : Heap (Source σ)) b src a, heap p = some (wrap b src) →
      (Owns heap p a ↔ b = true ∧ src = some a))
    (hlist : ∀ x y cs, list (x :: y :: cs ++ [c]) = list (x :: y :: cs) ++ [c])
    (hempty : heap p = some (wrap false none) →
      heap' = Function.update heap p (some (wrap false (some c))))
    (hone : ∀ x, heap p = some (wrap false (some x)) →
      heap' p = some (wrap true (some fresh)) ∧
      heap' fresh = some (.aggregate (list [x, c]) (list [x, c])) ∧
      ∀ q, q ≠ p → q ≠ fresh → heap' q = heap q)
    (hmore : ∀ a l it, heap p = some (wrap true (some a)) → heap a = some (.aggregate l it) →
      heap' = Function.update heap a (some (.aggregate (l ++ [c]) (l ++ [c]))))
    (hshape : Lazy heap' p wrap list (cs ++ [c]) → Shape heap' p node) :
    Replaces heap heap' p node := by
  match cs, hlazy with
  | [], hlazy =>
      have hp' : heap' p = some (wrap false (some c)) := by
        rw [hempty hlazy, Function.update_self]
      refine ⟨hshape hp', ?_, ?_⟩
      · intro q hq _
        rw [hempty hlazy, Function.update_of_ne hq]
      · intro a hown
        cases ((howns heap' false (some c) a hp').1 hown).1
  | [x], hlazy =>
      obtain ⟨hp', hagg, hframe⟩ := hone x hlazy
      have hfp : fresh ≠ p := fun heq => hp (heq ▸ hfresh)
      refine ⟨hshape ⟨fresh, hp', hagg⟩, ?_, ?_⟩
      · intro q hq hown
        apply hframe q hq
        intro heq
        exact hown ((howns heap' true (some fresh) q hp').2 ⟨rfl, congrArg some heq.symm⟩)
      · intro a hown
        cases ((howns heap' true (some fresh) a hp').1 hown).2
        exact ⟨hfp, ⟨_, _, hagg⟩, Or.inr hfresh⟩
  | x :: y :: cs, hlazy =>
      obtain ⟨a, hwrap, hagg⟩ := hlazy
      have hown : ∀ a', Owns heap p a' ↔ true = true ∧ some a = some a' :=
        fun a' => howns heap true (some a) a' hwrap
      have hap : a ≠ p := by
        intro heq
        rw [heq] at hagg
        exact not_owns_aggregate hagg ((hown p).2 ⟨rfl, congrArg some heq⟩)
      have hheap := hmore a _ _ hwrap hagg
      have hp' : heap' p = some (wrap true (some a)) := by
        rw [hheap, Function.update_of_ne hap.symm, hwrap]
      have hagg' : heap' a =
          some (.aggregate (list (x :: y :: cs ++ [c])) (list (x :: y :: cs ++ [c]))) := by
        rw [hheap, Function.update_self, hlist]
      refine ⟨hshape ⟨a, hp', hagg'⟩, ?_, ?_⟩
      · intro q hq hown'
        have hqa : q ≠ a := fun heq =>
          hown' ((howns heap' true (some a) q hp').2 ⟨rfl, congrArg some heq.symm⟩)
        rw [hheap, Function.update_of_ne hqa]
      · intro a' hown'
        cases ((howns heap' true (some a) a' hp').1 hown').2
        exact ⟨hap, ⟨_, _, hagg'⟩, Or.inl ((hown a).2 ⟨rfl, rfl⟩)⟩

theorem aggregateAddNested_eq {a c : Nat} {list it : List Nat}
    (h : heap a = some (.aggregate list it)) : aggregateAddNested heap a c =
      some (Function.update heap a (some (.aggregate (list ++ [c]) (list ++ [c])))) := by
  rw [aggregateAddNested, h]

/-- Two sources are put into a new aggregate, which takes the place of what `p` wraps. -/
theorem wrap_two {source : Source σ} {fresh x c : Nat} (hfp : fresh ≠ p)
    (h : (do
      let heap ← aggregateAddNested (Function.update heap fresh (some (.aggregate [] []))) fresh x
      aggregateAddNested (Function.update heap p (some source)) fresh c) = some heap') :
    heap' p = some source ∧ heap' fresh = some (.aggregate [x, c] [x, c]) ∧
      ∀ q, q ≠ p → q ≠ fresh → heap' q = heap q := by
  rw [aggregateAddNested_eq (Function.update_self ..)] at h
  change aggregateAddNested _ fresh c = some heap' at h
  have hlisted : Function.update (Function.update (Function.update heap fresh
      (some (.aggregate [] []))) fresh (some (.aggregate [x] [x]))) p (some source) fresh =
      some (.aggregate [x] [x]) := by
    rw [Function.update_of_ne hfp, Function.update_self]
  rw [List.nil_append, aggregateAddNested_eq hlisted] at h
  cases h
  refine ⟨?_, Function.update_self .., ?_⟩
  · rw [Function.update_of_ne hfp.symm, Function.update_self]
  · intro q hqp hqf
    rw [Function.update_of_ne hqf, Function.update_of_ne hqp, Function.update_of_ne hqf,
      Function.update_of_ne hqf]

theorem withoutFirst_append (x y c : Nat) (cs : List Nat) :
    withoutFirst (x :: y :: cs ++ [c]) = withoutFirst (x :: y :: cs) ++ [c] := rfl

theorem addNested_replaces {kind : Kind} {cs : List Nat} {c fresh : Nat}
    (h : Shape heap p (.container kind cs)) (hfresh : heap fresh = none)
    (hheap : addNested heap p c fresh = some heap') :
    Replaces heap heap' p (.container kind (cs ++ [c])) := by
  have hp : heap p ≠ none := h.isSome
  have hfp : fresh ≠ p := fun heq => hp (heq ▸ hfresh)
  cases kind with
  | aggregate =>
      change heap p = some (.aggregate cs cs) at h
      rw [addNested, h] at hheap
      change aggregateAddNested heap p c = some heap' at hheap
      rw [aggregateAddNested_eq h] at hheap
      cases hheap
      refine ⟨Function.update_self .., fun q hq _ => Function.update_of_ne hq .., ?_⟩
      intro a hown
      exact absurd hown (not_owns_aggregate (Function.update_self ..))
  | filter rules =>
      have hcall : ∀ b src, heap p = some (.filter b src rules) →
          filterAddNested heap p c fresh = some heap' := by
        intro b src hsrc
        rw [addNested, hsrc] at hheap
        exact hheap
      change Lazy heap p (fun b src => .filter b src rules) id cs at h
      apply lazy_replaces h hfresh hp (fun heap b src a => owns_filter) (fun _ _ _ => rfl)
        ?_ ?_ ?_ id
      · intro hsrc
        have hnone := hcall false none hsrc
        rw [filterAddNested, hsrc] at hnone
        exact (Option.some.inj hnone).symm
      · intro x hsrc
        have hsome := hcall false (some x) hsrc
        rw [filterAddNested, hsrc] at hsome
        exact wrap_two hfp hsome
      · intro a l it hsrc hagg
        have hsome := hcall true (some a) hsrc
        rw [filterAddNested, hsrc] at hsome
        change aggregateAddNested heap a c = some heap' at hsome
        rw [aggregateAddNested_eq hagg] at hsome
        exact (Option.some.inj hsome).symm
  | mountGroup =>
      have hcall : ∀ b src, heap p = some (.mountGroup src b) →
          mgAddNested heap p c fresh = some heap' := by
        intro b src hsrc
        rw [addNested, hsrc] at hheap
        exact hheap
      change Lazy heap p (fun b src => .mountGroup src b) withoutFirst cs at h
      apply lazy_replaces h hfresh hp (fun heap b src a => owns_mountGroup)
        (fun x y cs => withoutFirst_append x y c cs) ?_ ?_ ?_ id
      · intro hsrc
        have hnone := hcall false none hsrc
        rw [mgAddNested, hsrc] at hnone
        exact (Option.some.inj hnone).symm
      · intro x hsrc
        have hsome := hcall false (some x) hsrc
        rw [mgAddNested, hsrc] at hsome
        exact wrap_two hfp hsome
      · intro a l it hsrc hagg
        have hsome := hcall true (some a) hsrc
        rw [mgAddNested, hsrc] at hsome
        change aggregateAddNested heap a c = some heap' at hsome
        rw [aggregateAddNested_eq hagg] at hsome
        exact (Option.some.inj hsome).symm

theorem eq_none_of_guard {q : Nat} {u : Unit} (h : guard (heap q).isNone = some u) :
    heap q = none := by
  cases hq : heap q with
  | none => rfl
  | some source => simp [hq, guard, failure] at h

/-- Every step of building keeps the invariant. -/
theorem Reflects.exec {b b' : Build σ} {op : BuildOp σ} (h : Reflects b.heap b.nest)
    (hexec : b.exec op = some b') : Reflects b'.heap b'.nest := by
  cases op with
  | create p node =>
      obtain ⟨_, hguard, hexec⟩ := Option.bind_eq_some_iff.1 hexec
      obtain ⟨source, hcreate, hexec⟩ := Option.bind_eq_some_iff.1 hexec
      cases hexec
      exact h.replace (Or.inr (eq_none_of_guard hguard)) (create_replaces hcreate)
  | addRule p rule =>
      obtain ⟨node, hnest, hexec⟩ := Option.bind_eq_some_iff.1 hexec
      obtain ⟨node', hrule, hexec⟩ := Option.bind_eq_some_iff.1 hexec
      obtain ⟨heap', hheap, hexec⟩ := Option.bind_eq_some_iff.1 hexec
      cases hexec
      have hknown : b.nest p ≠ none := by
        rw [hnest]
        exact Option.some_ne_none _
      have hshape := h.shape p node hnest
      cases node with
      | leaf items => cases hrule
      | container kind cs =>
          cases kind with
          | aggregate => cases hrule
          | mountGroup => cases hrule
          | filter rules =>
              cases hrule
              exact h.replace (Or.inl hknown) (addRule_replaces hshape hheap)
  | addNested p c fresh =>
      obtain ⟨_, hguard, hexec⟩ := Option.bind_eq_some_iff.1 hexec
      obtain ⟨_, _, hexec⟩ := Option.bind_eq_some_iff.1 hexec
      obtain ⟨node, hnest, hexec⟩ := Option.bind_eq_some_iff.1 hexec
      obtain ⟨node', hadd, hexec⟩ := Option.bind_eq_some_iff.1 hexec
      obtain ⟨heap', hheap, hexec⟩ := Option.bind_eq_some_iff.1 hexec
      cases hexec
      have hknown : b.nest p ≠ none := by
        rw [hnest]
        exact Option.some_ne_none _
      have hshape := h.shape p node hnest
      cases node with
      | leaf items => cases hadd
      | container kind cs =>
          cases hadd
          exact h.replace (Or.inl hknown)
            (addNested_replaces hshape (eq_none_of_guard hguard) hheap)

/-- What building leaves on the heap is what has been asked for. -/
theorem build_reflects {ops : List (BuildOp σ)} {b : Build σ} (h : build ops = some b) :
    Reflects b.heap b.nest := by
  have hrun : ∀ (ops : List (BuildOp σ)) (b₀ : Build σ), Reflects b₀.heap b₀.nest →
      ops.foldlM Build.exec b₀ = some b → Reflects b.heap b.nest := by
    intro ops
    induction ops with
    | nil =>
        intro b₀ h₀ hfold
        cases hfold
        exact h₀
    | cons op ops ih =>
        intro b₀ h₀ hfold
        rw [List.foldlM_cons] at hfold
        obtain ⟨b₁, hstep, hrest⟩ := Option.bind_eq_some_iff.1 hfold
        exact ih b₁ (h₀.exec hstep) hrest
  apply hrun ops _ _ h
  have hnot : ∀ p a, ¬ Owns (fun _ => none : Heap (Source σ)) p a := by
    intro p a
    simp [Owns]
  constructor
  · intro p node hp
    cases hp
  · exact fun p a hown => absurd hown (hnot p a)
  · exact fun p a hown => absurd hown (hnot p a)
  · exact fun p p' a hown => absurd hown (hnot p a)

end Heap

/-! ## From a nest to producers -/

section Law

variable {σ : Type} {fnmatch : List UInt8 → List UInt8 → Bool}

/-- The sources at some addresses and what is nested in them. -/
inductive Unfolds (nest : Nat → Option (Node σ)) : List Nat → Nesting σ → Prop where
  | nil : Unfolds nest [] .nil
  | leaf {p ps items rest} : nest p = some (.leaf items) → Unfolds nest ps rest →
      Unfolds nest (p :: ps) (.leaf p items rest)
  | container {p ps kind cs nested rest} : nest p = some (.container kind cs) →
      Unfolds nest cs nested → Unfolds nest ps rest →
      Unfolds nest (p :: ps) (.container p kind nested rest)

/-- The addresses of a nest and those of the aggregates its sources own. -/
def reach (heap : Heap (Source σ)) (ps : List Nat) : Set Nat :=
  {q | q ∈ ps ∨ ∃ p ∈ ps, Owns heap p q}

variable {heap : Heap (Source σ)} {nest : Nat → Option (Node σ)}

theorem Unfolds.known {ps : List Nat} {n : Nesting σ} (h : Unfolds nest ps n) :
    ∀ p ∈ n.ptrs, nest p ≠ none := by
  induction h with
  | nil => exact fun p hp => absurd hp List.not_mem_nil
  | leaf hp _ ih =>
      intro q hq
      rcases List.mem_cons.1 hq with rfl | hq
      · rw [hp]
        exact Option.some_ne_none _
      · exact ih q hq
  | container hp _ _ ihn ihr =>
      intro q hq
      rcases List.mem_cons.1 hq with rfl | hq
      · rw [hp]
        exact Option.some_ne_none _
      · rcases List.mem_append.1 hq with hq | hq
        · exact ihn q hq
        · exact ihr q hq

/-- Different sources have different footprints. -/
theorem Reflects.disjoint (h : Reflects heap nest) {ps qs : List Nat}
    (hps : ∀ p ∈ ps, nest p ≠ none) (hqs : ∀ q ∈ qs, nest q ≠ none)
    (hdisj : ps.Disjoint qs) : ∀ x ∈ reach heap ps, x ∉ reach heap qs := by
  rintro x (hx | ⟨p, hp, hown⟩) (hx' | ⟨q, hq, hown'⟩)
  · exact hdisj hx hx'
  · exact hps x hx (h.hidden q x hown')
  · exact hqs x hx' (h.hidden p x hown)
  · have heq := h.owner p q x hown hown'
    exact hdisj hp (heq ▸ hq)

/-- Some sources as producers that hold what the nest hands out. -/
structure Represents (fnmatch : List UInt8 → List UInt8 → Bool) (heap : Heap (Source σ))
    (ps : List Nat) (n : Nesting σ) (Ps : List (SourceProducer σ fnmatch)) : Prop where
  ptrs : Ps.map Producer.ptr = ps
  separate : Separate Ps
  footprint : ownedBy Ps ⊆ reach heap n.ptrs
  holds : AllHold Ps heap (delivered fnmatch false n)
  rest : AllHold Ps.tail heap (delivered fnmatch true n)

theorem Represents.cons (own : List Nat) {ps : List Nat} {n rest : Nesting σ}
    {Ps : List (SourceProducer σ fnmatch)} {items : List (SourceItem σ)}
    (hrest : Represents fnmatch heap ps rest Ps) (P : SourceProducer σ fnmatch)
    (hown : P.owned ⊆ reach heap own)
    (hdisj : ∀ x ∈ reach heap own, x ∉ reach heap rest.ptrs)
    (hitems : P.holds heap items) (hptrs : n.ptrs = own ++ rest.ptrs)
    (hall : delivered fnmatch false n = items ++ delivered fnmatch false rest)
    (hlost : delivered fnmatch true n = delivered fnmatch false rest) :
    Represents fnmatch heap (P.ptr :: ps) n (P :: Ps) := by
  constructor
  · rw [List.map_cons, hrest.ptrs]
  · refine List.pairwise_cons.2 ⟨?_, hrest.separate⟩
    intro Q hQ q hq hq'
    exact hdisj q (hown hq) (hrest.footprint ⟨Q, hQ, hq'⟩)
  · intro q hq
    obtain ⟨Q, hQ, hq⟩ := hq
    have hmem : q ∈ reach heap own ∨
        q ∈ reach heap rest.ptrs := by
      rcases List.mem_cons.1 hQ with rfl | hQ
      · exact Or.inl (hown hq)
      · exact Or.inr (hrest.footprint ⟨Q, hQ, hq⟩)
    rw [hptrs]
    rcases hmem with (hq | ⟨p, hp, hpq⟩) | (hq | ⟨p, hp, hpq⟩)
    · exact Or.inl (List.mem_append_left _ hq)
    · exact Or.inr ⟨p, List.mem_append_left _ hp, hpq⟩
    · exact Or.inl (List.mem_append_right _ hq)
    · exact Or.inr ⟨p, List.mem_append_right _ hp, hpq⟩
  · rw [hall]
    exact ⟨items, _, rfl, hitems, hrest.holds⟩
  · rw [hlost]
    exact hrest.holds

theorem Unfolds.length_eq {ps : List Nat} {n : Nesting σ} (h : Unfolds nest ps n) :
    n.length = ps.length := by
  induction h with
  | nil => rfl
  | leaf _ _ ih => rw [Nesting.length, ih, List.length_cons]
  | container _ _ _ _ ih => rw [Nesting.length, ih, List.length_cons]

theorem Represents.notMem {cs : List Nat} {n : Nesting σ} {p : Nat}
    {Ps : List (SourceProducer σ fnmatch)} (hrep : Represents fnmatch heap cs n Ps)
    (h : Reflects heap nest) (hknown : nest p ≠ none) (hp : p ∉ n.ptrs) : p ∉ ownedBy Ps := by
  intro hmem
  rcases hrep.footprint hmem with hq | ⟨q, hq, hown⟩
  · exact hp hq
  · exact hknown (h.hidden q p hown)

/-- The aggregate a source owns is not in what its nested sources own. -/
theorem Represents.owned_notMem {cs : List Nat} {n : Nesting σ} {p a : Nat}
    {Ps : List (SourceProducer σ fnmatch)} (hrep : Represents fnmatch heap cs n Ps)
    (h : Reflects heap nest) (hn : ∀ q ∈ n.ptrs, nest q ≠ none) (hp : p ∉ n.ptrs)
    (hown : Owns heap p a) : a ∉ ownedBy Ps := by
  intro hmem
  rcases hrep.footprint hmem with hq | ⟨q, hq, hown'⟩
  · exact hn a hq (h.hidden p a hown)
  · exact hp (h.owner p q a hown hown' ▸ hq)

/-- What a source wraps, as a producer: nothing, one source, or an aggregate of the
sources from `Qs` on. -/
theorem exists_wrapped {p a : Nat} {cs it : List Nat} {n : Nesting σ}
    {Ps Qs : List (SourceProducer σ fnmatch)} (hrep : Represents fnmatch heap cs n Ps)
    (h : Reflects heap nest) (hknown : nest p ≠ none) (hn : ∀ q ∈ n.ptrs, nest q ≠ none)
    (hp : p ∉ n.ptrs) (hown : Owns heap p a) (hQs : Qs <:+ Ps)
    (hagg : heap a = some (.aggregate it it)) (hit : Entries it Qs)
    {items : List (SourceItem σ)} (hitems : AllHold Qs heap items) :
    ∃ W : SourceProducer σ fnmatch, W.ptr = a ∧ p ∉ W.owned ∧ W.holds heap items ∧
      W.owned ⊆ reach heap (p :: n.ptrs) := by
  have hsub : ownedBy Qs ⊆ ownedBy Ps := by
    intro q hq
    obtain ⟨Q, hQ, hmem⟩ := hq
    exact ⟨Q, hQs.subset hQ, hmem⟩
  have ha : a ∉ ownedBy Qs := fun hmem => hrep.owned_notMem h hn hp hown (hsub hmem)
  have hpa : p ≠ a := fun heq => hknown (heq ▸ h.hidden p a hown)
  refine ⟨aggregateProducer a Qs (List.Pairwise.sublist hQs.sublist hrep.separate) ha, rfl,
    ?_, ⟨Qs, List.suffix_refl _, ⟨it, it, hagg, hit⟩, hitems⟩, ?_⟩
  · intro hmem
    rcases Set.mem_insert_iff.1 hmem with heq | hmem
    · exact hpa heq
    · exact hrep.notMem h hknown hp (hsub hmem)
  · intro q hmem
    rcases Set.mem_insert_iff.1 hmem with rfl | hmem
    · exact Or.inr ⟨p, List.mem_cons_self .., hown⟩
    · rcases hrep.footprint (hsub hmem) with hq | ⟨q', hq', hown'⟩
      · exact Or.inl (List.mem_cons_of_mem _ hq)
      · exact Or.inr ⟨q', List.mem_cons_of_mem _ hq', hown'⟩

/-- A source that turns into an aggregate lazily, as a producer.  `within` makes it one
out of what it wraps; `lost` says that the aggregate leaves out the first source. -/
theorem exists_lazy (lost : Bool) {p : Nat} {cs : List Nat} {n : Nesting σ}
    {Ps : List (SourceProducer σ fnmatch)} {wrap : Bool → Option Nat → Source σ}
    {list : List Nat → List Nat} {keep : SourceItem σ → Bool}
    (hrep : Represents fnmatch heap cs n Ps) (h : Reflects heap nest)
    (hknown : nest p ≠ none) (hn : ∀ q ∈ n.ptrs, nest q ≠ none) (hp : p ∉ n.ptrs)
    (hlazy : Lazy heap p wrap list cs)
    (howns : ∀ a, heap p = some (wrap true (some a)) → Owns heap p a)
    (hlost : lost = true → 2 ≤ cs.length)
    (hlist : ∀ Q Ps', Ps = Q :: Ps' → 2 ≤ cs.length →
      Entries (list cs) (if lost then Ps' else Ps))
    (hempty : heap p = some (wrap false none) → (emptyProducer fnmatch p).holds heap [])
    (within : ∀ (W : SourceProducer σ fnmatch) b (items : List (SourceItem σ)), p ∉ W.owned →
      heap p = some (wrap b (some W.ptr)) → W.holds heap items →
      ∃ P : SourceProducer σ fnmatch, P.ptr = p ∧ P.owned = insert p W.owned ∧
        P.holds heap (items.filter keep)) :
    ∃ P : SourceProducer σ fnmatch, P.ptr = p ∧ P.owned ⊆ reach heap (p :: n.ptrs) ∧
      P.holds heap ((delivered fnmatch lost n).filter keep) := by
  have hself : p ∈ reach heap (p :: n.ptrs) := Or.inl (List.mem_cons_self ..)
  have hwiden : ownedBy Ps ⊆ reach heap (p :: n.ptrs) := by
    intro q hq
    rcases hrep.footprint hq with hq | ⟨q', hq', hown⟩
    · exact Or.inl (List.mem_cons_of_mem _ hq)
    · exact Or.inr ⟨q', List.mem_cons_of_mem _ hq', hown⟩
  have hptrs := hrep.ptrs
  have hholds : AllHold (if lost then Ps.tail else Ps) heap (delivered fnmatch lost n) := by
    cases lost with
    | true => exact hrep.rest
    | false => exact hrep.holds
  match cs, hlazy with
  | [], hlazy =>
      have hnil : Ps = [] := List.map_eq_nil_iff.1 hptrs
      have hkept : lost = false := by
        cases lost with
        | true => exact absurd (hlost rfl) (by decide)
        | false => rfl
      rw [hkept, hnil] at hholds
      have hdel : delivered fnmatch false n = [] := hholds
      refine ⟨emptyProducer fnmatch p, rfl, Set.singleton_subset_iff.2 hself, ?_⟩
      rw [hkept, hdel]
      exact hempty hlazy
  | [x], hlazy =>
      have hkept : lost = false := by
        cases lost with
        | true => exact absurd (hlost rfl) (by simp)
        | false => rfl
      rw [hkept] at hholds ⊢
      obtain ⟨W, hW, hx⟩ : ∃ W, Ps = [W] ∧ W.ptr = x := by
        cases Ps with
        | nil => cases hptrs
        | cons W Ps =>
            have hrest : Ps.map Producer.ptr = [] := (List.cons.inj hptrs).2
            rw [List.map_eq_nil_iff.1 hrest]
            exact ⟨W, rfl, (List.cons.inj hptrs).1⟩
      have hmem : W ∈ Ps := by
        rw [hW]
        exact List.mem_cons_self ..
      rw [hW] at hholds
      obtain ⟨front, back, hdel, hfront, hback⟩ := hholds
      obtain rfl : back = [] := hback
      rw [hdel, List.append_nil]
      have hpW : p ∉ W.owned := fun hin => hrep.notMem h hknown hp ⟨W, hmem, hin⟩
      obtain ⟨P, hP, hown, hitems⟩ := within W false front hpW (hx ▸ hlazy) hfront
      refine ⟨P, hP, ?_, hitems⟩
      rw [hown]
      exact Set.insert_subset hself fun q hq => hwiden ⟨W, hmem, hq⟩
  | x :: y :: cs, hlazy =>
      obtain ⟨a, hwrap, hagg⟩ := hlazy
      obtain ⟨Q, Ps', hPs⟩ : ∃ Q Ps', Ps = Q :: Ps' := by
        cases Ps with
        | nil => cases hptrs
        | cons Q Ps' => exact ⟨Q, Ps', rfl⟩
      have hentries := hlist Q Ps' hPs (by simp)
      have hsuffix : (if lost then Ps' else Ps) <:+ Ps := by
        cases lost with
        | true =>
            rw [hPs]
            exact List.suffix_cons Q Ps'
        | false => exact List.suffix_refl _
      have hholds' : AllHold (if lost then Ps' else Ps) heap (delivered fnmatch lost n) := by
        rw [hPs] at hholds ⊢
        exact hholds
      obtain ⟨W, rfl, hpW, hW, hsub⟩ := exists_wrapped hrep h hknown hn hp (howns a hwrap)
        hsuffix hagg hentries hholds'
      obtain ⟨P, hP, hown, hitems⟩ := within W true _ hpW hwrap hW
      refine ⟨P, hP, ?_, hitems⟩
      rw [hown]
      exact Set.insert_subset hself hsub

/-- Every source that has been built is a producer of what the nest hands out. -/
theorem exists_container {p : Nat} {kind : Kind} {cs : List Nat} {n : Nesting σ}
    {Ps : List (SourceProducer σ fnmatch)} (hrep : Represents fnmatch heap cs n Ps)
    (h : Reflects heap nest) (hnest : nest p = some (.container kind cs))
    (hlen : n.length = cs.length) (hn : ∀ q ∈ n.ptrs, nest q ≠ none) (hp : p ∉ n.ptrs) :
    ∃ P : SourceProducer σ fnmatch, P.ptr = p ∧ P.owned ⊆ reach heap (p :: n.ptrs) ∧
      P.holds heap
        ((delivered fnmatch (kind.losesFirst n) n).filter (kind.passes fnmatch)) := by
  have hshape := h.shape p _ hnest
  have hknown : nest p ≠ none := by
    rw [hnest]
    exact Option.some_ne_none _
  cases kind with
  | aggregate =>
      change heap p = some (.aggregate cs cs) at hshape
      refine ⟨aggregateProducer p Ps hrep.separate (hrep.notMem h hknown hp), rfl, ?_, ?_⟩
      · have hself : p ∈ reach heap (p :: n.ptrs) := Or.inl (List.mem_cons_self ..)
        apply Set.insert_subset hself
        intro q hq
        rcases hrep.footprint hq with hq | ⟨q', hq', hown⟩
        · exact Or.inl (List.mem_cons_of_mem _ hq)
        · exact Or.inr ⟨q', List.mem_cons_of_mem _ hq', hown⟩
      · have hall : (delivered fnmatch false n).filter (Kind.aggregate.passes fnmatch) =
            delivered fnmatch false n := List.filter_eq_self.2 fun _ _ => rfl
        refine ⟨Ps, List.suffix_refl _, ⟨cs, cs, hshape, Or.inl hrep.ptrs.symm⟩, ?_⟩
        change AllHold Ps heap ((delivered fnmatch false n).filter _)
        rw [hall]
        exact hrep.holds
  | filter rules =>
      change Lazy heap p (fun b src => .filter b src rules) id cs at hshape
      apply exists_lazy false hrep h hknown hn hp hshape
      · exact fun a hwrap => Or.inl ⟨rules, hwrap⟩
      · exact fun hfalse => nomatch hfalse
      · intro Q Ps' _ _
        exact Or.inl hrep.ptrs.symm
      · exact fun hwrap => ⟨rfl, Or.inl ⟨false, rules, hwrap⟩⟩
      · intro W b items hpW hwrap hW
        exact ⟨filterProducer p rules W hpW, rfl, rfl, ⟨b, hwrap⟩, items, hW, rfl⟩
  | mountGroup =>
      change Lazy heap p (fun b src => .mountGroup src b) withoutFirst cs at hshape
      apply exists_lazy (Kind.mountGroup.losesFirst n) hrep h hknown hn hp hshape
      · exact fun a hwrap => Or.inr hwrap
      · intro hlost
        have htwo : 2 ≤ n.length := of_decide_eq_true hlost
        omega
      · intro Q Ps' hPs htwo
        have hlost : Kind.mountGroup.losesFirst n = true := decide_eq_true (by omega)
        have hptrs := hrep.ptrs
        rw [if_pos hlost]
        match cs, htwo with
        | x :: y :: cs, _ =>
            rw [hPs, List.map_cons] at hptrs
            have hrest : Ps'.map Producer.ptr = y :: cs := (List.cons.inj hptrs).2
            cases Ps' with
            | nil => cases hrest
            | cons R Rs =>
                right
                rw [hrest, ← (List.cons.inj hrest).1]
                rfl
      · exact fun hwrap => ⟨rfl, Or.inr ⟨false, hwrap⟩⟩
      · intro W b items hpW hwrap hW
        have hall : items.filter (Kind.mountGroup.passes fnmatch) = items :=
          List.filter_eq_self.2 fun _ _ => rfl
        refine ⟨mountGroupProducer p W hpW, rfl, rfl, ⟨b, hwrap⟩, ?_⟩
        rw [hall]
        exact hW

theorem exists_producers {ps : List Nat} {n : Nesting σ} (h : Reflects heap nest)
    (hunfolds : Unfolds nest ps n) (hnodup : n.ptrs.Nodup) :
    ∃ Ps, Represents fnmatch heap ps n Ps := by
  induction hunfolds with
  | nil => exact ⟨[], rfl, List.Pairwise.nil, fun q hq => by simp [ownedBy] at hq, rfl, rfl⟩
  | leaf hp hrest ih =>
      rename_i p ps items rest
      obtain ⟨hnot, hnodup'⟩ := List.nodup_cons.1 hnodup
      obtain ⟨Ps, hrep⟩ := ih hnodup'
      refine ⟨_, hrep.cons [p] (leafProducer fnmatch p) ?_ ?_
        (h.shape p _ hp) rfl rfl rfl⟩
      · intro q hq
        exact Or.inl (List.mem_singleton.2 hq)
      · apply h.disjoint _ hrest.known (List.singleton_disjoint.2 hnot)
        intro q hq
        rw [List.mem_singleton.1 hq, hp]
        exact Option.some_ne_none _
  | container hp hn hrest ihn ihr =>
      rename_i p ps kind cs nested rest
      obtain ⟨hnot, hnodup'⟩ := List.nodup_cons.1 hnodup
      have hnodupn : nested.ptrs.Nodup := hnodup'.of_append_left
      have hnodupr : rest.ptrs.Nodup := hnodup'.of_append_right
      have hdisj : nested.ptrs.Disjoint rest.ptrs := List.disjoint_of_nodup_append hnodup'
      obtain ⟨Ps, hrep⟩ := ihn hnodupn
      obtain ⟨Rs, hrepr⟩ := ihr hnodupr
      have hpn : p ∉ nested.ptrs := fun hmem => hnot (List.mem_append_left _ hmem)
      have hpr : p ∉ rest.ptrs := fun hmem => hnot (List.mem_append_right _ hmem)
      obtain ⟨P, rfl, hsub, hitems⟩ :=
        exists_container hrep h hp hn.length_eq hn.known hpn
      refine ⟨_, hrepr.cons (P.ptr :: nested.ptrs) P hsub ?_ hitems rfl rfl rfl⟩
      apply h.disjoint _ hrest.known (List.disjoint_cons_left.2 ⟨hpr, hdisj⟩)
      intro q hq
      rcases List.mem_cons.1 hq with rfl | hq
      · rw [hp]
        exact Option.some_ne_none _
      · exact hn.known q hq

/-- Draining the outermost source ends, and yields the records of the nest in order
exactly when no mount group of two or more sources has a first source of which a record
gets past the filters around the group. -/
theorem drain_build (ops : List (BuildOp σ)) (b : Build σ) (p : Nat) (n : Nesting σ)
    (hbuild : build ops = some b) (hunfolds : Unfolds b.nest [p] n) (hnodup : n.ptrs.Nodup) :
    ∃ items, (∃ m, ∀ fuel, m ≤ fuel →
        (drain (getNextRecord fnmatch) fuel b.heap p).map Prod.fst = some items) ∧
      (items = expected fnmatch n ↔ Lossless fnmatch (fun _ => true) false n) := by
  obtain ⟨Ps, hrep⟩ : ∃ Ps, Represents fnmatch b.heap [p] n Ps :=
    exists_producers (build_reflects hbuild) hunfolds hnodup
  obtain ⟨P, rfl, hP⟩ : ∃ P : SourceProducer σ fnmatch, P.ptr = p ∧
      P.holds b.heap (delivered fnmatch false n) := by
    have hptrs := hrep.ptrs
    have hholds := hrep.holds
    cases Ps with
    | nil => cases hptrs
    | cons P Ps =>
        have hnil : Ps = [] := List.map_eq_nil_iff.1 (List.cons.inj hptrs).2
        subst hnil
        obtain ⟨front, back, hdel, hfront, hback⟩ := hholds
        obtain rfl : back = [] := hback
        rw [hdel, List.append_nil]
        exact ⟨P, (List.cons.inj hptrs).1, hfront⟩
  obtain ⟨heap', m, _, hdrain⟩ := P.drain_eq hP
  refine ⟨delivered fnmatch false n, ⟨m, fun fuel hfuel => ?_⟩, ?_⟩
  · rw [hdrain fuel hfuel]
    rfl
  · have hall : ∀ items : List (SourceItem σ), items.filter (fun _ => true) = items :=
      fun items => List.filter_eq_self.2 fun _ _ => rfl
    rw [← delivered_eq_iff, hall, hall]

/-- A file called `name`. -/
def fileRecord (name : UInt8) : FileSourceRecord :=
  ⟨.file, 0o644, 0, 0, 0, 0, 0, 0, [name], none⟩

/-- A mount group around two leaves of one file each. -/
def twoInGroup : List (BuildOp Unit) :=
  [.create 0 (.container .mountGroup []), .create 1 (.leaf [(fileRecord 97, none)]),
    .addNested 0 1 9, .create 2 (.leaf [(fileRecord 98, none)]), .addNested 0 2 9]

/-- The nest this builds. -/
def twoInGroupNest : Nesting Unit :=
  .container 0 .mountGroup
    (.leaf 1 [(fileRecord 97, none)] (.leaf 2 [(fileRecord 98, none)] .nil)) .nil

/-- The first file is lost. -/
theorem mountGroup_loses_first : ∃ b, build twoInGroup = some b ∧
    Unfolds b.nest [0] twoInGroupNest ∧ twoInGroupNest.ptrs.Nodup ∧
    (drain (getNextRecord fun _ _ => true) 10 b.heap 0).map Prod.fst =
      some [(fileRecord 98, none)] ∧
    expected (fun _ _ => true) twoInGroupNest = [(fileRecord 97, none), (fileRecord 98, none)] :=
  ⟨_, rfl, .container rfl (.leaf rfl (.leaf rfl .nil)) .nil, by decide, rfl, rfl⟩

theorem drain_twoInGroup : ∃ b, build twoInGroup = some b ∧
    ∃ items, (∃ m, ∀ fuel, m ≤ fuel →
        (drain (getNextRecord fun _ _ => true) fuel b.heap 0).map Prod.fst = some items) ∧
      (items = expected (fun _ _ => true) twoInGroupNest ↔
        Lossless (fun _ _ => true) (fun _ => true) false twoInGroupNest) :=
  ⟨_, rfl, drain_build twoInGroup _ 0 twoInGroupNest rfl
    (.container rfl (.leaf rfl (.leaf rfl .nil)) .nil) (by decide)⟩

end Law

end ImageTool.Imgtool
