import ImageTool.Imgtool.FileSource

/-!
# Sources as producers

Each kind of source, with what is nested in it, is a producer again.
-/

namespace ImageTool.Imgtool

open ImageTool.Lib

section Calls

variable {σ : Type} {fnmatch : List UInt8 → List UInt8 → Bool}
variable {heap heap₁ heap₂ : Heap (Source σ)} {p src : Nat}
variable {ret : Option (SourceItem σ)} {item : SourceItem σ} {rules : List Rule}

-- the equations of the function are derived here, once for all of the lemmas
attribute [local simp] getNextRecord

/-! ## Calls of a source with others nested in it -/

/-- A mount group passes the call on. -/
theorem asks_mountGroup {b : Bool} (hp : heap p = some (.mountGroup (some src) b))
    (h : Asks (getNextRecord fnmatch) heap src ret heap₁) :
    Asks (getNextRecord fnmatch) heap p ret heap₁ := by
  obtain ⟨n, hcall⟩ := h
  apply Asks.succ (n := n)
  intro fuel hfuel
  rw [getNextRecord, hp]
  exact hcall fuel hfuel

theorem asks_filter_end {b : Bool} (hp : heap p = some (.filter b (some src) rules))
    (h : Asks (getNextRecord fnmatch) heap src none heap₁) :
    Asks (getNextRecord fnmatch) heap p none heap₁ := by
  obtain ⟨n, hcall⟩ := h
  apply Asks.succ (n := n)
  intro fuel hfuel
  rw [getNextRecord, hp]
  simp only [hcall fuel hfuel]

theorem asks_filter_allowed {b : Bool} (hp : heap p = some (.filter b (some src) rules))
    (h : Asks (getNextRecord fnmatch) heap src (some item) heap₁)
    (hallowed : allowed fnmatch rules item = true) :
    Asks (getNextRecord fnmatch) heap p (some item) heap₁ := by
  obtain ⟨n, hcall⟩ := h
  apply Asks.succ (n := n)
  intro fuel hfuel
  rw [getNextRecord, hp]
  simp only [hcall fuel hfuel]
  exact if_pos hallowed

theorem asks_filter_discarded {b : Bool} (hp : heap p = some (.filter b (some src) rules))
    (h : Asks (getNextRecord fnmatch) heap src (some item) heap₁)
    (hallowed : allowed fnmatch rules item = false)
    (hmore : Asks (getNextRecord fnmatch) heap₁ p ret heap₂) :
    Asks (getNextRecord fnmatch) heap p ret heap₂ := by
  obtain ⟨n, hcall⟩ := h
  obtain ⟨m, hcall'⟩ := hmore
  apply Asks.succ (n := n + m)
  intro fuel hfuel
  rw [getNextRecord, hp]
  simp only [hcall fuel (by omega)]
  rw [if_neg (Bool.eq_false_iff.1 hallowed)]
  exact hcall' fuel (by omega)

variable {list it : List Nat}

theorem asks_aggregate_nil (hp : heap p = some (.aggregate list [])) :
    Asks (getNextRecord fnmatch) heap p none heap := by
  apply Asks.succ (n := 0)
  intro fuel hfuel
  rw [getNextRecord, hp]

theorem asks_aggregate_item (hp : heap p = some (.aggregate list (src :: it)))
    (h : Asks (getNextRecord fnmatch) heap src (some item) heap₁) :
    Asks (getNextRecord fnmatch) heap p (some item) heap₁ := by
  obtain ⟨n, hcall⟩ := h
  apply Asks.succ (n := n)
  intro fuel hfuel
  rw [getNextRecord, hp]
  simp only [hcall fuel hfuel]

/-- At the end of one nested source the next one is asked. -/
theorem asks_aggregate_next (hp : heap p = some (.aggregate list (src :: it)))
    (h : Asks (getNextRecord fnmatch) heap src none heap₁)
    (hmore : Asks (getNextRecord fnmatch) (advance heap₁ p) p ret heap₂) :
    Asks (getNextRecord fnmatch) heap p ret heap₂ := by
  obtain ⟨n, hcall⟩ := h
  obtain ⟨m, hcall'⟩ := hmore
  apply Asks.succ (n := n + m)
  intro fuel hfuel
  rw [getNextRecord, hp]
  simp only [hcall fuel (by omega)]
  exact hcall' fuel (by omega)

theorem advance_eq (hp : heap p = some (.aggregate list (src :: it))) :
    advance heap p = Function.update heap p (some (.aggregate list it)) := by
  rw [advance, hp]
  rfl

end Calls

section Producers

variable {σ : Type} (fnmatch : List UInt8 → List UInt8 → Bool)

/-- A source on a heap of sources. -/
abbrev SourceProducer (σ : Type) (fnmatch : List UInt8 → List UInt8 → Bool) : Type :=
  Producer (getNextRecord (σ := σ) fnmatch)

/-- A leaf holds its records. -/
def leafProducer (p : Nat) : SourceProducer σ fnmatch where
  ptr := p
  owned := {p}
  holds heap items := heap p = some (.leaf items)
  frame heap heap' items hsame h := by rw [hsame p rfl, h]
  step heap items h := by
    cases items with
    | nil =>
        have hask : ∀ fuel, 1 ≤ fuel → getNextRecord fnmatch fuel heap p = some (none, heap) := by
          intro fuel hfuel
          cases fuel with
          | zero => omega
          | succ fuel => rw [getNextRecord, h]
        exact ⟨heap, ⟨1, hask⟩, h, fun q _ => rfl⟩
    | cons item items =>
        have hask : ∀ fuel, 1 ≤ fuel → getNextRecord fnmatch fuel heap p =
            some (some item, Function.update heap p (some (.leaf items))) := by
          intro fuel hfuel
          cases fuel with
          | zero => omega
          | succ fuel => rw [getNextRecord, h]
        exact ⟨_, ⟨1, hask⟩, Function.update_self .., fun q hq => Function.update_of_ne hq ..⟩

/-- A filter or a mount group nothing is nested in. -/
def emptyProducer (p : Nat) : SourceProducer σ fnmatch where
  ptr := p
  owned := {p}
  holds heap items := items = [] ∧ ((∃ b rules, heap p = some (.filter b none rules)) ∨
    ∃ b, heap p = some (.mountGroup none b))
  frame heap heap' items hsame h := by rwa [hsame p rfl]
  step heap items h := by
    obtain ⟨rfl, hp⟩ := h
    have hask : Asks (getNextRecord fnmatch) heap p none heap := by
      apply Asks.succ (n := 0)
      intro fuel hfuel
      rcases hp with ⟨b, rules, hp⟩ | ⟨b, hp⟩
      · rw [getNextRecord, hp]
      · rw [getNextRecord, hp]
    exact ⟨heap, hask, ⟨rfl, hp⟩, fun q _ => rfl⟩

variable {fnmatch}

/-- A mount group holds what its source holds. -/
def mountGroupProducer (p : Nat) (src : SourceProducer σ fnmatch) (hp : p ∉ src.owned) :
    SourceProducer σ fnmatch where
  ptr := p
  owned := insert p src.owned
  holds heap items := (∃ b, heap p = some (.mountGroup (some src.ptr) b)) ∧
    src.holds heap items
  frame heap heap' items hsame h := by
    rw [hsame p (Set.mem_insert ..)]
    exact ⟨h.1, src.frame heap heap' items
      (fun q hq => hsame q (Set.mem_insert_of_mem _ hq)) h.2⟩
  step heap items h := by
    obtain ⟨⟨b, hgroup⟩, hsrc⟩ := h
    obtain ⟨heap', hask, hrest, hsame⟩ := src.step heap items hsrc
    refine ⟨heap', asks_mountGroup hgroup hask, ⟨⟨b, ?_⟩, hrest⟩, ?_⟩
    · rw [hsame p hp, hgroup]
    · intro q hq
      exact hsame q fun hmem => hq (Set.mem_insert_of_mem _ hmem)

/-- A filter asks until an item passes. -/
theorem filter_step {p : Nat} {src : SourceProducer σ fnmatch} (hp : p ∉ src.owned) {b : Bool}
    {rules : List Rule} {heap : Heap (Source σ)} {raw : List (SourceItem σ)}
    (hfilter : heap p = some (.filter b (some src.ptr) rules)) (hsrc : src.holds heap raw) :
    ∃ heap' raw', Asks (getNextRecord fnmatch) heap p
        (raw.filter (allowed fnmatch rules)).head? heap' ∧
      src.holds heap' raw' ∧
      raw'.filter (allowed fnmatch rules) = (raw.filter (allowed fnmatch rules)).tail ∧
      ∀ q, q ∉ src.owned → heap' q = heap q := by
  induction raw generalizing heap with
  | nil =>
      obtain ⟨heap', hask, hrest, hsame⟩ := src.step heap [] hsrc
      exact ⟨heap', [], asks_filter_end hfilter hask, hrest, rfl, hsame⟩
  | cons item raw ih =>
      obtain ⟨heap', hask, hrest, hsame⟩ := src.step heap (item :: raw) hsrc
      cases hallowed : allowed fnmatch rules item with
      | true =>
          rw [List.filter_cons_of_pos hallowed]
          exact ⟨heap', raw, asks_filter_allowed hfilter hask hallowed, hrest, rfl, hsame⟩
      | false =>
          rw [List.filter_cons_of_neg (Bool.eq_false_iff.1 hallowed)]
          have hagain : heap' p = some (.filter b (some src.ptr) rules) := by
            rw [hsame p hp, hfilter]
          obtain ⟨heap'', raw', hmore, hend, htail, hsame'⟩ := ih hagain hrest
          refine ⟨heap'', raw', asks_filter_discarded hfilter hask hallowed hmore, hend,
            htail, ?_⟩
          intro q hq
          rw [hsame' q hq, hsame q hq]

/-- A filter holds what its source holds and its rules let through. -/
def filterProducer (p : Nat) (rules : List Rule) (src : SourceProducer σ fnmatch)
    (hp : p ∉ src.owned) : SourceProducer σ fnmatch where
  ptr := p
  owned := insert p src.owned
  holds heap items := (∃ b, heap p = some (.filter b (some src.ptr) rules)) ∧
    ∃ raw, src.holds heap raw ∧ items = raw.filter (allowed fnmatch rules)
  frame heap heap' items hsame h := by
    obtain ⟨hfilter, raw, hsrc, hitems⟩ := h
    rw [hsame p (Set.mem_insert ..)]
    exact ⟨hfilter, raw, src.frame heap heap' raw
      (fun q hq => hsame q (Set.mem_insert_of_mem _ hq)) hsrc, hitems⟩
  step heap items h := by
    obtain ⟨⟨b, hfilter⟩, raw, hsrc, rfl⟩ := h
    obtain ⟨heap', raw', hask, hrest, htail, hsame⟩ := filter_step hp hfilter hsrc
    refine ⟨heap', hask, ⟨⟨b, ?_⟩, raw', hrest, htail.symm⟩, ?_⟩
    · rw [hsame p hp, hfilter]
    · intro q hq
      exact hsame q fun hmem => hq (Set.mem_insert_of_mem _ hmem)

/-! ## Aggregates -/

/-- The entries an aggregate has yet to go through are some sources in order, possibly
the first of them twice. -/
def Entries (it : List Nat) (Ps : List (SourceProducer σ fnmatch)) : Prop :=
  it = Ps.map Producer.ptr ∨ it = (Ps.head?.map Producer.ptr).toList ++ Ps.map Producer.ptr

/-- What an aggregate at `p` holds of the sources from its `it` on. -/
def AggregateHolds (p : Nat) (Ps : List (SourceProducer σ fnmatch)) (heap : Heap (Source σ))
    (items : List (SourceItem σ)) : Prop :=
  (∃ list it, heap p = some (.aggregate list it) ∧ Entries it Ps) ∧ AllHold Ps heap items

/-- An aggregate goes on to the next source until one has an item. -/
theorem aggregate_step {p : Nat} {Ps : List (SourceProducer σ fnmatch)} (hsep : Separate Ps)
    (hp : p ∉ ownedBy Ps) {list : List Nat} {heap : Heap (Source σ)}
    {items : List (SourceItem σ)}
    (hagg : heap p = some (.aggregate list (Ps.map Producer.ptr)))
    (hhold : AllHold Ps heap items) :
    ∃ heap' Qs, Asks (getNextRecord fnmatch) heap p items.head? heap' ∧ Qs <:+ Ps ∧
      AggregateHolds p Qs heap' items.tail ∧
      ∀ q, q ≠ p → q ∉ ownedBy Ps → heap' q = heap q := by
  induction Ps generalizing heap items with
  | nil =>
      obtain rfl := hhold
      exact ⟨heap, [], asks_aggregate_nil hagg, List.suffix_refl _,
        ⟨⟨list, [], hagg, Or.inl rfl⟩, rfl⟩, fun q _ _ => rfl⟩
  | cons P Ps ih =>
      obtain ⟨front, back, rfl, hfront, hback⟩ := hhold
      obtain ⟨heap₁, hask, hrest, hsame⟩ := P.step heap front hfront
      have hpP : p ∉ P.owned := fun hmem => hp ⟨P, List.mem_cons_self .., hmem⟩
      have hback₁ : AllHold Ps heap₁ back := hback.frame (hsep.head_frame hsame)
      have hagg₁ : heap₁ p = some (.aggregate list (P.ptr :: Ps.map Producer.ptr)) := by
        rw [hsame p hpP, hagg]
        rfl
      cases front with
      | cons item front =>
          refine ⟨heap₁, P :: Ps, asks_aggregate_item hagg hask, List.suffix_refl _,
            ⟨⟨list, _, hagg₁, Or.inl rfl⟩, front, back, rfl, hrest, hback₁⟩, ?_⟩
          intro q _ hq
          exact hsame q fun hmem => hq ⟨P, List.mem_cons_self .., hmem⟩
      | nil =>
          -- the source has ended, its entry is passed over
          have hsep' : Separate Ps := (List.pairwise_cons.1 hsep).2
          have hp' : p ∉ ownedBy Ps := fun hmem => by
            obtain ⟨Q, hQ, hown⟩ := hmem
            exact hp ⟨Q, List.mem_cons_of_mem _ hQ, hown⟩
          have hback₂ : AllHold Ps (advance heap₁ p) back := by
            rw [advance_eq hagg₁]
            apply hback₁.frame
            intro q hq
            exact Function.update_of_ne (ne_of_mem_of_not_mem hq hp') ..
          have hagg₂ : advance heap₁ p p = some (.aggregate list (Ps.map Producer.ptr)) := by
            rw [advance_eq hagg₁, Function.update_self]
          obtain ⟨heap₂, Qs, hmore, hsuffix, hend, hsame₂⟩ := ih hsep' hp' hagg₂ hback₂
          refine ⟨heap₂, Qs, asks_aggregate_next hagg hask hmore,
            hsuffix.trans (List.suffix_cons P Ps), hend, ?_⟩
          intro q hqp hq
          have hqP : q ∉ P.owned := fun hmem => hq ⟨P, List.mem_cons_self .., hmem⟩
          have hqPs : q ∉ ownedBy Ps := fun hmem => by
            obtain ⟨Q, hQ, hown⟩ := hmem
            exact hq ⟨Q, List.mem_cons_of_mem _ hQ, hown⟩
          rw [hsame₂ q hqp hqPs, advance_eq hagg₁, Function.update_of_ne hqp, hsame q hqP]

/-- A source that is entered twice is asked again after its end, and has nothing more. -/
theorem entries_step {p : Nat} {Ps : List (SourceProducer σ fnmatch)} (hsep : Separate Ps)
    (hp : p ∉ ownedBy Ps) {heap : Heap (Source σ)} {items : List (SourceItem σ)}
    (h : AggregateHolds p Ps heap items) :
    ∃ heap' Qs, Asks (getNextRecord fnmatch) heap p items.head? heap' ∧ Qs <:+ Ps ∧
      AggregateHolds p Qs heap' items.tail ∧
      ∀ q, q ≠ p → q ∉ ownedBy Ps → heap' q = heap q := by
  obtain ⟨⟨list, it, hagg, hit⟩, hhold⟩ := h
  rcases hit with rfl | rfl
  · exact aggregate_step hsep hp hagg hhold
  cases Ps with
  | nil => exact aggregate_step hsep hp hagg hhold
  | cons P Ps =>
      obtain ⟨front, back, rfl, hfront, hback⟩ := hhold
      obtain ⟨heap₁, hask, hrest, hsame⟩ := P.step heap front hfront
      have hpP : p ∉ P.owned := fun hmem => hp ⟨P, List.mem_cons_self .., hmem⟩
      have hback₁ : AllHold Ps heap₁ back := hback.frame (hsep.head_frame hsame)
      have hagg₁ : heap₁ p =
          some (.aggregate list (P.ptr :: (P :: Ps).map Producer.ptr)) := by
        rw [hsame p hpP, hagg]
        rfl
      cases front with
      | cons item front =>
          refine ⟨heap₁, P :: Ps, asks_aggregate_item hagg hask, List.suffix_refl _,
            ⟨⟨list, _, hagg₁, Or.inr rfl⟩, front, back, rfl, hrest, hback₁⟩, ?_⟩
          intro q _ hq
          exact hsame q fun hmem => hq ⟨P, List.mem_cons_self .., hmem⟩
      | nil =>
          have hhold₂ : AllHold (P :: Ps) (advance heap₁ p) back := by
            have hall : AllHold (P :: Ps) heap₁ back := ⟨[], back, rfl, hrest, hback₁⟩
            rw [advance_eq hagg₁]
            apply hall.frame
            intro q hq
            exact Function.update_of_ne (ne_of_mem_of_not_mem hq hp) ..
          have hagg₂ : advance heap₁ p p =
              some (.aggregate list ((P :: Ps).map Producer.ptr)) := by
            rw [advance_eq hagg₁, Function.update_self]
          obtain ⟨heap₂, Qs, hmore, hsuffix, hend, hsame₂⟩ :=
            aggregate_step hsep hp hagg₂ hhold₂
          refine ⟨heap₂, Qs, asks_aggregate_next hagg hask hmore, hsuffix, hend, ?_⟩
          intro q hqp hq
          have hqP : q ∉ P.owned := fun hmem => hq ⟨P, List.mem_cons_self .., hmem⟩
          rw [hsame₂ q hqp hq, advance_eq hagg₁, Function.update_of_ne hqp, hsame q hqP]

/-- An aggregate holds what its sources hold, one after the other. -/
def aggregateProducer (p : Nat) (Ps : List (SourceProducer σ fnmatch)) (hsep : Separate Ps)
    (hp : p ∉ ownedBy Ps) : SourceProducer σ fnmatch where
  ptr := p
  owned := insert p (ownedBy Ps)
  holds heap items := ∃ Qs, Qs <:+ Ps ∧ AggregateHolds p Qs heap items
  frame heap heap' items hsame h := by
    obtain ⟨Qs, hsuffix, hagg, hhold⟩ := h
    refine ⟨Qs, hsuffix, ?_, hhold.frame ?_⟩
    · rwa [hsame p (Set.mem_insert ..)]
    · intro q hq
      obtain ⟨Q, hQ, hown⟩ := hq
      exact hsame q (Set.mem_insert_of_mem _ ⟨Q, hsuffix.subset hQ, hown⟩)
  step heap items h := by
    obtain ⟨Qs, hsuffix, hagg⟩ := h
    have hsub : ownedBy Qs ⊆ ownedBy Ps := by
      intro q hq
      obtain ⟨Q, hQ, hown⟩ := hq
      exact ⟨Q, hsuffix.subset hQ, hown⟩
    have hsepQs : Separate Qs := List.Pairwise.sublist hsuffix.sublist hsep
    obtain ⟨heap', Rs, hask, hsuffix', hend, hsame⟩ :=
      entries_step hsepQs (fun hmem => hp (hsub hmem)) hagg
    refine ⟨heap', hask, ⟨Rs, hsuffix'.trans hsuffix, hend⟩, ?_⟩
    intro q hq
    exact hsame q (fun heq => hq (heq ▸ Set.mem_insert ..))
      fun hmem => hq (Set.mem_insert_of_mem _ (hsub hmem))

end Producers

end ImageTool.Imgtool
