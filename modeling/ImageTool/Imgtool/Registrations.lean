import ImageTool.Imgtool.CommitOrder

/-!
# Registrations and what is stacked on what

A configuration registers each object once, on a parent it has registered before.  A
partition that serves as a volume has two nodes that no edge connects; that it is
nevertheless committed in its turn rests on the order of the list, which has the
newest nodes in front.
-/

namespace ImageTool.Imgtool.DepTracker

open ImageTool.Lib

/-- The object is registered. -/
def Registered (rs : List Registration) (obj : Nat) : Prop := ∃ r ∈ rs, r.child.obj = obj

/-- A node the parent of a registration may have been registered as: a partition also
serves as a volume. -/
def ServesAs (child parent : NodeKey) : Prop :=
  child.obj = parent.obj ∧
    (child.type = parent.type ∨ parent.type = .volume ∧ child.type = .partition)

/-- Registrations, the last one first, as the configuration parser makes them. -/
def Disciplined : List Registration → Prop
  | [] => True
  | r :: rs => Disciplined rs ∧ ¬ Registered rs r.child.obj ∧
      ∀ p, r.parent = some p → ∃ r' ∈ rs, ServesAs r'.child p

/-- One object has been registered directly on another one. -/
def StackedOn (rs : List Registration) (x o : Nat) : Prop :=
  ∃ r ∈ rs, r.child.obj = x ∧ r.parent.map NodeKey.obj = some o

/-- One object depends on another one over any number of steps. -/
def Stacked (rs : List Registration) : Nat → Nat → Prop := Relation.TransGen (StackedOn rs)

/-! ## Arbitrary registrations -/

section Arbitrary

variable {dep : DepTracker} {key : NodeKey}

theorem keys_getByPtr (dep : DepTracker) (key : NodeKey) :
    (dep.getByPtr key).keys = if key ∈ dep.keys then dep.keys else key :: dep.keys := by
  unfold getByPtr
  split <;> rfl

theorem Linked.getByPtr (h : Linked dep) (key : NodeKey) : Linked (dep.getByPtr key) := by
  have hkeys := keys_getByPtr dep key
  have hedges : (dep.getByPtr key).edges = dep.edges := by
    unfold DepTracker.getByPtr
    split <;> rfl
  constructor
  · rw [hkeys]
    split
    · exact h.nodup
    · rename_i hnew
      exact List.nodup_cons.2 ⟨hnew, h.nodup⟩
  · intro e he
    rw [hedges] at he
    rw [hkeys]
    obtain ⟨hn, hd⟩ := h.edges e he
    split
    · exact ⟨hn, hd⟩
    · exact ⟨List.mem_cons_of_mem _ hn, List.mem_cons_of_mem _ hd⟩

theorem mem_getByPtr (dep : DepTracker) (key : NodeKey) : key ∈ (dep.getByPtr key).keys := by
  rw [keys_getByPtr]
  split
  · assumption
  · exact List.mem_cons_self ..

theorem mem_getByPtr_of_mem {k : NodeKey} (h : k ∈ dep.keys) : k ∈ (dep.getByPtr key).keys := by
  rw [keys_getByPtr]
  split
  · exact h
  · exact List.mem_cons_of_mem _ h

theorem Linked.findEdge (h : Linked dep) {node dependsOn : NodeKey} (hnode : node ∈ dep.keys)
    (hdep : dependsOn ∈ dep.keys) : Linked (dep.findEdge node dependsOn) := by
  unfold DepTracker.findEdge
  split
  · exact h
  · refine ⟨h.nodup, ?_⟩
    intro e he
    rcases List.mem_cons.1 he with rfl | he
    · exact ⟨hnode, hdep⟩
    · exact h.edges e he

theorem registered_linked (rs : List Registration) : Linked (registered rs) := by
  induction rs with
  | nil => exact ⟨List.nodup_nil, fun e he => absurd he (List.not_mem_nil)⟩
  | cons r rs ih =>
      unfold registered register addDependency
      cases r.parent with
      | none => exact ih.getByPtr _
      | some p =>
          exact ((ih.getByPtr r.child).getByPtr p).findEdge
            (mem_getByPtr_of_mem (mem_getByPtr _ _)) (mem_getByPtr _ _)

end Arbitrary

/-- What one registration adds. -/
structure Adds (dep : DepTracker) (r : Registration) (front : List NodeKey) : Prop where
  keys : (dep.register r).keys = front ++ dep.keys
  front : ∀ k ∈ front, k = r.child ∨ r.parent = some k
  child : r.child ∈ (dep.register r).keys
  edges : ∀ e, e ∈ (dep.register r).edges ↔
    e ∈ dep.edges ∨ e.node = r.child ∧ r.parent = some e.dependsOn

theorem getByPtr_adds (dep : DepTracker) (key : NodeKey) :
    ∃ front, (dep.getByPtr key).keys = front ++ dep.keys ∧ ∀ k ∈ front, k = key := by
  rw [keys_getByPtr]
  split
  · exact ⟨[], rfl, fun k hk => absurd hk List.not_mem_nil⟩
  · exact ⟨[key], rfl, fun k hk => List.mem_singleton.1 hk⟩

theorem edges_getByPtr (dep : DepTracker) (key : NodeKey) :
    (dep.getByPtr key).edges = dep.edges := by
  unfold getByPtr
  split <;> rfl

theorem keys_findEdge (dep : DepTracker) (node dependsOn : NodeKey) :
    (dep.findEdge node dependsOn).keys = dep.keys := by
  unfold findEdge
  split <;> rfl

theorem mem_findEdge (dep : DepTracker) (node dependsOn : NodeKey) (e : DepEdge) :
    e ∈ (dep.findEdge node dependsOn).edges ↔ e ∈ dep.edges ∨ e = ⟨node, dependsOn⟩ := by
  unfold findEdge
  split
  · rename_i hmem
    constructor
    · exact Or.inl
    · rintro (he | rfl)
      · exact he
      · exact hmem
  · rw [List.mem_cons, or_comm]

theorem exists_adds (dep : DepTracker) (r : Registration) : ∃ front, Adds dep r front := by
  obtain ⟨front, hkeys, hfront⟩ := getByPtr_adds dep r.child
  cases hp : r.parent with
  | none =>
      have hreg : dep.register r = dep.getByPtr r.child := by
        unfold register addDependency
        rw [hp]
      refine ⟨front, by rw [hreg, hkeys], fun k hk => Or.inl (hfront k hk), ?_, ?_⟩
      · rw [hreg]
        exact mem_getByPtr _ _
      · intro e
        rw [hreg, edges_getByPtr, hp]
        simp
  | some p =>
      obtain ⟨front', hkeys', hfront'⟩ := getByPtr_adds (dep.getByPtr r.child) p
      have hreg : dep.register r =
          ((dep.getByPtr r.child).getByPtr p).findEdge r.child p := by
        unfold register addDependency
        rw [hp]
      refine ⟨front' ++ front, ?_, ?_, ?_, ?_⟩
      · rw [hreg, keys_findEdge, hkeys', hkeys, List.append_assoc]
      · intro k hk
        rcases List.mem_append.1 hk with hk | hk
        · exact Or.inr (by rw [hp, hfront' k hk])
        · exact Or.inl (hfront k hk)
      · rw [hreg, keys_findEdge]
        exact mem_getByPtr_of_mem (mem_getByPtr _ _)
      · intro e
        rw [hreg, mem_findEdge, edges_getByPtr, edges_getByPtr, hp]
        refine or_congr_right ⟨?_, ?_⟩
        · rintro rfl
          exact ⟨rfl, rfl⟩
        · rintro ⟨hnode, hdep⟩
          cases e
          cases hdep
          cases hnode
          rfl

theorem child_mem_keys {rs : List Registration} {r : Registration} (hr : r ∈ rs) :
    r.child ∈ (registered rs).keys := by
  induction rs with
  | nil => cases hr
  | cons r' rs ih =>
      obtain ⟨front, hadds⟩ := exists_adds (registered rs) r'
      rcases List.mem_cons.1 hr with rfl | hr
      · exact hadds.child
      · unfold registered
        rw [hadds.keys]
        exact List.mem_append_right _ (ih hr)

theorem mem_edges_registered {rs : List Registration} {e : DepEdge} :
    e ∈ (registered rs).edges ↔ ∃ r ∈ rs, e.node = r.child ∧ r.parent = some e.dependsOn := by
  induction rs with
  | nil => exact ⟨fun he => absurd he List.not_mem_nil,
      fun ⟨r, hr, _⟩ => absurd hr List.not_mem_nil⟩
  | cons r rs ih =>
      obtain ⟨front, hadds⟩ := exists_adds (registered rs) r
      unfold registered
      rw [hadds.edges, ih, or_comm]
      constructor
      · rintro (hnew | ⟨r', hr', hold⟩)
        · exact ⟨r, List.mem_cons_self .., hnew⟩
        · exact ⟨r', List.mem_cons_of_mem _ hr', hold⟩
      · rintro ⟨r', hr', hedge⟩
        rcases List.mem_cons.1 hr' with rfl | hr'
        · exact Or.inl hedge
        · exact Or.inr ⟨r', hr', hedge⟩

/-! ## Registrations of the parser -/

section Parser

variable {r : Registration} {rs base newer : List Registration}

/-- The nodes an object has. -/
theorem mem_keys_registered {k : NodeKey} (h : Disciplined rs)
    (hk : k ∈ (registered rs).keys) : ∃ r ∈ rs, ServesAs r.child k := by
  induction rs generalizing k with
  | nil => cases hk
  | cons r rs ih =>
      obtain ⟨hrest, _, hparent⟩ := h
      obtain ⟨front, hadds⟩ := exists_adds (registered rs) r
      unfold registered at hk
      rw [hadds.keys] at hk
      rcases List.mem_append.1 hk with hk | hk
      · rcases hadds.front k hk with rfl | hp
        · exact ⟨r, List.mem_cons_self .., rfl, Or.inl rfl⟩
        · obtain ⟨r', hr', hserves⟩ := hparent k hp
          exact ⟨r', List.mem_cons_of_mem _ hr', hserves⟩
      · obtain ⟨r', hr', hserves⟩ := ih hrest hk
        exact ⟨r', List.mem_cons_of_mem _ hr', hserves⟩

/-- Registrations of one object are one registration. -/
theorem Disciplined.eq_of_obj (h : Disciplined rs) {r r' : Registration} (hr : r ∈ rs)
    (hr' : r' ∈ rs) (hobj : r.child.obj = r'.child.obj) : r = r' := by
  induction rs with
  | nil => cases hr
  | cons s rs ih =>
      obtain ⟨hrest, hnew, _⟩ := h
      rcases List.mem_cons.1 hr with rfl | hold
      · rcases List.mem_cons.1 hr' with rfl | hold'
        · rfl
        · exact absurd ⟨r', hold', hobj.symm⟩ hnew
      · rcases List.mem_cons.1 hr' with rfl | hold'
        · exact absurd ⟨r, hold, hobj⟩ hnew
        · exact ih hrest hold hold'

theorem Disciplined.of_append (h : Disciplined (newer ++ base)) : Disciplined base := by
  induction newer with
  | nil => exact h
  | cons r newer ih => exact ih h.1

/-- The nodes newer registrations have put in front of older ones. -/
theorem exists_front (h : Disciplined (newer ++ base)) :
    ∃ front, (registered (newer ++ base)).keys = front ++ (registered base).keys ∧
      ∀ r ∈ newer, r.child ∈ front := by
  induction newer with
  | nil => exact ⟨[], rfl, fun r hr => absurd hr List.not_mem_nil⟩
  | cons r newer ih =>
      obtain ⟨hrest, hnew, _⟩ := h
      obtain ⟨front, hkeys, hchild⟩ := ih hrest
      obtain ⟨front', hadds⟩ := exists_adds (registered (newer ++ base)) r
      refine ⟨front' ++ front, ?_, ?_⟩
      · rw [List.append_assoc, ← hkeys]
        exact hadds.keys
      · intro r' hr'
        rcases List.mem_cons.1 hr' with rfl | hr'
        · have hmem := hadds.child
          rw [hadds.keys] at hmem
          apply List.mem_append_left
          rcases List.mem_append.1 hmem with hmem | hmem
          · exact hmem
          · obtain ⟨s, hs, hserves⟩ := mem_keys_registered hrest hmem
            exact absurd ⟨s, hs, hserves.1⟩ hnew
        · exact List.mem_append_right _ (hchild r' hr')

/-- The place of an object among the registrations. -/
def rank : List Registration → Nat → Nat
  | [], _ => 0
  | r :: rs, obj => if r.child.obj = obj then rs.length + 1 else rank rs obj

theorem rank_le (rs : List Registration) (obj : Nat) : rank rs obj ≤ rs.length := by
  induction rs with
  | nil => exact Nat.le_refl 0
  | cons r rs ih =>
      unfold rank
      split
      · exact Nat.le_refl _
      · exact Nat.le_succ_of_le ih

theorem Disciplined.exists_parent (h : Disciplined rs) (hr : r ∈ rs) {p : NodeKey}
    (hp : r.parent = some p) : ∃ r' ∈ rs, ServesAs r'.child p := by
  induction rs with
  | nil => cases hr
  | cons s rs ih =>
      have hfound : ∃ r' ∈ rs, ServesAs r'.child p := by
        rcases List.mem_cons.1 hr with rfl | hr
        · exact h.2.2 p hp
        · exact ih h.1 hr
      obtain ⟨r', hr', hserves⟩ := hfound
      exact ⟨r', List.mem_cons_of_mem _ hr', hserves⟩

/-- Parents are registered before what is stacked on them. -/
theorem rank_lt (h : Disciplined rs) (hr : r ∈ rs) {p : NodeKey} (hp : r.parent = some p) :
    rank rs p.obj < rank rs r.child.obj := by
  induction rs with
  | nil => cases hr
  | cons s rs ih =>
      obtain ⟨hrest, hnew, hparent⟩ := h
      unfold rank
      rcases List.mem_cons.1 hr with rfl | hr
      · obtain ⟨r', hr', hserves⟩ := hparent p hp
        have hne : r.child.obj ≠ p.obj := by
          intro heq
          exact hnew ⟨r', hr', hserves.1.trans heq.symm⟩
        rw [if_pos rfl, if_neg hne]
        exact Nat.lt_succ_of_le (rank_le rs p.obj)
      · obtain ⟨r', hr', hserves⟩ := hrest.exists_parent hr hp
        have hnep : s.child.obj ≠ p.obj := by
          intro heq
          exact hnew ⟨r', hr', hserves.1.trans heq.symm⟩
        have hnec : s.child.obj ≠ r.child.obj := by
          intro heq
          exact hnew ⟨r, hr, heq.symm⟩
        rw [if_neg hnep, if_neg hnec]
        exact ih hrest hr

theorem below_rank_lt (h : Disciplined rs) (c p : NodeKey)
    (hedge : Below (registered rs).edges c p) : rank rs p.obj < rank rs c.obj := by
  obtain ⟨r, hr, hc, hp⟩ := mem_edges_registered.1 hedge
  change c = r.child at hc
  subst hc
  exact rank_lt h hr hp

/-! ## The order of nodes -/

variable {out left : List NodeKey}

/-- A newer registration leaves the list before everything that was there. -/
theorem idxOf_lt_of_newer (h : Disciplined (newer ++ base))
    (helim : Elim (Below (registered (newer ++ base)).edges)
      (registered (newer ++ base)).keys out left) {a b : NodeKey}
    (ha : a ∈ (registered (newer ++ base)).keys) (hnew : a ∉ (registered base).keys)
    (hb : b ∈ (registered base).keys) (hout : b ∈ out) : out.idxOf a < out.idxOf b := by
  obtain ⟨front, hkeys, hchild⟩ := exists_front h
  have hnodup := (registered_linked (newer ++ base)).nodup
  have hdisj : ∀ k ∈ front, k ∉ (registered base).keys := by
    rw [hkeys] at hnodup
    exact fun k hk hk' => List.disjoint_of_nodup_append hnodup hk hk'
  apply helim.front (fun k => rank (newer ++ base) k.obj) (below_rank_lt h) hkeys hnodup
    ?_ ?_ hb hout
  · intro c p hedge hp _
    obtain ⟨r, hr, hc, hparent⟩ := mem_edges_registered.1 hedge
    change c = r.child at hc
    subst hc
    rcases List.mem_append.1 hr with hr | hr
    · exact hchild r hr
    · -- an old edge leads to an old node
      have hold := mem_edges_registered.2 ⟨r, hr, rfl, hparent⟩
      exact absurd ((registered_linked base).edges _ hold).2 (hdisj p hp)
  · rw [hkeys] at ha
    exact (List.mem_append.1 ha).resolve_right hnew

/-- A node of an object is the one it was registered with, or that of a partition which
serves as a volume. -/
theorem eq_child_or_volume (h : Disciplined rs) (hr : r ∈ rs) {k : NodeKey}
    (hk : k ∈ (registered rs).keys) (hobj : k.obj = r.child.obj) :
    k = r.child ∨ k.type = .volume ∧ r.child.type = .partition := by
  obtain ⟨r', hr', hserves, htype⟩ := mem_keys_registered h hk
  have heq := h.eq_of_obj hr' hr (hserves.trans hobj)
  subst heq
  refine htype.imp_left fun htype => ?_
  cases k
  cases hc : r'.child
  rw [hc] at htype hobj
  cases htype
  cases hobj
  rfl

theorem parent_type_ne_partition {p : NodeKey} (hp : r.parent = some p) :
    p.type ≠ .partition := by
  cases r with
  | addVolume volume parent =>
      obtain ⟨v, _, rfl⟩ := Option.map_eq_some_iff.1 hp
      exact NodeType.noConfusion
  | addPartition partition parent => cases hp; exact NodeType.noConfusion
  | addPartitionMgr mgr parent => cases hp; exact NodeType.noConfusion
  | addVolumeFile volume parent => cases hp; exact NodeType.noConfusion
  | addFs fs parent => cases hp; exact NodeType.noConfusion

/-- A partition leaves after everything that was registered later. -/
theorem idxOf_lt_partition (h : Disciplined rs)
    (helim : Elim (Below (registered rs).edges) (registered rs).keys out left)
    {s : Registration} (hs : s ∈ rs) {a : NodeKey} (ha : a ∈ (registered rs).keys)
    (hnew : ∀ newer older, rs = newer ++ s :: older → a ∉ (registered (s :: older)).keys)
    (hout : s.child ∈ out) : out.idxOf a < out.idxOf s.child := by
  obtain ⟨newer, older, hsplit⟩ := List.append_of_mem hs
  have hold := hnew newer older hsplit
  subst hsplit
  exact idxOf_lt_of_newer h helim ha hold (child_mem_keys (List.mem_cons_self ..)) hout

/-- The nodes of an object leave behind all nodes of what is stacked directly on it. -/
theorem idxOf_lt_of_stackedOn (h : Disciplined rs)
    (helim : Elim (Below (registered rs).edges) (registered rs).keys out left)
    {x o : Nat} (hstacked : StackedOn rs x o) {kx ko : NodeKey}
    (hkx : kx ∈ (registered rs).keys) (hx : kx.obj = x) (ho : ko.obj = o) (hout : ko ∈ out) :
    out.idxOf kx < out.idxOf ko := by
  obtain ⟨r, hr, hrx, hro⟩ := hstacked
  obtain ⟨p, hp, hpo⟩ := Option.map_eq_some_iff.1 hro
  have hko := helim.mem_of_mem hout
  have hedge := mem_edges_registered.2 ⟨r, hr, (rfl : DepEdge.node ⟨r.child, p⟩ = r.child), hp⟩
  have hpkey : p ∈ (registered rs).keys := ((registered_linked rs).edges _ hedge).2
  -- the node the object was registered with
  have hchild : out.idxOf r.child < out.idxOf ko := by
    by_cases heq : ko = p
    · subst heq
      exact helim.lt_of_edge hedge (child_mem_keys hr) hout
    · obtain ⟨s, hs, hserves⟩ := h.exists_parent hr hp
      have hpart : ko = s.child := by
        have hobj : ko.obj = s.child.obj := ho.trans (hpo.symm.trans hserves.1.symm)
        refine (eq_child_or_volume h hs hko hobj).resolve_right ?_
        rintro ⟨hvol, htype⟩
        rcases eq_child_or_volume h hs hpkey hserves.1.symm with hp' | ⟨hp', _⟩
        · exact parent_type_ne_partition hp (hp' ▸ htype)
        · apply heq
          cases ko
          cases p
          cases ho.trans hpo.symm
          cases hvol.trans hp'.symm
          rfl
      rw [hpart]
      refine idxOf_lt_partition h helim hs (child_mem_keys hr) ?_ (hpart ▸ hout)
      intro newer older hsplit hmem
      subst hsplit
      obtain ⟨r', hr', hserves'⟩ := mem_keys_registered h.of_append hmem
      have hrr : r' = r := h.eq_of_obj (List.mem_append_right _ hr') hr hserves'.1
      subst hrr
      have hbefore := rank_lt h.of_append hr' hp
      unfold rank at hbefore
      rw [if_pos hserves.1] at hbefore
      have hle := rank_le older r'.child.obj
      split at hbefore <;> omega
  by_cases hkeq : kx = r.child
  · rw [hkeq]
    exact hchild
  · have hrout : r.child ∈ out := by
      have hle := List.idxOf_le_length (l := out) (a := ko)
      exact List.idxOf_lt_length_iff.1 (by omega)
    obtain ⟨hvol, hpart⟩ :=
      (eq_child_or_volume h hr hkx (hx.trans hrx.symm)).resolve_left hkeq
    refine Nat.lt_trans (idxOf_lt_partition h helim hr hkx ?_ hrout) hchild
    intro newer older hsplit hmem
    subst hsplit
    have hold : Disciplined (r :: older) := h.of_append
    obtain ⟨front, hadds⟩ := exists_adds (registered older) r
    unfold registered at hmem
    rw [hadds.keys] at hmem
    rcases List.mem_append.1 hmem with hmem | hmem
    · rcases hadds.front kx hmem with heq | hpar
      · exact hkeq heq
      · have hlt := rank_lt hold (List.mem_cons_self ..) hpar
        rw [hx.trans hrx.symm] at hlt
        exact Nat.lt_irrefl _ hlt
    · obtain ⟨r', hr', hserves⟩ := mem_keys_registered hold.1 hmem
      exact hold.2.1 ⟨r', hr', hserves.1.trans (hx.trans hrx.symm)⟩

/-- The same over any number of steps. -/
theorem idxOf_lt_of_stacked (h : Disciplined rs)
    (helim : Elim (Below (registered rs).edges) (registered rs).keys out left)
    {x o : Nat} (hstacked : Stacked rs x o) {kx ko : NodeKey}
    (hkx : kx ∈ (registered rs).keys) (hx : kx.obj = x) (ho : ko.obj = o) (hout : ko ∈ out) :
    out.idxOf kx < out.idxOf ko := by
  induction hstacked generalizing ko with
  | single hone => exact idxOf_lt_of_stackedOn h helim hone hkx hx ho hout
  | tail _ hone ih =>
      have hlink := hone
      obtain ⟨r, hr, hry, _⟩ := hlink
      have hlast := idxOf_lt_of_stackedOn h helim hone (child_mem_keys hr) hry ho hout
      have hle := List.idxOf_le_length (l := out) (a := ko)
      exact Nat.lt_trans (ih hry (List.idxOf_lt_length_iff.1 (by omega))) hlast

end Parser

end ImageTool.Imgtool.DepTracker
