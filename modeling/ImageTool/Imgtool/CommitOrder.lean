import ImageTool.Imgtool.DepTracker

/-!
# The order of commits

The main loop of the tracker is a run of the elimination of `Lib.Elimination` on its
list of nodes, where a node waits for those stacked on it.
-/

namespace ImageTool.Imgtool.DepTracker

open ImageTool.Lib

/-- Node `c` depends on node `p`, so `p` has to wait for `c`. -/
def Below (edges : List DepEdge) (c p : NodeKey) : Prop := ⟨c, p⟩ ∈ edges

/-! ## Counts -/

section Counts

variable {key : NodeKey} {edges : List DepEdge} {nodes : List DepNode}

/-- The number of edges that lead to a node. -/
def edgesTo (edges : List DepEdge) (key : NodeKey) : Nat :=
  edges.countP fun e => e.dependsOn = key

theorem foldl_addCount :
    edges.foldl (fun nodes e => addCount e.dependsOn nodes) nodes =
      nodes.map fun n => { n with depCount := n.depCount + edgesTo edges n.key } := by
  induction edges generalizing nodes with
  | nil => exact (List.map_id _).symm
  | cons e es ih =>
      rw [List.foldl_cons, ih, addCount, List.map_map]
      apply List.map_congr_left
      intro n _
      rw [Function.comp_apply, edgesTo, edgesTo, List.countP_cons]
      by_cases h : n.key = e.dependsOn
      · rw [if_pos h, if_pos (decide_eq_true h.symm)]
        rw [Nat.add_assoc, Nat.add_comm 1]
      · rw [if_neg h, if_neg (by rw [decide_eq_true_iff]; exact fun h' => h h'.symm),
          Nat.add_zero]

theorem removeEdges_eq :
    removeEdges key edges nodes = (edges.filter fun e => e.node ≠ key, nodes.map fun n =>
      { n with depCount :=
          n.depCount - edgesTo (edges.filter fun e => e.node = key) n.key }) := by
  induction edges generalizing nodes with
  | nil => exact Prod.ext rfl (List.map_id _).symm
  | cons e es ih =>
      unfold removeEdges
      by_cases h : e.node = key
      · rw [if_pos h, ih, List.filter_cons_of_neg (by simpa using h),
          List.filter_cons_of_pos (by simpa using h), dropCount, List.map_map]
        refine Prod.ext rfl (List.map_congr_left fun n _ => ?_)
        rw [Function.comp_apply, edgesTo, edgesTo, List.countP_cons]
        by_cases h' : n.key = e.dependsOn
        · rw [if_pos h', if_pos (decide_eq_true h'.symm)]
          simp only [DepNode.mk.injEq, true_and]
          omega
        · rw [if_neg h', if_neg (by rw [decide_eq_true_iff]; exact fun h => h' h.symm),
            Nat.add_zero]
      · rw [if_neg h, ih, List.filter_cons_of_pos (by simpa using h),
          List.filter_cons_of_neg (by simpa using h)]

theorem edgesTo_pos : 0 < edgesTo edges key ↔ ∃ c, Below edges c key := by
  unfold edgesTo Below
  rw [List.countP_pos_iff]
  constructor
  · rintro ⟨⟨c, p⟩, he, hp⟩
    cases of_decide_eq_true hp
    exact ⟨c, he⟩
  · rintro ⟨c, he⟩
    exact ⟨_, he, decide_eq_true rfl⟩

end Counts

/-! ## The main loop -/

/-- The tracker while nodes are taken off: `edges` are those it started with, `rem`
is left of its nodes. -/
structure Counted (edges : List DepEdge) (rem : List NodeKey) (dep : DepTracker) : Prop where
  keys : dep.keys = rem
  nodup : rem.Nodup
  edges : dep.edges = edges.filter fun e => e.node ∈ rem
  counts : ∀ n ∈ dep.nodes, n.depCount = edgesTo dep.edges n.key

section Loop

variable {edges : List DepEdge} {rem pre post : List NodeKey} {dep : DepTracker}
variable {key : NodeKey}

theorem Counted.zero_iff (h : Counted edges rem dep) {n : DepNode} (hn : n ∈ dep.nodes) :
    n.depCount = 0 ↔ ¬ Waits (Below edges) rem n.key := by
  have hpos : 0 < edgesTo dep.edges n.key ↔ ∃ c, Below dep.edges c n.key := edgesTo_pos
  rw [h.counts n hn]
  have hwait : (∃ c, Below dep.edges c n.key) ↔ Waits (Below edges) rem n.key := by
    unfold Below Waits
    rw [h.edges]
    constructor
    · rintro ⟨c, hc⟩
      obtain ⟨hmem, hrem⟩ := List.mem_filter.1 hc
      exact ⟨c, of_decide_eq_true hrem, hmem⟩
    · rintro ⟨c, hc, hmem⟩
      exact ⟨c, List.mem_filter.2 ⟨hmem, decide_eq_true hc⟩⟩
  rw [← hwait, ← hpos]
  omega

theorem edgesTo_filter (edges : List DepEdge) (node key : NodeKey) :
    edgesTo edges key = edgesTo (edges.filter fun e => e.node = node) key +
      edgesTo (edges.filter fun e => e.node ≠ node) key := by
  unfold edgesTo
  rw [List.countP_eq_countP_filter_add _ _ fun e => decide (e.node = node)]
  simp only [ne_eq, decide_not]

theorem Counted.removeNode (h : Counted edges (pre ++ key :: post) dep) :
    Counted edges (pre ++ post) (dep.removeNode key) := by
  obtain ⟨npre, nrest, hnodes, hpre, hrest⟩ := List.map_eq_append_iff.1 h.keys
  obtain ⟨nit, npost, hcons, hkey, hpost⟩ := List.map_eq_cons_iff.1 hrest
  obtain ⟨hnew, hnodup⟩ := List.nodup_cons.1 (List.nodup_middle.1 h.nodup)
  have hedges : (dep.edges.filter fun e => e.node ≠ key) =
      edges.filter fun e => e.node ∈ pre ++ post := by
    rw [h.edges, List.filter_filter]
    apply List.filter_congr
    intro e _
    rw [← Bool.decide_and, decide_eq_decide, List.mem_append, List.mem_cons, List.mem_append]
    constructor
    · rintro ⟨hne, hmem⟩
      exact hmem.imp_right fun h => h.resolve_left hne
    · intro hmem
      refine ⟨?_, hmem.imp_right Or.inr⟩
      rintro rfl
      exact hnew (List.mem_append.2 hmem)
  -- the nodes that are left, with their counts
  have hleft : (dep.removeNode key).nodes = (npre ++ npost).map fun n =>
      { n with depCount :=
          n.depCount - edgesTo (dep.edges.filter fun e => e.node = key) n.key } := by
    unfold DepTracker.removeNode
    rw [removeEdges_eq]
    dsimp only
    rw [hnodes, hcons, List.map_append, List.map_cons, List.eraseP_append_right,
      List.eraseP_cons_of_pos (by simpa using hkey), List.map_append]
    intro b hb
    obtain ⟨n, hn, rfl⟩ := List.mem_map.1 hb
    have hmem : n.key ∈ pre := hpre ▸ List.mem_map_of_mem hn
    have hne : n.key ≠ key := by
      rintro rfl
      exact hnew (List.mem_append_left _ hmem)
    simpa using hne
  refine ⟨?_, hnodup, ?_, ?_⟩
  · change (dep.removeNode key).nodes.map DepNode.key = _
    rw [hleft, List.map_map, ← hpre, ← hpost, ← List.map_append]
    rfl
  · unfold DepTracker.removeNode
    rw [removeEdges_eq]
    exact hedges
  · intro n hn
    rw [hleft] at hn
    obtain ⟨m, hm, rfl⟩ := List.mem_map.1 hn
    have hcount := h.counts m (by
      rw [hnodes, hcons]
      rcases List.mem_append.1 hm with hm | hm
      · exact List.mem_append_left _ hm
      · exact List.mem_append_right _ (List.mem_cons_of_mem _ hm))
    have hsplit := edgesTo_filter dep.edges key m.key
    have hremoved : (dep.removeNode key).edges = dep.edges.filter fun e => e.node ≠ key := by
      unfold DepTracker.removeNode
      rw [removeEdges_eq]
    rw [hremoved]
    dsimp only
    omega

/-- All callbacks succeed. -/
def AllSucceed (ret : Callbacks) : Prop := ∀ log e, ret log e = true

/-- How resolving a node ends. -/
theorem resolve_cases (ret : Callbacks) (es : List Event) (s : Committing) :
    resolve ret es s = .ok () { s with log := s.log ++ es } ∨
      ¬ AllSucceed ret ∧ ∃ l, l <+: es ∧
        resolve ret es s = .fail { s with log := s.log ++ l } := by
  induction es generalizing s with
  | nil =>
      left
      rw [List.append_nil]
      rfl
  | cons e es ih =>
      unfold resolve
      rw [Call.bind_apply]
      by_cases hret : ret s.log e = true
      · have hcall : call ret e s = .ok () { s with log := s.log ++ [e] } := if_pos hret
        rw [hcall, Outcome.bind_ok]
        rcases ih { s with log := s.log ++ [e] } with hok | ⟨hnot, l, hl, hfail⟩
        · left
          rw [hok, List.append_assoc]
          rfl
        · right
          refine ⟨hnot, e :: l, (List.prefix_cons_inj e).2 hl, ?_⟩
          rw [hfail, List.append_assoc]
          rfl
      · right
        have hcall : call ret e s = .fail { s with log := s.log ++ [e] } := if_neg hret
        rw [hcall, Outcome.bind_fail]
        exact ⟨fun hall => hret (hall _ _), [e], (List.prefix_cons_inj e).2 List.nil_prefix, rfl⟩

/-- How a commit ends that starts with the nodes `rem`: the calls it made are those of
an elimination, and all of them where it succeeds.  It fails only where a callback
does or where every node left waits. -/
def Committed (ret : Callbacks) (E : NodeKey → NodeKey → Prop) (rem : List NodeKey)
    (log : List Event) (o : Outcome Committing Unit) : Prop :=
  ∃ out left l s, Elim E rem out left ∧ l <+: out.flatMap events ∧
    s.log = log ++ l ∧
      (o = .ok () s ∧ left = [] ∧ l = out.flatMap events ∨
        o = .fail s ∧ (AllSucceed ret → left ≠ [] ∧ ∀ p ∈ left, Waits E left p))

theorem Counted.nodes_nil (h : Counted edges rem dep) : dep.nodes = [] ↔ rem = [] := by
  rw [← h.keys]
  exact List.map_eq_nil_iff.symm

/-- No node is left. -/
theorem committed_nil {ret : Callbacks} {E : NodeKey → NodeKey → Prop} (s : Committing) :
    Committed ret E [] s.log (.ok () s) :=
  ⟨[], [], [], s, Elim.refl [], List.nil_prefix, (List.append_nil _).symm,
    Or.inl ⟨rfl, rfl, rfl⟩⟩

theorem commitLoop_committed (ret : Callbacks) (fuel : Nat) (s : Committing)
    (hrem : Counted edges rem s.tracker) (hfuel : rem.length ≤ fuel) :
    Committed ret (Below edges) rem s.log (commitLoop ret fuel s) := by
  induction fuel generalizing rem s with
  | zero =>
      have hnil : rem = [] := List.length_eq_zero_iff.1 (Nat.le_zero.1 hfuel)
      unfold commitLoop
      rw [Call.bind_apply, Call.get_apply, Outcome.bind_ok, if_pos (hrem.nodes_nil.2 hnil), hnil]
      exact committed_nil s
  | succ fuel ih =>
      unfold commitLoop
      rw [Call.bind_apply, Call.get_apply, Outcome.bind_ok]
      by_cases hnil : rem = []
      · rw [if_pos (hrem.nodes_nil.2 hnil), hnil]
        exact committed_nil s
      rw [if_neg (fun h => hnil (hrem.nodes_nil.1 h))]
      cases hfind : s.tracker.nodes.find? fun n => n.depCount = 0 with
      | none =>
          -- every node left waits
          refine ⟨[], rem, [], s, Elim.refl rem, List.nil_prefix, (List.append_nil _).symm,
            Or.inr ⟨rfl, fun _ => ⟨hnil, ?_⟩⟩⟩
          intro p hp
          rw [← hrem.keys] at hp
          obtain ⟨n, hn, rfl⟩ := List.mem_map.1 hp
          have hcount := List.find?_eq_none.1 hfind n hn
          by_contra hfree
          exact hcount (decide_eq_true ((hrem.zero_iff hn).2 hfree))
      | some nit =>
          obtain ⟨hzero, front, back, hnodes, hfront⟩ :=
            List.find?_eq_some_iff_append.1 hfind
          have hsplit : rem = front.map DepNode.key ++ nit.key :: back.map DepNode.key := by
            rw [← hrem.keys, DepTracker.keys, hnodes, List.map_append, List.map_cons]
          have hmem : nit ∈ s.tracker.nodes := by
            rw [hnodes]
            exact List.mem_append_right _ (List.mem_cons_self ..)
          have hfree : ¬ Waits (Below edges) rem nit.key :=
            (hrem.zero_iff hmem).1 (of_decide_eq_true hzero)
          have hwait : ∀ p ∈ front.map DepNode.key, Waits (Below edges) rem p := by
            intro p hp
            obtain ⟨n, hn, rfl⟩ := List.mem_map.1 hp
            by_contra hfree
            have hn' : n ∈ s.tracker.nodes := by
              rw [hnodes]
              exact List.mem_append_left _ hn
            have hcount := hfront n hn
            rw [decide_eq_true ((hrem.zero_iff hn').2 hfree)] at hcount
            cases hcount
          subst hsplit
          change Committed ret _ _ _ ((resolve ret (events nit.key) >>= fun _ => _) s)
          rw [Call.bind_apply]
          rcases resolve_cases ret (events nit.key) s with hok | ⟨hnot, l, hl, hfail⟩
          · rw [hok, Outcome.bind_ok, Call.bind_apply, Call.modify_apply, Outcome.bind_ok]
            have hrec := ih ⟨s.tracker.removeNode nit.key, s.log ++ events nit.key⟩
                hrem.removeNode (by
              simp only [List.length_append, List.length_cons, List.length_map] at hfuel ⊢
              omega)
            obtain ⟨out, left, l, t, helim, hl, hlog, hend⟩ := hrec
            refine ⟨nit.key :: out, left, events nit.key ++ l, t,
              Elim.step hwait hfree helim, ?_, ?_, ?_⟩
            · rw [List.flatMap_cons]
              exact (List.prefix_append_right_inj _).2 hl
            · rw [hlog, List.append_assoc]
            · rw [List.flatMap_cons]
              exact hend.imp_left fun ⟨ho, hleft, hall⟩ => ⟨ho, hleft, by rw [hall]⟩
          · rw [hfail, Outcome.bind_fail]
            refine ⟨[nit.key], _, l, ⟨s.tracker, s.log ++ l⟩,
              Elim.step hwait hfree (Elim.refl _), ?_, rfl,
              Or.inr ⟨rfl, fun hall => absurd hall hnot⟩⟩
            rw [List.flatMap_cons, List.flatMap_nil, List.append_nil]
            exact hl

/-- A tracker whose edges lead from node to node. -/
structure Linked (dep : DepTracker) : Prop where
  nodup : dep.keys.Nodup
  edges : ∀ e ∈ dep.edges, e.node ∈ dep.keys ∧ e.dependsOn ∈ dep.keys

theorem Linked.counted (h : Linked dep) : Counted dep.edges dep.keys dep.countEdges where
  keys := by
    change (DepTracker.countEdges dep).nodes.map DepNode.key = _
    unfold countEdges
    dsimp only
    rw [foldl_addCount, List.map_map, List.map_map]
    rfl
  nodup := h.nodup
  edges := by
    symm
    apply List.filter_eq_self.2
    intro e he
    exact decide_eq_true (h.edges e he).1
  counts := by
    intro n hn
    unfold countEdges at hn
    dsimp only at hn
    rw [foldl_addCount, List.map_map] at hn
    obtain ⟨m, _, rfl⟩ := List.mem_map.1 hn
    exact Nat.zero_add _

theorem commit_committed (ret : Callbacks) (h : Linked dep) :
    Committed ret (Below dep.edges) dep.keys [] (commit ret ⟨dep, []⟩) := by
  have hcounted := h.counted
  unfold commit
  rw [Call.bind_apply, Call.modify_apply, Outcome.bind_ok, Call.bind_apply, Call.get_apply,
    Outcome.bind_ok]
  refine commitLoop_committed ret _ ⟨dep.countEdges, []⟩ hcounted ?_
  rw [← hcounted.keys, DepTracker.keys, List.length_map]

end Loop

end ImageTool.Imgtool.DepTracker
