import ImageTool.Fstree.ManyNodes
import ImageTool.Lib.PointerJumping

/-!
# Hard links

Each hard link is looked up once, then links to links are followed by pointer jumping until all
of them lead to something that is no link.
-/

namespace ImageTool.Fstree.NodeTree

open ImageTool.Lib.PointerJumping

/-- What `fstree_resolve_hard_links` changes of the nodes. -/
structure LinkState where
  resolved : Nat → Option Nat
  linkCount : Nat → UInt32

/-- The node that a hard link names: its target is looked up from the root, then from the
directory of the link.  The length is `-1`, so the string is not cut. -/
def lookupTarget (t : NodeTree) (n : Nat) : Except Errno Nat :=
  let target := (t.node n).target
  match (t.nodeFromPath none target target.length false).2 with
  | .ok target => .ok target
  | .error _ => (t.nodeFromPath (t.node n).parent target target.length false).2

theorem lookupTarget_eq (t : NodeTree) (n : Nat) : t.lookupTarget n =
    match t.find root (components (t.node n).target) with
    | .ok target => .ok target
    | .error _ => t.find ((t.node n).parent.getD root) (components (t.node n).target) := by
  simp only [lookupTarget, nodeFromPath_false, List.take_length, Option.getD_none]

/-- The first loop; `false` is the exit with an unresolved link. -/
def lookupLinks (t : NodeTree) (resolved : Nat → Option Nat) :
    List Nat → (Nat → Option Nat) × Bool
  | [] => (resolved, true)
  | n :: list =>
      match t.lookupTarget n with
      | .ok target => lookupLinks t (Function.update resolved n (some target)) list
      | .error _ => (resolved, false)

/-- The state of a pass over the links. -/
structure LinkPass where
  pointers : Nat → Option Nat
  remaining : Nat
  resolved : Nat

/-- One link in a pass; a pointer that is not set cannot be followed. -/
def followLink (t : NodeTree) (s : LinkPass) (n : Nat) : Option LinkPass := do
  let target ← s.pointers n
  if (t.node target).type = .hardLink then do
    let target ← s.pointers target
    let s := { s with pointers := Function.update s.pointers n (some target) }
    if (t.node target).type = .hardLink then some { s with remaining := s.remaining + 1 }
    else some { s with resolved := s.resolved + 1 }
  else some s

/-- The loop over the passes; the first argument bounds their number. -/
def followLinks : Nat → NodeTree → (Nat → Option Nat) → Option ((Nat → Option Nat) × Bool)
  | 0, _, _ => none
  | fuel + 1, t, pointers => do
      let s ← (t.nodesByType .hardLink).foldlM (followLink t) ⟨pointers, 0, 0⟩
      if s.remaining = 0 then some (s.pointers, true)
      else if s.resolved = 0 then some (s.pointers, false)
      else followLinks fuel t s.pointers

/-- One link in the last loop. -/
def countLink (s : LinkState) (n : Nat) : Option LinkState := do
  let target ← s.resolved n
  some { s with linkCount := Function.update s.linkCount target (s.linkCount target + 1) }

/-- `fstree_resolve_hard_links`, with its return value. -/
def resolveHardLinks (fuel : Nat) (t : NodeTree) (s : LinkState) : Option (LinkState × Int) :=
  match t.lookupLinks s.resolved (t.nodesByType .hardLink) with
  | (resolved, false) => some ({ s with resolved := resolved }, -1)
  | (resolved, true) => do
      let (resolved, done) ← followLinks fuel t resolved
      if done then do
        let s ← (t.nodesByType .hardLink).foldlM countLink { s with resolved := resolved }
        some (s, 0)
      else some ({ s with resolved := resolved }, -1)

/-! ## Chains of links -/

/-- A node is a hard link. -/
def isHardLink (t : NodeTree) (n : Nat) : Bool :=
  decide (n < t.count ∧ (t.node n).type = .hardLink)

/-- The node that a link names. -/
def linkNext (t : NodeTree) (n : Nat) : Nat :=
  match t.lookupTarget n with
  | .ok target => target
  | .error _ => n

/-- The chain of links from a node ends at a node that is none. -/
def ChainEnds (t : NodeTree) (n m : Nat) : Prop := EndsAt t.isHardLink t.linkNext n m

open Classical in
/-- The number of links whose chain ends at a node. -/
noncomputable def linksTo (t : NodeTree) (m : Nat) : Nat :=
  (t.nodesByType .hardLink).countP fun n => decide (t.ChainEnds n m)

/-- All links name a node. -/
def TargetsExist (t : NodeTree) : Prop :=
  ∀ n ∈ t.nodesByType .hardLink, ∃ m, t.lookupTarget n = .ok m

section Links

variable {t : NodeTree} {n m : Nat} {list : List Nat} {p : Nat → Nat}

theorem Linked.isHardLink_iff (h : Linked t) :
    t.isHardLink n = true ↔ n ∈ t.nodesByType .hardLink := by
  rw [isHardLink, decide_eq_true_eq, h.mem_byType]

theorem isHardLink_of_lt (hn : n < t.count) :
    t.isHardLink n = true ↔ (t.node n).type = .hardLink := by
  rw [isHardLink, decide_eq_true_eq, and_iff_right hn]

theorem Linked.parent_or_root_lt (h : Linked t) (hn : n < t.count) :
    (t.node n).parent.getD root < t.count := by
  cases hp : (t.node n).parent with
  | none => exact h.count_pos
  | some p => exact Nat.lt_trans (h.parentOf_lt hn hp).1 hn

theorem Linked.lookupTarget_lt (h : Linked t) (hn : n < t.count) (hm : t.lookupTarget n = .ok m) :
    m < t.count := by
  have hroot : (none : Option Nat).getD root < t.count := h.count_pos
  rw [lookupTarget_eq] at hm
  split at hm
  · rename_i target hfound
    cases hm
    exact h.find_lt hroot hfound
  · exact h.find_lt (h.parent_or_root_lt hn) hm

theorem Linked.linkNext_lt (h : Linked t) (hn : n < t.count) : t.linkNext n < t.count := by
  rw [linkNext]
  split
  · rename_i target htarget
    exact h.lookupTarget_lt hn htarget
  · exact hn

/-- What a link leads to is a node. -/
theorem Linked.leads_lt (h : Linked t) (hlead : Leads t.isHardLink t.linkNext n m) :
    m < t.count := by
  have hstep : ∀ c, t.isHardLink c = true → t.linkNext c < t.count := by
    intro c hc
    exact h.linkNext_lt (of_decide_eq_true hc).1
  cases hlead with
  | single hlast => exact hlast.2 ▸ hstep _ hlast.1
  | tail _ hlast => exact hlast.2 ▸ hstep _ hlast.1

/-- So is the end of its chain. -/
theorem Linked.chainEnds_lt (h : Linked t) (hn : n < t.count) (hends : t.ChainEnds n m) :
    m < t.count := by
  obtain ⟨k, hk⟩ := hends
  induction k generalizing n with
  | zero =>
      obtain ⟨rfl, -⟩ := hk
      exact hn
  | succ k ih => exact ih (h.linkNext_lt hn) hk.2

/-! ## The first loop -/

theorem lookupLinks_eq (list : List Nat) (hlist : ∀ n ∈ list, ∃ m, t.lookupTarget n = .ok m)
    (resolved : Nat → Option Nat) : ∃ pointers,
      t.lookupLinks resolved list = (pointers, true) ∧
      (∀ n ∈ list, pointers n = some (t.linkNext n)) ∧
      ∀ n, n ∉ list → pointers n = resolved n := by
  induction list generalizing resolved with
  | nil => exact ⟨resolved, rfl, by simp, fun _ _ => rfl⟩
  | cons c list ih =>
      rw [List.forall_mem_cons] at hlist
      obtain ⟨target, htarget⟩ := hlist.1
      obtain ⟨pointers, hloop, hset, hkeep⟩ := ih hlist.2 (Function.update resolved c (some target))
      refine ⟨pointers, ?_, ?_, ?_⟩
      · rw [lookupLinks, htarget]
        exact hloop
      · intro n hn
        by_cases hin : n ∈ list
        · exact hset n hin
        · have hnc := (List.mem_cons.1 hn).resolve_right hin
          rw [hkeep n hin, hnc, Function.update_self, linkNext, htarget]
      · intro n hn
        rw [List.mem_cons, not_or] at hn
        rw [hkeep n hn.2, Function.update_of_ne hn.1]

/-! ## The passes -/

/-- The pointers of the links. -/
def PointsTo (t : NodeTree) (pointers : Nat → Option Nat) (p : Nat → Nat) : Prop :=
  ∀ n ∈ t.nodesByType .hardLink, pointers n = some (p n)

theorem Linked.followLink_eq (h : Linked t) {s : LinkPass} (hs : PointsTo t s.pointers p)
    (hp : Chases t.isHardLink t.linkNext p) (hn : n ∈ t.nodesByType .hardLink) :
    ∃ pointers, followLink t s n = some ⟨pointers,
        s.remaining + (if t.isHardLink (jump t.isHardLink p n n) then 1 else 0),
        s.resolved + (if t.isHardLink (p n) && !t.isHardLink (jump t.isHardLink p n n) then 1
          else 0)⟩ ∧
      PointsTo t pointers (jump t.isHardLink p n) ∧
      ∀ m, m ∉ t.nodesByType .hardLink → pointers m = s.pointers m := by
  have hlink := h.isHardLink_iff.2 hn
  have hlt := h.leads_lt (hp n hlink)
  rw [followLink, hs n hn]
  simp only [Option.bind_eq_bind, Option.bind_some]
  by_cases hfirst : (t.node (p n)).type = .hardLink
  · have hpn := (isHardLink_of_lt hlt).2 hfirst
    have hlt' := h.leads_lt (hp (p n) hpn)
    rw [if_pos hfirst, hs _ (h.isHardLink_iff.1 hpn)]
    simp only [Option.bind_some]
    have hjump : jump t.isHardLink p n n = p (p n) := by
      rw [jump_self, if_pos hpn]
    have hpoints : PointsTo t (Function.update s.pointers n (some (p (p n))))
        (jump t.isHardLink p n) := by
      intro c hc
      by_cases hcn : c = n
      · rw [hcn, Function.update_self, hjump]
      · rw [Function.update_of_ne hcn, jump_of_ne hcn, hs c hc]
    have hkeep : ∀ m, m ∉ t.nodesByType .hardLink →
        Function.update s.pointers n (some (p (p n))) m = s.pointers m := by
      intro m hm
      have hne : m ≠ n := fun heq => hm (heq ▸ hn)
      exact Function.update_of_ne hne ..
    refine ⟨_, ?_, hpoints, hkeep⟩
    rw [hjump, hpn]
    by_cases hsecond : (t.node (p (p n))).type = .hardLink
    · rw [if_pos hsecond, (isHardLink_of_lt hlt').2 hsecond]
      rfl
    · have hend : t.isHardLink (p (p n)) = false := by
        rw [← Bool.not_eq_true, isHardLink_of_lt hlt']
        exact hsecond
      rw [if_neg hsecond, hend]
      rfl
  · have hend : t.isHardLink (p n) = false := by
      rw [← Bool.not_eq_true, isHardLink_of_lt hlt]
      exact hfirst
    have hjump : jump t.isHardLink p n n = p n := jump_of_notLink hend
    have hpoints : PointsTo t s.pointers (jump t.isHardLink p n) := by
      intro c hc
      by_cases hcn : c = n
      · rw [hcn, hjump, hs n hn]
      · rw [jump_of_ne hcn, hs c hc]
    refine ⟨_, ?_, hpoints, fun _ _ => rfl⟩
    rw [if_neg hfirst, hjump, hend]
    rfl

/-- A pass moves each link on once, and counts. -/
theorem Linked.foldlM_followLink (h : Linked t) (list : List Nat)
    (hlist : ∀ n ∈ list, n ∈ t.nodesByType .hardLink) (hnodup : list.Nodup) {s : LinkPass}
    (hs : PointsTo t s.pointers p) (hp : Chases t.isHardLink t.linkNext p) :
    ∃ pointers, list.foldlM (followLink t) s = some ⟨pointers,
        s.remaining + pending t.isHardLink list (pass t.isHardLink list p),
        s.resolved + moved t.isHardLink list p⟩ ∧
      PointsTo t pointers (pass t.isHardLink list p) ∧
      ∀ m, m ∉ t.nodesByType .hardLink → pointers m = s.pointers m := by
  induction list generalizing s p with
  | nil => exact ⟨s.pointers, rfl, hs, fun _ _ => rfl⟩
  | cons n list ih =>
      rw [List.forall_mem_cons] at hlist
      obtain ⟨hnot, hnodup⟩ := List.nodup_cons.1 hnodup
      obtain ⟨pointers₁, hstep, hpoints₁, hkeep₁⟩ := h.followLink_eq hs hp hlist.1
      obtain ⟨pointers, hfold, hpoints, hkeep⟩ :=
        ih hlist.2 hnodup (s := ⟨pointers₁, _, _⟩) hpoints₁ (chases_jump hp)
      refine ⟨pointers, ?_, hpoints, fun m hm => (hkeep m hm).trans (hkeep₁ m hm)⟩
      rw [List.foldlM_cons, hstep]
      refine hfold.trans ?_
      rw [pending_pass_cons hnot, moved_cons hnot, Nat.add_assoc, Nat.add_assoc]

/-- The passes come to an end: with links that all lead to no link, or at links that go round. -/
theorem Linked.followLinks_ends (h : Linked t) (fuel : Nat) {pointers : Nat → Option Nat}
    (hs : PointsTo t pointers p) (hp : Chases t.isHardLink t.linkNext p)
    (hfuel : pending t.isHardLink (t.nodesByType .hardLink) p < fuel) :
    ∃ pointers' done p', followLinks fuel t pointers = some (pointers', done) ∧
      PointsTo t pointers' p' ∧ (∀ m, m ∉ t.nodesByType .hardLink → pointers' m = pointers m) ∧
      (done = true → ∀ n ∈ t.nodesByType .hardLink, t.ChainEnds n (p' n)) ∧
      (done = false → ∃ n ∈ t.nodesByType .hardLink, ∀ m, ¬ t.ChainEnds n m) := by
  induction fuel generalizing pointers p with
  | zero => omega
  | succ fuel ih =>
      obtain ⟨pointers₁, hfold, hpoints, hkeep⟩ := h.foldlM_followLink
        (t.nodesByType .hardLink) (fun n hn => hn) (h.byType_nodup .hardLink)
        (s := ⟨pointers, 0, 0⟩) hs hp
      simp only [Nat.zero_add] at hfold
      have hchases : Chases t.isHardLink t.linkNext
          (pass t.isHardLink (t.nodesByType .hardLink) p) := chases_pass hp
      have hcount : _ = pending t.isHardLink (t.nodesByType .hardLink) p := pending_pass
      rw [followLinks, hfold]
      simp only [Option.bind_eq_bind, Option.bind_some]
      split
      · -- no link points to a link any more
        rename_i hzero
        refine ⟨pointers₁, true, _, rfl, hpoints, hkeep, ?_, fun hdone => absurd hdone (by decide)⟩
        intro _ n hn
        rw [pending, List.countP_eq_zero] at hzero
        exact (hchases n (h.isHardLink_iff.2 hn)).endsAt (by simpa using hzero n hn)
      rename_i hremaining
      split
      · -- no link was moved to the end of its chain
        rename_i hzero
        refine ⟨pointers₁, false, _, rfl, hpoints, hkeep, fun hdone => absurd hdone (by decide), ?_⟩
        intro _
        obtain ⟨n, hn, hpn⟩ := List.countP_pos_iff.1 (Nat.pos_of_ne_zero hremaining)
        have hold : t.isHardLink (p n) = true := by
          by_contra hend
          rw [pass_of_notLink (by simpa using hend)] at hpn
          exact hend hpn
        refine ⟨n, hn, fun m hend => ?_⟩
        obtain ⟨c, hc, hbefore, hafter⟩ := exists_resolved hp
          (fun n hn => h.isHardLink_iff.1 hn) (h.isHardLink_iff.2 hn) hold hend
        rw [moved, List.countP_eq_zero] at hzero
        exact hzero c hc (by simp [hbefore, hafter])
      · rename_i hmoved
        obtain ⟨pointers', done, p', hrest, hpoints', hkeep', hends⟩ :=
          ih hpoints hchases (by omega)
        exact ⟨pointers', done, p', hrest, hpoints',
          fun m hm => (hkeep' m hm).trans (hkeep m hm), hends⟩

/-! ## Link counts -/

theorem foldlM_countLink (list : List Nat) (s : LinkState)
    (hs : ∀ n ∈ list, s.resolved n = some (p n)) :
    ∃ s', list.foldlM countLink s = some s' ∧ s'.resolved = s.resolved ∧
      ∀ m, (s'.linkCount m).toNat =
        ((s.linkCount m).toNat + list.countP fun n => p n = m) % 2 ^ 32 := by
  induction list generalizing s with
  | nil =>
      refine ⟨s, rfl, rfl, fun m => ?_⟩
      have hlt := (s.linkCount m).toNat_lt
      rw [List.countP_nil, Nat.add_zero, Nat.mod_eq_of_lt hlt]
  | cons n list ih =>
      rw [List.forall_mem_cons] at hs
      obtain ⟨s', hfold, hresolved, hcount⟩ := ih
        { s with linkCount := Function.update s.linkCount (p n) (s.linkCount (p n) + 1) } hs.2
      refine ⟨s', ?_, hresolved, ?_⟩
      · rw [List.foldlM_cons, countLink, hs.1]
        exact hfold
      · intro m
        rw [hcount m, List.countP_cons]
        dsimp only
        by_cases hm : m = p n
        · subst hm
          rw [Function.update_self, UInt32.toNat_add, decide_eq_true rfl, if_pos rfl]
          have hone : (1 : UInt32).toNat = 1 := rfl
          omega
        · rw [Function.update_of_ne hm, decide_eq_false (Ne.symm hm)]
          rfl

/-! ## The whole call -/

/-- What resolving the links is for. -/
structure Resolves (t : NodeTree) (s s' : LinkState) (ret : Int) : Prop where
  ret_iff : ret = 0 ↔ ∀ n ∈ t.nodesByType .hardLink, ∃ m, t.ChainEnds n m
  resolved : ret = 0 → ∀ n ∈ t.nodesByType .hardLink, ∀ m,
    s'.resolved n = some m ↔ t.ChainEnds n m
  linkCount : ret = 0 → ∀ m, (s'.linkCount m).toNat = (s.linkCount m).toNat + t.linksTo m

theorem followLinks_succ {fuel : Nat} {pointers : Nat → Option Nat}
    {r : (Nat → Option Nat) × Bool} (hr : followLinks fuel t pointers = some r) :
    followLinks (fuel + 1) t pointers = some r := by
  induction fuel generalizing pointers with
  | zero => cases hr
  | succ fuel ih =>
      rw [followLinks] at hr ⊢
      obtain ⟨s, hfold, hrest⟩ := Option.bind_eq_some_iff.1 hr
      rw [hfold]
      simp only [Option.bind_eq_bind, Option.bind_some]
      split at hrest
      · rename_i hzero
        rw [if_pos hzero, hrest]
      rename_i hremaining
      rw [if_neg hremaining]
      split at hrest
      · rename_i hzero
        rw [if_pos hzero, hrest]
      · rename_i hmoved
        rw [if_neg hmoved, ih hrest]

theorem followLinks_mono {fuel fuel' : Nat} (hle : fuel ≤ fuel') {pointers : Nat → Option Nat}
    {r : (Nat → Option Nat) × Bool} (hr : followLinks fuel t pointers = some r) :
    followLinks fuel' t pointers = some r := by
  induction hle with
  | refl => exact hr
  | step _ ih => exact followLinks_succ ih

theorem linksTo_eq (hends : ∀ n ∈ t.nodesByType .hardLink, t.ChainEnds n (p n)) (m : Nat) :
    t.linksTo m = (t.nodesByType .hardLink).countP fun n => p n = m := by
  rw [linksTo]
  apply List.countP_congr
  intro n hn
  simp only [decide_eq_true_eq]
  constructor
  · exact fun hend => (hends n hn).unique hend
  · rintro rfl
    exact hends n hn

/-- If the links all name a node, `fstree_resolve_hard_links` ends.  It fails at links that go
round, and otherwise leaves the ends of the chains, with the links to each counted in 32 bits. -/
theorem resolveHardLinks_ends (h : Linked t) (htargets : TargetsExist t) (s : LinkState) :
    ∃ s' ret, (∀ fuel, (t.nodesByType .hardLink).length < fuel →
        resolveHardLinks fuel t s = some (s', ret)) ∧
      (ret = 0 ↔ ∀ n ∈ t.nodesByType .hardLink, ∃ m, t.ChainEnds n m) ∧
      (ret = 0 → ∀ n ∈ t.nodesByType .hardLink, ∀ m,
        s'.resolved n = some m ↔ t.ChainEnds n m) ∧
      (ret = 0 → ∀ m, (s'.linkCount m).toNat =
        ((s.linkCount m).toNat + t.linksTo m) % 2 ^ 32) := by
  obtain ⟨pointers, hlookup, hset, -⟩ := lookupLinks_eq _ htargets s.resolved
  have hchases : Chases t.isHardLink t.linkNext t.linkNext :=
    fun n hn => Relation.TransGen.single ⟨hn, rfl⟩
  have hpending : pending t.isHardLink (t.nodesByType .hardLink) t.linkNext <
      (t.nodesByType .hardLink).length + 1 := Nat.lt_succ_of_le List.countP_le_length
  obtain ⟨pointers', done, p, hloop, hpoints, -, hends, hround⟩ :=
    h.followLinks_ends _ hset hchases hpending
  cases done with
  | false =>
      obtain ⟨n, hn, hnone⟩ := hround rfl
      have hnot : ¬ ∀ n ∈ t.nodesByType .hardLink, ∃ m, t.ChainEnds n m := by
        intro hall
        obtain ⟨m, hm⟩ := hall n hn
        exact hnone m hm
      have hret : (-1 : Int) ≠ 0 := by decide
      refine ⟨{ s with resolved := pointers' }, -1, ?_, ?_, ?_, ?_⟩
      · intro fuel hfuel
        rw [resolveHardLinks, hlookup]
        simp only [followLinks_mono hfuel hloop]
        rfl
      · exact ⟨fun hzero => absurd hzero hret, fun hall => absurd hall hnot⟩
      · exact fun hzero => absurd hzero hret
      · exact fun hzero => absurd hzero hret
  | true =>
      have hall := hends rfl
      obtain ⟨s', hfold, hresolved, hcount⟩ :=
        foldlM_countLink (t.nodesByType .hardLink) { s with resolved := pointers' } hpoints
      refine ⟨s', 0, ?_, ?_, ?_, ?_⟩
      · intro fuel hfuel
        rw [resolveHardLinks, hlookup]
        simp only [followLinks_mono hfuel hloop, Option.bind_eq_bind, Option.bind_some, if_true,
          hfold]
      · exact ⟨fun _ n hn => ⟨p n, hall n hn⟩, fun _ => rfl⟩
      · intro _ n hn m
        have hset : s'.resolved n = some (p n) := by
          rw [hresolved]
          exact hpoints n hn
        rw [hset, Option.some.injEq]
        constructor
        · rintro rfl
          exact hall n hn
        · exact fun hend => (hall n hn).unique hend
      · intro _ m
        rw [hcount m, ← linksTo_eq hall]

/-- `fstree_resolve_hard_links` ends, and it does what it is for unless a link count does not fit
into 32 bits. -/
theorem resolveHardLinks_resolves_iff (h : Linked t) (htargets : TargetsExist t) (s : LinkState) :
    ∃ s' ret, (∀ fuel, (t.nodesByType .hardLink).length < fuel →
        resolveHardLinks fuel t s = some (s', ret)) ∧
      (Resolves t s s' ret ↔ ((∀ n ∈ t.nodesByType .hardLink, ∃ m, t.ChainEnds n m) →
        ∀ m, (s.linkCount m).toNat + t.linksTo m < 2 ^ 32)) := by
  obtain ⟨s', ret, hrun, hret, hresolved, hcount⟩ := resolveHardLinks_ends h htargets s
  refine ⟨s', ret, hrun, ?_, ?_⟩
  · intro hresolves hall m
    rw [← hresolves.linkCount (hret.2 hall) m]
    exact (s'.linkCount m).toNat_lt
  · intro hfits
    refine ⟨hret, hresolved, ?_⟩
    intro hzero m
    rw [hcount hzero m, Nat.mod_eq_of_lt (hfits (hret.1 hzero) m)]

/-! ## Calls that succeed -/

theorem lookupLinks_true {list : List Nat} {resolved pointers : Nat → Option Nat}
    (hloop : t.lookupLinks resolved list = (pointers, true)) :
    ∀ n ∈ list, ∃ m, t.lookupTarget n = .ok m := by
  induction list generalizing resolved with
  | nil => exact fun n hn => nomatch hn
  | cons c list ih =>
      rw [lookupLinks] at hloop
      split at hloop
      · rename_i target htarget
        exact List.forall_mem_cons.2 ⟨⟨target, htarget⟩, ih hloop⟩
      · cases hloop

theorem resolveHardLinks_mono {fuel fuel' : Nat} (hle : fuel ≤ fuel') {s : LinkState}
    {r : LinkState × Int} (hr : resolveHardLinks fuel t s = some r) :
    resolveHardLinks fuel' t s = some r := by
  rw [resolveHardLinks] at hr ⊢
  split at hr
  · exact hr
  · obtain ⟨r', hloop, hrest⟩ := Option.bind_eq_some_iff.1 hr
    simp only [followLinks_mono hle hloop, Option.bind_eq_bind, Option.bind_some]
    exact hrest

/-- A call that succeeds leaves the end of each chain, and counts the links in 32 bits. -/
theorem resolveHardLinks_ok (h : Linked t) {fuel : Nat} {s s' : LinkState}
    (hrun : resolveHardLinks fuel t s = some (s', 0)) :
    (∀ n ∈ t.nodesByType .hardLink, ∃ m, t.ChainEnds n m) ∧
      (∀ n ∈ t.nodesByType .hardLink, ∀ m, s'.resolved n = some m ↔ t.ChainEnds n m) ∧
      ∀ m, (s'.linkCount m).toNat = ((s.linkCount m).toNat + t.linksTo m) % 2 ^ 32 := by
  have htargets : TargetsExist t := by
    cases hloop : t.lookupLinks s.resolved (t.nodesByType .hardLink) with
    | mk pointers found =>
        cases found with
        | true => exact lookupLinks_true hloop
        | false =>
            rw [resolveHardLinks, hloop] at hrun
            cases hrun
  obtain ⟨s₁, ret, hends, hret, hresolved, hcount⟩ := resolveHardLinks_ends h htargets s
  have hlarge := hends ((t.nodesByType .hardLink).length + 1 + fuel) (by omega)
  rw [resolveHardLinks_mono (Nat.le_add_left ..) hrun] at hlarge
  cases hlarge
  exact ⟨hret.1 rfl, hresolved rfl, hcount rfl⟩

/-- If all chains end then all links name a node. -/
theorem Linked.targetsExist (h : Linked t)
    (hends : ∀ n ∈ t.nodesByType .hardLink, ∃ m, t.ChainEnds n m) : TargetsExist t := by
  intro n hn
  cases hlookup : t.lookupTarget n with
  | ok m => exact ⟨m, rfl⟩
  | error e =>
      obtain ⟨m, k, hk⟩ := hends n hn
      have hself : t.linkNext n = n := by
        rw [linkNext, hlookup]
      exact absurd hself (hk.next_ne (h.isHardLink_iff.2 hn))

/-! ## Links of a sorted tree -/

theorem sort_lookupTarget {t' : NodeTree} (h : Linked t) (hsort : t.sort = some t')
    (hn : n < t.count) : t'.lookupTarget n = t.lookupTarget n := by
  obtain ⟨t₁, hsorted, -, hre⟩ := exists_sort h
  rw [hsort] at hsorted
  cases hsorted
  obtain ⟨cs, hnode⟩ := sort_node hsort n
  have htarget : (t'.node n).target = (t.node n).target := by
    rw [hnode]
  have hroot : root < t.count := h.count_pos
  rw [lookupTarget_eq, lookupTarget_eq, htarget, hre.parent, hre.find h.toIsTree hroot,
    hre.find h.toIsTree (h.parent_or_root_lt hn)]

/-- Sorting leaves all chains of links as they are. -/
theorem sort_chainEnds {t' : NodeTree} (h : Linked t) (hsort : t.sort = some t') :
    t'.ChainEnds n m ↔ t.ChainEnds n m := by
  obtain ⟨t₁, hsorted, -, hre⟩ := exists_sort h
  rw [hsort] at hsorted
  cases hsorted
  have hlink : ∀ a, t'.isHardLink a = t.isHardLink a := by
    intro a
    rw [isHardLink, isHardLink, hre.count, hre.type]
  have hnext : ∀ a, t.isHardLink a = true → t'.linkNext a = t.linkNext a := by
    intro a ha
    rw [linkNext, linkNext, sort_lookupTarget h hsort (of_decide_eq_true ha).1]
  exact exists_congr fun k => EndsIn.congr hlink hnext

/-- The looked up node of a link is the given one, and where all links can be resolved, the link
is left with the end of the chain from there, which is the node if that is no link. -/
def ResolvesTo (t : NodeTree) (link node : Nat) : Prop :=
  t.lookupTarget link = .ok node ∧
    ∀ fuel s s', resolveHardLinks fuel t s = some (s', 0) →
      ∀ m, s'.resolved link = some m ↔ t.ChainEnds node m

theorem resolvesTo_iff (h : Linked t) {link node : Nat} (hlink : t.isHardLink link = true) :
    t.ResolvesTo link node ↔ t.lookupTarget link = .ok node := by
  refine ⟨fun hres => hres.1, fun hlookup => ⟨hlookup, ?_⟩⟩
  intro fuel s s' hrun m
  obtain ⟨-, hresolved, -⟩ := resolveHardLinks_ok h hrun
  have hnext : t.linkNext link = node := by
    rw [linkNext, hlookup]
  have hlead : Leads t.isHardLink t.linkNext link node :=
    Relation.TransGen.single ⟨hlink, hnext.symm⟩
  rw [hresolved link (h.isHardLink_iff.1 hlink) m]
  exact hlead.endsAt_iff

end Links

/-! ## Many links to one file -/

/-- A file `f` and links to it. -/
def manyLinks (n : Nat) : NodeTree :=
  addMany (fun path => .hardLink path (some [102])) ((AddOp.file [102]).run create).1 n

section ManyLinks

variable {n i : Nat}

theorem manyLinks_spec (n : Nat) :
    ManyNodes ((AddOp.file [102]).run create).1 (manyLinks n) .hardLink [102] n := by
  have hfresh : ∀ k,
      ((AddOp.file [102]).run create).1.findChild root (Lib.numeral 10 k) = none := by
    intro k
    rw [findChild_eq_none]
    intro c hc
    have hchildren : (((AddOp.file [102]).run create).1.node root).children = [1] := by
      rw [AddOp.run_eq, mknodeAt, nodeFromPath_eq]
      rfl
    have hname : (((AddOp.file [102]).run create).1.node 1).name = [102] := by
      rw [AddOp.run_eq, mknodeAt, nodeFromPath_eq]
      rfl
    rw [hchildren, List.mem_singleton] at hc
    rw [hc, hname]
    intro heq
    have hdigit := Lib.isDigitOf_of_mem_numeral (by decide) (by decide)
      (heq ▸ List.mem_singleton_self 102 : (102 : UInt8) ∈ Lib.numeral 10 k)
    exact absurd hdigit (by decide)
  exact @manyNodes _ (Reachable.create.run _) _ .hardLink (some [102]) (fun _ => rfl)
    (fun _ => rfl) (fun _ => rfl) (fun _ h => by simpa [AddOp.extra] using h.2) hfresh n

theorem count_manyLinks (n : Nat) : (manyLinks n).count = 2 + n := by
  have hcount : ((AddOp.file [102]).run create).1.count = 2 := by
    rw [AddOp.run_eq, mknodeAt, nodeFromPath_eq]
    rfl
  rw [(manyLinks_spec n).count, hcount]

theorem mem_manyLinks : i ∈ (manyLinks n).nodesByType .hardLink ↔ 2 ≤ i ∧ i < 2 + n := by
  have hcount : ((AddOp.file [102]).run create).1.count = 2 := by
    rw [AddOp.run_eq, mknodeAt, nodeFromPath_eq]
    rfl
  have hspec := manyLinks_spec n
  have htypes : ∀ j, j < 2 → (((AddOp.file [102]).run create).1.node j).type ≠ .hardLink := by
    intro j hj
    rw [AddOp.run_eq, mknodeAt, nodeFromPath_eq]
    have hj' : j = 0 ∨ j = 1 := by omega
    cases hj' with
    | inl h =>
        subst h
        decide
    | inr h =>
        subst h
        decide
  rw [hspec.reachable.linked.mem_byType, count_manyLinks]
  constructor
  · rintro ⟨hi, htype⟩
    refine ⟨?_, hi⟩
    by_contra hlt
    rw [hspec.extension.type i (by omega)] at htype
    exact htypes i (by omega) htype
  · rintro ⟨hle, hi⟩
    obtain ⟨j, rfl⟩ := Nat.exists_eq_add_of_le hle
    have hnode := hspec.node j (by omega)
    rw [hcount] at hnode
    exact ⟨hi, hnode.1⟩

theorem lookupTarget_manyLinks (hi : i ∈ (manyLinks n).nodesByType .hardLink) :
    (manyLinks n).lookupTarget i = .ok 1 := by
  have hspec := manyLinks_spec n
  have hreach : Reachable ((AddOp.file [102]).run create).1 := Reachable.create.run _
  have hold : ((AddOp.file [102]).run create).1.find root [[102]] = .ok 1 := by
    rw [AddOp.run_eq, mknodeAt, nodeFromPath_eq]
    rfl
  have hroot : root < ((AddOp.file [102]).run create).1.count := hreach.linked.count_pos
  have hfind := hspec.extension.find hreach.linked.toIsTree hspec.reachable.linked.toIsTree
    hroot hold
  have hcount : ((AddOp.file [102]).run create).1.count = 2 := by
    rw [AddOp.run_eq, mknodeAt, nodeFromPath_eq]
    rfl
  obtain ⟨hle, hlt⟩ := mem_manyLinks.1 hi
  obtain ⟨j, rfl⟩ := Nat.exists_eq_add_of_le hle
  have htarget := (hspec.node j (by omega)).2.1
  rw [hcount] at htarget
  have hcomponents : components [102] = [[102]] := by decide
  rw [lookupTarget_eq, htarget, hcomponents, hfind]

theorem chainEnds_manyLinks (hi : i ∈ (manyLinks n).nodesByType .hardLink) :
    (manyLinks n).ChainEnds i 1 := by
  have hlinked := (manyLinks_spec n).reachable.linked
  have hnext : (manyLinks n).linkNext i = 1 := by
    rw [linkNext, lookupTarget_manyLinks hi]
  have hend : (manyLinks n).isHardLink 1 = false := by
    rw [← Bool.not_eq_true, hlinked.isHardLink_iff, mem_manyLinks]
    omega
  exact ⟨1, hlinked.isHardLink_iff.2 hi, hnext, by rw [hnext, hend]⟩

theorem linksTo_manyLinks (n : Nat) : (manyLinks n).linksTo 1 = n := by
  have hlinked := (manyLinks_spec n).reachable.linked
  have hperm : ((manyLinks n).nodesByType .hardLink).Perm (List.range' 2 n) := by
    rw [List.perm_ext_iff_of_nodup (hlinked.byType_nodup _) List.nodup_range']
    intro i
    rw [mem_manyLinks, List.mem_range'_1]
  rw [linksTo, List.countP_eq_length.2, hperm.length_eq, List.length_range']
  intro i hi
  simpa only [decide_eq_true_eq] using chainEnds_manyLinks hi

theorem resolveHardLinks_resolves_three :
    ∃ s' ret, (∀ fuel, ((manyLinks 3).nodesByType .hardLink).length < fuel →
        resolveHardLinks fuel (manyLinks 3) ⟨fun _ => none, fun _ => 0⟩ = some (s', ret)) ∧
      (Resolves (manyLinks 3) ⟨fun _ => none, fun _ => 0⟩ s' ret ↔
        ((∀ n ∈ (manyLinks 3).nodesByType .hardLink, ∃ m, (manyLinks 3).ChainEnds n m) →
          ∀ m, (0 : UInt32).toNat + (manyLinks 3).linksTo m < 2 ^ 32)) :=
  resolveHardLinks_resolves_iff (manyLinks_spec 3).reachable.linked
    (fun _ hn => ⟨1, lookupTarget_manyLinks hn⟩) ⟨fun _ => none, fun _ => 0⟩

/-- With 2^32 links to a file its link count is what it was before. -/
theorem resolves_fails : ¬ ∀ t, Reachable t → TargetsExist t → ∀ s s' ret fuel,
    resolveHardLinks fuel t s = some (s', ret) → Resolves t s s' ret := by
  intro hall
  have hspec := manyLinks_spec (2 ^ 32)
  have htargets : TargetsExist (manyLinks (2 ^ 32)) :=
    fun _ hn => ⟨1, lookupTarget_manyLinks hn⟩
  obtain ⟨s', ret, hrun, hret, -, hcount⟩ := resolveHardLinks_ends hspec.reachable.linked htargets
    ⟨fun _ => none, fun _ => 0⟩
  have hzero : ret = 0 := hret.2 fun _ hn => ⟨1, chainEnds_manyLinks hn⟩
  have hresolves := hall _ hspec.reachable htargets _ s' ret _ (hrun _ (Nat.lt_succ_self _))
  have hsame := (hresolves.linkCount hzero 1).symm.trans (hcount hzero 1)
  rw [linksTo_manyLinks] at hsame
  exact absurd hsame (by decide)

end ManyLinks

end ImageTool.Fstree.NodeTree
