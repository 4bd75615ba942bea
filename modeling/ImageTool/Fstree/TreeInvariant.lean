import ImageTool.Fstree.Tree
import Mathlib.Data.List.Nodup

/-!
# Creating nodes keeps the tree

A node is created behind its parent, so parents have smaller numbers; this excludes
cycles and bounds the depth of the tree.
-/

namespace ImageTool.Fstree.NodeTree

/-- The child lists are those of a tree. -/
structure IsTree (t : NodeTree) : Prop where
  count_pos : 0 < t.count
  root_type : (t.node root).type = .dir
  root_parent : (t.node root).parent = none
  parent : ∀ i, i < t.count → i ≠ root → ∃ p, (t.node i).parent = some p ∧ p < i ∧
    (t.node p).type = .dir ∧ i ∈ (t.node p).children
  children : ∀ p, p < t.count → ∀ c ∈ (t.node p).children,
    c < t.count ∧ (t.node c).parent = some p
  nodup : ∀ p, p < t.count → (t.node p).children.Nodup
  names : ∀ p, p < t.count → ∀ c ∈ (t.node p).children, ∀ c' ∈ (t.node p).children,
    (t.node c).name = (t.node c').name → c = c'

/-- The invariant: a tree, and each node is in the list of its type. -/
structure Linked (t : NodeTree) : Prop extends IsTree t where
  byType_nodup : ∀ type, (t.nodesByType type).Nodup
  mem_byType : ∀ type i, i ∈ t.nodesByType type ↔ i < t.count ∧ (t.node i).type = type

theorem create_linked : Linked create := by
  have hnode : ∀ i, i < create.count → i = root := by
    intro i hi
    exact Nat.lt_one_iff.1 hi
  have hchildren : ∀ p, p < create.count → (create.node p).children = [] := by
    intro p hp
    rw [hnode p hp]
    rfl
  constructor
  · constructor
    · exact Nat.one_pos
    · rfl
    · rfl
    · exact fun i hi hroot => absurd (hnode i hi) hroot
    · intro p hp c hc
      rw [hchildren p hp] at hc
      cases hc
    · intro p hp
      rw [hchildren p hp]
      exact List.nodup_nil
    · intro p hp c hc
      rw [hchildren p hp] at hc
      cases hc
  · intro type
    unfold create
    dsimp only
    split
    · exact List.nodup_cons.2 ⟨List.not_mem_nil, List.nodup_nil⟩
    · exact List.nodup_nil
  · intro type i
    unfold create
    dsimp only
    constructor
    · intro hi
      split at hi
      · rename_i htype
        rw [List.mem_singleton.1 hi, htype]
        exact ⟨Nat.one_pos, rfl⟩
      · cases hi
    · rintro ⟨hi, htype⟩
      rw [Nat.lt_one_iff.1 hi] at htype ⊢
      change TreeNodeType.dir = type at htype
      rw [if_pos htype.symm]
      exact List.mem_singleton_self root

section Steps

variable {t t' : NodeTree} {n p : Nat} {f : TreeNode → TreeNode}

/-! ## Changes that keep the links -/

/-- The same nodes with the same links; children may stand in another order. -/
structure Reordered (t t' : NodeTree) : Prop where
  count : t'.count = t.count
  parent : ∀ i, (t'.node i).parent = (t.node i).parent
  name : ∀ i, (t'.node i).name = (t.node i).name
  type : ∀ i, (t'.node i).type = (t.node i).type
  children : ∀ i, (t'.node i).children.Perm (t.node i).children

theorem Reordered.refl (t : NodeTree) : Reordered t t :=
  ⟨rfl, fun _ => rfl, fun _ => rfl, fun _ => rfl, fun _ => List.Perm.refl _⟩

theorem Reordered.trans {t'' : NodeTree} (h : Reordered t t') (h' : Reordered t' t'') :
    Reordered t t'' where
  count := h'.count.trans h.count
  parent i := (h'.parent i).trans (h.parent i)
  name i := (h'.name i).trans (h.name i)
  type i := (h'.type i).trans (h.type i)
  children i := (h'.children i).trans (h.children i)

theorem node_modify (t : NodeTree) (n i : Nat) (f : TreeNode → TreeNode) :
    (t.modify n f).node i = if i = n then f (t.node n) else t.node i := by
  change Function.update t.node n (f (t.node n)) i = _
  rw [Function.update_apply]

theorem reordered_modify (hparent : (f (t.node n)).parent = (t.node n).parent)
    (hname : (f (t.node n)).name = (t.node n).name)
    (htype : (f (t.node n)).type = (t.node n).type)
    (hchildren : (f (t.node n)).children.Perm (t.node n).children) :
    Reordered t (t.modify n f) := by
  have hother : ∀ i, i ≠ n → (t.modify n f).node i = t.node i := by
    intro i hi
    rw [node_modify, if_neg hi]
  have hself : (t.modify n f).node n = f (t.node n) := by
    rw [node_modify, if_pos rfl]
  constructor
  · rfl
  · intro i
    by_cases hi : i = n
    · rw [hi, hself, hparent]
    · rw [hother i hi]
  · intro i
    by_cases hi : i = n
    · rw [hi, hself, hname]
    · rw [hother i hi]
  · intro i
    by_cases hi : i = n
    · rw [hi, hself, htype]
    · rw [hother i hi]
  · intro i
    by_cases hi : i = n
    · rw [hi, hself]
      exact hchildren
    · rw [hother i hi]

theorem IsTree.reorder (h : IsTree t) (hre : Reordered t t') : IsTree t' where
  count_pos := by
    rw [hre.count]
    exact h.count_pos
  root_type := (hre.type root).trans h.root_type
  root_parent := (hre.parent root).trans h.root_parent
  parent i hi hroot := by
    obtain ⟨p, hp, hlt, hdir, hmem⟩ := h.parent i (hre.count ▸ hi) hroot
    exact ⟨p, (hre.parent i).trans hp, hlt, (hre.type p).trans hdir,
      (hre.children p).mem_iff.2 hmem⟩
  children p hp c hc := by
    obtain ⟨hlt, hparent⟩ := h.children p (hre.count ▸ hp) c ((hre.children p).mem_iff.1 hc)
    exact ⟨by rwa [hre.count], (hre.parent c).trans hparent⟩
  nodup p hp := (hre.children p).nodup_iff.2 (h.nodup p (hre.count ▸ hp))
  names p hp c hc c' hc' hname := by
    rw [hre.name, hre.name] at hname
    exact h.names p (hre.count ▸ hp) c ((hre.children p).mem_iff.1 hc) c'
      ((hre.children p).mem_iff.1 hc') hname

theorem Linked.reorder (h : Linked t) (hre : Reordered t t')
    (htypes : t'.nodesByType = t.nodesByType) : Linked t' where
  toIsTree := h.toIsTree.reorder hre
  byType_nodup type := by
    rw [htypes]
    exact h.byType_nodup type
  mem_byType type i := by
    rw [htypes, hre.count, hre.type]
    exact h.mem_byType type i

/-! ## A new node -/

theorem node_link (t : NodeTree) (p : Nat) (n : TreeNode) (i : Nat) :
    (t.link p n).node i = if i = t.count then n else if i = p then
      { t.node p with children := t.count :: (t.node p).children } else t.node i := by
  change Function.update (t.modify p _).node t.count n i = _
  rw [Function.update_apply, node_modify]

/-- What linking a node changes of the others. -/
structure LinkedOthers (t t' : NodeTree) (p : Nat) : Prop where
  parent : ∀ i, i < t.count → (t'.node i).parent = (t.node i).parent
  name : ∀ i, i < t.count → (t'.node i).name = (t.node i).name
  type : ∀ i, i < t.count → (t'.node i).type = (t.node i).type
  children : ∀ i, i < t.count → (t'.node i).children =
    if i = p then t.count :: (t.node p).children else (t.node i).children

theorem linkedOthers_link {n : TreeNode} (hp : p < t.count) :
    LinkedOthers t (t.link p n) p := by
  have hself : (t.link p n).node p =
      { t.node p with children := t.count :: (t.node p).children } := by
    rw [node_link, if_neg (Nat.ne_of_lt hp), if_pos rfl]
  have hother : ∀ i, i < t.count → i ≠ p → (t.link p n).node i = t.node i := by
    intro i hi hip
    rw [node_link, if_neg (Nat.ne_of_lt hi), if_neg hip]
  constructor
  · intro i hi
    by_cases hip : i = p
    · rw [hip, hself]
    · rw [hother i hi hip]
  · intro i hi
    by_cases hip : i = p
    · rw [hip, hself]
    · rw [hother i hi hip]
  · intro i hi
    by_cases hip : i = p
    · rw [hip, hself]
    · rw [hother i hi hip]
  · intro i hi
    by_cases hip : i = p
    · rw [hip, hself, if_pos rfl]
    · rw [hother i hi hip, if_neg hip]

theorem findChild_eq_none (t : NodeTree) (n : Nat) (name : List UInt8) :
    t.findChild n name = none ↔ ∀ c ∈ (t.node n).children, (t.node c).name ≠ name := by
  unfold findChild
  rw [List.find?_eq_none]
  simp

theorem mem_of_findChild {name : List UInt8} {c : Nat} (h : t.findChild n name = some c) :
    c ∈ (t.node n).children := List.mem_of_find?_eq_some h

theorem link_new (t : NodeTree) (p : Nat) (n : TreeNode) : (t.link p n).node t.count = n := by
  rw [node_link, if_pos rfl]

/-- An old node has the children it had, and the parent has the new node. -/
theorem IsTree.mem_children_link (h : IsTree t) (hp : p < t.count) {n : TreeNode} {q c : Nat}
    (hq : q < t.count) (hc : c ∈ ((t.link p n).node q).children) :
    c = t.count ∧ q = p ∨ c < t.count ∧ c ∈ (t.node q).children := by
  rw [(linkedOthers_link hp).children q hq] at hc
  split at hc
  · rename_i heq
    subst heq
    exact (List.mem_cons.1 hc).imp (fun hc => ⟨hc, rfl⟩)
      fun hc => ⟨(h.children q hq c hc).1, hc⟩
  · exact Or.inr ⟨(h.children q hq c hc).1, hc⟩

/-- A new name is not among those of the other children. -/
theorem IsTree.names_link (h : IsTree t) (hp : p < t.count) {n : TreeNode}
    (hname : t.findChild p n.name = none) {q : Nat} (hq : q < t.count) :
    ∀ c ∈ ((t.link p n).node q).children, ∀ c' ∈ ((t.link p n).node q).children,
      ((t.link p n).node c).name = ((t.link p n).node c').name → c = c' := by
  have hothers : LinkedOthers t (t.link p n) p := linkedOthers_link hp
  have hfresh := (findChild_eq_none t p n.name).1 hname
  intro c hc c' hc' hnames
  rcases h.mem_children_link hp hq hc with ⟨rfl, rfl⟩ | ⟨hcl, hcm⟩
  · rcases h.mem_children_link hp hq hc' with ⟨rfl, _⟩ | ⟨hcl', hcm'⟩
    · rfl
    · rw [link_new, hothers.name c' hcl'] at hnames
      exact absurd hnames.symm (hfresh c' hcm')
  · rcases h.mem_children_link hp hq hc' with ⟨rfl, rfl⟩ | ⟨hcl', hcm'⟩
    · rw [link_new, hothers.name c hcl] at hnames
      exact absurd hnames (hfresh c hcm)
    · rw [hothers.name c hcl, hothers.name c' hcl'] at hnames
      exact h.names q hq c hcm c' hcm' hnames

theorem IsTree.link (h : IsTree t) (hp : p < t.count) (hdir : (t.node p).type = .dir)
    {n : TreeNode} (hparent : n.parent = some p) (hchildren : n.children = [])
    (hname : t.findChild p n.name = none) : IsTree (t.link p n) := by
  have hothers : LinkedOthers t (t.link p n) p := linkedOthers_link hp
  have hself := link_new t p n
  have hcount : (t.link p n).count = t.count + 1 := rfl
  have hroot : root < t.count := h.count_pos
  constructor
  · omega
  · rw [hothers.type root hroot, h.root_type]
  · rw [hothers.parent root hroot, h.root_parent]
  · intro i hi hne
    by_cases hnew : i = t.count
    · subst hnew
      refine ⟨p, by rw [hself, hparent], hp, by rw [hothers.type p hp, hdir], ?_⟩
      rw [hothers.children p hp, if_pos rfl]
      exact List.mem_cons_self ..
    · have hlt : i < t.count := by omega
      obtain ⟨q, hq, hql, hqdir, hmem⟩ := h.parent i hlt hne
      refine ⟨q, by rw [hothers.parent i hlt, hq], hql,
        by rw [hothers.type q (by omega), hqdir], ?_⟩
      rw [hothers.children q (by omega)]
      split
      · rename_i heq
        exact List.mem_cons_of_mem _ (heq ▸ hmem)
      · exact hmem
  · intro q hq c hc
    by_cases hnew : q = t.count
    · rw [hnew, hself, hchildren] at hc
      cases hc
    · have hlt : q < t.count := by omega
      rcases h.mem_children_link hp hlt hc with ⟨rfl, rfl⟩ | ⟨hcl, hcm⟩
      · exact ⟨by omega, by rw [hself, hparent]⟩
      · exact ⟨by omega, by rw [hothers.parent c hcl, (h.children q hlt c hcm).2]⟩
  · intro q hq
    by_cases hnew : q = t.count
    · rw [hnew, hself, hchildren]
      exact List.nodup_nil
    · have hlt : q < t.count := by omega
      rw [hothers.children q hlt]
      split
      · apply List.nodup_cons.2 ⟨_, h.nodup p hp⟩
        intro hmem
        have hcl := (h.children p hp _ hmem).1
        omega
      · exact h.nodup q hlt
  · intro q hq
    by_cases hnew : q = t.count
    · intro c hc
      rw [hnew, hself, hchildren] at hc
      cases hc
    · exact h.names_link hp hname (by omega)

theorem Linked.link (h : Linked t) (hp : p < t.count) (hdir : (t.node p).type = .dir)
    {n : TreeNode} (hparent : n.parent = some p) (hchildren : n.children = [])
    (hname : t.findChild p n.name = none) : Linked (t.link p n) := by
  have hothers : LinkedOthers t (t.link p n) p := linkedOthers_link hp
  have hcount : (t.link p n).count = t.count + 1 := rfl
  have hnot : ∀ type, t.count ∉ t.nodesByType type := by
    intro type hmem
    have hlt := ((h.mem_byType _ _).1 hmem).1
    omega
  constructor
  · exact h.toIsTree.link hp hdir hparent hchildren hname
  · intro type
    change (Function.update t.nodesByType n.type _ type).Nodup
    rw [Function.update_apply]
    split
    · exact List.nodup_cons.2 ⟨hnot n.type, h.byType_nodup n.type⟩
    · exact h.byType_nodup type
  · intro type i
    change i ∈ Function.update t.nodesByType n.type _ type ↔ _
    rw [Function.update_apply]
    by_cases hnew : i = t.count
    · subst hnew
      rw [link_new]
      split
      · rename_i heq
        simp [heq, hcount]
      · rename_i heq
        simp [hnot type, Ne.symm heq]
    · have hmem : (i ∈ if type = n.type then t.count :: t.nodesByType n.type
          else t.nodesByType type) ↔ i ∈ t.nodesByType type := by
        split
        · rename_i heq
          rw [List.mem_cons, heq, or_iff_right hnew]
        · exact Iff.rfl
      rw [hmem, h.mem_byType]
      constructor
      · rintro ⟨hi, htype⟩
        exact ⟨by omega, by rw [hothers.type i hi, htype]⟩
      · rintro ⟨hi, htype⟩
        have hlt : i < t.count := by omega
        exact ⟨hlt, by rwa [hothers.type i hlt] at htype⟩

/-! ## Paths -/

/-- What a walk along a path leaves: a tree with the nodes there were, and a node of it. -/
structure Walked (t : NodeTree) (r : NodeTree × Except Errno Nat) : Prop where
  linked : Linked r.1
  count_le : t.count ≤ r.1.count
  node_lt : ∀ m, r.2 = .ok m → m < r.1.count

theorem Walked.mono (h : t.count ≤ t'.count) {r : NodeTree × Except Errno Nat}
    (hr : Walked t' r) : Walked t r :=
  ⟨hr.linked, Nat.le_trans h hr.count_le, hr.node_lt⟩

theorem Linked.failed (h : Linked t) (e : Errno) : Walked t (t, .error e) :=
  ⟨h, Nat.le_refl _, fun _ hm => nomatch hm⟩

theorem Linked.reached (h : Linked t') (hle : t.count ≤ t'.count) (hn : n < t'.count) :
    Walked t (t', .ok n) := by
  refine ⟨h, hle, ?_⟩
  intro m hm
  cases hm
  exact hn

theorem Linked.parent_lt (h : Linked t) (hn : n < t.count) :
    (t.node n).parent.getD n < t.count := by
  by_cases hroot : n = root
  · rw [hroot, h.root_parent]
    exact h.count_pos
  · obtain ⟨p, hp, hlt, _⟩ := h.parent n hn hroot
    rw [hp]
    exact Nat.lt_trans hlt hn

theorem Linked.walk (h : Linked t) (createImplicit : Bool) (hn : n < t.count)
    (path : List UInt8) : Walked t (walk createImplicit t n path) := by
  fun_induction NodeTree.walk createImplicit t n path with
  | case1 t n => exact h.reached (Nat.le_refl _) hn
  | case2 t n path ih => exact ih h hn
  | case3 t n c path hslash hdir => exact h.failed _
  | case4 t n c path hslash comp rest hdir hdot ih => exact ih h hn
  | case5 t n c path hslash comp rest hdir hdot hdots ih => exact ih h (h.parent_lt hn)
  | case6 t n c path hslash comp rest hdir hdot hdots it hfound ih =>
      exact ih h (h.children n hn it (mem_of_findChild hfound)).1
  | case7 t n c path hslash comp rest hdir hdot hdots hfound hcreate ih =>
      have hlink : Linked (t.link n (t.implicitDir n comp)) :=
        h.link hn (not_not.1 hdir) rfl rfl hfound
      exact (ih hlink (Nat.lt_succ_self _)).mono (Nat.le_succ _)
  | case8 t n c path hslash comp hdir hdot hdots hfound hcreate => exact h.failed _

theorem Linked.nodeFromPath (h : Linked t) {start : Option Nat}
    (hstart : ∀ n, start = some n → n < t.count) (path : List UInt8) (len : Nat)
    (createImplicit : Bool) : Walked t (t.nodeFromPath start path len createImplicit) := by
  apply h.walk
  cases start with
  | none => exact h.count_pos
  | some n => exact hstart n rfl

theorem Linked.mknodeAt (h : Linked t) (path : List UInt8) (type : TreeNodeType)
    (extra : Option (List UInt8)) : Walked t (t.mknodeAt path type extra) := by
  unfold NodeTree.mknodeAt
  split
  · exact h.failed _
  have hwalk : Walked t (t.nodeFromPath none path (prefixLen path) true) := by
    apply h.nodeFromPath
    intro n hn
    cases hn
  split
  · rename_i t₁ e heq
    rw [heq] at hwalk
    exact ⟨hwalk.linked, hwalk.count_le, fun _ hm => nomatch hm⟩
  · rename_i t₁ parent heq
    rw [heq] at hwalk
    have h₁ : Linked t₁ := hwalk.linked
    have hparent : parent < t₁.count := hwalk.node_lt parent rfl
    have hcount : t.count ≤ t₁.count := hwalk.count_le
    apply Walked.mono hcount
    split
    · exact h₁.failed _
    rename_i hdir
    split
    · rename_i n hfound
      split
      · exact h₁.failed _
      split
      · exact h₁.failed _
      -- an implicit directory becomes an explicit one
      have hre : Reordered t₁
          (t₁.modify n fun node => { node with createdImplicitly := false }) :=
        reordered_modify rfl rfl rfl (List.Perm.refl _)
      exact (h₁.reorder hre rfl).reached (Nat.le_refl t₁.count)
        (h₁.children parent hparent n (mem_of_findChild hfound)).1
    · rename_i hfound
      have hlink : Linked (t₁.link parent (t₁.explicitNode parent (suffix path) type extra)) :=
        h₁.link hparent (not_not.1 hdir) rfl rfl hfound
      exact hlink.reached (Nat.le_succ t₁.count) (Nat.lt_succ_self _)

theorem Walked.onCreated {r : NodeTree × Except Errno Nat} (h : Walked t r)
    (hparent : ∀ node, (f node).parent = node.parent) (hname : ∀ node, (f node).name = node.name)
    (htype : ∀ node, (f node).type = node.type)
    (hchildren : ∀ node, (f node).children = node.children) : Walked t (onCreated f r) := by
  obtain ⟨t₁, res⟩ := r
  cases res with
  | error e => exact h
  | ok n =>
      have hre : Reordered t₁ (t₁.modify n f) :=
        reordered_modify (hparent _) (hname _) (htype _) (hchildren (t₁.node n) ▸ List.Perm.refl _)
      exact ⟨h.linked.reorder hre rfl, h.count_le, h.node_lt⟩

end Steps

end ImageTool.Fstree.NodeTree
