import ImageTool.Fstree.TreeInvariant
import Mathlib.Data.List.Perm.Basic
import Mathlib.Logic.Relation

/-!
# Sorting keeps the tree

Sorting puts the children of each directory into another order and lists the nodes of
each type anew.  A bound on the depth that the number of nodes gives is never reached.
-/

namespace ImageTool.Fstree.NodeTree

section Sorting

variable {t t' : NodeTree}

theorem sortNodeList_perm (le : Nat → Nat → Bool) (list : List Nat) :
    (sortNodeList le list).Perm list := by
  fun_induction sortNodeList le list with
  | case1 => exact List.Perm.refl _
  | case2 n => exact List.Perm.refl _
  | case3 a b list half ihl ihr =>
      have hmerge : (List.merge (sortNodeList le ((a :: b :: list).take half))
          (sortNodeList le ((a :: b :: list).drop half)) le).Perm
          (sortNodeList le ((a :: b :: list).take half) ++
            sortNodeList le ((a :: b :: list).drop half)) := List.merge_perm_append le
      have hhalves : ((a :: b :: list).take half ++ (a :: b :: list).drop half).Perm
          (a :: b :: list) := List.Perm.of_eq (List.take_append_drop ..)
      exact hmerge.trans ((ihl.append ihr).trans hhalves)

/-- The children of a node have larger numbers. -/
theorem IsTree.lt_child (h : IsTree t) {p c : Nat} (hp : p < t.count)
    (hc : c ∈ (t.node p).children) : p < c ∧ c < t.count := by
  obtain ⟨hlt, hparent⟩ := h.children p hp c hc
  have hroot : c ≠ root := by
    intro heq
    rw [heq, h.root_parent] at hparent
    cases hparent
  obtain ⟨q, hq, hql, _⟩ := h.parent c hlt hroot
  rw [hparent] at hq
  cases hq
  exact ⟨hql, hlt⟩

theorem exists_sortNodeRecursive (fuel : Nat) (t : NodeTree) (n : Nat) (h : IsTree t)
    (hn : n < t.count) (hfuel : t.count ≤ fuel + n) :
    ∃ t', sortNodeRecursive fuel t n = some t' ∧ Reordered t t' ∧
      t'.nodesByType = t.nodesByType := by
  induction fuel generalizing t n with
  | zero => omega
  | succ fuel ih =>
      unfold sortNodeRecursive
      split
      · exact ⟨t, rfl, Reordered.refl t, rfl⟩
      have hperm : (sortNodeList t.nameLe (t.node n).children).Perm (t.node n).children :=
        sortNodeList_perm _ _
      have hre : Reordered t (t.modify n fun node =>
          { node with children := sortNodeList t.nameLe (t.node n).children }) :=
        reordered_modify rfl rfl rfl hperm
      have hbelow : ∀ c ∈ sortNodeList t.nameLe (t.node n).children, n < c ∧ c < t.count :=
        fun c hc => h.lt_child hn (hperm.mem_iff.1 hc)
      -- the loop over the children
      have hloop : ∀ (list : List Nat) (t₁ : NodeTree), Reordered t t₁ →
          (∀ c ∈ list, n < c ∧ c < t.count) →
          ∃ t', list.foldlM (sortNodeRecursive fuel) t₁ = some t' ∧ Reordered t t' ∧
            t'.nodesByType = t₁.nodesByType := by
        intro list
        induction list with
        | nil => exact fun t₁ hre _ => ⟨t₁, rfl, hre, rfl⟩
        | cons c list ihl =>
            intro t₁ hre₁ hlist
            obtain ⟨hnc, hct⟩ := hlist c (List.mem_cons_self ..)
            have hcount := hre₁.count
            obtain ⟨t₂, hsort, hre₂, hby₂⟩ :=
              ih t₁ c (h.reorder hre₁) (by omega) (by omega)
            obtain ⟨t', hrest, hre', hby'⟩ := ihl t₂ (hre₁.trans hre₂)
              fun d hd => hlist d (List.mem_cons_of_mem _ hd)
            refine ⟨t', ?_, hre', hby'.trans hby₂⟩
            rw [List.foldlM_cons, hsort]
            exact hrest
      exact hloop _ _ hre hbelow

/-! ## The nodes below a node -/

/-- The parent pointer of one node leads to another one. -/
def ParentOf (t : NodeTree) (i p : Nat) : Prop := (t.node i).parent = some p

/-- A node reaches another one over one or more parent pointers. -/
def Below (t : NodeTree) (i n : Nat) : Prop := Relation.TransGen (ParentOf t) i n

theorem parentOf_unique : Relator.RightUnique (ParentOf t) := by
  intro i p q hp hq
  exact Option.some.inj (hp.symm.trans hq)

theorem IsTree.parentOf_lt (h : IsTree t) {i p : Nat} (hi : i < t.count)
    (hp : ParentOf t i p) : p < i ∧ i ∈ (t.node p).children := by
  have hroot : i ≠ root := by
    intro heq
    rw [heq, ParentOf, h.root_parent] at hp
    cases hp
  obtain ⟨q, hq, hlt, _, hmem⟩ := h.parent i hi hroot
  cases hq.symm.trans hp
  exact ⟨hlt, hmem⟩

theorem IsTree.below_lt (h : IsTree t) {i n : Nat} (hi : i < t.count) (hbelow : Below t i n) :
    n < i := by
  induction hbelow with
  | single hp => exact (h.parentOf_lt hi hp).1
  | tail _ hp ih => exact Nat.lt_trans (h.parentOf_lt (Nat.lt_trans ih hi) hp).1 ih

/-- A node below a directory is one of its children or below one of them. -/
theorem IsTree.below_iff (h : IsTree t) {i n : Nat} (hi : i < t.count) (hn : n < t.count) :
    Below t i n ↔ ∃ c ∈ (t.node n).children, i = c ∨ Below t i c := by
  constructor
  · intro hbelow
    obtain ⟨c, hc, hp⟩ := Relation.TransGen.tail'_iff.1 hbelow
    rcases Relation.reflTransGen_iff_eq_or_transGen.1 hc with rfl | hc
    · exact ⟨_, (h.parentOf_lt hi hp).2, Or.inl rfl⟩
    · exact ⟨c, (h.parentOf_lt (Nat.lt_trans (h.below_lt hi hc) hi) hp).2, Or.inr hc⟩
  · rintro ⟨c, hc, hcases⟩
    have hp : ParentOf t c n := (h.children n hn c hc).2
    rcases hcases with rfl | hc
    · exact Relation.TransGen.single hp
    · exact Relation.TransGen.tail hc hp

/-- Children of one directory have nothing below them in common. -/
theorem IsTree.child_unique (h : IsTree t) {i n c d : Nat} (hn : n < t.count)
    (hc : c ∈ (t.node n).children) (hd : d ∈ (t.node n).children)
    (hic : Relation.ReflTransGen (ParentOf t) i c) (hid : Relation.ReflTransGen (ParentOf t) i d) :
    c = d := by
  have hup : ∀ c d, c ∈ (t.node n).children → d ∈ (t.node n).children →
      Relation.ReflTransGen (ParentOf t) c d → c = d := by
    intro c d hc hd hcd
    rcases Relation.reflTransGen_iff_eq_or_transGen.1 hcd with heq | hbelow
    · exact heq.symm
    -- the way up from a child leads over the directory
    · exfalso
      obtain ⟨q, hq, hrest⟩ := Relation.TransGen.head'_iff.1 hbelow
      obtain ⟨hcl, hcp⟩ := h.children n hn c hc
      cases hq.symm.trans hcp
      have hlt := (h.lt_child hn hd).1
      rcases Relation.reflTransGen_iff_eq_or_transGen.1 hrest with heq | hbelow'
      · omega
      · have hlt' := h.below_lt hn hbelow'
        omega
  rcases Relation.ReflTransGen.total_of_right_unique parentOf_unique hic hid with hcd | hdc
  · exact hup c d hc hd hcd
  · exact (hup d c hd hc hdc).symm

theorem IsTree.dir_of_below (h : IsTree t) {i n : Nat} (hi : i < t.count)
    (hbelow : Below t i n) : (t.node n).type = .dir := by
  obtain ⟨c, hc, hp⟩ := Relation.TransGen.tail'_iff.1 hbelow
  have hct : c < t.count := by
    rcases Relation.reflTransGen_iff_eq_or_transGen.1 hc with heq | hc
    · rwa [heq]
    · exact Nat.lt_trans (h.below_lt hi hc) hi
  have hroot : c ≠ root := by
    intro heq
    rw [heq, ParentOf, h.root_parent] at hp
    cases hp
  obtain ⟨q, hq, _, hdir, _⟩ := h.parent c hct hroot
  cases hq.symm.trans hp
  exact hdir

/-- The kept nodes below a directory: those among its children, then those below each directory
among them; the number bounds the depth. -/
def nodesBelow (t : NodeTree) (keep : TreeNodeType → Bool) : Nat → Nat → Option (List Nat)
  | 0, _ => none
  | fuel + 1, n => do
      let list := (t.node n).children.filter fun it => keep (t.node it).type
      let dirs := (t.node n).children.filter fun it => (t.node it).type = .dir
      let sublists ← dirs.mapM (nodesBelow t keep fuel)
      some (list ++ sublists.flatten)

theorem linearizeDirTree_eq (fuel : Nat) (t : NodeTree) (type : TreeNodeType) (n : Nat) :
    linearizeDirTree fuel t type n = nodesBelow t (fun it => decide (it = type)) fuel n := by
  induction fuel generalizing n with
  | zero => rfl
  | succ fuel ih =>
      have hsub : linearizeDirTree fuel t type =
          nodesBelow t (fun it => decide (it = type)) fuel := funext ih
      rw [linearizeDirTree, nodesBelow, hsub]

/-- The lists of some children, one after the other. -/
theorem exists_mapM_nodesBelow (h : IsTree t) {keep : TreeNodeType → Bool} {fuel n : Nat}
    (hn : n < t.count) (hsub : ∀ c ∈ (t.node n).children,
      ∃ list, nodesBelow t keep fuel c = some list ∧ list.Nodup ∧
        ∀ i, i ∈ list ↔ i < t.count ∧ keep (t.node i).type = true ∧ Below t i c)
    (dirs : List Nat) (hdirs : dirs.Nodup) (hmem : ∀ c ∈ dirs, c ∈ (t.node n).children) :
    ∃ lists, dirs.mapM (nodesBelow t keep fuel) = some lists ∧ lists.flatten.Nodup ∧
      ∀ i, i ∈ lists.flatten ↔
        i < t.count ∧ keep (t.node i).type = true ∧ ∃ c ∈ dirs, Below t i c := by
  induction dirs with
  | nil => exact ⟨[], rfl, List.nodup_nil, fun i => by simp⟩
  | cons c dirs ih =>
      obtain ⟨hnot, hdirs'⟩ := List.nodup_cons.1 hdirs
      have hc := hmem c (List.mem_cons_self ..)
      obtain ⟨list, hlist, hnodup, hin⟩ := hsub c hc
      obtain ⟨lists, hlists, hnodups, hins⟩ :=
        ih hdirs' fun d hd => hmem d (List.mem_cons_of_mem _ hd)
      refine ⟨list :: lists, ?_, ?_, ?_⟩
      · rw [List.mapM_cons, hlist, hlists]
        rfl
      · rw [List.flatten_cons]
        apply List.Nodup.append hnodup hnodups
        intro i hi hi'
        obtain ⟨_, _, hbelow⟩ := (hin i).1 hi
        obtain ⟨_, _, d, hd, hbelow'⟩ := (hins i).1 hi'
        have heq := h.child_unique hn hc (hmem d (List.mem_cons_of_mem _ hd))
          hbelow.to_reflTransGen hbelow'.to_reflTransGen
        exact hnot (heq ▸ hd)
      · intro i
        rw [List.flatten_cons, List.mem_append, hin, hins]
        constructor
        · rintro (⟨hi, htype, hbelow⟩ | ⟨hi, htype, d, hd, hbelow⟩)
          · exact ⟨hi, htype, c, List.mem_cons_self .., hbelow⟩
          · exact ⟨hi, htype, d, List.mem_cons_of_mem _ hd, hbelow⟩
        · rintro ⟨hi, htype, d, hd, hbelow⟩
          rcases List.mem_cons.1 hd with rfl | hd
          · exact Or.inl ⟨hi, htype, hbelow⟩
          · exact Or.inr ⟨hi, htype, d, hd, hbelow⟩

/-- The kept nodes below a directory are listed once each. -/
theorem exists_nodesBelow (h : IsTree t) (keep : TreeNodeType → Bool) (fuel : Nat) (n : Nat)
    (hn : n < t.count) (hfuel : t.count ≤ fuel + n) :
    ∃ list, nodesBelow t keep fuel n = some list ∧ list.Nodup ∧
      ∀ i, i ∈ list ↔ i < t.count ∧ keep (t.node i).type = true ∧ Below t i n := by
  induction fuel generalizing n with
  | zero => omega
  | succ fuel ih =>
      have hsub : ∀ c ∈ (t.node n).children,
          ∃ list, nodesBelow t keep fuel c = some list ∧ list.Nodup ∧
            ∀ i, i ∈ list ↔ i < t.count ∧ keep (t.node i).type = true ∧ Below t i c := by
        intro c hc
        obtain ⟨hnc, hct⟩ := h.lt_child hn hc
        exact ih c hct (by omega)
      obtain ⟨lists, hlists, hnodups, hins⟩ := exists_mapM_nodesBelow h hn hsub
        ((t.node n).children.filter fun it => (t.node it).type = .dir) ((h.nodup n hn).filter _)
        fun c hc => (List.mem_filter.1 hc).1
      refine ⟨_, by rw [nodesBelow, hlists]; rfl, ?_, ?_⟩
      · apply List.Nodup.append ((h.nodup n hn).filter _) hnodups
        intro i hi hi'
        have hchild := (List.mem_filter.1 hi).1
        obtain ⟨hit, _, c, hc, hbelow⟩ := (hins i).1 hi'
        have heq := h.child_unique hn hchild (List.mem_filter.1 hc).1 Relation.ReflTransGen.refl
          hbelow.to_reflTransGen
        have hlt := h.below_lt hit hbelow
        omega
      · intro i
        rw [List.mem_append, hins]
        constructor
        · rintro (hi | ⟨hi, htype, c, hc, hbelow⟩)
          · obtain ⟨hc, htype⟩ := List.mem_filter.1 hi
            have hit := (h.lt_child hn hc).2
            exact ⟨hit, htype, (h.below_iff hit hn).2 ⟨i, hc, Or.inl rfl⟩⟩
          · exact ⟨hi, htype,
              (h.below_iff hi hn).2 ⟨c, (List.mem_filter.1 hc).1, Or.inr hbelow⟩⟩
        · rintro ⟨hi, htype, hbelow⟩
          obtain ⟨c, hc, hcases⟩ := (h.below_iff hi hn).1 hbelow
          rcases hcases with rfl | hbelow'
          · exact Or.inl (List.mem_filter.2 ⟨hc, htype⟩)
          · have hdir := h.dir_of_below hi hbelow'
            exact Or.inr ⟨hi, htype, c, List.mem_filter.2 ⟨hc, decide_eq_true hdir⟩, hbelow'⟩

/-- The nodes of a type below a directory are listed once each. -/
theorem exists_linearizeDirTree (h : IsTree t) (type : TreeNodeType) (fuel : Nat) (n : Nat)
    (hn : n < t.count) (hfuel : t.count ≤ fuel + n) :
    ∃ list, linearizeDirTree fuel t type n = some list ∧ list.Nodup ∧
      ∀ i, i ∈ list ↔ i < t.count ∧ (t.node i).type = type ∧ Below t i n := by
  have hbelow := exists_nodesBelow h (fun it => decide (it = type)) fuel n hn hfuel
  simpa only [← linearizeDirTree_eq, decide_eq_true_eq] using hbelow

/-- Every node but the root is below the root. -/
theorem IsTree.below_root (h : IsTree t) (i : Nat) (hi : i < t.count) (hroot : i ≠ root) :
    Below t i root := by
  induction i using Nat.strong_induction_on with
  | _ i ih =>
      obtain ⟨p, hp, hlt, _⟩ := h.parent i hi hroot
      by_cases hpr : p = root
      · subst hpr
        exact Relation.TransGen.single hp
      · exact Relation.TransGen.head hp (ih p hlt (Nat.lt_trans hlt hi) hpr)

/-- The loop over the types lists the nodes of each type anew. -/
theorem exists_relist (h : IsTree t) (types : List TreeNodeType) :
    ∃ t', types.foldlM relistType t = some t' ∧ t'.count = t.count ∧ t'.node = t.node ∧
      (∀ type, type ∉ types → t'.nodesByType type = t.nodesByType type) ∧
      ∀ type ∈ types, (t'.nodesByType type).Nodup ∧ ∀ i, i ∈ t'.nodesByType type ↔
        i < t.count ∧ (t.node i).type = type ∧ Below t i root := by
  induction types generalizing t with
  | nil => exact ⟨t, rfl, rfl, rfl, fun _ _ => rfl, fun type htype => nomatch htype⟩
  | cons type types ih =>
      obtain ⟨list, hlist, hnodup, hin⟩ := exists_linearizeDirTree h type t.count root h.count_pos
        (Nat.le_add_right ..)
      have hre : Reordered t
          { t with nodesByType := Function.update t.nodesByType type list } :=
        ⟨rfl, fun _ => rfl, fun _ => rfl, fun _ => rfl, fun _ => List.Perm.refl _⟩
      obtain ⟨t', hfold, hcount, hnode, hkeep, hlisted⟩ := ih (h.reorder hre)
      refine ⟨t', ?_, hcount, hnode, ?_, ?_⟩
      · rw [List.foldlM_cons, relistType, hlist]
        exact hfold
      · intro other hother
        rw [List.mem_cons, not_or] at hother
        rw [hkeep other hother.2]
        exact Function.update_of_ne hother.1 ..
      · intro other hother
        by_cases hrest : other ∈ types
        · exact hlisted other hrest
        · have heq : other = type := (List.mem_cons.1 hother).resolve_right hrest
          subst heq
          rw [hkeep other hrest]
          have hself : Function.update t.nodesByType other list other = list :=
            Function.update_self ..
          change (Function.update t.nodesByType other list other).Nodup ∧ _
          rw [hself]
          refine ⟨hnodup, ?_⟩
          intro i
          change i ∈ Function.update t.nodesByType other list other ↔ _
          rw [hself]
          exact hin i

theorem mem_allTypes (type : TreeNodeType) : type ∈ TreeNodeType.all := by
  cases type <;> decide

/-- Sorting ends, and keeps the invariant. -/
theorem exists_sort (h : Linked t) :
    ∃ t', t.sort = some t' ∧ Linked t' ∧ Reordered t t' := by
  obtain ⟨t₁, hsort, hre, _⟩ := exists_sortNodeRecursive t.count t root h.toIsTree h.count_pos
    (Nat.le_add_right ..)
  have h₁ : IsTree t₁ := h.toIsTree.reorder hre
  obtain ⟨t₂, hrelist, hcount, hnode, _, hlisted⟩ := exists_relist h₁ TreeNodeType.all
  have hre₂ : Reordered t₁
      { t₂ with
        nodesByType :=
          Function.update t₂.nodesByType .dir (root :: t₂.nodesByType .dir) } := by
    refine ⟨hcount, ?_, ?_, ?_, ?_⟩
    · exact fun i => congrArg TreeNode.parent (congrFun hnode i)
    · exact fun i => congrArg TreeNode.name (congrFun hnode i)
    · exact fun i => congrArg TreeNode.type (congrFun hnode i)
    · exact fun i => List.Perm.of_eq (congrArg TreeNode.children (congrFun hnode i))
  have hsorted : t.sort = some { t₂ with
      nodesByType := Function.update t₂.nodesByType .dir (root :: t₂.nodesByType .dir) } := by
    rw [sort, hsort]
    change (TreeNodeType.all.foldlM relistType t₁).bind _ = _
    rw [hrelist]
    rfl
  refine ⟨_, hsorted, ⟨h₁.reorder hre₂, ?_, ?_⟩, hre.trans hre₂⟩
  · intro type
    change (Function.update t₂.nodesByType .dir _ type).Nodup
    obtain ⟨hnodup, hin⟩ := hlisted type (mem_allTypes type)
    rw [Function.update_apply]
    split
    · rename_i heq
      subst heq
      apply List.nodup_cons.2 ⟨_, hnodup⟩
      intro hroot
      obtain ⟨hlt, _, hbelow⟩ := (hin root).1 hroot
      exact Nat.lt_irrefl _ (h₁.below_lt hlt hbelow)
    · exact hnodup
  · intro type i
    change i ∈ Function.update t₂.nodesByType .dir _ type ↔ i < t₂.count ∧ (t₂.node i).type = type
    obtain ⟨_, hin⟩ := hlisted type (mem_allTypes type)
    rw [Function.update_apply, hcount, hnode]
    by_cases hroot : i = root
    · subst hroot
      have hnot : root ∉ t₂.nodesByType type := by
        intro hmem
        obtain ⟨hlt, _, hbelow⟩ := (hin root).1 hmem
        exact Nat.lt_irrefl _ (h₁.below_lt hlt hbelow)
      rw [h₁.root_type]
      split
      · rename_i heq
        have hpos : root < t₁.count := h₁.count_pos
        simp [heq, hpos]
      · rename_i heq
        simp [hnot, Ne.symm heq]
    · have hmem : (i ∈ if type = .dir then root :: t₂.nodesByType .dir else t₂.nodesByType type) ↔
          i ∈ t₂.nodesByType type := by
        split
        · rename_i heq
          rw [List.mem_cons, heq, or_iff_right hroot]
        · exact Iff.rfl
      rw [hmem, hin]
      constructor
      · exact fun ⟨hi, htype, _⟩ => ⟨hi, htype⟩
      · exact fun ⟨hi, htype⟩ => ⟨hi, htype, h₁.below_root i hi hroot⟩

/-- Sorting below a node changes the order of children only. -/
theorem sortNodeRecursive_node {fuel n : Nat} {t' : NodeTree}
    (hsort : sortNodeRecursive fuel t n = some t') (i : Nat) :
    ∃ cs, t'.node i = { t.node i with children := cs } := by
  induction fuel generalizing t n t' with
  | zero => cases hsort
  | succ fuel ih =>
      have hloop : ∀ (list : List Nat) (u u' : NodeTree),
          list.foldlM (sortNodeRecursive fuel) u = some u' →
          ∃ cs, u'.node i = { u.node i with children := cs } := by
        intro list
        induction list with
        | nil =>
            intro u u' hfold
            cases hfold
            exact ⟨(u.node i).children, rfl⟩
        | cons c list ihlist =>
            intro u u' hfold
            rw [List.foldlM_cons] at hfold
            obtain ⟨v, hfirst, hrest⟩ := Option.bind_eq_some_iff.1 hfold
            obtain ⟨cs, hcs⟩ := ih hfirst
            obtain ⟨cs', hcs'⟩ := ihlist v u' hrest
            exact ⟨cs', by rw [hcs', hcs]⟩
      rw [sortNodeRecursive] at hsort
      split at hsort
      · cases hsort
        exact ⟨(t.node i).children, rfl⟩
      · obtain ⟨cs, hcs⟩ := hloop _ _ _ hsort
        refine ⟨cs, ?_⟩
        rw [hcs, node_modify]
        split
        · rename_i heq
          rw [heq]
        · rfl

/-- Sorting changes nothing of a node but the order of its children. -/
theorem sort_node {t' : NodeTree} (hsort : t.sort = some t') (i : Nat) :
    ∃ cs, t'.node i = { t.node i with children := cs } := by
  obtain ⟨t₁, hfirst, hrest⟩ := Option.bind_eq_some_iff.1 hsort
  obtain ⟨t₂, hrelist, hlast⟩ := Option.bind_eq_some_iff.1 hrest
  obtain ⟨cs, hcs⟩ := sortNodeRecursive_node hfirst i
  have hnode : ∀ (types : List TreeNodeType) (u u' : NodeTree),
      types.foldlM relistType u = some u' → u'.node = u.node := by
    intro types
    induction types with
    | nil =>
        intro u u' hfold
        cases hfold
        rfl
    | cons type types ih =>
        intro u u' hfold
        rw [List.foldlM_cons] at hfold
        obtain ⟨v, htype, htypes⟩ := Option.bind_eq_some_iff.1 hfold
        obtain ⟨list, -, hv⟩ := Option.bind_eq_some_iff.1 htype
        cases hv
        have hsame := ih _ _ htypes
        exact hsame
  cases hlast
  refine ⟨cs, ?_⟩
  change t₂.node i = _
  rw [hnode _ _ _ hrelist, hcs]

end Sorting

/-! ## Runs -/

/-- The calls that create nodes, and those that sort. -/
inductive TreeOp where
  | addDirectory (path : List UInt8)
  | addFile (path : List UInt8)
  | addFifo (path : List UInt8)
  | addSocket (path : List UInt8)
  | addBlockDevice (path : List UInt8) (devno : Nat)
  | addCharacterDevice (path : List UInt8) (devno : Nat)
  | addSymlink (path : List UInt8) (target : Option (List UInt8))
  | addHardLink (path : List UInt8) (target : Option (List UInt8))
  | nodeFromPath (start : Option Nat) (path : List UInt8) (len : Nat)
  | sort

/-- What a call leaves, whether it succeeds or fails.  There is no call that starts at
something which is not a node. -/
def step (t : NodeTree) : TreeOp → Option NodeTree
  | .addDirectory path => some (t.addDirectory path).1
  | .addFile path => some (t.addFile path).1
  | .addFifo path => some (t.addFifo path).1
  | .addSocket path => some (t.addSocket path).1
  | .addBlockDevice path devno => some (t.addBlockDevice path devno).1
  | .addCharacterDevice path devno => some (t.addCharacterDevice path devno).1
  | .addSymlink path target => some (t.addSymlink path target).1
  | .addHardLink path target => some (t.addHardLink path target).1
  | .nodeFromPath start path len =>
      if start.getD root < t.count then some (t.nodeFromPath start path len true).1 else some t
  | .sort => t.sort

/-- The tree of nodes as its users rely on it. -/
structure TreeInvariant (t : NodeTree) : Prop where
  child : ∀ i, i < t.count → i ≠ root → ∃ p, p < t.count ∧ (t.node i).parent = some p ∧
    (t.node p).type = .dir ∧ (t.node p).children.count i = 1
  children : ∀ p, p < t.count → ∀ c ∈ (t.node p).children,
    c < t.count ∧ (t.node c).parent = some p
  byType : ∀ i, i < t.count → ∀ type,
    (t.nodesByType type).count i = if (t.node i).type = type then 1 else 0
  byType_lt : ∀ type, ∀ i ∈ t.nodesByType type, i < t.count
  root_parent : (t.node root).parent = none
  toRoot : ∀ i, i < t.count → Relation.ReflTransGen (ParentOf t) i root
  acyclic : ∀ i, i < t.count → ¬ Relation.TransGen (ParentOf t) i i
  siblings : ∀ i j, i < t.count → j < t.count → i ≠ root →
    (t.node i).parent = (t.node j).parent → (t.node i).name = (t.node j).name → i = j

section Runs

variable {t : NodeTree}

theorem Linked.step (h : Linked t) (op : TreeOp) : ∃ t', t.step op = some t' ∧ Linked t' := by
  have hmask : ∀ type path, Linked (onCreated
      (fun n => { n with permissions := n.permissions &&& 0o666 })
        (t.mknodeAt path type none)).1 := by
    intro type path
    refine ((h.mknodeAt path type none).onCreated ?_ ?_ ?_ ?_).linked <;> exact fun _ => rfl
  have hdevice : ∀ type path devno, Linked (onCreated
      (fun n => { n with permissions := n.permissions &&& 0o666, deviceNumber := devno })
      (t.mknodeAt path type none)).1 := by
    intro type path devno
    refine ((h.mknodeAt path type none).onCreated ?_ ?_ ?_ ?_).linked <;> exact fun _ => rfl
  have hlink : ∀ type path target, Linked (onCreated
      (fun n => { n with permissions := 0o777 }) (t.mknodeAt path type target)).1 := by
    intro type path target
    refine ((h.mknodeAt path type target).onCreated ?_ ?_ ?_ ?_).linked <;> exact fun _ => rfl
  cases op with
  | addDirectory path => exact ⟨_, rfl, (h.mknodeAt path .dir none).linked⟩
  | addFile path => exact ⟨_, rfl, hmask .file path⟩
  | addFifo path => exact ⟨_, rfl, hmask .fifo path⟩
  | addSocket path => exact ⟨_, rfl, hmask .socket path⟩
  | addBlockDevice path devno => exact ⟨_, rfl, hdevice .blockDev path devno⟩
  | addCharacterDevice path devno => exact ⟨_, rfl, hdevice .charDev path devno⟩
  | addSymlink path target => exact ⟨_, rfl, hlink .symlink path target⟩
  | addHardLink path target => exact ⟨_, rfl, hlink .hardLink path target⟩
  | nodeFromPath start path len =>
      by_cases hstart : start.getD root < t.count
      · exact ⟨_, if_pos hstart, (h.walk true hstart (path.take len)).linked⟩
      · exact ⟨t, if_neg hstart, h⟩
  | sort =>
      obtain ⟨t', hsort, hlinked, _⟩ := exists_sort h
      exact ⟨t', hsort, hlinked⟩

theorem Linked.invariant (h : Linked t) : TreeInvariant t where
  child i hi hroot := by
    obtain ⟨p, hp, hlt, hdir, hmem⟩ := h.parent i hi hroot
    have hpt : p < t.count := Nat.lt_trans hlt hi
    exact ⟨p, hpt, hp, hdir, List.count_eq_one_of_mem (h.nodup p hpt) hmem⟩
  children := h.children
  byType i hi type := by
    split
    · rename_i htype
      exact List.count_eq_one_of_mem (h.byType_nodup type) ((h.mem_byType type i).2 ⟨hi, htype⟩)
    · rename_i htype
      exact List.count_eq_zero.2 fun hmem => htype ((h.mem_byType type i).1 hmem).2
  byType_lt type i hi := ((h.mem_byType type i).1 hi).1
  root_parent := h.root_parent
  toRoot i hi := by
    by_cases hroot : i = root
    · rw [hroot]
    · exact (h.below_root i hi hroot).to_reflTransGen
  acyclic i hi hcycle := Nat.lt_irrefl i (h.below_lt hi hcycle)
  siblings i j hi hj hroot hparent hname := by
    obtain ⟨p, hp, hlt, _, hmem⟩ := h.parent i hi hroot
    have hmem' : j ∈ (t.node p).children := (h.parentOf_lt hj (hparent.symm.trans hp)).2
    exact h.names p (Nat.lt_trans hlt hi) i hmem j hmem' hname

/-- After any calls, failed ones included, the nodes form a tree. -/
theorem run_treeInvariant (ops : List TreeOp) :
    ∃ t, ops.foldlM step create = some t ∧ TreeInvariant t := by
  have hrun : ∀ (ops : List TreeOp) (t : NodeTree), Linked t →
      ∃ t', ops.foldlM step t = some t' ∧ Linked t' := by
    intro ops
    induction ops with
    | nil => exact fun t h => ⟨t, rfl, h⟩
    | cons op ops ih =>
        intro t h
        obtain ⟨t₁, hstep, h₁⟩ := h.step op
        obtain ⟨t', hrest, h'⟩ := ih t₁ h₁
        refine ⟨t', ?_, h'⟩
        rw [List.foldlM_cons, hstep]
        exact hrest
  obtain ⟨t, hfold, h⟩ := hrun ops create create_linked
  exact ⟨t, hfold, h.invariant⟩

end Runs

end ImageTool.Fstree.NodeTree
