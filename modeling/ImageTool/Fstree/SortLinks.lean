import ImageTool.Fstree.SortList
import ImageTool.Fstree.TreeSort
import Mathlib.Data.List.Perm.Subperm

/-!
# Sorting the tree by its pointers

The nodes of a tree as the source links them: the children of a directory through `next`, the
nodes of a type through `next_by_type`.  Sorting relinks them; the tree whose children are
lists says what the pointers then mean.
-/

namespace ImageTool.Fstree

open Lib

/-- The pointers between the nodes of a tree. -/
structure TreeLinks where
  next : Nat → Option Nat
  nextByType : Nat → Option Nat
  children : Nat → Option Nat
  nodesByType : TreeNodeType → Option Nat

/-- `for (it = head; it != NULL; it = it->next)`; the number bounds the loop. -/
def forEach {σ : Type} (next : σ → Nat → Option Nat) (body : σ → Nat → Option σ) :
    Nat → σ → Option Nat → Option σ
  | _, s, none => some s
  | 0, _, some _ => none
  | fuel + 1, s, some it => do
      let s ← body s it
      forEach next body fuel s (next s it)

/-- `strcmp`. -/
def strcmp (lhs rhs : List UInt8) : Int :=
  if lhs < rhs then -1 else if lhs = rhs then 0 else 1

/-- `name_compare_cb`. -/
def nameCompareCb (t : NodeTree) (lhs rhs : Nat) : Int :=
  strcmp (t.node lhs).name (t.node rhs).name

/-- What `linearize_dir_tree` has put together: `list` and `list_last`. -/
structure Listing where
  links : TreeLinks
  list : Option Nat
  listLast : Option Nat

/-- `while (list_last->next_by_type != NULL) list_last = list_last->next_by_type`; the number
bounds the loop. -/
def walkToEnd (nextByType : Nat → Option Nat) : Nat → Nat → Option Nat
  | 0, _ => none
  | fuel + 1, last =>
      match nextByType last with
      | none => some last
      | some n => walkToEnd nextByType fuel n

namespace TreeLinks

/-- `fstree_sort_node_list`. -/
def sortNodeList (s : TreeLinks) (cb : Nat → Nat → Int) (fuel : Nat) (head : Option Nat) :
    Option (TreeLinks × Option Nat) := do
  let (next, head) ← sortLinks cb fuel s.next head
  some ({ s with next := next }, head)

/-- `fstree_sort_node_list_by_type`. -/
def sortNodeListByType (s : TreeLinks) (cb : Nat → Nat → Int) (fuel : Nat)
    (head : Option Nat) : Option (TreeLinks × Option Nat) := do
  let (nextByType, head) ← sortLinks cb fuel s.nextByType head
  some ({ s with nextByType := nextByType }, head)

/-- `node->next_by_type = it`. -/
def setNextByType (s : TreeLinks) (n : Nat) (it : Option Nat) : TreeLinks :=
  { s with nextByType := Function.update s.nextByType n it }

/-- `fstree_sort_node_recursive`; the number bounds the loops and the depth. -/
def sortNodeRecursive (t : NodeTree) : Nat → TreeLinks → Nat → Option TreeLinks
  | 0, _, _ => none
  | fuel + 1, s, n =>
      if (t.node n).type ≠ .dir then some s
      else do
        let (s, list) ← s.sortNodeList (nameCompareCb t) (fuel + 1) (s.children n)
        let s := { s with children := Function.update s.children n list }
        forEach next (sortNodeRecursive t fuel) (fuel + 1) s (s.children n)

/-- The first loop of `linearize_dir_tree`: a child of the type is put behind the list. -/
def listChild (t : NodeTree) (type : TreeNodeType) (l : Listing) (it : Nat) : Option Listing :=
  if (t.node it).type = type then do
    let l ←
      match l.list, l.listLast with
      | none, _ => some { l with list := some it }
      | some _, some last => some { l with links := l.links.setNextByType last (some it) }
      | some _, none => none
    some { l with listLast := some it, links := l.links.setNextByType it none }
  else some l

/-- A sublist is put behind the list, and `list_last` is moved to its end. -/
def appendSublist (fuel : Nat) (l : Listing) (sublist : Option Nat) : Option Listing :=
  match sublist with
  | none => some l
  | some sub => do
      let l ←
        match l.list, l.listLast with
        | none, _ => some { l with list := some sub, listLast := some sub }
        | some _, some last => some { l with links := l.links.setNextByType last (some sub) }
        | some _, none => none
      let last ← l.listLast
      let last ← walkToEnd l.links.nextByType fuel last
      some { l with listLast := some last }

/-- The second loop of `linearize_dir_tree`: the list of a directory is put behind the list. -/
def appendDirectory (t : NodeTree)
    (linearize : TreeLinks → Nat → Option (TreeLinks × Option Nat)) (fuel : Nat) (l : Listing)
    (it : Nat) : Option Listing :=
  if (t.node it).type ≠ .dir then some l
  else do
    let (s, sublist) ← linearize l.links it
    appendSublist fuel { l with links := s } sublist

/-- `linearize_dir_tree`; the number bounds the loops and the depth. -/
def linearizeDirTree (t : NodeTree) (type : TreeNodeType) :
    Nat → TreeLinks → Nat → Option (TreeLinks × Option Nat)
  | 0, _, _ => none
  | fuel + 1, s, n => do
      let l ← forEach (fun l => l.links.next) (listChild t type) (fuel + 1) ⟨s, none, none⟩
        (s.children n)
      let l ← forEach (fun l => l.links.next)
        (appendDirectory t (linearizeDirTree t type fuel) (fuel + 1)) (fuel + 1) l
        (l.links.children n)
      some (l.links, l.list)

/-- One turn of the loop of `fstree_sort` over the types. -/
def relistType (t : NodeTree) (s : TreeLinks) (type : TreeNodeType) : Option TreeLinks := do
  let (s, list) ← linearizeDirTree t type t.count s NodeTree.root
  some { s with nodesByType := Function.update s.nodesByType type list }

/-- `fstree_sort`. -/
def sort (t : NodeTree) (s : TreeLinks) : Option TreeLinks := do
  let s ← sortNodeRecursive t t.count s NodeTree.root
  let s ← TreeNodeType.all.foldlM (relistType t) s
  let s := s.setNextByType NodeTree.root (s.nodesByType .dir)
  some { s with nodesByType := Function.update s.nodesByType .dir (some NodeTree.root) }

end TreeLinks

section Names

theorem strcmp_nonpos (lhs rhs : List UInt8) : strcmp lhs rhs ≤ 0 ↔ lhs ≤ rhs := by
  unfold strcmp
  rw [List.le_iff_lt_or_eq]
  split
  · simp_all
  · split <;> simp_all

theorem cbLe_nameCompareCb (t : NodeTree) : cbLe (nameCompareCb t) = t.nameLe := by
  funext lhs rhs
  exact decide_eq_decide.2 (strcmp_nonpos ..)

theorem nameCompareCb_totalPreorder (t : NodeTree) : TotalPreorder (nameCompareCb t) where
  trans a b c hab hbc := by
    unfold nameCompareCb at hab hbc ⊢
    rw [strcmp_nonpos] at hab hbc ⊢
    exact List.le_trans hab hbc
  total a b := by
    unfold nameCompareCb
    rw [strcmp_nonpos, strcmp_nonpos]
    exact List.le_total ..

theorem sortNodeList_eq_mergeSort (le : Nat → Nat → Bool) (list : List Nat) :
    NodeTree.sortNodeList le list = list.mergeSort le := by
  fun_induction NodeTree.sortNodeList le list with
  | case1 => simp
  | case2 n => simp
  | case3 a b list half ihl ihr =>
      have hhalves : (a :: b :: list).mergeSort le = _ := mergeSort_halves le (by simp)
      rw [ihl, ihr, hhalves]
      rfl

end Names

/-! ## The children -/

namespace TreeLinks

section Children

variable {T t t₁ t₂ : NodeTree} {s s₁ s₂ : TreeLinks} {region region' : Nat → Prop} {n : Nat}

/-- A node is another one or below it. -/
def Within (T : NodeTree) (n p : Nat) : Prop :=
  p < T.count ∧ Relation.ReflTransGen (NodeTree.ParentOf T) p n

/-- The children of the directories of a region are linked. -/
def ChainsIn (T : NodeTree) (region : Nat → Prop) (t : NodeTree) (s : TreeLinks) : Prop :=
  ∀ p, p < T.count → region p → (T.node p).type = .dir →
    Chain s.next (s.children p) (t.node p).children

/-- The children in a region have been sorted, and all else stays. -/
structure SortedIn (T : NodeTree) (region : Nat → Prop) (t : NodeTree) (s : TreeLinks)
    (t' : NodeTree) (s' : TreeLinks) : Prop where
  reordered : NodeTree.Reordered t t'
  byType : t'.nodesByType = t.nodesByType
  chains : ChainsIn T region t' s'
  sorted : ∀ p, p < T.count → region p →
    (t'.node p).children = NodeTree.sortNodeList T.nameLe (t.node p).children
  other : ∀ p, ¬ region p → (t'.node p).children = (t.node p).children
  heads : ∀ p, ¬ region p → s'.children p = s.children p
  next : ∀ i, (∀ p, NodeTree.ParentOf T i p → ¬ region p) → s'.next i = s.next i
  nextByType : s'.nextByType = s.nextByType
  nodesByType : s'.nodesByType = s.nodesByType

theorem parentOf_of_mem (h : NodeTree.IsTree T) (hre : NodeTree.Reordered T t) {p c : Nat}
    (hp : p < T.count) (hc : c ∈ (t.node p).children) : NodeTree.ParentOf T c p :=
  (h.children p hp c ((hre.children p).mem_iff.1 hc)).2

/-- Sorting in a region keeps the chains of another one. -/
theorem SortedIn.keeps (h : SortedIn T region t s t₁ s₁) (hT : NodeTree.IsTree T)
    (hre : NodeTree.Reordered T t) (hapart : ∀ p, region' p → ¬ region p)
    (hchains : ChainsIn T region' t s) : ChainsIn T region' t₁ s₁ := by
  intro p hp hregion hdir
  rw [h.other p (hapart p hregion), h.heads p (hapart p hregion)]
  refine (hchains p hp hregion hdir).congr ?_
  intro c hc
  refine h.next c ?_
  intro q hq
  have heq : q = p := NodeTree.parentOf_unique hq (parentOf_of_mem hT hre hp hc)
  rw [heq]
  exact hapart p hregion

theorem SortedIn.trans (h : SortedIn T region t s t₁ s₁) (h' : SortedIn T region' t₁ s₁ t₂ s₂)
    (hT : NodeTree.IsTree T) (hre : NodeTree.Reordered T t)
    (hapart : ∀ p, region p → ¬ region' p) :
    SortedIn T (fun p => region p ∨ region' p) t s t₂ s₂ where
  reordered := h.reordered.trans h'.reordered
  byType := h'.byType.trans h.byType
  chains p hp hregion hdir := by
    by_cases hlast : region' p
    · exact h'.chains p hp hlast hdir
    · exact h'.keeps hT (hre.trans h.reordered) hapart h.chains p hp
        (hregion.resolve_right hlast) hdir
  sorted p hp hregion := by
    by_cases hlast : region' p
    · rw [h'.sorted p hp hlast, h.other p fun hfirst => hapart p hfirst hlast]
    · rw [h'.other p hlast, h.sorted p hp (hregion.resolve_right hlast)]
  other p hnot := by
    rw [not_or] at hnot
    rw [h'.other p hnot.2, h.other p hnot.1]
  heads p hnot := by
    rw [not_or] at hnot
    rw [h'.heads p hnot.2, h.heads p hnot.1]
  next i hnot := by
    rw [h'.next i fun p hp hin => hnot p hp (Or.inr hin),
      h.next i fun p hp hin => hnot p hp (Or.inl hin)]
  nextByType := h'.nextByType.trans h.nextByType
  nodesByType := h'.nodesByType.trans h.nodesByType

theorem SortedIn.refl_of_empty (hempty : ∀ p, p < T.count → ¬ region p) :
    SortedIn T region t s t s where
  reordered := NodeTree.Reordered.refl t
  byType := rfl
  chains p hp hregion := absurd hregion (hempty p hp)
  sorted p hp hregion := absurd hregion (hempty p hp)
  other _ _ := rfl
  heads _ _ := rfl
  next _ _ := rfl
  nextByType := rfl
  nodesByType := rfl

theorem SortedIn.region_iff (h : SortedIn T region t s t₁ s₁)
    (hiff : ∀ p, region p ↔ region' p) : SortedIn T region' t s t₁ s₁ := by
  have heq : region = region' := funext fun p => propext (hiff p)
  exact heq ▸ h

theorem within_iff (hT : NodeTree.IsTree T) (hn : n < T.count) (p : Nat) :
    Within T n p ↔ p = n ∨ ∃ c ∈ (T.node n).children, Within T c p := by
  unfold Within
  simp only [Relation.reflTransGen_iff_eq_or_transGen]
  constructor
  · intro h
    rcases h with ⟨hp, heq | hbelow⟩
    · exact Or.inl heq.symm
    · obtain ⟨c, hc, hcases⟩ := (hT.below_iff hp hn).1 hbelow
      exact Or.inr ⟨c, hc, hp, hcases.imp_left Eq.symm⟩
  · intro h
    rcases h with rfl | ⟨c, hc, hp, hcases⟩
    · exact ⟨hn, Or.inl rfl⟩
    · exact ⟨hp, Or.inr ((hT.below_iff hp hn).2 ⟨c, hc, hcases.imp_left Eq.symm⟩)⟩

theorem not_within_parent (hT : NodeTree.IsTree T) {c : Nat} (hn : n < T.count)
    (hc : c ∈ (T.node n).children) : ¬ Within T c n := by
  intro h
  have hlt := (hT.lt_child hn hc).1
  rcases Relation.reflTransGen_iff_eq_or_transGen.1 h.2 with heq | hbelow
  · omega
  · have hlt' := hT.below_lt hn hbelow
    omega

theorem nameLe_reordered (hre : NodeTree.Reordered T t) : t.nameLe = T.nameLe := by
  funext lhs rhs
  unfold NodeTree.nameLe
  rw [hre.name, hre.name]

/-- The children of one directory are sorted. -/
theorem sortNodeList_sortedIn (hT : NodeTree.IsTree T) (hre : NodeTree.Reordered T t)
    (hn : n < T.count) (hdir : (T.node n).type = .dir)
    (hchains : ChainsIn T (fun p => p = n) t s) {fuel : Nat}
    (hfuel : (T.node n).children.length < fuel) :
    ∃ s₀ head, s.sortNodeList (nameCompareCb T) fuel (s.children n) = some (s₀, head) ∧
      SortedIn T (fun p => p = n) t s
        (t.modify n fun node =>
          { node with children := NodeTree.sortNodeList t.nameLe (t.node n).children })
        { s₀ with children := Function.update s₀.children n head } := by
  have hperm := hre.children n
  have hchain : Chain s.next (s.children n) (t.node n).children := hchains n hn rfl hdir
  obtain ⟨next', head, hsort, hsorted, hkeep⟩ :=
    sortLinks_spec (nameCompareCb T) hchain (hperm.length_eq ▸ hfuel)
  rw [cbLe_nameCompareCb, ← sortNodeList_eq_mergeSort] at hsorted
  refine ⟨{ s with next := next' }, head, ?_, ?_⟩
  · simp [sortNodeList, hsort]
  have hle := nameLe_reordered hre
  have hself : ((t.modify n fun node =>
      { node with
          children := NodeTree.sortNodeList t.nameLe (t.node n).children }).node n).children =
      NodeTree.sortNodeList T.nameLe (t.node n).children := by
    rw [NodeTree.node_modify, if_pos rfl, hle]
  have hother : ∀ p, p ≠ n → (t.modify n fun node =>
      { node with children := NodeTree.sortNodeList t.nameLe (t.node n).children }).node p =
      t.node p := by
    intro p hp
    rw [NodeTree.node_modify, if_neg hp]
  constructor
  · exact NodeTree.reordered_modify rfl rfl rfl (NodeTree.sortNodeList_perm _ _)
  · rfl
  · intro p _ hp _
    subst hp
    rw [hself]
    change Chain next' (Function.update s.children p head p) _
    rw [Function.update_self]
    exact hsorted
  · intro p _ hp
    subst hp
    exact hself
  · exact fun p hp => congrArg TreeNode.children (hother p hp)
  · exact fun p hp => Function.update_of_ne hp ..
  · intro i hi
    exact hkeep i fun hmem => hi n (parentOf_of_mem hT hre hn hmem) rfl
  · rfl
  · rfl

/-- The loop over the children of a directory sorts what is below each of them. -/
theorem forEach_sortedIn (hT : NodeTree.IsTree T) (hn : n < T.count) {fuel : Nat}
    (hsort : ∀ c ∈ (T.node n).children, ∀ (t : NodeTree) (s : TreeLinks),
      NodeTree.Reordered T t → ChainsIn T (Within T c) t s →
      ∃ t' s', NodeTree.sortNodeRecursive fuel t c = some t' ∧
        sortNodeRecursive T fuel s c = some s' ∧ SortedIn T (Within T c) t s t' s')
    (list : List Nat) (hlist : ∀ c ∈ list, c ∈ (T.node n).children) (hnodup : list.Nodup)
    (it : Option Nat) (bound : Nat) (hbound : list.length ≤ bound)
    (hre : NodeTree.Reordered T t) (hit : Chain s.next it list)
    (hchains : ChainsIn T (fun p => ∃ c ∈ list, Within T c p) t s) :
    ∃ t' s', list.foldlM (NodeTree.sortNodeRecursive fuel) t = some t' ∧
      forEach TreeLinks.next (sortNodeRecursive T fuel) bound s it = some s' ∧
      SortedIn T (fun p => ∃ c ∈ list, Within T c p) t s t' s' := by
  induction list generalizing t s it bound with
  | nil =>
      rw [chain_nil] at hit
      subst hit
      refine ⟨t, s, rfl, ?_, SortedIn.refl_of_empty (by simp)⟩
      cases bound <;> rfl
  | cons c list ih =>
      obtain ⟨rfl, hrest⟩ := hit
      obtain ⟨hnot, hnodup'⟩ := List.nodup_cons.1 hnodup
      have hc := hlist c (List.mem_cons_self ..)
      have hlist' : ∀ d ∈ list, d ∈ (T.node n).children :=
        fun d hd => hlist d (List.mem_cons_of_mem _ hd)
      obtain ⟨t₁, s₁, ht₁, hs₁, hsorted⟩ := hsort c hc t s hre
        fun p hp hin => hchains p hp ⟨c, List.mem_cons_self .., hin⟩
      -- what is below one child is not below another one
      have hapart : ∀ p, (∃ d ∈ list, Within T d p) → ¬ Within T c p := by
        intro p hp hin
        obtain ⟨d, hd, hin'⟩ := hp
        have heq := hT.child_unique hn hc (hlist' d hd) hin.2 hin'.2
        rw [heq] at hnot
        exact hnot hd
      -- the children themselves are linked as before
      have hkept : ∀ d, d ∈ (T.node n).children → s₁.next d = s.next d := by
        intro d hd
        refine hsorted.next d ?_
        intro p hp
        have heq : p = n := NodeTree.parentOf_unique hp (hT.children n hn d hd).2
        rw [heq]
        exact not_within_parent hT hn hc
      have hrest₁ : Chain s₁.next (s₁.next c) list := by
        rw [hkept c hc]
        exact hrest.congr fun d hd => hkept d (hlist' d hd)
      have hchains₁ := hsorted.keeps hT hre hapart
        fun p hp hin => hchains p hp (hin.imp fun d hd => ⟨List.mem_cons_of_mem _ hd.1, hd.2⟩)
      cases bound with
      | zero => simp at hbound
      | succ bound =>
          obtain ⟨t', s', ht', hs', hsorted'⟩ := ih hlist' hnodup' (s₁.next c) bound
            (by simpa using hbound) (hre.trans hsorted.reordered) hrest₁ hchains₁
          refine ⟨t', s', ?_, ?_, ?_⟩
          · rw [List.foldlM_cons, ht₁]
            exact ht'
          · rw [forEach, hs₁]
            exact hs'
          · have hboth := hsorted.trans hsorted' hT hre fun p hp hin => hapart p hin hp
            exact hboth.region_iff (by simp)

/-- So many numbers are there between two others. -/
theorem length_lt_of_between {list : List Nat} {m : Nat} (hnodup : list.Nodup) (hnm : n < m)
    (hlist : ∀ i ∈ list, n < i ∧ i < m) : list.length < m - n := by
  have hsub : list ⊆ List.range' (n + 1) (m - n - 1) := by
    intro i hi
    have hbetween := hlist i hi
    rw [List.mem_range'_1]
    omega
  have hle := (hnodup.subperm hsub).length_le
  rw [List.length_range'] at hle
  omega

theorem children_eq_nil (hT : NodeTree.IsTree T) (hn : n < T.count)
    (hdir : (T.node n).type ≠ .dir) : (T.node n).children = [] := by
  rw [List.eq_nil_iff_forall_not_mem]
  intro c hc
  obtain ⟨hcount, hparent⟩ := hT.children n hn c hc
  exact hdir (hT.dir_of_below hcount (Relation.TransGen.single hparent))

/-- The lists and the pointers are sorted alike. -/
theorem sortNodeRecursive_sortedIn (hT : NodeTree.IsTree T) (fuel : Nat) (n : Nat)
    (hn : n < T.count) (hfuel : T.count ≤ fuel + n) (t : NodeTree) (s : TreeLinks)
    (hre : NodeTree.Reordered T t) (hchains : ChainsIn T (Within T n) t s) :
    ∃ t' s', NodeTree.sortNodeRecursive fuel t n = some t' ∧
      sortNodeRecursive T fuel s n = some s' ∧ SortedIn T (Within T n) t s t' s' := by
  induction fuel generalizing n t s with
  | zero => omega
  | succ fuel ih =>
      by_cases hdir : (T.node n).type = .dir
      · have hlength : (T.node n).children.length < fuel + 1 := by
          have hbetween := length_lt_of_between (hT.nodup n hn) hn fun c hc => hT.lt_child hn hc
          omega
        have hself : ∀ p, p = n → Within T n p := fun p hp => (within_iff hT hn p).2 (Or.inl hp)
        obtain ⟨s₀, head, hlist, hsorted⟩ := sortNodeList_sortedIn hT hre hn hdir
          (fun p hp heq => hchains p hp (hself p heq)) hlength
        have hperm : (NodeTree.sortNodeList t.nameLe (t.node n).children).Perm
            (T.node n).children := (NodeTree.sortNodeList_perm _ _).trans (hre.children n)
        have hapart : ∀ p, p = n → ¬ ∃ c ∈ NodeTree.sortNodeList t.nameLe (t.node n).children,
            Within T c p := by
          intro p hp hin
          obtain ⟨c, hc, hin⟩ := hin
          rw [hp] at hin
          exact not_within_parent hT hn (hperm.mem_iff.1 hc) hin
        have hbelow : ChainsIn T (fun p =>
            ∃ c ∈ NodeTree.sortNodeList t.nameLe (t.node n).children, Within T c p) t s := by
          intro p hp hin
          obtain ⟨c, hc, hin⟩ := hin
          exact hchains p hp ((within_iff hT hn p).2 (Or.inr ⟨c, hperm.mem_iff.1 hc, hin⟩))
        have hhead := hsorted.chains n hn rfl hdir
        rw [NodeTree.node_modify, if_pos rfl] at hhead
        have hloop := forEach_sortedIn hT hn
          (fun c hc t s hre hchains =>
            ih c (hT.lt_child hn hc).2 (by have hlt := (hT.lt_child hn hc).1; omega) t s hre
              hchains)
          _ (fun c hc => hperm.mem_iff.1 hc) (hperm.nodup_iff.2 (hT.nodup n hn)) _ (fuel + 1)
          (Nat.le_of_lt (hperm.length_eq ▸ hlength)) (hre.trans hsorted.reordered) hhead
          (hsorted.keeps hT hre (fun p hin hp => hapart p hp hin) hbelow)
        obtain ⟨t', s', ht', hs', hsorted'⟩ := hloop
        refine ⟨t', s', ?_, ?_, ?_⟩
        · rw [NodeTree.sortNodeRecursive, if_neg (by simpa using (hre.type n).trans hdir)]
          exact ht'
        · rw [sortNodeRecursive, if_neg (by simpa using hdir)]
          simp only [hlist, Option.bind_eq_bind, Option.bind_some]
          exact hs'
        · refine (hsorted.trans hsorted' hT hre hapart).region_iff ?_
          intro p
          rw [within_iff hT hn]
          simp only [hperm.mem_iff]
      · refine ⟨t, s, ?_, ?_, ?_⟩
        · rw [NodeTree.sortNodeRecursive, if_pos (by simpa using (hre.type n).trans_ne hdir)]
        · rw [sortNodeRecursive, if_pos hdir]
        · have hnil := children_eq_nil hT hn hdir
          have hself : ∀ p, Within T n p → p = n := by
            intro p hp
            rw [within_iff hT hn, hnil] at hp
            simpa using hp
          have hlist : (t.node n).children = [] := by
            have hperm := hre.children n
            rw [hnil] at hperm
            exact hperm.eq_nil
          constructor
          · exact NodeTree.Reordered.refl t
          · rfl
          · intro p _ hp hpdir
            rw [hself p hp] at hpdir
            exact absurd hpdir hdir
          · intro p _ hp
            rw [hself p hp, hlist, NodeTree.sortNodeList]
          · exact fun _ _ => rfl
          · exact fun _ _ => rfl
          · exact fun _ _ => rfl
          · rfl
          · rfl

end Children

end TreeLinks

end ImageTool.Fstree
