import ImageTool.Fstree.PathComponents
import ImageTool.Fstree.TreeSort

/-!
# Looking up nodes

The walk along a path is a walk along its components.  Without implicit creation it leaves the
tree as it is, and it finds the same node again in every tree that has more nodes.
-/

namespace ImageTool.Fstree.NodeTree

/-- The walk of `fstree_node_from_path` along components. -/
def walkNames (createImplicit : Bool) (t : NodeTree) (n : Nat) :
    List (List UInt8) → NodeTree × Except Errno Nat
  | [] => (t, .ok n)
  | comp :: rest =>
      if (t.node n).type ≠ .dir then (t, .error .enotdir)
      else if comp = [dot] then walkNames createImplicit t n rest
      else if comp = [dot, dot] then
        walkNames createImplicit t ((t.node n).parent.getD n) rest
      else
        match t.findChild n comp with
        | some it => walkNames createImplicit t it rest
        | none =>
            if createImplicit then
              walkNames createImplicit (t.link n (t.implicitDir n comp)) t.count rest
            else (t, .error .enoent)

-- the equations of the function are derived here, once for all of the lemmas
attribute [local simp] walkNames

section Walk

variable {t t' : NodeTree} {n m : Nat} {path : List UInt8} {cs : List (List UInt8)}

/-- A component and what is behind it. -/
theorem components_head {c : UInt8} (hc : c ≠ slash) (path : List UInt8) :
    components (c :: path) =
      (c :: path.takeWhile (· ≠ slash)) :: components (path.dropWhile (· ≠ slash)) := by
  have hcomp : IsComponent (c :: path.takeWhile (· ≠ slash)) := by
    refine ⟨List.cons_ne_nil _ _, ?_⟩
    rw [List.mem_cons, not_or]
    refine ⟨Ne.symm hc, fun hmem => ?_⟩
    simpa using List.mem_takeWhile_imp hmem
  have hsplit : c :: path =
      (c :: path.takeWhile (· ≠ slash)) ++ path.dropWhile (· ≠ slash) := by
    rw [List.cons_append, List.takeWhile_append_dropWhile]
  cases hrest : path.dropWhile (· ≠ slash) with
  | nil =>
      rw [hrest, List.append_nil] at hsplit
      rw [hsplit, components_singleton hcomp, components_nil]
  | cons d rest =>
      have hd : d = slash := by
        have hhead := List.head?_dropWhile_not (fun x => decide (x ≠ slash)) path
        rw [hrest] at hhead
        simpa using hhead
      rw [hrest, hd] at hsplit
      rw [hd, hsplit, components_cons hcomp, components_slash_cons]

theorem walk_eq (createImplicit : Bool) (t : NodeTree) (n : Nat) (path : List UInt8) :
    walk createImplicit t n path = walkNames createImplicit t n (components path) := by
  fun_induction walk createImplicit t n path with
  | case1 t n => rfl
  | case2 t n path ih => rw [ih, components_slash_cons]
  | case3 t n c path hslash hdir =>
      rw [components_head hslash, walkNames, if_pos hdir]
  | case4 t n c path hslash comp rest hdir hdot ih =>
      rw [components_head hslash, walkNames, if_neg hdir, if_pos hdot, ih]
  | case5 t n c path hslash comp rest hdir hdot hdots ih =>
      rw [components_head hslash, walkNames, if_neg hdir, if_neg hdot, if_pos hdots, ih]
  | case6 t n c path hslash comp rest hdir hdot hdots it hfound ih =>
      rw [components_head hslash, walkNames, if_neg hdir, if_neg hdot, if_neg hdots, hfound, ih]
  | case7 t n c path hslash comp rest hdir hdot hdots hfound hcreate ih =>
      rw [components_head hslash, walkNames, if_neg hdir, if_neg hdot, if_neg hdots, hfound, ih]
      exact (if_pos hcreate).symm
  | case8 t n c path hslash comp hdir hdot hdots hfound hcreate =>
      rw [components_head hslash, walkNames, if_neg hdir, if_neg hdot, if_neg hdots, hfound]
      exact (if_neg hcreate).symm

theorem nodeFromPath_eq (start : Option Nat) (path : List UInt8) (len : Nat)
    (createImplicit : Bool) : t.nodeFromPath start path len createImplicit =
      walkNames createImplicit t (start.getD root) (components (path.take len)) := walk_eq ..

/-- Components one after the other. -/
theorem walkNames_append (createImplicit : Bool) (t : NodeTree) (n : Nat)
    (cs ds : List (List UInt8)) : walkNames createImplicit t n (cs ++ ds) =
      match walkNames createImplicit t n cs with
      | (t, .ok m) => walkNames createImplicit t m ds
      | (t, .error e) => (t, .error e) := by
  fun_induction walkNames createImplicit t n cs with
  | case1 t n => rfl
  | case2 t n comp rest hdir => rw [List.cons_append, walkNames, if_pos hdir]
  | case3 t n rest hdir ih =>
      rw [List.cons_append, walkNames, if_neg hdir, if_pos rfl, ih]
  | case4 t n rest hdir hdot ih =>
      rw [List.cons_append, walkNames, if_neg hdir, if_neg hdot, if_pos rfl, ih]
  | case5 t n comp rest hdir hdot hdots it hfound ih =>
      rw [List.cons_append, walkNames, if_neg hdir, if_neg hdot, if_neg hdots, hfound]
      exact ih
  | case6 t n comp rest hdir hdot hdots hfound hcreate ih =>
      rw [List.cons_append, walkNames, if_neg hdir, if_neg hdot, if_neg hdots, hfound, ← ih]
      exact if_pos hcreate
  | case7 t n comp rest hdir hdot hdots hfound hcreate =>
      rw [List.cons_append, walkNames, if_neg hdir, if_neg hdot, if_neg hdots, hfound]
      exact if_neg hcreate

/-! ## Without implicit creation -/

/-- The node that a walk without implicit creation finds. -/
def find (t : NodeTree) (n : Nat) (cs : List (List UInt8)) : Except Errno Nat :=
  (walkNames false t n cs).2

theorem walkNames_false (t : NodeTree) (n : Nat) (cs : List (List UInt8)) :
    walkNames false t n cs = (t, t.find n cs) := by
  have hsame : (walkNames false t n cs).1 = t := by
    induction cs generalizing n with
    | nil => rfl
    | cons comp rest ih =>
        rw [walkNames]
        split
        · rfl
        split
        · exact ih n
        split
        · exact ih _
        split
        · exact ih _
        · rfl
  exact Prod.ext hsame rfl

theorem nodeFromPath_false (start : Option Nat) (path : List UInt8) (len : Nat) :
    t.nodeFromPath start path len false =
      (t, t.find (start.getD root) (components (path.take len))) := by
  rw [nodeFromPath_eq, walkNames_false]

@[simp] theorem find_nil (t : NodeTree) (n : Nat) : t.find n [] = .ok n := rfl

/-- One step of a walk without implicit creation. -/
theorem find_cons (t : NodeTree) (n : Nat) (comp : List UInt8) (rest : List (List UInt8)) :
    t.find n (comp :: rest) =
      if (t.node n).type ≠ .dir then .error .enotdir
      else if comp = [dot] then t.find n rest
      else if comp = [dot, dot] then t.find ((t.node n).parent.getD n) rest
      else
        match t.findChild n comp with
        | some it => t.find it rest
        | none => .error .enoent := by
  rw [find, walkNames]
  split
  · rfl
  split
  · rfl
  split
  · rfl
  split
  · rfl
  · rfl

theorem find_append (t : NodeTree) (n : Nat) (cs ds : List (List UInt8)) :
    t.find n (cs ++ ds) =
      match t.find n cs with
      | .ok m => t.find m ds
      | .error e => .error e := by
  rw [find, walkNames_append, walkNames_false]
  cases t.find n cs <;> rfl

/-- A name that is neither of the two special ones. -/
def IsName (c : List UInt8) : Prop := c ≠ [dot] ∧ c ≠ [dot, dot]

theorem find_name {c : List UInt8} (hdir : (t.node n).type = .dir) (hc : IsName c)
    (cs : List (List UInt8)) : t.find n (c :: cs) =
      match t.findChild n c with
      | some it => t.find it cs
      | none => .error .enoent := by
  rw [find_cons, if_neg (not_not.2 hdir), if_neg hc.1, if_neg hc.2]

/-- A walk that meets no missing component is the same with and without implicit creation. -/
theorem walkNames_true_of_found (h : t.find n cs ≠ .error .enoent) :
    walkNames true t n cs = (t, t.find n cs) := by
  induction cs generalizing n with
  | nil => rfl
  | cons comp rest ih =>
      rw [find_cons] at h ⊢
      rw [walkNames]
      split
      · rfl
      · rename_i hdir
        rw [if_neg hdir] at h
        split
        · rename_i hdot
          rw [if_pos hdot] at h
          exact ih h
        · rename_i hdot
          rw [if_neg hdot] at h
          split
          · rename_i hdots
            rw [if_pos hdots] at h
            exact ih h
          · rename_i hdots
            rw [if_neg hdots] at h
            cases hfound : t.findChild n comp with
            | some it =>
                rw [hfound] at h
                exact ih h
            | none =>
                rw [hfound] at h
                exact absurd rfl h

end Walk

/-! ## Trees with more nodes -/

/-- The second tree has all nodes of the first one, at the same places. -/
structure Extends (t t' : NodeTree) : Prop where
  count_le : t.count ≤ t'.count
  parent : ∀ i, i < t.count → (t'.node i).parent = (t.node i).parent
  name : ∀ i, i < t.count → (t'.node i).name = (t.node i).name
  type : ∀ i, i < t.count → (t'.node i).type = (t.node i).type
  children : ∀ i, i < t.count → (t.node i).children ⊆ (t'.node i).children

section Extensions

variable {t t' t'' : NodeTree} {n m p : Nat} {cs : List (List UInt8)} {name : List UInt8}

theorem Extends.refl (t : NodeTree) : Extends t t :=
  ⟨Nat.le_refl _, fun _ _ => rfl, fun _ _ => rfl, fun _ _ => rfl, fun _ _ => List.Subset.refl _⟩

theorem Extends.trans (h : Extends t t') (h' : Extends t' t'') : Extends t t'' where
  count_le := Nat.le_trans h.count_le h'.count_le
  parent i hi := (h'.parent i (Nat.lt_of_lt_of_le hi h.count_le)).trans (h.parent i hi)
  name i hi := (h'.name i (Nat.lt_of_lt_of_le hi h.count_le)).trans (h.name i hi)
  type i hi := (h'.type i (Nat.lt_of_lt_of_le hi h.count_le)).trans (h.type i hi)
  children i hi := fun _ hc =>
    h'.children i (Nat.lt_of_lt_of_le hi h.count_le) (h.children i hi hc)

theorem Reordered.extends (h : Reordered t t') : Extends t t' where
  count_le := Nat.le_of_eq h.count.symm
  parent i _ := h.parent i
  name i _ := h.name i
  type i _ := h.type i
  children i _ := (h.children i).symm.subset

theorem extends_link {node : TreeNode} (hp : p < t.count) : Extends t (t.link p node) := by
  have hothers : LinkedOthers t (t.link p node) p := linkedOthers_link hp
  refine ⟨Nat.le_succ _, hothers.parent, hothers.name, hothers.type, ?_⟩
  intro i hi
  rw [hothers.children i hi]
  split
  · rename_i heq
    subst heq
    exact List.subset_cons_self _ _
  · exact List.Subset.refl _

/-- A child is found by its name. -/
theorem IsTree.findChild_eq (h : IsTree t) {c : Nat} (hn : n < t.count)
    (hc : c ∈ (t.node n).children) : t.findChild n (t.node c).name = some c := by
  obtain ⟨d, hd⟩ : ∃ d, t.findChild n (t.node c).name = some d := by
    rw [← Option.ne_none_iff_exists']
    intro hnone
    exact (findChild_eq_none t n _).1 hnone c hc rfl
  have hname : (t.node d).name = (t.node c).name := by simpa using List.find?_some hd
  rw [hd, h.names n hn d (mem_of_findChild hd) c hc hname]

theorem name_of_findChild {c : Nat} (h : t.findChild n name = some c) : (t.node c).name = name := by
  simpa using List.find?_some h

theorem Extends.findChild (h : Extends t t') (ht : IsTree t) (ht' : IsTree t') {c : Nat}
    (hn : n < t.count) (hfound : t.findChild n name = some c) : t'.findChild n name = some c := by
  have hmem := mem_of_findChild hfound
  have hc := (ht.children n hn c hmem).1
  have hfound' := ht'.findChild_eq (Nat.lt_of_lt_of_le hn h.count_le) (h.children n hn hmem)
  rwa [h.name c hc, name_of_findChild hfound] at hfound'

theorem IsTree.parent_getD_lt (h : IsTree t) (hn : n < t.count) :
    (t.node n).parent.getD n < t.count := by
  by_cases hroot : n = root
  · rw [hroot, h.root_parent]
    exact h.count_pos
  · obtain ⟨p, hp, hlt, _⟩ := h.parent n hn hroot
    rw [hp]
    exact Nat.lt_trans hlt hn

/-- What is found is a node. -/
theorem IsTree.find_lt (h : IsTree t) (hn : n < t.count) (hfind : t.find n cs = .ok m) :
    m < t.count := by
  induction cs generalizing n with
  | nil =>
      cases hfind
      exact hn
  | cons comp rest ih =>
      rw [find_cons] at hfind
      split at hfind
      · cases hfind
      split at hfind
      · exact ih hn hfind
      split at hfind
      · exact ih (h.parent_getD_lt hn) hfind
      split at hfind
      · rename_i it hfound
        exact ih (h.children n hn it (mem_of_findChild hfound)).1 hfind
      · cases hfind

/-- What a path leads to stays where it is. -/
theorem Extends.find (h : Extends t t') (ht : IsTree t) (ht' : IsTree t') (hn : n < t.count)
    (hfind : t.find n cs = .ok m) : t'.find n cs = .ok m := by
  induction cs generalizing n with
  | nil => exact hfind
  | cons comp rest ih =>
      rw [find_cons] at hfind ⊢
      rw [h.type n hn, h.parent n hn]
      split
      · rename_i hdir
        rw [if_pos hdir] at hfind
        cases hfind
      · rename_i hdir
        rw [if_neg hdir] at hfind
        split
        · rename_i hdot
          rw [if_pos hdot] at hfind
          exact ih hn hfind
        · rename_i hdot
          rw [if_neg hdot] at hfind
          split
          · rename_i hdots
            rw [if_pos hdots] at hfind
            exact ih (ht.parent_getD_lt hn) hfind
          · rename_i hdots
            rw [if_neg hdots] at hfind
            cases hfound : t.findChild n comp with
            | none =>
                rw [hfound] at hfind
                cases hfind
            | some it =>
                rw [hfound] at hfind
                rw [h.findChild ht ht' hn hfound]
                exact ih (ht.children n hn it (mem_of_findChild hfound)).1 hfind

/-- A child is found by its name, in whatever order the children stand. -/
theorem Reordered.findChild (h : Reordered t t') (ht : IsTree t) (hn : n < t.count)
    (name : List UInt8) : t'.findChild n name = t.findChild n name := by
  cases hfound : t.findChild n name with
  | some c => exact h.extends.findChild ht (ht.reorder h) hn hfound
  | none =>
      rw [findChild_eq_none] at hfound ⊢
      intro c hc
      rw [h.name]
      exact hfound c ((h.children n).mem_iff.1 hc)

theorem Reordered.find (h : Reordered t t') (ht : IsTree t) (hn : n < t.count) :
    t'.find n cs = t.find n cs := by
  induction cs generalizing n with
  | nil => rfl
  | cons comp rest ih =>
      rw [find_cons, find_cons, h.type, h.parent, h.findChild ht hn, ih hn,
        ih (ht.parent_getD_lt hn)]
      cases hfound : t.findChild n comp with
      | none => rfl
      | some it => simp only [ih (ht.children n hn it (mem_of_findChild hfound)).1]

end Extensions

/-! ## With implicit creation -/

/-- The second tree has the nodes of the first one, and directories that were created implicitly.
They stand in front of what was in the lists. -/
structure Grows (t t' : NodeTree) : Prop extends Extends t t' where
  kept : ∀ i, i < t.count →
    { t'.node i with children := [] } = { t.node i with children := [] }
  suffix_children : ∀ i, i < t.count → (t.node i).children <:+ (t'.node i).children
  suffix_byType : t.nodesByType .dir <:+ t'.nodesByType .dir
  byType : ∀ type, type ≠ .dir → t'.nodesByType type = t.nodesByType type
  implicit : ∀ i, t.count ≤ i → i < t'.count →
    (t'.node i).type = .dir ∧ (t'.node i).createdImplicitly = true

section Growing

variable {t t' t'' : NodeTree} {n m p d : Nat} {cs : List (List UInt8)} {e : Errno}

theorem Grows.refl (t : NodeTree) : Grows t t :=
  ⟨Extends.refl t, fun _ _ => rfl, fun _ _ => List.suffix_refl _, List.suffix_refl _,
    fun _ _ => rfl, fun _ hi hi' => absurd hi' (Nat.not_lt.2 hi)⟩

theorem Grows.createdImplicitly (h : Grows t t') (hn : n < t.count) :
    (t'.node n).createdImplicitly = (t.node n).createdImplicitly := by
  have hkept := congrArg TreeNode.createdImplicitly (h.kept n hn)
  exact hkept

theorem Grows.trans (h : Grows t t') (h' : Grows t' t'') : Grows t t'' where
  toExtends := h.toExtends.trans h'.toExtends
  kept i hi := (h'.kept i (Nat.lt_of_lt_of_le hi h.count_le)).trans (h.kept i hi)
  suffix_children i hi := (h.suffix_children i hi).trans
    (h'.suffix_children i (Nat.lt_of_lt_of_le hi h.count_le))
  suffix_byType := h.suffix_byType.trans h'.suffix_byType
  byType type htype := (h'.byType type htype).trans (h.byType type htype)
  implicit i hi hi' := by
    by_cases hlt : i < t'.count
    · rw [h'.type i hlt, h'.createdImplicitly hlt]
      exact h.implicit i hi hlt
    · exact h'.implicit i (Nat.not_lt.1 hlt) hi'

theorem grows_link (hp : p < t.count) (comp : List UInt8) :
    Grows t (t.link p (t.implicitDir p comp)) := by
  refine ⟨extends_link hp, ?_, ?_, ?_, ?_, ?_⟩
  · intro i hi
    rw [node_link, if_neg (Nat.ne_of_lt hi)]
    split
    · rename_i heq
      rw [heq]
    · rfl
  · intro i hi
    rw [(linkedOthers_link hp).children i hi]
    split
    · rename_i heq
      rw [heq]
      exact List.suffix_cons ..
    · exact List.suffix_refl _
  · have hdir : (t.link p (t.implicitDir p comp)).nodesByType .dir =
        t.count :: t.nodesByType .dir := by
      exact Function.update_self TreeNodeType.dir _ t.nodesByType
    rw [hdir]
    exact List.suffix_cons ..
  · intro type htype
    exact Function.update_of_ne htype ..
  · intro i hi hi'
    have heq : i = t.count := Nat.le_antisymm (Nat.lt_succ_iff.1 hi') hi
    rw [node_link, if_pos heq]
    exact ⟨rfl, rfl⟩

/-- What a walk leaves. -/
theorem Linked.walkNames (h : Linked t) (createImplicit : Bool) (hn : n < t.count)
    (cs : List (List UInt8)) :
    Walked t (walkNames createImplicit t n cs) ∧ Grows t (walkNames createImplicit t n cs).1 := by
  fun_induction NodeTree.walkNames createImplicit t n cs with
  | case1 t n => exact ⟨h.reached (Nat.le_refl _) hn, Grows.refl t⟩
  | case2 t n comp rest hdir => exact ⟨h.failed _, Grows.refl t⟩
  | case3 t n rest hdir ih => exact ih h hn
  | case4 t n rest hdir hdot ih => exact ih h (h.parent_lt hn)
  | case5 t n comp rest hdir hdot hdots it hfound ih =>
      exact ih h (h.children n hn it (mem_of_findChild hfound)).1
  | case6 t n comp rest hdir hdot hdots hfound hcreate ih =>
      have hlink : Linked (t.link n (t.implicitDir n comp)) :=
        h.link hn (not_not.1 hdir) rfl rfl hfound
      obtain ⟨hwalked, hgrows⟩ := ih hlink (Nat.lt_succ_self _)
      exact ⟨hwalked.mono (Nat.le_succ _), (grows_link hn comp).trans hgrows⟩
  | case7 t n comp rest hdir hdot hdots hfound hcreate => exact ⟨h.failed _, Grows.refl t⟩

theorem findChild_link (h : Linked t) (hn : n < t.count) (hdir : (t.node n).type = .dir)
    {comp : List UInt8} (hfound : t.findChild n comp = none) :
    (t.link n (t.implicitDir n comp)).findChild n comp = some t.count := by
  have hlink : Linked (t.link n (t.implicitDir n comp)) := h.link hn hdir rfl rfl hfound
  have hmem : t.count ∈ ((t.link n (t.implicitDir n comp)).node n).children := by
    rw [(linkedOthers_link hn).children n hn, if_pos rfl]
    exact List.mem_cons_self
  have hname := hlink.findChild_eq (Nat.lt_succ_of_lt hn) hmem
  rwa [node_link, if_pos rfl] at hname

/-- What a walk with implicit creation has reached is found afterwards. -/
theorem Linked.find_of_walkNames (h : Linked t) (hn : n < t.count)
    (hwalk : NodeTree.walkNames true t n cs = (t', .ok m)) : t'.find n cs = .ok m := by
  fun_induction NodeTree.walkNames true t n cs with
  | case1 t n =>
      cases hwalk
      rfl
  | case2 t n comp rest hdir => cases hwalk
  | case3 t n rest hdir ih =>
      have hgrows := (h.walkNames true hn rest).2
      rw [hwalk] at hgrows
      rw [find_cons, hgrows.type n hn, if_neg hdir, if_pos rfl]
      exact ih h hn hwalk
  | case4 t n rest hdir hdot ih =>
      have hgrows := (h.walkNames true (h.parent_lt hn) rest).2
      rw [hwalk] at hgrows
      rw [find_cons, hgrows.type n hn, if_neg hdir, if_neg hdot, if_pos rfl, hgrows.parent n hn]
      exact ih h (h.parent_lt hn) hwalk
  | case5 t n comp rest hdir hdot hdots it hfound ih =>
      have hit := (h.children n hn it (mem_of_findChild hfound)).1
      obtain ⟨hwalked, hgrows⟩ := h.walkNames true hit rest
      rw [hwalk] at hwalked hgrows
      rw [find_cons, hgrows.type n hn, if_neg hdir, if_neg hdot, if_neg hdots,
        hgrows.findChild h.toIsTree hwalked.linked.toIsTree hn hfound]
      exact ih h hit hwalk
  | case6 t n comp rest hdir hdot hdots hfound hcreate ih =>
      have hlink : Linked (t.link n (t.implicitDir n comp)) :=
        h.link hn (not_not.1 hdir) rfl rfl hfound
      have hlast : t.count < (t.link n (t.implicitDir n comp)).count := Nat.lt_succ_self _
      have hlater : n < (t.link n (t.implicitDir n comp)).count := Nat.lt_succ_of_lt hn
      obtain ⟨hwalked, hgrows⟩ := hlink.walkNames true hlast rest
      rw [hwalk] at hwalked hgrows
      rw [find_cons, ((grows_link hn comp).trans hgrows).type n hn, if_neg hdir, if_neg hdot,
        if_neg hdots, hgrows.findChild hlink.toIsTree hwalked.linked.toIsTree hlater
          (findChild_link h hn (not_not.1 hdir) hfound)]
      exact ih hlink hlast hwalk
  | case7 t n comp rest hdir hdot hdots hfound hcreate => exact absurd rfl hcreate

/-- Names lead downwards. -/
theorem IsTree.le_of_find (h : IsTree t) (hn : n < t.count) (hcs : ∀ c ∈ cs, IsName c)
    (hfind : t.find n cs = .ok m) : n + cs.length ≤ m := by
  induction cs generalizing n with
  | nil =>
      cases hfind
      exact Nat.le_refl _
  | cons comp rest ih =>
      rw [List.forall_mem_cons] at hcs
      rw [find_cons, if_neg hcs.1.1, if_neg hcs.1.2] at hfind
      split at hfind
      · cases hfind
      split at hfind
      · rename_i it hfound
        obtain ⟨hlt, hit⟩ := h.lt_child hn (mem_of_findChild hfound)
        have hle := ih hit hcs.2 hfind
        rw [List.length_cons]
        omega
      · cases hfind

/-- A walk over names reaches what was there, or something new. -/
theorem Linked.find_or_new (h : Linked t) (hn : n < t.count) (hcs : ∀ c ∈ cs, IsName c)
    (hwalk : NodeTree.walkNames true t n cs = (t', .ok m)) : t.find n cs = .ok m ∨ t.count ≤ m := by
  induction cs generalizing n with
  | nil =>
      cases hwalk
      exact Or.inl rfl
  | cons comp rest ih =>
      rw [List.forall_mem_cons] at hcs
      rw [NodeTree.walkNames, if_neg hcs.1.1, if_neg hcs.1.2] at hwalk
      rw [find_cons, if_neg hcs.1.1, if_neg hcs.1.2]
      split at hwalk
      · cases hwalk
      rename_i hdir
      rw [if_neg hdir]
      cases hfound : t.findChild n comp with
      | some it =>
          rw [hfound] at hwalk
          exact ih (h.children n hn it (mem_of_findChild hfound)).1 hcs.2 hwalk
      | none =>
          rw [hfound] at hwalk
          have hlink : Linked (t.link n (t.implicitDir n comp)) :=
            h.link hn (not_not.1 hdir) rfl rfl hfound
          have hlast : t.count < (t.link n (t.implicitDir n comp)).count := Nat.lt_succ_self _
          obtain ⟨hwalked, hgrows⟩ := hlink.walkNames true hlast rest
          have hfind := hlink.find_of_walkNames hlast hwalk
          rw [show NodeTree.walkNames true _ _ rest = (t', .ok m) from hwalk] at hwalked hgrows
          have hle := hwalked.linked.le_of_find (Nat.lt_of_lt_of_le hlast hgrows.count_le) hcs.2
            hfind
          exact Or.inr (by omega)

/-- A walk that meets a missing component creates it. -/
theorem Linked.count_lt_of_missing (h : Linked t) (hn : n < t.count)
    (hfind : t.find n cs = .error .enoent) :
    t.count < (NodeTree.walkNames true t n cs).1.count := by
  induction cs generalizing n with
  | nil => cases hfind
  | cons comp rest ih =>
      rw [find_cons] at hfind
      rw [NodeTree.walkNames]
      split at hfind
      · cases hfind
      rename_i hdir
      rw [if_neg hdir]
      split at hfind
      · rename_i hdot
        rw [if_pos hdot]
        exact ih hn hfind
      rename_i hdot
      rw [if_neg hdot]
      split at hfind
      · rename_i hdots
        rw [if_pos hdots]
        exact ih (h.parent_lt hn) hfind
      rename_i hdots
      rw [if_neg hdots]
      cases hfound : t.findChild n comp with
      | some it =>
          rw [hfound] at hfind
          exact ih (h.children n hn it (mem_of_findChild hfound)).1 hfind
      | none =>
          have hlink : Linked (t.link n (t.implicitDir n comp)) :=
            h.link hn (not_not.1 hdir) rfl rfl hfound
          have hgrows := (hlink.walkNames true (Nat.lt_succ_self _) rest).2
          exact hgrows.count_le

/-- Below an empty directory a walk without `..` creates all it needs. -/
theorem exists_walkNames_empty (hdir : (t.node n).type = .dir) (hempty : (t.node n).children = [])
    (hdots : [dot, dot] ∉ cs) :
    ∃ t' m, walkNames true t n cs = (t', .ok m) ∧ (t'.node m).type = .dir ∧
      (t'.node m).children = [] := by
  induction cs generalizing t n with
  | nil => exact ⟨t, n, rfl, hdir, hempty⟩
  | cons comp rest ih =>
      rw [List.mem_cons, not_or] at hdots
      rw [NodeTree.walkNames, if_neg (not_not.2 hdir)]
      split
      · exact ih hdir hempty hdots.2
      rw [if_neg (Ne.symm hdots.1)]
      have hfound : t.findChild n comp = none := by
        rw [findChild_eq_none, hempty]
        exact fun c hc => nomatch hc
      rw [hfound]
      have hnew : (t.link n (t.implicitDir n comp)).node t.count = t.implicitDir n comp := by
        rw [node_link, if_pos rfl]
      exact ih (by rw [hnew]; rfl) (by rw [hnew]; rfl) hdots.2

/-- A walk without `..` that meets a missing component ends at an empty directory. -/
theorem exists_walkNames_missing (hdots : [dot, dot] ∉ cs)
    (hfind : t.find n cs = .error .enoent) :
    ∃ t' m, walkNames true t n cs = (t', .ok m) ∧ (t'.node m).type = .dir ∧
      (t'.node m).children = [] := by
  induction cs generalizing n with
  | nil => cases hfind
  | cons comp rest ih =>
      rw [List.mem_cons, not_or] at hdots
      rw [find_cons, if_neg (Ne.symm hdots.1)] at hfind
      rw [NodeTree.walkNames]
      split at hfind
      · cases hfind
      rename_i hdir
      rw [if_neg hdir, if_neg (Ne.symm hdots.1)]
      split at hfind
      · rename_i hdot
        rw [if_pos hdot]
        exact ih hdots.2 hfind
      rename_i hdot
      rw [if_neg hdot]
      cases hfound : t.findChild n comp with
      | some it =>
          rw [hfound] at hfind
          exact ih hdots.2 hfind
      | none =>
          have hnew : (t.link n (t.implicitDir n comp)).node t.count = t.implicitDir n comp := by
            rw [node_link, if_pos rfl]
          exact exists_walkNames_empty (by rw [hnew]; rfl) (by rw [hnew]; rfl) hdots.2

end Growing

end ImageTool.Fstree.NodeTree
