import ImageTool.Fstree.TreeSort
import Mathlib.Algebra.Order.Ring.Nat
import Mathlib.Data.Set.Function
import Mathlib.Order.Interval.Set.Defs

/-!
# The inode table

The nodes that are not hard links are counted in one recursion and numbered in another one.  Both
go over the same list of nodes; a number has 32 bits.
-/

namespace ImageTool.Fstree.NodeTree

/-- The numbers of the nodes and the table of the nodes with these numbers. -/
structure InodeTable where
  inodeNum : Nat → UInt32
  numInodes : Nat
  inodeTable : List (Option Nat)

/-- `count_inodes_dfs`; the first argument bounds the depth. -/
def countInodesDfs : Nat → NodeTree → Nat → Option Nat
  | 0, _, _ => none
  | fuel + 1, t, n =>
      if (t.node n).type = .hardLink then some 0
      else if (t.node n).type = .dir then do
        let sum ← (t.node n).children.foldlM (fun sum it => do
          let count ← countInodesDfs fuel t it
          some (sum + count)) 0
        some (sum + 1)
      else some 1

/-- Give the next number to a node, and put it into the table. -/
def assign (s : InodeTable × Nat) (it : Nat) : Option (InodeTable × Nat) :=
  let num := UInt32.ofNat s.2
  if num.toNat < s.1.inodeTable.length then
    some ({ s.1 with
      inodeNum := Function.update s.1.inodeNum it num
      inodeTable := s.1.inodeTable.set num.toNat (some it) }, s.2 + 1)
  else none

/-- `map_inodes_dfs`; the first argument bounds the depth. -/
def mapInodesDfs : Nat → NodeTree → InodeTable × Nat → Nat → Option (InodeTable × Nat)
  | 0, _, _, _ => none
  | fuel + 1, t, s, n => do
      let s ← ((t.node n).children.filter fun it => (t.node it).type ≠ .hardLink).foldlM assign s
      ((t.node n).children.filter fun it => (t.node it).type = .dir).foldlM
        (mapInodesDfs fuel t) s

/-- `fstree_create_inode_table`, with the numbers that the nodes have before. -/
def createInodeTable (t : NodeTree) (inodeNum : Nat → UInt32) : Option InodeTable := do
  let numInodes ← countInodesDfs t.count t root
  let s ← assign (⟨inodeNum, numInodes, List.replicate numInodes none⟩, 0) root
  let (s, _) ← mapInodesDfs t.count t s root
  some s

/-- The types that get a number. -/
def isInode (type : TreeNodeType) : Bool := decide (type ≠ .hardLink)

section Recursions

variable {t : NodeTree} {fuel n p : Nat} {list : List Nat}

/-! ## The two recursions -/

theorem mapM_eq_map {f : Nat → Option (List Nat)} {g : Nat → List Nat} (list : List Nat)
    (hf : ∀ c ∈ list, f c = some (g c)) : list.mapM f = some (list.map g) := by
  induction list with
  | nil => rfl
  | cons c list ih =>
      rw [List.forall_mem_cons] at hf
      rw [List.mapM_cons, hf.1, ih hf.2]
      rfl

/-- The lists below the children of a node. -/
theorem exists_below_children (h : IsTree t) (keep : TreeNodeType → Bool) (hn : n < t.count)
    (hfuel : t.count ≤ fuel + 1 + n) : ∃ sub : Nat → List Nat,
      (∀ c ∈ (t.node n).children, nodesBelow t keep fuel c = some (sub c)) ∧
      nodesBelow t keep (fuel + 1) n =
        some (((t.node n).children.filter fun it => keep (t.node it).type) ++
          ((t.node n).children.filter fun it => (t.node it).type = .dir).flatMap sub) := by
  have hsub : ∀ c ∈ (t.node n).children,
      nodesBelow t keep fuel c = some ((nodesBelow t keep fuel c).getD []) := by
    intro c hc
    obtain ⟨hlt, hct⟩ := h.lt_child hn hc
    obtain ⟨list, hlist, _⟩ := exists_nodesBelow h keep fuel c hct (by omega)
    rw [hlist, Option.getD_some]
  refine ⟨fun c => (nodesBelow t keep fuel c).getD [], hsub, ?_⟩
  rw [nodesBelow, mapM_eq_map _ fun c hc => hsub c (List.mem_filter.1 hc).1]
  rfl

/-- The nodes are counted as often as they are listed. -/
theorem countInodesDfs_eq (h : IsTree t) (fuel n : Nat) (hn : n < t.count)
    (hfuel : t.count ≤ fuel + n) (hlist : nodesBelow t isInode fuel n = some list) :
    countInodesDfs fuel t n = some
      (if (t.node n).type = .hardLink then 0
        else if (t.node n).type = .dir then list.length + 1 else 1) := by
  induction fuel generalizing n list with
  | zero => omega
  | succ fuel ih =>
      obtain ⟨sub, hsub, hbelow⟩ := exists_below_children h isInode hn hfuel
      rw [hlist] at hbelow
      cases hbelow
      rw [countInodesDfs]
      split
      · rfl
      split
      swap
      · rfl
      -- the loop over the children
      have hloop : ∀ (cs : List Nat), (∀ c ∈ cs, c ∈ (t.node n).children) → ∀ sum,
          cs.foldlM (fun sum it => do
            let count ← countInodesDfs fuel t it
            some (sum + count)) sum =
          some (sum + ((cs.filter fun it => isInode (t.node it).type) ++
            (cs.filter fun it => (t.node it).type = .dir).flatMap sub).length) := by
        intro cs
        induction cs with
        | nil => exact fun _ sum => rfl
        | cons c cs ihc =>
            intro hcs sum
            rw [List.forall_mem_cons] at hcs
            obtain ⟨hlt, hct⟩ := h.lt_child hn hcs.1
            rw [List.foldlM_cons, ih c hct (by omega) (hsub c hcs.1)]
            change cs.foldlM _ (sum + _) = _
            rw [ihc hcs.2]
            congr 1
            by_cases hlink : (t.node c).type = .hardLink
            · simp [hlink, isInode]
            · by_cases hdir : (t.node c).type = .dir
              · simp [hdir, isInode]
                omega
              · simp [hlink, hdir, isInode]
                omega
      rw [hloop _ fun c hc => hc]
      simp

/-- The nodes are numbered in the order in which they are listed. -/
theorem mapInodesDfs_eq (h : IsTree t) (fuel n : Nat) (hn : n < t.count)
    (hfuel : t.count ≤ fuel + n) (hlist : nodesBelow t isInode fuel n = some list)
    (s : InodeTable × Nat) : mapInodesDfs fuel t s n = list.foldlM assign s := by
  induction fuel generalizing n list s with
  | zero => omega
  | succ fuel ih =>
      obtain ⟨sub, hsub, hbelow⟩ := exists_below_children h isInode hn hfuel
      rw [hlist] at hbelow
      cases hbelow
      -- the loop over the directories
      have hloop : ∀ (cs : List Nat), (∀ c ∈ cs, c ∈ (t.node n).children) → ∀ s,
          cs.foldlM (mapInodesDfs fuel t) s = (cs.flatMap sub).foldlM assign s := by
        intro cs
        induction cs with
        | nil => exact fun _ s => rfl
        | cons c cs ihc =>
            intro hcs s
            rw [List.forall_mem_cons] at hcs
            obtain ⟨hlt, hct⟩ := h.lt_child hn hcs.1
            rw [List.foldlM_cons, List.flatMap_cons, List.foldlM_append,
              ih c hct (by omega) (hsub c hcs.1)]
            congr 1
            funext s
            exact ihc hcs.2 s
      rw [mapInodesDfs, List.foldlM_append]
      have hrest := fun s => hloop ((t.node n).children.filter fun it => (t.node it).type = .dir)
        (fun c hc => (List.mem_filter.1 hc).1) s
      congr 1
      funext s
      exact hrest s

/-- The kept children of a listed directory stand in a row, behind the directory. -/
theorem nodesBelow_children (h : IsTree t) {keep : TreeNodeType → Bool} (fuel n : Nat)
    (hn : n < t.count) (hfuel : t.count ≤ fuel + n)
    (hlist : nodesBelow t keep fuel n = some list)
    (hp : p = n ∨ p ∈ list ∧ (t.node p).type = .dir) :
    ∃ front back, list = front ++
        ((t.node p).children.filter fun it => keep (t.node it).type) ++ back ∧
      p ∈ n :: front := by
  induction fuel generalizing n list with
  | zero => omega
  | succ fuel ih =>
      obtain ⟨sub, hsub, hbelow⟩ := exists_below_children h keep hn hfuel
      rw [hlist] at hbelow
      cases hbelow
      -- what is listed below one of the directories
      have hinner : ∀ c ∈ (t.node n).children, (t.node c).type = .dir →
          (p = c ∨ p ∈ sub c ∧ (t.node p).type = .dir) →
          p ∈ ((t.node n).children.filter fun it => keep (t.node it).type) ∨ p ≠ c →
          ∃ front back,
            ((t.node n).children.filter fun it => keep (t.node it).type) ++
              ((t.node n).children.filter fun it => (t.node it).type = .dir).flatMap sub =
            front ++ ((t.node p).children.filter fun it => keep (t.node it).type) ++ back ∧
            p ∈ n :: front := by
        intro c hc hdir hpc hlisted
        obtain ⟨hlt, hct⟩ := h.lt_child hn hc
        obtain ⟨front, back, hsplit, hmem⟩ := ih c hct (by omega) (hsub c hc) hpc
        obtain ⟨ds, es, hdirs⟩ := List.append_of_mem
          (List.mem_filter.2 ⟨hc, decide_eq_true hdir⟩ :
            c ∈ (t.node n).children.filter fun it => decide ((t.node it).type = .dir))
        refine ⟨((t.node n).children.filter fun it => keep (t.node it).type) ++
          (ds.flatMap sub ++ front), back ++ es.flatMap sub, ?_, ?_⟩
        · rw [hdirs, List.flatMap_append, List.flatMap_cons, hsplit]
          simp only [List.append_assoc]
        · refine List.mem_cons_of_mem _ ?_
          rcases hlisted with hlisted | hne
          · exact List.mem_append_left _ hlisted
          · have hfront := List.mem_of_ne_of_mem hne hmem
            exact List.mem_append_right _ (List.mem_append_right _ hfront)
      rcases hp with rfl | ⟨hp, hdir⟩
      · exact ⟨[], _, rfl, List.mem_cons_self⟩
      · rcases List.mem_append.1 hp with hchild | hdeep
        · exact hinner p (List.mem_filter.1 hchild).1 hdir (Or.inl rfl) (Or.inl hchild)
        · obtain ⟨c, hc, hpc⟩ := List.mem_flatMap.1 hdeep
          obtain ⟨hc, hcdir⟩ := List.mem_filter.1 hc
          obtain ⟨hlt, hct⟩ := h.lt_child hn hc
          have hne : p ≠ c := by
            rintro rfl
            obtain ⟨list', hlist', _, hin⟩ := exists_nodesBelow h keep fuel p hct (by omega)
            rw [hsub p hc] at hlist'
            cases hlist'
            exact Nat.lt_irrefl p (h.below_lt hct ((hin p).1 hpc).2.2)
          exact hinner c hc (of_decide_eq_true hcdir) (Or.inr ⟨hpc, hdir⟩) (Or.inr hne)

end Recursions

/-! ## Numbering -/

section Numbering

variable {t : NodeTree} {list : List Nat}

/-- Numbers are given in a row.  As long as they have 32 bits, no two are the same. -/
theorem exists_foldlM_assign (list : List Nat) (s : InodeTable) (k : Nat)
    (hfit : k + list.length ≤ s.inodeTable.length) :
    ∃ s', list.foldlM assign (s, k) = some (s', k + list.length) ∧ s'.numInodes = s.numInodes ∧
      (k + list.length ≤ 2 ^ 32 → list.Nodup →
        list.map (fun i => (s'.inodeNum i).toNat) = List.range' k list.length ∧
        (∀ i, i ∉ list → s'.inodeNum i = s.inodeNum i) ∧
        s'.inodeTable = s.inodeTable.take k ++ list.map some ++
          s.inodeTable.drop (k + list.length)) := by
  induction list generalizing s k with
  | nil => exact ⟨s, rfl, rfl, fun _ _ => ⟨rfl, fun _ _ => rfl, by simp⟩⟩
  | cons it list ih =>
      rw [List.length_cons] at hfit
      have hnum : (UInt32.ofNat k).toNat = k % 2 ^ 32 := UInt32.toNat_ofNat'
      have hle : k % 2 ^ 32 ≤ k := Nat.mod_le ..
      obtain ⟨s', hfold, hnumInodes, hnumbers⟩ := ih
        { s with
          inodeNum := Function.update s.inodeNum it (UInt32.ofNat k)
          inodeTable := s.inodeTable.set (UInt32.ofNat k).toNat (some it) } (k + 1)
        (by rw [List.length_set]; omega)
      refine ⟨s', ?_, hnumInodes, ?_⟩
      · have hin : (UInt32.ofNat k).toNat < s.inodeTable.length := by omega
        rw [List.foldlM_cons, assign, if_pos hin, List.length_cons, Nat.add_comm list.length,
          ← Nat.add_assoc]
        exact hfold
      · intro hbits hnodup
        rw [List.length_cons] at hbits
        obtain ⟨hnot, hnodup⟩ := List.nodup_cons.1 hnodup
        obtain ⟨hmap, hkeep, htable⟩ := hnumbers (by omega) hnodup
        have hk : (UInt32.ofNat k).toNat = k := by omega
        refine ⟨?_, ?_, ?_⟩
        · rw [List.map_cons, hkeep it hnot, hmap, List.length_cons, List.range'_succ]
          dsimp only
          rw [Function.update_self, hk]
        · intro i hi
          rw [List.mem_cons, not_or] at hi
          rw [hkeep i hi.2]
          exact Function.update_of_ne hi.1 ..
        · have hlt : k < s.inodeTable.length := by omega
          have htake : (s.inodeTable.set k (some it)).take (k + 1) =
              s.inodeTable.take k ++ [some it] := by
            rw [List.take_add_one, List.take_set_of_le (Nat.le_refl k),
              List.getElem?_set_self hlt]
            rfl
          have hdrop : (s.inodeTable.set k (some it)).drop (k + 1 + list.length) =
              s.inodeTable.drop (k + (list.length + 1)) := by
            rw [List.drop_set_of_lt (by omega)]
            congr 1
            omega
          rw [htable, hk, htake, hdrop, List.length_cons]
          simp

/-- What the table and the numbers are for. -/
structure Numbered (t : NodeTree) (s : InodeTable) : Prop where
  bijection : Set.BijOn (fun i => (s.inodeNum i).toNat)
    {i | i < t.count ∧ (t.node i).type ≠ .hardLink} (Set.Iio s.numInodes)
  length_table : s.inodeTable.length = s.numInodes
  table : ∀ i, i < t.count → (t.node i).type ≠ .hardLink →
    s.inodeTable[(s.inodeNum i).toNat]? = some (some i)
  filled : ∀ k, k < s.numInodes →
    ∃ i, i < t.count ∧ (t.node i).type ≠ .hardLink ∧ s.inodeTable[k]? = some (some i)
  root : s.inodeNum root = 0
  parent : ∀ i p, i < t.count → (t.node i).type ≠ .hardLink → (t.node i).parent = some p →
    s.inodeNum p < s.inodeNum i
  children : ∀ p, p < t.count → ∃ k,
    (((t.node p).children.filter fun it => (t.node it).type ≠ .hardLink).map
      fun it => (s.inodeNum it).toNat) =
    List.range' k ((t.node p).children.filter fun it => (t.node it).type ≠ .hardLink).length

/-- The number of nodes that are not hard links. -/
def inodes (t : NodeTree) : Nat :=
  (List.range t.count).countP fun i => (t.node i).type ≠ .hardLink

/-- A piece of a row of numbers. -/
theorem map_piece {f : Nat → Nat} {front piece back : List Nat} {k n : Nat}
    (h : (front ++ piece ++ back).map f = List.range' k n) :
    front.map f = List.range' k front.length ∧
      piece.map f = List.range' (k + front.length) piece.length := by
  have hlength := congrArg List.length h
  simp only [List.map_append, List.length_append, List.length_map, List.length_range'] at hlength
  have hsplit : List.range' k n = List.range' k front.length ++
      (List.range' (k + front.length) piece.length ++
        List.range' (k + front.length + piece.length) back.length) := by
    rw [List.range'_append_1, List.range'_append_1]
    congr 1
    omega
  rw [hsplit, List.map_append, List.map_append, List.append_assoc] at h
  obtain ⟨hfront, hrest⟩ := List.append_inj h (by simp)
  exact ⟨hfront, (List.append_inj hrest (by simp)).1⟩

theorem length_inodes (hnodup : (root :: list).Nodup)
    (hin : ∀ i, i ∈ root :: list ↔ i < t.count ∧ (t.node i).type ≠ .hardLink) :
    (root :: list).length = t.inodes := by
  rw [inodes, List.countP_eq_length_filter]
  have hperm : (root :: list).Perm
      ((List.range t.count).filter fun i => (t.node i).type ≠ .hardLink) := by
    rw [List.perm_ext_iff_of_nodup hnodup (List.nodup_range.filter _)]
    intro i
    rw [hin, List.mem_filter, List.mem_range, decide_eq_true_eq]
  exact hperm.length_eq

/-- The nodes of a tree that are not hard links, in the order of their numbers. -/
theorem IsTree.exists_inodes (h : IsTree t) :
    ∃ list, nodesBelow t isInode t.count root = some list ∧ (root :: list).Nodup ∧
      ∀ i, i ∈ root :: list ↔ i < t.count ∧ (t.node i).type ≠ .hardLink := by
  have hroot : root < t.count := h.count_pos
  obtain ⟨list, hlist, hnodup, hin⟩ :=
    exists_nodesBelow h isInode t.count root hroot (Nat.le_add_right ..)
  have hnot : root ∉ list := by
    intro hmem
    exact Nat.lt_irrefl _ (h.below_lt hroot ((hin root).1 hmem).2.2)
  refine ⟨list, hlist, List.nodup_cons.2 ⟨hnot, hnodup⟩, ?_⟩
  intro i
  rw [List.mem_cons, hin, isInode, decide_eq_true_eq]
  constructor
  · rintro (rfl | ⟨hi, htype, _⟩)
    · exact ⟨hroot, by rw [h.root_type]; decide⟩
    · exact ⟨hi, htype⟩
  · rintro ⟨hi, htype⟩
    by_cases hr : i = root
    · exact Or.inl hr
    · exact Or.inr ⟨hi, htype, h.below_root i hi hr⟩

/-- `fstree_create_inode_table` numbers the listed nodes one after the other. -/
theorem IsTree.createInodeTable_eq (h : IsTree t)
    (hlist : nodesBelow t isInode t.count root = some list) (inodeNum : Nat → UInt32) :
    ∃ s, t.createInodeTable inodeNum = some s ∧ s.numInodes = (root :: list).length ∧
      ((root :: list).length ≤ 2 ^ 32 → (root :: list).Nodup →
        (root :: list).map (fun i => (s.inodeNum i).toNat) =
          List.range' 0 (root :: list).length ∧
        s.inodeTable = (root :: list).map some) := by
  have hroot : root < t.count := h.count_pos
  have hcount := countInodesDfs_eq h t.count root hroot (Nat.le_add_right ..) hlist
  have hlink : (t.node root).type ≠ .hardLink := by
    rw [h.root_type]
    decide
  rw [if_neg hlink, if_pos h.root_type] at hcount
  obtain ⟨s, hfold, hnumInodes, hnumbers⟩ := exists_foldlM_assign (root :: list)
    ⟨inodeNum, (root :: list).length, List.replicate (root :: list).length none⟩ 0 (by simp)
  refine ⟨s, ?_, hnumInodes, ?_⟩
  · rw [List.foldlM_cons] at hfold
    rw [createInodeTable, hcount]
    simp only [mapInodesDfs_eq h t.count root hroot (Nat.le_add_right ..) hlist]
    obtain ⟨s₁, hassign, hrest⟩ := Option.bind_eq_some_iff.1 hfold
    rw [List.length_cons] at hassign
    simp only [Option.bind_eq_bind, Option.bind_some, hassign, hrest]
  · intro hbits hnodup
    obtain ⟨hmap, -, htable⟩ := hnumbers (by simpa using hbits) hnodup
    exact ⟨hmap, by simpa using htable⟩

theorem IsTree.exists_createInodeTable (h : IsTree t) (inodeNum : Nat → UInt32) :
    ∃ s, t.createInodeTable inodeNum = some s ∧ s.numInodes = t.inodes := by
  obtain ⟨list, hlist, hnodup, hin⟩ := h.exists_inodes
  obtain ⟨s, hcreate, hnumInodes, -⟩ := h.createInodeTable_eq hlist inodeNum
  exact ⟨s, hcreate, hnumInodes.trans (length_inodes hnodup hin)⟩

/-- The largest number is that of some node. -/
theorem Numbered.numInodes_le {s : InodeTable} (h : Numbered t s) : s.numInodes ≤ 2 ^ 32 := by
  by_contra hbig
  have hlast : s.numInodes - 1 ∈ Set.Iio s.numInodes := by
    rw [Set.mem_Iio]
    omega
  obtain ⟨i, -, hi⟩ := h.bijection.surjOn hlast
  have hlt := (s.inodeNum i).toNat_lt
  dsimp only at hi
  omega

/-- The numbers are good if and only if they fit into 32 bits. -/
theorem createInodeTable_numbered_iff (h : IsTree t) (inodeNum : Nat → UInt32) :
    ∃ s, t.createInodeTable inodeNum = some s ∧ s.numInodes = t.inodes ∧
      (Numbered t s ↔ t.inodes ≤ 2 ^ 32) := by
  obtain ⟨list, hlist, hnodup, hin⟩ := h.exists_inodes
  have hlength := length_inodes hnodup hin
  obtain ⟨s, hcreate, hnumInodes, hnumbers⟩ := h.createInodeTable_eq hlist inodeNum
  rw [hlength] at hnumInodes hnumbers
  refine ⟨s, hcreate, hnumInodes, ?_, ?_⟩
  · intro hnumbered
    rw [← hnumInodes]
    exact hnumbered.numInodes_le
  · intro hbits
    obtain ⟨hmap, htable⟩ := hnumbers hbits hnodup
    have hgood : ∀ i, i < t.count → (t.node i).type ≠ .hardLink →
        (s.inodeNum i).toNat < t.inodes := by
      intro i hi htype
      have hmem := List.mem_map_of_mem (f := fun i => (s.inodeNum i).toNat) ((hin i).2 ⟨hi, htype⟩)
      rw [hmap, List.mem_range'_1] at hmem
      omega
    have hnth : ∀ (k i : Nat), (root :: list)[k]? = some i → (s.inodeNum i).toNat = k := by
      intro k i hk
      have hmapped := congrArg (fun l => l[k]?) hmap
      have hlt : k < t.inodes := by
        rw [← hlength]
        exact (List.getElem?_eq_some_iff.1 hk).1
      rw [List.getElem?_map, hk, List.getElem?_range' hlt] at hmapped
      simpa using hmapped
    -- the children of a directory behind the directory
    have hdirs : ∀ p, p < t.count → (t.node p).type = .dir → ∃ k,
        (s.inodeNum p).toNat < k ∧
        (((t.node p).children.filter fun it => (t.node it).type ≠ .hardLink).map
          fun it => (s.inodeNum it).toNat) = List.range' k
            ((t.node p).children.filter fun it => (t.node it).type ≠ .hardLink).length := by
      intro p hp hdir
      have hmem : p ∈ root :: list := (hin p).2 ⟨hp, by rw [hdir]; decide⟩
      have hroot : root < t.count := h.count_pos
      obtain ⟨front, back, hsplit, hfront⟩ := nodesBelow_children h t.count root hroot
        (Nat.le_add_right ..) hlist ((List.mem_cons.1 hmem).imp_right fun hp => ⟨hp, hdir⟩)
      rw [hsplit, ← List.cons_append, ← List.cons_append] at hmap
      obtain ⟨hbefore, hpiece⟩ := map_piece hmap
      refine ⟨0 + (root :: front).length, ?_, hpiece⟩
      have hnum := List.mem_map_of_mem (f := fun i => (s.inodeNum i).toNat) hfront
      rw [hbefore, List.mem_range'_1] at hnum
      exact hnum.2
    refine ⟨⟨?_, ?_, ?_⟩, ?_, ?_, ?_, ?_, ?_, ?_⟩
    · intro i hi
      rw [Set.mem_Iio, hnumInodes]
      exact hgood i hi.1 hi.2
    · intro i hi j hj hij
      have hnodup' : ((root :: list).map fun i => (s.inodeNum i).toNat).Nodup := by
        rw [hmap]
        exact List.nodup_range'
      exact List.inj_on_of_nodup_map hnodup' ((hin i).2 hi) ((hin j).2 hj) hij
    · intro k hk
      rw [Set.mem_Iio, hnumInodes, ← hlength] at hk
      have hget := List.getElem?_eq_getElem hk
      exact ⟨_, (hin _).1 (List.getElem_mem hk), hnth k _ hget⟩
    · rw [htable, List.length_map, hlength, hnumInodes]
    · intro i hi htype
      obtain ⟨k, hk⟩ := List.mem_iff_getElem?.1 ((hin i).2 ⟨hi, htype⟩)
      rw [htable, List.getElem?_map, hnth k i hk, hk]
      rfl
    · intro k hk
      rw [hnumInodes, ← hlength] at hk
      obtain ⟨hi, htype⟩ := (hin _).1 (List.getElem_mem hk)
      refine ⟨_, hi, htype, ?_⟩
      rw [htable, List.getElem?_map, List.getElem?_eq_getElem hk]
      rfl
    · exact UInt32.toNat_inj.1 (hnth 0 root rfl)
    · intro i p hi htype hparent
      obtain ⟨hlt, hmem⟩ := h.parentOf_lt hi hparent
      have hdir := h.dir_of_below hi (Relation.TransGen.single hparent)
      obtain ⟨k, hk, hpiece⟩ := hdirs p (Nat.lt_trans hlt hi) hdir
      have hchild : i ∈ (t.node p).children.filter fun it => (t.node it).type ≠ .hardLink :=
        List.mem_filter.2 ⟨hmem, decide_eq_true htype⟩
      have hnum := List.mem_map_of_mem (f := fun i => (s.inodeNum i).toNat) hchild
      rw [hpiece, List.mem_range'_1] at hnum
      rw [UInt32.lt_iff_toNat_lt]
      omega
    · intro p hp
      by_cases hdir : (t.node p).type = .dir
      · obtain ⟨k, -, hpiece⟩ := hdirs p hp hdir
        exact ⟨k, hpiece⟩
      · have hempty : (t.node p).children = [] := by
          rw [List.eq_nil_iff_forall_not_mem]
          intro c hc
          obtain ⟨hlt, hparent⟩ := h.children p hp c hc
          exact hdir (h.dir_of_below hlt (Relation.TransGen.single hparent))
        rw [hempty]
        exact ⟨0, rfl⟩

/-- A file in two directories made for its path, one of which is then added itself, a symlink, a
hard link to the file and a device in another directory. -/
def smallTree : NodeTree :=
  let t := (create.mknodeAt [0x75, slash, 0x62, slash, 0x74] .file none).1
  let t := (t.mknodeAt [0x75] .dir none).1
  let t := (t.mknodeAt [0x62] .symlink (some [0x75, slash, 0x62])).1
  let t := (t.mknodeAt [0x75, slash, 0x62, slash, 0x61] .hardLink
    (some [0x75, slash, 0x62, slash, 0x74])).1
  (t.mknodeAt [0x64, slash, 0x63] .charDev none).1

theorem smallTree_linked : Linked smallTree :=
  (((((create_linked.mknodeAt _ _ _).linked.mknodeAt _ _ _).linked.mknodeAt _ _ _).linked.mknodeAt
    _ _ _).linked.mknodeAt _ _ _).linked

theorem createInodeTable_numbered_small :
    ∃ s, smallTree.createInodeTable (fun _ => 0) = some s ∧ s.numInodes = 7 ∧
      Numbered smallTree s := by
  obtain ⟨s, hcreate, hnum, hiff⟩ :=
    createInodeTable_numbered_iff smallTree_linked.toIsTree fun _ => 0
  have hinodes : smallTree.inodes = 7 := by decide +kernel
  rw [hinodes] at hnum hiff
  exact ⟨s, hcreate, hnum, hiff.2 (by decide)⟩

end Numbering

end ImageTool.Fstree.NodeTree
