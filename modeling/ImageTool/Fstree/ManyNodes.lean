import ImageTool.Fstree.InodeTable
import ImageTool.Fstree.NodePaths
import ImageTool.Lib.Numeral

/-!
# Directories with many entries

A root directory with as many nodes as one likes, under the numbers as names.
-/

namespace ImageTool.Fstree.NodeTree

open ImageTool.Lib

/-- A new name in the root. -/
theorem AddOp.run_name {t : NodeTree} {op : AddOp} (h : IsTree t) (hpath : slash ∉ op.path)
    (htarget : ¬ op.LacksTarget)
    (hnew : t.findChild root op.path = none) :
    op.run t = ((t.link root (t.explicitNode root op.path op.type op.extra)).modify t.count
      op.finish, .ok t.count) := by
  have hsuffix : suffix op.path = op.path := by
    rw [suffix, List.rtakeWhile_eq_self_iff]
    exact forall_ne_slash hpath
  have hfrontLen : prefixLen op.path = 0 := by
    rw [prefixLen, hsuffix]
    omega
  have hargs : ¬ ((op.type = .symlink ∨ op.type = .hardLink) ∧ op.extra = none) := htarget
  rw [run_eq, mknodeAt, if_neg hargs, nodeFromPath_eq, hfrontLen, List.take_zero, hsuffix]
  simp only [components_nil, walkNames, Option.getD_none, h.root_type, ne_eq, not_true_eq_false,
    if_false, hnew]
  rfl

/-- Add nodes under the numbers below `n`. -/
def addMany (make : List UInt8 → AddOp) (t : NodeTree) : Nat → NodeTree
  | 0 => t
  | n + 1 => ((make (numeral 10 n)).run (addMany make t n)).1

theorem numeral_inj {i j : Nat} (h : numeral 10 i = numeral 10 j) : i = j := by
  have hvalue := congrArg (digitsValue 10) h
  rwa [digitsValue_numeral (by decide) (by decide), digitsValue_numeral (by decide) (by decide)]
    at hvalue

theorem slash_notMem_numeral (n : Nat) : slash ∉ numeral 10 n := by
  intro hmem
  have hdigit := isDigitOf_of_mem_numeral (by decide) (by decide) hmem
  exact absurd hdigit (by decide)

/-- What the calls leave. -/
structure ManyNodes (t t' : NodeTree) (type : TreeNodeType) (target : List UInt8) (n : Nat) :
    Prop where
  reachable : Reachable t'
  count : t'.count = t.count + n
  extension : Extends t t'
  node : ∀ i, i < n → (t'.node (t.count + i)).type = type ∧
    (t'.node (t.count + i)).target = target ∧ (t'.node (t.count + i)).name = numeral 10 i
  children : ∀ c ∈ (t'.node root).children,
    c ∈ (t.node root).children ∨ ∃ i, i < n ∧ c = t.count + i
  others : ∀ i, i < t.count → (t'.node i).target = (t.node i).target

theorem manyNodes {t : NodeTree} (ht : Reachable t) {make : List UInt8 → AddOp}
    {type : TreeNodeType} {extra : Option (List UInt8)} (hpath : ∀ path, (make path).path = path)
    (htype : ∀ path, (make path).type = type) (hextra : ∀ path, (make path).extra = extra)
    (htarget : ∀ path, ¬ (make path).LacksTarget)
    (hfresh : ∀ n, t.findChild root (numeral 10 n) = none) (n : Nat) :
    ManyNodes t (addMany make t n) type (linkTarget type extra) n := by
  induction n with
  | zero =>
      exact ⟨ht, rfl, Extends.refl t, fun i hi => absurd hi (Nat.not_lt_zero i),
        fun c hc => Or.inl hc, fun _ _ => rfl⟩
  | succ n ih =>
      have h := ih.reachable.linked
      have hroot : root < (addMany make t n).count := h.count_pos
      have hroot' : root < t.count := ht.linked.count_pos
      have hold := ih.extension
      have hname : (addMany make t n).findChild root (numeral 10 n) = none := by
        rw [findChild_eq_none]
        intro c hc
        rcases ih.children c hc with hc | ⟨i, hi, rfl⟩
        · have hct := (ht.linked.children root hroot' c hc).1
          rw [hold.name c hct]
          exact (findChild_eq_none t root _).1 (hfresh n) c hc
        · rw [(ih.node i hi).2.2]
          intro heq
          exact absurd (numeral_inj heq) (Nat.ne_of_lt hi)
      have hslash : slash ∉ (make (numeral 10 n)).path := by
        rw [hpath]
        exact slash_notMem_numeral n
      have hrun := AddOp.run_name h.toIsTree hslash (htarget _) (by rw [hpath]; exact hname)
      have htree : addMany make t (n + 1) = (((addMany make t n).link root
          ((addMany make t n).explicitNode root (numeral 10 n) type extra)).modify
            (addMany make t n).count (make (numeral 10 n)).finish) := by
        rw [addMany, hrun, hpath, htype, hextra]
      obtain ⟨-, hfname, hftype, -⟩ := (make (numeral 10 n)).finish_kept
        ((addMany make t n).explicitNode root (numeral 10 n) type extra)
      have hlast : (addMany make t (n + 1)).node (addMany make t n).count =
          (make (numeral 10 n)).finish
            ((addMany make t n).explicitNode root (numeral 10 n) type extra) := by
        rw [htree, node_modify, if_pos rfl, node_link, if_pos rfl]
      have hothers : ∀ i, i < (addMany make t n).count →
          (addMany make t (n + 1)).node i = ((addMany make t n).link root
            ((addMany make t n).explicitNode root (numeral 10 n) type extra)).node i := by
        intro i hi
        rw [htree, node_modify, if_neg (Nat.ne_of_lt hi)]
      have hlinked := linkedOthers_link
        (n := (addMany make t n).explicitNode root (numeral 10 n) type extra) hroot
      have hgrown : Extends (addMany make t n) (addMany make t (n + 1)) := by
        refine ⟨?_, fun i hi => ?_, fun i hi => ?_, fun i hi => ?_, fun i hi => ?_⟩
        · rw [htree]
          exact Nat.le_succ _
        · rw [hothers i hi, hlinked.parent i hi]
        · rw [hothers i hi, hlinked.name i hi]
        · rw [hothers i hi, hlinked.type i hi]
        · rw [hothers i hi]
          exact (extends_link hroot).children i hi
      have hkept : ∀ i, i < (addMany make t n).count →
          ((addMany make t (n + 1)).node i).target = ((addMany make t n).node i).target := by
        intro i hi
        rw [hothers i hi, node_link, if_neg (Nat.ne_of_lt hi)]
        split
        · rename_i heq
          rw [heq]
        · rfl
      have hcount := ih.count
      refine ⟨ih.reachable.run _, ?_, hold.trans hgrown, ?_, ?_, ?_⟩
      · rw [htree, ← Nat.add_assoc, ← hcount]
        rfl
      · intro i hi
        by_cases hin : i = n
        · rw [hin, ← hcount, hlast, hftype, hfname, AddOp.finish_target]
          exact ⟨rfl, rfl, rfl⟩
        · have hlt : t.count + i < (addMany make t n).count := by omega
          rw [hgrown.type _ hlt, hkept _ hlt, hgrown.name _ hlt]
          exact ih.node i (by omega)
      · intro c hc
        rw [hothers root hroot, hlinked.children root hroot, if_pos rfl] at hc
        rcases List.mem_cons.1 hc with rfl | hc
        · exact Or.inr ⟨n, Nat.lt_succ_self n, hcount⟩
        · rcases ih.children c hc with hc | ⟨i, hi, hci⟩
          · exact Or.inl hc
          · exact Or.inr ⟨i, by omega, hci⟩
      · intro i hi
        rw [hkept i (by omega), ih.others i hi]

/-- With 2^32 files besides the root the numbers of two nodes are the same. -/
theorem numbered_fails : ¬ ∀ t, Reachable t → ∀ inodeNum s,
    t.createInodeTable inodeNum = some s → Numbered t s := by
  intro hall
  have hmany := @manyNodes create Reachable.create .file .file none (fun _ => rfl) (fun _ => rfl)
    (fun _ => rfl) (fun _ h => by simpa [AddOp.type] using h.1) (fun n => rfl) (2 ^ 32)
  have htypes : ∀ i, i < (addMany .file create (2 ^ 32)).count →
      ((addMany .file create (2 ^ 32)).node i).type ≠ .hardLink := by
    intro i hi
    rcases Nat.eq_zero_or_pos i with rfl | hpos
    · rw [hmany.extension.type 0 Nat.one_pos]
      decide
    · obtain ⟨j, rfl⟩ := Nat.exists_eq_add_of_le hpos
      rw [hmany.count] at hi
      have hj : j < 2 ^ 32 := by
        have hone : create.count = 1 := rfl
        omega
      rw [show (Nat.succ 0 + j) = create.count + j from rfl, (hmany.node j hj).1]
      decide
  have hinodes : (addMany .file create (2 ^ 32)).inodes = 2 ^ 32 + 1 := by
    rw [inodes, List.countP_eq_length.2, List.length_range, hmany.count]
    · exact Nat.add_comm _ _
    · intro i hi
      exact decide_eq_true (htypes i (List.mem_range.1 hi))
  obtain ⟨s, hcreate, hnum⟩ :=
    hmany.reachable.linked.toIsTree.exists_createInodeTable fun _ => 0
  have hle := (hall _ hmany.reachable _ s hcreate).numInodes_le
  rw [hnum, hinodes] at hle
  omega

end ImageTool.Fstree.NodeTree
