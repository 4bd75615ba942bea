import ImageTool.Fstree.Lookup

/-!
# Nodes and their paths

The calls that add nodes, the trees they can lead to, and the path of a node.  A node that was
added at a canonical path is found at that path, and nothing else moves.
-/

namespace ImageTool.Fstree.NodeTree

/-- The `fstree_add_*` calls. -/
inductive AddOp where
  | directory (path : List UInt8)
  | file (path : List UInt8)
  | fifo (path : List UInt8)
  | socket (path : List UInt8)
  | blockDevice (path : List UInt8) (devno : Nat)
  | characterDevice (path : List UInt8) (devno : Nat)
  | symlink (path : List UInt8) (target : Option (List UInt8))
  | hardLink (path : List UInt8) (target : Option (List UInt8))

namespace AddOp

/-- The path a call is given. -/
def path : AddOp → List UInt8
  | directory path => path
  | file path => path
  | fifo path => path
  | socket path => path
  | blockDevice path _ => path
  | characterDevice path _ => path
  | symlink path _ => path
  | hardLink path _ => path

/-- The type of the node. -/
def type : AddOp → TreeNodeType
  | directory _ => .dir
  | file _ => .file
  | fifo _ => .fifo
  | socket _ => .socket
  | blockDevice _ _ => .blockDev
  | characterDevice _ _ => .charDev
  | symlink _ _ => .symlink
  | hardLink _ _ => .hardLink

/-- The `extra` argument of `mknode_at`. -/
def extra : AddOp → Option (List UInt8)
  | symlink _ target => target
  | hardLink _ target => target
  | _ => none

/-- What is set once the node is there. -/
def finish : AddOp → TreeNode → TreeNode
  | directory _, node => node
  | file _, node => { node with permissions := node.permissions &&& 0o666 }
  | fifo _, node => { node with permissions := node.permissions &&& 0o666 }
  | socket _, node => { node with permissions := node.permissions &&& 0o666 }
  | blockDevice _ devno, node =>
      { node with permissions := node.permissions &&& 0o666, deviceNumber := devno }
  | characterDevice _ devno, node =>
      { node with permissions := node.permissions &&& 0o666, deviceNumber := devno }
  | symlink _ _, node => { node with permissions := 0o777 }
  | hardLink _ _, node => { node with permissions := 0o777 }

/-- Make the call. -/
def run (t : NodeTree) : AddOp → NodeTree × Except Errno Nat
  | directory path => t.addDirectory path
  | file path => t.addFile path
  | fifo path => t.addFifo path
  | socket path => t.addSocket path
  | blockDevice path devno => t.addBlockDevice path devno
  | characterDevice path devno => t.addCharacterDevice path devno
  | symlink path target => t.addSymlink path target
  | hardLink path target => t.addHardLink path target

theorem run_eq (t : NodeTree) (op : AddOp) :
    op.run t = onCreated op.finish (t.mknodeAt op.path op.type op.extra) := by
  cases op with
  | directory path =>
      have hsame : ∀ r : NodeTree × Except Errno Nat, onCreated (fun node => node) r = r := by
        rintro ⟨t, _ | n⟩
        · rfl
        · simp [onCreated, modify]
      exact (hsame _).symm
  | _ => rfl

/-- Finishing a node keeps its place. -/
theorem finish_kept (op : AddOp) (node : TreeNode) :
    (op.finish node).parent = node.parent ∧ (op.finish node).name = node.name ∧
      (op.finish node).type = node.type ∧ (op.finish node).children = node.children := by
  cases op <;> exact ⟨rfl, rfl, rfl, rfl⟩

end AddOp

/-- The trees that a program can have: besides the calls, it sets the defaults and the owner,
times and permissions of nodes. -/
inductive Reachable : NodeTree → Prop where
  | create : Reachable create
  | step {t t' : NodeTree} (op : TreeOp) : Reachable t → t.step op = some t' → Reachable t'
  | defaults {t : NodeTree} (ctime mtime uid gid permissions : Nat) : Reachable t →
      Reachable { t with
        defaultCtime := ctime
        defaultMtime := mtime
        defaultUid := uid
        defaultGid := gid
        defaultPermissions := permissions }
  | attributes {t : NodeTree} (n ctime mtime uid gid permissions : Nat) : Reachable t →
      n < t.count → Reachable (t.modify n fun node => { node with
        ctime := ctime
        mtime := mtime
        uid := uid
        gid := gid
        permissions := permissions })

/-- `path_length`; the first argument bounds the depth. -/
def pathLength : Nat → NodeTree → Nat → Option Nat
  | 0, _, _ => none
  | fuel + 1, t, n =>
      match (t.node n).parent with
      | none => some 0
      | some parent => do
          let len ← pathLength fuel t parent
          some (len + 1 + (t.node n).name.length)

/-- What `path_print` writes; the first argument bounds the depth. -/
def pathPrint : Nat → NodeTree → Nat → Option (List UInt8)
  | 0, _, _ => none
  | fuel + 1, t, n =>
      match (t.node n).parent with
      | none => some []
      | some parent => do
          let str ← pathPrint fuel t parent
          some (str ++ slash :: (t.node n).name)

/-- `fstree_get_path`.  What is printed has to fit into what was allocated. -/
def getPath (t : NodeTree) (n : Nat) : Option (List UInt8) :=
  match (t.node n).parent with
  | none => some [slash]
  | some _ => do
      let len ← pathLength t.count t n
      let str ← pathPrint t.count t n
      if str.length ≤ len then some str else none

section Reaching

variable {t t' : NodeTree}

theorem Reachable.linked (h : Reachable t) : Linked t := by
  induction h with
  | create => exact create_linked
  | step op _ hstep ih =>
      obtain ⟨t'', hstep', hlinked⟩ := ih.step op
      rw [hstep] at hstep'
      cases hstep'
      exact hlinked
  | defaults ctime mtime uid gid permissions _ ih =>
      exact ih.reorder ⟨rfl, fun _ => rfl, fun _ => rfl, fun _ => rfl,
        fun _ => List.Perm.refl _⟩ rfl
  | attributes n ctime mtime uid gid permissions _ hn ih =>
      exact ih.reorder (reordered_modify rfl rfl rfl (List.Perm.refl _)) rfl

end Reaching

/-! ## The path of a node -/

section Paths

variable {t : NodeTree} {fuel n m c : Nat} {s : List UInt8} {cs : List (List UInt8)}

theorem pathPrint_succ (h : pathPrint fuel t n = some s) :
    pathPrint (fuel + 1) t n = some s := by
  induction fuel generalizing n s with
  | zero => cases h
  | succ fuel ih =>
      rw [pathPrint] at h ⊢
      cases hparent : (t.node n).parent with
      | none =>
          rw [hparent] at h
          exact h
      | some parent =>
          rw [hparent] at h
          obtain ⟨str, hstr, hs⟩ := Option.bind_eq_some_iff.1 h
          change (pathPrint (fuel + 1) t parent).bind _ = _
          rw [ih hstr]
          exact hs

theorem pathPrint_mono {fuel' : Nat} (hle : fuel ≤ fuel') (h : pathPrint fuel t n = some s) :
    pathPrint fuel' t n = some s := by
  induction hle with
  | refl => exact h
  | step _ ih => exact pathPrint_succ ih

/-- The buffer has the length of what is printed into it. -/
theorem pathLength_eq (fuel : Nat) (t : NodeTree) (n : Nat) :
    pathLength fuel t n = (pathPrint fuel t n).map List.length := by
  induction fuel generalizing n with
  | zero => rfl
  | succ fuel ih =>
      rw [pathLength, pathPrint]
      cases hparent : (t.node n).parent with
      | none => rfl
      | some parent =>
          change (pathLength fuel t parent).bind _ = ((pathPrint fuel t parent).bind _).map _
          rw [ih]
          cases pathPrint fuel t parent with
          | none => rfl
          | some str => simp [Nat.add_assoc, Nat.add_comm]

/-- The order of children does not matter to paths. -/
theorem Reordered.getPath {t' : NodeTree} (h : Reordered t t') (n : Nat) :
    t'.getPath n = t.getPath n := by
  have hprint : ∀ (fuel n : Nat), pathPrint fuel t' n = pathPrint fuel t n := by
    intro fuel
    induction fuel with
    | zero => exact fun n => rfl
    | succ fuel ih =>
        intro n
        rw [pathPrint, pathPrint, h.parent, h.name]
        simp only [ih]
  unfold NodeTree.getPath
  rw [h.parent, h.count, pathLength_eq, pathLength_eq, hprint]

theorem pathPrint_child (h : IsTree t) (hn : n < t.count) (hc : c ∈ (t.node n).children)
    (hs : pathPrint fuel t n = some s) :
    pathPrint (fuel + 1) t c = some (s ++ slash :: (t.node c).name) := by
  rw [pathPrint, (h.children n hn c hc).2]
  change (pathPrint fuel t n).bind _ = _
  rw [hs]
  rfl

/-- A way down is printed name by name. -/
theorem IsTree.pathPrint_find (h : IsTree t) (hn : n < t.count) (hcs : ∀ c ∈ cs, IsName c)
    (hs : pathPrint fuel t n = some s) (hfind : t.find n cs = .ok m) :
    pathPrint (fuel + cs.length) t m = some (s ++ cs.flatMap fun c => slash :: c) := by
  induction cs generalizing n fuel s with
  | nil =>
      cases hfind
      simpa using hs
  | cons comp rest ih =>
      rw [List.forall_mem_cons] at hcs
      rw [find_cons, if_neg hcs.1.1, if_neg hcs.1.2] at hfind
      split at hfind
      · cases hfind
      split at hfind
      · rename_i it hfound
        have hmem := mem_of_findChild hfound
        have hprint := pathPrint_child h hn hmem hs
        rw [name_of_findChild hfound] at hprint
        have hrest := ih (h.lt_child hn hmem).2 hcs.2 hprint hfind
        rw [List.length_cons, ← Nat.add_assoc, Nat.add_right_comm, hrest]
        simp
      · cases hfind

theorem IsTree.exists_pathPrint (h : IsTree t) (hn : n < t.count) :
    ∃ s, pathPrint (n + 1) t n = some s := by
  induction n using Nat.strongRecOn with
  | ind n ih =>
      by_cases hroot : n = root
      · exact ⟨[], by rw [hroot, pathPrint, h.root_parent]⟩
      · obtain ⟨p, hp, hlt, -, hmem⟩ := h.parent n hn hroot
        have hpt := Nat.lt_trans hlt hn
        obtain ⟨s, hs⟩ := ih p hlt hpt
        have hprint := pathPrint_child h hpt hmem hs
        exact ⟨_, pathPrint_mono (Nat.succ_le_succ (Nat.succ_le_of_lt hlt)) hprint⟩

/-- The names that lead from the root to a node lead there from nowhere else behind others. -/
theorem IsTree.find_append_ne (h : IsTree t) {ds : List (List UInt8)} (hn : n < t.count)
    (hcs : ∀ c ∈ cs, IsName c) (hds : ∀ c ∈ ds, IsName c) (hne : ds ≠ [])
    (hfind : t.find root cs = .ok m) : t.find n (ds ++ cs) ≠ .ok m := by
  intro hfind'
  have hroot : pathPrint 1 t root = some [] := by
    rw [pathPrint, h.root_parent]
  obtain ⟨s, hs⟩ := h.exists_pathPrint hn
  have hprint := h.pathPrint_find h.count_pos hcs hroot hfind
  have hprint' := h.pathPrint_find hn (List.forall_mem_append.2 ⟨hds, hcs⟩) hs hfind'
  have hfirst := pathPrint_mono (Nat.le_max_left _ (n + 1 + (ds ++ cs).length)) hprint
  rw [pathPrint_mono (Nat.le_max_right (1 + cs.length) _) hprint', Option.some.injEq] at hfirst
  have hlength := congrArg List.length hfirst
  obtain ⟨d, ds, rfl⟩ := List.exists_cons_of_ne_nil hne
  simp at hlength
  omega

theorem flatMap_slash (hcs : cs ≠ []) :
    (cs.flatMap fun c => slash :: c) = slash :: slashJoin cs := by
  induction cs with
  | nil => exact absurd rfl hcs
  | cons c cs ih =>
      rcases cs with _ | ⟨d, cs⟩
      · simp
      · rw [List.flatMap_cons, ih (List.cons_ne_nil d cs), slashJoin_cons c (List.cons_ne_nil d cs)]
        rfl

/-- `fstree_get_path` gives the names that lead to a node. -/
theorem IsTree.getPath_find (h : IsTree t) (hcs : ∀ c ∈ cs, IsName c) (hne : cs ≠ [])
    (hm : m < t.count) (hfind : t.find root cs = .ok m) :
    t.getPath m = some (slash :: slashJoin cs) := by
  have hroot : pathPrint 1 t root = some [] := by
    rw [pathPrint, h.root_parent]
  have hprint := h.pathPrint_find h.count_pos hcs hroot hfind
  have hle : root + cs.length ≤ m := h.le_of_find h.count_pos hcs hfind
  have hzero : root = 0 := rfl
  have hpos := List.length_pos_iff.2 hne
  have hm0 : m ≠ root := by omega
  have hbound : 1 + cs.length ≤ t.count := by omega
  rw [List.nil_append, flatMap_slash hne] at hprint
  have hfull := pathPrint_mono hbound hprint
  obtain ⟨p, hp, _⟩ := h.parent m hm hm0
  rw [getPath, hp, pathLength_eq, hfull]
  exact if_pos (Nat.le_refl _)

end Paths

/-! ## The last name of a path -/

section LastName

variable {path front rest : List UInt8}

theorem slash_notMem_suffix (path : List UInt8) : slash ∉ suffix path := by
  intro hmem
  have hne := List.mem_rtakeWhile_imp hmem
  simp at hne

/-- A path without slashes is its last name; otherwise a slash is in front of that. -/
theorem path_cases (path : List UInt8) :
    (suffix path = path ∧ prefixLen path = 0) ∨
      path = path.take (prefixLen path) ++ slash :: suffix path := by
  have hsplit : path.rdropWhile (· ≠ slash) ++ suffix path = path :=
    List.rdropWhile_append_rtakeWhile ..
  by_cases hnil : path.rdropWhile (· ≠ slash) = []
  · rw [hnil, List.nil_append] at hsplit
    exact Or.inl ⟨hsplit, by rw [prefixLen, hsplit]; omega⟩
  · have hlast := List.rdropWhile_last_not _ path hnil
    have hslash : (path.rdropWhile (· ≠ slash)).getLast hnil = slash := by simpa using hlast
    have hdrop := List.dropLast_append_getLast hnil
    rw [hslash] at hdrop
    rw [← hdrop, List.append_assoc, List.singleton_append] at hsplit
    have hlen := congrArg List.length hsplit
    rw [List.length_append, List.length_cons] at hlen
    have hfrontLen : prefixLen path = (path.rdropWhile (· ≠ slash)).dropLast.length := by
      rw [prefixLen]
      omega
    have htake : ((path.rdropWhile (· ≠ slash)).dropLast ++ slash :: suffix path).take
        (prefixLen path) = (path.rdropWhile (· ≠ slash)).dropLast :=
      List.take_left' hfrontLen.symm
    rw [hsplit] at htake
    exact Or.inr (by rw [htake, hsplit])

/-- The components of a path: those in front of the last name, and that. -/
theorem components_path (h : suffix path ≠ []) :
    components path = components (path.take (prefixLen path)) ++ [suffix path] := by
  have hlast := components_singleton ⟨h, slash_notMem_suffix path⟩
  rcases path_cases path with ⟨hsuffix, hfrontLen⟩ | hsplit
  · rw [hfrontLen, List.take_zero, components_nil, List.nil_append, hsuffix, ← hsuffix, hlast]
  · rw [← hlast, ← components_append_slash, ← hsplit]

/-- A canonical path that names something. -/
structure Canonical (path : List UInt8) : Prop where
  canonical : canonicalizePath path = path
  ne_nil : path ≠ []
  no_dots : [dot, dot] ∉ components path

theorem Canonical.singleSlashes (h : Canonical path) : SingleSlashes path :=
  h.canonical ▸ singleSlashes_canonicalizePath path

theorem Canonical.suffix_ne_nil (h : Canonical path) : suffix path ≠ [] := by
  intro hnil
  rcases path_cases path with ⟨hsuffix, _⟩ | hsplit
  · exact h.ne_nil (hsuffix.symm.trans hnil)
  · rw [hnil] at hsplit
    exact h.singleSlashes.trailing _ hsplit

theorem Canonical.isName (h : Canonical path) : ∀ c ∈ components path, IsName c := by
  intro c hc
  refine ⟨?_, fun hdots => h.no_dots (hdots ▸ hc)⟩
  rw [← h.canonical, components_canonicalizePath] at hc
  exact (mem_names.1 hc).2

theorem Canonical.slashJoin (h : Canonical path) : slashJoin (components path) = path := by
  have hjoin := canonicalizePath_eq path
  rw [← components_canonicalizePath, h.canonical] at hjoin
  exact hjoin.symm

/-- Behind a slash of a canonical path there is a component. -/
theorem Canonical.components_ne_nil (h : Canonical path) (hpath : path = front ++ slash :: rest) :
    components rest ≠ [] := by
  rcases rest with _ | ⟨c, rest⟩
  · exact absurd hpath (h.singleSlashes.trailing front)
  · have hc : c ≠ slash := by
      rintro rfl
      exact h.singleSlashes.doubled front rest hpath
    rw [components_head hc]
    exact List.cons_ne_nil _ _

end LastName

/-! ## What a call adds -/

/-- What `mknode_at` has done when it succeeds: it has walked to the directory, and made its
child explicit or created it. -/
theorem mknodeAt_ok {t t' : NodeTree} {path : List UInt8} {type : TreeNodeType}
    {extra : Option (List UInt8)} {n : Nat} (h : t.mknodeAt path type extra = (t', .ok n)) :
    ∃ t₁ parent, t.nodeFromPath none path (prefixLen path) true = (t₁, .ok parent) ∧
      (t₁.node parent).type = .dir ∧
      ((t₁.findChild parent (suffix path) = some n ∧ (t₁.node n).type = .dir ∧ type = .dir ∧
          t' = t₁.modify n fun node => { node with createdImplicitly := false }) ∨
        (t₁.findChild parent (suffix path) = none ∧ n = t₁.count ∧
          t' = t₁.link parent (t₁.explicitNode parent (suffix path) type extra))) := by
  unfold mknodeAt at h
  split at h
  · cases h
  split at h
  · cases h
  rename_i t₁ parent hwalk
  split at h
  · cases h
  rename_i hdir
  split at h
  · rename_i n' hfound
    split at h
    · cases h
    rename_i htypes
    split at h
    · cases h
    cases h
    rw [not_or, not_not, not_not] at htypes
    exact ⟨t₁, parent, hwalk, not_not.1 hdir, Or.inl ⟨hfound, htypes.1, htypes.2, rfl⟩⟩
  · rename_i hfound
    cases h
    exact ⟨t₁, parent, hwalk, not_not.1 hdir, Or.inr ⟨hfound, rfl, rfl⟩⟩

/-- What `mknode_at` leaves when it fails. -/
theorem mknodeAt_error {t t' : NodeTree} {path : List UInt8} {type : TreeNodeType}
    {extra : Option (List UInt8)} {e : Errno} (h : t.mknodeAt path type extra = (t', .error e)) :
    ((type = .symlink ∨ type = .hardLink) ∧ extra = none ∧ t' = t) ∨
      (¬ ((type = .symlink ∨ type = .hardLink) ∧ extra = none) ∧
        t' = (t.nodeFromPath none path (prefixLen path) true).1) := by
  unfold mknodeAt at h
  split at h
  · rename_i hextra
    cases h
    exact Or.inl ⟨hextra.1, hextra.2, rfl⟩
  rename_i hextra
  refine Or.inr ⟨hextra, ?_⟩
  split at h
  · rename_i hwalk
    cases h
    rw [hwalk]
  rename_i t₁ parent hwalk
  rw [hwalk]
  split at h
  · cases h
    rfl
  split at h
  · split at h
    · cases h
      rfl
    split at h
    · cases h
      rfl
    · cases h
  · cases h

/-- The second tree has the nodes of the first one and their targets. -/
structure Keeps (t t' : NodeTree) : Prop extends Extends t t' where
  target : ∀ i, i < t.count → (t'.node i).target = (t.node i).target

theorem Keeps.refl (t : NodeTree) : Keeps t t := ⟨Extends.refl t, fun _ _ => rfl⟩

theorem Keeps.trans {t t' t'' : NodeTree} (h : Keeps t t') (h' : Keeps t' t'') : Keeps t t'' where
  toExtends := h.toExtends.trans h'.toExtends
  target i hi := (h'.target i (Nat.lt_of_lt_of_le hi h.count_le)).trans (h.target i hi)

theorem Grows.keeps {t t' : NodeTree} (h : Grows t t') : Keeps t t' where
  toExtends := h.toExtends
  target i hi := by
    have hkept := congrArg TreeNode.target (h.kept i hi)
    exact hkept

/-- What there is after a node was added: the directory that the walk led to has it as a child
under the last name of the path. -/
structure Added (t t₁ t' : NodeTree) (parent n : Nat) (op : AddOp) : Prop where
  grows : Grows t t₁
  keeps : Keeps t₁ t'
  linked₁ : Linked t₁
  linked : Linked t'
  parent_lt : parent < t₁.count
  parent_type : (t'.node parent).type = .dir
  child : n ∈ (t'.node parent).children
  name_eq : (t'.node n).name = suffix op.path
  type_eq : (t'.node n).type = op.type
  target_eq : op.type ≠ .dir → (t'.node n).target = linkTarget op.type op.extra
  kept : ∀ i, i < t₁.count → i ≠ n →
    (t'.node i).createdImplicitly = (t₁.node i).createdImplicitly

section Adding

variable {t t' : NodeTree} {op : AddOp} {n : Nat} {e : Errno}

theorem Linked.run (h : Linked t) (op : AddOp) : Linked (op.run t).1 := by
  rw [AddOp.run_eq]
  exact ((h.mknodeAt op.path op.type op.extra).onCreated (fun node => (op.finish_kept node).1)
    (fun node => (op.finish_kept node).2.1) (fun node => (op.finish_kept node).2.2.1)
    fun node => (op.finish_kept node).2.2.2).linked

/-- The call as a step of a run. -/
def AddOp.toTreeOp : AddOp → TreeOp
  | directory path => .addDirectory path
  | file path => .addFile path
  | fifo path => .addFifo path
  | socket path => .addSocket path
  | blockDevice path devno => .addBlockDevice path devno
  | characterDevice path devno => .addCharacterDevice path devno
  | symlink path target => .addSymlink path target
  | hardLink path target => .addHardLink path target

theorem Reachable.run (h : Reachable t) (op : AddOp) : Reachable (op.run t).1 := by
  apply h.step op.toTreeOp
  cases op <;> rfl

theorem AddOp.finish_target (op : AddOp) (node : TreeNode) :
    (op.finish node).target = node.target := by
  cases op <;> rfl

theorem Linked.added (h : Linked t) (hrun : op.run t = (t', .ok n)) :
    ∃ t₁ parent, t.nodeFromPath none op.path (prefixLen op.path) true = (t₁, .ok parent) ∧
      Added t t₁ t' parent n op := by
  have hlinked := h.run op
  rw [hrun] at hlinked
  rw [AddOp.run_eq] at hrun
  cases hmake : t.mknodeAt op.path op.type op.extra with
  | mk t₂ res =>
      rw [hmake] at hrun
      cases res with
      | error e => cases hrun
      | ok m =>
          cases hrun
          obtain ⟨t₁, parent, hwalk, hdir, hcases⟩ := mknodeAt_ok hmake
          have hroot : root < t.count := h.count_pos
          obtain ⟨hwalked, hgrows⟩ := h.walkNames true hroot
            (components (op.path.take (prefixLen op.path)))
          rw [nodeFromPath_eq, Option.getD_none] at hwalk
          rw [hwalk] at hwalked hgrows
          have hparent : parent < t₁.count := hwalked.node_lt parent rfl
          have hfinish : Reordered t₂ (t₂.modify n op.finish) := by
            obtain ⟨hp, hname, htype, hchildren⟩ := op.finish_kept (t₂.node n)
            exact reordered_modify hp hname htype (List.Perm.of_eq hchildren)
          have hother : ∀ i, i ≠ n → (t₂.modify n op.finish).node i = t₂.node i := by
            intro i hi
            rw [node_modify, if_neg hi]
          have htarget : ∀ i, ((t₂.modify n op.finish).node i).target = (t₂.node i).target := by
            intro i
            by_cases hi : i = n
            · rw [hi, node_modify, if_pos rfl, AddOp.finish_target]
            · rw [hother i hi]
          refine ⟨t₁, parent, by rw [nodeFromPath_eq, Option.getD_none, hwalk], ?_⟩
          rcases hcases with ⟨hfound, hntype, htype, rfl⟩ | ⟨hfound, rfl, rfl⟩
          · -- the directory was there
            have hmark : Reordered t₁
                (t₁.modify n fun node => { node with createdImplicitly := false }) :=
              reordered_modify rfl rfl rfl (List.Perm.refl _)
            have hboth := hmark.trans hfinish
            have hkeeps : Keeps t₁ ((t₁.modify n fun node =>
                { node with createdImplicitly := false }).modify n op.finish) := by
              refine ⟨hboth.extends, fun i _ => ?_⟩
              rw [htarget, node_modify]
              split
              · rename_i heq
                rw [heq]
              · rfl
            refine ⟨hgrows, hkeeps, hwalked.linked, hlinked, hparent, ?_, ?_, ?_, ?_, ?_, ?_⟩
            · rw [hboth.type, hdir]
            · exact (hboth.children parent).mem_iff.2 (mem_of_findChild hfound)
            · rw [hboth.name]
              exact name_of_findChild hfound
            · rw [hboth.type, hntype, htype]
            · exact fun hne => absurd htype hne
            · intro i _ hi
              rw [hother i hi, node_modify, if_neg hi]
          · -- a new node
            have hnew : Extends t₁
                (t₁.link parent (t₁.explicitNode parent (suffix op.path) op.type op.extra)) :=
              extends_link hparent
            have hkeeps : Keeps t₁ ((t₁.link parent
                (t₁.explicitNode parent (suffix op.path) op.type op.extra)).modify t₁.count
                  op.finish) := by
              refine ⟨hnew.trans hfinish.extends, fun i hi => ?_⟩
              rw [htarget, node_link, if_neg (Nat.ne_of_lt hi)]
              split
              · rename_i heq
                rw [heq]
              · rfl
            refine ⟨hgrows, hkeeps, hwalked.linked, hlinked, hparent, ?_, ?_, ?_, ?_, ?_, ?_⟩
            · rw [hkeeps.type parent hparent, hdir]
            · rw [(hfinish.children parent).mem_iff, (linkedOthers_link hparent).children parent
                hparent, if_pos rfl]
              exact List.mem_cons_self
            · rw [hfinish.name, node_link, if_pos rfl]
              rfl
            · rw [hfinish.type, node_link, if_pos rfl]
              rfl
            · intro _
              rw [htarget, node_link, if_pos rfl]
              rfl
            · intro i hi hne
              rw [hother i hne, node_link, if_neg hne]
              split
              · rename_i heq
                rw [heq]
              · rfl

/-- An added node is found by its name. -/
theorem Added.find {t₁ : NodeTree} {parent : Nat} (h : Added t t₁ t' parent n op)
    (hname : IsName (suffix op.path)) : t'.find parent [suffix op.path] = .ok n := by
  have hparent := Nat.lt_of_lt_of_le h.parent_lt h.keeps.count_le
  have hfound := h.linked.findChild_eq hparent h.child
  rw [h.name_eq] at hfound
  rw [find_name h.parent_type hname, hfound]
  rfl

theorem Added.lt {t₁ : NodeTree} {parent : Nat} (h : Added t t₁ t' parent n op) :
    parent < n ∧ n < t'.count :=
  h.linked.lt_child (Nat.lt_of_lt_of_le h.parent_lt h.keeps.count_le) h.child

/-- A node is found at the path it was added at, if its name is none of the special ones. -/
theorem Linked.find_added (h : Linked t) (hrun : op.run t = (t', .ok n))
    (hname : IsName (suffix op.path)) (hne : suffix op.path ≠ []) :
    t'.find root (components op.path) = .ok n := by
  obtain ⟨t₁, parent, hwalk, hadded⟩ := h.added hrun
  have hroot : root < t.count := h.count_pos
  have hroot₁ : root < t₁.count := hadded.linked₁.count_pos
  rw [nodeFromPath_eq, Option.getD_none] at hwalk
  have hdir : t'.find root (components (op.path.take (prefixLen op.path))) = .ok parent :=
    hadded.keeps.find hadded.linked₁.toIsTree hadded.linked.toIsTree hroot₁
      (h.find_of_walkNames hroot hwalk)
  rw [components_path hne, find_append, hdir]
  exact hadded.find hname

/-- A node that was added at a canonical path is found at that path, its path is that path, what
other paths lead to stays, and the directories that were missing in front of it are there now. -/
theorem run_paths (ht : Reachable t) (hpath : Canonical op.path) (hrun : op.run t = (t', .ok n)) :
    t'.nodeFromPath none op.path op.path.length false = (t', .ok n) ∧
      t'.getPath n = some (slash :: op.path) ∧
      (∀ start path len m, start.getD root < t.count →
        t.nodeFromPath start path len false = (t, .ok m) →
        t'.nodeFromPath start path len false = (t', .ok m)) ∧
      ∀ front rest, op.path = front ++ slash :: rest →
        (∀ m, (t.nodeFromPath none front front.length false).2 ≠ .ok m) →
        ∃ d, t'.nodeFromPath none front front.length false = (t', .ok d) ∧ t.count ≤ d ∧
          (t'.node d).type = .dir ∧ (t'.node d).createdImplicitly = true := by
  have h := ht.linked
  obtain ⟨t₁, parent, hwalk, hadded⟩ := h.added hrun
  have hroot : root < t.count := h.count_pos
  have hcomponents := components_path hpath.suffix_ne_nil
  have hnames := hpath.isName
  rw [nodeFromPath_eq, Option.getD_none] at hwalk
  have hfind : t'.find root (components op.path) = .ok n :=
    h.find_added hrun (hnames _ (hcomponents ▸ by simp)) hpath.suffix_ne_nil
  refine ⟨?_, ?_, ?_, ?_⟩
  · rw [nodeFromPath_false, List.take_length, Option.getD_none, hfind]
  · have hne : components op.path ≠ [] := by simp [hcomponents]
    rw [hadded.linked.getPath_find hnames hne hadded.lt.2 hfind, hpath.slashJoin]
  · intro start path len m hstart hold
    rw [nodeFromPath_false] at hold ⊢
    have hold' := (Prod.ext_iff.1 hold).2
    have hboth : Extends t t' := hadded.grows.toExtends.trans hadded.keeps.toExtends
    rw [hboth.find h.toIsTree hadded.linked.toIsTree hstart hold']
  · intro front rest hsplit hmissing
    rw [nodeFromPath_false, List.take_length, Option.getD_none] at hmissing
    rw [nodeFromPath_false, List.take_length, Option.getD_none]
    -- the components of the prefix are some of those that were walked
    have hrest := hpath.components_ne_nil hsplit
    have hparts := components_append_slash front rest
    rw [← hsplit, hcomponents, ← List.dropLast_append_getLast hrest, ← List.append_assoc] at hparts
    have hfront := (List.append_inj' hparts rfl).1
    rw [hfront, walkNames_append] at hwalk
    cases hwalk₀ : NodeTree.walkNames true t root (components front) with
    | mk t₀ res =>
        rw [hwalk₀] at hwalk
        cases res with
        | error e => cases hwalk
        | ok d =>
            have hsub : ∀ c ∈ components front ++ (components rest).dropLast, IsName c := by
              intro c hc
              exact hnames c (hcomponents ▸ List.mem_append_left _ (hfront ▸ hc))
            rw [List.forall_mem_append] at hsub
            have hnew := (h.find_or_new hroot hsub.1 hwalk₀).resolve_left (hmissing d)
            obtain ⟨hwalked, hgrows⟩ := h.walkNames true hroot (components front)
            rw [hwalk₀] at hwalked hgrows
            have hd : d < t₀.count := hwalked.node_lt d rfl
            obtain ⟨hwalked', hgrows'⟩ :=
              hwalked.linked.walkNames true hd (components rest).dropLast
            have hwalk₁ : NodeTree.walkNames true t₀ d (components rest).dropLast =
                (t₁, .ok parent) := hwalk
            rw [hwalk₁] at hwalked' hgrows'
            have hd₁ : d < t₁.count := Nat.lt_of_lt_of_le hd hgrows'.count_le
            have hfound : t₀.find root (components front) = .ok d :=
              h.find_of_walkNames hroot hwalk₀
            have hroot₀ : root < t₀.count := hwalked.linked.count_pos
            have hfound' := (hgrows'.toExtends.trans hadded.keeps.toExtends).find
              hwalked.linked.toIsTree hadded.linked.toIsTree hroot₀ hfound
            have hle : d + (components rest).dropLast.length ≤ parent :=
              hadded.linked₁.le_of_find hd₁ hsub.2 (hwalked.linked.find_of_walkNames hd hwalk)
            have hlt := hadded.lt.1
            have himplicit := (hgrows.trans hgrows').implicit d hnew hd₁
            refine ⟨d, by rw [hfound'], hnew, ?_, ?_⟩
            · rw [hadded.keeps.type d hd₁, himplicit.1]
            · rw [hadded.kept d hd₁ (by omega), himplicit.2]

theorem run_paths_file :
    create.nodeFromPath none [97, slash, 98] 3 false = (create, .error .enoent) ∧
      (((AddOp.file [97, slash, 98]).run create).1).getPath 2 = some [slash, 97, slash, 98] := by
  have hcanonical : Canonical (AddOp.file [97, slash, 98]).path :=
    ⟨by decide, by decide, by decide⟩
  have hrun : (AddOp.file [97, slash, 98]).run create =
      (((AddOp.file [97, slash, 98]).run create).1, .ok 2) := by
    refine Prod.ext rfl ?_
    rw [AddOp.run_eq, mknodeAt, nodeFromPath_eq]
    rfl
  have hpaths := run_paths Reachable.create hcanonical hrun
  refine ⟨?_, hpaths.2.1⟩
  rw [nodeFromPath_false]
  rfl

end Adding

/-! ## Failed calls -/

section Failing

variable {t t' : NodeTree} {op : AddOp} {e : Errno}

theorem AddOp.run_error (hrun : op.run t = (t', .error e)) :
    t.mknodeAt op.path op.type op.extra = (t', .error e) := by
  rw [AddOp.run_eq] at hrun
  cases hmake : t.mknodeAt op.path op.type op.extra with
  | mk t₁ res =>
      rw [hmake] at hrun
      cases res with
      | error e' => exact hrun
      | ok n => cases hrun

/-- An argument of `mknode_at` is missing. -/
def AddOp.LacksTarget (op : AddOp) : Prop :=
  (op.type = .symlink ∨ op.type = .hardLink) ∧ op.extra = none

/-- A call keeps the nodes there are, whether it succeeds or fails. -/
theorem Linked.keeps_run (h : Linked t) (op : AddOp) : Keeps t (op.run t).1 := by
  cases hrun : op.run t with
  | mk t' res =>
      cases res with
      | ok n =>
          obtain ⟨t₁, parent, -, hadded⟩ := h.added hrun
          exact hadded.grows.keeps.trans hadded.keeps
      | error e =>
          have hroot : root < t.count := h.count_pos
          rcases mknodeAt_error (AddOp.run_error hrun) with ⟨-, -, rfl⟩ | ⟨-, rfl⟩
          · exact Keeps.refl _
          · rw [nodeFromPath_eq, Option.getD_none]
            exact (h.walkNames true hroot _).2.keeps

/-- With a directory part that has to be created, a call without `..` cannot fail. -/
theorem mknodeAt_missing {path : List UInt8} {type : TreeNodeType} {extra : Option (List UInt8)}
    (hextra : ¬ ((type = .symlink ∨ type = .hardLink) ∧ extra = none))
    (hdots : [dot, dot] ∉ components (path.take (prefixLen path)))
    (hmissing : t.find root (components (path.take (prefixLen path))) = .error .enoent) :
    ∃ t' n, t.mknodeAt path type extra = (t', .ok n) := by
  obtain ⟨t₁, parent, hwalk, hdir, hempty⟩ := exists_walkNames_missing hdots hmissing
  have hfound : t₁.findChild parent (suffix path) = none := by
    rw [findChild_eq_none, hempty]
    exact fun c hc => nomatch hc
  refine ⟨t₁.link parent (t₁.explicitNode parent (suffix path) type extra), t₁.count, ?_⟩
  rw [mknodeAt, if_neg hextra, nodeFromPath_eq, Option.getD_none, hwalk]
  simp only [hdir, hfound, ne_eq, not_true_eq_false, if_false]

/-- A call that fails creates at most directories that the walk along the path was missing.  It
creates none if none was missing, and so none if there is no `..` in the directory part. -/
theorem run_failed (ht : Reachable t) (hrun : op.run t = (t', .error e)) :
    Linked t' ∧ Grows t t' ∧
      ([dot, dot] ∉ components (op.path.take (prefixLen op.path)) → t' = t) ∧
      (t' = t ↔ op.LacksTarget ∨
        (t.nodeFromPath none op.path (prefixLen op.path) false).2 ≠ .error .enoent) := by
  have h := ht.linked
  have hroot : root < t.count := h.count_pos
  have hmake := AddOp.run_error hrun
  rw [nodeFromPath_false, Option.getD_none]
  rcases mknodeAt_error hmake with ⟨htype, hextra, rfl⟩ | ⟨hextra, rfl⟩
  · exact ⟨h, Grows.refl _, fun _ => rfl, fun _ => Or.inl ⟨htype, hextra⟩, fun _ => rfl⟩
  · rw [nodeFromPath_eq, Option.getD_none] at hmake ⊢
    obtain ⟨hwalked, hgrows⟩ := h.walkNames true hroot
      (components (op.path.take (prefixLen op.path)))
    have hsame : t.find root (components (op.path.take (prefixLen op.path))) ≠ .error .enoent →
        (walkNames true t root (components (op.path.take (prefixLen op.path)))).1 = t := by
      intro hfound
      rw [walkNames_true_of_found hfound]
    refine ⟨hwalked.linked, hgrows, ?_, ?_, ?_⟩
    · intro hdots
      apply hsame
      intro hmissing
      obtain ⟨t₁, n, hok⟩ := mknodeAt_missing hextra hdots hmissing
      rw [hok] at hmake
      cases hmake
    · intro heq
      refine Or.inr fun hmissing => ?_
      have hlt := h.count_lt_of_missing hroot hmissing
      rw [heq] at hlt
      exact Nat.lt_irrefl _ hlt
    · rintro (hlacks | hfound)
      · exact absurd hlacks hextra
      · exact hsame hfound

theorem run_failed_exists :
    ((AddOp.file [98]).run create).1.count = 2 ∧
      ((AddOp.file [98]).run ((AddOp.file [98]).run create).1).1 =
        ((AddOp.file [98]).run create).1 := by
  have hreach : Reachable ((AddOp.file [98]).run create).1 := Reachable.create.run _
  have hrun : (AddOp.file [98]).run ((AddOp.file [98]).run create).1 =
      (((AddOp.file [98]).run ((AddOp.file [98]).run create).1).1, .error .eexist) := by
    refine Prod.ext rfl ?_
    rw [AddOp.run_eq, AddOp.run_eq, mknodeAt, mknodeAt, nodeFromPath_eq, nodeFromPath_eq]
    rfl
  have hfailed := run_failed hreach hrun
  refine ⟨?_, hfailed.2.2.1 (by decide)⟩
  rw [AddOp.run_eq, mknodeAt, nodeFromPath_eq]
  rfl

/-- With `b` there, adding `a/../b` fails and leaves the directory `a` behind. -/
theorem run_failed_leaves :
    ¬ ∀ t, Reachable t → ∀ (op : AddOp) (t' : NodeTree) (e : Errno),
      op.run t = (t', .error e) → t' = t := by
  intro hall
  have hreach : Reachable ((AddOp.file [98]).run create).1 := Reachable.create.run _
  have hcount : ((AddOp.file [98]).run create).1.count = 2 := by
    rw [AddOp.run_eq, mknodeAt, nodeFromPath_eq]
    rfl
  have hrun : ((AddOp.file [97, slash, dot, dot, slash, 98]).run
        ((AddOp.file [98]).run create).1).2 = .error .eexist ∧
      ((AddOp.file [97, slash, dot, dot, slash, 98]).run
        ((AddOp.file [98]).run create).1).1.count = 3 := by
    rw [AddOp.run_eq, AddOp.run_eq, mknodeAt, mknodeAt, nodeFromPath_eq, nodeFromPath_eq]
    exact ⟨rfl, rfl⟩
  have hsame := hall _ hreach _ _ .eexist (Prod.ext rfl hrun.1)
  have hthree : 3 = 2 := hrun.2.symm.trans ((congrArg count hsame).trans hcount)
  exact absurd hthree (by decide)

end Failing

end ImageTool.Fstree.NodeTree
