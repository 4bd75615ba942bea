import ImageTool.Fstree.CanonicalizePath
import Mathlib.Data.List.DropRight
import Mathlib.Logic.Function.Basic

/-!
# The tree of nodes

Directories, files and other nodes of a file system.  A node is a number here, in the
order of creation; the root is the first one.  A list that the source links through
`next` or `next_by_type` is a list of nodes.
-/

namespace ImageTool.Fstree

/-- `TREE_NODE_TYPE`. -/
inductive TreeNodeType where
  | dir
  | file
  | fifo
  | socket
  | charDev
  | blockDev
  | symlink
  | hardLink
  deriving DecidableEq, Repr

/-- The types in the order of their numbers. -/
def TreeNodeType.all : List TreeNodeType :=
  [.dir, .file, .fifo, .socket, .charDev, .blockDev, .symlink, .hardLink]

/-- The values of `errno` the functions on nodes set. -/
inductive Errno where
  | einval
  | enotdir
  | eexist
  | enoent
  deriving DecidableEq, Repr

/-- `tree_node_t`. -/
structure TreeNode where
  ctime : Nat
  mtime : Nat
  uid : Nat
  gid : Nat
  parent : Option Nat
  name : List UInt8
  type : TreeNodeType
  permissions : Nat
  children : List Nat
  createdImplicitly : Bool
  target : List UInt8
  deviceNumber : Nat

/-- What `fstree_t` knows of its nodes. -/
structure NodeTree where
  count : Nat
  node : Nat → TreeNode
  nodesByType : TreeNodeType → List Nat
  defaultCtime : Nat
  defaultMtime : Nat
  defaultUid : Nat
  defaultGid : Nat
  defaultPermissions : Nat

namespace NodeTree

/-- `fs->root`. -/
def root : Nat := 0

/-- A node as `calloc` leaves it. -/
def blank : TreeNode := ⟨0, 0, 0, 0, none, [], .dir, 0, [], false, [], 0⟩

/-- `fstree_create`. -/
def create : NodeTree where
  count := 1
  node := Function.update (fun _ => blank) root
    { blank with permissions := 0o755, createdImplicitly := true }
  nodesByType := fun type => if type = .dir then [root] else []
  defaultCtime := 0
  defaultMtime := 0
  defaultUid := 0
  defaultGid := 0
  defaultPermissions := 0o755

/-- Change one node. -/
def modify (t : NodeTree) (n : Nat) (f : TreeNode → TreeNode) : NodeTree :=
  { t with node := Function.update t.node n (f (t.node n)) }

/-- A new node in front of the children of a directory and of the nodes of its type. -/
def link (t : NodeTree) (parent : Nat) (n : TreeNode) : NodeTree :=
  { t.modify parent fun p => { p with children := t.count :: p.children } with
    count := t.count + 1
    node := Function.update
      (t.modify parent fun p => { p with children := t.count :: p.children }).node t.count n
    nodesByType := Function.update t.nodesByType n.type (t.count :: t.nodesByType n.type) }

/-- A node with the default owner, times and permissions. -/
def defaultNode (t : NodeTree) (parent : Nat) (name : List UInt8) (type : TreeNodeType) :
    TreeNode :=
  { blank with
    ctime := t.defaultCtime
    mtime := t.defaultMtime
    uid := t.defaultUid
    gid := t.defaultGid
    parent := some parent
    name := name
    type := type
    permissions := t.defaultPermissions }

/-- A directory that a path needs. -/
def implicitDir (t : NodeTree) (parent : Nat) (name : List UInt8) : TreeNode :=
  { t.defaultNode parent name .dir with createdImplicitly := true }

/-- The child of a directory with a name. -/
def findChild (t : NodeTree) (n : Nat) (name : List UInt8) : Option Nat :=
  (t.node n).children.find? fun it => (t.node it).name = name

/-- The loop of `fstree_node_from_path` over the first `len` bytes of the path.  What it
has created stays when it fails. -/
def walk (createImplicit : Bool) (t : NodeTree) (n : Nat) :
    List UInt8 → NodeTree × Except Errno Nat
  | [] => (t, .ok n)
  | c :: path =>
      if c = slash then walk createImplicit t n path
      else
        let comp := c :: path.takeWhile (· ≠ slash)
        let rest := path.dropWhile (· ≠ slash)
        if (t.node n).type ≠ .dir then (t, .error .enotdir)
        else if comp = [dot] then walk createImplicit t n rest
        else if comp = [dot, dot] then
          walk createImplicit t ((t.node n).parent.getD n) rest
        else
          match t.findChild n comp with
          | some it => walk createImplicit t it rest
          | none =>
              if createImplicit then
                walk createImplicit (t.link n (t.implicitDir n comp)) t.count rest
              else (t, .error .enoent)
termination_by path => path.length
decreasing_by
  all_goals
    have hle := (List.dropWhile_suffix (l := path) fun c => decide (c ≠ slash)).length_le
    simp only [List.length_cons]
    omega

/-- `fstree_node_from_path`. -/
def nodeFromPath (t : NodeTree) (start : Option Nat) (path : List UInt8) (len : Nat)
    (createImplicit : Bool) : NodeTree × Except Errno Nat :=
  walk createImplicit t (start.getD root) (path.take len)

/-- What stands behind the last slash. -/
def suffix (path : List UInt8) : List UInt8 := path.rtakeWhile (· ≠ slash)

/-- The length of what stands in front of the last slash. -/
def prefixLen (path : List UInt8) : Nat := path.length - (suffix path).length - 1

/-- The `data.link.target` of a new node. -/
def linkTarget (type : TreeNodeType) (extra : Option (List UInt8)) : List UInt8 :=
  match type with
  | .symlink => extra.getD []
  | .hardLink => canonicalizePath (extra.getD [])
  | _ => []

/-- The node `mknode_at` creates. -/
def explicitNode (t : NodeTree) (parent : Nat) (name : List UInt8) (type : TreeNodeType)
    (extra : Option (List UInt8)) : TreeNode :=
  { t.defaultNode parent name type with target := linkTarget type extra }

/-- `mknode_at`. -/
def mknodeAt (t : NodeTree) (path : List UInt8) (type : TreeNodeType)
    (extra : Option (List UInt8)) : NodeTree × Except Errno Nat :=
  if (type = .symlink ∨ type = .hardLink) ∧ extra = none then (t, .error .einval)
  else
    match t.nodeFromPath none path (prefixLen path) true with
    | (t, .error e) => (t, .error e)
    | (t, .ok parent) =>
        if (t.node parent).type ≠ .dir then (t, .error .enotdir)
        else
          match t.findChild parent (suffix path) with
          | some n =>
              if (t.node n).type ≠ .dir ∨ type ≠ .dir then (t, .error .eexist)
              else if !(t.node n).createdImplicitly then (t, .error .eexist)
              else (t.modify n fun node => { node with createdImplicitly := false }, .ok n)
          | none =>
              (t.link parent (t.explicitNode parent (suffix path) type extra), .ok t.count)

/-- Finish a node that has been created. -/
def onCreated (f : TreeNode → TreeNode) :
    NodeTree × Except Errno Nat → NodeTree × Except Errno Nat
  | (t, .ok n) => (t.modify n f, .ok n)
  | (t, .error e) => (t, .error e)

/-- `fstree_add_directory`. -/
def addDirectory (t : NodeTree) (path : List UInt8) : NodeTree × Except Errno Nat :=
  t.mknodeAt path .dir none

/-- `fstree_add_file`. -/
def addFile (t : NodeTree) (path : List UInt8) : NodeTree × Except Errno Nat :=
  onCreated (fun n => { n with permissions := n.permissions &&& 0o666 })
    (t.mknodeAt path .file none)

/-- `fstree_add_fifo`. -/
def addFifo (t : NodeTree) (path : List UInt8) : NodeTree × Except Errno Nat :=
  onCreated (fun n => { n with permissions := n.permissions &&& 0o666 })
    (t.mknodeAt path .fifo none)

/-- `fstree_add_socket`. -/
def addSocket (t : NodeTree) (path : List UInt8) : NodeTree × Except Errno Nat :=
  onCreated (fun n => { n with permissions := n.permissions &&& 0o666 })
    (t.mknodeAt path .socket none)

/-- `fstree_add_block_device`. -/
def addBlockDevice (t : NodeTree) (path : List UInt8) (devno : Nat) :
    NodeTree × Except Errno Nat :=
  onCreated (fun n => { n with permissions := n.permissions &&& 0o666, deviceNumber := devno })
    (t.mknodeAt path .blockDev none)

/-- `fstree_add_character_device`. -/
def addCharacterDevice (t : NodeTree) (path : List UInt8) (devno : Nat) :
    NodeTree × Except Errno Nat :=
  onCreated (fun n => { n with permissions := n.permissions &&& 0o666, deviceNumber := devno })
    (t.mknodeAt path .charDev none)

/-- `fstree_add_symlink`. -/
def addSymlink (t : NodeTree) (path : List UInt8) (target : Option (List UInt8)) :
    NodeTree × Except Errno Nat :=
  onCreated (fun n => { n with permissions := 0o777 }) (t.mknodeAt path .symlink target)

/-- `fstree_add_hard_link`. -/
def addHardLink (t : NodeTree) (path : List UInt8) (target : Option (List UInt8)) :
    NodeTree × Except Errno Nat :=
  onCreated (fun n => { n with permissions := 0o777 }) (t.mknodeAt path .hardLink target)

/-! ## Sorting -/

/-- `fstree_sort_node_list`: a merge sort, the first half rounded up. -/
def sortNodeList (le : Nat → Nat → Bool) : List Nat → List Nat
  | [] => []
  | [n] => [n]
  | a :: b :: list =>
      let half := (list.length + 3) / 2
      List.merge (sortNodeList le ((a :: b :: list).take half))
        (sortNodeList le ((a :: b :: list).drop half)) le
termination_by list => list.length
decreasing_by
  · simp only [List.length_take, List.length_cons]
    omega
  · simp only [List.length_drop, List.length_cons]
    omega

/-- `name_compare_cb(lhs, rhs) <= 0`. -/
def nameLe (t : NodeTree) (lhs rhs : Nat) : Bool :=
  decide ((t.node lhs).name ≤ (t.node rhs).name)

/-- `fstree_sort_node_recursive`; the first argument bounds the depth. -/
def sortNodeRecursive : Nat → NodeTree → Nat → Option NodeTree
  | 0, _, _ => none
  | fuel + 1, t, n =>
      if (t.node n).type ≠ .dir then some t
      else
        let list := sortNodeList t.nameLe (t.node n).children
        list.foldlM (sortNodeRecursive fuel) (t.modify n fun node => { node with children := list })

/-- `linearize_dir_tree`; the first argument bounds the depth. -/
def linearizeDirTree : Nat → NodeTree → TreeNodeType → Nat → Option (List Nat)
  | 0, _, _, _ => none
  | fuel + 1, t, type, n => do
      let list := (t.node n).children.filter fun it => (t.node it).type = type
      let dirs := (t.node n).children.filter fun it => (t.node it).type = .dir
      let sublists ← dirs.mapM (linearizeDirTree fuel t type)
      some (list ++ sublists.flatten)

/-- One turn of the loop of `fstree_sort` over the types. -/
def relistType (t : NodeTree) (type : TreeNodeType) : Option NodeTree := do
  let list ← linearizeDirTree t.count t type root
  some { t with nodesByType := Function.update t.nodesByType type list }

/-- `fstree_sort`. -/
def sort (t : NodeTree) : Option NodeTree := do
  let t ← sortNodeRecursive t.count t root
  let t ← TreeNodeType.all.foldlM relistType t
  some { t with nodesByType :=
    Function.update t.nodesByType .dir (root :: t.nodesByType .dir) }

end NodeTree

end ImageTool.Fstree
