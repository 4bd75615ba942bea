import ImageTool.Lib.Call
import ImageTool.Lib.Elimination

/-!
# The dependency tracker

The tracker knows the volumes, partitions, partition managers and file systems a
configuration has created, and which of them is stacked on which.  On commit it
takes off nodes nobody depends on, from the front of its list, and commits or builds
what they stand for.

Nodes and edges of the source are linked by pointers.  A node is unique for its type
and object, so here the pair stands for the pointer; an object is a number, its
identity.
-/

namespace ImageTool.Imgtool

open ImageTool.Lib

/-- `FS_DEP_NODE_TYPE`. -/
inductive NodeType where
  | volume
  | filesystem
  | partition
  | partMgr
  deriving DecidableEq

/-- What a pointer to a node stands for. -/
structure NodeKey where
  type : NodeType
  obj : Nat
  deriving DecidableEq

/-- `fs_dependency_node_t`. -/
structure DepNode where
  key : NodeKey
  depCount : Nat
  deriving DecidableEq

/-- `fs_dependency_edge_t`. -/
structure DepEdge where
  node : NodeKey
  dependsOn : NodeKey
  deriving DecidableEq

/-- `dep_tracker_private_t`. -/
structure DepTracker where
  edges : List DepEdge
  nodes : List DepNode
  deriving DecidableEq

namespace DepTracker

/-- `fs_dep_tracker_create`. -/
def create : DepTracker := ⟨[], []⟩

/-- The keys of all nodes. -/
def keys (dep : DepTracker) : List NodeKey := dep.nodes.map DepNode.key

/-- `get_by_ptr`. -/
def getByPtr (dep : DepTracker) (key : NodeKey) : DepTracker :=
  if key ∈ dep.keys then dep else { dep with nodes := ⟨key, 0⟩ :: dep.nodes }

/-- `find_edge`. -/
def findEdge (dep : DepTracker) (node dependsOn : NodeKey) : DepTracker :=
  if ⟨node, dependsOn⟩ ∈ dep.edges then dep
  else { dep with edges := ⟨node, dependsOn⟩ :: dep.edges }

/-- `add_dependency`. -/
def addDependency (dep : DepTracker) (child : NodeKey) : Option NodeKey → DepTracker
  | none => dep.getByPtr child
  | some parent => ((dep.getByPtr child).getByPtr parent).findEdge child parent

end DepTracker

/-- The calls that register an object. -/
inductive Registration where
  | addVolume (volume : Nat) (parent : Option Nat)
  | addPartition (partition parent : Nat)
  | addPartitionMgr (mgr parent : Nat)
  | addVolumeFile (volume parent : Nat)
  | addFs (fs parent : Nat)
  deriving DecidableEq

namespace Registration

/-- The node that is registered. -/
def child : Registration → NodeKey
  | addVolume volume _ => ⟨.volume, volume⟩
  | addPartition partition _ => ⟨.partition, partition⟩
  | addPartitionMgr mgr _ => ⟨.partMgr, mgr⟩
  | addVolumeFile volume _ => ⟨.volume, volume⟩
  | addFs fs _ => ⟨.filesystem, fs⟩

/-- The node it depends on. -/
def parent : Registration → Option NodeKey
  | addVolume _ parent => parent.map (⟨.volume, ·⟩)
  | addPartition _ parent => some ⟨.partMgr, parent⟩
  | addPartitionMgr _ parent => some ⟨.volume, parent⟩
  | addVolumeFile _ parent => some ⟨.filesystem, parent⟩
  | addFs _ parent => some ⟨.volume, parent⟩

end Registration

namespace DepTracker

/-- Carry out a registration. -/
def register (dep : DepTracker) (r : Registration) : DepTracker :=
  dep.addDependency r.child r.parent

/-- The tracker after some registrations, the last one first. -/
def registered : List Registration → DepTracker
  | [] => create
  | r :: rs => (registered rs).register r

/-! ## Commit -/

/-- The calls `dep_tracker_commit` makes: `commit` of a volume, partition or partition
manager, `build_format` of a file system, and `commit` of the volume a file system
has in its tree. -/
inductive Event where
  | commit (obj : Nat)
  | build (fs : Nat)
  | commitVolume (fs : Nat)
  deriving DecidableEq

/-- The state of `dep_tracker_commit`: the tracker and the calls made. -/
structure Committing where
  tracker : DepTracker
  log : List Event

/-- Whether a call succeeds, given the calls made before it. -/
abbrev Callbacks := List Event → Event → Bool

/-- Make a call. -/
def call (ret : Callbacks) (e : Event) : Call Committing Unit := fun s =>
  if ret s.log e then .ok () { s with log := s.log ++ [e] }
  else .fail { s with log := s.log ++ [e] }

/-- The calls that resolve a node. -/
def events (key : NodeKey) : List Event :=
  match key.type with
  | .volume | .partition | .partMgr => [.commit key.obj]
  | .filesystem => [.build key.obj, .commitVolume key.obj]

/-- Resolve a node. -/
def resolve (ret : Callbacks) : List Event → Call Committing Unit
  | [] => pure ()
  | e :: es => do
      call ret e
      resolve ret es

/-- Add to the count of a node. -/
def addCount (key : NodeKey) (nodes : List DepNode) : List DepNode :=
  nodes.map fun n => if n.key = key then { n with depCount := n.depCount + 1 } else n

/-- Take from the count of a node. -/
def dropCount (key : NodeKey) (nodes : List DepNode) : List DepNode :=
  nodes.map fun n => if n.key = key then { n with depCount := n.depCount - 1 } else n

/-- The two loops in front of the main loop of `dep_tracker_commit`. -/
def countEdges (dep : DepTracker) : DepTracker :=
  { dep with
    nodes := dep.edges.foldl (fun nodes e => addCount e.dependsOn nodes)
      (dep.nodes.map fun n => { n with depCount := 0 }) }

/-- Remove the edges that start at a node. -/
def removeEdges (key : NodeKey) : List DepEdge → List DepNode → List DepEdge × List DepNode
  | [], nodes => ([], nodes)
  | e :: es, nodes =>
      if e.node = key then removeEdges key es (dropCount e.dependsOn nodes)
      else
        let rest := removeEdges key es nodes
        (e :: rest.1, rest.2)

/-- Remove a node and its outgoing edges. -/
def removeNode (dep : DepTracker) (key : NodeKey) : DepTracker :=
  let rest := removeEdges key dep.edges dep.nodes
  ⟨rest.1, rest.2.eraseP fun n => n.key = key⟩

/-- The main loop of `dep_tracker_commit`; the first argument bounds the number of
rounds. -/
def commitLoop (ret : Callbacks) : Nat → Call Committing Unit
  | 0 => do
      let s ← Call.get
      if s.tracker.nodes = [] then pure () else Call.stuck
  | fuel + 1 => do
      let s ← Call.get
      if s.tracker.nodes = [] then pure ()
      else
        match s.tracker.nodes.find? fun n => n.depCount = 0 with
        | none => Call.fail
        | some nit => do
            resolve ret (events nit.key)
            Call.modify fun s => { s with tracker := s.tracker.removeNode nit.key }
            commitLoop ret fuel

/-- `dep_tracker_commit`. -/
def commit (ret : Callbacks) : Call Committing Unit := do
  Call.modify fun s => { s with tracker := s.tracker.countEdges }
  let s ← Call.get
  commitLoop ret s.tracker.nodes.length

end DepTracker

end ImageTool.Imgtool
