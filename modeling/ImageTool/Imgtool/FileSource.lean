import ImageTool.Lib.Producer
import Mathlib.Logic.Function.Basic

/-!
# File sources

A file source hands out records of files.  Aggregates, filters and mount groups are
sources with other sources nested in them.  The nested ones are linked by pointers, so
the model has a heap of sources, and two links can lead to one source.

An allocator picks the addresses: an operation that creates a source names one that is
not in use.
-/

namespace ImageTool.Imgtool

open ImageTool.Lib

/-- `FILE_SOURCE_TYPE`. -/
inductive FileSourceType where
  | dir
  | file
  | fifo
  | socket
  | charDev
  | blockDev
  | symlink
  | hardLink
  deriving DecidableEq, Repr

/-- `file_source_record_t`. -/
structure FileSourceRecord where
  type : FileSourceType
  permissions : Nat
  uid : Nat
  gid : Nat
  devno : Nat
  ctime : Nat
  mtime : Nat
  size : Nat
  fullPath : List UInt8
  linkTarget : Option (List UInt8)
  deriving DecidableEq, Repr

/-- `FILE_SOURCE_FILTER`. -/
inductive FilterTarget where
  | allow
  | discard
  deriving DecidableEq

/-- `rule_t`. -/
structure Rule where
  target : FilterTarget
  pattern : List UInt8
  deriving DecidableEq

/-- A record and the stream that comes with it. -/
abbrev SourceItem (σ : Type) := FileSourceRecord × Option σ

/-- What stands behind a `file_source_t` pointer.  The list of an aggregate and the
entries from its `it` on are lists of pointers. -/
inductive Source (σ : Type) where
  | leaf (items : List (SourceItem σ))
  | aggregate (list it : List Nat)
  | filter (wrappedIsAggregate : Bool) (wrapped : Option Nat) (rules : List Rule)
  | mountGroup (source : Option Nat) (haveAggregate : Bool)

section Sources

variable {σ : Type}

/-! ## Drawing records -/

/-- The first rule that matches decides; no rule discards. -/
def allowed (fnmatch : List UInt8 → List UInt8 → Bool) (rules : List Rule)
    (item : SourceItem σ) : Bool :=
  match rules.find? fun r => fnmatch r.pattern item.1.fullPath with
  | some r => decide (r.target = .allow)
  | none => false

/-- `aggregate->it = aggregate->it->next`. -/
def advance (heap : Heap (Source σ)) (p : Nat) : Heap (Source σ) :=
  match heap p with
  | some (.aggregate list it) => Function.update heap p (some (.aggregate list it.tail))
  | _ => heap

/-- `get_next_record` of each kind of source.  The end answers `none`. -/
def getNextRecord (fnmatch : List UInt8 → List UInt8 → Bool) :
    NextItem (Source σ) (SourceItem σ)
  | 0, _, _ => none
  | fuel + 1, heap, p =>
      match heap p with
      | none => none
      | some (.leaf []) => some (none, heap)
      | some (.leaf (item :: items)) =>
          some (some item, Function.update heap p (some (.leaf items)))
      | some (.aggregate _ []) => some (none, heap)
      | some (.aggregate _ (src :: _)) =>
          match getNextRecord fnmatch fuel heap src with
          | none => none
          | some (none, heap) => getNextRecord fnmatch fuel (advance heap p) p
          | some (some item, heap) => some (some item, heap)
      | some (.filter _ none _) => some (none, heap)
      | some (.filter _ (some wrapped) rules) =>
          match getNextRecord fnmatch fuel heap wrapped with
          | none => none
          | some (none, heap) => some (none, heap)
          | some (some item, heap) =>
              if allowed fnmatch rules item then some (some item, heap)
              else getNextRecord fnmatch fuel heap p
      | some (.mountGroup none _) => some (none, heap)
      | some (.mountGroup (some source) _) => getNextRecord fnmatch fuel heap source

/-! ## Nesting sources -/

/-- `add_nested` of an aggregate. -/
def aggregateAddNested (heap : Heap (Source σ)) (p nested : Nat) : Option (Heap (Source σ)) :=
  match heap p with
  | some (.aggregate list _) =>
      some (Function.update heap p (some (.aggregate (list ++ [nested]) (list ++ [nested]))))
  | _ => none

/-- `add_nested` of a filter; `fresh` is the address of an aggregate it creates. -/
def filterAddNested (heap : Heap (Source σ)) (p nested fresh : Nat) :
    Option (Heap (Source σ)) :=
  match heap p with
  | some (.filter isAggregate none rules) =>
      some (Function.update heap p (some (.filter isAggregate (some nested) rules)))
  | some (.filter true (some wrapped) _) => aggregateAddNested heap wrapped nested
  | some (.filter false (some wrapped) rules) => do
      let heap ← aggregateAddNested (Function.update heap fresh (some (.aggregate [] [])))
        fresh wrapped
      let heap := Function.update heap p (some (.filter true (some fresh) rules))
      aggregateAddNested heap fresh nested
  | _ => none

/-- `mg_add_nested`: behind the first source both calls of the aggregate's `add_nested`
get the new one. -/
def mgAddNested (heap : Heap (Source σ)) (p nested fresh : Nat) : Option (Heap (Source σ)) :=
  match heap p with
  | some (.mountGroup none haveAggregate) =>
      some (Function.update heap p (some (.mountGroup (some nested) haveAggregate)))
  | some (.mountGroup (some source) true) => aggregateAddNested heap source nested
  | some (.mountGroup (some _) false) => do
      let heap ← aggregateAddNested (Function.update heap fresh (some (.aggregate [] [])))
        fresh nested
      let heap := Function.update heap p (some (.mountGroup (some fresh) true))
      aggregateAddNested heap fresh nested
  | _ => none

/-- The `add_nested` a stackable source has. -/
def addNested (heap : Heap (Source σ)) (p nested fresh : Nat) : Option (Heap (Source σ)) :=
  match heap p with
  | some (.aggregate _ _) => aggregateAddNested heap p nested
  | some (.filter _ _ _) => filterAddNested heap p nested fresh
  | some (.mountGroup _ _) => mgAddNested heap p nested fresh
  | _ => none

/-- `add_glob_rule`. -/
def addGlobRule (heap : Heap (Source σ)) (p : Nat) (rule : Rule) : Option (Heap (Source σ)) :=
  match heap p with
  | some (.filter isAggregate wrapped rules) =>
      some (Function.update heap p (some (.filter isAggregate wrapped (rules ++ [rule]))))
  | _ => none

/-! ## Building a nest of sources -/

/-- The kinds of sources others can be nested in. -/
inductive Kind where
  | aggregate
  | filter (rules : List Rule)
  | mountGroup

/-- What the callers of `add_nested` have asked for. -/
inductive Node (σ : Type) where
  | leaf (items : List (SourceItem σ))
  | container (kind : Kind) (nested : List Nat)

/-- The source a node starts as. -/
def Node.create : Node σ → Option (Source σ)
  | .leaf items => some (.leaf items)
  | .container .aggregate [] => some (.aggregate [] [])
  | .container (.filter []) [] => some (.filter false none [])
  | .container .mountGroup [] => some (.mountGroup none false)
  | _ => none

/-- What a node becomes with one more source nested in it. -/
def Node.addNested : Node σ → Nat → Option (Node σ)
  | .leaf _, _ => none
  | .container kind nested, c => some (.container kind (nested ++ [c]))

/-- What a filter becomes with one more rule. -/
def Node.addRule : Node σ → Rule → Option (Node σ)
  | .container (.filter rules) nested, rule => some (.container (.filter (rules ++ [rule])) nested)
  | _, _ => none

/-- A step of building: the pointers are those of sources the caller has created. -/
inductive BuildOp (σ : Type) where
  | create (p : Nat) (node : Node σ)
  | addRule (p : Nat) (rule : Rule)
  | addNested (p nested fresh : Nat)

/-- The sources, and next to them what has been asked for. -/
structure Build (σ : Type) where
  heap : Heap (Source σ)
  nest : Nat → Option (Node σ)

/-- Carry out a step. -/
def Build.exec (b : Build σ) : BuildOp σ → Option (Build σ)
  | .create p node => do
      guard (b.heap p).isNone
      let source ← node.create
      some ⟨Function.update b.heap p (some source), Function.update b.nest p (some node)⟩
  | .addRule p rule => do
      let node ← b.nest p
      let node ← node.addRule rule
      let heap ← addGlobRule b.heap p rule
      some ⟨heap, Function.update b.nest p (some node)⟩
  | .addNested p nested fresh => do
      guard (b.heap fresh).isNone
      guard (b.nest nested).isSome
      let node ← b.nest p
      let node ← node.addNested nested
      let heap ← addNested b.heap p nested fresh
      some ⟨heap, Function.update b.nest p (some node)⟩

/-- Build from nothing. -/
def build (ops : List (BuildOp σ)) : Option (Build σ) :=
  ops.foldlM Build.exec ⟨fun _ => none, fun _ => none⟩

end Sources

end ImageTool.Imgtool
