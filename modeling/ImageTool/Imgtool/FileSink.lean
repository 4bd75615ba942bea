import ImageTool.Fstree.HardLinks
import ImageTool.Imgtool.FileSource

/-!
# File sinks

A file sink hands the records of a source on to the file systems that are bound to prefixes of
their paths.  A file system is an address; its tree of nodes is in a heap of trees.  The data of
files goes to the volume of a file system and not into its tree, so a record comes with whether
appending its data succeeds.
-/

namespace ImageTool.Imgtool

open ImageTool.Fstree ImageTool.Fstree.NodeTree

/-- `file_sink_bind_t`; `path` is its prefix. -/
structure FileSinkBind where
  path : List UInt8
  target : Nat
  deriving DecidableEq

namespace FileSink

/-- The loop of `file_sink_bind` that gives a new target to a prefix that is there. -/
def rebind (new : FileSinkBind) : List FileSinkBind → Option (List FileSinkBind)
  | [] => none
  | it :: rest =>
      if it.path = new.path then some ({ it with target := new.target } :: rest)
      else (rebind new rest).map (it :: ·)

/-- `file_sink_bind`. -/
def bind (binds : List FileSinkBind) (path : List UInt8) (target : Nat) : List FileSinkBind :=
  let new : FileSinkBind := ⟨canonicalizePath path, target⟩
  (rebind new binds).getD (new :: binds)

/-- The bindings that some calls leave in a new sink. -/
def bindAll (calls : List (List UInt8 × Nat)) : List FileSinkBind :=
  calls.foldl (fun binds call => bind binds call.1 call.2) []

/-- One turn of the loop of `bind_point_from_path`. -/
def matchBind (path : List UInt8) (found : Option FileSinkBind) (it : FileSinkBind) :
    Option FileSinkBind :=
  if path.length ≤ it.path.length ∨ path.take it.path.length ≠ it.path then found
  else if 0 < it.path.length ∧ path[it.path.length]? ≠ some slash then found
  else
    match found with
    | none => some it
    | some best => if best.path.length < it.path.length then some it else some best

/-- `bind_point_from_path`. -/
def bindPointFromPath (binds : List FileSinkBind) (path : List UInt8) : Option FileSinkBind :=
  binds.foldl (matchBind path) none

/-- `retarget_path`. -/
def retargetPath (it : FileSinkBind) (path : List UInt8) : List UInt8 :=
  if path.length ≤ it.path.length ∨ path.take it.path.length ≠ it.path then path
  else if it.path.length = 0 ∨ path[it.path.length]? ≠ some slash then path
  else path.drop (it.path.length + 1)

/-- The call that `create_node` makes for a record. -/
def nodeOp (rec : FileSourceRecord) (name : List UInt8) (target : Option (List UInt8)) : AddOp :=
  match rec.type with
  | .dir => .directory name
  | .file => .file name
  | .fifo => .fifo name
  | .socket => .socket name
  | .charDev => .characterDevice name rec.devno
  | .blockDev => .blockDevice name rec.devno
  | .symlink => .symlink name target
  | .hardLink => .hardLink name target

theorem nodeOp_hardLink {rec : FileSourceRecord} (h : rec.type = .hardLink) (name : List UInt8)
    (target : Option (List UInt8)) : nodeOp rec name target = .hardLink name target := by
  rw [nodeOp, h]

/-- What `create_node` sets in the node. -/
def setRecord (rec : FileSourceRecord) (node : TreeNode) : TreeNode :=
  { node with
    uid := rec.uid
    gid := rec.gid
    mtime := rec.mtime
    ctime := rec.ctime
    permissions :=
      if rec.type = .symlink ∨ rec.type = .hardLink then 0o777 else rec.permissions }

/-- `create_node`. -/
def createNode (t : NodeTree) (rec : FileSourceRecord) (name : List UInt8)
    (target : Option (List UInt8)) : NodeTree × Except Errno Nat :=
  if (rec.type = .symlink ∨ rec.type = .hardLink) ∧ target.getD [] = [] then (t, .error .einval)
  else onCreated (setRecord rec) ((nodeOp rec name target).run t)

/-- The trees of the file systems by their addresses. -/
abbrev Trees := Nat → NodeTree

/-- One turn of the loop of `file_sink_add_data`: the file system and the node that was created,
if the record was not skipped. -/
def addRecord (binds : List FileSinkBind) (trees : Trees) (rec : FileSourceRecord)
    (appended : Bool) : Trees × Option (Option (Nat × Nat)) :=
  match bindPointFromPath binds rec.fullPath with
  | none => (trees, some none)
  | some it =>
      let name := retargetPath it rec.fullPath
      if name = [] then (trees, some none)
      else
        let target :=
          if rec.type = .hardLink then rec.linkTarget.map (retargetPath it) else rec.linkTarget
        match createNode (trees it.target) rec name target with
        | (t, .error _) => (Function.update trees it.target t, none)
        | (t, .ok n) =>
            if rec.type = .file ∧ !appended then (Function.update trees it.target t, none)
            else (Function.update trees it.target t, some (some (it.target, n)))

/-- What `file_sink_add_data` leaves: the trees, what was created for each record up to the first
failure, and whether there was none. -/
structure SinkRun where
  trees : Trees
  made : List (Option (Nat × Nat))
  success : Bool

/-- `file_sink_add_data` with the records of a source that ends, or fails behind the last one. -/
def addData (binds : List FileSinkBind) (ended : Bool) (trees : Trees) :
    List (FileSourceRecord × Bool) → SinkRun
  | [] => ⟨trees, [], ended⟩
  | (rec, appended) :: items =>
      match addRecord binds trees rec appended with
      | (trees, none) => ⟨trees, [], false⟩
      | (trees, some made) =>
          let run := addData binds ended trees items
          { run with made := made :: run.made }

/-! ## Bindings -/

section Bindings

variable {binds : List FileSinkBind} {it : FileSinkBind} {path rest : List UInt8}

/-- A path is below a prefix. -/
def Under (front path : List UInt8) : Prop :=
  front = [] ∧ path ≠ [] ∨ front ≠ [] ∧ ∃ rest, path = front ++ slash :: rest

/-- The tests of the two loops. -/
theorem under_iff (front path : List UInt8) :
    Under front path ↔ ¬ (path.length ≤ front.length ∨ path.take front.length ≠ front) ∧
      ¬ (0 < front.length ∧ path[front.length]? ≠ some slash) := by
  constructor
  · rintro (⟨rfl, hpath⟩ | ⟨hfront, rest, rfl⟩)
    · simp [hpath]
    · simp
  · rintro ⟨hlong, hslash⟩
    rw [not_or, not_not, not_le] at hlong
    by_cases hnil : front = []
    · refine Or.inl ⟨hnil, ?_⟩
      rintro rfl
      simp at hlong
    · rw [not_and, not_not] at hslash
      have hget := hslash (List.length_pos_iff.2 hnil)
      have hdrop := List.drop_eq_getElem_cons hlong.1
      rw [List.getElem?_eq_getElem hlong.1, Option.some.injEq] at hget
      refine Or.inr ⟨hnil, path.drop (front.length + 1), ?_⟩
      calc path = path.take front.length ++ path.drop front.length := by simp
        _ = front ++ slash :: path.drop (front.length + 1) := by rw [hlong.2, hdrop, hget]

/-- A binding that is found is one that the path is below. -/
theorem bindPointFromPath_some (h : bindPointFromPath binds path = some it) :
    it ∈ binds ∧ Under it.path path := by
  have hfold : ∀ (list : List FileSinkBind) (found : Option FileSinkBind),
      (∀ b, found = some b → b ∈ binds ∧ Under b.path path) → (∀ b ∈ list, b ∈ binds) →
      ∀ b, list.foldl (matchBind path) found = some b → b ∈ binds ∧ Under b.path path := by
    intro list
    induction list with
    | nil => exact fun found hfound _ => hfound
    | cons c list ih =>
        intro found hfound hlist
        rw [List.forall_mem_cons] at hlist
        rw [List.foldl_cons]
        refine ih _ ?_ hlist.2
        intro b hb
        unfold matchBind at hb
        split at hb
        · exact hfound b hb
        rename_i hlong
        split at hb
        · exact hfound b hb
        rename_i hslash
        have hunder := (under_iff c.path path).2 ⟨hlong, hslash⟩
        split at hb
        · cases hb
          exact ⟨hlist.1, hunder⟩
        · split at hb
          · cases hb
            exact ⟨hlist.1, hunder⟩
          · exact hfound b hb
  exact hfold binds none (fun b hb => nomatch hb) (fun b hb => hb) it h

/-- What `retarget_path` leaves of a path below the prefix. -/
theorem retargetPath_under (hit : it.path ≠ []) (hpath : path = it.path ++ slash :: rest) :
    retargetPath it path = rest := by
  have hunder := (under_iff it.path path).1 (Or.inr ⟨hit, rest, hpath⟩)
  have hzero : it.path.length ≠ 0 := fun hzero => hit (List.length_eq_zero_iff.1 hzero)
  rw [retargetPath, if_neg hunder.1, if_neg, hpath]
  · simp
  · rintro (hnil | hslash)
    · exact hzero hnil
    · exact hunder.2 ⟨Nat.pos_of_ne_zero hzero, hslash⟩

theorem retargetPath_nil (hit : it.path = []) (path : List UInt8) :
    retargetPath it path = path := by
  rw [retargetPath, hit]
  simp

/-- Other paths are left as they are. -/
theorem retargetPath_of_not_under (h : ∀ rest, path ≠ it.path ++ slash :: rest) :
    retargetPath it path = path := by
  by_cases hit : it.path = []
  · exact retargetPath_nil hit path
  · rw [retargetPath]
    split
    · rfl
    rename_i hlong
    split
    · rfl
    rename_i hslash
    rw [not_or] at hslash
    have hunder : Under it.path path :=
      (under_iff it.path path).2 ⟨hlong, fun hand => hslash.2 hand.2⟩
    rcases hunder with ⟨hnil, _⟩ | ⟨_, rest, hpath⟩
    · exact absurd hnil hit
    · exact absurd hpath (h rest)

theorem canonical_bind (h : ∀ b ∈ binds, canonicalizePath b.path = b.path) (target : Nat) :
    ∀ b ∈ bind binds path target, canonicalizePath b.path = b.path := by
  have hloop : ∀ (new : FileSinkBind) (list list' : List FileSinkBind),
      rebind new list = some list' → ∀ b ∈ list', ∃ c ∈ list, c.path = b.path := by
    intro new list
    induction list with
    | nil => exact fun list' hlist' => nomatch hlist'
    | cons c list ih =>
        intro list' hlist' b hb
        rw [rebind] at hlist'
        split at hlist'
        · cases hlist'
          rcases List.mem_cons.1 hb with rfl | hb
          · exact ⟨c, List.mem_cons_self, rfl⟩
          · exact ⟨b, List.mem_cons_of_mem c hb, rfl⟩
        · obtain ⟨list₁, hlist₁, rfl⟩ := Option.map_eq_some_iff.1 hlist'
          rcases List.mem_cons.1 hb with rfl | hb
          · exact ⟨b, List.mem_cons_self, rfl⟩
          · obtain ⟨d, hd, heq⟩ := ih list₁ hlist₁ b hb
            exact ⟨d, List.mem_cons_of_mem c hd, heq⟩
  intro b hb
  unfold bind at hb
  dsimp only at hb
  cases hre : rebind ⟨canonicalizePath path, target⟩ binds with
  | none =>
      rw [hre, Option.getD_none] at hb
      rcases List.mem_cons.1 hb with rfl | hb
      · exact canonicalizePath_idem path
      · exact h b hb
  | some list' =>
      rw [hre, Option.getD_some] at hb
      obtain ⟨c, hc, heq⟩ := hloop _ _ _ hre b hb
      rw [← heq, h c hc]

/-- The prefixes of bindings are canonical. -/
theorem canonical_bindAll (calls : List (List UInt8 × Nat)) :
    ∀ b ∈ bindAll calls, canonicalizePath b.path = b.path := by
  have hfold : ∀ (calls : List (List UInt8 × Nat)) (binds : List FileSinkBind),
      (∀ b ∈ binds, canonicalizePath b.path = b.path) →
      ∀ b ∈ calls.foldl (fun binds call => bind binds call.1 call.2) binds,
        canonicalizePath b.path = b.path := by
    intro calls
    induction calls with
    | nil => exact fun binds h => h
    | cons call calls ih => exact fun binds h => ih _ (canonical_bind h call.2)
  exact hfold calls [] fun b hb => nomatch hb

end Bindings

/-! ## Runs -/

section Runs

variable {binds : List FileSinkBind} {trees : Trees} {rec : FileSourceRecord} {appended : Bool}
  {name : List UInt8} {target : Option (List UInt8)} {t t' : NodeTree} {n fs : Nat}

theorem nodeOp_path (rec : FileSourceRecord) (name : List UInt8) (target : Option (List UInt8)) :
    (nodeOp rec name target).path = name := by
  unfold nodeOp
  cases rec.type <;> rfl

/-- Setting the data of a record keeps the nodes. -/
theorem keeps_setRecord (t : NodeTree) (rec : FileSourceRecord) (n : Nat) :
    Reordered t (t.modify n (setRecord rec)) ∧ Keeps t (t.modify n (setRecord rec)) := by
  have hre : Reordered t (t.modify n (setRecord rec)) :=
    reordered_modify rfl rfl rfl (List.Perm.refl _)
  refine ⟨hre, hre.extends, fun i _ => ?_⟩
  rw [node_modify]
  split
  · rename_i heq
    rw [heq]
    rfl
  · rfl

theorem createNode_keeps (h : Linked t) (rec : FileSourceRecord) (name : List UInt8)
    (target : Option (List UInt8)) :
    Linked (createNode t rec name target).1 ∧ Keeps t (createNode t rec name target).1 := by
  rw [createNode]
  split
  · exact ⟨h, Keeps.refl t⟩
  have hlinked := h.run (nodeOp rec name target)
  have hkeeps := h.keeps_run (nodeOp rec name target)
  cases hrun : (nodeOp rec name target).run t with
  | mk t' res =>
      rw [hrun] at hlinked hkeeps
      cases res with
      | error e => exact ⟨hlinked, hkeeps⟩
      | ok n =>
          obtain ⟨hre, hset⟩ := keeps_setRecord t' rec n
          exact ⟨hlinked.reorder hre rfl, hkeeps.trans hset⟩

/-- All trees keep their nodes. -/
def KeepAll (trees trees' : Trees) : Prop :=
  ∀ fs, Linked (trees' fs) ∧ Keeps (trees fs) (trees' fs)

theorem keepAll_update (h : ∀ fs, Linked (trees fs)) (hlinked : Linked t)
    (hkeeps : Keeps (trees fs) t) : KeepAll trees (Function.update trees fs t) := by
  intro other
  by_cases hother : other = fs
  · rw [hother, Function.update_self]
    exact ⟨hlinked, hkeeps⟩
  · rw [Function.update_of_ne hother]
    exact ⟨h other, Keeps.refl _⟩

/-- What a record that is not skipped has done. -/
theorem addRecord_made (hadd : addRecord binds trees rec appended = (trees', some (some (fs, n)))) :
    ∃ it t', bindPointFromPath binds rec.fullPath = some it ∧ fs = it.target ∧
      retargetPath it rec.fullPath ≠ [] ∧
      createNode (trees fs) rec (retargetPath it rec.fullPath)
        (if rec.type = .hardLink then rec.linkTarget.map (retargetPath it) else rec.linkTarget) =
        (t', .ok n) ∧ trees' = Function.update trees fs t' := by
  cases hit : bindPointFromPath binds rec.fullPath with
  | none =>
      rw [addRecord, hit] at hadd
      cases hadd
  | some it =>
      rw [addRecord, hit] at hadd
      dsimp only at hadd
      by_cases hname : retargetPath it rec.fullPath = []
      · rw [if_pos hname] at hadd
        cases hadd
      rw [if_neg hname] at hadd
      cases hcreate : createNode (trees it.target) rec (retargetPath it rec.fullPath)
          (if rec.type = .hardLink then rec.linkTarget.map (retargetPath it)
            else rec.linkTarget) with
      | mk t' res =>
          rw [hcreate] at hadd
          cases res with
          | error e => cases hadd
          | ok n' =>
              dsimp only at hadd
              split at hadd
              · cases hadd
              · cases hadd
                exact ⟨it, t', rfl, rfl, hname, hcreate, rfl⟩

theorem addRecord_keeps (h : ∀ fs, Linked (trees fs)) (rec : FileSourceRecord) (appended : Bool) :
    KeepAll trees (addRecord binds trees rec appended).1 := by
  have hsame : KeepAll trees trees := fun fs => ⟨h fs, Keeps.refl _⟩
  cases hit : bindPointFromPath binds rec.fullPath with
  | none =>
      rw [addRecord, hit]
      exact hsame
  | some it =>
      rw [addRecord, hit]
      dsimp only
      by_cases hname : retargetPath it rec.fullPath = []
      · rw [if_pos hname]
        exact hsame
      rw [if_neg hname]
      have hkeeps := createNode_keeps (h it.target) rec (retargetPath it rec.fullPath)
        (if rec.type = .hardLink then rec.linkTarget.map (retargetPath it) else rec.linkTarget)
      cases hcreate : createNode (trees it.target) rec (retargetPath it rec.fullPath)
          (if rec.type = .hardLink then rec.linkTarget.map (retargetPath it)
            else rec.linkTarget) with
      | mk t' res =>
          rw [hcreate] at hkeeps
          have hupdate := keepAll_update h hkeeps.1 hkeeps.2
          cases res with
          | error e => exact hupdate
          | ok n =>
              dsimp only
              split
              · exact hupdate
              · exact hupdate

theorem addData_keeps (h : ∀ fs, Linked (trees fs)) (ended : Bool)
    (items : List (FileSourceRecord × Bool)) :
    KeepAll trees (addData binds ended trees items).trees := by
  induction items generalizing trees with
  | nil => exact fun fs => ⟨h fs, Keeps.refl _⟩
  | cons item items ih =>
      obtain ⟨rec, appended⟩ := item
      have hstep : KeepAll trees (addRecord binds trees rec appended).1 :=
        addRecord_keeps h rec appended
      rw [addData]
      split
      · rename_i trees' hadd
        rw [hadd] at hstep
        exact hstep
      · rename_i trees' made hadd
        rw [hadd] at hstep
        have hrest := ih fun fs => (hstep fs).1
        exact fun fs => ⟨(hrest fs).1, (hstep fs).2.trans (hrest fs).2⟩

/-- A node that was created, in the trees before and behind its record and in the end. -/
theorem addData_made (h : ∀ fs, Linked (trees fs)) {ended : Bool}
    {items : List (FileSourceRecord × Bool)} {i : Nat} {item : FileSourceRecord × Bool}
    (hitem : items[i]? = some item)
    (hmade : (addData binds ended trees items).made[i]? = some (some (fs, n))) :
    ∃ trees₁ trees₂, (∀ fs, Linked (trees₁ fs)) ∧
      addRecord binds trees₁ item.1 item.2 = (trees₂, some (some (fs, n))) ∧
      KeepAll trees₂ (addData binds ended trees items).trees := by
  induction items generalizing trees i with
  | nil => cases hitem
  | cons first items ih =>
      obtain ⟨rec, appended⟩ := first
      have hstep : KeepAll trees (addRecord binds trees rec appended).1 :=
        addRecord_keeps h rec appended
      rw [addData] at hmade ⊢
      split at hmade
      · cases hmade
      rename_i trees' made hadd
      rw [hadd] at hstep
      have hlinked : ∀ fs, Linked (trees' fs) := fun fs => (hstep fs).1
      cases i with
      | zero =>
          cases hitem
          cases hmade
          exact ⟨trees, trees', h, hadd, addData_keeps hlinked ended items⟩
      | succ i =>
          exact ih hlinked hitem hmade

theorem createNode_ok (hcreate : createNode t rec name target = (t', .ok n)) :
    ∃ t₀, (nodeOp rec name target).run t = (t₀, .ok n) ∧ t' = t₀.modify n (setRecord rec) := by
  rw [createNode] at hcreate
  split at hcreate
  · cases hcreate
  cases hrun : (nodeOp rec name target).run t with
  | mk t₀ res =>
      rw [hrun] at hcreate
      cases res with
      | error e => cases hcreate
      | ok n' =>
          cases hcreate
          exact ⟨t₀, rfl, rfl⟩

/-- What is left of a run at the node of a record. -/
theorem addData_node (h : ∀ fs, Linked (trees fs)) {ended : Bool}
    {items : List (FileSourceRecord × Bool)} {i : Nat} {item : FileSourceRecord × Bool}
    (hitem : items[i]? = some item)
    (hmade : (addData binds ended trees items).made[i]? = some (some (fs, n))) :
    ∃ it t t₀, bindPointFromPath binds item.1.fullPath = some it ∧ fs = it.target ∧
      retargetPath it item.1.fullPath ≠ [] ∧ Linked t ∧
      (nodeOp item.1 (retargetPath it item.1.fullPath)
        (if item.1.type = .hardLink then item.1.linkTarget.map (retargetPath it)
          else item.1.linkTarget)).run t = (t₀, .ok n) ∧
      Linked t₀ ∧ Linked ((addData binds ended trees items).trees fs) ∧
      Keeps t₀ ((addData binds ended trees items).trees fs) := by
  obtain ⟨trees₁, trees₂, hlinked, hadd, hkeep⟩ := addData_made h hitem hmade
  obtain ⟨it, t', hit, rfl, hname, hcreate, rfl⟩ := addRecord_made hadd
  obtain ⟨t₀, hrun, rfl⟩ := createNode_ok hcreate
  have hlinked₀ := (hlinked it.target).run (nodeOp item.1 (retargetPath it item.1.fullPath)
    (if item.1.type = .hardLink then item.1.linkTarget.map (retargetPath it)
      else item.1.linkTarget))
  rw [hrun] at hlinked₀
  have hend := hkeep it.target
  rw [Function.update_self] at hend
  exact ⟨it, _, t₀, hit, rfl, hname, hlinked it.target, hrun, hlinked₀, hend.1,
    (keeps_setRecord t₀ item.1 n).2.trans hend.2⟩

/-- The binding strips its prefix from a target only if the target begins with it as it is
written. -/
def Stripped (it : FileSinkBind) (target : List UInt8) : Prop :=
  it.path = [] ∨ ∃ rest, target = it.path ++ slash :: rest

/-- The components of the path that a record has in the file system. -/
theorem components_under {it : FileSinkBind} {path raw : List UInt8}
    (hit : canonicalizePath it.path = it.path) (hpath : path = canonicalizePath raw)
    (hunder : Under it.path path) :
    names raw = components it.path ++ components (retargetPath it path) ∧
      (it.path ≠ [] → components it.path ≠ []) ∧
      (retargetPath it path ≠ [] → suffix (retargetPath it path) ≠ []) := by
  have hsingle : SingleSlashes path := hpath ▸ singleSlashes_canonicalizePath raw
  have hnames : names raw = components path := by
    rw [hpath, components_canonicalizePath]
  have hlast : ∀ q : List UInt8, q ≠ [] → (∀ front, q ≠ front ++ [slash]) → suffix q ≠ [] := by
    intro q hq htrailing hnil
    rcases path_cases q with ⟨hsuffix, -⟩ | hsplit
    · exact hq (hsuffix.symm.trans hnil)
    · rw [hnil] at hsplit
      exact htrailing _ hsplit
  rcases hunder with ⟨hnil, -⟩ | ⟨hne, rest, hrest⟩
  · rw [retargetPath_nil hnil, hnil, hnames]
    exact ⟨rfl, fun hne => absurd rfl hne, fun hq => hlast path hq hsingle.trailing⟩
  · rw [retargetPath_under hne hrest, hnames, hrest, components_append_slash]
    refine ⟨rfl, fun _ hcomponents => hne ?_, fun hq => hlast rest hq fun front hfront => ?_⟩
    · rw [← hit, canonicalizePath_eq, ← components_canonicalizePath, hit, hcomponents]
      rfl
    · rw [hfront, ← List.cons_append, ← List.append_assoc] at hrest
      exact hsingle.trailing _ hrest

/-- In a run, a hard link with a target, the record that the target names, and their nodes.  Both
records are routed to one binding. -/
structure LinkAndTarget (binds : List FileSinkBind) (ended : Bool) (trees : Trees)
    (items : List (FileSourceRecord × Bool)) (it : FileSinkBind) (raw : List UInt8) (n m : Nat) :
    Prop where
  link : ∃ (i : Nat) (rec : FileSourceRecord) (appended : Bool),
    items[i]? = some (rec, appended) ∧ rec.type = .hardLink ∧ rec.linkTarget = some raw ∧
    bindPointFromPath binds rec.fullPath = some it ∧
    (addData binds ended trees items).made[i]? = some (some (it.target, n))
  source : ∃ (j : Nat) (rec : FileSourceRecord) (appended : Bool),
    items[j]? = some (rec, appended) ∧ rec.fullPath = canonicalizePath raw ∧
    bindPointFromPath binds rec.fullPath = some it ∧
    (addData binds ended trees items).made[j]? = some (some (it.target, m))

/-- What the tree in the end is about a hard link and its target; `q` is the path of the target
in the file system. -/
structure Retargeted (t : NodeTree) (it : FileSinkBind) (raw q : List UInt8) (n m : Nat) :
    Prop where
  linked : Linked t
  node_lt : n < t.count
  type_eq : (t.node n).type = .hardLink
  target_eq : (t.node n).target = canonicalizePath (retargetPath it raw)
  canonical : canonicalizePath it.path = it.path
  names_eq : names raw = components it.path ++ components q
  front_ne : it.path ≠ [] → components it.path ≠ []
  suffix_ne : suffix q ≠ []
  found : IsName (suffix q) → t.find root (components q) = .ok m

theorem LinkAndTarget.retargeted {calls : List (List UInt8 × Nat)} {ended : Bool}
    {items : List (FileSourceRecord × Bool)} {it : FileSinkBind} {raw : List UInt8} {m : Nat}
    (hpair : LinkAndTarget (bindAll calls) ended trees items it raw n m)
    (h : ∀ fs, Linked (trees fs)) : ∃ q,
      Retargeted ((addData (bindAll calls) ended trees items).trees it.target) it raw q n m := by
  obtain ⟨i, link, appended, hlink, htype, htarget, hit, hmade⟩ := hpair.link
  obtain ⟨j, source, appended', hsource, hpath, hit', hmade'⟩ := hpair.source
  obtain ⟨hmem, hunder⟩ := bindPointFromPath_some hit'
  have hcanonical := canonical_bindAll calls it hmem
  obtain ⟨hnames, hfront, hlast⟩ := components_under hcanonical hpath hunder
  -- the node of the target
  obtain ⟨it₁, t₁, t₁', hit₁, -, hname₁, hlinked₁, hrun₁, hlinked₁', hfinal, hkeeps₁⟩ :=
    addData_node h hsource hmade'
  rw [hit'] at hit₁
  cases hit₁
  have hsuffix := hlast hname₁
  -- the link
  obtain ⟨it₂, t₂, t₂', hit₂, -, -, hlinked₂, hrun₂, hlinked₂', -, hkeeps₂⟩ :=
    addData_node h hlink hmade
  rw [hit] at hit₂
  cases hit₂
  rw [if_pos htype, htarget, Option.map_some, nodeOp_hardLink htype] at hrun₂
  obtain ⟨t₃, parent, -, hadded⟩ := hlinked₂.added hrun₂
  have hn := hadded.lt.2
  refine ⟨retargetPath it source.fullPath, hfinal, Nat.lt_of_lt_of_le hn hkeeps₂.count_le,
    (hkeeps₂.type n hn).trans hadded.type_eq,
    (hkeeps₂.target n hn).trans (hadded.target_eq (by simp [AddOp.type])), hcanonical, hnames,
    hfront, hsuffix, ?_⟩
  intro hname
  have hadd := hlinked₁.find_added hrun₁
  rw [nodeOp_path] at hadd
  exact hkeeps₁.find hlinked₁'.toIsTree hfinal.toIsTree hlinked₁'.count_pos (hadd hname hsuffix)

section Retargeting

variable {it : FileSinkBind} {raw q : List UInt8} {m : Nat}

theorem Retargeted.isHardLink (h : Retargeted t it raw q n m) : t.isHardLink n = true :=
  (isHardLink_of_lt h.node_lt).2 h.type_eq

theorem Retargeted.lookupTarget (h : Retargeted t it raw q n m) : t.lookupTarget n =
    match t.find root (names (retargetPath it raw)) with
    | .ok target => .ok target
    | .error _ => t.find ((t.node n).parent.getD root) (names (retargetPath it raw)) := by
  have hlookup := lookupTarget_eq t n
  rw [h.target_eq, components_canonicalizePath] at hlookup
  exact hlookup

theorem Retargeted.suffix_mem (h : Retargeted t it raw q n m) : suffix q ∈ names raw := by
  rw [h.names_eq, components_path h.suffix_ne]
  simp

theorem Retargeted.getLast (h : Retargeted t it raw q n m) :
    (names raw).getLast? = some (suffix q) := by
  rw [h.names_eq, components_path h.suffix_ne, ← List.append_assoc]
  simp

/-- With the prefix stripped, the target leads to where the record is. -/
theorem Retargeted.resolvesTo (h : Retargeted t it raw q n m) (hstrip : Stripped it raw)
    (hdots : (names raw).getLast? ≠ some [dot, dot]) : t.ResolvesTo n m := by
  have hnames : names (retargetPath it raw) = components q := by
    by_cases hnil : it.path = []
    · rw [retargetPath_nil hnil, h.names_eq, hnil]
      rfl
    · obtain ⟨rest, hrest⟩ := hstrip.resolve_left hnil
      have hsplit := h.names_eq
      rw [hrest, names_append_slash, ← components_canonicalizePath it.path, h.canonical] at hsplit
      rw [retargetPath_under hnil hrest]
      exact List.append_cancel_left hsplit
  have hisName : IsName (suffix q) := by
    refine ⟨(mem_names.1 h.suffix_mem).2, fun heq => hdots ?_⟩
    rw [h.getLast, heq]
  rw [resolvesTo_iff h.linked h.isHardLink, h.lookupTarget, hnames, h.found hisName]

/-- With the prefix left in place, the target leads further down than the record is. -/
theorem Retargeted.stripped (h : Retargeted t it raw q n m) (hdots : [dot, dot] ∉ names raw)
    (hres : t.ResolvesTo n m) : Stripped it raw := by
  by_contra hnot
  have hnil : it.path ≠ [] := fun hnil => hnot (Or.inl hnil)
  have hraw : retargetPath it raw = raw :=
    retargetPath_of_not_under fun rest hrest => hnot (Or.inr ⟨rest, hrest⟩)
  have hisName : ∀ c ∈ components it.path ++ components q, IsName c := by
    intro c hc
    rw [← h.names_eq] at hc
    exact ⟨(mem_names.1 hc).2, fun heq => hdots (heq ▸ hc)⟩
  rw [List.forall_mem_append] at hisName
  have hfind := h.found (hisName.2 _ (components_path h.suffix_ne ▸ by simp))
  have hne : ∀ s, s < t.count → t.find s (names raw) ≠ .ok m := by
    intro s hs
    rw [h.names_eq]
    exact h.linked.find_append_ne hs hisName.2 hisName.1 (h.front_ne hnil) hfind
  have hlookup := hres.1
  rw [h.lookupTarget, hraw] at hlookup
  split at hlookup
  · rename_i target hroot
    cases hlookup
    exact hne root h.linked.count_pos hroot
  · refine hne _ ?_ hlookup
    cases hp : (t.node n).parent with
    | none => exact h.linked.count_pos
    | some p => exact Nat.lt_trans (h.linked.parentOf_lt h.node_lt hp).1 h.node_lt

end Retargeting

/-- A hard link resolves to the node of the record that its target names if the prefix of the
binding is stripped from the target as well; for targets without `..` only then. -/
theorem hardLink_resolvesTo_iff (calls : List (List UInt8 × Nat)) (h : ∀ fs, Linked (trees fs))
    {ended : Bool} {items : List (FileSourceRecord × Bool)} {it : FileSinkBind}
    {raw : List UInt8} {m : Nat}
    (hpair : LinkAndTarget (bindAll calls) ended trees items it raw n m) :
    (Stripped it raw → (names raw).getLast? ≠ some [dot, dot] →
      ((addData (bindAll calls) ended trees items).trees it.target).ResolvesTo n m) ∧
    ([dot, dot] ∉ names raw →
      (((addData (bindAll calls) ended trees items).trees it.target).ResolvesTo n m ↔
        Stripped it raw)) := by
  obtain ⟨q, hq⟩ := hpair.retargeted h
  refine ⟨hq.resolvesTo, fun hdots => ⟨hq.stripped hdots, fun hstrip => ?_⟩⟩
  exact hq.resolvesTo hstrip fun hlast => hdots (List.mem_of_getLast? hlast)

end Runs

/-! ## A link with a leading dot -/

/-- A file `usr/a`. -/
def usrFile : FileSourceRecord :=
  ⟨.file, 0o644, 0, 0, 0, 0, 0, 0, [117, 115, 114, 47, 97], none⟩

/-- A hard link `usr/b`. -/
def usrLink (raw : List UInt8) : FileSourceRecord :=
  ⟨.hardLink, 0o644, 0, 0, 0, 0, 0, 0, [117, 115, 114, 47, 98], some raw⟩

/-- The binding of `/usr`. -/
def usrBind : FileSinkBind := ⟨[117, 115, 114], 0⟩

section Example

variable {raw : List UInt8}

theorem bindAll_usr : bindAll [([47, 117, 115, 114], 0)] = [usrBind] := by decide

/-- A record of a new name in the root of the bound file system. -/
theorem addRecord_usr {trees : Trees} {rec : FileSourceRecord} {name : List UInt8}
    {target : Option (List UInt8)} (h : Linked (trees 0))
    (hbind : bindPointFromPath [usrBind] rec.fullPath = some usrBind)
    (hname : retargetPath usrBind rec.fullPath = name) (hne : name ≠ [])
    (htarget : (if rec.type = .hardLink then rec.linkTarget.map (retargetPath usrBind)
      else rec.linkTarget) = target)
    (hvalid : ¬ ((rec.type = .symlink ∨ rec.type = .hardLink) ∧ target.getD [] = []))
    (hlacks : ¬ (nodeOp rec name target).LacksTarget) (hslash : slash ∉ name)
    (hnew : (trees 0).findChild root name = none) :
    ∃ t, addRecord [usrBind] trees rec true =
        (Function.update trees 0 t, some (some (0, (trees 0).count))) ∧
      t = (((trees 0).link root ((trees 0).explicitNode root name (nodeOp rec name target).type
        (nodeOp rec name target).extra)).modify (trees 0).count
          (nodeOp rec name target).finish).modify (trees 0).count (setRecord rec) := by
  have hpath := nodeOp_path rec name target
  have hrun := AddOp.run_name h.toIsTree (hpath.symm ▸ hslash) hlacks (hpath.symm ▸ hnew)
  rw [hpath] at hrun
  refine ⟨_, ?_, rfl⟩
  rw [addRecord, hbind]
  dsimp only
  rw [hname, if_neg hne, htarget, createNode, if_neg hvalid]
  simp only [usrBind, hrun, onCreated, Bool.not_true, Bool.false_eq_true, and_false, if_false]

theorem addData_usr (hraw : retargetPath usrBind raw ≠ []) :
    (addData (bindAll [([47, 117, 115, 114], 0)]) true (fun _ => create)
      [(usrFile, true), (usrLink raw, true)]).made = [some (0, 1), some (0, 2)] := by
  obtain ⟨t, hfirst, ht⟩ := @addRecord_usr (fun _ => create) usrFile [97] none create_linked
    (by decide) (by decide) (by decide) rfl (by decide) (fun h => absurd h.1 (by decide))
    (by decide) rfl
  have hlinked : Linked t := by
    have hkeeps : KeepAll (fun _ => create)
        (addRecord [usrBind] (fun _ => create) usrFile true).1 :=
      addRecord_keeps (fun _ => create_linked) usrFile true
    rw [hfirst] at hkeeps
    have hzero := (hkeeps 0).1
    dsimp only at hzero
    rwa [Function.update_self] at hzero
  have hcount : t.count = 2 := by
    rw [ht]
    rfl
  have hnew : t.findChild root [98] = none := by
    rw [ht]
    rfl
  obtain ⟨t', hsecond, -⟩ := @addRecord_usr (Function.update (fun _ => create) 0 t) (usrLink raw)
    [98] (some (retargetPath usrBind raw)) (by rwa [Function.update_self]) rfl rfl
    (by decide) rfl (fun h => hraw h.2) (fun h => nomatch h.2) (by decide)
    (by rwa [Function.update_self])
  rw [Function.update_self, hcount] at hsecond
  rw [bindAll_usr, addData, hfirst]
  dsimp only
  rw [addData, hsecond]
  rfl

theorem linkAndTarget_usr (hraw : retargetPath usrBind raw ≠ [])
    (hpath : canonicalizePath raw = usrFile.fullPath) :
    LinkAndTarget (bindAll [([47, 117, 115, 114], 0)]) true (fun _ => create)
      [(usrFile, true), (usrLink raw, true)] usrBind raw 2 1 := by
  have hmade := addData_usr hraw
  refine ⟨⟨1, usrLink raw, true, rfl, rfl, rfl, rfl, ?_⟩,
    ⟨0, usrFile, true, rfl, hpath.symm, by decide, ?_⟩⟩
  · rw [hmade]
    rfl
  · rw [hmade]
    rfl

theorem hardLink_resolvesTo_usr :
    ((addData (bindAll [([47, 117, 115, 114], 0)]) true (fun _ => create)
      [(usrFile, true), (usrLink [117, 115, 114, 47, 97], true)]).trees 0).ResolvesTo 2 1 :=
  (hardLink_resolvesTo_iff [([47, 117, 115, 114], 0)] (fun _ => create_linked)
    (linkAndTarget_usr (by decide) (by decide))).1 (Or.inr ⟨[97], rfl⟩) (by decide)

/-- The prefix is not stripped from `./usr/a`. -/
theorem hardLink_resolvesTo_fails :
    ¬ ∀ (calls : List (List UInt8 × Nat)) (trees : Trees), (∀ fs, Linked (trees fs)) →
      ∀ (ended : Bool) (items : List (FileSourceRecord × Bool)) (it : FileSinkBind)
        (raw : List UInt8) (n m : Nat),
      LinkAndTarget (bindAll calls) ended trees items it raw n m →
      ((addData (bindAll calls) ended trees items).trees it.target).ResolvesTo n m := by
  intro hall
  have hpair := @linkAndTarget_usr [46, 47, 117, 115, 114, 47, 97] (by decide) (by decide)
  obtain ⟨q, hq⟩ := hpair.retargeted fun _ => create_linked
  rcases hq.stripped (by decide) (hall _ _ (fun _ => create_linked) _ _ _ _ _ _ hpair) with
    hnil | ⟨rest, hrest⟩
  · exact absurd hnil (by decide)
  · exact absurd hrest (by simp [usrBind])

end Example

end FileSink

end ImageTool.Imgtool
