import ImageTool.Fstree.SortLinks

/-!
# Relisting the nodes by their type

`linearize_dir_tree` puts the nodes of a type below a directory into one list: those among
its children first, then the list of each directory among them, with the end of the list
tracked.  `fstree_sort` does so for each type, and puts the root in front of the directories.
-/

namespace ImageTool.Fstree

open Lib

/-- A loop over a list whose nodes keep their pointers: what one turn carries on holds for the
whole list in the end. -/
theorem forEach_rule {σ : Type} {next : σ → Nat → Option Nat} {body : σ → Nat → Option σ}
    {links : Nat → Option Nat} {list : List Nat} (inv : List Nat → σ → Prop)
    (hnext : ∀ done s, inv done s → next s = links)
    (hstep : ∀ done a rest s, list = done ++ a :: rest → inv done s →
      ∃ s', body s a = some s' ∧ inv (done ++ [a]) s')
    {s : σ} {head : Option Nat} {bound : Nat} (h : Chain links head list)
    (hbound : list.length ≤ bound) (hinv : inv [] s) :
    ∃ s', forEach next body bound s head = some s' ∧ inv list s' := by
  have hloop : ∀ (rest done : List Nat) (s : σ) (head : Option Nat) (bound : Nat),
      list = done ++ rest → Chain links head rest → rest.length ≤ bound → inv done s →
      ∃ s', forEach next body bound s head = some s' ∧ inv list s' := by
    intro rest
    induction rest with
    | nil =>
        intro done s head bound hlist hchain _ hinv
        rw [chain_nil] at hchain
        rw [List.append_nil] at hlist
        subst hchain
        rw [hlist]
        cases bound <;> exact ⟨s, rfl, hinv⟩
    | cons a rest ih =>
        intro done s head bound hlist hchain hbound hinv
        obtain ⟨rfl, hrest⟩ := hchain
        obtain ⟨s₁, hbody, hinv₁⟩ := hstep done a rest s hlist hinv
        cases bound with
        | zero => simp at hbound
        | succ bound =>
            have hmore := ih (done ++ [a]) s₁ (links a) bound (by simpa using hlist) hrest
              (by simpa using hbound) hinv₁
            rw [forEach, hbody]
            simp only [Option.bind_eq_bind, Option.bind_some]
            rw [hnext _ s₁ hinv₁]
            exact hmore
  exact hloop list [] s head bound rfl h hbound hinv

/-- The walk along the pointers ends at the last node. -/
theorem walkToEnd_spec {nextByType : Nat → Option Nat} {last : Nat} {list : List Nat}
    {bound : Nat} (h : Chain nextByType (nextByType last) list) (hbound : list.length < bound) :
    walkToEnd nextByType bound last = some (list.getLast?.getD last) := by
  induction list generalizing last bound with
  | nil =>
      cases bound with
      | zero => simp at hbound
      | succ bound =>
          rw [chain_nil] at h
          rw [walkToEnd, h]
          rfl
  | cons a list ih =>
      cases bound with
      | zero => simp at hbound
      | succ bound =>
          rw [walkToEnd, h.1]
          have hwalk := ih h.2 (by simpa using hbound)
          rw [List.getLast?_cons]
          exact hwalk

namespace TreeLinks

/-- What has been put together: a chain of some nodes, and its last node. -/
structure Listed (s : TreeLinks) (l : Listing) (list : List Nat) : Prop where
  chain : Chain l.links.nextByType l.list list
  last : l.listLast = list.getLast?
  frame : ∀ a, a ∉ list → l.links.nextByType a = s.nextByType a
  next : l.links.next = s.next
  children : l.links.children = s.children
  nodesByType : l.links.nodesByType = s.nodesByType

section Joints

variable {s s₁ : TreeLinks} {l : Listing} {list sub : List Nat} {t : NodeTree}
  {type : TreeNodeType}

/-- Nothing is listed yet, or `list` and `list_last` are set. -/
theorem Listed.cases_list (h : Listed s l list) :
    (list = [] ∧ l.list = none ∧ l.listLast = none) ∨
      ∃ front a head, list = front ++ [a] ∧ l.list = some head ∧ l.listLast = some a := by
  rcases List.eq_nil_or_concat list with hnil | ⟨front, a, hlist⟩
  · subst hnil
    exact Or.inl ⟨rfl, h.chain, h.last⟩
  · rw [List.concat_eq_append] at hlist
    subst hlist
    have hlast := h.last
    rw [List.getLast?_concat] at hlast
    have hhead := h.chain.head_eq
    cases front with
    | nil => exact Or.inr ⟨[], a, a, rfl, hhead, hlast⟩
    | cons b front => exact Or.inr ⟨b :: front, a, b, rfl, hhead, hlast⟩

/-- A child is put behind the list if it is of the type. -/
theorem Listed.listChild (h : Listed s l list) (t : NodeTree) (type : TreeNodeType) {it : Nat}
    (hit : it ∉ list) :
    ∃ l', TreeLinks.listChild t type l it = some l' ∧
      Listed s l' (list ++ [it].filter fun it => (t.node it).type = type) := by
  by_cases htype : (t.node it).type = type
  · have hfilter : [it].filter (fun it => decide ((t.node it).type = type)) = [it] := by
      simp [htype]
    rw [hfilter]
    unfold TreeLinks.listChild
    rw [if_pos htype]
    rcases h.cases_list with ⟨rfl, hhead, hlast⟩ | ⟨front, a, head, rfl, hhead, hlast⟩
    · rw [hhead]
      refine ⟨_, rfl, ?_, rfl, ?_, h.next, h.children, h.nodesByType⟩
      · exact ⟨rfl, Function.update_self ..⟩
      · intro a ha
        have hne : a ≠ it := by simpa using ha
        exact (Function.update_of_ne hne ..).trans (h.frame a List.not_mem_nil)
    · rw [hhead, hlast]
      have hchain := h.chain
      rw [hhead] at hchain
      refine ⟨_, rfl, ?_, ?_, ?_, h.next, h.children, h.nodesByType⟩
      · exact hchain.concat hit
      · exact (List.getLast?_concat ..).symm
      · intro c hc
        simp only [List.mem_append, List.mem_singleton, not_or] at hc
        calc Function.update (Function.update l.links.nextByType a (some it)) it none c
            = Function.update l.links.nextByType a (some it) c := Function.update_of_ne hc.2 ..
          _ = l.links.nextByType c := Function.update_of_ne hc.1.2 ..
          _ = s.nextByType c := h.frame c (by simpa using hc.1)
  · have hfilter : [it].filter (fun it => decide ((t.node it).type = type)) = [] := by
      simp [htype]
    rw [hfilter, List.append_nil]
    unfold TreeLinks.listChild
    rw [if_neg htype]
    exact ⟨l, rfl, h⟩

/-- The list of a directory is put behind the list. -/
theorem Listed.appendSublist (h : Listed s l list) {sublist : Option Nat} {fuel : Nat}
    (hsub : Chain s₁.nextByType sublist sub)
    (hframe : ∀ a, a ∉ sub → s₁.nextByType a = l.links.nextByType a)
    (hnext : s₁.next = l.links.next) (hchildren : s₁.children = l.links.children)
    (hbyType : s₁.nodesByType = l.links.nodesByType) (hnodup : (list ++ sub).Nodup)
    (hfuel : sub.length < fuel) :
    ∃ l', TreeLinks.appendSublist fuel { l with links := s₁ } sublist = some l' ∧
      Listed s l' (list ++ sub) := by
  have hapart := (List.nodup_append.1 hnodup).2.2
  have hchain : Chain s₁.nextByType l.list list :=
    h.chain.congr fun a ha => hframe a fun hmem => hapart a ha a hmem rfl
  have hkept : ∀ a, a ∉ list ++ sub → s₁.nextByType a = s.nextByType a := by
    intro a ha
    rw [List.mem_append, not_or] at ha
    exact (hframe a ha.2).trans (h.frame a ha.1)
  cases sub with
  | nil =>
      rw [chain_nil] at hsub
      subst hsub
      rw [List.append_nil] at hkept ⊢
      exact ⟨{ l with links := s₁ }, rfl, hchain, h.last, hkept, hnext.trans h.next,
        hchildren.trans h.children, hbyType.trans h.nodesByType⟩
  | cons b sub =>
      obtain ⟨rfl, hrest⟩ := hsub
      simp only [List.length_cons] at hfuel
      unfold TreeLinks.appendSublist
      rcases h.cases_list with ⟨rfl, hhead, hlast⟩ | ⟨front, a, head, rfl, hhead, hlast⟩
      · rw [hhead]
        have hwalk := walkToEnd_spec hrest (show _ < fuel by omega)
        simp only [Option.bind_eq_bind, Option.bind_some, hwalk]
        refine ⟨_, rfl, ⟨rfl, hrest⟩, ?_, hkept, hnext.trans h.next,
          hchildren.trans h.children, hbyType.trans h.nodesByType⟩
        rw [List.nil_append, List.getLast?_cons]
      · rw [hhead] at hchain ⊢
        rw [hlast]
        have hfront : a ∉ b :: sub := by
          intro hmem
          exact hapart a (by simp) a hmem rfl
        have hsub : Chain s₁.nextByType (some b) (b :: sub) := ⟨rfl, hrest⟩
        have hjoined := hchain.join hsub hnodup
        have hbehind : Chain (Function.update s₁.nextByType a (some b))
            (Function.update s₁.nextByType a (some b) a) (b :: sub) := by
          rw [Function.update_self]
          exact hsub.update hfront
        have hwalk := walkToEnd_spec hbehind (show _ < fuel from hfuel)
        simp only [Option.bind_eq_bind, Option.bind_some, setNextByType, hwalk]
        refine ⟨_, rfl, hjoined, ?_, ?_, hnext.trans h.next, hchildren.trans h.children,
          hbyType.trans h.nodesByType⟩
        · rw [List.getLast?_append, List.getLast?_cons]
          rfl
        · intro c hc
          have hne : c ≠ a := by
            intro heq
            rw [heq] at hc
            exact hc (by simp)
          exact (Function.update_of_ne hne ..).trans (hkept c hc)

end Joints

section Relisting

variable {s s' : TreeLinks} {t : NodeTree} {n : Nat}

theorem linearizeDirTree_nodup (h : NodeTree.IsTree t) {type : TreeNodeType} {fuel : Nat}
    (hn : n < t.count) (hfuel : t.count ≤ fuel + n) {list : List Nat}
    (hlist : NodeTree.linearizeDirTree fuel t type n = some list) :
    list.Nodup ∧ list.length < t.count - n := by
  obtain ⟨list', hlist', hnodup, hmem⟩ := NodeTree.exists_linearizeDirTree h type fuel n hn hfuel
  rw [hlist] at hlist'
  cases hlist'
  refine ⟨hnodup, length_lt_of_between hnodup hn ?_⟩
  intro i hi
  obtain ⟨hcount, _, hbelow⟩ := (hmem i).1 hi
  exact ⟨h.below_lt hcount hbelow, hcount⟩

/-- The children of a type are listed. -/
theorem forEach_listChild (t : NodeTree) (type : TreeNodeType) {list : List Nat}
    {head : Option Nat} {bound : Nat} (h : Chain s.next head list) (hbound : list.length ≤ bound) :
    ∃ l, forEach (fun l => l.links.next) (listChild t type) bound ⟨s, none, none⟩ head = some l ∧
      Listed s l (list.filter fun it => (t.node it).type = type) := by
  refine forEach_rule (fun done l => Listed s l (done.filter fun it => (t.node it).type = type))
    (fun done l hinv => hinv.next) ?_ h hbound ⟨rfl, rfl, fun _ _ => rfl, rfl, rfl, rfl⟩
  intro done c rest l hsplit hinv
  have hnodup := h.nodup
  rw [hsplit] at hnodup
  have hnot := (List.nodup_cons.1 (List.nodup_middle.1 hnodup)).1
  have hfresh : c ∉ done.filter fun it => (t.node it).type = type := by
    intro hmem
    exact hnot (List.mem_append_left _ (List.mem_filter.1 hmem).1)
  have hstep := hinv.listChild t type hfresh
  rwa [← List.filter_append] at hstep

/-- The lists of the directories among the children are put behind. -/
theorem forEach_appendSublist (t : NodeTree) (type : TreeNodeType) {fuel bound : Nat}
    {list first : List Nat} {head : Option Nat} {l : Listing} {sublists : List (List Nat)}
    (h : Chain s.next head list) (hbound : list.length ≤ bound) (hfirst : Listed s l first)
    (hsub : ∀ c ∈ list, (t.node c).type = .dir → ∀ s₁ : TreeLinks, s₁.next = s.next →
      s₁.children = s.children →
      ∃ sub s' head, NodeTree.linearizeDirTree fuel t type c = some sub ∧
        linearizeDirTree t type fuel s₁ c = some (s', head) ∧
        Listed s₁ ⟨s', head, sub.getLast?⟩ sub ∧ sub.length < bound)
    (hsublists : (list.filter fun it => (t.node it).type = .dir).mapM
      (NodeTree.linearizeDirTree fuel t type) = some sublists)
    (hnodup : (first ++ sublists.flatten).Nodup) :
    ∃ l', forEach (fun l => l.links.next)
        (appendDirectory t (linearizeDirTree t type fuel) bound) bound l head = some l' ∧
      Listed s l' (first ++ sublists.flatten) := by
  have hstep : ∀ done c rest l, list = done ++ c :: rest →
      (∃ lists, (done.filter fun it => (t.node it).type = .dir).mapM
        (NodeTree.linearizeDirTree fuel t type) = some lists ∧
        Listed s l (first ++ lists.flatten)) →
      ∃ l', appendDirectory t (linearizeDirTree t type fuel) bound l c = some l' ∧
        ∃ lists, ((done ++ [c]).filter fun it => (t.node it).type = .dir).mapM
          (NodeTree.linearizeDirTree fuel t type) = some lists ∧
          Listed s l' (first ++ lists.flatten) := by
    intro done c rest l hsplit hinv
    obtain ⟨lists, hlists, hlisted⟩ := hinv
    by_cases hdir : (t.node c).type = .dir
    · obtain ⟨sub, s', head', hlinear, hptr, hin, hshort⟩ := hsub c (by simp [hsplit]) hdir
        l.links hlisted.next hlisted.children
      -- the sublists so far are the first ones of all
      have hapart : (first ++ lists.flatten ++ sub).Nodup := by
        rw [hsplit, List.filter_append, List.filter_cons_of_pos (by simp [hdir]),
          List.mapM_append, hlists, List.mapM_cons, hlinear] at hsublists
        simp only [Option.bind_eq_bind, Option.bind_some, Option.pure_def,
          Option.bind_eq_some_iff, Option.some.injEq] at hsublists
        obtain ⟨_, ⟨more, -, rfl⟩, hall⟩ := hsublists
        rw [← hall, List.flatten_append, List.flatten_cons, ← List.append_assoc,
          ← List.append_assoc] at hnodup
        exact (List.nodup_append.1 hnodup).1
      obtain ⟨l', happend, hlisted'⟩ := hlisted.appendSublist hin.chain hin.frame hin.next
        hin.children hin.nodesByType hapart hshort
      refine ⟨l', ?_, lists ++ [sub], ?_, ?_⟩
      · rw [appendDirectory, if_neg (by simpa using hdir), hptr]
        exact happend
      · rw [List.filter_append, List.filter_cons_of_pos (by simp [hdir]), List.filter_nil,
          List.mapM_append, hlists, List.mapM_cons, hlinear]
        rfl
      · rw [List.flatten_append, List.flatten_singleton, ← List.append_assoc]
        exact hlisted'
    · refine ⟨l, if_pos hdir, lists, ?_, hlisted⟩
      rw [List.filter_append, List.filter_cons_of_neg (by simp [hdir]), List.filter_nil,
        List.append_nil]
      exact hlists
  obtain ⟨l', hloop, lists, hlists, hlisted⟩ := forEach_rule _
    (fun done l hinv => hinv.choose_spec.2.next) hstep h hbound ⟨[], rfl, by simpa using hfirst⟩
  rw [hsublists] at hlists
  cases hlists
  exact ⟨l', hloop, hlisted⟩

/-- The nodes of a type below a directory are linked in the order of their list. -/
theorem linearizeDirTree_listed (h : NodeTree.IsTree t) (type : TreeNodeType) (fuel n : Nat)
    (hn : n < t.count) (hdir : (t.node n).type = .dir) (hfuel : t.count ≤ fuel + n)
    (s : TreeLinks) (hchains : ChainsIn t (fun _ => True) t s) :
    ∃ list s' head, NodeTree.linearizeDirTree fuel t type n = some list ∧
      linearizeDirTree t type fuel s n = some (s', head) ∧
      Listed s ⟨s', head, list.getLast?⟩ list := by
  induction fuel generalizing n s with
  | zero => omega
  | succ fuel ih =>
      obtain ⟨list, hlist, -⟩ := NodeTree.exists_linearizeDirTree h type (fuel + 1) n hn hfuel
      have hnodup := (linearizeDirTree_nodup h hn hfuel hlist).1
      have hdecompose := hlist
      rw [NodeTree.linearizeDirTree] at hdecompose
      simp only [Option.bind_eq_bind, Option.bind_eq_some_iff, Option.some.injEq] at hdecompose
      obtain ⟨sublists, hsublists, hwhole⟩ := hdecompose
      subst hwhole
      have hchain : Chain s.next (s.children n) (t.node n).children := hchains n hn trivial hdir
      have hlength := length_lt_of_between (h.nodup n hn) hn fun c hc => h.lt_child hn hc
      have hbound : (t.node n).children.length ≤ fuel + 1 := by omega
      obtain ⟨l, hfirst, hlisted⟩ := forEach_listChild t type hchain hbound
      have hsub : ∀ c ∈ (t.node n).children, (t.node c).type = .dir → ∀ s₁ : TreeLinks,
          s₁.next = s.next → s₁.children = s.children →
          ∃ sub s' head, NodeTree.linearizeDirTree fuel t type c = some sub ∧
            linearizeDirTree t type fuel s₁ c = some (s', head) ∧
            Listed s₁ ⟨s', head, sub.getLast?⟩ sub ∧ sub.length < fuel + 1 := by
        intro c hc hcdir s₁ hnext hchildren
        obtain ⟨hnc, hct⟩ := h.lt_child hn hc
        have hchains₁ : ChainsIn t (fun _ => True) t s₁ := by
          unfold ChainsIn
          rw [hnext, hchildren]
          exact hchains
        obtain ⟨sub, s', head, hlinear, hptr, hin⟩ := ih c hct hcdir (by omega) s₁ hchains₁
        have hshort := (linearizeDirTree_nodup h hct (by omega) hlinear).2
        exact ⟨sub, s', head, hlinear, hptr, hin, by omega⟩
      obtain ⟨l', hsecond, hlisted'⟩ :=
        forEach_appendSublist t type hchain hbound hlisted hsub hsublists hnodup
      refine ⟨_, l'.links, l'.list, hlist, ?_, ?_⟩
      · rw [linearizeDirTree, hfirst]
        simp only [Option.bind_eq_bind, Option.bind_some, hlisted.children]
        rw [hsecond]
        rfl
      · rw [← hlisted'.last]
        exact hlisted'

/-- Of the nodes, only the types count. -/
theorem linearizeDirTree_congr {T : NodeTree}
    (htype : ∀ i, (t.node i).type = (T.node i).type) (type : TreeNodeType) (fuel : Nat) :
    linearizeDirTree t type fuel = linearizeDirTree T type fuel := by
  have hchild : listChild t type = listChild T type := by
    funext l it
    rw [listChild, listChild, htype]
  have hdirectory : appendDirectory t = appendDirectory T := by
    funext linearize bound l it
    rw [appendDirectory, appendDirectory, htype]
  induction fuel with
  | zero => rfl
  | succ fuel ih =>
      funext s n
      rw [linearizeDirTree, linearizeDirTree, hchild, hdirectory, ih]

/-- What the loop over some types leaves: the nodes of each of them are linked. -/
structure Relisted (types : List TreeNodeType) (t : NodeTree) (s : TreeLinks) (t' : NodeTree)
    (s' : TreeLinks) : Prop where
  node : t'.node = t.node
  count : t'.count = t.count
  next : s'.next = s.next
  children : s'.children = s.children
  listed : ∀ type ∈ types, Chain s'.nextByType (s'.nodesByType type) (t'.nodesByType type)
  mem : ∀ type ∈ types, ∀ i ∈ t'.nodesByType type,
    i ≠ NodeTree.root ∧ (t.node i).type = type
  others : ∀ type, type ∉ types →
    s'.nodesByType type = s.nodesByType type ∧ t'.nodesByType type = t.nodesByType type
  frame : ∀ i, (t.node i).type ∉ types → s'.nextByType i = s.nextByType i

theorem relistType_relisted {T : NodeTree} (h : NodeTree.IsTree t)
    (hre : NodeTree.Reordered T t) (hchains : ChainsIn t (fun _ => True) t s)
    (type : TreeNodeType) :
    ∃ t' s', NodeTree.relistType t type = some t' ∧ relistType T s type = some s' ∧
      Relisted [type] t s t' s' := by
  obtain ⟨list, s₁, head, hlist, hptr, hlisted⟩ := linearizeDirTree_listed h type t.count
    NodeTree.root h.count_pos h.root_type (Nat.le_add_right ..) s hchains
  obtain ⟨list', hlist', -, hmem⟩ := NodeTree.exists_linearizeDirTree h type t.count
    NodeTree.root h.count_pos (Nat.le_add_right ..)
  rw [hlist] at hlist'
  cases hlist'
  refine ⟨{ t with nodesByType := Function.update t.nodesByType type list },
    { s₁ with nodesByType := Function.update s₁.nodesByType type head }, ?_, ?_, ?_⟩
  · rw [NodeTree.relistType, hlist]
    rfl
  · rw [relistType, ← hre.count, ← linearizeDirTree_congr hre.type, hptr]
    rfl
  constructor
  · rfl
  · rfl
  · exact hlisted.next
  · exact hlisted.children
  · intro other hother
    rw [List.mem_singleton.1 hother]
    change Chain s₁.nextByType (Function.update s₁.nodesByType type head type)
      (Function.update t.nodesByType type list type)
    rw [Function.update_self, Function.update_self]
    exact hlisted.chain
  · intro other hother i hi
    rw [List.mem_singleton.1 hother] at hi ⊢
    change i ∈ Function.update t.nodesByType type list type at hi
    rw [Function.update_self] at hi
    obtain ⟨hcount, htype, hbelow⟩ := (hmem i).1 hi
    have hlt := h.below_lt hcount hbelow
    exact ⟨by omega, htype⟩
  · intro other hother
    have hne : other ≠ type := by simpa using hother
    have hsame : s₁.nodesByType other = s.nodesByType other :=
      congrFun hlisted.nodesByType other
    exact ⟨(Function.update_of_ne hne ..).trans hsame, Function.update_of_ne hne ..⟩
  · intro i hi
    refine hlisted.frame i ?_
    intro hin
    exact hi (List.mem_singleton.2 ((hmem i).1 hin).2.1)

/-- The list of one type stays while those of other types are put together. -/
theorem Relisted.cons {type : TreeNodeType} {types : List TreeNodeType} {t₁ t' : NodeTree}
    {s₁ : TreeLinks} (h : Relisted [type] t s t₁ s₁) (h' : Relisted types t₁ s₁ t' s')
    (hnot : type ∉ types) : Relisted (type :: types) t s t' s' where
  node := h'.node.trans h.node
  count := h'.count.trans h.count
  next := h'.next.trans h.next
  children := h'.children.trans h.children
  listed other hother := by
    by_cases hrest : other ∈ types
    · exact h'.listed other hrest
    · have heq : other = type := (List.mem_cons.1 hother).resolve_right hrest
      subst heq
      rw [(h'.others other hrest).1, (h'.others other hrest).2]
      refine (h.listed other (List.mem_singleton_self other)).congr ?_
      intro i hi
      have htype := (h.mem other (List.mem_singleton_self other) i hi).2
      refine h'.frame i ?_
      rw [h.node, htype]
      exact hrest
  mem other hother i hi := by
    by_cases hrest : other ∈ types
    · have hin := h'.mem other hrest i hi
      rwa [h.node] at hin
    · have heq : other = type := (List.mem_cons.1 hother).resolve_right hrest
      subst heq
      rw [(h'.others other hrest).2] at hi
      exact h.mem other (List.mem_singleton_self other) i hi
  others other hother := by
    rw [List.mem_cons, not_or] at hother
    have hfirst := h.others other (by simpa using hother.1)
    have hrest := h'.others other hother.2
    exact ⟨hrest.1.trans hfirst.1, hrest.2.trans hfirst.2⟩
  frame i hi := by
    rw [List.mem_cons, not_or] at hi
    have hrest : (t₁.node i).type ∉ types := by
      rw [h.node]
      exact hi.2
    exact (h'.frame i hrest).trans (h.frame i (by simpa using hi.1))

/-- The loop over the types. -/
theorem foldlM_relisted {T : NodeTree} (types : List TreeNodeType) (hnodup : types.Nodup)
    (h : NodeTree.IsTree t) (hre : NodeTree.Reordered T t)
    (hchains : ChainsIn t (fun _ => True) t s) :
    ∃ t' s', types.foldlM NodeTree.relistType t = some t' ∧
      types.foldlM (relistType T) s = some s' ∧ Relisted types t s t' s' := by
  induction types generalizing t s with
  | nil =>
      refine ⟨t, s, rfl, rfl, rfl, rfl, rfl, rfl, ?_, ?_, fun _ _ => ⟨rfl, rfl⟩, fun _ _ => rfl⟩
      · simp
      · simp
  | cons type types ih =>
      obtain ⟨hnot, hnodup'⟩ := List.nodup_cons.1 hnodup
      obtain ⟨t₁, s₁, ht₁, hs₁, hfirst⟩ := relistType_relisted h hre hchains type
      have hre₁ : NodeTree.Reordered t t₁ :=
        ⟨hfirst.count, by simp [hfirst.node], by simp [hfirst.node], by simp [hfirst.node],
          fun i => by rw [hfirst.node]⟩
      have hchains₁ : ChainsIn t₁ (fun _ => True) t₁ s₁ := by
        unfold ChainsIn
        rw [hfirst.count, hfirst.node, hfirst.next, hfirst.children]
        exact hchains
      obtain ⟨t', s', ht', hs', hrest⟩ :=
        ih hnodup' (h.reorder hre₁) (hre.trans hre₁) hchains₁
      refine ⟨t', s', ?_, ?_, hfirst.cons hrest hnot⟩
      · rw [List.foldlM_cons, ht₁]
        exact ht'
      · rw [List.foldlM_cons, hs₁]
        exact hs'

end Relisting

/-! ## The tree that the pointers stand for -/

/-- The pointers of `fstree_create`. -/
def create : TreeLinks where
  next := fun _ => none
  nextByType := fun _ => none
  children := fun _ => none
  nodesByType := fun type => if type = .dir then some NodeTree.root else none

/-- `mknode_at` puts a new node in front of the children of a directory and of the nodes of
its type. -/
def link (s : TreeLinks) (parent n : Nat) (type : TreeNodeType) : TreeLinks where
  next := Function.update s.next n (s.children parent)
  nextByType := Function.update s.nextByType n (s.nodesByType type)
  children := Function.update (Function.update s.children n none) parent (some n)
  nodesByType := Function.update s.nodesByType type (some n)

/-- The pointers stand for the lists of a tree. -/
structure Represents (t : NodeTree) (s : TreeLinks) : Prop where
  children : ∀ p, p < t.count → (t.node p).type = .dir →
    Chain s.next (s.children p) (t.node p).children
  byType : ∀ type, Chain s.nextByType (s.nodesByType type) (t.nodesByType type)

section Representation

variable {s : TreeLinks} {t : NodeTree} {n : Nat}

theorem create_represents : Represents NodeTree.create create where
  children p hp _ := by
    have hroot : p = NodeTree.root := Nat.lt_one_iff.1 hp
    subst hroot
    exact rfl
  byType type := by
    unfold NodeTree.create create
    dsimp only
    split
    · exact ⟨rfl, rfl⟩
    · rfl

theorem Represents.link (h : Represents t s) (ht : NodeTree.Linked t) {parent : Nat}
    (hparent : parent < t.count) {node : TreeNode} (hnil : node.children = []) :
    Represents (t.link parent node) (s.link parent t.count node.type) where
  children p hp hdir := by
    have hfresh : ∀ q, q < t.count → t.count ∉ (t.node q).children := by
      intro q hq hmem
      exact Nat.lt_irrefl _ (ht.children q hq _ hmem).1
    have hne : t.count ≠ parent := Nat.ne_of_gt hparent
    rw [NodeTree.node_link] at hdir ⊢
    by_cases hnew : p = t.count
    · rw [if_pos hnew, hnil, chain_nil, hnew]
      change Function.update (Function.update s.children t.count none) parent _ t.count = none
      rw [Function.update_of_ne hne, Function.update_self]
    · rw [if_neg hnew] at hdir ⊢
      have hlt : p < t.count := Nat.lt_of_le_of_ne (Nat.le_of_lt_succ hp) hnew
      by_cases hself : p = parent
      · subst hself
        rw [if_pos rfl] at hdir ⊢
        refine ⟨Function.update_self .., ?_⟩
        change Chain (Function.update s.next t.count (s.children p))
          (Function.update s.next t.count (s.children p) t.count) _
        rw [Function.update_self]
        exact (h.children p hlt hdir).update (hfresh p hlt)
      · rw [if_neg hself] at hdir ⊢
        have hhead : (s.link parent t.count node.type).children p = s.children p := by
          change Function.update (Function.update s.children t.count none) parent _ p = _
          rw [Function.update_of_ne hself, Function.update_of_ne hnew]
        rw [hhead]
        exact (h.children p hlt hdir).update (hfresh p hlt)
  byType type := by
    have hfresh : ∀ type, t.count ∉ t.nodesByType type := by
      intro type hmem
      exact Nat.lt_irrefl _ ((ht.mem_byType type _).1 hmem).1
    change Chain (Function.update s.nextByType t.count (s.nodesByType node.type))
      (Function.update s.nodesByType node.type (some t.count) type)
      (Function.update t.nodesByType node.type (t.count :: t.nodesByType node.type) type)
    by_cases htype : type = node.type
    · subst htype
      rw [Function.update_self, Function.update_self]
      refine ⟨rfl, ?_⟩
      rw [Function.update_self]
      exact (h.byType _).update (hfresh _)
    · rw [Function.update_of_ne htype, Function.update_of_ne htype]
      exact (h.byType type).update (hfresh type)

/-- Sorting the pointers sorts the tree that they stand for. -/
theorem Represents.sort (h : Represents t s) (ht : NodeTree.Linked t) :
    ∃ t' s', t.sort = some t' ∧ TreeLinks.sort t s = some s' ∧ Represents t' s' ∧
      ∀ p, p < t.count →
        (t'.node p).children = NodeTree.sortNodeList t.nameLe (t.node p).children := by
  obtain ⟨t₁, s₁, ht₁, hs₁, hsorted⟩ := sortNodeRecursive_sortedIn ht.toIsTree t.count
    NodeTree.root ht.count_pos (Nat.le_add_right ..) t s (NodeTree.Reordered.refl t)
    fun p hp _ hdir => h.children p hp hdir
  have hwithin : ∀ p, p < t.count → Within t NodeTree.root p := by
    intro p hp
    by_cases hroot : p = NodeTree.root
    · rw [hroot]
      exact ⟨ht.count_pos, Relation.ReflTransGen.refl⟩
    · exact ⟨hp, (ht.below_root p hp hroot).to_reflTransGen⟩
  have htree : NodeTree.IsTree t₁ := ht.toIsTree.reorder hsorted.reordered
  have hchains : ChainsIn t₁ (fun _ => True) t₁ s₁ := by
    intro p hp _ hdir
    rw [hsorted.reordered.count] at hp
    rw [hsorted.reordered.type] at hdir
    exact hsorted.chains p hp (hwithin p hp) hdir
  obtain ⟨t₂, s₂, ht₂, hs₂, hrelisted⟩ := foldlM_relisted TreeNodeType.all (by decide) htree
    hsorted.reordered hchains
  refine ⟨{ t₂ with nodesByType :=
      Function.update t₂.nodesByType .dir (NodeTree.root :: t₂.nodesByType .dir) },
    { s₂.setNextByType NodeTree.root (s₂.nodesByType .dir) with
      nodesByType := Function.update s₂.nodesByType .dir (some NodeTree.root) }, ?_, ?_, ?_, ?_⟩
  · rw [NodeTree.sort, ht₁]
    change (TreeNodeType.all.foldlM NodeTree.relistType t₁).bind _ = _
    rw [ht₂]
    rfl
  · rw [TreeLinks.sort, hs₁]
    change (TreeNodeType.all.foldlM (relistType t) s₁).bind _ = _
    rw [hs₂]
    rfl
  · constructor
    · intro p hp hdir
      change Chain s₂.next (s₂.children p) (t₂.node p).children
      change p < t₂.count at hp
      change (t₂.node p).type = .dir at hdir
      rw [hrelisted.count] at hp
      rw [hrelisted.node] at hdir ⊢
      rw [hrelisted.next, hrelisted.children]
      exact hchains p hp trivial hdir
    · intro type
      have hlisted := hrelisted.listed type (NodeTree.mem_allTypes type)
      have hnot : ∀ type, NodeTree.root ∉ t₂.nodesByType type := by
        intro type hmem
        exact (hrelisted.mem type (NodeTree.mem_allTypes type) _ hmem).1 rfl
      change Chain (Function.update s₂.nextByType NodeTree.root (s₂.nodesByType .dir))
        (Function.update s₂.nodesByType .dir (some NodeTree.root) type)
        (Function.update t₂.nodesByType .dir (NodeTree.root :: t₂.nodesByType .dir) type)
      by_cases htype : type = .dir
      · subst htype
        rw [Function.update_self, Function.update_self]
        refine ⟨rfl, ?_⟩
        rw [Function.update_self]
        exact hlisted.update (hnot _)
      · rw [Function.update_of_ne htype, Function.update_of_ne htype]
        exact hlisted.update (hnot type)
  · intro p hp
    change (t₂.node p).children = _
    rw [hrelisted.node]
    exact hsorted.sorted p hp (hwithin p hp)

/-- The lists by type start with the root where it is in them. -/
theorem sort_head {t' : NodeTree} (h : t.sort = some t') :
    (t'.nodesByType .dir).head? = some NodeTree.root := by
  rw [NodeTree.sort] at h
  simp only [Option.bind_eq_bind, Option.bind_eq_some_iff, Option.some.injEq] at h
  obtain ⟨t₁, _, t₂, _, rfl⟩ := h
  change (Function.update t₂.nodesByType .dir _ .dir).head? = _
  rw [Function.update_self]
  rfl

/-- Both sorts of lists end, with the nodes in a stable order and all others untouched; and
sorting a tree ends, with the children of each directory in the order of their names, and each
node once in the list of its type, the root first. -/
theorem sort_lists :
    (∀ (cb : Nat → Nat → Int), TotalPreorder cb → ∀ (s : TreeLinks) (list : List Nat)
      (head : Option Nat) (fuel : Nat), list.length < fuel →
      (Chain s.next head list → ∃ s' head' sorted,
        s.sortNodeList cb fuel head = some (s', head') ∧ Chain s'.next head' sorted ∧
          SortedStable cb list sorted ∧ ∀ i, i ∉ list → s'.next i = s.next i) ∧
      (Chain s.nextByType head list → ∃ s' head' sorted,
        s.sortNodeListByType cb fuel head = some (s', head') ∧ Chain s'.nextByType head' sorted ∧
          SortedStable cb list sorted ∧ ∀ i, i ∉ list → s'.nextByType i = s.nextByType i)) ∧
    ∀ (t : NodeTree) (s : TreeLinks), NodeTree.Linked t → Represents t s →
      ∃ s', sort t s = some s' ∧
        (∀ p, p < t.count → (t.node p).type = .dir → ∃ sorted,
          Chain s'.next (s'.children p) sorted ∧
            SortedStable (nameCompareCb t) (t.node p).children sorted) ∧
        ∀ type, ∃ list, Chain s'.nextByType (s'.nodesByType type) list ∧ list.Nodup ∧
          (∀ i, i ∈ list ↔ i < t.count ∧ (t.node i).type = type) ∧
          (type = .dir → list.head? = some NodeTree.root) := by
  constructor
  · intro cb hcb s list head fuel hfuel
    have hstable := sortedStable_mergeSort hcb list
    constructor
    · intro h
      obtain ⟨next', head', hsort, hchain, hkeep⟩ := sortLinks_spec cb h hfuel
      refine ⟨{ s with next := next' }, head', _, ?_, hchain, hstable, hkeep⟩
      simp [sortNodeList, hsort]
    · intro h
      obtain ⟨next', head', hsort, hchain, hkeep⟩ := sortLinks_spec cb h hfuel
      refine ⟨{ s with nextByType := next' }, head', _, ?_, hchain, hstable, hkeep⟩
      simp [sortNodeListByType, hsort]
  · intro t s ht h
    obtain ⟨t', s', ht', hs', hrepresents, hchildren⟩ := h.sort ht
    obtain ⟨t'', hsort, hlinked, hre⟩ := NodeTree.exists_sort ht
    rw [ht'] at hsort
    cases hsort
    refine ⟨s', hs', ?_, ?_⟩
    · intro p hp hdir
      have hchain := hrepresents.children p (hre.count ▸ hp) ((hre.type p).trans hdir)
      rw [hchildren p hp, sortNodeList_eq_mergeSort, ← cbLe_nameCompareCb] at hchain
      exact ⟨_, hchain, sortedStable_mergeSort (nameCompareCb_totalPreorder t) _⟩
    · intro type
      refine ⟨t'.nodesByType type, hrepresents.byType type, hlinked.byType_nodup type, ?_, ?_⟩
      · intro i
        rw [hlinked.mem_byType, hre.count, hre.type]
      · intro htype
        rw [htype]
        exact sort_head ht'

/-- Two nodes that are out of order, and a file below the root. -/
theorem sort_lists_two :
    (∃ s' head' sorted,
      sortNodeList ((create.link 0 1 .file).link 0 2 .file) (fun lhs rhs : Nat => lhs - rhs) 3
        (some 2) = some (s', head') ∧ Chain s'.next head' sorted ∧
      SortedStable (fun lhs rhs : Nat => (lhs - rhs : Int)) [2, 1] sorted ∧
      ∀ i, i ∉ [2, 1] → s'.next i = ((create.link 0 1 .file).link 0 2 .file).next i) ∧
    ∃ s', sort (NodeTree.create.link 0 (NodeTree.create.explicitNode 0 [97] .file none))
        (create.link 0 1 .file) = some s' ∧
      ∃ list, Chain s'.nextByType (s'.nodesByType .dir) list ∧ list.head? = some 0 := by
  have hcb : TotalPreorder fun lhs rhs : Nat => (lhs - rhs : Int) :=
    ⟨fun a b c => by omega, fun a b => by omega⟩
  have hchain : Chain ((create.link 0 1 .file).link 0 2 .file).next (some 2) [2, 1] :=
    ⟨rfl, rfl, rfl⟩
  have hlinked : NodeTree.Linked
      (NodeTree.create.link 0 (NodeTree.create.explicitNode 0 [97] .file none)) :=
    NodeTree.create_linked.link NodeTree.create_linked.count_pos rfl rfl rfl rfl
  have hrepresents : Represents
      (NodeTree.create.link 0 (NodeTree.create.explicitNode 0 [97] .file none))
      (create.link 0 1 .file) :=
    create_represents.link NodeTree.create_linked NodeTree.create_linked.count_pos rfl
  have hlist := (sort_lists.1 _ hcb _ [2, 1] (some 2) 3 (by decide)).1 hchain
  obtain ⟨s', hsort, -, hbyType⟩ := sort_lists.2 _ _ hlinked hrepresents
  obtain ⟨list, hlisted, -, -, hhead⟩ := hbyType .dir
  exact ⟨hlist, s', hsort, list, hlisted, hhead rfl⟩

end Representation

end TreeLinks

end ImageTool.Fstree
